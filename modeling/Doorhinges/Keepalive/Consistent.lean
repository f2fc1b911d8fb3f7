import Doorhinges.Keepalive.Model
import Doorhinges.Lib.Assumed

/-!
# The state of a connection

The descriptor of a context is open where there is one, and a connected context has a descriptor
and both buffers. The functions keep this up as long as none is called on a context for which it
is too late: a function that is about to wait for the descriptor where there is none, or an append
or a read without a connection.
-/
namespace Doorhinges.Keepalive

open Lib.CString
open Lib.Redis (Reply)
open Lib.Program
open Lib.Machine
open Lib.Threads
open Lib.Assumed

section Definitions

/-- The descriptors that are open behind a call. -/
def openAfter (fds : List Nat) (c : Cmd) (r : Answer) : List Nat :=
  match c.op, r with
  | .redisConnect _, .opened fd => fd :: fds
  | .connectTcp _, r =>
    if (contextConnectTcp c.ctx r).1 then (contextConnectTcp c.ctx r).2.fd.toList ++ fds else fds
  | .close, _ => fds.filter fun fd => some fd ≠ c.ctx.fd
  | _, _ => fds

def Context.Valid (c : Context) (fds : List Nat) : Prop := ∃ fd ∈ fds, c.fd = some fd

/-- A connected context has a valid descriptor and its buffers. -/
def Context.Sound (c : Context) (fds : List Nat) : Prop :=
  c.connected = true → c.Valid fds ∧ c.obuf = true ∧ c.reader = true

/-- `select` has a valid descriptor, and no released buffer is used. -/
def Cmd.Usable (c : Cmd) (fds : List Nat) : Prop :=
  match c.op with
  | .select => c.ctx.Valid fds
  | .append _ | .write => c.ctx.obuf = true
  | .takeReply | .read => c.ctx.reader = true
  | _ => True

def stateRules : Discipline Cmd Answer Empty (List Nat) where
  mayCall fds c := c.ctx.Sound fds ∧ c.Usable fds
  called := openAfter
  maySend _ _ := True
  sent fds _ := fds
  mayMark _ _ := True
  marked fds _ := fds

/-- It is not too late to call the function on the context. -/
def Call.inTime (k : Call) (c : Context) : Bool :=
  match k with
  | .wrapper _ _ => c.connected || c.fd.isSome
  | .asyncHandleConnect => c.fd.isSome
  | .asyncConnect _ | .disConnect => true
  | .append _ | .getReply | .command _ => c.connected

def Cmd.inTime (c : Cmd) : Bool :=
  match c.op with
  | .enter k => k.inTime c.ctx
  | _ => true

/-- The functions are called in time, and the socket of a connected context has no error. -/
def InTime (_ : List Nat) (c : Cmd) (r : Answer) : Prop :=
  c.inTime = true ∧ (c.ctx.connected = true → c.op = .fcntl ∨ c.op = .getsockopt → r = .done)

instance (fds : List Nat) (c : Cmd) (r : Answer) : Decidable (InTime fds c r) :=
  inferInstanceAs (Decidable (c.inTime = true ∧
    (c.ctx.connected = true → c.op = .fcntl ∨ c.op = .getsockopt → r = .done)))

/-- What the functions keep up: the descriptor is open, and a connected context is whole. -/
structure Kept (c : Context) (fds : List Nat) : Prop where
  opened : ∀ fd, c.fd = some fd → fd ∈ fds
  whole : c.connected = true → c.fd ≠ none ∧ c.obuf = true ∧ c.reader = true

/-- A context on which commands can be sent. -/
def Live (c : Context) (fds : List Nat) : Prop := Kept c fds ∧ c.connected = true

end Definitions

section Kept

variable {c c' : Context} {fds : List Nat}

theorem Kept.valid (h : Kept c fds) (hfd : c.fd ≠ none) : c.Valid fds := by
  obtain ⟨fd, hfd⟩ := Option.ne_none_iff_exists'.1 hfd
  exact ⟨fd, h.opened fd hfd, hfd⟩

theorem Kept.sound (h : Kept c fds) : c.Sound fds := by
  intro hconn
  obtain ⟨hfd, hbuffers⟩ := h.whole hconn
  exact ⟨h.valid hfd, hbuffers⟩

/-- The error and the mode of a context do not matter. -/
theorem Kept.alike (h : Kept c fds) (hfd : c'.fd = c.fd) (hconn : c'.connected = c.connected)
    (hobuf : c'.obuf = c.obuf) (hreader : c'.reader = c.reader) : Kept c' fds := by
  refine ⟨fun fd hc' => h.opened fd (hfd.symm.trans hc'), fun hc' => ?_⟩
  rw [hfd, hobuf, hreader]
  exact h.whole (hconn.symm.trans hc')

theorem Kept.err (h : Kept c fds) (e : Option Err) : Kept { c with err := e } fds :=
  h.alike rfl rfl rfl rfl

theorem Live.err (h : Live c fds) (e : Option Err) : Live { c with err := e } fds :=
  ⟨h.1.err e, h.2⟩

/-- A call that is no wait and no use of a buffer. -/
theorem ask_kept {op : Op} (h : Kept c fds) (hop : Cmd.Usable ⟨c, op⟩ fds)
    {post : Answer → List Nat → Prop}
    (hpost : ∀ r, InTime fds ⟨c, op⟩ r → post r (openAfter fds ⟨c, op⟩ r)) :
    KeepsIf stateRules InTime (ask c op) fds post :=
  ⟨⟨h.sound, hop⟩, hpost⟩

end Kept

section Connect

variable {c : Context} {fds : List Nat}

theorem dialLoop_cases (c : Context) (dials : List Dial) :
    (∃ fd, dialLoop c dials = (true, { c with fd := some fd })) ∨
      ∃ e, dialLoop c dials = (false, { c with err := some e }) := by
  induction dials with
  | nil => exact .inr ⟨.other, rfl⟩
  | cons d dials ih =>
    cases d with
    | noSocket => exact ih
    | unreachable => exact ih
    | noFcntl => exact .inr ⟨.io, rfl⟩
    | noDelay => exact .inr ⟨.io, rfl⟩
    | dialled fd => exact .inl ⟨fd, rfl⟩

/-- An attempt ends with a new descriptor or with an error. -/
theorem contextConnectTcp_cases (c : Context) (r : Answer) :
    (∃ fd, contextConnectTcp c r = (true, { c with fd := some fd })) ∨
      ∃ e, contextConnectTcp c r = (false, { c with err := some e }) := by
  unfold contextConnectTcp
  split
  · exact dialLoop_cases c _
  · exact .inr ⟨.other, rfl⟩

theorem asyncConnect_kept (s : Server) (h : Kept c fds) :
    KeepsIf stateRules InTime (asyncConnect s c) fds Kept := by
  have hc : Kept { c with block := false } fds := h.alike rfl rfl rfl rfl
  rw [asyncConnect]
  apply keepsIf_bind.2
  refine ask_kept hc (by trivial) fun r _ => keepsIf_pure ?_
  rcases contextConnectTcp_cases { c with block := false } r with hnew | hold
  · obtain ⟨fd, hfd⟩ := hnew
    have hopen : openAfter fds ⟨{ c with block := false }, .connectTcp s⟩ r = fd :: fds := by
      simp [openAfter, hfd]
    rw [hopen, hfd]
    refine ⟨fun fd' hfd' => ?_, fun hconn => ⟨by simp, (h.whole hconn).2⟩⟩
    obtain rfl := Option.some.inj hfd'
    exact List.mem_cons_self
  · obtain ⟨e, he⟩ := hold
    have hopen : openAfter fds ⟨{ c with block := false }, .connectTcp s⟩ r = fds := by
      simp [openAfter, he]
    rw [hopen, he]
    exact hc.err (some e)

/-- Without a descriptor and a connection there is nothing to keep up. -/
theorem kept_released (hfd : c.fd = none) (hconn : c.connected = false) : Kept c fds := by
  refine ⟨fun fd hc => ?_, fun hc => ?_⟩
  · rw [hfd] at hc
    cases hc
  · rw [hconn] at hc
    cases hc

theorem disConnect_kept (h : Kept c fds) :
    KeepsIf stateRules InTime (disConnect c) fds Kept := by
  have hc : Kept { c with connected := false } fds := ⟨h.opened, fun hconn => by cases hconn⟩
  rw [disConnect, releaseResource]
  split
  · apply keepsIf_bind.2
    exact ask_kept hc (by trivial) fun r _ => keepsIf_pure (kept_released rfl rfl)
  · exact keepsIf_pure ⟨h.opened, fun hconn => by cases hconn⟩

theorem reconnect_kept (s : Server) (h : Kept c fds) :
    KeepsIf stateRules InTime (reconnect s c) fds Kept :=
  keepsIf_seq (disConnect_kept h) fun _ _ hc' => asyncConnect_kept s hc'

theorem asyncHandleConnect_kept (h : Kept c fds) (hfd : c.fd ≠ none) :
    KeepsIf stateRules InTime (asyncHandleConnect c) fds fun r u => Kept r.2 u := by
  rw [asyncHandleConnect]
  apply keepsIf_bind.2
  refine ask_kept h (by exact h.valid hfd) fun r _ => ?_
  split
  · exact keepsIf_pure h
  · exact keepsIf_pure h
  · apply keepsIf_bind.2
    refine ask_kept h (by trivial) fun r' hr' => ?_
    split
    · exact keepsIf_pure ⟨h.opened, fun _ => ⟨hfd, rfl, rfl⟩⟩
    · rename_i hrefused
      have hconn : c.connected = false := by
        by_contra hconn
        exact hrefused (hr'.2 (by simpa using hconn) (.inr rfl))
      rw [giveUp]
      apply keepsIf_bind.2
      exact ask_kept (h.err _) (by trivial) fun r _ => keepsIf_pure (kept_released rfl hconn)

theorem setBlocking_live (h : Live c fds) :
    KeepsIf stateRules InTime (setBlocking c) fds Live := by
  rw [setBlocking]
  apply keepsIf_bind.2
  refine ask_kept h.1 (by trivial) fun r hr => ?_
  obtain rfl : r = .done := hr.2 h.2 (.inl rfl)
  exact keepsIf_pure h

theorem redisSetTimeout_live (h : Live c fds) :
    KeepsIf stateRules InTime (redisSetTimeout c) fds Live := by
  rw [redisSetTimeout]
  apply keepsIf_ite
  · intro _
    apply keepsIf_bind.2
    refine ask_kept h.1 (by trivial) fun r _ => ?_
    apply keepsIf_ite
    · exact fun _ => keepsIf_pure h
    · exact fun _ => keepsIf_pure (h.err _)
  · exact fun _ => keepsIf_pure h

end Connect

section Hiredis

variable {c : Context} {fds : List Nat}

theorem redisAppend_live (cmd : Command) (h : Live c fds) :
    KeepsIf stateRules InTime (redisAppend c cmd) fds fun r u => Live r.2 u := by
  rw [redisAppend]
  apply keepsIf_bind.2
  refine ask_kept h.1 (by exact (h.1.whole h.2).2.1) fun r _ => ?_
  apply keepsIf_ite
  · exact fun _ => trivial
  · intro _
    split
    · exact keepsIf_pure (h.err _)
    · exact keepsIf_pure h

theorem replyFromReader_live (h : Live c fds) :
    KeepsIf stateRules InTime (replyFromReader c) fds fun r u => Live r.2.2 u := by
  rw [replyFromReader]
  apply keepsIf_bind.2
  refine ask_kept h.1 (by exact (h.1.whole h.2).2.2) fun r _ => ?_
  apply keepsIf_ite
  · exact fun _ => trivial
  · intro _
    split
    · exact keepsIf_pure (h.err _)
    · exact keepsIf_pure h
    · exact keepsIf_pure h

theorem bufferWrite_live (h : Live c fds) :
    KeepsIf stateRules InTime (bufferWrite c) fds fun r u => Live r.2 u := by
  rw [bufferWrite]
  apply keepsIf_ite
  · exact fun _ => keepsIf_pure h
  · intro _
    apply keepsIf_bind.2
    refine ask_kept h.1 (by exact (h.1.whole h.2).2.1) fun r _ => ?_
    apply keepsIf_ite
    · exact fun _ => trivial
    · intro _
      split
      · exact keepsIf_pure (h.err _)
      · exact keepsIf_pure h

theorem bufferRead_live (h : Live c fds) :
    KeepsIf stateRules InTime (bufferRead c) fds fun r u => Live r.2 u := by
  rw [bufferRead]
  apply keepsIf_bind.2
  refine ask_kept h.1 (by exact (h.1.whole h.2).2.2) fun r _ => ?_
  apply keepsIf_ite
  · exact fun _ => trivial
  · intro _
    split
    · exact keepsIf_pure (h.err _)
    · exact keepsIf_pure h
    · trivial

theorem redisGetReply_live (h : Live c fds) :
    KeepsIf stateRules InTime (redisGetReply c) fds fun r u => Live r.2 u := by
  rw [redisGetReply]
  refine keepsIf_seq (replyFromReader_live h) fun r u hr => ?_
  apply keepsIf_ite
  · exact fun _ => keepsIf_pure hr
  · intro _
    apply keepsIf_ite
    · intro _
      refine keepsIf_seq (bufferWrite_live hr) fun r u hr => ?_
      apply keepsIf_ite
      · exact fun _ => bufferRead_live hr
      · exact fun _ => keepsIf_pure hr
    · exact fun _ => keepsIf_pure hr

theorem redisCommand_live (cmd : Command) (h : Live c fds) :
    KeepsIf stateRules InTime (redisCommand c cmd) fds fun r u => Live r.2 u := by
  rw [redisCommand]
  refine keepsIf_seq (redisAppend_live cmd h) fun r u hr => ?_
  apply keepsIf_ite
  · exact fun _ => redisGetReply_live hr
  · exact fun _ => keepsIf_pure hr

end Hiredis

section Wrappers

variable {c : Context} {fds : List Nat}

/-- The functions keep the context up, and leave it live where they have a reply. -/
def KeepsUp {α : Type} (ok : α → Bool) (r : α × Context) (fds : List Nat) : Prop :=
  Kept r.2 fds ∧ (ok r.1 = true → Live r.2 fds)

theorem commandPending_kept (s : Server) (cmd : Command) (h : Live c fds) :
    KeepsIf stateRules InTime (commandPending s c cmd) fds (KeepsUp Option.isSome) := by
  rw [commandPending]
  refine keepsIf_seq (redisCommand_live cmd h) fun r u hr => ?_
  apply keepsIf_ite
  · intro _
    refine keepsIf_seq (reconnect_kept s hr.1) fun c' u' hc' => ?_
    exact keepsIf_pure ⟨hc', fun hsome => by cases hsome⟩
  · exact fun _ => keepsIf_pure ⟨hr.1, fun _ => hr⟩

theorem commandNopending_kept (s : Server) (cmd : Command) (h : Live c fds) :
    KeepsIf stateRules InTime (commandNopending s c cmd) fds Kept := by
  rw [commandNopending]
  refine keepsIf_seq (redisAppend_live cmd h) fun r u hr => ?_
  refine keepsIf_seq (bufferWrite_live hr) fun r u hr => ?_
  apply keepsIf_ite
  · exact fun _ => keepsIf_pure hr.1
  · exact fun _ => reconnect_kept s hr.1

/-- The context is connected or about to be. -/
def Reachable (c : Context) (fds : List Nat) : Prop :=
  Kept c fds ∧ (c.connected = true ∨ c.fd ≠ none)

theorem Live.reachable (h : Live c fds) : Reachable c fds := ⟨h.1, .inl h.2⟩

theorem ensureConnected_kept (s : Server) {auth : Context → Act (Bool × Context)}
    (hauth : ∀ c fds, Live c fds → KeepsIf stateRules InTime (auth c) fds (KeepsUp id))
    (h : Reachable c fds) :
    KeepsIf stateRules InTime (ensureConnected s auth c) fds (KeepsUp id) := by
  have hreconnect : ∀ {c' : Context} {u : List Nat}, Kept c' u →
      KeepsIf stateRules InTime (do
        let c ← reconnect s c'
        pure (false, c)) u (KeepsUp id) := by
    intro c' u hc'
    refine keepsIf_seq (reconnect_kept s hc') fun c'' u' hc'' => ?_
    exact keepsIf_pure ⟨hc'', fun hok => by cases hok⟩
  rw [ensureConnected]
  apply keepsIf_ite
  · exact fun hc => keepsIf_pure ⟨h.1, fun _ => ⟨h.1, hc⟩⟩
  · intro hc
    refine keepsIf_seq (asyncHandleConnect_kept h.1 (h.2.resolve_left hc)) fun r u hr => ?_
    apply keepsIf_ite
    · exact fun _ => hreconnect hr
    · intro _
      apply keepsIf_ite
      · exact fun _ => keepsIf_pure ⟨hr, fun hok => by cases hok⟩
      · intro hc'
        have hlive : Live { r.2 with block := true } u :=
          ⟨hr.alike rfl rfl rfl rfl, by simpa using hc'⟩
        refine keepsIf_seq (setBlocking_live hlive) fun c₁ u₁ h₁ => ?_
        refine keepsIf_seq (redisSetTimeout_live h₁) fun c₂ u₂ h₂ => ?_
        refine keepsIf_seq (hauth c₂ u₂ h₂) fun r u hr => ?_
        apply keepsIf_ite
        · exact fun hok => keepsIf_pure ⟨hr.1, fun _ => hr.2 hok⟩
        · intro _
          apply keepsIf_ite
          · exact fun _ => hreconnect hr.1
          · exact fun _ => keepsIf_pure ⟨hr.1, fun hok => by cases hok⟩

variable (password : Option Bytes) (depth : Nat)

theorem cliAuthBy_kept
    {pending : Context → Command → Act (Option Reply × Context)}
    (hpending : ∀ c cmd fds, Live c fds →
      KeepsIf stateRules InTime (pending c cmd) fds (KeepsUp Option.isSome)) (h : Live c fds) :
    KeepsIf stateRules InTime (cliAuthBy password pending c) fds (KeepsUp id) := by
  cases password with
  | none => exact keepsIf_pure ⟨h.1, fun _ => h⟩
  | some password =>
    exact keepsIf_seq (hpending c (.auth password) fds h) fun r u hr => keepsIf_pure hr

theorem slaveRedisCommandPending_kept (cmd : Command) (h : Reachable c fds) :
    KeepsIf stateRules InTime (slaveRedisCommandPending password depth c cmd) fds
      (KeepsUp Option.isSome) := by
  induction depth generalizing c cmd fds with
  | zero => exact trivial
  | succ depth ih =>
    have hauth : ∀ c fds, Live c fds → KeepsIf stateRules InTime
        (cliAuthBy password (slaveRedisCommandPending password depth) c) fds (KeepsUp id) := by
      intro c fds hc
      exact cliAuthBy_kept password (fun c cmd fds hc => ih cmd hc.reachable) hc
    rw [slaveRedisCommandPending]
    refine keepsIf_seq (ensureConnected_kept .slave hauth h) fun r u hr => ?_
    apply keepsIf_ite
    · exact fun hok => commandPending_kept .slave cmd (hr.2 hok)
    · exact fun _ => keepsIf_pure ⟨hr.1, fun hsome => by cases hsome⟩

theorem cliAuth_kept (h : Live c fds) :
    KeepsIf stateRules InTime (cliAuth password depth c) fds (KeepsUp id) :=
  cliAuthBy_kept password
    (fun _ cmd _ hc => slaveRedisCommandPending_kept password depth cmd hc.reachable) h

theorem redisCommandPending_kept (cmd : Command) (h : Reachable c fds) :
    KeepsIf stateRules InTime (redisCommandPending password depth c cmd) fds
      (KeepsUp Option.isSome) := by
  rw [redisCommandPending]
  refine keepsIf_seq (ensureConnected_kept .redis (fun _ _ => cliAuth_kept password depth) h)
    fun r u hr => ?_
  apply keepsIf_ite
  · exact fun hok => commandPending_kept .redis cmd (hr.2 hok)
  · exact fun _ => keepsIf_pure ⟨hr.1, fun hsome => by cases hsome⟩

theorem nopending_kept (s : Server) (cmd : Command) (h : Reachable c fds) :
    KeepsIf stateRules InTime (nopending password depth s c cmd) fds Kept := by
  rw [nopending]
  refine keepsIf_seq (ensureConnected_kept s (fun _ _ => cliAuth_kept password depth) h)
    fun r u hr => ?_
  apply keepsIf_ite
  · exact fun hok => commandNopending_kept s cmd (hr.2 hok)
  · exact fun _ => keepsIf_pure hr.1

theorem runWrapper_kept (w : Wrapper) (cmd : Command) (h : Reachable c fds) :
    KeepsIf stateRules InTime (runWrapper password depth w c cmd) fds Kept := by
  cases w with
  | sendRedisCommand => exact nopending_kept password depth .redis cmd h
  | redisCommandPending =>
    exact keepsIf_seq (redisCommandPending_kept password depth cmd h) fun _ _ hr => hr.1
  | slaveRedisCommandPending =>
    exact keepsIf_seq (slaveRedisCommandPending_kept password depth cmd h) fun _ _ hr => hr.1
  | slaveRedisCommandNopending => exact nopending_kept password depth .slave cmd h
  | redisWriteLog => exact nopending_kept password depth .slave cmd h

theorem runCall_kept (k : Call) (h : Kept c fds) (hk : k.inTime c = true) :
    KeepsIf stateRules InTime (runCall password depth k c) fds Kept := by
  cases k with
  | wrapper w text =>
    refine runWrapper_kept password depth w (.data text) ⟨h, ?_⟩
    simpa [Call.inTime, Option.isSome_iff_ne_none] using hk
  | asyncConnect s => exact asyncConnect_kept s h
  | asyncHandleConnect =>
    have hfd : c.fd ≠ none := Option.isSome_iff_ne_none.1 hk
    exact keepsIf_seq (asyncHandleConnect_kept h hfd) fun _ _ hr => hr
  | disConnect => exact disConnect_kept h
  | append text => exact keepsIf_seq (redisAppend_live (.data text) ⟨h, hk⟩) fun _ _ hr => hr.1
  | getReply => exact keepsIf_seq (redisGetReply_live ⟨h, hk⟩) fun _ _ hr => hr.1
  | command text => exact keepsIf_seq (redisCommand_live (.data text) ⟨h, hk⟩) fun _ _ hr => hr.1

theorem runCalls_kept (ks : List Call) (h : Kept c fds) :
    KeepsIf stateRules InTime (runCalls password depth ks c) fds Kept := by
  induction ks generalizing c fds with
  | nil => exact keepsIf_pure h
  | cons k ks ih =>
    rw [runCalls]
    apply keepsIf_bind.2
    refine ask_kept h (by trivial) fun r hr => ?_
    exact keepsIf_seq (runCall_kept password depth k h hr.1) fun _ _ hc' => ih hc'

/-- The context of a thread is whole from the start. -/
theorem getConn_kept (s : Server) :
    KeepsIf stateRules InTime (getConn password depth s) fds
      fun r u => ∀ c, r = some c → Kept c u := by
  rw [getConn]
  apply keepsIf_bind.2
  refine ask_kept (kept_released rfl rfl) (by trivial) fun r _ => ?_
  split
  · rename_i fd _
    have hlive : Live ⟨none, some fd, true, true, true, true⟩ (fd :: fds) := by
      refine ⟨⟨fun fd' hfd' => ?_, fun _ => ⟨by simp, rfl, rfl⟩⟩, rfl⟩
      obtain rfl := Option.some.inj hfd'
      exact List.mem_cons_self
    refine keepsIf_seq (cliAuth_kept password depth hlive) fun r u hr => ?_
    apply keepsIf_ite
    · intro hok
      refine keepsIf_seq (redisSetTimeout_live (hr.2 hok)) fun c' u' hc' => ?_
      refine keepsIf_pure fun c hc => ?_
      obtain rfl := Option.some.inj hc
      exact hc'.1.alike rfl hc'.2.symm rfl rfl
    · intro _ c hc
      cases hc
  · intro c hc
    cases hc

end Wrappers

section Runs

variable (password : Option Bytes) (depth : Nat)

/-- The server of a context and what is done with it. -/
abbrev Calls := Server × List Call

def calls (q : Calls) : Act (Option Context) := session password depth q.1 q.2

abbrev StateSys := Lib.Threads.Sys Unit Cmd Answer Empty (List Nat) (Option Context)

def noContext : StateSys := ⟨(), fun _ => none⟩

def stateStep : StateSys → Label Calls Answer → Option StateSys :=
  step answer stateRules (calls password depth) []

/-- The contexts are sound, in the middle of a function and at the end, and what is done next can
be done. -/
structure Consistent (s : StateSys) : Prop where
  inside : ∀ i c k fds, s.thread i = some ⟨.call c k, fds⟩ → c.ctx.Sound fds ∧ c.Usable fds
  atEnd : ∀ i c fds, s.thread i = some ⟨.ret (some c), fds⟩ → c.Sound fds

theorem calls_kept (q : Calls) :
    KeepsIf stateRules InTime (calls password depth q) [] fun r fds =>
      ∀ c, r = some c → c.Sound fds := by
  rw [calls, session]
  refine keepsIf_seq (getConn_kept password depth q.1) fun r u hr => ?_
  split
  · rename_i c
    refine keepsIf_seq (runCalls_kept password depth q.2 (hr c rfl)) fun c' u' hc' => ?_
    refine keepsIf_pure fun c'' hc'' => ?_
    obtain rfl := Option.some.inj hc''
    exact hc'.sound
  · intro c hc
    cases hc

/-- In every run whose functions are called in time the state of the connections is
consistent. -/
theorem connections_consistent (ls : List (Label Calls Answer)) (s : StateSys)
    (hA : Throughout (stateStep password depth) (Guarded fun _ => InTime) noContext ls)
    (hr : run (stateStep password depth) noContext ls = some s) : Consistent s := by
  have hkeep : Keeping stateRules InTime (fun r fds => ∀ c, r = some c → c.Sound fds) s :=
    Keeping.run (calls_kept password depth) hA hr
  refine ⟨fun i c k fds ht => ?_, fun i c fds ht => ?_⟩
  · exact (hkeep i _ ht).1
  · exact hkeep i _ ht c rfl

end Runs

section Samples

/-- A context without a password, and two calls of which the first loses the connection. -/
def lostConnection (k : Call) (dials : Option (List Dial)) : List (Label Calls Answer) :=
  [.start 0 (.slave, [.wrapper .slaveRedisCommandPending (ascii "GET a"), k]),
    .act 0 (.opened 5), .act 0 .done, .act 0 .done, .act 0 .done, .act 0 .done, .act 0 .done,
    .act 0 (.failed .eof), .act 0 .done, .act 0 (.attempt dials), .act 0 .done]

/-- The context is connected anew and waits for its descriptor. -/
theorem connections_consistent_again : ∃ s c k,
    run (stateStep none 2) noContext
      (lostConnection (.wrapper .redisWriteLog (ascii "PING")) (some [.dialled 6])) = some s ∧
      s.thread 0 = some ⟨.call c k, [6]⟩ ∧ c.op = .select ∧ Consistent s := by
  have hA : Throughout (stateStep none 2) (Guarded fun _ => InTime) noContext
      (lostConnection (.wrapper .redisWriteLog (ascii "PING")) (some [.dialled 6])) := by
    exact .cons trivial rfl (.cons (.of_call rfl (by decide)) rfl
      (.cons (.of_call rfl (by decide)) rfl (.cons (.of_call rfl (by decide)) rfl
        (.cons (.of_call rfl (by decide)) rfl (.cons (.of_call rfl (by decide)) rfl
          (.cons (.of_call rfl (by decide)) rfl (.cons (.of_call rfl (by decide)) rfl
            (.cons (.of_call rfl (by decide)) rfl (.cons (.of_call rfl (by decide)) rfl
              (.cons (.of_call rfl (by decide)) rfl trivial))))))))))
  exact ⟨_, _, _, rfl, rfl, rfl, connections_consistent none 2 _ _ hA rfl⟩

/-- After a failed attempt to connect there is no descriptor to wait for, and what is appended
to a lost connection is appended to a released buffer. -/
theorem not_consistent :
    (∃ ls s c k fds, run (stateStep none 2) noContext ls = some s ∧
      s.thread 0 = some ⟨.call c k, fds⟩ ∧ c.op = .select ∧ ¬ Consistent s) ∧
    ∃ ls s c k fds, run (stateStep none 2) noContext ls = some s ∧
      s.thread 0 = some ⟨.call c k, fds⟩ ∧ c.op = .append (.data (ascii "GET b")) ∧
        ¬ Consistent s := by
  constructor
  · refine ⟨lostConnection (.wrapper .redisWriteLog (ascii "PING")) none, _, _, _, _, rfl, rfl, rfl,
      fun h => ?_⟩
    obtain ⟨fd, -, hfd⟩ := (h.inside 0 _ _ _ rfl).2
    cases hfd
  · refine ⟨lostConnection (.append (ascii "GET b")) (some [.dialled 6]), _, _, _, _, rfl, rfl, rfl,
      fun h => ?_⟩
    have hobuf := (h.inside 0 _ _ _ rfl).2
    cases hobuf

end Samples

end Doorhinges.Keepalive

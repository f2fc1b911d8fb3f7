import Doorhinges.Keepalive.Auth

/-!
# Commands on an authenticated connection

The five functions send their command only where `AUTH` has been answered, and leave the context
unconnected where the answer is lost. An error reply counts as an answer for `cliAuth`, and a
reply that cannot be parsed leaves the connection as it is.
-/
namespace Doorhinges.Keepalive

open Lib.CString
open Lib.Redis (Reply)
open Lib.Program
open Lib.Machine
open Lib.Threads
open Lib.Assumed

section Wrappers

variable {v : Auth} {c : Context} (password : Bytes) (depth : Nat)

/-- A connected context is not connected anew for `AUTH`, so a depth of 2 is enough. -/
theorem slaveRedisCommandPending_connected (hc : c.connected = true) (cmd : Command) :
    slaveRedisCommandPending (some password) (depth + 1) c cmd =
      commandPending .slave c cmd := by
  rw [slaveRedisCommandPending, ensureConnected, if_pos hc]
  rfl

theorem cliAuth_keeps (hconn : c.connected = true) (hc : Curable c) (hblock : c.block = true) :
    KeepsIf authRules AuthSettled (cliAuth (some password) depth c) v fun r u =>
      (r.1 = false → r.2.connected = false) ∧ (r.1 = true → u = .authenticated) := by
  rw [cliAuth, cliAuthBy]
  cases depth with
  | zero => exact trivial
  | succ depth =>
    rw [slaveRedisCommandPending_connected password depth hconn]
    refine keepsIf_seq (commandPending_auth .slave password hc hblock) fun r u hr => ?_
    obtain ⟨reply, c'⟩ := r
    cases reply with
    | none => exact ⟨fun _ => hr.1 rfl, fun h => (by cases h)⟩
    | some reply => exact ⟨fun h => (by cases h), fun _ => hr.2 (by simp)⟩

theorem ensureConnected_keeps (s : Server) (h : Settled c v) :
    KeepsIf authRules AuthSettled (ensureConnected s (cliAuth (some password) depth) c) v
      fun r u => Settled r.2 u ∧ (r.1 = true → u = .authenticated) := by
  have hoff : ∀ {c' : Context} {u : Auth}, c'.connected = false → Settled c' u := by
    intro c' u hc' hconn
    rw [hc'] at hconn
    cases hconn
  rw [ensureConnected]
  apply keepsIf_ite
  · exact fun hc => ⟨h, fun _ => h hc⟩
  · intro hc
    refine keepsIf_seq (asyncHandleConnect_keeps (by simpa using hc)) fun r u hr => ?_
    obtain ⟨ok, c'⟩ := r
    apply keepsIf_ite
    · intro _
      refine keepsIf_seq (reconnect_keeps s) fun c'' u' hc'' => ?_
      exact ⟨hoff hc'', fun h => (by cases h)⟩
    · intro _
      apply keepsIf_ite
      · intro hc'
        exact ⟨hoff (by simpa using hc'), fun h => (by cases h)⟩
      · intro hc'
        have hconn : c'.connected = true := by simpa using hc'
        refine keepsIf_seq setBlocking_keeps fun c₁ u₁ h₁ => ?_
        refine keepsIf_seq redisSetTimeout_keeps fun c₂ u₂ h₂ => ?_
        have hcurable : Curable c₂ := h₂.1.curable (h₁.curable (.inl (hr hconn)))
        have hblock : c₂.block = true := h₂.1.block.trans h₁.block
        have hconn₂ : c₂.connected = true := (h₂.1.connected.trans h₁.connected).trans hconn
        refine keepsIf_seq (cliAuth_keeps password depth hconn₂ hcurable hblock)
          fun r u hr => ?_
        obtain ⟨ok, c₃⟩ := r
        apply keepsIf_ite
        · exact fun hok => ⟨fun _ => hr.2 hok, fun _ => hr.2 hok⟩
        · intro hok
          have hc₃ : c₃.connected = false := hr.1 (by simpa using hok)
          apply keepsIf_ite
          · intro _
            refine keepsIf_seq (reconnect_keeps s) fun c'' u' hc'' => ?_
            exact ⟨hoff hc'', fun h => (by cases h)⟩
          · exact fun _ => ⟨hoff hc₃, fun h => (by cases h)⟩

variable (text : Bytes)

theorem redisCommandPending_keeps (h : Settled c v) :
    KeepsIf authRules AuthSettled (redisCommandPending (some password) depth c (.data text)) v
      fun r u => Settled r.2 u := by
  rw [redisCommandPending]
  refine keepsIf_seq (ensureConnected_keeps password depth .redis h) fun r u hr => ?_
  apply keepsIf_ite
  · intro hok
    obtain rfl := hr.2 hok
    exact commandPending_data text .redis
  · exact fun _ => hr.1

theorem slaveRedisCommandPending_keeps (h : Settled c v) :
    KeepsIf authRules AuthSettled
      (slaveRedisCommandPending (some password) depth c (.data text)) v
        fun r u => Settled r.2 u := by
  cases depth with
  | zero => exact trivial
  | succ depth =>
    rw [slaveRedisCommandPending]
    refine keepsIf_seq (ensureConnected_keeps password depth .slave h) fun r u hr => ?_
    apply keepsIf_ite
    · intro hok
      obtain rfl := hr.2 hok
      exact commandPending_data text .slave
    · exact fun _ => hr.1

theorem nopending_keeps (s : Server) (h : Settled c v) :
    KeepsIf authRules AuthSettled (nopending (some password) depth s c (.data text)) v
      Settled := by
  rw [nopending]
  refine keepsIf_seq (ensureConnected_keeps password depth s h) fun r u hr => ?_
  apply keepsIf_ite
  · intro hok
    obtain rfl := hr.2 hok
    exact commandNopending_data text s
  · exact fun _ => hr.1

theorem runWrapper_keeps (w : Wrapper) (h : Settled c v) :
    KeepsIf authRules AuthSettled (runWrapper (some password) depth w c (.data text)) v
      Settled := by
  cases w with
  | sendRedisCommand => exact nopending_keeps password depth text .redis h
  | redisCommandPending =>
    exact keepsIf_seq (redisCommandPending_keeps password depth text h) fun _ _ hr => hr
  | slaveRedisCommandPending =>
    exact keepsIf_seq (slaveRedisCommandPending_keeps password depth text h) fun _ _ hr => hr
  | slaveRedisCommandNopending => exact nopending_keeps password depth text .slave h
  | redisWriteLog => exact nopending_keeps password depth text .slave h

theorem getConn_keeps (s : Server) :
    KeepsIf authRules AuthSettled (getConn (some password) depth s) v
      fun r u => ∀ c, r = some c → Settled c u := by
  rw [getConn]
  apply keepsIf_bind.2
  refine ask_keeps rfl fun r _ => ?_
  split
  · refine keepsIf_seq (cliAuth_keeps password depth rfl (.inl rfl) rfl) fun r u hr => ?_
    apply keepsIf_ite
    · intro hok
      refine keepsIf_seq redisSetTimeout_keeps fun c' u' hu' => ?_
      intro _ _ _
      exact hu'.2.trans (hr.2 hok)
    · intro _ c' hc'
      cases hc'
  · intro c' hc'
    cases hc'

end Wrappers

section Runs

variable (password : Option Bytes) (depth : Nat)

/-- The server of a context and the commands that are sent on it. -/
abbrev Commands := Server × List (Wrapper × Bytes)

def commands (q : Commands) : Act (Option Context) :=
  session password depth q.1 (q.2.map fun w => .wrapper w.1 w.2)

abbrev AuthSys := Lib.Threads.Sys Unit Cmd Answer Empty Auth (Option Context)

def noThread : AuthSys := ⟨(), fun _ => none⟩

def authStep : AuthSys → Label Commands Answer → Option AuthSys :=
  step answer authRules (commands password depth) .bare

/-- Where data is appended next, `AUTH` has been answered on this connection. -/
def Authenticated (s : AuthSys) : Prop :=
  ∀ i c k v, s.thread i = some ⟨.call c k, v⟩ → c.op.sendsData = true → v = .authenticated

theorem runCalls_keeps (password : Bytes) (ws : List (Wrapper × Bytes)) {c : Context} {v : Auth}
    (h : Settled c v) :
    KeepsIf authRules AuthSettled
      (runCalls (some password) depth (ws.map fun w => .wrapper w.1 w.2) c) v Settled := by
  induction ws generalizing c v with
  | nil => exact h
  | cons w ws ih =>
    rw [List.map_cons, runCalls]
    apply keepsIf_bind.2
    refine ask_keeps rfl fun r _ => ?_
    exact keepsIf_seq (runWrapper_keeps password depth w.2 w.1 h) fun c' u hc' => ih hc'

theorem commands_keep (password : Bytes) (q : Commands) :
    KeepsIf authRules AuthSettled (commands (some password) depth q) .bare fun _ _ => True := by
  rw [commands, session]
  refine keepsIf_seq (getConn_keeps password depth q.1) fun r u hr => ?_
  split
  · rename_i c
    exact keepsIf_seq (runCalls_keeps depth password q.2 (hr c rfl)) fun _ _ _ => trivial
  · trivial

/-- In every run whose `AUTH`s are settled, data goes to authenticated connections only. -/
theorem commands_authenticated (password : Bytes) (ls : List (Label Commands Answer))
    (s : AuthSys)
    (hA : Throughout (authStep (some password) depth) (Guarded fun _ => AuthSettled) noThread ls)
    (hr : run (authStep (some password) depth) noThread ls = some s) : Authenticated s := by
  have hkeep : Keeping authRules AuthSettled (fun _ _ => True) s :=
    Keeping.run (commands_keep depth password) hA hr
  intro i c k v ht
  exact (hkeep i _ ht).1

end Runs

section Samples

/-- One command on a new connection, up to the append of its data. -/
def firstCommand (r : Reply) : List (Label Commands Answer) :=
  [.start 0 (.slave, [(.slaveRedisCommandPending, ascii "GET adsession:1")]),
    .act 0 (.opened 5), .act 0 .done, .act 0 .done, .act 0 .done, .act 0 (.reply r), .act 0 .done,
    .act 0 .done]

theorem commands_authenticated_status : ∃ s,
    run (authStep (some (ascii "secret")) 2) noThread (firstCommand .status) = some s ∧
      views s 0 = some .authenticated ∧ Authenticated s := by
  have hA : Throughout (authStep (some (ascii "secret")) 2) (Guarded fun _ => AuthSettled) noThread
      (firstCommand .status) := by
    exact .cons trivial rfl (.cons (.of_call rfl (by decide)) rfl
      (.cons (.of_call rfl (by decide)) rfl (.cons (.of_call rfl (by decide)) rfl
        (.cons (.of_call rfl (by decide)) rfl (.cons (.of_call rfl (by decide)) rfl
          (.cons (.of_call rfl (by decide)) rfl (.cons (.of_call rfl (by decide)) rfl
            trivial)))))))
  exact ⟨_, rfl, rfl, commands_authenticated 2 (ascii "secret") (firstCommand .status) _ hA rfl⟩

/-- The password is wrong, and the command is appended all the same. -/
theorem not_authenticated : ¬ ∀ (password : Bytes) (depth : Nat)
    (ls : List (Label Commands Answer)) (s : AuthSys),
    run (authStep (some password) depth) noThread ls = some s → Authenticated s := by
  intro h
  obtain ⟨s, c, k, hs, ht, hdata⟩ : ∃ s c k,
      run (authStep (some (ascii "secret")) 2) noThread (firstCommand .error) = some s ∧
        s.thread 0 = some ⟨.call c k, .refused⟩ ∧ c.op.sendsData = true :=
    ⟨_, _, _, rfl, rfl, rfl⟩
  have hauth := h (ascii "secret") 2 (firstCommand .error) s hs 0 c k .refused ht hdata
  cases hauth

end Samples

end Doorhinges.Keepalive

import Doorhinges.Keepalive.Model
import Doorhinges.Lib.Assumed

/-!
# The answer to AUTH

A connection is bare until `AUTH` has been sent on it. `AUTH` is answered, or the context is not
connected any more; an answered connection stays answered for as long as it lasts.
-/
namespace Doorhinges.Keepalive

open Lib.CString
open Lib.Redis (Reply)
open Lib.Program
open Lib.Machine
open Lib.Threads
open Lib.Assumed

section Definitions

/-- How the latest `AUTH` on the connection has been answered. -/
inductive Auth where
  | bare
  | asked
  | refused
  | authenticated
  deriving DecidableEq

/-- The reply to a command, where the latest one was `AUTH`. -/
def Auth.answered (v : Auth) : Answer → Auth
  | .reply r => if v = .asked then if r = .error then .refused else .authenticated else v
  | _ => v

def Auth.after (v : Auth) (c : Cmd) (r : Answer) : Auth :=
  match c.op with
  | .redisConnect _ | .close => .bare
  | .connectTcp _ => if (contextConnectTcp c.ctx r).1 then .bare else v
  | .append (.auth _) => .asked
  | .takeReply | .read => v.answered r
  | _ => v

def Op.sendsData : Op → Bool
  | .append (.data _) => true
  | _ => false

def Op.sendsAuth : Op → Bool
  | .append (.auth _) => true
  | _ => false

/-- Data is appended only where the latest `AUTH` has been answered without an error. -/
def authRules : Discipline Cmd Answer Empty Auth where
  mayCall v c := c.op.sendsData = true → v = .authenticated
  called := Auth.after
  maySend _ _ := True
  sent v _ := v
  mayMark _ _ := True
  marked v _ := v

/-- `AUTH` is not answered with an error, and fails only with the connection. -/
def AuthSettled (v : Auth) (c : Cmd) (r : Answer) : Prop :=
  v = .asked ∨ c.op.sendsAuth = true →
    r ≠ .reply .error ∧ r ≠ .failed .protocol ∧ r ≠ .failed .oom ∧ r ≠ .failed .other

instance (v : Auth) (c : Cmd) (r : Answer) : Decidable (AuthSettled v c r) :=
  inferInstanceAs (Decidable (v = .asked ∨ c.op.sendsAuth = true →
    r ≠ .reply .error ∧ r ≠ .failed .protocol ∧ r ≠ .failed .oom ∧ r ≠ .failed .other))

/-- A context that is connected is authenticated. -/
def Settled (c : Context) (v : Auth) : Prop := c.connected = true → v = .authenticated

/-- No error, or one that ends the connection. -/
def Curable (c : Context) : Prop := c.err = none ∨ lost c = true

end Definitions

section Connect

variable {v : Auth} {c : Context}

/-- The calls besides those of data. -/
theorem ask_keeps {op : Op} (hop : op.sendsData = false) {post : Answer → Auth → Prop}
    (h : ∀ r, AuthSettled v ⟨c, op⟩ r → post r (v.after ⟨c, op⟩ r)) :
    KeepsIf authRules AuthSettled (ask c op) v post := by
  refine ⟨fun hdata => ?_, h⟩
  rw [hop] at hdata
  cases hdata

theorem contextConnectTcp_connected (c : Context) (r : Answer) :
    (contextConnectTcp c r).2.connected = c.connected := by
  have hloop : ∀ dials : List Dial, (dialLoop c dials).2.connected = c.connected := by
    intro dials
    induction dials with
    | nil => rfl
    | cons d dials ih => cases d <;> first | exact ih | rfl
  unfold contextConnectTcp
  split
  · exact hloop _
  · rfl

theorem disConnect_keeps :
    KeepsIf authRules AuthSettled (disConnect c) v fun c' _ => c'.connected = false := by
  rw [disConnect, releaseResource]
  split
  · apply keepsIf_bind.2
    exact ask_keeps rfl fun _ _ => rfl
  · exact rfl

theorem asyncConnect_keeps (s : Server) :
    KeepsIf authRules AuthSettled (asyncConnect s c) v
      fun c' _ => c'.connected = c.connected := by
  rw [asyncConnect]
  apply keepsIf_bind.2
  exact ask_keeps rfl fun r _ => contextConnectTcp_connected _ r

theorem reconnect_keeps (s : Server) :
    KeepsIf authRules AuthSettled (reconnect s c) v fun c' _ => c'.connected = false := by
  rw [reconnect]
  refine keepsIf_seq disConnect_keeps fun c' u hc' => ?_
  exact keepsIf_mono (asyncConnect_keeps s) fun _ _ h => h.trans hc'

theorem giveUp_keeps :
    KeepsIf authRules AuthSettled (giveUp c) v fun r _ => r.2.connected = c.connected := by
  rw [giveUp]
  apply keepsIf_bind.2
  exact ask_keeps rfl fun _ _ => rfl

/-- A context that gets connected has no error. -/
theorem asyncHandleConnect_keeps (hc : c.connected = false) :
    KeepsIf authRules AuthSettled (asyncHandleConnect c) v
      fun r _ => r.2.connected = true → r.2.err = none := by
  have hstays : c.connected = true → c.err = none := by
    rw [hc]
    intro h
    cases h
  rw [asyncHandleConnect]
  apply keepsIf_bind.2
  refine ask_keeps rfl fun r _ => ?_
  split
  · exact hstays
  · exact hstays
  · apply keepsIf_bind.2
    refine ask_keeps rfl fun r' _ => ?_
    split
    · exact fun _ => rfl
    · refine keepsIf_mono giveUp_keeps fun a _ ha hconn => ?_
      rw [ha, hc] at hconn
      cases hconn

/-- What setting options of the socket leaves. -/
structure Steady (c c' : Context) : Prop where
  connected : c'.connected = c.connected
  block : c'.block = c.block
  curable : Curable c → Curable c'

theorem setBlocking_keeps :
    KeepsIf authRules AuthSettled (setBlocking c) v fun c' _ => Steady c c' := by
  rw [setBlocking]
  apply keepsIf_bind.2
  refine ask_keeps rfl fun r _ => ?_
  apply keepsIf_ite
  · exact fun _ => ⟨rfl, rfl, id⟩
  · intro _
    apply keepsIf_bind.2
    exact ask_keeps rfl fun _ _ => ⟨rfl, rfl, fun _ => .inr rfl⟩

theorem redisSetTimeout_keeps :
    KeepsIf authRules AuthSettled (redisSetTimeout c) v fun c' u => Steady c c' ∧ u = v := by
  rw [redisSetTimeout]
  apply keepsIf_ite
  · intro _
    apply keepsIf_bind.2
    refine ask_keeps rfl fun r _ => ?_
    apply keepsIf_ite
    · exact fun _ => ⟨⟨rfl, rfl, id⟩, rfl⟩
    · exact fun _ => ⟨⟨rfl, rfl, fun _ => .inr rfl⟩, rfl⟩
  · exact fun _ => ⟨⟨rfl, rfl, id⟩, rfl⟩

end Connect

section Auth

variable {v : Auth} {c : Context}

/-- The errors that are left for `AUTH`. -/
theorem AuthSettled.lost {cmd : Cmd} {e : Err} (h : AuthSettled v cmd (.failed e))
    (hauth : v = .asked ∨ cmd.op.sendsAuth = true) :
    Keepalive.lost { c with err := some e } = true := by
  obtain ⟨-, hprotocol, hoom, hother⟩ := h hauth
  cases e with
  | io => rfl
  | eof => rfl
  | protocol => exact absurd rfl hprotocol
  | oom => exact absurd rfl hoom
  | other => exact absurd rfl hother

theorem append_auth (password : Bytes) :
    KeepsIf authRules AuthSettled (redisAppend c (.auth password)) v fun r u =>
      (r.1 = true → r.2 = c ∧ u = .asked) ∧ (r.1 = false → lost r.2 = true) := by
  rw [redisAppend]
  apply keepsIf_bind.2
  refine ask_keeps rfl fun r hr => ?_
  apply keepsIf_ite
  · exact fun _ => trivial
  · intro _
    split
    · exact ⟨fun h => (by cases h), fun _ => hr.lost (.inr rfl)⟩
    · exact ⟨fun _ => ⟨rfl, rfl⟩, fun h => (by cases h)⟩

/-- What `AUTH` is answered with. -/
theorem AuthSettled.answered {cmd : Cmd} {r : Reply} (h : AuthSettled .asked cmd (.reply r)) :
    Auth.asked.answered (.reply r) = .authenticated := by
  obtain ⟨herror, -⟩ := h (.inl rfl)
  have hr : r ≠ .error := fun hr => herror (by rw [hr])
  rw [Auth.answered, if_pos rfl, if_neg hr]

theorem replyFromReader_auth :
    KeepsIf authRules AuthSettled (replyFromReader c) .asked fun r u =>
      (r.1 = true → r.2.2 = c ∧ (r.2.1 = none → u = .asked) ∧
        (r.2.1 ≠ none → u = .authenticated)) ∧ (r.1 = false → lost r.2.2 = true) := by
  rw [replyFromReader]
  apply keepsIf_bind.2
  refine ask_keeps rfl fun r hr => ?_
  apply keepsIf_ite
  · exact fun _ => trivial
  · intro _
    split
    · exact ⟨fun h => (by cases h), fun _ => hr.lost (.inl rfl)⟩
    · refine ⟨fun _ => ⟨rfl, fun h => (by cases h), fun _ => hr.answered⟩, fun h => (by cases h)⟩
    · rename_i hreply
      refine ⟨fun _ => ⟨rfl, fun _ => ?_, fun h => absurd rfl h⟩, fun h => (by cases h)⟩
      cases r with
      | reply r => exact absurd rfl (hreply r)
      | _ => rfl

theorem bufferWrite_auth (hc : Curable c) :
    KeepsIf authRules AuthSettled (bufferWrite c) .asked fun r u =>
      (r.1 = true → u = .asked) ∧ (r.1 = false → lost r.2 = true) := by
  rw [bufferWrite]
  apply keepsIf_ite
  · intro hsome
    refine ⟨fun h => (by cases h), fun _ => hc.resolve_left fun hnone => ?_⟩
    rw [hnone] at hsome
    cases hsome
  · intro _
    apply keepsIf_bind.2
    refine ask_keeps rfl fun r hr => ?_
    apply keepsIf_ite
    · exact fun _ => trivial
    · intro _
      split
      · exact ⟨fun h => (by cases h), fun _ => hr.lost (.inl rfl)⟩
      · exact ⟨fun _ => rfl, fun h => (by cases h)⟩

theorem bufferRead_auth :
    KeepsIf authRules AuthSettled (bufferRead c) .asked fun r u =>
      (r.1 = none → lost r.2 = true) ∧ (r.1 ≠ none → u = .authenticated) := by
  rw [bufferRead]
  apply keepsIf_bind.2
  refine ask_keeps rfl fun r hr => ?_
  apply keepsIf_ite
  · exact fun _ => trivial
  · intro _
    split
    · exact ⟨fun _ => hr.lost (.inl rfl), fun h => absurd rfl h⟩
    · exact ⟨fun h => (by cases h), fun _ => hr.answered⟩
    · trivial

theorem redisGetReply_auth (hc : Curable c) (hblock : c.block = true) :
    KeepsIf authRules AuthSettled (redisGetReply c) .asked fun r u =>
      (r.1 = none → lost r.2 = true) ∧ (r.1 ≠ none → u = .authenticated) := by
  rw [redisGetReply]
  refine keepsIf_seq replyFromReader_auth fun r u hr => ?_
  obtain ⟨ok, reply, c'⟩ := r
  obtain ⟨hok, hfailed⟩ := hr
  cases ok with
  | false => exact ⟨fun _ => hfailed rfl, fun h => absurd rfl h⟩
  | true =>
    obtain ⟨rfl, hnone, hsome⟩ := hok rfl
    cases reply with
    | some reply => exact ⟨fun h => (by cases h), fun _ => hsome (by simp)⟩
    | none =>
      obtain rfl := hnone rfl
      apply keepsIf_ite
      · intro h
        cases h
      · intro _
        apply keepsIf_ite
        · intro _
          refine keepsIf_seq (bufferWrite_auth hc) fun r u hr => ?_
          obtain ⟨ok, c'⟩ := r
          cases ok with
          | false => exact ⟨fun _ => hr.2 rfl, fun h => absurd rfl h⟩
          | true =>
            obtain rfl := hr.1 rfl
            exact bufferRead_auth
        · intro hfree
          exact absurd hblock (by simpa using hfree)

/-- `AUTH` is answered, or the context is not connected any more. -/
theorem commandPending_auth (s : Server) (password : Bytes) (hc : Curable c)
    (hblock : c.block = true) :
    KeepsIf authRules AuthSettled (commandPending s c (.auth password)) v fun r u =>
      (r.1 = none → r.2.connected = false) ∧ (r.1 ≠ none → u = .authenticated) := by
  have hcommand : KeepsIf authRules AuthSettled (redisCommand c (.auth password)) v fun r u =>
      (r.1 = none → lost r.2 = true) ∧ (r.1 ≠ none → u = .authenticated) := by
    rw [redisCommand]
    refine keepsIf_seq (append_auth password) fun r u hr => ?_
    obtain ⟨ok, c'⟩ := r
    cases ok with
    | false => exact ⟨fun _ => hr.2 rfl, fun h => absurd rfl h⟩
    | true =>
      obtain ⟨rfl, rfl⟩ := hr.1 rfl
      apply keepsIf_ite
      · exact fun _ => redisGetReply_auth hc hblock
      · intro hfree
        exact absurd hblock (by simpa using hfree)
  rw [commandPending]
  refine keepsIf_seq hcommand fun r u hr => ?_
  obtain ⟨reply, c'⟩ := r
  cases reply with
  | some reply => exact ⟨fun h => (by cases h), fun _ => hr.2 (by simp)⟩
  | none =>
    apply keepsIf_ite
    · intro _
      refine keepsIf_seq (reconnect_keeps s) fun c'' _ hc'' => ?_
      exact ⟨fun _ => hc'', fun h => absurd rfl h⟩
    · intro hkept
      have hlost : lost c' = true := hr.1 rfl
      simp [hlost] at hkept

end Auth

section Data

variable {c : Context} (text : Bytes)

theorem append_data :
    KeepsIf authRules AuthSettled (redisAppend c (.data text)) .authenticated fun _ u =>
      u = .authenticated := by
  rw [redisAppend]
  apply keepsIf_bind.2
  refine ⟨fun _ => rfl, fun r _ => ?_⟩
  apply keepsIf_ite
  · exact fun _ => trivial
  · intro _
    split
    · exact rfl
    · exact rfl

/-- Only an answer to `AUTH` counts. -/
theorem answered_authenticated (r : Answer) :
    Auth.authenticated.answered r = .authenticated := by
  unfold Auth.answered
  split
  · exact if_neg (by decide)
  · rfl

theorem replyFromReader_data :
    KeepsIf authRules AuthSettled (replyFromReader c) .authenticated fun _ u =>
      u = .authenticated := by
  rw [replyFromReader]
  apply keepsIf_bind.2
  refine ask_keeps rfl fun r _ => ?_
  have hu : Auth.authenticated.after ⟨c, .takeReply⟩ r = .authenticated := answered_authenticated r
  apply keepsIf_ite
  · exact fun _ => trivial
  · intro _
    split <;> exact keepsIf_pure hu

theorem bufferWrite_data :
    KeepsIf authRules AuthSettled (bufferWrite c) .authenticated fun _ u =>
      u = .authenticated := by
  rw [bufferWrite]
  apply keepsIf_ite
  · exact fun _ => rfl
  · intro _
    apply keepsIf_bind.2
    refine ask_keeps rfl fun r _ => ?_
    apply keepsIf_ite
    · exact fun _ => trivial
    · intro _
      split <;> exact rfl

theorem bufferRead_data :
    KeepsIf authRules AuthSettled (bufferRead c) .authenticated fun _ u =>
      u = .authenticated := by
  rw [bufferRead]
  apply keepsIf_bind.2
  refine ask_keeps rfl fun r _ => ?_
  have hu : Auth.authenticated.after ⟨c, .read⟩ r = .authenticated := answered_authenticated r
  apply keepsIf_ite
  · exact fun _ => trivial
  · intro _
    split
    · exact keepsIf_pure hu
    · exact keepsIf_pure hu
    · trivial

theorem redisGetReply_data :
    KeepsIf authRules AuthSettled (redisGetReply c) .authenticated fun _ u =>
      u = .authenticated := by
  rw [redisGetReply]
  refine keepsIf_seq replyFromReader_data fun r u hu => ?_
  obtain rfl : u = .authenticated := hu
  apply keepsIf_ite
  · exact fun _ => rfl
  · intro _
    apply keepsIf_ite
    · intro _
      refine keepsIf_seq bufferWrite_data fun r u hu => ?_
      obtain rfl : u = .authenticated := hu
      apply keepsIf_ite
      · exact fun _ => bufferRead_data
      · exact fun _ => rfl
    · exact fun _ => rfl

theorem redisCommand_data :
    KeepsIf authRules AuthSettled (redisCommand c (.data text)) .authenticated fun _ u =>
      u = .authenticated := by
  rw [redisCommand]
  refine keepsIf_seq (append_data text) fun r u hu => ?_
  obtain rfl : u = .authenticated := hu
  apply keepsIf_ite
  · exact fun _ => redisGetReply_data
  · exact fun _ => rfl

theorem commandPending_data (s : Server) :
    KeepsIf authRules AuthSettled (commandPending s c (.data text)) .authenticated fun r u =>
      Settled r.2 u := by
  rw [commandPending]
  refine keepsIf_seq (redisCommand_data text) fun r u hu => ?_
  apply keepsIf_ite
  · intro _
    refine keepsIf_seq (reconnect_keeps s) fun c' u' hc' hconn => ?_
    rw [hc'] at hconn
    cases hconn
  · exact fun _ _ => hu

theorem commandNopending_data (s : Server) :
    KeepsIf authRules AuthSettled (commandNopending s c (.data text)) .authenticated Settled := by
  rw [commandNopending]
  refine keepsIf_seq (append_data text) fun r u hu => ?_
  obtain rfl : u = .authenticated := hu
  refine keepsIf_seq bufferWrite_data fun r u hu => ?_
  apply keepsIf_ite
  · exact fun _ _ => hu
  · intro _
    refine keepsIf_mono (reconnect_keeps s) fun c' u' hc' hconn => ?_
    rw [hc'] at hconn
    cases hconn

end Data

end Doorhinges.Keepalive

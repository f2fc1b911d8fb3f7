import Doorhinges.Dispatch.Model

/-!
# Which callbacks are answered

The handlers refuse a line with an error or run the callback, which answers on every path;
in between they return without a word when `cgi` has no value of theirs. The prefix of the
line does not rule this out: it is compared without case, and a later `cgi` counts.
-/
namespace Doorhinges.Dispatch

open Lib.CString
open Lib.Redis (Reply)
open Lib.Program
open Callback (Externals Request Mark Command)

/-- Everything is allowed; the digest is the answer that waits to be written, if any. A new
answer takes the place of an old one. -/
def answers : Discipline Command (Option Reply) Event (Option Event) where
  mayCall _ _ := True
  called v _ _ := v
  maySend _ _ := True
  sent v _ := v
  mayMark _ _ := True
  marked v e := if e.answers then some e else v

/-- Whatever the replies of the server, an answer waits when the program returns. -/
def Answers (p : Act Unit) : Prop := Keeps answers p none fun _ pending => pending.isSome

section Callback

variable {X : Externals} {q : Request} {α : Type}

/-- An answer that waits is only replaced by another. -/
theorem keeps_pending (p : Prog Command (Option Reply) Mark α) {v : Option Event} (b : Bool)
    (h : b = true → v.isSome) :
    Keeps (answers.along .callback) p v fun _ w => b = true → w.isSome := by
  induction p generalizing v with
  | ret a => exact h
  | crash => trivial
  | call c k ih => exact ⟨trivial, fun r => ih r h⟩
  | send c k ih => exact ⟨trivial, ih h⟩
  | mark m k ih =>
    refine ⟨trivial, ih ?_⟩
    intro hb
    show (if (Event.callback m).answers then some (Event.callback m) else v).isSome
    split
    · rfl
    · exact h hb

theorem keeps_after (p : Prog Command (Option Reply) Mark Unit) (m : Mark) (v : Option Event)
    (hm : (Event.callback m).answers = true) :
    Keeps (answers.along .callback) (p >>= fun _ => mark m) v fun _ w => w.isSome := by
  rw [keeps_bind]
  refine keeps_mono (keeps_pending p false (fun h => by cases h)) fun _ w _ => ?_
  refine ⟨trivial, ?_⟩
  show (if (Event.callback m).answers then some (Event.callback m) else w).isSome
  rw [if_pos hm]
  rfl

theorem keeps_before (p : Prog Command (Option Reply) Mark Unit) (m : Mark) (v : Option Event)
    (hm : (Event.callback m).answers = true) :
    Keeps (answers.along .callback) (mark m >>= fun _ => p) v fun _ w => w.isSome := by
  rw [keeps_bind, keeps_mark]
  refine ⟨trivial, keeps_mono (keeps_pending p true fun _ => ?_) fun _ _ h => h rfl⟩
  show (if (Event.callback m).answers then some (Event.callback m) else v).isSome
  rw [if_pos hm]
  rfl

/-- The callback proper answers on every path. -/
theorem keeps_callback (v : Option Event) :
    Keeps (answers.along .callback) (Callback.aisCallback X q) v fun _ w => w.isSome := by
  unfold Callback.aisCallback
  rw [keeps_bind, keeps_call]
  refine ⟨trivial, fun getreply => ?_⟩
  split
  · exact keeps_before _ _ _ rfl
  · rename_i s _
    rw [keeps_bind, keeps_call]
    refine ⟨trivial, fun hgetreply => ?_⟩
    unfold Callback.withPlatform
    split
    · exact ⟨trivial, rfl⟩
    · split
      · exact ⟨trivial, rfl⟩
      · rename_i p _
        refine keeps_after (Callback.debugOr X q s p.platformProviderID) _ _ ?_
        cases q.replies <;> rfl

end Callback

variable {X : Externals} {e : Env} {line : Bytes} {rbytes : Nat}

/-- The checks are passed and `cgi` has none of the two values. -/
def Silent (e : Env) (line : Bytes) (rbytes : Nat) : Handler → Prop
  | .aisCallback => ∃ o, parameters e line rbytes = some o ∧ refusal o.ret o.param = none ∧
      callbacktype "cbimp" "cbclk" o.param = none
  | .aisImpClk => ∃ o, parameters e line rbytes = some o ∧ refusalImpClk o.ret o.param = none ∧
      callbacktype "imp" "clk" o.param = none
  | _ => False

theorem answers_aisCallback :
    Answers (aisCallback X e line rbytes) ↔ ¬ Silent e line rbytes .aisCallback := by
  unfold Answers aisCallback Silent
  rw [keeps_bind, keeps_deref]
  constructor
  · rintro h ⟨o, ho, hrefusal, hkind⟩
    have := h o ho
    rw [hrefusal, hkind] at this
    cases this
  · intro hsilent o ho
    cases hrefusal : refusal o.ret o.param with
    | some r => exact ⟨trivial, rfl⟩
    | none =>
      cases hkind : callbacktype "cbimp" "cbclk" o.param with
      | none => exact absurd ⟨o, ho, hrefusal, hkind⟩ hsilent
      | some kind => exact (keeps_relabel _ _ _ _).2 (keeps_callback none)

theorem answers_aisImpClk :
    Answers (aisImpClk X e line rbytes) ↔ ¬ Silent e line rbytes .aisImpClk := by
  unfold Answers aisImpClk Silent
  rw [keeps_bind, keeps_deref]
  constructor
  · rintro h ⟨o, ho, hrefusal, hkind⟩
    have := h o ho
    rw [hrefusal, hkind] at this
    cases this
  · intro hsilent o ho
    cases hrefusal : refusalImpClk o.ret o.param with
    | some r => exact ⟨trivial, rfl⟩
    | none =>
      cases hkind : callbacktype "imp" "clk" o.param with
      | none => exact absurd ⟨o, ho, hrefusal, hkind⟩ hsilent
      | some kind =>
        dsimp only
        rw [keeps_bind]
        exact keeps_mono ((keeps_relabel _ _ _ _).2 (keeps_callback none))
          fun _ _ _ => ⟨trivial, rfl⟩

/-- A line that goes to one of the two handlers is answered exactly when it is refused or
`cgi` says which callback it is. -/
theorem answered_iff {h : Handler} {p : Act Unit} (hd : processCommand line rbytes = some h)
    (hp : handle X e line rbytes h = some p) : Answers p ↔ ¬ Silent e line rbytes h := by
  cases h with
  | aisCallback =>
    obtain rfl := Option.some.inj hp
    exact answers_aisCallback
  | aisImpClk =>
    obtain rfl := Option.some.inj hp
    exact answers_aisImpClk
  | aisGet | aisWap | aisReport | aisImpClkNew => cases hp

/-- A click that passes the checks. -/
def clickLine : Bytes := ascii "cgi=cbclk&sessionid=1&pid=13"

def clickEnv : Env := ⟨some (List.replicate 29 0), [], [], 0, false⟩

theorem answered_iff_clicked : processCommand clickLine 29 = some .aisCallback ∧
    (parameters clickEnv clickLine 29).map (fun o => refusal o.ret o.param) = some none ∧
      ∀ X : Externals, Answers (aisCallback X clickEnv clickLine 29) := by
  have hd : processCommand clickLine 29 = some .aisCallback := by decide +kernel
  have hchecks : (parameters clickEnv clickLine 29).map (fun o => (refusal o.ret o.param,
      (callbacktype "cbimp" "cbclk" o.param).isSome)) = some (none, true) := by
    decide +kernel
  obtain ⟨o, ho, heq⟩ := Option.map_eq_some_iff.1 hchecks
  obtain ⟨hrefusal, hkind⟩ := Prod.mk.inj heq
  refine ⟨hd, by rw [ho, Option.map_some, hrefusal], fun X => (answered_iff hd rfl).2 ?_⟩
  rintro ⟨o', ho', -, hnone⟩
  obtain rfl := Option.some.inj (ho.symm.trans ho')
  rw [hnone] at hkind
  cases hkind

def capitalLine : Bytes := ascii "CGI=cbclk&sessionid=1&pid=13"

def capitalEnv : Env := ⟨some (List.replicate 29 0), [], [], 0, false⟩

theorem silent_capital : Silent capitalEnv capitalLine 29 .aisCallback := by
  have h : (parameters capitalEnv capitalLine 29).map
      (fun o => (refusal o.ret o.param, callbacktype "cbimp" "cbclk" o.param)) =
        some (none, none) := by
    decide +kernel
  obtain ⟨o, ho, heq⟩ := Option.map_eq_some_iff.1 h
  obtain ⟨hrefusal, hkind⟩ := Prod.mk.inj heq
  exact ⟨o, ho, hrefusal, hkind⟩

/-- The prefix is compared without case, the name of the parameter is not. -/
theorem not_always_answered : ¬ ∀ (X : Externals) (e : Env) (line : Bytes) (rbytes : Nat)
    (h : Handler) (p : Act Unit), 0 ∉ line → line.length < rbytes →
      processCommand line rbytes = some h → handle X e line rbytes h = some p → Answers p := by
  intro hall
  have hd : processCommand capitalLine 29 = some .aisCallback := by decide +kernel
  exact answers_aisCallback.1
    (hall ⟨fun _ => none, fun _ => none, id, id⟩ capitalEnv capitalLine 29 .aisCallback _
      (by decide +kernel) (by decide +kernel) hd rfl) silent_capital

end Doorhinges.Dispatch

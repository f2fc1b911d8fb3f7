import Mathlib.Logic.Function.Basic

/-!
# A counter lock that outlives what it protects

Participants read a guard that is written once and lives for `ttl`, and then
count up a lock; the one that counts it to 1 holds it. The lock gets its own
expiry later, not earlier than `ttl` after the extension. A participant is late
when the clock has passed the lock's expiry since it read the guard.
-/
namespace Doorhinges.Lib.Lease

inductive Status where
  | idle
  | waiting (late : Bool)
  | holder
  | lost
  deriving DecidableEq

structure State (ι : Type*) where
  clock : Nat
  guard : Option Nat
  lock : Option (Int × Option Nat)
  status : ι → Status

/-- The lock exists and has not expired. -/
def alive (clock : Nat) : Option (Int × Option Nat) → Bool
  | none => false
  | some (_, none) => true
  | some (_, some e) => clock ≤ e

/-- The clock moves past the lock's expiry. -/
def crosses (clock d : Nat) : Option (Int × Option Nat) → Bool
  | some (_, some e) => clock ≤ e && e < clock + d
  | _ => false

def Status.ticked (late : Bool) : Status → Status
  | .waiting b => .waiting (b || late)
  | st => st

variable {ι : Type*}

inductive Step [DecidableEq ι] (ttl : Nat) : State ι → State ι → Prop
  | write (s : State ι) : s.guard = none → Step ttl s { s with guard := some (s.clock + ttl) }
  | read (s : State ι) (i : ι) (g : Nat) : s.status i = .idle → s.guard = some g → s.clock ≤ g →
      Step ttl s { s with status := Function.update s.status i (.waiting false) }
  | take (s : State ι) (i : ι) : s.status i = .waiting false → alive s.clock s.lock = false →
      Step ttl s { s with lock := some (1, none), status := Function.update s.status i .holder }
  | lose (s : State ι) (i : ι) (b : Bool) (n : Int) (t : Option Nat) : s.status i = .waiting b →
      s.lock = some (n, t) → alive s.clock s.lock = true →
      Step ttl s { s with lock := some (n + 1, t), status := Function.update s.status i .lost }
  | extend (s : State ι) (n : Int) (t : Option Nat) : s.lock = some (n, t) →
      alive s.clock s.lock = true →
      Step ttl s { s with lock := some (n, some (s.clock + ttl)) }
  | tick (s : State ι) (d : Nat) :
      Step ttl s
        { s with
          clock := s.clock + d
          status := fun i => (s.status i).ticked (crosses s.clock d s.lock) }

/-- The lock of a holder lives at least as long as the guard, and once it has
expired everybody who could still take it is late. -/
structure Inv (ttl : Nat) (s : State ι) : Prop where
  unique : ∀ i j, s.status i = .holder → s.status j = .holder → i = j
  untaken : (∀ i, s.status i ≠ .holder) → s.lock = none
  taken : ∀ i, s.status i = .holder → ∃ n t g, s.lock = some (n, t) ∧ 1 ≤ n ∧
    s.guard = some g ∧ ∀ e, t = some e → g ≤ e ∧ (e < s.clock → ∀ j, s.status j ≠ .waiting false)
  bound : ∀ g, s.guard = some g → g ≤ s.clock + ttl
  known : ∀ i, s.status i ≠ .idle → ∃ g, s.guard = some g

variable {ttl : Nat} {s t : State ι}

/-- A lock that is not alive while it is held leaves nobody to take it. -/
theorem Inv.not_retaken (h : Inv ttl s) {i j : ι} (hi : s.status i = .holder)
    (hl : alive s.clock s.lock = false) : s.status j ≠ .waiting false := by
  obtain ⟨n, t, g, hlock, -, -, ht⟩ := h.taken i hi
  rw [hlock] at hl
  cases t with
  | none => cases hl
  | some e =>
    refine (ht e rfl).2 ?_ j
    simpa [alive] using hl

theorem Status.ticked_eq_holder {late : Bool} {st : Status} :
    st.ticked late = .holder ↔ st = .holder := by
  cases st <;> simp [Status.ticked]

theorem Status.ticked_eq_idle {late : Bool} {st : Status} :
    st.ticked late = .idle ↔ st = .idle := by
  cases st <;> simp [Status.ticked]

theorem Status.ticked_waiting {late : Bool} {st : Status} (h : st.ticked late = .waiting false) :
    st = .waiting false ∧ late = false := by
  cases st <;> simp_all [Status.ticked]

section Step

variable [DecidableEq ι]

/-- A participant that is no holder changes to a status other than holder. -/
theorem Inv.update_other (h : Inv ttl s) {i : ι} {st : Status} (hi : s.status i ≠ .holder)
    (hst : st ≠ .holder) (lock : Option (Int × Option Nat))
    (huntaken : s.lock = none → lock = none)
    (htaken : ∀ n t g, s.lock = some (n, t) → s.guard = some g → ∃ n', lock = some (n', t) ∧
      (1 ≤ n → 1 ≤ n') ∧ ∀ e, t = some e → g ≤ e → e < s.clock → st ≠ .waiting false)
    (hknown : ∃ g, s.guard = some g) :
    Inv ttl { s with lock := lock, status := Function.update s.status i st } := by
  have hback : ∀ j, Function.update s.status i st j = .holder → s.status j = .holder := by
    intro j hj
    by_cases hji : j = i
    · subst hji
      simp [hst] at hj
    · simpa [hji] using hj
  constructor
  · exact fun j k hj hk => h.unique j k (hback j hj) (hback k hk)
  · intro hno
    refine huntaken (h.untaken fun j hj => ?_)
    have hji : j ≠ i := by rintro rfl; exact hi hj
    exact hno j (by simpa [hji] using hj)
  · intro j hj
    obtain ⟨n, t, g, hlock, hn, hg, ht⟩ := h.taken j (hback j hj)
    obtain ⟨n', hlock', hn', hwait⟩ := htaken n t g hlock hg
    refine ⟨n', t, g, hlock', hn' hn, hg, fun e he => ⟨(ht e he).1, fun hlt k => ?_⟩⟩
    by_cases hki : k = i
    · subst hki
      simpa using hwait e he (ht e he).1 hlt
    · simpa [hki] using (ht e he).2 hlt k
  · exact h.bound
  · exact fun _ _ => hknown

theorem Inv.step (h : Inv ttl s) (hs : Step ttl s t) : Inv ttl t := by
  cases hs with
  | write hg =>
    have hidle : ∀ i, s.status i = .idle := by
      intro i
      by_contra hi
      obtain ⟨g, hg'⟩ := h.known i hi
      simp [hg] at hg'
    exact ⟨h.unique, h.untaken, fun i hi => by simp [hidle i] at hi,
      fun g hg' => by simp at hg'; simp; omega, fun _ _ => ⟨_, rfl⟩⟩
  | read i g hi hg hlive =>
    refine h.update_other (by simp [hi]) (by simp) s.lock id ?_ ⟨g, hg⟩
    intro n t g' hlock hg'
    obtain rfl : g = g' := Option.some.inj (hg.symm.trans hg')
    exact ⟨n, hlock, id, fun e _ hge hlt => by omega⟩
  | take i hi hl =>
    have hnone : ∀ j, s.status j ≠ .holder := fun j hj => h.not_retaken hj hl hi
    obtain ⟨g, hg⟩ := h.known i (by simp [hi])
    have honly : ∀ j, Function.update s.status i .holder j = .holder → j = i := by
      intro j hj
      by_contra hji
      exact hnone j (by simpa [hji] using hj)
    constructor
    · exact fun j k hj hk => (honly j hj).trans (honly k hk).symm
    · intro hno
      exact absurd (by simp) (hno i)
    · exact fun j hj => ⟨1, none, g, rfl, by decide, hg, fun e he => by cases he⟩
    · exact h.bound
    · exact fun _ _ => ⟨g, hg⟩
  | lose i b n t hi hlock hl =>
    refine h.update_other (by simp [hi]) (by simp) _ (by simp [hlock]) ?_ (h.known i (by simp [hi]))
    intro n' t' g hlock' hg
    obtain ⟨rfl, rfl⟩ : n = n' ∧ t = t' := by simpa [hlock] using hlock'
    exact ⟨n + 1, rfl, fun hn => by omega, fun e _ _ _ => by simp⟩
  | extend n t hlock hl =>
    refine ⟨h.unique, fun hno => ?_, fun i hi => ?_, h.bound, h.known⟩
    · have := h.untaken hno
      simp [hlock] at this
    · obtain ⟨n', t', g, hlock', hn, hg, -⟩ := h.taken i hi
      obtain ⟨rfl, rfl⟩ : n = n' ∧ t = t' := by simpa [hlock] using hlock'
      refine ⟨n, _, g, rfl, hn, hg, fun e he => ?_⟩
      obtain rfl := Option.some.inj he
      exact ⟨h.bound g hg, fun hlt => absurd hlt (by simp)⟩
  | tick d =>
    constructor
    · exact fun i j hi hj => h.unique i j (Status.ticked_eq_holder.mp hi) (Status.ticked_eq_holder.mp hj)
    · exact fun hno => h.untaken fun i hi => hno i (Status.ticked_eq_holder.mpr hi)
    · intro i hi
      obtain ⟨n, t, g, hlock, hn, hg, ht⟩ := h.taken i (Status.ticked_eq_holder.mp hi)
      refine ⟨n, t, g, hlock, hn, hg, fun e he => ⟨(ht e he).1, fun hlt j hj => ?_⟩⟩
      subst he
      obtain ⟨hw, hlate⟩ := Status.ticked_waiting hj
      by_cases hpast : e < s.clock
      · exact (ht e rfl).2 hpast j hw
      · -- the clock crosses the expiry in this very step
        simp only [crosses, hlock, Bool.and_eq_false_iff, decide_eq_false_iff_not] at hlate
        simp only at hlt
        omega
    · intro g hg
      have := h.bound g hg
      simp only
      omega
    · exact fun i hi => h.known i fun hidle => hi (Status.ticked_eq_idle.mpr hidle)

/-- A holder stays one. -/
theorem Step.holder_stays (hs : Step ttl s t) {i : ι} (hi : s.status i = .holder) :
    t.status i = .holder := by
  cases hs with
  | write _ => exact hi
  | read j g hj _ _ =>
    have hij : i ≠ j := by rintro rfl; simp [hi] at hj
    simpa [hij] using hi
  | take j hj _ =>
    by_cases hij : i = j
    · simp [hij]
    · simpa [hij] using hi
  | lose j b n t hj _ _ =>
    have hij : i ≠ j := by rintro rfl; simp [hi] at hj
    simpa [hij] using hi
  | extend _ _ _ _ => exact hi
  | tick d => exact Status.ticked_eq_holder.mpr hi

/-- Somebody becomes a holder only where nobody was one. -/
theorem Inv.new_holder (h : Inv ttl s) (hs : Step ttl s t) {i : ι} (hi : t.status i = .holder) :
    s.status i = .holder ∨ ∀ j, s.status j ≠ .holder := by
  cases hs with
  | write _ => exact .inl hi
  | read j g hj _ _ =>
    left
    have hij : i ≠ j := by rintro rfl; simp at hi
    simpa [hij] using hi
  | take j hj hl => exact .inr fun k hk => h.not_retaken hk hl hj
  | lose j b n t hj _ _ =>
    left
    have hij : i ≠ j := by rintro rfl; simp at hi
    simpa [hij] using hi
  | extend _ _ _ _ => exact .inl hi
  | tick d => exact .inl (Status.ticked_eq_holder.mp hi)

end Step

/-- Nobody has read the guard yet. -/
theorem Inv.start {clock : Nat} : Inv ttl (⟨clock, none, none, fun _ => .idle⟩ : State ι) :=
  ⟨fun _ _ h => by simp at h, fun _ => rfl, fun _ h => by simp at h, fun _ h => by simp at h,
    fun _ h => by simp at h⟩

end Doorhinges.Lib.Lease

import Mathlib.Data.Int.ConditionallyCompleteOrder
import Mathlib.Data.Int.Interval
import Mathlib.Order.ConditionallyCompleteLattice.Basic
import Mathlib.Order.Interval.Finset.Basic

/-!
# Numbered tickets

Participants draw consecutive numbers from one counter, each at most once, and
a participant with a number up to the limit may spend it once. At most `limit`
numbers are spent.
-/
namespace Doorhinges.Lib.Tickets

structure State (ι : Type*) where
  last : Int
  number : ι → Option Int
  spent : ι → Bool
  count : Nat

variable {ι : Type*}

inductive Step [DecidableEq ι] (limit : Int) : State ι → State ι → Prop
  | draw (s : State ι) (i : ι) : s.number i = none → Step limit s
      { s with
        last := s.last + 1
        number := Function.update s.number i (some (s.last + 1)) }
  | spend (s : State ι) (i : ι) (m : Int) : s.number i = some m → m ≤ limit → s.spent i = false →
      Step limit s { s with spent := Function.update s.spent i true, count := s.count + 1 }

open Classical in
/-- The numbers up to the limit that have been spent. -/
noncomputable def used (limit : Int) (s : State ι) : Finset Int :=
  (Finset.Icc 1 limit).filter fun m => ∃ i, s.number i = some m ∧ s.spent i = true

theorem mem_used {limit : Int} {s : State ι} {m : Int} : m ∈ used limit s ↔
    (1 ≤ m ∧ m ≤ limit) ∧ ∃ i, s.number i = some m ∧ s.spent i = true := by
  simp [used]

structure Inv (limit : Int) (s : State ι) : Prop where
  last : 0 ≤ s.last
  drawn : ∀ i m, s.number i = some m → 1 ≤ m ∧ m ≤ s.last
  distinct : ∀ i j m, s.number i = some m → s.number j = some m → i = j
  count : s.count ≤ (used limit s).card

variable {limit : Int} {s t : State ι}

theorem Inv.start : Inv limit (⟨0, fun _ => none, fun _ => false, 0⟩ : State ι) :=
  ⟨le_rfl, fun _ _ h => (by cases h), fun _ _ _ h => (by cases h), Nat.zero_le _⟩

theorem Inv.count_le (h : Inv limit s) : s.count ≤ limit.toNat := by
  have hsub : used limit s ⊆ Finset.Icc 1 limit := fun m hm => Finset.mem_Icc.mpr (mem_used.mp hm).1
  calc s.count ≤ (used limit s).card := h.count
    _ ≤ (Finset.Icc 1 limit).card := Finset.card_le_card hsub
    _ = limit.toNat := by simp

theorem Inv.step [DecidableEq ι] (h : Inv limit s) (hs : Step limit s t) : Inv limit t := by
  cases hs with
  | draw i hi =>
    have hlast := h.last
    have hold : ∀ j m, Function.update s.number i (some (s.last + 1)) j = some m →
        j = i ∧ m = s.last + 1 ∨ s.number j = some m := by
      intro j m hj
      by_cases hji : j = i
      · subst hji
        exact .inl ⟨rfl, by simpa [eq_comm] using hj⟩
      · exact .inr (by simpa [hji] using hj)
    refine ⟨by simp only; omega, fun j m hj => ?_, fun j k m hj hk => ?_, ?_⟩
    · rcases hold j m hj with ⟨-, rfl⟩ | hj
      · simp only
        omega
      · have := h.drawn j m hj
        simp only
        omega
    · rcases hold j m hj with ⟨hji, hm⟩ | hj'
      · rcases hold k m hk with ⟨hki, -⟩ | hk'
        · exact hji.trans hki.symm
        · have := (h.drawn k m hk').2
          omega
      · rcases hold k m hk with ⟨-, hm⟩ | hk'
        · have := (h.drawn j m hj').2
          omega
        · exact h.distinct j k m hj' hk'
    · refine h.count.trans (Finset.card_le_card fun m hm => ?_)
      obtain ⟨hrange, j, hj, hsp⟩ := mem_used.mp hm
      have hji : j ≠ i := by
        rintro rfl
        simp [hi] at hj
      exact mem_used.mpr ⟨hrange, j, by simpa [hji] using hj, hsp⟩
  | spend i m hi hm hsp =>
    refine ⟨h.last, h.drawn, h.distinct, ?_⟩
    have hfresh : m ∉ used limit s := by
      intro hmem
      obtain ⟨-, j, hj, hjs⟩ := mem_used.mp hmem
      obtain rfl := h.distinct i j m hi hj
      simp [hsp] at hjs
    have hsub : insert m (used limit s) ⊆
        used limit { s with spent := Function.update s.spent i true, count := s.count + 1 } := by
      intro k hk
      rcases Finset.mem_insert.mp hk with rfl | hk
      · exact mem_used.mpr ⟨⟨(h.drawn i k hi).1, hm⟩, i, hi, by simp⟩
      · obtain ⟨hrange, j, hj, hjs⟩ := mem_used.mp hk
        refine mem_used.mpr ⟨hrange, j, hj, ?_⟩
        by_cases hji : j = i
        · simp [hji]
        · simpa [hji] using hjs
    have hcard := Finset.card_le_card hsub
    rw [Finset.card_insert_of_notMem hfresh] at hcard
    exact (Nat.succ_le_succ h.count).trans hcard

end Doorhinges.Lib.Tickets

import Mathlib.Data.List.Basic

/-!
# One pass over an array

A pass visits the cells of an array in order and replaces each by a function of what it holds
and where it stands. Every cell is visited once, so what a visit sees is what the array held
before the pass, and the pass is defined if every visit is.
-/
namespace Doorhinges.Lib.Sweep

variable {α : Type} (f : Nat → α → Option α)

/-- The cells from `k` on, `n` of them. -/
def sweep : Nat → Nat → List α → Option (List α)
  | 0, _, mem => some mem
  | n + 1, k, mem => do
    let a ← mem[k]?
    let b ← f k a
    sweep n (k + 1) (mem.set k b)

/-- What the visit of a cell makes of it. -/
def visit (mem : List α) (k : Nat) : Option α := mem[k]?.bind (f k)

variable {f} {n m k : Nat} {mem mem' : List α}

theorem visit_set {i j : Nat} (h : i ≠ j) (b : α) : visit f (mem.set i b) j = visit f mem j := by
  rw [visit, visit, List.getElem?_set_ne h]

theorem sweep_succ (n k : Nat) (mem : List α) : sweep f (n + 1) k mem =
    (visit f mem k).bind fun b => sweep f n (k + 1) (mem.set k b) := by
  rw [sweep, visit, Option.bind_eq_bind, Option.bind_assoc]

theorem sweep_add (n m k : Nat) (mem : List α) :
    sweep f (n + m) k mem = (sweep f n k mem).bind (sweep f m (k + n)) := by
  induction n generalizing k mem with
  | zero => rw [Nat.zero_add, sweep, Option.bind_some, Nat.add_zero]
  | succ n ih =>
    rw [Nat.succ_add, sweep_succ, sweep_succ, Option.bind_assoc]
    refine congrArg _ (funext fun b => ?_)
    rw [ih, Nat.succ_add_eq_add_succ]

/-- A pass is defined where every visit is, and leaves the results of the visits. -/
theorem sweep_eq_some (h : ∀ i, k ≤ i → i < k + n → (visit f mem i).isSome) :
    ∃ mem', sweep f n k mem = some mem' ∧
      ∀ i : Nat, mem'[i]? = if k ≤ i ∧ i < k + n then visit f mem i else mem[i]? := by
  induction n generalizing k mem with
  | zero => exact ⟨mem, rfl, fun i => by rw [if_neg (by omega)]⟩
  | succ n ih =>
    obtain ⟨b, hb⟩ := Option.isSome_iff_exists.1 (h k (Nat.le_refl k) (by omega))
    have hk : k < mem.length := by
      rw [visit, Option.bind_eq_some_iff] at hb
      obtain ⟨a, ha, -⟩ := hb
      exact (List.getElem?_eq_some_iff.1 ha).1
    obtain ⟨mem', hrun, hmem⟩ := @ih (k + 1) (mem.set k b) fun i hi hlt => by
      rw [visit_set (by omega)]
      exact h i (by omega) (by omega)
    refine ⟨mem', by rw [sweep_succ, hb, Option.bind_some, hrun], fun i => ?_⟩
    rw [hmem]
    rcases Nat.lt_trichotomy i k with hlt | rfl | hgt
    · rw [if_neg (by omega), if_neg (by omega), List.getElem?_set_ne (by omega)]
    · rw [if_neg (by omega), if_pos (by omega), List.getElem?_set_self hk, hb]
    · rw [visit_set (by omega), List.getElem?_set_ne (by omega)]
      exact if_congr (by omega) rfl rfl

/-- A pass that is defined has made every visit. -/
theorem visit_isSome (h : sweep f n k mem = some mem') {i : Nat} (hk : k ≤ i) (hi : i < k + n) :
    (visit f mem i).isSome := by
  induction n generalizing k mem with
  | zero => omega
  | succ n ih =>
    rw [sweep_succ, Option.bind_eq_some_iff] at h
    obtain ⟨b, hb, hrest⟩ := h
    rcases Nat.eq_or_lt_of_le hk with rfl | hlt
    · exact Option.isSome_of_eq_some hb
    · have hvisit := ih hrest hlt (by omega)
      rwa [visit_set (by omega)] at hvisit

end Doorhinges.Lib.Sweep

import Mathlib.Order.Basic

/-!
# Search by halving

The loop that finds the first place where a test, which holds up to some place and not
behind it, fails.
-/
namespace Doorhinges.Lib.Bisect

/-- The search from `f` on in `len` places. -/
def search (low : Nat → Bool) (f len : Nat) : Nat :=
  if len = 0 then f
  else if low (f + len / 2) then search low (f + len / 2 + 1) (len - len / 2 - 1)
  else search low f (len / 2)
termination_by len

/-- The test holds before the place found, and fails there unless that is the end. -/
theorem search_spec {low : Nat → Bool} {size : Nat}
    (hmono : ∀ i j, i ≤ j → j < size → low j = true → low i = true) {f len : Nat}
    (hsize : f + len ≤ size) :
    f ≤ search low f len ∧ search low f len ≤ f + len ∧
      (∀ i, f ≤ i → i < search low f len → low i = true) ∧
      (search low f len < f + len → low (search low f len) = false) := by
  fun_induction search low f len with
  | case1 f => exact ⟨Nat.le_refl f, Nat.le_refl f, fun i h hi => absurd hi (Nat.not_lt.2 h),
      fun h => absurd h (Nat.lt_irrefl _)⟩
  | case2 f len hlen hmid ih =>
    obtain ⟨hle, hend, hbefore, hat⟩ := ih (by omega)
    refine ⟨by omega, by omega, fun i h hi => ?_, fun h => hat (by omega)⟩
    by_cases hhalf : i ≤ f + len / 2
    · exact hmono i _ hhalf (by omega) hmid
    · exact hbefore i (by omega) hi
  | case3 f len hlen hmid ih =>
    obtain ⟨hle, hend, hbefore, hat⟩ := ih (by omega)
    refine ⟨hle, by omega, hbefore, fun h => ?_⟩
    by_cases hlast : search low f (len / 2) < f + len / 2
    · exact hat hlast
    · have hplace : search low f (len / 2) = f + len / 2 := by omega
      rw [hplace]
      exact eq_false_of_ne_true hmid

/-- The search only asks inside of its places. -/
theorem search_congr {low low' : Nat → Bool} {f len : Nat}
    (h : ∀ i, f ≤ i → i < f + len → low i = low' i) : search low f len = search low' f len := by
  fun_induction search low f len with
  | case1 f => rw [search, if_pos rfl]
  | case2 f len hlen hmid ih =>
    have hsame := h (f + len / 2) (by omega) (by omega)
    rw [ih fun i hi hlt => h i (by omega) (by omega), search.eq_def low' f len, if_neg hlen,
      if_pos (hsame ▸ hmid)]
  | case3 f len hlen hmid ih =>
    have hsame := h (f + len / 2) (by omega) (by omega)
    rw [ih fun i hi hlt => h i hi (by omega), search.eq_def low' f len, if_neg hlen,
      if_neg (hsame ▸ hmid)]

end Doorhinges.Lib.Bisect

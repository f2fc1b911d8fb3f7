import Mathlib.Algebra.GroupWithZero.Nat
import Mathlib.Data.List.Basic

/-!
# Columns

Texts joined by a separator and cut to a length. Splitting the result gives the texts back
exactly if none of them holds the separator and nothing has been cut off.
-/
namespace Doorhinges.Lib.Columns

variable {α : Type} {sep : α} {cols : List (List α)}

def joined (sep : α) (cols : List (List α)) : List α := [sep].intercalate cols

theorem joined_singleton (c : List α) : joined sep [c] = c := by simp [joined]

theorem joined_cons_cons (c d : List α) (cols : List (List α)) :
    joined sep (c :: d :: cols) = c ++ sep :: joined sep (d :: cols) := by
  simp [joined]

/-- The length of the texts, with one element behind each. -/
theorem length_joined (h : cols ≠ []) :
    (joined sep cols).length + 1 = (cols.map fun c => c.length + 1).sum := by
  induction cols with
  | nil => exact absurd rfl h
  | cons c cols ih =>
    rw [List.map_cons, List.sum_cons]
    cases cols with
    | nil => simp [joined]
    | cons d cols =>
      rw [joined_cons_cons, List.length_append, List.length_cons,
        ← ih (List.cons_ne_nil d cols)]
      omega

/-- The elements are those of the texts, and separators. -/
theorem forall_mem_joined (p : α → Prop) (hsep : p sep) :
    (∀ x ∈ joined sep cols, p x) ↔ ∀ c ∈ cols, ∀ x ∈ c, p x := by
  induction cols with
  | nil => simp [joined]
  | cons c cols ih =>
    cases cols with
    | nil => simp [joined]
    | cons d cols =>
      rw [joined_cons_cons, List.forall_mem_append, List.forall_mem_cons, ih, List.forall_mem_cons (a := c)]
      exact and_congr_right fun _ => and_iff_right hsep

section Split

variable [DecidableEq α]

theorem not_mem_of_mem_splitOn {l c : List α} (h : c ∈ l.splitOn sep) : sep ∉ c := by
  induction l generalizing c with
  | nil =>
    obtain rfl : c = [] := by simpa using h
    exact List.not_mem_nil
  | cons x l ih =>
    rw [List.splitOn_cons_eq_if_modifyHead] at h
    split at h
    · rcases List.mem_cons.1 h with rfl | h
      · exact List.not_mem_nil
      · exact ih h
    · rename_i hx
      have hx : sep ≠ x := fun heq => hx (by simp [heq])
      cases hl : l.splitOn sep with
      | nil => exact absurd hl (List.splitOn_ne_nil _ _)
      | cons d rest =>
        rw [hl, List.modifyHead_cons] at h
        rcases List.mem_cons.1 h with rfl | h
        · exact List.not_mem_cons_of_ne_of_not_mem hx (ih (hl ▸ List.mem_cons_self))
        · exact ih (hl ▸ List.mem_cons_of_mem _ h)

/-- The texts are read back exactly if they are whole and none of them has a separator. -/
theorem splitOn_take_iff (hne : cols ≠ []) (n : Nat) :
    ((joined sep cols).take n).splitOn sep = cols ↔
      (∀ c ∈ cols, sep ∉ c) ∧ (joined sep cols).length ≤ n := by
  constructor
  · intro h
    refine ⟨fun c hc => not_mem_of_mem_splitOn (h.symm ▸ hc), ?_⟩
    have hwhole : (joined sep cols).take n = joined sep cols := by
      conv_rhs => rw [← h]
      exact (List.intercalate_splitOn sep).symm
    rw [← hwhole]
    exact List.length_take_le ..
  · rintro ⟨hcols, hlen⟩
    rw [List.take_of_length_le hlen, joined, List.splitOn_intercalate sep hcols hne]

end Split

end Doorhinges.Lib.Columns

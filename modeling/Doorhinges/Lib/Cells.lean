import Doorhinges.Lib.Bump

/-!
# Arrays with checked access

An array is its cells. A write that does not lie inside has no result. Texts that are built
up from the start of an array are followed by what the array held before.
-/
namespace Doorhinges.Lib.Cells

open Lib.Bump (overwrite)

variable {α : Type} {mem out rest block mem' : List α} {pos : Nat}

def store (mem : List α) (pos : Nat) (block : List α) : Option (List α) :=
  if pos + block.length ≤ mem.length then some (overwrite mem pos block) else none

theorem store_eq_some (h : store mem pos block = some mem') :
    pos + block.length ≤ mem.length ∧ mem' = overwrite mem pos block := by
  rw [store] at h
  split at h
  · rename_i hfit
    exact ⟨hfit, (Option.some.inj h).symm⟩
  · cases h

theorem length_store (h : store mem pos block = some mem') : mem'.length = mem.length := by
  obtain ⟨hfit, rfl⟩ := store_eq_some h
  exact Bump.length_overwrite hfit

/-- A write right behind the text that has been built. -/
theorem store_append (h : block.length ≤ rest.length) :
    store (out ++ rest) out.length block = some (out ++ block ++ rest.drop block.length) := by
  rw [store, if_pos (by rw [List.length_append]; omega), overwrite, List.take_left' rfl,
    ← List.drop_drop, List.drop_left' rfl]

theorem store_append_none (h : rest.length < block.length) :
    store (out ++ rest) out.length block = none := by
  rw [store, if_neg (by rw [List.length_append]; omega)]

end Doorhinges.Lib.Cells

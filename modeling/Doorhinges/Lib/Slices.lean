import Mathlib.Data.List.Basic

/-!
# Slices of a buffer

A list of slices stands for the concatenation of what they select. `advance` removes a
number of elements from the front of it: whole slices first, then a part of the next one.
-/
namespace Doorhinges.Lib.Slices

structure Slice where
  base : Nat
  len : Nat
  deriving DecidableEq

variable {α : Type} {buf : List α} {v : Slice} {vs ws : List Slice} {n : Nat}

def Slice.select (buf : List α) (v : Slice) : List α := (buf.drop v.base).take v.len

/-- Not empty, and inside the buffer. -/
def Slice.Fits (buf : List α) (v : Slice) : Prop := 0 < v.len ∧ v.base + v.len ≤ buf.length

instance : Decidable (v.Fits buf) :=
  inferInstanceAs (Decidable (0 < v.len ∧ v.base + v.len ≤ buf.length))

def gather (buf : List α) (vs : List Slice) : List α := vs.flatMap (Slice.select buf)

/-- The slice without its first elements. -/
def Slice.cut (v : Slice) (n : Nat) : Slice := ⟨v.base + n, v.len - n⟩

def advance : Nat → List Slice → List Slice
  | _, [] => []
  | n, v :: vs => if v.len ≤ n then advance (n - v.len) vs else v.cut n :: vs

@[simp]
theorem gather_nil : gather buf [] = [] := rfl

@[simp]
theorem gather_cons : gather buf (v :: vs) = v.select buf ++ gather buf vs := List.flatMap_cons

@[simp]
theorem gather_append : gather buf (vs ++ ws) = gather buf vs ++ gather buf ws :=
  List.flatMap_append

theorem Slice.Fits.length_select (h : v.Fits buf) : (v.select buf).length = v.len := by
  have := h.2
  rw [Slice.select, List.length_take, List.length_drop]
  omega

theorem Slice.select_cut : (v.cut n).select buf = (v.select buf).drop n := by
  rw [Slice.select, Slice.select, Slice.cut, List.drop_take, List.drop_drop]

theorem Slice.Fits.cut (h : v.Fits buf) (hn : n < v.len) : (v.cut n).Fits buf := by
  have := h.2
  refine ⟨?_, ?_⟩
  · show 0 < v.len - n
    omega
  · show v.base + n + (v.len - n) ≤ buf.length
    omega

theorem gather_advance (h : ∀ v ∈ vs, v.Fits buf) :
    gather buf (advance n vs) = (gather buf vs).drop n := by
  induction vs generalizing n with
  | nil => simp [advance]
  | cons v vs ih =>
    have hv := (h v List.mem_cons_self).length_select
    rw [advance, gather_cons]
    split
    · rename_i hle
      have hgone : (v.select buf).drop n = [] := List.drop_eq_nil_of_le (by omega)
      rw [ih fun w hw => h w (List.mem_cons_of_mem _ hw), List.drop_append, hgone,
        List.nil_append, hv]
    · rw [gather_cons, Slice.select_cut, List.drop_append_of_le_length (by omega)]

theorem fits_advance (h : ∀ v ∈ vs, v.Fits buf) : ∀ v ∈ advance n vs, v.Fits buf := by
  induction vs generalizing n with
  | nil =>
    intro v hv
    cases hv
  | cons v vs ih =>
    have hvs : ∀ w ∈ vs, w.Fits buf := fun w hw => h w (List.mem_cons_of_mem _ hw)
    intro w hw
    rw [advance] at hw
    split at hw
    · exact ih hvs w hw
    · rcases List.mem_cons.1 hw with rfl | hw
      · exact (h v List.mem_cons_self).cut (by omega)
      · exact hvs w hw

/-- A slice that is split selects the same elements. -/
theorem select_split (buf : List α) (base m k : Nat) :
    Slice.select buf ⟨base, m⟩ ++ Slice.select buf ⟨base + m, k⟩ =
      Slice.select buf ⟨base, m + k⟩ := by
  simp only [Slice.select]
  rw [List.take_add, List.drop_drop]

end Doorhinges.Lib.Slices

import Mathlib.Algebra.Ring.Nat
import Mathlib.Tactic.Ring

/-!
# Numbers as groups of bits

Groups of `w` bits are shifted into a number one after the other, the first one ends up
highest, and they are read back by shifts and masks. Regrouping the bits of a number is
packing with one width and unpacking with another.
-/
namespace Doorhinges.Lib.BitGroups

variable {w x n k : Nat} {vs : List Nat}

/-- `vs` shifted into `x`. -/
def pack (w : Nat) : Nat → List Nat → Nat := List.foldl fun x v => x <<< w ||| v

/-- The lowest `n` groups of a number, the highest first. -/
def unpack (w : Nat) : Nat → Nat → List Nat
  | 0, _ => []
  | n + 1, x => x >>> (n * w) % 2 ^ w :: unpack w n x

theorem pack_append (vs ws : List Nat) : pack w x (vs ++ ws) = pack w (pack w x vs) ws :=
  List.foldl_append

theorem shift_or {v : Nat} (h : v < 2 ^ w) : x <<< w ||| v = x * 2 ^ w + v := by
  rw [← Nat.shiftLeft_add_eq_or_of_lt h, Nat.shiftLeft_eq]

/-- What is shifted in stands below what was there. -/
theorem pack_bounds (h : ∀ v ∈ vs, v < 2 ^ w) :
    ∃ r < 2 ^ (vs.length * w), pack w x vs = x * 2 ^ (vs.length * w) + r := by
  induction vs generalizing x with
  | nil => exact ⟨0, by simp, by simp [pack]⟩
  | cons v vs ih =>
    have hv := h v List.mem_cons_self
    obtain ⟨r, hr, heq⟩ := @ih (x <<< w ||| v) fun u hu => h u (List.mem_cons_of_mem _ hu)
    have hpow : 2 ^ ((v :: vs).length * w) = 2 ^ w * 2 ^ (vs.length * w) := by
      rw [List.length_cons, Nat.succ_mul, Nat.add_comm, Nat.pow_add]
    refine ⟨v * 2 ^ (vs.length * w) + r, ?_, ?_⟩
    · calc v * 2 ^ (vs.length * w) + r < (v + 1) * 2 ^ (vs.length * w) := by
            rw [Nat.succ_mul]; omega
        _ ≤ 2 ^ ((v :: vs).length * w) := by
            rw [hpow]; exact Nat.mul_le_mul_right _ hv
    · change pack w (x <<< w ||| v) vs = _
      rw [heq, shift_or hv, hpow]
      ring

theorem pack_zeros : pack w x (List.replicate k 0) = x <<< (k * w) := by
  induction k generalizing x with
  | zero => simp [pack]
  | succ k ih =>
    change pack w (x <<< w ||| 0) (List.replicate k 0) = _
    rw [Nat.or_zero, ih, ← Nat.shiftLeft_add, Nat.succ_mul, Nat.add_comm]

@[simp] theorem length_unpack : (unpack w n x).length = n := by
  induction n with
  | zero => rfl
  | succ n ih => rw [unpack, List.length_cons, ih]

theorem unpack_lt {v : Nat} (h : v ∈ unpack w n x) : v < 2 ^ w := by
  induction n with
  | zero => cases h
  | succ n ih =>
    rcases List.mem_cons.1 h with rfl | h
    · exact Nat.mod_lt _ (Nat.two_pow_pos w)
    · exact ih h

theorem unpack_pack (h : ∀ v ∈ vs, v < 2 ^ w) : unpack w vs.length (pack w x vs) = vs := by
  induction vs generalizing x with
  | nil => rfl
  | cons v vs ih =>
    have hv := h v List.mem_cons_self
    have hvs := fun u hu => h u (List.mem_cons_of_mem _ hu)
    obtain ⟨r, hr, heq⟩ := pack_bounds (x := x <<< w ||| v) hvs
    have hhigh : pack w (x <<< w ||| v) vs >>> (vs.length * w) = x * 2 ^ w + v := by
      rw [heq, shift_or hv, Nat.shiftRight_eq_div_pow, Nat.mul_comm,
        Nat.mul_add_div (Nat.two_pow_pos _), Nat.div_eq_of_lt hr, Nat.add_zero]
    have hmod : (x * 2 ^ w + v) % 2 ^ w = v := by
      rw [Nat.mul_comm, Nat.mul_add_mod, Nat.mod_eq_of_lt hv]
    change pack w (x <<< w ||| v) vs >>> (vs.length * w) % 2 ^ w ::
      unpack w vs.length (pack w (x <<< w ||| v) vs) = v :: vs
    rw [hhigh, hmod, ih hvs]

theorem pack_unpack (y : Nat) :
    pack w y (unpack w n x) = y * 2 ^ (n * w) + x % 2 ^ (n * w) := by
  induction n generalizing y with
  | zero => simp [pack, unpack, Nat.mod_one]
  | succ n ih =>
    have hpow : 2 ^ ((n + 1) * w) = 2 ^ (n * w) * 2 ^ w := by rw [Nat.succ_mul, Nat.pow_add]
    change pack w (y <<< w ||| x >>> (n * w) % 2 ^ w) (unpack w n x) = _
    rw [ih, shift_or (Nat.mod_lt _ (Nat.two_pow_pos w)), Nat.shiftRight_eq_div_pow, hpow,
      Nat.mod_mul]
    ring

/-- The groups below a shift are empty. -/
theorem unpack_shift (h : n * w ≤ k) : unpack w n (x <<< k) = List.replicate n 0 := by
  induction n with
  | zero => rfl
  | succ n ih =>
    rw [Nat.succ_mul] at h
    have hgroup : x <<< k >>> (n * w) % 2 ^ w = 0 := by
      obtain ⟨j, rfl⟩ := Nat.exists_eq_add_of_le h
      rw [Nat.shiftLeft_eq, Nat.shiftRight_eq_div_pow, Nat.pow_add, Nat.pow_add, Nat.mul_comm,
        Nat.mul_assoc, Nat.mul_assoc, Nat.mul_div_cancel_left _ (Nat.two_pow_pos _),
        Nat.mul_mod_right]
    rw [unpack, hgroup, ih (by omega), List.replicate_succ]

/-- The first groups, and those that follow them. -/
theorem unpack_add (m n x : Nat) :
    unpack w (m + n) x = unpack w m (x >>> (n * w)) ++ unpack w n x := by
  induction m with
  | zero => rw [Nat.zero_add]; rfl
  | succ m ih =>
    rw [Nat.succ_add, unpack, ih, unpack, ← Nat.shiftRight_add, Nat.add_mul, List.cons_append,
      Nat.add_comm (n * w)]

end Doorhinges.Lib.BitGroups

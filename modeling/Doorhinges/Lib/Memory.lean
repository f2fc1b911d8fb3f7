import Mathlib.Data.List.GetD

/-!
# Bytes at integer addresses

A block of bytes is read back from where it has been written, and a block beside it is not
touched. A 32-bit integer takes four bytes, the lowest first.
-/
namespace Doorhinges.Lib.Memory

abbrev Mem := Int → UInt8

def read (m : Mem) (a : Int) (n : Nat) : List UInt8 := (List.range n).map fun i : Nat => m (a + i)

def write (m : Mem) (a : Int) (bs : List UInt8) : Mem :=
  fun x => if a ≤ x ∧ x < a + bs.length then bs.getD (x - a).toNat 0 else m x

section Blocks

variable {m : Mem} {a b : Int} {n : Nat} {bs : List UInt8}

@[simp] theorem length_read : (read m a n).length = n := by
  rw [read, List.length_map, List.length_range]

theorem read_write_self : read (write m a bs) a bs.length = bs := by
  refine List.ext_getElem length_read fun i hi hi' => ?_
  simp only [read, List.getElem_map, List.getElem_range]
  rw [write, if_pos (by omega), show (a + i - a).toNat = i by omega]
  exact List.getD_eq_getElem bs 0 hi'

theorem read_write_apart (h : a + n ≤ b ∨ b + bs.length ≤ a) :
    read (write m b bs) a n = read m a n := by
  refine List.map_congr_left fun i hi => ?_
  have hlt := List.mem_range.1 hi
  rw [write, if_neg]
  omega

end Blocks

section Int32

def Int32 (n : Int) : Prop := -2147483648 ≤ n ∧ n < 2147483648

instance (n : Int) : Decidable (Int32 n) := inferInstanceAs (Decidable (_ ∧ _))

/-- The four bytes of an integer. -/
def bytes32 (n : Int) : List UInt8 :=
  [.ofNat (n % 256).toNat, .ofNat (n / 256 % 256).toNat, .ofNat (n / 256 / 256 % 256).toNat,
    .ofNat (n / 256 / 256 / 256 % 256).toNat]

def signed32 (u : Int) : Int := if u < 2147483648 then u else u - 4294967296

/-- The integer of four bytes. -/
def int32 : List UInt8 → Int
  | [b₀, b₁, b₂, b₃] =>
    signed32 (b₀.toNat + 256 * b₁.toNat + 65536 * b₂.toNat + 16777216 * b₃.toNat)
  | _ => 0

@[simp] theorem length_bytes32 (n : Int) : (bytes32 n).length = 4 := rfl

theorem int32_bytes32 {n : Int} (h : Int32 n) : int32 (bytes32 n) = n := by
  obtain ⟨hlow, hhigh⟩ := h
  have hbyte : ∀ k : Int, ((UInt8.ofNat (k % 256).toNat).toNat : Int) = k % 256 := by
    intro k
    have hlt : (k % 256).toNat < 2 ^ 8 := by omega
    rw [UInt8.toNat_ofNat', Nat.mod_eq_of_lt hlt]
    omega
  show signed32 _ = n
  rw [hbyte, hbyte, hbyte, hbyte, signed32]
  split <;> omega

end Int32

end Doorhinges.Lib.Memory

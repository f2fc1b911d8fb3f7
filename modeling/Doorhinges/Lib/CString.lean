import Mathlib.Data.Nat.Digits.Defs

/-!
# Byte strings

C strings are byte lists without their terminator. The conversions to and from
decimal text follow the C library: `strtol` saturates at 64 bits and `atoi`
narrows its result to an int.
-/
namespace Doorhinges.Lib.CString

abbrev Bytes := List UInt8

def ascii (s : String) : Bytes := s.toList.map fun c => c.toNat.toUInt8

def isSpace (c : UInt8) : Bool := c = 32 || 9 ≤ c && c ≤ 13

def isDigit (c : UInt8) : Bool := 48 ≤ c && c ≤ 57

def digitVal (c : UInt8) : Nat := c.toNat - 48

def decimalNat (n : Nat) : Bytes :=
  if n = 0 then [48] else (Nat.digits 10 n).reverse.map fun d => (48 + d).toUInt8

/-- The text of `%d` and `%lld`. -/
def decimal (n : Int) : Bytes :=
  if n < 0 then 45 :: decimalNat n.natAbs else decimalNat n.natAbs

/-- The number the leading digits stand for. -/
def leadingNat (s : Bytes) : Nat :=
  (s.takeWhile isDigit).foldl (fun acc c => 10 * acc + digitVal c) 0

def strtol (s : Bytes) : Int :=
  match s.dropWhile isSpace with
  | 45 :: t => max (-(leadingNat t)) (-2 ^ 63)
  | 43 :: t => min (leadingNat t) (2 ^ 63 - 1)
  | t => min (leadingNat t) (2 ^ 63 - 1)

/-- Conversion of a 64-bit integer to int. -/
def toInt32 (n : Int) : Int := n.bmod (2 ^ 32)

def atoi (s : Bytes) : Int := toInt32 (strtol s)

/-- What an snprintf into an array of `size` bytes leaves of a text. -/
def snprintf (size : Nat) (s : Bytes) : Bytes := s.take (size - 1)

def lower (c : UInt8) : UInt8 := if 65 ≤ c && c ≤ 90 then c + 32 else c

/-- `strcasecmp` finds no difference. -/
def caseEq (s t : Bytes) : Bool := s.map lower = t.map lower

example : atoi (ascii " -12x") = -12 := by decide
example : decimal (-120) = ascii "-120" := by decide

theorem toInt32_of_lt {n : Int} (h₀ : 0 ≤ n) (h : n < 2 ^ 31) : toInt32 n = n := by
  rw [toInt32, Int.bmod_eq_of_le] <;> omega

end Doorhinges.Lib.CString

import Doorhinges.Lib.Decimal
import Doorhinges.Lib.Binary64

/-!
# Decimal numbers as texts

The number a text with a sign, a point and an exponent stands for, and the text `%f` prints.
-/
namespace Doorhinges.Lib.DecimalText

open Lib.CString
open Lib.Binary64

/-- The number a row of digits stands for. -/
def digitsNat (ds : Bytes) : Nat := ds.foldl (fun acc c => 10 * acc + digitVal c) 0

/-- The digits of an exponent, to the end of the text. -/
def exponentDigits (ds : Bytes) : Option Nat :=
  if ds ≠ [] ∧ ds.all isDigit then some (digitsNat ds) else none

/-- What follows the mantissa. -/
def exponentValue : Bytes → Option Int
  | [] => some 0
  | c :: rest =>
    if c = 101 ∨ c = 69 then
      match rest with
      | 45 :: ds => (exponentDigits ds).map fun n => -(n : Int)
      | 43 :: ds => (exponentDigits ds).map Int.ofNat
      | ds => (exponentDigits ds).map Int.ofNat
    else none

/-- The digits behind the point, and what follows them. -/
def fraction : Bytes → Bytes × Bytes
  | 46 :: rest => (rest.takeWhile isDigit, rest.dropWhile isDigit)
  | rest => ([], rest)

def unsignedValue (b : Bytes) : Option ℚ :=
  let int := b.takeWhile isDigit
  let frac := fraction (b.dropWhile isDigit)
  if int = [] ∧ frac.1 = [] then none
  else (exponentValue frac.2).map fun e =>
    (digitsNat (int ++ frac.1) : ℚ) * 10 ^ (e - (frac.1.length : Int))

/-- The value of a decimal text, none where the text is not one as a whole. -/
def decimalValue : Bytes → Option ℚ
  | 45 :: b => (unsignedValue b).map (-·)
  | 43 :: b => unsignedValue b
  | b => unsignedValue b

/-- The number at the front of a text, as `strtod` reads it; hexadecimal and infinite texts are
left out. -/
def leadingValue (b : Bytes) : ℚ :=
  let b := b.dropWhile isSpace
  ((List.range (b.length + 1)).reverse.findSome? fun n => decimalValue (b.take n)).getD 0

/-- Six digits with leading zeros. -/
def sixDigits (n : Nat) : Bytes :=
  List.replicate (6 - (decimalNat n).length) 48 ++ decimalNat n

/-- `%f` of a magnitude. -/
def printSix (x : ℚ) : Bytes :=
  let n := roundEven (x * 10 ^ 6)
  decimalNat (n / 10 ^ 6) ++ 46 :: sixDigits (n % 10 ^ 6)

section Digits

theorem digitsNat_append (ds es : Bytes) :
    digitsNat (ds ++ es) = digitsNat ds * 10 ^ es.length + digitsNat es := by
  have hfold : ∀ (es : Bytes) (a : Nat), es.foldl (fun acc c => 10 * acc + digitVal c) a =
      a * 10 ^ es.length + digitsNat es := by
    intro es
    induction es with
    | nil => intro a; simp [digitsNat]
    | cons c es ih =>
      intro a
      have hc : digitsNat (c :: es) = digitVal c * 10 ^ es.length + digitsNat es := by
        rw [digitsNat, List.foldl_cons, ih, Nat.mul_zero, Nat.zero_add]
      rw [List.foldl_cons, ih, hc, List.length_cons, pow_succ]
      ring
  rw [digitsNat, List.foldl_append, hfold]
  rfl

theorem all_digits_decimalNat (n : Nat) : ∀ c ∈ decimalNat n, isDigit c := by
  obtain ⟨ds, -, hlt, heq, -⟩ := decimalNat_eq n
  intro c hc
  rw [heq] at hc
  obtain ⟨d, hd, rfl⟩ := List.mem_map.1 hc
  exact (digit_byte (hlt d hd)).1

theorem digitsNat_decimalNat (n : Nat) : digitsNat (decimalNat n) = n := by
  have hall : (decimalNat n).takeWhile isDigit = decimalNat n :=
    List.takeWhile_eq_self_iff.2 (all_digits_decimalNat n)
  have hlead := leadingNat_decimalNat n
  rwa [leadingNat, hall] at hlead

theorem digitsNat_zeros (k : Nat) : digitsNat (List.replicate k 48) = 0 := by
  induction k with
  | zero => rfl
  | succ k ih =>
    rw [List.replicate_succ', digitsNat_append, ih]
    rfl

theorem digitsNat_sixDigits (n : Nat) : digitsNat (sixDigits n) = n := by
  rw [sixDigits, digitsNat_append, digitsNat_zeros, digitsNat_decimalNat, Nat.zero_mul,
    Nat.zero_add]

theorem length_sixDigits {n : Nat} (h : n < 10 ^ 6) : (sixDigits n).length = 6 := by
  have hlen := length_decimalNat_le (by decide) h
  rw [sixDigits, List.length_append, List.length_replicate]
  omega

theorem all_digits_sixDigits (n : Nat) : ∀ c ∈ sixDigits n, isDigit c := by
  intro c hc
  rcases List.mem_append.1 hc with hc | hc
  · rw [List.eq_of_mem_replicate hc]
    rfl
  · exact all_digits_decimalNat n c hc

end Digits

section Values

theorem unsignedValue_cons_of_not {c : UInt8} (b : Bytes) (hd : ¬ isDigit c) (hp : c ≠ 46) :
    unsignedValue (c :: b) = none := by
  have hfrac : fraction (c :: b) = ([], c :: b) := by
    rw [fraction]
    exact fun _ h => hp (List.cons.inj h).1
  rw [unsignedValue, List.takeWhile_cons_of_neg hd, List.dropWhile_cons_of_neg hd, hfrac]
  exact if_pos ⟨rfl, rfl⟩

/-- A decimal text does not begin with a blank. -/
theorem dropWhile_of_decimalValue {b : Bytes} {v : ℚ} (h : decimalValue b = some v) :
    b.dropWhile isSpace = b := by
  cases b with
  | nil => rfl
  | cons c b =>
    refine List.dropWhile_cons_of_neg fun hc => ?_
    have hne : c ≠ 45 ∧ c ≠ 43 ∧ c ≠ 46 ∧ ¬ isDigit c := by
      refine ⟨?_, ?_, ?_, fun hd => ?_⟩
      · rintro rfl
        exact absurd hc (by decide)
      · rintro rfl
        exact absurd hc (by decide)
      · rintro rfl
        exact absurd hc (by decide)
      · have h48 : 48 ≤ c := by
          rw [isDigit, Bool.and_eq_true, decide_eq_true_iff] at hd
          exact hd.1
        rw [isSpace] at hc
        grind
    have hval : decimalValue (c :: b) = unsignedValue (c :: b) := by
      rw [decimalValue]
      · exact fun _ hcb => hne.1 (List.cons.inj hcb).1
      · exact fun _ hcb => hne.2.1 (List.cons.inj hcb).1
    rw [hval, unsignedValue_cons_of_not b hne.2.2.2 hne.2.2.1] at h
    cases h

theorem leadingValue_of_decimalValue {b : Bytes} {v : ℚ} (h : decimalValue b = some v) :
    leadingValue b = v := by
  rw [leadingValue, dropWhile_of_decimalValue h, List.range_succ, List.reverse_append, List.reverse_singleton, List.singleton_append,
    List.findSome?_cons, List.take_length, h]
  rfl

theorem unsignedValue_nonneg {b : Bytes} {v : ℚ} (h : unsignedValue b = some v) : 0 ≤ v := by
  rw [unsignedValue] at h
  split_ifs at h
  obtain ⟨e, -, rfl⟩ := Option.map_eq_some_iff.1 h
  exact mul_nonneg (Nat.cast_nonneg _) (zpow_nonneg (by norm_num) _)

/-- The sign of a decimal text is that of its value. -/
theorem decimalValue_sign {b : Bytes} {v : ℚ} (h : decimalValue b = some v) :
    if b.head? = some 45 then v ≤ 0 else 0 ≤ v := by
  rw [decimalValue.eq_def] at h
  split at h
  · obtain ⟨w, hw, rfl⟩ := Option.map_eq_some_iff.1 h
    rw [List.head?_cons, if_pos rfl]
    exact neg_nonpos.2 (unsignedValue_nonneg hw)
  · rw [List.head?_cons, if_neg (by decide)]
    exact unsignedValue_nonneg h
  · rename_i b hb _
    rw [if_neg]
    · exact unsignedValue_nonneg h
    · intro hhead
      obtain ⟨t, rfl⟩ := List.head?_eq_some_iff.1 hhead
      exact hb t rfl

end Values

/-- What `%f` prints reads as the value rounded to millionths. -/
theorem unsignedValue_printSix (x : ℚ) :
    unsignedValue (printSix x) = some ((roundEven (x * 10 ^ 6) : ℚ) / 10 ^ 6) := by
  rw [printSix]
  generalize roundEven (x * 10 ^ 6) = n
  have htake : (decimalNat (n / 10 ^ 6) ++ 46 :: sixDigits (n % 10 ^ 6)).takeWhile isDigit =
      decimalNat (n / 10 ^ 6) := by
    rw [List.takeWhile_append_of_pos (all_digits_decimalNat _),
      List.takeWhile_cons_of_neg (by decide), List.append_nil]
  have hdrop : (decimalNat (n / 10 ^ 6) ++ 46 :: sixDigits (n % 10 ^ 6)).dropWhile isDigit =
      46 :: sixDigits (n % 10 ^ 6) := by
    rw [List.dropWhile_append_of_pos (all_digits_decimalNat _),
      List.dropWhile_cons_of_neg (by decide)]
  have hfrac : fraction (46 :: sixDigits (n % 10 ^ 6)) = (sixDigits (n % 10 ^ 6), []) := by
    rw [fraction, List.takeWhile_eq_self_iff.2 (all_digits_sixDigits _),
      List.dropWhile_eq_nil_iff.2 (all_digits_sixDigits _)]
  have hne : ¬ (decimalNat (n / 10 ^ 6) = [] ∧ sixDigits (n % 10 ^ 6) = []) :=
    fun h => decimalNat_ne_nil _ h.1
  have hlen := length_sixDigits (Nat.mod_lt n (by decide : 0 < 10 ^ 6))
  rw [unsignedValue, htake, hdrop, hfrac]
  dsimp only
  rw [if_neg hne, exponentValue, Option.map_some, digitsNat_append, hlen, digitsNat_decimalNat,
    digitsNat_sixDigits, Nat.div_add_mod']
  have hpow : (10 : ℚ) ^ ((0 : ℤ) - ((6 : ℕ) : ℤ)) = 1 / 10 ^ 6 := by norm_num
  rw [hpow, mul_one_div]

end Doorhinges.Lib.DecimalText

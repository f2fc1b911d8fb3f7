import Mathlib.Data.Int.Log
import Mathlib.Data.Rat.Floor
import Mathlib.Tactic.Linarith
import Mathlib.Tactic.Ring
import Mathlib.Tactic.NormNum
import Mathlib.Tactic.FieldSimp

/-!
# Rounding to binary64

Magnitudes are rationals. A magnitude is rounded to a multiple of its unit in the last
place, to the nearer one and halfway to the even one. Overflow is left to the caller, as a
result of `2 ^ 1024` or more.
-/
namespace Doorhinges.Lib.Binary64

/-- The nearest natural number, halfway the even one. -/
def roundEven (x : ℚ) : ℕ :=
  if x - ⌊x⌋₊ < 1 / 2 then ⌊x⌋₊
  else if 1 / 2 < x - ⌊x⌋₊ then ⌊x⌋₊ + 1
  else if ⌊x⌋₊ % 2 = 0 then ⌊x⌋₊ else ⌊x⌋₊ + 1

theorem roundEven_near {x : ℚ} (hx : 0 ≤ x) :
    |x - roundEven x| < 1 / 2 ∨ |x - roundEven x| = 1 / 2 ∧ Even (roundEven x) := by
  have hfloor := Nat.floor_le hx
  have hlt := Nat.lt_floor_add_one x
  rw [roundEven]
  split_ifs with hlow hhigh heven
  · left
    rw [abs_of_nonneg (by linarith)]
    exact hlow
  · left
    push_cast
    rw [abs_of_nonpos (by linarith)]
    linarith
  · right
    have hhalf : x - ⌊x⌋₊ = 1 / 2 := le_antisymm (not_lt.1 hhigh) (not_lt.1 hlow)
    rw [hhalf, abs_of_nonneg (by norm_num)]
    exact ⟨rfl, Nat.even_iff.2 heven⟩
  · right
    have hhalf : x - ⌊x⌋₊ = 1 / 2 := le_antisymm (not_lt.1 hhigh) (not_lt.1 hlow)
    refine ⟨?_, Nat.even_iff.2 (by omega)⟩
    push_cast
    rw [show x - (⌊x⌋₊ + 1) = -(1 / 2) by linarith, abs_neg, abs_of_nonneg (by norm_num)]

theorem abs_sub_roundEven {x : ℚ} (hx : 0 ≤ x) : |x - roundEven x| ≤ 1 / 2 :=
  (roundEven_near hx).elim le_of_lt fun h => h.1.le

/-- The rounding is the one natural number that is near enough. -/
theorem roundEven_eq_iff {x : ℚ} (hx : 0 ≤ x) {n : ℕ} :
    roundEven x = n ↔ |x - n| < 1 / 2 ∨ |x - n| = 1 / 2 ∧ Even n := by
  constructor
  · rintro rfl
    exact roundEven_near hx
  · intro hn
    have hround := roundEven_near hx
    generalize roundEven x = m at hround
    have hxn : |x - n| ≤ 1 / 2 := hn.elim le_of_lt fun h => h.1.le
    have hxm : |x - m| ≤ 1 / 2 := hround.elim le_of_lt fun h => h.1.le
    by_contra hne
    -- two such numbers are neighbours, both halfway and both even
    have hdist : |(m : ℚ) - n| ≤ 1 := by
      have hsum := abs_sub_le (m : ℚ) x n
      rw [abs_sub_comm (m : ℚ) x] at hsum
      linarith
    have hapart : (1 : ℚ) ≤ |(m : ℚ) - n| := by
      have hint : (1 : ℤ) ≤ |(m : ℤ) - n| := Int.one_le_abs (by omega)
      exact_mod_cast hint
    have hsum := abs_sub_le (m : ℚ) x n
    rw [abs_sub_comm (m : ℚ) x] at hsum
    have hm : Even m := (hround.resolve_left fun h => by linarith).2
    have hn : Even n := (hn.resolve_left fun h => by linarith).2
    have hone : |(m : ℤ) - n| = 1 := by
      have : |(m : ℚ) - n| = 1 := le_antisymm hdist hapart
      exact_mod_cast this
    obtain ⟨a, ha⟩ := hm
    obtain ⟨b, hb⟩ := hn
    rcases abs_eq (zero_le_one' ℤ) |>.1 hone with h | h <;> omega

theorem roundEven_of_near {x : ℚ} (hx : 0 ≤ x) {n : ℕ} (h : |x - n| < 1 / 2) : roundEven x = n :=
  (roundEven_eq_iff hx).2 (Or.inl h)

@[simp] theorem roundEven_zero : roundEven 0 = 0 := roundEven_of_near le_rfl (by norm_num)

/-- The exponent of the unit in the last place; the least is that of the subnormals. -/
def ulpExponent (q : ℚ) : ℤ := max (Int.log 2 q - 52) (-1074)

def ulp (q : ℚ) : ℚ := 2 ^ ulpExponent q

def toDouble (q : ℚ) : ℚ := roundEven (q / ulp q) * ulp q

theorem ulp_pos (q : ℚ) : 0 < ulp q := zpow_pos two_pos _

theorem toDouble_nonneg (q : ℚ) : 0 ≤ toDouble q :=
  mul_nonneg (Nat.cast_nonneg _) (ulp_pos q).le

@[simp] theorem toDouble_zero : toDouble 0 = 0 := by
  rw [toDouble, zero_div, roundEven_zero, Nat.cast_zero, zero_mul]

theorem toDouble_near {q : ℚ} (hq : 0 ≤ q) : |q - toDouble q| ≤ ulp q / 2 := by
  have hulp := ulp_pos q
  have hround := abs_sub_roundEven (div_nonneg hq hulp.le)
  have heq : q - toDouble q = (q / ulp q - roundEven (q / ulp q)) * ulp q := by
    rw [toDouble, sub_mul, div_mul_cancel₀ _ hulp.ne']
  rw [heq, abs_mul, abs_of_pos hulp]
  calc |q / ulp q - roundEven (q / ulp q)| * ulp q ≤ 1 / 2 * ulp q :=
        mul_le_mul_of_nonneg_right hround hulp.le
    _ = ulp q / 2 := by ring

/-- The unit below a power of two. -/
theorem ulp_le {q : ℚ} (hq : 0 < q) {n : ℤ} (hlt : q < 2 ^ n) (hn : -1021 ≤ n) :
    ulp q ≤ 2 ^ (n - 53) := by
  have hlog : Int.log 2 q < n := by
    have hlt : q < ((2 : ℕ) : ℚ) ^ n := by exact_mod_cast hlt
    exact (Int.lt_zpow_iff_log_lt one_lt_two hq).1 hlt
  exact zpow_le_zpow_right₀ one_le_two (max_le (by omega) (by omega))

theorem toDouble_close {q : ℚ} (hq : 0 ≤ q) {n : ℤ} (hlt : q < 2 ^ n) (hn : -1021 ≤ n) :
    |toDouble q - q| ≤ 2 ^ (n - 54) := by
  rcases hq.eq_or_lt with rfl | hpos
  · rw [toDouble_zero, sub_zero, abs_zero]
    exact (zpow_pos two_pos _).le
  · rw [abs_sub_comm]
    calc |q - toDouble q| ≤ ulp q / 2 := toDouble_near hq
      _ ≤ 2 ^ (n - 53) / 2 := div_le_div_of_nonneg_right (ulp_le hpos hlt hn) two_pos.le
      _ = 2 ^ (n - 54) := by
        rw [show n - 53 = n - 54 + 1 by ring, zpow_add_one₀ two_ne_zero]
        exact mul_div_cancel_right₀ _ two_ne_zero

end Doorhinges.Lib.Binary64

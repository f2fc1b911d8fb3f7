import Doorhinges.Lib.CString
import Mathlib.Data.List.TakeWhile
import Mathlib.Data.Nat.Digits.Lemmas
import Mathlib.Tactic.IntervalCases

/-!
# Decimal texts

The text `%d` prints is read back by `atoi`.
-/
namespace Doorhinges.Lib.CString

/-- The digits of a number as bytes. -/
theorem digit_byte {d : Nat} (h : d < 10) :
    isDigit (48 + d).toUInt8 = true ∧ digitVal (48 + d).toUInt8 = d := by
  interval_cases d <;> decide

theorem decimalNat_eq (n : Nat) : ∃ ds : List Nat, ds ≠ [] ∧ (∀ d ∈ ds, d < 10) ∧
    decimalNat n = ds.map (fun d => (48 + d).toUInt8) ∧
      ds.foldl (fun acc d => 10 * acc + d) 0 = n := by
  rw [decimalNat]
  split
  · rename_i h
    exact ⟨[0], by simp, by simp, rfl, by simp [h]⟩
  · rename_i h
    refine ⟨(Nat.digits 10 n).reverse, by simpa using Nat.digits_ne_nil_iff_ne_zero.2 h,
      fun d hd => Nat.digits_lt_base (by decide) (List.mem_reverse.1 hd), rfl, ?_⟩
    rw [List.foldl_reverse]
    have hfold : ∀ ds : List Nat, ds.foldr (fun d acc => 10 * acc + d) 0 = Nat.ofDigits 10 ds := by
      intro ds
      induction ds with
      | nil => rfl
      | cons d ds ih => rw [List.foldr_cons, ih, Nat.ofDigits_cons, Nat.add_comm]
    rw [hfold, Nat.ofDigits_digits]

theorem leadingNat_decimalNat (n : Nat) : leadingNat (decimalNat n) = n := by
  obtain ⟨ds, -, hlt, heq, hsum⟩ := decimalNat_eq n
  have hall : (ds.map fun d => (48 + d).toUInt8).takeWhile isDigit =
      ds.map fun d => (48 + d).toUInt8 := by
    refine List.takeWhile_eq_self_iff.2 fun c hc => ?_
    obtain ⟨d, hd, rfl⟩ := List.mem_map.1 hc
    exact (digit_byte (hlt d hd)).1
  rw [leadingNat, heq, hall, List.foldl_map, ← hsum]
  refine List.foldl_ext _ _ _ fun acc d hd => ?_
  rw [(digit_byte (hlt d hd)).2]

/-- A digit is no blank and no sign. -/
theorem digit_plain {c : UInt8} (h : isDigit c = true) : isSpace c = false ∧ c ≠ 45 ∧ c ≠ 43 := by
  have h48 : 48 ≤ c ∧ c ≤ 57 := by simpa [isDigit] using h
  have hne : ∀ b : UInt8, b < 48 → c ≠ b := by
    rintro b hb rfl
    exact absurd h48.1 (by simpa using hb)
  have h13 : ¬ c ≤ 13 := fun h => absurd (UInt8.le_trans h48.1 h) (by decide)
  exact ⟨by simp [isSpace, hne 32 (by decide), h13], hne 45 (by decide), hne 43 (by decide)⟩

/-- A text that begins with a digit is read from there on. -/
theorem strtol_digit {c : UInt8} (h : isDigit c = true) (s : Bytes) :
    strtol (c :: s) = min (leadingNat (c :: s) : Int) (2 ^ 63 - 1) := by
  obtain ⟨hspace, hminus, hplus⟩ := digit_plain h
  rw [strtol, List.dropWhile_cons_of_neg (by simp [hspace])]
  split
  · rename_i heq
    exact absurd (List.cons.inj heq).1 hminus
  · rename_i heq
    exact absurd (List.cons.inj heq).1 hplus
  · rfl

/-- The number of a digit string, cut off at 64 bits and then at 32. -/
theorem atoi_digits {s : Bytes} (h : ∀ c ∈ s, isDigit c) :
    atoi s = toInt32 (min (leadingNat s : Int) (2 ^ 63 - 1)) := by
  cases s with
  | nil => rfl
  | cons c s => rw [atoi, strtol_digit (h c List.mem_cons_self)]

/-- Where the narrowed number lies within two bounds, the number does or has wrapped. -/
theorem atoi_between {s : Bytes} (h : ∀ c ∈ s, isDigit c) {lo hi : Nat} (hhi : hi < 2 ^ 31) :
    (lo ≤ atoi s ∧ atoi s ≤ hi) ↔
      (lo ≤ leadingNat s ∧ leadingNat s ≤ hi) ∨
        (2 ^ 32 ≤ leadingNat s ∧ leadingNat s < 2 ^ 63 ∧ lo ≤ leadingNat s % 2 ^ 32 ∧
          leadingNat s % 2 ^ 32 ≤ hi) := by
  rw [atoi_digits h, toInt32]
  by_cases hlt : leadingNat s < 2 ^ 63
  · rw [min_eq_left (by omega), Int.bmod]
    omega
  · -- the saturated number narrows to -1
    have hneg : (2 ^ 63 - 1 : Int).bmod (2 ^ 32) = -1 := by decide
    rw [min_eq_right (by omega), hneg]
    omega

section Run

variable {s : Bytes}

theorem takeWhile_all (h : ∀ c ∈ s, isDigit c) :
    s.takeWhile isDigit = s ∧ s.dropWhile isDigit = [] :=
  ⟨List.takeWhile_eq_self_iff.2 h, List.dropWhile_eq_nil_iff.2 h⟩

variable {c : UInt8}

/-- A run of digits ends at the first other byte. -/
theorem takeWhile_digits (h : ∀ c ∈ s, isDigit c) (hc : isDigit c = false) (rest : Bytes) :
    (s ++ c :: rest).takeWhile isDigit = s ∧ (s ++ c :: rest).dropWhile isDigit = c :: rest := by
  constructor
  · rw [List.takeWhile_append_of_pos h, List.takeWhile_cons_of_neg (by simp [hc]), List.append_nil]
  · rw [List.dropWhile_append_of_pos h, List.dropWhile_cons_of_neg (by simp [hc])]

theorem leadingNat_before (h : ∀ c ∈ s, isDigit c) (hc : isDigit c = false) (rest : Bytes) :
    leadingNat (s ++ c :: rest) = leadingNat s := by
  rw [leadingNat, (takeWhile_digits h hc rest).1, leadingNat, (takeWhile_all h).1]

theorem atoi_before (hne : s ≠ []) (h : ∀ c ∈ s, isDigit c) (hc : isDigit c = false)
    (rest : Bytes) : atoi (s ++ c :: rest) = atoi s := by
  obtain ⟨d, t, rfl⟩ := List.exists_cons_of_ne_nil hne
  have hd := h d List.mem_cons_self
  rw [atoi, List.cons_append, strtol_digit hd, ← List.cons_append, leadingNat_before h hc,
    ← strtol_digit hd, atoi]

/-- A digit string in the range of an int stands for its number. -/
theorem atoi_small (h : ∀ c ∈ s, isDigit c) (hlt : leadingNat s < 2 ^ 31) :
    atoi s = leadingNat s := by
  rw [atoi_digits h, min_eq_left (by omega), toInt32_of_lt (by omega) (by omega)]

end Run

/-- A decimal text in the range of an int is read back. -/
theorem atoi_decimalNat {n : Nat} (h : n < 2 ^ 31) : atoi (decimalNat n) = n := by
  have hlead := leadingNat_decimalNat n
  obtain ⟨ds, hne, hlt, heq, -⟩ := decimalNat_eq n
  obtain ⟨d, ds, rfl⟩ := List.exists_cons_of_ne_nil hne
  have hd := digit_byte (hlt d List.mem_cons_self)
  rw [List.map_cons] at heq
  rw [heq] at hlead ⊢
  rw [atoi, strtol_digit hd.1, hlead, min_eq_left (by omega)]
  exact toInt32_of_lt (by omega) (by omega)

/-- The text of `%0kd`, the last `k` digits of a number. -/
def padded : Nat → Nat → Bytes
  | 0, _ => []
  | k + 1, n => padded k (n / 10) ++ [(48 + n % 10).toUInt8]

@[simp] theorem length_padded (k n : Nat) : (padded k n).length = k := by
  induction k generalizing n with
  | zero => rfl
  | succ k ih => rw [padded, List.length_append, ih, List.length_singleton]

theorem padded_digits {k n : Nat} {c : UInt8} (h : c ∈ padded k n) : isDigit c = true := by
  induction k generalizing n with
  | zero => cases h
  | succ k ih =>
    rw [padded, List.mem_append] at h
    rcases h with h | h
    · exact ih h
    · rw [List.mem_singleton.1 h]
      exact (digit_byte (Nat.mod_lt n (by decide))).1

theorem leadingNat_padded {k n : Nat} (h : n < 10 ^ k) : leadingNat (padded k n) = n := by
  have hall : ∀ k n, (padded k n).takeWhile isDigit = padded k n := fun k n =>
    List.takeWhile_eq_self_iff.2 fun c hc => padded_digits hc
  induction k generalizing n with
  | zero => exact (Nat.lt_one_iff.1 h).symm
  | succ k ih =>
    have hrest := ih (n := n / 10) (by omega)
    rw [leadingNat, hall] at hrest
    rw [leadingNat, hall, padded, List.foldl_append, hrest, List.foldl_cons, List.foldl_nil,
      (digit_byte (Nat.mod_lt n (by decide))).2]
    omega

/-- A padded text in the range of an int is read back. -/
theorem atoi_padded {k n : Nat} (h : n < 10 ^ k) (hint : n < 2 ^ 31) :
    atoi (padded k n) = n := by
  have hlead := leadingNat_padded h
  cases hs : padded k n with
  | nil =>
    rw [hs] at hlead
    rw [← hlead]
    rfl
  | cons c s =>
    rw [hs] at hlead
    have hc : isDigit c = true := padded_digits (k := k) (n := n) (hs ▸ List.mem_cons_self)
    rw [atoi, strtol_digit hc, hlead, min_eq_left (by omega)]
    exact toInt32_of_lt (by omega) (by omega)

theorem length_decimalNat_le {n k : Nat} (hk : 0 < k) (h : n < 10 ^ k) :
    (decimalNat n).length ≤ k := by
  rw [decimalNat]
  split
  · exact hk
  · rw [List.length_map, List.length_reverse, Nat.digits_length_le_iff (by decide)]
    exact h

theorem decimalNat_ne_nil (n : Nat) : decimalNat n ≠ [] := by
  obtain ⟨ds, hne, -, heq, -⟩ := decimalNat_eq n
  rw [heq]
  simpa using hne

theorem decimalNat_digits (n : Nat) : ∀ c ∈ decimalNat n, isDigit c = true := by
  obtain ⟨ds, -, hlt, heq, -⟩ := decimalNat_eq n
  rw [heq]
  intro c hc
  obtain ⟨d, hd, rfl⟩ := List.mem_map.1 hc
  exact (digit_byte (hlt d hd)).1

/-- No digit is a terminator. -/
theorem decimalNat_nul (n : Nat) : 0 ∉ decimalNat n := fun h =>
  absurd (decimalNat_digits n 0 h) (by decide)

end Doorhinges.Lib.CString

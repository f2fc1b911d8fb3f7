import Doorhinges.Lib.Columns
import Doorhinges.Lib.Decimal
import Doorhinges.Params.Model

/-!
# Addresses

`is_ip_adress` looks at every character and at the first four numbers, each after `sscanf`
has narrowed it to an int. `address_to_long` reads the same four numbers again and packs them.
-/
namespace Doorhinges.Params

open Lib.CString
open Lib.Columns

/-- What `%d` reads: blanks, a sign and digits. The rest of the text is left for the format. -/
def scanInt (s : Bytes) : Option (Int × Bytes) :=
  let t :=
    match s.dropWhile isSpace with
    | 45 :: t => t
    | 43 :: t => t
    | t => t
  if t.takeWhile isDigit = [] then none else some (atoi s, t.dropWhile isDigit)

/-- The numbers `sscanf` assigns for `n` times `%d` with dots between them. -/
def scanDotted : Nat → Bytes → List Int
  | 0, _ => []
  | n + 1, s =>
    match scanInt s with
    | none => []
    | some (a, 46 :: t) => a :: scanDotted n t
    | some (a, _) => [a]

/-- Absent where a number is used that `sscanf` has not assigned. -/
def addressToLong (ipstr : Bytes) : Option UInt32 :=
  match scanDotted 4 ipstr with
  | [a1, a2, a3, a4] =>
    some (UInt32.ofInt a1 <<< 24 ||| UInt32.ofInt a2 <<< 16 ||| UInt32.ofInt a3 <<< 8 |||
      UInt32.ofInt a4)
  | _ => none

def fields (s : Bytes) : List Bytes := s.splitOn 46

/-- A decimal number in 0..255. -/
def IsOctet (f : Bytes) : Prop := f ≠ [] ∧ (∀ c ∈ f, isDigit c) ∧ leadingNat f ≤ 255

/-- Exactly four numbers with single dots between them. -/
def DottedQuad (s : Bytes) : Prop := (fields s).length = 4 ∧ ∀ f ∈ fields s, IsOctet f

/-- A number that is cut off at 32 bits to one in 0..255. -/
def WrapsToOctet (f : Bytes) : Prop :=
  2 ^ 32 ≤ leadingNat f ∧ leadingNat f < 2 ^ 63 ∧ leadingNat f % 2 ^ 32 ≤ 255

/-- The number an address stands for. -/
def quadValue (s : Bytes) : Nat := (fields s).foldl (fun n f => 2 ^ 8 * n + leadingNat f) 0

/-- The address is told from other texts, and its number is the right one. -/
def AddressRead (s : Bytes) : Prop :=
  (isIpAdress s = true ↔ DottedQuad s) ∧
    (DottedQuad s → (addressToLong s).map UInt32.toNat = some (quadValue s))

/-- Digits and dots that begin with four numbers `sscanf` reads as 0..255, where either more
follows them or one of them is not what `sscanf` made of it. -/
structure Misread (s : Bytes) : Prop where
  plain : ∀ c ∈ s, isDigit c ∨ c = 46
  long : 4 ≤ (fields s).length
  octets : ∀ f ∈ (fields s).take 4, f ≠ [] ∧ (leadingNat f ≤ 255 ∨ WrapsToOctet f)
  slip : 4 < (fields s).length ∨ ∃ f ∈ (fields s).take 4, WrapsToOctet f

instance (f : Bytes) : Decidable (IsOctet f) :=
  inferInstanceAs (Decidable (f ≠ [] ∧ (∀ c ∈ f, isDigit c) ∧ leadingNat f ≤ 255))

instance (s : Bytes) : Decidable (DottedQuad s) :=
  inferInstanceAs (Decidable ((fields s).length = 4 ∧ ∀ f ∈ fields s, IsOctet f))

section Digits

variable {f : Bytes}

/-- The test of one number. -/
theorem octet_iff (h : ∀ c ∈ f, isDigit c) :
    (0 ≤ atoi f ∧ atoi f ≤ 255) ↔ leadingNat f ≤ 255 ∨ WrapsToOctet f := by
  simpa [WrapsToOctet] using @atoi_between f h 0 255 (by decide)

theorem atoi_octet (h : IsOctet f) : atoi f = leadingNat f := by
  obtain ⟨-, hdigits, hle⟩ := h
  exact atoi_small hdigits (by omega)

end Digits

section Scan

variable {fs : List Bytes}

theorem dot_plain : isDigit 46 = false := rfl

/-- What the test's `sscanf` reads of a row of digit strings. -/
theorem scanInts_joined (h : ∀ f ∈ fs, ∀ c ∈ f, isDigit c) (hne : fs ≠ []) (n : Nat) :
    scanInts n (joined 46 fs) =
      if n ≤ fs.length ∧ ∀ f ∈ fs.take n, f ≠ [] then some ((fs.take n).map atoi) else none := by
  induction n generalizing fs with
  | zero => simp [scanInts]
  | succ n ih =>
    obtain ⟨f, fs, rfl⟩ := List.exists_cons_of_ne_nil hne
    have hf := h f List.mem_cons_self
    cases fs with
    | nil =>
      rw [joined_singleton, scanInts, (takeWhile_all hf).1, (takeWhile_all hf).2]
      by_cases hnil : f = []
      · simp [hnil]
      · cases n with
        | zero => simp [hnil]
        | succ n => simp [hnil]
    | cons g fs =>
      have hrest := ih (fun f hf => h f (List.mem_cons_of_mem _ hf)) (List.cons_ne_nil g fs)
      rw [joined_cons_cons, scanInts, (takeWhile_digits hf dot_plain _).1, (takeWhile_digits hf dot_plain _).2]
      by_cases hnil : f = []
      · simp [hnil]
      · cases n with
        | zero => simp [hnil]
        | succ n =>
          simp only [hnil, if_false, Nat.succ_ne_zero, hrest]
          split <;> simp_all

/-- A text that begins with digits is read up to the end of them. -/
theorem scanInt_eq {f : Bytes} (hne : f.takeWhile isDigit ≠ []) :
    scanInt f = some (atoi f, f.dropWhile isDigit) := by
  cases f with
  | nil => exact absurd rfl hne
  | cons c s =>
    have hc : isDigit c = true := by
      by_contra h
      exact hne (List.takeWhile_cons_of_neg h)
    obtain ⟨hspace, hminus, hplus⟩ := digit_plain hc
    rw [scanInt, List.dropWhile_cons_of_neg (by simp [hspace])]
    split
    · rename_i heq
      exact absurd (List.cons.inj heq).1 hminus
    · rename_i heq
      exact absurd (List.cons.inj heq).1 hplus
    · rw [if_neg hne]

theorem scanDotted_joined (h : ∀ f ∈ fs, IsOctet f) (hne : fs ≠ []) :
    scanDotted fs.length (joined 46 fs) = fs.map atoi := by
  induction fs with
  | nil => rfl
  | cons f fs ih =>
    obtain ⟨hnil, hdigits, -⟩ := h f List.mem_cons_self
    cases fs with
    | nil =>
      have hscan : scanInt f = some (atoi f, []) := by
        rw [scanInt_eq (by rwa [(takeWhile_all hdigits).1]), (takeWhile_all hdigits).2]
      rw [joined_singleton, List.length_singleton, scanDotted, hscan]
      rfl
    | cons g fs =>
      have hscan : scanInt (f ++ 46 :: joined 46 (g :: fs)) =
          some (atoi f, 46 :: joined 46 (g :: fs)) := by
        rw [scanInt_eq (by rwa [(takeWhile_digits hdigits dot_plain _).1]), (takeWhile_digits hdigits dot_plain _).2,
          atoi_before hnil hdigits dot_plain]
      rw [joined_cons_cons, List.length_cons, scanDotted, hscan,
        List.map_cons, ← ih (fun f hf => h f (List.mem_cons_of_mem _ hf)) (List.cons_ne_nil g fs)]
      rfl

end Scan

section Packed

/-- Four bytes put together by shifts. -/
theorem packed_toNat {a b c d : Nat} (ha : a ≤ 255) (hb : b ≤ 255) (hc : c ≤ 255) (hd : d ≤ 255) :
    (UInt32.ofInt a <<< 24 ||| UInt32.ofInt b <<< 16 ||| UInt32.ofInt c <<< 8 |||
      UInt32.ofInt d).toNat = 2 ^ 24 * a + 2 ^ 16 * b + 2 ^ 8 * c + d := by
  have hofInt : ∀ n : Nat, n ≤ 255 → (UInt32.ofInt n).toNat = n := by
    intro n hn
    have hmod : ((n : Int) % 2 ^ 32).toNat = n := by omega
    rw [UInt32.ofInt, hmod, UInt32.toNat_ofNat', Nat.mod_eq_of_lt (by omega)]
  have hshift : ∀ (n : Nat) (k : UInt32), n ≤ 255 → k.toNat ≤ 24 →
      (UInt32.ofInt n <<< k).toNat = 2 ^ k.toNat * n := by
    intro n k hn hk
    have hfit : 2 ^ k.toNat * n < 2 ^ 32 := by
      calc 2 ^ k.toNat * n ≤ 2 ^ 24 * n := Nat.mul_le_mul_right n (Nat.pow_le_pow_right (by omega) hk)
        _ < 2 ^ 32 := by omega
    rw [UInt32.toNat_shiftLeft, hofInt n hn, Nat.mod_eq_of_lt (show k.toNat < 32 by omega),
      Nat.shiftLeft_eq, Nat.mul_comm, Nat.mod_eq_of_lt hfit]
  have hlow : 2 ^ 24 * a ||| 2 ^ 16 * b = 2 ^ 16 * (2 ^ 8 * a + b) := by
    rw [← Nat.two_pow_add_eq_or_of_lt (show 2 ^ 16 * b < 2 ^ 24 by omega)]
    omega
  have hmid : 2 ^ 16 * (2 ^ 8 * a + b) ||| 2 ^ 8 * c = 2 ^ 8 * (2 ^ 16 * a + 2 ^ 8 * b + c) := by
    rw [← Nat.two_pow_add_eq_or_of_lt (show 2 ^ 8 * c < 2 ^ 16 by omega)]
    omega
  have hhigh : 2 ^ 8 * (2 ^ 16 * a + 2 ^ 8 * b + c) ||| d =
      2 ^ 8 * (2 ^ 16 * a + 2 ^ 8 * b + c) + d :=
    (Nat.two_pow_add_eq_or_of_lt (show d < 2 ^ 8 by omega) _).symm
  rw [UInt32.toNat_or, UInt32.toNat_or, UInt32.toNat_or, hshift a 24 ha (by decide),
    hshift b 16 hb (by decide), hshift c 8 hc (by decide), hofInt d hd]
  change 2 ^ 24 * a ||| 2 ^ 16 * b ||| 2 ^ 8 * c ||| d = _
  rw [hlow, hmid, hhigh]
  omega

theorem addressToLong_quad {s : Bytes} (h : DottedQuad s) :
    (addressToLong s).map UInt32.toNat = some (quadValue s) := by
  obtain ⟨hlen, hoctets⟩ := h
  have hs : joined 46 (fields s) = s := List.intercalate_splitOn 46
  have hscan : scanDotted 4 s = (fields s).map atoi := by
    have hjoined := scanDotted_joined hoctets (List.splitOn_ne_nil 46 s)
    rwa [hs, hlen] at hjoined
  rw [addressToLong, hscan, quadValue]
  match hf : fields s, hlen with
  | [a, b, c, d], _ =>
    rw [hf] at hoctets
    have ha := hoctets a (by simp)
    have hb := hoctets b (by simp)
    have hc := hoctets c (by simp)
    have hd := hoctets d (by simp)
    simp only [List.map_cons, List.map_nil, atoi_octet ha, atoi_octet hb, atoi_octet hc,
      atoi_octet hd, Option.map_some, packed_toNat ha.2.2 hb.2.2 hc.2.2 hd.2.2, List.foldl_cons,
      List.foldl_nil, Option.some.injEq]
    omega

end Packed

variable {s : Bytes}

/-- The characters of a text are those of its fields and the dots. -/
theorem plain_iff : (∀ c ∈ s, isDigit c ∨ c = 46) ↔ ∀ f ∈ fields s, ∀ c ∈ f, isDigit c := by
  have hs : joined 46 (fields s) = s := List.intercalate_splitOn 46
  conv_lhs => rw [← hs]
  rw [forall_mem_joined _ (.inr rfl)]
  constructor
  · intro h f hf c hc
    refine (h f hf c hc).resolve_right ?_
    rintro rfl
    exact not_mem_of_mem_splitOn hf hc
  · intro h f hf c hc
    exact .inl (h f hf c hc)

/-- What the test accepts. -/
theorem isIpAdress_iff : isIpAdress s = true ↔ (∀ c ∈ s, isDigit c ∨ c = 46) ∧
    4 ≤ (fields s).length ∧
      ∀ f ∈ (fields s).take 4, f ≠ [] ∧ (leadingNat f ≤ 255 ∨ WrapsToOctet f) := by
  have hchars : (s.all fun c => isDigit c || c = 46) = true ↔ ∀ c ∈ s, isDigit c ∨ c = 46 := by
    simp
  rw [isIpAdress, Bool.and_eq_true, hchars]
  apply and_congr_right
  intro hplain
  have hdigits := plain_iff.1 hplain
  have hoctet : ∀ f ∈ (fields s).take 4,
      (leadingNat f ≤ 255 ∨ WrapsToOctet f ↔ 0 ≤ atoi f ∧ atoi f ≤ 255) := by
    intro f hf
    exact (octet_iff (hdigits f (List.mem_of_mem_take hf))).symm
  have hscan := scanInts_joined hdigits (List.splitOn_ne_nil 46 s) 4
  rw [show joined 46 (fields s) = s from List.intercalate_splitOn 46] at hscan
  rw [hscan]
  by_cases hfull : 4 ≤ (fields s).length ∧ ∀ f ∈ (fields s).take 4, f ≠ []
  · rw [if_pos hfull]
    simp only [List.all_map, List.all_eq_true, Function.comp_apply, Bool.and_eq_true,
      decide_eq_true_eq]
    constructor
    · intro h
      exact ⟨hfull.1, fun f hf => ⟨hfull.2 f hf, (hoctet f hf).2 (h f hf)⟩⟩
    · rintro ⟨-, h⟩ f hf
      exact (hoctet f hf).1 (h f hf).2
  · rw [if_neg hfull]
    constructor
    · intro h
      exact absurd h (by decide)
    · rintro ⟨hlen, h⟩
      exact absurd ⟨hlen, fun f hf => (h f hf).1⟩ hfull

theorem DottedQuad.accepted (h : DottedQuad s) : isIpAdress s = true := by
  obtain ⟨hlen, hoctets⟩ := h
  apply isIpAdress_iff.2
  refine ⟨plain_iff.2 fun f hf => (hoctets f hf).2.1, hlen.ge, fun f hf => ?_⟩
  obtain ⟨hne, -, hle⟩ := hoctets f (List.mem_of_mem_take hf)
  exact ⟨hne, .inl hle⟩

/-- Addresses are read right exactly in the texts that are not misread. -/
theorem addressRead_iff (s : Bytes) : AddressRead s ↔ ¬ Misread s := by
  constructor
  · rintro ⟨hiff, -⟩ hmis
    obtain ⟨hlen, hoctets⟩ := hiff.1 (isIpAdress_iff.2 ⟨hmis.plain, hmis.long, hmis.octets⟩)
    rcases hmis.slip with hlong | ⟨f, hf, hbig, -⟩
    · omega
    · have hle := (hoctets f (List.mem_of_mem_take hf)).2.2
      omega
  · intro hmis
    refine ⟨⟨fun h => ?_, DottedQuad.accepted⟩, addressToLong_quad⟩
    obtain ⟨hplain, hlong, hoctets⟩ := isIpAdress_iff.1 h
    have hlen : (fields s).length = 4 := by
      by_contra hne
      exact hmis ⟨hplain, hlong, hoctets, .inl (by omega)⟩
    refine ⟨hlen, fun f hf => ?_⟩
    have hf' : f ∈ (fields s).take 4 := by rwa [List.take_of_length_le hlen.le]
    obtain ⟨hne, hle | hwraps⟩ := hoctets f hf'
    · exact ⟨hne, plain_iff.1 hplain f hf, hle⟩
    · exact absurd ⟨hplain, hlong, hoctets, .inr ⟨f, hf', hwraps⟩⟩ hmis

/-- A fifth number is not noticed, and 2^32 + 1 is taken for 1. -/
theorem not_addressRead :
    ¬ AddressRead (ascii "1.2.3.4.5") ∧ ¬ AddressRead (ascii "4294967297.2.3.4") := by
  have hfifth : isIpAdress (ascii "1.2.3.4.5") = true ∧ ¬ DottedQuad (ascii "1.2.3.4.5") := by
    decide
  have hwraps : isIpAdress (ascii "4294967297.2.3.4") = true := by decide
  have hfield : ascii "4294967297" ∈ fields (ascii "4294967297.2.3.4") := by decide
  have hnumber : leadingNat (ascii "4294967297") = 4294967297 := by decide
  refine ⟨fun h => hfifth.2 (h.1.1 hfifth.1), fun h => ?_⟩
  have hle := ((h.1.1 hwraps).2 _ hfield).2.2
  rw [hnumber] at hle
  omega

end Doorhinges.Params

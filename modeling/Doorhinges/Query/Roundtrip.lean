import Doorhinges.Query.Url
import Mathlib.Data.List.TakeWhile

/-!
# Encoding, decoding and tokens

`url_decode` takes back what `url_encode` wrote, both decoders leave alone the texts
that hold nothing to decode, and a line falls into its tokens at the ampersands.
-/
namespace Doorhinges.Query

open Lib.CString

/-- The text of one byte. -/
def encodeByte (c : UInt8) : Bytes := if escapes true c then escape c else [c]

/-- With room for every byte the encoding is complete. -/
theorem encodeFrom_eq {buflen used : Nat} {s : Bytes} (hs : 0 ∉ s)
    (hroom : used + 3 * s.length < buflen) :
    encodeFrom true buflen used s = s.flatMap encodeByte := by
  induction s generalizing used with
  | nil => rfl
  | cons c s ih =>
    rw [List.mem_cons, not_or] at hs
    rw [List.length_cons] at hroom
    have h1 : ¬ (c = 0 ∨ buflen ≤ used + 1) := by
      rintro (h | h)
      · exact hs.1 h.symm
      · omega
    rw [encodeFrom, if_neg h1, List.flatMap_cons, encodeByte]
    split
    · rw [if_neg (by omega), ih hs.2 (by omega)]
    · rw [ih hs.2 (by omega), List.singleton_append]

/-- A byte that starts no escape is decoded alone. -/
theorem decode_cons {comma form : Bool} {c : UInt8} (hc : c ≠ 37) (rest : Bytes) :
    decode comma form (c :: rest) = plainByte comma form c :: decode comma form rest := by
  match rest with
  | [] => rfl
  | [_] => rfl
  | a :: b :: rest =>
    rw [decode, if_neg (by simp [hc])]

theorem escape_byte (c : UInt8) :
    (escapes true c = false → c ≠ 37 ∧ plainByte false true c = c) ∧
      isXDigit (hexDigit (c >>> 4)) ∧ isXDigit (hexDigit (c &&& 15)) ∧
      hexToI (hexDigit (c >>> 4)) <<< 4 ||| hexToI (hexDigit (c &&& 15)) = c := by
  have all : ∀ n : Fin 256,
      (escapes true (UInt8.ofNat n) = false →
        UInt8.ofNat n ≠ 37 ∧ plainByte false true (UInt8.ofNat n) = UInt8.ofNat n) ∧
      isXDigit (hexDigit (UInt8.ofNat n >>> 4)) ∧ isXDigit (hexDigit (UInt8.ofNat n &&& 15)) ∧
      hexToI (hexDigit (UInt8.ofNat n >>> 4)) <<< 4 |||
        hexToI (hexDigit (UInt8.ofNat n &&& 15)) = UInt8.ofNat n := by
    decide +kernel
  simpa using all ⟨c.toNat, c.toNat_lt⟩

theorem decode_encodeByte {form : Bool} (c : UInt8) (rest : Bytes) :
    decode false form (encodeByte c ++ rest) = c :: decode false form rest := by
  obtain ⟨hplain, h1, h2, hval⟩ := escape_byte c
  rw [encodeByte]
  cases hc : escapes true c with
  | false =>
    obtain ⟨h37, hp⟩ := hplain hc
    have hform : plainByte false form c = c := by
      cases form with
      | false => rfl
      | true => exact hp
    rw [if_neg (by decide), List.singleton_append, decode_cons h37, hform]
  | true =>
    rw [if_pos rfl, escape]
    simp only [List.cons_append, List.nil_append]
    rw [decode, if_pos (by simp [h1, h2]), hval]

/-- The line decoder takes back the encoder, whatever follows. -/
theorem decode_encode {form : Bool} (s rest : Bytes) :
    decode false form (s.flatMap encodeByte ++ rest) = s ++ decode false form rest := by
  induction s with
  | nil => rfl
  | cons c s ih => rw [List.flatMap_cons, List.append_assoc, decode_encodeByte, ih, List.cons_append]

/-- Bytes with no meaning for a decoder. -/
def Plain (comma form : Bool) (c : UInt8) : Prop := c ≠ 37 ∧ plainByte comma form c = c

instance (comma form : Bool) (c : UInt8) : Decidable (Plain comma form c) :=
  inferInstanceAs (Decidable (c ≠ 37 ∧ plainByte comma form c = c))

theorem decode_plain {comma form : Bool} {s : Bytes} (hs : ∀ c ∈ s, Plain comma form c)
    (rest : Bytes) : decode comma form (s ++ rest) = s ++ decode comma form rest := by
  induction s with
  | nil => rfl
  | cons c s ih =>
    obtain ⟨⟨hc, hp⟩, hs⟩ := List.forall_mem_cons.1 hs
    rw [List.cons_append, decode_cons hc, hp, ih hs, List.cons_append]

/-- Decoding never lengthens a text. -/
theorem length_decode_le (comma form : Bool) (s : Bytes) :
    (decode comma form s).length ≤ s.length := by
  induction s using decode.induct with
  | case1 => exact le_rfl
  | case2 c => exact le_rfl
  | case3 c a => exact le_rfl
  | case4 c a b rest h ih =>
    rw [decode, if_pos h, List.length_cons]
    simp only [List.length_cons] at ih ⊢
    omega
  | case5 c a b rest h ih =>
    rw [decode, if_neg h, List.length_cons]
    simp only [List.length_cons] at ih ⊢
    omega

theorem length_cstr_le (s : Bytes) : (cstr s).length ≤ s.length :=
  (List.takeWhile_prefix _).length_le

theorem cstr_of_nul {s : Bytes} (hs : 0 ∉ s) : cstr s = s :=
  List.takeWhile_eq_self_iff.2 fun c hc => by simpa using fun h0 : c = 0 => hs (h0 ▸ hc)

theorem cstr_append (s rest : Bytes) : cstr (s ++ 0 :: rest) = cstr s := by
  induction s with
  | nil => rfl
  | cons c s ih =>
    rw [List.cons_append, cstr, cstr, List.takeWhile_cons, List.takeWhile_cons]
    split
    · exact congrArg (c :: ·) ih
    · rfl

section Tokens

/-- A token without an ampersand is cut off whole. -/
theorem mystrtok_append {x : Bytes} (hne : x ≠ []) (hx : 38 ∉ x) (rest : Bytes) :
    mystrtok (x ++ 38 :: rest) = some (x, rest) := by
  have hall : ∀ c ∈ x, decide (c ≠ 38) = true := fun c hc => by
    simpa using fun h : c = 38 => hx (h ▸ hc)
  have hstart : (x ++ 38 :: rest).dropWhile (· = 38) = x ++ 38 :: rest := by
    obtain ⟨c, x, rfl⟩ := List.exists_cons_of_ne_nil hne
    have hc : c ≠ 38 := by simpa using hall c List.mem_cons_self
    rw [List.cons_append, List.dropWhile_cons_of_neg (by simpa using hc)]
  rw [mystrtok, hstart, if_neg (by simp), List.takeWhile_append_of_pos hall,
    List.dropWhile_append_of_pos hall]
  simp

theorem mystrtok_last {x : Bytes} (hne : x ≠ []) (hx : 38 ∉ x) : mystrtok x = some (x, []) := by
  have hall : ∀ c ∈ x, decide (c ≠ 38) = true := fun c hc => by
    simpa using fun h : c = 38 => hx (h ▸ hc)
  have hstart : x.dropWhile (· = 38) = x := by
    obtain ⟨c, x, rfl⟩ := List.exists_cons_of_ne_nil hne
    have hc : c ≠ 38 := by simpa using hall c List.mem_cons_self
    rw [List.dropWhile_cons_of_neg (by simpa using hc)]
  rw [mystrtok, hstart, if_neg hne, List.takeWhile_eq_self_iff.2 hall,
    List.dropWhile_eq_nil_iff.2 hall]
  rfl

theorem length_mystrtok {s pk rest : Bytes} (h : mystrtok s = some (pk, rest)) :
    rest.length < s.length := by
  rw [mystrtok] at h
  split at h
  · cases h
  · rename_i hne
    obtain ⟨-, rfl⟩ := Prod.mk.inj (Option.some.inj h)
    have hlen : (s.dropWhile (· = 38)).length ≤ s.length := (List.dropWhile_suffix _).length_le
    have hlen' : ((s.dropWhile (· = 38)).dropWhile (· ≠ 38)).length ≤
        (s.dropWhile (· = 38)).length := (List.dropWhile_suffix _).length_le
    have hpos := List.length_pos_iff.2 hne
    rw [List.length_tail]
    omega

/-- More fuel than bytes changes nothing. -/
theorem tokensUpTo_eq {n : Nat} {s : Bytes} (hn : s.length ≤ n) : tokensUpTo n s = tokens s := by
  rw [tokens]
  generalize hm : s.length = m
  have hsm : s.length ≤ m := hm.le
  clear hm
  induction m generalizing n s with
  | zero =>
    obtain rfl := List.length_eq_zero_iff.1 (Nat.le_zero.1 hsm)
    cases n <;> rfl
  | succ m ih =>
    cases n with
    | zero =>
      obtain rfl := List.length_eq_zero_iff.1 (Nat.le_zero.1 hn)
      rfl
    | succ n =>
      rw [tokensUpTo, tokensUpTo]
      cases ht : mystrtok s with
      | none => rfl
      | some r =>
        have hlt := length_mystrtok ht
        dsimp only
        rw [ih (n := n) (by omega) (by omega)]

theorem tokens_of_mystrtok {s pk rest : Bytes} (h : mystrtok s = some (pk, rest)) :
    tokens s = pk :: tokens rest := by
  have hlt := length_mystrtok h
  rw [tokens]
  obtain ⟨n, hn⟩ := Nat.exists_eq_succ_of_ne_zero (Nat.ne_zero_of_lt hlt)
  rw [hn, tokensUpTo, h]
  dsimp only
  rw [tokensUpTo_eq (by omega)]

theorem tokens_append {x : Bytes} (hne : x ≠ []) (hx : 38 ∉ x) (rest : Bytes) :
    tokens (x ++ 38 :: rest) = x :: tokens rest :=
  tokens_of_mystrtok (mystrtok_append hne hx rest)

theorem tokens_last {x : Bytes} (hne : x ≠ []) (hx : 38 ∉ x) : tokens x = [x] :=
  tokens_of_mystrtok (mystrtok_last hne hx)

/-- The name of a token, where it has no `=` and is not too long. -/
theorem nameOf_append {name value : Bytes} (hname : 61 ∉ name) (hlen : name.length ≤ 255) :
    nameOf (name ++ 61 :: value) = some name := by
  have hall : ∀ c ∈ name, decide (c ≠ 61) = true := fun c hc => by
    simpa using fun h : c = 61 => hname (h ▸ hc)
  rw [nameOf, if_pos (by simp), List.takeWhile_append_of_pos hall]
  simp [List.take_of_length_le hlen]

/-- The value of a token, decoded again. -/
theorem aisGetVar_append {name value : Bytes} (hvalue : 38 ∉ value)
    (hgroup : caseEq (name.take 7) (ascii "groupby") = false) (dstLen : Nat) :
    aisGetVar (name ++ 61 :: value) name dstLen =
      if value.length < dstLen then some (decode true true value) else none := by
  have hall : ∀ c ∈ value, decide (c ≠ 38) = true := fun c hc => by
    simpa using fun h : c = 38 => hvalue (h ▸ hc)
  have hfind : findVar name true (name ++ 61 :: value) = some value := by
    have hcase : caseEq name name = true := by simp [caseEq]
    have hget : (name ++ 61 :: value)[name.length]? = some 61 := by simp
    have htake : (name ++ 61 :: value).take name.length = name := by simp
    have hdrop : (name ++ 61 :: value).drop (name.length + 1) = value := by simp
    obtain ⟨c, s, hcs⟩ : ∃ c s, name ++ 61 :: value = c :: s := by
      cases name <;> exact ⟨_, _, rfl⟩
    rw [hcs] at hget htake hdrop ⊢
    rw [findVar, if_pos ⟨rfl, hget, by rw [htake]; exact hcase⟩, hdrop,
      List.takeWhile_eq_self_iff.2 hall]
  rw [aisGetVar, hfind]
  simp only [Option.bind_eq_bind, Option.bind_some, hgroup]
  split
  · rename_i hlt
    have hle := length_decode_le true true value
    rw [if_neg (by decide), urlDecode1, List.take_of_length_le (by omega)]
  · rfl

end Tokens

end Doorhinges.Query

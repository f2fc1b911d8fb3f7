import Doorhinges.Cgi.Encoded
import Doorhinges.Query.Decoder
import Mathlib.Tactic.IntervalCases

/-!
# Two decoders of form data

The callback path replaces the plus signs and decodes in place with the arithmetic of `x2c`;
the request path copies with `url_decode` or `url_decode1`. On texts whose percent signs all
begin an escape they agree.
-/
namespace Doorhinges.Cgi

open Lib.CString
open Query (cstr isXDigit hexToI plainByte escapeValue decodeBehind slice urlDecodeFrom
  value_urlDecodeFrom)

/-- Two hexadecimal digits other than 00 follow every percent sign. -/
def WellEscaped (s : Bytes) : Prop :=
  ∀ i : Nat, s[i]? = some 37 → ∃ a b : UInt8, s[i + 1]? = some a ∧ s[i + 2]? = some b ∧
    isXDigit a ∧ isXDigit b ∧ ¬ (a = 48 ∧ b = 48)

/-- What `url_decode1` makes of a raw comma. -/
def blankComma (c : UInt8) : UInt8 := if c = 44 then 32 else c

/-- The decoder of the callback path, in an array that holds `s'`, leaves the same string as the
one of the request path makes of `s`. -/
def SameString (comma : Bool) (s s' : Bytes) : Prop :=
  ∃ text : Bytes,
    (∀ lexeme : Bytes, s'.length < lexeme.length →
      ∃ url reads, unescapeUrl (store lexeme (s'.map plus)) = some (url, reads) ∧
        cstr url = text) ∧
    ∀ (mem : Nat → UInt8) (start : Nat) (dst : Bytes) (dstLen : Nat),
      slice mem start s.length = s → text.length < dstLen → dstLen ≤ dst.length →
      ∃ dst', (urlDecodeFrom mem comma true (start + s.length) dstLen start dst).value =
          some (dst', text.length) ∧
        cstr dst' = text

section Digits

variable {a b : UInt8}

theorem hexToI_lt (h : isXDigit a) : (hexToI a).toNat < 16 ∧ (hexToI a = 0 → a = 48) := by
  have all : ∀ n : Fin 256, isXDigit (UInt8.ofNat n) = true →
      (hexToI (UInt8.ofNat n)).toNat < 16 ∧
        (hexToI (UInt8.ofNat n) = 0 → UInt8.ofNat n = 48) := by
    decide +kernel
  simpa using all ⟨a.toNat, a.toNat_lt⟩ (by simpa using h)

/-- The two ways to put a byte together from its digits. -/
theorem x2c_eq (ha : isXDigit a) (hb : isXDigit b) :
    x2c a b = hexToI a <<< 4 ||| hexToI b := by
  have all : ∀ n m : Fin 16,
      UInt8.ofNat n * (16 : UInt8) + UInt8.ofNat m =
        UInt8.ofNat n <<< (4 : UInt8) ||| UInt8.ofNat m := by
    decide +kernel
  rw [x2c, (hex_byte ha).2.2.2, (hex_byte hb).2.2.2]
  simpa using all ⟨(hexToI a).toNat, (hexToI_lt ha).1⟩ ⟨(hexToI b).toNat, (hexToI_lt hb).1⟩

theorem x2c_ne_zero (ha : isXDigit a) (hb : isXDigit b) (h : ¬ (a = 48 ∧ b = 48)) :
    x2c a b ≠ 0 := by
  intro h0
  rw [x2c, (hex_byte ha).2.2.2, (hex_byte hb).2.2.2] at h0
  have hsum := congrArg UInt8.toNat h0
  have hla := (hexToI_lt ha).1
  have hlb := (hexToI_lt hb).1
  rw [UInt8.toNat_add, UInt8.toNat_mul] at hsum
  have h16 : (16 : UInt8).toNat = 16 := rfl
  have hz : (0 : UInt8).toNat = 0 := rfl
  rw [h16, hz] at hsum
  have hda : hexToI a = 0 := UInt8.toNat_inj.1 (by rw [hz]; omega)
  have hdb : hexToI b = 0 := UInt8.toNat_inj.1 (by rw [hz]; omega)
  exact h ⟨(hexToI_lt ha).2 hda, (hexToI_lt hb).2 hdb⟩

end Digits

namespace WellEscaped

variable {s rest : Bytes} {a b c : UInt8}

theorem cut (h : WellEscaped (37 :: rest)) : ∃ a b t, rest = a :: b :: t := by
  obtain ⟨a, b, ha, hb, -⟩ := h 0 rfl
  match rest with
  | [] => cases ha
  | [_] => cases hb
  | a :: b :: t => exact ⟨a, b, t, rfl⟩

theorem digits (h : WellEscaped (37 :: a :: b :: rest)) :
    isXDigit a ∧ isXDigit b ∧ ¬ (a = 48 ∧ b = 48) := by
  obtain ⟨a', b', ha, hb, hdigits⟩ := h 0 rfl
  obtain rfl := Option.some.inj ha
  obtain rfl := Option.some.inj hb
  exact hdigits

theorem tail (h : WellEscaped (c :: rest)) : WellEscaped rest := fun i hi => h (i + 1) hi

end WellEscaped

section Text

variable {comma : Bool} {x y : UInt8} {s : Bytes}

/-- The raw bytes as the decoder reads them. -/
def rawByte (comma : Bool) (c : UInt8) : UInt8 := if comma then blankComma c else c

theorem plainByte_eq (c : UInt8) : plainByte comma true c = plus (rawByte comma c) := by
  by_cases h43 : c = 43
  · subst h43
    cases comma <;> rfl
  · by_cases h44 : c = 44
    · subst h44
      cases comma <;> rfl
    · cases comma <;> simp [plainByte, rawByte, blankComma, plus, h43, h44]

theorem rawByte_cases (comma : Bool) (c : UInt8) : rawByte comma c = 32 ∨ rawByte comma c = c := by
  cases comma
  · exact .inr rfl
  · by_cases h44 : c = 44 <;> simp [rawByte, blankComma, h44]

theorem rawByte_hex {a : UInt8} (h : isXDigit a) : rawByte comma a = a := by
  have h44 : a ≠ 44 := by
    rintro rfl
    exact absurd h (by decide)
  cases comma <;> simp [rawByte, blankComma, h44]

theorem rawByte_plain {c : UInt8} (hc : c ≠ 37) (h0 : c ≠ 0) :
    rawByte comma c ≠ 37 ∧ plus (rawByte comma c) ≠ 37 ∧ plus (rawByte comma c) ≠ 0 := by
  rcases rawByte_cases comma c with hraw | hraw <;> rw [hraw]
  · decide
  · refine ⟨hc, mt (plus_eq_percent c).1 hc, ?_⟩
    rw [plus]
    split
    · decide
    · exact h0

theorem decodeBehind_cons {form : Bool} {c : UInt8} (hc : c ≠ 37) (rest : Bytes) :
    decodeBehind comma form x y (c :: rest) =
      plainByte comma form c :: decodeBehind comma form x y rest := by
  have hnone : ∀ a b, escapeValue c a b = none := fun a b => by simp [escapeValue, hc]
  rcases rest with _ | ⟨a, _ | ⟨b, rest⟩⟩
  · simp [decodeBehind, hnone]
  · simp [decodeBehind, hnone]
  · simp [decodeBehind, hnone]

/-- Both decoders follow the text in the same steps. -/
theorem unescape_eq (h : WellEscaped s) (h0 : 0 ∉ s) :
    unescape ((s.map (rawByte comma)).map plus) = decodeBehind comma true x y s ∧
      complete (s.map (rawByte comma)) = true ∧ 0 ∉ decodeBehind comma true x y s := by
  induction s using text_cases with
  | nil => exact ⟨rfl, rfl, List.not_mem_nil⟩
  | cut rest hrest =>
    obtain ⟨a, b, t, rfl⟩ := h.cut
    simp only [List.length_cons] at hrest
    omega
  | percent a b rest ih =>
    obtain ⟨ha, hb, hne⟩ := h.digits
    simp only [List.mem_cons, not_or] at h0
    obtain ⟨htext, hcomplete, hnul⟩ := ih h.tail.tail.tail h0.2.2.2
    have h37 : rawByte comma 37 = 37 := by cases comma <;> rfl
    have hvalue : escapeValue 37 a b = some (x2c a b) := by simp [escapeValue, ha, hb, x2c_eq]
    have hdecode : decodeBehind comma true x y (37 :: a :: b :: rest) =
        x2c a b :: decodeBehind comma true x y rest := by
      simp [decodeBehind, hvalue]
    simp only [List.map_cons, h37, rawByte_hex ha, rawByte_hex hb, hdecode, complete_percent]
    refine ⟨?_, hcomplete, ?_⟩
    · rw [show plus 37 = 37 from rfl, (hex_byte ha).2.2.1, (hex_byte hb).2.2.1, unescape_percent,
        htext]
    · exact List.not_mem_cons_of_ne_of_not_mem (x2c_ne_zero ha hb hne).symm hnul
  | cons c rest hc ih =>
    obtain ⟨htext, hcomplete, hnul⟩ := ih h.tail fun hm => h0 (List.mem_cons_of_mem _ hm)
    have hc0 : c ≠ 0 := fun hc0 => h0 (hc0 ▸ List.mem_cons_self)
    obtain ⟨hraw, hplus, hne⟩ := @rawByte_plain comma c hc hc0
    rw [decodeBehind_cons hc, plainByte_eq, List.map_cons, List.map_cons, unescape_cons hplus,
      htext, complete_cons hraw]
    exact ⟨rfl, hcomplete, List.not_mem_cons_of_ne_of_not_mem hne.symm hnul⟩

/-- What the two decoders make of a text and of the text with its raw commas replaced. -/
theorem sameString (h : WellEscaped s) (h0 : 0 ∉ s) :
    SameString comma s (s.map (rawByte comma)) := by
  have hraw0 : 0 ∉ s.map (rawByte comma) := by
    intro hm
    obtain ⟨c, hc, hc0⟩ := List.mem_map.1 hm
    rcases rawByte_cases comma c with hraw | hraw
    · exact absurd (hraw.symm.trans hc0) (by decide)
    · exact h0 ((hraw.symm.trans hc0) ▸ hc)
  refine ⟨decoded (s.map (rawByte comma)), fun lexeme hlen => ?_, ?_⟩
  · obtain ⟨url, reads, hrun, -, -, htext⟩ :=
      unescapeUrl_complete (@unescape_eq comma 0 0 s h h0).2.1 hraw0 hlen
    exact ⟨url, reads, hrun, htext⟩
  · intro mem start dst dstLen hmem hlen hdst
    obtain ⟨htext, -, hnul⟩ := @unescape_eq comma (mem (start + s.length))
      (mem (start + s.length + 1)) s h h0
    obtain ⟨v, hv, hrun⟩ := @value_urlDecodeFrom mem comma true (start + s.length) dstLen dst start
      (by omega) hdst
    have hdecoded : Query.decoded mem comma true start (start + s.length) =
        decoded (s.map (rawByte comma)) := by
      rw [Query.decoded, Nat.add_sub_cancel_left, hmem, decoded, htext, Query.cstr_of_nul hnul]
    rw [hdecoded, List.take_of_length_le (by omega)] at hv
    refine ⟨_, hv ▸ hrun, ?_⟩
    rw [Query.cstr_append, decoded, htext, Query.cstr_of_nul hnul, Query.cstr_of_nul hnul]

end Text

/-- `url_decode` agrees with the callback path, and so does `url_decode1` where the raw commas
are blanks. -/
theorem form_decoders_agree (s : Bytes) (h0 : 0 ∉ s) (h : WellEscaped s) :
    SameString false s s ∧ SameString true s (s.map blankComma) := by
  have hraw : s.map (rawByte false) = s := List.map_id s
  have hfalse := @sameString false s h h0
  rw [hraw] at hfalse
  exact ⟨hfalse, @sameString true s h h0⟩

theorem form_decoders_agree_comma :
    0 ∉ ascii "a+b,%2C" ∧ WellEscaped (ascii "a+b,%2C") ∧
      SameString false (ascii "a+b,%2C") (ascii "a+b,%2C") ∧
        SameString true (ascii "a+b,%2C") ((ascii "a+b,%2C").map blankComma) :=
  have h0 : 0 ∉ ascii "a+b,%2C" := by decide
  have h : WellEscaped (ascii "a+b,%2C") := by
    intro i hi
    have hlt : i < 7 := (List.getElem?_eq_some_iff.1 hi).1
    have h4 : i = 4 := by
      interval_cases i
      all_goals first
        | rfl
        | exact absurd hi (by decide)
    subst h4
    exact ⟨50, 67, by decide⟩
  ⟨h0, h, form_decoders_agree _ h0 h⟩

end Doorhinges.Cgi

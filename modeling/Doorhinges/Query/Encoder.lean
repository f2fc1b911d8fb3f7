import Doorhinges.Query.Decoder

/-!
# The encoder in memory

`url_encode` stops in front of the end of its buffer: a plain byte needs one more byte for the
terminator, and `sprintf` writes a terminator of its own behind an escape. What it leaves is
made of whole escapes, and the decoder takes it back.
-/
namespace Doorhinges.Query

open Lib.CString
open Lib.Cells

/-- The loop of `url_encode`; the result is the buffer and `out - outbuf`. -/
def encodeLoop (doSpecialChar : Bool) (buflen : Nat) : Bytes → Bytes → Nat → Option (Bytes × Nat)
  | [], buf, out => some (buf, out)
  | c :: ptr, buf, out =>
    if c = 0 ∨ buflen ≤ out + 1 then some (buf, out)
    else if escapes doSpecialChar c then
      if buflen ≤ out + 3 then some (buf, out)
      else do
        let buf ← store buf out (escape c ++ [0])
        encodeLoop doSpecialChar buflen ptr buf (out + 3)
    else do
      let buf ← store buf out [c]
      encodeLoop doSpecialChar buflen ptr buf (out + 1)

/-- `url_encode` into a buffer; no result stands for a write outside. -/
def urlEncodeInto (s outbuf : Bytes) (buflen : Nat) (doSpecialChar : Bool) : Option Bytes := do
  let (buf, out) ← encodeLoop doSpecialChar buflen s outbuf 0
  if buflen ≠ 0 then store buf out [0] else pure buf

/-- Texts of raw bytes and of percent signs with two hexadecimal digits. -/
inductive Escaped (raw : UInt8 → Prop) : Bytes → Prop
  | nil : Escaped raw []
  | plain {c : UInt8} {s : Bytes} : raw c → Escaped raw s → Escaped raw (c :: s)
  | triple {a b : UInt8} {s : Bytes} :
    isXDigit a → isXDigit b → Escaped raw s → Escaped raw (37 :: a :: b :: s)

/-- Digits, letters and the marks. -/
def Unreserved (c : UInt8) : Prop :=
  isDigit c ∨ isAlpha c ∨ c ∈ ascii "-_.!~*'()"

/-- What `url_encode` leaves alone. -/
def Kept (doSpecialChar : Bool) (c : UInt8) : Prop := c ≠ 37 ∧ escapes doSpecialChar c = false

section Texts

variable {doSpecialChar : Bool} {buflen used : Nat} {s : Bytes} {raw : UInt8 → Prop}

theorem Escaped.imp {raw' : UInt8 → Prop} (h : Escaped raw s) (himp : ∀ c, raw c → raw' c) :
    Escaped raw' s := by
  induction h with
  | nil => exact .nil
  | plain hc _ ih => exact .plain (himp _ hc) ih
  | triple ha hb _ ih => exact .triple ha hb ih

theorem kept_unreserved {c : UInt8} (h : Kept true c) : Unreserved c := by
  obtain ⟨-, h⟩ := h
  simp only [escapes, Bool.true_and, Bool.or_eq_false_iff, Bool.and_eq_false_iff,
    Bool.not_eq_false', List.contains_iff_mem] at h
  exact or_assoc.1 h.2

theorem length_encodeFrom (h : used < buflen) :
    used + (encodeFrom doSpecialChar buflen used s).length < buflen := by
  induction s generalizing used with
  | nil => simpa [encodeFrom] using h
  | cons c s ih =>
    rw [encodeFrom]
    split
    · simpa using h
    · rename_i hend
      have hroom : ¬ buflen ≤ used + 1 := fun h => hend (.inr h)
      split
      · split
        · simpa using h
        · have hle := @ih (used + 3) (by omega)
          simp only [List.length_append, escape, List.length_cons, List.length_nil]
          omega
      · have hle := @ih (used + 1) (by omega)
        rw [List.length_cons]
        omega

/-- Wherever the encoder stops, its text ends with a whole escape. -/
theorem escaped_encodeFrom : Escaped (Kept doSpecialChar) (encodeFrom doSpecialChar buflen used s) := by
  induction s generalizing used with
  | nil => exact .nil
  | cons c s ih =>
    rw [encodeFrom]
    split
    · exact .nil
    · cases he : escapes doSpecialChar c with
      | true =>
        obtain ⟨-, ha, hb, -⟩ := escape_byte c
        rw [if_pos rfl]
        split
        · exact .nil
        · exact .triple ha hb ih
      | false =>
        rw [if_neg (by decide)]
        refine .plain ⟨?_, he⟩ ih
        rintro rfl
        simp [escapes] at he

/-- The run of the encoder where the buffer still has `rest`. -/
theorem encodeLoop_eq {out rest : Bytes} (hlen : out.length + rest.length = buflen)
    (hrest : rest ≠ []) :
    ∃ t rest', t = encodeFrom doSpecialChar buflen out.length s ∧ rest' ≠ [] ∧
      rest'.drop 1 = rest.drop (t.length + 1) ∧
      encodeLoop doSpecialChar buflen s (out ++ rest) out.length =
        some (out ++ t ++ rest', (out ++ t).length) := by
  induction s generalizing out rest with
  | nil => exact ⟨[], rest, rfl, hrest, rfl, by simp [encodeLoop]⟩
  | cons c s ih =>
    rw [encodeLoop, encodeFrom]
    by_cases hend : c = 0 ∨ buflen ≤ out.length + 1
    · rw [if_pos hend, if_pos hend]
      exact ⟨[], rest, rfl, hrest, rfl, by simp⟩
    · rw [if_neg hend, if_neg hend]
      have hroom : ¬ buflen ≤ out.length + 1 := fun h => hend (.inr h)
      cases he : escapes doSpecialChar c with
      | true =>
        rw [if_pos rfl, if_pos rfl]
        by_cases hcut : buflen ≤ out.length + 3
        · rw [if_pos hcut, if_pos hcut]
          exact ⟨[], rest, rfl, hrest, rfl, by simp⟩
        · -- the terminator `sprintf` writes is the first byte of the next write
          have hstore : store (out ++ rest) out.length (escape c ++ [0]) =
              some ((out ++ escape c) ++ 0 :: rest.drop 4) := by
            rw [store_append (by simp [escape]; omega)]
            simp [escape]
          have hnext : (out ++ escape c).length = out.length + 3 := by simp [escape]
          obtain ⟨t, rest', ht, hne, hdrop, hrun⟩ := @ih (out ++ escape c) (0 :: rest.drop 4)
            (by rw [hnext, List.length_cons, List.length_drop]; omega) (List.cons_ne_nil _ _)
          rw [hnext] at ht hrun
          refine ⟨escape c ++ t, rest', by rw [if_neg hcut, ht], hne, ?_, ?_⟩
          · rw [hdrop, List.drop_succ_cons, List.drop_drop, List.length_append]
            exact congrArg (List.drop · rest) (by simp [escape]; omega)
          · rw [if_neg hcut, hstore, Option.bind_eq_bind, Option.bind_some, hrun]
            simp
      | false =>
        rw [if_neg (by decide), if_neg (by decide)]
        have hstore : store (out ++ rest) out.length [c] = some ((out ++ [c]) ++ rest.drop 1) :=
          store_append (by rw [List.length_singleton]; omega)
        have hnext : (out ++ [c]).length = out.length + 1 := by simp
        obtain ⟨t, rest', ht, hne, hdrop, hrun⟩ := @ih (out ++ [c]) (rest.drop 1)
          (by rw [hnext, List.length_drop]; omega)
          (by rw [← List.length_pos_iff, List.length_drop]; omega)
        rw [hnext] at ht hrun
        refine ⟨c :: t, rest', by rw [ht], hne, ?_, ?_⟩
        · rw [hdrop, List.drop_drop, List.length_cons]
          exact congrArg (List.drop · rest) (by omega)
        · rw [hstore, Option.bind_eq_bind, Option.bind_some, hrun]
          simp

/-- The encoder writes nothing outside its buffer. -/
theorem urlEncodeInto_eq {outbuf : Bytes} (hlen : outbuf.length = buflen) (hpos : 1 ≤ buflen) :
    urlEncodeInto s outbuf buflen doSpecialChar =
      some (urlEncode s buflen doSpecialChar ++
        0 :: outbuf.drop ((urlEncode s buflen doSpecialChar).length + 1)) := by
  obtain ⟨t, rest', ht, hne, hdrop, hrun⟩ := @encodeLoop_eq doSpecialChar buflen s [] outbuf
    (by rw [hlen]; simp) (by rintro rfl; simp at hlen; omega)
  have hstore : store (t ++ rest') t.length [0] = some (t ++ [0] ++ rest'.drop 1) :=
    store_append (by rw [List.length_singleton]; exact List.length_pos_iff.2 hne)
  rw [urlEncode, ← List.length_nil, ← ht, urlEncodeInto]
  simp only [List.nil_append, List.length_nil] at hrun
  rw [hrun, Option.bind_eq_bind, Option.bind_some]
  dsimp only
  rw [if_pos (by omega), hstore, hdrop]
  simp

end Texts

/-- With room for every escape the whole text is encoded, and both decoders of form data and of
other texts take it back. -/
def ReadBack (s : Bytes) : Prop :=
  ∀ (buflen : Nat) (outbuf : Bytes), 3 * s.length < buflen → outbuf.length = buflen →
    ∃ t, urlEncodeInto s outbuf buflen true = some (t ++ 0 :: outbuf.drop (t.length + 1)) ∧
      t = s.flatMap encodeByte ∧ Escaped Unreserved t ∧
      ∀ (mem : Nat → UInt8) (form : Bool) (dst : Bytes) (dstLen : Nat),
        slice mem 0 (t.length + 1) = t ++ [0] → s.length < dstLen → dstLen ≤ dst.length →
        (urlDecodeFrom mem false form t.length dstLen 0 dst).value =
          some (s ++ 0 :: dst.drop (s.length + 1), s.length)

/-- In a buffer of any size the encoder writes inside, and stops behind a whole escape. -/
def StaysInside (s : Bytes) : Prop :=
  ∀ (buflen : Nat) (outbuf : Bytes) (doSpecialChar : Bool), 1 ≤ buflen →
    outbuf.length = buflen →
    ∃ t, urlEncodeInto s outbuf buflen doSpecialChar =
        some (t ++ 0 :: outbuf.drop (t.length + 1)) ∧
      t.length < buflen ∧ Escaped (Kept doSpecialChar) t

theorem url_decode_encode (s : Bytes) (hs : 0 ∉ s) : ReadBack s ∧ StaysInside s := by
  constructor
  · intro buflen outbuf hroom hlen
    have htext : urlEncode s buflen true = s.flatMap encodeByte := encodeFrom_eq hs (by omega)
    refine ⟨urlEncode s buflen true, urlEncodeInto_eq hlen (by omega), htext,
      escaped_encodeFrom.imp fun c => kept_unreserved, ?_⟩
    intro mem form dst dstLen hmem hdst hle
    obtain ⟨v, hv, hrun⟩ := @value_urlDecodeFrom mem false form
      (urlEncode s buflen true).length dstLen dst 0 (by omega) hle
    have hdecoded : decoded mem false form 0 (0 + (urlEncode s buflen true).length) = s := by
      rw [decoded_of_slice hmem, htext, ← List.append_nil (s.flatMap encodeByte), decode_encode]
      exact List.append_nil s
    rw [Nat.zero_add] at hdecoded
    rw [hdecoded, List.take_of_length_le (by omega)] at hv
    rw [hrun, hv]
  · intro buflen outbuf doSpecialChar hpos hlen
    refine ⟨urlEncode s buflen doSpecialChar, urlEncodeInto_eq hlen hpos, ?_, escaped_encodeFrom⟩
    have hlt := @length_encodeFrom doSpecialChar buflen 0 s hpos
    rwa [Nat.zero_add] at hlt

theorem url_decode_encode_percent :
    0 ∉ ascii "5%" ∧ ReadBack (ascii "5%") ∧ StaysInside (ascii "5%") :=
  have hs : 0 ∉ ascii "5%" := by decide
  ⟨hs, url_decode_encode _ hs⟩

example : urlEncodeInto (ascii "a b") (List.replicate 5 7) 5 true = some (ascii "a%20" ++ [0]) := by
  decide

end Doorhinges.Query

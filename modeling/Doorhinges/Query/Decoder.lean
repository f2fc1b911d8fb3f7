import Doorhinges.Lib.Cells
import Doorhinges.Lib.Logged
import Doorhinges.Query.Roundtrip

/-!
# The decoder in memory

`url_decode` looks two bytes ahead of a percent sign, past the end of its source where the
sign stands there. Every byte it reads is logged, and what it writes goes to an array of
`dst_len` bytes.
-/
namespace Doorhinges.Query

open Lib
open Lib.CString
open Lib.Cells
open Lib.Logged

section Source

variable (mem : Nat → UInt8)

def peek (i : Nat) : Logged Nat UInt8 := do
  tell i
  pure (mem i)

/-- The byte of the escape at `i`, where there is one. -/
def escapeAt (i : Nat) : Logged Nat (Option UInt8) := do
  let c ← peek mem i
  if c = 37 then do
    let a ← peek mem (i + 1)
    if isXDigit a then do
      let b ← peek mem (i + 2)
      pure (if isXDigit b then some (hexToI a <<< 4 ||| hexToI b) else none)
    else pure none
  else pure none

variable (comma form : Bool) (stop dstLen : Nat)

/-- The loop of `url_decode` and of `url_decode1`, for a `dst_len` of at least 1. -/
def decodeLoop : Nat → Nat → Bytes → Nat → Logged Nat (Bytes × Nat)
  | 0, _, _, _ => Logged.stop
  | n + 1, i, dst, j =>
    if i < stop ∧ j + 1 < dstLen then do
      match ← escapeAt mem i with
      | some b => do
        let dst ← ofOption (store dst j [b])
        decodeLoop n (i + 3) dst (j + 1)
      | none => do
        let c ← peek mem i
        let dst ← ofOption (store dst j [plainByte comma form c])
        decodeLoop n (i + 1) dst (j + 1)
    else do
      let dst ← ofOption (store dst j [0])
      pure (dst, j)

/-- The bytes from `start` up to `stop`, decoded to `dst`; the result is `dst` and the
length. -/
def urlDecodeFrom (start : Nat) (dst : Bytes) : Logged Nat (Bytes × Nat) :=
  decodeLoop mem comma form stop dstLen (stop - start + 1) start dst 0

/-- A source of `n` bytes. -/
def slice (start n : Nat) : Bytes := (List.range' start n).map mem

end Source

section Text

variable (comma form : Bool) (x y : UInt8)

/-- The escape that three bytes are. -/
def escapeValue (c a b : UInt8) : Option UInt8 :=
  if c = 37 && isXDigit a && isXDigit b then some (hexToI a <<< 4 ||| hexToI b) else none

/-- The decoded text where `x` and `y` follow the source. -/
def decodeBehind : Bytes → Bytes
  | [] => []
  | [c] => [(escapeValue c x y).getD (plainByte comma form c)]
  | [c, a] =>
    match escapeValue c a x with
    | some b => [b]
    | none => plainByte comma form c :: decodeBehind [a]
  | c :: a :: b :: rest =>
    match escapeValue c a b with
    | some v => v :: decodeBehind rest
    | none => plainByte comma form c :: decodeBehind (a :: b :: rest)

variable {comma form x y}

/-- Where no hexadecimal digit follows the source, nothing behind it matters. -/
theorem decodeBehind_eq (hx : isXDigit x = false) (s : Bytes) :
    decodeBehind comma form x y s = decode comma form s := by
  induction s using decode.induct with
  | case1 => rfl
  | case2 c => simp [decodeBehind, decode, escapeValue, hx]
  | case3 c a => simp [decodeBehind, decode, escapeValue, hx]
  | case4 c a b rest h ih => simp [decodeBehind, decode, escapeValue, h, ih]
  | case5 c a b rest h ih => simp [decodeBehind, decode, escapeValue, h, ih]

theorem length_decodeBehind_le (s : Bytes) :
    (decodeBehind comma form x y s).length ≤ s.length := by
  fun_induction decodeBehind comma form x y s <;> simp_all
  all_goals omega

end Text

/-- The source from `start` up to `stop`, decoded with what follows it. -/
def decoded (mem : Nat → UInt8) (comma form : Bool) (start stop : Nat) : Bytes :=
  decodeBehind comma form (mem stop) (mem (stop + 1)) (slice mem start (stop - start))

section Run

variable {mem : Nat → UInt8} {comma form : Bool} {stop dstLen i j n : Nat} {dst : Bytes}

@[simp] theorem value_peek : (peek mem i).value = some (mem i) := rfl

@[simp] theorem always_peek {P : Nat → Prop} : (peek mem i).Always P ↔ P i := by
  simp [peek]

theorem value_escapeAt :
    (escapeAt mem i).value = some (escapeValue (mem i) (mem (i + 1)) (mem (i + 2))) := by
  rw [escapeAt, escapeValue]
  by_cases hc : mem i = 37
  · by_cases ha : isXDigit (mem (i + 1)) = true <;> simp [hc, ha]
  · simp [hc]

/-- The escape test looks ahead only behind a percent sign. -/
theorem reads_escapeAt : (escapeAt mem i).Always fun r =>
    r = i ∨ mem i = 37 ∧ (r = i + 1 ∨ r = i + 2) := by
  rw [escapeAt]
  by_cases hc : mem i = 37
  · by_cases ha : isXDigit (mem (i + 1)) = true <;> simp [hc, ha]
  · simp [hc]

theorem slice_succ (i n : Nat) : slice mem i (n + 1) = mem i :: slice mem (i + 1) n := by
  rw [slice, List.range'_succ, List.map_cons, slice]

theorem slice_concat (i n : Nat) : slice mem i (n + 1) = slice mem i n ++ [mem (i + n)] := by
  rw [slice, List.range'_1_concat, List.map_append, slice, List.map_singleton]

/-- A text with its terminator in memory, decoded. -/
theorem decoded_of_slice {s : Bytes} (h : slice mem i (s.length + 1) = s ++ [0]) :
    decoded mem comma form i (i + s.length) = decode comma form s := by
  rw [slice_concat] at h
  obtain ⟨hs, hend⟩ := List.append_inj' h rfl
  rw [decoded, Nat.add_sub_cancel_left, hs, (List.cons.inj hend).1, decodeBehind_eq (by decide)]

/-- One step of the decoded text, as the loop makes it. -/
theorem decoded_step (h : i < stop) :
    decoded mem comma form i stop =
      match escapeValue (mem i) (mem (i + 1)) (mem (i + 2)) with
      | some b => b :: decoded mem comma form (i + 3) stop
      | none => plainByte comma form (mem i) :: decoded mem comma form (i + 1) stop := by
  obtain ⟨n, rfl⟩ := Nat.exists_eq_add_of_lt h
  have h0 : i + n + 1 - i = n + 1 := by omega
  have h1 : i + n + 1 - (i + 1) = n := by omega
  have h3 : i + n + 1 - (i + 3) = n - 2 := by omega
  rw [decoded, decoded, decoded, h0, h1, h3, Nat.add_assoc]
  match n with
  | 0 => cases h : escapeValue (mem i) (mem (i + 1)) (mem (i + 2)) <;> simp [slice, decodeBehind, h]
  | 1 =>
    rw [slice_succ, slice_succ]
    cases h : escapeValue (mem i) (mem (i + 1)) (mem (i + 2)) <;> simp [slice, decodeBehind, h]
  | n + 2 =>
    rw [slice_succ, slice_succ, slice_succ]
    cases h : escapeValue (mem i) (mem (i + 1)) (mem (i + 2)) <;> simp [decodeBehind, h]

theorem decoded_stop (h : stop ≤ i) : decoded mem comma form i stop = [] := by
  rw [decoded, Nat.sub_eq_zero_of_le h]
  rfl

section Loop

variable {out rest : Bytes}

/-- What the loop writes behind what it has written. -/
theorem value_decodeLoop (hfuel : stop - i < n) (hout : out.length < dstLen)
    (hdst : dstLen ≤ out.length + rest.length) :
    ∃ v, v = (decoded mem comma form i stop).take (dstLen - 1 - out.length) ∧
      (decodeLoop mem comma form stop dstLen n i (out ++ rest) out.length).value =
        some (out ++ v ++ 0 :: rest.drop (v.length + 1), out.length + v.length) := by
  induction n generalizing i out rest with
  | zero => omega
  | succ n ih =>
    have hbyte : ∀ b : UInt8, store (out ++ rest) out.length [b] =
        some (out ++ [b] ++ rest.drop 1) := fun b => store_append (by simp; omega)
    rw [decodeLoop]
    by_cases hgo : i < stop ∧ out.length + 1 < dstLen
    · -- one byte is written, and the rest behind it
      have hnext : ∀ (b : UInt8) (i' : Nat), i < i' → ∃ v,
          v = (b :: decoded mem comma form i' stop).take (dstLen - 1 - out.length) ∧
            (decodeLoop mem comma form stop dstLen n i' (out ++ [b] ++ rest.drop 1)
              (out.length + 1)).value =
              some (out ++ v ++ 0 :: rest.drop (v.length + 1), out.length + v.length) := by
        intro b i' hi
        have hlen : (out ++ [b]).length = out.length + 1 := by simp
        have hroom : dstLen - 1 - out.length = dstLen - 1 - (out.length + 1) + 1 := by omega
        obtain ⟨v, hv, hrun⟩ := @ih i' (out ++ [b]) (rest.drop 1) (by omega) (by omega)
          (by rw [hlen, List.length_drop]; omega)
        rw [hlen] at hv hrun
        refine ⟨b :: v, by rw [hroom, List.take_succ_cons, hv], ?_⟩
        rw [hrun, List.drop_drop]
        simp [Nat.add_comm, Nat.add_left_comm]
      rw [if_pos hgo, decoded_step hgo.1]
      simp only [value_bind, value_escapeAt, Option.bind_some]
      cases escapeValue (mem i) (mem (i + 1)) (mem (i + 2)) with
      | some b =>
        simp only [value_bind, value_ofOption, hbyte, Option.bind_some]
        exact hnext b (i + 3) (by omega)
      | none =>
        simp only [value_bind, value_peek, value_ofOption, hbyte, Option.bind_some]
        exact hnext _ (i + 1) (by omega)
    · refine ⟨[], ?_, ?_⟩
      · rcases Nat.lt_or_ge i stop with hi | hi
        · rw [show dstLen - 1 - out.length = 0 by omega, List.take_zero]
        · rw [decoded_stop hi, List.take_nil]
      · rw [if_neg hgo]
        simp [hbyte]

/-- What the loop reads. -/
theorem reads_decodeLoop {dst : Bytes} {j : Nat} :
    (decodeLoop mem comma form stop dstLen n i dst j).Always fun r => i ≤ r ∧
      (r < stop ∨ ∃ q, i ≤ q ∧ q < stop ∧ mem q = 37 ∧ (r = q + 1 ∨ r = q + 2)) := by
  induction n generalizing i dst j with
  | zero => exact always_stop
  | succ n ih =>
    have hweaken : ∀ {m : Logged Nat (Bytes × Nat)} {i' : Nat}, i ≤ i' →
        (m.Always fun r => i' ≤ r ∧
          (r < stop ∨ ∃ q, i' ≤ q ∧ q < stop ∧ mem q = 37 ∧ (r = q + 1 ∨ r = q + 2))) →
        m.Always fun r => i ≤ r ∧
          (r < stop ∨ ∃ q, i ≤ q ∧ q < stop ∧ mem q = 37 ∧ (r = q + 1 ∨ r = q + 2)) := by
      intro m i' hi hm r hr
      obtain ⟨hle, hrest⟩ := hm r hr
      exact ⟨by omega, hrest.imp_right fun ⟨q, hq, h⟩ => ⟨q, by omega, h⟩⟩
    rw [decodeLoop]
    split
    · rename_i hgo
      rw [always_bind]
      refine ⟨fun r hr => ?_, fun o _ => ?_⟩
      · rcases reads_escapeAt r hr with rfl | ⟨hc, hr⟩
        · exact ⟨le_rfl, .inl hgo.1⟩
        · exact ⟨by omega, .inr ⟨i, le_rfl, hgo.1, hc, hr⟩⟩
      · cases o with
        | some b =>
          simp only [always_bind, always_ofOption, true_and]
          intro dst' _
          exact hweaken (by omega) ih
        | none =>
          simp only [always_bind, always_ofOption, true_and]
          refine ⟨?_, fun c _ dst' _ => hweaken (by omega) ih⟩
          simp [hgo.1]
    · simp

end Loop

/-- The decoded text and its terminator are put at the start of the array. -/
theorem value_urlDecodeFrom {start : Nat} (hlen : 1 ≤ dstLen) (hdst : dstLen ≤ dst.length) :
    ∃ v, v = (decoded mem comma form start stop).take (dstLen - 1) ∧
      (urlDecodeFrom mem comma form stop dstLen start dst).value =
        some (v ++ 0 :: dst.drop (v.length + 1), v.length) := by
  have hrun := @value_decodeLoop mem comma form stop dstLen start (stop - start + 1) [] dst
    (by omega) (by simpa using Nat.lt_of_succ_le hlen) (by simpa using hdst)
  simpa [urlDecodeFrom] using hrun

end Run

end Doorhinges.Query

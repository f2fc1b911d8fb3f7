import Doorhinges.AisGet.Model

/-!
# What follows a line in the read buffer

The decoder stops looking for escapes at the terminator of the line, so the string it leaves
is that of the line alone. The id behind the marker is read nine bytes from the start of the
marker, which has eight: at the end of the line that is behind the terminator.
-/
namespace Doorhinges.AisGet

open Lib.CString
open Query
open Params (marker cutMarker aisAdSet)

/-- The decoded line. -/
def decoded (line : Bytes) : Bytes := decode false true line

/-- Whether the text holds the marker. -/
def hasMarker (s : Bytes) : Bool := cutMarker s ≠ s

/-- The decoded line ends with its first marker, and there is room for more than its
terminator in `buffer`. -/
def EndsWithMarker (line : Bytes) : Prop :=
  hasMarker (cstr (decoded line)) ∧
    (cutMarker (cstr (decoded line))).length + 8 = (decoded line).length ∧
    (decoded line).length + 2 < MAX_REQUEST_BUF_SIZE

section Decode

variable {n : Nat} {c a b : UInt8} {mem : Bytes}

theorem urlDecodeIn_zero (n : Nat) (mem : Bytes) :
    urlDecodeIn (n + 1) (0 :: mem) = 0 :: urlDecodeIn n mem := by
  match mem with
  | [] => rfl
  | [_] => rfl
  | _ :: _ :: _ => rfl

/-- An escape is not cut by the terminator. -/
theorem urlDecodeIn_end (n : Nat) (c : UInt8) (mem : Bytes) :
    urlDecodeIn (n + 1) (c :: 0 :: mem) = plainByte false true c :: urlDecodeIn n (0 :: mem) := by
  cases mem with
  | nil => rfl
  | cons b mem =>
    have h : (c = 37 && isXDigit 0 && isXDigit b) = false := by
      rw [show isXDigit 0 = false from rfl, Bool.and_false, Bool.false_and]
    rw [urlDecodeIn, if_neg (by rw [h]; simp)]

theorem urlDecodeIn_end' (n : Nat) (c a : UInt8) (mem : Bytes) :
    urlDecodeIn (n + 1) (c :: a :: 0 :: mem) =
      plainByte false true c :: urlDecodeIn n (a :: 0 :: mem) := by
  have h : (c = 37 && isXDigit a && isXDigit 0) = false := by
    rw [show isXDigit 0 = false from rfl, Bool.and_false]
  rw [urlDecodeIn, if_neg (by rw [h]; simp)]

/-- The line is decoded as if nothing came behind it. -/
theorem urlDecodeIn_line (line : Bytes) (k : Nat) (mem : Bytes) :
    urlDecodeIn (line.length + 1 + k) (line ++ 0 :: mem) =
      decoded line ++ 0 :: urlDecodeIn k mem := by
  rw [decoded]
  fun_induction decode false true line with
  | case1 =>
    rw [List.length_nil, List.nil_append, List.nil_append, Nat.zero_add, Nat.add_comm 1 k,
      urlDecodeIn_zero]
  | case2 c =>
    have hn : [c].length + 1 + k = (k + 1) + 1 := by simp only [List.length_singleton]; omega
    rw [hn, List.singleton_append, urlDecodeIn_end, urlDecodeIn_zero]
    rfl
  | case3 c a =>
    have hn : [c, a].length + 1 + k = ((k + 1) + 1) + 1 := by
      simp only [List.length_cons, List.length_nil]
      omega
    rw [hn, List.cons_append, List.singleton_append, urlDecodeIn_end', urlDecodeIn_end,
      urlDecodeIn_zero]
    rfl
  | case4 c a b rest h ih =>
    have hn : (c :: a :: b :: rest).length + 1 + k = (rest.length + 1 + k + 2) + 1 := by
      simp only [List.length_cons]
      omega
    rw [hn, List.cons_append, List.cons_append, List.cons_append, urlDecodeIn, if_pos h,
      Nat.add_sub_cancel, ih]
    rfl
  | case5 c a b rest h ih =>
    have hn : (c :: a :: b :: rest).length + 1 + k = ((a :: b :: rest).length + 1 + k) + 1 := by
      simp only [List.length_cons]
      omega
    rw [hn, List.cons_append, List.cons_append, List.cons_append, urlDecodeIn, if_neg h]
    rw [List.cons_append, List.cons_append] at ih
    rw [ih]
    rfl

end Decode

section Buffer

variable {line : Bytes} {f g : Following} {stack : Bytes}

/-- What `buffer` holds behind the terminator of the line. -/
def behind (line : Bytes) (f : Following) (stack : Bytes) : Bytes :=
  if (decoded line).length < MAX_REQUEST_BUF_SIZE - 1 then
    (urlDecodeIn f.bytes.length (f.bytes ++ f.stale)).take
        (MAX_REQUEST_BUF_SIZE - 1 - ((decoded line).length + 1)) ++ 0 :: stack
  else stack

theorem bufferOf_eq (h : line.length < MAX_REQUEST_BUF_SIZE) :
    bufferOf line f stack = decoded line ++ 0 :: behind line f stack := by
  have hlen : (decoded line).length ≤ line.length := length_decode_le false true line
  rw [bufferOf, Following.rbytes, Following.mem, urlDecodeIn_line, behind]
  split
  · rename_i hroom
    obtain ⟨m, hm⟩ : ∃ m, MAX_REQUEST_BUF_SIZE - 1 = (decoded line).length + (m + 1) :=
      ⟨MAX_REQUEST_BUF_SIZE - 1 - ((decoded line).length + 1), by omega⟩
    have hrest : (decoded line).length + (m + 1) - ((decoded line).length + 1) = m := by omega
    rw [hm, List.take_length_add_append, List.take_succ_cons, hrest, List.append_assoc,
      List.cons_append]
  · rename_i hroom
    have hfull : MAX_REQUEST_BUF_SIZE - 1 = (decoded line).length := by omega
    rw [hfull, List.take_left]

theorem length_cutMarker {s : Bytes} (h : hasMarker s) : (cutMarker s).length + 8 ≤ s.length := by
  induction s with
  | nil => exact absurd h (by decide)
  | cons c s ih =>
    rw [cutMarker]
    split
    · rename_i hpre
      exact (List.isPrefixOf_iff_prefix.1 hpre).length_le
    · rename_i hpre
      have hs : hasMarker s := by
        rw [hasMarker, decide_eq_true_eq] at h ⊢
        rw [cutMarker, if_neg hpre] at h
        exact fun heq => h (by rw [heq])
      rw [List.length_cons, List.length_cons]
      have := ih hs
      omega

theorem parse_ap (h : line.length < MAX_REQUEST_BUF_SIZE) :
    (parse line f stack).ap = aisAdSet .start (cutMarker (cstr (decoded line))) := by
  rw [parse, bufferOf_eq h, cstr_append]

theorem parse_place (h : line.length < MAX_REQUEST_BUF_SIZE) :
    (parse line f stack).place = (cutMarker (cstr (decoded line))).length + 9 := by
  rw [parse, bufferOf_eq h, uuidPlace, cstr_append]

/-- The id is read from the line, unless the line ends with the marker. -/
theorem parse_uuid (h : line.length < MAX_REQUEST_BUF_SIZE) :
    (parse line f stack).uuid =
      if hasMarker (cstr (decoded line)) then
        some (if (cutMarker (cstr (decoded line))).length + 8 = (decoded line).length then
            cstr (behind line f stack)
          else cstr ((decoded line).drop ((cutMarker (cstr (decoded line))).length + 9)))
      else none := by
  rw [parse, bufferOf_eq h, uuidOf, uuidPlace, cstr_append]
  by_cases hmark : hasMarker (cstr (decoded line))
  · have hne : cutMarker (cstr (decoded line)) ≠ cstr (decoded line) := by
      simpa [hasMarker] using hmark
    have hle := (length_cutMarker hmark).trans (length_cstr_le _)
    rw [if_neg hne, if_pos hmark]
    split
    · rename_i hend
      have hdrop : (decoded line ++ 0 :: behind line f stack).drop
          ((cutMarker (cstr (decoded line))).length + 9) = behind line f stack := by
        rw [show (cutMarker (cstr (decoded line))).length + 9 = (decoded line).length + 1 by omega,
          List.drop_append, List.drop_of_length_le (by omega), List.nil_append,
          Nat.add_sub_cancel_left]
        rfl
      rw [hdrop]
    · rename_i hend
      rw [List.drop_append_of_le_length (by omega), cstr_append]
  · have heq : cutMarker (cstr (decoded line)) = cstr (decoded line) := by
      simpa [hasMarker] using hmark
    rw [if_pos heq, if_neg hmark]

/-- What follows a line only matters where the line ends with the marker. -/
theorem parse_same (h : line.length < MAX_REQUEST_BUF_SIZE) (hend : ¬ EndsWithMarker line) :
    parse line f stack = parse line g stack := by
  have hap : (parse line f stack).ap = (parse line g stack).ap := by rw [parse_ap h, parse_ap h]
  have huuid : (parse line f stack).uuid = (parse line g stack).uuid := by
    rw [parse_uuid h, parse_uuid h]
    by_cases hmark : hasMarker (cstr (decoded line))
    · rw [if_pos hmark, if_pos hmark]
      split
      · rename_i hat
        have hfull : ¬ (decoded line).length + 2 < MAX_REQUEST_BUF_SIZE :=
          fun hroom => hend ⟨hmark, hat, hroom⟩
        have hbehind : behind line f stack = behind line g stack := by
          rw [behind, behind]
          split
          · have hnone : MAX_REQUEST_BUF_SIZE - 1 - ((decoded line).length + 1) = 0 := by omega
            rw [hnone, List.take_zero, List.take_zero]
          · rfl
        rw [hbehind]
      · rfl
    · rw [if_neg hmark, if_neg hmark]
  exact Parsed.ext hap huuid (by rw [parse_place h, parse_place h])

end Buffer

end Doorhinges.AisGet

import Doorhinges.AdBody.Model
import Doorhinges.AdBody.ReplaceChar

/-!
# `str_replace`

Three calls of `strcopy` share a position. A call with a limit copies one byte more than it
counts, and none writes a terminator: the byte behind the result is the one that the
destination held before.
-/
namespace Doorhinges.AdBody.StrReplace

open Lib.CString
open Lib.Cells
open Lib.Replace
open Query
open ReplaceChar (strstr strstr_eq_none)

/-- `dest[i] = c`. -/
def put (dest : Bytes) (i : Int) (c : UInt8) : Option Bytes :=
  if 0 ≤ i then store dest i.toNat [c] else none

/-- The loop of `strcopy`, from the text behind `i` bytes on. -/
def strcopyLoop (position copyLen : Int) : Bytes → Bytes → Int → Option (Bytes × Int)
  | [], dest, i => some (dest, i)
  | c :: src, dest, i => do
    let k ← int32 (position + i)
    let dest ← put dest k c
    if copyLen > -1 ∧ i = copyLen then some (dest, i)
    else do
      let i ← int32 (i + 1)
      strcopyLoop position copyLen src dest i

/-- The destination and `*dest_position` afterwards, and the result. -/
structure Copied where
  dest : Bytes
  destPosition : UInt64
  count : Int

/-- The position is a `size_t` outside and an `int` inside. -/
def strcopy (dest : Bytes) (destPosition : UInt64) (src : Bytes) (copyLen : Int) :
    Option Copied := do
  let position := toInt32 destPosition.toNat
  let r ← strcopyLoop position copyLen src dest 0
  let sum ← int32 (position + r.2)
  some ⟨r.1, UInt64.ofInt sum, r.2⟩

/-- The destination afterwards. `what` is no null pointer where `strstr` has returned. -/
def strReplace (what : Bytes) (withStr : Option Bytes) (inStr dest : Bytes) : Option Bytes :=
  match strstr inStr what with
  | some k => do
    let r ← strcopy dest 0 inStr (toInt32 k)
    let r ← withStr.elim (some r) fun w => strcopy r.dest r.destPosition w (-1)
    let r ← strcopy r.dest r.destPosition (inStr.drop (k + what.length)) (-1)
    some r.dest
  | none => store dest 0 (inStr ++ [0])

/-- A call with texts, and a destination with room for the text that is asked for. -/
structure Call where
  what : Text
  withStr : Text
  inStr : Text
  dest : Bytes
  nonempty : what.1 ≠ []
  room : (replaceFirst what.1 withStr.1 inStr.1).length < dest.length

namespace Call

variable (c : Call)

/-- The text with the first occurrence of `what` replaced. -/
def wanted : Bytes := replaceFirst c.what.1 c.withStr.1 c.inStr.1

def run : Option Bytes := strReplace c.what.1 (some c.withStr.1) c.inStr.1 c.dest

/-- The destination holds the text that is asked for. -/
def Replaced : Prop := ∃ buf, c.run = some buf ∧ 0 ∈ buf ∧ cstr buf = c.wanted

/-- What is copied behind the prefix for an occurrence at `k`. -/
def tail (k : Nat) : Bytes := c.withStr.1 ++ c.inStr.1.drop (k + c.what.1.length)

/-- What is counted when the prefix is taken for `p` bytes. -/
def text (p k : Nat) : Bytes := c.inStr.1.take p ++ c.tail k

/-- What is copied: behind a prefix without a tail stands one byte more. -/
def copied (p k : Nat) : Bytes := if c.tail k = [] then c.inStr.1.take (p + 1) else c.text p k

/-- The destination held the rest of the result, with its terminator, before the call. -/
def Held (p k : Nat) : Prop := ∃ held, c.wanted ++ [0] = c.copied p k ++ held ∧
  held <+: c.dest.drop (c.copied p k).length

/-- An occurrence at an offset that is an int: something is copied behind the prefix, and the
destination held a terminator where the result ends. -/
structure Terminated (k : Nat) : Prop where
  int : c.wanted.length < 2 ^ 31
  tail : c.tail k ≠ []
  nul : c.dest[c.wanted.length]? = some 0

/-- An occurrence at an offset that is narrowed to the int `p`. -/
structure Narrowed (k p : Nat) : Prop where
  offset : toInt32 k = p
  int : (c.text p k).length < 2 ^ 31
  held : c.Held p k

end Call

section Search

variable {e r s : Bytes} {k : Nat}

theorem strstr_replaceFirst (he : e ≠ []) (h : strstr s e = some k) : k + e.length ≤ s.length ∧
    replaceFirst e r s = s.take k ++ (r ++ s.drop (k + e.length)) := by
  induction s generalizing k with
  | nil =>
    rw [strstr, if_neg he] at h
    cases h
  | cons a s ih =>
    rw [strstr] at h
    split at h
    · rename_i hhit
      obtain rfl := Option.some.inj h
      rw [Nat.zero_add]
      exact ⟨hhit.length_le, replaceFirst_hit hhit⟩
    · rename_i hmiss
      obtain ⟨j, hj, rfl⟩ := Option.map_eq_some_iff.1 h
      obtain ⟨hlen, hrest⟩ := ih hj
      rw [Nat.add_right_comm, List.length_cons]
      exact ⟨Nat.succ_le_succ hlen, by rw [replaceFirst_miss hmiss, hrest]; rfl⟩

/-- A text is read from an array that starts with it and a terminator. -/
theorem cstr_iff {buf : Bytes} (hs : 0 ∉ s) : 0 ∈ buf ∧ cstr buf = s ↔ s ++ [0] <+: buf := by
  constructor
  · intro h
    obtain ⟨hmem, rfl⟩ := h
    obtain ⟨x, rest, rfl, hx⟩ := List.eq_append_cons_of_mem hmem
    rw [cstr_append, cstr_of_nul hx, List.prefix_append_right_inj]
    exact ⟨rest, rfl⟩
  · intro h
    obtain ⟨rest, rfl⟩ := h
    rw [List.append_assoc, List.singleton_append, cstr_append, cstr_of_nul hs]
    exact ⟨List.mem_append_right _ List.mem_cons_self, rfl⟩

theorem prefix_append_iff {a w d : Bytes} (h : a.length ≤ w.length) :
    w <+: a ++ d ↔ ∃ held, w = a ++ held ∧ held <+: d := by
  constructor
  · intro hw
    obtain ⟨held, rfl⟩ := List.prefix_of_prefix_length_le (List.prefix_append a d) hw h
    exact ⟨held, rfl, (List.prefix_append_right_inj a).1 hw⟩
  · intro hheld
    obtain ⟨held, rfl, hd⟩ := hheld
    exact (List.prefix_append_right_inj a).2 hd

end Search

section Copy

variable {out rest src : Bytes} {position copyLen : Int} {i m : Nat}

theorem put_append {c : UInt8} (h : rest ≠ []) {k : Int} (hk : k = out.length) :
    put (out ++ rest) k c = some (out ++ [c] ++ rest.drop 1) := by
  subst hk
  rw [put, if_pos (Int.natCast_nonneg _), Int.toNat_natCast]
  exact store_append (List.length_pos_iff.2 h)

/-- A round stores a byte right behind those that are copied. -/
theorem loop_store {c : UInt8} (hrest : rest ≠ []) (hpos : position + i = out.length)
    (hint : out.length < 2 ^ 31) : strcopyLoop position copyLen (c :: src) (out ++ rest) i =
      if copyLen > -1 ∧ (i : Int) = copyLen then some (out ++ [c] ++ rest.drop 1, (i : Int))
      else (int32 (i + 1)).bind
        (strcopyLoop position copyLen src (out ++ [c] ++ rest.drop 1)) := by
  have hindex : int32 (out.length : Int) = some (out.length : Int) :=
    int32_eq (by omega) (by omega)
  simp only [strcopyLoop, hpos, hindex, put_append hrest rfl, Option.bind_eq_bind,
    Option.bind_some]

/-- A round that is not the last. -/
theorem loop_round {c : UInt8} (hrest : rest ≠ []) (hpos : position + i = out.length)
    (hi : i ≤ out.length) (hint : out.length + 1 < 2 ^ 31)
    (hgo : ¬ (copyLen > -1 ∧ (i : Int) = copyLen)) :
    strcopyLoop position copyLen (c :: src) (out ++ rest) i =
      strcopyLoop position copyLen src (out ++ [c] ++ rest.drop 1) ((i + 1 : Nat) : Int) := by
  rw [loop_store hrest hpos (by omega), if_neg hgo, int32_eq (by omega) (by omega),
    Option.bind_some, Int.natCast_add, Int.natCast_one]

/-- Without a limit the whole text is copied. -/
theorem loop_all (hlimit : copyLen < 0) (hpos : position + i = out.length) (hi : i ≤ out.length)
    (hint : out.length + src.length < 2 ^ 31) (hroom : src.length ≤ rest.length) :
    strcopyLoop position copyLen src (out ++ rest) i =
      some (out ++ src ++ rest.drop src.length, ((i + src.length : Nat) : Int)) := by
  induction src generalizing out rest i with
  | nil => rw [strcopyLoop, List.append_nil, List.length_nil, List.drop_zero, Nat.add_zero]
  | cons c src ih =>
    rw [List.length_cons] at hint hroom
    have hlen : (out ++ [c]).length = out.length + 1 := List.length_append
    rw [loop_round (List.ne_nil_of_length_pos (by omega)) hpos hi (by omega) (by omega),
      ih (by omega) (by omega) (by omega) (by rw [List.length_drop]; omega), List.append_assoc out,
      List.singleton_append, List.drop_drop, List.length_cons, Nat.add_comm 1, Nat.add_assoc i,
      Nat.add_comm 1]

/-- Without a limit a loop that ends has counted the whole text. -/
theorem loop_count {dest : Bytes} {n : Int} {r : Bytes × Int} (hlimit : copyLen < 0)
    (h : strcopyLoop position copyLen src dest n = some r) : r.2 = n + src.length := by
  induction src generalizing dest n with
  | nil =>
    obtain rfl := Option.some.inj h
    rw [List.length_nil, Int.natCast_zero, Int.add_zero]
  | cons c src ih =>
    obtain ⟨k, -, h⟩ := Option.bind_eq_some_iff.1 h
    obtain ⟨dest', -, h⟩ := Option.bind_eq_some_iff.1 h
    rw [if_neg (by omega)] at h
    obtain ⟨i, hi, h⟩ := Option.bind_eq_some_iff.1 h
    rw [int32, Option.ite_none_right_eq_some, Option.some.injEq] at hi
    rw [ih h, ← hi.2, List.length_cons]
    omega

/-- Up to a limit inside of the text one byte more is copied than is counted. -/
theorem loop_upto (hpos : position + i = out.length) (hi : i ≤ out.length) (hm : m < src.length)
    (hlimit : copyLen = (i + m : Nat)) (hint : out.length + m < 2 ^ 31)
    (hroom : m < rest.length) : strcopyLoop position copyLen src (out ++ rest) i =
      some (out ++ src.take (m + 1) ++ rest.drop (m + 1), copyLen) := by
  induction m generalizing src out rest i with
  | zero =>
    obtain ⟨c, src, rfl⟩ := List.exists_cons_of_length_pos hm
    rw [loop_store (List.ne_nil_of_length_pos hroom) hpos (by omega),
      if_pos ⟨by omega, hlimit.symm⟩, hlimit]
    rfl
  | succ m ih =>
    obtain ⟨c, src, rfl⟩ := List.exists_cons_of_length_pos (Nat.zero_lt_of_lt hm)
    rw [List.length_cons] at hm
    have hlen : (out ++ [c]).length = out.length + 1 := List.length_append
    rw [loop_round (List.ne_nil_of_length_pos (by omega)) hpos hi (by omega) (by omega),
      ih (by omega) (by omega) (by omega) (by omega) (by omega) (by rw [List.length_drop]; omega),
      List.append_assoc out, List.singleton_append, List.drop_drop, List.take_succ_cons,
      Nat.add_comm 1]

theorem ofInt_natCast (n : Nat) : UInt64.ofInt n = UInt64.ofNat n := by
  have hmod : ((n : Int) % 2 ^ 64).toNat = n % 2 ^ 64 := by omega
  apply UInt64.toNat.inj
  rw [UInt64.ofInt, hmod, UInt64.toNat_ofNat', UInt64.toNat_ofNat', Nat.mod_mod]

/-- The position that the call before has left. -/
theorem position_eq {n : Nat} (h : n < 2 ^ 31) : toInt32 (UInt64.ofNat n).toNat = n := by
  have hsize : n < UInt64.size := h.trans (by decide)
  rw [UInt64.toNat_ofNat_of_lt' hsize]
  exact toInt32_of_lt (by omega) (by omega)

theorem strcopy_eq {dest : Bytes} {destPosition : UInt64} {r : Bytes × Int} {k n : Nat}
    (hpos : toInt32 destPosition.toNat = k) (hloop : strcopyLoop k copyLen src dest 0 = some r)
    (hsum : (k : Int) + r.2 = n) (hint : n < 2 ^ 31) :
    strcopy dest destPosition src copyLen = some ⟨r.1, UInt64.ofNat n, r.2⟩ := by
  rw [strcopy, hpos, hloop, Option.bind_eq_bind, Option.bind_some, hsum,
    int32_eq (by omega) (by omega), Option.bind_eq_bind, Option.bind_some, ofInt_natCast]

theorem strcopy_overflow {dest : Bytes} {destPosition : UInt64} {k : Nat} (hlimit : copyLen < 0)
    (hpos : toInt32 destPosition.toNat = k) (hlong : 2 ^ 31 ≤ k + src.length) :
    strcopy dest destPosition src copyLen = none := by
  rw [strcopy, hpos]
  cases hloop : strcopyLoop k copyLen src dest 0 with
  | none => rfl
  | some r =>
    have hcount := loop_count hlimit hloop
    rw [Option.bind_eq_bind, Option.bind_some, int32_overflow (by omega)]
    rfl

/-- A call without a limit appends the text, unless an int overflows. -/
theorem strcopy_all (hlimit : copyLen < 0) (hout : out.length < 2 ^ 31)
    (hroom : src.length ≤ rest.length) :
    strcopy (out ++ rest) (UInt64.ofNat out.length) src copyLen =
      if (out ++ src).length < 2 ^ 31 then
        some ⟨out ++ src ++ rest.drop src.length, UInt64.ofNat (out ++ src).length, src.length⟩
      else none := by
  have hlen : (out ++ src).length = out.length + src.length := List.length_append
  by_cases hint : (out ++ src).length < 2 ^ 31
  · have hloop := loop_all (i := 0) hlimit (Int.add_zero _) (Nat.zero_le _)
      (hlen.symm.trans_lt hint) hroom
    rw [Nat.zero_add] at hloop
    rw [if_pos hint]
    apply strcopy_eq (position_eq hout) hloop _ hint
    rw [hlen, Int.natCast_add]
  · rw [if_neg hint]
    exact strcopy_overflow hlimit (position_eq hout) (by omega)

/-- The first call, with a limit inside of the text. -/
theorem strcopy_upto {dest : Bytes} {p : Nat} (hp : p < src.length) (hint : p < 2 ^ 31)
    (hroom : p < dest.length) : strcopy dest 0 src p =
      some ⟨src.take (p + 1) ++ dest.drop (p + 1), UInt64.ofNat p, p⟩ := by
  have hpos : toInt32 (0 : UInt64).toNat = (0 : Nat) := position_eq (by decide)
  have hloop := @loop_upto [] dest src 0 p 0 p (Int.add_zero _) (Nat.zero_le _) hp
    (by rw [Nat.zero_add]) (by rwa [List.length_nil, Nat.zero_add]) hroom
  exact strcopy_eq hpos hloop (Int.zero_add _) hint

end Copy

namespace Call

variable {c : Call} {k p : Nat}

theorem wanted_nul : 0 ∉ c.wanted := by
  intro h
  rcases mem_replaceFirst h with hmem | hmem
  · exact c.withStr.2 hmem
  · exact c.inStr.2 hmem

/-- Without an occurrence the text is copied with its terminator. -/
theorem replaced_of_absent (hfound : strstr c.inStr.1 c.what.1 = none) : c.Replaced := by
  have hwanted : c.wanted = c.inStr.1 := replaceFirst_eq_self (strstr_eq_none.1 hfound)
  have hlen : (c.inStr.1 ++ [0]).length = c.inStr.1.length + 1 := List.length_append
  have hroom : c.wanted.length < c.dest.length := c.room
  rw [hwanted] at hroom
  have hstore := @store_append _ [] c.dest _ (hlen.trans_le hroom)
  refine ⟨c.wanted ++ [0] ++ c.dest.drop (c.inStr.1 ++ [0]).length, ?_,
    (cstr_iff wanted_nul).2 (List.prefix_append _ _)⟩
  rw [run, strReplace, hfound, hwanted]
  exact hstore

section Found

variable (hfound : strstr c.inStr.1 c.what.1 = some k)

include hfound

theorem place_lt : k < c.inStr.1.length := by
  have hle := (strstr_replaceFirst (r := c.withStr.1) c.nonempty hfound).1
  have hpos := List.length_pos_iff.2 c.nonempty
  omega

theorem wanted_eq : c.wanted = c.text k k :=
  (strstr_replaceFirst c.nonempty hfound).2

theorem length_text_le (hp : p ≤ k) : (c.text p k).length ≤ c.wanted.length := by
  rw [wanted_eq hfound, text, text, List.length_append, List.length_append, List.length_take,
    List.length_take]
  omega

theorem length_wanted : c.wanted.length = k + (c.tail k).length := by
  rw [wanted_eq hfound, text, List.length_append, List.length_take_of_le (place_lt hfound).le]

theorem run_eq : c.run = (strcopy c.dest 0 c.inStr.1 (toInt32 k)).bind fun r =>
    (strcopy r.dest r.destPosition c.withStr.1 (-1)).bind fun r =>
      (strcopy r.dest r.destPosition (c.inStr.1.drop (k + c.what.1.length)) (-1)).bind fun r =>
        some r.dest := by
  rw [run, strReplace, hfound]
  rfl

/-- Where the offset is narrowed to a negative int, the first call copies all of the text. -/
theorem run_negative (hneg : toInt32 k < 0) : c.run = none := by
  have hk := place_lt hfound
  have hlong : 2 ^ 31 ≤ k := by
    by_contra hlt
    rw [toInt32_of_lt (by omega) (by omega)] at hneg
    omega
  have hpos : toInt32 (0 : UInt64).toNat = (0 : Nat) := position_eq (by decide)
  rw [run_eq hfound, strcopy_overflow hneg hpos (by omega)]
  rfl

/-- The calls leave what they have counted, and behind it what stood there when they began. -/
theorem run_counted (hp : toInt32 k = p) (hint : p < 2 ^ 31) (hle : p ≤ k) {x : UInt8}
    (hx : c.inStr.1.take (p + 1) = c.inStr.1.take p ++ [x]) :
    c.run = if (c.text p k).length < 2 ^ 31 then
      some (c.text p k ++ (x :: c.dest.drop (p + 1)).drop (c.tail k).length) else none := by
  have hk := place_lt hfound
  have hroom : c.wanted.length < c.dest.length := c.room
  have hwanted := length_wanted hfound
  have htail : (c.tail k).length = c.withStr.1.length +
      (c.inStr.1.drop (k + c.what.1.length)).length := List.length_append
  have htake : (c.inStr.1.take p).length = p := List.length_take_of_le (by omega)
  have hrest : (x :: c.dest.drop (p + 1)).length = c.dest.length - p := by
    rw [List.length_cons, List.length_drop]
    omega
  have hleft : ((x :: c.dest.drop (p + 1)).drop c.withStr.1.length).length =
      c.dest.length - p - c.withStr.1.length := by rw [List.length_drop, hrest]
  have htext : c.text p k = c.inStr.1.take p ++ c.withStr.1 ++
      c.inStr.1.drop (k + c.what.1.length) := (List.append_assoc _ _ _).symm
  have hkroom : p < c.dest.length := by omega
  have hfirst := strcopy_upto (hle.trans_lt hk) hint hkroom
  have hsecond := @strcopy_all (c.inStr.1.take p) (x :: c.dest.drop (p + 1)) c.withStr.1 (-1)
    (by decide) (by omega) (by omega)
  rw [htake] at hsecond
  rw [run_eq hfound, hp, hfirst, Option.bind_some, hx, List.append_assoc, List.singleton_append,
    hsecond]
  by_cases hfit : (c.inStr.1.take p ++ c.withStr.1).length < 2 ^ 31
  · have hthird := @strcopy_all (c.inStr.1.take p ++ c.withStr.1)
      ((x :: c.dest.drop (p + 1)).drop c.withStr.1.length) (c.inStr.1.drop (k + c.what.1.length))
      (-1) (by decide) hfit (by omega)
    rw [if_pos hfit, Option.bind_some, hthird, htext, htail, List.drop_drop]
    by_cases hlast : (c.inStr.1.take p ++ c.withStr.1 ++
        c.inStr.1.drop (k + c.what.1.length)).length < 2 ^ 31
    · rw [if_pos hlast, if_pos hlast, Option.bind_some]
    · rw [if_neg hlast, if_neg hlast, Option.bind_none]
  · have hlong : ¬ (c.text p k).length < 2 ^ 31 := by
      rw [htext, List.length_append]
      omega
    rw [if_neg hfit, if_neg hlong, Option.bind_none]

/-- What stands there is the byte over the count, or what the destination held. -/
theorem counted_eq_copied (hle : p ≤ k) {x : UInt8}
    (hx : c.inStr.1.take (p + 1) = c.inStr.1.take p ++ [x]) :
    c.text p k ++ (x :: c.dest.drop (p + 1)).drop (c.tail k).length =
      c.copied p k ++ c.dest.drop (c.copied p k).length := by
  have hk := place_lt hfound
  have htake : (c.inStr.1.take p).length = p := List.length_take_of_le (by omega)
  by_cases htail : c.tail k = []
  · have hover : (c.inStr.1.take (p + 1)).length = p + 1 := List.length_take_of_le (by omega)
    rw [copied, if_pos htail, text, htail, List.append_nil, List.length_nil, List.drop_zero, hover,
      hx, List.append_assoc, List.singleton_append]
  · obtain ⟨m, hm⟩ : ∃ m, (c.tail k).length = m + 1 :=
      Nat.exists_eq_add_one.2 (List.length_pos_iff.2 htail)
    have htext : (c.text p k).length = p + 1 + m := by
      rw [text, List.length_append, htake, hm, Nat.add_assoc, Nat.add_comm m]
    rw [copied, if_neg htail, htext, hm, List.drop_succ_cons, List.drop_drop]

theorem length_copied_le (hle : p ≤ k) : (c.copied p k).length ≤ (c.wanted ++ [0]).length := by
  have hwanted := length_wanted hfound
  rw [copied, List.length_append, List.length_singleton]
  split
  · rw [List.length_take]
    omega
  · have htext := length_text_le hfound hle
    omega

theorem replaced_iff_held (hp : toInt32 k = p) (hint : p < 2 ^ 31) (hle : p ≤ k) :
    c.Replaced ↔ (c.text p k).length < 2 ^ 31 ∧ c.Held p k := by
  have hk : p < c.inStr.1.length := hle.trans_lt (place_lt hfound)
  have hx := List.take_succ_eq_append_getElem hk
  have hheld := prefix_append_iff (d := c.dest.drop (c.copied p k).length)
    (length_copied_le hfound hle)
  rw [Replaced, run_counted hfound hp hint hle hx, counted_eq_copied hfound hle hx]
  by_cases hfit : (c.text p k).length < 2 ^ 31
  · rw [if_pos hfit, and_iff_right hfit, Held, ← hheld, ← cstr_iff wanted_nul]
    simp only [Option.some.injEq, exists_eq_left']
  · rw [if_neg hfit]
    exact iff_of_false (fun h => by cases h.choose_spec.1) fun h => hfit h.1

/-- An offset that is an int is not narrowed. -/
theorem held_self : c.Held k k ↔ c.tail k ≠ [] ∧ c.dest[c.wanted.length]? = some 0 := by
  have hk := place_lt hfound
  by_cases htail : c.tail k = []
  · refine iff_of_false (fun h => ?_) fun h => h.1 htail
    obtain ⟨held, heq, -⟩ := h
    rw [copied, if_pos htail, wanted_eq hfound, text, htail, List.append_nil,
      List.take_succ_eq_append_getElem hk, List.append_assoc] at heq
    have hbyte : 0 = c.inStr.1[k] := (List.cons.inj (List.append_cancel_left heq)).1
    have hmem : c.inStr.1[k] ∈ c.inStr.1 := List.getElem_mem hk
    rw [← hbyte] at hmem
    exact c.inStr.2 hmem
  · have hcopied : c.copied k k = c.wanted := by rw [copied, if_neg htail, wanted_eq hfound]
    rw [Held, hcopied, and_iff_right htail]
    constructor
    · intro h
      obtain ⟨held, heq, rest, hrest⟩ := h
      obtain rfl := List.append_cancel_left heq
      have hfirst := @List.getElem?_drop _ c.dest c.wanted.length 0
      rw [Nat.add_zero] at hfirst
      rw [← hfirst, ← hrest]
      rfl
    · intro h
      obtain ⟨hlt, hbyte⟩ := List.getElem?_eq_some_iff.1 h
      refine ⟨[0], rfl, ?_⟩
      rw [List.drop_eq_getElem_cons hlt, hbyte]
      exact List.prefix_append [0] _

theorem replaced_iff_terminated (hint : k < 2 ^ 31) : c.Replaced ↔ c.Terminated k := by
  have hoffset : toInt32 k = k := toInt32_of_lt (by omega) (by omega)
  rw [replaced_iff_held hfound hoffset hint (Nat.le_refl k), held_self hfound,
    ← wanted_eq hfound]
  constructor
  · intro h
    exact ⟨h.1, h.2.1, h.2.2⟩
  · intro h
    exact ⟨h.int, h.tail, h.nul⟩

theorem replaced_iff_narrowed (hlong : 2 ^ 31 ≤ k) : c.Replaced ↔ ∃ p, c.Narrowed k p := by
  have hlt : toInt32 k < 2 ^ 31 := Int.bmod_lt (by decide)
  constructor
  · intro h
    have hneg : ¬ toInt32 k < 0 := by
      intro hneg
      obtain ⟨buf, hrun, -⟩ := h
      rw [run_negative hfound hneg] at hrun
      cases hrun
    obtain ⟨p, hp⟩ := Int.eq_ofNat_of_zero_le (Int.not_lt.1 hneg)
    obtain ⟨hint, hheld⟩ := (replaced_iff_held hfound hp (by omega) (by omega)).1 h
    exact ⟨p, hp, hint, hheld⟩
  · intro h
    obtain ⟨p, hp, hint, hheld⟩ := h
    exact (replaced_iff_held hfound hp (by omega) (by omega)).2 ⟨hint, hheld⟩

end Found

end Call

/-- The calls after which the destination holds the text that is asked for. -/
theorem str_replace_iff (c : Call) : c.Replaced ↔
    ∀ k, strstr c.inStr.1 c.what.1 = some k →
      if k < 2 ^ 31 then c.Terminated k else ∃ p, c.Narrowed k p := by
  cases hfound : strstr c.inStr.1 c.what.1 with
  | none => exact iff_of_true (Call.replaced_of_absent hfound) fun k h => by cases h
  | some k =>
    have hiff : c.Replaced ↔ if k < 2 ^ 31 then c.Terminated k else ∃ p, c.Narrowed k p := by
      by_cases hint : k < 2 ^ 31
      · rw [if_pos hint]
        exact Call.replaced_iff_terminated hfound hint
      · rw [if_neg hint]
        exact Call.replaced_iff_narrowed hfound (Nat.le_of_not_lt hint)
    rw [hiff]
    constructor
    · intro h j hj
      obtain rfl := Option.some.inj hj
      exact h
    · intro h
      exact h k rfl

/-- A cleared destination ends the result. -/
example : strReplace (ascii "aa") (some (ascii "b")) (ascii "caad") (List.replicate 6 0) =
    some (ascii "cbd" ++ [0, 0, 0]) := by decide

section Samples

/-- One byte is replaced by another in a destination without a NUL. -/
def unterminated : Call where
  what := ⟨[97], by decide⟩
  withStr := ⟨[98], by decide⟩
  inStr := ⟨[97], by decide⟩
  dest := [1, 1, 1]
  nonempty := List.cons_ne_nil _ _
  room := by decide

theorem not_terminated : ¬ unterminated.Replaced := by
  rw [Call.replaced_iff_terminated (k := 0) (by decide) (by decide)]
  intro h
  have hnul := h.nul
  revert hnul
  decide

end Samples

end Doorhinges.AdBody.StrReplace

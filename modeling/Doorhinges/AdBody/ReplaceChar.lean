import Doorhinges.AdBody.Template
import Doorhinges.Lib.Cells
import Doorhinges.Lib.Replace
import Doorhinges.Query.Roundtrip

/-!
# `replace_char` for any texts

Behind the start of what it found the loop goes on one byte further, whatever the length of
`erase`, and it gathers the text in an array of 400 bytes. What it leaves in the array of the
caller is the text with the starts of the occurrences replaced.
-/
namespace Doorhinges.AdBody.ReplaceChar

open Lib.CString
open Lib.Cells
open Lib.Replace
open Query

/-- The offset of the first occurrence. -/
def strstr : Bytes → Bytes → Option Nat
  | [], t => if t = [] then some 0 else none
  | c :: s, t => if t <+: c :: s then some 0 else (strstr s t).map (· + 1)

/-- The loop, from the text at `p` on, and the `strcpy` behind it. -/
def replaceLoop (erase : Bytes) (rep : Option Bytes) :
    Nat → Bytes → Bytes → Nat → Option Bytes
  | 0, _, _, _ => none
  | n + 1, p, str1, tmp =>
    match strstr p erase with
    | none => store str1 tmp (p ++ [0])
    | some k => do
      let str1 ← store str1 tmp (p.take k)
      match rep with
      | none => replaceLoop erase rep n (p.drop (k + 1)) str1 (tmp + k)
      | some r => do
        let str1 ← store str1 (tmp + k) r
        replaceLoop erase rep n (p.drop (k + 1)) str1 (tmp + k + r.length)

/-- The result is the array of the caller, for which `realloc` is not defined. -/
def replaceChar (str erase : Bytes) (rep : Option Bytes) : Option Bytes := do
  let str1 ← replaceLoop erase rep ((cstr str).length + 1) (cstr str) (List.replicate 400 0) 0
  if (cstr str1).length > (cstr str).length then none
  else store str 0 (cstr str1 ++ [0])

/-- A call on a text in an array of 1024 bytes; the text that is asked for is not longer. -/
structure Call where
  str : Text
  behind : Bytes
  erase : Text
  rep : Option Text
  room : str.1.length + 1 + behind.length = 1024
  nonempty : erase.1 ≠ []
  shorter : (replaceAll erase.1 ((rep.map (·.1)).getD []) str.1).length ≤ str.1.length

namespace Call

variable (c : Call)

def repText : Bytes := (c.rep.map (·.1)).getD []

/-- The text with the occurrences of `erase` replaced. -/
def wanted : Bytes := replaceAll c.erase.1 c.repText c.str.1

def run : Option Bytes := replaceChar (c.str.1 ++ 0 :: c.behind) c.erase.1 (c.rep.map (·.1))

/-- The array of the caller holds the text that is asked for. -/
def Replaced : Prop := ∃ buf, c.run = some buf ∧ buf.length = 1024 ∧ 0 ∈ buf ∧ cstr buf = c.wanted

end Call

section Search

variable {e r s : Bytes} {k : Nat}

theorem strstr_eq_none : strstr s e = none ↔ ¬ e <:+: s := by
  induction s with
  | nil =>
    rw [strstr, List.infix_nil]
    split <;> simp_all
  | cons c s ih =>
    rw [strstr, List.infix_cons_iff]
    split
    · rename_i hhit
      simp [hhit]
    · rename_i hmiss
      simp [hmiss, ih]

/-- Up to the first occurrence nothing is replaced. -/
theorem replaceStarts_strstr (he : e ≠ []) (h : strstr s e = some k) : k < s.length ∧
    replaceStarts e r s = s.take k ++ (r ++ replaceStarts e r (s.drop (k + 1))) := by
  induction s generalizing k with
  | nil =>
    rw [strstr, if_neg he] at h
    cases h
  | cons c s ih =>
    rw [strstr] at h
    split at h
    · rename_i hhit
      obtain rfl := Option.some.inj h
      exact ⟨Nat.succ_pos _, replaceStarts_hit hhit⟩
    · rename_i hmiss
      obtain ⟨j, hj, rfl⟩ := Option.map_eq_some_iff.1 h
      obtain ⟨hlt, hrest⟩ := ih hj
      exact ⟨Nat.succ_lt_succ hlt, by rw [replaceStarts_miss hmiss, hrest]; rfl⟩

end Search

section Loop

variable {e p out rest : Bytes} {rep : Option Bytes} {n k : Nat}

/-- A round stores the text up to the occurrence and the replacement. -/
theorem replaceLoop_round (h : strstr p e = some k) (hk : k < p.length) :
    replaceLoop e rep (n + 1) p (out ++ rest) out.length =
      if k + (rep.getD []).length ≤ rest.length then
        replaceLoop e rep n (p.drop (k + 1))
          (out ++ (p.take k ++ rep.getD []) ++ rest.drop (k + (rep.getD []).length))
          (out ++ (p.take k ++ rep.getD [])).length
      else none := by
  have htake : (p.take k).length = k := List.length_take_of_le hk.le
  have hout : (out ++ p.take k).length = out.length + k := by rw [List.length_append, htake]
  rw [replaceLoop, h]
  by_cases hfit : k ≤ rest.length
  · have hstore := @store_append _ out rest (p.take k) (htake.le.trans hfit)
    rw [htake] at hstore
    cases rep with
    | none =>
      rw [Option.getD_none, List.append_nil, List.length_nil, Nat.add_zero, if_pos hfit, hout]
      simp only [hstore, Option.bind_eq_bind, Option.bind_some]
    | some r =>
      simp only [hstore, Option.bind_eq_bind, Option.bind_some, Option.getD_some]
      rw [← hout]
      by_cases hrep : k + r.length ≤ rest.length
      · have hroom : r.length ≤ (rest.drop k).length := by
          rw [List.length_drop]
          omega
        rw [store_append hroom, Option.bind_some, if_pos hrep, List.drop_drop, ← List.append_assoc,
          ← List.length_append]
      · have hroom : (rest.drop k).length < r.length := by
          rw [List.length_drop]
          omega
        rw [store_append_none hroom, Option.bind_none, if_neg hrep]
  · have hstore := @store_append_none _ out rest (p.take k) (by omega)
    rw [if_neg (by omega)]
    simp only [hstore, Option.bind_eq_bind, Option.bind_none]

/-- The loop leaves the text with the starts of the occurrences replaced, if that fits. -/
theorem replaceLoop_eq (he : e ≠ []) (hn : p.length < n) :
    replaceLoop e rep n p (out ++ rest) out.length =
      if (replaceStarts e (rep.getD []) p).length < rest.length then
        some (out ++ (replaceStarts e (rep.getD []) p ++ [0]) ++
          rest.drop ((replaceStarts e (rep.getD []) p).length + 1))
      else none := by
  induction n generalizing p out rest with
  | zero => omega
  | succ n ih =>
    cases hfound : strstr p e with
    | none =>
      rw [replaceLoop, hfound, replaceStarts_eq_self (strstr_eq_none.1 hfound)]
      have hlen : (p ++ [0]).length = p.length + 1 := List.length_append
      by_cases hfit : p.length < rest.length
      · rw [if_pos hfit, ← hlen]
        exact store_append (hlen.le.trans hfit)
      · rw [if_neg hfit]
        exact store_append_none (by omega)
    | some k =>
      obtain ⟨hk, hstarts⟩ := @replaceStarts_strstr e (rep.getD []) p k he hfound
      have hrest : (p.drop (k + 1)).length < n := by
        rw [List.length_drop]
        omega
      have hlen : (replaceStarts e (rep.getD []) p).length = k + (rep.getD []).length +
          (replaceStarts e (rep.getD []) (p.drop (k + 1))).length := by
        rw [hstarts, List.length_append, List.length_append, List.length_take_of_le hk.le,
          Nat.add_assoc]
      rw [replaceLoop_round hfound hk, hlen]
      by_cases hfit : k + (rep.getD []).length ≤ rest.length
      · rw [if_pos hfit, ih hrest, List.length_drop]
        refine if_congr (by omega) ?_ rfl
        rw [hstarts, List.drop_drop]
        simp only [List.append_assoc, Nat.add_assoc]
      · rw [if_neg hfit, if_neg (by omega)]

end Loop

namespace Call

variable (c : Call)

/-- The text that the loop gathers. -/
def gathered : Bytes := replaceStarts c.erase.1 c.repText c.str.1

theorem gathered_nul : 0 ∉ c.gathered := by
  intro h
  rcases mem_replaceStarts h with h | h
  · rw [repText] at h
    cases hrep : c.rep with
    | none =>
      rw [hrep] at h
      cases h
    | some r =>
      rw [hrep] at h
      exact r.2 h
  · exact c.str.2 h

theorem cstr_gathered (rest : Bytes) : cstr (c.gathered ++ [0] ++ rest) = c.gathered := by
  rw [List.append_assoc, List.singleton_append, cstr_append, cstr_of_nul c.gathered_nul]

/-- The loop from the start of the array of 400 bytes. -/
theorem loop_eq : replaceLoop c.erase.1 (c.rep.map (·.1)) (c.str.1.length + 1) c.str.1
    (List.replicate 400 0) 0 = if c.gathered.length < 400 then
      some (c.gathered ++ [0] ++ (List.replicate 400 0).drop (c.gathered.length + 1)) else none := by
  have hloop := @replaceLoop_eq c.erase.1 c.str.1 [] (List.replicate 400 0) (c.rep.map (·.1))
    (c.str.1.length + 1) c.nonempty (Nat.lt_succ_self _)
  rwa [List.length_replicate] at hloop

/-- The call is defined if what was gathered fits both arrays. -/
theorem run_eq : c.run =
    if c.gathered.length < 400 ∧ c.gathered.length ≤ c.str.1.length then
      some (c.gathered ++ [0] ++ (c.str.1 ++ 0 :: c.behind).drop (c.gathered.length + 1))
    else none := by
  have hstr : cstr (c.str.1 ++ 0 :: c.behind) = c.str.1 := by
    rw [cstr_append, cstr_of_nul c.str.2]
  rw [run, replaceChar, hstr, c.loop_eq]
  by_cases hfit : c.gathered.length < 400
  · rw [if_pos hfit, Option.bind_eq_bind, Option.bind_some, cstr_gathered]
    by_cases hlen : c.gathered.length ≤ c.str.1.length
    · have hroom : (c.gathered ++ [0]).length ≤ (c.str.1 ++ 0 :: c.behind).length := by
        rw [List.length_append, List.length_append, List.length_singleton, List.length_cons]
        omega
      have hstore := @store_append _ [] (c.str.1 ++ 0 :: c.behind) _ hroom
      have hlast : (c.gathered ++ [0]).length = c.gathered.length + 1 := List.length_append
      rw [hlast] at hstore
      rw [if_neg (by omega), if_pos ⟨hfit, hlen⟩]
      exact hstore
    · rw [if_pos (by omega), if_neg fun h => hlen h.2]
  · rw [if_neg hfit, if_neg fun h => hfit h.1]
    rfl

/-- Without a replacement and with one byte to erase this is the call of `get_adbody`. -/
theorem run_erase {b : UInt8} (he : c.erase.1 = [b]) (hrep : c.rep = none) :
    c.run.map cstr = AdBody.replaceChar c.str.1 b := by
  have hgathered : c.gathered = c.str.1.filter (· ≠ b) := by
    rw [gathered, repText, he, hrep]
    exact replaceStarts_erase b c.str.1
  have hlen : c.gathered.length ≤ c.str.1.length := by
    rw [hgathered]
    exact List.length_filter_le _ _
  rw [run_eq, AdBody.replaceChar, ← hgathered]
  by_cases hfit : c.gathered.length < 400
  · rw [if_pos ⟨hfit, hlen⟩, if_pos hfit, Option.map_some, c.cstr_gathered]
  · rw [if_neg fun h => hfit h.1, if_neg hfit, Option.map_none]

theorem replaced_iff : c.Replaced ↔ c.gathered.length < 400 ∧ c.gathered = c.wanted := by
  constructor
  · rintro ⟨buf, hrun, -, -, hbuf⟩
    rw [run_eq] at hrun
    split at hrun
    · rename_i hfit
      obtain rfl := Option.some.inj hrun
      exact ⟨hfit.1, (c.cstr_gathered _).symm.trans hbuf⟩
    · cases hrun
  · rintro ⟨hlen, heq⟩
    have hshorter : c.gathered.length ≤ c.str.1.length := by
      rw [heq]
      exact c.shorter
    refine ⟨_, by rw [run_eq, if_pos ⟨hlen, hshorter⟩], ?_, ?_,
      (c.cstr_gathered _).trans heq⟩
    · have hroom := c.room
      simp only [List.length_append, List.length_drop, List.length_cons, List.length_nil]
      omega
    · exact List.mem_append_left _ (List.mem_append_right _ List.mem_cons_self)

end Call

/-- The calls that replace all occurrences, and write inside of their array. -/
theorem replace_char_iff (c : Call) : c.Replaced ↔ c.wanted.length < 400 ∧
    (c.erase.1.length = 1 ∨ ¬ c.erase.1 <:+: c.str.1 ∨
      c.repText = [] ∧ Covered c.erase.1 c.str.1) := by
  have hiff : c.gathered = c.wanted ↔ _ := replaceStarts_eq_iff c.nonempty c.str.1
  rw [c.replaced_iff, ← hiff]
  exact and_congr_left fun heq => by rw [heq]

/-- Only the first byte of a longer occurrence is replaced. -/
example : replaceStarts (ascii "ab") [] (ascii "xaby") = ascii "xby" := by decide

/-- A segment of 400 letters, from which the backslashes are to be erased. -/
def longSegment : Call where
  str := ⟨List.replicate 400 97, fun h => absurd (List.eq_of_mem_replicate h) (by decide)⟩
  behind := List.replicate 623 0
  erase := ⟨[92], by decide⟩
  rep := none
  room := by rw [List.length_replicate, List.length_replicate]
  nonempty := List.cons_ne_nil _ _
  shorter := by
    rw [← replaceStarts_singleton rfl]
    exact (congrArg List.length (replaceStarts_erase 92 _)).trans_le (List.length_filter_le _ _)

/-- It does not fit the array of 400 bytes. -/
theorem not_replaced : ¬ longSegment.Replaced := by
  intro h
  have hmiss : ¬ [92] <:+: List.replicate 400 (97 : UInt8) := fun hin =>
    absurd (List.eq_of_mem_replicate (hin.subset List.mem_cons_self)) (by decide)
  have hgathered : longSegment.gathered = List.replicate 400 97 := replaceStarts_eq_self hmiss
  have hlen := (longSegment.replaced_iff.1 h).1
  rw [hgathered, List.length_replicate] at hlen
  exact Nat.lt_irrefl 400 hlen

end Doorhinges.AdBody.ReplaceChar

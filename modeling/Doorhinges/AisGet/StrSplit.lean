import Doorhinges.Query.Roundtrip

/-!
# Splitting in place

`str_split` puts a terminator over the first separator of a run, skips the run, and then one
more byte. That byte is the terminator where the text ends with a separator, so the loop goes
on behind it. On every other text the strings it returns are the fields between the runs.
-/
namespace Doorhinges.AisGet

open Lib.CString
open Query (cstr)

/-- `while (*c == sep) c++` -/
def skipRun (sep : UInt8) : Nat → Bytes → Nat → Option Nat
  | 0, _, _ => none
  | n + 1, cells, c => do
    let b ← cells[c]?
    if b = sep then skipRun sep n cells (c + 1) else some c

structure Split where
  cells : Bytes
  strings : List Nat
  num : Nat

/-- The loop of `str_split` in the cells of a string; the strings are the places where they
start. No result stands for a read behind the cells. -/
def splitLoop (sep : UInt8) (max : Nat) : Nat → Nat → Split → Option Split
  | 0, _, _ => none
  | n + 1, c, s => do
    let b ← s.cells[c]?
    if b = 0 then some s
    else if b = sep then do
      let cells := if s.num < max then s.cells.set c 0 else s.cells
      let c ← skipRun sep cells.length cells (c + 1)
      splitLoop sep max n (c + 1)
        ⟨cells, if s.num < max then s.strings ++ [c] else s.strings, s.num + 1⟩
    else splitLoop sep max n (c + 1) s

def strSplit (s : Bytes) (sep : UInt8) (max : Nat) : Option Split :=
  splitLoop sep max (s.length + 1) 0 ⟨s ++ [0], [0], 1⟩

/-- The string at a place. -/
def Split.stringAt (s : Split) (p : Nat) : Bytes := cstr (s.cells.drop p)

/-- The fields behind the first one; a run of separators counts as one. -/
def laterFields (sep : UInt8) (s : Bytes) : List Bytes := (s.splitOn sep).tail.filter (· ≠ [])

def runFields (sep : UInt8) (s : Bytes) : List Bytes :=
  s.takeWhile (· ≠ sep) :: laterFields sep s

section Fields

variable {sep x : UInt8} {t u : Bytes}

theorem laterFields_cons (hx : x ≠ sep) : laterFields sep (x :: t) = laterFields sep t := by
  rw [laterFields, laterFields, List.splitOn_cons_eq_if_modifyHead, if_neg (by simpa using hx)]
  cases t.splitOn sep <;> rfl

theorem splitOn_eq (t : Bytes) :
    t.splitOn sep = t.takeWhile (· ≠ sep) :: (t.splitOn sep).tail := by
  induction t with
  | nil => rfl
  | cons x t ih =>
    rw [List.splitOn_cons_eq_if_modifyHead]
    by_cases hx : x = sep
    · simp [hx]
    · rw [if_neg (by simpa using hx), ih, List.takeWhile_cons_of_pos (by simpa using hx)]
      rfl

/-- A run of separators and the field behind it. -/
theorem laterFields_run (k : Nat) (hx : x ≠ sep) :
    laterFields sep (sep :: (List.replicate k sep ++ x :: t)) =
      (x :: t.takeWhile (· ≠ sep)) :: laterFields sep t := by
  have hsep : ∀ l : Bytes, (sep :: l).splitOn sep = [] :: l.splitOn sep := fun l => by
    rw [List.splitOn_cons_eq_if_modifyHead, if_pos (by simp)]
  have hrun : ((List.replicate k sep ++ x :: t).splitOn sep).filter (· ≠ []) =
      (x :: t.takeWhile (· ≠ sep)) :: laterFields sep t := by
    induction k with
    | zero =>
      rw [List.replicate_zero, List.nil_append, splitOn_eq,
        List.takeWhile_cons_of_pos (by simpa using hx), List.filter_cons_of_pos (by simp),
        ← laterFields_cons hx, laterFields]
    | succ k ih =>
      rw [List.replicate_succ, List.cons_append, hsep, List.filter_cons_of_neg (by simp), ih]
  rw [laterFields, hsep, List.tail_cons, hrun]

/-- A text behind a separator begins with a run of them, and ends there or goes on. -/
theorem run_cases (sep : UInt8) (t : Bytes) : ∃ k, t = List.replicate k sep ∨
    ∃ x u, x ≠ sep ∧ t = List.replicate k sep ++ x :: u := by
  induction t with
  | nil => exact ⟨0, .inl rfl⟩
  | cons y t ih =>
    by_cases hy : y = sep
    · subst hy
      obtain ⟨k, rfl | ⟨x, u, hx, rfl⟩⟩ := ih
      · exact ⟨k + 1, .inl rfl⟩
      · exact ⟨k + 1, .inr ⟨x, u, hx, rfl⟩⟩
    · exact ⟨0, .inr ⟨y, t, hy, rfl⟩⟩

end Fields

section Loop

variable {sep : UInt8} {max num n : Nat} {pre t : Bytes} {strings : List Nat}

theorem getElem?_cell (pre : Bytes) (x : UInt8) (rest : Bytes) :
    (pre ++ x :: rest)[pre.length]? = some x := by
  rw [List.getElem?_append_right le_rfl, Nat.sub_self]
  rfl

theorem set_cell (pre : Bytes) (x y : UInt8) (rest : Bytes) :
    (pre ++ x :: rest).set pre.length y = pre ++ y :: rest := by
  rw [List.set_append_right _ _ le_rfl, Nat.sub_self]
  rfl

theorem skipRun_eq {x : UInt8} (hx : x ≠ sep) (k : Nat) (pre rest : Bytes) {n : Nat} (hn : k < n) :
    skipRun sep n (pre ++ (List.replicate k sep ++ x :: rest)) pre.length =
      some (pre.length + k) := by
  induction k generalizing pre n with
  | zero =>
    obtain ⟨n, rfl⟩ := Nat.exists_eq_succ_of_ne_zero (Nat.ne_zero_of_lt hn)
    rw [skipRun, List.replicate_zero, List.nil_append, getElem?_cell]
    simp [hx]
  | succ k ih =>
    obtain ⟨n, rfl⟩ := Nat.exists_eq_succ_of_ne_zero (Nat.ne_zero_of_lt hn)
    have hnext := ih (pre ++ [sep]) (n := n) (by omega)
    rw [List.length_append, List.length_singleton] at hnext
    rw [skipRun, List.replicate_succ, List.cons_append, getElem?_cell]
    simp only [Option.bind_eq_bind, Option.bind_some, if_true]
    rw [List.append_cons, hnext]
    exact congrArg some (by omega)

theorem splitLoop_other {x : UInt8} (h0 : x ≠ 0) (hx : x ≠ sep) (pre rest : Bytes) :
    splitLoop sep max (n + 1) pre.length ⟨pre ++ x :: rest, strings, num⟩ =
      splitLoop sep max n (pre ++ [x]).length ⟨(pre ++ [x]) ++ rest, strings, num⟩ := by
  rw [splitLoop, getElem?_cell]
  simp [h0, hx]

/-- One round over a run of separators and the byte behind it. -/
theorem splitLoop_run {y : UInt8} (hsep : sep ≠ 0) (hy : y ≠ sep) (k : Nat) (pre rest : Bytes) :
    splitLoop sep max (n + 1) pre.length
        ⟨pre ++ sep :: (List.replicate k sep ++ y :: rest), strings, num⟩ =
      let pre' := pre ++ (if num < max then 0 else sep) :: (List.replicate k sep ++ [y])
      splitLoop sep max n pre'.length
        ⟨pre' ++ rest, if num < max then strings ++ [pre.length + 1 + k] else strings, num + 1⟩ := by
  have hcells : (if num < max then
      (pre ++ sep :: (List.replicate k sep ++ y :: rest)).set pre.length 0
      else pre ++ sep :: (List.replicate k sep ++ y :: rest)) =
        (pre ++ [if num < max then 0 else sep]) ++ (List.replicate k sep ++ y :: rest) := by
    split
    · rw [set_cell, ← List.append_cons]
    · rw [← List.append_cons]
  have hlen : pre.length + 1 = (pre ++ [if num < max then 0 else sep]).length := by simp
  rw [splitLoop, getElem?_cell]
  simp only [Option.bind_eq_bind, Option.bind_some, if_neg hsep, if_true, hcells, hlen]
  rw [skipRun_eq hy k _ rest (by simp; omega), Option.bind_some]
  simp [Nat.add_comm, Nat.add_left_comm]

/-- What a run of the loop from `c` on makes of the text there: nothing if the text ends with a
separator, and else the fields, as long as there is room for all of them. -/
def SplitsTo (sep : UInt8) (max num : Nat) (pre t : Bytes) (strings : List Nat)
    (r : Option Split) : Prop :=
  (t.getLast? = some sep → r = none) ∧
    (¬ t.getLast? = some sep → ∃ s t', r = some s ∧ s.num = num + (laterFields sep t).length ∧
      (s.num ≤ max → s.cells = pre ++ (t' ++ [0]) ∧ cstr (t' ++ [0]) = t.takeWhile (· ≠ sep) ∧
        ∃ later, s.strings = strings ++ later ∧ later.map s.stringAt = laterFields sep t))

theorem getLast?_behind {x : UInt8} (hx : x ≠ sep) (pre t : Bytes) :
    (pre ++ x :: t).getLast? = some sep ↔ t.getLast? = some sep := by
  cases t with
  | nil => simp [hx]
  | cons y t => simp [List.getLast?_append, List.getLast?_cons]

theorem cstr_cons {x : UInt8} (h0 : x ≠ 0) (t : Bytes) : cstr (x :: t) = x :: cstr t := by
  rw [cstr, List.takeWhile_cons_of_pos (by simpa using h0), cstr]

namespace SplitsTo

variable {r : Option Split} {u : Bytes}

theorem other {x : UInt8} (h0 : x ≠ 0) (hx : x ≠ sep)
    (h : SplitsTo sep max num (pre ++ [x]) t strings r) :
    SplitsTo sep max num pre (x :: t) strings r := by
  obtain ⟨hcut, hrun⟩ := h
  have hlast := getLast?_behind hx [] t
  rw [List.nil_append] at hlast
  rw [SplitsTo, hlast]
  refine ⟨hcut, fun hne => ?_⟩
  obtain ⟨s, t', hr, hnum, htexts⟩ := hrun hne
  refine ⟨s, x :: t', hr, by rw [hnum, laterFields_cons hx], fun hmax => ?_⟩
  obtain ⟨hcells, hfirst, hlater⟩ := htexts hmax
  refine ⟨by rw [hcells]; simp, ?_, by rwa [laterFields_cons hx]⟩
  rw [List.takeWhile_cons_of_pos (by simpa using hx), ← hfirst, List.cons_append, cstr_cons h0]

theorem run {y : UInt8} (hy0 : y ≠ 0) (hy : y ≠ sep) (k : Nat)
    (h : SplitsTo sep max (num + 1)
      (pre ++ (if num < max then 0 else sep) :: (List.replicate k sep ++ [y])) u
      (if num < max then strings ++ [pre.length + 1 + k] else strings) r) :
    SplitsTo sep max num pre (sep :: (List.replicate k sep ++ y :: u)) strings r := by
  obtain ⟨hcut, hrun⟩ := h
  have hlast := getLast?_behind hy (sep :: List.replicate k sep) u
  rw [List.cons_append] at hlast
  rw [SplitsTo, hlast]
  refine ⟨hcut, fun hne => ?_⟩
  obtain ⟨s, u', hr, hnum, htexts⟩ := hrun hne
  rw [laterFields_run k hy, List.length_cons]
  refine ⟨s, (if num < max then 0 else sep) :: (List.replicate k sep ++ y :: u'), hr, by omega,
    fun hmax => ?_⟩
  obtain ⟨hcells, hfirst, later, hstrings, hlater⟩ := htexts hmax
  have hfit : num < max := by omega
  rw [if_pos hfit] at hcells hstrings ⊢
  refine ⟨by rw [hcells]; simp, ?_, (pre.length + 1 + k) :: later,
    by rw [hstrings, List.append_assoc, List.singleton_append], ?_⟩
  · simp [cstr]
  · have hdrop : s.cells.drop (pre.length + 1 + k) = y :: (u' ++ [0]) := by
      have happ : s.cells = (pre ++ 0 :: List.replicate k sep) ++ (y :: (u' ++ [0])) := by
        rw [hcells]
        simp
      rw [happ]
      exact List.drop_left' (by simp; omega)
    rw [List.map_cons, hlater, Split.stringAt, hdrop, cstr_cons hy0, hfirst]

end SplitsTo

/-- The loop on the text from `c` on. -/
theorem splitLoop_eq (hsep : sep ≠ 0) (h0 : 0 ∉ t) (hn : t.length < n) :
    SplitsTo sep max num pre t strings
      (splitLoop sep max n pre.length ⟨pre ++ (t ++ [0]), strings, num⟩) := by
  induction hlen : t.length using Nat.strong_induction_on generalizing t pre strings num n with
  | h m ih =>
    subst hlen
    obtain ⟨n, rfl⟩ := Nat.exists_eq_succ_of_ne_zero (Nat.ne_zero_of_lt hn)
    match t with
    | [] =>
      refine ⟨fun h => (by cases h), fun _ => ⟨⟨pre ++ [0], strings, num⟩, [], ?_, rfl, fun _ => ?_⟩⟩
      · rw [splitLoop, List.nil_append, getElem?_cell]
        rfl
      · exact ⟨rfl, rfl, [], (List.append_nil _).symm, rfl⟩
    | x :: t =>
      rw [List.mem_cons, not_or] at h0
      rw [List.length_cons] at hn
      by_cases hx : x = sep
      · subst hx
        obtain ⟨k, rfl | ⟨y, u, hy, rfl⟩⟩ := run_cases x t
        · -- the byte behind the run is the terminator
          have hlast : (x :: List.replicate k x).getLast? = some x := by
            rw [← List.replicate_succ, List.getLast?_replicate, if_neg (Nat.succ_ne_zero k)]
          refine ⟨fun _ => ?_, fun h => absurd hlast h⟩
          rw [List.cons_append, splitLoop_run hsep hsep.symm k pre []]
          cases n with
          | zero => rfl
          | succ n => simp [splitLoop]
        · have hu : 0 ∉ u := fun h => h0.2 (by simp [h])
          have hy0 : y ≠ 0 := fun h => h0.2 (by simp [h])
          rw [List.length_append, List.length_cons] at hn
          apply SplitsTo.run hy0 hy
          rw [List.cons_append, List.append_assoc, List.cons_append, splitLoop_run hsep hy]
          apply ih u.length (by simp; omega) hu (by omega) rfl
      · apply SplitsTo.other (Ne.symm h0.1) hx
        rw [List.cons_append, splitLoop_other (Ne.symm h0.1) hx]
        exact ih t.length (by simp) h0.2 (by omega) rfl

end Loop

/-- A text that ends with a separator is read past its terminator; of another one the fields
are returned, as long as there is room for all of them. -/
theorem strSplit_eq {sep : UInt8} {s : Bytes} (hsep : sep ≠ 0) (h0 : 0 ∉ s) (max : Nat) :
    (s.getLast? = some sep → strSplit s sep max = none) ∧
    (¬ s.getLast? = some sep → ∃ r, strSplit s sep max = some r ∧
      r.num = (runFields sep s).length ∧
        (r.num ≤ max → r.strings.map r.stringAt = runFields sep s)) := by
  obtain ⟨hcut, hrun⟩ := @splitLoop_eq sep max 1 (s.length + 1) [] s [0] hsep h0 (by omega)
  refine ⟨hcut, fun hne => ?_⟩
  obtain ⟨r, t', hr, hnum, htexts⟩ := hrun hne
  refine ⟨r, hr, by rw [hnum, runFields, List.length_cons, Nat.add_comm], fun hmax => ?_⟩
  obtain ⟨hcells, hfirst, later, hstrings, hlater⟩ := htexts hmax
  rw [hstrings, List.singleton_append, List.map_cons, hlater, runFields, ← hfirst, Split.stringAt,
    hcells]
  rfl

end Doorhinges.AisGet

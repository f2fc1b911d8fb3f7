import Doorhinges.AdBody.Template
import Doorhinges.AisGet.StrSplit
import Doorhinges.Lib.Columns
import Mathlib.Logic.Function.Basic

/-!
# SDK versions

`sdkver_handler` splits `status|t1,t2,...` twice and keeps the types it knows. It is right
unless `str_split` steps over a terminator or finds more fields than its array has places.
-/
namespace Doorhinges.AisGet

open AdBody (Text)
open Lib.CString
open Lib.Columns
open Query (cstr)

def MAX_DEMLI : Nat := 1024

/-- `ConvertSupportType`, which takes an unsigned short. -/
def convertSupportType (supportType : Int) : Option Bytes :=
  match Int.toNat (supportType % 2 ^ 16) with
  | 1 => some (ascii "tag:type:web")
  | 2 => some (ascii "tag:type:app")
  | 4 => some (ascii "tag:type:full")
  | 5 => some (ascii "tag:type:call")
  | _ => none

inductive Ret where
  | success
  | nofind
  | disabled
  deriving DecidableEq

/-- The number returned, `*buf` as an offset, and what `ver_array` and `*rs` hold. -/
structure Handled where
  ret : Ret
  buf : Nat
  verArray : Nat → Option Bytes
  rs : Nat

/-- The loop over the `n` fields from the `i`-th on; the result is `ver_array` and `ndemli`.
No result stands for an access outside `parray` or `ver_array`. -/
def convertLoop (r : Split) : Nat → Nat → (Nat → Option Bytes) → Nat →
    Option ((Nat → Option Bytes) × Nat)
  | 0, _, ver, ndemli => some (ver, ndemli)
  | n + 1, i, ver, ndemli => do
    let p ← r.strings[i]?
    match convertSupportType (atoi (r.stringAt p)) with
    | some tp =>
      if ndemli + 1 < MAX_DEMLI then
        convertLoop r n (i + 1) (Function.update ver (ndemli + 1) (some tp)) (ndemli + 1)
      else none
    | none => convertLoop r n (i + 1) ver ndemli

def sdkverHandler (sdkver : Bytes) (buf : Nat) (verArray : Nat → Option Bytes) (rs : Nat) :
    Option Handled := do
  let r ← strSplit sdkver 124 MAX_DEMLI
  if r.num ≠ 2 then some ⟨.nofind, buf, verArray, rs⟩
  else do
    let status ← r.strings[0]?
    let types ← r.strings[1]?
    if (r.stringAt status).head? = some 48 then some ⟨.disabled, buf, verArray, rs⟩
    else if r.stringAt types = [] then some ⟨.nofind, buf, verArray, rs⟩
    else do
      let copy := r.stringAt types
      let r ← strSplit copy 44 MAX_DEMLI
      let (ver, ndemli) ← convertLoop r r.num 0 verArray 0
      some ⟨if ndemli = 0 then .nofind else .success, buf + copy.length + 1, ver, ndemli⟩

/-- The names of the types that have one. -/
def names (ts : List Bytes) : List Bytes := ts.filterMap fun t => convertSupportType (atoi t)

/-- The string is split without a read behind it or outside an array, and with success only
where it has its form; then the array holds the names of its types, from 1 on. -/
def SplitRight (sdkver : Bytes) : Prop :=
  ∀ (buf : Nat) (verArray : Nat → Option Bytes) (rs : Nat), ∃ h,
    sdkverHandler sdkver buf verArray rs = some h ∧
      (h.ret = .success → ∃ status ts, sdkver = status ++ 124 :: joined 44 ts ∧
        status.head? ≠ some 48 ∧ ts ≠ [] ∧ (∀ t ∈ ts, 44 ∉ t ∧ 124 ∉ t) ∧
          h.rs = (names ts).length ∧ 1 ≤ h.rs ∧ h.rs < MAX_DEMLI ∧
            ∀ j < h.rs, h.verArray (j + 1) = (names ts)[j]?)

/-- The types do not end with a comma, and the fields and their names fit the arrays. -/
def TypesFit (types : Bytes) : Prop :=
  types.getLast? ≠ some 44 ∧ (runFields 44 types).length ≤ MAX_DEMLI ∧
    (names (runFields 44 types)).length < MAX_DEMLI

/-- The string does not end with a bar, and where it has two fields of which the first does not
begin with `0`, the second one fits. -/
def Splittable (sdkver : Bytes) : Prop :=
  sdkver.getLast? ≠ some 124 ∧ ∀ status types, runFields 124 sdkver = [status, types] →
    status.head? ≠ some 48 → TypesFit types

section Strings

variable {sep : UInt8} {max : Nat}

/-- The strings that have found a place. -/
theorem length_splitLoop {n c : Nat} {s r : Split} (hs : s.strings.length = min s.num max)
    (h : splitLoop sep max n c s = some r) : r.strings.length = min r.num max := by
  induction n generalizing c s with
  | zero => cases h
  | succ n ih =>
    rw [splitLoop] at h
    obtain ⟨b, -, h⟩ := Option.bind_eq_some_iff.1 h
    split at h
    · obtain rfl := Option.some.inj h
      exact hs
    · split at h
      · obtain ⟨c', -, h⟩ := Option.bind_eq_some_iff.1 h
        refine ih ?_ h
        dsimp only
        split
        · rw [List.length_append, List.length_singleton, hs]
          omega
        · omega
      · exact ih hs h

theorem length_strings {s : Bytes} {r : Split} (hmax : 1 ≤ max) (h : strSplit s sep max = some r) :
    r.strings.length = min r.num max :=
  length_splitLoop (by change 1 = min 1 max; omega) h

end Strings

section Convert

variable {r : Split}

/-- More fields than places. -/
theorem convertLoop_beyond {n i : Nat} {ver : Nat → Option Bytes} {ndemli : Nat}
    (hi : i ≤ r.strings.length) (h : r.strings.length < i + n) :
    convertLoop r n i ver ndemli = none := by
  induction n generalizing i ver ndemli with
  | zero => omega
  | succ n ih =>
    rw [convertLoop]
    cases hget : r.strings[i]? with
    | none => rfl
    | some p =>
      have hlt := (List.getElem?_eq_some_iff.1 hget).1
      rw [Option.bind_eq_bind, Option.bind_some]
      split
      · split
        · exact ih hlt (by omega)
        · rfl
      · exact ih hlt (by omega)

/-- The names are put behind those that are there, as long as they fit. -/
theorem convertLoop_eq {texts : List Bytes} {i : Nat} {ver : Nat → Option Bytes} {ndemli : Nat}
    (h : (r.strings.drop i).map r.stringAt = texts) (hlt : ndemli < MAX_DEMLI) :
    (MAX_DEMLI ≤ ndemli + (names texts).length →
      convertLoop r texts.length i ver ndemli = none) ∧
    (ndemli + (names texts).length < MAX_DEMLI → ∃ ver',
      convertLoop r texts.length i ver ndemli = some (ver', ndemli + (names texts).length) ∧
        (∀ k ≤ ndemli, ver' k = ver k) ∧
          ∀ j < (names texts).length, ver' (ndemli + 1 + j) = (names texts)[j]?) := by
  induction texts generalizing i ver ndemli with
  | nil =>
    refine ⟨fun hle => absurd hle (by simp [names]; omega), fun _ => ⟨ver, rfl, fun _ _ => rfl, ?_⟩⟩
    intro j hj
    exact absurd hj (Nat.not_lt_zero j)
  | cons t texts ih =>
    have hi : i < r.strings.length := by
      by_contra hge
      rw [List.drop_of_length_le (by omega)] at h
      cases h
    rw [List.drop_eq_getElem_cons hi, List.map_cons] at h
    obtain ⟨ht, hrest⟩ := List.cons.inj h
    rw [List.length_cons, convertLoop, List.getElem?_eq_getElem hi, Option.bind_eq_bind,
      Option.bind_some, ht]
    cases hname : convertSupportType (atoi t) with
    | none =>
      have hnames : names (t :: texts) = names texts := List.filterMap_cons_none hname
      rw [hnames]
      exact ih hrest hlt
    | some tp =>
      have hnames : names (t :: texts) = tp :: names texts := List.filterMap_cons_some hname
      rw [hnames, List.length_cons]
      dsimp only
      by_cases hfit : ndemli + 1 < MAX_DEMLI
      · rw [if_pos hfit]
        obtain ⟨hfull, hroom⟩ := @ih (i + 1) (Function.update ver (ndemli + 1) (some tp))
          (ndemli + 1) hrest hfit
        refine ⟨fun hle => hfull (by omega), fun hle => ?_⟩
        obtain ⟨ver', hrun, hbelow, hnew⟩ := hroom (by omega)
        refine ⟨ver', by rw [hrun, Nat.add_assoc, Nat.add_comm 1], fun k hk => ?_, fun j hj => ?_⟩
        · rw [hbelow k (by omega), Function.update_of_ne (by omega)]
        · cases j with
          | zero => rw [Nat.add_zero, hbelow _ le_rfl, Function.update_self, List.getElem?_cons_zero]
          | succ j =>
            rw [List.getElem?_cons_succ, ← hnew j (by omega)]
            exact congrArg ver' (by omega)
      · rw [if_neg hfit]
        exact ⟨fun _ => rfl, fun hle => absurd hle (by omega)⟩

end Convert

section Form

variable {sep : UInt8} {s a b : Bytes}

/-- The last separator of a text. -/
theorem exists_last (h : sep ∈ s) : ∃ a b, s = a ++ sep :: b ∧ sep ∉ b := by
  obtain ⟨b, a, hab, hb⟩ := List.eq_append_cons_of_mem (List.mem_reverse.2 h)
  refine ⟨a.reverse, b.reverse, ?_, fun hm => hb (List.mem_reverse.1 hm)⟩
  rw [← List.reverse_reverse s, hab]
  simp

theorem laterFields_append (hne : b ≠ []) (hb : sep ∉ b) :
    laterFields sep (a ++ sep :: b) = laterFields sep a ++ [b] := by
  rw [laterFields, List.splitOn_append_cons_self, List.splitOn_eq_singleton hb,
    List.tail_append_of_ne_nil (List.splitOn_ne_nil _ _), List.filter_append, laterFields]
  simp [hne]

theorem laterFields_of_not_mem (h : sep ∉ s) : laterFields sep s = [] := by
  rw [laterFields, List.splitOn_eq_singleton h]
  rfl

/-- The second of two fields is what follows the last separator. -/
theorem two_fields {status types : Bytes} (h : runFields sep s = [status, types])
    (hlast : s.getLast? ≠ some sep) :
    ∃ a, s = a ++ sep :: types ∧ sep ∉ types ∧ types ≠ [] ∧
      (sep ≠ 48 → a.head? = some 48 → status.head? = some 48) := by
  obtain ⟨hstatus, hlater⟩ := List.cons.inj h
  have hmem : sep ∈ s := by
    by_contra hnot
    rw [laterFields_of_not_mem hnot] at hlater
    cases hlater
  obtain ⟨a, b, rfl, hb⟩ := exists_last hmem
  have hne : b ≠ [] := by
    rintro rfl
    exact hlast (by simp)
  rw [laterFields_append hne hb, ← List.nil_append [types]] at hlater
  obtain ⟨-, hbt⟩ := List.append_inj' hlater rfl
  obtain rfl := List.singleton_inj.1 hbt
  refine ⟨a, rfl, hb, hne, fun hsep hhead => ?_⟩
  obtain ⟨a', rfl⟩ := List.head?_eq_some_iff.1 hhead
  rw [← hstatus, List.cons_append, List.takeWhile_cons_of_pos (by simpa using hsep.symm)]
  rfl

/-- Empty fields have no name. -/
theorem names_runFields (s : Bytes) : names (runFields sep s) = names (s.splitOn sep) := by
  have hskip : ∀ l : List Bytes, names (l.filter (· ≠ [])) = names l := by
    intro l
    rw [names, names, List.filterMap_filter]
    refine List.filterMap_congr fun t _ => ?_
    by_cases ht : t = []
    · subst ht
      rfl
    · simp [ht]
  conv_rhs => rw [splitOn_eq]
  rw [runFields, names, names, List.filterMap_cons, List.filterMap_cons, laterFields]
  rw [← names, hskip, names]

end Form

section Handler

variable {s status types : Bytes} {buf rs : Nat} {verArray : Nat → Option Bytes}

/-- What follows the first split. -/
def handleTypes (types : Bytes) (buf : Nat) (verArray : Nat → Option Bytes) : Option Handled := do
  let r ← strSplit types 44 MAX_DEMLI
  let (ver, ndemli) ← convertLoop r r.num 0 verArray 0
  some ⟨if ndemli = 0 then .nofind else .success, buf + types.length + 1, ver, ndemli⟩

theorem handleTypes_none (h0 : 0 ∉ types) (h : ¬ TypesFit types) :
    handleTypes types buf verArray = none := by
  obtain ⟨hcut, hrun⟩ := @strSplit_eq 44 types (by decide) h0 MAX_DEMLI
  rw [handleTypes]
  by_cases hlast : types.getLast? = some 44
  · rw [hcut hlast]
    rfl
  · obtain ⟨r, hr, hnum, htexts⟩ := hrun hlast
    have hlen := length_strings (by decide) hr
    rw [hr, Option.bind_eq_bind, Option.bind_some]
    by_cases hmax : r.num ≤ MAX_DEMLI
    · have hnames : MAX_DEMLI ≤ 0 + (names (runFields 44 types)).length := by
        by_contra hlt
        exact h ⟨hlast, hnum ▸ hmax, by omega⟩
      rw [hnum, (@convertLoop_eq r _ 0 verArray 0 (htexts hmax) (by decide)).1 hnames]
      rfl
    · rw [convertLoop_beyond (Nat.zero_le _) (by omega)]
      rfl

theorem handleTypes_some (h0 : 0 ∉ types) (h : TypesFit types) : ∃ ver,
    handleTypes types buf verArray =
      some ⟨if (names (types.splitOn 44)).length = 0 then .nofind else .success,
        buf + types.length + 1, ver, (names (types.splitOn 44)).length⟩ ∧
      ∀ j < (names (types.splitOn 44)).length, ver (j + 1) = (names (types.splitOn 44))[j]? := by
  obtain ⟨hlast, hfields, hnames⟩ := h
  obtain ⟨-, hrun⟩ := @strSplit_eq 44 types (by decide) h0 MAX_DEMLI
  obtain ⟨r, hr, hnum, htexts⟩ := hrun hlast
  obtain ⟨ver, hconvert, -, hver⟩ := (@convertLoop_eq r _ 0 verArray 0
    (htexts (hnum ▸ hfields)) (by decide)).2 (by omega)
  rw [names_runFields, Nat.zero_add] at hconvert hver
  refine ⟨ver, ?_, fun j hj => ?_⟩
  · rw [handleTypes, hr, Option.bind_eq_bind, Option.bind_some, hnum, hconvert]
    rfl
  · rw [← hver j hj]
    exact congrArg ver (by omega)

theorem handler_two (h0 : 0 ∉ s) (hlast : s.getLast? ≠ some 124)
    (h : runFields 124 s = [status, types]) :
    sdkverHandler s buf verArray rs =
      if status.head? = some 48 then some ⟨.disabled, buf, verArray, rs⟩
      else handleTypes types buf verArray := by
  obtain ⟨-, hrun⟩ := @strSplit_eq 124 s (by decide) h0 MAX_DEMLI
  obtain ⟨r, hr, hnum, htexts⟩ := hrun hlast
  obtain ⟨-, -, -, hne, -⟩ := two_fields h hlast
  rw [h] at hnum htexts
  have htwo : r.num = 2 := hnum
  have hstrings := htexts (by rw [htwo]; decide)
  match hplaces : r.strings, hstrings with
  | [p, q], hstrings =>
    obtain ⟨hp, hq⟩ := List.cons.inj hstrings
    have hq := List.singleton_inj.1 hq
    rw [sdkverHandler, hr, Option.bind_eq_bind, Option.bind_some, if_neg (by rw [htwo]; decide),
      hplaces]
    simp only [List.getElem?_cons_zero, List.getElem?_cons_succ, Option.bind_eq_bind,
      Option.bind_some, hp, hq, hne, if_false]
    rfl

/-- Other than two fields. -/
theorem handler_other (h0 : 0 ∉ s) (hlast : s.getLast? ≠ some 124)
    (h : (runFields 124 s).length ≠ 2) :
    sdkverHandler s buf verArray rs = some ⟨.nofind, buf, verArray, rs⟩ := by
  obtain ⟨-, hrun⟩ := @strSplit_eq 124 s (by decide) h0 MAX_DEMLI
  obtain ⟨r, hr, hnum, -⟩ := hrun hlast
  rw [sdkverHandler, hr, Option.bind_eq_bind, Option.bind_some, if_pos (hnum ▸ h)]

end Handler

/-- The version strings that are handled right. -/
theorem sdkver_split_iff (sdkver : Text) : SplitRight sdkver ↔ Splittable sdkver := by
  obtain ⟨s, h0⟩ := sdkver
  change SplitRight s ↔ Splittable s
  by_cases hlast : s.getLast? = some 124
  · -- the first split steps over the terminator
    have hcut := (@strSplit_eq 124 s (by decide) h0 MAX_DEMLI).1 hlast
    refine iff_of_false (fun h => ?_) fun h => h.1 hlast
    obtain ⟨r, hr, -⟩ := h 0 (fun _ => none) 0
    rw [sdkverHandler, hcut] at hr
    cases hr
  · by_cases htwo : (runFields 124 s).length = 2
    · obtain ⟨status, types, h⟩ := List.length_eq_two.1 htwo
      obtain ⟨a, hs, htypes, -, hhead⟩ := two_fields h hlast
      have h0types : 0 ∉ types := fun hm => h0 (by rw [hs]; simp [hm])
      by_cases hstatus : status.head? = some 48
      · constructor
        · intro _
          refine ⟨hlast, fun status' types' h' hne => ?_⟩
          rw [h] at h'
          obtain ⟨rfl, -⟩ := List.cons.inj h'
          exact absurd hstatus hne
        · intro _ buf verArray rs
          refine ⟨_, by rw [handler_two h0 hlast h, if_pos hstatus], fun hret => ?_⟩
          cases hret
      · constructor
        · intro hright
          refine ⟨hlast, fun status' types' h' _ => ?_⟩
          rw [h] at h'
          obtain ⟨-, hrest⟩ := List.cons.inj h'
          obtain rfl := List.singleton_inj.1 hrest
          by_contra hfit
          obtain ⟨r, hr, -⟩ := hright 0 (fun _ => none) 0
          rw [handler_two h0 hlast h, if_neg hstatus, handleTypes_none h0types hfit] at hr
          cases hr
        · intro hsplit buf verArray rs
          have hfit := hsplit.2 status types h hstatus
          obtain ⟨ver, hrun, hver⟩ := @handleTypes_some types buf verArray h0types hfit
          refine ⟨_, by rw [handler_two h0 hlast h, if_neg hstatus, hrun], fun hret => ?_⟩
          have hpos : (names (types.splitOn 44)).length ≠ 0 := by
            intro hzero
            rw [hzero] at hret
            cases hret
          have hsmall := hfit.2.2
          rw [names_runFields] at hsmall
          refine ⟨a, types.splitOn 44, ?_, fun hzero => hstatus (hhead (by decide) hzero),
            List.splitOn_ne_nil _ _, fun t ht => ?_, rfl, by dsimp only; omega, hsmall, hver⟩
          · rw [joined, List.intercalate_splitOn, ← hs]
          · have hbar : ∀ t ∈ types.splitOn 44, ∀ x ∈ t, x ≠ 124 := by
              rw [← forall_mem_joined (fun x : UInt8 => x ≠ 124) (show (44 : UInt8) ≠ 124 by decide), joined,
                List.intercalate_splitOn]
              rintro x hx rfl
              exact htypes hx
            exact ⟨not_mem_of_mem_splitOn ht, fun hm => hbar t ht 124 hm rfl⟩
    · refine iff_of_true (fun buf verArray rs => ?_) ⟨hlast, fun status types h _ => ?_⟩
      · exact ⟨_, handler_other h0 hlast htwo, fun hret => (by cases hret)⟩
      · rw [h] at htwo
        exact absurd rfl htwo

example : (sdkverHandler (ascii "1|5,x,,2") 7 (fun _ => none) 0).map
    (fun h => (h.ret, h.buf, h.verArray 1, h.verArray 2, h.rs)) =
      some (.success, 14, some (ascii "tag:type:call"), some (ascii "tag:type:app"), 2) :=
  rfl

/-- A version string whose list of types ends with a comma. -/
theorem not_splitRight : ¬ SplitRight (ascii "1|1,2,") := by
  intro h
  obtain ⟨r, hr, -⟩ := h 0 (fun _ => none) 0
  have hnone : (sdkverHandler (ascii "1|1,2,") 0 (fun _ => none) 0).isSome = false := by
    decide
  rw [hr] at hnone
  cases hnone

end Doorhinges.AisGet

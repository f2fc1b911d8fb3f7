import Doorhinges.Lib.Bump
import Doorhinges.Params.Stored

/-!
# The parameter buffer

The record of a request points into a buffer of its connection, which `ais_ad_set` fills
from the front. Here the copies of the switch are writes to that buffer; what a successful
run leaves there are the decoded values, each in a place of its own.
-/
namespace Doorhinges.Params

open Lib.CString
open Lib.Bump
open Query

/-- `ais_adparams` with the buffer behind the connection. -/
structure Record where
  ap : Ap
  buf : Buffer Param UInt8

/-- What `my_strlcpy` writes: `strncpy` pads with zero bytes, and the last byte is set. -/
def myStrlcpy (src : Bytes) (len : Nat) : Bytes :=
  (cstr src ++ List.replicate len 0).take len ++ [0]

section Record

variable (p : Param) (var : Bytes)

/-- `buf.last` is `adparams_buf_last`. -/
def Record.runMacro (r : Record) : Macro → Record × Bool
  | .copy =>
    let s := Params.runMacro p var r.ap .copy
    (⟨s.1, if s.2 then r.buf.push p (myStrlcpy var var.length) else r.buf⟩, s.2)
  | m => (⟨(Params.runMacro p var r.ap m).1, r.buf⟩, (Params.runMacro p var r.ap m).2)

def Record.runMacros : Record → List Macro → Record × Bool
  | r, [] => (r, true)
  | r, m :: ms =>
    let s := r.runMacro p var m
    if s.2 then Record.runMacros s.1 ms else s

def Record.setParam (r : Record) : Record × Bool :=
  match emptyText p with
  | some s =>
    if var = [] then
      ({ r with ap := { r.ap with text := Function.update r.ap.text p (some s) } }, true)
    else r.runMacros p var (macros p)
  | none => r.runMacros p var (macros p)

def Record.setKnown (r : Record) : Record × Bool :=
  if p ∈ r.ap.flags then (r, false)
  else
    let s := Record.setParam p var { r with ap := { r.ap with code := .parametrerNotfull } }
    if s.2 then ({ s.1 with ap := { s.1.ap with flags := p :: s.1.ap.flags } }, true) else s

end Record

def Record.setToken (r : Record) (pk : Bytes) : Record × Bool :=
  match nameOf pk with
  | none => (r, true)
  | some key =>
    match aisGetVar pk key 2048 with
    | none => ({ r with ap := { r.ap with code := .parameterContainingIllegalCharacters } }, false)
    | some var =>
      let r := { r with ap := r.ap.keep (aisGetMask key) pk var }
      match aisGetMask key with
      | none => (r, true)
      | some p => r.setKnown p var

def Record.setTokens : Record → List Bytes → Record × Bool
  | r, [] => (r, true)
  | r, pk :: pks =>
    let s := r.setToken pk
    if s.2 then Record.setTokens s.1 pks else s

/-- `reset_per_request_attributes`. -/
def Record.start (mem : Bytes) : Record := ⟨.start, ⟨mem, 0, []⟩⟩

def Record.aisAdSet (r : Record) (s : Bytes) : Record × Bool := r.setTokens (tokens s)

/-- The string at the place of a copy. -/
def Record.string (r : Record) (c : Region Param UInt8) : Bytes := cstr (r.buf.mem.drop c.start)

section Erase

/-- Without the buffer it is the record of before. -/
def Record.erase (s : Record × Bool) : Ap × Bool := (s.1.ap, s.2)

variable (p : Param) (var : Bytes) (r : Record)

theorem erase_runMacro (m : Macro) :
    Record.erase (r.runMacro p var m) = runMacro p var r.ap m := by
  cases m <;> rfl

theorem erase_runMacros (ms : List Macro) :
    Record.erase (r.runMacros p var ms) = runMacros p var r.ap ms := by
  induction ms generalizing r with
  | nil => rfl
  | cons m ms ih =>
    have hm := erase_runMacro p var r m
    rw [Record.runMacros, runMacros, ← hm]
    dsimp only [Record.erase]
    split
    · rename_i hok
      exact (ih _).trans (if_pos hok).symm
    · rename_i hok
      exact (if_neg hok).symm

theorem erase_setParam : Record.erase (r.setParam p var) = setParam r.ap p var := by
  rw [Record.setParam, setParam]
  cases emptyText p with
  | none => exact erase_runMacros ..
  | some s =>
    dsimp only
    split
    · rfl
    · exact erase_runMacros ..

theorem erase_setKnown : Record.erase (r.setKnown p var) = setKnown r.ap p var := by
  rw [Record.setKnown, setKnown]
  split
  · rfl
  · have hs := erase_setParam p var { r with ap := { r.ap with code := .parametrerNotfull } }
    rw [← hs]
    dsimp only [Record.erase]
    split <;> rfl

theorem erase_setToken (pk : Bytes) : Record.erase (r.setToken pk) = setToken r.ap pk := by
  rw [Record.setToken, setToken]
  cases nameOf pk with
  | none => rfl
  | some key =>
    dsimp only
    cases aisGetVar pk key 2048 with
    | none => rfl
    | some var =>
      dsimp only
      cases aisGetMask key with
      | none => rfl
      | some p => exact erase_setKnown ..

theorem erase_setTokens (pks : List Bytes) :
    Record.erase (r.setTokens pks) = setTokens r.ap pks := by
  induction pks generalizing r with
  | nil => rfl
  | cons pk pks ih =>
    have hpk := erase_setToken r pk
    rw [Record.setTokens, setTokens, ← hpk]
    dsimp only [Record.erase]
    split
    · rename_i hok
      exact (ih _).trans (if_pos hok).symm
    · rename_i hok
      exact (if_neg hok).symm

end Erase

section Text

theorem length_myStrlcpy (var : Bytes) : (myStrlcpy var var.length).length = var.length + 1 := by
  simp [myStrlcpy]

/-- A decoded value may hold zero bytes; the string ends at the first. -/
theorem cstr_myStrlcpy (var rest : Bytes) :
    cstr (myStrlcpy var var.length ++ rest) = cstr var := by
  have hlen := length_cstr_le var
  have hblock : myStrlcpy var var.length ++ rest =
      cstr var ++ 0 :: (List.replicate (var.length - (cstr var).length) 0 ++ rest) := by
    rw [myStrlcpy, List.take_append, List.take_of_length_le hlen, List.take_replicate,
      Nat.min_eq_left (Nat.sub_le ..), List.append_assoc, List.append_assoc,
      ← List.cons_append, ← List.replicate_succ, List.replicate_succ', List.append_assoc]
  rw [hblock, cstr, List.takeWhile_append_of_pos]
  · simp
  · intro c hc
    simpa using List.mem_takeWhile_imp hc

theorem myStrlcpy_last (var : Bytes) : (myStrlcpy var var.length)[var.length]? = some 0 := by
  have hlen : ((cstr var ++ List.replicate var.length 0).take var.length).length = var.length := by
    simp
  rw [myStrlcpy, List.getElem?_append_right hlen.le, hlen, Nat.sub_self]
  rfl

end Text

section Limits

/-- What the switch demands of a text: its greatest length, and digits only. -/
structure Limits (p : Param) (text : Bytes) : Prop where
  length : ∀ len, Macro.overlongError len ∈ macros p → text.length ≤ len
  digits : Macro.alldigOrError ∈ macros p → alldig text
  digitsOrEmpty : Macro.alldigUnlessEmpty ∈ macros p → text = [] ∨ alldig text

theorem limits_of_passes {p : Param} {var : Bytes} (h : ∀ m ∈ macros p, m.passes var) :
    Limits p (cstr var) where
  length len hm := by
    have hle : var.length ≤ len := by simpa [Macro.passes] using h _ hm
    exact (length_cstr_le var).trans hle
  digits hm := by simpa [Macro.passes] using h _ hm
  digitsOrEmpty hm := by
    have hvar : var = [] ∨ alldig (cstr var) := by simpa [Macro.passes] using h _ hm
    refine hvar.imp_left fun hnil => ?_
    rw [hnil]
    rfl

theorem runMacros_passes {p : Param} {var : Bytes} {c : Ap} {ms : List Macro}
    (h : (runMacros p var c ms).2) : ∀ m ∈ ms, m.passes var := by
  induction ms generalizing c with
  | nil => simp
  | cons m ms ih =>
    rw [runMacros] at h
    split at h
    · rename_i hok
      refine List.forall_mem_cons.2 ⟨?_, ih h⟩
      cases m with
      | copy => rfl
      | «where» code => rfl
      | _ => exact hok
    · rename_i hok
      exact absurd h hok

end Limits

section Switch

variable {p : Param} {var : Bytes} {r s : Record}

/-- The pointer of the record stands where the buffer is free. -/
structure Record.Wf (r : Record) : Prop where
  laid : Laid r.buf
  size : r.buf.mem.length = MAX_REQUEST_BUF_SIZE
  last : r.ap.last = r.buf.last

/-- A copy of a value whose text the record then has for its parameter. -/
def Record.Copied (p : Param) (var : Bytes) (r : Record) (c : Region Param UInt8) : Prop :=
  c.tag = p ∧ c.block = myStrlcpy var var.length ∧ r.ap.text p = some (cstr var)

/-- What the case of a parameter does to the buffer. -/
structure Grows (p : Param) (var : Bytes) (r s : Record) : Prop where
  wf : s.Wf
  regions : ∀ c ∈ s.buf.regions, c ∈ r.buf.regions ∨ s.Copied p var c
  kept : ∀ c ∈ r.buf.regions, c ∈ s.buf.regions

theorem grows_refl (h : r.Wf) : Grows p var r r := ⟨h, fun _ hc => Or.inl hc, fun _ hc => hc⟩

theorem runMacro_grows (h : r.Wf) (m : Macro) : Grows p var r (r.runMacro p var m).1 := by
  cases m with
  | copy =>
    by_cases hroom : MAX_REQUEST_BUF_SIZE < r.ap.last + var.length + 2
    · have hcopy : runMacro p var r.ap .copy = (r.ap, false) := if_pos hroom
      rw [Record.runMacro, hcopy]
      exact grows_refl h
    · have hcopy : runMacro p var r.ap .copy =
          ({ r.ap with
              text := Function.update r.ap.text p (some (cstr var))
              last := r.ap.last + var.length + 1 }, true) := if_neg hroom
      have hlen := length_myStrlcpy var
      have hfits : r.buf.last + (myStrlcpy var var.length).length ≤ r.buf.mem.length := by
        rw [hlen, h.size, ← h.last]
        omega
      rw [Record.runMacro, hcopy]
      refine ⟨⟨h.laid.push hfits, (length_push hfits).trans h.size, ?_⟩, ?_,
        fun c hc => List.mem_cons_of_mem _ hc⟩
      · show r.ap.last + var.length + 1 = r.buf.last + (myStrlcpy var var.length).length
        rw [hlen, h.last]
        rfl
      · refine List.forall_mem_cons.2 ⟨Or.inr ⟨rfl, rfl, ?_⟩, fun c hc => Or.inl hc⟩
        exact Function.update_self ..
  | _ => exact ⟨⟨h.laid, h.size, h.last⟩, fun c hc => Or.inl hc, fun _ hc => hc⟩

/-- A macro that does not copy leaves the text of its parameter alone, and one that does
gives it the same text again. -/
theorem runMacro_text {c : Ap} (m : Macro) (h : c.text p = some (cstr var)) :
    (runMacro p var c m).1.text p = some (cstr var) := by
  cases m with
  | copy =>
    rw [runMacro]
    split
    · exact h
    · exact Function.update_self ..
  | _ => exact h

theorem runMacros_grows (ms : List Macro) (h : r.Wf) :
    Grows p var r (r.runMacros p var ms).1 ∧
      (r.ap.text p = some (cstr var) → (r.runMacros p var ms).1.ap.text p = some (cstr var)) := by
  induction ms generalizing r with
  | nil => exact ⟨grows_refl h, id⟩
  | cons m ms ih =>
    have hm : Grows p var r (r.runMacro p var m).1 := runMacro_grows h m
    have htext : r.ap.text p = some (cstr var) →
        (r.runMacro p var m).1.ap.text p = some (cstr var) := by
      have herase := congrArg Prod.fst (erase_runMacro p var r m)
      change (r.runMacro p var m).1.ap = _ at herase
      rw [herase]
      exact runMacro_text m
    rw [Record.runMacros]
    split
    · obtain ⟨hms, htext'⟩ := ih hm.wf
      refine ⟨⟨hms.wf, fun c hc => ?_, fun c hc => hms.kept c (hm.kept c hc)⟩,
        fun hr => htext' (htext hr)⟩
      rcases hms.regions c hc with hold | hnew
      · exact (hm.regions c hold).imp_right fun hnew =>
          ⟨hnew.1, hnew.2.1, htext' hnew.2.2⟩
      · exact Or.inr hnew
    · exact ⟨hm, htext⟩

/-- A case that gets to its end has made a copy. -/
theorem runMacros_copies {ms : List Macro} (h : r.Wf) (hms : Macro.copy ∈ ms)
    (hok : (r.runMacros p var ms).2) : ∃ c ∈ (r.runMacros p var ms).1.buf.regions, c.tag = p := by
  induction ms generalizing r with
  | nil => cases hms
  | cons m ms ih =>
    have hm : Grows p var r (r.runMacro p var m).1 := runMacro_grows h m
    rw [Record.runMacros] at hok ⊢
    split at hok
    · rename_i hgoes
      rw [if_pos hgoes]
      rcases List.mem_cons.1 hms with rfl | hmem
      · refine ⟨⟨p, r.buf.last, myStrlcpy var var.length⟩, ?_, rfl⟩
        apply (runMacros_grows ms hm.wf).1.kept
        have hcopied : (Params.runMacro p var r.ap .copy).2 := hgoes
        show _ ∈ Buffer.regions
          (if (Params.runMacro p var r.ap .copy).2 then _ else _ : Buffer Param UInt8)
        rw [if_pos hcopied]
        exact List.mem_cons_self
      · exact ih hm.wf hmem hok
    · rename_i hstops
      exact absurd hok hstops

/-- The parameter has a copy, or its value is empty and a constant text stands for it. -/
def Record.Has (p : Param) (var : Bytes) (r : Record) : Prop :=
  (∃ c ∈ r.buf.regions, c.tag = p) ∨ var = [] ∧ (emptyText p).isSome ∧ r.ap.text p = emptyText p

/-- What a case that finds no error leaves. -/
structure Leaves (p : Param) (var : Bytes) (r s : Record) : Prop where
  wf : s.Wf
  regions : ∀ c ∈ s.buf.regions, c ∈ r.buf.regions ∨
    s.Copied p var c ∧ ∀ m ∈ macros p, m.passes var
  kept : ∀ c ∈ r.buf.regions, c ∈ s.buf.regions
  there : s.Has p var

/-- A case that finds no error has checked all it demands of a value it has copied. -/
theorem setParam_leaves (h : r.Wf) (hok : (r.setParam p var).2) :
    Leaves p var r (r.setParam p var).1 := by
  have hrun : (r.runMacros p var (macros p)).2 →
      Leaves p var r (r.runMacros p var (macros p)).1 := by
    intro hok
    have hgrows : Grows p var r (r.runMacros p var (macros p)).1 :=
      (runMacros_grows (macros p) h).1
    have herase := congrArg Prod.snd (erase_runMacros p var r (macros p))
    have hpasses := runMacros_passes (herase.symm.trans hok)
    exact ⟨hgrows.wf, fun c hc => (hgrows.regions c hc).imp_right fun hnew => ⟨hnew, hpasses⟩,
      hgrows.kept, Or.inl (runMacros_copies h (copy_mem_macros p) hok)⟩
  rw [Record.setParam] at hok ⊢
  cases hempty : emptyText p with
  | none =>
    rw [hempty] at hok
    exact hrun hok
  | some s =>
    rw [hempty] at hok
    dsimp only at hok ⊢
    split at hok
    · rename_i hvar
      rw [if_pos hvar]
      refine ⟨⟨h.laid, h.size, h.last⟩, fun c hc => Or.inl hc, fun _ hc => hc,
        Or.inr ⟨hvar, ?_, ?_⟩⟩
      · rw [hempty]
        rfl
      · rw [hempty]
        exact Function.update_self ..
    · rename_i hvar
      rw [if_neg hvar]
      exact hrun hok

end Switch

section Loop

/-- The parameter a token is for. -/
def paramOf (pk : Bytes) : Option Param := (nameOf pk).bind aisGetMask

/-- The value of a token once it is decoded. -/
def decodedOf (pk : Bytes) : Option Bytes := (nameOf pk).bind fun key => aisGetVar pk key 2048

/-- A copy is the decoded value of one of the tokens, and passes the checks of its case. -/
def Record.Carries (pks : List Bytes) (r : Record) (c : Region Param UInt8) : Prop :=
  ∃ pk ∈ pks, ∃ var, paramOf pk = some c.tag ∧ decodedOf pk = some var ∧
    r.Copied c.tag var c ∧ ∀ m ∈ macros c.tag, m.passes var

/-- What holds once the tokens have been taken. -/
structure Parsed (pks : List Bytes) (r : Record) : Prop where
  wf : r.Wf
  carries : ∀ c ∈ r.buf.regions, r.Carries pks c
  flags : ∀ p, p ∈ r.ap.flags ↔ p ∈ pks.filterMap paramOf
  once : (pks.filterMap paramOf).Nodup
  there : ∀ pk ∈ pks, ∀ p var, paramOf pk = some p → decodedOf pk = some var → r.Has p var

variable {pks : List Bytes} {pk : Bytes} {p : Param} {var : Bytes} {r s : Record}

/-- Another token that is for no parameter. -/
theorem Parsed.skip (h : Parsed pks r) (hbuf : s.buf = r.buf) (htext : s.ap.text = r.ap.text)
    (hlast : s.ap.last = r.ap.last) (hflags : s.ap.flags = r.ap.flags) (hpk : paramOf pk = none) :
    Parsed (pks ++ [pk]) s := by
  have hsame : (pks ++ [pk]).filterMap paramOf = pks.filterMap paramOf := by
    simp [List.filterMap_append, hpk]
  refine ⟨⟨?_, ?_, ?_⟩, ?_, ?_, ?_, ?_⟩
  · rw [hbuf]
    exact h.wf.laid
  · rw [hbuf]
    exact h.wf.size
  · rw [hbuf, hlast]
    exact h.wf.last
  · intro c hc
    rw [hbuf] at hc
    obtain ⟨pk', hmem, var, hparam, hval, ⟨htag, hblock, hc'⟩, hpass⟩ := h.carries c hc
    refine ⟨pk', List.mem_append_left _ hmem, var, hparam, hval, ⟨htag, hblock, ?_⟩, hpass⟩
    rw [htext]
    exact hc'
  · intro p
    rw [hsame, hflags]
    exact h.flags p
  · rw [hsame]
    exact h.once
  · intro pk' hpk' p var hparam hval
    rw [Record.Has, hbuf, htext]
    rcases List.mem_append.1 hpk' with hold | hnew
    · exact h.there pk' hold p var hparam hval
    · rw [List.mem_singleton.1 hnew, hpk] at hparam
      cases hparam

/-- A token for a parameter that has not come yet. -/
theorem Parsed.known (h : Parsed pks r) (hparam : paramOf pk = some p)
    (hval : decodedOf pk = some var) (hok : (r.setKnown p var).2) :
    Parsed (pks ++ [pk]) (r.setKnown p var).1 := by
  rw [Record.setKnown] at hok ⊢
  split at hok
  · cases hok
  · rename_i hp
    rw [if_neg hp]
    dsimp only at hok ⊢
    split at hok
    · rename_i hset
      rw [if_pos hset]
      have hwf : Record.Wf { r with ap := { r.ap with code := .parametrerNotfull } } :=
        ⟨h.wf.laid, h.wf.size, h.wf.last⟩
      have herase := congrArg Prod.fst (erase_setParam p var
        { r with ap := { r.ap with code := .parametrerNotfull } })
      change (Record.setParam p var { r with ap := { r.ap with code := .parametrerNotfull } }).1.ap =
        (setParam { r.ap with code := .parametrerNotfull } p var).1 at herase
      have hframe := setParam_framed { r.ap with code := .parametrerNotfull } p var
      rw [← herase] at hframe
      obtain ⟨hwf', hregions, hkept, hthere⟩ := setParam_leaves hwf hset
      generalize Record.setParam p var { r with ap := { r.ap with code := .parametrerNotfull } } = s
        at hframe hwf' hregions hkept hthere
      have hsame : (pks ++ [pk]).filterMap paramOf = pks.filterMap paramOf ++ [p] := by
        simp [List.filterMap_append, hparam]
      have hnew : p ∉ pks.filterMap paramOf := fun hmem => hp ((h.flags p).2 hmem)
      refine ⟨⟨hwf'.laid, hwf'.size, hwf'.last⟩, fun c hc => ?_, fun q => ?_, ?_, ?_⟩
      · rcases hregions c hc with hold | ⟨⟨htag, hblock, htext⟩, hpass⟩
        · obtain ⟨pk', hmem, var', hparam', hval', ⟨htag, hblock, htext⟩, hpass⟩ := h.carries c hold
          have hne : c.tag ≠ p := by
            intro heq
            exact hnew (List.mem_filterMap.2 ⟨pk', hmem, heq ▸ hparam'⟩)
          exact ⟨pk', List.mem_append_left _ hmem, var', hparam', hval',
            ⟨htag, hblock, (hframe.others c.tag hne).trans htext⟩, hpass⟩
        · refine ⟨pk, List.mem_append_right _ List.mem_cons_self, var, ?_, hval, ⟨rfl, hblock, ?_⟩, ?_⟩
          · rw [htag]
            exact hparam
          · rw [htag]
            exact htext
          · rw [htag]
            exact hpass
      · rw [hsame, List.mem_append, List.mem_singleton]
        show q ∈ p :: s.1.ap.flags ↔ _
        rw [hframe.flags, List.mem_cons, or_comm]
        exact or_congr_left (h.flags q)
      · rw [hsame]
        refine List.nodup_append.2 ⟨h.once, List.pairwise_singleton _ p, fun q hq q' hq' hqq => ?_⟩
        rw [List.mem_singleton] at hq'
        exact hnew (hq' ▸ hqq ▸ hq)
      · intro pk' hpk' q var' hparam' hval'
        rcases List.mem_append.1 hpk' with hold | hlast
        · have hne : q ≠ p := by
            intro heq
            exact hnew (List.mem_filterMap.2 ⟨pk', hold, heq ▸ hparam'⟩)
          rcases h.there pk' hold q var' hparam' hval' with ⟨c, hc, htag⟩ | ⟨hvar', hsome, htext⟩
          · exact Or.inl ⟨c, hkept c hc, htag⟩
          · exact Or.inr ⟨hvar', hsome, (hframe.others q hne).trans htext⟩
        · obtain rfl := List.mem_singleton.1 hlast
          obtain rfl := Option.some.inj (hparam.symm.trans hparam')
          obtain rfl := Option.some.inj (hval.symm.trans hval')
          exact hthere
    · rename_i hset
      exact absurd hok hset

theorem setToken_parsed (h : Parsed pks r) (hok : (r.setToken pk).2) :
    Parsed (pks ++ [pk]) (r.setToken pk).1 := by
  rw [Record.setToken] at hok ⊢
  cases hname : nameOf pk with
  | none => exact h.skip rfl rfl rfl rfl (by rw [paramOf, hname]; rfl)
  | some key =>
    rw [hname] at hok
    dsimp only at hok ⊢
    cases hvar : aisGetVar pk key 2048 with
    | none =>
      rw [hvar] at hok
      cases hok
    | some var =>
      rw [hvar] at hok
      dsimp only at hok ⊢
      have hval : decodedOf pk = some var := by
        rw [decodedOf, hname]
        exact hvar
      have hparam : paramOf pk = aisGetMask key := by
        rw [paramOf, hname]
        rfl
      obtain ⟨htext, hflags, hlast⟩ := keep_eq r.ap (aisGetMask key) pk var
      generalize r.ap.keep (aisGetMask key) pk var = ap at hok htext hflags hlast ⊢
      cases hmask : aisGetMask key with
      | none => exact h.skip rfl htext hlast hflags (hparam.trans hmask)
      | some p =>
        rw [hmask] at hok
        have hkept : Parsed pks { r with ap := ap } := by
          refine ⟨⟨h.wf.laid, h.wf.size, hlast.trans h.wf.last⟩, fun c hc => ?_, fun q => ?_,
            h.once, fun pk' hpk' q var' hparam' hval' => ?_⟩
          · obtain ⟨pk', hmem, var', hparam', hval', ⟨htag, hblock, hc'⟩, hpass⟩ := h.carries c hc
            exact ⟨pk', hmem, var', hparam', hval', ⟨htag, hblock, (congrFun htext _).trans hc'⟩, hpass⟩
          · show q ∈ ap.flags ↔ _
            rw [hflags]
            exact h.flags q
          · rw [Record.Has]
            dsimp only
            rw [htext]
            exact h.there pk' hpk' q var' hparam' hval'
        exact hkept.known (hparam.trans hmask) hval hok

theorem setTokens_parsed (more : List Bytes) (h : Parsed pks r) (hok : (r.setTokens more).2) :
    Parsed (pks ++ more) (r.setTokens more).1 := by
  induction more generalizing pks r with
  | nil => rwa [List.append_nil]
  | cons pk more ih =>
    rw [Record.setTokens] at hok ⊢
    split at hok
    · rename_i hpk
      rw [if_pos hpk]
      have hmore := ih (setToken_parsed h hpk) hok
      rwa [List.append_assoc] at hmore
    · rename_i hpk
      exact absurd hok hpk

theorem parsed_start {mem : Bytes} (hmem : mem.length = MAX_REQUEST_BUF_SIZE) :
    Parsed [] (.start mem) :=
  ⟨⟨laid_empty mem, hmem, rfl⟩, by simp [Record.start], by simp [Record.start, Ap.start],
    List.nodup_nil, fun _ hpk => (by cases hpk)⟩

end Loop

section Main

/-- The record after an accepted line. -/
structure Sound (s : Bytes) (r : Record) : Prop where
  inside : ∀ c ∈ r.buf.regions, c.stop ≤ MAX_REQUEST_BUF_SIZE
  terminated : ∀ c ∈ r.buf.regions, 0 < c.block.length ∧ r.buf.mem[c.stop - 1]? = some 0
  apart : r.buf.regions.Pairwise Region.Apart
  value : ∀ c ∈ r.buf.regions, ∃ pk ∈ tokens s, ∃ var, paramOf pk = some c.tag ∧
    decodedOf pk = some var ∧ r.string c = cstr var ∧ r.ap.text c.tag = some (r.string c) ∧
    Limits c.tag (r.string c) ∧ ∀ m ∈ macros c.tag, m.passes var
  flags : ∀ p, p ∈ r.ap.flags ↔ ∃ pk ∈ tokens s, paramOf pk = some p
  once : ((tokens s).filterMap paramOf).Nodup
  there : ∀ pk ∈ tokens s, ∀ p var, paramOf pk = some p → decodedOf pk = some var → r.Has p var

theorem Parsed.string {pks : List Bytes} {r : Record} (h : Parsed pks r)
    {c : Region Param UInt8} (hc : c ∈ r.buf.regions) {var : Bytes}
    (hblock : c.block = myStrlcpy var var.length) : r.string c = cstr var := by
  obtain ⟨rest, hrest⟩ := h.wf.laid.drop_start hc
  rw [Record.string, hrest, hblock]
  exact cstr_myStrlcpy var rest

/-- The last byte of a copy ends its string. -/
theorem Parsed.terminated {pks : List Bytes} {r : Record} (h : Parsed pks r)
    {c : Region Param UInt8} (hc : c ∈ r.buf.regions) {var : Bytes}
    (hblock : c.block = myStrlcpy var var.length) :
    0 < c.block.length ∧ r.buf.mem[c.stop - 1]? = some 0 := by
  have hlen : c.block.length = var.length + 1 := by rw [hblock, length_myStrlcpy]
  have hlast : c.stop - 1 = c.start + var.length := by
    rw [Region.stop, hlen]
    rfl
  obtain ⟨rest, hrest⟩ := h.wf.laid.drop_start hc
  refine ⟨by omega, ?_⟩
  rw [hlast, ← List.getElem?_drop, hrest, List.getElem?_append_left (by omega), hblock]
  exact myStrlcpy_last var

/-- Whatever the line and whatever the buffer held before, what a successful `ais_ad_set`
leaves is sound. -/
theorem adSet_sound (mem s : Bytes) (hmem : mem.length = MAX_REQUEST_BUF_SIZE)
    (hok : ((Record.start mem).aisAdSet s).2) : Sound s ((Record.start mem).aisAdSet s).1 := by
  have h : Parsed (tokens s) ((Record.start mem).aisAdSet s).1 :=
    setTokens_parsed (tokens s) (parsed_start hmem) hok
  generalize ((Record.start mem).aisAdSet s).1 = r at h
  refine ⟨fun c hc => ?_, fun c hc => ?_, h.wf.laid.apart, fun c hc => ?_, fun p => ?_, h.once,
    h.there⟩
  · rw [← h.wf.size]
    exact (h.wf.laid.inside c hc).trans h.wf.laid.room
  · obtain ⟨-, -, var, -, -, ⟨-, hblock, -⟩, -⟩ := h.carries c hc
    exact h.terminated hc hblock
  · obtain ⟨pk, hpk, var, hparam, hval, ⟨-, hblock, htext⟩, hpass⟩ := h.carries c hc
    have hstring := h.string hc hblock
    refine ⟨pk, hpk, var, hparam, hval, hstring, htext.trans (by rw [hstring]), ?_, hpass⟩
    rw [hstring]
    exact limits_of_passes hpass
  · rw [h.flags, List.mem_filterMap]

theorem adSet_sound_one :
    ((Record.start (List.replicate MAX_REQUEST_BUF_SIZE 1)).aisAdSet
      (ascii "a&Aw=320&x=y&Net=&AppName=a%2Cb")).2 ∧
    Sound (ascii "a&Aw=320&x=y&Net=&AppName=a%2Cb")
      ((Record.start (List.replicate MAX_REQUEST_BUF_SIZE 1)).aisAdSet
        (ascii "a&Aw=320&x=y&Net=&AppName=a%2Cb")).1 := by
  have hok : ((Record.start (List.replicate MAX_REQUEST_BUF_SIZE 1)).aisAdSet
      (ascii "a&Aw=320&x=y&Net=&AppName=a%2Cb")).2 := by
    have herase := congrArg Prod.snd (erase_setTokens
      (.start (List.replicate MAX_REQUEST_BUF_SIZE 1))
      (tokens (ascii "a&Aw=320&x=y&Net=&AppName=a%2Cb")))
    refine herase.trans ?_
    show (setTokens .start _).2 = true
    decide
  exact ⟨hok, adSet_sound _ _ List.length_replicate hok⟩

end Main

end Doorhinges.Params

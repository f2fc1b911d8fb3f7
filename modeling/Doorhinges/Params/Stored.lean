import Doorhinges.Params.Line

/-!
# Twice decoded values

The switch of `ais_ad_set` gets what a second decoding leaves of a value. The texts
stored are the values given exactly as long as no value that is stored is changed by it.
-/
namespace Doorhinges.Params

open Lib.CString
open Query

/-- An escape stands in the text. -/
def escaped : Bytes → Bool
  | c :: a :: b :: rest => c = 37 && isXDigit a && isXDigit b || escaped (a :: b :: rest)
  | _ => false

/-- Nothing in the value is a marker, an ampersand, a plus sign, a comma or an escape. -/
def Clean (v : Bytes) : Prop :=
  ¬ marker <:+: v ∧ 38 ∉ v ∧ 43 ∉ v ∧ 44 ∉ v ∧ escaped v = false

instance (v : Bytes) : Decidable (Clean v) :=
  inferInstanceAs (Decidable (¬ marker <:+: v ∧ 38 ∉ v ∧ 43 ∉ v ∧ 44 ∉ v ∧ escaped v = false))

section Clean

theorem cutMarker_eq_iff (v : Bytes) : cutMarker v = v ↔ ¬ marker <:+: v := by
  induction v with
  | nil => exact iff_of_true rfl (by decide)
  | cons c v ih => rw [cutMarker_cons_eq, ih, List.infix_cons_iff, not_or]

theorem plainByte_eq_iff (c : UInt8) : plainByte true true c = c ↔ 43 ≠ c ∧ 44 ≠ c := by
  rw [ne_comm, ne_comm (a := 44)]
  by_cases h43 : c = 43
  · subst h43
    decide
  · by_cases h44 : c = 44
    · subst h44
      decide
    · simp [plainByte, h43, h44]

/-- A text the second decoder leaves as it is. -/
theorem decode_eq_iff (v : Bytes) :
    decode true true v = v ↔ 43 ∉ v ∧ 44 ∉ v ∧ escaped v = false := by
  fun_induction decode true true v with
  | case1 => simp [escaped]
  | case2 c =>
    rw [List.cons.injEq, plainByte_eq_iff]
    simp [escaped]
  | case3 c a =>
    rw [List.cons.injEq, List.cons.injEq, plainByte_eq_iff, plainByte_eq_iff]
    simp only [escaped, List.mem_cons, List.not_mem_nil, or_false, not_or, and_true]
    tauto
  | case4 c a b rest h ih =>
    refine iff_of_false (fun heq => ?_) fun hv => by simp [escaped, h] at hv
    -- an escape makes the text shorter
    have hlen := length_decode_le true true rest
    have := congrArg List.length heq
    simp only [List.length_cons] at this
    omega
  | case5 c a b rest h ih =>
    have hesc : escaped (c :: a :: b :: rest) = escaped (a :: b :: rest) := by
      rw [escaped, Bool.eq_false_iff.2 h, Bool.false_or]
    rw [List.cons.injEq, plainByte_eq_iff, ih, hesc]
    simp only [List.mem_cons, not_or]
    tauto

theorem clean_iff (v : Bytes) :
    Clean v ↔ (cutMarker v = v ∧ 38 ∉ v) ∧ decode true true v = v := by
  rw [Clean, cutMarker_eq_iff, decode_eq_iff, and_assoc]

end Clean

section Checks

def Macro.isCopy : Macro → Bool
  | .copy => true
  | _ => false

/-- What a macro asks of the value. -/
def Macro.passes (var : Bytes) : Macro → Bool
  | .where _ => true
  | .lenOrError => var ≠ []
  | .overlongError len => var.length ≤ len
  | .alldigOrError => alldig (cstr var)
  | .alldigUnlessEmpty => var = [] || alldig (cstr var)
  | .ipOrError => isIpAdress (cstr var)
  | .copy => true
  | .nonzeroOrError => atoi (cstr var) ≠ 0

/-- The checks of a parameter in front of its copy. -/
def before (p : Param) : List Macro := (macros p).takeWhile fun m => !m.isCopy

def after (p : Param) : List Macro := ((macros p).dropWhile fun m => !m.isCopy).tail

/-- A constant stands for the value. -/
def Defaults (p : Param) (var : Bytes) : Prop := var = [] ∧ (emptyText p).isSome

/-- The switch stores a text for the parameter. -/
def Reaches (p : Param) (var : Bytes) : Prop :=
  Defaults p var ∨ (before p).all (·.passes var)

/-- The switch finds no error. -/
def Accepts (p : Param) (var : Bytes) : Prop :=
  Defaults p var ∨ (macros p).all (·.passes var)

instance (p : Param) (var : Bytes) : Decidable (Reaches p var) :=
  inferInstanceAs (Decidable ((var = [] ∧ (emptyText p).isSome) ∨ (before p).all (·.passes var)))

instance (p : Param) (var : Bytes) : Decidable (Accepts p var) :=
  inferInstanceAs (Decidable ((var = [] ∧ (emptyText p).isSome) ∨ (macros p).all (·.passes var)))

/-- The text it stores. -/
def stored (p : Param) (var : Bytes) : Bytes := if var = [] then (emptyText p).getD [] else cstr var

theorem macros_eq (p : Param) :
    macros p = before p ++ Macro.copy :: after p ∧ (∀ m ∈ before p, m.isCopy = false) ∧
      ∀ m ∈ after p, m.isCopy = false := by
  have h : (after p).all (!·.isCopy) := by cases p <;> rfl
  refine ⟨by cases p <;> rfl, fun m hm => ?_, fun m hm => ?_⟩
  · simpa using List.mem_takeWhile_imp hm
  · simpa using List.all_eq_true.1 h m hm

theorem copy_mem_macros (p : Param) : Macro.copy ∈ macros p := by
  rw [(macros_eq p).1]
  exact List.mem_append_right _ List.mem_cons_self

theorem Accepts.reaches {p : Param} {var : Bytes} (h : Accepts p var) : Reaches p var := by
  refine h.imp_right fun hall => List.all_eq_true.2 fun m hm => List.all_eq_true.1 hall m ?_
  rw [(macros_eq p).1]
  exact List.mem_append_left _ hm

end Checks

section Switch

variable {c : Ap} {p : Param} {var : Bytes}

/-- Only the parameter's own text changes. -/
structure Framed (c : Ap) (p : Param) (d : Ap) : Prop where
  others : ∀ q, q ≠ p → d.text q = c.text q
  flags : d.flags = c.flags

theorem runMacro_framed (m : Macro) : Framed c p (runMacro p var c m).1 := by
  cases m with
  | copy =>
    rw [runMacro]
    split
    · exact ⟨fun _ _ => rfl, rfl⟩
    · exact ⟨fun q hq => Function.update_of_ne hq .., rfl⟩
  | _ => exact ⟨fun _ _ => rfl, rfl⟩

theorem runMacros_framed (ms : List Macro) : Framed c p (runMacros p var c ms).1 := by
  induction ms generalizing c with
  | nil => exact ⟨fun _ _ => rfl, rfl⟩
  | cons m ms ih =>
    have hm : Framed c p (runMacro p var c m).1 := runMacro_framed m
    rw [runMacros]
    split
    · have hms := ih (c := (runMacro p var c m).1)
      exact ⟨fun q hq => (hms.others q hq).trans (hm.others q hq), hms.flags.trans hm.flags⟩
    · exact hm

theorem setParam_framed (c : Ap) (p : Param) (var : Bytes) : Framed c p (setParam c p var).1 := by
  rw [setParam]
  cases emptyText p with
  | none => exact runMacros_framed _
  | some s =>
    dsimp only
    split
    · exact ⟨fun q hq => Function.update_of_ne hq .., rfl⟩
    · exact runMacros_framed _

/-- Checks change nothing but the code of the answer. -/
theorem runMacros_checks (p : Param) (var : Bytes) {ms : List Macro} (hms : ∀ m ∈ ms, m.isCopy = false) :
    (runMacros p var c ms).1.text = c.text ∧ (runMacros p var c ms).1.last = c.last ∧
      (runMacros p var c ms).2 = ms.all (·.passes var) := by
  induction ms generalizing c with
  | nil => exact ⟨rfl, rfl, rfl⟩
  | cons m ms ih =>
    obtain ⟨hm, hms⟩ := List.forall_mem_cons.1 hms
    have hstep : (runMacro p var c m).1.text = c.text ∧ (runMacro p var c m).1.last = c.last ∧
        (runMacro p var c m).2 = m.passes var := by
      cases m <;> first | exact ⟨rfl, rfl, rfl⟩ | cases hm
    obtain ⟨htext, hlast, hok⟩ := hstep
    rw [runMacros, List.all_cons, hok]
    cases hpass : m.passes var with
    | false => exact ⟨htext, hlast, hok.trans hpass⟩
    | true =>
      obtain ⟨htext', hlast', hok'⟩ := ih (c := (runMacro p var c m).1) hms
      exact ⟨htext'.trans htext, hlast'.trans hlast, hok'⟩

theorem runMacros_append (a b : List Macro) : runMacros p var c (a ++ b) =
    if (runMacros p var c a).2 then runMacros p var (runMacros p var c a).1 b
    else runMacros p var c a := by
  induction a generalizing c with
  | nil => rfl
  | cons m a ih =>
    rw [List.cons_append, runMacros, runMacros, ih]
    cases h : (runMacro p var c m).2 with
    | false => simp [h]
    | true => rfl

/-- What one case of the switch does where the value fits the parameter buffer. -/
structure Stores (c : Ap) (p : Param) (var : Bytes) (r : Ap × Bool) : Prop where
  text : r.1.text p = if Reaches p var then some (stored p var) else c.text p
  last : r.1.last ≤ c.last + var.length + 1
  accepts : r.2 ↔ Accepts p var

theorem runMacros_stores (hroom : c.last + var.length + 2 ≤ MAX_REQUEST_BUF_SIZE)
    (hdef : ¬ Defaults p var) : Stores c p var (runMacros p var c (macros p)) := by
  obtain ⟨heq, hbefore, hafter⟩ := macros_eq p
  have hreach : Reaches p var ↔ (before p).all (·.passes var) := or_iff_right hdef
  have haccept : Accepts p var ↔ (macros p).all (·.passes var) := or_iff_right hdef
  have hstored : stored p var = cstr var := by
    rw [stored]
    split
    · rename_i hvar
      have hnone : emptyText p = none := by simpa [Defaults, hvar] using hdef
      rw [hnone, hvar]
      rfl
    · rfl
  obtain ⟨htext, hlast, hok⟩ := runMacros_checks p var (c := c) hbefore
  rw [heq] at haccept ⊢
  rw [runMacros_append, hok]
  cases hpass : (before p).all (·.passes var) with
  | false =>
    refine ⟨?_, ?_, ?_⟩
    · rw [if_neg (by simp), if_neg (by simp [hreach, hpass]), htext]
    · rw [if_neg (by simp), hlast]
      omega
    · rw [if_neg (by simp), hok, haccept, List.all_append, hpass]
      simp
  | true =>
    have hcopy : runMacro p var (runMacros p var c (before p)).1 .copy =
        ({ (runMacros p var c (before p)).1 with
            text := Function.update c.text p (some (cstr var))
            last := c.last + var.length + 1 }, true) := by
      rw [runMacro, if_neg (by rw [hlast]; omega), htext, hlast]
    obtain ⟨htext', hlast', hok'⟩ := runMacros_checks p var
      (c := (runMacro p var (runMacros p var c (before p)).1 .copy).1) hafter
    rw [if_pos rfl, runMacros, if_pos (by rw [hcopy])]
    refine ⟨?_, ?_, ?_⟩
    · rw [htext', hcopy, if_pos (hreach.2 hpass), hstored]
      exact Function.update_self ..
    · rw [hlast', hcopy]
    · rw [hok', haccept, List.all_append, List.all_cons, hpass]
      simp [Macro.passes]

theorem setParam_stores (hroom : c.last + var.length + 2 ≤ MAX_REQUEST_BUF_SIZE) :
    Stores c p var (setParam c p var) := by
  rw [setParam]
  cases hempty : emptyText p with
  | none => exact runMacros_stores hroom (by simp [Defaults, hempty])
  | some s =>
    dsimp only
    split
    · rename_i hvar
      have hdef : Defaults p var := ⟨hvar, by simp [hempty]⟩
      refine ⟨?_, by dsimp only; omega, iff_of_true rfl (Or.inl hdef)⟩
      have hreach : Reaches p var := Or.inl hdef
      rw [if_pos hreach, stored, if_pos hvar, hempty]
      exact Function.update_self ..
    · rename_i hvar
      exact runMacros_stores hroom fun hdef => hvar hdef.1

end Switch

section Loop

variable {c : Ap} {p : Param}

theorem keep_eq (c : Ap) (p : Option Param) (pk var : Bytes) :
    (c.keep p pk var).text = c.text ∧ (c.keep p pk var).flags = c.flags ∧
      (c.keep p pk var).last = c.last := by
  rw [Ap.keep]
  split <;> exact ⟨rfl, rfl, rfl⟩

/-- A parameter that has its flag keeps it and its text. -/
theorem setKnown_keeps (h : p ∈ c.flags) (q : Param) (var : Bytes) :
    p ∈ (setKnown c q var).1.flags ∧ (setKnown c q var).1.text p = c.text p := by
  rw [setKnown]
  split
  · exact ⟨h, rfl⟩
  · rename_i hq
    have hpq : p ≠ q := fun hpq => hq (hpq ▸ h)
    have hs := setParam_framed { c with code := .parametrerNotfull } q var
    have hflags : p ∈ (setParam { c with code := .parametrerNotfull } q var).1.flags := by
      rw [hs.flags]
      exact h
    dsimp only
    split
    · exact ⟨List.mem_cons_of_mem _ hflags, hs.others p hpq⟩
    · exact ⟨hflags, hs.others p hpq⟩

theorem setToken_keeps (h : p ∈ c.flags) (pk : Bytes) :
    p ∈ (setToken c pk).1.flags ∧ (setToken c pk).1.text p = c.text p := by
  rw [setToken]
  cases nameOf pk with
  | none => exact ⟨h, rfl⟩
  | some key =>
    dsimp only
    cases aisGetVar pk key 2048 with
    | none => exact ⟨h, rfl⟩
    | some var =>
      obtain ⟨htext, hflags, -⟩ := keep_eq c (aisGetMask key) pk var
      dsimp only
      rw [← hflags] at h
      rw [← htext]
      generalize c.keep (aisGetMask key) pk var = d at h
      cases aisGetMask key with
      | none => exact ⟨h, rfl⟩
      | some q => exact setKnown_keeps h q var

theorem setTokens_keeps (pks : List Bytes) (h : p ∈ c.flags) :
    (setTokens c pks).1.text p = c.text p := by
  induction pks generalizing c with
  | nil => rfl
  | cons pk pks ih =>
    obtain ⟨hflags, htext⟩ := setToken_keeps h pk
    rw [setTokens]
    split
    · exact (ih hflags).trans htext
    · exact htext

/-- What `ais_get_var` makes of a value that is in the line as it is. -/
def taken (v : Bytes) : Bytes := decode true true (seen v)

/-- The parameter gets a text. -/
def Reached (q : Param × Bytes) : Prop := (seen q.2).length < 2048 ∧ Reaches q.1 (taken q.2)

/-- The loop goes on behind the parameter. -/
def Accepted (q : Param × Bytes) : Prop := (seen q.2).length < 2048 ∧ Accepts q.1 (taken q.2)

instance (q : Param × Bytes) : Decidable (Reached q) :=
  inferInstanceAs (Decidable ((seen q.2).length < 2048 ∧ Reaches q.1 (taken q.2)))

instance (q : Param × Bytes) : Decidable (Accepted q) :=
  inferInstanceAs (Decidable ((seen q.2).length < 2048 ∧ Accepts q.1 (taken q.2)))

theorem Accepted.reached {q : Param × Bytes} (h : Accepted q) : Reached q :=
  ⟨h.1, h.2.reaches⟩

theorem length_taken_le (v : Bytes) : (taken v).length ≤ v.length :=
  (length_decode_le ..).trans (prefix_seen v).length_le

/-- What the token of a parameter that has not come yet does. -/
structure Sets (c : Ap) (p : Param) (v : Bytes) (r : Ap × Bool) : Prop where
  others : ∀ q, q ≠ p → r.1.text q = c.text q
  text : r.1.text p = if Reached (p, v) then some (stored p (taken v)) else c.text p
  last : r.1.last ≤ c.last + v.length + 1
  accepts : r.2 ↔ Accepted (p, v)
  flags : r.2 → r.1.flags = p :: c.flags

theorem setToken_pair (h : p ∉ c.flags) (v : Bytes)
    (hroom : c.last + v.length + 2 ≤ MAX_REQUEST_BUF_SIZE) :
    Sets c p v (setToken c (pair (p, seen v))) := by
  obtain ⟨hmask, -, heq, -, -, hlen, hgroup, -⟩ := name_facts p
  have hle := length_taken_le v
  rw [setToken, pair, nameOf_append heq hlen]
  dsimp only
  rw [aisGetVar_append (seen_ampersand v) hgroup]
  by_cases hlt : (seen v).length < 2048
  · obtain ⟨htext, hflags, hlast⟩ := keep_eq c (some p) (p.name ++ 61 :: seen v) (taken v)
    have hreached : Reached (p, v) ↔ Reaches p (taken v) := and_iff_right hlt
    have haccepted : Accepted (p, v) ↔ Accepts p (taken v) := and_iff_right hlt
    rw [if_pos hlt]
    dsimp only
    rw [hmask, ← taken]
    dsimp only
    generalize c.keep (some p) (p.name ++ 61 :: seen v) (taken v) = d at htext hflags hlast
    have hframe := setParam_framed { d with code := .parametrerNotfull } p (taken v)
    have hs : Stores { d with code := .parametrerNotfull } p (taken v)
        (setParam { d with code := .parametrerNotfull } p (taken v)) :=
      setParam_stores (by dsimp only; omega)
    rw [setKnown, if_neg (by rw [hflags]; exact h)]
    generalize setParam { d with code := .parametrerNotfull } p (taken v) = r at hframe hs
    have hothers : ∀ q, q ≠ p → r.1.text q = c.text q := fun q hq => by
      rw [hframe.others q hq, htext]
    have hown : r.1.text p = if Reached (p, v) then some (stored p (taken v)) else c.text p := by
      rw [hs.text, if_congr hreached.symm rfl rfl, htext]
    have hbound : r.1.last ≤ c.last + v.length + 1 := hs.last.trans (by dsimp only; omega)
    dsimp only
    split
    · rename_i hok
      exact ⟨hothers, hown, hbound, iff_of_true rfl (haccepted.2 (hs.accepts.1 hok)),
        fun _ => by rw [hframe.flags, hflags]⟩
    · rename_i hok
      exact ⟨hothers, hown, hbound, hs.accepts.trans haccepted.symm, fun hok' => absurd hok' hok⟩
  · rw [if_neg hlt]
    exact ⟨fun _ _ => rfl, by rw [if_neg fun hr => hlt hr.1], by dsimp only; omega,
      iff_of_false (by simp) fun ha => hlt ha.1, fun h => absurd h (by simp)⟩

end Loop

section Stored

/-- A constant for an empty value has nothing to decode. -/
theorem clean_emptyText {p : Param} {s : Bytes} (h : emptyText p = some s) : Clean s := by
  cases p <;> simp only [emptyText, Option.some.injEq, reduceCtorEq] at h <;> subst h <;> decide

/-- A value that is stored as it was given has come whole and unchanged. -/
theorem clean_of_cstr {v : Bytes} (h : cstr (taken v) = v) : Clean v := by
  rw [taken] at h
  have h1 := length_decode_le true true (seen v)
  have h2 := length_cstr_le (decode true true (seen v))
  rw [h] at h2
  have hseen : seen v = v := (prefix_seen v).eq_of_length_le (h2.trans h1)
  rw [hseen] at h h1
  have hpre : cstr (decode true true v) <+: decode true true v := List.takeWhile_prefix _
  rw [h] at hpre
  obtain ⟨hcut, hamp⟩ := (seen_eq_iff v).1 hseen
  exact (clean_iff v).2 ⟨⟨hcut, hamp⟩, (hpre.eq_of_length_le h1).symm⟩

theorem Clean.seen {v : Bytes} (h : Clean v) : seen v = v :=
  (seen_eq_iff v).2 ((clean_iff v).1 h).1

/-- A text that is stored is the value exactly if the value is clean. -/
theorem stored_taken_iff {p : Param} {v : Bytes} (hne : v ≠ []) (hnul : 0 ∉ v) :
    stored p (taken v) = v ↔ Clean v := by
  constructor
  · intro h
    rw [stored] at h
    split at h
    · cases hempty : emptyText p with
      | none =>
        rw [hempty] at h
        exact absurd h.symm hne
      | some s =>
        rw [hempty] at h
        exact h ▸ clean_emptyText hempty
    · exact clean_of_cstr h
  · intro h
    have htaken : taken v = v := by rw [taken, h.seen, ((clean_iff v).1 h).2]
    rw [stored, htaken, if_neg hne, cstr_of_nul hnul]

end Stored

/-- Taken in turn, no parameter that gets a text has a value with anything left to decode. The
walk ends at the first parameter that is refused. -/
def Kept : List (Param × Bytes) → Prop
  | [] => True
  | q :: qs => (Reached q → Clean q.2) ∧ (Accepted q → Kept qs)

section Main

/-- What is left of the room in the parameter buffer does for the rest of the line. -/
theorem room_cons {p : Param} {v : Bytes} {qs : List (Param × Bytes)} {last last' : Nat}
    (h : last + (line ((p, v) :: qs)).length ≤ MAX_REQUEST_BUF_SIZE)
    (hlast : last' ≤ last + v.length + 1) :
    last + v.length + 2 ≤ MAX_REQUEST_BUF_SIZE ∧
      last' + (line qs).length ≤ MAX_REQUEST_BUF_SIZE := by
  obtain ⟨-, hne, -⟩ := name_facts p
  obtain ⟨rest, hline, hrest⟩ := line_cons (p, v) qs
  have hname := List.length_pos_iff.2 hne
  rw [hline, pair, List.length_append, List.length_append, List.length_cons] at h
  dsimp only at h
  refine ⟨by omega, ?_⟩
  rcases hrest with ⟨rfl, rfl⟩ | rfl
  · change last' + 0 ≤ _
    omega
  · rw [List.length_cons] at h
    omega

theorem setTokens_line (qs : List (Param × Bytes)) {c : Ap} (hnd : (qs.map (·.1)).Nodup)
    (hfresh : ∀ q ∈ qs, q.1 ∉ c.flags ∧ c.text q.1 = none)
    (hvalues : ∀ q ∈ qs, q.2 ≠ [] ∧ 0 ∉ q.2)
    (hroom : c.last + (line qs).length ≤ MAX_REQUEST_BUF_SIZE) :
    (∀ p t, (setTokens c (tokens (cutMarker (line qs)))).1.text p = some t →
      c.text p = some t ∨ (p, t) ∈ qs) ↔ Kept qs := by
  induction qs generalizing c with
  | nil => exact ⟨fun _ => trivial, fun _ p t ht => Or.inl ht⟩
  | cons q qs ih =>
    obtain ⟨p, v⟩ := q
    obtain ⟨⟨hflag, hnone⟩, hrest⟩ := List.forall_mem_cons.1 hfresh
    obtain ⟨⟨hne, hnul⟩, hvalues'⟩ := List.forall_mem_cons.1 hvalues
    rw [List.map_cons, List.nodup_cons] at hnd
    obtain ⟨hp, hnd⟩ := hnd
    have hpq : ∀ t, (p, t) ∉ qs := fun t ht => hp (List.mem_map_of_mem (f := (·.1)) ht)
    obtain ⟨more, htokens, hmore⟩ := tokens_line p v qs
    have hsets := setToken_pair hflag v (room_cons hroom le_rfl).1
    rw [htokens, setTokens, Kept]
    generalize setToken c (pair (p, seen v)) = r at hsets ⊢
    -- the token stores the value exactly if it stores nothing or the value is clean
    have hown : (∀ t, r.1.text p = some t → (p, t) ∈ (p, v) :: qs) ↔
        (Reached (p, v) → Clean v) := by
      rw [hsets.text, hnone]
      by_cases hr : Reached (p, v)
      · rw [if_pos hr, ← stored_taken_iff (p := p) hne hnul]
        simp [hr, hpq]
      · simp [hr]
    by_cases hok : r.2
    · have haccepted := hsets.accepts.1 hok
      have hflags := hsets.flags hok
      have hkeep : (setTokens r.1 more).1.text p = r.1.text p :=
        setTokens_keeps more (by rw [hflags]; exact List.mem_cons_self)
      -- the other parameters have not come yet in the state after this token either
      have hrest' : ∀ q ∈ qs, q.1 ∉ r.1.flags ∧ r.1.text q.1 = none := by
        intro q hq
        have hqp : q.1 ≠ p := fun h => hpq q.2 (h ▸ hq)
        rw [hflags, hsets.others q.1 hqp]
        exact ⟨fun h => (List.mem_cons.1 h).elim hqp (hrest q hq).1, (hrest q hq).2⟩
      have hih := ih hnd hrest' hvalues' (room_cons hroom hsets.last).2
      rw [if_pos hok]
      constructor
      · intro hall
        have hclean : Clean v := by
          refine hown.1 (fun t ht => ?_) haccepted.reached
          rcases hall p t (hkeep.trans ht) with h | h
          · rw [hnone] at h
            cases h
          · exact h
        refine ⟨fun _ => hclean, fun _ => hih.1 fun p' t ht => ?_⟩
        rw [← hmore hclean.seen] at ht
        by_cases hpp : p' = p
        · subst hpp
          exact Or.inl (hkeep.symm.trans ht)
        · rcases hall p' t ht with h | h
          · exact Or.inl ((hsets.others p' hpp).trans h)
          · rcases List.mem_cons.1 h with h | h
            · exact absurd (Prod.mk.inj h).1 hpp
            · exact Or.inr h
      · rintro ⟨hclean, hkept⟩ p' t ht
        have hclean := hclean haccepted.reached
        rw [hmore hclean.seen] at ht
        rcases hih.2 (hkept haccepted) p' t ht with h | h
        · by_cases hpp : p' = p
          · subst hpp
            exact Or.inr (hown.2 (fun _ => hclean) t h)
          · exact Or.inl ((hsets.others p' hpp).symm.trans h)
        · exact Or.inr (List.mem_cons_of_mem _ h)
    · have haccepted := fun h => hok (hsets.accepts.2 h)
      rw [if_neg hok]
      constructor
      · intro hall
        refine ⟨hown.1 fun t ht => ?_, fun h => absurd h haccepted⟩
        rcases hall p t ht with h | h
        · rw [hnone] at h
          cases h
        · exact h
      · rintro ⟨hclean, -⟩ p' t ht
        by_cases hpp : p' = p
        · subst hpp
          exact Or.inr (hown.2 hclean t ht)
        · exact Or.inl ((hsets.others p' hpp).symm.trans ht)

/-- The texts `ais_ad_set` stores are the values that were encoded exactly if no value that
gets that far is changed by a second decoding. -/
theorem stored_iff (qs : List (Param × Bytes)) (hnd : (qs.map (·.1)).Nodup)
    (hvalues : ∀ q ∈ qs, q.2 ≠ [] ∧ 0 ∉ q.2)
    (hlen : (line qs).length < MAX_REQUEST_BUF_SIZE) :
    (∀ p t, (aisGet (query qs)).1.text p = some t → (p, t) ∈ qs) ↔ Kept qs := by
  have hline := setTokens_line qs (c := .start) hnd (fun q _ => ⟨List.not_mem_nil, rfl⟩) hvalues
    (by change 0 + _ ≤ _; omega)
  rw [aisGet_query qs (fun q hq => (hvalues q hq).2) hlen, ← hline]
  refine forall_congr' fun p => forall_congr' fun t => imp_congr_right fun _ => ?_
  exact ⟨Or.inr, fun h => h.resolve_left fun h => by cases h⟩

theorem stored_iff_plain :
    (∀ p t, (aisGet (query [(.appName, ascii "a=b"), (.key, ascii "50% ~")])).1.text p = some t →
      (p, t) ∈ [(Param.appName, ascii "a=b"), (.key, ascii "50% ~")]) ∧
      (aisGet (query [(.appName, ascii "a=b"), (.key, ascii "50% ~")])).1.text .key =
        some (ascii "50% ~") := by
  refine ⟨(stored_iff _ (by decide) (by decide) (by decide)).2 ?_, by decide⟩
  exact ⟨fun _ => by decide, fun _ => ⟨fun _ => by decide, fun _ => trivial⟩⟩

/-- An ampersand in a value makes a parameter of its own, and a plus sign a blank. -/
theorem stored_split : ¬ ∀ qs : List (Param × Bytes), (qs.map (·.1)).Nodup →
    (∀ q ∈ qs, q.2 ≠ [] ∧ 0 ∉ q.2) → (line qs).length < MAX_REQUEST_BUF_SIZE →
    ∀ p t, (aisGet (query qs)).1.text p = some t → (p, t) ∈ qs := by
  intro h
  have h := h [(.appName, ascii "a&Key=b+c")] (by decide) (by decide) (by decide) .key
    (ascii "b c") (by decide)
  exact absurd h (by decide)

end Main

end Doorhinges.Params

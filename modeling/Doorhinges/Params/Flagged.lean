import Doorhinges.Params.Buffer

/-!
# Flags and texts

A parameter is flagged once its case has been run to the end, and by then its text is there.
-/
namespace Doorhinges.Params

open Lib.CString
open Query

variable {p : Param} {var : Bytes} {c : Ap}

/-- A parameter that has been set has a text. -/
def Flagged (c : Ap) : Prop := ∀ p ∈ c.flags, (c.text p).isSome

theorem runMacros_keepText {ms : List Macro} (h : c.text p = some (cstr var)) :
    (runMacros p var c ms).1.text p = some (cstr var) := by
  induction ms generalizing c with
  | nil => exact h
  | cons m ms ih =>
    rw [runMacros]
    split
    · exact ih (runMacro_text m h)
    · exact runMacro_text m h

theorem runMacros_sets {ms : List Macro} (hms : Macro.copy ∈ ms)
    (hok : (runMacros p var c ms).2) : (runMacros p var c ms).1.text p = some (cstr var) := by
  induction ms generalizing c with
  | nil => cases hms
  | cons m ms ih =>
    rw [runMacros] at hok ⊢
    split at hok
    · rename_i hm
      rw [if_pos hm]
      rcases List.mem_cons.1 hms with rfl | hmem
      · refine runMacros_keepText ?_
        rw [runMacro] at hm ⊢
        split at hm
        · cases hm
        · rename_i hroom
          rw [if_neg hroom]
          exact Function.update_self ..
      · exact ih hmem hok
    · rename_i hm
      exact absurd hok hm

theorem setParam_text (hok : (setParam c p var).2) : ((setParam c p var).1.text p).isSome := by
  have hrun : (runMacros p var c (macros p)).2 →
      ((runMacros p var c (macros p)).1.text p).isSome := by
    intro hok
    rw [runMacros_sets (copy_mem_macros p) hok]
    rfl
  rw [setParam] at hok ⊢
  cases hempty : emptyText p with
  | none =>
    rw [hempty] at hok
    exact hrun hok
  | some s =>
    rw [hempty] at hok
    dsimp only at hok ⊢
    split at hok
    · rename_i hvar
      rw [if_pos hvar]
      show (Function.update c.text p (some s) p).isSome
      rw [Function.update_self]
      rfl
    · rename_i hvar
      rw [if_neg hvar]
      exact hrun hok

theorem setKnown_flagged (h : Flagged c) (hok : (setKnown c p var).2) :
    Flagged (setKnown c p var).1 := by
  rw [setKnown] at hok ⊢
  split at hok
  · cases hok
  · rename_i hp
    rw [if_neg hp]
    dsimp only at hok ⊢
    split at hok
    · rename_i hset
      rw [if_pos hset]
      have hframe := setParam_framed { c with code := .parametrerNotfull } p var
      have hsets := setParam_text hset
      intro q hq
      rcases List.mem_cons.1 hq with rfl | hq
      · exact hsets
      · by_cases hqp : q = p
        · rw [hqp]
          exact hsets
        · show ((setParam { c with code := .parametrerNotfull } p var).1.text q).isSome
          rw [hframe.others q hqp]
          rw [hframe.flags] at hq
          exact h q hq
    · rename_i hset
      exact absurd hok hset

theorem setToken_flagged {pk : Bytes} (h : Flagged c) (hok : (setToken c pk).2) :
    Flagged (setToken c pk).1 := by
  rw [setToken] at hok ⊢
  cases hname : nameOf pk with
  | none => exact h
  | some key =>
    rw [hname] at hok
    dsimp only at hok ⊢
    cases hvar : aisGetVar pk key 2048 with
    | none =>
      rw [hvar] at hok
      cases hok
    | some var =>
      rw [hvar] at hok
      dsimp only at hok ⊢
      obtain ⟨htext, hflags, -⟩ := keep_eq c (aisGetMask key) pk var
      have hkept : Flagged (c.keep (aisGetMask key) pk var) := by
        intro q hq
        rw [htext]
        rw [hflags] at hq
        exact h q hq
      cases hmask : aisGetMask key with
      | none =>
        rw [hmask] at hkept
        exact hkept
      | some p =>
        rw [hmask] at hkept hok
        exact setKnown_flagged hkept hok

theorem setTokens_flagged (pks : List Bytes) (h : Flagged c) (hok : (setTokens c pks).2) :
    Flagged (setTokens c pks).1 := by
  induction pks generalizing c with
  | nil => exact h
  | cons pk pks ih =>
    rw [setTokens] at hok ⊢
    split at hok
    · rename_i hpk
      rw [if_pos hpk]
      exact ih (setToken_flagged h hpk) hok
    · rename_i hpk
      exact absurd hok hpk

theorem aisAdSet_flagged {s : Bytes} (hok : (aisAdSet .start s).2) :
    Flagged (aisAdSet .start s).1 :=
  setTokens_flagged (tokens s) (fun _ hp => by cases hp) hok

end Doorhinges.Params

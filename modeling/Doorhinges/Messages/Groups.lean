import Doorhinges.Messages.Notices

/-!
# The group check

The two buffers of keys are split back into one key for each listed group, and each answer
ends in the maps under the group it was asked for.
-/
namespace Doorhinges.Messages.Queries

open Lib.CString
open Lib.Pieces
open Lib.Program
open Lib.Runs

/-- The answers of a Redis with these strings and hashes. -/
structure Redis (o : List Cmd → Reply) (str : Bytes → Option Bytes)
    (hash : Bytes → Bytes → Option Bytes) : Prop where
  mget : ∀ h keys, o (.mget keys :: h) = some (keys.map str)
  hmget : ∀ h key fields, o (.hmget key fields :: h) = some (fields.map (hash key))

theorem lookup_insert (m : List (UInt32 × UInt32)) (k v j : UInt32) :
    (insert m k v).lookup j = (m.lookup j).or (if j = k then some v else none) := by
  unfold insert
  split
  · rename_i hsome
    obtain ⟨w, hw⟩ := Option.isSome_iff_exists.mp hsome
    by_cases hj : j = k
    · subst hj
      rw [hw]
      rfl
    · simp [hj]
  · rw [List.lookup_append]
    congr 1
    by_cases hj : j = k
    · simp [hj]
    · have hne : (j == k) = false := beq_false_of_ne hj
      simp [List.lookup_cons, hne, hj]

/-- An id that is listed leads to the value of its first place. -/
theorem lookup_insertAll (v : UInt32 → Option Bytes) (grpids : List UInt32)
    (m : List (UInt32 × UInt32)) (g : UInt32) :
    (insertAll m grpids (grpids.map v)).lookup g =
      (m.lookup g).or (if g ∈ grpids then some (idOf (v g)) else none) := by
  induction grpids generalizing m with
  | nil => simp [insertAll]
  | cons k grpids ih =>
    have hstep : insertAll m (k :: grpids) ((k :: grpids).map v) =
        insertAll (insert m k (idOf (v k))) grpids (grpids.map v) := rfl
    rw [hstep, ih, lookup_insert, Option.or_assoc]
    congr 1
    by_cases hg : g = k
    · subst hg
      simp
    · simp [hg]

variable {o : List Cmd → Reply} {h : List Cmd} {grpids : List UInt32}

/-- One command with one key for each listed group. -/
theorem finish_getGrpIDs (hsize : grpids.length ≤ MAX_CHKGRP_NUM) (key : UInt32 → Bytes)
    (hnul : ∀ g, 0 ∉ key g) (cmd : List Bytes → Cmd) (v : UInt32 → Option Bytes)
    (hval : o (cmd (grpids.map key) :: h) = some (grpids.map v)) :
    trace o h (getGrpIDs (grpids.flatMap fun g => key g ++ [0]) cmd grpids) =
      [.inl (cmd (grpids.map key))] ∧
    finish o h (getGrpIDs (grpids.flatMap fun g => key g ++ [0]) cmd grpids) =
      some ((0, insertAll [] grpids (grpids.map v)), cmd (grpids.map key) :: h) := by
  have hjoined : (grpids.flatMap fun g => key g ++ [0]) = joined 0 (grpids.map key) := by
    rw [joined, List.flatMap_map]
  have hkeys : keyArray MAX_CHKGRP_NUM grpids.length (grpids.flatMap fun g => key g ++ [0]) =
      pure (grpids.map key) := by
    have hk := keyArray_joined MAX_CHKGRP_NUM (grpids.map key)
      (by rwa [List.length_map]) (by
        intro t ht
        obtain ⟨g, -, rfl⟩ := List.mem_map.mp ht
        exact hnul g)
    rwa [List.length_map, ← hjoined] at hk
  have hlen : (grpids.map v).length = grpids.length := List.length_map _
  obtain ⟨k, hprog, hk⟩ : ∃ k, getGrpIDs (grpids.flatMap fun g => key g ++ [0]) cmd grpids =
        .call (cmd (grpids.map key)) k ∧
      ∀ val, k (some val) = valArray grpids.length val >>= fun val =>
        .ret (0, insertAll [] grpids val) := by
    unfold getGrpIDs
    rw [hkeys]
    exact ⟨_, rfl, fun _ => rfl⟩
  constructor
  · rw [hprog, trace, hval, hk, valArray_eq hlen]
    rfl
  · rw [hprog, finish, hval, hk, valArray_eq hlen]
    rfl

theorem filterMap_ite {α β : Type} (p : α → Prop) [DecidablePred p] (f : α → β) (l : List α) :
    (l.filterMap fun a => if p a then some (f a) else none) = (l.filter fun a => p a).map f := by
  induction l with
  | nil => rfl
  | cons a l ih =>
    by_cases ha : p a
    · simp [ha, ih]
    · simp [ha, ih]

/-- Ids in the range of an int are told apart. -/
theorem ofNat_ne_iff {m n : Nat} (hm : m < 2 ^ 31) (hn : n < 2 ^ 31) :
    UInt32.ofNat m ≠ .ofNat n ↔ m ≠ n := by
  have hm' : (UInt32.ofNat m).toNat = m := UInt32.toNat_ofNat_of_lt (show _ < 2 ^ 32 by omega)
  have hn' : (UInt32.ofNat n).toNat = n := UInt32.toNat_ofNat_of_lt (show _ < 2 ^ 32 by omega)
  rw [not_iff_not, ← UInt32.toNat_inj, hm', hn']

theorem grpmsgid_nul (g : UInt32) : 0 ∉ decimalNat g.toNat ++ ascii ".grpmsgid" := by
  rw [List.mem_append]
  rintro (hmem | hmem)
  · exact decimalNat_nul _ hmem
  · exact absurd hmem (by decide)

/-- The check asks for both counters of every listed group under its own key and answers, in
the order of the request, for the groups whose two counters differ. -/
theorem checkGrpMsg_answers {header : Header} (hv : Verified header)
    (hsize : grpids.length ≤ MAX_CHKGRP_NUM) {str : Bytes → Option Bytes}
    {hash : Bytes → Bytes → Option Bytes} (ho : Redis o str hash) {readid msgid : UInt32 → Nat}
    (hread : ∀ g ∈ grpids, readid g < 2 ^ 31 ∧
      Stores (hash (decimalNat header.uin ++ ascii ".grpreadid") (decimalNat g.toNat)) (readid g))
    (hmsg : ∀ g ∈ grpids, msgid g < 2 ^ 31 ∧
      Stores (str (decimalNat g.toNat ++ ascii ".grpmsgid")) (msgid g)) :
    trace o h (processCheckGrpMsg header (some grpids)) =
      [.inl (.hmget (decimalNat header.uin ++ ascii ".grpreadid")
          (grpids.map fun g => decimalNat g.toNat)),
        .inl (.mget (grpids.map fun g => decimalNat g.toNat ++ ascii ".grpmsgid"))] ∧
    ∃ h', finish o h (processCheckGrpMsg header (some grpids)) =
      some (⟨⟨0, ""⟩, some ((grpids.filter fun g => readid g ≠ msgid g).map fun g =>
        ⟨g, .ofNat (readid g), .ofNat (msgid g)⟩)⟩, h') := by
  set rkey := decimalNat header.uin ++ ascii ".grpreadid" with hrkey
  obtain ⟨htrace, hfinish⟩ := finish_getGrpIDs (o := o) (h := h) hsize
    (fun g => decimalNat g.toNat) (fun g => decimalNat_nul _) (.hmget rkey)
    (fun g => hash rkey (decimalNat g.toNat)) (by rw [ho.hmget, List.map_map]; rfl)
  obtain ⟨htrace', hfinish'⟩ := finish_getGrpIDs (o := o)
    (h := .hmget rkey (grpids.map fun g => decimalNat g.toNat) :: h) hsize
    (fun g => decimalNat g.toNat ++ ascii ".grpmsgid") grpmsgid_nul .mget
    (fun g => str (decimalNat g.toNat ++ ascii ".grpmsgid")) (by rw [ho.mget, List.map_map]; rfl)
  have hinfos : grpids.filterMap (grpInfo
      (insertAll [] grpids (grpids.map fun g => hash rkey (decimalNat g.toNat)))
      (insertAll [] grpids (grpids.map fun g => str (decimalNat g.toNat ++ ascii ".grpmsgid")))) =
      (grpids.filter fun g => readid g ≠ msgid g).map fun g =>
        ⟨g, .ofNat (readid g), .ofNat (msgid g)⟩ := by
    rw [← filterMap_ite (fun g => readid g ≠ msgid g)]
    refine List.filterMap_congr fun g hg => ?_
    obtain ⟨hrlt, hr⟩ := hread g hg
    obtain ⟨hmlt, hm⟩ := hmsg g hg
    have hlookup : ∀ v : UInt32 → Option Bytes,
        (insertAll [] grpids (grpids.map v)).lookup g = some (idOf (v g)) := by
      intro v
      rw [lookup_insertAll, if_pos hg]
      rfl
    rw [grpInfo, hlookup, hlookup, idOf_stores hr hrlt, idOf_stores hm hmlt]
    simp only [ofNat_ne_iff hrlt hmlt]
  have hprog : processCheckGrpMsg header (some grpids) =
      getGrpReadID header.uin grpids >>= fun r =>
        if r.1 = 0 then getGrpMsgID grpids >>= fun m =>
          if m.1 = 0 then pure ⟨⟨0, ""⟩, some (grpids.filterMap (grpInfo r.2 m.2))⟩
          else pure ⟨⟨0, ""⟩, some []⟩
        else pure ⟨⟨0, ""⟩, some []⟩ := by
    simp only [processCheckGrpMsg, verified_eq hv, Nat.not_lt.mpr hsize, if_false]
  rw [hprog]
  constructor
  · show trace o h (getGrpIDs _ _ _ >>= _) = _
    rw [trace_bind_of hfinish, htrace]
    show _ ++ trace o _ (getGrpIDs _ _ _ >>= _) = _
    rw [trace_bind_of hfinish', htrace']
    rfl
  · show ∃ h', finish o h (getGrpIDs _ _ _ >>= _) = _
    rw [finish_bind_of hfinish]
    show ∃ h', finish o _ (getGrpIDs _ _ _ >>= _) = _
    rw [finish_bind_of hfinish', ← hinfos]
    exact ⟨_, rfl⟩

/-- Every counter is 9, and group 12 alone has a read id. -/
def nineRead : List Cmd → Reply
  | .mget keys :: _ => some (keys.map fun _ => some (decimalNat 9))
  | .hmget _ fields :: _ => some (fields.map fun f =>
      if f = decimalNat 12 then some (decimalNat 9) else none)
  | [] => none

theorem checkGrpMsg_answers_three :
    trace nineRead [] (processCheckGrpMsg ⟨7, true, 7, true⟩ (some [5, 12, 5])) =
      [.inl (.hmget (decimalNat 7 ++ ascii ".grpreadid")
          (([5, 12, 5] : List UInt32).map fun g => decimalNat g.toNat)),
        .inl (.mget (([5, 12, 5] : List UInt32).map fun g =>
          decimalNat g.toNat ++ ascii ".grpmsgid"))] ∧
    ∃ h', finish nineRead [] (processCheckGrpMsg ⟨7, true, 7, true⟩ (some [5, 12, 5])) =
      some (⟨⟨0, ""⟩, some ((([5, 12, 5] : List UInt32).filter fun g =>
        (if g = 12 then 9 else 0) ≠ 9).map fun g =>
          ⟨g, .ofNat (if g = 12 then 9 else 0), .ofNat 9⟩)⟩, h') := by
  have hredis : Redis nineRead (fun _ => some (decimalNat 9))
      (fun _ f => if f = decimalNat 12 then some (decimalNat 9) else none) :=
    ⟨fun _ _ => rfl, fun _ _ _ => rfl⟩
  have hread : ∀ g ∈ ([5, 12, 5] : List UInt32), (if g = 12 then 9 else 0) < 2 ^ 31 ∧
      Stores (if decimalNat g.toNat = decimalNat 12 then some (decimalNat 9) else none)
        (if g = 12 then 9 else 0) := by
    simp only [List.forall_mem_cons, List.not_mem_nil, false_implies, implies_true, and_true]
    exact ⟨⟨by decide, .inr ⟨by decide, by decide⟩⟩, ⟨by decide, .inl (by decide)⟩,
      ⟨by decide, .inr ⟨by decide, by decide⟩⟩⟩
  exact checkGrpMsg_answers ⟨rfl, rfl, rfl⟩ (by decide) hredis hread
    (fun _ _ => ⟨by decide, .inl rfl⟩)

end Doorhinges.Messages.Queries

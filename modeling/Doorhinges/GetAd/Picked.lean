import Doorhinges.GetAd.Located

/-!
# The random pick

`get_ad` takes as many candidates as are asked for and copies them to the list. With canonical
ids a slot of the list reads as its id, or as a text that is too long for one.
-/
namespace Doorhinges.GetAd

open Lib.CString
open Lib.Redis (Reply)
open Hashtable

variable {c : Call}

section Pick

/-- At most one entry has the key. -/
theorem length_filter_ne {D : List AdEntry} (h : D.Pairwise fun e f => e.key ≠ f.key) (k : Nat) :
    D.length ≤ (D.filter fun e => e.key ≠ k).length + 1 := by
  induction D with
  | nil => exact Nat.zero_le _
  | cons e D ih =>
    obtain ⟨he, hD⟩ := List.pairwise_cons.1 h
    by_cases hk : e.key = k
    · have hall : (D.filter fun e => e.key ≠ k) = D :=
        List.filter_eq_self.2 fun f hf => by simpa [← hk] using (he f hf).symm
      rw [List.filter_cons_of_neg (by simp [hk]), hall, List.length_cons]
    · rw [List.filter_cons_of_pos (by simp [hk]), List.length_cons, List.length_cons]
      exact Nat.succ_le_succ (ih hD)

/-- The ids taken from the candidates, when there are any. -/
structure Taken (c : Call) (D : List AdEntry) (ids : List Bytes) : Prop where
  sublist : ids.Sublist (D.map (·.val))
  length : ids.length = min c.log.adnum D.length
  lastrequest : c.log.adnum < D.length → ∀ s,
    c.reply (.lastrequest (c.log.uuid.getD []) (c.log.ppId.getD [])) = some (.str s) → s ∉ ids

/-- A row of candidates behind the skipped ones. -/
theorem take_skip {cur : Nat} {m : AdMap} {D : List AdEntry} (h : Holds cur m D) {j n : Nat}
    (hn : j + n ≤ D.length) :
    skip m j (egHtBegin m) = some (front (D.drop j)) ∧
      take m n (front (D.drop j)) = some (((D.drop j).take n).map (·.val)) := by
  have hsplit : Holds cur m (D.take j ++ D.drop j) := by rwa [List.take_append_drop]
  refine ⟨?_, take_spec n hsplit (by rw [List.length_drop]; omega)⟩
  rw [h.begin]
  exact skip_spec j (x := []) h (by omega)

/-- The map without the ad of the last request still has enough. -/
theorem dropLast_spec {cur : Nat} {m : AdMap} {D : List AdEntry} (h : Holds cur m D)
    (hlt : c.log.adnum < D.length) :
    ∃ m' i E, c.dropLast m D.length = some (m', i) ∧ Holds cur m' E ∧ E.Sublist D ∧
      c.log.adnum ≤ i ∧ i ≤ E.length ∧ ∀ s,
        c.reply (.lastrequest (c.log.uuid.getD []) (c.log.ppId.getD [])) = some (.str s) →
          s ∉ E.map (·.val) := by
  rw [Call.dropLast]
  split
  · rename_i s hs
    obtain ⟨m', hm', hE⟩ := h.remove s
    have hmost := length_filter_ne h.distinct (idKey s)
    refine ⟨m', D.length - 1, _, by rw [hm']; rfl, hE, List.filter_sublist, by omega, by omega,
      fun t ht hmem => ?_⟩
    obtain rfl : s = t := by simpa [hs] using ht
    obtain ⟨e, he, rfl⟩ := List.mem_map.1 hmem
    obtain ⟨heD, hkey⟩ := List.mem_filter.1 he
    exact absurd (h.keys e heD) (by simpa using hkey)
  · rename_i hs
    exact ⟨m, D.length, D, rfl, h, .refl _, hlt.le, le_rfl, fun s hstr => absurd hstr (hs s)⟩

theorem pick_spec {cur : Nat} {m : AdMap} {D : List AdEntry} (h : Holds cur m D) :
    ∃ chosen, c.pick m = some chosen ∧ (D = [] → chosen = none) ∧
      (D ≠ [] → ∃ ids, chosen = some ids ∧ Taken c D ids) := by
  rw [Call.pick]
  dsimp only
  rw [h.elements]
  by_cases hzero : D.length = 0
  · rw [if_pos hzero]
    exact ⟨none, rfl, fun _ => rfl, fun hne => absurd (List.length_eq_zero_iff.1 hzero) hne⟩
  · rw [if_neg hzero]
    have hne : D ≠ [] := fun hnil => hzero (by rw [hnil]; rfl)
    by_cases hle : D.length ≤ c.log.adnum
    · rw [if_pos hle, h.begin, take_spec D.length (x := []) h le_rfl]
      refine ⟨_, rfl, fun hnil => absurd hnil hne, fun _ => ⟨_, rfl, ?_, ?_, fun hlt => ?_⟩⟩
      · rw [List.take_length]
      · rw [List.length_map, List.take_length, Nat.min_eq_right hle]
      · omega
    · rw [if_neg hle]
      have hlt := Nat.lt_of_not_le hle
      obtain ⟨m', i, E, hm', hE, hsub, hi, hlen, hlast⟩ := dropLast_spec (c := c) h hlt
      rw [hm']
      simp only [Option.bind_eq_bind, Option.bind_some]
      -- the skipped ads and the taken ones are within the map
      have hj : (if i - c.log.adnum = 0 then 0 else c.rand % (i - c.log.adnum + 1)) +
          c.log.adnum ≤ E.length := by
        split
        · omega
        · have := Nat.mod_lt c.rand (show 0 < i - c.log.adnum + 1 by omega)
          omega
      generalize (if i - c.log.adnum = 0 then 0 else c.rand % (i - c.log.adnum + 1)) = j at hj ⊢
      obtain ⟨hskip, htake⟩ := take_skip hE hj
      rw [hskip]
      simp only [Option.bind_some]
      rw [htake]
      have hrow : (((E.drop j).take c.log.adnum).map (·.val)).Sublist (E.map (·.val)) :=
        ((List.take_sublist _ _).trans (List.drop_sublist _ _)).map _
      refine ⟨_, rfl, fun hnil => absurd hnil hne, fun _ => ⟨_, rfl, hrow.trans (hsub.map _), ?_,
        fun _ s hs hmem => hlast s hs (hrow.subset hmem)⟩⟩
      rw [List.length_map, List.length_take, List.length_drop]
      omega

end Pick

/-- What `get_ad` leaves: the candidates have passed every stage, and the ids are taken from
them. -/
structure Selects (c : Call) (r : Result) : Prop where
  survives : ∀ x ∈ r.candidates, c.Survives x
  placed : ∀ x ∈ r.candidates, ∃ ids, (∀ y ∈ ids, c.Survives y) ∧ c.Placed ids x
  nodup : r.candidates.Nodup
  ids : ∀ x ∈ r.candidates, IsId x
  none : r.candidates = [] → r.chosen = none
  some : r.candidates ≠ [] → ∃ ids, r.chosen = some ids ∧ ids.Sublist r.candidates ∧
    ids.length = min c.log.adnum r.candidates.length ∧
      (c.log.adnum < r.candidates.length → ∀ s,
        c.reply (.lastrequest (c.log.uuid.getD []) (c.log.ppId.getD [])) = some (.str s) → s ∉ ids)

theorem selects_nothing : Selects c .nothing :=
  ⟨by simp [Result.nothing], by simp [Result.nothing], List.nodup_nil, by simp [Result.nothing],
    fun _ => rfl, fun h => absurd rfl h⟩

/-- The stages up to the random pick: nothing is left, or a map of candidates. -/
theorem getAd_stages (hc : c.Canonical) :
    ((c.log.missing ∨ c.survivors = some none) ∧ getAd c = some .nothing) ∨
    ∃ cur m D n m' B,
      (c.log.missing = false ∧ c.survivors = some (some (cur, m)) ∧ c.locate cur m = some m') ∧
      Holds cur m D ∧ (∀ x, HasId D x ↔ c.Survives x) ∧ Holds n m' B ∧
      (∀ x, HasId B x → HasId D x ∧ c.Placed (D.map (·.val)) x) ∧
        ∀ chosen, c.pick m' = some chosen → getAd c =
          some ⟨B.map (·.val), chosen, chosen.bind fun ids => fillAids 0 ids c.buffer⟩ := by
  rw [getAd]
  by_cases hmissing : c.log.missing
  · rw [if_pos hmissing]
    exact .inl ⟨.inl hmissing, rfl⟩
  · obtain ⟨o, ho, hsome, -⟩ := survivors_spec hc
    rw [if_neg hmissing, Call.candidates, ho]
    match o with
    | none => exact .inl ⟨.inr rfl, rfl⟩
    | some (cur, m) =>
      obtain ⟨D, hD, hids⟩ := hsome _ rfl
      obtain ⟨m', n, B, hm', hB, hplaced⟩ := locate_spec hc hD
      refine .inr ⟨cur, m, D, n, m', B, ⟨Bool.eq_false_iff.2 hmissing, rfl, hm'⟩, hD, hids, hB,
        hplaced, fun chosen hchosen => ?_⟩
      simp only [Option.bind_eq_bind, Option.bind_some]
      rw [hm']
      simp only [Option.map_some, Option.bind_some]
      rw [hchosen, texts_spec hB]
      rfl

theorem getAd_spec (hc : c.Canonical) : ∃ r, getAd c = some r ∧ Selects c r := by
  rcases getAd_stages hc with ⟨-, hnothing⟩ | ⟨cur, m, D, n, m', B, -, hD, hids, hB, hplaced, hget⟩
  · exact ⟨_, hnothing, selects_nothing⟩
  · obtain ⟨chosen, hchosen, hnone, htaken⟩ := pick_spec (c := c) hB
    have hall : ∀ x ∈ B.map (·.val), HasId B x := fun x hx => List.mem_map.1 hx
    refine ⟨_, hget chosen hchosen, fun x hx => (hids x).1 (hplaced x (hall x hx)).1,
      fun x hx => ?_, hB.nodup, fun x hx => ?_, fun hnil => hnone (by simpa using hnil),
      fun hne => ?_⟩
    · refine ⟨D.map (·.val), fun y hy => (hids y).1 (List.mem_map.1 hy), ?_⟩
      exact (hplaced x (hall x hx)).2
    · obtain ⟨e, he, rfl⟩ := hall x hx
      exact hB.ids e he
    · obtain ⟨ids, hchosen, htaken⟩ := htaken fun hnil => hne (by rw [hnil]; rfl)
      refine ⟨ids, hchosen, htaken.sublist, ?_, fun hlt => htaken.lastrequest ?_⟩
      · rw [htaken.length, List.length_map]
      · rwa [List.length_map] at hlt

section Slots

theorem IsId.length_le {x : Bytes} (h : IsId x) : x.length ≤ AIDLEN := by
  obtain ⟨n, -, hn, rfl⟩ := h
  exact length_decimalNat_le (by decide) (hn.trans (by decide))

theorem IsId.ne_nil {x : Bytes} (h : IsId x) : x ≠ [] := by
  obtain ⟨n, -, -, rfl⟩ := h
  exact decimalNat_ne_nil n

theorem IsId.nul {x : Bytes} (h : IsId x) : 0 ∉ x := by
  obtain ⟨n, -, -, rfl⟩ := h
  exact decimalNat_nul n

theorem readThrough_ne_nil {ids : List Bytes} (h : ∀ x ∈ ids, IsId x) (hne : ids ≠ []) :
    readThrough ids ≠ [] := by
  obtain ⟨id, ids, rfl⟩ := List.exists_cons_of_ne_nil hne
  have hid := (h id List.mem_cons_self).ne_nil
  cases ids with
  | nil => exact hid
  | cons next ids =>
    rw [readThrough]
    split
    · exact hid
    · rename_i hlong
      intro hnil
      have hlen := congrArg List.length (List.append_eq_nil_iff.1 hnil).1
      rw [List.length_take_of_le (Nat.le_of_not_lt hlong)] at hlen
      cases hlen

theorem readThrough_short {id next : Bytes} {ids : List Bytes} (hlen : id.length < AIDLEN) :
    readThrough (id :: next :: ids) = id := if_pos hlen

/-- An id that fills its slot is read with what is behind it. -/
theorem readThrough_long {id next : Bytes} {ids : List Bytes} (h : ∀ x ∈ next :: ids, IsId x)
    (hlen : ¬ id.length < AIDLEN) : AIDLEN < (readThrough (id :: next :: ids)).length := by
  have hnext := List.length_pos_iff.2 (readThrough_ne_nil h (List.cons_ne_nil _ _))
  rw [readThrough, if_neg hlen, List.length_append,
    List.length_take_of_le (Nat.le_of_not_lt hlen)]
  omega

/-- A slot reads as its id, or as a text too long for an id. -/
theorem readThrough_cons {id : Bytes} {ids : List Bytes} (h : ∀ x ∈ id :: ids, IsId x) :
    readThrough (id :: ids) = id ∨ AIDLEN < (readThrough (id :: ids)).length := by
  obtain ⟨-, hids⟩ := List.forall_mem_cons.1 h
  cases ids with
  | nil => exact Or.inl rfl
  | cons next ids =>
    by_cases hlen : id.length < AIDLEN
    · exact Or.inl (readThrough_short hlen)
    · exact Or.inr (readThrough_long hids hlen)

/-- The list is that of the ids that have been picked. -/
theorem getAd_aids {r : Result} (hr : getAd c = some r) :
    r.aids = r.chosen.bind fun ids => fillAids 0 ids c.buffer := by
  rw [getAd] at hr
  split at hr
  · obtain rfl := Option.some.inj hr
    rfl
  · obtain ⟨o, -, hr⟩ := Option.bind_eq_some_iff.1 hr
    cases o with
    | none =>
      obtain rfl := Option.some.inj hr
      rfl
    | some m =>
      obtain ⟨chosen, -, hr⟩ := Option.bind_eq_some_iff.1 hr
      obtain ⟨candidates, -, hr⟩ := Option.bind_eq_some_iff.1 hr
      obtain rfl := Option.some.inj hr
      rfl

/-- What is read from the slots of a list that has been filled. -/
theorem ads_eq {r : Result} {ids : List Bytes} {mem : Bytes} (hr : getAd c = some r)
    (hchosen : r.chosen = some ids) (haids : r.aids = some mem) (h : ∀ x ∈ ids, IsId x) :
    r.ads = (List.range ids.length).map fun i => readThrough (ids.drop i) := by
  have hfill := getAd_aids hr
  rw [haids, hchosen, Option.bind_some] at hfill
  rw [Result.ads, hchosen, haids]
  refine List.map_congr_left fun i hi => ?_
  have hread := slotText_fillAids (fun id hid => (h id hid).nul) hfill.symm (List.mem_range.1 hi)
  rwa [Nat.zero_add] at hread

/-- Every id that is read from the list has been chosen. -/
theorem mem_of_ads {r : Result} {ids : List Bytes} (hr : getAd c = some r)
    (hchosen : r.chosen = some ids) (h : ∀ x ∈ ids, IsId x) {x : Bytes} (hx : x ∈ r.ads)
    (hid : IsId x) : x ∈ ids := by
  cases haids : r.aids with
  | none =>
    rw [Result.ads, hchosen, haids] at hx
    cases hx
  | some mem =>
    rw [ads_eq hr hchosen haids h] at hx
    obtain ⟨i, hi, rfl⟩ := List.mem_map.1 hx
    rw [List.mem_range] at hi
    obtain ⟨y, ys, hdrop⟩ : ∃ y ys, ids.drop i = y :: ys :=
      List.exists_cons_of_ne_nil fun hnil => by
        rw [List.drop_eq_nil_iff] at hnil
        omega
    have hsub : ∀ z ∈ y :: ys, z ∈ ids := fun z hz => List.mem_of_mem_drop (hdrop ▸ hz)
    rw [hdrop] at hid ⊢
    rcases readThrough_cons fun z hz => h z (hsub z hz) with heq | hlong
    · rw [heq]
      exact hsub y List.mem_cons_self
    · exact absurd hid.length_le (by omega)

end Slots

/-- No ad that is kept from the device is chosen, and none is read from the list. -/
theorem getAd_excludes (hc : c.Canonical) : ∃ r, getAd c = some r ∧
    ∀ x, some x ∈ elementsOf (c.reply (.tagUuid (c.log.uuid.getD []))) →
      x ∉ r.chosen.getD [] ∧ x ∉ r.ads := by
  obtain ⟨r, hr, hs⟩ := getAd_spec hc
  refine ⟨r, hr, fun x hmem => ?_⟩
  by_cases hnil : r.candidates = []
  · rw [Result.ads, hs.none hnil]
    exact ⟨List.not_mem_nil, List.not_mem_nil⟩
  · obtain ⟨ids, hchosen, hsub, -⟩ := hs.some hnil
    have hfresh : x ∉ ids := fun hx => (hs.survives x (hsub.subset hx)).2 hmem
    refine ⟨by rwa [hchosen], fun hx => hfresh ?_⟩
    obtain ⟨y, hy, hid⟩ := hc.ids (.tagUuid (c.log.uuid.getD [])) rfl _ hmem
    obtain rfl := Option.some.inj hy
    exact mem_of_ads hr hchosen (fun z hz => hs.ids z (hsub.subset hz)) hx hid

end Doorhinges.GetAd

import Doorhinges.GetAd.Chosen

/-!
# What gets past the location filter

An ad is selected because its own record covers the request or because it is in the area set.
Where no ad is covered and the area set cannot be used, the candidates stay as they are: the
filter is passed over.
-/
namespace Doorhinges.GetAd

open Lib.CString
open Lib.Redis (Reply)
open Hashtable

section Definitions

variable (c : Call)

/-- The ids that are left where the location filter begins, in their order. -/
def Call.surviving : List Bytes :=
  match c.survivors with
  | some (some (_, m)) => (texts m).getD []
  | _ => []

/-- The record of the ad lies within its distance of the request, which has a position. -/
def Call.Nearby (ids : List Bytes) (x : Bytes) : Prop :=
  (c.log.lg ≠ [] ∧ c.log.lat ≠ []) ∧ c.Covered ids x

/-- Every selected ad is near the request or in the area set. -/
def Call.Located : Prop := ∀ r ids, GetAd.getAd c = some r → r.chosen = some ids → ∀ x ∈ ids,
  c.Nearby c.surviving x ∨ some x ∈ elementsOf c.areaSet

/-- The nodes of the pool that the fetched sets have taken. -/
def Call.nodesTaken : Nat :=
  match c.survivors with
  | some (some (cur, _)) => cur
  | _ => 0

/-- The search gets as far as the location filter, the area set cannot be used, and no ad is
near the request, or the pool has no node left for the first one that is. -/
def Call.PassedOver : Prop :=
  c.log.missing = false ∧ c.unfiltered ∧
    ((∀ x, ¬ c.Nearby c.surviving x) ∨ NODE_POOL_SIZE ≤ c.nodesTaken)

end Definitions

variable {c : Call}

section Covered

variable {cur : Nat} {m : AdMap} {A : List AdEntry}

theorem not_empty_of_hasKey (h : Holds cur m A) {key : Nat} (hkey : hasKey A key) :
    egHtEmpty m = false := by
  obtain ⟨e, he, -⟩ := hasKey_iff.1 hkey
  rw [h.empty]
  cases A with
  | nil => exact absurd he List.not_mem_nil
  | cons _ _ => rfl

/-- A record within its distance leaves its id in the map, if a node is left for it. -/
theorem insertCovered_near (h : Holds cur m A) {ids : List Bytes} {es : List (Option Bytes)}
    (hids : ∀ x ∈ ids, IsId x) (hes : List.Forall₂ StartsWith ids es) {r : Nat × AdMap}
    (hr : c.insertCovered (cur, m) es = some r)
    (hne : egHtEmpty m = false ∨ cur < NODE_POOL_SIZE ∧ ∃ x, c.Near ids es x) :
    egHtEmpty r.2 = false := by
  induction hes generalizing cur m A with
  | nil =>
    obtain rfl := Option.some.inj hr
    refine hne.resolve_right fun hnear => ?_
    obtain ⟨-, x, record, hmem, -⟩ := hnear
    exact absurd hmem List.not_mem_nil
  | @cons id e ids es he hes ih =>
    obtain ⟨hid, hrest⟩ := List.forall_mem_cons.1 hids
    -- what is left when the record of `id` is not the one that is near
    have hlater : (∀ record, e = some record → c.within record = false) →
        egHtEmpty m = false ∨ cur < NODE_POOL_SIZE ∧ ∃ x, c.Near ids es x := by
      intro hfar
      refine hne.imp_right fun hnear => ⟨hnear.1, ?_⟩
      obtain ⟨-, x, record, hmem, hin⟩ := hnear
      rcases List.mem_cons.1 hmem with heq | hmem
      · rw [hfar record (Prod.mk.inj heq).2.symm] at hin
        cases hin
      · exact ⟨x, record, hmem, hin⟩
    rw [Call.insertCovered] at hr
    split at hr
    · rename_i aid lg lat distance hfields
      obtain ⟨record, hrecord, hsplit⟩ := Option.map_eq_some_iff.mp hfields
      obtain ⟨rfl, -⟩ := Option.filter_eq_some_iff.mp hrecord
      obtain rfl : aid = id := by
        have hhead := he record rfl
        rw [hsplit] at hhead
        exact Option.some.inj hhead
      dsimp only at hr
      by_cases hnear : c.near c.log.lg c.log.lat lg lat distance
      · rw [if_pos hnear] at hr
        by_cases hfull : NODE_POOL_SIZE ≤ cur
        · rw [if_pos hfull] at hr
          exact ih h hrest hr (.inl (hne.resolve_right fun hroom => Nat.not_lt.2 hfull hroom.1))
        · obtain ⟨m', hm', hins⟩ := h.insert hid
          rw [if_neg hfull, hm', Option.bind_eq_bind, Option.bind_some] at hr
          apply ih hins hrest hr
          left
          exact not_empty_of_hasKey hins ((hasKey_insertEntry _ _).2 (.inl rfl))
      · rw [if_neg hnear] at hr
        apply ih h hrest hr
        apply hlater
        intro record' hrecord'
        obtain rfl := Option.some.inj hrecord'
        rw [Call.within, hsplit]
        exact eq_false_of_ne_true hnear
    · rename_i hfields
      apply ih h hrest hr
      apply hlater
      intro record hrecord
      subst hrecord
      rw [Call.within]
      split
      · rename_i aid lg lat distance hsplit
        by_cases hnil : record = []
        · subst hnil
          cases hsplit
        · refine (hfields aid lg lat distance ?_).elim
          rw [Option.filter_some, if_pos (by simpa using hnil), Option.map_some, hsplit]
      · rfl

/-- Without a node nothing is put in. -/
theorem insertCovered_full (hfull : NODE_POOL_SIZE ≤ cur) (es : List (Option Bytes)) :
    c.insertCovered (cur, m) es = some (cur, m) := by
  induction es with
  | nil => rfl
  | cons e es ih =>
    rw [Call.insertCovered]
    split
    · dsimp only
      rw [if_pos hfull, ih, ite_self]
    · exact ih

theorem position_of_covered {r : Nat × AdMap} (hr : c.covered cur m = some r)
    (hne : egHtEmpty r.2 = false) : c.log.lg ≠ [] ∧ c.log.lat ≠ [] := by
  by_contra hposition
  rw [Call.covered, if_neg hposition] at hr
  obtain rfl := Option.some.inj hr
  cases hne

/-- The covered map is empty only without an ad near the request or without a node for it. -/
theorem covered_empty_iff (hc : c.Canonical) (h : Holds cur m A) {r : Nat × AdMap}
    (hr : c.covered cur m = some r) : egHtEmpty r.2 = true ↔
      (∀ x, ¬ c.Nearby (A.map (·.val)) x) ∨ NODE_POOL_SIZE ≤ cur := by
  have hempty : Holds cur (getHtMap c.nodes) [] := holds_empty c.nodes
  constructor
  · intro hr₂
    refine or_iff_not_imp_right.2 fun hroom x hx => ?_
    obtain ⟨hposition, es, hes, hnear⟩ := hx
    rw [covered_eq h hposition, hes] at hr
    have hne := insertCovered_near hempty (asked_ids h) (hc.coverage _ es hes) hr
      (.inr ⟨Nat.lt_of_not_le hroom, x, hnear⟩)
    rw [hr₂] at hne
    cases hne
  · intro hnone
    by_contra hne
    rw [Bool.not_eq_true] at hne
    have hposition := position_of_covered hr hne
    rcases hnone with hfar | hfull
    · obtain ⟨r', C, hr', -, hC, hmem⟩ := covered_spec hc h
      obtain rfl := Option.some.inj (hr.symm.trans hr')
      rw [hC.empty] at hne
      cases C with
      | nil => cases hne
      | cons e C => exact hfar e.val ⟨hposition, hmem _ ⟨e, List.mem_cons_self, rfl⟩⟩
    · rw [covered_eq h hposition] at hr
      split at hr
      · rw [insertCovered_full hfull] at hr
        obtain rfl := Option.some.inj hr
        cases hne
      · obtain rfl := Option.some.inj hr
        cases hne

end Covered

section Locate

variable {cur n : Nat} {m m' : AdMap} {D B : List AdEntry}

/-- The entries of a map are told by its texts. -/
theorem Holds.hasId {k : Nat} {A : List AdEntry} (hB : Holds n m B) (hA : Holds k m A) {x : Bytes}
    (hx : HasId B x) : HasId A x := by
  have htexts := (texts_spec hB).symm.trans (texts_spec hA)
  have hmem : x ∈ B.map (·.val) := List.mem_map.2 hx
  rw [Option.some.inj htexts] at hmem
  exact List.mem_map.1 hmem

theorem elementsOf_unfiltered (h : c.unfiltered) : elementsOf c.areaSet = [] := by
  have hnone : arrayReplyEmpty c.areaSet ∨ isArray c.areaSet = false := by
    rw [Call.unfiltered] at h
    split at h
    · exact .inr (by simpa using h)
    · exact .inl h
  generalize c.areaSet = s at hnone
  cases s with
  | none => rfl
  | some reply =>
    cases reply with
    | array es =>
      cases es with
      | nil => rfl
      | cons _ _ => simp [arrayReplyEmpty, isArray] at hnone
    | _ => rfl

/-- The maps before and after a filter that is passed over are the same. -/
theorem locate_passedOver (hc : c.Canonical) (hdebug : c.debug = false) (hD : Holds cur m D)
    (hun : c.unfiltered)
    (hnone : (∀ x, ¬ c.Nearby (D.map (·.val)) x) ∨ NODE_POOL_SIZE ≤ cur) :
    c.locate cur m = some m := by
  obtain ⟨r, C, hr, -⟩ := covered_spec hc hD
  rw [locate_eq hdebug hr, (covered_empty_iff hc hD hr).2 hnone, if_pos rfl, byArea_eq,
    if_pos hun]

theorem locate_near (hc : c.Canonical) (hdebug : c.debug = false) (hD : Holds cur m D)
    (hlocate : c.locate cur m = some m') (hB : Holds n m' B) {x : Bytes} (hx : HasId B x) :
    c.Nearby (D.map (·.val)) x ∨ some x ∈ elementsOf c.areaSet ∨
      (c.unfiltered ∧ ((∀ y, ¬ c.Nearby (D.map (·.val)) y) ∨ NODE_POOL_SIZE ≤ cur)) := by
  obtain ⟨r, C, hr, hle, hC, hmem⟩ := covered_spec hc hD
  rw [locate_eq hdebug hr] at hlocate
  cases hempty : egHtEmpty r.2 with
  | false =>
    rw [hempty, if_neg Bool.false_ne_true] at hlocate
    obtain rfl := Option.some.inj hlocate
    left
    exact ⟨position_of_covered hr hempty, hmem x (hB.hasId hC hx)⟩
  | true =>
    rw [hempty, if_pos rfl, byArea_eq] at hlocate
    right
    by_cases hun : c.unfiltered
    · exact .inr ⟨hun, (covered_empty_iff hc hD hr).1 hempty⟩
    · left
      rw [if_neg hun] at hlocate
      obtain ⟨m₁, k, E, hm₁, hE, hboth⟩ := restrict_spec (c := c) (hD.mono hle) (areaSet_ids hc)
      obtain rfl := Option.some.inj (hlocate.symm.trans hm₁)
      exact (hboth x (hB.hasId hE hx)).2

end Locate

/-- Every selected ad is near the request or in the area set exactly where the filter is not
passed over, or the ads that are picked then happen to be near the request. -/
theorem getAd_located_iff (hc : c.Canonical) (hdebug : c.debug = false) :
    c.Located ↔ (c.PassedOver → ∀ x ∈ c.row c.surviving, c.Nearby c.surviving x) := by
  rcases getAd_stages hc with ⟨hnone, hnothing⟩ | ⟨cur, m, D, n, m', B, hstage, hD, -, hB, -, hget⟩
  · refine iff_of_true (fun r ids hr hids => ?_) fun hpassed x hx => ?_
    · obtain rfl := Option.some.inj (hr.symm.trans hnothing)
      cases hids
    · rcases hnone with hmissing | hsurvivors
      · rw [hpassed.1] at hmissing
        cases hmissing
      · rw [Call.surviving, hsurvivors] at hx
        exact absurd hx (by rw [row_nil]; exact List.not_mem_nil)
  · obtain ⟨hmissing, hsurvivors, hlocate⟩ := hstage
    have hsurviving : c.surviving = D.map (·.val) := by
      rw [Call.surviving, hsurvivors]
      dsimp only
      rw [texts_spec hD]
      rfl
    have hnodes : c.nodesTaken = cur := by
      rw [Call.nodesTaken, hsurvivors]
    -- where the filter is passed over the row is one of the surviving ads
    have hrow : c.PassedOver → B.map (·.val) = c.surviving := by
      rintro ⟨-, hun, hnone⟩
      rw [hsurviving, hnodes] at hnone
      obtain rfl := Option.some.inj (hlocate.symm.trans (locate_passedOver hc hdebug hD hun hnone))
      rw [hsurviving]
      exact Option.some.inj ((texts_spec hB).symm.trans (texts_spec hD))
    constructor
    · intro h hpassed x hx
      have hne : B ≠ [] := fun hnil => by
        rw [← hrow hpassed, hnil] at hx
        exact absurd hx (by rw [List.map_nil, row_nil]; exact List.not_mem_nil)
      rw [← hrow hpassed] at hx
      have hnear := h _ _ (hget _ (pick_row hB hne)) rfl x hx
      rw [elementsOf_unfiltered hpassed.2.1] at hnear
      exact hnear.resolve_right List.not_mem_nil
    · intro h r ids hr hids x hx
      obtain ⟨chosen, hchosen, hnone, htaken⟩ := pick_spec (c := c) hB
      obtain rfl := Option.some.inj (hr.symm.trans (hget chosen hchosen))
      have hne : B ≠ [] := fun hnil => by
        rw [hnone hnil] at hids
        cases hids
      obtain ⟨ids', hids', htaken⟩ := htaken hne
      obtain rfl := Option.some.inj (hids.symm.trans hids')
      have hB' : HasId B x := List.mem_map.1 (htaken.sublist.subset hx)
      have hids : c.row (B.map (·.val)) = ids := by
        rw [pick_row hB hne, Option.some.injEq] at hchosen
        exact Option.some.inj (hchosen.trans hids')
      rw [hsurviving]
      rcases locate_near hc hdebug hD hlocate hB hB' with hnear | harea | hpassed
      · exact .inl hnear
      · exact .inr harea
      · have hover : c.PassedOver :=
          ⟨hmissing, hpassed.1, by rw [hsurviving, hnodes]; exact hpassed.2⟩
        left
        rw [← hsurviving]
        exact h hover x (by rw [← hrow hover, hids]; exact hx)

namespace Sample

/-- The ad is in every set, one is asked for, and the address of the request has no record. -/
def place (ad : Bytes) (country : List (Option Bytes)) (record : Bytes → Option Bytes) : Call where
  log :=
    { ppId := some (ascii "13"), appId := some (ascii "1"), category := some (ascii "2")
      uuid := some (ascii "u"), clinet := some (ascii "1"), opreator := some (ascii "1")
      adSpaceType := some (ascii "1"), deviceType := some (ascii "1"), ip := ascii "1.2.3.4"
      lg := ascii "116.4", lat := ascii "39.9", adnum := 1 }
  types := []
  reply
    | .tagUuid _ => some (.array [])
    | .coverage ids => some (.array (ids.map record))
    | .debugip => some (.array [])
    | .ipArea _ => some (.array [])
    | .country | .countryAgain => some (.array country)
    | .lastrequest _ _ => some (.str (ascii "7"))
    | .appLib _ _ => some (.str [])
    | _ => some (.array [some ad])
  near _ _ _ _ _ := true
  rand := 0
  nodes := fun _ => ⟨0, [], none, none, none, none, 0⟩
  arr := fun _ => []
  buffer := List.replicate 64 0

variable {ad x : Bytes} {country : List (Option Bytes)} {record : Bytes → Option Bytes}

theorem place_canonical (had : IsId ad) (hcountry : Ids country)
    (hrecord : ∀ id, StartsWith id (record id)) : (place ad country record).Canonical where
  ids q hq := by
    cases q <;> simp [Query.listsIds] at hq <;>
      simp [Ids, elementsOf, place, Reply.elements, had] <;> exact hcountry
  coverage ids es hes := by
    obtain rfl := Reply.array.inj (Option.some.inj hes)
    rw [List.forall₂_map_right_iff]
    exact List.forall₂_same.2 fun id _ => hrecord id

/-- An ad gets past the filter without a record of its own and outside of the country set. -/
theorem place_not_located {r : Result} (hr : getAd (place ad country record) = some r)
    (hchosen : r.chosen = some [x]) {left : List Bytes}
    (hleft : (place ad country record).surviving = left)
    (hrecord : ∀ p ∈ (asked left).zip ((asked left).map record), p.1 = x → p.2 = none)
    (hcountry : some x ∉ country) : ¬ (place ad country record).Located := by
  intro h
  rcases h r [x] hr hchosen x (List.mem_singleton.2 rfl) with hnear | harea
  · obtain ⟨-, es, hes, answer, hmem, -⟩ := hnear
    obtain rfl := Reply.array.inj (Option.some.inj hes)
    rw [hleft] at hmem
    cases hrecord _ hmem rfl
  · exact hcountry harea

/-- The record of the ad `8`. -/
def record8 (id : Bytes) : Option Bytes :=
  if id = ascii "8" then some (ascii "8,0,0,1") else none

theorem record8_startsWith (id : Bytes) : StartsWith id (record8 id) := by
  intro answer hanswer
  rw [record8] at hanswer
  split at hanswer
  · rename_i hid
    obtain rfl := Option.some.inj hanswer
    rw [hid]
    rfl
  · cases hanswer

end Sample

open Sample in
/-- One ad passes by its own record, another one by the country set. -/
theorem getAd_located_iff_place : (place (ascii "8") [] record8).Located ∧
    (place (ascii "8") [some (ascii "8")] fun _ => none).Located := by
  have hid : IsId (ascii "8") := ⟨8, by decide, by decide, by decide⟩
  constructor
  · apply (getAd_located_iff (place_canonical hid (by simp [Ids]) record8_startsWith) rfl).2
    rintro ⟨-, -, hfar | hfull⟩ x -
    · refine (hfar (ascii "8") ⟨⟨by decide, by decide⟩, _, rfl, ascii "8,0,0,1", ?_, rfl⟩).elim
      decide
    · exact absurd hfull (by decide)
  · apply (getAd_located_iff (place_canonical hid (by simp [Ids, hid])
      fun id answer h => by cases h) rfl).2
    rintro ⟨-, hun, -⟩
    exact absurd hun (by decide)

open Sample in
/-- The filter is bypassed where the country set is empty, where a record is of another ad, and
where the sets write an id differently. -/
theorem not_located : ¬ (place (ascii "8") [] fun _ => none).Located ∧
    ¬ (place (ascii "8") [some (ascii "8")] fun _ => some (ascii "5,0,0,1")).Located ∧
      ¬ (place (ascii "08") [some (ascii "8")] fun _ => none).Located := by
  refine ⟨?_, ?_, ?_⟩
  · exact place_not_located (x := ascii "8") rfl rfl rfl (by decide) (by decide)
  · exact place_not_located (x := ascii "5") rfl rfl rfl (by decide) (by decide)
  · exact place_not_located (x := ascii "08") rfl rfl rfl (by decide) (by decide)

end Doorhinges.GetAd

import Doorhinges.GetAd.Picked

/-!
# The chosen ids

The candidates at the random pick and the random number say which ids are copied to the list:
all of them, or a row of those that the last request did not show. They are read back where
every id but the last one leaves room for its terminator, and that one ends in the buffer.
-/
namespace Doorhinges.GetAd

open Lib.CString
open Lib.Redis (Reply)
open Hashtable

section Definitions

variable (c : Call)

/-- The number of the ad of the last request, where one is known. -/
def Call.lastShown : Option Nat :=
  match c.reply (.lastrequest (c.log.uuid.getD []) (c.log.ppId.getD [])) with
  | some (.str s) => some (idKey s)
  | _ => none

/-- The ids that are copied, from the candidates in their order. -/
def Call.row (candidates : List Bytes) : List Bytes :=
  if candidates.length ≤ c.log.adnum then candidates
  else
    match c.lastShown with
    | some key =>
      ((candidates.filter fun id => idKey id ≠ key).drop
        (c.rand % (candidates.length - 1 - c.log.adnum + 1))).take c.log.adnum
    | none => (candidates.drop (c.rand % (candidates.length - c.log.adnum + 1))).take c.log.adnum

/-- What `get_ad` owes a request: candidates from every set but not from those kept from the
device, and in the list as many of them as can be had, without the last one shown. The list
is written inside the buffer. -/
structure Call.Chooses (r : Result) : Prop where
  sets : ∀ x ∈ r.candidates, ∀ s ∈ c.sets, some x ∈ elementsOf s
  fresh : ∀ x ∈ r.candidates, some x ∉ elementsOf (c.reply (.tagUuid (c.log.uuid.getD [])))
  length : r.candidates ≠ [] → r.ads.length = min c.log.adnum r.candidates.length
  nodup : r.ads.Nodup
  mem : ∀ x ∈ r.ads, x ∈ r.candidates
  last : c.log.adnum < r.candidates.length → ∀ x ∈ r.ads, c.lastShown ≠ some (idKey x)
  written : r.chosen.isSome → r.aids.isSome

end Definitions

variable {c : Call}

section Row

theorem mod_of_none_left (n k : Nat) : (if k = 0 then 0 else n % (k + 1)) = n % (k + 1) := by
  split
  · rename_i hk
    rw [hk, Nat.zero_add, Nat.mod_one]
  · rfl

/-- The entries of the pick and their texts. -/
theorem Holds.filter_val {cur : Nat} {m : AdMap} {D : List AdEntry} (h : Holds cur m D)
    (key : Nat) : (D.filter fun e => e.key ≠ key).map (·.val) =
      (D.map (·.val)).filter fun id => idKey id ≠ key := by
  rw [List.filter_map]
  refine congrArg (List.map _) (List.filter_congr fun e he => ?_)
  rw [h.keys e he]
  rfl

theorem pick_row {cur : Nat} {m : AdMap} {D : List AdEntry} (h : Holds cur m D) (hne : D ≠ []) :
    c.pick m = some (some (c.row (D.map (·.val)))) := by
  have hzero : D.length ≠ 0 := fun hlen => hne (List.length_eq_zero_iff.1 hlen)
  rw [Call.pick, Call.row, List.length_map]
  dsimp only
  rw [h.elements, if_neg hzero]
  by_cases hle : D.length ≤ c.log.adnum
  · rw [if_pos hle, if_pos hle, h.begin, take_spec D.length (x := []) h le_rfl, List.take_length]
    rfl
  · have hmost : ∀ n, c.rand % (n - c.log.adnum + 1) ≤ n - c.log.adnum := fun n =>
      Nat.le_of_lt_succ (Nat.mod_lt _ (Nat.succ_pos _))
    rw [if_neg hle, if_neg hle, Call.dropLast]
    split
    · rename_i s hs
      have hlast : c.lastShown = some (idKey s) := by rw [Call.lastShown, hs]
      obtain ⟨m', hm', hE⟩ := h.remove s
      have hlen := length_filter_ne h.distinct (idKey s)
      have hroom := hmost (D.length - 1)
      obtain ⟨hskip, htake⟩ := @take_skip _ _ _ hE
        (c.rand % (D.length - 1 - c.log.adnum + 1)) c.log.adnum (by omega)
      simp only [hm', Option.map_some, Option.bind_eq_bind, Option.bind_some, mod_of_none_left,
        hskip, htake, hlast]
      rw [List.map_take, List.map_drop, h.filter_val]
    · rename_i hs
      have hlast : c.lastShown = none := by
        rw [Call.lastShown]
        split
        · rename_i s hstr
          exact absurd hstr (hs s)
        · rfl
      have hroom := hmost D.length
      obtain ⟨hskip, htake⟩ := @take_skip _ _ _ h
        (c.rand % (D.length - c.log.adnum + 1)) c.log.adnum (by omega)
      simp only [Option.bind_eq_bind, Option.bind_some, mod_of_none_left, hskip, htake,
        Option.map_some, hlast]
      rw [List.map_take, List.map_drop]

theorem row_last {C : List Bytes} (hlt : c.log.adnum < C.length) {x : Bytes} (hx : x ∈ c.row C) :
    c.lastShown ≠ some (idKey x) := by
  intro hlast
  rw [Call.row, if_neg (Nat.not_le.2 hlt), hlast] at hx
  have hfresh := (List.mem_filter.1 (List.mem_of_mem_drop (List.mem_of_mem_take hx))).2
  simp at hfresh

theorem row_nil : c.row [] = [] := if_pos (Nat.zero_le _)

end Row

section Slots

variable {r : Result} {ids : List Bytes} {mem : Bytes}

theorem ads_of_short (hr : getAd c = some r) (hchosen : r.chosen = some ids)
    (haids : r.aids = some mem) (h : ∀ x ∈ ids, IsId x)
    (hshort : ∀ id ∈ ids.dropLast, id.length < AIDLEN) : r.ads = ids := by
  rw [ads_eq hr hchosen haids h]
  refine List.ext_getElem (by simp) fun i hi hi' => ?_
  rw [List.getElem_map, List.getElem_range, List.drop_eq_getElem_cons hi']
  cases hrest : ids.drop (i + 1) with
  | nil => rfl
  | cons next rest =>
    have hlen := congrArg List.length hrest
    rw [List.length_drop, List.length_cons] at hlen
    have hi'' : i < ids.dropLast.length := by
      rw [List.length_dropLast]
      omega
    apply readThrough_short
    apply hshort
    rw [← List.getElem_dropLast hi'']
    exact List.getElem_mem hi''

/-- An id without room for its terminator is not read back. -/
theorem short_of_ads (hr : getAd c = some r) (hchosen : r.chosen = some ids)
    (haids : r.aids = some mem) (h : ∀ x ∈ ids, IsId x) (hads : ∀ x ∈ r.ads, IsId x) :
    ∀ id ∈ ids.dropLast, id.length < AIDLEN := by
  intro id hid
  by_contra hlong
  obtain ⟨i, hi, rfl⟩ := List.mem_iff_getElem.1 hid
  rw [List.getElem_dropLast] at hlong
  rw [List.length_dropLast] at hi
  have hcons : ids.drop i = ids[i] :: ids[i + 1] :: ids.drop (i + 2) := by
    rw [List.drop_eq_getElem_cons, List.drop_eq_getElem_cons]
  have hrest : ∀ x ∈ ids[i + 1] :: ids.drop (i + 2), IsId x := by
    intro x hx
    apply h
    apply List.mem_of_mem_drop (i := i)
    rw [hcons]
    exact List.mem_cons_of_mem _ hx
  have hread : readThrough (ids.drop i) ∈ r.ads := by
    rw [ads_eq hr hchosen haids h]
    exact List.mem_map.2 ⟨i, List.mem_range.2 (by omega), rfl⟩
  have hlen := (hads _ hread).length_le
  rw [hcons] at hlen
  exact absurd (readThrough_long hrest hlong) (Nat.not_lt.2 hlen)

end Slots

/-- What has found a node of the pool is in the reply. -/
theorem mem_of_allFitting {x : Bytes} {cur : Nat} {rs : List (Option Reply)}
    (h : ∀ l ∈ allFitting cur rs, some x ∈ l) : ∀ s ∈ rs, some x ∈ elementsOf s := by
  induction rs generalizing cur with
  | nil => exact fun s hs => absurd hs List.not_mem_nil
  | cons q rs ih =>
    rw [allFitting, List.forall_mem_cons] at h
    rw [List.forall_mem_cons]
    exact ⟨List.mem_of_mem_take h.1, ih h.2⟩

theorem getAd_row (hc : c.Canonical) {r : Result} (hr : getAd c = some r) :
    Selects c r ∧ (r.candidates ≠ [] → r.chosen = some (c.row r.candidates)) := by
  obtain ⟨r', hr', hs⟩ := getAd_spec hc
  obtain rfl := Option.some.inj (hr.symm.trans hr')
  refine ⟨hs, fun hne => ?_⟩
  rcases getAd_stages hc with ⟨-, hnothing⟩ | ⟨cur, m, D, n, m', B, -, -, -, hB, -, hget⟩
  · obtain rfl := Option.some.inj (hr.symm.trans hnothing)
    exact absurd rfl hne
  · obtain ⟨chosen, hchosen, -⟩ := pick_spec (c := c) hB
    obtain rfl := Option.some.inj (hr.symm.trans (hget chosen hchosen))
    have hBne : B ≠ [] := fun hnil => hne (by rw [hnil]; rfl)
    rw [pick_row hB hBne] at hchosen
    exact (Option.some.inj hchosen).symm

theorem chooses_iff (hc : c.Canonical) {r : Result} (hr : getAd c = some r) :
    c.Chooses r ↔ (∀ id ∈ (c.row r.candidates).dropLast, id.length < AIDLEN) ∧
      ListFits (c.row r.candidates) c.buffer.length := by
  obtain ⟨hs, hrow⟩ := getAd_row hc hr
  by_cases hnil : r.candidates = []
  · have hads : r.ads = [] := by
      rw [Result.ads, hs.none hnil]
    rw [hnil, row_nil]
    refine iff_of_true ⟨?_, ?_, fun hne => absurd hnil hne, ?_, ?_, ?_, fun hsome => ?_⟩
      ⟨fun id hid => ?_, fun id hid => ?_⟩
    · rw [hnil]
      exact fun x hx => absurd hx List.not_mem_nil
    · rw [hnil]
      exact fun x hx => absurd hx List.not_mem_nil
    · rw [hads]
      exact List.nodup_nil
    · rw [hads]
      exact fun x hx => absurd hx List.not_mem_nil
    · rw [hads]
      exact fun _ x hx => absurd hx List.not_mem_nil
    · rw [hs.none hnil] at hsome
      cases hsome
    · exact absurd hid List.not_mem_nil
    · cases hid
  · have hchosen := hrow hnil
    obtain ⟨ids, hids, hsub, hlen, -⟩ := hs.some hnil
    obtain rfl := Option.some.inj (hchosen.symm.trans hids)
    have hall : ∀ x ∈ c.row r.candidates, IsId x := fun x hx => hs.ids x (hsub.subset hx)
    have haids := getAd_aids hr
    rw [hchosen, Option.bind_some] at haids
    constructor
    · intro h
      obtain ⟨mem, hmem⟩ := Option.isSome_iff_exists.1 (h.written (by rw [hchosen]; rfl))
      have hshort := short_of_ads hr hchosen hmem hall fun x hx => hs.ids x (h.mem x hx)
      refine ⟨hshort, ?_⟩
      rw [← fillAids_isSome_of_short hshort, ← haids, hmem]
      rfl
    · rintro ⟨hshort, hroom⟩
      have hwritten : r.aids.isSome := by
        rw [haids, fillAids_isSome_of_short hshort]
        exact hroom
      obtain ⟨mem, hmem⟩ := Option.isSome_iff_exists.1 hwritten
      have hads := ads_of_short hr hchosen hmem hall hshort
      refine ⟨fun x hx => mem_of_allFitting (hs.survives x hx).1,
        fun x hx => (hs.survives x hx).2, fun _ => ?_, ?_, fun x hx => ?_, fun hlt x hx => ?_,
        fun _ => hwritten⟩
      · rw [hads, hlen]
      · rw [hads]
        exact hs.nodup.sublist hsub
      · rw [hads] at hx
        exact hsub.subset hx
      · rw [hads] at hx
        exact row_last hlt hx

/-- Canonical ids are chosen as they should be exactly where each id of the row but the last
leaves room for its terminator, and the last one ends in the buffer. -/
theorem getAd_chooses_iff (hc : c.Canonical) : (∃ r, getAd c = some r ∧ c.Chooses r) ↔
    ∃ r, getAd c = some r ∧ (∀ id ∈ (c.row r.candidates).dropLast, id.length < AIDLEN) ∧
      ListFits (c.row r.candidates) c.buffer.length := by
  refine exists_congr fun r => and_congr_right fun hr => ?_
  exact chooses_iff hc hr

namespace Sample

/-- Two ads are in every set, the request has no position and is from a debug address. -/
def twoAds (a b : Bytes) (room : Nat) : Call where
  log :=
    { ppId := some (ascii "13"), appId := some (ascii "1"), category := some (ascii "2")
      uuid := some (ascii "u"), clinet := some (ascii "1"), opreator := some (ascii "1")
      adSpaceType := some (ascii "1"), deviceType := some (ascii "1"), ip := ascii "1.2.3.4"
      lg := [], lat := [], adnum := 2 }
  types := []
  reply
    | .tagUuid _ => some (.array [])
    | .coverage _ => none
    | .debugip => some (.array [some (ascii "1.2.3.4")])
    | .ipArea _ => some (.array [])
    | .lastrequest _ _ => some (.str (ascii "7"))
    | .appLib _ _ => some (.str [])
    | _ => some (.array [some a, some b])
  near _ _ _ _ _ := false
  rand := 0
  nodes := fun _ => ⟨0, [], none, none, none, none, 0⟩
  arr := fun _ => []
  buffer := List.replicate room 0

theorem twoAds_canonical {a b : Bytes} (ha : IsId a) (hb : IsId b) (room : Nat) :
    (twoAds a b room).Canonical where
  ids q hq := by
    cases q <;> simp [Query.listsIds] at hq <;>
      simp [Ids, elementsOf, twoAds, Reply.elements, ha, hb]
  coverage ids es h := by cases h

end Sample

open Sample in
theorem getAd_chooses_two : (twoAds (ascii "8") (ascii "9") 64).Canonical ∧
    ∃ r, getAd (twoAds (ascii "8") (ascii "9") 64) = some r ∧
      (twoAds (ascii "8") (ascii "9") 64).Chooses r := by
  have hcanonical : (twoAds (ascii "8") (ascii "9") 64).Canonical := twoAds_canonical
    ⟨8, by decide, by decide, by decide⟩ ⟨9, by decide, by decide, by decide⟩ 64
  refine ⟨hcanonical, (getAd_chooses_iff hcanonical).2 ⟨⟨[ascii "9", ascii "8"], _, _⟩, rfl, ?_⟩⟩
  decide

open Sample in
/-- An id of ten digits is read with the next one, and a list that is longer than the rest of
the buffer is written behind it. -/
theorem not_chosen : ((twoAds (ascii "2000000001") (ascii "2000000002") 64).Canonical ∧
      ¬ ∃ r, getAd (twoAds (ascii "2000000001") (ascii "2000000002") 64) = some r ∧
        (twoAds (ascii "2000000001") (ascii "2000000002") 64).Chooses r) ∧
    (twoAds (ascii "8") (ascii "9") 11).Canonical ∧
      ¬ ∃ r, getAd (twoAds (ascii "8") (ascii "9") 11) = some r ∧
        (twoAds (ascii "8") (ascii "9") 11).Chooses r := by
  have hlong : (twoAds (ascii "2000000001") (ascii "2000000002") 64).Canonical :=
    twoAds_canonical ⟨2000000001, by decide, by decide, by decide⟩
      ⟨2000000002, by decide, by decide, by decide⟩ 64
  have hshort : (twoAds (ascii "8") (ascii "9") 11).Canonical := twoAds_canonical
    ⟨8, by decide, by decide, by decide⟩ ⟨9, by decide, by decide, by decide⟩ 11
  refine ⟨⟨hlong, ?_⟩, hshort, ?_⟩
  · rintro ⟨r, hr, hchosen⟩
    have hslots := ((chooses_iff hlong hr).1 hchosen).1
    obtain rfl : (⟨[ascii "2000000002", ascii "2000000001"], _, _⟩ : Result) = r :=
      Option.some.inj (Eq.trans rfl hr)
    revert hslots
    decide
  · rintro ⟨r, hr, hchosen⟩
    have hroom := ((chooses_iff hshort hr).1 hchosen).2
    obtain rfl : (⟨[ascii "9", ascii "8"], _, _⟩ : Result) = r :=
      Option.some.inj (Eq.trans rfl hr)
    revert hroom
    decide

end Doorhinges.GetAd

import Doorhinges.GetAd.Selected

/-!
# The location filter

What is left of the surviving ads is covered by its own record or in the area set, unless
the area set could not be fetched.
-/
namespace Doorhinges.GetAd

open Lib.CString
open Lib.Redis (Reply)
open Hashtable

/-- A record within its distance of the request. -/
def Call.within (c : Call) (record : Bytes) : Bool :=
  match record.splitOn 44 with
  | [_, lg, lat, distance] => c.near c.log.lg c.log.lat lg lat distance
  | _ => false

/-- The record of the id is within its distance. -/
def Call.Near (c : Call) (ids : List Bytes) (es : List (Option Bytes)) (x : Bytes) : Prop :=
  ∃ record, (x, some record) ∈ ids.zip es ∧ c.within record

/-- The filter by area set is left out. -/
def Call.unfiltered (c : Call) : Bool :=
  if c.ipRecord.isSome then !isArray c.areaSet else arrayReplyEmpty c.areaSet

variable {c : Call}

section Covered

theorem insertCovered_spec {cur : Nat} {m : AdMap} {A : List AdEntry} (h : Holds cur m A)
    {ids : List Bytes} {es : List (Option Bytes)} (hids : ∀ x ∈ ids, IsId x)
    (hes : List.Forall₂ StartsWith ids es) :
    ∃ r B, c.insertCovered (cur, m) es = some r ∧ cur ≤ r.1 ∧ Holds r.1 r.2 B ∧
      ∀ x, HasId B x → HasId A x ∨ c.Near ids es x := by
  induction hes generalizing cur m A with
  | nil => exact ⟨(cur, m), A, rfl, le_rfl, h, fun x hx => Or.inl hx⟩
  | @cons id e ids es he hes ih =>
    obtain ⟨hid, hrest⟩ := List.forall_mem_cons.1 hids
    have hmore : ∀ {x}, c.Near ids es x → c.Near (id :: ids) (e :: es) x := by
      rintro x ⟨record, hmem, hin⟩
      exact ⟨record, List.mem_cons_of_mem _ hmem, hin⟩
    have hskip : ∃ r B, c.insertCovered (cur, m) es = some r ∧ cur ≤ r.1 ∧ Holds r.1 r.2 B ∧
        ∀ x, HasId B x → HasId A x ∨ c.Near (id :: ids) (e :: es) x := by
      obtain ⟨r, B, hr, hle, hB, hmem⟩ := ih h hrest
      exact ⟨r, B, hr, hle, hB, fun x hx => (hmem x hx).imp_right hmore⟩
    rw [Call.insertCovered]
    split
    · rename_i aid lg lat distance hfields
      obtain ⟨record, hrecord, hsplit⟩ := Option.map_eq_some_iff.1 hfields
      obtain ⟨rfl, -⟩ := Option.filter_eq_some_iff.1 hrecord
      obtain rfl : aid = id := by
        have hhead := he record rfl
        rw [hsplit] at hhead
        exact Option.some.inj hhead
      dsimp only
      by_cases hnear : c.near c.log.lg c.log.lat lg lat distance
      · rw [if_pos hnear]
        by_cases hfull : NODE_POOL_SIZE ≤ cur
        · rw [if_pos hfull]
          exact hskip
        · obtain ⟨m', hm', hins⟩ := h.insert hid
          obtain ⟨r, B, hr, hle, hB, hmem⟩ := ih hins hrest
          refine ⟨r, B, by simp [hfull, hm', hr], by omega, hB, fun x hx => ?_⟩
          rcases hmem x hx with ⟨f, hf, rfl⟩ | hx
          · rcases mem_insertEntry hf with rfl | hf
            · refine Or.inr ⟨record, List.mem_cons_self, ?_⟩
              rw [Call.within, hsplit]
              exact hnear
            · exact Or.inl ⟨f, hf, rfl⟩
          · exact Or.inr (hmore hx)
      · rw [if_neg hnear]
        exact hskip
    · exact hskip

/-- The ids that are asked for their records. -/
def asked (ids : List Bytes) : List Bytes := ids.take (MAX_DEMli - 2)

/-- The record returned for the id is within its distance. -/
def Call.Covered (c : Call) (ids : List Bytes) (x : Bytes) : Prop :=
  ∃ es, c.reply (.coverage (asked ids)) = some (.array es) ∧ c.Near (asked ids) es x

theorem asked_ids {cur : Nat} {m : AdMap} {D : List AdEntry} (h : Holds cur m D) :
    ∀ x ∈ asked (D.map (·.val)), IsId x := by
  intro x hx
  obtain ⟨e, he, rfl⟩ := List.mem_map.1 (List.mem_of_mem_take hx)
  exact h.ids e he

/-- Of a request with a position the records of the ads are asked for. -/
theorem covered_eq {cur : Nat} {m : AdMap} {D : List AdEntry} (h : Holds cur m D)
    (hposition : c.log.lg ≠ [] ∧ c.log.lat ≠ []) :
    c.covered cur m = match c.reply (.coverage (asked (D.map (·.val)))) with
      | some (.array es) => c.insertCovered (cur, getHtMap c.nodes) es
      | _ => some (cur, getHtMap c.nodes) := by
  rw [Call.covered, if_pos hposition, texts_spec h, Option.bind_eq_bind, Option.bind_some]
  rfl

theorem covered_spec (hc : c.Canonical) {cur : Nat} {m : AdMap} {D : List AdEntry}
    (h : Holds cur m D) :
    ∃ r B, c.covered cur m = some r ∧ cur ≤ r.1 ∧ Holds r.1 r.2 B ∧
      ∀ x, HasId B x → c.Covered (D.map (·.val)) x := by
  have hempty : ∃ r B, some (cur, getHtMap c.nodes) = some r ∧ cur ≤ r.1 ∧ Holds r.1 r.2 B ∧
      ∀ x, HasId B x → c.Covered (D.map (·.val)) x :=
    ⟨_, [], rfl, le_rfl, holds_empty c.nodes, fun x ⟨_, he, _⟩ => absurd he List.not_mem_nil⟩
  by_cases hposition : c.log.lg ≠ [] ∧ c.log.lat ≠ []
  · rw [covered_eq h hposition]
    split
    · rename_i es hes
      obtain ⟨r, B, hr, hle, hB, hmem⟩ := insertCovered_spec (c := c)
        (show Holds cur (getHtMap c.nodes) [] from holds_empty c.nodes) (asked_ids h)
        (hc.coverage _ es hes)
      refine ⟨r, B, hr, hle, hB, fun x hx => ⟨es, hes, (hmem x hx).resolve_left ?_⟩⟩
      rintro ⟨e, he, -⟩
      exact absurd he List.not_mem_nil
    · exact hempty
  · rw [Call.covered, if_neg hposition]
    exact hempty

theorem Call.Covered.mem {ids : List Bytes} {x : Bytes} (h : c.Covered ids x) : x ∈ ids := by
  obtain ⟨es, -, record, hmem, -⟩ := h
  exact List.mem_of_mem_take (List.of_mem_zip hmem).1

end Covered

section Area

theorem areaSet_ids (hc : c.Canonical) : Ids (elementsOf c.areaSet) := by
  rw [Call.areaSet]
  cases c.ipRecord with
  | none => exact hc.ids _ rfl
  | some e =>
    cases e with
    | none => exact hc.ids _ rfl
    | some record => exact hc.ids _ rfl

theorem restrict_spec {cur : Nat} {m : AdMap} {D : List AdEntry} (h : Holds cur m D)
    {r : Option Reply} (hr : Ids (elementsOf r)) :
    ∃ m' n B, c.restrict cur m r = some m' ∧ Holds n m' B ∧
      ∀ x, HasId B x → HasId D x ∧ some x ∈ elementsOf r := by
  obtain ⟨⟨n, m₁⟩, C, hinit, hC, hcur, hlists⟩ := initMap_new c.nodes cur hr
  have hD : Holds n m D := h.mono (by dsimp only at hcur; omega)
  have hmem : ∀ x, HasId C x → some x ∈ elementsOf r := fun x hx =>
    List.mem_of_mem_take ((hlists x).1 hx)
  rw [Call.restrict, hinit]
  simp only [Option.bind_eq_bind, Option.bind_some]
  split
  · obtain ⟨m', hm', hB⟩ := getInter_spec (.cons hD .nil) hC
    refine ⟨m', n, _, hm', hB, fun x hx => ?_⟩
    have hboth := (inter_hasId hC (.cons hD .nil) x).1 hx
    exact ⟨hboth D (by simp), hmem x (hboth C (by simp))⟩
  · obtain ⟨m', hm', hB⟩ := getInter_spec (.cons hC .nil) hD
    refine ⟨m', n, _, hm', hB, fun x hx => ?_⟩
    have hboth := (inter_hasId hD (.cons hC .nil) x).1 hx
    exact ⟨hboth D (by simp), hmem x (hboth C (by simp))⟩

theorem byArea_eq (cur : Nat) (m : AdMap) :
    c.byArea cur m = if c.unfiltered then some m else c.restrict cur m c.areaSet := by
  rw [Call.byArea, Call.unfiltered]
  generalize c.areaSet = r
  cases c.ipRecord with
  | none => rfl
  | some e => cases isArray r <;> simp

end Area

/-- How an ad may have come through the location filter. -/
inductive Call.Placed (c : Call) (ids : List Bytes) (x : Bytes) : Prop where
  | debug (h : c.debug)
  | covered (h : c.Covered ids x)
  | area (h : some x ∈ elementsOf c.areaSet)
  | unfiltered (h : c.unfiltered)

/-- The covered ads if there are any, else those of the area. -/
theorem locate_eq {cur : Nat} {m : AdMap} {r : Nat × AdMap} (hdebug : c.debug = false)
    (hr : c.covered cur m = some r) :
    c.locate cur m = if egHtEmpty r.2 then c.byArea r.1 m else some r.2 := by
  rw [Call.locate, if_neg (Bool.eq_false_iff.1 hdebug), hr]
  rfl

theorem locate_spec (hc : c.Canonical) {cur : Nat} {m : AdMap} {D : List AdEntry}
    (h : Holds cur m D) :
    ∃ m' n B, c.locate cur m = some m' ∧ Holds n m' B ∧
      ∀ x, HasId B x → HasId D x ∧ c.Placed (D.map (·.val)) x := by
  by_cases hdebug : c.debug
  · rw [Call.locate, if_pos hdebug]
    exact ⟨m, cur, D, rfl, h, fun x hx => ⟨hx, .debug hdebug⟩⟩
  · obtain ⟨⟨cur', n⟩, C, hcov, hle, hC, hmem⟩ := covered_spec hc h
    rw [locate_eq (Bool.eq_false_iff.2 hdebug) hcov]
    split
    · rw [byArea_eq]
      split
      · rename_i hun
        exact ⟨m, cur, D, rfl, h, fun x hx => ⟨hx, .unfiltered hun⟩⟩
      · obtain ⟨m', k, B, hm', hB, hboth⟩ := restrict_spec (c := c) (h.mono hle) (areaSet_ids hc)
        exact ⟨m', k, B, hm', hB, fun x hx => ⟨(hboth x hx).1, .area (hboth x hx).2⟩⟩
    · refine ⟨n, cur', C, rfl, hC, fun x hx => ⟨?_, .covered (hmem x hx)⟩⟩
      obtain ⟨e, he, hv⟩ := List.mem_map.1 (hmem x hx).mem
      exact ⟨e, he, hv⟩

end Doorhinges.GetAd

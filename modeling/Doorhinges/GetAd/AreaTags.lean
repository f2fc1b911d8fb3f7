import Doorhinges.GetAd.Located

/-!
# The tags of the area lookup

`get_ad` splits three kinds of records into the one array `arr`: the record of the app, the
coverage records, and the address record. The address record need not have a field for each
of the entries its tags are made from.
-/
namespace Doorhinges.GetAd

open Lib.CString
open Lib.Redis (Reply)
open Hashtable

/-- An entry of `arr`. -/
inductive Pointer where
  | unset
  | null
  | text (s : Bytes)
  deriving DecidableEq

abbrev Arr := Nat → Pointer

/-- The fields go to the first entries; the others stay. -/
def Arr.fill (arr : Arr) (fields : List Bytes) : Arr := fun i =>
  (fields[i]?.map Pointer.text).getD (arr i)

/-- The text `%s` prints; absent where there is none. -/
def Pointer.read : Pointer → Option Bytes
  | .text s => some s
  | _ => none

section Source

variable (c : Call)

/-- The loop over the record of the app, which also stores the null pointer it stops at. -/
def Call.arrApp : Arr :=
  match c.reply (.appLib (c.log.ppId.getD []) (c.log.appId.getD [])) with
  | some (.str s) =>
    let fields := s.splitOn 124
    Arr.fill (fun i => if i = fields.length ∧ i < MAX_DELIM_NUM then .null else .unset)
      (fields.take MAX_DELIM_NUM)
  | _ => fun _ => .unset

/-- Splitting the types of the app cuts them in place. -/
def Call.arrTypes : Arr :=
  match c.appFields with
  | some fields =>
    if arrayReplyEmpty (c.reply (.localApp (fields[2]?.getD []))) then
      c.arrApp.fill [(fields[0]?.getD []).takeWhile (· ≠ 44)]
    else c.arrApp
  | none => c.arrApp

/-- One round of the loop over the coverage records. -/
def coverArr (arr : Arr) (e : Option Bytes) : Arr :=
  match e.filter (· ≠ []) with
  | some record => arr.fill ((record.splitOn 44).take MAX_DELIM_NUM)
  | none => arr

/-- The array at the area lookup; `m` has the ads that are to be located. -/
def Call.arrCovered (m : AdMap) : Option Arr :=
  if c.log.lg ≠ [] ∧ c.log.lat ≠ [] then do
    let ids ← texts m
    match c.reply (.coverage (ids.take (MAX_DEMli - 2))) with
    | some (.array es) => some (es.foldl coverArr c.arrTypes)
    | _ => some c.arrTypes
  else some c.arrTypes

/-- The arguments of the SUNION for an address record. -/
def areaArguments (arr : Arr) (record : Bytes) : Option (List Bytes) := do
  let arr := arr.fill ((record.splitOn 44).take 4)
  let tag := ascii "tag:address:city:"
  let a ← (arr 0).read
  let b ← (arr 1).read
  let d ← (arr 2).read
  some [snprintf 48 (tag ++ a), snprintf 72 (tag ++ a ++ b), snprintf 96 (tag ++ a ++ b ++ d),
    tagchinautf8]

/-- The request comes to the area lookup with this record, `arr` being what it is by then. -/
def Call.LooksUp (record : Bytes) (arr : Arr) : Prop :=
  c.log.missing = false ∧ c.debug = false ∧ c.ipRecord = some (some record) ∧
    ∃ cur m r, c.survivors = some (some (cur, m)) ∧ c.covered cur m = some r ∧
      egHtEmpty r.2 = true ∧ c.arrCovered m = some arr

end Source

/-- A field of an address record; a missing one is empty. -/
def areaField (record : Bytes) (i : Nat) : Bytes := (record.splitOn 44)[i]?.getD []

/-- The tags of the three areas of an address record. -/
def cityTags (record : Bytes) : List Bytes :=
  [ascii "tag:address:city:" ++ areaField record 0,
    ascii "tag:address:city:" ++ areaField record 0 ++ areaField record 1,
    ascii "tag:address:city:" ++ areaField record 0 ++ areaField record 1 ++ areaField record 2]

/-- The tags fit `area1`, `area2` and `area3`. -/
def TagsFit (record : Bytes) : Prop := ∀ t ∈ (cityTags record).zip [48, 72, 96], t.1.length < t.2

instance (record : Bytes) : Decidable (TagsFit record) :=
  inferInstanceAs (Decidable (∀ t ∈ _, _))

/-- The lookup asks for the tags of the address record and of the country. -/
def OwnTags (record : Bytes) (arr : Arr) : Prop :=
  areaArguments arr record = some (cityTags record ++ [tagchinautf8])

instance (record : Bytes) (arr : Arr) : Decidable (OwnTags record arr) :=
  inferInstanceAs (Decidable (_ = _))

section Entries

variable {record x b : Bytes} {arr : Arr} {n i : Nat}

@[simp] theorem read_text (s : Bytes) : (Pointer.text s).read = some s := rfl

theorem read_eq_some {p : Pointer} : p.read = some x ↔ p = .text x := by
  cases p <;> simp [Pointer.read]

theorem snprintf_fits (h : x.length < n) : snprintf n x = x :=
  List.take_of_length_le (Nat.le_sub_one_of_lt h)

/-- Nothing has been printed behind a text that leaves room. -/
theorem nil_of_snprintf (hroom : x.length + 1 < n) (h : snprintf n (x ++ b) = x) : b = [] := by
  cases b with
  | nil => rfl
  | cons c b =>
    have hlen := congrArg List.length h
    rw [snprintf, List.length_take, List.length_append, List.length_cons] at hlen
    omega

/-- The entries the tags are made from. -/
theorem fill_field (hi : i < 4) : (arr.fill ((record.splitOn 44).take 4)) i =
    if i < (record.splitOn 44).length then .text (areaField record i) else arr i := by
  rw [Arr.fill, List.getElem?_take_of_lt hi, areaField]
  by_cases h : i < (record.splitOn 44).length
  · rw [if_pos h, List.getElem?_eq_getElem h]
    rfl
  · rw [if_neg h, List.getElem?_eq_none (Nat.le_of_not_lt h)]
    rfl

theorem areaField_missing (h : (record.splitOn 44).length ≤ i) : areaField record i = [] := by
  rw [areaField, List.getElem?_eq_none h]
  rfl

/-- For one call: what the earlier records have left in place of the missing fields is
empty. -/
theorem ownTags_iff (hfit : TagsFit record) :
    OwnTags record arr ↔ ∀ i < 3, (record.splitOn 44).length ≤ i → arr i = .text [] := by
  have hpos : 0 < (record.splitOn 44).length :=
    List.length_pos_iff.2 (List.splitOn_ne_nil _ _)
  have hfirst : (arr.fill ((record.splitOn 44).take 4)) 0 = .text (areaField record 0) := by
    rw [fill_field (by decide), if_pos hpos]
  have h₁ := @fill_field record arr 1 (by decide)
  have h₂ := @fill_field record arr 2 (by decide)
  simp only [TagsFit, cityTags, List.zip_cons_cons, List.zip_nil_right, List.forall_mem_cons,
    List.not_mem_nil, false_imp_iff, implies_true, and_true] at hfit
  obtain ⟨hfit₁, hfit₂, hfit₃⟩ := hfit
  constructor
  · intro h
    simp only [OwnTags, areaArguments, hfirst, read_text, Option.bind_eq_bind, Option.bind_some,
      Option.bind_eq_some_iff, read_eq_some] at h
    obtain ⟨b, hb, d, hd, heq⟩ := h
    simp only [cityTags, List.cons_append, List.nil_append, Option.some.injEq,
      List.cons.injEq] at heq
    obtain ⟨-, heq₂, heq₃, -⟩ := heq
    rw [h₁] at hb
    rw [h₂] at hd
    -- the second tag determines the second entry, and with it the third tag the third
    have hsecond : b = areaField record 1 := by
      by_cases hlt : 1 < (record.splitOn 44).length
      · rw [if_pos hlt] at hb
        exact (Pointer.text.inj hb).symm
      · rw [areaField_missing (Nat.le_of_not_lt hlt), List.append_nil] at heq₂
        rw [areaField_missing (Nat.le_of_not_lt hlt)]
        exact nil_of_snprintf (by omega) heq₂
    have hthird : ¬ 2 < (record.splitOn 44).length → d = [] := by
      intro hlt
      rw [hsecond, areaField_missing (Nat.le_of_not_lt hlt), List.append_nil] at heq₃
      exact nil_of_snprintf (by omega) heq₃
    intro i hi hle
    obtain rfl | rfl | rfl : i = 0 ∨ i = 1 ∨ i = 2 := by omega
    · omega
    · rw [if_neg (by omega)] at hb
      rw [hb, hsecond, areaField_missing hle]
    · rw [if_neg (by omega)] at hd
      rw [hd, hthird (by omega)]
  · intro h
    have hown : ∀ i < 3,
        (arr.fill ((record.splitOn 44).take 4)) i = .text (areaField record i) := by
      intro i hi
      rw [fill_field (by omega)]
      by_cases hlt : i < (record.splitOn 44).length
      · rw [if_pos hlt]
      · rw [if_neg hlt, h i hi (Nat.le_of_not_lt hlt), areaField_missing (Nat.le_of_not_lt hlt)]
    rw [OwnTags, areaArguments]
    simp only [hown 0 (by decide), hown 1 (by decide), hown 2 (by decide), read_text,
      Option.bind_eq_bind, Option.bind_some]
    rw [snprintf_fits hfit₁, snprintf_fits hfit₂, snprintf_fits hfit₃]
    rfl

/-- The model of `get_ad` has the same tags where its array holds what `arr` holds. -/
theorem areaArguments_eq {c : Call} {tags : List Bytes}
    (hc : ∀ i s, arr i = .text s → c.arr i = s) (h : areaArguments arr record = some tags) :
    c.areaTags record = tags := by
  have hfield : ∀ i < 4, ∀ a, arr.fill ((record.splitOn 44).take 4) i = .text a →
      (record.splitOn 44)[i]?.getD (c.arr i) = a := by
    intro i hi a ha
    rw [fill_field hi] at ha
    by_cases hlt : i < (record.splitOn 44).length
    · rw [if_pos hlt] at ha
      rw [← Pointer.text.inj ha, areaField, List.getElem?_eq_getElem hlt]
      rfl
    · rw [if_neg hlt] at ha
      rw [List.getElem?_eq_none (Nat.le_of_not_lt hlt)]
      exact hc i a ha
  simp only [areaArguments, Option.bind_eq_bind, Option.bind_eq_some_iff, read_eq_some] at h
  obtain ⟨a, ha, b, hb, d, hd, heq⟩ := h
  obtain rfl := Option.some.inj heq
  rw [Call.areaTags]
  dsimp only
  rw [hfield 0 (by decide) a ha, hfield 1 (by decide) b hb, hfield 2 (by decide) d hd]

end Entries

namespace Sample

/-- The ad 7 is in every set, and the request has no position; `app` is the record of the
app, and the array holds the fields of one. -/
def areaCall (app : Option Reply) (record : Bytes) : Call where
  log :=
    { ppId := some (ascii "13"), appId := some (ascii "1"), category := some (ascii "2")
      uuid := some (ascii "u"), clinet := some (ascii "1"), opreator := some (ascii "1")
      adSpaceType := some (ascii "1"), deviceType := some (ascii "1"), ip := ascii "1.2.3.4"
      lg := [], lat := [], adnum := 1 }
  types := []
  reply
    | .tagUuid _ => some (.array [])
    | .coverage _ => none
    | .debugip => none
    | .ipArea _ => some (.array [some record])
    | .lastrequest _ _ => none
    | .appLib _ _ => app
    | _ => some (.array [some (ascii "7")])
  near _ _ _ _ _ := false
  rand := 0
  nodes := fun _ => ⟨0, [], none, none, none, none, 0⟩
  arr i := [ascii "1", ascii "Music", ascii "1797"][i]?.getD []
  buffer := List.replicate 64 0

theorem areaCall_canonical (app : Option Reply) (record : Bytes) :
    (areaCall app record).Canonical where
  ids q hq := by
    have h7 : IsId (ascii "7") := ⟨7, by decide, by decide, by decide⟩
    cases q <;> simp [Query.listsIds] at hq <;>
      simp [Ids, elementsOf, areaCall, Reply.elements, h7]
  coverage ids es h := by cases h

theorem areaCall_appReply (app : Option Reply) (record : Bytes) :
    (areaCall app record).appReply = some (.array [some (ascii "7")]) := by
  rw [Call.appReply]
  split <;> rfl

theorem areaCall_survives (app : Option Reply) (record : Bytes) :
    (areaCall app record).Survives (ascii "7") := by
  have hsets : (areaCall app record).sets =
      List.replicate 3 (some (.array [some (ascii "7")])) := by
    rw [Call.sets, areaCall_appReply]
    rfl
  refine ⟨?_, List.not_mem_nil⟩
  rw [hsets]
  decide

theorem areaCall_looksUp (app : Option Reply) (record : Bytes) :
    (areaCall app record).LooksUp record (areaCall app record).arrTypes := by
  obtain ⟨o, ho, -, hgone⟩ := survivors_spec (areaCall_canonical app record)
  obtain ⟨⟨cur, m⟩, rfl⟩ : ∃ s, o = some s := by
    cases o with
    | some s => exact ⟨s, rfl⟩
    | none =>
      rcases hgone rfl with hno | ⟨r, hr, hempty⟩
      · exact absurd (areaCall_survives app record) (hno _)
      · rw [areaCall_appReply] at hr
        obtain rfl : r = some (.array [some (ascii "7")]) := by
          revert hr
          simp [Call.baseSets, areaCall]
        cases hempty
  refine ⟨rfl, rfl, rfl, cur, m, (cur, getHtMap _), ho, rfl, ?_, rfl⟩
  rw [(@holds_empty cur _).empty]
  rfl

end Sample

/-- The records whose tags do not depend on what has been split before them. -/
theorem areaTags_own_iff {record : Bytes} (hfit : TagsFit record) :
    (∀ (c : Call) (arr : Arr), c.LooksUp record arr → OwnTags record arr) ↔
      3 ≤ (record.splitOn 44).length := by
  constructor
  · intro h
    by_contra hshort
    have hunset := (ownTags_iff hfit).1 (h _ _ (Sample.areaCall_looksUp none record)) 2
      (by decide) (by omega)
    cases hunset
  · intro hlen c arr _
    exact (ownTags_iff hfit).2 fun i hi hle => by omega

theorem areaTags_own_province : (∀ (c : Call) (arr : Arr),
    c.LooksUp (ascii "CN,BJ,Haidian") arr → OwnTags (ascii "CN,BJ,Haidian") arr) ∧
      3 ≤ ((ascii "CN,BJ,Haidian").splitOn 44).length :=
  have hfields : 3 ≤ ((ascii "CN,BJ,Haidian").splitOn 44).length := by decide
  ⟨(areaTags_own_iff (by decide)).2 hfields, hfields⟩

/-- With an address record of one field the name of the app gets into the tags. -/
theorem app_name_in_tags : ∃ (c : Call) (arr : Arr), c.LooksUp (ascii "CN") arr ∧
    c.reply (.appLib (ascii "13") (ascii "1")) = some (.str (ascii "1|Music|1797")) ∧
    areaArguments arr (ascii "CN") = some
      [ascii "tag:address:city:CN", ascii "tag:address:city:CNMusic",
        ascii "tag:address:city:CNMusic1797", tagchinautf8] ∧
      c.areaTags (ascii "CN") = [ascii "tag:address:city:CN", ascii "tag:address:city:CNMusic",
        ascii "tag:address:city:CNMusic1797", tagchinautf8] ∧
      TagsFit (ascii "CN") ∧ ¬ OwnTags (ascii "CN") arr := by
  have hlooks := Sample.areaCall_looksUp (some (.str (ascii "1|Music|1797"))) (ascii "CN")
  have htags : areaArguments
      (Sample.areaCall (some (.str (ascii "1|Music|1797"))) (ascii "CN")).arrTypes (ascii "CN") =
        some [ascii "tag:address:city:CN", ascii "tag:address:city:CNMusic",
          ascii "tag:address:city:CNMusic1797", tagchinautf8] := by decide
  refine ⟨_, _, hlooks, rfl, htags, areaArguments_eq (fun i s hs => ?_) htags, by decide,
    by decide⟩
  match i with
  | 0 | 1 | 2 => exact Pointer.text.inj hs
  | 3 => cases hs
  | i + 4 => cases hs

end Doorhinges.GetAd

import Doorhinges.GetAd.Model

/-!
# What get_ad selects

With canonical ids in the replies the maps always stand for lists of entries. Each stage
of `get_ad` keeps entries of the stage before, so an id that is picked has passed all.
-/
namespace Doorhinges.GetAd

open Lib.CString
open Lib.Redis (Reply)
open Hashtable

/-- The reply lists ad ids. -/
def Query.listsIds : Query → Bool
  | .ipArea _ | .lastrequest _ _ | .appLib _ _ | .debugip | .coverage _ => false
  | _ => true

/-- The record begins with the id. -/
def StartsWith (id : Bytes) (record : Option Bytes) : Prop :=
  ∀ r, record = some r → (r.splitOn 44).head? = some id

/-- The ids in the replies are canonical, and a coverage record begins with the id it was
asked for. -/
structure Call.Canonical (c : Call) : Prop where
  ids : ∀ q, q.listsIds → Ids (elementsOf (c.reply q))
  coverage : ∀ ids es, c.reply (.coverage ids) = some (.array es) →
    List.Forall₂ StartsWith ids es

variable {c : Call}

section Fetch

theorem HoldAll.mono {cur n : Nat} {ms : List AdMap} {As : List (List AdEntry)}
    (h : HoldAll cur ms As) (hn : cur ≤ n) : HoldAll n ms As :=
  h.imp fun _ _ hm => hm.mono hn

/-- The map of the entries has the id. -/
def HasId (A : List AdEntry) (x : Bytes) : Prop := ∃ e ∈ A, e.val = x

/-- The map of the entries has exactly those ids. -/
def Lists (A : List AdEntry) (es : List (Option Bytes)) : Prop :=
  ∀ x, HasId A x ↔ some x ∈ es

theorem lists_all {As : List (List AdEntry)} {ls : List (List (Option Bytes))}
    (h : List.Forall₂ Lists As ls) (x : Bytes) :
    (∀ A ∈ As, HasId A x) ↔ ∀ l ∈ ls, some x ∈ l := by
  induction h with
  | nil => simp
  | cons hA _ ih => rw [List.forall_mem_cons, List.forall_mem_cons, hA x, ih]

/-- What of each reply has found nodes in the pool, from its `cur`-th node on. -/
def allFitting : Nat → List (Option Reply) → List (List (Option Bytes))
  | _, [] => []
  | cur, r :: rs =>
    fitting cur (elementsOf r) ::
      allFitting (cur + (fitting cur (elementsOf r)).length) rs

theorem HoldAll.of_mem {cur : Nat} {ms : List AdMap} {As : List (List AdEntry)}
    (h : HoldAll cur ms As) {A : List AdEntry} (hA : A ∈ As) : ∃ m, Holds cur m A := by
  induction h with
  | nil => exact absurd hA List.not_mem_nil
  | @cons m B ms Bs hm _ ih =>
    rcases List.mem_cons.1 hA with rfl | hA
    · exact ⟨m, hm⟩
    · exact ih hA

/-- What the stages that add maps leave. -/
structure Fetched (s : Maps) (rs : List (Option Reply)) (As : List (List AdEntry)) : Prop where
  hold : HoldAll s.cur s.maps As
  lists : List.Forall₂ Lists As (allFitting 0 rs)
  cur_eq : s.cur = ((allFitting 0 rs).map List.length).sum

theorem allFitting_snoc (cur : Nat) (rs : List (Option Reply)) (r : Option Reply) :
    allFitting cur (rs ++ [r]) = allFitting cur rs ++
      [fitting (cur + ((allFitting cur rs).map List.length).sum) (elementsOf r)] := by
  induction rs generalizing cur with
  | nil => simp [allFitting]
  | cons q rs ih => simp [allFitting, ih, Nat.add_assoc]

theorem addMap_spec {s : Maps} {rs : List (Option Reply)} {As : List (List AdEntry)}
    (h : Fetched s rs As) {r : Option Reply} (hr : Ids (elementsOf r)) :
    ∃ s' B, c.addMap s r = some s' ∧ Fetched s' (rs ++ [r]) (As ++ [B]) := by
  obtain ⟨⟨cur, m⟩, B, hinit, hB, hcur, hlists⟩ := initMap_new c.nodes s.cur hr
  have hle : s.cur ≤ cur := by
    dsimp only at hcur
    omega
  refine ⟨⟨cur, s.maps ++ [m]⟩, B, by simp [Call.addMap, hinit], ?_, ?_, ?_⟩
  · exact List.rel_append (h.hold.mono hle) (.cons hB .nil)
  · rw [allFitting_snoc, Nat.zero_add, ← h.cur_eq]
    exact List.rel_append h.lists (.cons hlists .nil)
  · rw [allFitting_snoc, Nat.zero_add, ← h.cur_eq]
    dsimp only at hcur ⊢
    simp [hcur, h.cur_eq]

theorem addSet_spec (s : Maps × Bool) (rs : List (Option Reply))
    (h : s.2 = false → ∃ As, Fetched s.1 rs As) {r : Option Reply} (hr : Ids (elementsOf r)) :
    ∃ s', c.addSet s r = some s' ∧
      (s'.2 = false → ∃ As, Fetched s'.1 (rs ++ [r].filter (·.isSome)) As) ∧
        (s'.2 = true → s.2 = true ∨ arrayReplyEmpty r) := by
  rw [Call.addSet]
  by_cases hskip : r.isNone || s.2
  · rw [if_pos hskip]
    refine ⟨s, rfl, fun hs => ?_, Or.inl⟩
    have hnone : r = none := by simpa [hs] using hskip
    simpa [hnone] using h hs
  · rw [if_neg hskip]
    by_cases hempty : arrayReplyEmpty r
    · rw [if_pos hempty]
      exact ⟨_, rfl, fun hs => (by cases hs), fun _ => Or.inr hempty⟩
    · rw [if_neg hempty]
      have hflags : r.isSome ∧ s.2 = false := by
        cases r <;> simp_all
      obtain ⟨As, hAs⟩ := h hflags.2
      obtain ⟨s', B, hs', hB⟩ := addMap_spec (c := c) hAs hr
      refine ⟨(s', false), by rw [hs']; rfl, fun _ => ⟨As ++ [B], ?_⟩, fun h => (by cases h)⟩
      simpa [hflags.1] using hB

/-- The sets of support types, when there are several, of the request's tags, and of the
platform's own ads and everybody's. -/
def Call.baseSets (c : Call) : List (Option Reply) :=
  (if 1 < c.types.length then [c.reply (.types c.types)] else []) ++
    [c.reply (.targeting (if c.types.length = 1 then c.types else []))] ++
    [c.reply (.privates (c.log.ppId.getD []))]

/-- The sets every ad must be in, as far as they have been answered. -/
def Call.sets (c : Call) : List (Option Reply) :=
  (c.baseSets ++ [c.appReply]).filter (·.isSome)

theorem appReply_ids (hc : c.Canonical) : Ids (elementsOf c.appReply) := by
  rw [Call.appReply]
  split
  · exact hc.ids _ rfl
  · dsimp only
    split
    · exact hc.ids _ rfl
    · exact hc.ids _ rfl

theorem fetched_start : Fetched ⟨0, []⟩ [] [] := ⟨.nil, .nil, rfl⟩

theorem addTypes_spec (hc : c.Canonical) :
    ∃ s, c.addTypes = some s ∧ (s.2 = false → ∃ As, Fetched s.1
      ((if 1 < c.types.length then [c.reply (.types c.types)] else []).filter (·.isSome)) As) ∧
        (s.2 = true → ∃ r ∈ c.baseSets, arrayReplyEmpty r) := by
  rw [Call.addTypes]
  by_cases htypes : 1 < c.types.length
  · rw [if_pos htypes, if_pos htypes]
    obtain ⟨s, hs, h, hempty⟩ := addSet_spec (c := c) (⟨0, []⟩, false) []
      (fun _ => ⟨[], fetched_start⟩) (hc.ids (.types c.types) rfl)
    refine ⟨s, hs, h, fun h => ⟨_, ?_, (hempty h).resolve_left (by simp)⟩⟩
    simp [Call.baseSets, htypes]
  · rw [if_neg htypes, if_neg htypes]
    exact ⟨_, rfl, fun _ => ⟨[], fetched_start⟩, fun h => by cases h⟩

theorem addSets_spec (hc : c.Canonical) :
    ∃ s, c.addSets = some s ∧
      (s.2 = false → ∃ As, Fetched s.1 (c.baseSets.filter (·.isSome)) As) ∧
        (s.2 = true → ∃ r ∈ c.baseSets, arrayReplyEmpty r) := by
  obtain ⟨s₁, hs₁, h₁, he₁⟩ := addTypes_spec hc
  obtain ⟨s₂, hs₂, h₂, he₂⟩ := addSet_spec (c := c) _ _ h₁
    (hc.ids (.targeting (if c.types.length = 1 then c.types else [])) rfl)
  obtain ⟨s₃, hs₃, h₃, he₃⟩ := addSet_spec (c := c) _ _ h₂
    (hc.ids (.privates (c.log.ppId.getD [])) rfl)
  refine ⟨s₃, by simp [Call.addSets, hs₁, hs₂, hs₃], fun hs => ?_, fun hs => ?_⟩
  · rw [Call.baseSets, List.filter_append, List.filter_append]
    exact h₃ hs
  · rcases he₃ hs with hs | hr
    · rcases he₂ hs with hs | hr
      · exact he₁ hs
      · exact ⟨_, by simp [Call.baseSets], hr⟩
    · exact ⟨_, by simp [Call.baseSets], hr⟩

/-- `fetch` gives up when a set is empty; else there is a map for each set. -/
theorem fetch_spec (hc : c.Canonical) :
    ∃ o, c.fetch = some o ∧ (∀ s, o = some s → ∃ As, As ≠ [] ∧ Fetched s c.sets As) ∧
      (o = none → ∃ r ∈ c.baseSets ++ [c.appReply], arrayReplyEmpty r) := by
  obtain ⟨s, hs, hAs, hgone⟩ := addSets_spec hc
  rw [Call.fetch, hs]
  simp only [Option.bind_eq_bind, Option.bind_some]
  by_cases hempty : s.2 || arrayReplyEmpty c.appReply
  · rw [if_pos hempty]
    refine ⟨none, rfl, fun _ h => (by cases h), fun _ => ?_⟩
    rcases Bool.or_eq_true _ _ ▸ hempty with hs | happ
    · obtain ⟨r, hr, he⟩ := hgone hs
      exact ⟨r, List.mem_append_left _ hr, he⟩
    · exact ⟨_, by simp, happ⟩
  · rw [if_neg hempty]
    rw [Bool.or_eq_true, not_or] at hempty
    obtain ⟨As, hfetched⟩ := hAs (by simpa using hempty.1)
    obtain ⟨s', B, hs', hB⟩ := addMap_spec (c := c) hfetched (appReply_ids hc)
    have happ : c.appReply.isSome := by
      cases h : c.appReply with
      | none => simp [h, arrayReplyEmpty] at hempty
      | some r => rfl
    refine ⟨some s', by rw [hs']; rfl, ?_, fun h => by cases h⟩
    rintro _ ⟨⟩
    refine ⟨As ++ [B], by simp, ?_⟩
    rw [Call.sets, List.filter_append, List.filter_cons_of_pos happ, List.filter_nil]
    exact hB

end Fetch

section Choose

/-- The first map comes out as the smallest, and none is lost. -/
theorem smallestFirst_spec {cur : Nat} {ms : List AdMap} {As : List (List AdEntry)}
    (h : HoldAll cur ms As) {m : AdMap} {A : List AdEntry} (hm : Holds cur m A) :
    ∃ B Bs, HoldAll cur ((smallestFirst m ms).1 :: (smallestFirst m ms).2) (B :: Bs) ∧
      (B :: Bs).Perm (A :: As) := by
  induction h generalizing m A with
  | nil => exact ⟨A, [], .cons hm .nil, .refl _⟩
  | @cons n N ns Ns hn hns ih =>
    rw [smallestFirst]
    split
    · obtain ⟨B, Bs, hB, hperm⟩ := ih hn
      obtain ⟨hfirst, hrest⟩ := List.forall₂_cons.1 hB
      refine ⟨B, A :: Bs, .cons hfirst (.cons hm hrest), ?_⟩
      exact (List.Perm.swap A B Bs).trans (hperm.cons A)
    · obtain ⟨B, Bs, hB, hperm⟩ := ih hm
      obtain ⟨hfirst, hrest⟩ := List.forall₂_cons.1 hB
      refine ⟨B, N :: Bs, .cons hfirst (.cons hn hrest), ?_⟩
      exact (List.Perm.swap N B Bs).trans ((hperm.cons N).trans (List.Perm.swap A N Ns))

theorem Holds.hasKey_iff {cur : Nat} {m : AdMap} {A : List AdEntry} (h : Holds cur m A)
    {x : Bytes} (hx : IsId x) : hasKey A (idKey x) ↔ HasId A x := by
  rw [GetAd.hasKey_iff]
  constructor
  · rintro ⟨e, he, hkey⟩
    rw [h.keys e he] at hkey
    exact ⟨e, he, (h.ids e he).eq hx hkey⟩
  · rintro ⟨e, he, rfl⟩
    exact ⟨e, he, h.keys e he⟩

/-- The ids of the intersection are those of all maps. -/
theorem inter_hasId {cur : Nat} {m : AdMap} {ms : List AdMap} {B : List AdEntry}
    {Bs : List (List AdEntry)} (hm : Holds cur m B) (hms : HoldAll cur ms Bs) (x : Bytes) :
    HasId (B.filter fun e => Bs.all fun C => hasKey C e.key) x ↔ ∀ A ∈ B :: Bs, HasId A x := by
  have hall : ∀ e ∈ B, (Bs.all fun C => hasKey C e.key) ↔ ∀ C ∈ Bs, HasId C e.val := by
    intro e he
    rw [List.all_eq_true, hm.keys e he]
    refine forall_congr' fun C => imp_congr_right fun hC => ?_
    obtain ⟨n, hn⟩ := hms.of_mem hC
    exact hn.hasKey_iff (hm.ids e he)
  rw [List.forall_mem_cons]
  constructor
  · rintro ⟨e, he, rfl⟩
    obtain ⟨heB, hkeys⟩ := List.mem_filter.1 he
    exact ⟨⟨e, heB, rfl⟩, (hall e heB).1 hkeys⟩
  · rintro ⟨⟨e, he, rfl⟩, hC⟩
    exact ⟨e, List.mem_filter.2 ⟨he, (hall e he).2 hC⟩, rfl⟩

/-- The id is in every set, as far as the pool has nodes, and not kept from the device. -/
def Call.Survives (c : Call) (x : Bytes) : Prop :=
  (∀ l ∈ allFitting 0 c.sets, some x ∈ l) ∧
    some x ∉ elementsOf (c.reply (.tagUuid (c.log.uuid.getD [])))

theorem survivors_spec (hc : c.Canonical) :
    ∃ o, c.survivors = some o ∧
      (∀ s, o = some s → ∃ D, Holds s.1 s.2 D ∧ ∀ x, HasId D x ↔ c.Survives x) ∧
        (o = none → (∀ x, ¬ c.Survives x) ∨ ∃ r ∈ c.baseSets ++ [c.appReply], arrayReplyEmpty r) := by
  obtain ⟨o, ho, hfetched, hgone⟩ := fetch_spec hc
  rw [Call.survivors, ho]
  simp only [Option.bind_eq_bind, Option.bind_some]
  match o with
  | none => exact ⟨none, rfl, fun _ h => (by cases h), fun _ => Or.inr (hgone rfl)⟩
  | some ⟨cur, ms⟩ =>
    obtain ⟨As, hne, hAs⟩ := hfetched _ rfl
    have hhold := hAs.hold
    match ms, As with
    | [], [] => exact absurd rfl hne
    | m :: ms, A :: As =>
      obtain ⟨hm, hms⟩ := List.forall₂_cons.1 hhold
      obtain ⟨B, Bs, hB, hperm⟩ := smallestFirst_spec hms hm
      obtain ⟨hfirst, hrest⟩ := List.forall₂_cons.1 hB
      obtain ⟨m₁, hm₁, h₁⟩ := getInter_spec hrest hfirst
      have hids := inter_hasId hfirst hrest
      generalize B.filter _ = C at h₁ hids
      have hC : ∀ x, HasId C x ↔ ∀ l ∈ allFitting 0 c.sets, some x ∈ l := by
        intro x
        rw [hids x, ← lists_all hAs.lists x]
        exact forall_congr' fun D => imp_congr_left hperm.mem_iff
      dsimp only
      rw [hm₁]
      simp only [Option.bind_some]
      rw [h₁.empty]
      by_cases hnil : C = []
      · subst hnil
        refine ⟨none, rfl, fun _ h => (by cases h), fun _ => Or.inl fun x hx => ?_⟩
        obtain ⟨e, he, -⟩ := (hC x).2 hx.1
        exact absurd he List.not_mem_nil
      · obtain ⟨m₂, hm₂, h₂⟩ := removeIds_spec h₁ (hc.ids (.tagUuid (c.log.uuid.getD [])) rfl)
        have hD : ∀ x, HasId (C.filter fun e =>
            some e.val ∉ elementsOf (c.reply (.tagUuid (c.log.uuid.getD [])))) x ↔
              c.Survives x := by
          intro x
          rw [Call.Survives, ← hC x]
          constructor
          · rintro ⟨e, he, rfl⟩
            obtain ⟨heC, hnot⟩ := List.mem_filter.1 he
            exact ⟨⟨e, heC, rfl⟩, by simpa using hnot⟩
          · rintro ⟨⟨e, he, rfl⟩, hnot⟩
            exact ⟨e, List.mem_filter.2 ⟨he, by simpa using hnot⟩, rfl⟩
        rw [if_neg (by simpa using hnil), hm₂]
        simp only [Option.bind_some]
        rw [h₂.empty]
        generalize C.filter _ = D at h₂ hD
        cases D with
        | nil =>
          refine ⟨none, rfl, fun _ h => (by cases h), fun _ => Or.inl fun x hx => ?_⟩
          obtain ⟨e, he, -⟩ := (hD x).2 hx
          exact absurd he List.not_mem_nil
        | cons e D =>
          refine ⟨some (cur, m₂), rfl, ?_, fun h => (by cases h)⟩
          rintro _ ⟨⟩
          exact ⟨e :: D, h₂, hD⟩

end Choose

end Doorhinges.GetAd

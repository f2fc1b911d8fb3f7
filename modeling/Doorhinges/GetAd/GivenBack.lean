import Doorhinges.GetAd.Storage
import Doorhinges.Lib.Machine
import Mathlib.Data.List.FinRange

/-!
# get_ad gives its storage back

Through every stage the entries of `maps` are the maps handed out, each once, and all other
maps of the pool are empty. So clearing the entries clears the pool.
-/
namespace Doorhinges.GetAd

open Lib.CString
open Lib.Partial
open Lib.Machine
open Lib.Redis (Reply)
open Hashtable

/-- The first `n` entries of `maps` are the maps handed out, and these stand for `E`. -/
structure Held (n : Nat) (s : Local) (E : MapId → List AdEntry) : Prop where
  stored : Stored s.pools E
  len : s.mapLen = n
  cur : s.pools.mapCur = n
  entry : ∀ i < n, ∃ m : MapId, s.maps i = some m ∧ (m : Nat) < n
  inj : ∀ i < n, ∀ j < n, s.maps i = s.maps j → i = j
  nodes : n = 0 → s.pools.nodeCur = 0

/-- The stage has `n` maps. -/
def Holding (n : Nat) (s : Local) : Prop := ∃ E, Held n s E

section Local

variable {N : Prop} {n : Nat} {s : Local} {E : MapId → List AdEntry}

/-- Other pools with the same maps handed out. -/
theorem Held.pools (h : Held n s E) (hn : 0 < n) {p : Pools} {F : MapId → List AdEntry}
    (hp : Stored p F) (hcur : p.mapCur = s.pools.mapCur) : Held n { s with pools := p } F :=
  ⟨hp, h.len, hcur.trans h.cur, h.entry, h.inj, fun hzero => by omega⟩

theorem Held.elements (h : Held n s E) {i : Nat} (hi : i < n) :
    ∃ m : MapId, s.maps i = some m ∧ s.elements i = some (E m).length := by
  obtain ⟨m, hm, -⟩ := h.entry i hi
  exact ⟨m, hm, by rw [Local.elements, hm, Option.map_some, h.stored.elements m]⟩

theorem Held.swap (h : Held n s E) {i j : Nat} (hi : i < n) (hj : j < n) :
    Held n (s.swap i j) E := by
  have hmaps : ∀ k, (s.swap i j).maps k =
      s.maps (if k = j then i else if k = i then j else k) := fun k => by
    change Function.update (Function.update s.maps i (s.maps j)) j (s.maps i) k = _
    by_cases hkj : k = j
    · rw [if_pos hkj, hkj, Function.update_self]
    · rw [if_neg hkj, Function.update_of_ne hkj]
      by_cases hki : k = i
      · rw [if_pos hki, hki, Function.update_self]
      · rw [if_neg hki, Function.update_of_ne hki]
  refine ⟨h.stored, h.len, h.cur, fun k hk => ?_, fun k hk l hl hkl => ?_, h.nodes⟩
  · rw [hmaps]
    exact h.entry _ (by split_ifs <;> assumption)
  · rw [hmaps, hmaps] at hkl
    have hsame := h.inj _ (by split_ifs <;> assumption) _ (by split_ifs <;> assumption) hkl
    split_ifs at hsame <;> omega

/-- The array with one entry more, for the next map of the pool. -/
theorem Held.push (h : Held n s E) (hn : n < MAP_POOL_SIZE) :
    ∃ p, s.pools.getHtMap = (some ⟨n, hn⟩, p) ∧ Stored p E ∧ p.mapCur = n + 1 ∧
      Held (n + 1) ⟨p, Function.update s.maps n (some ⟨n, hn⟩), n + 1⟩ E := by
  have hcur := h.cur
  subst hcur
  obtain ⟨p, hp, hstored, hp1⟩ := h.stored.getHtMap hn
  refine ⟨p, hp, hstored, hp1, hstored, rfl, hp1, fun i hi => ?_, fun i hi j hj hij => ?_,
    fun hzero => by omega⟩ <;> dsimp only at *
  · by_cases hin : i = s.pools.mapCur
    · exact ⟨_, by rw [hin, Function.update_self], Nat.lt_succ_self _⟩
    · obtain ⟨m, hm, hlt⟩ := h.entry i (by omega)
      exact ⟨m, by rw [Function.update_of_ne hin, hm], by omega⟩
  · by_cases hin : i = s.pools.mapCur
    · by_cases hjn : j = s.pools.mapCur
      · rw [hin, hjn]
      · obtain ⟨m, hm, hlt⟩ := h.entry j (by omega)
        rw [hin, Function.update_self, Function.update_of_ne hjn, hm] at hij
        rw [← Option.some.inj hij] at hlt
        exact absurd hlt (Nat.lt_irrefl _)
    · obtain ⟨m, hm, hlt⟩ := h.entry i (by omega)
      by_cases hjn : j = s.pools.mapCur
      · rw [hjn, Function.update_self, Function.update_of_ne hin, hm] at hij
        rw [Option.some.inj hij] at hlt
        exact absurd hlt (Nat.lt_irrefl _)
      · rw [Function.update_of_ne hin, Function.update_of_ne hjn] at hij
        exact h.inj i (by omega) j (by omega) hij

theorem Holding.addMap (h : Holding n s) (hn : n < MAP_POOL_SIZE) {r : Option Reply}
    (hr : N → none ∉ elementsOf r) : Yields N (s.addMap r) (Holding (n + 1)) := by
  obtain ⟨E, h⟩ := h
  obtain ⟨p, hp, hstored, hcur, hheld⟩ := h.push hn
  have hrun : s.addMap r = (do
      let q ← p.initMap ⟨n, hn⟩ (elementsOf r)
      some ⟨q, Function.update s.maps n (some ⟨n, hn⟩), n + 1⟩) := by
    rw [Local.addMap, hp, h.len]
    rfl
  rw [hrun]
  have hm : ((⟨n, hn⟩ : MapId) : Nat) < p.mapCur := by
    rw [hcur]
    exact Nat.lt_succ_self n
  refine ((hstored.initMap hm (elementsOf r)).weaken hr).bind fun q hq => ?_
  exact yields_some ⟨_, hheld.pools (Nat.succ_pos n) hq.1 hq.2.2⟩

/-- The first entry but one goes to the end, and the new map comes in its place. -/
theorem Holding.addFirst (h : Holding n s) (hpos : 1 ≤ n) (hn : n < MAP_POOL_SIZE) :
    ∃ t, s.addFirst = some t ∧ Holding (n + 1) t := by
  obtain ⟨E, h⟩ := h
  obtain ⟨p, hp, -, -, hheld⟩ := h.push hn
  have hmaps : Function.update (Function.update s.maps n (s.maps 1)) 1 (some ⟨n, hn⟩) =
      ((⟨p, Function.update s.maps n (some ⟨n, hn⟩), n + 1⟩ : Local).swap n 1).maps := by
    change _ = Function.update (Function.update (Function.update s.maps n _) n
      (Function.update s.maps n _ 1)) 1 (Function.update s.maps n _ n)
    by_cases hn1 : n = 1
    · subst hn1
      simp
    · rw [Function.update_self, Function.update_of_ne (Ne.symm hn1), Function.update_idem]
  refine ⟨_, ?_, E, hheld.swap (Nat.lt_succ_self n) (show 1 < n + 1 by omega)⟩
  rw [Local.addFirst, hp, h.len]
  exact congrArg (fun maps => some (⟨p, maps, n + 1⟩ : Local)) hmaps

theorem Held.inter (h : Held n s E) {len : Nat} (hlen : len < n) :
    ∃ t, s.inter len = some t ∧ Holding n t ∧ t.maps = s.maps := by
  have hall : (List.range (len + 1)).all fun i => (s.maps i).isSome := by
    rw [List.all_eq_true]
    intro i hi
    obtain ⟨m, hm, -⟩ := h.entry i (by have := List.mem_range.1 hi; omega)
    rw [hm]
    rfl
  have hentry : ∀ i ≤ len, s.maps i = some ((s.maps i).getD 0) := fun i hi => by
    obtain ⟨m, hm, -⟩ := h.entry i (by omega)
    rw [hm]
    rfl
  have hne : ∀ i ≤ len, ∀ j ≤ len, i ≠ j → (s.maps i).getD 0 ≠ (s.maps j).getD 0 :=
    fun i hi j hj hij hm => hij (h.inj i (by omega) j (by omega) (by
      rw [hentry i hi, hentry j hj, hm]))
  have ha : Intersection.Apart egNumKeys (fun i => (s.maps i).getD 0) len s.pools.heap
      fun i => E ((s.maps i).getD 0) :=
    ⟨fun i _ => h.stored.together.rep _, fun i hi j hj hij =>
      h.stored.together.apart _ _ (hne i hi j hj hij)⟩
  obtain ⟨h', hrun, hf, hrep, -⟩ := Intersection.getInter_survivors ha
  have hmem : ∀ e ∈ (E ((s.maps 0).getD 0)).filter fun e =>
      Intersection.survives egNumKeys len (fun i => E ((s.maps i).getD 0)) e.key,
      e ∈ E ((s.maps 0).getD 0) := fun e he => (List.mem_filter.1 he).1
  have ht := h.stored.together.change hrep hf.header
    (S := fun p => p ∈ (E ((s.maps 0).getD 0)).map (·.bucket))
    (fun _ hm _ he => h.stored.together.outside hm he)
    (fun e he => List.mem_map_of_mem (hmem e he)) hf.bucket
  refine ⟨{ s with pools := { s.pools with heap := h' } }, ?_,
    ⟨_, h.pools (by omega) (h.stored.sub ht rfl rfl hmem) rfl⟩, rfl⟩
  rw [Local.inter, if_pos hall, hrun]
  rfl

theorem Holding.inter (h : Holding n s) {len : Nat} (hlen : len < n) :
    ∃ t, s.inter len = some t ∧ Holding n t := by
  obtain ⟨E, h⟩ := h
  obtain ⟨t, ht, hheld, -⟩ := h.inter hlen
  exact ⟨t, ht, hheld⟩

theorem Holding.swap (h : Holding n s) {i j : Nat} (hi : i < n) (hj : j < n) :
    Holding n (s.swap i j) := by
  obtain ⟨E, h⟩ := h
  exact ⟨E, h.swap hi hj⟩

theorem Holding.smallestFirst (h : Holding n s) {k i : Nat} (hi : i + k = n) (hpos : 0 < i) :
    ∃ t, Local.smallestFirst k i s = some t ∧ Holding n t := by
  induction k generalizing i s with
  | zero => exact ⟨s, rfl, h⟩
  | succ k ih =>
    obtain ⟨E, hheld⟩ := id h
    obtain ⟨_, -, hfirst⟩ := hheld.elements (i := 0) (by omega)
    obtain ⟨_, -, hother⟩ := hheld.elements (i := i) (by omega)
    rw [Local.smallestFirst, hfirst, hother]
    refine ih (i := i + 1) ?_ (by omega) (by omega)
    split
    · exact h.swap (by omega) (by omega)
    · exact h

end Local

section Walks

variable {m : AdMap} {x y : List AdEntry}

theorem skip_first (n : Nat) (h : Represents egNumKeys m (x ++ y)) (hn : n ≤ y.length) :
    skip m n (first y) = some (first (y.drop n)) := by
  induction n generalizing x y with
  | zero => rfl
  | succ n ih =>
    cases y with
    | nil => simp at hn
    | cons e y =>
      rw [first, List.map_cons, List.head?_cons, skip, h.next, List.drop_succ_cons]
      exact ih (x := x ++ [e]) (by simpa using h) (by simpa using hn)

theorem take_first (n : Nat) (h : Represents egNumKeys m (x ++ y)) (hn : n ≤ y.length) :
    take m n (first y) = some ((y.take n).map (·.val)) := by
  induction n generalizing x y with
  | zero => rfl
  | succ n ih =>
    cases y with
    | nil => simp at hn
    | cons e y =>
      have hval : m.val e.bucket = e.val := h.val e (by simp)
      rw [first, List.map_cons, List.head?_cons, take, h.next, hval, List.take_succ_cons,
        ih (x := x ++ [e]) (by simpa using h) (by simpa using hn)]
      rfl

/-- A walk over a part of a map. -/
theorem take_from {A : List AdEntry} (h : Represents egNumKeys m A) {j n : Nat}
    (hn : j + n ≤ A.length) : ∃ it l, skip m j (egHtBegin m) = some it ∧ take m n it = some l := by
  have hskip := skip_first (x := []) j h (by omega)
  have htake := take_first (x := A.take j) (y := A.drop j) n (by rwa [List.take_append_drop])
    (by rw [List.length_drop]; omega)
  exact ⟨_, _, by rw [h.begin]; exact hskip, htake⟩

end Walks

section Stages

variable (c : Call)

/-- No reply has a null element. -/
def Call.Proper : Prop := ∀ q, none ∉ elementsOf (c.reply q)

/-- The stage has from `a` to `b` maps. -/
def Between (a b : Nat) (s : Local) : Prop := ∃ n, a ≤ n ∧ n ≤ b ∧ Holding n s

variable {c} {N : Prop} {n a b : Nat} {s : Local}

theorem Between.addMap (h : Between a b s) (hb : b < MAP_POOL_SIZE) {r : Option Reply}
    (hr : N → none ∉ elementsOf r) : Yields N (s.addMap r) (Between (a + 1) (b + 1)) := by
  obtain ⟨n, ha, hn, hheld⟩ := h
  exact (hheld.addMap (by omega) hr).imp fun t ht => ⟨n + 1, by omega, by omega, ht⟩

theorem storeSet_between {s : Local × Bool} (h : Between 0 b s.1) (hb : b < MAP_POOL_SIZE)
    {r : Option Reply} (hr : N → none ∉ elementsOf r) :
    Yields N (Call.storeSet s r) fun t => Between 0 (b + 1) t.1 := by
  have hmono : Between 0 (b + 1) s.1 := by
    obtain ⟨n, ha, hn, hheld⟩ := h
    exact ⟨n, ha, by omega, hheld⟩
  rw [Call.storeSet]
  split_ifs
  · exact yields_some hmono
  · exact yields_some hmono
  · refine (h.addMap hb hr).map fun t ht => ?_
    obtain ⟨n, -, hn, hheld⟩ := ht
    exact ⟨n, Nat.zero_le _, hn, hheld⟩

/-- The app's reply is one of the replies. -/
theorem appReply_proper (hc : c.Proper) : none ∉ elementsOf c.appReply := by
  rw [Call.appReply]
  split
  · exact hc _
  · dsimp only
    split_ifs
    · exact hc _
    · exact hc _

theorem areaSet_proper (hc : c.Proper) : none ∉ elementsOf c.areaSet := by
  rw [Call.areaSet]
  split
  · rename_i e _
    cases e with
    | none => exact hc _
    | some record => exact hc _
  · exact hc _

/-- At most four maps are taken first, and one at least where the search goes on. -/
theorem storeFetched_between (h : Between 0 0 s) :
    Yields c.Proper (c.storeFetched s) fun t =>
      Between 0 4 t.1 ∧ (t.2 = false → Between 1 4 t.1) := by
  have hmono : ∀ {k : Nat} {t : Local}, k ≤ 4 → Between 0 k t → Between 0 4 t :=
    fun hk ⟨n, ha, hn, hheld⟩ => ⟨n, ha, hn.trans hk, hheld⟩
  have h1 : Yields c.Proper (c.storeTypes s) fun t => Between 0 1 t.1 := by
    rw [Call.storeTypes]
    split_ifs
    · exact storeSet_between h (by decide) fun hc => hc _
    · obtain ⟨n, ha, hn, hheld⟩ := h
      exact yields_some ⟨n, ha, by omega, hheld⟩
  rw [Call.storeFetched]
  refine h1.bind fun t1 ht1 => (storeSet_between ht1 (by decide) fun hc => hc _).bind
    fun t2 ht2 => (storeSet_between ht2 (by decide) fun hc => hc _).bind fun t3 ht3 => ?_
  split_ifs with hempty
  · exact yields_some ⟨hmono (by decide) ht3, fun hf => absurd hempty (by simp [hf])⟩
  · exact yields_some ⟨hmono (by decide) ht3, fun hf => by cases hf⟩
  · refine (ht3.addMap (by decide) appReply_proper).map fun t ht => ?_
    obtain ⟨n, ha, hn, hheld⟩ := ht
    exact ⟨⟨n, by omega, hn, hheld⟩, fun _ => ⟨n, ha, hn, hheld⟩⟩

theorem removeIds_stored {p : Pools} {E : MapId → List AdEntry} (h : Stored p E) (m : MapId)
    (es : List (Option Bytes)) : Yields (none ∉ es) (p.removeIds m es) fun q =>
      (∃ F, Stored q F) ∧ q.mapCur = p.mapCur := by
  induction es generalizing p E with
  | nil => exact yields_some ⟨⟨E, h⟩, rfl⟩
  | cons e es ih =>
    cases e with
    | none => exact yields_none fun hnone => hnone List.mem_cons_self
    | some str =>
      obtain ⟨q, B, hq, hstored, -, hcur⟩ := h.removeId m str
      have hrun : p.removeIds m (some str :: es) = q.removeIds m es := by
        rw [Pools.removeIds, Option.bind_eq_bind, Option.bind_some, hq]
        rfl
      rw [hrun, ← hcur]
      exact (ih hstored).weaken fun hnone hmem => hnone (List.mem_cons_of_mem _ hmem)

theorem storeKept_holding (h : Holding n s) (hn : 0 < n) (m : MapId) :
    Yields c.Proper (c.storeKept s m) (Holding n) := by
  obtain ⟨E, h⟩ := h
  refine ((removeIds_stored h.stored m _).weaken fun hc => hc _).map fun q hq => ?_
  obtain ⟨⟨F, hF⟩, hcur⟩ := hq
  exact ⟨F, h.pools hn hF hcur⟩

theorem storeCovered_stored {p : Pools} {E : MapId → List AdEntry} (h : Stored p E) {m : MapId}
    (hm : (m : Nat) < p.mapCur) (es : List (Option Bytes)) :
    ∃ q F, c.storeCovered m p es = some q ∧ Stored q F ∧ q.mapCur = p.mapCur := by
  induction es generalizing p E with
  | nil => exact ⟨p, E, rfl, h, rfl⟩
  | cons e es ih =>
    rw [Call.storeCovered]
    split
    · split_ifs
      · exact ih h hm
      · obtain ⟨q, hq, -, hcur, hstored⟩ := h.insertId hm _
        rw [hq, ← hcur]
        exact ih hstored (hcur ▸ hm)
      · exact ih h hm
    · exact ih h hm

/-- The covered ads come into the second map. -/
theorem storePosition_holding (h : Holding n s) (hn : 2 ≤ n) :
    ∃ t, c.storePosition s = some t ∧ Holding n t := by
  obtain ⟨E, h⟩ := h
  obtain ⟨m, hm, -⟩ := h.entry 0 (by omega)
  obtain ⟨k, hk, hlt⟩ := h.entry 1 (by omega)
  rw [Call.storePosition]
  split_ifs
  · have htexts : texts (s.pools.map m) = some ((E m).map (·.val)) := by
      rw [texts, (h.stored.rep m).begin, h.stored.elements m,
        take_first (x := []) _ (h.stored.rep m) le_rfl, List.take_length]
    rw [hm, Option.bind_eq_bind, Option.bind_some, htexts, Option.bind_eq_bind, Option.bind_some]
    split
    · obtain ⟨q, F, hq, hF, hcur⟩ := storeCovered_stored (c := c) h.stored (m := k)
        (by rw [h.cur]; exact hlt) _
      rw [hk, Option.bind_some, hq]
      exact ⟨_, rfl, F, h.pools (by omega) hF hcur⟩
    · exact ⟨s, rfl, E, h⟩
  · exact ⟨s, rfl, E, h⟩

theorem storeRestricted_holding (h : Holding n s) (hn : 2 ≤ n) {r : Option Reply}
    (hr : N → none ∉ elementsOf r) : Yields N (Call.storeRestricted s r) (Holding n) := by
  obtain ⟨E, h⟩ := h
  obtain ⟨k, hk, hlt⟩ := h.entry 1 (by omega)
  rw [Call.storeRestricted, hk, Option.bind_eq_bind, Option.bind_some]
  have hinit := h.stored.initMap (m := k) (by rw [h.cur]; exact hlt) (elementsOf r)
  refine (hinit.weaken hr).bind fun p hp => ?_
  have hheld := h.pools (by omega) hp.1 hp.2.2
  obtain ⟨_, -, hfirst⟩ := hheld.elements (i := 0) (by omega)
  obtain ⟨_, -, hother⟩ := hheld.elements (i := 1) (by omega)
  dsimp only
  rw [hfirst, hother, Option.bind_eq_bind, Option.bind_some, Option.bind_some]
  have hholding : Holding n _ := ⟨_, hheld⟩
  split_ifs
  · obtain ⟨t, ht, hheld⟩ := (hholding.swap (i := 0) (j := 1) (by omega) (by omega)).inter
      (show 1 < n by omega)
    exact yields_of_eq ht hheld
  · obtain ⟨t, ht, hheld⟩ := hholding.inter (show 1 < n by omega)
    exact yields_of_eq ht hheld

theorem storeArea_holding (h : Holding n s) (hn : 2 ≤ n) :
    Yields c.Proper (c.storeArea s) (Holding n) := by
  rw [Call.storeArea]
  split
  · split_ifs
    · exact storeRestricted_holding h hn areaSet_proper
    · exact yields_some h
  · split_ifs
    · exact yields_some h
    · exact storeRestricted_holding h hn areaSet_proper

theorem storeLocated_holding (h : Holding n s) (hn : 2 ≤ n) :
    Yields c.Proper (c.storeLocated s) (Holding n) := by
  rw [Call.storeLocated]
  split_ifs
  · exact yields_some h
  · obtain ⟨t, ht, hholding⟩ := storePosition_holding (c := c) h hn
    obtain ⟨E, hheld⟩ := id hholding
    obtain ⟨_, -, hcovered⟩ := hheld.elements (i := 1) (by omega)
    rw [ht, Option.bind_eq_bind, Option.bind_some, hcovered, Option.bind_eq_bind, Option.bind_some]
    split_ifs
    · exact storeArea_holding hholding hn
    · exact yields_some (hholding.swap (by omega) (by omega))

/-- The pick walks inside the first map. -/
theorem storePicked_holding (h : Holding n s) (hn : 1 ≤ n) :
    ∃ t, c.storePicked s = some t ∧ Holding n t := by
  obtain ⟨E, h⟩ := h
  obtain ⟨m, hm, -⟩ := h.entry 0 (by omega)
  have hlen := h.stored.elements m
  rw [Call.storePicked, hm, Option.bind_eq_bind, Option.bind_some]
  dsimp only
  split_ifs with hzero hall
  · exact ⟨s, rfl, E, h⟩
  · obtain ⟨it, l, hskip, htake⟩ := take_from (h.stored.rep m) (j := 0) (n := (E m).length)
      (by omega)
    have hbegin : it = egHtBegin (s.pools.map m) := by
      rw [skip] at hskip
      exact (Option.some.inj hskip).symm
    rw [hlen, ← hbegin, htake]
    exact ⟨s, rfl, E, h⟩
  · have hdrop : ∃ p F i, c.storeDropped s.pools m (egHtElements (s.pools.map m)) = some (p, i) ∧
        Stored p F ∧ p.mapCur = s.pools.mapCur ∧ i ≤ (F m).length ∧ c.log.adnum ≤ i := by
      rw [Call.storeDropped]
      split
      · rename_i str _
        obtain ⟨q, B, hq, hstored, hB, hcur⟩ := h.stored.removeId m str
        rw [hq]
        refine ⟨q, _, _, rfl, hstored, hcur, ?_, by omega⟩
        rw [Function.update_self]
        omega
      · exact ⟨_, E, _, rfl, h.stored, rfl, hlen.le, by omega⟩
    obtain ⟨p, F, i, hp, hF, hcur, hi, hle⟩ := hdrop
    have hj : (if i - c.log.adnum = 0 then 0 else c.rand % (i - c.log.adnum + 1)) ≤
        i - c.log.adnum := by
      split_ifs
      · exact Nat.zero_le _
      · exact Nat.le_of_lt_succ (Nat.mod_lt _ (Nat.succ_pos _))
    obtain ⟨it, l, hskip, htake⟩ := take_from (hF.rep m)
      (j := if i - c.log.adnum = 0 then 0 else c.rand % (i - c.log.adnum + 1))
      (n := c.log.adnum) (by omega)
    rw [hp, Option.bind_eq_bind, Option.bind_some, hskip, Option.bind_eq_bind, Option.bind_some,
      htake]
    exact ⟨_, rfl, F, h.pools (by omega) hF hcur⟩

theorem storeSelected_between (h : Between 1 4 s) :
    Yields c.Proper (c.storeSelected s) (Between 0 5) := by
  obtain ⟨n, hpos, hn, h⟩ := h
  have hlen : s.mapLen = n := by
    obtain ⟨E, h⟩ := h
    exact h.len
  have hleft : ∀ {k : Nat} {t : Local}, k ≤ 5 → Holding k t → Between 0 5 t :=
    fun hk ht => ⟨_, Nat.zero_le _, hk, ht⟩
  obtain ⟨t1, hrun1, h1⟩ := h.smallestFirst (k := n - 1) (i := 1) (by omega) (by omega)
  have hlen1 : t1.mapLen = n := by
    obtain ⟨E, h1⟩ := h1
    exact h1.len
  obtain ⟨t2, hrun2, h2⟩ := h1.inter (show n - 1 < n by omega)
  obtain ⟨m, hm, -⟩ := h2.choose_spec.entry 0 (by omega)
  simp only [Call.storeSelected, hlen, hrun1, hlen1, hrun2, hm, Option.bind_eq_bind,
    Option.bind_some]
  split_ifs
  · exact yields_some (hleft (by omega) h2)
  · refine (storeKept_holding h2 hpos m).bind fun t3 h3 => ?_
    split_ifs
    · exact yields_some (hleft (by omega) h3)
    · obtain ⟨t4, hrun4, h4⟩ := h3.addFirst hpos (by rw [MAP_POOL_SIZE]; omega)
      rw [hrun4, Option.bind_some]
      refine (storeLocated_holding h4 (by omega)).bind fun t5 h5 => ?_
      obtain ⟨t6, hrun6, h6⟩ := storePicked_holding (c := c) h5 (by omega)
      exact yields_of_eq hrun6 (hleft (by omega) h6)

/-- Wherever the block is left, at most five maps are out. -/
theorem stored_between (h : Between 0 0 s) : Yields c.Proper (c.stored s) (Between 0 5) := by
  refine (storeFetched_between h).bind fun t ht => ?_
  obtain ⟨t, empty⟩ := t
  cases empty with
  | true =>
    obtain ⟨n, -, hn, hheld⟩ := ht.1
    exact yields_some ⟨n, Nat.zero_le _, by omega, hheld⟩
  | false => exact storeSelected_between (ht.2 rfl)

end Stages

/-- The pools are as at the start, at most the maps of the pool were taken, and the entries
cleared are the maps taken, each once. -/
structure GivenBack (r : Left) : Prop where
  pools : r.pools.Empty
  taken : r.taken ≤ MAP_POOL_SIZE
  cleared : r.cleared.Perm (((List.finRange MAP_POOL_SIZE).take r.taken).map some)

section Finish

variable {n : Nat} {s : Local} {E : MapId → List AdEntry}

/-- The first `n` entries of `maps` are the first `n` maps of the pool in some order. -/
theorem Held.perm (h : Held n s E) :
    ((List.range n).map s.maps).Perm (((List.finRange MAP_POOL_SIZE).take n).map some) := by
  have hnodup : ((List.range n).map s.maps).Nodup :=
    List.nodup_range.map_on fun i hi j hj =>
      h.inj i (List.mem_range.1 hi) j (List.mem_range.1 hj)
  have hsub : (List.range n).map s.maps ⊆ ((List.finRange MAP_POOL_SIZE).take n).map some := by
    intro x hx
    obtain ⟨i, hi, rfl⟩ := List.mem_map.1 hx
    obtain ⟨m, hm, hlt⟩ := h.entry i (List.mem_range.1 hi)
    rw [hm]
    refine List.mem_map_of_mem (List.mem_take_iff_getElem.2 ⟨m, ?_, List.getElem_finRange _⟩)
    rw [List.length_finRange]
    exact lt_min hlt m.isLt
  refine (List.subperm_of_subset hnodup hsub).perm_of_length_le ?_
  rw [List.length_map, List.length_map, List.length_range, List.length_take]
  exact Nat.min_le_left _ _

/-- Clearing entries empties their maps and no other. -/
theorem clear_stored {p : Pools} (h : Stored p E) (ms : List (Option MapId)) :
    ∃ F, Stored (ms.foldl (fun p m => m.elim p p.clearMap) p) F ∧
      ∀ m, some m ∈ ms ∨ E m = [] → F m = [] := by
  induction ms generalizing p E with
  | nil => exact ⟨E, h, fun m hm => hm.resolve_left List.not_mem_nil⟩
  | cons k ms ih =>
    cases k with
    | none =>
      obtain ⟨F, hF, hnil⟩ := ih h
      refine ⟨F, hF, fun m hm => hnil m (hm.imp_left fun hmem => ?_)⟩
      exact (List.mem_cons.1 hmem).resolve_left (by simp)
    | some k =>
      obtain ⟨F, hF, hnil⟩ := ih (h.clearMap k)
      refine ⟨F, hF, fun m hm => hnil m ?_⟩
      by_cases hmk : m = k
      · exact Or.inr (by rw [hmk, Function.update_self])
      · rw [Function.update_of_ne hmk]
        exact hm.imp_left fun hmem => (List.mem_cons.1 hmem).resolve_left (by simpa using hmk)

theorem Held.finish (h : Held n s E) (hn : n ≤ MAP_POOL_SIZE) : GivenBack s.finish := by
  have hperm := h.perm
  obtain ⟨F, hF, hnil⟩ := clear_stored h.stored ((List.range n).map s.maps)
  rw [Local.finish, h.len]
  dsimp only
  split_ifs with hzero
  · have hcur := h.cur
    subst hzero
    refine ⟨⟨h.nodes rfl, hcur, fun m => h.stored.cleared (h.stored.fresh m ?_)⟩, ?_, ?_⟩
    · rw [hcur]
      exact Nat.zero_le _
    · rw [hcur]
      exact Nat.zero_le _
    · rw [hcur]
      exact hperm
  · refine ⟨⟨rfl, rfl, fun m => hF.cleared (hnil m ?_)⟩, h.cur ▸ hn, by rw [h.cur]; exact hperm⟩
    by_cases hm : (m : Nat) < n
    · refine Or.inl (hperm.mem_iff.2 (List.mem_map_of_mem
        (List.mem_take_iff_getElem.2 ⟨m, ?_, List.getElem_finRange _⟩)))
      rw [List.length_finRange]
      exact lt_min hm m.isLt
    · exact Or.inr (h.stored.fresh m (by rw [h.cur]; omega))

end Finish

/-- One request: it gives all storage back, and it ends where no reply has a null element. -/
theorem storage_givenBack (c : Call) {p : Pools} (hp : p.Empty) :
    Yields c.Proper (c.storage p) GivenBack := by
  have hstart : Between 0 0 (⟨p, fun _ => none, 0⟩ : Local) :=
    ⟨0, le_rfl, le_rfl, _, hp.stored, rfl, hp.mapCur, fun _ hi => by omega,
      fun _ hi => by omega, fun _ => hp.nodeCur⟩
  refine (stored_between hstart).map fun s hs => ?_
  obtain ⟨n, -, hn, E, h⟩ := hs
  exact h.finish (by rw [MAP_POOL_SIZE]; omega)

/-- The requests of one thread, each with its replies. -/
def serve (p : Pools) (c : Call) : Option Pools := (c.storage p).map (·.pools)

theorem storage_returned (nodes : Nat → Bucket Nat Bytes Nat) (cs : List Call) (p : Pools)
    (hp : run serve (Pools.hashInit nodes) cs = some p) (c : Call) :
    p.Empty ∧ (∀ r, c.storage p = some r → GivenBack r) ∧
      (c.Proper → ∃ r, c.storage p = some r) := by
  have hempty : p.Empty := by
    have hserve : ∀ q d t, Pools.Empty q → serve q d = some t → Pools.Empty t := by
      intro q d t hq ht
      obtain ⟨r, hr, rfl⟩ := Option.map_eq_some_iff.1 ht
      exact ((storage_givenBack d hq).result r hr).pools
    exact run_invariant hserve (Pools.hashInit_empty nodes) hp
  have hy := storage_givenBack c hempty
  exact ⟨hempty, hy.result, fun hc => Option.isSome_iff_exists.1 (hy.defined hc)⟩

/-- A request with two ads in all sets. -/
def twoAds : Call where
  log := ⟨some (ascii "13"), some (ascii "app"), some (ascii "2"), some (ascii "u"),
    some (ascii "1"), some (ascii "1"), some (ascii "1"), some (ascii "1"), ascii "1.2.3.4", [], [],
    1⟩
  types := []
  reply := fun
    | .targeting _ => some (.array [some (ascii "7"), some (ascii "8"), some (ascii "9")])
    | .privates _ => some (.array [some (ascii "9"), some (ascii "7")])
    | .appType _ => some (.array [some (ascii "7"), some (ascii "8"), some (ascii "9")])
    | _ => none
  near := fun _ _ _ _ _ => false
  rand := 5
  nodes := fun _ => ⟨0, [], none, none, none, none, 0⟩
  arr := fun _ => []
  buffer := List.replicate 64 0

theorem twoAds_proper : twoAds.Proper := by
  intro q
  cases q <;> simp [twoAds, elementsOf, Reply.elements]

/-- The same request twice, and what it finds the third time. -/
theorem storage_returned_twice : ∃ p, run serve (Pools.hashInit twoAds.nodes) [twoAds, twoAds] =
      some p ∧ p.Empty ∧ ∃ r, twoAds.storage p = some r ∧ GivenBack r := by
  have hstep : ∀ p : Pools, p.Empty → ∃ r, twoAds.storage p = some r ∧ GivenBack r := fun p hp => by
    have hy := storage_givenBack twoAds hp
    obtain ⟨r, hr⟩ := Option.isSome_iff_exists.1 (hy.defined twoAds_proper)
    exact ⟨r, hr, hy.result r hr⟩
  obtain ⟨r, hr, hback⟩ := hstep _ (Pools.hashInit_empty twoAds.nodes)
  obtain ⟨r', hr', -⟩ := hstep r.pools hback.pools
  have hrun : run serve (Pools.hashInit twoAds.nodes) [twoAds, twoAds] = some r'.pools := by
    simp [run, serve, hr, hr']
  obtain ⟨hempty, hgiven, hends⟩ := storage_returned twoAds.nodes _ _ hrun twoAds
  obtain ⟨q, hq⟩ := hends twoAds_proper
  exact ⟨_, hrun, hempty, q, hq, hgiven q hq⟩

end Doorhinges.GetAd

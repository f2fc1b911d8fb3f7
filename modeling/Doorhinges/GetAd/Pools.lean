import Doorhinges.GetAd.Maps
import Doorhinges.Hashtable.Shared
import Doorhinges.Lib.Partial

/-!
# The pools of a thread

The node pool and the map pool that `get_ad` takes its storage from. The maps of a pool
stand in the one memory of its nodes.
-/
namespace Doorhinges.GetAd

open Lib.CString
open Lib.Partial
open Hashtable

def MAP_POOL_SIZE : Nat := 6

instance : NeZero MAP_POOL_SIZE := ⟨by decide⟩

abbrev MapId := Fin MAP_POOL_SIZE

abbrev AdHeap := Heap MapId Nat Bytes Nat

/-- `ht_node_pool_t` and `ht_map_pool_t` with their `cur`. -/
structure Pools where
  heap : AdHeap
  nodeCur : Nat
  mapCur : Nat

namespace Pools

variable (p : Pools)

def map (m : MapId) : AdMap := p.heap.table m

def setMap (m : MapId) (t : AdMap) : Pools := { p with heap := p.heap.put m t }

/-- `get_ht_map`; none is the null pointer. -/
def getHtMap : Option MapId × Pools :=
  if h : p.mapCur < MAP_POOL_SIZE then (some ⟨p.mapCur, h⟩, { p with mapCur := p.mapCur + 1 })
  else (none, p)

/-- The next node goes into the map. -/
def insertId (m : MapId) (str : Bytes) : Option Pools :=
  (GetAd.insertId p.nodeCur (p.map m) str).map fun t =>
    { p.setMap m t with nodeCur := p.nodeCur + 1 }

/-- `init_map`, which returns where the pool is exhausted. -/
def initMap (m : MapId) (p : Pools) : List (Option Bytes) → Option Pools
  | [] => some p
  | e :: es =>
    if NODE_POOL_SIZE ≤ p.nodeCur then some p
    else do
      let str ← e
      let p ← p.insertId m str
      initMap m p es

/-- `ht_remove_bucket` of an id. -/
def removeId (m : MapId) (str : Bytes) : Option Pools :=
  (htRemoveBucket egNumKeys (p.map m) (idKey str)).map (p.setMap m)

/-- The ids of a reply are removed. -/
def removeIds (m : MapId) (p : Pools) : List (Option Bytes) → Option Pools
  | [] => some p
  | e :: es => do
    let str ← e
    let p ← p.removeId m str
    removeIds m p es

/-- `ht_clear_bucket`. -/
def clearMap (m : MapId) : Pools := p.setMap m (htClearBucket (p.map m))

/-- The pools as `hash_init` and each request leave them. -/
structure Empty : Prop where
  nodeCur : p.nodeCur = 0
  mapCur : p.mapCur = 0
  maps : ∀ m, 0 < (p.map m).size ∧ egHtElements (p.map m) = 0 ∧ (p.map m).tlist = none ∧
    ∀ i < (p.map m).size, (p.map m).hlist i = none

/-- The pools that `hash_init` makes for a thread. -/
def hashInit (nodes : Nat → Bucket Nat Bytes Nat) : Pools :=
  ⟨⟨fun _ => (GetAd.getHtMap nodes).header, nodes⟩, 0, 0⟩

theorem hashInit_empty (nodes : Nat → Bucket Nat Bytes Nat) : (hashInit nodes).Empty :=
  ⟨rfl, rfl, fun _ => ⟨Nat.succ_pos 192, rfl, rfl, fun _ _ => rfl⟩⟩

end Pools

/-- The maps stand for lists of entries in the nodes handed out, each node in one list, and
the maps not handed out are empty. -/
structure Stored (p : Pools) (E : MapId → List AdEntry) : Prop where
  together : Together egNumKeys p.heap E
  used : ∀ m, ∀ e ∈ E m, e.bucket < p.nodeCur
  fresh : ∀ m : MapId, p.mapCur ≤ m → E m = []
  mapCur : p.mapCur ≤ MAP_POOL_SIZE

/-- The entries of a map after the ids, with the nodes from `cur` on. -/
def addIds (cur : Nat) (A : List AdEntry) : List Bytes → List AdEntry
  | [] => A
  | str :: strs =>
    if NODE_POOL_SIZE ≤ cur then A
    else addIds (cur + 1) (insertEntry egNumKeys A ⟨cur, idKey str, str⟩) strs

section Stored

variable {p : Pools} {E : MapId → List AdEntry} {m : MapId}

theorem Pools.Empty.stored (h : p.Empty) : Stored p fun _ => [] where
  together := ⟨fun m => by
    obtain ⟨hsize, helements, htlist, hslots⟩ := h.maps m
    exact ⟨rep_empty hsize hslots htlist helements, by simp, by simp⟩, by simp⟩
  used := by simp
  fresh := fun _ _ => rfl
  mapCur := by simp [h.mapCur]

theorem Stored.rep (h : Stored p E) (m : MapId) : Represents egNumKeys (p.map m) (E m) :=
  h.together.rep m

theorem Stored.elements (h : Stored p E) (m : MapId) : egHtElements (p.map m) = (E m).length :=
  (h.rep m).elements

theorem Stored.empty (h : Stored p E) (m : MapId) : egHtEmpty (p.map m) ↔ E m = [] := by
  rw [egHtEmpty, decide_eq_true_iff, ← List.length_eq_zero_iff, ← h.elements m]
  rfl

/-- An empty list of entries is an empty table. -/
theorem Stored.cleared (h : Stored p E) (hm : E m = []) :
    0 < (p.map m).size ∧ egHtElements (p.map m) = 0 ∧ (p.map m).tlist = none ∧
      ∀ i < (p.map m).size, (p.map m).hlist i = none := by
  have hrep := h.rep m
  rw [hm] at hrep
  obtain ⟨chain, hs⟩ := hrep.rep.slotted
  refine ⟨hrep.rep.size, hrep.elements, hrep.rep.listed.tlist, fun i hi => ?_⟩
  have hnil : chain i = [] := List.eq_nil_iff_forall_not_mem.2 fun b hb => by
    have hmem := ((hs.mem i hi b).1 hb).1
    simp at hmem
  rw [hs.hlist i hi, hnil, List.head?_nil]

/-- A node not handed out is in no map. -/
theorem Stored.unused (h : Stored p E) (n : MapId) {b : Nat} (hb : p.nodeCur ≤ b) :
    b ∉ (E n).map (·.bucket) := by
  intro hmem
  obtain ⟨e, he, heb⟩ := List.mem_map.1 hmem
  have hlt := h.used n e he
  omega

theorem Stored.getHtMap (h : Stored p E) (hcur : p.mapCur < MAP_POOL_SIZE) :
    ∃ q, p.getHtMap = (some ⟨p.mapCur, hcur⟩, q) ∧ Stored q E ∧ q.mapCur = p.mapCur + 1 := by
  refine ⟨{ p with mapCur := p.mapCur + 1 }, ?_, ⟨h.together, h.used, fun m hm => ?_, ?_⟩, rfl⟩
  · rw [Pools.getHtMap, dif_pos hcur]
  · exact h.fresh m (Nat.le_of_succ_le hm)
  · exact hcur

/-- One map has got other entries. -/
theorem Stored.change {q : Pools} {B : List AdEntry} (h : Stored p E)
    (ht : Together egNumKeys q.heap (Function.update E m B)) (hcur : q.mapCur = p.mapCur)
    (hnode : p.nodeCur ≤ q.nodeCur) (hB : ∀ e ∈ B, e.bucket < q.nodeCur)
    (hfresh : p.mapCur ≤ m → B = []) : Stored q (Function.update E m B) := by
  refine ⟨ht, fun n e he => ?_, fun n hn => ?_, hcur ▸ h.mapCur⟩
  · by_cases hnm : n = m
    · rw [hnm, Function.update_self] at he
      exact hB e he
    · rw [Function.update_of_ne hnm] at he
      exact (h.used n e he).trans_le hnode
  · rw [hcur] at hn
    by_cases hnm : n = m
    · subst hnm
      rw [Function.update_self]
      exact hfresh hn
    · rw [Function.update_of_ne hnm]
      exact h.fresh n hn

theorem Stored.insertId (h : Stored p E) (hm : (m : Nat) < p.mapCur) (str : Bytes) :
    ∃ q, p.insertId m str = some q ∧ q.nodeCur = p.nodeCur + 1 ∧ q.mapCur = p.mapCur ∧
      Stored q (Function.update E m (insertEntry egNumKeys (E m) ⟨p.nodeCur, idKey str, str⟩)) := by
  obtain ⟨u, hu, ht⟩ := h.together.insert m (idKey str) str fun n => h.unused n le_rfl
  refine ⟨{ p.setMap m u with nodeCur := p.nodeCur + 1 }, ?_, rfl, rfl,
    h.change ht rfl (Nat.le_succ _) (fun e he => ?_) fun hfull => absurd hm (Nat.not_lt.2 hfull)⟩
  · have hins : GetAd.insertId p.nodeCur (p.map m) str = some u := hu
    rw [Pools.insertId, hins]
    rfl
  · rcases mem_insertEntry he with rfl | he
    · exact Nat.lt_succ_self _
    · exact (h.used m e he).trans (Nat.lt_succ_self _)

theorem Stored.initMap (h : Stored p E) (hm : (m : Nat) < p.mapCur) (es : List (Option Bytes)) :
    Yields (none ∉ es) (p.initMap m es) fun q =>
      Stored q (Function.update E m (addIds p.nodeCur (E m) (es.filterMap id))) ∧
        q.nodeCur = p.nodeCur + (fitting p.nodeCur es).length ∧ q.mapCur = p.mapCur := by
  induction es generalizing p E with
  | nil =>
    refine yields_some ⟨?_, by simp [fitting], rfl⟩
    rw [List.filterMap_nil, addIds, Function.update_eq_self]
    exact h
  | cons e es ih =>
    rw [Pools.initMap]
    split
    · rename_i hfull
      have hnil : fitting p.nodeCur (e :: es) = [] := by
        rw [fitting, Nat.sub_eq_zero_of_le hfull, List.take_zero]
      refine yields_some ⟨?_, by rw [hnil]; rfl, rfl⟩
      have hsame : addIds p.nodeCur (E m) ((e :: es).filterMap id) = E m := by
        cases hstrs : (e :: es).filterMap id with
        | nil => rfl
        | cons str strs => rw [addIds, if_pos hfull]
      rw [hsame, Function.update_eq_self]
      exact h
    · rename_i hroom
      cases e with
      | none => exact yields_none fun hnone => hnone List.mem_cons_self
      | some str =>
        obtain ⟨q, hq, hnode, hcur, hstored⟩ := h.insertId hm str
        have hih := ih hstored (hcur ▸ hm)
        rw [Function.update_self, Function.update_idem, hnode, hcur] at hih
        have hrest : Pools.initMap m q es = (do
            let str ← some str
            let p ← p.insertId m str
            Pools.initMap m p es) := by
          rw [Option.bind_eq_bind, Option.bind_some, hq]
          rfl
        rw [← hrest]
        refine ⟨fun hnone => hih.defined fun hmem => hnone (List.mem_cons_of_mem _ hmem), ?_⟩
        intro r hr
        obtain ⟨hr, hcount, hmaps⟩ := hih.result r hr
        rw [List.filterMap_cons_some (f := id) (b := str) rfl, addIds, if_neg hroom,
          fitting_cons (Nat.not_le.1 hroom), List.length_cons]
        exact ⟨hr, by omega, hmaps⟩

/-- Fewer entries of one map. -/
theorem Stored.sub {q : Pools} {B : List AdEntry} (h : Stored p E)
    (ht : Together egNumKeys q.heap (Function.update E m B)) (hcur : q.mapCur = p.mapCur)
    (hnode : q.nodeCur = p.nodeCur) (hB : ∀ e ∈ B, e ∈ E m) :
    Stored q (Function.update E m B) := by
  refine h.change ht hcur hnode.ge (fun e he => hnode ▸ h.used m e (hB e he)) fun hm => ?_
  rw [List.eq_nil_iff_forall_not_mem]
  intro e he
  have hmem := hB e he
  rw [h.fresh m hm] at hmem
  cases hmem

theorem Stored.removeId (h : Stored p E) (m : MapId) (str : Bytes) :
    ∃ q B, p.removeId m str = some q ∧ Stored q (Function.update E m B) ∧
      (E m).length ≤ B.length + 1 ∧ q.mapCur = p.mapCur := by
  obtain ⟨u, B, hu, hB, hlen, ht⟩ := h.together.remove m (idKey str)
  refine ⟨p.setMap m u, B, ?_, h.sub ht rfl rfl hB, hlen, rfl⟩
  rw [Pools.removeId, show htRemoveBucket egNumKeys (p.map m) (idKey str) = some u from hu]
  rfl

theorem Stored.clearMap (h : Stored p E) (m : MapId) :
    Stored (p.clearMap m) (Function.update E m []) :=
  h.sub (h.together.clear m) rfl rfl (by simp)

end Stored

end Doorhinges.GetAd

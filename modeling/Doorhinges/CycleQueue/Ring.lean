import Doorhinges.CycleQueue.Model
import Doorhinges.Lib.Links

/-!
# The ring of the cycle queue

`Shape` says how the buckets tile the ring, newest first: removing the slots of
the newest bucket leaves the ring it was spliced into. `Represents` splits the
ring at the tail node into the nodes that hold queued values and the free ones.
-/
namespace Doorhinges.CycleQueue

open Lib.Blocks (Ptr Heap)
open Lib.Links

variable {α : Type}

def nxt (h : Heap (EgCqNode α)) (p : Ptr) : Option Ptr := (h.load p).bind (·.next)

def val (h : Heap (EgCqNode α)) (p : Ptr) : Option α := (h.load p).bind (·.val)

@[simp] theorem nxt_setVal (h : Heap (EgCqNode α)) (p q : Ptr) (v : Option α) :
    nxt (h.modify p fun n => { n with val := v }) q = nxt h q := by
  unfold nxt
  rw [Heap.load_modify]
  split
  · cases h.load q <;> rfl
  · rfl

theorem val_setVal_self {h : Heap (EgCqNode α)} {p q : Ptr} (hp : nxt h p = some q)
    (v : Option α) : val (h.modify p fun n => { n with val := v }) p = v := by
  obtain ⟨n, hn, -⟩ := Option.bind_eq_some_iff.mp hp
  simp [val, Heap.load_modify_self, hn]

theorem val_setVal_of_ne (h : Heap (EgCqNode α)) {p q : Ptr} (hq : q ≠ p) (v : Option α) :
    val (h.modify p fun n => { n with val := v }) q = val h q := by
  simp only [val, Heap.load_modify_of_ne h _ hq]

@[simp] theorem val_setNext (h : Heap (EgCqNode α)) (p q : Ptr) (e : Option Ptr) :
    val (h.modify p fun n => { n with next := e }) q = val h q := by
  unfold val
  rw [Heap.load_modify]
  split
  · cases h.load q <;> rfl
  · rfl

theorem nxt_setNext_self {h : Heap (EgCqNode α)} {p : Ptr} {n : EgCqNode α}
    (hp : h.load p = some n) (e : Option Ptr) :
    nxt (h.modify p fun n => { n with next := e }) p = e := by
  simp [nxt, Heap.load_modify_self, hp]

theorem nxt_setNext_of_ne (h : Heap (EgCqNode α)) {p q : Ptr} (hq : q ≠ p) (e : Option Ptr) :
    nxt (h.modify p fun n => { n with next := e }) q = nxt h q := by
  simp only [nxt, Heap.load_modify_of_ne h _ hq]

theorem load_of_nxt {h : Heap (EgCqNode α)} {p q : Ptr} (hp : nxt h p = some q) :
    ∃ n, h.load p = some n ∧ n.next = some q := by
  obtain ⟨n, hn, hq⟩ := Option.bind_eq_some_iff.mp hp
  exact ⟨n, hn, hq⟩

namespace EgCgBucket

def slots (bt : EgCgBucket) : List Ptr := (List.range bt.size).map bt.at

theorem mem_slots {bt : EgCgBucket} {p : Ptr} : p ∈ bt.slots ↔ p.blk = bt.node ∧ p.off < bt.size := by
  obtain ⟨b, i⟩ := p
  simp [slots, EgCgBucket.at]
  grind

theorem nodup_slots (bt : EgCgBucket) : bt.slots.Nodup :=
  List.nodup_range.map fun i j h => by simpa [EgCgBucket.at] using h

theorem slots_ne_nil {bt : EgCgBucket} (hs : 0 < bt.size) : bt.slots ≠ [] := by
  simp [slots]; omega

theorem head?_slots {bt : EgCgBucket} (hs : 0 < bt.size) : bt.slots.head? = some (bt.at 0) := by
  simp [slots, List.head?_range, Nat.ne_of_gt hs]

theorem getLast_slots {bt : EgCgBucket} (hs : 0 < bt.size) :
    bt.slots.getLast (slots_ne_nil hs) = bt.at (bt.size - 1) := by
  simp [slots, List.getLast_map]

end EgCgBucket

/-- Memory with a new bucket's array whose last node leads to `e`. -/
def withArray (h : Heap (EgCqNode α)) (size : Nat) (buf : Option Nat) (valSize : Nat)
    (e : Option Ptr) : Heap (EgCqNode α) :=
  (h.alloc (egCqInitbucket h.next size buf valSize)).modify ⟨h.next, size - 1⟩
    fun n => { n with next := e }

section Array

variable {h : Heap (EgCqNode α)} {size valSize : Nat} {buf : Option Nat}

theorem load_initbucket {i : Nat} (hi : i < size) :
    (h.alloc (egCqInitbucket h.next size buf valSize)).load ⟨h.next, i⟩ = some
      { next := if i + 1 < size then some ⟨h.next, i + 1⟩ else none
        buf := buf.map fun b => ⟨b, intProduct valSize i⟩
        val := none } := by
  simp [Heap.load_alloc, egCqInitbucket, hi]

theorem store_withArray (hs : 0 < size) (e : Option Ptr) :
    (h.alloc (egCqInitbucket h.next size buf valSize)).store ⟨h.next, size - 1⟩
      (fun n => { n with next := e }) = some (withArray h size buf valSize e) :=
  Heap.store_of_load (load_initbucket (by omega)) _

theorem path_withArray {bt : EgCgBucket} (hb : bt.node = h.next) (e : Option Ptr) :
    Path (nxt (withArray h bt.size buf valSize e)) bt.slots e := by
  refine path_range _ (fun i hi => ?_) fun i hi => ?_
  · rw [withArray, EgCgBucket.at, hb, nxt_setNext_of_ne _ (by simp; omega), nxt,
      load_initbucket (by omega)]
    simp [hi, EgCgBucket.at, hb]
  · obtain rfl : i = bt.size - 1 := by omega
    rw [EgCgBucket.at, hb]
    exact nxt_setNext_self (load_initbucket (by omega)) e

theorem load_withArray_old {p : Ptr} {n : EgCqNode α} (hp : h.load p = some n) (e : Option Ptr) :
    (withArray h size buf valSize e).load p = some n := by
  have hb := Heap.blk_lt_next hp
  rw [withArray, Heap.load_modify_of_ne _ _ (by rintro rfl; simp at hb), Heap.load_alloc_old hp]

end Array

/-- The buckets tile the ring. The newest bucket was spliced in after the node
its `head` names, and without its slots the rest tile the ring left behind. -/
inductive Shape : List EgCgBucket → List Ptr → Prop
  | base {bt : EgCgBucket} {r : List Ptr} (hhead : bt.head = none) (hsize : 0 < bt.size)
      (hr : r ~r bt.slots) : Shape [bt] r
  | splice {bt : EgCgBucket} {bts : List EgCgBucket} {h : Ptr} {rest r : List Ptr}
      (hhead : bt.head = some h) (hsize : 0 < bt.size) (hr : r ~r h :: (bt.slots ++ rest))
      (hrest : Shape bts (h :: rest)) : Shape (bt :: bts) r

namespace Shape

theorem rotated {bts : List EgCgBucket} {r s : List Ptr} (h : Shape bts r) (hs : s ~r r) :
    Shape bts s := by
  cases h with
  | base hhead hsize hr => exact .base hhead hsize (hs.trans hr)
  | splice hhead hsize hr hrest => exact .splice hhead hsize (hs.trans hr) hrest

theorem newest {bts : List EgCgBucket} {r : List Ptr} (h : Shape bts r) :
    ∃ bt rest, bts = bt :: rest ∧ 0 < bt.size := by
  cases h with
  | base hhead hsize hr => exact ⟨_, _, rfl, hsize⟩
  | splice hhead hsize hr hrest => exact ⟨_, _, rfl, hsize⟩

theorem newest_mem {bt : EgCgBucket} {bts : List EgCgBucket} {r : List Ptr}
    (h : Shape (bt :: bts) r) {p : Ptr} (hp : p ∈ bt.slots) : p ∈ r := by
  cases h with
  | base hhead hsize hr => exact hr.mem_iff.mpr hp
  | splice hhead hsize hr hrest => exact hr.mem_iff.mpr (by simp [hp])

/-- Every ring node is a slot of some bucket, whose first slot is in the ring too. -/
theorem owner {bts : List EgCgBucket} {r : List Ptr} (h : Shape bts r) {p : Ptr} (hp : p ∈ r) :
    (⟨p.blk, 0⟩ : Ptr) ∈ r := by
  induction h generalizing p with
  | base hhead hsize hr =>
    have hm := EgCgBucket.mem_slots.mp (hr.mem_iff.mp hp)
    exact hr.mem_iff.mpr (EgCgBucket.mem_slots.mpr ⟨hm.1, hsize⟩)
  | splice hhead hsize hr hrest ih =>
    have hm := hr.mem_iff.mp hp
    rw [hr.mem_iff]
    simp only [List.mem_cons, List.mem_append] at hm ih ⊢
    rcases hm with hm | hm | hm
    · have := ih (.inl hm); tauto
    · have hm := EgCgBucket.mem_slots.mp hm
      exact .inr (.inl (EgCgBucket.mem_slots.mpr ⟨hm.1, hsize⟩))
    · have := ih (.inr hm); tauto

/-- The nodes left without the newest bucket live in other blocks. -/
theorem other_block {bt : EgCgBucket} {bts : List EgCgBucket} {hd : Ptr} {rest : List Ptr}
    (hrest : Shape bts (hd :: rest)) (hsize : 0 < bt.size)
    (hnd : (hd :: (bt.slots ++ rest)).Nodup) : ∀ p ∈ hd :: rest, p.blk ≠ bt.node := by
  intro p hp he
  have hz := hrest.owner hp
  have hslot : (⟨p.blk, 0⟩ : Ptr) ∈ bt.slots := EgCgBucket.mem_slots.mpr ⟨he, hsize⟩
  simp only [List.nodup_cons, List.mem_append, List.nodup_append] at hnd
  rcases List.mem_cons.mp hz with hz | hz
  · exact hnd.1 (.inl (hz ▸ hslot))
  · exact hnd.2.2.2 _ hslot _ hz rfl

/-- Buckets of one size: the ring is no smaller. -/
theorem le_length {bts : List EgCgBucket} {r : List Ptr} {n : Nat} (h : Shape bts r)
    (hn : ∀ bt ∈ bts, bt.size = n) : n ≤ r.length := by
  cases h with
  | base _ _ hr =>
    rw [hr.perm.length_eq, EgCgBucket.slots, List.length_map, List.length_range,
      hn _ List.mem_cons_self]
  | splice _ _ hr _ =>
    rw [hr.perm.length_eq, List.length_cons, List.length_append, EgCgBucket.slots, List.length_map,
      List.length_range, hn _ List.mem_cons_self]
    omega

end Shape

/-- Memory, ring and counters agree on the queued values: `seg` are the nodes
from the head up to the tail node, `free` the nodes after it. -/
structure Layout (cq : EgCycleQueue α) (queue : List α) (seg : List Ptr) (tail : Ptr)
    (free : List Ptr) : Prop where
  ring : Ring (nxt cq.nodes) (seg ++ tail :: free)
  shape : Shape cq.btlist (seg ++ tail :: free)
  head_eq : cq.head = seg.head?.or (some tail)
  tail_eq : cq.tail = some tail
  values : seg.map (val cq.nodes) = queue.map some
  index : cq.btIndex = .ofNat (cq.btlist.length - 1)
  size_eq : cq.size = .ofNat (cq.btlist.map (·.size)).sum

def Represents (cq : EgCycleQueue α) (queue : List α) : Prop :=
  ∃ seg tail free, Layout cq queue seg tail free

end Doorhinges.CycleQueue

import Doorhinges.CycleQueue.Steps
import Doorhinges.Lib.Machine
import Mathlib.Algebra.BigOperators.Ring.Finset
import Mathlib.Data.List.Perm.Basic

/-!
# The structure of the ring

The buckets of a cycle queue, its counters and its ring agree in every state, and the newest
bucket can be unlinked. That holds while no null pointer is pushed: a node that holds one is
taken to be free.
-/
namespace Doorhinges.CycleQueue

open Lib.Blocks (Ptr Heap)
open Lib.Links
open Lib.Machine

variable {α : Type}

/-- A call, with the pointer that a push is given. -/
inductive Call (α : Type) where
  | push (val : Option α)
  | pop
  | head
  deriving DecidableEq

/-- `put` for any pointer. -/
def putPtr (cur : Option Ptr) (val : Option α) (cq : EgCycleQueue α) :
    Option (EgCycleQueue α) := do
  let cq ← cq.setNode cur fun n => { n with val := val }
  let n ← cq.node cur
  some { cq with tail := n.next }

/-- `eg_cq_push` for any pointer. -/
def egCqPushPtr (m : Malloc) (cq : EgCycleQueue α) (val : Option α) :
    Option (Bool × EgCycleQueue α) := do
  let cur := cq.tail
  let n ← cq.node cur
  if n.next = cq.head then
    let (grown, cq) ← egCqInc m cq
    if grown then do
      let cq ← putPtr cur val cq
      some (true, cq)
    else some (false, cq)
  else
    let shrink ← shrinks cq
    let cq ← if shrink then egCqDec cq else some cq
    let cq ← putPtr cur val cq
    some (true, cq)

theorem egCqPushPtr_some (m : Malloc) (cq : EgCycleQueue α) (val : α) :
    egCqPushPtr m cq (some val) = egCqPush m cq val := rfl

/-- The state after a call whose allocations succeed. -/
def call (cq : EgCycleQueue α) : Call α → Option (EgCycleQueue α)
  | .push val => (egCqPushPtr .ok cq val).map (·.2)
  | .pop => (egCqPop cq).map (·.2)
  | .head => (egCqHead cq).map fun _ => cq

/-- The counters are exact while an `int` can hold the number of nodes. -/
structure Counted (cq : EgCycleQueue α) (ring : List Ptr) : Prop where
  length_eq : ring.length = cq.size.toInt
  size_eq : cq.size.toInt = (cq.btlist.map fun bt => (bt.size : Int)).sum
  index : cq.btIndex.toInt = cq.btlist.length - 1

/-- What `ring`, the nodes met from the head on, is to the queue. -/
structure RingOf (cq : EgCycleQueue α) (ring : List Ptr) : Prop where
  head_eq : ∃ p ∈ ring.head?, cq.head = some p
  returns : Ring (nxt cq.nodes) ring
  nodes_eq : ring.Perm (cq.btlist.flatMap EgCgBucket.slots)
  counted : ring.length < 2 ^ 31 → Counted cq ring
  tail_mem : ∃ p ∈ ring, cq.tail = some p
  newest : cq.btIndex ≠ 0 → ∀ bt ∈ cq.btlist.head?, ∃ p ∈ ring, bt.head = some p ∧
    nxt cq.nodes p = some (bt.at 0)

def Structured (cq : EgCycleQueue α) : Prop := ∃ ring, RingOf cq ring

namespace Shape

variable {bts : List EgCgBucket} {r : List Ptr}

/-- The nodes of the ring are those of the buckets. -/
theorem perm (h : Shape bts r) : r.Perm (bts.flatMap EgCgBucket.slots) := by
  induction h with
  | base _ _ hr => simpa using hr.perm
  | splice _ _ hr _ ih =>
    rw [List.flatMap_cons]
    refine hr.perm.trans (List.perm_middle.symm.trans ?_)
    exact List.Perm.append_left _ ih

/-- The stored head of the newest bucket is followed by the bucket. -/
theorem newest_pred {bt : EgCgBucket} (h : Shape (bt :: bts) r) (hmore : bts ≠ [])
    {next : Ptr → Option Ptr} (hring : Ring next r) :
    ∃ p ∈ r, bt.head = some p ∧ next p = some (bt.at 0) := by
  cases h with
  | base _ _ _ => exact absurd rfl hmore
  | splice hhead hsize hr _ =>
    refine ⟨_, hr.mem_iff.2 List.mem_cons_self, hhead, ?_⟩
    rw [(hring.rotated hr).next_cons, List.head?_append, EgCgBucket.head?_slots hsize]
    rfl

end Shape

theorem length_buckets (bts : List EgCgBucket) :
    (bts.flatMap EgCgBucket.slots).length = (bts.map (·.size)).sum := by
  induction bts with
  | nil => rfl
  | cons bt bts ih =>
    rw [List.flatMap_cons, List.length_append, List.map_cons, List.sum_cons, ← ih]
    simp [EgCgBucket.slots]

/-- Every bucket has a node. -/
theorem Shape.length_le {bts : List EgCgBucket} {r : List Ptr} (h : Shape bts r) :
    bts.length ≤ (bts.map (·.size)).sum := by
  induction h with
  | base _ hsize _ =>
    simp only [List.length_singleton, List.map_cons, List.map_nil, List.sum_cons, List.sum_nil]
    omega
  | splice _ hsize _ _ ih =>
    rw [List.length_cons, List.map_cons, List.sum_cons]
    omega

theorem Layout.counted {cq : EgCycleQueue α} {queue : List α} {seg free : List Ptr} {tail : Ptr}
    (h : Layout cq queue seg tail free) (hsmall : (seg ++ tail :: free).length < 2 ^ 31) :
    Counted cq (seg ++ tail :: free) := by
  have hlength : (seg ++ tail :: free).length = (cq.btlist.map (·.size)).sum :=
    h.shape.perm.length_eq.trans (length_buckets cq.btlist)
  obtain ⟨top, rest, hbts, -⟩ := h.shape.newest
  have hle := h.shape.length_le
  have hpos : 0 < cq.btlist.length := by
    rw [hbts]
    exact Nat.succ_pos _
  have hsize : cq.size.toInt = (cq.btlist.map (·.size)).sum := by
    rw [h.size_eq, Int32.toInt_ofNat_of_lt (hlength ▸ hsmall)]
  refine ⟨by rw [hsize, hlength], ?_, ?_⟩
  · rw [hsize, Nat.cast_list_sum, List.map_map]
    rfl
  · rw [h.index, Int32.toInt_ofNat_of_lt (by omega)]
    omega

/-- A represented queue has its structure. -/
theorem Represents.structured {cq : EgCycleQueue α} {queue : List α} (h : Represents cq queue) :
    Structured cq := by
  obtain ⟨seg, tail, free, h⟩ := h
  refine ⟨seg ++ tail :: free, ?_, h.ring, h.shape.perm, h.counted, ⟨tail, by simp, h.tail_eq⟩, ?_⟩
  · rw [h.head_eq]
    cases seg with
    | nil => exact ⟨tail, rfl, rfl⟩
    | cons p seg => exact ⟨p, rfl, rfl⟩
  · intro hidx bt hbt
    obtain ⟨bts, hbts⟩ := List.head?_eq_some_iff.1 hbt
    have hshape := h.shape
    rw [hbts] at hshape
    refine hshape.newest_pred ?_ h.ring
    rintro rfl
    rw [h.index, hbts] at hidx
    exact hidx rfl

/-- A call that pushes no null pointer is defined and keeps the queue represented. -/
theorem call_represents (cq : EgCycleQueue α) (c : Call α) (h : ∃ queue, Represents cq queue)
    (hc : c ≠ .push none) :
    ∃ cq', call cq c = some cq' ∧ ∃ queue, Represents cq' queue := by
  obtain ⟨queue, seg, tail, free, h⟩ := h
  cases c with
  | push val =>
    cases val with
    | none => exact absurd rfl hc
    | some v =>
      obtain ⟨cq', hpush, hspares, honto⟩ := h.push_layout v
      refine ⟨cq', by rw [call, egCqPushPtr_some, hpush]; rfl, ?_⟩
      cases hs : shrinksOntoHead cq with
      | false => exact ⟨_, hspares hs⟩
      | true => exact ⟨_, (honto hs).2.1⟩
  | pop =>
    cases queue with
    | nil => exact ⟨cq, by simp [call, egCqPop, h.empty_iff], [], _, _, _, h⟩
    | cons a queue =>
      obtain ⟨cq', seg', free', hpop, h'⟩ := h.pop_layout
      exact ⟨cq', by rw [call, hpop]; rfl, queue, _, _, _, h'⟩
  | head => exact ⟨cq, by rw [call, h.head_eq_pop]; rfl, queue, _, _, _, h⟩

/-- The ring keeps its structure in every run whose calls push no null pointer. -/
theorem ring_structured (size valSize : Nat) (hs : 1 ≤ size) :
    ∃ cq : EgCycleQueue α, egCqCreate .ok size valSize = some (some cq) ∧
      ∀ calls : List (Call α), .push none ∉ calls → Always call Structured cq calls := by
  obtain ⟨cq, hcreate, hr⟩ := create_represents (α := α) hs valSize
  refine ⟨cq, hcreate, fun calls hcalls => ?_⟩
  refine always_of_throughout (fun cq ⟨_, h⟩ => h.structured) call_represents ⟨[], hr⟩ ?_
  exact throughout_of_forall fun c hc h => hcalls (h ▸ hc)

theorem ring_structured_growing : ∃ cq : EgCycleQueue Nat,
    egCqCreate .ok 1 0 = some (some cq) ∧
      Always call Structured cq [.push (some 1), .push (some 2), .pop, .head] := by
  obtain ⟨cq, hcreate, hcalls⟩ := ring_structured 1 0 (by decide)
  exact ⟨cq, hcreate, hcalls _ (by decide)⟩

/-- The last push of this run unlinks the bucket that holds the head node. -/
def nullRun : List (Call Nat) :=
  [.push none, .push none, .pop, .pop, .push none, .push none]

theorem nullRun_dangles : ((egCqCreate .ok 1 0).join.bind fun cq => run call cq nullRun).map
    (fun cq => (cq.node cq.head).isSome) = some false := by
  decide

/-- With null pointers the structure is lost. -/
theorem not_ring_structured : ¬ ∀ size valSize : Nat, 1 ≤ size → ∃ cq : EgCycleQueue Nat,
    egCqCreate .ok size valSize = some (some cq) ∧
      ∀ calls cq', run call cq calls = some cq' → Structured cq' := by
  intro h
  obtain ⟨cq, hcreate, hcalls⟩ := h 1 0 (by decide)
  have hend := nullRun_dangles
  rw [hcreate, Option.join_some, Option.bind_some] at hend
  obtain ⟨cq', hrun, hnode⟩ := Option.map_eq_some_iff.1 hend
  obtain ⟨ring, hring⟩ := hcalls nullRun cq' hrun
  obtain ⟨p, hp, hhead⟩ := hring.head_eq
  obtain ⟨q, hq⟩ := hring.returns.next_some (List.mem_of_mem_head? hp)
  obtain ⟨n, hn, -⟩ := load_of_nxt hq
  rw [hhead, EgCycleQueue.node, Option.bind_some, hn] at hnode
  cases hnode

end Doorhinges.CycleQueue

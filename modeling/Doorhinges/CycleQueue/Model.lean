import Doorhinges.Lib.Blocks
import Mathlib.Algebra.Ring.Int.Defs
import Mathlib.Algebra.Ring.Nat

/-!
# The cycle queue of cyclequeue.c

A ring of nodes made of bucket segments. `egCqInc` splices a fresh segment in
after the tail node when the ring is full; `egCqDec` unlinks the newest segment
when its two end nodes hold no value. The bucket list is an ordinary list,
newest bucket first; nodes live in block memory. A result `none` is a null or
dangling access. Objects handed to the queue are non-null and have type `α`.
The sums and products of `int`s are taken modulo `2 ^ 32`, as the machine has them.
-/
namespace Doorhinges.CycleQueue

open Lib.Blocks (Ptr Heap)

/-- `eg_cq_node_t`. -/
structure EgCqNode (α : Type) where
  next : Option Ptr
  buf : Option Ptr
  val : Option α
  deriving DecidableEq

/-- `eg_cg_bucket_t`; `node` and `buf` are the blocks its two arrays live in. -/
structure EgCgBucket where
  head : Option Ptr
  node : Nat
  buf : Option Nat
  size : Nat
  deriving DecidableEq

def EgCgBucket.at (bt : EgCgBucket) (i : Nat) : Ptr := ⟨bt.node, i⟩

/-- `eg_cycle_queue_t`, with the memory its nodes and element buffers live in. -/
structure EgCycleQueue (α : Type) where
  size : Int32
  btIndex : Int32
  valSize : Nat
  head : Option Ptr
  tail : Option Ptr
  btlist : List EgCgBucket
  nodes : Heap (EgCqNode α)
  bufs : Heap UInt8

/-- Which of the allocations of one call succeed. -/
structure Malloc where
  bt : Bool
  node : Bool
  buf : Bool

def Malloc.ok : Malloc := ⟨true, true, true⟩

variable {α : Type}

def EgCycleQueue.node (cq : EgCycleQueue α) (p : Option Ptr) : Option (EgCqNode α) :=
  p.bind cq.nodes.load

def EgCycleQueue.setNode (cq : EgCycleQueue α) (p : Option Ptr) (f : EgCqNode α → EgCqNode α) :
    Option (EgCycleQueue α) :=
  p.bind fun p => (cq.nodes.store p f).map fun nodes => { cq with nodes := nodes }

/-- An `int` product that is converted to `size_t`, or added to a pointer. -/
def intProduct (a b : Nat) : Nat := (Int.bmod (a * b) (2 ^ 32) % 2 ^ 64).toNat

/-- The element buffers of a new bucket, allocated only for a positive element size. -/
def mallocBuf (m : Malloc) (size valSize : Nat) (bufs : Heap UInt8) :
    Option (Option Nat × Heap UInt8) :=
  if valSize > 0 then
    if m.buf then some (some bufs.next, bufs.alloc (List.replicate (intProduct size valSize) 0))
    else none
  else some (none, bufs)

/-- The array `eg_cq_initbucket` leaves in block `arr`. -/
def egCqInitbucket (arr size : Nat) (buf : Option Nat) (valSize : Nat) : List (EgCqNode α) :=
  (List.range size).map fun i =>
    { next := if i + 1 < size then some ⟨arr, i + 1⟩ else none
      buf := buf.map fun b => ⟨b, intProduct valSize i⟩
      val := none }

/-- The inner result is `none` when an allocation fails. -/
def egCqCreate (m : Malloc) (size valSize : Nat) : Option (Option (EgCycleQueue α)) :=
  if !m.bt || !m.node then some none
  else match mallocBuf m size valSize Heap.empty with
    | none => some none
    | some (buf, bufs) => do
      let node := (Heap.empty : Heap (EgCqNode α)).next
      let nodes := Heap.empty.alloc (egCqInitbucket node size buf valSize)
      let nodes ← nodes.store ⟨node, size - 1⟩ fun n => { n with next := some ⟨node, 0⟩ }
      some (some
        { size := .ofNat size
          btIndex := 0
          valSize := valSize
          head := some ⟨node, 0⟩
          tail := some ⟨node, 0⟩
          btlist := [{ head := none, node := node, buf := buf, size := size }]
          nodes := nodes
          bufs := bufs })

def egCqEmpty (cq : EgCycleQueue α) : Bool := cq.head = cq.tail

/-- The Boolean is the result of the call, 0 when an allocation fails. -/
def egCqInc (m : Malloc) (cq : EgCycleQueue α) : Option (Bool × EgCycleQueue α) :=
  match cq.btlist with
  | [] => none
  | top :: _ =>
    if !m.bt || !m.node then some (false, cq)
    else match mallocBuf m top.size cq.valSize cq.bufs with
      | none => some (false, cq)
      | some (buf, bufs) => do
        let node := cq.nodes.next
        let cur ← cq.tail
        let after ← cq.node cq.tail
        let nodes := cq.nodes.alloc (egCqInitbucket node top.size buf cq.valSize)
        let nodes ← nodes.store ⟨node, top.size - 1⟩ fun n => { n with next := after.next }
        let nodes ← nodes.store cur fun n => { n with next := some ⟨node, 0⟩ }
        let bt : EgCgBucket := { head := cq.tail, node := node, buf := buf, size := top.size }
        some (true,
          { cq with
            size := cq.size + .ofNat top.size
            btIndex := cq.btIndex + 1
            btlist := bt :: cq.btlist
            nodes := nodes
            bufs := bufs })

def egCqDec (cq : EgCycleQueue α) : Option (EgCycleQueue α) :=
  match cq.btlist with
  | [] => none
  | bt :: rest => do
    let last ← cq.nodes.load (bt.at (bt.size - 1))
    let cq ← cq.setNode bt.head fun n => { n with next := last.next }
    some
      { cq with
        size := cq.size - .ofNat bt.size
        btIndex := cq.btIndex - 1
        btlist := rest
        nodes := cq.nodes.release bt.node
        bufs := bt.buf.elim cq.bufs cq.bufs.release }

/-- The pointer comparisons with both ends of a bucket's array: live blocks do
not overlap, so a pointer into another block is outside. -/
def outside (cur : Ptr) (bt : EgCgBucket) : Bool :=
  cur.blk ≠ bt.node ∨ cur.off > bt.size - 1

/-- The newest bucket looks drained and does not hold the tail. -/
def shrinks (cq : EgCycleQueue α) : Option Bool :=
  if cq.btIndex = 0 then some false
  else match cq.btlist with
    | [] => none
    | bt :: _ => do
      let cur ← cq.tail
      let first ← cq.nodes.load (bt.at 0)
      let last ← cq.nodes.load (bt.at (bt.size - 1))
      some (first.val.isNone && last.val.isNone && outside cur bt)

/-- `cur->val = val; cq->tail = cur->next`. -/
def put (cur : Option Ptr) (val : α) (cq : EgCycleQueue α) : Option (EgCycleQueue α) := do
  let cq ← cq.setNode cur fun n => { n with val := some val }
  let n ← cq.node cur
  some { cq with tail := n.next }

def egCqPush (m : Malloc) (cq : EgCycleQueue α) (val : α) : Option (Bool × EgCycleQueue α) := do
  let cur := cq.tail
  let n ← cq.node cur
  if n.next = cq.head then
    let (grown, cq) ← egCqInc m cq
    if grown then do
      let cq ← put cur val cq
      some (true, cq)
    else some (false, cq)
  else
    let shrink ← shrinks cq
    let cq ← if shrink then egCqDec cq else some cq
    let cq ← put cur val cq
    some (true, cq)

def egCqPop (cq : EgCycleQueue α) : Option (Option α × EgCycleQueue α) :=
  if egCqEmpty cq then some (none, cq)
  else do
    let n ← cq.node cq.head
    let cq ← cq.setNode cq.head fun n => { n with val := none }
    let n' ← cq.node cq.head
    some (n.val, { cq with head := n'.next })

def egCqGetCurBuf (cq : EgCycleQueue α) : Option (Option Ptr) :=
  (cq.node cq.tail).map (·.buf)

def egCqHead (cq : EgCycleQueue α) : Option (Option α) :=
  if egCqEmpty cq then some none
  else (cq.node cq.head).map (·.val)

end Doorhinges.CycleQueue

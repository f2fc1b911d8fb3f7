import Doorhinges.Lib.DoublyLinked

/-!
# The hash table

`hashtable.c`: buckets that stand in the chain of their slot and in one list of all
buckets, with pooled buckets (`ht_*`) or with buckets from `malloc` and a slot array
that is rebuilt when it grows (`eg_ht_*`). A result `none` is a step outside the slot
array or a loop that does not end.
-/
namespace Doorhinges.Hashtable

open Lib.DoublyLinked

/-- The callbacks for keys: `compare` is an equivalence that `hash` respects. -/
structure Keys (K : Type) where
  isNull : K → Bool
  hash : K → Nat
  compare : K → K → Bool
  refl : ∀ k, compare k k
  symm : ∀ {k l}, compare k l → compare l k
  trans : ∀ {k l m}, compare k l → compare l m → compare k m
  compat : ∀ {k l}, compare k l → hash k = hash l

/-- `eg_hash_num` and `eg_num_cmp`. -/
def egNumKeys : Keys Nat where
  isNull k := k = 0
  hash k := k
  compare k l := k = l
  refl k := by simp
  symm h := by simpa using (by simpa using h : _ = _).symm
  trans h g := by simp_all
  compat h := by simpa using h

/-- `eg_ht_bucket_t`; `head` is the place of a slot in `hlist`. -/
structure Bucket (K V P : Type) where
  key : K
  val : V
  next : Option P
  prev : Option P
  tnext : Option P
  tprev : Option P
  head : Nat

/-- `eg_hashtable_t` and the memory of the buckets. -/
structure Table (K V P : Type) where
  size : Nat
  elements : Nat
  hlist : Nat → Option P
  tlist : Option P
  bucket : P → Bucket K V P

variable {K V P : Type}

namespace Table

def key (t : Table K V P) (b : P) : K := (t.bucket b).key
def val (t : Table K V P) (b : P) : V := (t.bucket b).val
def next (t : Table K V P) (b : P) : Option P := (t.bucket b).next
def prev (t : Table K V P) (b : P) : Option P := (t.bucket b).prev
def tnext (t : Table K V P) (b : P) : Option P := (t.bucket b).tnext
def tprev (t : Table K V P) (b : P) : Option P := (t.bucket b).tprev
def head (t : Table K V P) (b : P) : Nat := (t.bucket b).head

variable [DecidableEq P] (t : Table K V P)

def write (b : P) (f : Bucket K V P → Bucket K V P) : Table K V P :=
  { t with bucket := Function.update t.bucket b (f (t.bucket b)) }

def setSlot (h : Nat) (b : Option P) : Table K V P :=
  { t with hlist := Function.update t.hlist h b }

/-- `b` becomes the first of slot `h`. -/
def linkSlot (h : Nat) (b : P) : Table K V P :=
  let first := t.hlist h
  let t := (t.write b fun x => { x with head := h, next := first, prev := none }).setSlot h (some b)
  match first with
  | none => t
  | some n => t.write n fun x => { x with prev := some b }

/-- `b` becomes the first of `tlist`, and one element more is counted. -/
def linkAll (b : P) : Table K V P :=
  let first := t.tlist
  let t := t.write b fun x => { x with tnext := first, tprev := none }
  let t := { t with tlist := some b, elements := t.elements + 1 }
  match first with
  | none => t
  | some n => t.write n fun x => { x with tprev := some b }

/-- `b` leaves the chain of its slot. -/
def unlinkSlot (b : P) : Table K V P :=
  match t.prev b, t.next b with
  | some p, some n =>
    (t.write p fun x => { x with next := some n }).write n fun x => { x with prev := some p }
  | some p, none => t.write p fun x => { x with next := none }
  | none, some n => (t.setSlot (t.head b) (some n)).write n fun x => { x with prev := none }
  | none, none => t.setSlot (t.head b) none

/-- `b` leaves `tlist`, and one element less is counted. -/
def unlinkAll (b : P) : Table K V P :=
  let t' :=
    match t.tprev b, t.tnext b with
    | some p, some n =>
      (t.write p fun x => { x with tnext := some n }).write n fun x => { x with tprev := some p }
    | some p, none => t.write p fun x => { x with tnext := none }
    | none, some n => { t with tlist := some n }.write n fun x => { x with tprev := none }
    | none, none => { t with tlist := none }
  { t' with elements := t'.elements - 1 }

/-- The first bucket of a chain whose key compares equal. A chain has at most as many
buckets as the table, so a walk past this bound would not end. -/
def search (ks : Keys K) (key : K) : Nat → Option P → Option (Option P)
  | _, none => some none
  | 0, some _ => none
  | n + 1, some b => if ks.compare key (t.key b) then some (some b) else search ks key n (t.next b)

def searchSlot (ks : Keys K) (key : K) : Option (Option P) :=
  t.search ks key t.elements (t.hlist (ks.hash key % t.size))

/-- The iterators of a traversal from here on. -/
def traverse : Nat → Option P → Option (List P)
  | _, none => some []
  | 0, some _ => none
  | n + 1, some b => (traverse n (t.tnext b)).map (b :: ·)

end Table

section Common

variable [DecidableEq P] (ks : Keys K) (t : Table K V P)

def egHtFind (key : K) : Option (Option P) :=
  if ks.isNull key then some none else t.searchSlot ks key

def egHtBegin : Option P := t.tlist

def egHtNext (it : P) : Option P := t.tnext it

def egHtElements : Nat := t.elements

def egHtEmpty : Bool := t.elements = 0

/-- The traversal with `eg_ht_begin` and `eg_ht_next`. -/
def iterators : Option (List P) := t.traverse (egHtElements t) (egHtBegin t)

/-- A slot array of null pointers and nothing listed. -/
def emptyTable (size : Nat) (bucket : P → Bucket K V P) : Table K V P :=
  ⟨size, 0, fun _ => none, none, bucket⟩

end Common

section Pooled

variable [DecidableEq P] (ks : Keys K) (t : Table K V P)

def htInsertBucket (b : P) : Option (Table K V P) := do
  match ← t.searchSlot ks (t.key b) with
  | some _ => some t
  | none => some ((t.linkSlot (ks.hash (t.key b) % t.size) b).linkAll b)

/-- The table, and where the iterator stands afterwards. -/
def htEraseBucket (b : P) : Table K V P × Option P :=
  ((t.unlinkSlot b).unlinkAll b, t.tnext b)

def htRemoveBucket (key : K) : Option (Table K V P) := do
  if ks.isNull key then some t
  else
    match ← egHtFind ks t key with
    | none => some t
    | some it => some (htEraseBucket t it).1

def htClearBucket : Table K V P :=
  { t with hlist := fun i => if i < t.size then none else t.hlist i, tlist := none, elements := 0 }

end Pooled

section Growing

/-- The callbacks for the size. -/
structure Sizes (K V P : Type) where
  isResize : Table K V P → Bool
  getNewsize : Nat → Nat
  pos : ∀ n, 0 < getNewsize n

variable [DecidableEq P] (ks : Keys K) (sizes : Sizes K V P) (t : Table K V P)

/-- The loop of `eg_ht_resize`. -/
def rehash (newsize : Nat) : Nat → Option P → Table K V P → Option (Table K V P)
  | _, none, t => some t
  | 0, some _, _ => none
  | n + 1, some b, t =>
    let t := t.linkSlot (ks.hash (t.key b) % newsize) b
    rehash newsize n (t.tnext b) t

def egHtResize (newsize : Nat) : Option (Table K V P) :=
  rehash ks newsize t.elements t.tlist { t with hlist := fun _ => none, size := newsize }

/-- The slot is computed first; `b` is what `malloc` returns. -/
def egHtInsert (b : P) (key : K) (val : V) : Option (Table K V P × Nat) := do
  if ks.isNull key then some (t, 0)
  else
    let h := ks.hash key % t.size
    match ← t.searchSlot ks key with
    | some _ => some (t, 0)
    | none =>
      let t ← if sizes.isResize t then egHtResize ks t (sizes.getNewsize t.size) else some t
      let t := t.write b fun x => { x with key := key, val := val }
      if h < t.size then some ((t.linkSlot h b).linkAll b, 1) else none

def egHtErase (b : P) : Table K V P × Option P × Nat :=
  ((t.unlinkSlot b).unlinkAll b, t.tnext b, 1)

def egHtRemove (key : K) : Option (Table K V P × Nat) := do
  if ks.isNull key then some (t, 0)
  else
    match ← egHtFind ks t key with
    | none => some (t, 0)
    | some it => some ((egHtErase t it).1, 1)

def egHtClear : Table K V P :=
  if t.elements = 0 then t
  else
    { t with hlist := fun i => if i < t.size then none else t.hlist i, tlist := none
             elements := 0 }

end Growing

end Doorhinges.Hashtable

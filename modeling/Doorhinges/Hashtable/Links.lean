import Doorhinges.Hashtable.Model

/-!
# What linking and unlinking write

Each of the four link operations is given once by the fields it leaves.
-/
namespace Doorhinges.Hashtable.Table

open Lib.DoublyLinked

variable {K V P : Type} [DecidableEq P]

section Fields

variable (bucket : P → Bucket K V P) (b p : P) (x : Bucket K V P)

@[simp] theorem key_update : (Function.update bucket b x p).key =
    Function.update (fun q => (bucket q).key) b x.key p :=
  Function.apply_update (fun _ => Bucket.key) bucket b x p

@[simp] theorem val_update : (Function.update bucket b x p).val =
    Function.update (fun q => (bucket q).val) b x.val p :=
  Function.apply_update (fun _ => Bucket.val) bucket b x p

@[simp] theorem next_update : (Function.update bucket b x p).next =
    Function.update (fun q => (bucket q).next) b x.next p :=
  Function.apply_update (fun _ => Bucket.next) bucket b x p

@[simp] theorem prev_update : (Function.update bucket b x p).prev =
    Function.update (fun q => (bucket q).prev) b x.prev p :=
  Function.apply_update (fun _ => Bucket.prev) bucket b x p

@[simp] theorem tnext_update : (Function.update bucket b x p).tnext =
    Function.update (fun q => (bucket q).tnext) b x.tnext p :=
  Function.apply_update (fun _ => Bucket.tnext) bucket b x p

@[simp] theorem tprev_update : (Function.update bucket b x p).tprev =
    Function.update (fun q => (bucket q).tprev) b x.tprev p :=
  Function.apply_update (fun _ => Bucket.tprev) bucket b x p

@[simp] theorem head_update : (Function.update bucket b x p).head =
    Function.update (fun q => (bucket q).head) b x.head p :=
  Function.apply_update (fun _ => Bucket.head) bucket b x p

end Fields

/-- Sizes, keys and values are as before. -/
structure SameData (t u : Table K V P) : Prop where
  size : u.size = t.size
  key : u.key = t.key
  val : u.val = t.val

/-- The list of all buckets is as before. -/
structure SameAll (t u : Table K V P) : Prop where
  tnext : u.tnext = t.tnext
  tprev : u.tprev = t.tprev
  tlist : u.tlist = t.tlist
  elements : u.elements = t.elements

/-- The slots and chains are as before. -/
structure SameSlots (t u : Table K V P) : Prop where
  next : u.next = t.next
  prev : u.prev = t.prev
  head : u.head = t.head
  hlist : u.hlist = t.hlist

structure LinkedSlot (t : Table K V P) (h : Nat) (b : P) (u : Table K V P) : Prop
    extends SameData t u, SameAll t u where
  next : u.next = Function.update t.next b (t.hlist h)
  prev : u.prev = setLink (Function.update t.prev b none) (t.hlist h) (some b)
  head : u.head = Function.update t.head b h
  hlist : u.hlist = Function.update t.hlist h (some b)

theorem linkSlot_spec (t : Table K V P) (h : Nat) (b : P) :
    LinkedSlot t h b (t.linkSlot h b) := by
  rw [linkSlot]
  cases hf : t.hlist h <;> refine ⟨⟨?_, ?_, ?_⟩, ⟨?_, ?_, ?_, ?_⟩, ?_, ?_, ?_, ?_⟩ <;>
    (try funext p) <;>
    simp [hf, Table.next, Table.prev, Table.tnext, Table.tprev, Table.head, Table.key, Table.val,
      write, setSlot, setLink] <;> rfl

structure LinkedAll (t : Table K V P) (b : P) (u : Table K V P) : Prop
    extends SameData t u, SameSlots t u where
  tnext : u.tnext = Function.update t.tnext b t.tlist
  tprev : u.tprev = setLink (Function.update t.tprev b none) t.tlist (some b)
  tlist : u.tlist = some b
  elements : u.elements = t.elements + 1

theorem linkAll_spec (t : Table K V P) (b : P) : LinkedAll t b (t.linkAll b) := by
  rw [linkAll]
  cases hf : t.tlist <;> refine ⟨⟨?_, ?_, ?_⟩, ⟨?_, ?_, ?_, ?_⟩, ?_, ?_, ?_, ?_⟩ <;>
    (try funext p) <;>
    simp [hf, Table.next, Table.prev, Table.tnext, Table.tprev, Table.head, Table.key, Table.val,
      write, setLink] <;> rfl

structure UnlinkedSlot (t : Table K V P) (b : P) (u : Table K V P) : Prop
    extends SameData t u, SameAll t u where
  next : u.next = setLink t.next (t.prev b) (t.next b)
  prev : u.prev = setLink t.prev (t.next b) (t.prev b)
  head : u.head = t.head
  hlist : u.hlist =
    if t.prev b = none then Function.update t.hlist (t.head b) (t.next b) else t.hlist

theorem unlinkSlot_spec (t : Table K V P) (b : P) : UnlinkedSlot t b (t.unlinkSlot b) := by
  rw [unlinkSlot]
  cases hp : t.prev b <;> cases hn : t.next b <;>
    refine ⟨⟨?_, ?_, ?_⟩, ⟨?_, ?_, ?_, ?_⟩, ?_, ?_, ?_, ?_⟩ <;> (try funext p) <;>
    simp [hp, hn, Table.tnext, Table.tprev, Table.head, Table.key, Table.val, write, setSlot,
      setLink] <;> simp [Table.next, Table.prev] <;> rfl

structure UnlinkedAll (t : Table K V P) (b : P) (u : Table K V P) : Prop
    extends SameData t u, SameSlots t u where
  tnext : u.tnext = setLink t.tnext (t.tprev b) (t.tnext b)
  tprev : u.tprev = setLink t.tprev (t.tnext b) (t.tprev b)
  tlist : u.tlist = if t.tprev b = none then t.tnext b else t.tlist
  elements : u.elements = t.elements - 1

theorem unlinkAll_spec (t : Table K V P) (b : P) : UnlinkedAll t b (t.unlinkAll b) := by
  rw [unlinkAll]
  cases hp : t.tprev b <;> cases hn : t.tnext b <;>
    refine ⟨⟨?_, ?_, ?_⟩, ⟨?_, ?_, ?_, ?_⟩, ?_, ?_, ?_, ?_⟩ <;> (try funext p) <;>
    simp [hp, hn, Table.next, Table.prev, Table.head, Table.key, Table.val, write,
      setLink] <;> simp [Table.tnext, Table.tprev] <;> rfl

end Doorhinges.Hashtable.Table

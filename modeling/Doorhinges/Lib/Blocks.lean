import Mathlib.Data.List.Basic

/-!
# Block memory

Objects live in blocks that an allocation returns and a release takes back. A
pointer is a block and an index into it; reading through a pointer whose block
is not live, or past its end, is undefined. Blocks are never reused.
-/
namespace Doorhinges.Lib.Blocks

structure Ptr where
  blk : Nat
  off : Nat
  deriving DecidableEq, Repr

/-- Every block from `next` on is still unused, so an allocation is fresh. -/
structure Heap (α : Type*) where
  blocks : Nat → Option (List α)
  next : Nat
  fresh : ∀ b, next ≤ b → blocks b = none

variable {α : Type*}

namespace Heap

def empty : Heap α where
  blocks _ := none
  next := 0
  fresh _ _ := rfl

def load (h : Heap α) (p : Ptr) : Option α :=
  (h.blocks p.blk).bind (·[p.off]?)

/-- A new block with the given cells; its number is the old `next`. -/
def alloc (h : Heap α) (cells : List α) : Heap α where
  blocks b := if b = h.next then some cells else h.blocks b
  next := h.next + 1
  fresh b hb := by
    rw [if_neg (by omega)]
    exact h.fresh b (by omega)

def release (h : Heap α) (blk : Nat) : Heap α where
  blocks b := if b = blk then none else h.blocks b
  next := h.next
  fresh b hb := by
    split
    · rfl
    · exact h.fresh b hb

def modify (h : Heap α) (p : Ptr) (f : α → α) : Heap α where
  blocks b := if b = p.blk then (h.blocks b).map (·.modify p.off f) else h.blocks b
  next := h.next
  fresh b hb := by
    rw [h.fresh b hb]
    split <;> rfl

/-- A write is defined where a read is. -/
def store (h : Heap α) (p : Ptr) (f : α → α) : Option (Heap α) :=
  (h.load p).map fun _ => h.modify p f

theorem store_of_load {h : Heap α} {p : Ptr} {a : α} (ha : h.load p = some a) (f : α → α) :
    h.store p f = some (h.modify p f) := by
  simp [store, ha]

theorem load_modify (h : Heap α) (p q : Ptr) (f : α → α) :
    (h.modify p f).load q = if q = p then (h.load q).map f else h.load q := by
  obtain ⟨b, i⟩ := p
  obtain ⟨c, j⟩ := q
  by_cases hb : c = b
  · subst hb
    cases hc : h.blocks c with
    | none => simp [load, modify, hc]
    | some cells =>
      by_cases hi : j = i
      · subst hi; simp [load, modify, hc]
      · simp [load, modify, hc, hi, Ne.symm hi]
  · simp [load, modify, hb]

theorem load_modify_self (h : Heap α) (p : Ptr) (f : α → α) :
    (h.modify p f).load p = (h.load p).map f := by
  rw [load_modify, if_pos rfl]

theorem load_modify_of_ne (h : Heap α) {p q : Ptr} (f : α → α) (hq : q ≠ p) :
    (h.modify p f).load q = h.load q := by
  rw [load_modify, if_neg hq]

theorem load_alloc (h : Heap α) (cells : List α) (p : Ptr) :
    (h.alloc cells).load p = if p.blk = h.next then cells[p.off]? else h.load p := by
  unfold load alloc
  split <;> simp_all

theorem load_release (h : Heap α) (blk : Nat) (p : Ptr) :
    (h.release blk).load p = if p.blk = blk then none else h.load p := by
  unfold load release
  split <;> simp_all

/-- A readable pointer is older than any block still to be allocated. -/
theorem blk_lt_next {h : Heap α} {p : Ptr} {a : α} (ha : h.load p = some a) : p.blk < h.next := by
  by_contra hn
  rw [load, h.fresh p.blk (by omega)] at ha
  simp at ha

theorem load_alloc_old {h : Heap α} {p : Ptr} {a : α} (ha : h.load p = some a) (cells : List α) :
    (h.alloc cells).load p = some a := by
  rw [load_alloc, if_neg (by have := blk_lt_next ha; omega), ha]

end Heap

end Doorhinges.Lib.Blocks

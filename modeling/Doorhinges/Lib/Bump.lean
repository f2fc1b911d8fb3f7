import Mathlib.Data.List.Basic

/-!
# Bump buffers

Blocks are written one behind the other into a memory of fixed size. What has been written
stays where it is: a later block starts behind it.
-/
namespace Doorhinges.Lib.Bump

variable {α τ : Type}

def overwrite (mem : List α) (pos : Nat) (block : List α) : List α :=
  mem.take pos ++ block ++ mem.drop (pos + block.length)

/-- A block of the memory and what it was written for. -/
structure Region (τ α : Type) where
  tag : τ
  start : Nat
  block : List α

def Region.stop (r : Region τ α) : Nat := r.start + r.block.length

def Region.Apart (r s : Region τ α) : Prop := r.stop ≤ s.start ∨ s.stop ≤ r.start

/-- The regions are listed from the last one written to the first. -/
structure Buffer (τ α : Type) where
  mem : List α
  last : Nat
  regions : List (Region τ α)

def Buffer.push (b : Buffer τ α) (tag : τ) (block : List α) : Buffer τ α :=
  ⟨overwrite b.mem b.last block, b.last + block.length, ⟨tag, b.last, block⟩ :: b.regions⟩

section Overwrite

variable {mem block : List α} {pos start len : Nat}

theorem length_overwrite (h : pos + block.length ≤ mem.length) :
    (overwrite mem pos block).length = mem.length := by
  rw [overwrite, List.length_append, List.length_append, List.length_take, List.length_drop]
  omega

theorem drop_overwrite (h : pos ≤ mem.length) :
    (overwrite mem pos block).drop pos = block ++ mem.drop (pos + block.length) := by
  have hlen : (mem.take pos).length = pos := List.length_take_of_le h
  rw [overwrite, List.append_assoc, List.drop_left' hlen]

theorem take_overwrite (h : pos ≤ mem.length) :
    (overwrite mem pos block).take pos = mem.take pos := by
  have hlen : (mem.take pos).length = pos := List.length_take_of_le h
  rw [overwrite, List.append_assoc, List.take_left' hlen]

/-- What lies in front of the block is not touched. -/
theorem slice_overwrite (h : pos ≤ mem.length) (hstart : start + len ≤ pos) :
    ((overwrite mem pos block).drop start).take len = (mem.drop start).take len := by
  have hcut : ∀ l : List α, (l.drop start).take len = ((l.take pos).drop start).take len := by
    intro l
    rw [List.drop_take, List.take_take, Nat.min_eq_left (by omega)]
  rw [hcut, take_overwrite h, ← hcut]

end Overwrite

/-- Each region is inside what has been used, holds its block, and starts behind the earlier
ones. -/
structure Laid (b : Buffer τ α) : Prop where
  room : b.last ≤ b.mem.length
  inside : ∀ r ∈ b.regions, r.stop ≤ b.last
  holds : ∀ r ∈ b.regions, (b.mem.drop r.start).take r.block.length = r.block
  behind : b.regions.Pairwise fun r s => s.stop ≤ r.start

section Laid

variable {b : Buffer τ α} {tag : τ} {block : List α}

theorem laid_empty (mem : List α) : Laid (⟨mem, 0, []⟩ : Buffer τ α) where
  room := Nat.zero_le _
  inside := by simp
  holds := by simp
  behind := List.Pairwise.nil

theorem Laid.push (h : Laid b) (hroom : b.last + block.length ≤ b.mem.length) :
    Laid (b.push tag block) where
  room := by
    show b.last + block.length ≤ (overwrite b.mem b.last block).length
    rw [length_overwrite hroom]
    exact hroom
  inside := by
    refine List.forall_mem_cons.2 ⟨Nat.le_refl _, fun r hr => ?_⟩
    exact Nat.le_trans (h.inside r hr) (Nat.le_add_right ..)
  holds := by
    refine List.forall_mem_cons.2 ⟨?_, fun r hr => ?_⟩
    · show ((overwrite b.mem b.last block).drop b.last).take block.length = block
      rw [drop_overwrite h.room, List.take_left]
    · exact (slice_overwrite h.room (h.inside r hr)).trans (h.holds r hr)
  behind := List.Pairwise.cons (fun r hr => h.inside r hr) h.behind

theorem length_push (hroom : b.last + block.length ≤ b.mem.length) :
    (b.push tag block).mem.length = b.mem.length := length_overwrite hroom

theorem Laid.apart (h : Laid b) : b.regions.Pairwise Region.Apart := h.behind.imp Or.inr

/-- Reading from the start of a region finds its block first. -/
theorem Laid.drop_start (h : Laid b) {r : Region τ α} (hr : r ∈ b.regions) :
    ∃ rest, b.mem.drop r.start = r.block ++ rest := by
  refine ⟨(b.mem.drop r.start).drop r.block.length, ?_⟩
  rw [← congrArg (· ++ _) (h.holds r hr), List.take_append_drop]

end Laid

end Doorhinges.Lib.Bump

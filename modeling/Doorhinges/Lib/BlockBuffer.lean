import Doorhinges.Lib.Bump

/-!
# Block buffers

A chained value takes its input in blocks of one size, and what does not fill a block waits in
a buffer. Taking a piece of input block by block is the same as taking its elements one at a
time, so it does not matter how a stream is cut into pieces.
-/
namespace Doorhinges.Lib.BlockBuffer

open Lib.Bump (overwrite)

/-- The chained value, the buffer with what earlier blocks have left in it, and how much of
it is filled. -/
structure State (σ α : Type) where
  chain : σ
  block : List α
  fill : Nat

section Source

variable {σ α : Type} (compress : σ → List α → σ) (size : Nat)

/-- One element. -/
def put (s : State σ α) (x : α) : State σ α :=
  if s.fill + 1 = size then
    ⟨compress s.chain (overwrite s.block s.fill [x]), overwrite s.block s.fill [x], 0⟩
  else ⟨s.chain, overwrite s.block s.fill [x], s.fill + 1⟩

/-- Whole blocks go through the buffer, and the rest stays in it. -/
def takeBlocks : Nat → State σ α → List α → State σ α
  | 0, s, buf => ⟨s.chain, overwrite s.block 0 buf, buf.length⟩
  | n + 1, s, buf =>
    if size ≤ buf.length then
      takeBlocks n ⟨compress s.chain (buf.take size), buf.take size, 0⟩ (buf.drop size)
    else ⟨s.chain, overwrite s.block 0 buf, buf.length⟩

/-- A piece first fills up the block that has been begun. -/
def update (s : State σ α) (buf : List α) : State σ α :=
  if s.fill = 0 then takeBlocks compress size buf.length s buf
  else if buf.length < size - s.fill then
    ⟨s.chain, overwrite s.block s.fill buf, s.fill + buf.length⟩
  else
    let block := overwrite s.block s.fill (buf.take (size - s.fill))
    takeBlocks compress size buf.length ⟨compress s.chain block, block, 0⟩
      (buf.drop (size - s.fill))

end Source

section Put

variable {σ α : Type} (compress : σ → List α → σ) {size : Nat} {s : State σ α} {xs : List α}

theorem overwrite_nil (mem : List α) (pos : Nat) : overwrite mem pos [] = mem := by
  rw [overwrite, List.append_nil, List.length_nil, Nat.add_zero, List.take_append_drop]

/-- Two blocks, one behind the other. -/
theorem overwrite_append {mem a b : List α} {pos : Nat} (h : pos + a.length ≤ mem.length) :
    overwrite (overwrite mem pos a) (pos + a.length) b = overwrite mem pos (a ++ b) := by
  have hlen : (mem.take pos ++ a).length = pos + a.length := by
    rw [List.length_append, List.length_take_of_le (by omega)]
  rw [overwrite, overwrite, overwrite, List.take_left' hlen, ← List.drop_drop,
    List.drop_left' hlen, List.drop_drop, List.length_append, List.append_assoc _ a,
    Nat.add_assoc]

theorem overwrite_cons {mem : List α} {pos : Nat} {x : α} (h : pos < mem.length) :
    overwrite (overwrite mem pos [x]) (pos + 1) xs = overwrite mem pos (x :: xs) :=
  overwrite_append (a := [x]) h

/-- A block that reaches the end of the memory. -/
theorem overwrite_end {mem : List α} {pos : Nat} (h : pos + xs.length = mem.length) :
    overwrite mem pos xs = mem.take pos ++ xs := by
  rw [overwrite, h, List.drop_length, List.append_nil]

theorem overwrite_all {mem : List α} (h : xs.length = mem.length) : overwrite mem 0 xs = xs := by
  rw [overwrite_end (by omega), List.take_zero, List.nil_append]

theorem length_put (hs : s.block.length = size) (hfill : s.fill < size) (x : α) :
    (put compress size s x).block.length = size ∧ (put compress size s x).fill < size ∧
      (put compress size s x).fill = (s.fill + 1) % size := by
  have hlen : (overwrite s.block s.fill [x]).length = size := by
    rw [Bump.length_overwrite (by rw [List.length_singleton]; omega), hs]
  rw [put]
  by_cases hfull : s.fill + 1 = size
  · rw [if_pos hfull]
    exact ⟨hlen, by dsimp only; omega, by rw [hfull, Nat.mod_self]⟩
  · rw [if_neg hfull]
    have hlt : s.fill + 1 < size := by omega
    exact ⟨hlen, hlt, (Nat.mod_eq_of_lt hlt).symm⟩

theorem length_foldl_put (hs : s.block.length = size) (hfill : s.fill < size) (xs : List α) :
    (xs.foldl (put compress size) s).block.length = size ∧
      (xs.foldl (put compress size) s).fill = (s.fill + xs.length) % size := by
  induction xs generalizing s with
  | nil => exact ⟨hs, (Nat.mod_eq_of_lt hfill).symm⟩
  | cons x xs ih =>
    obtain ⟨hlen, hlt, hnext⟩ := length_put compress hs hfill x
    obtain ⟨hlen', hfill'⟩ := ih hlen hlt
    refine ⟨hlen', hfill'.trans ?_⟩
    rw [hnext, Nat.mod_add_mod, List.length_cons, Nat.add_assoc, Nat.add_comm 1]

/-- Elements that do not fill the block. -/
theorem foldl_put_short (hs : s.block.length = size) (h : s.fill + xs.length < size) :
    xs.foldl (put compress size) s =
      ⟨s.chain, overwrite s.block s.fill xs, s.fill + xs.length⟩ := by
  induction xs generalizing s with
  | nil => rw [List.foldl_nil, overwrite_nil, List.length_nil, Nat.add_zero]
  | cons x xs ih =>
    rw [List.length_cons] at h
    have hput : put compress size s x = ⟨s.chain, overwrite s.block s.fill [x], s.fill + 1⟩ :=
      if_neg (by omega)
    have hlen := (length_put compress hs (by omega) x).1
    rw [hput] at hlen
    rw [List.foldl_cons, hput, ih hlen (by dsimp only; omega), overwrite_cons (by omega),
      List.length_cons, Nat.add_assoc, Nat.add_comm 1]

/-- Elements that fill it. -/
theorem foldl_put_full (hs : s.block.length = size) (hfill : s.fill < size)
    (h : s.fill + xs.length = size) : xs.foldl (put compress size) s =
      ⟨compress s.chain (overwrite s.block s.fill xs), overwrite s.block s.fill xs, 0⟩ := by
  induction xs generalizing s with
  | nil => exact absurd h (by rw [List.length_nil]; omega)
  | cons x xs ih =>
    rw [List.length_cons] at h
    cases xs with
    | nil =>
      have hput : put compress size s x = ⟨_, _, 0⟩ := if_pos (by simpa using h)
      rw [List.foldl_cons, List.foldl_nil, hput]
    | cons y xs =>
      rw [List.length_cons] at h
      have hput : put compress size s x = ⟨s.chain, overwrite s.block s.fill [x], s.fill + 1⟩ :=
        if_neg (by omega)
      have hlen := (length_put compress hs hfill x).1
      rw [hput] at hlen
      rw [List.foldl_cons, hput, ih hlen (by dsimp only; omega)
        (by dsimp only; rw [List.length_cons]; omega), overwrite_cons (by omega)]

theorem takeBlocks_eq {n : Nat} (hsize : 0 < size) (hs : s.block.length = size)
    (hfill : s.fill = 0) (hn : xs.length ≤ n) :
    takeBlocks compress size n s xs = xs.foldl (put compress size) s := by
  have hshort : xs.length < size → xs.foldl (put compress size) s =
      ⟨s.chain, overwrite s.block 0 xs, xs.length⟩ := fun h => by
    rw [foldl_put_short compress hs (by omega), hfill, Nat.zero_add]
  induction n generalizing s xs with
  | zero => exact (hshort (by omega)).symm
  | succ n ih =>
    rw [takeBlocks]
    by_cases hwhole : size ≤ xs.length
    · rw [if_pos hwhole]
      have htake : (xs.take size).length = size := List.length_take_of_le hwhole
      have hfirst : (xs.take size).foldl (put compress size) s =
          ⟨compress s.chain (xs.take size), xs.take size, 0⟩ := by
        rw [foldl_put_full compress hs (by omega) (by omega), hfill, overwrite_all (by omega)]
      have hrest : (xs.drop size).length ≤ n := by
        rw [List.length_drop]
        omega
      rw [ih htake rfl hrest fun h => by
        rw [foldl_put_short compress htake (by simpa using h), Nat.zero_add], ← hfirst,
        ← List.foldl_append, List.take_append_drop]
    · rw [if_neg hwhole]
      exact (hshort (by omega)).symm

/-- A piece is taken like its elements one after the other. -/
theorem update_eq (hs : s.block.length = size) (hfill : s.fill < size) :
    update compress size s xs = xs.foldl (put compress size) s := by
  rw [update]
  by_cases hzero : s.fill = 0
  · rw [if_pos hzero, takeBlocks_eq compress (by omega) hs hzero (Nat.le_refl _)]
  · rw [if_neg hzero]
    by_cases hshort : xs.length < size - s.fill
    · rw [if_pos hshort, foldl_put_short compress hs (by omega)]
    · rw [if_neg hshort]
      have htake : (xs.take (size - s.fill)).length = size - s.fill :=
        List.length_take_of_le (Nat.le_of_not_lt hshort)
      have hfirst : (xs.take (size - s.fill)).foldl (put compress size) s = ⟨_, _, 0⟩ :=
        foldl_put_full compress hs hfill (by omega)
      have hlen : (overwrite s.block s.fill (xs.take (size - s.fill))).length = size := by
        rw [Bump.length_overwrite (by omega), hs]
      dsimp only
      rw [takeBlocks_eq compress (by omega) hlen rfl (by rw [List.length_drop]; omega), ← hfirst,
        ← List.foldl_append, List.take_append_drop]

end Put

section Alike

variable {σ α : Type} {size : Nat} {s t : State σ α}

/-- The same value, and the same elements in what is filled of the block. -/
structure Alike (size : Nat) (s t : State σ α) : Prop where
  chain : s.chain = t.chain
  fill : s.fill = t.fill
  room : s.fill < size
  left : s.block.length = size
  right : t.block.length = size
  block : s.block.take s.fill = t.block.take s.fill

theorem Alike.put (compress : σ → List α → σ) (h : Alike size s t) (x : α) :
    Alike size (put compress size s x) (BlockBuffer.put compress size t x) := by
  have hroom := h.room
  have htake : ∀ mem : List α, mem.length = size →
      (overwrite mem s.fill [x]).take (s.fill + 1) = mem.take s.fill ++ [x] := fun mem hmem => by
    have hlen : (mem.take s.fill ++ [x]).length = s.fill + 1 := by
      rw [List.length_append, List.length_take_of_le (by omega)]
      rfl
    rw [overwrite, List.take_left' hlen]
  obtain ⟨hleft, hlt, -⟩ := length_put compress h.left hroom x
  obtain ⟨hright, -, -⟩ := length_put compress h.right (h.fill ▸ hroom) x
  rw [BlockBuffer.put, BlockBuffer.put, ← h.fill, ← h.chain] at *
  by_cases hfull : s.fill + 1 = size
  · -- the blocks are full, and then they are equal
    have heq : overwrite s.block s.fill [x] = overwrite t.block s.fill [x] := by
      rw [overwrite_end (by rw [h.left]; exact hfull), overwrite_end (by rw [h.right]; exact hfull),
        h.block]
    rw [if_pos hfull] at *
    rw [if_pos hfull]
    exact ⟨by rw [heq], rfl, hlt, hleft, hright, rfl⟩
  · rw [if_neg hfull] at *
    rw [if_neg hfull]
    exact ⟨rfl, rfl, hlt, hleft, hright, by rw [htake _ h.left, htake _ h.right, h.block]⟩

theorem Alike.foldl (compress : σ → List α → σ) (h : Alike size s t) (xs : List α) :
    Alike size (xs.foldl (BlockBuffer.put compress size) s)
      (xs.foldl (BlockBuffer.put compress size) t) := by
  induction xs generalizing s t with
  | nil => exact h
  | cons x xs ih => exact ih (h.put compress x)

end Alike

end Doorhinges.Lib.BlockBuffer

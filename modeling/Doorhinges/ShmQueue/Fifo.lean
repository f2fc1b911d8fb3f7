import Doorhinges.ShmQueue.Layout
import Doorhinges.Lib.Fifo
import Doorhinges.Lib.Machine

/-!
# When the queue in shared memory is a FIFO

One process calls `push` and `pop` without blocking. The queue is a FIFO for as long as no push
moves the head back over waiting messages and no pop passes a message over.
-/
namespace Doorhinges.ShmQueue

open Lib.Fifo
open Lib.Handled
open Lib.Machine
open Lib.Program

section Calls

variable {shmLen : Int} {a : Area} {q : List Message}

/-- The oldest message is taken out of the layout. -/
theorem Layout.pop (h : Layout shmLen a q) (hskip : ¬ Skips a (q.map Message.block))
    (locked : Bool) (n : Nat) :
    ∃ b, exec access (pop shmLen locked false (n + 2)) a =
      some ((q.map Message.block).head?, b) ∧ Layout shmLen b q.tail := by
  have hready := h.ready hskip
  rw [exec_pop locked _ (exec_popWait n)]
  generalize alignedTail shmLen a = t at hready
  cases hready with
  | none hempty hrest =>
    rw [if_pos hempty, if_neg (by decide)]
    exact ⟨t, rfl, hrest⟩
  | some mb q hmb hne hhead hend hrest =>
    rw [if_neg hne, if_pos rfl, exec_takeTail hmb hhead hend]
    exact ⟨_, rfl, hrest⟩

/-- The message is put into the layout, or the layout stays. -/
theorem Layout.push (h : Layout shmLen a q) {mb : Message}
    (hover : ¬ Overruns shmLen mb.length a) (locked : Bool) (n : Nat) :
    ∃ done b, exec access (push shmLen locked false (n + 2) mb.block) a = some (done, b) ∧
      Layout shmLen b (if done then q ++ [mb] else q) := by
  obtain ⟨r, b, hb, hlay, hroom⟩ := h.alignedHead hover
  have hagain : r ≠ -1 → tooLittle mb.length b = false →
      ShmQueue.alignedHead shmLen mb.length b = (0, b) :=
    fun hne hlittle => alignedHead_of_room mb.length_ge (hroom hne hlittle)
  rw [exec_push locked _ mb.accepted (exec_pushWait (n + 1) mb.block.head hb hagain)]
  by_cases hfail : r = -1 ∨ tooLittle mb.block.head.length b = true
  · rw [if_pos hfail, if_neg (by decide)]
    exact ⟨false, b, rfl, hlay⟩
  · rw [if_neg hfail, if_pos rfl]
    obtain ⟨hne, hlittle⟩ := not_or.1 hfail
    have hfalse := Bool.eq_false_of_not_eq_true hlittle
    exact ⟨true, _, rfl, hlay.filled hfalse (hroom hne hfalse)⟩

end Calls

/-- A call that does not block, with or without the semaphore. -/
inductive QueueOp where
  | push (mb : Message) (locked : Bool)
  | pop (locked : Bool)

/-- The queue and what its caller has seen so far. -/
structure QueueRun where
  area : Area
  events : List (Event ShmBlock)

/-- The calls are defined where they end; `exit` is no end. -/
def opStep (shmLen : Int) (rounds : Nat) (s : QueueRun) : QueueOp → Option QueueRun
  | .push mb locked =>
    (exec access (push shmLen locked false rounds mb.block) s.area).map fun r =>
      ⟨r.2, s.events ++ [if r.1 then .push mb.block else .refuse mb.block]⟩
  | .pop locked =>
    (exec access (pop shmLen locked false rounds) s.area).map fun r =>
      ⟨r.2, s.events ++ [.pop r.1]⟩

/-- What `create` leaves; the mapping is filled with zeros. -/
def created : QueueRun := ⟨⟨QUEUE_HEADER, QUEUE_HEADER, fun _ => 0⟩, []⟩

/-- The messages that have been pushed and not popped. -/
def unpopped (s : QueueRun) : List ShmBlock := (pushed s.events).drop (popped s.events).length

/-- The push does not move the head back over waiting messages, and the pop does not pass the
oldest message over. -/
def Spares (shmLen : Int) (s : QueueRun) : QueueOp → Prop
  | .push mb _ => ¬ Overruns shmLen mb.length s.area
  | .pop _ => ¬ Skips s.area (unpopped s)

instance (shmLen : Int) (s : QueueRun) : ∀ op, Decidable (Spares shmLen s op)
  | .push _ _ => inferInstanceAs (Decidable (¬ _))
  | .pop _ => inferInstanceAs (Decidable (¬ _))

/-- What the callers have seen is what a FIFO allows. -/
def IsFifo (s : QueueRun) : Prop := ∃ queue, Word s.events queue

def LaidOut (shmLen : Int) (s : QueueRun) : Prop :=
  ∃ q : List Message, Layout shmLen s.area q ∧ Word s.events (q.map Message.block)

theorem unpopped_eq {s : QueueRun} {q : List ShmBlock} (h : Word s.events q) : unpopped s = q := by
  rw [unpopped, ← h.conserves, List.drop_left]

theorem created_laidOut {shmLen : Int} (h : QUEUE_HEADER < shmLen) : LaidOut shmLen created :=
  ⟨[], .flat (.inl rfl) rfl h.le, .nil⟩

/-- A call that spares the messages comes to its end and keeps the invariant. -/
theorem opStep_laidOut {shmLen : Int} (n : Nat) {s : QueueRun} {op : QueueOp}
    (hi : LaidOut shmLen s) (hg : Spares shmLen s op) :
    ∃ t, opStep shmLen (n + 2) s op = some t ∧ LaidOut shmLen t := by
  obtain ⟨q, hlay, hword⟩ := hi
  cases op with
  | push mb locked =>
    obtain ⟨done, b, hb, hlay'⟩ := hlay.push hg locked n
    refine ⟨_, by rw [opStep, hb]; rfl, _, hlay', ?_⟩
    cases done with
    | true =>
      rw [if_pos rfl, List.map_append]
      exact hword.snoc (.push _ mb.block)
    | false => exact hword.snoc (.refuse _ mb.block)
  | pop locked =>
    have hskip : ¬ Skips s.area (q.map Message.block) := by
      rw [← unpopped_eq hword]
      exact hg
    obtain ⟨b, hb, hlay'⟩ := hlay.pop hskip locked n
    refine ⟨_, by rw [opStep, hb]; rfl, _, hlay', ?_⟩
    rw [List.map_tail]
    exact hword.snoc (.pop _)

/-- In a run whose calls spare the messages every call comes to its end, and what the callers see
is what a FIFO allows. -/
theorem queue_fifo {shmLen : Int} (hlen : QUEUE_HEADER < shmLen) (n : Nat) (ops : List QueueOp)
    (h : Throughout (opStep shmLen (n + 2)) (Spares shmLen) created ops) :
    Always (opStep shmLen (n + 2)) IsFifo created ops := by
  have hfifo : ∀ s, LaidOut shmLen s → IsFifo s := fun s ⟨q, _, hword⟩ => ⟨_, hword⟩
  have hstep : ∀ s op, LaidOut shmLen s → Spares shmLen s op →
      ∃ t, opStep shmLen (n + 2) s op = some t ∧ LaidOut shmLen t :=
    fun s op hi hg => opStep_laidOut n hi hg
  exact always_of_throughout hfifo hstep (created_laidOut hlen) h

section Samples

/-- Messages of 13, 12 and 14 bytes. -/
def letter : Message := ⟨⟨⟨13, 1, 0⟩, [65]⟩, rfl, by decide, rfl⟩

def note : Message := ⟨⟨⟨12, 2, 0⟩, []⟩, rfl, by decide, rfl⟩

def parcel : Message := ⟨⟨⟨14, 3, 0⟩, [66, 67]⟩, rfl, by decide, rfl⟩

/-- The third message begins anew in front of the second one; the fourth has no room. -/
def roundTrip : List QueueOp :=
  [.push letter true, .push note true, .pop true, .push note false, .push note false, .pop true,
    .pop false, .pop true]

theorem queue_fifo_roundTrip : Always (opStep 33 2) IsFifo created roundTrip :=
  queue_fifo (by decide) 0 roundTrip (by decide +kernel)

/-- The fourth push writes its pad over the head of the second message, where the last pop
finds no message that `check_mb` accepts. -/
def overrun : List QueueOp :=
  [.push letter true, .push note true, .pop true, .push note true, .push parcel true, .pop true]

theorem not_fifo : ¬ ∀ shmLen : Int, QUEUE_HEADER < shmLen → ∀ (n : Nat) (ops : List QueueOp),
    Always (opStep shmLen (n + 2)) IsFifo created ops := by
  intro h
  obtain ⟨t, ht, -⟩ := (h 33 (by decide) 0 overrun).at_end
  have hend : (run (opStep 33 2) created overrun).isNone = true := by decide +kernel
  rw [ht] at hend
  cases hend

/-- A message of the type of a pad, behind the tail, is never popped. -/
example : (run (opStep 33 2) created [.push letter true,
    .push ⟨⟨⟨12, 2, PAD_REQUEST⟩, []⟩, rfl, by decide, rfl⟩ true, .pop true, .push note true,
    .pop true, .pop true]).map (fun s => (popped s.events, (pushed s.events).length)) =
      some ([letter.block, note.block], 3) := by
  decide +kernel

end Samples

end Doorhinges.ShmQueue

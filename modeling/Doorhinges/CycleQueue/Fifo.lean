import Doorhinges.CycleQueue.Steps
import Doorhinges.Lib.Fifo
import Doorhinges.Lib.Machine

/-!
# When the cycle queue is a FIFO

The queue and the events its callers have seen so far form a machine whose
steps are the calls, with every allocation succeeding. The queue is a FIFO for as long as
no push shrinks onto the head, and no longer.
-/
namespace Doorhinges.CycleQueue

open Lib.Blocks (Heap)
open Lib.Fifo
open Lib.Links
open Lib.Machine

variable {α : Type}

/-- A call made by a user of the queue. -/
inductive Op (α : Type) where
  | push (a : α)
  | pop
  | head

structure Sys (α : Type) where
  cq : EgCycleQueue α
  events : List (Event α)

/-- Every value handed to a push counts as pushed. -/
def step (s : Sys α) : Op α → Option (Sys α)
  | .push a => (egCqPush .ok s.cq a).map fun r => ⟨r.2, s.events ++ [.push a]⟩
  | .pop => (egCqPop s.cq).map fun r => ⟨r.2, s.events ++ [.pop r.1]⟩
  | .head => (egCqHead s.cq).map fun r => ⟨s.cq, s.events ++ [.peek r]⟩

def start (size valSize : Nat) : Option (Sys α) :=
  (egCqCreate .ok size valSize).join.map fun cq => ⟨cq, []⟩

/-- What the callers rely on, at one point of a run. -/
structure Correct (s : Sys α) : Prop where
  in_order : popped s.events <+: pushed s.events
  empty_iff : egCqEmpty s.cq = true ↔ popped s.events = pushed s.events
  null_iff : (∃ cq, egCqPop s.cq = some (none, cq)) ↔ popped s.events = pushed s.events
  head_eq : ∃ r cq, egCqHead s.cq = some r ∧ egCqPop s.cq = some (r, cq)

/-- The call is not a push that shrinks onto the head. -/
def Spares (s : Sys α) : Op α → Prop
  | .push _ => shrinksOntoHead s.cq = false
  | _ => True

def Inv (s : Sys α) : Prop := ∃ queue, Represents s.cq queue ∧ Word s.events queue

theorem Represents.correct {cq : EgCycleQueue α} {queue : List α} (h : Represents cq queue)
    {events : List (Event α)} (hw : Word events queue) : Correct ⟨cq, events⟩ := by
  obtain ⟨seg, tail, free, h⟩ := h
  refine ⟨hw.popped_prefix, by rw [h.empty_iff, hw.popped_eq_iff], ?_, ?_⟩
  · rw [hw.popped_eq_iff]
    cases queue with
    | nil => simp [egCqPop, h.empty_iff]
    | cons a queue =>
      obtain ⟨_, _, _, hp, -⟩ := h.pop_layout
      simp [hp]
  · rw [h.head_eq_pop]
    cases queue with
    | nil => exact ⟨_, cq, rfl, by simp [egCqPop, h.empty_iff]⟩
    | cons a queue =>
      obtain ⟨cq', _, _, hp, -⟩ := h.pop_layout
      exact ⟨_, cq', rfl, hp⟩

/-- A call that spares the head is defined and keeps the invariant. -/
theorem step_inv (s : Sys α) (op : Op α) (hi : Inv s) (hg : Spares s op) :
    ∃ t, step s op = some t ∧ Inv t := by
  obtain ⟨queue, ⟨seg, tail, free, h⟩, hw⟩ := hi
  cases op with
  | push a =>
    obtain ⟨cq, hp, hok, -⟩ := h.push_layout a
    exact ⟨_, by simp [step, hp]; rfl, _, hok hg, hw.snoc (.push queue a)⟩
  | pop =>
    cases queue with
    | nil =>
      refine ⟨⟨s.cq, s.events ++ [.pop none]⟩, ?_, [], ⟨seg, tail, free, h⟩, hw.snoc (.pop [])⟩
      simp [step, egCqPop, h.empty_iff]
    | cons a queue =>
      obtain ⟨cq, seg', free', hp, h'⟩ := h.pop_layout
      exact ⟨_, by simp [step, hp]; rfl, _, ⟨_, _, _, h'⟩, hw.snoc (.pop (a :: queue))⟩
  | head =>
    refine ⟨⟨s.cq, s.events ++ [.peek queue.head?]⟩, ?_, _, ⟨_, _, _, h⟩, hw.snoc (.peek queue)⟩
    simp [step, h.head_eq_pop]

/-- A push that shrinks onto the head leaves an empty-looking queue behind. -/
theorem step_bad (s : Sys α) (op : Op α) (hi : Inv s) (hg : ¬ Spares s op) (t : Sys α)
    (ht : step s op = some t) : ¬ Correct t := by
  obtain ⟨queue, ⟨seg, tail, free, h⟩, hw⟩ := hi
  cases op with
  | pop => exact absurd trivial hg
  | head => exact absurd trivial hg
  | push a =>
    obtain ⟨cq, hp, -, hbad⟩ := h.push_layout a
    simp only [step, hp, Option.map_some, Option.some.injEq] at ht
    subst ht
    intro hc
    have heq := hc.empty_iff.mp (hbad (by simpa [Spares] using hg)).1
    rw [(hw.snoc (.push queue a)).popped_eq_iff] at heq
    simp at heq

/-- From a queue of any size, the calls of a run meet the FIFO contract at every
point exactly when no push of the run shrinks onto the head. -/
theorem fifo_iff_spares (size valSize : Nat) (hs : 1 ≤ size) :
    ∃ s : Sys α, start size valSize = some s ∧
      ∀ ops, Always step Correct s ops ↔ Throughout step Spares s ops := by
  obtain ⟨cq, hc, hr⟩ := create_represents (α := α) hs valSize
  refine ⟨⟨cq, []⟩, by simp [start, hc], fun ops => ?_⟩
  exact always_iff_throughout (fun s ⟨_, h, hw⟩ => h.correct hw) step_inv step_bad ⟨[], hr, .nil⟩

theorem fifo_iff_spares_one : ∃ s : Sys Nat, start 1 0 = some s ∧
    ∀ ops, Always step Correct s ops ↔ Throughout step Spares s ops :=
  fifo_iff_spares 1 0 (by decide)

/-- The fifth call of this run, a push, unlinks the drained second bucket. -/
def lossyRun : List (Op Nat) := [.push 1, .pop, .push 2, .pop, .push 3]

theorem lossyRun_end : ((start 1 0).bind fun s => run step s lossyRun).map
    (fun s => (egCqEmpty s.cq, popped s.events, pushed s.events)) =
      some (true, [1, 2], [1, 2, 3]) := by
  decide

theorem not_always_fifo : ¬ ∀ size valSize : Nat, 1 ≤ size → ∃ s : Sys Nat,
    start size valSize = some s ∧ ∀ ops, Always step Correct s ops := by
  intro h
  obtain ⟨s, hs, ha⟩ := h 1 0 (by decide)
  obtain ⟨t, ht, hc⟩ := (ha lossyRun).at_end
  have hend := lossyRun_end
  simp only [hs, Option.bind_some, ht, Option.map_some, Option.some.injEq, Prod.mk.injEq] at hend
  have heq := hc.empty_iff.mp hend.1
  rw [hend.2.1, hend.2.2] at heq
  simp at heq

end Doorhinges.CycleQueue

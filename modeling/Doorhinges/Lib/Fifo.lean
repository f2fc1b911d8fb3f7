import Mathlib.Data.List.Basic

/-!
# First-in first-out queues

The observable events of a queue and the words of events an unbounded FIFO
allows. Conservation (what was pushed is what was popped followed by what is
still waiting) is proved once here, for every word.
-/
namespace Doorhinges.Lib.Fifo

variable {α : Type*}

/-- What a caller sees: an accepted or refused value, a removal, a look at the front. -/
inductive Event (α : Type*) where
  | push (a : α)
  | refuse (a : α)
  | pop (r : Option α)
  | peek (r : Option α)
  deriving DecidableEq

/-- The abstract queue allows the event and continues with the second list. -/
inductive Step : List α → Event α → List α → Prop
  | push (q : List α) (a : α) : Step q (.push a) (q ++ [a])
  | refuse (q : List α) (a : α) : Step q (.refuse a) q
  | pop (q : List α) : Step q (.pop q.head?) q.tail
  | peek (q : List α) : Step q (.peek q.head?) q

/-- A word of events, oldest first, that an empty queue allows. -/
inductive Word : List (Event α) → List α → Prop
  | nil : Word [] []
  | snoc {es : List (Event α)} {q r : List α} {e : Event α} :
      Word es q → Step q e r → Word (es ++ [e]) r

def pushed : List (Event α) → List α
  | [] => []
  | .push a :: es => a :: pushed es
  | _ :: es => pushed es

/-- The values removed; a removal that finds nothing contributes none. -/
def popped : List (Event α) → List α
  | [] => []
  | .pop (some a) :: es => a :: popped es
  | _ :: es => popped es

theorem pushed_append (es fs : List (Event α)) : pushed (es ++ fs) = pushed es ++ pushed fs := by
  induction es with
  | nil => rfl
  | cons e es ih => cases e <;> simp [pushed, ih]

theorem popped_append (es fs : List (Event α)) : popped (es ++ fs) = popped es ++ popped fs := by
  induction es with
  | nil => rfl
  | cons e es ih =>
    cases e with
    | pop r => cases r <;> simp [popped, ih]
    | push a => simp [popped, ih]
    | refuse a => simp [popped, ih]
    | peek r => simp [popped, ih]

/-- Nothing is lost, repeated or reordered. -/
theorem Word.conserves {es : List (Event α)} {q : List α} (h : Word es q) :
    popped es ++ q = pushed es := by
  induction h with
  | nil => rfl
  | snoc _ hs ih =>
    rw [pushed_append, popped_append, ← ih]
    cases hs with
    | push a => simp [pushed, popped]
    | refuse a => simp [pushed, popped]
    | pop => rename_i q _; cases q <;> simp [pushed, popped]
    | peek => simp [pushed, popped]

theorem Word.popped_prefix {es : List (Event α)} {q : List α} (h : Word es q) :
    popped es <+: pushed es :=
  ⟨q, h.conserves⟩

theorem Word.popped_eq_iff {es : List (Event α)} {q : List α} (h : Word es q) :
    popped es = pushed es ↔ q = [] := by
  rw [← h.conserves]
  simp

end Doorhinges.Lib.Fifo

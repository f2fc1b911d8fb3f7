import Doorhinges.Lib.Program

/-!
# Pipelined commands

Commands are appended to a connection and their replies are read later, in the order of the
commands. A reply is read into a variable, and each command is meant for one variable.
-/
namespace Doorhinges.Lib.Pipeline

open Lib.Program

variable {Q X R E α : Type}

inductive Op (Q X : Type) where
  | append (q : Q)
  | reply (x : X)

abbrev Pipe (Q X R E : Type) := Prog (Op Q X) R E

def append (q : Q) : Pipe Q X R E Unit := send (.append q)

def reply (x : X) : Pipe Q X R E R := call (.reply x)

def appends : List Q → Pipe Q X R E Unit
  | [] => pure ()
  | q :: qs => do
    append q
    appends qs

/-- The variables with their replies, one after the other. -/
def replies : List X → Pipe Q X R E (List (X × R))
  | [] => pure []
  | x :: xs => do
    let r ← reply x
    let rs ← replies xs
    pure ((x, r) :: rs)

/-- A burst of commands and then their replies. -/
def exchange (qs : List Q) (xs : List X) : Pipe Q X R E (List (X × R)) := do
  appends qs
  replies xs

/-- A command whose reply is read at once. -/
def ask (var : Q → X) (q : Q) : Pipe Q X R E R := do
  append q
  reply (var q)

/-- The commands whose replies have not been read, and how many there were of both. -/
structure Traffic (Q : Type) where
  outstanding : List Q
  appended : Nat
  read : Nat

def Traffic.push (t : Traffic Q) (qs : List Q) : Traffic Q :=
  { t with outstanding := t.outstanding ++ qs, appended := t.appended + qs.length }

/-- As many replies have been read as commands appended, and none is left. -/
def Traffic.Level (t : Traffic Q) : Prop := t.outstanding = [] ∧ t.appended = t.read

def Traffic.none : Traffic Q := ⟨[], 0, 0⟩

theorem Traffic.level_none : (Traffic.none : Traffic Q).Level := ⟨rfl, rfl⟩

/-- A reply is only read for the oldest command that waits for one, into its own variable. -/
def inStep (var : Q → X) (fine : E → Prop) : Discipline (Op Q X) R E (Traffic Q) where
  mayCall t o :=
    match o with
    | .append _ => False
    | .reply x => t.outstanding.head?.map var = some x
  called t o _ :=
    match o with
    | .append _ => t
    | .reply _ => { t with outstanding := t.outstanding.tail, read := t.read + 1 }
  maySend _ o :=
    match o with
    | .append _ => True
    | .reply _ => False
  sent t o :=
    match o with
    | .append q => t.push [q]
    | .reply _ => t
  mayMark _ e := fine e
  marked t _ := t

variable {var : Q → X} {fine : E → Prop} {t : Traffic Q}

/-- A program that goes from a level connection to a level connection. -/
def Aligned (var : Q → X) (fine : E → Prop) (p : Pipe Q X R E α) : Prop :=
  ∀ t : Traffic Q, t.Level → Keeps (inStep var fine) p t fun _ s => s.Level

theorem aligned_pure (a : α) : Aligned var fine (pure a : Pipe Q X R E α) := fun _ h => h

theorem aligned_bind {β : Type} {p : Pipe Q X R E α} {f : α → Pipe Q X R E β}
    (hp : Aligned var fine p) (hf : ∀ a, Aligned var fine (f a)) :
    Aligned var fine (p >>= f) := by
  intro t ht
  rw [keeps_bind]
  exact keeps_mono (hp t ht) fun a s hs => hf a s hs

theorem aligned_deref (o : Option α) : Aligned var fine (deref o : Pipe Q X R E α) := by
  cases o with
  | none => exact fun _ _ => trivial
  | some a => exact aligned_pure a

theorem keeps_append (q : Q) (S : Unit → Traffic Q → Prop) :
    Keeps (inStep var fine) (append q : Pipe Q X R E Unit) t S ↔ S () (t.push [q]) := by
  rw [append, keeps_send]
  exact iff_of_eq (true_and _)

theorem keeps_appends (qs : List Q) (S : Unit → Traffic Q → Prop) :
    Keeps (inStep var fine) (appends qs : Pipe Q X R E Unit) t S ↔ S () (t.push qs) := by
  induction qs generalizing t with
  | nil =>
    have hpush : t.push [] = t := by rw [Traffic.push, List.append_nil]; rfl
    rw [appends, keeps_pure, hpush]
  | cons q qs ih =>
    have hpush : (t.push [q]).push qs = t.push (q :: qs) := by
      simp only [Traffic.push, List.append_assoc, List.singleton_append, List.length_cons,
        List.length_nil, Traffic.mk.injEq, true_and, and_true]
      omega
    rw [appends, keeps_bind, keeps_append, ih, hpush]

/-- The variables are those of the commands that wait longest. -/
theorem keeps_replies {qs rest : List Q} {xs : List X} (hxs : xs = qs.map var)
    (ht : t.outstanding = qs ++ rest) {S : List (X × R) → Traffic Q → Prop}
    (hS : ∀ rs, S rs { t with outstanding := rest, read := t.read + qs.length }) :
    Keeps (inStep var fine) (replies xs : Pipe Q X R E (List (X × R))) t S := by
  subst hxs
  induction qs generalizing t S with
  | nil =>
    obtain ⟨outstanding, appended, read⟩ := t
    obtain rfl : outstanding = rest := ht
    exact hS []
  | cons q qs ih =>
    rw [List.map_cons, replies, keeps_bind, reply, keeps_call]
    have hhead : t.outstanding.head?.map var = some (var q) := by rw [ht]; rfl
    have htail : t.outstanding.tail = qs ++ rest := by rw [ht]; rfl
    refine ⟨hhead, fun r => ?_⟩
    rw [keeps_bind]
    refine ih htail fun rs => ?_
    have hcount : t.read + 1 + qs.length = t.read + (q :: qs).length := by
      rw [List.length_cons]
      omega
    rw [keeps_pure]
    show S _ ⟨rest, t.appended, t.read + 1 + qs.length⟩
    rw [hcount]
    exact hS _

/-- A burst is read back in full if its variables are those of its commands. -/
theorem aligned_exchange {qs : List Q} {xs : List X} (hxs : xs = qs.map var) :
    Aligned var fine (exchange qs xs : Pipe Q X R E (List (X × R))) := by
  rintro t ⟨hnone, hcount⟩
  rw [exchange, keeps_bind, keeps_appends]
  have hall : (t.push qs).outstanding = qs ++ [] := by
    rw [Traffic.push, hnone, List.nil_append, List.append_nil]
  refine keeps_replies hxs hall fun rs => ⟨rfl, ?_⟩
  show t.appended + qs.length = t.read + qs.length
  rw [hcount]

theorem aligned_ask (q : Q) : Aligned var fine (ask var q : Pipe Q X R E R) := by
  rintro t ⟨hnone, hcount⟩
  rw [ask, keeps_bind, keeps_append, reply, keeps_call]
  refine ⟨?_, fun r => ⟨?_, ?_⟩⟩
  · show (t.outstanding ++ [q]).head?.map var = _
    rw [hnone]
    rfl
  · show (t.outstanding ++ [q]).tail = []
    rw [hnone]
    rfl
  · show t.appended + 1 = t.read + 1
    rw [hcount]

end Doorhinges.Lib.Pipeline

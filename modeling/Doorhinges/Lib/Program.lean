/-!
# Programs that talk to a server

A program is the tree of what it does next: a command whose reply it waits for,
a command it sends and forgets, or a mark that only the observer sees. A
`Discipline` says which actions are allowed after what the program has done so
far; `Keeps` is the weakest precondition for keeping it.
-/
namespace Doorhinges.Lib.Program

inductive Prog (C R E : Type) (α : Type) where
  | ret (a : α)
  | crash
  | call (c : C) (k : R → Prog C R E α)
  | send (c : C) (k : Prog C R E α)
  | mark (e : E) (k : Prog C R E α)

variable {C R E α β V : Type}

namespace Prog

def bind : Prog C R E α → (α → Prog C R E β) → Prog C R E β
  | .ret a, f => f a
  | .crash, _ => .crash
  | .call c k, f => .call c fun r => (k r).bind f
  | .send c k, f => .send c (k.bind f)
  | .mark e k, f => .mark e (k.bind f)

instance : Monad (Prog C R E) where
  pure := ret
  bind := bind

end Prog

def call (c : C) : Prog C R E R := .call c .ret

def send (c : C) : Prog C R E Unit := .send c (.ret ())

def mark (e : E) : Prog C R E Unit := .mark e (.ret ())

/-- The same program seen by another observer. -/
def Prog.relabel {F : Type} (g : E → F) : Prog C R E α → Prog C R F α
  | .ret a => .ret a
  | .crash => .crash
  | .call c k => .call c fun r => (k r).relabel g
  | .send c k => .send c (k.relabel g)
  | .mark e k => .mark (g e) (k.relabel g)

/-- A null pointer is dereferenced without a test. -/
def deref : Option α → Prog C R E α
  | none => .crash
  | some a => .ret a

/-- An `if` without an `else`. -/
def onlyIf (b : Prop) [Decidable b] (p : Prog C R E Unit) : Prog C R E Unit :=
  if b then p else .ret ()

/-- Which actions a program may take, given a digest of its own past. -/
structure Discipline (C R E V : Type) where
  mayCall : V → C → Prop
  called : V → C → R → V
  maySend : V → C → Prop
  sent : V → C → V
  mayMark : V → E → Prop
  marked : V → E → V

variable (D : Discipline C R E V)

/-- Whatever the replies, the program keeps the discipline and ends in `Q`. -/
def Keeps : Prog C R E α → V → (α → V → Prop) → Prop
  | .ret a, v, Q => Q a v
  | .crash, _, _ => True
  | .call c k, v, Q => D.mayCall v c ∧ ∀ r, Keeps (k r) (D.called v c r) Q
  | .send c k, v, Q => D.maySend v c ∧ Keeps k (D.sent v c) Q
  | .mark e k, v, Q => D.mayMark v e ∧ Keeps k (D.marked v e) Q

variable {D}

theorem keeps_mono {p : Prog C R E α} {v : V} {Q Q' : α → V → Prop} (h : Keeps D p v Q)
    (hQ : ∀ a v, Q a v → Q' a v) : Keeps D p v Q' := by
  induction p generalizing v with
  | ret a => exact hQ a v h
  | crash => trivial
  | call c k ih => exact ⟨h.1, fun r => ih r (h.2 r)⟩
  | send c k ih => exact ⟨h.1, ih h.2⟩
  | mark e k ih => exact ⟨h.1, ih h.2⟩

@[simp] theorem keeps_bind (p : Prog C R E α) (f : α → Prog C R E β) (v : V)
    (Q : β → V → Prop) :
    Keeps D (p >>= f) v Q ↔ Keeps D p v fun a w => Keeps D (f a) w Q := by
  show Keeps D (p.bind f) v Q ↔ _
  induction p generalizing v with
  | ret a => rfl
  | crash => rfl
  | call c k ih => exact and_congr_right fun _ => forall_congr' fun r => ih r _
  | send c k ih => exact and_congr_right fun _ => ih _
  | mark e k ih => exact and_congr_right fun _ => ih _

theorem keeps_bind_of {p : Prog C R E α} {f : α → Prog C R E β} {v : V} {Q : β → V → Prop}
    (hp : Keeps D p v fun _ _ => True) (hf : ∀ a w, Keeps D (f a) w Q) :
    Keeps D (p >>= f) v Q := by
  rw [keeps_bind]
  exact keeps_mono hp fun a w _ => hf a w

@[simp] theorem keeps_pure (a : α) (v : V) (Q : α → V → Prop) :
    Keeps D (pure a : Prog C R E α) v Q ↔ Q a v := Iff.rfl

@[simp] theorem keeps_call (c : C) (v : V) (Q : R → V → Prop) :
    Keeps D (call c : Prog C R E R) v Q ↔ D.mayCall v c ∧ ∀ r, Q r (D.called v c r) := Iff.rfl

@[simp] theorem keeps_send (c : C) (v : V) (Q : Unit → V → Prop) :
    Keeps D (send c : Prog C R E Unit) v Q ↔ D.maySend v c ∧ Q () (D.sent v c) := Iff.rfl

@[simp] theorem keeps_mark (e : E) (v : V) (Q : Unit → V → Prop) :
    Keeps D (mark e : Prog C R E Unit) v Q ↔ D.mayMark v e ∧ Q () (D.marked v e) := Iff.rfl

@[simp] theorem keeps_deref (o : Option α) (v : V) (Q : α → V → Prop) :
    Keeps D (deref o : Prog C R E α) v Q ↔ ∀ a, o = some a → Q a v := by
  cases o <;> simp [deref, Keeps]

@[simp] theorem keeps_ite (b : Prop) [Decidable b] (p q : Prog C R E α) (v : V)
    (Q : α → V → Prop) :
    Keeps D (if b then p else q) v Q ↔ (b → Keeps D p v Q) ∧ (¬b → Keeps D q v Q) := by
  split <;> simp_all

@[simp] theorem keeps_onlyIf (b : Prop) [Decidable b] (p : Prog C R E Unit) (v : V)
    (Q : Unit → V → Prop) :
    Keeps D (onlyIf b p) v Q ↔ (b → Keeps D p v Q) ∧ (¬b → Q () v) :=
  keeps_ite b p (.ret ()) v Q

/-- The discipline a relabelled program is under. -/
def Discipline.along {F : Type} (D : Discipline C R F V) (g : E → F) : Discipline C R E V where
  mayCall := D.mayCall
  called := D.called
  maySend := D.maySend
  sent := D.sent
  mayMark v e := D.mayMark v (g e)
  marked v e := D.marked v (g e)

theorem keeps_relabel {F : Type} {D : Discipline C R F V} (g : E → F) (p : Prog C R E α) (v : V)
    (Q : α → V → Prop) : Keeps D (p.relabel g) v Q ↔ Keeps (D.along g) p v Q := by
  induction p generalizing v with
  | ret a => rfl
  | crash => rfl
  | call c k ih => exact and_congr_right fun _ => forall_congr' fun r => ih r _
  | send c k ih => exact and_congr_right fun _ => ih _
  | mark e k ih => exact and_congr_right fun _ => ih _

/-- Only commands and marks of one kind. -/
def only (P : C → Prop) (M : E → Prop) : Discipline C R E Unit where
  mayCall _ c := P c
  called _ _ _ := ()
  maySend _ c := P c
  sent _ _ := ()
  mayMark _ e := M e
  marked _ _ := ()

/-- A program of actions that are allowed here and leave the digest alone. -/
theorem keeps_of_only {P : C → Prop} {M : E → Prop} {p : Prog C R E α} {v : V}
    {Q : α → V → Prop} (h : Keeps (only P M) p () fun _ _ => True)
    (hcall : ∀ c, P c → D.mayCall v c ∧ ∀ r, D.called v c r = v)
    (hsend : ∀ c, P c → D.maySend v c ∧ D.sent v c = v)
    (hmark : ∀ e, M e → D.mayMark v e ∧ D.marked v e = v) (hQ : ∀ a, Q a v) :
    Keeps D p v Q := by
  induction p with
  | ret a => exact hQ a
  | crash => trivial
  | call c k ih =>
    obtain ⟨hmay, hsame⟩ := hcall c h.1
    refine ⟨hmay, fun r => ?_⟩
    rw [hsame r]
    exact ih r (h.2 r)
  | send c k ih =>
    obtain ⟨hmay, hsame⟩ := hsend c h.1
    refine ⟨hmay, ?_⟩
    rw [hsame]
    exact ih h.2
  | mark e k ih =>
    obtain ⟨hmay, hsame⟩ := hmark e h.1
    refine ⟨hmay, ?_⟩
    rw [hsame]
    exact ih h.2

end Doorhinges.Lib.Program

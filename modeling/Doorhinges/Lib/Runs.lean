import Doorhinges.Lib.Pipeline

/-!
# Runs of a program

An oracle answers a command by what has been issued so far, the newest first. The trace of a
run is what an observer sees of it.
-/
namespace Doorhinges.Lib.Runs

open Lib.Program

variable {C D R E α β : Type}

/-- The same program with its commands among those of another. -/
def through (f : C → D) : Prog C R E α → Prog D R E α
  | .ret a => .ret a
  | .crash => .crash
  | .call c k => .call (f c) fun r => through f (k r)
  | .send c k => .send (f c) (through f k)
  | .mark e k => .mark e (through f k)

variable (o : List C → R)

/-- The commands that are issued and the marks. -/
def trace : List C → Prog C R E α → List (C ⊕ E)
  | _, .ret _ => []
  | _, .crash => []
  | h, .call c k => .inl c :: trace (c :: h) (k (o (c :: h)))
  | h, .send c k => .inl c :: trace (c :: h) k
  | h, .mark e k => .inr e :: trace h k

/-- The value at the end, and what has been issued by then. -/
def finish : List C → Prog C R E α → Option (α × List C)
  | h, .ret a => some (a, h)
  | _, .crash => none
  | h, .call c k => finish (c :: h) (k (o (c :: h)))
  | h, .send c k => finish (c :: h) k
  | h, .mark _ k => finish h k

variable {o}

@[simp] theorem trace_pure (a : α) (h : List C) : trace o h (pure a : Prog C R E α) = [] := rfl

theorem trace_bind (p : Prog C R E α) (f : α → Prog C R E β) (h : List C) :
    trace o h (p >>= f) =
      trace o h p ++ ((finish o h p).map fun s => trace o s.2 (f s.1)).getD [] := by
  show trace o h (p.bind f) = _
  induction p generalizing h with
  | ret a => rfl
  | crash => rfl
  | call c k ih => exact congrArg (Sum.inl c :: ·) (ih _ _)
  | send c k ih => exact congrArg (Sum.inl c :: ·) (ih _)
  | mark e k ih => exact congrArg (Sum.inr e :: ·) (ih _)

theorem trace_bind_of {p : Prog C R E α} {f : α → Prog C R E β} {h h' : List C} {a : α}
    (hp : finish o h p = some (a, h')) :
    trace o h (p >>= f) = trace o h p ++ trace o h' (f a) := by
  rw [trace_bind, hp]
  rfl

theorem finish_bind (p : Prog C R E α) (f : α → Prog C R E β) (h : List C) :
    finish o h (p >>= f) = (finish o h p).bind fun s => finish o s.2 (f s.1) := by
  show finish o h (p.bind f) = _
  induction p generalizing h with
  | ret a => rfl
  | crash => rfl
  | call c k ih => exact ih _ _
  | send c k ih => exact ih _
  | mark e k ih => exact ih _

theorem finish_bind_of {p : Prog C R E α} {f : α → Prog C R E β} {h h' : List C} {a : α}
    (hp : finish o h p = some (a, h')) : finish o h (p >>= f) = finish o h' (f a) := by
  rw [finish_bind, hp]
  rfl

/-- Two programs that go on alike from where the first part ends run alike. -/
theorem trace_bind_congr {p : Prog C R E α} {f g : α → Prog C R E β} {h : List C}
    (hfg : ∀ a h', finish o h p = some (a, h') → trace o h' (f a) = trace o h' (g a)) :
    trace o h (p >>= f) = trace o h (p >>= g) := by
  rw [trace_bind, trace_bind]
  cases hrun : finish o h p with
  | none => rw [Option.map_none, Option.map_none]
  | some s => rw [Option.map_some, Option.map_some, hfg s.1 s.2 hrun]

/-- What a program guarantees of its value holds of the value it ends with. -/
theorem finish_keeps {V : Type} {D : Discipline C R E V} {p : Prog C R E α} {v : V}
    {Q : α → Prop} (hQ : Keeps D p v fun a _ => Q a) {h h' : List C} {a : α}
    (hp : finish o h p = some (a, h')) : Q a := by
  induction p generalizing v h with
  | ret b =>
    obtain ⟨rfl, -⟩ := Prod.mk.inj (Option.some.inj hp)
    exact hQ
  | crash => cases hp
  | call c k ih => exact ih _ (hQ.2 _) hp
  | send c k ih => exact ih hQ.2 hp
  | mark e k ih => exact ih hQ.2 hp

section Sent

variable (reply : C → R)

/-- What is sent and forgotten, where a server answers each command by itself. -/
def sentBy : Prog C R E α → List C
  | .ret _ => []
  | .crash => []
  | .call c k => sentBy (k (reply c))
  | .send c k => c :: sentBy k
  | .mark _ k => sentBy k

/-- The value at the end of such a run. -/
def valueBy : Prog C R E α → Option α
  | .ret a => some a
  | .crash => none
  | .call c k => valueBy (k (reply c))
  | .send _ k => valueBy k
  | .mark _ k => valueBy k

variable {reply}

theorem sentBy_bind (p : Prog C R E α) (f : α → Prog C R E β) :
    sentBy reply (p >>= f) =
      sentBy reply p ++ ((valueBy reply p).map fun a => sentBy reply (f a)).getD [] := by
  show sentBy reply (p.bind f) = _
  induction p with
  | ret a => rfl
  | crash => rfl
  | call c k ih => exact ih _
  | send c k ih => exact congrArg (c :: ·) ih
  | mark e k ih => exact ih

theorem sentBy_bind_of {p : Prog C R E α} {f : α → Prog C R E β} {a : α}
    (hp : valueBy reply p = some a) :
    sentBy reply (p >>= f) = sentBy reply p ++ sentBy reply (f a) := by
  rw [sentBy_bind, hp]
  rfl

end Sent

section Marks

variable {P : C → Prop} {M : E → Prop} {e : E}

/-- A run only shows the marks its program may make. -/
theorem mark_of_keeps {p : Prog C R E α} {Q : α → Unit → Prop} (hp : Keeps (only P M) p () Q)
    {h : List C} (he : .inr e ∈ trace o h p) : M e := by
  induction p generalizing h with
  | ret a => cases he
  | crash => cases he
  | call c k ih =>
    rcases List.mem_cons.1 he with heq | hmem
    · cases heq
    · exact ih _ (hp.2 _) hmem
  | send c k ih =>
    rcases List.mem_cons.1 he with heq | hmem
    · cases heq
    · exact ih hp.2 hmem
  | mark d k ih =>
    rcases List.mem_cons.1 he with heq | hmem
    · rw [Sum.inr.inj heq]
      exact hp.1
    · exact ih hp.2 hmem

end Marks

end Doorhinges.Lib.Runs

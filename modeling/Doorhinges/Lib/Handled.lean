import Doorhinges.Lib.Program

/-!
# Programs on a state of their own

A handler answers each command from a state and changes it. A program that nobody else talks to
runs on the state from its first command to its end.
-/
namespace Doorhinges.Lib.Handled

open Lib.Program

variable {σ C R E α β : Type} (serve : σ → C → R × σ)

/-- The value at the end and the state there; there is none where the program crashes. -/
def exec : Prog C R E α → σ → Option (α × σ)
  | .ret a, s => some (a, s)
  | .crash, _ => none
  | .call c k, s => exec (k (serve s c).1) (serve s c).2
  | .send c k, s => exec k (serve s c).2
  | .mark _ k, s => exec k s

variable {serve} {s : σ}

@[simp] theorem exec_pure (a : α) : exec serve (pure a : Prog C R E α) s = some (a, s) := rfl

@[simp] theorem exec_crash : exec serve (.crash : Prog C R E α) s = none := rfl

@[simp] theorem exec_call (c : C) : exec serve (call c : Prog C R E R) s = some (serve s c) := rfl

@[simp] theorem exec_mark (e : E) : exec serve (mark e : Prog C R E Unit) s = some ((), s) := rfl

@[simp] theorem exec_bind (p : Prog C R E α) (f : α → Prog C R E β) :
    exec serve (p >>= f) s = (exec serve p s).bind fun r => exec serve (f r.1) r.2 := by
  show exec serve (p.bind f) s = _
  induction p generalizing s with
  | ret a => rfl
  | crash => rfl
  | call c k ih => exact ih _
  | send c k ih => exact ih
  | mark e k ih => exact ih

/-- The rest of a program goes on from where its first part ends. -/
theorem exec_bind_of {p : Prog C R E α} {f : α → Prog C R E β} {a : α} {t : σ}
    (h : exec serve p s = some (a, t)) : exec serve (p >>= f) s = exec serve (f a) t := by
  rw [exec_bind, h, Option.bind_some]

@[simp] theorem exec_onlyIf (b : Prop) [Decidable b] (p : Prog C R E Unit) :
    exec serve (onlyIf b p) s = if b then exec serve p s else some ((), s) := by
  rw [onlyIf]
  split <;> rfl

end Doorhinges.Lib.Handled

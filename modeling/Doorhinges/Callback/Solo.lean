import Doorhinges.Callback.System

/-!
# One callback running while the others stand still

`Solo.plug` puts a running callback into a state; its own steps then are steps
of the whole system. The clock does not move meanwhile.
-/
namespace Doorhinges.Callback

open Lib.CString
open Lib.Redis (Cmd Reply Store Field)
open Lib.Program
open Lib.Machine

/-- The store, the callback, and what it has logged and sent since it took over. -/
structure Solo where
  store : Store RedisKey
  proc : Proc
  log : List Event := []
  outgoing : List Command := []

namespace Solo

variable (X : Externals) (addFloat : Option Field → Bytes → Bytes)

def step (clock : Nat) (a : Solo) : Option Solo :=
  match a.proc with
  | ⟨.ret _, _, _⟩ => none
  | ⟨.crash, _, _⟩ => none
  | ⟨.call c k, v, l⟩ =>
    let r := a.store.run addFloat clock c
    some
      { a with
        store := r.2
        proc := ⟨k (some r.1), v.called X c (some r.1), l.called c⟩
        log := a.log ++ [.ran c r.1] }
  | ⟨.send c k, v, l⟩ =>
    some { a with proc := ⟨k, v.sent c, l⟩, outgoing := a.outgoing ++ [c] }
  | ⟨.mark m k, v, l⟩ => some { a with proc := ⟨k, v.marked m, l⟩, log := a.log ++ [Event.mark m] }

def steps (clock : Nat) : Nat → Solo → Option Solo
  | 0, a => some a
  | n + 1, a => (a.step X addFloat clock).bind fun b => steps clock n b

/-- The system state in which callback `i` has got as far as `a`. -/
def plug (s : Sys) (i : Nat) (a : Solo) : Sys where
  clock := s.clock
  store := a.store
  procs j := if j = i then some a.proc else s.procs j
  outgoing := s.outgoing ++ a.outgoing
  log := s.log ++ a.log

variable {X addFloat}

theorem step_plug {s : Sys} {i : Nat} {a b : Solo} (h : a.step X addFloat s.clock = some b) :
    Callback.step X addFloat (plug s i a) (.exec i) = some (plug s i b) := by
  have hproc : (plug s i a).procs i = some a.proc := by simp [plug]
  obtain ⟨store, ⟨prog, v, l⟩, log, outgoing⟩ := a
  simp only [Callback.step, Sys.exec, hproc]
  cases prog with
  | ret _ => cases h
  | crash => cases h
  | call c k =>
    obtain rfl := Option.some.inj h
    simp only [Sys.setProc, Sys.serve, plug, List.append_assoc, Option.some.injEq, Sys.mk.injEq,
      true_and, and_true]
    funext j
    split <;> rfl
  | send c k =>
    obtain rfl := Option.some.inj h
    simp only [Sys.setProc, plug, List.append_assoc, Option.some.injEq, Sys.mk.injEq, true_and,
      and_true]
    funext j
    split <;> rfl
  | mark m k =>
    obtain rfl := Option.some.inj h
    simp only [Sys.setProc, plug, List.append_assoc, Option.some.injEq, Sys.mk.injEq, true_and,
      and_true]
    funext j
    split <;> rfl

theorem run_plug {s : Sys} {i : Nat} {n : Nat} {a b : Solo}
    (h : a.steps X addFloat s.clock n = some b) :
    run (Callback.step X addFloat) (plug s i a) (List.replicate n (.exec i)) =
      some (plug s i b) := by
  induction n generalizing a with
  | zero =>
    obtain rfl := Option.some.inj h
    rfl
  | succ n ih =>
    obtain ⟨c, hc, hb⟩ := Option.bind_eq_some_iff.mp h
    rw [List.replicate_succ, run, step_plug hc]
    exact ih hb

/-- A new callback and its first `n` actions. -/
theorem run_spawn {s : Sys} {i : Nat} {n : Nat} {q : Request} {b : Solo} (hi : s.procs i = none)
    (h : Solo.steps X addFloat s.clock n { store := s.store, proc := ⟨aisCallback X q, {}, {}⟩ } =
      some b) :
    run (Callback.step X addFloat) s (.spawn i q :: List.replicate n (.exec i)) =
      some (plug s i b) := by
  have hspawn : Callback.step X addFloat s (.spawn i q) =
      some (plug s i { store := s.store, proc := ⟨aisCallback X q, {}, {}⟩ }) := by
    simp [Callback.step, hi, plug, Sys.setProc]
  rw [run, hspawn]
  exact run_plug h

end Solo

end Doorhinges.Callback

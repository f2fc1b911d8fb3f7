import Doorhinges.CycleQueue.Model
import Doorhinges.Lib.CString
import Mathlib.Logic.Function.Basic

/-!
# The log thread and the threads that wake it

`log_handler` and `log_work_thread`, one shared access a step: a load or a store
of `g_log_empty`, a queue operation, a semaphore operation. What the worker does
between two accesses is part of the step before. A step that is not defined is
one that is blocked, a queue operation that is, or the overflow of `g_log_empty`.
-/
namespace Doorhinges.LogWork

open CycleQueue
open Lib.CString

/-- Where a thread is in `log_handler`, or in the shutdown, which also stores 0 and posts. -/
inductive Pc where
  | idle
  | test
  | zero
  | post
  deriving DecidableEq

/-- The locals of the drain: `num`, `i` and `j`. -/
structure Drain where
  num : Nat
  i : Nat
  j : Nat
  deriving DecidableEq

/-- The next shared access of `log_work_thread`. -/
inductive Worker where
  | running
  | last
  | test
  | timedwait
  | wait
  | head (d : Drain)
  | pop (d : Drain)
  | load
  | store (e : Nat)
  | finished
  deriving DecidableEq

structure Config where
  threadNum : Nat
  openWriteLog : Bool

structure State where
  doRun : Bool
  logEmpty : Nat
  sem : Nat
  queue : Nat → EgCycleQueue Bytes
  thread : Nat → Pc
  /-- The worker's array `log_queues`, by the index in `g_log_queues`. -/
  logQueues : List Nat
  worker : Worker

inductive Label where
  | log (p cq : Nat) (str : Bytes) (m : Malloc)
  | act (p : Nat)
  | shutdown (p : Nat)
  | clear
  | work
  | timeout

def intMax : Nat := 2 ^ 31 - 1

/-- `sem_post` fails when the value is at its maximum and leaves it there. -/
def semPost (n : Nat) : Nat := if n = intMax then n else n + 1

def State.goto (s : State) (p : Nat) (pc : Pc) : State :=
  { s with thread := Function.update s.thread p pc }

def State.setQueue (s : State) (q : Nat) (cq : EgCycleQueue Bytes) : State :=
  { s with queue := Function.update s.queue q cq }

/-- The push of `log_handler`; what it returns is not looked at. -/
def logHandler (cfg : Config) (s : State) (p cq : Nat) (str : Bytes) (m : Malloc) : Option State :=
  if cfg.openWriteLog then
    (egCqPush m (s.queue cq) str).map fun r => (s.setQueue cq r.2).goto p .test
  else some s

def act (s : State) (p : Nat) : Option State :=
  match s.thread p with
  | .idle => none
  | .test => some (s.goto p (if s.logEmpty = 0 then .idle else .zero))
  | .zero => some ({ s with logEmpty := 0 }.goto p .post)
  | .post => some ({ s with sem := semPost s.sem }.goto p .idle)

/-- The start of the outer loop's body. -/
def startDrain (threadNum : Nat) : Worker :=
  if 0 < threadNum then .head ⟨threadNum, 0, 0⟩ else .load

/-- The test of the loop over the queues, and of the loop around it when that one ends. -/
def nextQueue (threadNum num i : Nat) : Worker :=
  if i < num then .head ⟨num, i, 0⟩ else if num = 0 then .load else startDrain threadNum

/-- The queue at `i` changes places with the last one of the first `num`. -/
def swapOut (l : List Nat) (i num : Nat) : List Nat :=
  (l.set i (l.getD (num - 1) 0)).set (num - 1) (l.getD i 0)

def State.current (s : State) (d : Drain) : Nat := s.logQueues.getD d.i 0

def work (cfg : Config) (s : State) : Option State :=
  match s.worker with
  | .running => some { s with worker := if s.doRun then .test else .last }
  | .last => some { s with worker := if s.logEmpty ≤ 1 then .test else .finished }
  | .test => some { s with worker := if s.logEmpty = 1 then .timedwait else .wait }
  | .timedwait | .wait =>
    if 0 < s.sem then some { s with sem := s.sem - 1, worker := startDrain cfg.threadNum } else none
  | .head d =>
    (egCqHead (s.queue (s.current d))).map fun str =>
      match str with
      | some _ => { s with worker := .pop d }
      | none =>
        { s with
          logQueues := swapOut s.logQueues d.i d.num
          worker := nextQueue cfg.threadNum (d.num - 1) d.i }
  | .pop d =>
    (egCqPop (s.queue (s.current d))).map fun r =>
      { s.setQueue (s.current d) r.2 with
        worker := if d.j + 1 < 100 then .head { d with j := d.j + 1 }
          else nextQueue cfg.threadNum d.num (d.i + 1) }
  | .load => some { s with worker := .store s.logEmpty }
  | .store e => if e < intMax then some { s with logEmpty := e + 1, worker := .running } else none
  | .finished => none

def step (cfg : Config) (s : State) : Label → Option State
  | .log p cq str m =>
    if s.thread p = .idle ∧ cq < cfg.threadNum then logHandler cfg s p cq str m else none
  | .act p => act s p
  | .shutdown p => if s.thread p = .idle then some (s.goto p .zero) else none
  | .clear => some { s with doRun := false }
  | .work => work cfg s
  | .timeout =>
    if s.worker = .timedwait then some { s with worker := startDrain cfg.threadNum } else none

def start (cfg : Config) (queue : Nat → EgCycleQueue Bytes) : State where
  doRun := true
  logEmpty := 1
  sem := 0
  queue := queue
  thread _ := .idle
  logQueues := List.range cfg.threadNum
  worker := .running

end Doorhinges.LogWork

import Doorhinges.Lib.Threads

/-!
# The blocking list

The intrusive list of `x_list.c`. The data carry the link of the list; the part of a
function between lock and unlock of the mutex is one call, and so is the wait for the
semaphore. `pushed` and `popped` record what went in and came out, `woken` counts the
blocking pops that have passed the semaphore and not yet taken the mutex.
-/
namespace Doorhinges.BlockingList

open Lib.Program
open Lib.Threads

variable {P : Type} [DecidableEq P]

/-- `next` is the link in each datum's `list_node_t`. -/
structure XList (P : Type) where
  head : Option P
  tail : Option P
  next : P → Option P
  len : UInt64
  maxLen : UInt64
  sem : Nat

/-- The length limit; 0 stands for none. -/
def capacity (maxLen : UInt64) : UInt64 := if maxLen = 0 then ~~~maxLen else maxLen

/-- `next` is what the data hold before they are pushed. -/
def xListCreate (maxLen : UInt64) (next : P → Option P) : XList P :=
  { head := none, tail := none, next := next, len := 0, maxLen := capacity maxLen, sem := 0 }

def SEM_VALUE_MAX : Nat := 2147483647

/-- At `SEM_VALUE_MAX` the post fails; `x_list_push` only prints that. -/
def XList.semPost (l : XList P) : XList P :=
  if l.sem < SEM_VALUE_MAX then { l with sem := l.sem + 1 } else l

/-- The tail is set from the first push on, also when the list is empty again. -/
def XList.append (l : XList P) (data : P) : XList P :=
  let next := Function.update l.next data none
  match l.head with
  | none => { l with next := next, head := some data, tail := some data }
  | some _ =>
    { l with
      next := l.tail.elim next fun tail => Function.update next tail (some data)
      tail := some data }

def XList.push (l : XList P) (data : P) : XList P × Int :=
  if l.len < l.maxLen then
    let l := l.append data
    ({ l with len := l.len + 1 }.semPost, 0)
  else (l, -1)

def XList.pop (l : XList P) : XList P × Option P :=
  match l.head with
  | some data => ({ l with len := l.len - 1, head := l.next data }, some data)
  | none => (l, none)

inductive Cmd (P : Type) where
  | push (data : P)
  | semWait
  | pop (flag : Bool)
  | top
  | length

inductive Reply (P : Type) where
  | status (n : Int)
  | data (d : Option P)
  | len (n : UInt64)

def Reply.int : Reply P → Int
  | .status n => n
  | _ => 0

def Reply.data? : Reply P → Option P
  | .data d => d
  | _ => none

def Reply.uint64 : Reply P → UInt64
  | .len n => n
  | _ => 0

structure Shared (P : Type) where
  list : XList P
  pushed : List P
  popped : List P
  woken : Nat

/-- What went in and has not come out. -/
def Shared.queue (s : Shared P) : List P := s.pushed.drop s.popped.length

/-- What a call may answer and what it leaves. The wait ends only with a count to take. -/
def serve (s : Shared P) : Cmd P → Reply P → Option (Shared P)
  | .push data, .status n =>
    if n = (s.list.push data).2 then
      some { s with
        list := (s.list.push data).1
        pushed := if n = 0 then s.pushed ++ [data] else s.pushed }
    else none
  | .semWait, .status n =>
    if n = 0 ∧ 0 < s.list.sem then
      some { s with list := { s.list with sem := s.list.sem - 1 }, woken := s.woken + 1 }
    else none
  | .pop flag, .data d =>
    if d = s.list.pop.2 then
      some { s with
        list := s.list.pop.1
        popped := s.popped ++ d.toList
        woken := s.woken - flag.toNat }
    else none
  | .top, .data d => if d = s.list.head then some s else none
  | .length, .len n => if n = s.list.len then some s else none
  | _, _ => none

abbrev Act (P : Type) := Prog (Cmd P) (Reply P) Empty

def xListPush (data : Option P) : Act P Int :=
  match data with
  | none => pure (-1)
  | some data => do
    let status ← call (.push data)
    pure status.int

/-- A wait that a signal interrupts is made again, within the one call. -/
def xListPop (flag : Bool) : Act P (Option P) := do
  let wait ← if flag then call .semWait else pure (.status 0)
  if wait.int ≠ 0 then pure none
  else do
    let data ← call (.pop flag)
    pure data.data?

def xListTop : Act P (Option P) := do
  let data ← call .top
  pure data.data?

def xListLength : Act P UInt64 := do
  let len ← call .length
  pure len.uint64

inductive Request (P : Type) where
  | push (data : Option P)
  | pop (flag : Bool)
  | top
  | length

/-- A finished call: which it was and what it returned. -/
inductive Returned (P : Type) where
  | push (status : Int)
  | pop (flag : Bool) (data : Option P)
  | top (data : Option P)
  | length (len : UInt64)

def program : Request P → Act P (Returned P)
  | .push data => do
    let status ← xListPush data
    pure (.push status)
  | .pop flag => do
    let data ← xListPop flag
    pure (.pop flag data)
  | .top => do
    let data ← xListTop
    pure (.top data)
  | .length => do
    let len ← xListLength
    pure (.length len)

end Doorhinges.BlockingList

import Doorhinges.Lib.CString
import Doorhinges.Lib.Program

/-!
# The queue in shared memory

`push` and `pop` of `Shm_Queue.cpp`. Every operation on the semaphore and every access to the
header and to the message area is one call; what they find and leave is told where the
programs are run. The programs mark which of the two functions runs.
-/
namespace Doorhinges.ShmQueue

open Lib.CString
open Lib.Program

/-- The fields of a `shm_block` that stand in the queue in front of its data. -/
structure Head where
  length : Int
  id : Int
  type : Int
  deriving DecidableEq

structure ShmBlock where
  head : Head
  data : Bytes
  deriving DecidableEq

def MB_HEAD_LENGTH : Int := 12
def PAD_REQUEST : Int := 7

/-- `sizeof (queue_header)`. -/
def QUEUE_HEADER : Int := 8

/-- A field of the header of the queue. -/
inductive Field where
  | head
  | tail
  deriving DecidableEq

inductive Cmd where
  | acquire
  | release
  | exit
  | nanosleep
  | get (x : Field)
  | set (x : Field) (n : Int)
  | readHead (pos : Int)
  | writeHead (pos : Int) (b : Head)
  | readData (pos n : Int)
  | writeData (pos : Int) (data : Bytes)
  deriving DecidableEq

inductive Reply where
  | done
  | interrupted
  | num (n : Int)
  | head (b : Head)
  | data (s : Bytes)
  deriving DecidableEq

def Reply.int : Reply → Int
  | .num n => n
  | _ => 0

def Reply.block : Reply → Head
  | .head b => b
  | _ => ⟨0, 0, 0⟩

def Reply.bytes : Reply → Bytes
  | .data s => s
  | _ => []

inductive Mark where
  | pop
  | push
  deriving DecidableEq

abbrev Act (α : Type) := Prog Cmd Reply Mark α

def get (x : Field) : Act Int := do
  let r ← call (.get x)
  pure r.int

def set (x : Field) (n : Int) : Act Unit := do
  let _ ← call (.set x n)
  pure ()

def readHead (pos : Int) : Act Head := do
  let r ← call (.readHead pos)
  pure r.block

def writeHead (pos : Int) (b : Head) : Act Unit := do
  let _ ← call (.writeHead pos b)
  pure ()

/-- The tries that a signal interrupts are repeated. -/
def release : Act Unit := do
  let _ ← call .release
  pure ()

/-- The result is -1 where a signal interrupts the wait. -/
def acquire : Act Int := do
  let r ← call .acquire
  pure (if r = .interrupted then -1 else 0)

def checkMb (mb : Head) : Bool :=
  !(mb.length > 40960 + MB_HEAD_LENGTH || mb.length < MB_HEAD_LENGTH) && !(mb.type < 0)

/-- `stopped` is never set. -/
def stopped : Bool := false

section Wait

variable (shmLen : Int) (blocked : Bool)

def alignQueueTail : Act Unit := do
  let pos ← get .tail
  let tail ← get .tail
  let atPad ← if shmLen - tail < MB_HEAD_LENGTH then pure true else do
    let tailMb ← readHead pos
    pure (tailMb.type = PAD_REQUEST)
  onlyIf (atPad = true) do
    let head ← get .head
    let tail ← get .tail
    onlyIf (head < tail) (set .tail QUEUE_HEADER)

def alignQueueHead (mb : Head) : Act Int := do
  let tailPos ← get .tail
  let headPos ← get .head
  let surplus := shmLen - headPos
  if surplus < mb.length ∧ tailPos = QUEUE_HEADER then pure (-1)
  else if surplus < MB_HEAD_LENGTH then do
    set .head QUEUE_HEADER
    pure 0
  else do
    let pos ← get .head
    onlyIf (surplus < mb.length) do
      writeHead pos ⟨surplus, 0, PAD_REQUEST⟩
      set .head QUEUE_HEADER
    pure 0

/-- `tail == head`. -/
def noMessage : Act Bool := do
  let tail ← get .tail
  let head ← get .head
  pure (tail = head)

/-- There is too little room between the head and the tail. -/
def noRoom (mb : Head) : Act Bool := do
  let tail ← get .tail
  let head ← get .head
  if tail - head > 0 then do
    let tail ← get .tail
    let head ← get .head
    pure (tail - head < mb.length + 1)
  else pure false

/-- The `while` loop; a wait of more than `n` rounds is not over. -/
def waitWhile (test : Act Bool) : Nat → Act Int
  | 0 => .crash
  | n + 1 => do
    if ← test then
      if !blocked || stopped then pure (-1)
      else do
        let _ ← call .nanosleep
        waitWhile test n
    else pure 0

/-- The part of `pop_wait` behind its label. -/
def popAgain (rounds : Nat) : Nat → Act Int
  | 0 => .crash
  | n + 1 => do
    if (← waitWhile blocked noMessage rounds) = -1 then pure (-1)
    else do
      alignQueueTail shmLen
      if ← noMessage then popAgain rounds n else pure 0

def popWait (rounds : Nat) : Act Int := do
  alignQueueTail shmLen
  popAgain shmLen blocked rounds rounds

/-- The part of `push_wait` behind its label. -/
def pushAgain (mb : Head) (rounds : Nat) : Nat → Act Int
  | 0 => .crash
  | n + 1 => do
    if (← waitWhile blocked (noRoom mb) rounds) = -1 then pure (-1)
    else if (← alignQueueHead shmLen mb) = -1 then pure (-1)
    else if ← noRoom mb then pushAgain mb rounds n
    else pure 0

def pushWait (mb : Head) (rounds : Nat) : Act Int := do
  if (← alignQueueHead shmLen mb) = -1 then pure (-1)
  else pushAgain shmLen blocked mb rounds rounds

end Wait

section Calls

variable (shmLen : Int) (locked blocked : Bool) (rounds : Nat)

/-- `exit(1)`. -/
def exit {α : Type} : Act α := do
  let _ ← call .exit
  .crash

/-- The copy of the oldest message, behind `pop_wait`. -/
def takeTail : Act ShmBlock := do
  let pos ← get .tail
  let tailMb ← readHead pos
  if !checkMb tailMb then exit
  else do
    let headPos ← get .head
    let tail ← get .tail
    if tail < headPos ∧ tail + tailMb.length > headPos then exit
    else if tail > headPos ∧ tail + tailMb.length > shmLen then exit
    else do
      let r ← call (.readData (pos + MB_HEAD_LENGTH) (tailMb.length - MB_HEAD_LENGTH))
      set .tail (tail + tailMb.length)
      pure ⟨tailMb, r.bytes⟩

/-- The copy of a message to the head, behind `push_wait`. -/
def putHead (mb : ShmBlock) : Act Unit := do
  let pos ← get .head
  writeHead pos mb.head
  let _ ← call (.writeData (pos + MB_HEAD_LENGTH) mb.data)
  let head ← get .head
  set .head (head + mb.head.length)

/-- The message, where the result is 0. -/
def pop : Act (Option ShmBlock) := do
  mark .pop
  let failed ← if locked then do
      let r ← acquire
      pure (r = -1 : Bool)
    else pure false
  if failed then do
    release
    pure none
  else do
    let mb ← if (← popWait shmLen blocked rounds) = 0 then do
        let mb ← takeTail shmLen
        pure (some mb)
      else pure none
    onlyIf (locked = true) release
    pure mb

/-- Whether the result is 0. -/
def push (mb : ShmBlock) : Act Bool := do
  mark .push
  if !checkMb mb.head then pure false
  else do
    let failed ← if locked then do
        let r ← acquire
        pure (r = -1 : Bool)
      else pure false
    if failed then pure false
    else do
      let done ← if (← pushWait shmLen blocked mb.head rounds) = 0 then do
          putHead mb
          pure true
        else pure false
      onlyIf (locked = true) release
      pure done

end Calls

end Doorhinges.ShmQueue

import Doorhinges.Lib.CString
import Doorhinges.Lib.Machine

/-!
# Reading request lines

The read side of a TCP connection: `try_read_network`, `try_read_command` and the states of
`drive_machine` around them. A label is one round of the loop in `drive_machine`, with what
the system calls and the request handler do in it; a round that is not defined is one the
operating system cannot take. Beside the connection the state keeps the bytes received and
the commands handed to `process_command`.

The buffer of a connection is a part of the block that `create_conn` has allocated for its
pool. `realloc` is given a pointer into that block, which has no defined result.
-/
namespace Doorhinges.Wire

open Lib.CString

def DATA_BUFFER_SIZE : Nat := 16384

/-- The states of a TCP connection with no pending `conn_nread` or `conn_swallow`; nothing
follows `undefined`. -/
inductive ConnState where
  | newCmd
  | waiting
  | read
  | parseCmd
  | write
  | closing
  | undefined
  deriving DecidableEq

/-- `rsize` is the length of `rbuf`, and `rcurr` an index into it. `running` says that
`drive_machine` is in its loop, `pooled` that `rbuf` lies in the block of the pool. -/
structure Conn where
  rbuf : Bytes
  rcurr : Nat
  rbytes : Nat
  state : ConnState
  writeAndGo : ConnState
  nreqs : Int
  running : Bool
  pooled : Bool

structure World where
  conn : Conn
  received : Bytes
  handed : List Bytes

/-- What one call of `read` gives; `noMemory` is the failure of a `realloc` before it. -/
inductive ReadResult where
  | data (bytes : Bytes)
  | wouldBlock
  | failed
  | noMemory
  deriving DecidableEq

inductive TryRead where
  | noData
  | dataReceived
  | error
  | memoryError
  | undefined

inductive Transmit where
  | complete
  | incomplete
  | softError
  | hardError
  deriving DecidableEq

/-- `wake` is an event for the connection. `round` is a round that only uses the event
library, `parse` one that may call the handler, which may write over the line it is given
and its terminator. -/
inductive Label where
  | wake
  | round (updated : Bool)
  | network (results : List ReadResult)
  | parse (replies : Bool) (scratch : Bytes)
  | transmit (result : Transmit)

/-- The unread bytes. -/
def Conn.window (c : Conn) : Bytes := (c.rbuf.drop c.rcurr).take c.rbytes

section Network

-- what `realloc` leaves in the second half is not known
variable (fresh : Nat → UInt8)

/-- `realloc` where `rbuf` has a block of its own. -/
def Conn.grow (c : Conn) : Conn :=
  { c with rbuf := c.rbuf ++ (List.range c.rbuf.length).map fresh, rcurr := 0 }

/-- `read` into the buffer behind the unread bytes. -/
def Conn.fill (c : Conn) (bytes : Bytes) : Conn :=
  { c with
    rbuf := c.rbuf.take c.rbytes ++ bytes ++ c.rbuf.drop (c.rbytes + bytes.length)
    rbytes := c.rbytes + bytes.length }

/-- The remaining fragment is moved to the start of the buffer. -/
def Conn.compact (c : Conn) : Conn :=
  if c.rcurr ≠ 0 then
    { c with
      rbuf := c.window ++ c.rbuf.drop c.window.length
      rcurr := 0 }
  else c

/-- One call of `read`, and whether the loop goes on. -/
def readOnce (c : Conn) (got : TryRead) : ReadResult → Option (Conn × Bytes × TryRead × Bool)
  | .data bytes =>
    if 0 < bytes.length ∧ bytes.length ≤ c.rbuf.length - c.rbytes then
      some (c.fill bytes, bytes, .dataReceived, bytes.length = c.rbuf.length - c.rbytes)
    else none
  | .wouldBlock => some (c, [], got, false)
  | .failed => some (c, [], .error, false)
  | .noMemory => none

/-- The loop of `try_read_network`, with the bytes it reads; every result is used. -/
def readLoop : Nat → Conn → TryRead → List ReadResult → Option (Conn × Bytes × TryRead)
  | numAllocs, c, got, results =>
    if c.rbytes ≥ c.rbuf.length ∧ numAllocs = 4 then
      if results = [] then some (c, [], got) else none
    else if c.rbytes ≥ c.rbuf.length ∧ c.pooled then
      if results = [] then some (c, [], .undefined) else none
    else
      match results with
      | [] => none
      | .noMemory :: rest =>
        if c.rbytes ≥ c.rbuf.length ∧ rest = [] then
          some ({ c with rbytes := 0, state := .write, writeAndGo := .closing }, [], .memoryError)
        else none
      | r :: rest => do
        let full := c.rbytes ≥ c.rbuf.length
        let c := if full then c.grow fresh else c
        let (c, bytes, got, again) ← readOnce c got r
        if again then do
          let (c, more, got) ← readLoop (if full then numAllocs + 1 else numAllocs) c got rest
          some (c, bytes ++ more, got)
        else if rest = [] then some (c, bytes, got)
        else none

def tryReadNetwork (c : Conn) (results : List ReadResult) : Option (Conn × Bytes × TryRead) :=
  readLoop fresh 0 c.compact .noData results

end Network

section Command

/-- The line in front of a newline loses a carriage return, unless it is nothing else. -/
def chomp (line : Bytes) : Bytes :=
  if 1 < line.length ∧ line.getLast? = some 13 then line.dropLast else line

/-- A first kilobyte without a newline that does not look like a large multiget. -/
def Conn.hopeless (c : Conn) : Bool :=
  let ptr := (c.rbuf.drop c.rcurr).dropWhile (· = 32)
  ((c.rbuf.drop c.rcurr).takeWhile (· = 32)).length > 100 ||
    (ptr.take 4 ≠ ascii "get " && ptr.take 5 ≠ ascii "gets ")

/-- What the buffer holds once the handler has returned. -/
def Conn.overwrite (c : Conn) (scratch : Bytes) : Conn :=
  { c with rbuf := c.rbuf.take c.rcurr ++ scratch ++ c.rbuf.drop (c.rcurr + scratch.length) }

/-- The command, and the connection after the line. -/
def Conn.takeLine (c : Conn) (el : Nat) (replies : Bool) (scratch : Bytes) : Option (Conn × Bytes) :=
  let command := chomp (c.window.take el)
  if scratch.length = command.length + 1 then
    let c := c.overwrite scratch
    some
      ({ c with
          rbytes := c.rbytes - (el + 1)
          rcurr := c.rcurr + (el + 1)
          state := if replies then .write else c.state
          writeAndGo := if replies then .newCmd else c.writeAndGo }, command)
  else none

/-- `try_read_command`; the flag is its result. -/
def tryReadCommand (c : Conn) (replies : Bool) (scratch : Bytes) :
    Option (Conn × List Bytes × Bool) :=
  match c.window.findIdx? (· = 10) with
  | some el => (c.takeLine el replies scratch).map fun r => (r.1, [r.2], true)
  | none =>
    if 1024 < c.rbytes ∧ c.hopeless then some ({ c with state := .closing }, [], true)
    else some (c, [], false)

end Command

section Drive

variable (fresh : Nat → UInt8) (reqsPerEvent : Int)

/-- `conn_new_cmd` and `conn_waiting`. -/
def Conn.round (c : Conn) (updated : Bool) : Option Conn :=
  match c.state with
  | .newCmd =>
    let c : Conn := { c with nreqs := c.nreqs - 1 }
    if 0 ≤ c.nreqs then
      some { c with state := if c.rbytes > 0 then .parseCmd else .waiting }
    else if c.rbytes > 0 ∧ !updated then some { c with state := .closing, running := false }
    else some { c with running := false }
  | .waiting =>
    if updated then some { c with state := .read, running := false }
    else some { c with state := .closing }
  | _ => none

/-- `conn_write`, with the result of `transmit`. -/
def Conn.transmitted (c : Conn) : Transmit → Conn
  | .complete => { c with state := c.writeAndGo }
  | .incomplete => c
  | .softError => { c with running := false }
  | .hardError => { c with state := .closing }

/-- The next state after `try_read_network`. -/
def Conn.networked (c : Conn) : TryRead → Conn
  | .noData => { c with state := .waiting }
  | .dataReceived => { c with state := .parseCmd }
  | .error => { c with state := .closing }
  | .memoryError => c
  | .undefined => { c with state := .undefined }

def step (w : World) : Label → Option World
  | .wake =>
    if w.conn.running then none
    else some { w with conn := { w.conn with running := true, nreqs := reqsPerEvent } }
  | .round updated =>
    if w.conn.running then (w.conn.round updated).map fun c => { w with conn := c } else none
  | .network results =>
    if w.conn.running ∧ w.conn.state = .read then
      (tryReadNetwork fresh w.conn results).map fun r =>
        { w with conn := r.1.networked r.2.2, received := w.received ++ r.2.1 }
    else none
  | .parse replies scratch =>
    if w.conn.running ∧ w.conn.state = .parseCmd then
      (tryReadCommand w.conn replies scratch).map fun r =>
        { w with
          conn := if r.2.2 then r.1 else { r.1 with state := .waiting }
          handed := w.handed ++ r.2.1 }
    else none
  | .transmit result =>
    if w.conn.running ∧ w.conn.state = .write then
      some { w with conn := w.conn.transmitted result }
    else none

end Drive

/-- A connection as `conn_new` leaves it. -/
structure World.Initial (w : World) : Prop where
  rbuf : w.conn.rbuf.length = DATA_BUFFER_SIZE
  pooled : w.conn.pooled
  rcurr : w.conn.rcurr = 0
  rbytes : w.conn.rbytes = 0
  state : w.conn.state = .newCmd
  running : w.conn.running = false
  received : w.received = []
  handed : w.handed = []

end Doorhinges.Wire

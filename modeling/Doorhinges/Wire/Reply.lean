import Doorhinges.Lib.CString
import Doorhinges.Lib.Machine
import Doorhinges.Lib.Slices
import Doorhinges.Wire.Framing

/-!
# Writing replies

The write side of a TCP connection: `out_string`, the message headers and io vectors it
fills, and the rounds of `drive_machine` in `conn_write`. The arrays are kept at their
allocated sizes and a header points into the vector array; `realloc` gives that array a new
block, and an access through a pointer into an old block, or past the end, is not defined.
Memory is there.
-/
namespace Doorhinges.Wire

open Lib.CString
open Lib.Slices

def iovMax : Nat := 1024

def udpMaxPayloadSize : Nat := 1400

/-- `iov` is an index into the vector array that was at `block`. -/
structure Msghdr where
  block : Nat
  iov : Nat
  iovlen : Nat
  deriving DecidableEq

/-- The arrays `iov` and `msglist` have the lengths `iovsize` and `msgsize`, `wcurr` is an index
into `wbuf`, and so is the base of a vector. -/
structure Output where
  wbuf : Bytes
  wcurr : Nat
  wbytes : Nat
  block : Nat
  iov : List Slice
  iovused : Nat
  msglist : List Msghdr
  msgused : Nat
  msgcurr : Nat
  msgbytes : Nat
  noreply : Bool
  state : ConnState
  writeAndGo : ConnState
  running : Bool
  deriving DecidableEq

-- what `realloc` leaves in the second half is not known
variable (spare : Slice) (spareMsg : Msghdr)

def Output.addMsghdr (c : Output) : Output :=
  let msglist :=
    if c.msglist.length = c.msgused then c.msglist ++ List.replicate c.msglist.length spareMsg
    else c.msglist
  { c with
    msglist := msglist.set c.msgused ⟨c.block, c.iovused, 0⟩
    msgbytes := 0
    msgused := c.msgused + 1 }

/-- Points the first headers at the new list. -/
def repoint (block : Nat) : Nat → Nat → List Msghdr → List Msghdr
  | 0, _, ms => ms
  | _ + 1, _, [] => []
  | n + 1, iovnum, m :: ms => ⟨block, iovnum, m.iovlen⟩ :: repoint block n (iovnum + m.iovlen) ms

def Output.ensureIovSpace (c : Output) : Output :=
  if c.iovused ≥ c.iov.length then
    { c with
      iov := c.iov ++ List.replicate c.iov.length spare
      block := c.block + 1
      msglist := repoint (c.block + 1) c.msgused 0 c.msglist }
  else c

/-- Writes the entry behind the vectors of the last message. -/
def Output.putIov (c : Output) (v : Slice) : Option Output := do
  let m ← c.msglist[c.msgused - 1]?
  if m.block = c.block ∧ m.iov + m.iovlen < c.iov.length then
    some { c with
      iov := c.iov.set (m.iov + m.iovlen) v
      msgbytes := c.msgbytes + v.len
      iovused := c.iovused + 1
      msglist := c.msglist.set (c.msgused - 1) { m with iovlen := m.iovlen + 1 } }
  else none

/-- A message that is full is followed by a new one. -/
def Output.openMsg (c : Output) (limitToMtu : Bool) : Option Output := do
  let m ← c.msglist[c.msgused - 1]?
  some (if m.iovlen = iovMax ∨ limitToMtu ∧ c.msgbytes ≥ udpMaxPayloadSize then
    c.addMsghdr spareMsg else c)

/-- What does not fit in the first datagram. -/
def leftover (limitToMtu : Bool) (msgbytes len : Nat) : Nat :=
  if limitToMtu ∧ len + msgbytes > udpMaxPayloadSize then len + msgbytes - udpMaxPayloadSize else 0

/-- `add_iov`. Each round takes a part of the bytes, so that as many rounds as there are bytes
are enough. -/
def Output.addIovLoop : Nat → Output → Nat → Nat → Option Output
  | 0, _, _, _ => none
  | fuel + 1, c, buf, len => do
    let limitToMtu : Bool := 1 = c.msgused
    let c ← c.openMsg spareMsg limitToMtu
    let c := c.ensureIovSpace spare
    let left := leftover limitToMtu c.msgbytes len
    let c ← c.putIov ⟨buf, len - left⟩
    if left > 0 then addIovLoop fuel c (buf + (len - left)) left else some c

def Output.addIov (c : Output) (buf len : Nat) : Option Output :=
  c.addIovLoop spare spareMsg (len + 1) buf len

/-- `memcpy(c->wbuf, str, len+1)`. -/
def Output.assemble (c : Output) (str : Bytes) : Output :=
  { c with
    wbuf := str ++ 0 :: c.wbuf.drop (str.length + 1)
    wbytes := str.length + 1
    wcurr := 0
    state := .write
    writeAndGo := .newCmd }

/-- A partial output is dropped. -/
def Output.nuke (c : Output) : Output := { c with msgcurr := 0, msgused := 0, iovused := 0 }

def Output.outString (c : Output) (str : Bytes) : Output :=
  if c.noreply then { c with noreply := false, state := .newCmd }
  else
    (c.nuke.addMsghdr spareMsg).assemble
      (if str.length + 1 > c.wbuf.length then ascii "SERVER_ERROR output line too long" else str)

section Transmit

/-- What `sendmsg` does: it accepts a positive number of bytes, it would block, or it fails. -/
inductive SendResult where
  | sent (n : Nat)
  | wouldBlock (updated : Bool)
  | failed
  deriving DecidableEq

/-- The vectors of a message, when the reads of `sendmsg` are defined. -/
def Output.vectors (c : Output) (m : Msghdr) : Option (List Slice) :=
  let vs := (c.iov.drop m.iov).take m.iovlen
  if m.block = c.block ∧ m.iov + m.iovlen ≤ c.iov.length ∧
      (∀ v ∈ vs, v.base + v.len ≤ c.wbuf.length) then
    some vs
  else none

/-- Removes the completed entries: the count and the place of those left, and what `res` has
come to. -/
def consume (iov : List Slice) : Nat → Nat → Nat → Nat × Nat × Nat
  | 0, p, res => (0, p, res)
  | k + 1, p, res =>
    match iov[p]? with
    | some v => if res ≥ v.len then consume iov k (p + 1) (res - v.len) else (k + 1, p, res)
    | none => (k + 1, p, res)

/-- The list of pending writes after `n` bytes of message `m`. -/
def Output.written (c : Output) (m : Msghdr) (n : Nat) : Output :=
  let r := consume c.iov m.iovlen m.iov n
  { c with
    msglist := c.msglist.set c.msgcurr ⟨m.block, r.2.1, r.1⟩
    iov := if r.2.2 > 0 then c.iov.modify r.2.1 fun v => v.cut r.2.2 else c.iov }

/-- Finished writing the current message; advance to the next. -/
def Output.nextMsg (c : Output) : Output :=
  if c.msgcurr < c.msgused ∧ (c.msglist[c.msgcurr]?.map Msghdr.iovlen) = some 0 then
    { c with msgcurr := c.msgcurr + 1 }
  else c

/-- `transmit`, with the bytes the socket accepts; without a result it makes no call. -/
def Output.transmit (c : Output) (result : Option SendResult) :
    Option (Output × Bytes × Transmit) :=
  let c := c.nextMsg
  if c.msgcurr < c.msgused then do
    let m ← c.msglist[c.msgcurr]?
    let vs ← c.vectors m
    match result with
    | none => none
    | some (.sent n) =>
      if 0 < n ∧ n ≤ (gather c.wbuf vs).length then
        some (c.written m n, (gather c.wbuf vs).take n, .incomplete)
      else none
    | some (.wouldBlock true) => some (c, [], .softError)
    | some (.wouldBlock false) => some ({ c with state := .closing }, [], .hardError)
    | some .failed => some ({ c with state := .closing }, [], .hardError)
  else if result = none then some (c, [], .complete)
  else none

/-- What `drive_machine` does with the result. -/
def Output.transmitted (c : Output) : Transmit → Output
  | .complete => { c with state := c.writeAndGo }
  | .softError => { c with running := false }
  | .incomplete => c
  | .hardError => c

end Transmit

/-- A connection and the bytes its socket has accepted. -/
structure Sending where
  conn : Output
  accepted : Bytes
  deriving DecidableEq

/-- An event for the connection, or a round of the loop in `conn_write`. -/
inductive WriteLabel where
  | wake
  | round (result : Option SendResult)
  deriving DecidableEq

/-- The answer is put into the messages once. -/
def Output.build (c : Output) : Option Output :=
  if c.iovused = 0 then c.addIov spare spareMsg c.wcurr c.wbytes else some c

def writeStep (w : Sending) : WriteLabel → Option Sending
  | .wake =>
    if w.conn.running then none else some { w with conn := { w.conn with running := true } }
  | .round result =>
    if w.conn.running ∧ w.conn.state = .write then do
      let c ← w.conn.build spare spareMsg
      let r ← c.transmit result
      some ⟨r.1.transmitted r.2.2, w.accepted ++ r.2.1⟩
    else none

end Doorhinges.Wire

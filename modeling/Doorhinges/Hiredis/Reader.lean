import Doorhinges.Keepalive.Model
import Doorhinges.Lib.Stream

/-!
# The reader of replies

The reader of `hiredis.c` keeps the bytes that have come in a buffer, and what it has read of a
reply that is not complete in a stack of tasks. `redisReaderFeed` appends to the buffer and
`redisReaderGetReply` reads on in it, item by item. A task of an array keeps the elements that
have been set; the array goes into its own place when the last of them is there.
-/
namespace Doorhinges.Hiredis

open Lib.CString
open Keepalive (Err)

/-- `REDIS_REPLY_STRING` and so on. -/
inductive ReplyType where
  | string
  | array
  | integer
  | nil
  | status
  | error
  deriving DecidableEq

/-- A `redisReply`. An array has the number of its elements, which is below zero where the stream
says so, and the elements that are not null. -/
inductive RedisReply where
  | string (str : Bytes)
  | array (elements : Int) (element : List RedisReply)
  | integer (n : Int)
  | nil
  | status (str : Bytes)
  | error (str : Bytes)

/-- A `redisReadTask`; the type is absent where it is -1. -/
structure ReadTask where
  type : Option ReplyType
  elements : Int
  idx : Int
  obj : List RedisReply

/-- The task of the item at this place. -/
def ReadTask.item (idx : Int) : ReadTask := ⟨none, -1, idx, []⟩

/-- A `redisReader`, with the task of the item that is read now first. The bytes of the buffer
before `pos` have been read. -/
structure RedisReader where
  err : Option (Err × Bytes)
  buf : Bytes
  pos : Nat
  rstack : List ReadTask
  reply : Option RedisReply

/-- The stack with the task of a reply, where none is read. -/
def started (stack : List ReadTask) : List ReadTask :=
  if stack.isEmpty then [.item (-1)] else stack

/-- What one item makes of the stack: absent where more bytes are needed, else an error, or the
stack with the number of bytes that have been read and the reply that is complete. An error
without a text stands for what C leaves undefined. -/
abbrev Step := Option (Except (Option (Err × Bytes)) (List ReadTask × Nat × Option RedisReply))

section Items

/-- The place of the first `\r\n`. -/
def seekNewline : Bytes → Option Nat
  | [] => none
  | [_] => none
  | c :: d :: s => if c = 13 ∧ d = 10 then some 0 else (seekNewline (d :: s)).map (· + 1)

/-- The digits up to `\r`: `some none` at another byte, and `none` where the number passes
`LLONG_MAX`. -/
def readDigits (v : Nat) : Bytes → Option (Option Nat)
  | [] => none
  | c :: s =>
    if c = 13 then some (some v)
    else if isDigit c then
      let v := v * 10 + digitVal c
      if v < 2 ^ 63 then readDigits v s else none
    else some none

def readLongLong (s : Bytes) : Option Int :=
  let mult : Int := if s.head? = some 45 then -1 else 1
  let s := if s.head? = some 45 ∨ s.head? = some 43 then s.tail else s
  (readDigits 0 s).map fun v => v.elim (-1) fun v => mult * (v : Int)

/-- The loop of `moveToNextTask`: the object at this place of the array above it is complete. -/
def moveFrom (obj : RedisReply) (idx : Int) : List ReadTask → List ReadTask × Option RedisReply
  | [] => ([], some obj)
  | prv :: stack =>
    let prv := { prv with obj := prv.obj ++ [obj] }
    if idx = prv.elements - 1 then moveFrom (.array prv.elements prv.obj) prv.idx stack
    else (.item (idx + 1) :: prv :: stack, none)

/-- `moveToNextTask`, where the object of the first task is complete. -/
def moveToNextTask (obj : RedisReply) : List ReadTask → List ReadTask × Option RedisReply
  | [] => ([], none)
  | cur :: stack => moveFrom obj cur.idx stack

/-- The object of the first task is made of the next `n` bytes. -/
def complete (obj : RedisReply) (n : Nat) (stack : List ReadTask) : Step :=
  let next := moveToNextTask obj stack
  some (.ok (next.1, n, next.2))

def undefined : Step := some (.error none)

/-- `type` is that of an integer, a status or an error. -/
def processLineItem (type : ReplyType) (stack : List ReadTask) (b : Bytes) : Step :=
  match seekNewline b with
  | none => none
  | some len =>
    match type with
    | .integer =>
      match readLongLong b with
      | none => undefined
      | some n => complete (.integer n) (len + 2) stack
    | .status => complete (.status (b.take len)) (len + 2) stack
    | _ => complete (.error (b.take len)) (len + 2) stack

def processBulkItem (stack : List ReadTask) (b : Bytes) : Step :=
  match seekNewline b with
  | none => none
  | some s =>
    match readLongLong b with
    | none => undefined
    | some len =>
      if len < 0 then complete .nil (s + 2) stack
      else
        let bytelen := s + 2 + (len.toNat + 2)
        if bytelen ≤ b.length then
          complete (.string ((b.drop (s + 2)).take len.toNat)) bytelen stack
        else none

def depthError : Bytes := ascii "No support for nested multi bulk replies with depth > 7"

/-- Nothing is said about more elements than an int can count. -/
def processMultiBulkItem (cur : ReadTask) (stack : List ReadTask) (b : Bytes) : Step :=
  if stack.length = 8 then some (.error (some (.protocol, depthError)))
  else
    match seekNewline b with
    | none => none
    | some len =>
      match readLongLong b with
      | none => undefined
      | some elements =>
        if elements = -1 then complete .nil (len + 2) (cur :: stack)
        else if 2 ^ 31 ≤ elements then undefined
        else if 0 < elements then
          let cur := { cur with elements := elements, obj := [] }
          some (.ok (.item 0 :: cur :: stack, len + 2, none))
        else complete (.array (toInt32 elements) []) (len + 2) (cur :: stack)

/-- The item of the first task, whose type has been read. -/
def processTyped (type : ReplyType) (cur : ReadTask) (stack : List ReadTask) (b : Bytes) : Step :=
  match type with
  | .error | .status | .integer => processLineItem type (cur :: stack) b
  | .string => processBulkItem (cur :: stack) b
  | .array => processMultiBulkItem cur stack b
  | .nil => undefined

def typeOf (c : UInt8) : Option ReplyType :=
  if c = 45 then some .error
  else if c = 43 then some .status
  else if c = 58 then some .integer
  else if c = 36 then some .string
  else if c = 42 then some .array
  else none

def hexDigit (n : UInt8) : UInt8 := if n < 10 then 48 + n else 87 + n

/-- A byte as it is shown in a message. -/
def chrtos (c : UInt8) : Bytes :=
  let shown : Bytes :=
    if c = 92 ∨ c = 34 then [92, c]
    else if c = 10 then ascii "\\n"
    else if c = 13 then ascii "\\r"
    else if c = 9 then ascii "\\t"
    else if c = 7 then ascii "\\a"
    else if c = 8 then ascii "\\b"
    else if 32 ≤ c ∧ c < 127 then [c]
    else ascii "\\x" ++ [hexDigit (c >>> 4), hexDigit (c &&& 15)]
  [34] ++ shown ++ [34]

def protocolByte (c : UInt8) : Err × Bytes :=
  (.protocol, ascii "Protocol error, got " ++ chrtos c ++ ascii " as reply type byte")

end Items

namespace RedisReader

variable (r : RedisReader)

/-- The bytes that have not been read. -/
def rest : Bytes := r.buf.drop r.pos

/-- `__redisReaderSetError`; every text fits `errstr`. -/
def setError (e : Err × Bytes) : RedisReader := ⟨some e, [], 0, [], none⟩

/-- The result of a function that works on one item; whether it is `REDIS_OK`. -/
def apply : Step → Option (Bool × RedisReader)
  | none => some (false, r)
  | some (.error none) => none
  | some (.error (some e)) => some (false, setError e)
  | some (.ok (rstack, n, reply)) =>
    some (true, { r with rstack := rstack, pos := r.pos + n, reply := reply })

def processItem : Option (Bool × RedisReader) :=
  match r.rstack with
  | [] => none
  | cur :: stack =>
    match cur.type with
    | some type => r.apply (processTyped type cur stack r.rest)
    | none =>
      match r.rest with
      | [] => some (false, r)
      | c :: b =>
        match typeOf c with
        | none => some (false, setError (protocolByte c))
        | some type =>
          let cur := { cur with type := some type }
          let r := { r with rstack := cur :: stack, pos := r.pos + 1 }
          r.apply (processTyped type cur stack b)

/-- The loop of `redisReaderGetReply`, which takes bytes in every round but the last. -/
def processItems : Nat → RedisReader → Option RedisReader
  | 0, r => some r
  | k + 1, r =>
    if r.rstack.isEmpty then some r
    else
      match r.processItem with
      | none => none
      | some (true, r') => processItems k r'
      | some (false, r') => some r'

def create : RedisReader := ⟨none, [], 0, [], none⟩

/-- `redisReaderFeed`; whether the result is `REDIS_OK`. -/
def feed (b : Bytes) : Bool × RedisReader :=
  if r.err.isSome then (false, r) else (true, { r with buf := r.buf ++ b })

/-- What `redisReaderGetReply` does behind its loop: whether the result is `REDIS_OK`, and the
reply. -/
def finish : Bool × RedisReader × Option RedisReply :=
  if r.err.isSome then (false, r, none)
  else
    let r := if 1024 ≤ r.pos then { r with buf := r.rest, pos := 0 } else r
    if r.rstack.isEmpty then (true, { r with reply := none }, r.reply) else (true, r, none)

def getReply : Option (Bool × RedisReader × Option RedisReply) :=
  if r.err.isSome then some (false, r, none)
  else if r.buf.isEmpty then some (true, r, none)
  else (processItems (r.rest.length + 1) { r with rstack := started r.rstack }).map finish

end RedisReader

/-- A call on a reader. -/
inductive Call where
  | feed (b : Bytes)
  | getReply

/-- The replies so far and the reader, after one more call. -/
def Call.exec (t : List RedisReply × RedisReader) : Call → Option (List RedisReply × RedisReader)
  | .feed b => some (t.1, (t.2.feed b).2)
  | .getReply => t.2.getReply.map fun x => (t.1 ++ x.2.2.toList, x.2.1)

/-- The calls in turn on a new reader. -/
def replies (calls : List Call) : Option (List RedisReply × RedisReader) :=
  calls.foldlM Call.exec ([], .create)

def Call.bytes : Call → Bytes
  | .feed b => b
  | .getReply => []

end Doorhinges.Hiredis

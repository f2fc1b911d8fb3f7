import Doorhinges.Lib.CString
import Doorhinges.Lib.Program

/-!
# Message ids and read ids

The requests of `internal_process.cpp` that count, store and acknowledge
messages. Each Redis command and each script is one call. The serialised packet,
its base64 text and the length limit come from libraries and headers outside the
repository; what follows the store of a message (the push to its receivers) is
one call of its own that touches no key modelled here.
-/
namespace Doorhinges.Messages

open Lib.CString
open Lib.Program

/-- The message counters: `<uin>.msgid`, `<grpid>.grpmsgid`, `<uin>.noticeid`. -/
inductive Counter where
  | msgid (uin : Nat)
  | grpmsgid (grpid : Nat)
  | noticeid (uin : Nat)
  deriving DecidableEq

/-- The read ids: `<uin>.readid`, field `grpid` of `<uin>.grpreadid`, `<uin>.noticereadid`. -/
inductive ReadKey where
  | readid (uin : Nat)
  | grpreadid (uin grpid : Nat)
  | noticereadid (uin : Nat)
  deriving DecidableEq

/-- The counter a read id is compared with. -/
def ReadKey.counter : ReadKey → Counter
  | .readid uin => .msgid uin
  | .grpreadid _ grpid => .grpmsgid grpid
  | .noticereadid uin => .noticeid uin

/-- The keys of the store; the messages of a counter are a hash by id. -/
structure Store where
  counter : Counter → Option Nat
  readid : ReadKey → Option Nat
  msg : Counter → Nat → Option Bytes

inductive Cmd where
  | incr (c : Counter)
  | evalRead (k : ReadKey) (msgid : Nat)
  | hsetMsg (c : Counter) (msgid : Nat) (text : Bytes)
  | time
  | push

inductive Reply where
  | fail
  | done
  | num (n : Nat)
  | text (o : Option Nat)

/-- The script of `setReadID` and `setGrpReadID`; a key that is absent reads as `false`. -/
def evalRead (s : Store) (k : ReadKey) (msgid : Nat) : Option Nat × Store :=
  if (s.readid k = none ∨ ∃ r ∈ s.readid k, r < msgid) ∧
      (s.counter k.counter = none ∨ ∃ m ∈ s.counter k.counter, msgid ≤ m) then
    (some msgid, { s with readid := fun j => if j = k then some msgid else s.readid j })
  else (s.readid k, s)

def incr (s : Store) (c : Counter) : Nat × Store :=
  let n := (s.counter c).getD 0 + 1
  (n, { s with counter := fun d => if d = c then some n else s.counter d })

def hsetMsg (s : Store) (c : Counter) (msgid : Nat) (text : Bytes) : Store :=
  { s with
    msg := fun d i => if d = c ∧ i = msgid then some text else s.msg d i }

/-- What a command may answer and what it leaves; one that fails leaves the store alone. -/
def serve (s : Store) : Cmd → Reply → Option Store
  | _, .fail => some s
  | .incr c, .num n => if n = (incr s c).1 then some (incr s c).2 else none
  | .evalRead k m, .text o => if o = (evalRead s k m).1 then some (evalRead s k m).2 else none
  | .hsetMsg c m text, .done => some (hsetMsg s c m text)
  | .time, .num _ => some s
  | .push, .done => some s
  | _, _ => none

/-- The parts of a message packet that the request decides. -/
inductive Packet where
  | pushMsg (fromuin touin : Nat) (msg : Bytes)
  | pushGrpMsg (fromuin grpid : Nat) (msg : Bytes)

def Packet.counter : Packet → Counter
  | .pushMsg _ touin _ => .msgid touin
  | .pushGrpMsg _ grpid _ => .grpmsgid grpid

/-- What the code takes from elsewhere: the serialised packet with its id and
time, the base64 text, and `MAX_MSG_LEN`. -/
structure Externals where
  serialize : Packet → Nat → Nat → Bytes
  base64 : Bytes → Bytes
  maxMsgLen : Nat

inductive Mark where
  | building (p : Packet)

abbrev Act := Prog Cmd Reply Mark

/-- The result code and message of the response header. -/
structure Answer where
  ret : Nat
  message : String
  deriving DecidableEq

/-- What the checks before a request's own work find. -/
structure Header where
  uin : Nat
  fdFound : Bool
  fdUin : Nat
  sessionFound : Bool

def Reply.failed : Reply → Bool
  | .fail => true
  | _ => false

def Reply.number : Reply → Nat
  | .num n => n
  | _ => 0

def Reply.value : Reply → Nat
  | .text o => o.getD 0
  | _ => 0

/-- The id `credis_incr` stores through an int pointer into a uint32_t. -/
def asMsgid (n : Nat) : Nat := n % 2 ^ 32

/-- The result is the return code and the id. -/
def setMsgID (c : Counter) : Act (Int × Nat) := do
  let r ← call (.incr c)
  if r.failed then pure (-1, 0) else pure (0, asMsgid r.number)

/-- `setReadID` and `setGrpReadID`, which differ in the keys only. -/
def setReadID (k : ReadKey) (msgid : Nat) : Act Int := do
  let r ← call (.evalRead k msgid)
  if r.failed then pure (-1) else if msgid ≠ r.value then pure (-1) else pure 0

def setMsg (c : Counter) (msgid : Nat) (text : Bytes) : Act Int := do
  let r ← call (.hsetMsg c msgid text)
  if r.failed then pure (-1) else pure 0

variable (X : Externals)

/-- The common end of both message requests. -/
def storeMsg (p : Packet) (msgid : Nat) : Act Answer := do
  let tNow ← call .time
  let sPacket := X.serialize p msgid tNow.number
  if X.maxMsgLen < sPacket.length then pure ⟨2, "msg too long"⟩
  else do
    let iRet ← setMsg p.counter msgid (X.base64 sPacket)
    if iRet ≠ 0 then pure ⟨1, "msgdb error"⟩
    else do
      let _ ← call .push
      pure ⟨0, ""⟩

def processUpMsg (uin touin : Nat) (msg : Bytes) : Act Answer := do
  mark (.building (.pushMsg uin touin msg))
  let r ← setMsgID (.msgid touin)
  if r.1 ≠ 0 then pure ⟨1, "msgid error"⟩ else storeMsg X (.pushMsg uin touin msg) r.2

def processUpGrpMsg (uin grpid : Nat) (msg : Bytes) : Act Answer := do
  mark (.building (.pushGrpMsg uin grpid msg))
  let r ← setMsgID (.grpmsgid grpid)
  if r.1 ≠ 0 then pure ⟨1, "msgid error"⟩
  else do
    let _ ← setReadID (.grpreadid uin grpid) r.2
    storeMsg X (.pushGrpMsg uin grpid msg) r.2

def processAck (k : ReadKey) (msgid : Nat) : Act Answer := do
  let iRet ← setReadID k msgid
  if iRet ≠ 0 then pure ⟨1, "msgdb error"⟩ else pure ⟨0, ""⟩

def processPushMsgAck (uin msgid : Nat) : Act Answer := processAck (.readid uin) msgid

def processPushGrpMsgAck (uin grpid msgid : Nat) : Act Answer :=
  processAck (.grpreadid uin grpid) msgid

def processNoticeAck (uin noticeid : Nat) : Act Answer := processAck (.noticereadid uin) noticeid

/-- The parsed body of a request. -/
inductive Body where
  | upMsg (touin : Nat) (msg : Bytes)
  | upGrpMsg (grpid : Nat) (msg : Bytes)
  | pushMsgAck (msgid : Nat)
  | pushGrpMsgAck (grpid msgid : Nat)
  | noticeAck (noticeid : Nat)

/-- A request; `body` is absent when it does not parse. -/
structure Request where
  header : Header
  body : Option Body

def process (uin : Nat) : Body → Act Answer
  | .upMsg touin msg => processUpMsg X uin touin msg
  | .upGrpMsg grpid msg => processUpGrpMsg X uin grpid msg
  | .pushMsgAck msgid => processPushMsgAck uin msgid
  | .pushGrpMsgAck grpid msgid => processPushGrpMsgAck uin grpid msgid
  | .noticeAck noticeid => processNoticeAck uin noticeid

def program (q : Request) : Act Answer :=
  if !q.header.fdFound then pure ⟨1, "fd error"⟩
  else if q.header.fdUin ≠ q.header.uin then pure ⟨1, "uin dismatch"⟩
  else if !q.header.sessionFound then pure ⟨1, "session error"⟩
  else
    match q.body with
    | none => pure ⟨1, "parse packet error"⟩
    | some body => process X q.header.uin body

end Doorhinges.Messages

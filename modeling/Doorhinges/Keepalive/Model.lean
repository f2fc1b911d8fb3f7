import Doorhinges.Lib.CString
import Doorhinges.Lib.Redis
import Doorhinges.Lib.Program

/-!
# The connections to Redis

The connect machine of `redis_keepalive.cpp`, the functions of `hiredis.c` that its callers use,
and the five functions of `allais.c` that send a command. Every call of the system and every use
of a buffer of a context is one call, with the context as it is then. What happens to the sockets
of one attempt to connect is told by the reply as a whole.
-/
namespace Doorhinges.Keepalive

open Lib.CString
open Lib.Redis (Reply)
open Lib.Program

/-- The error codes of a context. -/
inductive Err where
  | io
  | other
  | eof
  | protocol
  | oom
  deriving DecidableEq

/-- A `redisContext`. The descriptor is absent where it is -1; `obuf` and `reader` say whether
the pointers are not null, `connected` and `block` are bits of the flags. -/
structure Context where
  err : Option Err
  fd : Option Nat
  connected : Bool
  block : Bool
  obuf : Bool
  reader : Bool
  deriving DecidableEq

inductive Server where
  | redis
  | slave
  deriving DecidableEq

inductive Command where
  | auth (password : Bytes)
  | data (text : Bytes)
  deriving DecidableEq

/-- What becomes of the socket for one address. -/
inductive Dial where
  | noSocket
  | noFcntl
  | unreachable
  | noDelay
  | dialled (fd : Nat)
  deriving DecidableEq

/-- The functions that send a command. -/
inductive Wrapper where
  | sendRedisCommand
  | redisCommandPending
  | slaveRedisCommandPending
  | slaveRedisCommandNopending
  | redisWriteLog
  deriving DecidableEq

/-- What is done with a context: one of these functions, a function of the connect machine, or
an append or a read of `get_ad` and `get_adbody`. -/
inductive Call where
  | wrapper (w : Wrapper) (text : Bytes)
  | asyncConnect (s : Server)
  | asyncHandleConnect
  | disConnect
  | append (text : Bytes)
  | getReply
  | command (text : Bytes)
  deriving DecidableEq

inductive Op where
  | enter (k : Call)
  | redisConnect (s : Server)
  | connectTcp (s : Server)
  | select
  | getsockopt
  | fcntl
  | setTimeout
  | close
  | append (c : Command)
  | write
  | takeReply
  | read
  deriving DecidableEq

/-- The answers of the system; `failed` is that of a function of hiredis which sets the error. -/
inductive Answer where
  | done
  | refused
  | timeout
  | opened (fd : Nat)
  | attempt (dials : Option (List Dial))
  | reply (r : Reply)
  | failed (e : Err)
  deriving DecidableEq

structure Cmd where
  ctx : Context
  op : Op
  deriving DecidableEq

abbrev Act (α : Type) := Prog Cmd Answer Empty α

def ask (c : Context) (op : Op) : Act Answer := call ⟨c, op⟩

section Connect

/-- The loop over the addresses. -/
def dialLoop (c : Context) : List Dial → Bool × Context
  | [] => (false, { c with err := some .other })
  | .noSocket :: dials | .unreachable :: dials => dialLoop c dials
  | .noFcntl :: _ | .noDelay :: _ => (false, { c with err := some .io })
  | .dialled fd :: _ => (true, { c with fd := some fd })

/-- `__ContextConnectTcp`, where the list of addresses may not be had. -/
def contextConnectTcp (c : Context) : Answer → Bool × Context
  | .attempt (some dials) => dialLoop c dials
  | _ => (false, { c with err := some .other })

/-- The result is not looked at. -/
def asyncConnect (s : Server) (c : Context) : Act Context := do
  let r ← ask { c with block := false } (.connectTcp s)
  pure (contextConnectTcp { c with block := false } r).2

def redisContextInit (c : Context) : Context := { c with err := none, obuf := true, reader := true }

def onConnect (c : Context) : Context := redisContextInit { c with connected := true }

/-- The socket has an error or tells none. -/
def giveUp (c : Context) : Act (Bool × Context) := do
  let _ ← ask { c with err := some .io } .close
  pure (false, { c with err := some .io, fd := none })

/-- Whether the result is `REDIS_OK`; it is too where `select` has not set the descriptor. -/
def asyncHandleConnect (c : Context) : Act (Bool × Context) := do
  match ← ask c .select with
  | .timeout => pure (false, c)
  | .refused => pure (true, c)
  | _ => do
    match ← ask c .getsockopt with
    | .done => pure (true, onConnect c)
    | _ => giveUp c

/-- The descriptor 0 is not closed. -/
def releaseResource (c : Context) : Act Context := do
  match c.fd with
  | some (_ + 1) => do
    let _ ← ask c .close
    pure { c with fd := none, obuf := false, reader := false }
  | _ => pure { c with obuf := false, reader := false }

def disConnect (c : Context) : Act Context := releaseResource { c with connected := false }

def reconnect (s : Server) (c : Context) : Act Context := do
  let c ← disConnect c
  asyncConnect s c

/-- `__SetBlocking` on the descriptor of the context; the result is not looked at. -/
def setBlocking (c : Context) : Act Context := do
  if (← ask c .fcntl) = .done then pure c
  else do
    let _ ← ask { c with err := some .io } .close
    pure { c with err := some .io }

def redisSetTimeout (c : Context) : Act Context :=
  if c.block then do
    if (← ask c .setTimeout) = .done then pure c else pure { c with err := some .io }
  else pure c

end Connect

section Hiredis

def redisAppend (c : Context) (cmd : Command) : Act (Bool × Context) := do
  let r ← ask c (.append cmd)
  if !c.obuf then .crash
  else
    match r with
    | .failed e => pure (false, { c with err := some e })
    | _ => pure (true, c)

/-- `redisGetReplyFromReader`; there may be no reply yet. -/
def replyFromReader (c : Context) : Act (Bool × Option Reply × Context) := do
  let r ← ask c .takeReply
  if !c.reader then .crash
  else
    match r with
    | .failed e => pure (false, none, { c with err := some e })
    | .reply r => pure (true, some r, c)
    | _ => pure (true, none, c)

/-- `redisBufferWrite` until it is done. -/
def bufferWrite (c : Context) : Act (Bool × Context) :=
  if c.err.isSome then pure (false, c)
  else do
    let r ← ask c .write
    if !c.obuf then .crash
    else
      match r with
      | .failed e => pure (false, { c with err := some e })
      | _ => pure (true, c)

/-- `redisBufferRead` until there is a reply. -/
def bufferRead (c : Context) : Act (Option Reply × Context) := do
  let r ← ask c .read
  if !c.reader then .crash
  else
    match r with
    | .failed e => pure (none, { c with err := some e })
    | .reply r => pure (some r, c)
    | _ => .crash

/-- The reply is absent where the result is `REDIS_ERR`, and where there is none yet for a
context that does not block. -/
def redisGetReply (c : Context) : Act (Option Reply × Context) := do
  let (ok, reply, c) ← replyFromReader c
  if !ok then pure (none, c)
  else if reply.isNone && c.block then do
    let (ok, c) ← bufferWrite c
    if ok then bufferRead c else pure (none, c)
  else pure (reply, c)

/-- `redisvCommand` and `redisCommandArgv`. -/
def redisCommand (c : Context) (cmd : Command) : Act (Option Reply × Context) := do
  let (ok, c) ← redisAppend c cmd
  if ok && c.block then redisGetReply c else pure (none, c)

end Hiredis

section Wrappers

def lost (c : Context) : Bool := c.err = some .io || c.err = some .eof

/-- The first part of all five functions: the function goes on where the context is connected. -/
def ensureConnected (s : Server) (auth : Context → Act (Bool × Context)) (c : Context) :
    Act (Bool × Context) :=
  if c.connected then pure (true, c)
  else do
    let (ok, c) ← asyncHandleConnect c
    if !ok then do
      let c ← reconnect s c
      pure (false, c)
    else if !c.connected then pure (false, c)
    else do
      let c ← setBlocking { c with block := true }
      let c ← redisSetTimeout c
      let (ok, c) ← auth c
      if ok then pure (true, c)
      else if lost c then do
        let c ← reconnect s c
        pure (false, c)
      else pure (false, c)

/-- A command and its reply. -/
def commandPending (s : Server) (c : Context) (cmd : Command) : Act (Option Reply × Context) := do
  let (reply, c) ← redisCommand c cmd
  if reply.isNone && lost c then do
    let c ← reconnect s c
    pure (none, c)
  else pure (reply, c)

/-- A command without its reply. -/
def commandNopending (s : Server) (c : Context) (cmd : Command) : Act Context := do
  let (_, c) ← redisAppend c cmd
  let (ok, c) ← bufferWrite c
  if ok then pure c else reconnect s c

variable (password : Option Bytes)

/-- `cliAuth`, with the function that it sends the password by. -/
def cliAuthBy (pending : Context → Command → Act (Option Reply × Context)) (c : Context) :
    Act (Bool × Context) :=
  match password with
  | none => pure (true, c)
  | some password => do
    let (reply, c) ← pending c (.auth password)
    pure (reply.isSome, c)

/-- The function and `cliAuth` call each other, to the given depth. -/
def slaveRedisCommandPending : Nat → Context → Command → Act (Option Reply × Context)
  | 0, _, _ => .crash
  | depth + 1, c, cmd => do
    let (ok, c) ←
      ensureConnected .slave (cliAuthBy password (slaveRedisCommandPending depth)) c
    if ok then commandPending .slave c cmd else pure (none, c)

variable (depth : Nat)

def cliAuth : Context → Act (Bool × Context) :=
  cliAuthBy password (slaveRedisCommandPending password depth)

def redisCommandPending (c : Context) (cmd : Command) : Act (Option Reply × Context) := do
  let (ok, c) ← ensureConnected .redis (cliAuth password depth) c
  if ok then commandPending .redis c cmd else pure (none, c)

/-- The part that `send_redis_command`, `slave_redis_command_nopending` and `redis_write_log`
share. -/
def nopending (s : Server) (c : Context) (cmd : Command) : Act Context := do
  let (ok, c) ← ensureConnected s (cliAuth password depth) c
  if ok then commandNopending s c cmd else pure c

def sendRedisCommand : Context → Command → Act Context := nopending password depth .redis

def slaveRedisCommandNopending : Context → Command → Act Context := nopending password depth .slave

def redisWriteLog : Context → Command → Act Context := nopending password depth .slave

def runWrapper (w : Wrapper) (c : Context) (cmd : Command) : Act Context :=
  match w with
  | .sendRedisCommand => sendRedisCommand password depth c cmd
  | .redisCommandPending => do
    let (_, c) ← redisCommandPending password depth c cmd
    pure c
  | .slaveRedisCommandPending => do
    let (_, c) ← slaveRedisCommandPending password depth c cmd
    pure c
  | .slaveRedisCommandNopending => slaveRedisCommandNopending password depth c cmd
  | .redisWriteLog => redisWriteLog password depth c cmd

def runCall (k : Call) (c : Context) : Act Context :=
  match k with
  | .wrapper w text => runWrapper password depth w c (.data text)
  | .asyncConnect s => asyncConnect s c
  | .asyncHandleConnect => do
    let (_, c) ← asyncHandleConnect c
    pure c
  | .disConnect => disConnect c
  | .append text => do
    let (_, c) ← redisAppend c (.data text)
    pure c
  | .getReply => do
    let (_, c) ← redisGetReply c
    pure c
  | .command text => do
    let (_, c) ← redisCommand c (.data text)
    pure c

/-- `get_redis_conn` and `get_sredis_conn`: no context where the connection or `cliAuth` fails. -/
def getConn (s : Server) : Act (Option Context) := do
  match ← ask ⟨none, none, false, true, false, false⟩ (.redisConnect s) with
  | .opened fd => do
    let (ok, c) ← cliAuth password depth ⟨none, some fd, true, true, true, true⟩
    if ok then do
      let c ← redisSetTimeout c
      pure (some { c with connected := true })
    else pure none
  | _ => pure none

def runCalls : List Call → Context → Act Context
  | [], c => pure c
  | k :: ks, c => do
    let _ ← ask c (.enter k)
    let c ← runCall password depth k c
    runCalls ks c

/-- All that is done with one context. -/
def session (s : Server) (ks : List Call) : Act (Option Context) := do
  match ← getConn password depth s with
  | some c => do
    let c ← runCalls password depth ks c
    pure (some c)
  | none => pure none

end Wrappers

/-- The answers that there are to a call. -/
def fits : Op → Answer → Bool
  | .enter _, .done => true
  | .redisConnect _, .opened _ | .redisConnect _, .refused => true
  | .connectTcp _, .attempt _ => true
  | .select, .done | .select, .refused | .select, .timeout => true
  | .getsockopt, .done | .getsockopt, .refused => true
  | .fcntl, .done | .fcntl, .refused => true
  | .setTimeout, .done | .setTimeout, .refused => true
  | .close, .done => true
  | .append _, .done | .append _, .failed .oom => true
  | .write, .done | .write, .failed .io => true
  | .takeReply, .done | .takeReply, .reply _ => true
  | .takeReply, .failed .protocol | .takeReply, .failed .oom => true
  | .read, .reply _ => true
  | .read, .failed .io | .read, .failed .eof => true
  | .read, .failed .protocol | .read, .failed .oom => true
  | _, _ => false

/-- The world is only what answers. -/
def answer (_ : Unit) (c : Cmd) (r : Answer) : Option Unit := if fits c.op r then some () else none

end Doorhinges.Keepalive

import Doorhinges.Lib.CString
import Doorhinges.Lib.Program

/-!
# The database connection pool

The pool of `db1.c` and the two functions that use it. The parts of
`db_alloc_conn` and `db_release_conn` under the mutex are one call each; the
library calls on a connection are separate calls, and the library decides how
they end.
-/
namespace Doorhinges.DbPool

open Lib.CString
open Lib.Program

inductive Status where
  | ide
  | busy
  deriving DecidableEq

/-- A pool entry; `conn` says whether its handle is set. -/
structure DbConn where
  conn : Bool
  status : Status
  deriving DecidableEq

/-- A row of a result; a NULL column is absent. -/
abbrev Row := List (Option Bytes)

inductive Cmd where
  | claimIde
  | testConn (i : Nat)
  | mysqlPing (i : Nat)
  | mysqlClose (i : Nat)
  | mysqlInit (i : Nat)
  | mysqlRealConnect (i : Nat)
  | mysqlErrno (i : Nat)
  | mysqlQuery (i : Nat) (sql : Bytes)
  | mysqlAffectedRows (i : Nat)
  | mysqlStoreResult (i : Nat)
  | setIde (i : Nat)
  | usleep
  deriving DecidableEq

inductive Reply where
  | done
  | index (o : Option Nat)
  | flag (b : Bool)
  | num (n : Int)
  | result (rows : Option (List Row))

def Reply.index? : Reply → Option Nat
  | .index o => o
  | _ => none

def Reply.isSet : Reply → Bool
  | .flag b => b
  | _ => false

def Reply.int : Reply → Int
  | .num n => n
  | _ => 0

def Reply.rows? : Reply → Option (List Row)
  | .result rows => rows
  | _ => none

def setStatus (st : Status) (e : DbConn) : DbConn := { e with status := st }

def setConn (b : Bool) (e : DbConn) : DbConn := { e with conn := b }

/-- What a call may answer and what it leaves of the pool. -/
def serve (pool : List DbConn) : Cmd → Reply → Option (List DbConn)
  | .claimIde, .index o =>
    if o = pool.findIdx? (·.status = .ide) then
      match o with
      | none => some pool
      | some i => some (pool.modify i (setStatus .busy))
    else none
  | .testConn i, .flag b => if (pool[i]?).map (·.conn) = some b then some pool else none
  | .mysqlPing _, .num _ => some pool
  | .mysqlClose i, .done => some (pool.modify i (setConn false))
  | .mysqlInit i, .flag b => some (pool.modify i (setConn b))
  | .mysqlRealConnect _, .flag _ => some pool
  | .mysqlErrno _, .num _ => some pool
  | .mysqlQuery _ _, .num _ => some pool
  | .mysqlAffectedRows _, .num _ => some pool
  | .mysqlStoreResult _, .result _ => some pool
  | .setIde i, .done => some (pool.modify i (setStatus .ide))
  | .usleep, .done => some pool
  | _, _ => none

abbrev Act := Prog Cmd Reply Empty

def RET_OK : Int := 0
def RET_ERR : Int := -1
def RET_OTHER : Int := 1
def MAX_TRY_COUNT : Nat := 5

/-- A call that `&&` or an `if` skips; `r` stands for its result then. -/
def callIf (b : Prop) [Decidable b] (c : Cmd) (r : Reply) : Act Reply :=
  if b then call c else pure r

def dbCloseConn (i : Nat) : Act Unit := do
  let set ← call (.testConn i)
  if set.isSet then do
    let _ ← call (.mysqlClose i)
    pure ()
  else pure ()

def dbCreateConn (i : Nat) : Act Int := do
  dbCloseConn i
  let conn ← call (.mysqlInit i)
  if conn.isSet then do
    let connected ← call (.mysqlRealConnect i)
    if connected.isSet then pure RET_OK
    else do
      let errno ← call (.mysqlErrno i)
      dbCloseConn i
      pure errno.int
  else pure RET_ERR

/-- The part of `db_alloc_conn` behind the claim of entry `i`. -/
def readyConn (i : Nat) : Act (Option Nat) := do
  let set ← call (.testConn i)
  let ping ← callIf set.isSet (.mysqlPing i) (.num (-1))
  if ping.int = 0 then pure (some i)
  else do
    let ret ← dbCreateConn i
    if ret = RET_OK then pure (some i)
    else do
      let _ ← call (.setIde i)
      pure none

/-- `tries` is what is left of `MAX_TRY_COUNT`. -/
def dbAllocConn : Nat → Act (Option Nat)
  | 0 => pure none
  | tries + 1 => do
    let r ← call .claimIde
    match r.index? with
    | some i => readyConn i
    | none => do
      let _ ← call .usleep
      dbAllocConn tries

def dbReleaseConn (gmaxConnNum index : Nat) : Act Unit :=
  if gmaxConnNum ≤ index then pure ()
  else do
    let _ ← call (.setIde index)
    pure ()

def dbExe (i : Nat) (sql : Bytes) : Act Int := do
  let r ← call (.mysqlQuery i sql)
  if r.int = 0 then pure RET_OK else pure RET_ERR

inductive DataType where
  | intType
  | longlongType
  | strType
  deriving DecidableEq

structure DataFmt where
  type : DataType
  len : Nat

inductive DataValue where
  | int (n : Int)
  | longlong (n : Int)
  | str (b : Bytes)
  deriving DecidableEq

/-- A column of a row as the caller's format asks for it; `strncpy` stops at the terminator. -/
def convert (fmt : DataFmt) (col : Option Bytes) : DataValue :=
  match fmt.type, col with
  | .intType, some b => .int (if 0 < strtol b then min (strtol b) 0x7fffffff else 0)
  | .longlongType, some b => .longlong (strtol b)
  | .strType, some b => .str ((b.takeWhile (· ≠ 0)).take fmt.len)
  | .intType, none => .int 0
  | .longlongType, none => .longlong 0
  | .strType, none => .str []

/-- What a caller gets back. -/
structure Outcome where
  ret : Int
  affectRows : Int
  rows : List (List DataValue)

def dbUpdateInsertDel (gmaxConnNum : Nat) (sql : Option Bytes) : Act Outcome :=
  match sql with
  | none => pure ⟨RET_ERR, 0, []⟩
  | some sql => do
    let pconn ← dbAllocConn MAX_TRY_COUNT
    match pconn with
    | none => pure ⟨RET_ERR, 0, []⟩
    | some index => do
      let ret ← dbExe index sql
      let affected ← callIf (ret = RET_OK) (.mysqlAffectedRows index) (.num 0)
      dbReleaseConn gmaxConnNum index
      let affectRows := toInt32 affected.int
      if ret = RET_ERR then pure ⟨RET_ERR, affectRows, []⟩
      else if affectRows > 0 then pure ⟨RET_OK, affectRows, []⟩
      else pure ⟨RET_OTHER, affectRows, []⟩

/-- `pdb` gives the formats of the columns, one row of them for each row asked for. -/
def dbSelect (gmaxConnNum : Nat) (sql : Option Bytes) (pdb : Option (List (List DataFmt))) :
    Act Outcome :=
  match sql, pdb with
  | some sql, some pdb => do
    let dbhandle ← dbAllocConn MAX_TRY_COUNT
    match dbhandle with
    | none => pure ⟨RET_ERR, 0, []⟩
    | some index => do
      let ret ← dbExe index sql
      let recordset ← callIf (ret = RET_OK) (.mysqlStoreResult index) (.result none)
      dbReleaseConn gmaxConnNum index
      match recordset.rows? with
      | none => pure ⟨RET_ERR, 0, []⟩
      | some recordset =>
        let rows := List.zipWith (List.zipWith convert) pdb recordset
        if rows.length = 0 then pure ⟨RET_OTHER, 0, rows⟩ else pure ⟨RET_OK, 0, rows⟩
  | _, _ => pure ⟨RET_ERR, 0, []⟩

/-- What a thread may run. -/
inductive Query where
  | updateInsertDel (sql : Option Bytes)
  | select (sql : Option Bytes) (pdb : Option (List (List DataFmt)))

def program (gmaxConnNum : Nat) : Query → Act Outcome
  | .updateInsertDel sql => dbUpdateInsertDel gmaxConnNum sql
  | .select sql pdb => dbSelect gmaxConnNum sql pdb

end Doorhinges.DbPool

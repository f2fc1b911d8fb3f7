import Doorhinges.AdBody.Model
import Doorhinges.GetAd.Model
import Doorhinges.Lib.Pipeline
import Mathlib.Logic.Function.Basic

/-!
# The commands of get_ad and get_adbody

Both functions append their commands to the connection of the request and read the replies
into variables. What they do in between is decided by the functions of before, on the
variables as they stand.
-/
namespace Doorhinges.GetAd

open Lib.CString
open Lib.Redis (Reply)
open Lib.Program
open Lib.Pipeline

/-- The variables for replies. -/
inductive ReplyVar where
  | sunionreply
  | sinterreply
  | existsreply
  | ipreply
  | lastHistoryreply
  | ipbytelist
  | appidReply
  | apptypeReply
  | uuidReply
  | debugipReply
  | localappReply
  | tempCoverageReply
  | countryReply
  | bodybyterepy
  | hsImageSize
  | sPutinModelTypereply
  deriving DecidableEq

def Query.var : Query → ReplyVar
  | .types _ => .sunionreply
  | .targeting _ => .sinterreply
  | .privates _ => .existsreply
  | .ipArea _ => .ipreply
  | .lastrequest _ _ => .lastHistoryreply
  | .country => .ipbytelist
  | .appLib _ _ => .appidReply
  | .appType _ => .apptypeReply
  | .tagUuid _ => .uuidReply
  | .debugip => .debugipReply
  | .localApp _ => .localappReply
  | .appTypes _ => .apptypeReply
  | .coverage _ => .tempCoverageReply
  | .areas _ => .ipbytelist
  | .countryAgain => .countryReply

/-- The queries of `get_ad` and the three commands of `get_adbody`. -/
inductive Command where
  | query (q : Query)
  | bodies (argv : List Bytes)
  | imageSize (adSpaceType : Bytes)
  | putinTypes (argv : List Bytes)

/-- The variable that the comment behind a command names. -/
def Command.var : Command → ReplyVar
  | .query q => q.var
  | .bodies _ => .bodybyterepy
  | .imageSize _ => .hsImageSize
  | .putinTypes _ => .sPutinModelTypereply

/-- A write past the end of an array, or an argument that `va_arg` reads and nobody passed. -/
inductive Undefined where
  | undefined

abbrev Act (R : Type) := Pipe Command ReplyVar R Undefined

variable {R : Type}

def undefined {α : Type} : Act R α := do
  mark .undefined
  .crash

abbrev Vars := ReplyVar → Option Reply

section GetAd

-- `obj` is the object that a read leaves in its variable
variable (obj : R → Option Reply) (c : Call)

def store (m : Vars) (rs : List (ReplyVar × R)) : Vars :=
  rs.foldl (fun m r => Function.update m r.1 (obj r.2)) m

/-- The variables stand for the replies. -/
def Call.received (m : Vars) : Call := { c with reply := fun q => m q.var }

/-- What is appended before the first reply is read. -/
def Call.burst : List Query :=
  (if 1 < c.types.length then [.types c.types] else []) ++
    [.targeting (if c.types.length = 1 then c.types else []),
      .privates (c.log.ppId.getD []),
      .ipArea c.log.ip,
      .lastrequest (c.log.uuid.getD []) (c.log.ppId.getD []),
      .country,
      .appLib (c.log.ppId.getD []) (c.log.appId.getD []),
      .appType (convertCategoryType (c.log.category.getD [])),
      .tagUuid (c.log.uuid.getD []),
      .debugip]

/-- The variables in the order in which they are read. -/
def Call.reads : List ReplyVar :=
  (if 1 < c.types.length then [.sunionreply] else []) ++
    [.sinterreply, .existsreply, .ipreply, .lastHistoryreply, .ipbytelist, .appidReply,
      .apptypeReply, .uuidReply, .debugipReply]

/-- `slave_redis_command_pending`, `redisCommandArgv`, and an append with its read. -/
def command (q : Query) (m : Vars) : Act R Vars := do
  let r ← ask Command.var (.query q)
  pure (Function.update m q.var (obj r))

/-- With a record of the app, its own ads are asked for and then those of its types. -/
def Call.askApp (m : Vars) : Act R Vars :=
  match (c.received m).addSets, (c.received m).appFields with
  | some (_, false), some fields => do
    let m ← command obj (.localApp (fields[2]?.getD [])) m
    if arrayReplyEmpty (m .localappReply) then
      command obj
        (.appTypes
          ((((fields[0]?.getD []).splitOn 44).take (MAX_DELIM_NUM - 1)).map convertCategoryType))
        m
    else pure m
  | _, _ => pure m

/-- The records of the ads' positions, for a request with a position. -/
def Call.askCoverage (m : Vars) : Act R Vars :=
  match (c.received m).survivors with
  | some (some (_, ads)) =>
    if (c.received m).debug = false ∧ c.log.lg ≠ [] ∧ c.log.lat ≠ [] then do
      let ids ← deref (texts ads)
      command obj (.coverage (ids.take (MAX_DEMli - 2))) m
    else pure m
  | _ => pure m

/-- The areas of the address, or the country where there is no record of it. -/
def Call.askArea (m : Vars) : Act R Vars :=
  match (c.received m).survivors with
  | some (some (cur, ads)) =>
    if (c.received m).debug then pure m
    else do
      let (_, n) ← deref ((c.received m).covered cur ads)
      if Hashtable.egHtEmpty n then
        match (c.received m).ipRecord with
        | some (some record) => command obj (.areas (c.areaTags record)) m
        | some none => pure m
        | none => command obj .countryAgain m
      else pure m
  | _ => pure m

/-- `get_ad` with its commands, and whether it has set `log->pp_id` to the debug id. -/
def Call.getAd : Act R (Result × Bool) :=
  if c.log.missing then pure (.nothing, false)
  else do
    let rs ← exchange (c.burst.map .query) c.reads
    let m ← c.askApp obj (store obj (fun _ => none) rs)
    let m ← c.askCoverage obj m
    let m ← c.askArea obj m
    let result ← deref (GetAd.getAd (c.received m))
    pure (result, result.chosen.isSome && (c.received m).debug)

end GetAd

section Format

/-- A conversion without a size modifier. -/
def isConversion (c : UInt8) : Bool := (ascii "diouxXeEfFgGaA").contains c

/-- `h`, `hh`, `l` or `ll` in front of an integer conversion. -/
def isSized : Bytes → Bool
  | 104 :: 104 :: c :: _ => (ascii "diouxX").contains c
  | 108 :: 108 :: c :: _ => (ascii "diouxX").contains c
  | 104 :: c :: _ => (ascii "diouxX").contains c
  | 108 :: c :: _ => (ascii "diouxX").contains c
  | _ => false

def skipFlag (s : Bytes) (flag : UInt8) : Bytes :=
  if s.head? = some flag then s.tail else s

/-- What stands behind the flags, the width and the precision of a conversion. -/
def skipWidth (s : Bytes) : Bytes :=
  let s := ((ascii "#0- +").foldl skipFlag s).dropWhile isDigit
  if s.head? = some 46 then s.tail.dropWhile isDigit else s

/-- The text behind a percent sign makes `redisvFormatCommand` read an argument. At the end of
the text `strchr` finds the terminator. -/
def takesArgument (s : Bytes) : Bool :=
  s.head? = some 115 || s.head? = some 98 ||
    match skipWidth s with
    | [] => true
    | c :: t => isConversion c || isSized (c :: t)

inductive Formatted where
  | command (argv : List Bytes)
  | invalid
  | undefined

/-- The words so far and the one that is being written. -/
abbrev Words := List Bytes × Option Bytes

def Words.char (w : Words) (c : UInt8) : Words := (w.1, some (w.2.getD [] ++ [c]))

def Words.plain (w : Words) (c : UInt8) : Words :=
  if c = 32 then (w.1 ++ w.2.toList, none) else w.char c

/-- `redisvFormatCommand` without arguments. -/
def redisvFormatCommand (w : Words) : Bytes → Formatted
  | [] => .command (w.1 ++ w.2.toList)
  | [c] => redisvFormatCommand (w.plain c) []
  | c :: d :: s =>
    if c = 37 then
      if d = 37 then redisvFormatCommand (w.char 37) s
      else if takesArgument (d :: s) then .undefined
      else .invalid
    else redisvFormatCommand (w.plain c) (d :: s)

end Format

section GetAdbody

open AdBody (Request Answer Text)

/-- `redisAppendCommand(c, text)`; a text that is no format sets the error of the context. -/
def redisAppendCommand (text : Bytes) (cmd : List Bytes → Command) (err : Bool) : Act R Bool :=
  match redisvFormatCommand ([], none) text with
  | .command argv => do
    append (cmd argv)
    pure err
  | .invalid => pure true
  | .undefined => undefined

/-- `redisGetReply` does not read in a context with an error. -/
def redisGetReply (obj : R → Option Reply) (x : ReplyVar) (err : Bool) : Act R (Option Reply) :=
  if err then pure none
  else do
    let r ← reply x
    pure (obj r)

variable (obj : R → Option Reply) (r : Request)

/-- The texts fit `buftmp` and the parameter buffer, and the list of ids ends in front of the
second text. -/
def commandsFit : Bool :=
  (r.mget r.log.format).length < 1024 && (r.mget (ascii "paymodeltype")).length < r.space &&
    r.listed

/-- The elements of the reply to an MGET. -/
def elements (n : Nat) : Option Reply → Option (Fin n → Option Text)
  | some (.array es) => some fun i => (es[i.val]?.join).map Text.of
  | _ => none

def sizes : Option Reply → Option (List Text)
  | some (.array es) => some (es.map fun e => Text.of (e.getD []))
  | _ => none

/-- The commands of `get_adbody` and their replies. -/
def adbodyReplies : Act R (Option Reply × Option Reply × Option Reply) :=
  if commandsFit r then do
    let err ← redisAppendCommand (r.mget r.log.format) .bodies false
    append (.imageSize r.log.adSpaceType)
    let err ← redisAppendCommand (r.mget (ascii "paymodeltype")) .putinTypes err
    let bodybyterepy ← redisGetReply obj .bodybyterepy err
    let hsImageSize ← redisGetReply obj .hsImageSize err
    let sPutinModelTypereply ← redisGetReply obj .sPutinModelTypereply err
    pure (bodybyterepy, hsImageSize, sPutinModelTypereply)
  else undefined

/-- The request with its replies. -/
def received (m : Option Reply × Option Reply × Option Reply) : Request :=
  { r with
    bodybyterepy := elements _ m.1
    hsImageSize := sizes m.2.1
    sPutinModelTypereply := elements _ m.2.2 }

/-- `get_adbody` with its commands. -/
def getAdbody : Act R Answer := do
  let m ← adbodyReplies obj r
  deref (AdBody.getAdbody (received r m))

end GetAdbody

end Doorhinges.GetAd

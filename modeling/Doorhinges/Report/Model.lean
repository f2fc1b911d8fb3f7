import Doorhinges.Query.Url

/-!
# The report request

`ais_report` up to the SQL text it builds. The connection object outlives its
requests: the parameter buffer and the pointers into it keep what earlier
requests left there. A byte of the buffer is absent where nothing may be read;
a result `none` is the use of a null pointer or of an absent byte.
-/
namespace Doorhinges.Report

open Lib.CString
open Query

inductive Code where
  | success
  | eCodeBult
  | keyEmptyParameterIllegal
  | startdateEmpty
  | startdateFormat
  | enddateEmpty
  | enddateFormat
  | signEmptyParameterIllegal
  | timestampEmptyParameterIllegal
  | parameterNotFull
  | parameterContainingIllegalCharacters
  | platformEmpty
  | platformError
  | dateSubErr
  | dateGtThree
  | pidInvalidParameterIllegal
  | connectError
  deriving DecidableEq

/-- A string pointer: a constant of the program or a place in the parameter buffer. -/
inductive Text where
  | const (s : Bytes)
  | param (p : Nat)

/-- `ais_adparams_report`, as far as the report sets it. -/
structure Apr where
  format : Text
  key : Option Nat
  startdate : Option Nat
  enddate : Option Nat
  sign : Option Nat
  timeStamp : Option Nat
  groupby : Option Nat
  flags : List Nat

/-- `AdPlatformProvider`. -/
structure App where
  platformProviderID : Option Nat
  showPutInPrice : Option Nat
  clickPutInPrice : Option Nat
  key : Option Nat
  secretKey : Option Nat
  callbackSource : Option Nat

/-- The connection object; `last` is `adparams_buf_last`. -/
structure Conn where
  buf : Nat → Option UInt8
  last : Nat
  apr : Apr
  app : App

def Conn.setByte (c : Conn) (p : Nat) (b : UInt8) : Option Conn :=
  if p < MAX_REQUEST_BUF_SIZE then
    some { c with buf := fun i => if i = p then some b else c.buf i }
  else none

/-- `my_strlcpy` of `len` bytes to the end of the buffer: the text up to its first
zero byte, zero bytes for the rest of its length, and a terminator. -/
def Conn.strlcpy (c : Conn) (s : Bytes) : Conn :=
  { c with
    buf := fun i =>
      if c.last ≤ i ∧ i ≤ c.last + s.length then some ((cstr s).getD (i - c.last) 0) else c.buf i
    last := c.last + s.length + 1 }

def Conn.readUpTo (c : Conn) : Nat → Nat → Option Bytes
  | 0, _ => none
  | n + 1, p =>
    match c.buf p with
    | none => none
    | some b => if b = 0 then some [] else (c.readUpTo n (p + 1)).map (b :: ·)

/-- The C string at a place of the buffer. -/
def Conn.str (c : Conn) (p : Nat) : Option Bytes := c.readUpTo MAX_REQUEST_BUF_SIZE p

def Conn.text (c : Conn) : Text → Option Bytes
  | .const s => some s
  | .param p => c.str p

/-- `reset_per_request_attributes`, which leaves `apr`, `app` and the buffer's content. -/
def resetPerRequestAttributes (c : Conn) : Conn := { c with last := 0 }

def paramsReport : List Bytes :=
  [ascii "format", ascii "key", ascii "startdate", ascii "enddate", ascii "sign",
    ascii "TimeStamp", ascii "groupby"]

/-- The result of `ais_adreport_set`: whether it is `AIS_OK`, and `where`. -/
structure Outcome where
  conn : Conn
  code : Code
  ok : Bool

/-- A parameter is copied to the buffer and its pointer set, if it may have this length. -/
def store (c : Conn) (i : Nat) (code : Code) (mayBeEmpty : Bool) (var : Bytes)
    (set : Nat → Apr → Apr) : Outcome :=
  if var = [] ∧ !mayBeEmpty then ⟨c, code, false⟩
  else if MAX_REQUEST_BUF_SIZE < c.last + var.length + 2 then ⟨c, code, false⟩
  else
    let apr := set c.last c.apr
    ⟨{ c.strlcpy var with apr := { apr with flags := i :: c.apr.flags } }, code, true⟩

def setParam (c : Conn) (i : Nat) (var : Bytes) : Outcome :=
  match i with
  | 0 => store c i .parameterNotFull true var fun p a => { a with format := .param p }
  | 1 => store c i .keyEmptyParameterIllegal false var fun p a => { a with key := some p }
  | 2 => store c i .startdateEmpty false var fun p a => { a with startdate := some p }
  | 3 => store c i .enddateEmpty false var fun p a => { a with enddate := some p }
  | 4 => store c i .signEmptyParameterIllegal false var fun p a => { a with sign := some p }
  | 5 => store c i .timestampEmptyParameterIllegal false var fun p a => { a with timeStamp := some p }
  | 6 => store c i .parameterNotFull true var fun p a => { a with groupby := some p }
  | _ => ⟨c, .parameterNotFull, false⟩

/-- One round of the loop of `ais_adreport_set`. -/
def setToken (c : Conn) (code : Code) (pk : Bytes) : Outcome :=
  match nameOf pk with
  | none => ⟨c, code, true⟩
  | some key =>
    match aisGetVar pk key 2048 with
    | none => ⟨c, .parameterContainingIllegalCharacters, false⟩
    | some var =>
      let i := getMask paramsReport key
      if i = paramsReport.length then ⟨c, code, true⟩
      else if i ∈ c.apr.flags then ⟨c, code, false⟩
      else setParam c i var

def setTokens (c : Conn) (code : Code) : List Bytes → Outcome
  | [] => ⟨c, code, true⟩
  | pk :: pks =>
    let o := setToken c code pk
    if o.ok then setTokens o.conn o.code pks else o

def aisAdreportSet (c : Conn) (buf : Bytes) : Outcome :=
  setTokens { c with apr := { c.apr with flags := [] } } .eCodeBult (tokens buf)

/-- Code that works on the connection object. -/
abbrev Act := StateT Conn Option

def byte (p : Nat) : Act UInt8 := fun c => (c.buf p).map fun b => (b, c)

def poke (p : Nat) (b : UInt8) : Act Unit := fun c => (c.setByte p b).map fun c => ((), c)

def str (p : Nat) : Act Bytes := fun c => (c.str p).map fun s => (s, c)

/-- A parameter's pointer, which must not be null. -/
def param (f : Apr → Option Nat) : Act Nat := fun c => (f c.apr).map fun p => (p, c)

def number (p : Nat) : Act Int := do
  let s ← str p
  pure (atoi s)

/-- The text that the format points to. -/
def format : Act Bytes := fun c =>
  match c.apr.format with
  | .const s => some (s, c)
  | .param p => (c.str p).map fun s => (s, c)

def setFormat (t : Text) : Act Unit := fun c =>
  some ((), { c with apr := { c.apr with format := t } })

def outcome (f : Conn → Outcome) : Act (Code × Bool) := fun c =>
  let o := f c
  some ((o.code, o.ok), o.conn)

def monthOrDayWrong (mon day : Int) : Bool := mon < 0 || 12 < mon || day < 0 || 31 < day

/-- The numbers of a date whose separators are replaced by terminators. -/
def dateNumbers (p : Nat) : Act (Int × Int × Int) := do
  poke (p + 4) 0
  poke (p + 7) 0
  let year ← number p
  let mon ← number (p + 5)
  let day ← number (p + 8)
  pure (year, mon, day)

/-- The part of `check_date` after the separators; only when it accepts are they put back. -/
def checkNumbers (start last : Nat) : Act Code := do
  let d1 ← dateNumbers start
  if monthOrDayWrong d1.2.1 d1.2.2 then pure .startdateFormat
  else do
    let d2 ← dateNumbers last
    if monthOrDayWrong d2.2.1 d2.2.2 then pure .enddateFormat
    else
      let rs := ((d2.1 - d1.1) * 12 + d2.2.1 - d1.2.1) * 30 + d2.2.2 - d1.2.2
      if rs < 0 then pure .dateSubErr
      else if 90 < rs then pure .dateGtThree
      else do
        poke (start + 4) 45
        poke (start + 7) 45
        poke (last + 4) 45
        poke (last + 7) 45
        pure .success

/-- The second separator of the end date is looked at only when the first is wrong. -/
def endSeparator (last : Nat) : Act UInt8 := do
  let e4 ← byte (last + 4)
  if e4 = 45 then pure e4 else byte (last + 7)

/-- `check_date` of the two parameters. -/
def checkDate : Act Code := do
  let start ← param (·.startdate)
  let s4 ← byte (start + 4)
  if s4 ≠ 45 then pure .startdateFormat
  else do
    let s7 ← byte (start + 7)
    if s7 ≠ 45 then pure .startdateFormat
    else do
      let last ← param (·.enddate)
      let sep ← endSeparator last
      if sep ≠ 45 then pure .enddateFormat else checkNumbers start last

/-- The answers that do not depend on rows of the database. -/
inductive Answer where
  | error (xml : Bool) (code : Code)
  | sql (text : Bytes)
  | undefined
  deriving DecidableEq

/-- `AIS_ERROR_FORMAT`. -/
def errorFormat (code : Code) : Act Answer := do
  let f ← format
  pure (.error (f.head? = some 120 || f.head? = some 88) code)

/-- The request until the platform is looked up: an answer, or the key. -/
def readRequest (bufr : Bytes) : Act (Answer ⊕ Bytes) := do
  setFormat (.const (ascii "json"))
  let r ← outcome fun c => aisAdreportSet c (cstr (urlDecode bufr MAX_REQUEST_BUF_SIZE true))
  if r.2 then do
    let f ← format
    setFormat (.const (if caseEq f (ascii "xml") then ascii "xml" else ascii "json"))
    let ret ← checkDate
    if ret ≠ .success then do
      let a ← errorFormat ret
      pure (.inl a)
    else do
      let key ← param (·.key)
      let k ← str key
      pure (.inr k)
  else do
    let a ← errorFormat r.1
    pure (.inl a)

/-- The reply of `HGET adplatform`: none, text that is not an object, or an object,
whose strings are absent where it lacks a field. -/
inductive Platform where
  | empty
  | notObject
  | object (platformProviderID showPutInPrice clickPutInPrice key secretKey callbackSource :
      Option Bytes)

structure Database where
  adplatform : Bytes → Platform
  connects : Bool

/-- `SET_ADSDK_FORMJSON`, which looks neither at a missing field nor at the room left. -/
def setAdsdk (field : Option Bytes) (set : Nat → App → App) (c : Conn) : Option Conn := do
  let s ← field
  if MAX_REQUEST_BUF_SIZE < c.last + s.length + 1 then none
  else some { c.strlcpy s with app := set c.last c.app }

def setPlatform (id show_ click key secret source : Option Bytes) (c : Conn) : Option Conn := do
  let c ← setAdsdk id (fun p a => { a with platformProviderID := some p }) c
  let c ← setAdsdk show_ (fun p a => { a with showPutInPrice := some p }) c
  let c ← setAdsdk click (fun p a => { a with clickPutInPrice := some p }) c
  let c ← setAdsdk key (fun p a => { a with key := some p }) c
  let c ← setAdsdk secret (fun p a => { a with secretKey := some p }) c
  setAdsdk source (fun p a => { a with callbackSource := some p }) c

def MAX_PID_NUM : Int := 10000000

def pidInvalid (pid : Bytes) : Bool :=
  !pid.all isDigit || atoi pid ≤ 0 || MAX_PID_NUM < atoi pid

def sqlText (start last pid : Bytes) : Bytes :=
  ascii "SELECT Convert(varchar(10),StatisticsDate,120) as StatisticsDate," ++
  ascii "SUM(Request) as request,SUM(Impression) as Impression,SUM(Click) as Click" ++
  ascii " FROM MasChargeStatistics with(readpast) where StatisticsDate between '" ++ start ++
  ascii "' and '" ++ last ++ ascii "' and ADPlatformID=" ++ pid ++ ascii " group by StatisticsDate"

/-- The comma that is cut off at the end still has to fit the array. -/
def sqlAnswer (text : Bytes) : Answer := if text.length + 2 ≤ 1000 then .sql text else .undefined

def pid : Act Bytes := fun c => (c.app.platformProviderID.bind c.str).map fun s => (s, c)

/-- The request after the platform is stored. -/
def buildSql (db : Database) : Act Answer := do
  let id ← pid
  if pidInvalid id then errorFormat .pidInvalidParameterIllegal
  else if !db.connects then errorFormat .connectError
  else do
    let start ← param (·.startdate)
    let s ← str start
    let last ← param (·.enddate)
    let e ← str last
    pure (sqlAnswer (sqlText s e id))

def answerFor (db : Database) (key : Bytes) : Act Answer :=
  match db.adplatform key with
  | .empty => errorFormat .platformEmpty
  | .notObject => errorFormat .platformError
  | .object id show_ click key secret source => fun c =>
    match setPlatform id show_ click key secret source c with
    | none => some (.undefined, c)
    | some c => buildSql db c

def aisReport (db : Database) (bufr : Bytes) : Act Answer := do
  let r ← readRequest bufr
  match r with
  | .inl a => pure a
  | .inr key => answerFor db key

/-- What a connection serves: a report, or something that is not a report. -/
inductive Request (κ : Type) where
  | report (bufr : Bytes)
  | other (k : κ)

/-- The answer of a report, after `process_command` has reset the connection. -/
def serveReport (db : Database) (c : Conn) (bufr : Bytes) : Option (Answer × Conn) :=
  aisReport db bufr (resetPerRequestAttributes c)

/-- The requests served before; the others may do anything to the connection. -/
def serveAll {κ : Type} (db : Database) (others : κ → Conn → Conn) :
    Conn → List (Request κ) → Option Conn
  | c, [] => some c
  | c, .report bufr :: rs => do
    let r ← serveReport db c bufr
    serveAll db others r.2 rs
  | c, .other k :: rs => serveAll db others (others k c) rs

/-- A connection object from the pool: zero bytes and null pointers. -/
def created : Conn where
  buf i := if i < MAX_REQUEST_BUF_SIZE then some 0 else none
  last := 0
  apr := ⟨.const [], none, none, none, none, none, none, []⟩
  app := ⟨none, none, none, none, none, none⟩

end Doorhinges.Report

import Doorhinges.Lib.Json
import Doorhinges.Lib.Logged
import Doorhinges.Lib.Xml
import Doorhinges.Report.Model

/-!
# The document of a report

The rows of the database become one text in a buffer of `MAX_REQUEST_BUF_SIZE` bytes. A run
logs where each write ends, its terminator included, as if the buffer had no end; the length
is tested when all is written.
-/
namespace Doorhinges.Report

open Lib
open Lib.CString
open Lib.Logged
open Query

/-- `flag`, the columns that the report is grouped by. Without `GROUP` there is none. -/
structure Flags where
  deviceType : Bool
  adspaceType : Bool
  client : Bool
  appId : Bool

/-- What `dbnextrow` leaves in the bound variables. -/
structure Row where
  dat : Bytes
  deviceType : Int
  adspaceType : Int
  client : Int
  appId : Bytes
  reQuest : Int
  imPression : Int
  click : Int

/-- `msgerror[SUCCESS]`. -/
def successCode : Bytes := ascii "100"

def successMsg : Bytes := [230, 136, 144, 229, 138, 159]

/-- `sprintf` at `ptr_buf`, which stands behind the text so far. -/
def sprintf (s text : Bytes) : Logged Nat Bytes := do
  tell (text.length + s.length + 1)
  pure (text ++ s)

def sprintfIf (b : Bool) (s text : Bytes) : Logged Nat Bytes :=
  if b then sprintf s text else pure text

/-- `snprintf` of 200 bytes to the start of the buffer. -/
def head (s : Bytes) : Logged Nat Bytes := do
  tell (min (s.length + 1) 200)
  pure (CString.snprintf 200 s)

/-- `my_strlcpy4`, which writes no terminator. -/
def strlcpy4 (s text : Bytes) : Logged Nat Bytes := do
  tell (text.length + s.length)
  pure (text ++ s)

def xmlHead : Bytes :=
  ascii "<?xml version=\"1.0\" encoding=\"utf-8\"?><result><status>" ++ successCode ++
    ascii "</status><msg>" ++ successMsg ++ ascii "</msg><data>"

def jsonHead : Bytes :=
  ascii "\x7b\"status\":\"" ++ successCode ++ ascii "\",\"msg\":\"" ++ successMsg ++
    ascii "\",\"data\":["

def xmlRow (flag : Flags) (r : Row) (text : Bytes) : Logged Nat Bytes := do
  let text ← sprintf (ascii "<info><date>" ++ r.dat ++ ascii "</date>") text
  let text ← sprintfIf flag.deviceType
    (ascii "<devicetype>" ++ decimal r.deviceType ++ ascii "</devicetype>") text
  let text ← sprintfIf flag.adspaceType
    (ascii "<adspacetype>" ++ decimal r.adspaceType ++ ascii "</adspacetype>") text
  let text ← sprintfIf flag.client (ascii "<client>" ++ decimal r.client ++ ascii "</client>") text
  let text ← sprintfIf flag.appId (ascii "<appid>" ++ r.appId ++ ascii "</appid>") text
  sprintf (ascii "<request>" ++ decimal r.reQuest ++ ascii "</request><impression>" ++
    decimal r.imPression ++ ascii "</impression><click>" ++ decimal r.click ++
    ascii "</click></info>") text

def jsonRow (flag : Flags) (r : Row) (text : Bytes) : Logged Nat Bytes := do
  let text ← sprintf (ascii "\x7b\"date\":\"" ++ r.dat ++ ascii "\",") text
  let text ← sprintfIf flag.deviceType
    (ascii "\"devicetype\":" ++ decimal r.deviceType ++ ascii ",") text
  let text ← sprintfIf flag.adspaceType
    (ascii "\"adspacetype\":" ++ decimal r.adspaceType ++ ascii ",") text
  let text ← sprintfIf flag.client (ascii "\"client\":" ++ decimal r.client ++ ascii ",") text
  let text ← sprintfIf flag.appId (ascii "\"appid\":\"" ++ r.appId ++ ascii "\",") text
  sprintf (ascii "\"request\":" ++ decimal r.reQuest ++ ascii ",\"impression\":" ++
    decimal r.imPression ++ ascii ",\"click\":" ++ decimal r.click ++ ascii "\x7d") text

/-- The loop over the rows. -/
def nextRows (row : Row → Bytes → Logged Nat Bytes) : List Row → Bytes → Logged Nat Bytes
  | [], text => pure text
  | r :: rows, text => do
    let text ← row r text
    nextRows row rows text

def document (xml : Bool) (flag : Flags) (rows : List Row) : Logged Nat Bytes :=
  if xml then do
    let text ← head xmlHead
    let text ← nextRows (xmlRow flag) rows text
    strlcpy4 (ascii "</data></result>") text
  else do
    let text ← head jsonHead
    let text ← nextRows (jsonRow flag) rows text
    strlcpy4 (ascii "]\x7d") text

inductive Output where
  | text (s : Bytes)
  | contextLong
  | undefined
  deriving DecidableEq

/-- The answer with the rows. `tmp_buf` is empty. The length is that up to a zero byte, which
the buffer has where the text does not fill it. -/
def output (xml : Bool) (flag : Flags) (rows : List Row) : Output :=
  let run := document xml flag rows
  match run.value with
  | none => .undefined
  | some text =>
    if run.log.all (· ≤ MAX_REQUEST_BUF_SIZE) ∧ text.length < MAX_REQUEST_BUF_SIZE then
      if MAX_REQUEST_BUF_SIZE < text.length then .contextLong else .text text
    else .undefined

end Doorhinges.Report

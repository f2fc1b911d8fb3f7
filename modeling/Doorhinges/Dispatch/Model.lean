import Doorhinges.Callback.Model
import Doorhinges.Cgi.Model

/-!
# Callbacks and click-throughs

What `process_command` does with a line, and the handlers `ais_callback` and `ais_imp_clk`
from the line on: the copy, the parameters and their checks, and then the callback proper.
A program gives off an answer where the source calls `out_string`.
-/
namespace Doorhinges.Dispatch

open Lib.CString
open Lib.Redis (Reply)
open Lib.Program
open Callback (Externals Request Mark Command debugPid)
open Cgi (Params mapCgiParams)

inductive Handler where
  | aisGet
  | aisWap
  | aisReport
  | aisImpClk
  | aisCallback
  | aisImpClkNew
  deriving DecidableEq

/-- `strncasecmp(s, line, strlen(s)) == 0`. -/
def startsWith (s : String) (line : Bytes) : Bool := caseEq (ascii s) (line.take (ascii s).length)

/-- The handler a line is given to; `rbytes` is what the buffer holds from it on. -/
def processCommand (command : Bytes) (rbytes : Nat) : Option Handler :=
  if rbytes > 2 ∧ command[1]? = some 38 ∧
      (command[0]? = some 97 ∨ command[0]? = some 99 ∨ command[0]? = some 114) then
    if command[0]? = some 97 then some .aisGet
    else if command[0]? = some 99 then some .aisWap
    else some .aisReport
  else if rbytes > 8 ∧ (startsWith "cgi=imp&" command ∨ startsWith "cgi=clk&" command) then
    some .aisImpClk
  else if rbytes > 10 ∧ (startsWith "cgi=cbimp&" command ∨ startsWith "cgi=cbclk&" command) then
    some .aisCallback
  else if rbytes > 2 ∧ command[1]? = some 38 ∧ (command[0]? = some 104 ∨ command[0]? = some 105) then
    some .aisImpClkNew
  else none

/-- The errors a request is refused with before the callback proper. -/
inductive Refusal where
  | illegalCharacters
  | sessionidEmpty
  | pidEmpty
  | pidInvalid
  | url302Empty
  deriving DecidableEq

def Refusal.code : Refusal → String
  | .illegalCharacters => "502"
  | .sessionidEmpty => "104"
  | .pidEmpty => "104"
  | .pidInvalid => "104"
  | .url302Empty => "104"

def Refusal.msg : Refusal → String
  | .illegalCharacters => "参数含非法字符"
  | .sessionidEmpty => "缺少参数（sessionid）"
  | .pidEmpty => "缺少参数（pid）"
  | .pidInvalid => "参数值非法（pid）"
  | .url302Empty => "缺少参数（url302）"

/-- `AIS_ERROR_FORMAT`; the format is that which `p->Format` points to. -/
def aisErrorFormat (format : Bytes) (e : Refusal) : String :=
  if format.head? = some 120 ∨ format.head? = some 88 then
    "<?xml version=\"1.0\" encoding=\"utf-8\"?><result><status>" ++ e.code ++ "</status><msg>" ++
      e.msg ++ "</msg><data></data></result>"
  else "\x7b\"status\":\"" ++ e.code ++ "\",\"msg\":\"" ++ e.msg ++ "\",\"data\":null\x7d"

inductive Event where
  | refused (text : String)
  | callback (m : Mark)
  | url (text : Bytes)

/-- The calls of `out_string`; the callback has two places for them. -/
def Event.answers : Event → Bool
  | .refused _ => true
  | .callback (.answer _) => true
  | .callback .quickAnswer => true
  | .callback _ => false
  | .url _ => true

abbrev Act := Prog Command (Option Reply) Event

/-- What a handler finds besides the line: the memory `malloc` gives to `Map_Cgi_Params`, the
format an earlier request has left, and what the callback proper takes from its environment. -/
structure Env where
  lexeme : Option Bytes
  format : Bytes
  day : Bytes
  hour : Int
  writeLog : Bool

def maxRequestBufSize : Nat := 16384

/-- The string in `buffer` after the `strncpy`; without a terminator there is none. -/
def copied (line : Bytes) (bufrLen : Nat) : Option Bytes :=
  if line.length < (if bufrLen < maxRequestBufSize then bufrLen else maxRequestBufSize) then some line
  else none

/-- `Map[name]`, which is empty for a name that is not there. -/
def valueOf (param : Params) (name : String) : Bytes := (param (ascii name)).getD []

def maxPidNum : Int := 10000000

def pidInvalid (pid : Bytes) : Bool :=
  pid ≠ debugPid && (!pid.all isDigit || atoi pid ≤ 0 || atoi pid > maxPidNum)

/-- The checks both handlers make, in their order. -/
def refusal (ret : Int) (param : Params) : Option Refusal :=
  if ret ≠ 0 then some .illegalCharacters
  else if valueOf param "sessionid" = [] then some .sessionidEmpty
  else if valueOf param "pid" = [] then some .pidEmpty
  else if pidInvalid (valueOf param "pid") then some .pidInvalid
  else none

/-- `ais_imp_clk` also needs the address to go to. -/
def refusalImpClk (ret : Int) (param : Params) : Option Refusal :=
  match refusal ret param with
  | some e => some e
  | none => if valueOf param "url302" = [] then some .url302Empty else none

/-- `aapc->callbacktype` by the parameter `cgi`; another value makes the handler return. -/
def callbacktype (shows clicks : String) (param : Params) : Option Bytes :=
  if valueOf param "cgi" = ascii shows then some (ascii "1")
  else if valueOf param "cgi" = ascii clicks then some (ascii "2")
  else none

/-- The answer of the callback is formatted when the line starts with one of three letters or
`cgi` has one of three values. -/
def replies (bufr : Bytes) (cgi : Bytes) : Bool :=
  bufr[0]? = some 99 || bufr[0]? = some 102 || bufr[0]? = some 103 || cgi = ascii "cbclk" ||
    cgi = ascii "cbimp" || cgi = ascii "callback"

def request (e : Env) (param : Params) (kind : Bytes) (replies : Bool) : Request :=
  { callbacktype := kind
    sessionid := valueOf param "sessionid"
    pid := valueOf param "pid"
    day := e.day
    hour := e.hour
    replies := replies
    writeLog := e.writeLog }

/-- The line is copied and cut into parameters. -/
def parameters (e : Env) (line : Bytes) (rbytes : Nat) : Option Cgi.Outcome :=
  (copied line rbytes).bind fun buffer => mapCgiParams (fun _ => none) (some buffer) e.lexeme

/-- `ais_callback` for a line that `process_command` gives to it. -/
def aisCallback (X : Externals) (e : Env) (line : Bytes) (rbytes : Nat) : Act Unit := do
  let o ← deref (parameters e line rbytes)
  match refusal o.ret o.param with
  | some r => mark (.refused (aisErrorFormat (ascii "json") r))
  | none =>
    match callbacktype "cbimp" "cbclk" o.param with
    | none => pure ()
    | some kind =>
      (Callback.aisCallback X (request e o.param kind (replies line (valueOf o.param "cgi")))).relabel
        .callback

/-- The callback that `ais_imp_clk` calls has no parameters of its own. -/
def aisImpClk (X : Externals) (e : Env) (line : Bytes) (rbytes : Nat) : Act Unit := do
  let o ← deref (parameters e line rbytes)
  match refusalImpClk o.ret o.param with
  | some r => mark (.refused (aisErrorFormat e.format r))
  | none =>
    match callbacktype "imp" "clk" o.param with
    | none => pure ()
    | some kind => do
      (Callback.aisCallback X (request e o.param kind (replies line []))).relabel .callback
      mark (.url (valueOf o.param "url302"))

/-- The program of the two handlers that this is about. -/
def handle (X : Externals) (e : Env) (line : Bytes) (rbytes : Nat) : Handler → Option (Act Unit)
  | .aisCallback => some (aisCallback X e line rbytes)
  | .aisImpClk => some (aisImpClk X e line rbytes)
  | _ => none

end Doorhinges.Dispatch

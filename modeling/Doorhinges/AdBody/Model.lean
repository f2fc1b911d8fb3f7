import Doorhinges.AdBody.Template
import Doorhinges.GetAd.AidList
import Mathlib.Data.List.TakeWhile

/-!
# The bodies of the selected advertisements

`get_adbody`: two parallel MGET replies and the packed list of ids are walked
together; each body that is there is substituted into the response, and a session
record is stored for it.
-/
namespace Doorhinges.AdBody

open Lib.CString
open Query
open GetAd (AIDLEN)

def DEBUGPID : Bytes := ascii "debug13"

def Text.of (b : Bytes) : Text := ⟨cstr b, cstr_nul b⟩

section NearByWidth

/-- The value of an int expression; absent where it overflows. -/
def int32 (n : Int) : Option Int := if -2 ^ 31 ≤ n ∧ n < 2 ^ 31 then some n else none

theorem int32_eq {n : Int} (h₀ : -2 ^ 31 ≤ n) (h : n < 2 ^ 31) : int32 n = some n := by
  rw [int32, if_pos ⟨h₀, h⟩]

theorem int32_overflow {n : Int} (h : 2 ^ 31 ≤ n) : int32 n = none := by
  rw [int32, if_neg (by omega)]

/-- `w * 100 / h`; absent with `h` 0. -/
def percent (w h : Int) : Option Int := do
  let product ← int32 (w * 100)
  if h = 0 then none else some (product.tdiv h)

/-- The percentage of a size; absent without an `X`. -/
def sizePercent (str : Bytes) : Option Int :=
  if 88 ∈ str then percent (atoi str) (atoi (str.dropWhile (· ≠ 88)).tail) else none

/-- One round of the loop of `near_by_width1`. -/
def nearer (sizes : List Text) (width per : Int) (s : Int × Nat) (i : Nat) :
    Option (Int × Nat) := do
  let str ← sizes[i]?
  if 88 ∈ str.1 then
    let tmp : Int := (← int32 (atoi str - width)).natAbs
    if tmp < s.1 then some (tmp, i)
    else if tmp = s.1 then do
      let old ← int32 ((← sizePercent (← sizes[s.2]?)) - per)
      let new ← int32 ((← sizePercent str) - per)
      some (s.1, if old.natAbs > new.natAbs then i else s.2)
    else some s
  else some s

/-- `near_by_width1` and `near_by_width2`, which differ in where the sizes come from. -/
def nearByWidth (sizes : List Text) (width high : Int) : Option Text :=
  if width = 0 ∨ high = 0 then sizes[0]?
  else do
    let per ← percent width high
    let s ← (List.range sizes.length).foldlM (nearer sizes width per) (2 ^ 31 - 1, 0)
    sizes[s.2]?

end NearByWidth

/-- `ais_logparams_t`, as far as `get_adbody` reads it. -/
structure Log where
  format : Text
  adSpaceType : Text
  ppId : Text
  appName : Text
  ip : Text
  adpPrice : Text
  appId : Text
  clinet : Text
  deviceType : Text
  uuid : Text
  sdkVer : Text
  osVer : Text
  deviceNum : Text
  density : Text
  pw : Text
  ph : Text
  lg : Text
  lat : Text
  opreator : Text
  net : Text
  key : Text
  category : Text
  timestamp : Text
  aw : Option Text
  ah : Option Text
  adnum : Nat
  aidList : Bytes

/-- The content of an `adsession` record. -/
structure AdSession where
  adId : Text
  platformProviderID : Text
  appName : Text
  sessionId : Text
  ip : Text
  callbackType : Text
  adSpaceType : Text
  adPlatformPrice : Text
  appId : Text
  client : Text
  deviceType : Text
  uuid : Text
  sdkVersion : Text
  osVersion : Text
  deviceNum : Text
  density : Text
  pw : Text
  ph : Text
  long : Text
  lat : Text
  operator : Text
  net : Text
  platformKey : Text
  category : Text

def AdSession.members (s : AdSession) : List (Bytes × Text) :=
  [(ascii "AdId", s.adId), (ascii "PlatformProviderID", s.platformProviderID),
    (ascii "AppName", s.appName), (ascii "SessionId", s.sessionId), (ascii "Ip", s.ip),
    (ascii "CallbackType", s.callbackType), (ascii "AdSpaceType", s.adSpaceType),
    (ascii "AdPlatformPrice", s.adPlatformPrice), (ascii "AppId", s.appId),
    (ascii "Client", s.client), (ascii "DeviceType", s.deviceType), (ascii "Uuid", s.uuid),
    (ascii "SdkVersion", s.sdkVersion), (ascii "Os_version", s.osVersion),
    (ascii "DeviceNum", s.deviceNum), (ascii "Density", s.density), (ascii "Pw", s.pw),
    (ascii "Ph", s.ph), (ascii "Long", s.long), (ascii "Lat", s.lat),
    (ascii "Operator", s.operator), (ascii "Net", s.net),
    (ascii "PlatformKey", s.platformKey), (ascii "Category", s.category)]

def AdSession.text (s : AdSession) : Bytes :=
  ascii "\x7b" ++
    (ascii ",").intercalate (s.members.map fun m =>
      ascii "\"" ++ m.1 ++ ascii "\":\"" ++ m.2 ++ ascii "\"") ++ ascii "\x7d"

/-- The arguments of a SETEX command. -/
structure Setex where
  key : Bytes
  seconds : Bytes
  value : Bytes

def AdSession.setex (s : AdSession) : Setex :=
  ⟨snprintf 1024 (ascii "adsession:" ++ s.sessionId), ascii "900",
    snprintf MAX_REQUEST_BUF_SIZE s.text⟩

/-- What the request has when `get_adbody` is called, and what the stores answer to it:
an MGET has one element for each id. `space` counts the bytes of the parameter buffer
from `adparams_buf_last` on. -/
structure Request where
  log : Log
  space : Nat
  platformProviderID : Option Text
  imgDomain : Option Text
  imgUrl : Option Text
  imgSize : List Text
  bodybyterepy : Option (Fin log.adnum → Option Text)
  hsImageSize : Option (List Text)
  sPutinModelTypereply : Option (Fin log.adnum → Option Text)
  uuid : Nat → Bytes
  md5 : Bytes → Bytes

def hexLower (n : UInt8) : UInt8 := if n < 10 then 48 + n else 87 + n

def bin2str (p : Bytes) : Bytes :=
  p.flatMap fun (b : UInt8) => [hexLower (b >>> 4), hexLower (b &&& 15)]

namespace Request

variable (r : Request)

/-- The string in a slot of the packed list of ids. -/
def aidAt (i : Nat) : Text := Text.of (r.log.aidList.drop (i * AIDLEN))

def mget (suffix : Bytes) : Bytes :=
  ascii "MGET" ++
    (List.range r.log.adnum).flatMap fun i => ascii " ad:" ++ (r.aidAt i).1 ++ ascii ":" ++ suffix

/-- The id in the last slot ends within it. Otherwise its text runs into the command that is
written behind the list, and its copy never ends. -/
def listed : Bool :=
  r.log.adnum = 0 ||
    ((r.log.aidList.take (r.log.adnum * AIDLEN)).drop ((r.log.adnum - 1) * AIDLEN)).contains 0

/-- The commands fit `buftmp` and the parameter buffer, the list of ids ends within its
slots, and the session id fits the parameter buffer. -/
def fits : Bool :=
  (r.mget r.log.format).length < 1024 && (r.mget (ascii "paymodeltype")).length < r.space &&
    r.listed && 33 ≤ r.space

def debug : Bool := caseEq r.log.ppId DEBUGPID

/-- The size text, absent when no bodies are wanted; the outer absence is a failure
within `near_by_width`. -/
def nearWidth : Option (Option Text) :=
  match r.log.aw, r.log.ah with
  | some aw, some ah =>
    match r.hsImageSize with
    | some (s :: sizes) => (nearByWidth (s :: sizes) (atoi aw) (atoi ah)).map some
    | _ =>
      if r.imgSize ≠ [] ∧ !caseEq (ascii "banner") r.log.adSpaceType then
        (nearByWidth r.imgSize (atoi aw) (atoi ah)).map some
      else some none
  | _, _ => some none

/-- The session id made from the `k`-th call of `uuid_generate`. -/
def sessionId (k : Nat) : Text := Text.of (bin2str (r.uuid k))

def env (sessionId : Text) : Env :=
  ⟨r.imgDomain, r.imgUrl, r.nearWidth.join, r.log.format, r.log.ppId, r.log.timestamp,
    sessionId⟩

def json : Bool := startsWith r.log.format 74 106

/-- The bytes of the parameter buffer behind the session id. -/
def room : Nat := r.space - 33

end Request

/-- One place of the id list and its elements of the two replies; the outer absence of
`putinType` is that of the whole reply. -/
structure Ad where
  aid : Text
  body : Option Text
  putinType : Option (Option Text)

def Request.ads (r : Request) : List Ad :=
  match r.bodybyterepy with
  | none => []
  | some element =>
    List.ofFn fun j => ⟨r.aidAt j, element j, r.sPutinModelTypereply.map (· j)⟩

/-- What the loop carries: `log->putin_type`, `log->pp_id`, `log->adnum`, the response up
to `sBody`, and the commands appended. -/
structure Loop where
  putinType : Text
  ppId : Text
  adnum : Nat
  sBody : Bytes
  sessions : List AdSession
  lastrequest : Option Setex

def Request.session (r : Request) (aid ppId sid putinType : Text) : AdSession :=
  { adId := aid, platformProviderID := ppId, appName := r.log.appName, sessionId := sid
    ip := r.log.ip, callbackType := putinType, adSpaceType := r.log.adSpaceType
    adPlatformPrice := r.log.adpPrice, appId := r.log.appId, client := r.log.clinet
    deviceType := r.log.deviceType, uuid := r.log.uuid, sdkVersion := r.log.sdkVer
    osVersion := r.log.osVer, deviceNum := r.log.deviceNum, density := r.log.density
    pw := r.log.pw, ph := r.log.ph, long := r.log.lg, lat := r.log.lat
    operator := r.log.opreator, net := r.log.net, platformKey := r.log.key
    category := r.log.category }

def Request.lastrequest (r : Request) (aid : Text) : Setex :=
  let md5 := r.md5 (ascii "Uuid=" ++ r.log.uuid ++ ascii "PlatformId=" ++ r.log.ppId)
  ⟨snprintf 1024 (ascii "mobile:" ++ md5 ++ ascii ":lastrequest"), ascii "1800", aid⟩

/-- The byte after a body that a further body leaves behind. -/
def Request.separator (r : Request) : UInt8 := if r.json then 44 else 0

def Request.append (r : Request) (adnum : Nat) (sBody body : Bytes) : Bytes :=
  if adnum = 0 then body else sBody ++ r.separator :: body

/-- The rest of one round of the loop, for an element that is there. -/
def Request.serve (r : Request) (s : Loop) (ad : Ad) (tp : Text) : Option Loop := do
  let element ← ad.putinType
  let body ← bodyOf (r.env (r.sessionId s.adnum)) tp
  let sBody := r.append s.adnum s.sBody body
  if sBody.length < r.room then
    let putinType := element.getD s.putinType
    some
      { putinType := putinType
        ppId := r.log.ppId
        adnum := s.adnum + 1
        sBody := sBody
        sessions :=
          s.sessions ++ [r.session ad.aid s.ppId (r.sessionId s.adnum) putinType]
        lastrequest := if s.adnum = 0 then some (r.lastrequest ad.aid) else s.lastrequest }
  else none

def Request.loop (r : Request) : Loop → List Ad → Option Loop
  | s, [] => some s
  | s, ad :: ads =>
    match ad.body with
    | none => r.loop s ads
    | some tp =>
      if r.room < s.sBody.length + tp.1.length + 500 then some s
      else (r.serve s ad tp).bind fun s => r.loop s ads

/-- The records in the order in which the loop writes them, also where a later step of it is
undefined. -/
def Request.recorded (r : Request) : Loop → List Ad → List AdSession
  | _, [] => []
  | s, ad :: ads =>
    match ad.body with
    | none => r.recorded s ads
    | some tp =>
      if r.room < s.sBody.length + tp.1.length + 500 then []
      else
        match ad.putinType with
        | none => []
        | some element =>
          r.session ad.aid s.ppId (r.sessionId s.adnum) (element.getD s.putinType) ::
            ((r.serve s ad tp).map fun s => r.recorded s ads).getD []

/-- What is returned and what is sent: `request` is the number added to the day's count. -/
structure Answer where
  body : Option Bytes
  sessions : List AdSession
  lastrequest : Option Setex
  request : Nat

def Answer.nothing : Answer := ⟨none, [], none, 0⟩

def Request.start (r : Request) : Loop :=
  { putinType := Text.of []
    ppId := if r.debug then r.platformProviderID.getD (Text.of []) else r.log.ppId
    adnum := 0
    sBody := []
    sessions := []
    lastrequest := none }

def Loop.answer (s : Loop) : Answer :=
  if s.adnum = 0 then .nothing else ⟨some (cstr s.sBody), s.sessions, s.lastrequest, s.adnum⟩

def getAdbody (r : Request) : Option Answer :=
  if !r.fits then none
  else
    match r.nearWidth with
    | none => none
    | some none => some .nothing
    | some (some _) => (r.loop r.start r.ads).map Loop.answer

/-- The records of a call. -/
def Request.allRecorded (r : Request) : List AdSession :=
  if !r.fits then []
  else
    match r.nearWidth with
    | some (some _) => r.recorded r.start r.ads
    | _ => []

end Doorhinges.AdBody

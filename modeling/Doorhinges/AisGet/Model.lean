import Doorhinges.Dispatch.Model
import Doorhinges.GetAd.Commands
import Doorhinges.Lib.Runs
import Doorhinges.Params.Signed

/-!
# ais_get

The handler of an advertisement request, from the bytes in the read buffer to its answer. It
decodes all that is buffered, of which the request line is the first part, and reads the
result as a string.
-/
namespace Doorhinges.AisGet

open Lib.CString
open Lib.Redis (Reply)
open Lib.Program
open Lib.Pipeline (Op)
open Lib.Runs (through)
open Query
open Params (Param Ap aisAdSet cutMarker)
open AdBody (AdSession Text Setex)
open GetAd (ReplyVar)

section Decode

/-- `url_decode` of the first `n` bytes of a memory; behind a percent sign it looks ahead
further than that. -/
def urlDecodeIn : Nat → Bytes → Bytes
  | 0, _ => []
  | _, [] => []
  | n + 1, c :: a :: b :: mem =>
    if c = 37 && isXDigit a && isXDigit b then (hexToI a <<< 4 ||| hexToI b) :: urlDecodeIn (n - 2) mem
    else plainByte false true c :: urlDecodeIn n (a :: b :: mem)
  | n + 1, c :: mem => plainByte false true c :: urlDecodeIn n mem

/-- What stands in the read buffer behind the terminator of a line: the bytes of the requests
that follow, and then what the buffer holds from before. -/
structure Following where
  bytes : Bytes
  stale : Bytes

variable (line : Bytes) (f : Following)

def Following.mem : Bytes := line ++ 0 :: (f.bytes ++ f.stale)

def Following.rbytes : Nat := line.length + 1 + f.bytes.length

/-- `buffer` once it is decoded; behind the terminator is what the stack holds. -/
def bufferOf (stack : Bytes) : Bytes :=
  (urlDecodeIn (f.rbytes line) (f.mem line)).take (MAX_REQUEST_BUF_SIZE - 1) ++ 0 :: stack

/-- The place nine bytes behind the start of the marker. -/
def uuidPlace (buffer : Bytes) : Nat := (cutMarker (cstr buffer)).length + 9

/-- The string there, where there is a marker. -/
def uuidOf (buffer : Bytes) : Option Bytes :=
  if cutMarker (cstr buffer) = cstr buffer then none
  else some (cstr (buffer.drop (uuidPlace buffer)))

/-- What `ais_get` takes from the line, and where the id behind the marker begins. -/
@[ext]
structure Parsed where
  ap : Ap × Bool
  uuid : Option Bytes
  place : Nat

def parse (stack : Bytes) : Parsed :=
  let buffer := bufferOf line f stack
  ⟨aisAdSet .start (cutMarker (cstr buffer)), uuidOf buffer, uuidPlace buffer⟩

end Decode

/-- `AdPlatformProvider`. -/
structure App where
  platformProviderID : Bytes
  showPutInPrice : Bytes
  clickPutInPrice : Bytes
  key : Bytes
  secretKey : Bytes
  callbackSource : Bytes

/-- What the JSON of a platform is; a member that is not there is a null pointer. -/
inductive AppJson where
  | notObject
  | lacksMember
  | app (a : App)

/-- The configuration, the clock, what the handler calls, and what its buffers hold from
before. -/
structure Env where
  openTimestamp : Bool
  openSign : Bool
  time : Int
  day : Bytes
  parseApp : Bytes → AppJson
  positive : Bytes → Bool
  md5 : Bytes → Bytes
  near : Bytes → Bytes → Bytes → Bytes → Bytes → Bool
  rand : Nat
  nodes : Nat → Hashtable.Bucket Nat Bytes Nat
  arr : Nat → Bytes
  imgDomain : Option Text
  imgUrl : Option Text
  imgSize : List Text
  uuid : Nat → Bytes
  stack : Bytes
  adparamsBuf : Nat → UInt8

inductive Error where
  | params (c : Params.Code)
  | parametrerNotfull
  | platformEmpty
  | platformError
  | timestampExpired
  | signNotmatch
  | pidInvalid
  | adplatformpriceNo
  | adNofind
  | bodyNofind

inductive Answer where
  | error (e : Error) (format : Option Bytes)
  | keyMissing
  | ads (body : Bytes) (format : Option Bytes) (asList : Bool)
  | requiredMissing

/-- `overlap` is a record that is written over the text it is made from. -/
inductive Event where
  | answer (a : Answer)
  | undefined
  | overlap

inductive Action where
  | platform (key : Bytes)
  | price (pid day : Bytes) (client deviceType adSpaceType : Option Bytes)
  | ads (op : Op GetAd.Command ReplyVar)
  | setex (s : Setex)
  | hincrby (key field : Bytes) (n : Nat)

abbrev Act := Prog Action (Option Reply) Event

section Checks

/-- `replace_illegal_char` for one text. -/
def replaceIllegalChar (t : Bytes) : Bytes :=
  t.map fun c => if c = 44 ∨ c = 34 ∨ c = 10 ∨ c = 13 then 32 else c

/-- The texts of the record as `ais_get` goes on with them. -/
def texts (c : Ap) (p : Param) : Option Bytes := (c.final p).map replaceIllegalChar

/-- `p->Format` before `ais_ad_set` has succeeded. -/
def formatSoFar (c : Ap) : Option Bytes :=
  (c.text .format).map fun f => if caseEq f (ascii "xml") then ascii "xml" else ascii "json"

/-- `AIS_ADPARAMS_REQUIRE_MASK`. -/
def required : List Param :=
  [.key, .uuid, .client, .operator, .ip, .category, .adSpaceType, .aw, .ah, .timeStamp, .sign,
    .appId]

/-- A request that has passed all checks. -/
structure Ready where
  ap : Ap
  app : App
  timeStamp : Bytes
  price : Bytes

def refuse (e : Error) (format : Option Bytes) : Act (Option Ready) := do
  mark (.answer (.error e format))
  pure none

def App.isSdk (a : App) : Bool := a.callbackSource.head? = some 50

def pidInvalid (pid : Bytes) : Bool :=
  !pid.all isDigit || atoi pid ≤ 0 || atoi pid > Dispatch.maxPidNum

/-- The time stamp loses its fraction where it is checked. -/
def timeStampOf (E : Env) (a : App) (c : Ap) : Bytes :=
  let t := (texts c .timeStamp).getD []
  if E.openTimestamp && !a.isSdk then t.takeWhile (· ≠ 46) else t

def expired (E : Env) (a : App) (c : Ap) : Bool :=
  E.openTimestamp && !a.isSdk && 900 < (E.time - atoi (timeStampOf E a c)).natAbs

def signWrong (E : Env) (a : App) (c : Ap) : Bool :=
  E.openSign &&
    some (E.md5 (Params.aisMd5 (Params.qsort c.parray) a.secretKey)) ≠ texts c .sign

/-- The price of the platform, where it has one. -/
def priceOf (E : Env) : Option Reply → Option Bytes
  | some (.str s) => if E.positive s then some s else none
  | _ => none

def daytotal (pid day : Bytes) : Bytes := snprintf 255 (ascii "daytotal:" ++ pid ++ ascii ":" ++ day)

/-- The checks of the platform. -/
def checkApp (E : Env) (c : Ap) (a : App) : Act (Option Ready) :=
  let format := texts c .format
  if expired E a c then refuse .timestampExpired format
  else if signWrong E a c then refuse .signNotmatch format
  else if pidInvalid a.platformProviderID then refuse .pidInvalid format
  else do
    let reply ← call (.price a.platformProviderID E.day (texts c .client) (texts c .deviceType)
      (texts c .adSpaceType))
    match priceOf E reply with
    | none => do
      mark (.answer (.error .adplatformpriceNo format))
      send (.hincrby (daytotal a.platformProviderID E.day) (ascii "request_kpi") 1)
      pure none
    | some price => pure (some ⟨c, a, timeStampOf E a c, price⟩)

/-- `ais_get` up to the search for ads, after the line has been parsed. -/
def check (E : Env) (r : Ap × Bool) : Act (Option Ready) :=
  if r.2 = false then refuse (.params r.1.code) (formatSoFar r.1)
  else if ¬ required.all (· ∈ r.1.flags) then refuse .parametrerNotfull (texts r.1 .format)
  else
    match texts r.1 .key with
    | none => do
      mark (.answer .keyMissing)
      pure none
    | some key => do
      -- `get_app`
      let reply ← call (.platform key)
      match reply with
      | some (.str s) =>
        match E.parseApp s with
        | .notObject => refuse .platformError (texts r.1 .format)
        | .lacksMember => .crash
        | .app a => checkApp E r.1 a
      | _ => refuse .platformEmpty (texts r.1 .format)

end Checks

section Serve

variable (E : Env) (r : Ready) (uuid : Option Bytes) (place : Nat)

/-- The id behind the marker takes the place of the parameter for a request of the SDK. -/
def fromMarker : Bool := r.app.isSdk && uuid.isSome

def uuidUsed : Option Bytes := if fromMarker r uuid then uuid else texts r.ap .uuid

/-- The bytes of the parameter buffer that are used when the ids have been listed. -/
def used (ids : List Bytes) : Nat :=
  r.ap.last + (r.app.platformProviderID.length + 1) + (r.app.showPutInPrice.length + 1) +
    (r.app.clickPutInPrice.length + 1) + (r.app.key.length + 1) + (r.app.secretKey.length + 1) +
    (r.app.callbackSource.length + 1) + (r.price.length + 1) + ids.length * GetAd.AIDLEN

/-- The parameter buffer from `adparams_buf_last` on, where `get_ad` is called. -/
def paramsLeft : Bytes :=
  (List.range (MAX_REQUEST_BUF_SIZE - used r [])).map fun i => E.adparamsBuf (used r [] + i)

def adnumOf (c : Ap) : Nat :=
  match texts c .adNum with
  | none => 1
  | some t => if atoi t > 0 then (atoi t).toNat else 1

/-- `init_logparams`, as far as `get_ad` reads it. -/
def adCall (ip : Bytes) : GetAd.Call where
  log :=
    { ppId := some r.app.platformProviderID, appId := texts r.ap .appId
      category := texts r.ap .category, uuid := uuidUsed r uuid
      clinet := texts r.ap .client, opreator := texts r.ap .operator
      adSpaceType := texts r.ap .adSpaceType, deviceType := texts r.ap .deviceType
      ip := ip, lg := (texts r.ap .long).getD [], lat := (texts r.ap .lat).getD []
      adnum := adnumOf r.ap }
  types := []
  reply := fun _ => none
  near := E.near
  rand := E.rand
  nodes := E.nodes
  arr := E.arr
  buffer := paramsLeft E r

def textOf (p : Param) : Text := Text.of ((texts r.ap p).getD [])

/-- `init_logparams` and what `get_ad` adds, as far as `get_adbody` reads it. -/
def bodyRequest (ip : Bytes) (ids : List Bytes) (debug : Bool) : AdBody.Request where
  log :=
    { format := textOf r .format, adSpaceType := textOf r .adSpaceType
      ppId := Text.of (if debug then AdBody.DEBUGPID else r.app.platformProviderID)
      appName := textOf r .appName, ip := Text.of ip, adpPrice := Text.of r.price
      appId := textOf r .appId, clinet := textOf r .client, deviceType := textOf r .deviceType
      uuid := Text.of ((uuidUsed r uuid).getD []), sdkVer := textOf r .sdkVersion
      osVer := textOf r .osVersion, deviceNum := textOf r .deviceNum
      density := textOf r .density, pw := textOf r .pw, ph := textOf r .ph
      lg := textOf r .long, lat := textOf r .lat, opreator := textOf r .operator
      net := textOf r .net, key := Text.of r.app.key, category := textOf r .category
      timestamp := Text.of r.timeStamp, aw := (texts r.ap .aw).map Text.of
      ah := (texts r.ap .ah).map Text.of, adnum := ids.length
      aidList := (GetAd.fillAids 0 ids (paramsLeft E r)).getD [] }
  space := MAX_REQUEST_BUF_SIZE - used r ids
  platformProviderID := some (Text.of r.app.platformProviderID)
  imgDomain := E.imgDomain
  imgUrl := E.imgUrl
  imgSize := E.imgSize
  bodybyterepy := none
  hsImageSize := none
  sPutinModelTypereply := none
  uuid := E.uuid
  md5 := E.md5

/-- A session record is written to the start of `buffer`, and it reaches the place. -/
def covers (s : AdSession) : Bool := place ≤ s.setex.value.length

/-- A program of `get_ad` or `get_adbody` on the connection of the request. -/
def onSlave {α : Type} (p : GetAd.Act (Option Reply) α) : Act α :=
  (through Action.ads p).relabel fun _ => Event.undefined

/-- The records of the ads that are served; the last request is stored with the first. -/
def sendRecords (out : AdBody.Answer) : Act Unit :=
  match out.sessions with
  | [] => pure ()
  | s :: ss => do
    send (.setex s.setex)
    match out.lastrequest with
    | none => pure ()
    | some l => send (.setex l)
    ss.foldlM (fun _ s => send (.setex s.setex)) ()

def dayKey (debug : Bool) : Bytes :=
  if debug then snprintf 255 (ascii "debug:" ++ r.app.platformProviderID ++ ascii ":" ++ E.day)
  else daytotal r.app.platformProviderID E.day

/-- `get_adbody` and the answer. -/
def answerWith (ip : Bytes) (ids : List Bytes) (debug : Bool) : Act Unit := do
  let q := bodyRequest E r uuid ip ids debug
  let replies ← onSlave (GetAd.adbodyReplies id q)
  let q := GetAd.received q replies
  if fromMarker r uuid && q.allRecorded.any (covers place) then do
    mark .overlap
    .crash
  else do
    let out ← deref (AdBody.getAdbody q)
    sendRecords out
    match out.body with
    | none => mark (.answer (.error .bodyNofind (texts r.ap .format)))
    | some body => do
      send (.hincrby (dayKey E r debug) (ascii "request") out.request)
      mark (.answer (.ads body (texts r.ap .format) (texts r.ap .adNum).isSome))

/-- The rest of `ais_get`. -/
def serve : Act Unit := do
  let ip ← deref (texts r.ap .ip)
  onlyIf (adCall E r uuid ip).log.missing (mark (.answer .requiredMissing))
  let (result, debug) ← onSlave ((adCall E r uuid ip).getAd id)
  match result.chosen with
  | none => do
    send (.hincrby (dayKey E r debug) (ascii "request_valid") 1)
    mark (.answer (.error .adNofind (texts r.ap .format)))
  | some ids => do
    let _ ← deref result.aids
    answerWith E r uuid place ip ids debug

end Serve

def aisGet (E : Env) (p : Parsed) : Act Unit := do
  let ready ← check E p.ap
  match ready with
  | none => pure ()
  | some r => serve E r p.uuid p.place

end Doorhinges.AisGet

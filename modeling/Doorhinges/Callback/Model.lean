import Doorhinges.Lib.Program
import Doorhinges.Lib.Redis

/-!
# ais_callback

The Redis part of the show and click callbacks, from the session lookup on. The
program follows the source branch by branch; a `break` out of the switch on a
missing reply returns the outcome collected so far. Commands of
`redis_command_pending` and `slave_redis_command_pending` wait for their reply
(absent when the command fails), those of `send_redis_command` and
`slave_redis_command_nopending` are sent and forgotten.
-/
namespace Doorhinges.Callback

open Lib.CString
open Lib.Redis (Cmd Reply)
open Lib.Program

/-- The key formats of the callback. -/
inductive RedisKey where
  | adsession (sessionId : Bytes)
  | sLock (sessionId : Bytes)
  | cLock (sessionId : Bytes)
  | shown (sessionId : Bytes)
  | shownum (uuidKey : Bytes)
  | clicknum (day : Bytes)
  | adplatform
  | adOrderid (adId : Bytes)
  | adPutinmodeltype (adId : Bytes)
  | adPrice (adId : Bytes)
  | orderShowfre (orderId : Bytes)
  | orderClkfrestate (orderId : Bytes)
  | orderClickfre (orderId : Bytes)
  | orderAdlist (orderId : Bytes)
  | orderFredays (orderId : Bytes)
  | orderMoney (orderId : Bytes)
  | freOrderidShow (orderId day : Bytes)
  | freOrderidClick (orderId day : Bytes)
  | freOverShow (orderId : Bytes)
  | freOverClick (orderId : Bytes)
  | tagUuid (uuid : Bytes)
  | tomssqladid
  | usedmoneyDay (orderId : Bytes)
  | usedmoneyAdDay (orderId adId : Bytes)
  | usedmoneyHours (orderId day : Bytes)
  | usedmoneyAdHours (orderId adId day : Bytes)
  | notbudgetsday (orderId : Bytes)
  | report (text : Bytes)
  deriving DecidableEq

/-- The members of the session record that the callback reads. -/
structure AdSession where
  adId : Bytes
  sessionId : Bytes
  callbackType : Bytes
  appId : Bytes
  uuid : Bytes
  ip : Bytes
  platformKey : Bytes
  deriving DecidableEq

/-- The member of the platform record that the callback reads. -/
structure AdPlatform where
  platformProviderID : Bytes
  deriving DecidableEq

/-- What the callback takes from libraries: the JSON parser applied to the two
kinds of record (`none` when the text is no object), the MD5 text, and `%f` of
the negated value of a decimal text. -/
structure Externals where
  parseSession : Bytes → Option AdSession
  parsePlatform : Bytes → Option AdPlatform
  md5 : Bytes → Bytes
  negatedFloat : Bytes → Bytes

/-- A callback request once its parameters have been checked. `day` is the date
as `%Y-%m-%d`; `replies` says whether the request asks for a status answer. -/
structure Request where
  callbacktype : Bytes
  sessionid : Bytes
  pid : Bytes
  day : Bytes
  hour : Int
  replies : Bool
  writeLog : Bool

inductive MsgCode where
  | sessionidNofind
  | platformEmpty
  | platformError
  | success
  deriving DecidableEq

inductive Kind where
  | shown
  | click
  deriving DecidableEq

/-- The parameters of a click that its day counter is kept for. -/
structure ClickKey where
  appId : Bytes
  uuid : Bytes
  adId : Bytes
  pid : Bytes
  ip : Bytes
  deriving DecidableEq

/-- What the callback does besides talking to Redis, and the points of it that
the charging properties speak about. -/
inductive Mark where
  | answer (code : MsgCode)
  | quickAnswer
  | logged (level : Int) (isCheat isBilling : Bool)
  | accepted (sessionId : Bytes)
  | deductMoney (kind : Kind) (sessionId : Bytes)
  | masclick (sessionId day : Bytes) (key : ClickKey)
  deriving DecidableEq

abbrev Command := Cmd RedisKey
abbrev Act := Prog Command (Option Reply) Mark

/-- The state the switch leaves for the log record. -/
structure Outcome where
  nIsCheat : Int
  bIsBilling : Bool
  sProcessNode : Int

def debugPid : Bytes := ascii "debug13"

def IMP_SHOW_VALID : Int := 1
def IMP_SHOW_INVALID : Int := 2

/-- `if (reply && reply->type == REDIS_REPLY_STRING)`. -/
def stringReply (r : Option Reply) : Option Bytes := r.bind (·.str?)

def isNil (r : Reply) : Bool := r = .nil

def hincrbyOne (text : Bytes) (field : String) : Command := .hincrby (.report text) (ascii field) 1

/-- The loop from the last element of a reply to its first. -/
def saddAll (uuid : Bytes) : List (Option Bytes) → Act Unit
  | [] => pure ()
  | e :: es => do
    let m ← deref e
    send (.sadd (.tagUuid uuid) m)
    saddAll uuid es

/-- `strstr` finds `t` in `s`. -/
def contains (s t : Bytes) : Bool := s.tails.any fun u => t.isPrefixOf u

/-- `%02d`. -/
def twoDigits (h : Int) : Bytes := if (decimal h).length < 2 then 48 :: decimal h else decimal h

/-- The spending per ad or per hour, by the put-in model. -/
def deductByModel (orderId adId t : Bytes) (h : Int) (model price : Bytes) : Act Unit :=
  if model.head? = some 49 then send (.hincrbyfloat (.usedmoneyAdDay orderId adId) t price)
  else if model.head? = some 50 then do
    send (.hincrbyfloat (.usedmoneyHours orderId t) (twoDigits h) price)
    send (.hincrbyfloat (.usedmoneyAdHours orderId adId t) (twoDigits h) price)
  else pure ()

/-- The part of an order's money that is not bound to a day. -/
def deductUnallocated (X : Externals) (orderId price : Bytes) : Act Unit := do
  let balance ← call (.hget (.orderMoney orderId) (ascii "unallocated_balance"))
  match stringReply balance with
  | some _ =>
    send (.hincrbyfloat (.orderMoney orderId) (ascii "unallocated_balance") (X.negatedFloat price))
  | none => do
    let unallocated ← call (.hget (.orderMoney orderId) (ascii "unallocated"))
    onlyIf ((stringReply unallocated).isSome)
      (send (.hincrbyfloat (.orderMoney orderId) (ascii "unallocated_balance")
        (X.negatedFloat price)))

def DeductMoney (X : Externals) (orderId adId t : Bytes) (h : Int) : Act Unit := do
  let model ← call (.get (.adPutinmodeltype adId))
  let strPutInModelType := (stringReply model).getD []
  let price ← call (.get (.adPrice adId))
  let strPrice := (stringReply price).getD []
  send (.hincrbyfloat (.usedmoneyDay orderId) t strPrice)
  deductByModel orderId adId t h strPutInModelType strPrice
  let hsNotDay ← call (.smembers (.notbudgetsday orderId))
  let days := ((hsNotDay.map Reply.elements).getD []).filterMap id
  onlyIf (days.any fun d => contains d t) (deductUnallocated X orderId strPrice)
  send (.hincrbyfloat (.orderMoney orderId) (ascii "balance") (X.negatedFloat strPrice))

/-- A number read from a key, 0 when the key is absent. -/
def numberOf (r : Reply) : Act Int :=
  if isNil r then pure 0 else do
    let s ← deref r.str?
    pure (atoi s)

def numberOrNone : Option Reply → Act Int
  | none => pure 0
  | some r => numberOf r

/-- The show frequency limit of an order. -/
def showFrequency (orderId uuid day : Bytes) : Act Unit := do
  let r ← call (.get (.orderShowfre orderId))
  let fre ← numberOrNone r
  if fre ≠ 0 then do
    let n ← call (.hincrby (.freOrderidShow orderId day) uuid 1)
    match n with
    | none => pure ()
    | some n =>
      if n.integer ≥ fre then do
        let members ← call (.smembers (.orderAdlist orderId))
        let members ← deref members
        saddAll uuid members.elements.reverse
        send (.hset (.freOverShow orderId) uuid day)
      else pure ()
  else pure ()

/-- The click frequency limit of an order; the result is false where the source
breaks out of the switch. -/
def clickFrequency (orderId uuid day : Bytes) : Act Bool := do
  let state ← call (.get (.orderClkfrestate orderId))
  match state with
  | none => pure false
  | some state => do
    let isClickFre ← numberOf state
    if isClickFre ≠ 0 then do
      let r ← call (.get (.orderClickfre orderId))
      match r with
      | none => pure false
      | some r => do
        let fre ← numberOf r
        if fre ≠ 0 then do
          let n ← call (.hincrby (.freOrderidClick orderId day) uuid 1)
          let n ← deref n
          if n.integer ≥ fre then do
            let members ← call (.smembers (.orderAdlist orderId))
            match members with
            | none => pure false
            | some members => do
              saddAll uuid members.elements.reverse
              let days ← call (.get (.orderFredays orderId))
              match days with
              | none => pure false
              | some days => do
                onlyIf (isNil days = false) (send (.hset (.freOverClick orderId) uuid day))
                pure true
          else pure true
        else pure true
    else pure true

/-- What the switch of `ais_callback` works on. -/
structure Frame where
  req : Request
  session : AdSession
  pid : Bytes
  orderId : Bytes
  dayTotal : Bytes
  sessionKey : Bytes
  uuidKey : Bytes

/-- The part of `case 1` behind the show limits; `n` is the device's show count. -/
def acceptedShow (X : Externals) (f : Frame) (n : Int) : Act Outcome := do
  let sid := f.session.sessionId
  mark (.accepted sid)
  send (hincrbyOne f.dayTotal "assshow")
  send (.sadd .tomssqladid f.session.adId)
  onlyIf (f.session.callbackType.head? = some 49) (do
    mark (.deductMoney .shown sid)
    DeductMoney X f.orderId f.session.adId f.req.day f.req.hour)
  showFrequency f.orderId f.session.uuid f.req.day
  if n ≤ 4 then do
    send (hincrbyOne f.dayTotal "masshow")
    send (.setex (.shown sid) 900 (decimal IMP_SHOW_VALID))
    pure ⟨0, true, 0⟩
  else do
    send (.setex (.shown sid) 900 (decimal IMP_SHOW_INVALID))
    pure ⟨0, false, 0⟩

/-- `case 1`. -/
def showBranch (X : Externals) (f : Frame) : Act Outcome := do
  let sid := f.session.sessionId
  let lock ← call (.incr (.sLock sid))
  match lock with
  | none => pure ⟨0, false, 0⟩
  | some lock =>
    if toInt32 lock.integer = 1 then do
      send (.expire (.sLock sid) 900)
      send (hincrbyOne f.dayTotal "show")
      let stats ← call (.incr (.shownum f.uuidKey))
      match stats with
      | none => pure ⟨0, false, 0⟩
      | some stats => do
        onlyIf (stats.integer = 1) (send (.expire (.shownum f.uuidKey) 60))
        if stats.integer > 12 then pure ⟨10, false, 0⟩
        else acceptedShow X f stats.integer
    else do
      send (hincrbyOne f.dayTotal "noshow")
      pure ⟨10, false, -1⟩

def noClick (f : Frame) : Act Outcome := do
  send (hincrbyOne f.dayTotal "noclick")
  pure ⟨10, false, -2⟩

/-- The part of `case 2` behind the click lock; `limit` is the recorded show. -/
def countedClick (X : Externals) (f : Frame) (limit : Int) : Act Outcome := do
  let sid := f.session.sessionId
  send (.expire (.cLock sid) 900)
  send (hincrbyOne f.dayTotal "click")
  let stats ← call (.hincrby (.clicknum f.req.day) f.sessionKey 1)
  match stats with
  | none => pure ⟨0, false, 0⟩
  | some stats =>
    if stats.integer > 6 then pure ⟨10, false, 0⟩
    else do
      send (.sadd .tomssqladid f.session.adId)
      send (hincrbyOne f.dayTotal "assclick")
      onlyIf (f.session.callbackType.head? = some 50) (do
        mark (.deductMoney .click sid)
        DeductMoney X f.orderId f.session.adId f.req.day f.req.hour)
      let finished ← clickFrequency f.orderId f.session.uuid f.req.day
      if finished && stats.integer ≤ 2 && limit = 1 then do
        mark (.masclick sid f.req.day
          ⟨f.session.appId, f.session.uuid, f.session.adId, f.pid, f.session.ip⟩)
        send (hincrbyOne f.dayTotal "masclick")
        pure ⟨0, true, 0⟩
      else pure ⟨0, false, 0⟩

/-- `case 2`. -/
def clickBranch (X : Externals) (f : Frame) : Act Outcome := do
  let sid := f.session.sessionId
  let shown ← call (.get (.shown sid))
  match shown with
  | none => pure ⟨0, false, 0⟩
  | some shown =>
    if isNil shown then noClick f
    else do
      let s ← deref shown.str?
      let lock ← call (.incr (.cLock sid))
      match lock with
      | none => pure ⟨0, false, 0⟩
      | some lock =>
        if toInt32 lock.integer = 1 then do
          send (.expire (.cLock sid) 900)
          countedClick X f (atoi s)
        else noClick f

/-- The text both counter keys are the MD5 of, cut to the buffer it is built in. -/
def sessionKeyText (k : ClickKey) : Bytes :=
  snprintf 1024 (ascii "AppId=" ++ k.appId ++ ascii "Uuid=" ++ k.uuid ++ ascii "AId=" ++ k.adId ++
    ascii "PlatformId=" ++ k.pid ++ ascii "Ip=" ++ k.ip)

def uuidKeyText (s : AdSession) (pid : Bytes) : Bytes :=
  snprintf 1024 (ascii "AppId=" ++ s.appId ++ ascii "Uuid=" ++ s.uuid ++ ascii "PlatformId=" ++ pid)

def dayTotalText (head : String) (pid day : Bytes) : Bytes :=
  snprintf 255 (ascii head ++ pid ++ 58 :: day)

/-- The switch of the callback. -/
def branch (X : Externals) (f : Frame) : Act Outcome :=
  if atoi f.req.callbacktype = 1 then showBranch X f
  else if atoi f.req.callbacktype = 2 then clickBranch X f
  else pure ⟨0, false, 0⟩

/-- The part of the callback after both records have been read. -/
def settle (X : Externals) (q : Request) (s : AdSession) (pid : Bytes) : Act Unit := do
  let order ← call (.get (.adOrderid s.adId))
  let f : Frame :=
    { req := q
      session := s
      pid := pid
      orderId := (stringReply order).getD []
      dayTotal := dayTotalText "daytotal:" (if caseEq q.pid pid then q.pid else pid) q.day
      sessionKey := X.md5 (sessionKeyText ⟨s.appId, s.uuid, s.adId, pid, s.ip⟩)
      uuidKey := X.md5 (uuidKeyText s pid) }
  let o ← branch X f
  onlyIf (q.writeLog = true) (mark (.logged o.sProcessNode (o.nIsCheat > 0) o.bIsBilling))

/-- Debug requests are only counted. -/
def countDebug (q : Request) (pid : Bytes) : Act Unit :=
  if atoi q.callbacktype = 1 then send (hincrbyOne (dayTotalText "debug:" pid q.day) "show")
  else send (hincrbyOne (dayTotalText "debug:" pid q.day) "click")

def nosession (q : Request) : String :=
  if q.callbacktype.head? = some 49 then "nosession_show" else "nosession_click"

def debugOr (X : Externals) (q : Request) (s : AdSession) (pid : Bytes) : Act Unit :=
  if caseEq q.pid debugPid then countDebug q pid else settle X q s pid

/-- The part of the callback after the session record has been read. -/
def withPlatform (X : Externals) (q : Request) (s : AdSession) (hgetreply : Option Reply) :
    Act Unit :=
  match stringReply hgetreply with
  | none => mark (.answer .platformEmpty)
  | some text =>
    match X.parsePlatform text with
    | none => mark (.answer .platformError)
    | some p => do
      debugOr X q s p.platformProviderID
      mark (if q.replies then .answer .success else .quickAnswer)

def aisCallback (X : Externals) (q : Request) : Act Unit := do
  let getreply ← call (.get (.adsession q.sessionid))
  match (stringReply getreply).bind X.parseSession with
  | none => do
    mark (.answer .sessionidNofind)
    send (hincrbyOne (dayTotalText "daytotal:" q.pid q.day) (nosession q))
  | some s => do
    let hgetreply ← call (.hget .adplatform s.platformKey)
    withPlatform X q s hgetreply

end Doorhinges.Callback

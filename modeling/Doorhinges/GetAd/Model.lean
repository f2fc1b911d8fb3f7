import Doorhinges.GetAd.AidList
import Doorhinges.GetAd.Maps
import Doorhinges.Lib.Redis

/-!
# get_ad

The selection of the ads for a request, from the replies of the store to its last ids.
The replies are a function of the query: none of them is sent twice. A reply is absent
when its command fails.
-/
namespace Doorhinges.GetAd

open Lib.CString
open Lib.Redis (Reply)
open Hashtable

def MAX_DEMli : Nat := 1024
def MAX_DELIM_NUM : Nat := 16

def tagchinautf8 : Bytes :=
  ascii "tag:address:country:" ++ [0xE4, 0xB8, 0xAD, 0xE5, 0x9B, 0xBD]

/-- The queries of `get_ad` with what they are built from. -/
inductive Query where
  | types (tags : List Bytes)
  | targeting (types : List Bytes)
  | privates (ppId : Bytes)
  | ipArea (ip : Bytes)
  | lastrequest (uuid ppId : Bytes)
  | country
  | appLib (ppId appId : Bytes)
  | appType (tag : Bytes)
  | tagUuid (uuid : Bytes)
  | debugip
  | localApp (name : Bytes)
  | appTypes (tags : List Bytes)
  | coverage (ids : List Bytes)
  | areas (tags : List Bytes)
  | countryAgain

/-- The members of `ais_logparams_t` that `get_ad` reads. -/
structure Log where
  ppId : Option Bytes
  appId : Option Bytes
  category : Option Bytes
  uuid : Option Bytes
  clinet : Option Bytes
  opreator : Option Bytes
  adSpaceType : Option Bytes
  deviceType : Option Bytes
  ip : Bytes
  lg : Bytes
  lat : Bytes
  adnum : Nat

/-- What `get_ad` is called with besides the log: the support types, the replies, the
distance test of a position and the three fields of a record, the value of `rand`, what the
nodes of the pool and the array `arr` hold from before, and the parameter buffer from
`adparams_buf_last` on. -/
structure Call where
  log : Log
  types : List Bytes
  reply : Query → Option Reply
  near : Bytes → Bytes → Bytes → Bytes → Bytes → Bool
  rand : Nat
  nodes : Nat → Bucket Nat Bytes Nat
  arr : Nat → Bytes
  buffer : Bytes

/-- What is left in `maps[0]` at the random pick, what is picked, and the buffer with the list
of it. `chosen` is absent when `aid_list` stays null, `aids` also where a copy leaves the
buffer. -/
structure Result where
  candidates : List Bytes
  chosen : Option (List Bytes)
  aids : Option Bytes

def Result.nothing : Result := ⟨[], none, none⟩

def arrayReplyEmpty : Option Reply → Bool
  | some (.array es) => es.isEmpty
  | _ => true

def isArray : Option Reply → Bool
  | some (.array _) => true
  | _ => false

def elementsOf (r : Option Reply) : List (Option Bytes) := ((r.map Reply.elements).getD [])

/-- `ConvertCategoryType`. -/
def convertCategoryType (category : Bytes) : Bytes :=
  let name :=
    match atoi category with
    | 1 => "tool" | 2 => "game" | 3 => "read" | 4 => "ent" | 5 => "trip" | 6 => "money"
    | 7 => "auto" | 8 => "lady" | 9 => "news" | 10 => "life" | 11 => "sports" | _ => "other"
  ascii "tag:apptype:" ++ ascii name

/-- The node pool and the maps filled so far. -/
structure Maps where
  cur : Nat
  maps : List AdMap

section Fetch

variable (c : Call)

def Log.missing (l : Log) : Bool :=
  [l.ppId, l.appId, l.category, l.uuid, l.clinet, l.opreator, l.adSpaceType, l.deviceType].any
    (·.isNone)

/-- A new map of the ids of a reply. -/
def Call.addMap (s : Maps) (r : Option Reply) : Option Maps := do
  let (cur, m) ← initMap s.cur (getHtMap c.nodes) (elementsOf r)
  some ⟨cur, s.maps ++ [m]⟩

/-- One of the three sets every ad must be in; the flag is `empty`. -/
def Call.addSet (s : Maps × Bool) (r : Option Reply) : Option (Maps × Bool) :=
  if r.isNone || s.2 then some s
  else if arrayReplyEmpty r then some (s.1, true)
  else (c.addMap s.1 r).map (·, false)

/-- Several support types have a set of their own. -/
def Call.addTypes : Option (Maps × Bool) :=
  if 1 < c.types.length then c.addSet (⟨0, []⟩, false) (c.reply (.types c.types))
  else some (⟨0, []⟩, false)

def Call.addSets : Option (Maps × Bool) := do
  let s ← c.addTypes
  let s ← c.addSet s (c.reply (.targeting (if c.types.length = 1 then c.types else [])))
  c.addSet s (c.reply (.privates (c.log.ppId.getD [])))

/-- The three fields of the app's record. -/
def Call.appFields : Option (List Bytes) :=
  match c.reply (.appLib (c.log.ppId.getD []) (c.log.appId.getD [])) with
  | some (.str s) => if (s.splitOn 124).length = 3 then some (s.splitOn 124) else none
  | _ => none

/-- The reply that lists the ads for the app or for its types. -/
def Call.appReply : Option Reply :=
  match c.appFields with
  | none => c.reply (.appType (convertCategoryType (c.log.category.getD [])))
  | some fields =>
    let localapp := c.reply (.localApp (fields[2]?.getD []))
    if arrayReplyEmpty localapp then
      c.reply (.appTypes
        ((((fields[0]?.getD []).splitOn 44).take (MAX_DELIM_NUM - 1)).map convertCategoryType))
    else localapp

/-- The maps of the sets that are not about the location; absent when one is empty. -/
def Call.fetch : Option (Option Maps) := do
  let s ← c.addSets
  if s.2 || arrayReplyEmpty c.appReply then some none
  else (c.addMap s.1 c.appReply).map some

/-- Each map that is smaller than the first changes places with it. -/
def smallestFirst (m : AdMap) : List AdMap → AdMap × List AdMap
  | [] => (m, [])
  | n :: ns =>
    if egHtElements m > egHtElements n then
      let r := smallestFirst n ns
      (r.1, m :: r.2)
    else
      let r := smallestFirst m ns
      (r.1, n :: r.2)

end Fetch

section Locate

variable (c : Call)

/-- The records within their distance; a full pool leaves a record out. -/
def Call.insertCovered : Nat × AdMap → List (Option Bytes) → Option (Nat × AdMap)
  | s, [] => some s
  | s, e :: es =>
    match (e.filter (· ≠ [])).map (·.splitOn 44) with
    | some [aid, lg, lat, distance] =>
      if c.near c.log.lg c.log.lat lg lat distance then
        if NODE_POOL_SIZE ≤ s.1 then Call.insertCovered s es
        else do
          let m ← insertId s.1 s.2 aid
          Call.insertCovered (s.1 + 1, m) es
      else Call.insertCovered s es
    | _ => Call.insertCovered s es

/-- The map of the covered ads, empty when the request has no position. -/
def Call.covered (cur : Nat) (m : AdMap) : Option (Nat × AdMap) :=
  if c.log.lg ≠ [] ∧ c.log.lat ≠ [] then do
    let ids ← texts m
    match c.reply (.coverage (ids.take (MAX_DEMli - 2))) with
    | some (.array es) => c.insertCovered (cur, getHtMap c.nodes) es
    | _ => some (cur, getHtMap c.nodes)
  else some (cur, getHtMap c.nodes)

/-- The tags of the areas of an address record, in their buffers. -/
def Call.areaTags (record : Bytes) : List Bytes :=
  let fields := record.splitOn 44
  let arr := fun i => fields[i]?.getD (c.arr i)
  let tag := ascii "tag:address:city:"
  [snprintf 48 (tag ++ arr 0), snprintf 72 (tag ++ arr 0 ++ arr 1),
    snprintf 96 (tag ++ arr 0 ++ arr 1 ++ arr 2), tagchinautf8]

/-- The ads that are in a further set. -/
def Call.restrict (cur : Nat) (m : AdMap) (r : Option Reply) : Option AdMap := do
  let (_, n) ← initMap cur (getHtMap c.nodes) (elementsOf r)
  if egHtElements m > egHtElements n then getInter n [m] else getInter m [n]

/-- The address record of the request, where one is found. -/
def Call.ipRecord : Option (Option Bytes) :=
  match c.reply (.ipArea c.log.ip) with
  | some (.array (e :: _)) => some e
  | _ => none

/-- The area set of the request: by its address record where one is found, else of the
country. -/
def Call.areaSet : Option Reply :=
  match c.ipRecord with
  | some e => (e.map fun record => c.reply (.areas (c.areaTags record))).getD (c.reply .country)
  | none => c.reply .countryAgain

/-- The filter for a request without covered ads. -/
def Call.byArea (cur : Nat) (m : AdMap) : Option AdMap :=
  match c.ipRecord with
  | some _ => if isArray c.areaSet then c.restrict cur m c.areaSet else some m
  | none => if arrayReplyEmpty c.areaSet then some m else c.restrict cur m c.areaSet

def Call.debug : Bool :=
  (elementsOf (c.reply .debugip)).any fun e => e.any (caseEq c.log.ip)

/-- The location filter. -/
def Call.locate (cur : Nat) (m : AdMap) : Option AdMap :=
  if c.debug then some m
  else do
    let (cur, n) ← c.covered cur m
    if egHtEmpty n then c.byArea cur m else some n

/-- The ad of the last request is left out; `i` counts down even where it was not there. -/
def Call.dropLast (m : AdMap) (i : Nat) : Option (AdMap × Nat) :=
  match c.reply (.lastrequest (c.log.uuid.getD []) (c.log.ppId.getD [])) with
  | some (.str s) => (htRemoveBucket egNumKeys m (idKey s)).map (·, i - 1)
  | _ => some (m, i)

/-- All ads when there are no more than are asked for, else a row of them. -/
def Call.pick (m : AdMap) : Option (Option (List Bytes)) :=
  let i := egHtElements m
  if i = 0 then some none
  else if i ≤ c.log.adnum then (take m i (egHtBegin m)).map some
  else do
    let (m, i) ← c.dropLast m i
    let j := i - c.log.adnum
    let it ← skip m (if j = 0 then 0 else c.rand % (j + 1)) (egHtBegin m)
    (take m c.log.adnum it).map some

/-- The ads that are in every set and not among the ids kept from the device; absent where
the search ends without any. -/
def Call.survivors : Option (Option (Nat × AdMap)) := do
  match ← c.fetch with
  | none => some none
  | some ⟨_, []⟩ => some none
  | some ⟨cur, m :: ms⟩ =>
    let m ← getInter (smallestFirst m ms).1 (smallestFirst m ms).2
    if egHtEmpty m then some none
    else do
      let m ← removeIds m (elementsOf (c.reply (.tagUuid (c.log.uuid.getD []))))
      some (if egHtEmpty m then none else some (cur, m))

/-- The ads for the random pick. -/
def Call.candidates : Option (Option AdMap) := do
  match ← c.survivors with
  | none => some none
  | some (cur, m) => (c.locate cur m).map some

def getAd : Option Result :=
  if c.log.missing then some .nothing
  else do
    match ← c.candidates with
    | none => some .nothing
    | some m => do
      let chosen ← c.pick m
      some ⟨← texts m, chosen, chosen.bind fun ids => fillAids 0 ids c.buffer⟩

end Locate

/-- The ids as they are read from the list. -/
def Result.ads (r : Result) : List Bytes :=
  match r.chosen, r.aids with
  | some ids, some mem => (List.range ids.length).map (slotText mem)
  | _, _ => []

end Doorhinges.GetAd

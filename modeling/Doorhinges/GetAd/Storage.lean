import Doorhinges.GetAd.Intersection
import Doorhinges.GetAd.Model

/-!
# The storage of get_ad

`get_ad` with the pools and the array `maps` it works in: which maps it takes, how it
renumbers them, and which it clears on its way out. A result `none` is a null string or a
null pointer that is read.
-/
namespace Doorhinges.GetAd

open Lib.CString
open Lib.Redis (Reply)
open Hashtable

/-- `maps` with `mapLen = map_len + 1`. An entry is absent where none was written; a null
map is read at the latest when it is cleared. -/
structure Local where
  pools : Pools
  maps : Nat → Option MapId
  mapLen : Nat

namespace Local

variable (s : Local)

def elements (i : Nat) : Option Nat := (s.maps i).map fun m => egHtElements (s.pools.map m)

/-- The assignments through `tmp`. -/
def swap (i j : Nat) : Local :=
  { s with maps := Function.update (Function.update s.maps i (s.maps j)) j (s.maps i) }

/-- `maps[++map_len] = get_ht_map(mp)`, filled from a reply. -/
def addMap (r : Option Reply) : Option Local := do
  let (m, pools) := s.pools.getHtMap
  let id ← m
  let pools ← pools.initMap id (elementsOf r)
  some ⟨pools, Function.update s.maps s.mapLen (some id), s.mapLen + 1⟩

/-- `maps[++map_len] = maps[1]` and `maps[1] = get_ht_map(mp)`. -/
def addFirst : Option Local := do
  let (m, pools) := s.pools.getHtMap
  let id ← m
  let maps := Function.update s.maps s.mapLen (s.maps 1)
  some ⟨pools, Function.update maps 1 (some id), s.mapLen + 1⟩

/-- The loop over the maps from `i` on that puts the smallest first. -/
def smallestFirst : Nat → Nat → Local → Option Local
  | 0, _, s => some s
  | n + 1, i, s => do
    let first ← s.elements 0
    let other ← s.elements i
    smallestFirst n (i + 1) (if first > other then s.swap 0 i else s)

/-- `get_inter(maps, len)`. -/
def inter (len : Nat) : Option Local :=
  if (List.range (len + 1)).all fun i => (s.maps i).isSome then
    (Intersection.getInter egNumKeys (fun i => (s.maps i).getD 0) len s.pools.heap).map fun h =>
      { s with pools := { s.pools with heap := h } }
  else none

end Local

/-- What a call leaves: the pools, how many maps it took, and the entries of `maps` that it
cleared. -/
structure Left where
  pools : Pools
  taken : Nat
  cleared : List (Option MapId)

/-- The end of `get_ad`. -/
def Local.finish (s : Local) : Left :=
  let cleared := (List.range s.mapLen).map s.maps
  if s.mapLen = 0 then ⟨s.pools, s.pools.mapCur, cleared⟩
  else
    let pools := cleared.foldl (fun p m => m.elim p p.clearMap) s.pools
    ⟨{ pools with nodeCur := 0, mapCur := 0 }, s.pools.mapCur, cleared⟩

namespace Call

variable (c : Call)

/-- One of the three sets every ad must be in; the flag is `empty`. -/
def storeSet (s : Local × Bool) (r : Option Reply) : Option (Local × Bool) :=
  if r.isNone || s.2 then some s
  else if arrayReplyEmpty r then some (s.1, true)
  else (s.1.addMap r).map (·, false)

/-- Several support types have a set of their own. -/
def storeTypes (s : Local) : Option (Local × Bool) :=
  if 1 < c.types.length then storeSet (s, false) (c.reply (.types c.types))
  else some (s, false)

/-- The maps of the sets that are not about the location, and `empty`. -/
def storeFetched (s : Local) : Option (Local × Bool) := do
  let s ← c.storeTypes s
  let s ← storeSet s (c.reply (.targeting (if c.types.length = 1 then c.types else [])))
  let s ← storeSet s (c.reply (.privates (c.log.ppId.getD [])))
  if s.2 then some s
  else if arrayReplyEmpty c.appReply then some (s.1, true)
  else (s.1.addMap c.appReply).map (·, false)

/-- The records within their distance go into the map. -/
def storeCovered (m : MapId) : Pools → List (Option Bytes) → Option Pools
  | p, [] => some p
  | p, e :: es =>
    match (e.filter (· ≠ [])).map (·.splitOn 44) with
    | some [aid, lg, lat, distance] =>
      if c.near c.log.lg c.log.lat lg lat distance then
        if NODE_POOL_SIZE ≤ p.nodeCur then storeCovered m p es
        else do
          let p ← p.insertId m aid
          storeCovered m p es
      else storeCovered m p es
    | _ => storeCovered m p es

/-- `maps[1]` takes the covered ads. -/
def storePosition (s : Local) : Option Local :=
  if c.log.lg ≠ [] ∧ c.log.lat ≠ [] then do
    let m ← s.maps 0
    let ids ← texts (s.pools.map m)
    match c.reply (.coverage (ids.take (MAX_DEMli - 2))) with
    | some (.array es) =>
      let n ← s.maps 1
      (c.storeCovered n s.pools es).map fun p => { s with pools := p }
    | _ => some s
  else some s

/-- `maps[1]` takes a further set, and the two are intersected. -/
def storeRestricted (s : Local) (r : Option Reply) : Option Local := do
  let n ← s.maps 1
  let pools ← s.pools.initMap n (elementsOf r)
  let s := { s with pools := pools }
  let first ← s.elements 0
  let other ← s.elements 1
  (if first > other then s.swap 0 1 else s).inter 1

def storeArea (s : Local) : Option Local :=
  match c.ipRecord with
  | some _ => if isArray c.areaSet then storeRestricted s c.areaSet else some s
  | none => if arrayReplyEmpty c.areaSet then some s else storeRestricted s c.areaSet

def storeLocated (s : Local) : Option Local :=
  if c.debug then some s
  else do
    let s ← c.storePosition s
    let covered ← s.elements 1
    if covered = 0 then c.storeArea s else some (s.swap 0 1)

/-- The ad of the last request is left out; `i` counts down even where it was not there. -/
def storeDropped (p : Pools) (m : MapId) (i : Nat) : Option (Pools × Nat) :=
  match c.reply (.lastrequest (c.log.uuid.getD []) (c.log.ppId.getD [])) with
  | some (.str str) => (p.removeId m str).map (·, i - 1)
  | _ => some (p, i)

/-- The random pick. -/
def storePicked (s : Local) : Option Local := do
  let m ← s.maps 0
  let i := egHtElements (s.pools.map m)
  if i = 0 then some s
  else if i ≤ c.log.adnum then
    (take (s.pools.map m) i (egHtBegin (s.pools.map m))).map fun _ => s
  else do
    let (pools, i) ← c.storeDropped s.pools m i
    let j := i - c.log.adnum
    let it ← skip (pools.map m) (if j = 0 then 0 else c.rand % (j + 1)) (egHtBegin (pools.map m))
    (take (pools.map m) c.log.adnum it).map fun _ => { s with pools := pools }

/-- The ids kept from the device leave the first map. -/
def storeKept (s : Local) (m : MapId) : Option Local :=
  (s.pools.removeIds m (elementsOf (c.reply (.tagUuid (c.log.uuid.getD []))))).map fun p =>
    { s with pools := p }

/-- From the intersection on; where the first map is empty the block is left. -/
def storeSelected (s : Local) : Option Local := do
  let s ← Local.smallestFirst (s.mapLen - 1) 1 s
  let s ← s.inter (s.mapLen - 1)
  let m ← s.maps 0
  if egHtEmpty (s.pools.map m) then some s
  else do
    let s ← c.storeKept s m
    if egHtEmpty (s.pools.map m) then some s
    else do
      let s ← s.addFirst
      let s ← c.storeLocated s
      c.storePicked s

/-- The block of `get_ad`, to where it is left. -/
def stored (s : Local) : Option Local := do
  let (s, empty) ← c.storeFetched s
  if empty then some s else c.storeSelected s

/-- `get_ad` behind its parameter check. -/
def storage (p : Pools) : Option Left :=
  (c.stored ⟨p, fun _ => none, 0⟩).map Local.finish

end Call

end Doorhinges.GetAd

import Doorhinges.Lib.Pieces
import Doorhinges.Messages.Model

/-!
# Requests for stored messages

The requests of `internal_process.cpp` that read: the pages of offline, group and notice
messages and the check of the groups. Redis is asked through a client library outside the
repository; the base64 text and the packet in it are read by `parse`.
-/
namespace Doorhinges.Messages.Queries

open Lib.CString
open Lib.Pieces
open Lib.Program

inductive Cmd where
  | mget (keys : List Bytes)
  | hmget (key : Bytes) (fields : List Bytes)
  deriving DecidableEq

/-- Nothing when the call fails, else the values; one that is absent is NULL. -/
abbrev Reply := Option (List (Option Bytes))

abbrev Act := Prog Cmd Reply Empty

def MAX_MSG_NUM : Nat := 10

def MAX_CHKGRP_NUM : Nat := 150

/-- The pointers into `s` that the array `key` holds; one too many is written past it. -/
def keyArray (size n : Nat) (s : Bytes) : Act (List Bytes) :=
  if size < n then .crash else pure ((starts 0 s n 0).map (textAt 0 s))

/-- The first `n` entries of `val`. -/
def valArray (n : Nat) (val : List (Option Bytes)) : Act (List (Option Bytes)) :=
  if val.length < n then .crash else pure (val.take n)

/-- What a NULL or a text counts as. -/
def idOf (val : Option Bytes) : UInt32 := val.elim 0 fun text => .ofInt (atoi text)

/-- The counters of a user: return code, read id and message id. -/
def getIDs (rkey mkey : Bytes) : Act (Int × UInt32 × UInt32) := do
  let r ← call (.mget [rkey, mkey])
  match r with
  | none => pure (-1, 0, 0)
  | some val => do
    let val ← valArray 2 val
    pure (0, idOf (val.getD 0 none), idOf (val.getD 1 none))

def getC2CID (uin : Nat) : Act (Int × UInt32 × UInt32) :=
  getIDs (decimalNat uin ++ ascii ".readid") (decimalNat uin ++ ascii ".msgid")

def getNoticeID (uin : Nat) : Act (Int × UInt32 × UInt32) :=
  getIDs (decimalNat uin ++ ascii ".noticereadid") (decimalNat uin ++ ascii ".noticeid")

/-- What `mstr << mid << '\0'` adds. -/
def field (mid : UInt32) : Bytes := decimalNat mid.toNat ++ [0]

/-- The first loop of `getMsg` from `i` on, with `left` rounds to go: the text of `mstr` and
what is in `count` behind it. -/
def pageFields (msgid count : UInt32) : Nat → UInt32 → Bytes → Bytes × UInt32
  | 0, _, mstr => (mstr, count)
  | left + 1, i, mstr =>
    let mid := msgid - i
    if mid = 1 then (mstr ++ field mid, i + 1)
    else pageFields msgid count left (i + 1) (mstr ++ field mid)

section Requests

variable {M : Type} (parse : Bytes → Option M)

/-- The messages and the cursor of a response. -/
structure Page (M : Type) where
  messages : List M
  msgid : Option UInt32

/-- `getMsg` and `getGrpMsg`, which differ in the key and the kind of message only. -/
def getMsgs (key : Bytes) (msgid count : UInt32) : Act (Int × Page M) := do
  let (mstr, count) := pageFields msgid count count.toNat 0 []
  let fields ← keyArray MAX_MSG_NUM count.toNat mstr
  let r ← call (.hmget key fields)
  match r with
  | none => pure (-1, ⟨[], none⟩)
  | some val => do
    let val ← valArray count.toNat val
    let messages := val.filterMap fun text => text.bind parse
    pure (0, ⟨messages, some (if 0 < msgid - count then msgid - count else 0)⟩)

def getMsg (uin : Nat) (msgid count : UInt32) : Act (Int × Page M) :=
  getMsgs parse (decimalNat uin ++ ascii ".msg") msgid count

def getGrpMsg (grpid : Nat) (msgid count : UInt32) : Act (Int × Page M) :=
  getMsgs parse (decimalNat grpid ++ ascii ".grpmsg") msgid count

/-- The first loop of `getNotice`. -/
def noticeFields (msgid : UInt32) (count : Nat) : Bytes :=
  (List.range count).flatMap fun i => field (msgid + .ofNat i)

/-- The count is an int; a page of none asks for nothing. -/
def getNotice (uin : Nat) (msgid : UInt32) (count : Int) : Act (Int × List M) :=
  if count ≤ 0 then pure (0, [])
  else do
    let fields ← keyArray MAX_MSG_NUM count.toNat (noticeFields msgid count.toNat)
    let r ← call (.hmget (decimalNat uin ++ ascii ".notice") fields)
    match r with
    | none => pure (-1, [])
    | some val => do
      let val ← valArray count.toNat val
      pure (0, val.filterMap fun text => text.bind parse)

/-- A response packet behind its header; `packet` is empty when the request is refused. -/
structure Ack (R : Type) where
  answer : Answer
  packet : Option R

def refused {R : Type} (message : String) : Ack R := ⟨⟨1, message⟩, none⟩

/-- The checks before a request's own work. -/
def verified {R : Type} (header : Header) (body : Act (Ack R)) : Act (Ack R) :=
  if !header.fdFound then pure (refused "fd error")
  else if header.fdUin ≠ header.uin then pure (refused "uin dismatch")
  else if !header.sessionFound then pure (refused "session error")
  else body

/-- `(req.count() > MAX_MSG_NUM) ? MAX_MSG_NUM : req.count()`. -/
def atMostPage (count : UInt32) : UInt32 := if 10 < count then 10 else count

structure ReqPage where
  msgid : UInt32
  count : UInt32

structure RspOfflineMsg (M : Type) where
  page : Page M
  readid : Option UInt32

/-- A request that does not parse is absent. -/
def processOfflineMsg (header : Header) (req : Option ReqPage) : Act (Ack (RspOfflineMsg M)) :=
  verified header <|
    match req with
    | none => pure (refused "parse packet error")
    | some req =>
      if req.msgid = 0 then pure (refused "parse packet error")
      else do
        let (iRet, readid, _) ← getC2CID header.uin
        if iRet = 0 then do
          let (_, page) ← getMsg parse header.uin req.msgid (atMostPage req.count)
          pure ⟨⟨0, ""⟩, some ⟨page, some readid⟩⟩
        else pure ⟨⟨0, ""⟩, some ⟨⟨[], none⟩, none⟩⟩

/-- The request names its group. -/
def processGetGrpMsg (header : Header) (req : Option (Nat × ReqPage)) : Act (Ack (Page M)) :=
  verified header <|
    match req with
    | none => pure (refused "parse packet error")
    | some (grpid, req) =>
      if req.msgid = 0 then pure (refused "parse packet error")
      else do
        let (_, page) ← getGrpMsg parse grpid req.msgid (atMostPage req.count)
        pure ⟨⟨0, ""⟩, some page⟩

structure ReqNotice where
  noticeid : UInt32
  count : UInt32

structure RspNotice (M : Type) where
  messages : List M
  noticeid : Option UInt32
  readid : Option UInt32

/-- The count `ProcessNotice` hands to `getNotice`, the first id, and the cursor it returns. -/
structure NoticePage where
  first : UInt32
  count : Int
  noticeid : UInt32

/-- A difference of two uint32_t that is stored in an int. -/
def asInt (n : UInt32) : Int := toInt32 n.toNat

def noticePage (noticeid readid msgid : UInt32) (count : Int) : NoticePage :=
  if noticeid = 0 then
    if msgid < readid + .ofInt count then ⟨readid + 1, asInt (msgid - readid), 0⟩
    else ⟨readid + 1, count, readid + .ofInt count + 1⟩
  else
    if msgid < noticeid + .ofInt count then ⟨noticeid, asInt (msgid - noticeid + 1), 0⟩
    else ⟨noticeid, count, noticeid + .ofInt count⟩

def processNotice (header : Header) (req : Option ReqNotice) : Act (Ack (RspNotice M)) :=
  verified header <|
    match req with
    | none => pure (refused "parse packet error")
    | some req => do
      let (iRet, readid, msgid) ← getNoticeID header.uin
      if iRet = 0 then do
        let page := noticePage req.noticeid readid msgid (asInt (atMostPage req.count))
        let (_, messages) ← getNotice parse header.uin page.first page.count
        pure ⟨⟨0, ""⟩, some ⟨messages, some page.noticeid, some readid⟩⟩
      else pure ⟨⟨0, ""⟩, some ⟨[], none, none⟩⟩

end Requests

/-- `map::insert` leaves an entry that is there. -/
def insert (m : List (UInt32 × UInt32)) (k v : UInt32) : List (UInt32 × UInt32) :=
  if (m.lookup k).isSome then m else m ++ [(k, v)]

/-- The last loop of `getGrpReadID` and `getGrpMsgID`. -/
def insertAll (m : List (UInt32 × UInt32)) (grpids : List UInt32) (val : List (Option Bytes)) :
    List (UInt32 × UInt32) :=
  (grpids.zip val).foldl (fun m e => insert m e.1 (idOf e.2)) m

/-- The two maps of the group check, read by one command each. -/
def getGrpIDs (keys : Bytes) (cmd : List Bytes → Cmd) (grpids : List UInt32) :
    Act (Int × List (UInt32 × UInt32)) := do
  let fields ← keyArray MAX_CHKGRP_NUM grpids.length keys
  let r ← call (cmd fields)
  match r with
  | none => pure (-1, [])
  | some val => do
    let val ← valArray grpids.length val
    pure (0, insertAll [] grpids val)

def getGrpReadID (uin : Nat) (grpids : List UInt32) : Act (Int × List (UInt32 × UInt32)) :=
  getGrpIDs (grpids.flatMap fun g => decimalNat g.toNat ++ [0])
    (.hmget (decimalNat uin ++ ascii ".grpreadid")) grpids

def getGrpMsgID (grpids : List UInt32) : Act (Int × List (UInt32 × UInt32)) :=
  getGrpIDs (grpids.flatMap fun g => decimalNat g.toNat ++ ascii ".grpmsgid" ++ [0]) .mget grpids

structure GrpInfo where
  grpid : UInt32
  readid : UInt32
  msgid : UInt32
  deriving DecidableEq

/-- One entry of the answer: the group is in both maps with different values. -/
def grpInfo (mapReadId mapMsgId : List (UInt32 × UInt32)) (grpid : UInt32) : Option GrpInfo :=
  match mapReadId.lookup grpid, mapMsgId.lookup grpid with
  | some readid, some msgid => if readid ≠ msgid then some ⟨grpid, readid, msgid⟩ else none
  | _, _ => none

def processCheckGrpMsg (header : Header) (req : Option (List UInt32)) : Act (Ack (List GrpInfo)) :=
  verified header <|
    match req with
    | none => pure (refused "parse packet error")
    | some grpids =>
      if MAX_CHKGRP_NUM < grpids.length then pure (refused "parse packet error")
      else do
        let (iRet, mapReadId) ← getGrpReadID header.uin grpids
        if iRet = 0 then do
          let (iRet, mapMsgId) ← getGrpMsgID grpids
          if iRet = 0 then pure ⟨⟨0, ""⟩, some (grpids.filterMap (grpInfo mapReadId mapMsgId))⟩
          else pure ⟨⟨0, ""⟩, some []⟩
        else pure ⟨⟨0, ""⟩, some []⟩

end Doorhinges.Messages.Queries

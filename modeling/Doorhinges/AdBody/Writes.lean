import Doorhinges.AdBody.Model
import Doorhinges.Lib.Logged

/-!
# Where `get_adbody` writes

The texts of one call go to three arrays: the commands and the segments to `buftmp`,
a second command, the session id and the response to the parameter buffer, and a
closed segment through the array of `replace_char`. Here a call is a run that logs
where each write ends, as if the arrays had no end. It stops where a null pointer is
used, and where the text that follows is no longer that of the template.
-/
namespace Doorhinges.AdBody

open Lib
open Lib.CString
open Lib.Logged
open Query

inductive Place where
  | buftmp
  | str1
  | params
  | nowhere
  deriving DecidableEq

/-- A write that ends `stop` bytes into its place. Nothing fits `nowhere`: a write through a
null pointer, or of a text without an end. -/
structure Write where
  place : Place
  stop : Nat

/-- The offset of `sBody` from `adparams_buf_last`, and the segment open at `buftmp`. -/
structure Cursor where
  sBody : Nat
  tp2 : Option Bytes

/-- What a round of the replacement loop does. -/
inductive Op where
  /-- to the open segment, else to the response -/
  | put (s : Bytes)
  /-- to the response -/
  | out (s : Bytes)
  /-- `snprintf` of 1024 bytes to the response -/
  | print (s : Bytes)
  /-- `tp2 = buftmp` -/
  | start
  /-- the end of a segment -/
  | close (s : Bytes)
  /-- `strcpy(sBody, tp)` -/
  | finish (s : Bytes)
  /-- `strlen` of a null pointer -/
  | fault
  /-- `tp` is behind the terminator of the template. -/
  | stray

namespace Cursor

/-- A text at `sBody`. -/
def response (c : Cursor) (s : Bytes) : Logged Write Cursor := do
  tell ⟨.params, c.sBody + s.length⟩
  pure { c with sBody := c.sBody + s.length }

def step (c : Cursor) : Op → Logged Write Cursor
  | .put s =>
    match c.tp2 with
    | none => c.response s
    | some seg => do
      tell ⟨.buftmp, seg.length + s.length⟩
      pure { c with tp2 := some (seg ++ s) }
  | .out s => c.response s
  | .print s => do
    tell ⟨.params, c.sBody + min (s.length + 1) 1024⟩
    pure { c with sBody := c.sBody + s.length }
  | .start => pure { c with tp2 := some [] }
  | .close s =>
    match c.tp2 with
    | none => do
      tell ⟨.nowhere, s.length + 1⟩
      stop
    | some seg => do
      tell ⟨.buftmp, seg.length + s.length + 1⟩
      tell ⟨.str1, ((seg ++ s).filter (· ≠ 92)).length + 1⟩
      let c ← c.response ((seg ++ s).filter (· ≠ 92))
      pure { c with tp2 := none }
  | .finish s => do
    tell ⟨.params, c.sBody + s.length + 1⟩
    pure { c with sBody := c.sBody + s.length }
  | .fault => stop
  | .stray => do
    tell ⟨.nowhere, 1⟩
    stop

def steps : Cursor → List Op → Logged Write Cursor
  | c, [] => pure c
  | c, op :: ops => do (← c.step op).steps ops

end Cursor

/-- The use of a pointer that may be null. -/
def orFault (o : Option Text) (f : Text → List Op) : List Op :=
  match o with
  | none => [.fault]
  | some s => f s

namespace Env

variable (e : Env)

def callbackOps (pre path : Bytes) : List Op :=
  .out pre :: orFault e.imgDomain fun d => [.out d, .print (e.query path)]

def ops (pre : Bytes) : Token → List Op
  | .imgdomain =>
    if e.imgDomain.isSome then .put pre :: orFault e.imgUrl fun u => [.put u] else []
  | .format =>
    let amp := if startsWith e.format 88 120 then ascii "&amp;p=" else ascii "&p="
    [.put pre, .put (snprintf 128 (e.format ++ amp ++ e.ppId))]
  | .imgsize => .put pre :: orFault e.nearWidth fun n => [.put n]
  | .sessionid => [.put pre, .put e.sessionId]
  | .img | .url => [.out pre, .start]
  | .endimg | .endurl => [.close pre]
  | .cbimp => e.callbackOps pre (ascii "/v2/cbimp")
  | .cbclk => e.callbackOps pre (ascii "/v2/cbclk")

/-- The rounds of the loop and the copy behind it. The byte before the template is the
allocator's and begins no token. -/
def script : Nat → Option UInt8 → Bytes → List Op
  | 0, _, _ => []
  | fuel + 1, prev, tp =>
    match tp.findIdx? (· = 36) with
    | none => [.finish tp]
    | some n =>
      match (if n = 0 then prev else tp[n - 1]?).bind fun c => tokenAt (c :: tp.drop n) with
      | some t => e.ops (before tp n) t ++
        if n + t.text.length ≤ tp.length + 1 then
          script fuel tp[n + t.text.length - 2]? (tp.drop (n + t.text.length - 1))
        else [.stray]
      | none => .put (tp.take (n + 1)) :: script fuel (some 36) (tp.drop (n + 1))

def bodyScript (template : Bytes) : List Op := e.script (template.length + 1) none template

end Env

namespace Request

variable (r : Request)

def mgetWrites : Logged Write Unit :=
  if r.listed then do
    tell ⟨.buftmp, (r.mget r.log.format).length + 1⟩
    tell ⟨.params, (r.mget (ascii "paymodeltype")).length + 1⟩
  else do
    tell ⟨.nowhere, 1⟩
    stop

/-- A further session id takes the place of the first. -/
def nextSession (k : Nat) : Logged Write Unit := if k = 0 then pure () else tell ⟨.params, 33⟩

/-- The loop over the bodies from `adnum` and `sBody` on. -/
def bodyWrites (r : Request) : Nat → Nat → List Ad → Logged Write Unit
  | _, _, [] => pure ()
  | k, sBody, ad :: ads =>
    match ad.body with
    | none => r.bodyWrites k sBody ads
    | some tp =>
      if r.space < sBody + tp.1.length + 500 then pure ()
      else do
        let _ ← ofOption ad.putinType
        nextSession k
        let c ← Cursor.steps ⟨if k = 0 then sBody else sBody + 1, none⟩
          ((r.env (r.sessionId k)).bodyScript tp)
        r.bodyWrites (k + 1) c.sBody ads

/-- The writes of a call. -/
def writes : Logged Write Unit := do
  r.mgetWrites
  let width ← ofOption r.nearWidth
  if width.isSome ∧ r.bodybyterepy.isSome then do
    tell ⟨.params, 33⟩
    r.bodyWrites 0 33 r.ads
  else pure ()

def size : Place → Nat
  | .buftmp => 1024
  | .str1 => 400
  | .params => r.space
  | .nowhere => 0

def Inside (w : Write) : Prop := w.stop ≤ r.size w.place

end Request

end Doorhinges.AdBody

import Doorhinges.JsonC.Object

/-!
# The tokener of json-c

`json_tokener_parse_ex` for a C string: a state machine with a stack of levels that takes one
character a turn, and may take it in several states.
-/
namespace Doorhinges.JsonC

open Lib.CString

/-- `enum json_tokener_error` but success, which is no error here. -/
inductive Err where
  | depth
  | parseEof
  | parseUnexpected
  | parseNull
  | parseBoolean
  | parseNumber
  | parseArray
  | parseObjectKeyName
  | parseObjectKeySep
  | parseObjectValueSep
  | parseString
  | parseComment
  deriving DecidableEq

/-- `enum json_tokener_state` -/
inductive State where
  | eatws
  | start
  | finish
  | null
  | commentStart
  | comment
  | commentEol
  | commentEnd
  | string
  | stringEscape
  | escapeUnicode
  | boolean
  | number
  | array
  | arrayAdd
  | arraySep
  | objectFieldStart
  | objectField
  | objectFieldEnd
  | objectValue
  | objectValueAdd
  | objectSep
  deriving DecidableEq

/-- `struct json_tokener_srec` -/
structure Srec (D : Type) where
  state : State
  savedState : State
  current : JsonObject D
  objFieldName : Option Bytes

/-- `json_tokener_reset_level` -/
def Srec.fresh (D : Type) : Srec D := ⟨.eatws, .start, .null, none⟩

def JSON_TOKENER_MAX_DEPTH : Nat := 32

/-- `struct json_tokener`: the level at `depth` and the ones below it. `obj` is the variable of
`json_tokener_parse_ex`. -/
structure JsonTokener (D : Type) where
  pb : Bytes
  isDouble : Bool
  stPos : Nat
  ucsChar : UInt32
  quoteChar : UInt8
  obj : JsonObject D
  top : Srec D
  below : List (Srec D)

/-- What a state does with the character: it is done, it is taken in the next state, or the
loop is left. -/
inductive Act (D : Type) where
  | next (tok : JsonTokener D)
  | redo (tok : JsonTokener D)
  | out (tok : JsonTokener D) (err : Option Err)

namespace JsonTokener

variable {D : Type} (t : JsonTokener D)

def new (D : Type) : JsonTokener D := ⟨[], false, 0, 0, 0, .null, Srec.fresh D, []⟩

def depth : Nat := t.below.length

def goto (s : State) : JsonTokener D := { t with top := { t.top with state := s } }

/-- Blanks and comments come first, then `s`. -/
def eatws (s : State) : JsonTokener D :=
  { t with top := { t.top with state := .eatws, savedState := s } }

/-- An escape, and then back to `s`. -/
def escape (s : State) : JsonTokener D :=
  { t with top := { t.top with state := .stringEscape, savedState := s } }

def setCurrent (v : JsonObject D) : JsonTokener D :=
  { t with top := { t.top with current := v } }

def append (b : Bytes) : JsonTokener D := { t with pb := t.pb ++ b }

/-- One level up, from state `s`. -/
def down (s : State) : JsonTokener D :=
  { t with top := Srec.fresh D, below := { t.top with state := s } :: t.below }

end JsonTokener

section Characters

/-- `strncasecmp` finds no difference in the first `n` characters. -/
def sameCase (n : Nat) (s t : Bytes) : Bool := caseEq (s.take n) (t.take n)

/-- The string in a buffer. -/
def cstr (b : Bytes) : Bytes := b.takeWhile (· ≠ 0)

def hexdigit (c : UInt8) : UInt32 :=
  if c ≤ 57 then c.toUInt32 - 48 else (c.toUInt32 &&& 7) + 9

/-- `strchr` finds the terminator too. -/
def isHexChar (c : UInt8) : Bool := c ∈ jsonHexChars || c = 0

def isNumberChar (c : UInt8) : Bool := c ∈ ascii "0123456789.+-e"

/-- The byte of `utf_out` that `u` ends up in. -/
def utfByte (mark u : UInt32) : UInt8 := (mark ||| u).toUInt8

/-- The bytes of an escaped character. -/
def utfOut (u : UInt32) : Bytes :=
  if u < 0x80 then [u.toUInt8]
  else if u < 0x800 then [utfByte 0xc0 (u >>> 6), utfByte 0x80 (u &&& 0x3f)]
  else [utfByte 0xe0 (u >>> 12), utfByte 0x80 ((u >>> 6) &&& 0x3f), utfByte 0x80 (u &&& 0x3f)]

/-- What a character stands for behind a backslash. -/
def escaped (c : UInt8) : Option UInt8 :=
  if c = 34 ∨ c = 92 ∨ c = 47 then some c
  else if c = 98 then some 8
  else if c = 110 then some 10
  else if c = 114 then some 13
  else if c = 116 then some 9
  else none

/-- `sscanf` with `%d` -/
def scanInt (s : Bytes) : Option Int32 :=
  let t := s.dropWhile isSpace
  let t := if t.head? = some 45 ∨ t.head? = some 43 then t.tail else t
  if t.head?.any isDigit then some (Int32.ofInt (strtol s)) else none

end Characters

section Machine

variable {D : Type} (F : Floats D)

/-- The number in the buffer. -/
def numberOf (t : JsonTokener D) : Option (JsonObject D) :=
  if t.isDouble then (F.sscanf t.pb).map .double else (scanInt t.pb).map .int

/-- The `switch` over the state. Undefined is an array to add to that is none, and a member to
add to what is no object or without a name. -/
def act (t : JsonTokener D) (c : UInt8) : Option (Act D) :=
  match t.top.state with
  | .eatws =>
    if isSpace c then some (.next t)
    else if c = 47 then some (.next { t.goto .commentStart with pb := [c] })
    else some (.redo (t.goto t.top.savedState))
  | .start =>
    if c = 123 then some (.next ((t.setCurrent (.object [])).eatws .objectFieldStart))
    else if c = 91 then some (.next ((t.setCurrent (.array [])).eatws .array))
    else if c = 78 ∨ c = 110 then some (.redo { t.goto .null with pb := [], stPos := 0 })
    else if c = 34 ∨ c = 39 then some (.next { t.goto .string with pb := [], quoteChar := c })
    else if c = 84 ∨ c = 116 ∨ c = 70 ∨ c = 102 then
      some (.redo { t.goto .boolean with pb := [], stPos := 0 })
    else if isDigit c ∨ c = 45 then
      some (.redo { t.goto .number with pb := [], isDouble := false })
    else some (.out t (some .parseUnexpected))
  | .finish =>
    match t.below with
    | [] => some (.out t none)
    | r :: rs => some (.redo { t with obj := t.top.current, top := r, below := rs })
  | .null =>
    let t := t.append [c]
    if sameCase (min (t.stPos + 1) 4) (ascii "null") t.pb then
      if t.stPos = 4 then some (.redo ((t.setCurrent .null).eatws .finish))
      else some (.next { t with stPos := t.stPos + 1 })
    else some (.out t (some .parseNull))
  | .commentStart =>
    if c = 42 then some (.next ((t.goto .comment).append [c]))
    else if c = 47 then some (.next ((t.goto .commentEol).append [c]))
    else some (.out t (some .parseComment))
  | .comment =>
    if c = 42 then some (.next ((t.goto .commentEnd).append [c])) else some (.next (t.append [c]))
  | .commentEol =>
    if c = 10 then some (.next (t.goto .eatws)) else some (.next (t.append [c]))
  | .commentEnd =>
    if c = 47 then some (.next ((t.append [c]).goto .eatws))
    else some (.next ((t.append [c]).goto .comment))
  | .string =>
    if c = t.quoteChar then some (.next ((t.setCurrent (.string (cstr t.pb))).eatws .finish))
    else if c = 92 then some (.next (t.escape .string))
    else some (.next (t.append [c]))
  | .stringEscape =>
    match escaped c with
    | some e => some (.next ((t.append [e]).goto t.top.savedState))
    | none =>
      if c = 117 then some (.next { t.goto .escapeUnicode with ucsChar := 0, stPos := 0 })
      else some (.out t (some .parseString))
  | .escapeUnicode =>
    if isHexChar c then
      let u := t.ucsChar + hexdigit c <<< (4 * (3 - t.stPos)).toUInt32
      let t := { t with ucsChar := u, stPos := t.stPos + 1 }
      if t.stPos = 4 then some (.next ((t.append (utfOut u)).goto t.top.savedState))
      else some (.next t)
    else some (.out t (some .parseString))
  | .boolean =>
    let t := t.append [c]
    if sameCase (min (t.stPos + 1) 4) (ascii "true") t.pb then
      if t.stPos = 4 then some (.redo ((t.setCurrent (.boolean true)).eatws .finish))
      else some (.next { t with stPos := t.stPos + 1 })
    else if sameCase (min (t.stPos + 1) 5) (ascii "false") t.pb then
      if t.stPos = 5 then some (.redo ((t.setCurrent (.boolean false)).eatws .finish))
      else some (.next { t with stPos := t.stPos + 1 })
    else some (.out t (some .parseBoolean))
  | .number =>
    if isNumberChar c then
      some (.next { t.append [c] with isDouble := t.isDouble || c = 46 || c = 101 })
    else
      match numberOf F t with
      | some v => some (.redo ((t.setCurrent v).eatws .finish))
      | none => some (.out t (some .parseNumber))
  | .array =>
    if c = 93 then some (.next (t.eatws .finish))
    else if JSON_TOKENER_MAX_DEPTH - 1 ≤ t.depth then some (.out t (some .depth))
    else some (.redo (t.down .arrayAdd))
  | .arrayAdd =>
    match t.top.current with
    | .array vs => some (.redo ((t.setCurrent (.array (vs ++ [t.obj]))).eatws .arraySep))
    | _ => none
  | .arraySep =>
    if c = 93 then some (.next (t.eatws .finish))
    else if c = 44 then some (.next (t.eatws .array))
    else some (.out t (some .parseArray))
  | .objectFieldStart =>
    if c = 125 then some (.next (t.eatws .finish))
    else if c = 34 ∨ c = 39 then
      some (.next { t.goto .objectField with pb := [], quoteChar := c })
    else some (.out t (some .parseObjectKeyName))
  | .objectField =>
    if c = t.quoteChar then
      some (.next ({ t with top := { t.top with objFieldName := some (cstr t.pb) } }.eatws
        .objectFieldEnd))
    else if c = 92 then some (.next (t.escape .objectField))
    else some (.next (t.append [c]))
  | .objectFieldEnd =>
    if c = 58 then some (.next (t.eatws .objectValue))
    else some (.out t (some .parseObjectKeySep))
  | .objectValue =>
    if JSON_TOKENER_MAX_DEPTH - 1 ≤ t.depth then some (.out t (some .depth))
    else some (.redo (t.down .objectValueAdd))
  | .objectValueAdd =>
    match t.top.current, t.top.objFieldName with
    | .object ms, some k =>
      some (.redo ({ t with top := { t.top with
        current := .object (objectAdd ms k t.obj), objFieldName := none } }.eatws .objectSep))
    | _, _ => none
  | .objectSep =>
    if c = 125 then some (.next (t.eatws .finish))
    else if c = 44 then some (.next (t.eatws .objectFieldStart))
    else some (.out t (some .parseObjectValueSep))

/-- What is left of the tokener behind a character, or behind the loop. -/
inductive Read (D : Type) where
  | more (tok : JsonTokener D)
  | out (tok : JsonTokener D) (err : Option Err)

/-- One character, taken in up to `k` states. -/
def takeChar : Nat → JsonTokener D → UInt8 → Option (Read D)
  | 0, _, _ => none
  | k + 1, t, c =>
    match act F t c with
    | none => none
    | some (.next t) => some (.more t)
    | some (.redo t) => takeChar k t c
    | some (.out t e) => some (.out t e)

/-- The states that one character is taken in are fewer. -/
def TURNS : Nat := 10

/-- Behind the terminator. -/
def eof (t : JsonTokener D) : Option Err :=
  if t.top.state ≠ .finish ∧ t.top.savedState ≠ .finish then some .parseEof else none

/-- `json_tokener_parse_ex`: the characters of a text and its terminator. -/
def jsonTokenerParseEx : JsonTokener D → Bytes → Option (JsonTokener D × Option Err)
  | t, [] =>
    match takeChar F TURNS t 0 with
    | none => none
    | some (.more t) => some (t, eof t)
    | some (.out t e) => some (t, e)
  | t, c :: s =>
    match takeChar F TURNS t c with
    | none => none
    | some (.more t) => if c = 0 then some (t, eof t) else jsonTokenerParseEx t s
    | some (.out t e) => some (t, e)

/-- `json_tokener_parse`: the value, or the error that its pointer stands for. -/
def jsonTokenerParse (text : Bytes) : Option (Except Err (JsonObject D)) :=
  (jsonTokenerParseEx F (.new D) text).map fun r =>
    match r.2 with
    | none => .ok r.1.top.current
    | some e => .error e

end Machine

end Doorhinges.JsonC

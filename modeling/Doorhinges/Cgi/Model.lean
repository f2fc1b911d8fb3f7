import Doorhinges.Query.Url

/-!
# CGI parameters

`Map_Cgi_Params` of cgi_util.cpp. Names and values are decoded one after another in the
same array `lexeme`, whose content is explicit, with whatever it held before. A result
`none` is a read outside the array.
-/
namespace Doorhinges.Cgi

open Lib.CString
open Query (cstr)

/-- One digit in the arithmetic of `x2c`, which takes every byte and is computed in chars:
a byte from 128 on is negative. -/
def hexValue (c : UInt8) : UInt8 := if 65 ≤ c && c < 128 then (c &&& 0xdf) - 65 + 10 else c - 48

def x2c (a b : UInt8) : UInt8 := hexValue a * 16 + hexValue b

/-- The loop of `unescape_url` and the terminator it writes, with the indices read; every
round takes at least one byte. -/
def unescapeFrom : Nat → Bytes → Nat → Nat → List Nat → Option (Bytes × List Nat)
  | 0, _, _, _, _ => none
  | fuel + 1, url, x, y, reads => do
    let c ← url[y]?
    if c = 0 then some (url.set x 0, reads ++ [y])
    else if c = 37 then do
      let url := url.set x c
      let a ← url[y + 1]?
      let b ← url[y + 2]?
      unescapeFrom fuel (url.set x (x2c a b)) (x + 1) (y + 3) (reads ++ [y, y + 1, y + 2])
    else unescapeFrom fuel (url.set x c) (x + 1) (y + 1) (reads ++ [y])

def unescapeUrl (url : Bytes) : Option (Bytes × List Nat) := unescapeFrom url.length url 0 0 []

/-- `map<string, string>`. -/
abbrev Params := Bytes → Option Bytes

/-- `param[name] = value`. -/
def Params.bind (param : Params) (name value : Bytes) : Params :=
  fun n => if n = name then some value else param n

inductive Token where
  | name
  | value
  deriving DecidableEq

/-- A read of the array, and where the terminator of the lexeme stood. -/
structure Read where
  index : Nat
  terminator : Nat
  deriving DecidableEq

structure Scan where
  token : Token
  name : Bytes
  param : Params
  lexeme : Bytes
  reads : List Read

def isDelim (c : UInt8) : Bool := c = 61 || c = 38

def plus (c : UInt8) : UInt8 := if c = 43 then 32 else c

/-- The lexeme and its terminator are copied to the start of the array. -/
def store (lexeme text : Bytes) : Bytes := text ++ 0 :: lexeme.drop (text.length + 1)

/-- The result is the number returned; the parameters set before an error stay. -/
structure Outcome where
  ret : Int
  param : Params
  reads : List Read

inductive Round where
  | more (s : Scan) (rest : Bytes)
  | done (o : Outcome)

/-- `tp == _NAME` skips delimiters. -/
def Scan.start (s : Scan) (rest : Bytes) : Bytes :=
  if s.token = .name then rest.dropWhile isDelim else rest

def textOf (rest : Bytes) : Bytes := rest.takeWhile fun c => !isDelim c

def afterText (rest : Bytes) : Bytes := rest.dropWhile fun c => !isDelim c

/-- What follows the decoding of a name; `after` is the buffer from `i` on. -/
def Scan.named (s : Scan) (after : Bytes) : Round :=
  if after.head? ≠ some 61 ∨ after.length = 1 then
    let param := if s.name = [] then s.param else s.param.bind s.name []
    if after.length ≠ 1 then .done ⟨-3, param, s.reads⟩
    else .more { s with param := param } after.tail
  else .more { s with token := .value } after.tail

/-- What follows the decoding of a value. -/
def Scan.valued (s : Scan) (value after : Bytes) : Round :=
  .more
    { s with
      token := .name
      param := if s.name = [] then s.param else s.param.bind s.name value }
    after.tail

/-- One round of the outer loop; `rest` is the buffer from `i` on. The string is read from
the array to its terminator. -/
def Scan.round (s : Scan) (rest : Bytes) : Option Round := do
  let text := textOf (s.start rest)
  let (lexeme, reads) ← unescapeUrl (store s.lexeme (text.map plus))
  let reads := reads ++ List.range ((cstr lexeme).length + 1)
  let s := { s with lexeme := lexeme, reads := s.reads ++ reads.map (Read.mk · text.length) }
  match s.token with
  | .name => some ({ s with name := cstr lexeme }.named (afterText (s.start rest)))
  | .value => some (s.valued (cstr lexeme) (afterText (s.start rest)))

/-- The outer loop; every round takes at least one byte. -/
def scan : Nat → Scan → Bytes → Option Outcome
  | _, s, [] => some ⟨0, s.param, s.reads⟩
  | 0, _, _ :: _ => none
  | fuel + 1, s, c :: rest => do
    match ← s.round (c :: rest) with
    | .more s rest => scan fuel s rest
    | .done o => some o

/-- `lexeme` is what `malloc` returns: an array one byte longer than the string, or none. -/
def mapCgiParams (param : Params) (buffer lexeme : Option Bytes) : Option Outcome :=
  match buffer with
  | none => some ⟨-1, param, []⟩
  | some buffer =>
    match lexeme with
    | none => some ⟨-2, param, []⟩
    | some lexeme => scan buffer.length ⟨.name, [], param, lexeme, []⟩ buffer

end Doorhinges.Cgi

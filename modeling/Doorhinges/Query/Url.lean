import Doorhinges.Lib.CString
import Mathlib.Data.List.TakeWhile

/-!
# Query strings

The coding of parameter values and the cutting of a query into parameters. A
line is a C string: what `url_decode` leaves is read up to its first zero byte.
-/
namespace Doorhinges.Query

open Lib.CString

def isXDigit (c : UInt8) : Bool := isDigit c || 65 ≤ c && c ≤ 70 || 97 ≤ c && c ≤ 102

/-- `HEXTOI` of the lower case letter. -/
def hexToI (c : UInt8) : UInt8 := if isDigit (lower c) then lower c - 48 else lower c - 87

def MAX_REQUEST_BUF_SIZE : Nat := 16384

section Decode

variable (comma form : Bool)

/-- What becomes of a byte that does not start an escape. -/
def plainByte (c : UInt8) : UInt8 :=
  if form && c = 43 then 32 else if comma && c = 44 then 32 else c

/-- `url_decode` without its bound; `url_decode1` also turns commas into blanks. -/
def decode : Bytes → Bytes
  | [] => []
  | [c] => [plainByte comma form c]
  | [c, a] => [plainByte comma form c, plainByte comma form a]
  | c :: a :: b :: rest =>
    if c = 37 && isXDigit a && isXDigit b then (hexToI a <<< 4 ||| hexToI b) :: decode rest
    else plainByte comma form c :: decode (a :: b :: rest)

end Decode

def urlDecode (src : Bytes) (dstLen : Nat) (form : Bool) : Bytes :=
  (decode false form src).take (dstLen - 1)

def urlDecode1 (src : Bytes) (dstLen : Nat) (form : Bool) : Bytes :=
  (decode true form src).take (dstLen - 1)

/-- The bytes up to the terminator. -/
def cstr (s : Bytes) : Bytes := s.takeWhile (· ≠ 0)

theorem cstr_nul (s : Bytes) : 0 ∉ cstr s := by
  intro h
  simpa using List.mem_takeWhile_imp h

section Encode

def isAlpha (c : UInt8) : Bool := 65 ≤ c && c ≤ 90 || 97 ≤ c && c ≤ 122

def escapes (doSpecialChar : Bool) (c : UInt8) : Bool :=
  c < 32 || 128 ≤ c || c = 127 || c = 37 ||
    doSpecialChar && !isDigit c && !isAlpha c && !(ascii "-_.!~*'()").contains c

def hexDigit (n : UInt8) : UInt8 := if n < 10 then 48 + n else 55 + n

/-- The text of `%%%02X`. -/
def escape (c : UInt8) : Bytes := [37, hexDigit (c >>> 4), hexDigit (c &&& 15)]

/-- The loop of `url_encode` with `used` bytes written. -/
def encodeFrom (doSpecialChar : Bool) (buflen : Nat) : Nat → Bytes → Bytes
  | _, [] => []
  | used, c :: rest =>
    if c = 0 ∨ buflen ≤ used + 1 then []
    else if escapes doSpecialChar c then
      if buflen ≤ used + 3 then [] else escape c ++ encodeFrom doSpecialChar buflen (used + 3) rest
    else c :: encodeFrom doSpecialChar buflen (used + 1) rest

def urlEncode (s : Bytes) (buflen : Nat) (doSpecialChar : Bool) : Bytes :=
  encodeFrom doSpecialChar buflen 0 s

end Encode

/-- One token of `mystrtok` with the separator `&`, and what is left. -/
def mystrtok (s : Bytes) : Option (Bytes × Bytes) :=
  let start := s.dropWhile (· = 38)
  if start = [] then none
  else some (start.takeWhile (· ≠ 38), (start.dropWhile (· ≠ 38)).tail)

/-- The tokens `mystrtok` returns in turn; each takes at least one byte. -/
def tokensUpTo : Nat → Bytes → List Bytes
  | 0, _ => []
  | n + 1, s =>
    match mystrtok s with
    | none => []
    | some (pk, rest) => pk :: tokensUpTo n rest

def tokens (s : Bytes) : List Bytes := tokensUpTo s.length s

/-- The search of `ais_get_var`; `first` says that a name may start here. -/
def findVar (name : Bytes) : Bool → Bytes → Option Bytes
  | _, [] => none
  | first, c :: rest =>
    if first ∧ (c :: rest)[name.length]? = some 61 ∧
        caseEq name ((c :: rest).take name.length) then
      some (((c :: rest).drop (name.length + 1)).takeWhile (· ≠ 38))
    else findVar name (c = 38) rest

/-- The decoded value, with the zero bytes it may contain; `none` is the result -1. -/
def aisGetVar (buf name : Bytes) (dstLen : Nat) : Option Bytes := do
  let value ← findVar name true buf
  if value.length < dstLen then
    some (if caseEq (name.take 7) (ascii "groupby") then urlDecode value dstLen true
      else urlDecode1 value dstLen true)
  else none

/-- The name of a parameter; a token without `=` has none. -/
def nameOf (pk : Bytes) : Option Bytes :=
  if 61 ∈ pk then some ((pk.takeWhile (· ≠ 61)).take 255) else none

/-- The place of a name in a table of parameter names, its length when it is unknown. -/
def getMask (params : List Bytes) (key : Bytes) : Nat := params.findIdx (caseEq · key)

example : tokens (ascii "r&key=K&&enddate=") = [ascii "r", ascii "key=K", ascii "enddate="] := by
  decide
example : aisGetVar (ascii "Key=a%2Cb+c,d") (ascii "key") 2048 = some (ascii "a,b c d") := by
  decide

end Doorhinges.Query

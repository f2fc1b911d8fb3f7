import Doorhinges.Query.Url
import Mathlib.Logic.Function.Basic

/-!
# The parameters of an advertisement request

`ais_get` decodes the request line, cuts it at its marker and gives it to
`ais_ad_set`, which takes it apart and decodes each value again. The macros of
`ais_ad_set` are listed for each parameter in the order the source has them.
-/
namespace Doorhinges.Params

open Lib.CString
open Query

/-- The entries of the table `params`, in its order. -/
inductive Param where
  | ah
  | appName
  | aw
  | category
  | client
  | density
  | deviceNum
  | format
  | ip
  | lat
  | long
  | net
  | operator
  | osVersion
  | ph
  | pw
  | key
  | timeStamp
  | uuid
  | sign
  | adSpaceType
  | deviceType
  | sdkVersion
  | appId
  | assUri
  | assIp
  | adNum
  deriving DecidableEq

def params : List (Param × Bytes) :=
  [(.ah, ascii "Ah"), (.appName, ascii "AppName"), (.aw, ascii "Aw"),
    (.category, ascii "Category"), (.client, ascii "Client"), (.density, ascii "Density"),
    (.deviceNum, ascii "DeviceNum"), (.format, ascii "Format"), (.ip, ascii "Ip"),
    (.lat, ascii "Lat"), (.long, ascii "Long"), (.net, ascii "Net"),
    (.operator, ascii "Operator"), (.osVersion, ascii "Os_version"), (.ph, ascii "Ph"),
    (.pw, ascii "Pw"), (.key, ascii "Key"), (.timeStamp, ascii "TimeStamp"),
    (.uuid, ascii "Uuid"), (.sign, ascii "Sign"), (.adSpaceType, ascii "AdSpaceType"),
    (.deviceType, ascii "DeviceType"), (.sdkVersion, ascii "SdkVersion"),
    (.appId, ascii "AppId"), (.assUri, ascii "AssUri"), (.assIp, ascii "AssIp"),
    (.adNum, ascii "AdNum")]

/-- `ais_get_mask`; absent for an unknown name. -/
def aisGetMask (key : Bytes) : Option Param := (params.find? fun p => caseEq p.2 key).map (·.1)

/-- The text `unknown` stands for. -/
def unknown : Bytes := [0xE6, 0x9C, 0xAA, 0xE7, 0x9F, 0xA5]

inductive Code where
  | ecodeBult
  | parametrerNotfull
  | parameterContainingIllegalCharacters
  | emptyParametrerIllegal (p : Param)
  | nanParametrerIllegal (p : Param)
  deriving DecidableEq

/-- `ais_adparams` and what else `ais_ad_set` writes: `text` is what the switch stores for a
parameter, `last` is `adparams_buf_last`. -/
structure Ap where
  text : Param → Option Bytes
  flags : List Param
  last : Nat
  code : Code
  parray : List Bytes

def Ap.start : Ap := ⟨fun _ => none, [], 0, .ecodeBult, []⟩

def alldig (s : Bytes) : Bool := s ≠ [] && s.all isDigit

/-- The numbers `sscanf` reads for a row of `%d` with dots between them. -/
def scanInts : Nat → Bytes → Option (List Int)
  | 0, _ => some []
  | n + 1, s =>
    if s.takeWhile isDigit = [] then none
    else if n = 0 then some [atoi (s.takeWhile isDigit)]
    else
      match s.dropWhile isDigit with
      | 46 :: t => (scanInts n t).map (atoi (s.takeWhile isDigit) :: ·)
      | _ => none

def isIpAdress (s : Bytes) : Bool :=
  s.all (fun c => isDigit c || c = 46) &&
    match scanInts 4 s with
    | some l => l.all fun n => 0 ≤ n && n ≤ 255
    | none => false

/-- The macros of `ais_ad_set`. -/
inductive Macro where
  | where (code : Code)
  | lenOrError
  | overlongError (len : Nat)
  | alldigOrError
  | alldigUnlessEmpty
  | ipOrError
  | copy
  | nonzeroOrError

/-- `copy` checks the room in the parameter buffer; `my_strlcpy` copies up to the first zero
byte and pads. -/
def runMacro (p : Param) (var : Bytes) (c : Ap) : Macro → Ap × Bool
  | .where code => ({ c with code := code }, true)
  | .lenOrError => (c, var ≠ [])
  | .overlongError len => (c, var.length ≤ len)
  | .alldigOrError => (c, alldig (cstr var))
  | .alldigUnlessEmpty => (c, var = [] || alldig (cstr var))
  | .ipOrError => (c, isIpAdress (cstr var))
  | .copy =>
    if MAX_REQUEST_BUF_SIZE < c.last + var.length + 2 then (c, false)
    else
      ({ c with text := Function.update c.text p (some (cstr var)), last := c.last + var.length + 1 },
        true)
  | .nonzeroOrError => (c, atoi (cstr var) ≠ 0)

def runMacros (p : Param) (var : Bytes) : Ap → List Macro → Ap × Bool
  | c, [] => (c, true)
  | c, m :: ms =>
    let r := runMacro p var c m
    if r.2 then runMacros p var r.1 ms else r

/-- The constant that stands for an empty value, where there is one. -/
def emptyText : Param → Option Bytes
  | .net => some (ascii "3")
  | .osVersion | .sdkVersion => some unknown
  | .deviceType => some (ascii "1")
  | _ => none

section Cases

variable (p : Param) (len : Nat)

/-- A number that must be there. -/
def number : List Macro :=
  [.where (.emptyParametrerIllegal p), .lenOrError, .where (.nanParametrerIllegal p),
    .overlongError len, .alldigOrError, .copy]

/-- A text whose length is checked once it is copied. -/
def copiedText : List Macro := [.copy, .where (.nanParametrerIllegal p), .overlongError len]

/-- A text whose length is checked first. -/
def checkedText : List Macro := [.where (.nanParametrerIllegal p), .overlongError len, .copy]

/-- A number that may be empty. -/
def emptyNumber : List Macro :=
  [.where (.nanParametrerIllegal p), .overlongError len, .alldigUnlessEmpty, .copy]

/-- A text that must be there. -/
def neededText : List Macro := [.where (.emptyParametrerIllegal p), .lenOrError, .copy]

end Cases

def macros : Param → List Macro
  | .ah => number .ah 5
  | .appName => copiedText .appName 50
  | .aw => number .aw 5
  | .category => number .category 2
  | .client => number .client 1
  | .density => checkedText .density 5
  | .deviceNum => copiedText .deviceNum 20
  | .format => copiedText .format 4
  | .ip =>
    [.where (.emptyParametrerIllegal .ip), .lenOrError, .ipOrError, .copy,
      .where (.nanParametrerIllegal .ip), .overlongError 20]
  | .lat => checkedText .lat 20
  | .long => checkedText .long 20
  | .net => [.where (.nanParametrerIllegal .net), .overlongError 1, .alldigOrError, .copy]
  | .operator => number .operator 1
  | .osVersion => copiedText .osVersion 20
  | .ph => emptyNumber .ph 5
  | .pw => emptyNumber .pw 5
  | .key => neededText .key
  | .timeStamp => neededText .timeStamp
  | .uuid => neededText .uuid ++ [.where (.nanParametrerIllegal .uuid), .overlongError 50]
  | .sign => neededText .sign
  | .adSpaceType =>
    [.where (.emptyParametrerIllegal .adSpaceType), .lenOrError,
      .where (.nanParametrerIllegal .adSpaceType), .overlongError 1, .copy, .nonzeroOrError]
  | .deviceType => checkedText .deviceType 1
  | .sdkVersion => checkedText .sdkVersion 20
  | .appId =>
    [.where (.emptyParametrerIllegal .appId), .lenOrError, .where (.nanParametrerIllegal .appId),
      .overlongError 100, .copy]
  | .assUri => [.lenOrError, .copy]
  | .assIp => [.lenOrError, .copy]
  | .adNum => [.copy]

/-- The switch of `ais_ad_set`. -/
def setParam (c : Ap) (p : Param) (var : Bytes) : Ap × Bool :=
  match emptyText p with
  | some s =>
    if var = [] then ({ c with text := Function.update c.text p (some s) }, true)
    else runMacros p var c (macros p)
  | none => runMacros p var c (macros p)

/-- The tokens for the signature leave out empty values and three parameters. -/
def Ap.keep (c : Ap) (p : Option Param) (pk var : Bytes) : Ap :=
  if var ≠ [] ∧ c.parray.length < 64 ∧ p ≠ some .assUri ∧ p ≠ some .assIp ∧ p ≠ some .sign then
    { c with parray := c.parray ++ [pk] }
  else c

/-- A parameter of the table may come once. -/
def setKnown (c : Ap) (p : Param) (var : Bytes) : Ap × Bool :=
  if p ∈ c.flags then (c, false)
  else
    let r := setParam { c with code := .parametrerNotfull } p var
    if r.2 then ({ r.1 with flags := p :: r.1.flags }, true) else r

/-- One round of the loop of `ais_ad_set`, and whether it goes on. -/
def setToken (c : Ap) (pk : Bytes) : Ap × Bool :=
  match nameOf pk with
  | none => (c, true)
  | some key =>
    match aisGetVar pk key 2048 with
    | none => ({ c with code := .parameterContainingIllegalCharacters }, false)
    | some var =>
      let c := c.keep (aisGetMask key) pk var
      match aisGetMask key with
      | none => (c, true)
      | some p => setKnown c p var

def setTokens : Ap → List Bytes → Ap × Bool
  | c, [] => (c, true)
  | c, pk :: pks =>
    let r := setToken c pk
    if r.2 then setTokens r.1 pks else r

def aisAdSet (c : Ap) (s : Bytes) : Ap × Bool := setTokens c (tokens s)

/-- An address that is replaced by the one the web server adds. -/
def isLan (ip : Bytes) : Bool :=
  [ascii "10.", ascii "192.168", ascii "127"].any (·.isPrefixOf ip)

/-- Where the pointers point when `ais_ad_set` has succeeded. -/
def Ap.final (c : Ap) : Param → Option Bytes
  | .format =>
    some (if ∃ f ∈ c.text .format, caseEq f (ascii "xml") then ascii "xml" else ascii "json")
  | .net => some ((c.text .net).getD (ascii "0"))
  | .deviceType => some ((c.text .deviceType).getD (ascii "1"))
  | .osVersion => some ((c.text .osVersion).getD unknown)
  | .sdkVersion => some ((c.text .sdkVersion).getD unknown)
  | .ip =>
    match c.text .ip with
    | none => c.text .assIp
    | some ip => if isLan ip then c.text .assIp else some ip
  | p => c.text p

def marker : Bytes := ascii "LOMARKID"

/-- The text before the first marker. -/
def cutMarker : Bytes → Bytes
  | [] => []
  | c :: s => if marker.isPrefixOf (c :: s) then [] else c :: cutMarker s

/-- `ais_get` up to the call of `ais_ad_set`, with the attributes of a new request. -/
def aisGet (bufr : Bytes) : Ap × Bool :=
  aisAdSet .start (cutMarker (cstr (urlDecode bufr MAX_REQUEST_BUF_SIZE true)))

end Doorhinges.Params

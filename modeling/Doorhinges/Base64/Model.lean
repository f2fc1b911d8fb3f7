import Doorhinges.Lib.BitGroups
import Doorhinges.Lib.CString
import Doorhinges.Lib.Cells
import Doorhinges.Lib.Logged

/-!
# Base64

`base64_encode` and `base64_decode` of `allais.c`. Every write is logged with the size of the
buffer it goes to; a write into `ret` that lies outside has no result. `changed` and `need` are
arrays on the stack, and `need` is never read.
-/
namespace Doorhinges.Base64

open Lib
open Lib.BitGroups
open Lib.CString
open Lib.Cells
open Lib.Logged

inductive Buffer where
  | ret
  | changed
  | need
  deriving DecidableEq

/-- A byte written at `pos` of a buffer of `size` bytes. -/
structure Write where
  buf : Buffer
  pos : Nat
  size : Nat
  deriving DecidableEq

def Write.Inside (w : Write) : Prop := w.pos < w.size

instance (w : Write) : Decidable w.Inside := inferInstanceAs (Decidable (w.pos < w.size))

def base : Bytes := ascii "ABCDEFGHIJKLMNOPQRSTUVWXYZabcdefghijklmnopqrstuvwxyz0123456789+/="

/-- `memset` of `n` bytes of a buffer. -/
def clear (buf : Buffer) (size n : Nat) : Logged Write Unit :=
  (List.range n).forM fun i => tell ⟨buf, i, size⟩

/-- `ret` and the offset of `f` in it. -/
abbrev Out := Bytes × Nat

/-- `*f = c; f++`. -/
def put (out : Out) (c : UInt8) : Logged Write Out := do
  tell ⟨.ret, out.2, out.1.length⟩
  let ret ← ofOption (store out.1 out.2 [c])
  pure (ret, out.2 + 1)

/-- The `malloc` of `ret_len` bytes, which is an int, and its `memset`. -/
def alloc (retLen : Nat) : Logged Write Out := do
  if retLen < 2 ^ 31 then
    clear .ret retLen retLen
    pure (List.replicate retLen 0, 0)
  else Logged.stop

/-- The inner loops: up to `n` of the numbers that stand for the bytes of `data` are shifted
into `prepare`. The result is `prepare`, `temp` and what is left of `data`. -/
def gather (number : UInt8 → Option Nat) (width : Nat) :
    Nat → Bytes → Nat → Nat → Option (Nat × Nat × Bytes)
  | 0, data, prepare, temp => some (prepare, temp, data)
  | _ + 1, [], prepare, temp => some (prepare, temp, [])
  | n + 1, c :: data, prepare, temp => do
    let v ← number c
    gather number width n data (prepare <<< width ||| v) (temp + 1)

/-- The `i`-th character of a group of `temp` bytes. -/
def putChanged (prepare temp : Nat) (out : Out) (i : Nat) : Logged Write Out := do
  tell ⟨.changed, i, 4⟩
  let j := if temp < i then 0x40 else prepare >>> ((3 - i) * 6) % 2 ^ 6
  let c ← ofOption base[j]?
  put out c

def encodeLoop : Nat → Bytes → Out → Logged Write Out
  | 0, _, _ => Logged.stop
  | _ + 1, [], out => pure out
  | n + 1, c :: data, out => do
    clear .changed 4 4
    let (prepare, temp, data) ← ofOption (gather (some ·.toNat) 8 3 (c :: data) 0 0)
    let prepare := prepare <<< ((3 - temp) * 8)
    let out ← (List.range 4).foldlM (putChanged prepare temp) out
    encodeLoop n data out

/-- The result is the content of `ret`. -/
def base64Encode (data : Bytes) : Logged Write Bytes := do
  let retLen := (data.length / 3 + if data.length % 3 > 0 then 1 else 0) * 4 + 1
  let out ← alloc retLen
  let out ← encodeLoop (data.length + 1) data out
  let out ← put out 0
  pure out.1

/-- The index of the last occurrence, that of the terminator for 0; the difference of a null
pointer and `base` is no number. -/
def findPos (ch : UInt8) : Option Nat :=
  if ch = 0 then some base.length
  else (base.reverse.findIdx? (· = ch)).map (base.length - 1 - ·)

/-- `*(data + data_len - k)`. -/
def fromEnd (data : Bytes) (k : Nat) : Option UInt8 :=
  if k ≤ data.length then data[data.length - k]? else none

def equalCount (data : Bytes) : Option Nat := do
  let a ← fromEnd data 1
  let b ← fromEnd data 2
  let c ← fromEnd data 3
  some ((if a = 61 then 1 else 0) + (if b = 61 then 1 else 0) + if c = 61 then 1 else 0)

def decodeLoop : Nat → Bytes → Out → Logged Write Out
  | 0, _, _ => Logged.stop
  | _ + 1, [], out => pure out
  | n + 1, c :: data, out => do
    clear .need 3 4
    let (prepare, temp, data) ← ofOption (gather findPos 6 4 (c :: data) 0 0)
    let prepare := prepare <<< ((4 - temp) * 6)
    let out ← ((List.range 3).takeWhile (· ≠ temp)).foldlM
      (fun out i => put out (prepare >>> ((2 - i) * 8) % 2 ^ 8).toUInt8) out
    decodeLoop n data out

def decodedLen (dataLen equalCount : Nat) : Nat :=
  dataLen / 4 * 3 +
    match equalCount with
    | 0 => 4
    | 1 => 4
    | 2 => 3
    | 3 => 2
    | _ => 0

def base64Decode (data : Bytes) : Logged Write Bytes := do
  let equalCount ← ofOption (equalCount data)
  let out ← alloc (decodedLen data.length equalCount)
  let out ← decodeLoop (data.length + 1) (data.take (data.length - equalCount)) out
  let out ← put out 0
  pure out.1

end Doorhinges.Base64

import Doorhinges.Lib.BlockBuffer
import Doorhinges.Lib.CString

/-!
# The message digest

`MD5Update` takes a text piece by piece. The context after a row of pieces is a function of
the bytes in them: where a piece ends leaves no trace, and neither does what was in the block
of the context before its first use.
-/
namespace Doorhinges.Params

open Lib.BlockBuffer
open Lib.Bump (overwrite)
open Lib.CString

/-- The registers of `MD5Transform` in the order in which a step names them. -/
structure Words where
  w : UInt32
  x : UInt32
  y : UInt32
  z : UInt32
  deriving DecidableEq

/-- `MD5_CTX`; `block` is its `in`. -/
structure Md5Ctx where
  buf : Words
  bits : UInt32 × UInt32
  block : Bytes

def f1 (x y z : UInt32) : UInt32 := z ^^^ (x &&& (y ^^^ z))

def f2 (x y z : UInt32) : UInt32 := f1 z x y

def f3 (x y z : UInt32) : UInt32 := x ^^^ y ^^^ z

def f4 (x y z : UInt32) : UInt32 := y ^^^ (x ||| ~~~z)

/-- `MD5STEP`; the next step names the registers one place further. -/
def md5Step (f : UInt32 → UInt32 → UInt32 → UInt32) (input : List UInt32) (r : Words)
    (e : Nat × UInt32 × UInt32) : Words :=
  let w := r.w + (f r.x r.y r.z + (input.getD e.1 0 + e.2.1))
  ⟨r.z, (w <<< e.2.2 ||| w >>> (32 - e.2.2)) + r.x, r.x, r.y⟩

/-- The word that is added, the constant and the shift of each step. -/
def round1 : List (Nat × UInt32 × UInt32) :=
  [(0, 0xd76aa478, 7), (1, 0xe8c7b756, 12), (2, 0x242070db, 17), (3, 0xc1bdceee, 22),
    (4, 0xf57c0faf, 7), (5, 0x4787c62a, 12), (6, 0xa8304613, 17), (7, 0xfd469501, 22),
    (8, 0x698098d8, 7), (9, 0x8b44f7af, 12), (10, 0xffff5bb1, 17), (11, 0x895cd7be, 22),
    (12, 0x6b901122, 7), (13, 0xfd987193, 12), (14, 0xa679438e, 17), (15, 0x49b40821, 22)]

def round2 : List (Nat × UInt32 × UInt32) :=
  [(1, 0xf61e2562, 5), (6, 0xc040b340, 9), (11, 0x265e5a51, 14), (0, 0xe9b6c7aa, 20),
    (5, 0xd62f105d, 5), (10, 0x02441453, 9), (15, 0xd8a1e681, 14), (4, 0xe7d3fbc8, 20),
    (9, 0x21e1cde6, 5), (14, 0xc33707d6, 9), (3, 0xf4d50d87, 14), (8, 0x455a14ed, 20),
    (13, 0xa9e3e905, 5), (2, 0xfcefa3f8, 9), (7, 0x676f02d9, 14), (12, 0x8d2a4c8a, 20)]

def round3 : List (Nat × UInt32 × UInt32) :=
  [(5, 0xfffa3942, 4), (8, 0x8771f681, 11), (11, 0x6d9d6122, 16), (14, 0xfde5380c, 23),
    (1, 0xa4beea44, 4), (4, 0x4bdecfa9, 11), (7, 0xf6bb4b60, 16), (10, 0xbebfbc70, 23),
    (13, 0x289b7ec6, 4), (0, 0xeaa127fa, 11), (3, 0xd4ef3085, 16), (6, 0x04881d05, 23),
    (9, 0xd9d4d039, 4), (12, 0xe6db99e5, 11), (15, 0x1fa27cf8, 16), (2, 0xc4ac5665, 23)]

def round4 : List (Nat × UInt32 × UInt32) :=
  [(0, 0xf4292244, 6), (7, 0x432aff97, 10), (14, 0xab9423a7, 15), (5, 0xfc93a039, 21),
    (12, 0x655b59c3, 6), (3, 0x8f0ccc92, 10), (10, 0xffeff47d, 15), (1, 0x85845dd1, 21),
    (8, 0x6fa87e4f, 6), (15, 0xfe2ce6e0, 10), (6, 0xa3014314, 15), (13, 0x4e0811a1, 21),
    (4, 0xf7537e82, 6), (11, 0xbd3af235, 10), (2, 0x2ad7d2bb, 15), (9, 0xeb86d391, 21)]

/-- The words of a block on a machine with the low byte first. -/
def words : Bytes → List UInt32
  | a :: b :: c :: d :: rest =>
    (a.toUInt32 ||| b.toUInt32 <<< 8 ||| c.toUInt32 <<< 16 ||| d.toUInt32 <<< 24) :: words rest
  | _ => []

def wordBytes (w : UInt32) : Bytes :=
  [w.toUInt8, (w >>> 8).toUInt8, (w >>> 16).toUInt8, (w >>> 24).toUInt8]

def md5Transform (buf : Words) (block : Bytes) : Words :=
  let r := round1.foldl (md5Step f1 (words block)) buf
  let r := round2.foldl (md5Step f2 (words block)) r
  let r := round3.foldl (md5Step f3 (words block)) r
  let r := round4.foldl (md5Step f4 (words block)) r
  ⟨buf.w + r.w, buf.x + r.x, buf.y + r.y, buf.z + r.z⟩

/-- `stack` is what the memory of the context held. -/
def md5Init (stack : Bytes) : Md5Ctx :=
  ⟨⟨0x67452301, 0xefcdab89, 0x98badcfe, 0x10325476⟩, (0, 0), stack⟩

/-- How much of the block is filled. -/
def Md5Ctx.fill (c : Md5Ctx) : Nat := ((c.bits.1 >>> 3) &&& 0x3f).toNat

def Md5Ctx.state (c : Md5Ctx) : State Words UInt8 := ⟨c.buf, c.block, c.fill⟩

def md5Update (c : Md5Ctx) (buf : Bytes) (len : UInt32) : Md5Ctx :=
  let low := c.bits.1 + (len <<< 3)
  let high := if low < c.bits.1 then c.bits.2 + 1 else c.bits.2
  let s := update md5Transform 64 c.state (buf.take len.toNat)
  ⟨s.chain, (low, high + (len >>> 29)), s.block⟩

def md5Final (c : Md5Ctx) : Bytes :=
  let count := 63 - c.fill
  let block := overwrite c.block c.fill [0x80]
  let (buf, block) :=
    if count < 8 then
      let block := overwrite block (c.fill + 1) (List.replicate count 0)
      (md5Transform c.buf block, overwrite block 0 (List.replicate 56 0))
    else (c.buf, overwrite block (c.fill + 1) (List.replicate (count - 8) 0))
  let buf := md5Transform buf (overwrite block 56 (wordBytes c.bits.1 ++ wordBytes c.bits.2))
  wordBytes buf.w ++ wordBytes buf.x ++ wordBytes buf.y ++ wordBytes buf.z

def hexDigits : Bytes := ascii "0123456789abcdef"

def bin2str (p : Bytes) : Bytes :=
  p.flatMap fun c => [hexDigits.getD (c.toNat / 16) 0, hexDigits.getD (c.toNat % 16) 0]

/-- The calls of `MD5Update`, each with the length it is given. -/
def updates (c : Md5Ctx) (calls : List Bytes) : Md5Ctx :=
  calls.foldl (fun c p => md5Update c p (UInt32.ofNat p.length)) c

example : bin2str (md5Final
      (updates (md5Init (List.replicate 64 7)) [ascii "message", ascii " digest"])) =
    ascii "f96b697d7cb7938d525a2f31aaf161d0" := by
  decide +kernel

section Update

variable {c d : Md5Ctx} {buf : Bytes} {len : UInt32}

/-- The number of bits that have been taken. -/
def Md5Ctx.count (c : Md5Ctx) : Nat := c.bits.1.toNat + 2 ^ 32 * c.bits.2.toNat

theorem fill_eq (c : Md5Ctx) : c.fill = c.count / 8 % 64 := by
  have hlow : c.fill = c.bits.1.toNat / 8 % 64 := by
    rw [Md5Ctx.fill, UInt32.toNat_and, UInt32.toNat_shiftRight]
    exact (Nat.and_two_pow_sub_one_eq_mod _ 6).trans (by rw [Nat.shiftRight_eq_div_pow]; rfl)
  rw [hlow, Md5Ctx.count]
  omega

theorem fill_lt (c : Md5Ctx) : c.fill < 64 := by
  rw [fill_eq]
  exact Nat.mod_lt _ (by decide)

theorem bits_eq (h : c.count = d.count) : c.bits = d.bits := by
  rw [Md5Ctx.count, Md5Ctx.count] at h
  have hc := c.bits.1.toNat_lt
  have hd := d.bits.1.toNat_lt
  exact Prod.ext (UInt32.toNat_inj.1 (by omega)) (UInt32.toNat_inj.1 (by omega))

/-- The two words count the bits as one number. -/
theorem count_md5Update (c : Md5Ctx) (buf : Bytes) (len : UInt32) :
    (md5Update c buf len).count = (c.count + 8 * len.toNat) % 2 ^ 64 := by
  have hlow := c.bits.1.toNat_lt
  have hhigh := c.bits.2.toNat_lt
  have hlen := len.toNat_lt
  have hshift : (len <<< 3).toNat = 8 * len.toNat % 2 ^ 32 := by
    rw [UInt32.toNat_shiftLeft, Nat.shiftLeft_eq]
    exact congrArg (· % 2 ^ 32) (Nat.mul_comm ..)
  have hrest : (len >>> 29).toNat = len.toNat / 2 ^ 29 := by
    rw [UInt32.toNat_shiftRight, Nat.shiftRight_eq_div_pow]
    rfl
  rw [md5Update, Md5Ctx.count, Md5Ctx.count]
  dsimp only
  split
  · rename_i hcarry
    rw [UInt32.lt_iff_toNat_lt, UInt32.toNat_add, hshift] at hcarry
    rw [UInt32.toNat_add, UInt32.toNat_add, UInt32.toNat_add, hshift, hrest, UInt32.toNat_one]
    omega
  · rename_i hcarry
    rw [UInt32.lt_iff_toNat_lt, UInt32.toNat_add, hshift] at hcarry
    rw [UInt32.toNat_add, UInt32.toNat_add, hshift, hrest]
    omega

/-- The buffer after a piece is the one after its bytes. -/
theorem state_md5Update (hblock : c.block.length = 64) (hlen : buf.length = len.toNat) :
    (md5Update c buf len).state = buf.foldl (put md5Transform 64) c.state := by
  have hupdate : update md5Transform 64 c.state (buf.take len.toNat) =
      buf.foldl (put md5Transform 64) c.state := by
    rw [← hlen, List.take_length]
    exact update_eq md5Transform hblock (fill_lt c)
  obtain ⟨-, hfill⟩ := length_foldl_put md5Transform (s := c.state) hblock (fill_lt c) buf
  have hcount : (md5Update c buf len).fill = (c.fill + buf.length) % 64 := by
    rw [fill_eq, count_md5Update, fill_eq, hlen]
    omega
  rw [Md5Ctx.state, hcount, md5Update]
  dsimp only
  rw [hupdate]
  exact congrArg _ hfill.symm

theorem updates_eq {calls : List Bytes} (hcalls : ∀ p ∈ calls, p.length < 2 ^ 32)
    (hblock : c.block.length = 64) :
    (updates c calls).count = (c.count + 8 * calls.flatten.length) % 2 ^ 64 ∧
      (updates c calls).state = calls.flatten.foldl (put md5Transform 64) c.state := by
  induction calls generalizing c with
  | nil =>
    have hlow := c.bits.1.toNat_lt
    have hhigh := c.bits.2.toNat_lt
    have hlt : c.count < 2 ^ 64 := by
      rw [Md5Ctx.count]
      omega
    exact ⟨(Nat.mod_eq_of_lt hlt).symm, rfl⟩
  | cons p calls ih =>
    obtain ⟨hp, hcalls⟩ := List.forall_mem_cons.1 hcalls
    have hlen : p.length = (UInt32.ofNat p.length).toNat := (UInt32.toNat_ofNat_of_lt' hp).symm
    have hstate := state_md5Update hblock hlen
    have hblock' : (md5Update c p (UInt32.ofNat p.length)).block.length = 64 := by
      have h := (length_foldl_put md5Transform (s := c.state) hblock (fill_lt c) p).1
      rwa [← hstate] at h
    obtain ⟨hcount, hrest⟩ := ih hcalls hblock'
    rw [updates, List.foldl_cons, ← updates, hcount, hrest, hstate, count_md5Update, ← hlen,
      List.flatten_cons, List.length_append, List.foldl_append]
    exact ⟨by omega, rfl⟩

end Update

section Final

variable {c d : Md5Ctx}

/-- The padding covers the rest of the block, so the digest does not depend on it. -/
theorem md5Final_eq (hcount : c.count = d.count) (h : Alike 64 c.state d.state) :
    md5Final c = md5Final d := by
  have hbits := bits_eq hcount
  have hbuf : c.buf = d.buf := h.chain
  have hfill : c.fill = d.fill := h.fill
  have hlt := fill_lt c
  have htake : c.block.take c.fill = d.block.take c.fill := h.block
  have hpad : ∀ (e : Md5Ctx) (n : Nat), e.block.length = 64 →
      overwrite (overwrite e.block c.fill [0x80]) (c.fill + 1) (List.replicate n 0) =
        overwrite e.block c.fill (0x80 :: List.replicate n 0) := fun e n he =>
    overwrite_cons (he.symm ▸ hlt)
  have hc : c.block.length = 64 := h.left
  have hd : d.block.length = 64 := h.right
  rw [md5Final, md5Final, ← hbits, ← hbuf, ← hfill]
  dsimp only
  rw [hpad c _ hc, hpad d _ hd, hpad c _ hc, hpad d _ hd]
  by_cases hshort : 63 - c.fill < 8
  · have hwhole : c.fill + (0x80 :: List.replicate (63 - c.fill) (0 : UInt8)).length = 64 := by
      rw [List.length_cons, List.length_replicate]
      omega
    rw [if_pos hshort, if_pos hshort, overwrite_end (hwhole.trans hc.symm),
      overwrite_end (hwhole.trans hd.symm), htake]
  · have hlen : c.fill + (0x80 :: List.replicate (63 - c.fill - 8) (0 : UInt8)).length = 56 := by
      rw [List.length_cons, List.length_replicate]
      omega
    -- the zeros end where the two words begin
    have hwords : ∀ e : Md5Ctx, e.block.length = 64 →
        overwrite (overwrite e.block c.fill (0x80 :: List.replicate (63 - c.fill - 8) 0)) 56
            (wordBytes c.bits.1 ++ wordBytes c.bits.2) =
          e.block.take c.fill ++ ((0x80 :: List.replicate (63 - c.fill - 8) 0) ++
            (wordBytes c.bits.1 ++ wordBytes c.bits.2)) := by
      intro e he
      have happend := @overwrite_append _ e.block _ (wordBytes c.bits.1 ++ wordBytes c.bits.2) _
        (by rw [hlen, he]; decide)
      rw [hlen] at happend
      rw [happend, overwrite_end]
      rw [List.length_append, ← Nat.add_assoc, hlen, he]
      rfl
    rw [if_neg hshort, if_neg hshort]
    dsimp only
    rw [hwords c hc, hwords d hd, htake]

/-- What a call of `MD5Update` reads: a length is cut to 32 bits. -/
def piece (p : Bytes) : Bytes := p.take (UInt32.ofNat p.length).toNat

/-- The bytes that a row of calls feeds. -/
def fed (calls : List Bytes) : Bytes := (calls.map piece).flatten

theorem length_piece (p : Bytes) : (piece p).length = (UInt32.ofNat p.length).toNat := by
  refine List.length_take_of_le ?_
  rw [UInt32.toNat_ofNat']
  exact Nat.mod_le ..

theorem updates_piece (calls : List Bytes) : updates c (calls.map piece) = updates c calls := by
  have hcall : ∀ (e : Md5Ctx) (p : Bytes), md5Update e (piece p) (UInt32.ofNat (piece p).length) =
      md5Update e p (UInt32.ofNat p.length) := by
    intro e p
    rw [length_piece, UInt32.ofNat_toNat, md5Update, md5Update, piece, List.take_take, Nat.min_self]
  rw [updates, updates, List.foldl_map]
  exact congrArg (fun f => calls.foldl f c) (funext fun e => funext fun p => hcall e p)

/-- The digest of a row of calls is that of every row of pieces of what they feed. -/
theorem md5_pieces {stack stack' : Bytes} (hstack : stack.length = 64)
    (hstack' : stack'.length = 64) {calls calls' : List Bytes}
    (h : fed calls = fed calls') :
    md5Final (updates (md5Init stack) calls) = md5Final (updates (md5Init stack') calls') := by
  have hshort : ∀ l : List Bytes, ∀ p ∈ l.map piece, p.length < 2 ^ 32 := by
    intro l p hp
    obtain ⟨q, -, rfl⟩ := List.mem_map.1 hp
    rw [length_piece]
    exact UInt32.toNat_lt _
  obtain ⟨hcount, hstate⟩ := updates_eq (c := md5Init stack) (hshort calls) hstack
  obtain ⟨hcount', hstate'⟩ := updates_eq (c := md5Init stack') (hshort calls') hstack'
  rw [← fed] at hcount hstate hcount' hstate'
  rw [← updates_piece calls, ← updates_piece calls']
  have hempty : ∀ s, (md5Init s).state.fill = 0 := fun s => by
    show (md5Init s).fill = 0
    rw [fill_eq]
    simp [Md5Ctx.count, md5Init]
  have hinit : Alike 64 (md5Init stack).state (md5Init stack').state := by
    refine ⟨rfl, rfl, fill_lt _, hstack, hstack', ?_⟩
    rw [hempty, List.take_zero, List.take_zero]
  refine md5Final_eq ?_ ?_
  · rw [hcount, hcount', h]
    rfl
  · rw [hstate, hstate', h]
    exact hinit.foldl md5Transform _

end Final

end Doorhinges.Params

import Doorhinges.CycleQueue.Model

/-!
# The pool of connection objects

`cache_pool_create`, `cp_pop`, `cp_push` and `cache_pool_destroy` over `create_conn`, which
carves the objects of a bucket out of one block. Each allocation may fail; the outcomes of
one call are given with it. A result `none` is an access the language leaves undefined.
-/
namespace Doorhinges.ConnPool

open CycleQueue
open Lib.Blocks (Ptr Heap)

def dataBufferSize : Nat := 16384

def iovListInitial : Nat := 400

def msgListInitial : Nat := 10

def maxRequestBufSize : Nat := 16384

/-- The sizes of the C types, `aisConnection` that of `struct ais_connection`. -/
structure Sizes where
  conn : Nat
  iovec : Nat
  msghdr : Nat
  aisConnection : Nat

/-- The element size of the block. -/
def Sizes.object (s : Sizes) : Nat :=
  s.conn + dataBufferSize + dataBufferSize + iovListInitial * s.iovec +
    msgListInitial * s.msghdr + s.aisConnection + maxRequestBufSize

/-- The members `create_conn` sets; `tid` stands for the contexts of that thread in `bulk`. -/
structure Conn where
  rbuf : Ptr
  wbuf : Ptr
  iov : Ptr
  msglist : Ptr
  bulk : Ptr
  rsize : Nat
  wsize : Nat
  iovsize : Nat
  msgsize : Nat
  tid : Nat

/-- `pool_bucket_t`; `buf` is the block it points to, `none` while it has not been set. -/
structure PoolBucket where
  buf : Option Nat
  size : Nat

/-- `cache_pool_t`, its bucket list newest first, with the memory of the objects. -/
structure CachePool where
  head : List PoolBucket
  cq : EgCycleQueue Ptr
  size : Nat
  tid : Nat
  mem : Heap UInt8
  conns : Ptr → Option Conn

def after (p : Ptr) (n : Nat) : Ptr := ⟨p.blk, p.off + n⟩

variable (s : Sizes)

def carve (tid : Nat) (buf : Ptr) : Conn :=
  let rbuf := after buf s.conn
  let wbuf := after rbuf dataBufferSize
  let iov := after wbuf dataBufferSize
  let msglist := after iov (iovListInitial * s.iovec)
  { rbuf := rbuf
    wbuf := wbuf
    iov := iov
    msglist := msglist
    bulk := after msglist (msgListInitial * s.msghdr)
    rsize := dataBufferSize
    wsize := dataBufferSize
    iovsize := iovListInitial
    msgsize := msgListInitial
    tid := tid }

/-- The object at `buf` lies in its block. -/
def holds (mem : Heap UInt8) (buf : Ptr) : Bool :=
  (mem.blocks buf.blk).any fun cells => buf.off + s.object ≤ cells.length

/-- The loop of `create_conn` from object `i` on, with `n` objects to go; the results of the
pushes are not looked at. -/
def createLoop (pushes : Nat → Malloc) : Nat → Nat → Ptr → CachePool → Option CachePool
  | 0, _, _, cp => some cp
  | n + 1, i, buf, cp =>
    if holds s cp.mem buf then do
      let conns := fun p => if p = buf then some (carve s cp.tid buf) else cp.conns p
      let (_, cq) ← egCqPush (pushes i) cp.cq buf
      createLoop pushes n (i + 1) (if n ≠ 0 then after buf s.object else buf)
        { cp with conns := conns, cq := cq }
    else none

/-- The outcomes of the allocations in `create_conn`. -/
structure CreateMalloc where
  block : Bool
  pushes : Nat → Malloc

/-- The Boolean is the result of the call. -/
def createConn (m : CreateMalloc) (cp : CachePool) : Option (Bool × CachePool) :=
  match cp.head with
  | [] => none
  | bt :: rest =>
    if !m.block then some (false, cp)
    else do
      let buf := cp.mem.next
      let cp ← createLoop s m.pushes bt.size 0 ⟨buf, 0⟩
        { cp with
          head := ⟨some buf, bt.size⟩ :: rest
          mem := cp.mem.alloc (List.replicate (bt.size * s.object) 0) }
      some (true, cp)

/-- The outcomes of the allocations in `cache_pool_create`. -/
structure PoolMalloc where
  pool : Bool
  bucket : Bool
  cq : Malloc
  create : CreateMalloc

/-- The inner result is `none` when an allocation fails; what was allocated is freed then. -/
def cachePoolCreate (m : PoolMalloc) (size tid : Nat) : Option (Option CachePool) :=
  if !m.pool || !m.bucket then some none
  else do
    let cq ← egCqCreate m.cq (size + 1) 0
    match cq with
    | none => some none
    | some cq => do
      let (made, cp) ← createConn s m.create
        { head := [⟨none, size⟩]
          cq := cq
          size := size
          tid := tid
          mem := Heap.empty
          conns := fun _ => none }
      some (if made then some cp else none)

/-- The loop of `cache_pool_destroy`; `free` of anything but a live block is not defined. -/
def freeBuckets : List PoolBucket → Heap UInt8 → Option (Heap UInt8)
  | [], mem => some mem
  | bt :: rest, mem => do
    let buf ← bt.buf
    let _ ← mem.blocks buf
    freeBuckets rest (mem.release buf)

def cachePoolDestroy (cp : CachePool) : Option (Heap UInt8) := freeBuckets cp.head cp.mem

/-- The outcomes of the allocations in `cp_pop`. -/
structure PopMalloc where
  bucket : Bool
  create : CreateMalloc

def cpPop (m : PopMalloc) (cp : CachePool) : Option (Option Ptr × CachePool) := do
  let (c, cq) ← egCqPop cp.cq
  let cp := { cp with cq := cq }
  match c with
  | some c => some (some c, cp)
  | none =>
    if !m.bucket then some (none, cp)
    else
      match cp.head with
      | [] => none
      | bt :: _ => do
        let (made, cp) ← createConn s m.create { cp with head := ⟨none, bt.size⟩ :: cp.head }
        if made then do
          let (c, cq) ← egCqPop cp.cq
          some (c, { cp with cq := cq })
        else some (none, cp)

def cpPush (m : Malloc) (cp : CachePool) (c : Ptr) : Option (Bool × CachePool) :=
  (egCqPush m cp.cq c).map fun r => (r.1, { cp with cq := r.2 })

end Doorhinges.ConnPool

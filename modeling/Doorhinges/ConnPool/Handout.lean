import Doorhinges.ConnPool.Model
import Doorhinges.CycleQueue.Fifo
import Doorhinges.CycleQueue.Shortage

/-!
# When the pool hands out connections safely

The objects in the queue and those that are out are different objects of the blocks on the
bucket list. This is kept by every call, but a `cp_pop` that gets a bucket and then no block
leaves the bucket on the list.
-/
namespace Doorhinges.ConnPool

open CycleQueue hiding Sys Op step Correct Inv
open Lib.Blocks (Ptr Heap)
open Lib.Machine

/-- `out` are the objects popped and not pushed back; `failed` has the pool before and after
each `cp_pop` without a result. -/
structure Sys where
  pool : CachePool
  out : List Ptr
  failed : List (CachePool × CachePool)

inductive Op where
  | pop (m : PopMalloc)
  | push (m : Malloc) (c : Ptr)

variable (s : Sizes)

def step (t : Sys) : Op → Option Sys
  | .pop m => (cpPop s m t.pool).map fun r =>
    match r.1 with
    | some c => { t with pool := r.2, out := c :: t.out }
    | none => { t with pool := r.2, failed := t.failed ++ [(t.pool, r.2)] }
  | .push m c => (cpPush m t.pool c).map fun r =>
    { t with pool := r.2, out := if r.1 then t.out.erase c else t.out }

/-- An object `create_conn` has carved out of the block of a bucket on the list. -/
def Carved (cp : CachePool) (p : Ptr) : Prop :=
  ∃ bt ∈ cp.head, bt.buf = some p.blk ∧ ∃ i, i < bt.size ∧ p.off = i * s.object

def Apart (p q : Ptr) : Prop :=
  p.blk ≠ q.blk ∨ p.off + s.object ≤ q.off ∨ q.off + s.object ≤ p.off

structure Correct (t : Sys) : Prop where
  once : t.out.Nodup
  carved : ∀ p ∈ t.out, Carved s t.pool p
  inside : ∀ p ∈ t.out, holds s t.pool.mem p = true
  apart : ∀ p ∈ t.out, ∀ q ∈ t.out, p ≠ q → Apart s p q
  failed : ∀ r ∈ t.failed, r.2 = r.1
  destroyed : ∃ mem, cachePoolDestroy t.pool = some mem

/-- Only objects that are out are pushed. -/
def Returned (t : Sys) : Op → Prop
  | .pop _ => True
  | .push _ c => c ∈ t.out

/-- Not a pop of the empty queue that gets a bucket and no block for it. -/
def Funded (t : Sys) : Op → Prop
  | .pop m => ¬(egCqEmpty t.pool.cq = true ∧ m.bucket = true ∧ m.create.block = false)
  | .push _ _ => True

instance (t : Sys) : ∀ op, Decidable (Returned t op)
  | .pop _ => isTrue trivial
  | .push _ c => inferInstanceAs (Decidable (c ∈ t.out))

instance (t : Sys) : ∀ op, Decidable (Funded t op)
  | .pop m => inferInstanceAs (Decidable
      (¬(egCqEmpty t.pool.cq = true ∧ m.bucket = true ∧ m.create.block = false)))
  | .push _ _ => isTrue trivial

variable {s} {cp : CachePool} {size : Nat} {t : Sys} {queue : List Ptr}

/-- The buckets have blocks of their own, each for `size` objects. -/
structure Stocked (s : Sizes) (size : Nat) (cp : CachePool) : Prop where
  stocked : cp.head ≠ []
  size_eq : ∀ bt ∈ cp.head, bt.size = size
  live : ∀ bt ∈ cp.head, ∃ b cells, bt.buf = some b ∧ cp.mem.blocks b = some cells ∧
    cells.length = size * s.object
  distinct : (cp.head.map PoolBucket.buf).Nodup

structure Inv (s : Sizes) (size : Nat) (t : Sys) (queue : List Ptr) : Prop where
  queued : Represents t.pool.cq queue
  sizes : ∀ bt ∈ t.pool.cq.btlist, bt.size = size + 1
  once : (queue ++ t.out).Nodup
  carved : ∀ p ∈ queue ++ t.out, Carved s t.pool p
  stocked : Stocked s size t.pool
  failed : ∀ r ∈ t.failed, r.2 = r.1

section Correctness

theorem Stocked.holds (h : Stocked s size cp) {p : Ptr} (hp : Carved s cp p) :
    holds s cp.mem p = true := by
  obtain ⟨bt, hbt, hbuf, i, hi, hoff⟩ := hp
  obtain ⟨b, cells, hb, hcells, hlen⟩ := h.live bt hbt
  obtain rfl := Option.some.inj (hb.symm.trans hbuf)
  rw [h.size_eq bt hbt] at hi
  have hend : (i + 1) * s.object ≤ size * s.object := Nat.mul_le_mul_right _ hi
  rw [Nat.add_mul, Nat.one_mul] at hend
  unfold ConnPool.holds
  rw [hcells, Option.any_some, hlen, hoff]
  exact decide_eq_true hend

theorem Carved.apart {p q : Ptr} (hp : Carved s cp p) (hq : Carved s cp q) (hne : p ≠ q) :
    Apart s p q := by
  obtain ⟨-, -, -, i, -, hi⟩ := hp
  obtain ⟨-, -, -, j, -, hj⟩ := hq
  by_cases hblk : p.blk = q.blk
  · refine .inr ?_
    rw [hi, hj]
    rcases Nat.lt_trichotomy i j with hlt | rfl | hlt
    · left
      have := Nat.mul_le_mul_right s.object (show i + 1 ≤ j from hlt)
      rwa [Nat.add_mul, Nat.one_mul] at this
    · exact absurd (show p = q by cases p; cases q; simp_all) hne
    · right
      have := Nat.mul_le_mul_right s.object (show j + 1 ≤ i from hlt)
      rwa [Nat.add_mul, Nat.one_mul] at this
  · exact .inl hblk

/-- The blocks are freed one after another; each is still live when its turn comes. -/
theorem freeBuckets_defined {bts : List PoolBucket} {mem : Heap UInt8}
    (hlive : ∀ bt ∈ bts, ∃ b cells, bt.buf = some b ∧ mem.blocks b = some cells)
    (hdistinct : (bts.map PoolBucket.buf).Nodup) : ∃ mem', freeBuckets bts mem = some mem' := by
  induction bts generalizing mem with
  | nil => exact ⟨mem, rfl⟩
  | cons bt rest ih =>
    obtain ⟨b, cells, hb, hcells⟩ := hlive bt List.mem_cons_self
    rw [List.map_cons, List.nodup_cons] at hdistinct
    rw [freeBuckets, hb, Option.bind_eq_bind, Option.bind_some, hcells, Option.bind_eq_bind,
      Option.bind_some]
    refine ih ?_ hdistinct.2
    intro bt' hbt'
    obtain ⟨b', cells', hb', hcells'⟩ := hlive bt' (List.mem_cons_of_mem _ hbt')
    refine ⟨b', cells', hb', ?_⟩
    have hne : b' ≠ b := by
      rintro rfl
      exact hdistinct.1 (List.mem_map.2 ⟨bt', hbt', hb'.trans hb.symm⟩)
    show (if b' = b then none else mem.blocks b') = some cells'
    rw [if_neg hne, hcells']

theorem Inv.correct (h : Inv s size t queue) : Correct s t := by
  have hcarved : ∀ p ∈ t.out, Carved s t.pool p := fun p hp =>
    h.carved p (List.mem_append_right _ hp)
  refine ⟨(List.nodup_append.1 h.once).2.1, hcarved, ?_, ?_, h.failed, ?_⟩
  · intro p hp
    exact h.stocked.holds (hcarved p hp)
  · intro p hp q hq hne
    exact (hcarved p hp).apart (hcarved q hq) hne
  · refine freeBuckets_defined ?_ h.stocked.distinct
    intro bt hbt
    obtain ⟨b, cells, hb, hcells, -⟩ := h.stocked.live bt hbt
    exact ⟨b, cells, hb, hcells⟩

end Correctness

section Create

/-- The objects of a block from number `i` on. -/
def objects (s : Sizes) (b i n : Nat) : List Ptr := (List.range' i n).map fun k => ⟨b, k * s.object⟩

theorem mem_objects {b n : Nat} {p : Ptr} : p ∈ objects s b 0 n ↔
    p.blk = b ∧ ∃ i, i < n ∧ p.off = i * s.object := by
  unfold objects
  rw [List.mem_map]
  constructor
  · rintro ⟨k, hk, rfl⟩
    rw [List.mem_range'_1] at hk
    exact ⟨rfl, k, by omega, rfl⟩
  · rintro ⟨rfl, i, hi, hoff⟩
    refine ⟨i, List.mem_range'_1.2 (by omega), ?_⟩
    rw [← hoff]

theorem object_pos : 0 < s.object := by
  unfold Sizes.object dataBufferSize
  omega

theorem nodup_objects {b i n : Nat} : (objects s b i n).Nodup := by
  refine (List.nodup_range').map ?_
  intro k l hkl
  have hoff := congrArg Ptr.off hkl
  exact Nat.eq_of_mul_eq_mul_right object_pos hoff

/-- The queue has room for every object, so that no push is refused or loses anything. -/
theorem createLoop_spec {b n i : Nat} {cells : List UInt8} (pushes : Nat → Malloc) (buf : Ptr)
    (cp : CachePool)
    (hq : Represents cp.cq queue) (hsizes : ∀ bt ∈ cp.cq.btlist, bt.size = size + 1)
    (hlen : queue.length = i) (hn : i + n = size) (hbuf : 0 < n → buf = ⟨b, i * s.object⟩)
    (hcells : cp.mem.blocks b = some cells) (hsize : cells.length = size * s.object) :
    ∃ cp', createLoop s pushes n i buf cp = some cp' ∧
      Represents cp'.cq (queue ++ objects s b i n) ∧
      (∀ bt ∈ cp'.cq.btlist, bt.size = size + 1) ∧ cp'.head = cp.head ∧ cp'.mem = cp.mem := by
  induction n generalizing cp queue i buf with
  | zero =>
    refine ⟨cp, rfl, ?_, hsizes, rfl, rfl⟩
    rwa [objects, List.range'_zero, List.map_nil, List.append_nil]
  | succ n ih =>
    have hobj := hbuf (Nat.succ_pos n)
    have hfits : i * s.object + s.object ≤ size * s.object := by
      rw [← Nat.succ_mul]
      exact Nat.mul_le_mul_right _ (by omega)
    have hholds : holds s cp.mem buf = true := by
      unfold ConnPool.holds
      rw [hobj, hcells, Option.any_some, hsize]
      exact decide_eq_true hfits
    obtain ⟨cq, hpush, hq'⟩ := hq.push_room (pushes i) buf hsizes (by omega)
    have hnext : 0 < n → (if n ≠ 0 then after buf s.object else buf) = ⟨b, (i + 1) * s.object⟩ := by
      intro hpos
      rw [if_pos (Nat.ne_of_gt hpos), hobj, after, Nat.succ_mul]
    obtain ⟨cp', hloop, hq'', hsizes', hhead, hmem⟩ :=
      ih (if n ≠ 0 then after buf s.object else buf)
        { cp with
          conns := fun p => if p = buf then some (carve s cp.tid buf) else cp.conns p
          cq := cq } hq' (sizes_push hpush hsizes) (by simp [hlen]) (by omega) hnext hcells
    refine ⟨cp', ?_, ?_, hsizes', hhead, hmem⟩
    · rw [createLoop, if_pos hholds, hpush]
      exact hloop
    · rw [List.append_assoc] at hq''
      rw [objects, List.range'_succ, List.map_cons, ← hobj]
      exact hq''

theorem createConn_spec (cp : CachePool) {m : CreateMalloc} {rest : List PoolBucket} {buf : Option Nat}
    (hq : Represents cp.cq []) (hsizes : ∀ bt ∈ cp.cq.btlist, bt.size = size + 1)
    (hhead : cp.head = ⟨buf, size⟩ :: rest) (hm : m.block = true) :
    ∃ cp', createConn s m cp = some (true, cp') ∧
      Represents cp'.cq (objects s cp.mem.next 0 size) ∧
      (∀ bt ∈ cp'.cq.btlist, bt.size = size + 1) ∧
      cp'.head = ⟨some cp.mem.next, size⟩ :: rest ∧
      cp'.mem = cp.mem.alloc (List.replicate (size * s.object) 0) := by
  have hnew : (cp.mem.alloc (List.replicate (size * s.object) 0)).blocks cp.mem.next =
      some (List.replicate (size * s.object) 0) := if_pos rfl
  obtain ⟨cp', hloop, hq', hsizes', hhead', hmem⟩ := createLoop_spec (s := s) (i := 0)
    (n := size) m.pushes ⟨cp.mem.next, 0⟩
    { cp with
      head := ⟨some cp.mem.next, size⟩ :: rest
      mem := cp.mem.alloc (List.replicate (size * s.object) 0) }
    hq hsizes rfl (Nat.zero_add _) (fun _ => by rw [Nat.zero_mul]) hnew List.length_replicate
  refine ⟨cp', ?_, by simpa using hq', hsizes', hhead', hmem⟩
  unfold createConn
  rw [hhead]
  dsimp only
  rw [if_neg (by rw [hm]; decide), hloop]
  rfl

theorem ne_next {mem : Heap UInt8} {b : Nat} {cells : List UInt8} (h : mem.blocks b = some cells) :
    b ≠ mem.next := by
  rintro rfl
  rw [mem.fresh _ (Nat.le_refl _)] at h
  cases h

/-- The bucket list with a new block in front. -/
theorem Stocked.cons {cp' : CachePool} (h : Stocked s size cp)
    (hhead : cp'.head = ⟨some cp.mem.next, size⟩ :: cp.head)
    (hmem : cp'.mem = cp.mem.alloc (List.replicate (size * s.object) 0)) : Stocked s size cp' := by
  have hold : ∀ bt ∈ cp.head, bt.buf ≠ some cp.mem.next := by
    intro bt hbt hbuf
    obtain ⟨b, cells, hb, hcells, -⟩ := h.live bt hbt
    obtain rfl := Option.some.inj (hb.symm.trans hbuf)
    exact ne_next hcells rfl
  refine ⟨?_, ?_, ?_, ?_⟩
  · rw [hhead]
    exact List.cons_ne_nil _ _
  · rw [hhead]
    intro bt hbt
    rcases List.mem_cons.1 hbt with rfl | hbt
    · rfl
    · exact h.size_eq bt hbt
  · rw [hhead, hmem]
    intro bt hbt
    rcases List.mem_cons.1 hbt with rfl | hbt
    · exact ⟨_, _, rfl, if_pos rfl, List.length_replicate⟩
    · obtain ⟨b, cells, hb, hcells, hlen⟩ := h.live bt hbt
      exact ⟨b, cells, hb, (if_neg (ne_next hcells)).trans hcells, hlen⟩
  · rw [hhead, List.map_cons, List.nodup_cons]
    refine ⟨?_, h.distinct⟩
    intro hmem'
    obtain ⟨bt, hbt, hbuf⟩ := List.mem_map.1 hmem'
    exact hold bt hbt hbuf

theorem carved_blk_ne (h : Stocked s size cp) {p : Ptr} (hp : Carved s cp p) :
    p.blk ≠ cp.mem.next := by
  obtain ⟨bt, hbt, hbuf, -⟩ := hp
  obtain ⟨b, cells, hb, hcells, -⟩ := h.live bt hbt
  obtain rfl := Option.some.inj (hb.symm.trans hbuf)
  exact ne_next hcells

theorem Carved.mono {cp' : CachePool} {p : Ptr} (hp : Carved s cp p)
    (hsub : ∀ bt ∈ cp.head, bt ∈ cp'.head) : Carved s cp' p := by
  obtain ⟨bt, hbt, hrest⟩ := hp
  exact ⟨bt, hsub bt hbt, hrest⟩

end Create

section Step

theorem pop_nil {cq : EgCycleQueue Ptr} (h : Represents cq []) :
    egCqPop cq = some (none, cq) := by
  obtain ⟨seg, tail, free, h⟩ := h
  exact if_pos (h.empty_iff.2 rfl)

theorem pop_cons {cq : EgCycleQueue Ptr} {c : Ptr} (h : Represents cq (c :: queue)) :
    ∃ cq', egCqPop cq = some (some c, cq') ∧ Represents cq' queue := by
  obtain ⟨seg, tail, free, h⟩ := h
  obtain ⟨cq', seg', free', hpop, h'⟩ := h.pop_layout
  exact ⟨cq', hpop, _, _, _, h'⟩

theorem empty_iff {cq : EgCycleQueue Ptr} (h : Represents cq queue) :
    egCqEmpty cq = true ↔ queue = [] := by
  obtain ⟨seg, tail, free, h⟩ := h
  exact h.empty_iff

/-- The queue is empty and its bucket list gets a new block. -/
theorem cpPop_grown {m : PopMalloc} (hsize : 1 ≤ size) (hstocked : Stocked s size cp)
    (hq : Represents cp.cq []) (hsizes : ∀ bt ∈ cp.cq.btlist, bt.size = size + 1)
    (hbucket : m.bucket = true) (hblock : m.create.block = true) :
    ∃ cp', cpPop s m cp = some (some ⟨cp.mem.next, 0⟩, cp') ∧
      Represents cp'.cq (objects s cp.mem.next 1 (size - 1)) ∧
      (∀ bt ∈ cp'.cq.btlist, bt.size = size + 1) ∧
      cp'.head = ⟨some cp.mem.next, size⟩ :: cp.head ∧
      cp'.mem = cp.mem.alloc (List.replicate (size * s.object) 0) := by
  obtain ⟨bt, rest, hhead⟩ := List.exists_cons_of_ne_nil hstocked.stocked
  have hbt : bt.size = size := hstocked.size_eq bt (by rw [hhead]; exact List.mem_cons_self)
  obtain ⟨cp', hcreate, hq', hsizes', hhead', hmem'⟩ := createConn_spec (s := s)
    { cp with head := ⟨none, size⟩ :: cp.head } hq hsizes rfl hblock
  obtain ⟨k, rfl⟩ : ∃ k, size = k + 1 := ⟨size - 1, by omega⟩
  have hfirst : objects s cp.mem.next 0 (k + 1) =
      ⟨cp.mem.next, 0⟩ :: objects s cp.mem.next 1 k := by
    rw [objects, List.range'_succ, List.map_cons, Nat.zero_mul]
    rfl
  dsimp only at hq'
  rw [hfirst] at hq'
  obtain ⟨cq', hpop, hq''⟩ := pop_cons hq'
  refine ⟨{ cp' with cq := cq' }, ?_, hq'', ?_, hhead', hmem'⟩
  · unfold cpPop
    rw [pop_nil hq]
    simp only [Option.bind_eq_bind, Option.bind_some]
    rw [if_neg (by rw [hbucket]; decide), hhead]
    dsimp only
    rw [hbt, ← hhead, hcreate, Option.bind_some]
    dsimp only
    rw [if_pos rfl, hpop]
    rfl
  · dsimp only
    rw [btlist_pop hpop]
    exact hsizes'

theorem cpPop_queued {m : PopMalloc} {c : Ptr} (hq : Represents cp.cq (c :: queue)) :
    ∃ cq', cpPop s m cp = some (some c, { cp with cq := cq' }) ∧ Represents cq' queue ∧
      cq'.btlist = cp.cq.btlist := by
  obtain ⟨cq', hpop, hq'⟩ := pop_cons hq
  refine ⟨cq', ?_, hq', btlist_pop hpop⟩
  unfold cpPop
  rw [hpop]
  rfl

theorem Inv.pop {m : PopMalloc} (hsize : 1 ≤ size) (h : Inv s size t queue)
    (hf : Funded t (.pop m)) : ∃ t' queue', step s t (.pop m) = some t' ∧ Inv s size t' queue' := by
  cases queue with
  | cons c queue =>
    obtain ⟨cq', hpop, hq', hbt⟩ := cpPop_queued (s := s) (m := m) h.queued
    have hperm : (c :: queue ++ t.out).Perm (queue ++ c :: t.out) := List.perm_middle.symm
    refine ⟨⟨{ t.pool with cq := cq' }, c :: t.out, t.failed⟩, queue, ?_,
      ⟨hq', ?_, hperm.nodup_iff.1 h.once, ?_, ?_, h.failed⟩⟩
    · rw [step, hpop]
      rfl
    · dsimp only
      rw [hbt]
      exact h.sizes
    · intro p hp
      exact h.carved p (hperm.mem_iff.2 hp)
    · exact ⟨h.stocked.stocked, h.stocked.size_eq, h.stocked.live, h.stocked.distinct⟩
  | nil =>
    have hempty := (empty_iff h.queued).2 rfl
    cases hbucket : m.bucket with
    | false =>
      have hpop : cpPop s m t.pool = some (none, t.pool) := by
        unfold cpPop
        rw [pop_nil h.queued]
        simp only [Option.bind_eq_bind, Option.bind_some]
        rw [if_pos (by rw [hbucket]; rfl)]
      refine ⟨⟨t.pool, t.out, t.failed ++ [(t.pool, t.pool)]⟩, [], ?_,
        ⟨h.queued, h.sizes, h.once, h.carved, h.stocked, ?_⟩⟩
      · rw [step, hpop]
        rfl
      · intro r hr
        rcases List.mem_append.1 hr with hr | hr
        · exact h.failed r hr
        · rw [List.mem_singleton.1 hr]
    | true =>
      have hblock : m.create.block = true := by
        by_contra hne
        exact hf ⟨hempty, hbucket, by simpa using hne⟩
      obtain ⟨cp', hpop, hq', hsizes', hhead', hmem'⟩ :=
        cpPop_grown hsize h.stocked h.queued h.sizes hbucket hblock
      obtain ⟨k, rfl⟩ : ∃ k, size = k + 1 := ⟨size - 1, by omega⟩
      have hnew : ⟨t.pool.mem.next, 0⟩ :: objects s t.pool.mem.next 1 k =
          objects s t.pool.mem.next 0 (k + 1) := by
        conv_rhs => rw [objects, List.range'_succ, List.map_cons, Nat.zero_mul]
        rfl
      have hperm : (objects s t.pool.mem.next 1 k ++ ⟨t.pool.mem.next, 0⟩ :: t.out).Perm
          (objects s t.pool.mem.next 0 (k + 1) ++ t.out) := by
        rw [← hnew]
        exact List.perm_middle
      refine ⟨⟨cp', ⟨t.pool.mem.next, 0⟩ :: t.out, t.failed⟩, _, ?_,
        ⟨hq', hsizes', hperm.nodup_iff.2 ?_, ?_, h.stocked.cons hhead' hmem', h.failed⟩⟩
      · rw [step, hpop]
        rfl
      · refine List.nodup_append.2 ⟨nodup_objects, h.once, ?_⟩
        rintro p hp q hq rfl
        exact carved_blk_ne h.stocked (h.carved p hq) (mem_objects.1 hp).1
      · intro p hp
        rcases List.mem_append.1 (hperm.mem_iff.1 hp) with hp | hp
        · obtain ⟨hblk, i, hi, hoff⟩ := mem_objects.1 hp
          refine ⟨⟨some t.pool.mem.next, k + 1⟩, ?_, by rw [hblk], i, hi, hoff⟩
          rw [hhead']
          exact List.mem_cons_self
        · refine (h.carved p hp).mono fun bt hbt => ?_
          rw [hhead']
          exact List.mem_cons_of_mem _ hbt

theorem Inv.push {m : Malloc} {c : Ptr} (h : Inv s size t queue) (hc : c ∈ t.out) :
    ∃ t' queue', step s t (.push m c) = some t' ∧ Inv s size t' queue' := by
  rcases h.queued.push_any m c with hpush | ⟨cq', hpush, hq'⟩
  · refine ⟨t, queue, ?_, h⟩
    rw [step, cpPush, hpush]
    rfl
  · have hperm : (queue ++ [c] ++ t.out.erase c).Perm (queue ++ t.out) := by
      rw [List.append_assoc]
      exact (List.perm_cons_erase hc).symm.append_left queue
    have hstep : step s t (.push m c) =
        some ⟨{ t.pool with cq := cq' }, t.out.erase c, t.failed⟩ := by
      rw [step, cpPush, hpush]
      rfl
    have hsub : t.out.erase c ⊆ t.out := List.erase_subset
    have hstocked : Stocked s size { t.pool with cq := cq' } :=
      ⟨h.stocked.stocked, h.stocked.size_eq, h.stocked.live, h.stocked.distinct⟩
    rcases hq' with hq' | hq'
    · refine ⟨_, _, hstep, ⟨hq', sizes_push hpush h.sizes, hperm.nodup_iff.2 h.once, ?_, hstocked,
        h.failed⟩⟩
      intro p hp
      exact h.carved p (hperm.mem_iff.1 hp)
    · refine ⟨_, _, hstep, ⟨hq', sizes_push hpush h.sizes, ?_, ?_, hstocked, h.failed⟩⟩
      · exact (List.nodup_append.1 h.once).2.1.erase c
      · intro p hp
        exact h.carved p (List.mem_append_right _ (hsub hp))

/-- The bucket of a `cp_pop` that fails for want of a block stays on the list. -/
theorem cpPop_unfunded {m : PopMalloc} (hstocked : Stocked s size cp)
    (hq : Represents cp.cq []) (hbucket : m.bucket = true) (hblock : m.create.block = false) :
    cpPop s m cp = some (none, { cp with head := ⟨none, size⟩ :: cp.head }) := by
  obtain ⟨bt, rest, hhead⟩ := List.exists_cons_of_ne_nil hstocked.stocked
  have hbt : bt.size = size := hstocked.size_eq bt (by rw [hhead]; exact List.mem_cons_self)
  unfold cpPop
  rw [pop_nil hq]
  simp only [Option.bind_eq_bind, Option.bind_some]
  rw [if_neg (by rw [hbucket]; decide), hhead]
  dsimp only
  rw [hbt, ← hhead]
  unfold createConn
  dsimp only
  rw [if_pos (by rw [hblock]; rfl), Option.bind_some]
  rfl

theorem not_correct_of_unfunded {op : Op} {t' : Sys} (h : Inv s size t queue)
    (hf : ¬ Funded t op) (hs : step s t op = some t') : ¬ Correct s t' := by
  cases op with
  | push m c => exact absurd trivial hf
  | pop m =>
    obtain ⟨hempty, hbucket, hblock⟩ := not_not.1 hf
    obtain rfl := (empty_iff h.queued).1 hempty
    rw [step, cpPop_unfunded h.stocked h.queued hbucket hblock] at hs
    obtain rfl := Option.some.inj hs
    intro hc
    have hsame := hc.failed _ (List.mem_append_right _ (List.mem_singleton.2 rfl))
    exact List.cons_ne_self _ _ (congrArg CachePool.head hsame)

theorem step_inv {op : Op} (hsize : 1 ≤ size) (h : ∃ queue, Inv s size t queue)
    (hr : Returned t op) (hf : Funded t op) :
    ∃ t', step s t op = some t' ∧ ∃ queue, Inv s size t' queue := by
  obtain ⟨queue, h⟩ := h
  cases op with
  | pop m =>
    obtain ⟨t', queue', hs, h'⟩ := h.pop hsize hf
    exact ⟨t', hs, queue', h'⟩
  | push m c =>
    obtain ⟨t', queue', hs, h'⟩ := h.push hr
    exact ⟨t', hs, queue', h'⟩

theorem correct_iff_funded {ops : List Op} (hsize : 1 ≤ size) (h : Inv s size t queue)
    (hr : Throughout (step s) Returned t ops) :
    Always (step s) (Correct s) t ops ↔ Throughout (step s) Funded t ops :=
  always_iff_throughout_within (fun _ ⟨_, h⟩ => h.correct)
    (fun _ _ h hr hf => step_inv hsize h hr hf)
    (fun _ _ ⟨_, h⟩ _ hf _ hs => not_correct_of_unfunded h hf hs) ⟨queue, h⟩ hr

end Step

section Start

variable {m : PoolMalloc} {tid : Nat}

/-- A pool that has been created holds the objects of its first block. -/
theorem inv_create (hc : cachePoolCreate s m size tid = some (some cp)) :
    ∃ b, Inv s size ⟨cp, [], []⟩ (objects s b 0 size) := by
  unfold cachePoolCreate at hc
  split at hc
  · cases hc
  · obtain ⟨cq, hcq, hc⟩ := Option.bind_eq_some_iff.1 hc
    split at hc
    · cases hc
    · rename_i cq
      obtain ⟨⟨made, cp'⟩, hcreate, hc⟩ := Option.bind_eq_some_iff.1 hc
      obtain ⟨cq', hok, hq⟩ := create_represents (α := Ptr) (show 1 ≤ size + 1 by omega) 0
      have hsizes := sizes_create hcq
      have hsame : cq = cq' := by
        rcases egCqCreate_malloc m.cq (size + 1) 0 with hnone | hmalloc
        · rw [hcq] at hnone
          cases hnone
        · rw [hcq, hok] at hmalloc
          exact Option.some.inj (Option.some.inj hmalloc)
      subst hsame
      dsimp only at hc
      split at hc
      · rename_i hmade
        obtain rfl := Option.some.inj (Option.some.inj hc)
        have hblock : m.create.block = true := by
          by_contra hne
          unfold createConn at hcreate
          dsimp only at hcreate
          rw [if_pos (by simpa using hne)] at hcreate
          exact absurd ((Prod.mk.inj (Option.some.inj hcreate)).1.trans hmade) (by decide)
        obtain ⟨cp₁, hcreate', hq', hsizes', hhead, hmem⟩ := createConn_spec (s := s) (m := m.create)
          ⟨[⟨none, size⟩], cq, size, tid, Heap.empty, fun _ => none⟩ hq hsizes rfl hblock
        obtain ⟨-, rfl⟩ := Prod.mk.inj (Option.some.inj (hcreate.symm.trans hcreate'))
        refine ⟨_, hq', hsizes', ?_, ?_, ⟨?_, ?_, ?_, ?_⟩, fun r hr => nomatch hr⟩
        · rw [List.append_nil]
          exact nodup_objects
        · rw [List.append_nil]
          intro p hp
          obtain ⟨hblk, i, hi, hoff⟩ := mem_objects.1 hp
          refine ⟨⟨some (Heap.empty : Heap UInt8).next, size⟩, ?_, by rw [hblk], i, hi, hoff⟩
          rw [hhead]
          exact List.mem_singleton.2 rfl
        · rw [hhead]
          exact List.cons_ne_nil _ _
        · rw [hhead]
          intro bt hbt
          rw [List.mem_singleton.1 hbt]
        · rw [hhead, hmem]
          intro bt hbt
          rw [List.mem_singleton.1 hbt]
          exact ⟨0, List.replicate (size * s.object) 0, rfl, rfl, List.length_replicate⟩
        · rw [hhead]
          exact List.nodup_singleton _
      · cases hc

/-- With memory there is a pool. -/
theorem create_some (s : Sizes) (size tid : Nat) (pushes : Nat → Malloc) :
    ∃ cp, cachePoolCreate s ⟨true, true, .ok, true, pushes⟩ size tid = some (some cp) := by
  obtain ⟨cq, hcq, hq⟩ := create_represents (α := Ptr) (show 1 ≤ size + 1 by omega) 0
  obtain ⟨cp, hcreate, -⟩ := createConn_spec (s := s) (m := ⟨true, pushes⟩)
    ⟨[⟨none, size⟩], cq, size, tid, Heap.empty, fun _ => none⟩ hq (sizes_create hcq) rfl rfl
  refine ⟨cp, ?_⟩
  unfold cachePoolCreate
  rw [if_neg (show ¬(!true || !true) = true by decide), hcq]
  simp only [Option.bind_eq_bind, Option.bind_some]
  rw [hcreate]
  rfl

/-- The calls of a run meet the contract at every point exactly when no `cp_pop` of the empty
queue gets a bucket and then no block. -/
theorem handout_iff (hsize : 1 ≤ size) (hc : cachePoolCreate s m size tid = some (some cp))
    {ops : List Op} (hr : Throughout (step s) Returned ⟨cp, [], []⟩ ops) :
    Always (step s) (Correct s) ⟨cp, [], []⟩ ops ↔
      Throughout (step s) Funded ⟨cp, [], []⟩ ops := by
  obtain ⟨b, h⟩ := inv_create hc
  exact correct_iff_funded hsize h hr

/-- A pop leaves what is out. -/
theorem mem_out_pop {t' : Sys} {m : PopMalloc} {p : Ptr} (hs : step s t (.pop m) = some t')
    (hp : p ∈ t.out) : p ∈ t'.out := by
  obtain ⟨⟨c, cp⟩, -, rfl⟩ := Option.map_eq_some_iff.1 hs
  cases c with
  | some c => exact List.mem_cons_of_mem _ hp
  | none => exact hp

/-- The only object is popped, a bucket is added for the next one, and the first comes back. -/
def reuse (p : Ptr) : List Op :=
  let funded : PopMalloc := ⟨true, true, fun _ => .ok⟩
  [.pop funded, .pop funded, .push .ok p, .pop funded]

theorem handout_iff_reuse : ∃ cp p, cachePoolCreate ⟨400, 16, 56, 200⟩
      ⟨true, true, .ok, true, fun _ => .ok⟩ 1 3 = some (some cp) ∧
    Throughout (step ⟨400, 16, 56, 200⟩) Returned ⟨cp, [], []⟩ (reuse p) ∧
    Always (step ⟨400, 16, 56, 200⟩) (Correct ⟨400, 16, 56, 200⟩) ⟨cp, [], []⟩ (reuse p) := by
  let s : Sizes := ⟨400, 16, 56, 200⟩
  let funded : PopMalloc := ⟨true, true, fun _ => .ok⟩
  obtain ⟨cp, hc⟩ := create_some s 1 3 fun _ => .ok
  obtain ⟨b, h⟩ := inv_create hc
  have hqueued : Represents cp.cq [⟨b, 0 * s.object⟩] := h.queued
  obtain ⟨cq, hpop, -, -⟩ := cpPop_queued (s := s) (m := funded) hqueued
  have hstep : step s ⟨cp, [], []⟩ (.pop funded) =
      some ⟨{ cp with cq := cq }, [⟨b, 0 * s.object⟩], []⟩ := by
    rw [step, hpop]
    rfl
  have hreturned : Throughout (step s) Returned ⟨cp, [], []⟩ (reuse ⟨b, 0 * s.object⟩) := by
    refine ⟨trivial, fun t₁ h₁ => ⟨trivial, fun t₂ h₂ => ⟨?_, fun t₃ _ => ⟨trivial, fun _ _ =>
      trivial⟩⟩⟩⟩
    obtain rfl := Option.some.inj (hstep.symm.trans h₁)
    exact mem_out_pop h₂ (List.mem_singleton.2 rfl)
  have hpays (t : Sys) : Funded t (.pop funded) := fun h => by cases h.2.2
  refine ⟨cp, _, hc, hreturned, (handout_iff (by decide) hc hreturned).2 ?_⟩
  exact ⟨hpays _, fun _ _ => ⟨hpays _, fun _ _ => ⟨trivial, fun _ _ => ⟨hpays _, fun _ _ =>
    trivial⟩⟩⟩⟩

/-- Two pops from a pool of one: the second gets a bucket and no block. -/
theorem not_always_correct : ¬ ∀ (s : Sizes) (m : PoolMalloc) (size tid : Nat) (cp : CachePool)
    (ops : List Op), 1 ≤ size → cachePoolCreate s m size tid = some (some cp) →
      Throughout (step s) Returned ⟨cp, [], []⟩ ops →
      Always (step s) (Correct s) ⟨cp, [], []⟩ ops := by
  intro hall
  let s : Sizes := ⟨400, 16, 56, 200⟩
  let unfunded : PopMalloc := ⟨true, false, fun _ => .ok⟩
  obtain ⟨cp, hc⟩ := create_some s 1 3 fun _ => .ok
  obtain ⟨b, h⟩ := inv_create hc
  have hqueued : Represents cp.cq [⟨b, 0 * s.object⟩] := h.queued
  obtain ⟨cq, hpop, hq, -⟩ := cpPop_queued (s := s) (m := unfunded) hqueued
  have hstep : step s ⟨cp, [], []⟩ (.pop unfunded) =
      some ⟨{ cp with cq := cq }, [⟨b, 0 * s.object⟩], []⟩ := by
    rw [step, hpop]
    rfl
  have hr : Throughout (step s) Returned ⟨cp, [], []⟩ [.pop unfunded, .pop unfunded] :=
    ⟨trivial, fun _ _ => ⟨trivial, fun _ _ => trivial⟩⟩
  have hfunded := (correct_iff_funded (by decide) h hr).1
    (hall s _ 1 3 cp [.pop unfunded, .pop unfunded] (by decide) hc hr)
  exact (hfunded.2 _ hstep).1 ⟨(empty_iff hq).2 rfl, rfl, rfl⟩

end Start

end Doorhinges.ConnPool

import Doorhinges.CycleQueue.Steps

/-!
# The element buffers of the cycle queue

Each bucket has a block of element buffers beside its block of nodes, and each node keeps the
address of its own slot in it for as long as the bucket lives. That needs the bytes of a bucket
to be counted by an `int`.
-/
namespace Doorhinges.CycleQueue

open Lib.Blocks (Ptr Heap)
open Lib.Links

variable {α : Type}

theorem intProduct_eq {a b : Nat} (h : a * b < 2 ^ 31) : intProduct a b = a * b := by
  have hbmod : Int.bmod (a * b) (2 ^ 32) = (a * b : Nat) := by
    rw [← Int.natCast_mul]
    exact Int.bmod_eq_of_le (by omega) (by omega)
  have hmod : ((a * b : Nat) : Int) % 2 ^ 64 = (a * b : Nat) :=
    Int.emod_eq_of_lt (Int.natCast_nonneg _) (by omega)
  unfold intProduct
  rw [hbmod, hmod, Int.toNat_natCast]

/-- `buf` of a node. -/
def bufOf (h : Heap (EgCqNode α)) (p : Ptr) : Option Ptr := (h.load p).bind (·.buf)

/-- Nothing but the allocation of a bucket writes to `buf`. -/
theorem bufOf_modify {h : Heap (EgCqNode α)} {p q : Ptr} {f : EgCqNode α → EgCqNode α}
    (hf : ∀ n, (f n).buf = n.buf) : bufOf (h.modify p f) q = bufOf h q := by
  rw [bufOf, Heap.load_modify, bufOf]
  by_cases hq : q = p
  · rw [if_pos hq]
    cases h.load q with
    | none => rfl
    | some n => exact hf n
  · rw [if_neg hq]

@[simp] theorem bufOf_setNext (h : Heap (EgCqNode α)) (p q : Ptr) (e : Option Ptr) :
    bufOf (h.modify p fun n => { n with next := e }) q = bufOf h q :=
  bufOf_modify fun _ => rfl

@[simp] theorem bufOf_setVal (h : Heap (EgCqNode α)) (p q : Ptr) (v : Option α) :
    bufOf (h.modify p fun n => { n with val := v }) q = bufOf h q :=
  bufOf_modify fun _ => rfl

theorem store_some {β : Type} {h h' : Heap β} {p : Ptr} {f : β → β} (hs : h.store p f = some h') :
    h' = h.modify p f := by
  obtain ⟨a, -, rfl⟩ := Option.map_eq_some_iff.1 hs
  rfl

/-- The slot a node of the bucket has, where its buffers are in `b`. -/
def slotAt (valSize b : Nat) (i : Nat) : Ptr := ⟨b, valSize * i⟩

/-- A slot ends within the block of its bucket. -/
theorem slotAt_room {valSize b i size : Nat} (hi : i < size) :
    (slotAt valSize b i).off + valSize ≤ size * valSize :=
  calc valSize * i + valSize = valSize * (i + 1) := (Nat.mul_succ ..).symm
    _ ≤ valSize * size := Nat.mul_le_mul_left _ hi
    _ = size * valSize := Nat.mul_comm ..

theorem bufOf_withArray_old {h : Heap (EgCqNode α)} {q : Ptr} (hq : q.blk < h.next) (size : Nat)
    (buf : Option Nat) (valSize : Nat) (e : Option Ptr) :
    bufOf (withArray h size buf valSize e) q = bufOf h q := by
  rw [withArray, bufOf_setNext, bufOf, Heap.load_alloc, if_neg (Nat.ne_of_lt hq), bufOf]

theorem bufOf_withArray (h : Heap (EgCqNode α)) {size i : Nat} (hi : i < size) (b valSize : Nat)
    (e : Option Ptr) : bufOf (withArray h size (some b) valSize e) ⟨h.next, i⟩ =
      some ⟨b, intProduct valSize i⟩ := by
  rw [withArray, bufOf_setNext, bufOf, load_initbucket hi]
  rfl

theorem bufOf_withArray_new (h : Heap (EgCqNode α)) {size valSize i : Nat} (hi : i < size)
    (hsmall : size * valSize < 2 ^ 31) (b : Nat) (e : Option Ptr) :
    bufOf (withArray h size (some b) valSize e) ⟨h.next, i⟩ = some (slotAt valSize b i) := by
  have hle : valSize * i ≤ valSize * size := Nat.mul_le_mul_left _ hi.le
  rw [Nat.mul_comm] at hsmall
  rw [bufOf_withArray h hi, intProduct_eq (hle.trans_lt hsmall), slotAt]

/-- The bucket's buffers are allocated, and its nodes have their slots in them. -/
structure Owns (cq : EgCycleQueue α) (bt : EgCgBucket) (b : Nat) : Prop where
  buf : bt.buf = some b
  held : (cq.bufs.blocks b).map List.length = some (bt.size * cq.valSize)
  slots : ∀ i < bt.size, bufOf cq.nodes (bt.at i) = some (slotAt cq.valSize b i)

structure Buffered (cq : EgCycleQueue α) : Prop where
  positive : 0 < cq.valSize
  nodes : (cq.btlist.map (·.node)).Nodup
  bufs : (cq.btlist.map (·.buf)).Nodup
  owns : ∀ bt ∈ cq.btlist, ∃ b, Owns cq bt b
  sizes : ∀ bt ∈ cq.btlist, 0 < bt.size
  small : ∀ bt ∈ cq.btlist, bt.size * cq.valSize < 2 ^ 31

section Heap

variable {cq cq' : EgCycleQueue α} {bt : EgCgBucket} {b : Nat}

theorem blocks_lt_next {β : Type} {h : Heap β} {b n : Nat}
    (hb : (h.blocks b).map List.length = some n) : b < h.next := by
  by_contra hn
  rw [h.fresh b (by omega)] at hb
  cases hb

theorem Owns.node_lt (h : Owns cq bt b) (hs : 0 < bt.size) : bt.node < cq.nodes.next := by
  obtain ⟨n, hn, -⟩ := Option.bind_eq_some_iff.1 (h.slots 0 hs)
  exact Heap.blk_lt_next hn

/-- A bucket keeps its slots while its two blocks keep their lengths and addresses. -/
theorem Owns.of_kept (h : Owns cq bt b) (hval : cq'.valSize = cq.valSize)
    (hbufs : (cq'.bufs.blocks b).map List.length = (cq.bufs.blocks b).map List.length)
    (hnodes : ∀ i < bt.size, bufOf cq'.nodes (bt.at i) = bufOf cq.nodes (bt.at i)) :
    Owns cq' bt b := by
  refine ⟨h.buf, ?_, fun i hi => ?_⟩
  · rw [hbufs, h.held, hval]
  · rw [hnodes i hi, h.slots i hi, hval]

/-- A node is known by its buffer. -/
theorem Buffered.bufOf_inj (hb : Buffered cq) {p q : Ptr} {bp bq : EgCgBucket}
    (hbp : bp ∈ cq.btlist) (hbq : bq ∈ cq.btlist) (hp : p ∈ bp.slots) (hq : q ∈ bq.slots)
    (h : bufOf cq.nodes p = bufOf cq.nodes q) : p = q := by
  obtain ⟨b, hown⟩ := hb.owns bp hbp
  obtain ⟨c, hown'⟩ := hb.owns bq hbq
  obtain ⟨p, i⟩ := p
  obtain ⟨q, j⟩ := q
  obtain ⟨rfl, hi⟩ := EgCgBucket.mem_slots.1 hp
  obtain ⟨rfl, hj⟩ := EgCgBucket.mem_slots.1 hq
  have hpi : bufOf cq.nodes ⟨bp.node, i⟩ = some (slotAt cq.valSize b i) := hown.slots i hi
  have hqj : bufOf cq.nodes ⟨bq.node, j⟩ = some (slotAt cq.valSize c j) := hown'.slots j hj
  rw [hpi, hqj, Option.some.injEq, slotAt, slotAt, Ptr.mk.injEq] at h
  obtain ⟨rfl, hoff⟩ := h
  obtain rfl : bp = bq :=
    List.inj_on_of_nodup_map hb.bufs hbp hbq (hown.buf.trans hown'.buf.symm)
  obtain rfl : i = j := Nat.eq_of_mul_eq_mul_left hb.positive hoff
  rfl

end Heap

section Kept

variable {cq cq' : EgCycleQueue α}

/-- Nothing but values and links has changed. -/
theorem Buffered.of_same (hb : Buffered cq) (hbtlist : cq'.btlist = cq.btlist)
    (hval : cq'.valSize = cq.valSize)
    (hbufs : ∀ b, (cq'.bufs.blocks b).map List.length = (cq.bufs.blocks b).map List.length)
    (hnodes : ∀ p, bufOf cq'.nodes p = bufOf cq.nodes p) : Buffered cq' := by
  constructor
  · rw [hval]
    exact hb.positive
  · rw [hbtlist]
    exact hb.nodes
  · rw [hbtlist]
    exact hb.bufs
  · intro bt hbt
    rw [hbtlist] at hbt
    obtain ⟨b, hown⟩ := hb.owns bt hbt
    exact ⟨b, hown.of_kept hval (hbufs b) fun i _ => hnodes _⟩
  · rw [hbtlist]
    exact hb.sizes
  · rw [hbtlist, hval]
    exact hb.small

theorem put_buffered {p : Option Ptr} {v : α} (hb : Buffered cq) (h : put p v cq = some cq') :
    Buffered cq' ∧ cq'.head = cq.head ∧ ∀ q, bufOf cq'.nodes q = bufOf cq.nodes q := by
  obtain ⟨cq₁, h₁, h⟩ := Option.bind_eq_some_iff.1 h
  obtain ⟨n, -, h⟩ := Option.bind_eq_some_iff.1 h
  obtain rfl := Option.some.inj h
  obtain ⟨p, -, h₁⟩ := Option.bind_eq_some_iff.1 h₁
  obtain ⟨nodes, hstore, rfl⟩ := Option.map_eq_some_iff.1 h₁
  obtain rfl := store_some hstore
  have hnodes : ∀ q, bufOf (cq.nodes.modify p fun n => { n with val := some v }) q =
      bufOf cq.nodes q := fun q => bufOf_modify fun _ => rfl
  exact ⟨hb.of_same rfl rfl (fun _ => rfl) hnodes, rfl, hnodes⟩

theorem create_buffered {size valSize : Nat} (hs : 1 ≤ size) (hv : 0 < valSize)
    (hsmall : size * valSize < 2 ^ 31) (h : egCqCreate .ok size valSize = some (some cq)) :
    Buffered cq := by
  simp only [egCqCreate, Malloc.ok, mallocBuf, hv, if_true, Bool.not_true, Bool.or_self,
    Bool.false_eq_true, if_false, Option.bind_eq_bind] at h
  obtain ⟨nodes, hstore, h⟩ := Option.bind_eq_some_iff.1 h
  obtain rfl := Option.some.inj (Option.some.inj h)
  obtain rfl := store_some hstore
  rw [← withArray]
  refine ⟨hv, List.nodup_singleton _, List.nodup_singleton _, fun bt hbt => ?_, fun bt hbt => ?_,
    fun bt hbt => ?_⟩
  · obtain rfl := List.mem_singleton.1 hbt
    refine ⟨Heap.empty.next, rfl, ?_, fun i hi => bufOf_withArray_new _ hi hsmall ..⟩
    simp [Heap.alloc, intProduct_eq hsmall]
  · obtain rfl := List.mem_singleton.1 hbt
    exact hs
  · obtain rfl := List.mem_singleton.1 hbt
    exact hsmall

/-- Growing adds a bucket in fresh blocks. -/
theorem inc_buffered (hb : Buffered cq) (h : egCqInc .ok cq = some (true, cq')) :
    Buffered cq' ∧ ∀ q, q.blk < cq.nodes.next → bufOf cq'.nodes q = bufOf cq.nodes q := by
  unfold egCqInc at h
  cases hbts : cq.btlist with
  | nil =>
    rw [hbts] at h
    cases h
  | cons top rest =>
    simp only [hbts, Malloc.ok, mallocBuf, hb.positive, if_true, Bool.not_true, Bool.or_self,
      Bool.false_eq_true, if_false, Option.bind_eq_bind] at h
    obtain ⟨cur, -, h⟩ := Option.bind_eq_some_iff.1 h
    obtain ⟨after, -, h⟩ := Option.bind_eq_some_iff.1 h
    obtain ⟨nodes₁, hstore₁, h⟩ := Option.bind_eq_some_iff.1 h
    obtain ⟨nodes₂, hstore₂, h⟩ := Option.bind_eq_some_iff.1 h
    obtain ⟨-, rfl⟩ := Prod.mk.inj (Option.some.inj h)
    obtain rfl := store_some hstore₁
    obtain rfl := store_some hstore₂
    rw [← withArray]
    have hnodes := hb.nodes
    have hbufs := hb.bufs
    rw [hbts] at hnodes hbufs
    have hmem : ∀ bt ∈ top :: rest, bt ∈ cq.btlist := fun bt hbt => hbts ▸ hbt
    have hold : ∀ q : Ptr, q.blk < cq.nodes.next → bufOf ((withArray cq.nodes top.size
        (some cq.bufs.next) cq.valSize after.next).modify cur
          fun n => { n with next := some ⟨cq.nodes.next, 0⟩ }) q = bufOf cq.nodes q :=
      fun q hq => (bufOf_setNext ..).trans (bufOf_withArray_old hq ..)
    have hsmall := hb.small top (hmem top List.mem_cons_self)
    refine ⟨⟨hb.positive, ?_, ?_, ?_, ?_, ?_⟩, hold⟩
    · refine List.nodup_cons.2 ⟨fun hin => ?_, hnodes⟩
      obtain ⟨bt, hbt, heq⟩ := List.mem_map.1 hin
      obtain ⟨b, hown⟩ := hb.owns bt (hmem bt hbt)
      exact absurd heq (Nat.ne_of_lt (hown.node_lt (hb.sizes bt (hmem bt hbt))))
    · refine List.nodup_cons.2 ⟨fun hin => ?_, hbufs⟩
      obtain ⟨bt, hbt, heq⟩ := List.mem_map.1 hin
      obtain ⟨b, hown⟩ := hb.owns bt (hmem bt hbt)
      exact absurd (Option.some.inj (hown.buf.symm.trans heq))
        (Nat.ne_of_lt (blocks_lt_next hown.held))
    · refine List.forall_mem_cons.2 ⟨⟨cq.bufs.next, rfl, ?_, fun i hi => ?_⟩, fun bt hbt => ?_⟩
      · simp [Heap.alloc, intProduct_eq hsmall]
      · exact (bufOf_setNext ..).trans (bufOf_withArray_new _ hi hsmall ..)
      · obtain ⟨b, hown⟩ := hb.owns bt (hmem bt hbt)
        have hlt := blocks_lt_next hown.held
        refine ⟨b, hown.of_kept rfl ?_ fun i _ =>
          hold _ (hown.node_lt (hb.sizes bt (hmem bt hbt)))⟩
        simp [Heap.alloc, Nat.ne_of_lt hlt]
    · exact List.forall_mem_cons.2 ⟨hb.sizes top (hmem top List.mem_cons_self), fun bt hbt =>
        hb.sizes bt (hmem bt hbt)⟩
    · exact List.forall_mem_cons.2 ⟨hsmall, fun bt hbt => hb.small bt (hmem bt hbt)⟩

/-- Shrinking takes the blocks of the newest bucket. -/
theorem dec_buffered (hb : Buffered cq) (h : egCqDec cq = some cq') :
    ∃ bt rest, cq.btlist = bt :: rest ∧ cq'.btlist = rest ∧ Buffered cq' ∧
      ∀ q, q.blk ≠ bt.node → bufOf cq'.nodes q = bufOf cq.nodes q := by
  unfold egCqDec at h
  cases hbts : cq.btlist with
  | nil =>
    rw [hbts] at h
    cases h
  | cons bt rest =>
    rw [hbts] at h
    obtain ⟨last, -, h⟩ := Option.bind_eq_some_iff.1 h
    obtain ⟨cq₁, h₁, h⟩ := Option.bind_eq_some_iff.1 h
    obtain rfl := Option.some.inj h
    obtain ⟨p, -, h₁⟩ := Option.bind_eq_some_iff.1 h₁
    obtain ⟨nodes, hstore, rfl⟩ := Option.map_eq_some_iff.1 h₁
    obtain rfl := store_some hstore
    have hold : ∀ q : Ptr, q.blk ≠ bt.node → bufOf ((cq.nodes.modify p
        fun n => { n with next := last.next }).release bt.node) q = bufOf cq.nodes q := by
      intro q hq
      rw [bufOf, Heap.load_release, if_neg hq, ← bufOf, bufOf_setNext]
    have hnodes := hb.nodes
    have hbufs := hb.bufs
    rw [hbts, List.map_cons] at hnodes hbufs
    obtain ⟨hnode, hnodes⟩ := List.nodup_cons.1 hnodes
    obtain ⟨hbuf, hbufs⟩ := List.nodup_cons.1 hbufs
    have hmem : ∀ bt' ∈ rest, bt' ∈ cq.btlist := fun bt' hbt' => by
      rw [hbts]
      exact List.mem_cons_of_mem _ hbt'
    obtain ⟨b, hown⟩ := hb.owns bt (by rw [hbts]; exact List.mem_cons_self)
    refine ⟨bt, rest, rfl, rfl, ⟨hb.positive, hnodes, hbufs, fun bt' hbt' => ?_, fun bt' hbt' =>
      hb.sizes bt' (hmem bt' hbt'), fun bt' hbt' => hb.small bt' (hmem bt' hbt')⟩, hold⟩
    obtain ⟨b', hown'⟩ := hb.owns bt' (hmem bt' hbt')
    have hne : b' ≠ b := by
      rintro rfl
      exact hbuf (List.mem_map.2 ⟨bt', hbt', hown'.buf.trans hown.buf.symm⟩)
    refine ⟨b', hown'.of_kept rfl ?_ fun i _ => hold _ ?_⟩
    · show ((bt.buf.elim cq.bufs cq.bufs.release).blocks b').map List.length = _
      rw [hown.buf]
      simp [Heap.release, hne]
    · rintro heq
      exact hnode (List.mem_map.2 ⟨bt', hbt', heq⟩)

end Kept

section Ring

variable {cq cq₁ : EgCycleQueue α} {queue : List α} {seg free free₁ : List Ptr} {tail : Ptr}

/-- Every ring node is a slot of some bucket. -/
theorem Shape.bucket {bts : List EgCgBucket} {r : List Ptr} (h : Shape bts r) {p : Ptr}
    (hp : p ∈ r) : ∃ bt ∈ bts, p ∈ bt.slots := by
  induction h with
  | base _ _ hr => exact ⟨_, List.mem_cons_self, hr.mem_iff.1 hp⟩
  | splice _ _ hr _ ih =>
    have hmem := hr.mem_iff.1 hp
    rw [List.mem_cons, List.mem_append] at hmem
    rcases hmem with rfl | hslot | hrest
    · obtain ⟨bt, hbt, hin⟩ := ih List.mem_cons_self
      exact ⟨bt, List.mem_cons_of_mem _ hbt, hin⟩
    · exact ⟨_, List.mem_cons_self, hslot⟩
    · obtain ⟨bt, hbt, hin⟩ := ih (List.mem_cons_of_mem _ hrest)
      exact ⟨bt, List.mem_cons_of_mem _ hbt, hin⟩

/-- A node of the ring has its slot. -/
theorem Buffered.slot (hb : Buffered cq) (h : Layout cq queue seg tail free) {p : Ptr}
    (hp : p ∈ seg ++ tail :: free) : ∃ bt ∈ cq.btlist, ∃ b i, p = bt.at i ∧ i < bt.size ∧
      Owns cq bt b ∧ bufOf cq.nodes p = some (slotAt cq.valSize b i) := by
  obtain ⟨bt, hbt, hin⟩ := h.shape.bucket hp
  obtain ⟨b, hown⟩ := hb.owns bt hbt
  obtain ⟨hblk, hoff⟩ := EgCgBucket.mem_slots.1 hin
  have heq : p = bt.at p.off := by
    rw [EgCgBucket.at, ← hblk]
  exact ⟨bt, hbt, b, p.off, heq, hoff, hown, by rw [heq]; exact hown.slots _ hoff⟩

theorem Buffered.node_lt (hb : Buffered cq) (h : Layout cq queue seg tail free) {p : Ptr}
    (hp : p ∈ seg ++ tail :: free) : p.blk < cq.nodes.next := by
  obtain ⟨bt, hbt, b, i, rfl, hi, hown, -⟩ := hb.slot h hp
  exact hown.node_lt (hb.sizes bt hbt)

/-- The bucket that shrinking takes holds no node of the ring that is left. -/
theorem Buffered.freed_apart (hb : Buffered cq) {bt : EgCgBucket} {rest : List EgCgBucket}
    (hbts : cq.btlist = bt :: rest) (hrest : cq₁.btlist = rest)
    (h₁ : Layout cq₁ queue seg tail free₁) {p : Ptr} (hp : p ∈ seg ++ tail :: free₁) :
    p.blk ≠ bt.node := by
  have hnodes := hb.nodes
  rw [hbts, List.map_cons] at hnodes
  obtain ⟨bt', hbt', hin⟩ := h₁.shape.bucket hp
  rw [hrest] at hbt'
  rw [(EgCgBucket.mem_slots.1 hin).1]
  intro heq
  exact (List.nodup_cons.1 hnodes).1 (List.mem_map.2 ⟨bt', hbt', heq⟩)

/-- Adjusting the ring keeps the buffers of the queued nodes and of the tail. -/
theorem adjusts_buffered (hb : Buffered cq) (h : Layout cq queue seg tail free)
    (hadjusts : Adjusts cq cq₁) (h₁ : Layout cq₁ queue seg tail free₁) :
    Buffered cq₁ ∧ ∀ p ∈ seg ++ [tail], bufOf cq₁.nodes p = bufOf cq.nodes p := by
  have hring : ∀ (l : List Ptr), ∀ p ∈ seg ++ [tail], p ∈ seg ++ tail :: l := fun l p hp => by
    rw [List.append_cons]
    exact List.mem_append_left _ hp
  cases hadjusts with
  | grown hinc =>
    obtain ⟨hb₁, hold⟩ := inc_buffered hb hinc
    exact ⟨hb₁, fun p hp => hold p (hb.node_lt h (hring _ p hp))⟩
  | kept => exact ⟨hb, fun _ _ => rfl⟩
  | shrunk _ hdec =>
    obtain ⟨bt, rest, hbts, hrest, hb₁, hold⟩ := dec_buffered hb hdec
    exact ⟨hb₁, fun p hp => hold p (hb.freed_apart hbts hrest h₁ (hring _ p hp))⟩

end Ring

end Doorhinges.CycleQueue

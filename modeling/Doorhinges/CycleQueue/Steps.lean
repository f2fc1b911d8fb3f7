import Doorhinges.CycleQueue.Ring

/-!
# What the queue operations do to a represented queue

Growing adds free nodes, shrinking takes free nodes away, storing a value turns
the tail node into a queued one and popping turns the head node into a free one.
Shrinking leaves no free node in exactly one case, `shrinksOntoHead`.
-/
namespace Doorhinges.CycleQueue

open Lib.Blocks (Ptr Heap)
open Lib.Links

variable {α : Type}

/-- The drained bucket that a push is about to unlink was spliced in right after
the tail node and is followed by the head node. -/
def shrinksOntoHead (cq : EgCycleQueue α) : Bool :=
  match cq.btlist with
  | [] => false
  | bt :: _ =>
    (cq.node cq.tail).map (·.next) ≠ some cq.head && shrinks cq = some true &&
      bt.head = cq.tail &&
      (cq.nodes.load (bt.at (bt.size - 1))).map (·.next) = some cq.head

theorem setNode_some (cq : EgCycleQueue α) {p : Ptr} {n : EgCqNode α} (hp : cq.nodes.load p = some n)
    (f : EgCqNode α → EgCqNode α) :
    cq.setNode (some p) f = some { cq with nodes := cq.nodes.modify p f } := by
  simp [EgCycleQueue.setNode, Heap.store_of_load hp]

theorem load_setVal {h : Heap (EgCqNode α)} {p : Ptr} {n : EgCqNode α} (hp : h.load p = some n)
    (v : Option α) :
    (h.modify p fun n => { n with val := v }).load p = some { n with val := v } := by
  rw [Heap.load_modify_self, hp]
  rfl

theorem mallocBuf_ok (size valSize : Nat) (bufs : Heap UInt8) :
    ∃ buf bufs', mallocBuf .ok size valSize bufs = some (buf, bufs') := by
  unfold mallocBuf
  split
  · exact ⟨_, _, rfl⟩
  · exact ⟨_, _, rfl⟩

theorem btlist_dec {cq cq' : EgCycleQueue α} (h : egCqDec cq = some cq') :
    cq'.btlist = cq.btlist.tail := by
  unfold egCqDec at h
  split at h
  · cases h
  · rename_i bt rest hbts
    obtain ⟨last, -, h⟩ := Option.bind_eq_some_iff.1 h
    obtain ⟨cq₁, -, h⟩ := Option.bind_eq_some_iff.1 h
    obtain rfl := Option.some.inj h
    rw [hbts]
    rfl

/-- A bucket is as large as the one before it. -/
theorem sizes_inc {m : Malloc} {cq cq' : EgCycleQueue α} {b : Bool} {n : Nat}
    (h : egCqInc m cq = some (b, cq')) (hn : ∀ bt ∈ cq.btlist, bt.size = n) : ∀ bt ∈ cq'.btlist, bt.size = n := by
  unfold egCqInc at h
  split at h
  · cases h
  · rename_i top rest hbts
    split at h
    · obtain ⟨-, rfl⟩ := Prod.mk.inj (Option.some.inj h)
      exact hn
    · split at h
      · obtain ⟨-, rfl⟩ := Prod.mk.inj (Option.some.inj h)
        exact hn
      · obtain ⟨cur, -, h⟩ := Option.bind_eq_some_iff.1 h
        obtain ⟨after, -, h⟩ := Option.bind_eq_some_iff.1 h
        obtain ⟨nodes, -, h⟩ := Option.bind_eq_some_iff.1 h
        obtain ⟨nodes', -, h⟩ := Option.bind_eq_some_iff.1 h
        obtain ⟨-, rfl⟩ := Prod.mk.inj (Option.some.inj h)
        intro bt hbt
        rcases List.mem_cons.1 hbt with rfl | hbt
        · exact hn top (by rw [hbts]; exact List.mem_cons_self)
        · exact hn bt hbt

/-- What a push does to the ring before it stores the value. -/
inductive Adjusts (cq : EgCycleQueue α) : EgCycleQueue α → Prop where
  | grown {cq' : EgCycleQueue α} (h : egCqInc .ok cq = some (true, cq')) : Adjusts cq cq'
  | kept : Adjusts cq cq
  | shrunk {cq' : EgCycleQueue α} (hs : shrinks cq = some true) (h : egCqDec cq = some cq') :
    Adjusts cq cq'

theorem sizes_adjusts {cq cq' : EgCycleQueue α} {n : Nat} (h : Adjusts cq cq')
    (hn : ∀ bt ∈ cq.btlist, bt.size = n) : ∀ bt ∈ cq'.btlist, bt.size = n := by
  cases h with
  | grown hinc => exact sizes_inc hinc hn
  | kept => exact hn
  | shrunk _ hdec =>
    rw [btlist_dec hdec]
    exact fun bt hbt => hn bt (List.mem_of_mem_tail hbt)

namespace Layout

variable {cq : EgCycleQueue α} {queue : List α} {seg free : List Ptr} {tail : Ptr}

/-- The ring as seen from the tail node. -/
theorem from_tail (h : Layout cq queue seg tail free) :
    Ring (nxt cq.nodes) (tail :: (free ++ seg)) := by
  simpa using h.ring.swap

theorem tail_notMem (h : Layout cq queue seg tail free) : tail ∉ free ++ seg :=
  (List.nodup_cons.mp h.from_tail.nodup).1

theorem load_of_mem (h : Layout cq queue seg tail free) {p : Ptr} (hp : p ∈ seg ++ tail :: free) :
    ∃ n q, cq.nodes.load p = some n ∧ n.next = some q := by
  obtain ⟨q, hq⟩ := h.ring.next_some hp
  obtain ⟨n, hn, hnq⟩ := load_of_nxt hq
  exact ⟨n, q, hn, hnq⟩

theorem nxt_tail (h : Layout cq queue seg tail free) :
    nxt cq.nodes tail = free.head?.or cq.head := by
  rw [h.from_tail.next_cons, h.head_eq, List.head?_append, Option.or_assoc]

theorem node_tail (h : Layout cq queue seg tail free) :
    ∃ n, cq.node cq.tail = some n ∧ cq.nodes.load tail = some n ∧ n.next = free.head?.or cq.head := by
  obtain ⟨n, q, hn, -⟩ := h.load_of_mem (p := tail) (by simp)
  refine ⟨n, by simp [EgCycleQueue.node, h.tail_eq, hn], hn, ?_⟩
  rw [← h.nxt_tail, nxt, hn]
  rfl

theorem head_mem (h : Layout cq queue seg tail free) : ∃ p ∈ seg ++ [tail], cq.head = some p := by
  rw [h.head_eq]
  cases seg with
  | nil => exact ⟨tail, by simp, rfl⟩
  | cons p seg => exact ⟨p, by simp, rfl⟩

theorem head_ne_free (h : Layout cq queue seg tail free) {p : Ptr} (hp : p ∈ free) :
    some p ≠ cq.head := by
  obtain ⟨q, hq, hh⟩ := h.head_mem
  have hnd := h.from_tail.nodup
  rw [hh]
  rintro ⟨⟩
  simp only [List.nodup_cons, List.nodup_append, List.mem_append] at hnd hq
  rcases hq with hq | hq
  · exact hnd.2.2.2 p hp p hq rfl
  · simp only [List.mem_singleton] at hq
    exact hnd.1 (.inl (hq ▸ hp))

/-- The head of a part of the free nodes is the ring head only past their end. -/
theorem head?_or_eq_head_iff (h : Layout cq queue seg tail free) {post : List Ptr}
    (hpost : ∀ p ∈ post, p ∈ free) : post.head?.or cq.head = cq.head ↔ post = [] := by
  cases post with
  | nil => simp
  | cons p post => simpa using h.head_ne_free (hpost p (by simp))

theorem empty_iff (h : Layout cq queue seg tail free) : egCqEmpty cq = true ↔ queue = [] := by
  have hlen : seg.length = queue.length := by simpa using congrArg List.length h.values
  simp only [egCqEmpty, h.tail_eq, h.head_eq, decide_eq_true_eq]
  cases seg with
  | nil => simp [List.length_eq_zero_iff.mp hlen.symm]
  | cons p seg =>
    have hne : p ≠ tail := fun he => h.tail_notMem (by simp [he])
    cases queue with
    | nil => simp at hlen
    | cons a queue => simp [hne]

/-- `cur->val = val; cq->tail = cur->next` on a represented queue, full or not. -/
theorem put_eq (h : Layout cq queue seg tail free) (v : α) :
    put cq.tail v cq = some
      { cq with
        nodes := cq.nodes.modify tail fun n => { n with val := some v }
        tail := free.head?.or cq.head } := by
  obtain ⟨n, -, hn, hq⟩ := h.node_tail
  rw [put, h.tail_eq, setNode_some cq hn]
  simp [EgCycleQueue.node, load_setVal hn, hq]

theorem put_layout {f : Ptr} (h : Layout cq queue seg tail (f :: free)) (v : α) :
    ∃ cq', put cq.tail v cq = some cq' ∧ Layout cq' (queue ++ [v]) (seg ++ [tail]) f free := by
  refine ⟨_, h.put_eq v, ?_⟩
  have hassoc : seg ++ [tail] ++ f :: free = seg ++ tail :: f :: free := by simp
  have hne : ∀ p ∈ f :: free ++ seg, p ≠ tail := fun p hp he => h.tail_notMem (he ▸ hp)
  constructor
  · rw [hassoc]
    exact h.ring.congr fun p _ => nxt_setVal ..
  · rw [hassoc]
    exact h.shape
  · rw [h.head_eq, List.head?_append]
    simp
  · rfl
  · have hseg : seg.map (val (cq.nodes.modify tail fun n => { n with val := some v })) =
        seg.map (val cq.nodes) :=
      List.map_congr_left fun p hp => val_setVal_of_ne _ (hne p (by simp [hp])) _
    have htail := val_setVal_self (h.nxt_tail.trans rfl) (some v)
    simp only [List.map_append, hseg, h.values, List.map_cons, List.map_nil, htail]
  · exact h.index
  · exact h.size_eq

/-- On a full ring the tail moves onto the head. -/
theorem put_onto_head (h : Layout cq queue seg tail []) (v : α) :
    ∃ cq' p rest, put cq.tail v cq = some cq' ∧ cq'.head = cq.head ∧ cq'.tail = cq.head ∧
      Layout cq' [] [] p rest := by
  obtain ⟨p, rest, hp⟩ := List.exists_cons_of_ne_nil (show seg ++ [tail] ≠ [] by simp)
  have hhead : cq.head = some p := by
    rw [h.head_eq]
    cases seg with
    | nil =>
      rw [List.nil_append, List.cons.injEq] at hp
      rw [hp.1]
      rfl
    | cons q seg =>
      rw [List.cons_append, List.cons.injEq] at hp
      rw [hp.1]
      rfl
  have hring := h.ring
  have hshape := h.shape
  rw [hp] at hring hshape
  exact ⟨_, p, rest, h.put_eq v, rfl, rfl, hring.congr fun q _ => nxt_setVal .., hshape, hhead,
    hhead, rfl, h.index, h.size_eq⟩

/-- The queue then reads as empty. -/
theorem put_full (h : Layout cq queue seg tail []) (v : α) :
    ∃ cq', put cq.tail v cq = some cq' ∧ egCqEmpty cq' = true ∧ Represents cq' [] := by
  obtain ⟨cq', p, rest, hput, hhead, htail, hlayout⟩ := h.put_onto_head v
  exact ⟨cq', hput, by simp [egCqEmpty, hhead, htail], _, _, _, hlayout⟩

theorem length_values (h : Layout cq queue seg tail free) : seg.length = queue.length := by
  simpa using congrArg List.length h.values

/-- A ring without a free node holds as many values as a bucket has nodes, less one. -/
theorem le_of_full (h : Layout cq queue seg tail []) {n : Nat}
    (hn : ∀ bt ∈ cq.btlist, bt.size = n) : n ≤ queue.length + 1 := by
  have hle := h.shape.le_length hn
  rwa [List.length_append, List.length_singleton, h.length_values] at hle

/-- The state after growing, with the new bucket `bt` spliced in behind the tail. -/
theorem inc_eq (h : Layout cq queue seg tail free) : ∃ bt bufs, egCqInc .ok cq = some (true,
      { cq with
        size := cq.size + .ofNat bt.size
        btIndex := cq.btIndex + 1
        btlist := bt :: cq.btlist
        nodes := (withArray cq.nodes bt.size bt.buf cq.valSize (nxt cq.nodes tail)).modify tail
          fun m => { m with next := some (bt.at 0) }
        bufs := bufs }) ∧
    bt.head = some tail ∧ bt.node = cq.nodes.next ∧ 0 < bt.size := by
  obtain ⟨top, bts, hbts, htop⟩ := h.shape.newest
  obtain ⟨n, hnode, hn, -⟩ := h.node_tail
  obtain ⟨buf, bufs, hbuf⟩ := mallocBuf_ok top.size cq.valSize cq.bufs
  have hnext : nxt cq.nodes tail = n.next := by simp [nxt, hn]
  have hmem : (withArray cq.nodes top.size buf cq.valSize n.next).load tail = some n :=
    load_withArray_old hn _
  refine ⟨⟨some tail, cq.nodes.next, buf, top.size⟩, bufs, ?_, rfl, rfl, htop⟩
  rw [h.tail_eq] at hnode
  simp only [egCqInc, hbts, Malloc.ok] at hbuf ⊢
  simp [hbuf, hnode, h.tail_eq, store_withArray htop, Heap.store_of_load hmem, hnext,
    EgCgBucket.at]

/-- Growing a full queue inserts the slots of the new bucket after the tail node. -/
theorem inc_layout (h : Layout cq queue seg tail []) :
    ∃ cq' free, egCqInc .ok cq = some (true, cq') ∧ free ≠ [] ∧
      Layout cq' queue seg tail free := by
  obtain ⟨bt, bufs, heq, hhead, hblk, hsize⟩ := h.inc_eq
  refine ⟨_, bt.slots, heq, EgCgBucket.slots_ne_nil hsize, ?_⟩
  obtain ⟨n, -, hn, -⟩ := h.node_tail
  let mem := withArray cq.nodes bt.size bt.buf cq.valSize (nxt cq.nodes tail)
  let mem' := mem.modify tail fun m => { m with next := some (bt.at 0) }
  have hmem : mem.load tail = some n := load_withArray_old hn _
  have hold : ∀ p ∈ seg, nxt mem' p = nxt cq.nodes p := by
    intro p hp
    obtain ⟨m, _, hm, -⟩ := h.load_of_mem (p := p) (by simp [hp])
    have hpt : p ≠ tail := fun he => h.tail_notMem (by simp [← he, hp])
    rw [nxt_setNext_of_ne _ hpt, nxt, nxt, load_withArray_old hm, hm]
  have hval : ∀ p ∈ tail :: seg, val mem' p = val cq.nodes p := by
    intro p hp
    obtain ⟨m, _, hm, -⟩ := h.load_of_mem (p := p) (by simp at hp ⊢; tauto)
    rw [val_setNext, val, val, load_withArray_old hm, hm]
  have hfresh : ∀ p ∈ bt.slots, p ∉ tail :: seg := by
    intro p hp hin
    obtain ⟨m, _, hm, -⟩ := h.load_of_mem (p := p) (by simp at hin ⊢; tauto)
    have hlt := Heap.blk_lt_next hm
    rw [(EgCgBucket.mem_slots.mp hp).1, hblk] at hlt
    exact absurd hlt (Nat.lt_irrefl _)
  have hsplice : Ring (nxt mem') (tail :: (bt.slots ++ seg)) := by
    refine h.from_tail.splice (EgCgBucket.slots_ne_nil hsize) ?_ ?_ ?_ hold
    · have hnd := h.from_tail.nodup
      have hs := bt.nodup_slots
      simp only [List.nil_append, List.nodup_cons, List.nodup_append, List.mem_append] at hnd ⊢
      refine ⟨?_, hs, hnd.2, fun p hp q hq he => hfresh p hp (by simp [he, hq])⟩
      rintro (ht | ht)
      · exact hfresh tail ht (by simp)
      · exact hnd.1 ht
    · rw [nxt_setNext_self hmem, EgCgBucket.head?_slots hsize]
    · have hpath : Path (nxt mem) bt.slots (nxt cq.nodes tail) := path_withArray hblk _
      refine hpath.congr fun p hp => ?_
      exact nxt_setNext_of_ne _ (fun he => hfresh p hp (by simp [he])) _
  have hrot : seg ++ tail :: bt.slots ~r tail :: (bt.slots ++ seg) := by
    simpa using rotated_append seg (tail :: bt.slots)
  constructor
  · exact hsplice.rotated hrot.symm
  · refine .splice hhead hsize hrot (h.shape.rotated ?_)
    simpa using rotated_append [tail] seg
  · exact h.head_eq
  · exact h.tail_eq
  · rw [← h.values]
    exact List.map_congr_left fun p hp => hval p (by simp [hp])
  · obtain ⟨top, rest, hbts, -⟩ := h.shape.newest
    have hindex := h.index
    rw [hbts] at hindex ⊢
    rw [hindex, List.length_cons, List.length_cons, Nat.add_sub_cancel, Nat.add_sub_cancel]
    exact (Int32.ofNat_add rest.length 1).symm
  · rw [h.size_eq, List.map_cons, List.sum_cons, Nat.add_comm bt.size, Int32.ofNat_add]

/-- Without its drained newest bucket the ring keeps the queued nodes and the
tail node. No free node is left only if the bucket sat between tail and head. -/
theorem without_newest (h : Layout cq queue seg tail free) {bt : EgCgBucket} {hd : Ptr}
    {rest : List Ptr} (hsize : 0 < bt.size)
    (hr : seg ++ tail :: free ~r hd :: (bt.slots ++ rest))
    (hlast : val cq.nodes (bt.at (bt.size - 1)) = none) (htail : tail ∉ bt.slots) :
    ∃ free', hd :: rest ~r seg ++ tail :: free' ∧ (∀ p ∈ free', p ∈ free) ∧
      (free' = [] ↔ hd = tail ∧ nxt cq.nodes (bt.at (bt.size - 1)) = cq.head) := by
  have hne := EgCgBucket.slots_ne_nil hsize
  have hend := EgCgBucket.getLast_slots hsize
  have hseg : bt.at (bt.size - 1) ∉ seg := by
    intro hin
    have hv : val cq.nodes (bt.at (bt.size - 1)) ∈ queue.map some := by
      rw [← h.values]
      exact List.mem_map_of_mem hin
    simp [hlast] at hv
  have htr : tail :: (free ++ seg) ~r hd :: (bt.slots ++ rest) := by
    refine List.IsRotated.trans ?_ hr
    simpa using rotated_append (tail :: free) seg
  have hnd := h.from_tail.nodup
  have hmem : tail ∈ hd :: (bt.slots ++ rest) := htr.mem_iff.mp (by simp)
  simp only [List.mem_cons, List.mem_append, htail, false_or] at hmem
  rcases hmem with rfl | hmem
  · have heq := eq_of_rotated_cons hnd htr
    obtain ⟨post, rfl, rfl⟩ := append_split heq hne (by rwa [hend])
    refine ⟨post, ?_, fun p hp => by simp [hp], ?_⟩
    · simpa using rotated_append (tail :: post) seg
    · have hring : Ring (nxt cq.nodes) (tail :: (bt.slots ++ (post ++ seg))) := by
        simpa using h.from_tail
      have hn := hring.next_getLast hne
      rw [hend] at hn
      rw [hn, List.head?_append, Option.or_assoc, ← h.head_eq]
      rw [h.head?_or_eq_head_iff fun p hp => by simp [hp]]
      simp
  · obtain ⟨r₁, r₂, rfl⟩ := List.append_of_mem hmem
    have htr' : tail :: (free ++ seg) ~r tail :: ((r₂ ++ hd :: bt.slots) ++ r₁) := by
      refine htr.trans ?_
      simpa using rotated_append (hd :: (bt.slots ++ r₁)) (tail :: r₂)
    have heq := eq_of_rotated_cons hnd htr'
    obtain ⟨post, rfl, rfl⟩ := append_split heq (by simp) (by simpa [hne, hend] using hseg)
    have hdt : hd ≠ tail := by
      rintro rfl
      simp at hnd
    refine ⟨r₂ ++ hd :: post, ?_, fun p hp => by simp at hp ⊢; tauto, by simp [hdt]⟩
    simpa using rotated_append (hd :: post) (seg ++ tail :: r₂)

/-- The test for shrinking, on a represented queue. -/
theorem shrinks_eq (h : Layout cq queue seg tail free) {bt : EgCgBucket} {bts : List EgCgBucket}
    (hbts : cq.btlist = bt :: bts) (hs : shrinks cq = some true) :
    bts ≠ [] ∧ val cq.nodes (bt.at (bt.size - 1)) = none ∧ tail ∉ bt.slots := by
  unfold shrinks at hs
  split at hs
  · simp at hs
  · rename_i hidx
    rw [hbts, h.tail_eq] at hs
    simp only [Option.bind_eq_bind, Option.bind_some, Option.bind_eq_some_iff, Option.some.injEq,
      Bool.and_eq_true] at hs
    obtain ⟨first, -, last, hl, ⟨-, hv⟩, hout⟩ := hs
    refine ⟨?_, ?_, ?_⟩
    · rintro rfl
      rw [h.index, hbts] at hidx
      simp at hidx
    · rw [val, hl]
      simpa using hv
    · intro hin
      have hm := EgCgBucket.mem_slots.mp hin
      simp only [outside, decide_eq_true_eq] at hout
      omega

theorem shrinks_defined (h : Layout cq queue seg tail free) : ∃ b, shrinks cq = some b := by
  obtain ⟨bt, bts, hbts, hsize⟩ := h.shape.newest
  have hload : ∀ i, i < bt.size → ∃ n, cq.nodes.load (bt.at i) = some n := by
    intro i hi
    have hin : bt.at i ∈ seg ++ tail :: free := by
      have hshape := h.shape
      rw [hbts] at hshape
      exact hshape.newest_mem (EgCgBucket.mem_slots.mpr ⟨rfl, hi⟩)
    obtain ⟨n, -, hn, -⟩ := h.load_of_mem hin
    exact ⟨n, hn⟩
  unfold shrinks
  split
  · exact ⟨_, rfl⟩
  · obtain ⟨first, hf⟩ := hload 0 hsize
    obtain ⟨last, hl⟩ := hload (bt.size - 1) (by omega)
    simp [hbts, h.tail_eq, hf, hl]

/-- Shrinking keeps the queued values; it leaves the queue without a free node
exactly when the guard says so. -/
theorem dec_layout (h : Layout cq queue seg tail free) (hs : shrinks cq = some true)
    (hfree : free ≠ []) :
    ∃ cq' free', egCqDec cq = some cq' ∧ Layout cq' queue seg tail free' ∧
      (free' = [] ↔ shrinksOntoHead cq = true) := by
  obtain ⟨bt, bts, hbts, hsize⟩ := h.shape.newest
  obtain ⟨hmore, hlast, htail⟩ := h.shrinks_eq hbts hs
  have hshape := h.shape
  rw [hbts] at hshape
  cases hshape with
  | base _ _ _ => simp at hmore
  | @splice _ _ hd rest _ hhead _ hr hrest =>
    have hnd : (hd :: (bt.slots ++ rest)).Nodup := hr.nodup_iff.mp h.ring.nodup
    obtain ⟨free', hrot, hsub, hempty⟩ := h.without_newest hsize hr hlast htail
    have hring := h.ring.rotated hr
    have hend : bt.at (bt.size - 1) ∈ seg ++ tail :: free := by
      have hin : bt.at (bt.size - 1) ∈ bt.slots :=
        EgCgBucket.mem_slots.mpr ⟨rfl, Nat.sub_lt hsize Nat.one_pos⟩
      exact hr.mem_iff.mpr (List.mem_cons_of_mem hd (List.mem_append_left rest hin))
    obtain ⟨nl, _, hnl, -⟩ := h.load_of_mem hend
    obtain ⟨nh, _, hnh, -⟩ := h.load_of_mem (hr.mem_iff.mpr List.mem_cons_self)
    have hnlast : nxt cq.nodes (bt.at (bt.size - 1)) = nl.next := by simp [nxt, hnl]
    let mem := (cq.nodes.modify hd fun n => { n with next := nl.next }).release bt.node
    have hblk := hrest.other_block hsize hnd
    have hload : ∀ p ∈ hd :: rest,
        mem.load p = (cq.nodes.modify hd fun n => { n with next := nl.next }).load p := by
      intro p hp
      rw [Heap.load_release, if_neg (hblk p hp)]
    have hval : ∀ p ∈ hd :: rest, val mem p = val cq.nodes p := by
      intro p hp
      rw [val, hload p hp]
      exact val_setNext ..
    have hback : ∀ p ∈ seg ++ tail :: free', p ∈ hd :: rest := fun p hp => hrot.mem_iff.mpr hp
    refine ⟨{ cq with
      size := cq.size - .ofNat bt.size
      btIndex := cq.btIndex - 1
      btlist := bts
      nodes := mem
      bufs := bt.buf.elim cq.bufs cq.bufs.release }, free', ?_, ?_, ?_⟩
    · simp [egCqDec, hbts, hnl, hhead, setNode_some cq hnh, mem]
    · constructor
      · refine Ring.rotated (hring.unlink (EgCgBucket.slots_ne_nil hsize) ?_ ?_) hrot
        · rw [EgCgBucket.getLast_slots hsize, hnlast, nxt, hload hd (by simp)]
          exact nxt_setNext_self hnh _
        · intro p hp
          rw [nxt, hload p (by simp [hp])]
          refine nxt_setNext_of_ne _ ?_ _
          rintro rfl
          simp [hp] at hnd
      · exact hrest.rotated hrot.symm
      · exact h.head_eq
      · exact h.tail_eq
      · rw [← h.values]
        exact List.map_congr_left fun p hp => hval p (hback p (by simp [hp]))
      · have hpos : 0 < bts.length := List.length_pos_iff.2 hmore
        rw [h.index, hbts, List.length_cons, Nat.add_sub_cancel, Int32.ofNat_sub _ _ hpos]
        rfl
      · rw [h.size_eq, hbts, List.map_cons, List.sum_cons, Nat.add_comm bt.size,
          Int32.ofNat_add, Int32.add_sub_cancel]
    · obtain ⟨nt, hnode, -, hnext⟩ := h.node_tail
      have hroom : nt.next ≠ cq.head := by
        rw [hnext]
        exact fun he => hfree ((h.head?_or_eq_head_iff fun _ hp => hp).mp he)
      rw [h.tail_eq] at hnode
      rw [hempty]
      simp [shrinksOntoHead, hbts, hnode, hroom, hs, hhead, h.tail_eq, hnl, hnlast]

/-- Popping clears the head node and moves it to the free ones. -/
theorem pop_head {a : α} (h : Layout cq (a :: queue) seg tail free) :
    ∃ p q seg', seg = p :: seg' ∧ egCqPop cq = some (some a,
      { cq with nodes := cq.nodes.modify p fun n => { n with val := none }, head := q }) ∧
      Layout { cq with nodes := cq.nodes.modify p fun n => { n with val := none }, head := q }
        queue seg' tail (free ++ [p]) := by
  have hfull : egCqEmpty cq = false := by
    rw [← Bool.not_eq_true, h.empty_iff]
    simp
  cases seg with
  | nil => simpa using h.values
  | cons p seg =>
    obtain ⟨n, q, hn, hq⟩ := h.load_of_mem (p := p) (by simp)
    have hhead : cq.head = some p := h.head_eq
    have hvals := h.values
    simp only [List.map_cons, List.cons.injEq] at hvals
    have hnv : n.val = some a := by simpa [val, hn] using hvals.1
    have hnext : nxt cq.nodes p = (seg ++ [tail]).head? := by
      rw [(show Ring (nxt cq.nodes) (p :: (seg ++ tail :: free)) from h.ring).next_cons]
      cases seg <;> rfl
    have hrot : p :: seg ++ tail :: free ~r seg ++ tail :: (free ++ [p]) := by
      simpa using rotated_append [p] (seg ++ tail :: free)
    have hnd : (p :: (seg ++ tail :: free)).Nodup := h.ring.nodup
    have hne : ∀ r ∈ seg ++ tail :: free, r ≠ p := by
      rintro r hr rfl
      exact (List.nodup_cons.mp hnd).1 hr
    refine ⟨p, n.next, seg, rfl, ?_, ?_⟩
    · simp [egCqPop, hfull, hhead, EgCycleQueue.node, hn, setNode_some cq hn, load_setVal hn, hnv]
    · constructor
      · exact (h.ring.rotated hrot).congr fun r _ => nxt_setVal ..
      · exact h.shape.rotated hrot.symm
      · have hp : nxt cq.nodes p = n.next := by simp [nxt, hn]
        rw [← hp, hnext]
        cases seg <;> rfl
      · exact h.tail_eq
      · rw [← hvals.2]
        exact List.map_congr_left fun r hr => val_setVal_of_ne _ (hne r (by simp [hr])) _
      · exact h.index
      · exact h.size_eq

theorem pop_layout {a : α} (h : Layout cq (a :: queue) seg tail free) :
    ∃ cq' seg' free', egCqPop cq = some (some a, cq') ∧ Layout cq' queue seg' tail free' := by
  obtain ⟨p, q, seg', -, hpop, hlayout⟩ := h.pop_head
  exact ⟨_, _, _, hpop, hlayout⟩

theorem head_eq_pop (h : Layout cq queue seg tail free) : egCqHead cq = some queue.head? := by
  cases queue with
  | nil => simp [egCqHead, h.empty_iff]
  | cons a queue =>
    have hfull : egCqEmpty cq = false := by
      rw [← Bool.not_eq_true, h.empty_iff]
      simp
    cases seg with
    | nil => simpa using h.values
    | cons p seg =>
      obtain ⟨n, _, hn, -⟩ := h.load_of_mem (p := p) (by simp)
      have hhead : cq.head = some p := h.head_eq
      have hvals := h.values
      simp only [List.map_cons, List.cons.injEq] at hvals
      simpa [egCqHead, hfull, hhead, EgCycleQueue.node, hn, val] using hvals.1

/-- A push adjusts the ring and stores the value; no free node is left for the tail exactly
when it shrinks onto the head. -/
theorem push_adjusts (h : Layout cq queue seg tail free) (v : α) :
    ∃ cq₁ free₁ cq', Adjusts cq cq₁ ∧ Layout cq₁ queue seg tail free₁ ∧
      (free₁ = [] ↔ shrinksOntoHead cq = true) ∧ put cq₁.tail v cq₁ = some cq' ∧
        egCqPush .ok cq v = some (true, cq') := by
  obtain ⟨n, hnode, -, hnext⟩ := h.node_tail
  obtain ⟨bt, bts, hbts, -⟩ := h.shape.newest
  by_cases hfull : n.next = cq.head
  · -- the ring is full: grow, which never is the guarded case
    obtain rfl : free = [] := (h.head?_or_eq_head_iff fun _ hp => hp).mp (hnext ▸ hfull)
    obtain ⟨cq₁, free₁, hinc, hne, h₁⟩ := h.inc_layout
    have hput := h₁.put_eq v
    have htail : cq₁.tail = cq.tail := h₁.tail_eq.trans h.tail_eq.symm
    refine ⟨cq₁, free₁, _, .grown hinc, h₁, iff_of_false hne ?_, hput, ?_⟩
    · simp [shrinksOntoHead, hbts, hnode, hfull]
    · rw [htail] at hput
      simp [egCqPush, hnode, hfull, hinc, hput]
  · have hroom : free ≠ [] := by
      rintro rfl
      exact hfull hnext
    obtain ⟨b, hs⟩ := h.shrinks_defined
    cases b with
    | false =>
      have hput := h.put_eq v
      refine ⟨cq, free, _, .kept, h, iff_of_false hroom ?_, hput, ?_⟩
      · simp [shrinksOntoHead, hbts, hs]
      · simp [egCqPush, hnode, hfull, hs, hput]
    | true =>
      obtain ⟨cq₁, free₁, hdec, h₁, hiff⟩ := h.dec_layout hs hroom
      have hput := h₁.put_eq v
      have htail : cq₁.tail = cq.tail := h₁.tail_eq.trans h.tail_eq.symm
      refine ⟨cq₁, free₁, _, .shrunk hs hdec, h₁, hiff, hput, ?_⟩
      rw [htail] at hput
      simp [egCqPush, hnode, hfull, hs, hdec, hput]

/-- The node the value is stored in becomes the last queued one, and the next free node the
tail. -/
theorem push_spares (h : Layout cq queue seg tail free) (v : α)
    (hs : shrinksOntoHead cq = false) : ∃ cq₁ cq' f free', Adjusts cq cq₁ ∧
      put cq₁.tail v cq₁ = some cq' ∧ egCqPush .ok cq v = some (true, cq') ∧
        Layout cq₁ queue seg tail (f :: free') ∧
          Layout cq' (queue ++ [v]) (seg ++ [tail]) f free' := by
  obtain ⟨cq₁, free₁, cq', hadjusts, h₁, hiff, hput, hpush⟩ := h.push_adjusts v
  cases free₁ with
  | nil =>
    rw [hiff.1 rfl] at hs
    cases hs
  | cons f free' =>
    obtain ⟨cq₂, hput₂, h₂⟩ := h₁.put_layout v
    obtain rfl := Option.some.inj (hput.symm.trans hput₂)
    exact ⟨cq₁, cq', f, free', hadjusts, hput, hpush, h₁, h₂⟩

/-- A push stores the value, unless it shrinks onto the head: then the queue
looks empty although the value was accepted. -/
theorem push_layout (h : Layout cq queue seg tail free) (v : α) :
    ∃ cq', egCqPush .ok cq v = some (true, cq') ∧
      (shrinksOntoHead cq = false → Represents cq' (queue ++ [v])) ∧
      (shrinksOntoHead cq = true → egCqEmpty cq' = true ∧ Represents cq' [] ∧
        ∀ n, (∀ bt ∈ cq.btlist, bt.size = n) → n ≤ queue.length + 1) := by
  obtain ⟨cq₁, free₁, cq', hadjusts, h₁, hiff, hput, hpush⟩ := h.push_adjusts v
  refine ⟨cq', hpush, fun hs => ?_, fun hs => ?_⟩
  · obtain ⟨cq₁, cq₂, f, free', -, -, hpush₂, -, h₂⟩ := h.push_spares v hs
    obtain ⟨-, rfl⟩ := Prod.mk.inj (Option.some.inj (hpush.symm.trans hpush₂))
    exact ⟨_, _, _, h₂⟩
  · obtain rfl := hiff.2 hs
    obtain ⟨cq₂, hput₂, hempty, h₂⟩ := h₁.put_full v
    obtain rfl := Option.some.inj (hput.symm.trans hput₂)
    exact ⟨hempty, h₂, fun n hn => h₁.le_of_full (sizes_adjusts hadjusts hn)⟩

end Layout

theorem create_represents {size : Nat} (hs : 1 ≤ size) (valSize : Nat) :
    ∃ cq : EgCycleQueue α, egCqCreate .ok size valSize = some (some cq) ∧ Represents cq [] := by
  obtain ⟨buf, bufs, hbuf⟩ := mallocBuf_ok size valSize Heap.empty
  let bt : EgCgBucket := ⟨none, (Heap.empty : Heap (EgCqNode α)).next, buf, size⟩
  let mem : Heap (EgCqNode α) := withArray Heap.empty size buf valSize (some (bt.at 0))
  have hbt : 0 < bt.size := hs
  have hslots : bt.slots = bt.at 0 :: bt.slots.tail :=
    List.eq_cons_of_mem_head? (EgCgBucket.head?_slots hbt)
  have hring : Ring (nxt mem) bt.slots := by
    refine ⟨bt.nodup_slots, ?_⟩
    rw [EgCgBucket.head?_slots hbt]
    exact path_withArray (show bt.node = (Heap.empty : Heap (EgCqNode α)).next from rfl) _
  refine ⟨⟨.ofNat size, 0, valSize, some (bt.at 0), some (bt.at 0), [bt], mem, bufs⟩, ?_,
    [], bt.at 0, bt.slots.tail, ?_⟩
  · simp only [egCqCreate, Malloc.ok] at hbuf ⊢
    simp [hbuf, store_withArray hs, mem, bt, EgCgBucket.at]
  · rw [hslots] at hring
    constructor
    · exact hring
    · exact .base rfl hs (by rw [List.nil_append, ← hslots])
    · rfl
    · rfl
    · rfl
    · rfl
    · simp [bt]

end Doorhinges.CycleQueue

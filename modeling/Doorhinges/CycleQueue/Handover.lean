import Doorhinges.CycleQueue.Buffers
import Doorhinges.Lib.Machine

/-!
# Element buffers between a producer and a consumer

The producer takes the buffer of the tail node, fills it and pushes it; the consumer looks at
the head, uses the element and pops it. Their calls interleave in any order.
-/
namespace Doorhinges.CycleQueue.Handover

open Lib.Blocks (Ptr Heap)
open Lib.Links
open Lib.Machine

section System

/-- The queue, the buffer its producer has taken, and the element its consumer looks at. -/
structure Users where
  cq : EgCycleQueue Ptr
  taken : Option Ptr
  reading : Option Ptr

inductive Act where
  | take
  | fill (bytes : List UInt8)
  | push
  | head
  | use
  | pop

def writeAt (h : Heap UInt8) (p : Ptr) : List UInt8 → Option (Heap UInt8)
  | [] => some h
  | b :: bs => (h.store p fun _ => b).bind fun h => writeAt h ⟨p.blk, p.off + 1⟩ bs

def readAt (h : Heap UInt8) (p : Ptr) : Nat → Option (List UInt8)
  | 0 => some []
  | n + 1 => do
    let b ← h.load p
    let bs ← readAt h ⟨p.blk, p.off + 1⟩ n
    some (b :: bs)

/-- A use reads the whole element. -/
def step (s : Users) : Act → Option Users
  | .take => (egCqGetCurBuf s.cq).map fun buf => { s with taken := buf }
  | .fill bytes => do
    let p ← s.taken
    let bufs ← writeAt s.cq.bufs p bytes
    some { s with cq := { s.cq with bufs := bufs } }
  | .push => do
    let p ← s.taken
    let (_, cq) ← egCqPush .ok s.cq p
    some { s with cq := cq, taken := none }
  | .head => (egCqHead s.cq).map fun item => { s with reading := item }
  | .use => do
    let p ← s.reading
    let _ ← readAt s.cq.bufs p s.cq.valSize
    some s
  | .pop => (egCqPop s.cq).map fun r => { s with cq := r.2, reading := none }

/-- The protocols: a buffer is taken before it is filled or pushed, an element is looked at
before it is used or popped, and each is done with before the next. -/
def Follows (s : Users) : Act → Prop
  | .take => s.taken = none
  | .fill bytes => s.taken ≠ none ∧ bytes.length ≤ s.cq.valSize
  | .push => s.taken ≠ none
  | .head => s.reading = none
  | .use => s.reading ≠ none
  | .pop => s.reading ≠ none

instance (s : Users) : ∀ a, Decidable (Follows s a)
  | .take => inferInstanceAs (Decidable (s.taken = none))
  | .fill bytes =>
    inferInstanceAs (Decidable (s.taken ≠ none ∧ bytes.length ≤ s.cq.valSize))
  | .push => inferInstanceAs (Decidable (s.taken ≠ none))
  | .head => inferInstanceAs (Decidable (s.reading = none))
  | .use => inferInstanceAs (Decidable (s.reading ≠ none))
  | .pop => inferInstanceAs (Decidable (s.reading ≠ none))

def start (size valSize : Nat) : Option Users :=
  (egCqCreate .ok size valSize).join.map fun cq => ⟨cq, none, none⟩

end System

/-- The nodes from the head, inclusive, to the tail, exclusive. -/
structure Arc (cq : EgCycleQueue Ptr) (arc : List Ptr) (tail : Ptr) : Prop where
  tail_eq : cq.tail = some tail
  head_eq : cq.head = (arc ++ [tail]).head?
  path : Path (nxt cq.nodes) arc (some tail)
  stops : tail ∉ arc

/-- A push would call `eg_cq_dec`. -/
def Shrinking (cq : EgCycleQueue Ptr) : Prop :=
  ∃ n, cq.node cq.tail = some n ∧ n.next ≠ cq.head ∧ shrinks cq = some true

/-- Elements of the size at these places have no byte in common. -/
def Apart (valSize : Nat) (p q : Ptr) : Prop :=
  p.blk ≠ q.blk ∨ p.off + valSize ≤ q.off ∨ q.off + valSize ≤ p.off

/-- The buffer in the producer's hands is in a live bucket and apart from those of the arc,
each node of the arc holds its own buffer, and shrinking spares the arc and the tail. -/
structure Exclusive (s : Users) (arc : List Ptr) (tail : Ptr) : Prop where
  bounds : Arc s.cq arc tail
  live : ∀ p, s.taken = some p → ∃ bt ∈ s.cq.btlist, bt.buf = some p.blk ∧
    ∃ bytes, s.cq.bufs.blocks p.blk = some bytes ∧ p.off + s.cq.valSize ≤ bytes.length
  apart : ∀ p, s.taken = some p → ∀ q ∈ arc, ∀ r, bufOf s.cq.nodes q = some r →
    Apart s.cq.valSize p r
  own : ∀ q ∈ arc, ∃ r, bufOf s.cq.nodes q = some r ∧ val s.cq.nodes q = some r
  spared : Shrinking s.cq → ∀ bt ∈ s.cq.btlist.head?, ∀ q ∈ arc ++ [tail], q ∉ bt.slots

/-- What the calls keep: the queued values are the buffers of their nodes, the producer has
the buffer of the tail, and the consumer that of the head. -/
structure Held (s : Users) (queue seg : List Ptr) (tail : Ptr) (free : List Ptr) : Prop where
  layout : Layout s.cq queue seg tail free
  buffered : Buffered s.cq
  own : seg.map (bufOf s.cq.nodes) = queue.map some
  taken : ∀ p, s.taken = some p → bufOf s.cq.nodes tail = some p
  reading : ∀ p, s.reading = some p → ∃ h, s.cq.head = some h ∧ bufOf s.cq.nodes h = some p

def Inv (s : Users) : Prop := ∃ queue seg tail free, Held s queue seg tail free

section Exclusive

variable {s : Users} {queue seg free : List Ptr} {tail : Ptr}

/-- Different slots do not overlap. -/
theorem apart_of_ne {valSize b c i j : Nat} (h : slotAt valSize b i ≠ slotAt valSize c j) :
    Apart valSize (slotAt valSize b i) (slotAt valSize c j) := by
  by_cases hbc : b = c
  · have hij : i ≠ j := by
      rintro rfl
      exact h (by rw [hbc])
    have hlt : ∀ {m n : Nat}, m < n → valSize * m + valSize ≤ valSize * n := fun hmn =>
      (Nat.mul_succ ..).symm.le.trans (Nat.mul_le_mul_left _ hmn)
    rcases Nat.lt_or_gt_of_ne hij with hlt' | hgt
    · exact Or.inr (Or.inl (hlt hlt'))
    · exact Or.inr (Or.inr (hlt hgt))
  · exact Or.inl hbc

theorem Held.arc (h : Held s queue seg tail free) : Arc s.cq seg tail where
  tail_eq := h.layout.tail_eq
  head_eq := by
    rw [h.layout.head_eq, List.head?_append]
    rfl
  path := ((path_append ..).1 h.layout.ring.path).1
  stops := fun hmem => h.layout.tail_notMem (List.mem_append_right _ hmem)

theorem Held.exclusive (h : Held s queue seg tail free) : Exclusive s seg tail where
  bounds := h.arc
  live p hp := by
    obtain ⟨bt, hbt, b, i, -, hi, hown, hbuf⟩ := h.buffered.slot h.layout (p := tail) (by simp)
    obtain rfl := Option.some.inj ((h.taken p hp).symm.trans hbuf)
    obtain ⟨bytes, hbytes, hlen⟩ := Option.map_eq_some_iff.1 hown.held
    exact ⟨bt, hbt, hown.buf, bytes, hbytes, hlen ▸ slotAt_room hi⟩
  apart p hp q hq r hr := by
    obtain ⟨bt, hbt, b, i, heq, hi, -, hbuf⟩ := h.buffered.slot h.layout (p := tail) (by simp)
    obtain ⟨bq, hbq, c, j, heq', hj, -, hbuf'⟩ := h.buffered.slot h.layout (p := q) (by simp [hq])
    obtain rfl := Option.some.inj ((h.taken p hp).symm.trans hbuf)
    obtain rfl := Option.some.inj (hr.symm.trans hbuf')
    apply apart_of_ne
    intro hslots
    have htq : tail = q := h.buffered.bufOf_inj hbt hbq
      (heq ▸ EgCgBucket.mem_slots.2 ⟨rfl, hi⟩) (heq' ▸ EgCgBucket.mem_slots.2 ⟨rfl, hj⟩)
      (by rw [hbuf, hbuf', hslots])
    exact h.arc.stops (htq ▸ hq)
  own q hq := by
    have hsame : seg.map (bufOf s.cq.nodes) = seg.map (val s.cq.nodes) :=
      h.own.trans h.layout.values.symm
    have hqq := List.map_inj_left.1 hsame q hq
    obtain ⟨-, -, b, i, -, -, -, hbuf⟩ := h.buffered.slot h.layout (p := q) (by simp [hq])
    exact ⟨_, hbuf, hqq.symm.trans hbuf⟩
  spared hs bt hbt q hq hin := by
    obtain ⟨n, hnode, hroom, hshrinks⟩ := hs
    have hfree : free ≠ [] := by
      rintro rfl
      obtain ⟨n', hnode', -, hnext⟩ := h.layout.node_tail
      obtain rfl := Option.some.inj (hnode.symm.trans hnode')
      exact hroom hnext
    obtain ⟨cq₁, free₁, hdec, h₁, -⟩ := h.layout.dec_layout hshrinks hfree
    obtain ⟨top, rest, hbts, hrest, -, -⟩ := dec_buffered h.buffered hdec
    rw [hbts] at hbt
    obtain rfl := Option.some.inj hbt
    refine h.buffered.freed_apart hbts hrest h₁ ?_ (EgCgBucket.mem_slots.1 hin).1
    rw [List.append_cons]
    exact List.mem_append_left _ hq

end Exclusive

section Bytes

variable {h : Heap UInt8} {p : Ptr} {n : Nat}

theorem length_modify (h : Heap UInt8) (p : Ptr) (f : UInt8 → UInt8) (b : Nat) :
    ((h.modify p f).blocks b).map List.length = (h.blocks b).map List.length := by
  show (if b = p.blk then (h.blocks b).map (·.modify p.off f) else h.blocks b).map List.length = _
  by_cases hb : b = p.blk
  · rw [if_pos hb, Option.map_map]
    cases h.blocks b with
    | none => rfl
    | some cells => simp
  · rw [if_neg hb]

theorem load_of_length (hb : (h.blocks p.blk).map List.length = some n) (hp : p.off < n) :
    ∃ c, h.load p = some c := by
  obtain ⟨cells, hcells, rfl⟩ := Option.map_eq_some_iff.1 hb
  exact ⟨cells[p.off], by rw [Heap.load, hcells, Option.bind_some, List.getElem?_eq_getElem hp]⟩

/-- Writing inside a live block is defined and keeps the length of every block. -/
theorem writeAt_some {bytes : List UInt8} (hb : (h.blocks p.blk).map List.length = some n)
    (hroom : p.off + bytes.length ≤ n) : ∃ h', writeAt h p bytes = some h' ∧
      ∀ b, (h'.blocks b).map List.length = (h.blocks b).map List.length := by
  induction bytes generalizing h p with
  | nil => exact ⟨h, rfl, fun _ => rfl⟩
  | cons c bytes ih =>
    rw [List.length_cons] at hroom
    obtain ⟨old, hold⟩ := load_of_length hb (by omega)
    obtain ⟨h', hwrite, hlen⟩ := ih (h := h.modify p fun _ => c) (p := ⟨p.blk, p.off + 1⟩)
      ((length_modify ..).trans hb) (by show p.off + 1 + bytes.length ≤ n; omega)
    refine ⟨h', ?_, fun b => (hlen b).trans (length_modify ..)⟩
    rw [writeAt, Heap.store_of_load hold, Option.bind_some, hwrite]

theorem readAt_some {m : Nat} (hb : (h.blocks p.blk).map List.length = some n)
    (hroom : p.off + m ≤ n) : ∃ bytes, readAt h p m = some bytes := by
  induction m generalizing p with
  | zero => exact ⟨[], rfl⟩
  | succ m ih =>
    obtain ⟨c, hc⟩ := load_of_length hb (by omega)
    obtain ⟨bytes, hbytes⟩ := ih (p := ⟨p.blk, p.off + 1⟩) hb (by show p.off + 1 + m ≤ n; omega)
    exact ⟨c :: bytes, by simp [readAt, hc, hbytes]⟩

end Bytes

section Steps

variable {s : Users} {queue seg free : List Ptr} {tail : Ptr}

theorem Held.head_mem (h : Held s queue seg tail free) {q : Ptr} (hq : s.cq.head = some q) :
    q ∈ seg ++ [tail] := by
  obtain ⟨r, hr, hhead⟩ := h.layout.head_mem
  obtain rfl := Option.some.inj (hq.symm.trans hhead)
  exact hr

/-- The value goes to the tail node, which holds its own buffer from then on. -/
theorem Held.push (h : Held s queue seg tail free) {p : Ptr} (hp : s.taken = some p) :
    ∃ t, step s .push = some t ∧ Inv t := by
  obtain ⟨cq₁, free₁, cq', hadjusts, h₁, -, hput, hpush⟩ := h.layout.push_adjusts p
  obtain ⟨hb₁, hbuf₁⟩ := adjusts_buffered h.buffered h.layout hadjusts h₁
  obtain ⟨hb', hhead', hbuf'⟩ := put_buffered hb₁ hput
  have hbuf : ∀ q ∈ seg ++ [tail], bufOf cq'.nodes q = bufOf s.cq.nodes q := fun q hq =>
    (hbuf' q).trans (hbuf₁ q hq)
  have hhead : cq'.head = s.cq.head :=
    hhead'.trans (h₁.head_eq.trans h.layout.head_eq.symm)
  have hreading : ∀ r, s.reading = some r →
      ∃ q, cq'.head = some q ∧ bufOf cq'.nodes q = some r := by
    intro r hr
    obtain ⟨q, hq, hqr⟩ := h.reading r hr
    exact ⟨q, hhead.trans hq, (hbuf q (h.head_mem hq)).trans hqr⟩
  have hstep : step s .push = some { s with cq := cq', taken := none } := by
    simp only [step, hp, hpush, Option.bind_eq_bind, Option.bind_some]
  refine ⟨_, hstep, ?_⟩
  cases free₁ with
  | nil =>
    -- the tail has come round to the head: nothing is queued
    obtain ⟨cq₂, q, rest, hput₂, -, -, h₂⟩ := h₁.put_onto_head p
    obtain rfl := Option.some.inj (hput.symm.trans hput₂)
    exact ⟨[], [], q, rest, h₂, hb', rfl, nofun, hreading⟩
  | cons f free' =>
    obtain ⟨cq₂, hput₂, h₂⟩ := h₁.put_layout p
    obtain rfl := Option.some.inj (hput.symm.trans hput₂)
    refine ⟨_, _, f, free', h₂, hb', ?_, nofun, hreading⟩
    rw [List.map_congr_left hbuf, List.map_append, List.map_append, h.own, List.map_singleton,
      h.taken p hp]
    rfl

theorem Held.pop (h : Held s queue seg tail free) : ∃ t, step s .pop = some t ∧ Inv t := by
  cases queue with
  | nil =>
    have hpop : egCqPop s.cq = some (none, s.cq) := by
      rw [egCqPop, if_pos (h.layout.empty_iff.2 rfl)]
    exact ⟨{ s with reading := none }, by rw [step, hpop]; rfl, [], seg, tail, free, h.layout,
      h.buffered, h.own, h.taken, fun _ hr => by cases hr⟩
  | cons a queue =>
    obtain ⟨p, q, seg', rfl, hpop, hlayout⟩ := h.layout.pop_head
    have hown := h.own
    rw [List.map_cons, List.map_cons, List.cons.injEq] at hown
    refine ⟨{ s with cq := _, reading := none }, by rw [step, hpop]; rfl, queue, seg', tail, _,
      hlayout, ?_, ?_, ?_, fun _ hr => by cases hr⟩
    · exact h.buffered.of_same rfl rfl (fun _ => rfl) fun r => bufOf_setVal ..
    · rw [← hown.2]
      exact List.map_congr_left fun r _ => bufOf_setVal ..
    · exact fun r hr => (bufOf_setVal ..).trans (h.taken r hr)

theorem Held.head (h : Held s queue seg tail free) : ∃ t, step s .head = some t ∧ Inv t := by
  refine ⟨{ s with reading := queue.head? }, by rw [step, h.layout.head_eq_pop]; rfl, queue, seg,
    tail, free, h.layout, h.buffered, h.own, h.taken, fun p hp => ?_⟩
  have hown := h.own
  cases queue with
  | nil => cases hp
  | cons a queue =>
    obtain rfl := Option.some.inj hp
    cases seg with
    | nil => cases hown
    | cons q seg =>
      rw [List.map_cons, List.map_cons, List.cons.injEq] at hown
      exact ⟨q, h.layout.head_eq, hown.1⟩

theorem Held.take (h : Held s queue seg tail free) : ∃ t, step s .take = some t ∧ Inv t := by
  obtain ⟨n, hnode, hload, -⟩ := h.layout.node_tail
  refine ⟨{ s with taken := n.buf }, by rw [step, egCqGetCurBuf, hnode]; rfl, queue, seg, tail,
    free, h.layout, h.buffered, h.own, fun p hp => ?_, h.reading⟩
  rw [bufOf, hload]
  exact hp

theorem Held.fill (h : Held s queue seg tail free) {p : Ptr} (hp : s.taken = some p)
    {bytes : List UInt8} (hlen : bytes.length ≤ s.cq.valSize) :
    ∃ t, step s (.fill bytes) = some t ∧ Inv t := by
  obtain ⟨bt, -, b, i, -, hi, hown, hbuf⟩ := h.buffered.slot h.layout (p := tail) (by simp)
  obtain rfl := Option.some.inj ((h.taken p hp).symm.trans hbuf)
  have hroom := @slotAt_room s.cq.valSize b _ _ hi
  obtain ⟨bufs, hwrite, hlens⟩ := writeAt_some (p := slotAt s.cq.valSize b i) hown.held
    ((Nat.add_le_add_left hlen _).trans hroom)
  have hstep : step s (.fill bytes) = some { s with cq := { s.cq with bufs := bufs } } := by
    simp only [step, hp, hwrite, Option.bind_eq_bind, Option.bind_some]
  obtain ⟨hring, hshape, hhead, htail, hvalues, hindex, hsize⟩ := h.layout
  exact ⟨_, hstep, queue, seg, tail, free, ⟨hring, hshape, hhead, htail, hvalues, hindex, hsize⟩,
    h.buffered.of_same rfl rfl hlens fun _ => rfl, h.own, h.taken, h.reading⟩

theorem Held.use (h : Held s queue seg tail free) {p : Ptr} (hp : s.reading = some p) :
    ∃ t, step s .use = some t ∧ Inv t := by
  obtain ⟨q, hq, hbufq⟩ := h.reading p hp
  obtain ⟨bt, -, b, i, -, hi, hown, hbuf⟩ := h.buffered.slot h.layout (p := q) (by
    rw [List.append_cons]
    exact List.mem_append_left _ (h.head_mem hq))
  obtain rfl := Option.some.inj (hbufq.symm.trans hbuf)
  obtain ⟨bytes, hread⟩ := readAt_some hown.held (slotAt_room hi)
  refine ⟨s, ?_, queue, seg, tail, free, h⟩
  simp only [step, hp, hread, Option.bind_eq_bind, Option.bind_some]

theorem step_inv (s : Users) (a : Act) (hi : Inv s) (hf : Follows s a) :
    ∃ t, step s a = some t ∧ Inv t := by
  obtain ⟨queue, seg, tail, free, h⟩ := hi
  cases a with
  | take => exact h.take
  | fill bytes =>
    obtain ⟨p, hp⟩ := Option.ne_none_iff_exists'.1 hf.1
    exact h.fill hp hf.2
  | push =>
    obtain ⟨p, hp⟩ := Option.ne_none_iff_exists'.1 hf
    exact h.push hp
  | head => exact h.head
  | use =>
    obtain ⟨p, hp⟩ := Option.ne_none_iff_exists'.1 hf
    exact h.use hp
  | pop => exact h.pop

end Steps

theorem start_inv {size valSize : Nat} (hs : 1 ≤ size) (hv : 0 < valSize)
    (hsmall : size * valSize < 2 ^ 31) :
    ∃ s, start size valSize = some s ∧ Inv s := by
  obtain ⟨cq, hcreate, seg, tail, free, hlayout⟩ := create_represents (α := Ptr) hs valSize
  obtain rfl : seg = [] := List.map_eq_nil_iff.1 hlayout.values
  exact ⟨⟨cq, none, none⟩, by rw [start, hcreate]; rfl, [], [], tail, free, hlayout,
    create_buffered hs hv hsmall hcreate, rfl, nofun, nofun⟩

/-- Whatever the order of the calls, buffers are handed over one by one, if the bytes of a
bucket are counted by an `int`. -/
theorem buffers_exclusive (size valSize : Nat) (hs : 1 ≤ size) (hv : 0 < valSize)
    (hsmall : size * valSize < 2 ^ 31) :
    ∃ s, start size valSize = some s ∧ ∀ acts, Throughout step Follows s acts →
      Always step (fun t => ∃ arc tail, Exclusive t arc tail) s acts := by
  obtain ⟨s, hstart, hinv⟩ := start_inv hs hv hsmall
  refine ⟨s, hstart, fun acts hacts => always_of_throughout ?_ step_inv hinv hacts⟩
  rintro t ⟨queue, seg, tail, free, h⟩
  exact ⟨seg, tail, h.exclusive⟩

/-- The second push adds a bucket, and the fifth one takes it away again. -/
def growingRun : List Act :=
  [.take, .fill [1, 2], .push, .take, .push, .head, .use, .pop, .head, .pop, .take, .push, .take,
    .push, .head, .pop, .head, .pop, .take, .push, .head, .use]

theorem growingRun_follows :
    (start 2 2).map (fun s => decide (Throughout step Follows s growingRun)) = some true := by
  decide

theorem buffers_exclusive_growing : ∃ s, start 2 2 = some s ∧
    Throughout step Follows s growingRun ∧
      Always step (fun t => ∃ arc tail, Exclusive t arc tail) s growingRun := by
  obtain ⟨s, hstart, h⟩ := buffers_exclusive 2 2 (by decide) (by decide) (by decide)
  have hfollows : Throughout step Follows s growingRun := by
    have hrun := growingRun_follows
    rw [hstart] at hrun
    exact of_decide_eq_true (Option.some.inj hrun)
  exact ⟨s, hstart, hfollows, h growingRun hfollows⟩

/-- The first buffer that is taken, and the block it is in. -/
theorem start_take {size valSize : Nat} (hs : 1 ≤ size) (hv : 0 < valSize) {s : Users}
    (hstart : start size valSize = some s) : s.taken = none ∧ s.cq.valSize = valSize ∧
      s.cq.bufs.blocks 0 = some (List.replicate (intProduct size valSize) 0) ∧
        step s .take = some { s with taken := some ⟨0, 0⟩ } := by
  simp only [start, egCqCreate, Malloc.ok, mallocBuf, hv, if_true, Bool.not_true, Bool.or_self,
    Bool.false_eq_true, if_false, Option.bind_eq_bind, store_withArray hs, Option.bind_some,
    Option.join_some, Option.map_some, Option.some.injEq] at hstart
  obtain rfl := hstart
  have hbuf := bufOf_withArray (Heap.empty : Heap (EgCqNode Ptr)) hs 0 valSize
    (some ⟨(Heap.empty : Heap (EgCqNode Ptr)).next, 0⟩)
  rw [intProduct_eq (by omega), Nat.mul_zero] at hbuf
  obtain ⟨n, hload, hn⟩ := Option.bind_eq_some_iff.1 hbuf
  refine ⟨rfl, rfl, rfl, ?_⟩
  rw [step, egCqGetCurBuf, EgCycleQueue.node]
  dsimp only
  rw [Option.bind_some]
  refine (congrArg _ (congrArg _ hload)).trans ?_
  rw [Option.map_some, Option.map_some, hn]

/-- The bytes of a bucket are more than an `int` counts, and its block has too few. -/
theorem not_always_exclusive : ¬ ∀ size valSize : Nat, 1 ≤ size → 0 < valSize →
    ∃ s, start size valSize = some s ∧ ∀ acts, Throughout step Follows s acts →
      Always step (fun t => ∃ arc tail, Exclusive t arc tail) s acts := by
  intro h
  obtain ⟨s, hstart, hacts⟩ := h 65536 65537 (by decide) (by decide)
  obtain ⟨htaken, hval, hblock, htake⟩ := start_take (by decide) (by decide) hstart
  obtain ⟨-, t, ht, arc, tail, hexclusive⟩ := hacts [.take] ⟨htaken, fun _ _ => trivial⟩
  obtain rfl := Option.some.inj (htake.symm.trans ht)
  obtain ⟨-, -, -, bytes, hbytes, hroom⟩ := hexclusive.live ⟨0, 0⟩ rfl
  obtain rfl := Option.some.inj (hblock.symm.trans hbytes)
  have hproduct : intProduct 65536 65537 = 65536 := by decide
  rw [List.length_replicate, hproduct] at hroom
  have hroom : 0 + s.cq.valSize ≤ 65536 := hroom
  omega

end Doorhinges.CycleQueue.Handover

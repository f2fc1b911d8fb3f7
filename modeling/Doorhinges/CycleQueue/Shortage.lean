import Doorhinges.CycleQueue.Steps

/-!
# Pushes when memory is short

A push that cannot grow a full ring leaves the queue alone; every other push is one whose
allocations succeed. A queue with room never asks for memory.
-/
namespace Doorhinges.CycleQueue

open Lib.Blocks (Ptr Heap)

variable {α : Type} {cq cq' : EgCycleQueue α} {queue : List α} {n : Nat} {b : Bool}

theorem mallocBuf_malloc (m : Malloc) (size valSize : Nat) (bufs : Heap UInt8) :
    mallocBuf m size valSize bufs = none ∨
      mallocBuf m size valSize bufs = mallocBuf .ok size valSize bufs := by
  unfold mallocBuf Malloc.ok
  split
  · cases m.buf
    · exact .inl rfl
    · exact .inr rfl
  · exact .inr rfl

theorem egCqInc_malloc (m : Malloc) (cq : EgCycleQueue α) :
    egCqInc m cq = some (false, cq) ∨ egCqInc m cq = egCqInc .ok cq := by
  unfold egCqInc
  cases cq.btlist with
  | nil => exact .inr rfl
  | cons top rest =>
    dsimp only
    by_cases hm : (!m.bt || !m.node) = true
    · exact .inl (if_pos hm)
    · rw [if_neg hm, if_neg (show ¬(!Malloc.ok.bt || !Malloc.ok.node) = true by decide)]
      rcases mallocBuf_malloc m top.size cq.valSize cq.bufs with hbuf | hbuf
      · rw [hbuf]
        exact .inl rfl
      · rw [hbuf]
        exact .inr rfl

theorem egCqCreate_malloc (m : Malloc) (size valSize : Nat) :
    egCqCreate m size valSize = some (none : Option (EgCycleQueue α)) ∨
      egCqCreate m size valSize = (egCqCreate .ok size valSize : Option (Option (EgCycleQueue α))) := by
  unfold egCqCreate
  by_cases hm : (!m.bt || !m.node) = true
  · exact .inl (if_pos hm)
  · rw [if_neg hm, if_neg (show ¬(!Malloc.ok.bt || !Malloc.ok.node) = true by decide)]
    rcases mallocBuf_malloc m size valSize Heap.empty with hbuf | hbuf
    · rw [hbuf]
      exact .inl rfl
    · rw [hbuf]
      exact .inr rfl

/-- Only a full ring is not pushed onto. -/
theorem egCqPush_malloc (m : Malloc) (cq : EgCycleQueue α) (v : α) :
    egCqPush m cq v = egCqPush .ok cq v ∨
      egCqPush m cq v = some (false, cq) ∧ ∃ node, cq.node cq.tail = some node ∧
        node.next = cq.head := by
  unfold egCqPush
  dsimp only
  cases hnode : cq.node cq.tail with
  | none => exact .inl rfl
  | some node =>
    simp only [Option.bind_eq_bind, Option.bind_some]
    by_cases hfull : node.next = cq.head
    · rw [if_pos hfull, if_pos hfull]
      rcases egCqInc_malloc m cq with hinc | hinc
      · rw [hinc]
        exact .inr ⟨rfl, node, rfl, hfull⟩
      · rw [hinc]
        exact .inl rfl
    · rw [if_neg hfull, if_neg hfull]
      exact .inl rfl

section Sizes

variable {v : α}

theorem btlist_setNode {p : Option Ptr} {f : EgCqNode α → EgCqNode α}
    (h : cq.setNode p f = some cq') : cq'.btlist = cq.btlist := by
  obtain ⟨p, -, h⟩ := Option.bind_eq_some_iff.1 h
  obtain ⟨nodes, -, rfl⟩ := Option.map_eq_some_iff.1 h
  rfl

theorem btlist_put {p : Option Ptr} (h : put p v cq = some cq') : cq'.btlist = cq.btlist := by
  unfold put at h
  obtain ⟨cq₁, h₁, h⟩ := Option.bind_eq_some_iff.1 h
  obtain ⟨node, -, h⟩ := Option.bind_eq_some_iff.1 h
  obtain rfl := Option.some.inj h
  show cq₁.btlist = _
  exact btlist_setNode h₁

theorem btlist_pop {r : Option α} (h : egCqPop cq = some (r, cq')) : cq'.btlist = cq.btlist := by
  unfold egCqPop at h
  split at h
  · obtain ⟨-, rfl⟩ := Prod.mk.inj (Option.some.inj h)
    rfl
  · obtain ⟨node, -, h⟩ := Option.bind_eq_some_iff.1 h
    obtain ⟨cq₁, h₁, h⟩ := Option.bind_eq_some_iff.1 h
    obtain ⟨node', -, h⟩ := Option.bind_eq_some_iff.1 h
    obtain ⟨-, rfl⟩ := Prod.mk.inj (Option.some.inj h)
    show cq₁.btlist = _
    exact btlist_setNode h₁

theorem sizes_create {m : Malloc} {valSize : Nat} (h : egCqCreate m n valSize = some (some cq)) :
    ∀ bt ∈ cq.btlist, bt.size = n := by
  unfold egCqCreate at h
  split at h
  · cases h
  · split at h
    · cases h
    · obtain ⟨nodes, -, h⟩ := Option.bind_eq_some_iff.1 h
      obtain rfl := Option.some.inj (Option.some.inj h)
      intro bt hbt
      rw [List.mem_singleton.1 hbt]

theorem sizes_push {m : Malloc} (h : egCqPush m cq v = some (b, cq'))
    (hn : ∀ bt ∈ cq.btlist, bt.size = n) : ∀ bt ∈ cq'.btlist, bt.size = n := by
  unfold egCqPush at h
  obtain ⟨node, -, h⟩ := Option.bind_eq_some_iff.1 h
  split at h
  · obtain ⟨⟨grown, cq₁⟩, hinc, h⟩ := Option.bind_eq_some_iff.1 h
    have hsizes := sizes_inc hinc hn
    dsimp only at h
    split at h
    · obtain ⟨cq₂, hput, h⟩ := Option.bind_eq_some_iff.1 h
      obtain ⟨-, rfl⟩ := Prod.mk.inj (Option.some.inj h)
      rw [btlist_put hput]
      exact hsizes
    · obtain ⟨-, rfl⟩ := Prod.mk.inj (Option.some.inj h)
      exact hsizes
  · obtain ⟨shrink, -, h⟩ := Option.bind_eq_some_iff.1 h
    split at h
    · obtain ⟨cq₁, hdec, h⟩ := Option.bind_eq_some_iff.1 h
      obtain ⟨cq₂, hput, h⟩ := Option.bind_eq_some_iff.1 h
      obtain ⟨-, rfl⟩ := Prod.mk.inj (Option.some.inj h)
      intro bt hbt
      rw [btlist_put hput, btlist_dec hdec] at hbt
      exact hn bt (List.mem_of_mem_tail hbt)
    · simp only [Option.bind_eq_bind, Option.bind_some] at h
      obtain ⟨cq₂, hput, h⟩ := Option.bind_eq_some_iff.1 h
      obtain ⟨-, rfl⟩ := Prod.mk.inj (Option.some.inj h)
      rw [btlist_put hput]
      exact hn

end Sizes

/-- A push stores the value, is refused, or loses what is queued. -/
theorem Represents.push_any (h : Represents cq queue) (m : Malloc) (v : α) :
    egCqPush m cq v = some (false, cq) ∨
      ∃ cq', egCqPush m cq v = some (true, cq') ∧
        (Represents cq' (queue ++ [v]) ∨ Represents cq' []) := by
  obtain ⟨seg, tail, free, h⟩ := h
  rcases egCqPush_malloc m cq v with hpush | ⟨hpush, -⟩
  · obtain ⟨cq', hok, hspares, hlost⟩ := h.push_layout v
    refine .inr ⟨cq', hpush.trans hok, ?_⟩
    cases hs : shrinksOntoHead cq with
    | false => exact .inl (hspares hs)
    | true => exact .inr (hlost hs).2.1
  · exact .inl hpush

/-- While a bucket has room for one more than the queue, the push is accepted and keeps the
values. -/
theorem Represents.push_room (h : Represents cq queue) (m : Malloc) (v : α)
    (hn : ∀ bt ∈ cq.btlist, bt.size = n) (hroom : queue.length + 1 < n) :
    ∃ cq', egCqPush m cq v = some (true, cq') ∧ Represents cq' (queue ++ [v]) := by
  obtain ⟨seg, tail, free, h⟩ := h
  obtain ⟨cq', hok, hspares, hlost⟩ := h.push_layout v
  rcases egCqPush_malloc m cq v with hpush | ⟨-, node, hnode, hfull⟩
  · refine ⟨cq', hpush.trans hok, ?_⟩
    cases hs : shrinksOntoHead cq with
    | false => exact hspares hs
    | true =>
      have := (hlost hs).2.2 n hn
      omega
  · obtain ⟨node', hnode', -, hnext⟩ := h.node_tail
    obtain rfl := Option.some.inj (hnode.symm.trans hnode')
    obtain rfl : free = [] := (h.head?_or_eq_head_iff fun _ hp => hp).mp (hnext ▸ hfull)
    have := h.le_of_full hn
    omega

end Doorhinges.CycleQueue

import Doorhinges.Hashtable.Links
import Mathlib.Data.List.Pairwise
import Mathlib.Data.List.Perm.Subperm

/-!
# The representation

`Listed` is the list of all buckets, `Slotted` the chains of the slots. A chain holds
the listed buckets of its slot in some order, so the second depends on the list only
through its members.
-/
namespace Doorhinges.Hashtable

open Lib.Links
open Lib.DoublyLinked
open Table

variable {K V P : Type} {ks : Keys K} {t u : Table K V P} {l : List P}
  {chain : Nat → List P} {b : P}

def Table.slot (ks : Keys K) (t : Table K V P) (b : P) : Nat := ks.hash (t.key b) % t.size

structure Listed (t : Table K V P) (l : List P) : Prop where
  links : Dll t.tnext t.tprev l
  tlist : t.tlist = l.head?
  elements : t.elements = l.length

structure Slotted (ks : Keys K) (t : Table K V P) (l : List P) (chain : Nat → List P) : Prop where
  links : ∀ h < t.size, Dll t.next t.prev (chain h)
  hlist : ∀ h < t.size, t.hlist h = (chain h).head?
  mem : ∀ h < t.size, ∀ b, b ∈ chain h ↔ b ∈ l ∧ t.slot ks b = h
  head : ∀ b ∈ l, t.head b = t.slot ks b

/-- The table holds the buckets of `l`, in this order of traversal. -/
structure Rep (ks : Keys K) (t : Table K V P) (l : List P) : Prop where
  size : 0 < t.size
  listed : Listed t l
  slotted : ∃ chain, Slotted ks t l chain
  keys : l.Pairwise fun a b => ¬ ks.compare (t.key a) (t.key b)

section Same

theorem Listed.same (h : Listed t l) (hu : SameAll t u) : Listed u l :=
  ⟨by rw [hu.tnext, hu.tprev]; exact h.links, hu.tlist.trans h.tlist,
    hu.elements.trans h.elements⟩

theorem slot_same (hu : SameData t u) : u.slot ks = t.slot ks := by
  funext p
  rw [Table.slot, Table.slot, hu.key, hu.size]

theorem Slotted.same (h : Slotted ks t l chain) (hsize : u.size = t.size)
    (hslot : ∀ b ∈ l, u.slot ks b = t.slot ks b) (hu : SameSlots t u) :
    Slotted ks u l chain := by
  refine ⟨?_, ?_, fun i hi b => ?_, fun b hb => ?_⟩
  · rw [hsize, hu.next, hu.prev]
    exact h.links
  · rw [hsize, hu.hlist]
    exact h.hlist
  · rw [h.mem i (hsize ▸ hi) b]
    exact and_congr_right fun hb => by rw [hslot b hb]
  · rw [hu.head, hslot b hb]
    exact h.head b hb

/-- The chains depend on the list only through its members. -/
theorem Slotted.members {l l' : List P} {chain : Nat → List P} (h : Slotted ks t l chain)
    (hl : ∀ b, b ∈ l ↔ b ∈ l') : Slotted ks t l' chain :=
  ⟨h.links, h.hlist, fun i hi b => by rw [h.mem i hi b, hl], fun b hb => h.head b ((hl b).2 hb)⟩

/-- A chain shares no bucket with the chain of another slot. -/
theorem Slotted.slot_of_mem (h : Slotted ks t l chain) {i : Nat} (hi : i < t.size)
    (hb : b ∈ chain i) : t.slot ks b = i :=
  ((h.mem i hi b).1 hb).2

theorem Slotted.slot_of_first (h : Slotted ks t l chain) {i : Nat} (hi : i < t.size)
    (hb : t.hlist i = some b) : t.slot ks b = i :=
  h.slot_of_mem hi (List.mem_of_head? ((h.hlist i hi).symm.trans hb))

end Same

section Listed

variable [DecidableEq P]

theorem Listed.link (h : Listed t l) (hb : b ∉ l) (hu : LinkedAll t b u) :
    Listed u (b :: l) := by
  refine ⟨?_, by rw [hu.tlist]; rfl, by rw [hu.elements, h.elements]; rfl⟩
  rw [hu.tnext, hu.tprev, h.tlist]
  exact h.links.push hb

theorem Listed.unlink (h : Listed t l) (hb : b ∈ l) (hu : UnlinkedAll t b u) :
    Listed u (l.erase b) := by
  refine ⟨?_, ?_, ?_⟩
  · rw [hu.tnext, hu.tprev]
    exact h.links.unlink hb
  · rw [hu.tlist, head?_erase h.links hb, h.tlist]
  · rw [hu.elements, h.elements, List.length_erase_of_mem hb]

end Listed

section Slotted

variable [DecidableEq P]

theorem Slotted.link (h : Slotted ks t l chain) (hsize : 0 < t.size) (hb : b ∉ l)
    (hu : LinkedSlot t (t.slot ks b) b u) :
    Slotted ks u (b :: l)
      (Function.update chain (t.slot ks b) (b :: chain (t.slot ks b))) := by
  have hlt : t.slot ks b < t.size := Nat.mod_lt _ hsize
  have hchain : ∀ i < t.size, b ∉ chain i := fun i hi hm => hb ((h.mem i hi b).1 hm).1
  refine ⟨fun i hi => ?_, fun i hi => ?_, fun i hi p => ?_, fun p hp => ?_⟩
  · rw [hu.size] at hi
    rw [hu.next, hu.prev]
    by_cases hib : i = t.slot ks b
    · subst hib
      rw [Function.update_self, h.hlist _ hi]
      exact (h.links _ hi).push (hchain _ hi)
    · rw [Function.update_of_ne hib]
      have hne : ∀ p ∈ chain i, p ≠ b := fun p hp hpb => hchain i hi (hpb ▸ hp)
      refine (h.links i hi).congr (fun p hp => Function.update_of_ne (hne p hp) ..) fun p hp => ?_
      -- the bucket that gets a predecessor stands in the chain of `b`
      rw [setLink_of_ne, Function.update_of_ne (hne p hp)]
      intro hfirst
      exact hib ((h.slot_of_mem hi hp).symm.trans (h.slot_of_first hlt hfirst))
  · rw [hu.size] at hi
    rw [hu.hlist]
    by_cases hib : i = t.slot ks b
    · subst hib
      rw [Function.update_self, Function.update_self]
      rfl
    · rw [Function.update_of_ne hib, Function.update_of_ne hib]
      exact h.hlist i hi
  · rw [hu.size] at hi
    rw [slot_same hu.toSameData, List.mem_cons]
    by_cases hib : i = t.slot ks b
    · subst hib
      rw [Function.update_self, List.mem_cons, h.mem _ hi]
      constructor
      · rintro (rfl | ⟨hp, hs⟩)
        · exact ⟨Or.inl rfl, rfl⟩
        · exact ⟨Or.inr hp, hs⟩
      · rintro ⟨rfl | hp, hs⟩
        · exact Or.inl rfl
        · exact Or.inr ⟨hp, hs⟩
    · rw [Function.update_of_ne hib, h.mem _ hi]
      constructor
      · exact fun ⟨hp, hs⟩ => ⟨Or.inr hp, hs⟩
      · rintro ⟨rfl | hp, hs⟩
        · exact absurd hs.symm hib
        · exact ⟨hp, hs⟩
  · rw [hu.head, slot_same hu.toSameData]
    by_cases hpb : p = b
    · rw [hpb, Function.update_self]
    · rw [Function.update_of_ne hpb]
      exact h.head p ((List.mem_cons.1 hp).resolve_left hpb)

theorem Slotted.unlink (h : Slotted ks t l chain) (hsize : 0 < t.size) (hnd : l.Nodup)
    (hb : b ∈ l) (hu : UnlinkedSlot t b u) :
    Slotted ks u (l.erase b)
      (Function.update chain (t.slot ks b) ((chain (t.slot ks b)).erase b)) := by
  have hlt : t.slot ks b < t.size := Nat.mod_lt _ hsize
  have hbc : b ∈ chain (t.slot ks b) := (h.mem _ hlt b).2 ⟨hb, rfl⟩
  have hl := h.links _ hlt
  refine ⟨fun i hi => ?_, fun i hi => ?_, fun i hi p => ?_, fun p hp => ?_⟩
  · rw [hu.size] at hi
    rw [hu.next, hu.prev]
    by_cases hib : i = t.slot ks b
    · subst hib
      rw [Function.update_self]
      exact hl.unlink hbc
    · rw [Function.update_of_ne hib]
      -- the neighbours of `b` stand in its chain
      refine (h.links i hi).congr (fun p hp => setLink_of_ne fun hn => ?_)
        fun p hp => setLink_of_ne fun hn => ?_
      · exact hib ((h.slot_of_mem hi hp).symm.trans (h.slot_of_mem hlt (hl.prev_mem hbc hn)))
      · exact hib ((h.slot_of_mem hi hp).symm.trans (h.slot_of_mem hlt (hl.next_mem hbc hn)))
  · rw [hu.size] at hi
    rw [hu.hlist, h.head b hb]
    by_cases hib : i = t.slot ks b
    · subst hib
      rw [Function.update_self, head?_erase hl hbc]
      split
      · exact Function.update_self ..
      · exact h.hlist _ hi
    · rw [Function.update_of_ne hib]
      split
      · rw [Function.update_of_ne hib]
        exact h.hlist i hi
      · exact h.hlist i hi
  · rw [hu.size] at hi
    rw [slot_same hu.toSameData, hnd.mem_erase_iff]
    by_cases hib : i = t.slot ks b
    · subst hib
      rw [Function.update_self, hl.nodup.mem_erase_iff, h.mem _ hi, and_assoc]
    · rw [Function.update_of_ne hib, h.mem _ hi]
      constructor
      · rintro ⟨hp, hs⟩
        exact ⟨⟨fun hpb => hib (hpb ▸ hs.symm), hp⟩, hs⟩
      · exact fun ⟨⟨_, hp⟩, hs⟩ => ⟨hp, hs⟩
  · rw [hu.head, slot_same hu.toSameData]
    exact h.head p (List.mem_of_mem_erase hp)

end Slotted

section Walks

theorem search_eq (key : K) {xs : List P} (h : Path t.next xs none) {n : Nat}
    (hn : xs.length ≤ n) :
    t.search ks key n xs.head? = some (xs.find? fun b => ks.compare key (t.key b)) := by
  induction xs generalizing n with
  | nil => cases n <;> rfl
  | cons b xs ih =>
    obtain ⟨n, rfl⟩ := Nat.exists_eq_succ_of_ne_zero (Nat.ne_zero_of_lt hn)
    obtain ⟨hb, hp⟩ := h
    rw [Option.or_none] at hb
    rw [List.head?_cons, Table.search, List.find?_cons, hb, ih hp (Nat.le_of_succ_le_succ hn)]
    cases ks.compare key (t.key b) <;> rfl

theorem traverse_eq {xs : List P} (h : Path t.tnext xs none) {n : Nat} (hn : xs.length ≤ n) :
    t.traverse n xs.head? = some xs := by
  induction xs generalizing n with
  | nil => cases n <;> rfl
  | cons b xs ih =>
    obtain ⟨n, rfl⟩ := Nat.exists_eq_succ_of_ne_zero (Nat.ne_zero_of_lt hn)
    obtain ⟨hb, hp⟩ := h
    rw [Option.or_none] at hb
    rw [List.head?_cons, Table.traverse, hb, ih hp (Nat.le_of_succ_le_succ hn)]
    rfl

/-- A full walk visits the buckets of the list in order. -/
theorem Listed.iterators (h : Listed t l) : iterators t = some l := by
  rw [Hashtable.iterators, egHtBegin, egHtElements, h.tlist]
  exact traverse_eq h.links.fwd h.elements.ge

theorem Rep.key_inj (h : Rep ks t l) {a b : P} (ha : a ∈ l) (hb : b ∈ l)
    (hab : ks.compare (t.key a) (t.key b)) : a = b := by
  by_contra hne
  have hsymm : Std.Symm fun a b => ¬ ks.compare (t.key a) (t.key b) :=
    ⟨fun a b hn hc => hn (ks.symm hc)⟩
  exact h.keys.forall ha hb hne hab

/-- The search of one slot finds the bucket of the key among all buckets. -/
theorem Rep.searchSlot (h : Rep ks t l) (key : K) :
    t.searchSlot ks key = some (l.find? fun b => ks.compare key (t.key b)) := by
  obtain ⟨chain, hs⟩ := h.slotted
  have hlt : ks.hash key % t.size < t.size := Nat.mod_lt _ h.size
  have hl := hs.links _ hlt
  have hsub : chain (ks.hash key % t.size) ⊆ l := fun b hb => ((hs.mem _ hlt b).1 hb).1
  have hlen : (chain (ks.hash key % t.size)).length ≤ t.elements := by
    rw [h.listed.elements]
    exact (List.subperm_of_subset hl.nodup hsub).length_le
  rw [Table.searchSlot, hs.hlist _ hlt, search_eq key hl.fwd hlen]
  congr 1
  cases hf : l.find? fun b => ks.compare key (t.key b) with
  | none =>
    rw [List.find?_eq_none] at hf ⊢
    exact fun b hb => hf b (hsub hb)
  | some b =>
    have hb := List.mem_of_find?_eq_some hf
    have hkey : ks.compare key (t.key b) := by simpa using List.find?_some hf
    have hbc : b ∈ chain (ks.hash key % t.size) :=
      (hs.mem _ hlt b).2 ⟨hb, by rw [Table.slot, ← ks.compat hkey]⟩
    cases hf' : (chain (ks.hash key % t.size)).find? fun b => ks.compare key (t.key b) with
    | none => exact absurd hkey (List.find?_eq_none.1 hf' b hbc)
    | some c =>
      have hc := hsub (List.mem_of_find?_eq_some hf')
      have hkey' : ks.compare key (t.key c) := by simpa using List.find?_some hf'
      exact congrArg some (h.key_inj hc hb (ks.trans (ks.symm hkey') hkey))

end Walks

section Operations

theorem rep_empty (hsize : 0 < t.size) (hslots : ∀ i < t.size, t.hlist i = none)
    (hlist : t.tlist = none) (helements : t.elements = 0) : Rep ks t [] :=
  ⟨hsize, ⟨dll_nil .., hlist, helements⟩,
    ⟨fun _ => [], fun _ _ => dll_nil .., hslots, fun _ _ _ => by simp, by simp⟩, .nil⟩

variable [DecidableEq P]

theorem Rep.link (h : Rep ks t l) (hb : b ∉ l)
    (hkey : ∀ a ∈ l, ¬ ks.compare (t.key b) (t.key a)) :
    Rep ks ((t.linkSlot (t.slot ks b) b).linkAll b) (b :: l) := by
  obtain ⟨chain, hs⟩ := h.slotted
  have h1 := linkSlot_spec t (t.slot ks b) b
  have h2 := linkAll_spec (t.linkSlot (t.slot ks b) b) b
  refine ⟨by rw [h2.size, h1.size]; exact h.size, (h.listed.same h1.toSameAll).link hb h2,
    ⟨_, (hs.link h.size hb h1).same h2.size (fun _ _ => congrFun (slot_same h2.toSameData) _)
      h2.toSameSlots⟩, ?_⟩
  rw [h2.key, h1.key]
  exact List.pairwise_cons.2 ⟨hkey, h.keys⟩

theorem Rep.unlink (h : Rep ks t l) (hb : b ∈ l) :
    Rep ks ((t.unlinkSlot b).unlinkAll b) (l.erase b) := by
  obtain ⟨chain, hs⟩ := h.slotted
  have h1 := unlinkSlot_spec t b
  have h2 := unlinkAll_spec (t.unlinkSlot b) b
  refine ⟨by rw [h2.size, h1.size]; exact h.size, (h.listed.same h1.toSameAll).unlink hb h2,
    ⟨_, (hs.unlink h.size h.listed.links.nodup hb h1).same h2.size
      (fun _ _ => congrFun (slot_same h2.toSameData) _) h2.toSameSlots⟩, ?_⟩
  rw [h2.key, h1.key]
  exact h.keys.sublist List.erase_sublist

/-- The fields a write of key and value leaves. -/
structure Filled (t : Table K V P) (b : P) (key : K) (val : V) (u : Table K V P) : Prop
    extends SameAll t u, SameSlots t u where
  size : u.size = t.size
  key : u.key = Function.update t.key b key
  val : u.val = Function.update t.val b val

theorem fill_spec (t : Table K V P) (b : P) (key : K) (val : V) :
    Filled t b key val (t.write b fun x => { x with key := key, val := val }) := by
  refine ⟨⟨?_, ?_, rfl, rfl⟩, ⟨?_, ?_, ?_, rfl⟩, rfl, ?_, ?_⟩ <;> funext p <;>
    simp [Table.next, Table.prev, Table.tnext, Table.tprev, Table.head, Table.key, Table.val,
      write] <;> rfl

/-- The key and value of a bucket outside the table may be written. -/
theorem Rep.fill {key : K} {val : V} (h : Rep ks t l) (hb : b ∉ l) (hu : Filled t b key val u) :
    Rep ks u l := by
  obtain ⟨chain, hs⟩ := h.slotted
  have hkey : ∀ p ∈ l, u.key p = t.key p := fun p hp => by
    have hpb : p ≠ b := fun hpb => hb (hpb ▸ hp)
    rw [hu.key, Function.update_of_ne hpb]
  refine ⟨hu.size ▸ h.size, h.listed.same hu.toSameAll,
    ⟨chain, hs.same hu.size (fun p hp => ?_) hu.toSameSlots⟩, ?_⟩
  · rw [Table.slot, Table.slot, hkey p hp, hu.size]
  · exact h.keys.imp_of_mem fun {a c} ha hc hac => by rwa [hkey a ha, hkey c hc]

end Operations

end Doorhinges.Hashtable

import Doorhinges.Hashtable.Entries
import Doorhinges.Lib.Machine

/-!
# The growing table

The `eg_ht_*` operations over any run that begins with an empty table. The slot of a
new key is computed before the table is resized, so it is the right one only when the
key has the same slot in both sizes.
-/
namespace Doorhinges.Hashtable.Growing

open Lib.Machine
open Lib.Links
open Lib.DoublyLinked
open Table

/-- A call; `b` is the bucket `malloc` returns. -/
inductive Op (K V P : Type) where
  | insert (b : P) (key : K) (val : V)
  | remove (key : K)
  | erase (it : P)
  | clear
  | find (key : K)

inductive Reply (P : Type) where
  | done
  | num (n : Nat)
  | iter (it : Option P)
  | erased (it : Option P) (n : Nat)
  deriving DecidableEq

variable {K V P : Type} [DecidableEq P]

def exec (ks : Keys K) (sizes : Sizes K V P) (t : Table K V P) :
    Op K V P → Option (Table K V P × Reply P)
  | .insert b key val => (egHtInsert ks sizes t b key val).map fun r => (r.1, .num r.2)
  | .remove key => (egHtRemove ks t key).map fun r => (r.1, .num r.2)
  | .erase it =>
    let r := egHtErase t it
    some (r.1, .erased r.2.1 r.2.2)
  | .clear => some (egHtClear t, .done)
  | .find key => (egHtFind ks t key).map fun it => (t, .iter it)

/-- `malloc` returns a fresh bucket, keys are there, iterators are live. -/
def Allowed (ks : Keys K) (t : Table K V P) : Op K V P → Prop
  | .insert b key _ => b ∉ (iterators t).getD [] ∧ !ks.isNull key
  | .erase it => it ∈ (iterators t).getD []
  | .remove key | .find key => !ks.isNull key
  | .clear => True

instance (ks : Keys K) (t : Table K V P) : ∀ op, Decidable (Allowed ks t op)
  | .insert b key _ => inferInstanceAs (Decidable (b ∉ (iterators t).getD [] ∧ !ks.isNull key))
  | .erase it => inferInstanceAs (Decidable (it ∈ (iterators t).getD []))
  | .remove key | .find key => inferInstanceAs (Decidable ((!ks.isNull key) = true))
  | .clear => isTrue trivial

/-- A key that is inserted with a resize has the same slot before and after it. -/
def SlotKept (ks : Keys K) (sizes : Sizes K V P) (t : Table K V P) : Op K V P → Prop
  | .insert _ key _ => (∀ b ∈ (iterators t).getD [], ¬ ks.compare key (t.key b)) →
    sizes.isResize t → ks.hash key % sizes.getNewsize t.size = ks.hash key % t.size
  | _ => True

/-- The map after a call. -/
def after (ks : Keys K) (A : List (Entry K V P)) : Op K V P → List (Entry K V P)
  | .insert b key val => insertEntry ks A ⟨b, key, val⟩
  | .remove key => removeKey ks A key
  | .erase it => eraseBucket A it
  | .clear => []
  | .find _ => A

/-- What a call is to return by the map. -/
def answer (ks : Keys K) (A : List (Entry K V P)) : Op K V P → Reply P
  | .insert _ key _ => .num (if (lookup ks A key).isSome then 0 else 1)
  | .remove key => .num (if (lookup ks A key).isSome then 1 else 0)
  | .erase it => .erased (bucketAfter A it) 1
  | .clear => .done
  | .find key => .iter ((lookup ks A key).map (·.bucket))

/-- The table and the map side by side. -/
def both (ks : Keys K) (sizes : Sizes K V P) (s : Table K V P × List (Entry K V P))
    (op : Op K V P) : Option (Table K V P × List (Entry K V P)) :=
  (exec ks sizes s.1 op).map fun r => (r.1, after ks s.2 op)

/-- The table implements the map. -/
structure Good (ks : Keys K) (sizes : Sizes K V P) (s : Table K V P × List (Entry K V P)) :
    Prop where
  find : ∀ key, !ks.isNull key →
    egHtFind ks s.1 key = some ((lookup ks s.2 key).map (·.bucket))
  held : ∀ e ∈ s.2, s.1.key e.bucket = e.key ∧ s.1.val e.bucket = e.val
  distinct : s.2.Pairwise fun e f => ¬ ks.compare e.key f.key
  elements : egHtElements s.1 = s.2.length
  reply : ∀ op, Allowed ks s.1 op → SlotKept ks sizes s.1 op →
    ∃ t, exec ks sizes s.1 op = some (t, answer ks s.2 op)

section Resize

variable {ks : Keys K} {t u : Table K V P} {A : List (Entry K V P)}

/-- The loop of a resize moves the rest `y` of the list to the new slots. -/
theorem rehash_spec {newsize n : Nat} {y z : List P} {chain : Nat → List P}
    (hpos : 0 < newsize) (hsize : t.size = newsize) (hn : y.length ≤ n)
    (hl : Listed t (z.reverse ++ y)) (hs : Slotted ks t z chain) :
    ∃ u chain', rehash ks newsize n y.head? t = some u ∧ SameData t u ∧
      Listed u (z.reverse ++ y) ∧ Slotted ks u (y.reverse ++ z) chain' := by
  induction y generalizing t z n chain with
  | nil => exact ⟨t, chain, by cases n <;> rfl, ⟨rfl, rfl, rfl⟩, hl, hs⟩
  | cons b y ih =>
    obtain ⟨n, rfl⟩ := Nat.exists_eq_succ_of_ne_zero (Nat.ne_zero_of_lt hn)
    have hb : b ∉ z := fun hb => (List.nodup_append.1 hl.links.nodup).2.2 b
      (List.mem_reverse.2 hb) b List.mem_cons_self rfl
    have hu := linkSlot_spec t (t.slot ks b) b
    have hnext : (t.linkSlot (t.slot ks b) b).tnext b = y.head? := by
      rw [hu.tnext]
      exact hl.links.neighbours.1
    have hlist : z.reverse ++ b :: y = (b :: z).reverse ++ y := by simp
    have hl' := hl.same hu.toSameAll
    rw [hlist] at hl' ⊢
    obtain ⟨v, chain', hv, hd, hlv, hsv⟩ := ih (hu.size.trans hsize)
      (Nat.le_of_succ_le_succ hn) hl' (hs.link (hsize ▸ hpos) hb hu)
    refine ⟨v, chain', ?_, ?_, hlv, by simpa using hsv⟩
    · have hslot : ks.hash (t.key b) % newsize = t.slot ks b := by rw [Table.slot, hsize]
      simp only [List.head?_cons, rehash]
      rw [hslot, hnext]
      exact hv
    · exact ⟨hd.size.trans hu.size, hd.key.trans hu.key, hd.val.trans hu.val⟩

/-- A resized table stands for the same map. -/
theorem resize_step (h : Represents ks t A) {newsize : Nat} (hpos : 0 < newsize) :
    ∃ u, egHtResize ks t newsize = some u ∧ Represents ks u A ∧ u.size = newsize := by
  have hl : Listed { t with hlist := fun _ => none, size := newsize } (A.map (·.bucket)) :=
    h.rep.listed.same ⟨rfl, rfl, rfl, rfl⟩
  have hs : Slotted ks { t with hlist := fun _ => none, size := newsize } [] fun _ => [] :=
    ⟨fun _ _ => dll_nil .., fun _ _ => rfl, by simp, by simp⟩
  obtain ⟨u, chain, hu, hd, hlu, hsu⟩ := rehash_spec (z := []) hpos rfl
    h.rep.listed.elements.ge hl hs
  refine ⟨u, ?_, ⟨⟨?_, hlu, ⟨chain, hsu.members (by simp)⟩, ?_⟩, ?_, ?_⟩, hd.size⟩
  · rw [← h.rep.listed.tlist] at hu
    exact hu
  · rw [hd.size]
    exact hpos
  · rw [hd.key]
    exact h.rep.keys
  · rw [hd.key]
    exact h.key
  · rw [hd.val]
    exact h.val

end Resize

section Step

variable {ks : Keys K} {sizes : Sizes K V P} {t : Table K V P} {A : List (Entry K V P)}

omit [DecidableEq P] in
theorem absent_iff (h : Represents ks t A) (key : K) :
    (∀ b ∈ (iterators t).getD [], ¬ ks.compare key (t.key b)) ↔ lookup ks A key = none := by
  rw [h.rep.listed.iterators, lookup, List.find?_eq_none]
  constructor
  · intro hall e he
    rw [← h.key e he]
    exact hall _ (List.mem_map_of_mem he)
  · intro hall b hb
    obtain ⟨e, he, rfl⟩ := List.mem_map.1 hb
    rw [h.key e he]
    exact hall e he

/-- The table an insertion links into: resized or as it was. -/
theorem grown (h : Represents ks t A) (sizes : Sizes K V P) :
    ∃ u, (if sizes.isResize t then egHtResize ks t (sizes.getNewsize t.size) else some t) =
        some u ∧ Represents ks u A ∧
      u.size = if sizes.isResize t then sizes.getNewsize t.size else t.size := by
  split
  · exact resize_step h (sizes.pos _)
  · exact ⟨t, rfl, h, rfl⟩

theorem insert_present (h : Represents ks t A) {b : P} {key : K} {val : V}
    (hkey : ¬ ks.isNull key) {e : Entry K V P} (hl : lookup ks A key = some e) :
    egHtInsert ks sizes t b key val = some (t, 0) := by
  rw [egHtInsert, if_neg hkey, h.searchSlot, hl]
  rfl

/-- An insertion of a new key links the filled bucket into the slot computed first. -/
theorem insert_absent (sizes : Sizes K V P) (h : Represents ks t A) {b : P} {key : K} (val : V)
    (hkey : ¬ ks.isNull key) (hb : b ∉ A.map (·.bucket)) (hl : lookup ks A key = none) :
    ∃ u, Represents ks u A ∧ u.key b = key ∧ u.val b = val ∧
      u.size = (if sizes.isResize t then sizes.getNewsize t.size else t.size) ∧
      egHtInsert ks sizes t b key val =
        if ks.hash key % t.size < u.size then
          some ((u.linkSlot (ks.hash key % t.size) b).linkAll b, 1)
        else none := by
  obtain ⟨v, hv, hr, hsize⟩ := grown h sizes
  have hu := fill_spec v b key val
  refine ⟨_, hr.fill hb hu, by rw [hu.key, Function.update_self],
    by rw [hu.val, Function.update_self], hu.size.trans hsize, ?_⟩
  rw [egHtInsert, if_neg hkey, h.searchSlot, hl]
  simp only [Option.map_none, Option.bind_eq_bind, Option.bind_some]
  by_cases hres : sizes.isResize t
  · rw [if_pos hres] at hv
    rw [if_pos hres, hv]
    rfl
  · rw [if_neg hres] at hv
    obtain rfl := Option.some.inj hv
    rw [if_neg hres]

theorem insert_step (h : Represents ks t A) {b : P} {key : K} {val : V}
    (hkey : ¬ ks.isNull key) (hb : b ∉ A.map (·.bucket))
    (hslot : SlotKept ks sizes t (.insert b key val)) :
    ∃ u, egHtInsert ks sizes t b key val =
        some (u, if (lookup ks A key).isSome then 0 else 1) ∧
      Represents ks u (insertEntry ks A ⟨b, key, val⟩) := by
  rw [insertEntry]
  cases hl : lookup ks A key with
  | some e => exact ⟨t, insert_present h hkey hl, h⟩
  | none =>
    obtain ⟨u, hr, huk, huv, hsize, heq⟩ :=
      insert_absent sizes h val hkey hb hl
    have hh : ks.hash key % t.size = u.slot ks b := by
      rw [Table.slot, huk, hsize]
      split
      · rename_i hres
        exact (hslot ((absent_iff h key).2 hl) hres).symm
      · rfl
    have hlt : u.slot ks b < u.size := Nat.mod_lt _ hr.rep.size
    rw [hh, if_pos hlt] at heq
    exact ⟨_, heq, hr.link (e := ⟨b, key, val⟩) hb huk huv hl⟩

/-- A bucket in another slot than its key's is not found. -/
theorem find_misplaced (h : Represents ks t A) {b : P} {key : K} {i : Nat}
    (hkey : ¬ ks.isNull key) (hb : b ∉ A.map (·.bucket)) (hl : lookup ks A key = none)
    (hi : i ≠ ks.hash key % t.size) :
    egHtFind ks ((t.linkSlot i b).linkAll b) key = some none := by
  have h1 := linkSlot_spec t i b
  have h2 := linkAll_spec (t.linkSlot i b) b
  generalize (t.linkSlot i b).linkAll b = u at h2
  obtain ⟨chain, hs⟩ := h.rep.slotted
  have hlt : ks.hash key % t.size < t.size := Nat.mod_lt _ h.rep.size
  have hc := hs.links _ hlt
  have hsub : chain (ks.hash key % t.size) ⊆ A.map (·.bucket) :=
    fun p hp => ((hs.mem _ hlt p).1 hp).1
  have hpath : Path u.next (chain (ks.hash key % t.size)) none := by
    refine hc.fwd.congr fun p hp => ?_
    have hpb : p ≠ b := fun hpb => hb (hpb ▸ hsub hp)
    rw [h2.next, h1.next, Function.update_of_ne hpb]
  have hlen : (chain (ks.hash key % t.size)).length ≤ u.elements := by
    rw [h2.elements, h1.elements, h.rep.listed.elements]
    exact (List.subperm_of_subset hc.nodup hsub).length_le.trans (Nat.le_succ _)
  rw [egHtFind, if_neg hkey, searchSlot, h2.size, h1.size, h2.hlist, h1.hlist,
    Function.update_of_ne (Ne.symm hi), hs.hlist _ hlt, search_eq key hpath hlen, h2.key, h1.key]
  congr 1
  refine List.find?_eq_none.2 fun p hp => ?_
  obtain ⟨e, he, rfl⟩ := List.mem_map.1 (hsub hp)
  rw [h.key e he]
  exact List.find?_eq_none.1 hl e he

theorem remove_step (h : Represents ks t A) {key : K} (hkey : ¬ ks.isNull key) :
    ∃ u, egHtRemove ks t key = some (u, if (lookup ks A key).isSome then 1 else 0) ∧
      Represents ks u (removeKey ks A key) := by
  rw [egHtRemove, if_neg hkey, h.find, if_neg hkey]
  cases hl : lookup ks A key with
  | none =>
    rw [removeKey_of_none hl]
    exact ⟨t, rfl, h⟩
  | some e =>
    rw [h.removeKey_eq hl]
    exact ⟨_, rfl, h.unlink (List.mem_map_of_mem (List.mem_of_find?_eq_some hl))⟩

omit [DecidableEq P] in
theorem clear_step (h : Represents ks t A) : Represents ks (egHtClear t) [] := by
  rw [egHtClear]
  split
  · rename_i he
    rw [h.elements, List.length_eq_zero_iff] at he
    rwa [he] at h
  · exact ⟨rep_empty h.rep.size (fun i hi => if_pos hi) rfl rfl, by simp, by simp⟩

/-- One allowed call that keeps the slot of its key keeps the table and the map together. -/
theorem step_represents (h : Represents ks t A) {op : Op K V P} (hop : Allowed ks t op)
    (hslot : SlotKept ks sizes t op) :
    ∃ u, exec ks sizes t op = some (u, answer ks A op) ∧ Represents ks u (after ks A op) := by
  have hwalk : (iterators t).getD [] = A.map (·.bucket) := by
    rw [h.rep.listed.iterators]
    rfl
  cases op with
  | insert b key val =>
    rw [Allowed, hwalk] at hop
    obtain ⟨u, hu, hr⟩ := insert_step h (by simpa using hop.2) hop.1 hslot
    exact ⟨u, by rw [exec, hu]; rfl, hr⟩
  | remove key =>
    have hkey : ¬ ks.isNull key := by simpa [Allowed] using hop
    obtain ⟨u, hu, hr⟩ := remove_step h hkey
    exact ⟨u, by rw [exec, hu]; rfl, hr⟩
  | erase it =>
    rw [Allowed, hwalk] at hop
    refine ⟨_, ?_, h.unlink hop⟩
    rw [exec, egHtErase, h.tnext hop]
    rfl
  | clear => exact ⟨_, rfl, clear_step h⟩
  | find key =>
    have hkey : ¬ ks.isNull key := by simpa [Allowed] using hop
    exact ⟨t, by rw [exec, h.find, if_neg hkey]; rfl, h⟩

theorem good_of_represents (h : Represents ks t A) : Good ks sizes (t, A) where
  find := fun key hkey => by rw [h.find, if_neg (by simpa using hkey)]
  held := fun e he => ⟨h.key e he, h.val e he⟩
  distinct := by
    refine (List.pairwise_map.1 h.rep.keys).imp_of_mem fun {e f} he hf hef => ?_
    rwa [h.key e he, h.key f hf] at hef
  elements := h.elements
  reply := fun op hop hslot => by
    obtain ⟨u, hu, -⟩ := step_represents h hop hslot
    exact ⟨u, hu⟩

/-- An insertion into the wrong slot breaks the map at once. -/
theorem step_bad (h : Represents ks t A) {op : Op K V P} (hop : Allowed ks t op)
    (hslot : ¬ SlotKept ks sizes t op) {s : Table K V P × List (Entry K V P)}
    (hs : both ks sizes (t, A) op = some s) : ¬ Good ks sizes s := by
  intro hgood
  cases op with
  | insert b key val =>
    rw [SlotKept, absent_iff h] at hslot
    obtain ⟨hl, hslot⟩ := Classical.not_imp.1 hslot
    obtain ⟨hres, hne⟩ := Classical.not_imp.1 hslot
    have hkey : ¬ ks.isNull key := by simpa using hop.2
    have hb : b ∉ A.map (·.bucket) := by
      have := hop.1
      rwa [h.rep.listed.iterators] at this
    obtain ⟨u, hr, huk, huv, hsize, heq⟩ :=
      insert_absent sizes h val hkey hb hl
    rw [if_pos hres] at hsize
    rw [both, exec, heq] at hs
    split at hs
    · obtain rfl := Option.some.inj hs
      have hfind := hgood.find key (by simpa using hkey)
      rw [find_misplaced hr hkey hb hl (by rw [hsize]; exact Ne.symm hne)] at hfind
      have hnew : lookup ks (after ks A (.insert b key val)) key = some ⟨b, key, val⟩ := by
        rw [after, insertEntry, hl, lookup]
        simp [ks.refl]
      rw [hnew] at hfind
      simp at hfind
    · simp at hs
  | remove key => exact hslot trivial
  | erase it => exact hslot trivial
  | clear => exact hslot trivial
  | find key => exact hslot trivial

end Step

theorem table_refines (ks : Keys K) (sizes : Sizes K V P) {size : Nat} (hsize : 0 < size)
    (bucket : P → Bucket K V P) (ops : List (Op K V P))
    (hops : Throughout (both ks sizes) (fun s op => Allowed ks s.1 op)
      (emptyTable size bucket, []) ops) :
    Always (both ks sizes) (Good ks sizes) (emptyTable size bucket, []) ops ↔
      Throughout (both ks sizes) (fun s op => SlotKept ks sizes s.1 op)
        (emptyTable size bucket, []) ops := by
  have hgood : ∀ s : Table K V P × List (Entry K V P), Represents ks s.1 s.2 → Good ks sizes s :=
    fun s h => good_of_represents h
  refine always_iff_throughout_within hgood (fun s op h hop hslot => ?_)
    (fun s op h hop hslot u hu => step_bad h hop hslot hu)
    ⟨rep_empty hsize (fun _ _ => rfl) rfl rfl, by simp, by simp⟩ hops
  obtain ⟨u, hu, hr⟩ := step_represents h hop hslot
  exact ⟨(u, after ks s.2 op), by rw [both, hu]; rfl, hr⟩

section Misplaced

/-- A table that grows by one slot with every new key. -/
def growByOne : Sizes Nat Nat Nat := ⟨fun _ => true, fun n => n + 1, Nat.succ_pos⟩

def empty53 : Table Nat Nat Nat := emptyTable 53 fun _ => ⟨0, 0, none, none, none, none, 0⟩

theorem table_refines_growing :
    Always (both egNumKeys growByOne) (Good egNumKeys growByOne) (empty53, [])
        [.insert 0 5 1, .insert 1 5 2, .find 5, .remove 5] ↔
      Throughout (both egNumKeys growByOne) (fun s op => SlotKept egNumKeys growByOne s.1 op)
        (empty53, []) [.insert 0 5 1, .insert 1 5 2, .find 5, .remove 5] :=
  table_refines egNumKeys growByOne (by decide) _ _ (by decide)

/-- Key 54 is put into slot 1, and searched in slot 0 of the 54 there are then. -/
theorem key_misplaced :
    Throughout (both egNumKeys growByOne) (fun s op => Allowed egNumKeys s.1 op) (empty53, [])
      [.insert 0 54 1] ∧
    ¬ Always (both egNumKeys growByOne) (Good egNumKeys growByOne) (empty53, [])
      [.insert 0 54 1] := by
  refine ⟨by decide, ?_⟩
  rintro ⟨-, t, ht, hgood⟩
  have hrun : (both egNumKeys growByOne (empty53, []) (.insert 0 54 1)).map
      (fun s => (egHtFind egNumKeys s.1 54, (lookup egNumKeys s.2 54).map (·.bucket))) =
      some (some none, some 0) := by decide
  rw [ht, Option.map_some] at hrun
  obtain ⟨hfind, hmap⟩ := Prod.mk.inj (Option.some.inj hrun)
  have hgood : Good egNumKeys growByOne t := hgood
  have hboth := hgood.find 54 (by decide)
  rw [hfind, hmap] at hboth
  cases hboth

end Misplaced

end Doorhinges.Hashtable.Growing

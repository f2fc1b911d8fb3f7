import Doorhinges.Hashtable.Entries
import Doorhinges.Lib.Machine

/-!
# The pooled table

The `ht_*` operations on buckets of the caller, over any run that begins with an
empty table. The map of entries runs beside the table.
-/
namespace Doorhinges.Hashtable.Pooled

open Lib.Machine
open Lib.DoublyLinked

/-- A call: for an insertion the caller first writes key and value of the bucket. -/
inductive Op (K V P : Type) where
  | insert (b : P) (key : K) (val : V)
  | erase (it : P)
  | remove (key : K)
  | clear
  | find (key : K)

/-- The iterator a call returns or leaves, if it has one. -/
abbrev Reply (P : Type) := Option (Option P)

variable {K V P : Type} [DecidableEq P]

def exec (ks : Keys K) (t : Table K V P) : Op K V P → Option (Table K V P × Reply P)
  | .insert b key val =>
    (htInsertBucket ks (t.write b fun x => { x with key := key, val := val }) b).map (·, none)
  | .erase it =>
    let r := htEraseBucket t it
    some (r.1, some r.2)
  | .remove key => (htRemoveBucket ks t key).map (·, none)
  | .clear => some (htClearBucket t, none)
  | .find key => (egHtFind ks t key).map fun it => (t, some it)

/-- Inserted buckets are fresh and have a key; iterators are live. -/
def Allowed (ks : Keys K) (t : Table K V P) : Op K V P → Prop
  | .insert b key _ => b ∉ (iterators t).getD [] ∧ !ks.isNull key
  | .erase it => it ∈ (iterators t).getD []
  | _ => True

instance (ks : Keys K) (t : Table K V P) : ∀ op, Decidable (Allowed ks t op)
  | .insert b key _ => inferInstanceAs (Decidable (b ∉ (iterators t).getD [] ∧ !ks.isNull key))
  | .erase it => inferInstanceAs (Decidable (it ∈ (iterators t).getD []))
  | .remove _ | .clear | .find _ => isTrue trivial

/-- The map after a call. -/
def after (ks : Keys K) (A : List (Entry K V P)) : Op K V P → List (Entry K V P)
  | .insert b key val => insertEntry ks A ⟨b, key, val⟩
  | .erase it => eraseBucket A it
  | .remove key => if ks.isNull key then A else removeKey ks A key
  | .clear => []
  | .find _ => A

/-- What a call is to return by the map. -/
def answer (ks : Keys K) (A : List (Entry K V P)) : Op K V P → Reply P
  | .erase it => some (bucketAfter A it)
  | .find key => some (if ks.isNull key then none else (lookup ks A key).map (·.bucket))
  | _ => none

/-- The table and the map side by side. -/
def both (ks : Keys K) (s : Table K V P × List (Entry K V P)) (op : Op K V P) :
    Option (Table K V P × List (Entry K V P)) :=
  (exec ks s.1 op).map fun r => (r.1, after ks s.2 op)

/-- The table is well formed, and it stands for the map: its chains and its list are doubly
linked over the same buckets, a walk visits each bucket of the map once, and every allowed
call returns what the map says. -/
structure Good (ks : Keys K) (s : Table K V P × List (Entry K V P)) : Prop where
  rep : Rep ks s.1 (s.2.map (·.bucket))
  walk : iterators s.1 = some (s.2.map (·.bucket))
  elements : egHtElements s.1 = s.2.length
  empty : egHtEmpty s.1 = s.2.isEmpty
  entries : ∀ e ∈ s.2, s.1.key e.bucket = e.key ∧ s.1.val e.bucket = e.val
  find : ∀ key, egHtFind ks s.1 key =
    some (if ks.isNull key then none else (lookup ks s.2 key).map (·.bucket))
  reply : ∀ op, Allowed ks s.1 op → ∃ t, exec ks s.1 op = some (t, answer ks s.2 op)

section Step

variable {ks : Keys K} {t : Table K V P} {A : List (Entry K V P)}

omit [DecidableEq P] in
theorem walk_eq (h : Represents ks t A) : (iterators t).getD [] = A.map (·.bucket) := by
  rw [h.rep.listed.iterators]
  rfl

theorem insert_step (h : Represents ks t A) {b : P} (key : K) (val : V)
    (hb : b ∉ A.map (·.bucket)) :
    ∃ u, htInsertBucket ks (t.write b fun x => { x with key := key, val := val }) b = some u ∧
      Represents ks u (insertEntry ks A ⟨b, key, val⟩) := by
  have hu := fill_spec t b key val
  generalize (t.write b fun x => { x with key := key, val := val }) = t' at hu ⊢
  have h := h.fill hb hu
  have hkey : t'.key b = key := by rw [hu.key, Function.update_self]
  have hval : t'.val b = val := by rw [hu.val, Function.update_self]
  rw [htInsertBucket, h.searchSlot, hkey, insertEntry]
  cases hl : lookup ks A key with
  | some e => exact ⟨t', rfl, h⟩
  | none =>
    refine ⟨_, rfl, ?_⟩
    have hslot : ks.hash key % t'.size = t'.slot ks b := by rw [Table.slot, hkey]
    rw [hslot]
    exact h.link (e := ⟨b, key, val⟩) hb hkey hval hl

theorem remove_step (h : Represents ks t A) (key : K) :
    ∃ u, htRemoveBucket ks t key = some u ∧
      Represents ks u (if ks.isNull key then A else removeKey ks A key) := by
  rw [htRemoveBucket]
  split
  · exact ⟨t, rfl, h⟩
  · rename_i hnull
    rw [h.find, if_neg hnull]
    cases hl : lookup ks A key with
    | none =>
      rw [removeKey_of_none hl]
      exact ⟨t, rfl, h⟩
    | some e =>
      rw [h.removeKey_eq hl]
      exact ⟨_, rfl, h.unlink (List.mem_map_of_mem (List.mem_of_find?_eq_some hl))⟩

omit [DecidableEq P] in
theorem clear_step (h : Represents ks t A) : Represents ks (htClearBucket t) [] := by
  refine ⟨rep_empty h.rep.size (fun i hi => ?_) rfl rfl, by simp, by simp⟩
  exact if_pos hi

/-- One allowed call keeps the table and the map together. -/
theorem step_represents (h : Represents ks t A) {op : Op K V P} (hop : Allowed ks t op) :
    ∃ u, exec ks t op = some (u, answer ks A op) ∧ Represents ks u (after ks A op) := by
  cases op with
  | insert b key val =>
    rw [Allowed, walk_eq h] at hop
    obtain ⟨u, hu, hr⟩ := insert_step h key val hop.1
    exact ⟨u, by rw [exec, hu]; rfl, hr⟩
  | erase it =>
    rw [Allowed, walk_eq h] at hop
    refine ⟨_, ?_, h.unlink hop⟩
    rw [exec, htEraseBucket, h.tnext hop]
    rfl
  | remove key =>
    obtain ⟨u, hu, hr⟩ := remove_step h key
    exact ⟨u, by rw [exec, hu]; rfl, hr⟩
  | clear => exact ⟨_, rfl, clear_step h⟩
  | find key => exact ⟨t, by rw [exec, h.find]; rfl, h⟩

theorem good_of_represents (h : Represents ks t A) : Good ks (t, A) where
  rep := h.rep
  walk := h.rep.listed.iterators
  elements := h.elements
  empty := by
    rw [egHtEmpty, h.elements]
    cases A <;> simp
  entries := fun e he => ⟨h.key e he, h.val e he⟩
  find := h.find
  reply := fun op hop => by
    obtain ⟨u, hu, -⟩ := step_represents h hop
    exact ⟨u, hu⟩

omit [DecidableEq P] in
theorem empty_represents {size : Nat} (hsize : 0 < size) (bucket : P → Bucket K V P) :
    Represents ks (emptyTable size bucket) [] :=
  ⟨rep_empty hsize (fun _ _ => rfl) rfl rfl, by simp, by simp⟩

end Step

theorem table_good (ks : Keys K) {size : Nat} (hsize : 0 < size) (bucket : P → Bucket K V P)
    (ops : List (Op K V P))
    (hops : Throughout (both ks) (fun s op => Allowed ks s.1 op) (emptyTable size bucket, [])
      ops) :
    Always (both ks) (Good ks) (emptyTable size bucket, []) ops := by
  have hgood : ∀ s : Table K V P × List (Entry K V P), Represents ks s.1 s.2 → Good ks s :=
    fun s h => good_of_represents h
  refine always_of_throughout hgood (fun s op h hop => ?_) (empty_represents hsize bucket) hops
  obtain ⟨u, hu, hr⟩ := step_represents h hop
  exact ⟨(u, after ks s.2 op), by rw [both, hu]; rfl, hr⟩

/-- Two buckets share a slot; one is erased, one removed. -/
theorem table_good_shared :
    Always (both egNumKeys) (Good egNumKeys)
      (emptyTable 193 fun _ => ⟨0, 0, none, none, none, none, 0⟩, [])
      [.insert 0 5 50, .insert 1 198 51, .insert 2 7 52, .insert 3 5 53, .erase 0, .find 198,
        .remove 7, .clear] :=
  table_good egNumKeys (K := Nat) (V := Nat) (P := Nat) (by decide) _ _ (by decide)

end Doorhinges.Hashtable.Pooled

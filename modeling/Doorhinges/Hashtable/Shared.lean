import Doorhinges.Hashtable.Pooled

/-!
# Tables in one memory

All pooled tables take their buckets from one memory. An erasure from one of them writes
its fields and buckets it lists, so the tables that list none of these are as before.
-/
namespace Doorhinges.Hashtable

open Lib.DoublyLinked
open Table

/-- The fields of a table. -/
structure Header (P : Type) where
  size : Nat
  elements : Nat
  hlist : Nat → Option P
  tlist : Option P

/-- Tables `M` over one memory of buckets. -/
structure Heap (M K V P : Type) where
  header : M → Header P
  bucket : P → Bucket K V P

variable {M K V P : Type} {ks : Keys K} {t u : Table K V P} {A : List (Entry K V P)}

def Table.header (t : Table K V P) : Header P := ⟨t.size, t.elements, t.hlist, t.tlist⟩

namespace Heap

def table (h : Heap M K V P) (m : M) : Table K V P :=
  ⟨(h.header m).size, (h.header m).elements, (h.header m).hlist, (h.header m).tlist, h.bucket⟩

@[simp] theorem table_bucket (h : Heap M K V P) (m : M) : (h.table m).bucket = h.bucket := rfl

@[simp] theorem table_header (h : Heap M K V P) (m : M) : (h.table m).header = h.header m := rfl

/-- What an operation on the table `m` leaves. -/
def put [DecidableEq M] (h : Heap M K V P) (m : M) (t : Table K V P) : Heap M K V P :=
  ⟨Function.update h.header m t.header, t.bucket⟩

variable [DecidableEq M] (h : Heap M K V P) (m : M) (t : Table K V P)

@[simp] theorem put_bucket : (h.put m t).bucket = t.bucket := rfl

@[simp] theorem put_header_self : (h.put m t).header m = t.header := Function.update_self ..

theorem put_header_of_ne {n : M} (hn : n ≠ m) : (h.put m t).header n = h.header n :=
  Function.update_of_ne hn ..

@[simp] theorem table_put_self : (h.put m t).table m = t := by
  rw [table, put_header_self]
  rfl

end Heap

/-- Only the fields of a table and its listed buckets matter. -/
theorem Represents.congr (h : Represents ks t A) (hheader : u.header = t.header)
    (hbucket : ∀ e ∈ A, u.bucket e.bucket = t.bucket e.bucket) : Represents ks u A := by
  obtain ⟨hsize, helements, hhlist, htlist⟩ : u.size = t.size ∧ u.elements = t.elements ∧
      u.hlist = t.hlist ∧ u.tlist = t.tlist := by
    simpa [Table.header] using hheader
  have hlisted : ∀ p ∈ A.map (·.bucket), u.bucket p = t.bucket p := by
    simpa using hbucket
  have hslot : ∀ p ∈ A.map (·.bucket), u.slot ks p = t.slot ks p := fun p hp => by
    rw [Table.slot, Table.slot, Table.key, Table.key, hlisted p hp, hsize]
  obtain ⟨chain, hs⟩ := h.rep.slotted
  have hchain : ∀ i < t.size, ∀ p ∈ chain i, u.bucket p = t.bucket p :=
    fun i hi p hp => hlisted p ((hs.mem i hi p).1 hp).1
  have hall := h.rep.listed
  refine ⟨⟨hsize ▸ h.rep.size, ⟨hall.links.congr (fun p hp => ?_) fun p hp => ?_, ?_, ?_⟩,
    ⟨chain, fun i hi => ?_, fun i hi => ?_, fun i hi p => ?_, fun p hp => ?_⟩, ?_⟩,
    fun e he => ?_, fun e he => ?_⟩
  · rw [Table.tnext, Table.tnext, hlisted p hp]
  · rw [Table.tprev, Table.tprev, hlisted p hp]
  · rw [htlist, hall.tlist]
  · rw [helements, hall.elements]
  · rw [hsize] at hi
    refine (hs.links i hi).congr (fun p hp => ?_) fun p hp => ?_
    · rw [Table.next, Table.next, hchain i hi p hp]
    · rw [Table.prev, Table.prev, hchain i hi p hp]
  · rw [hhlist]
    exact hs.hlist i (hsize ▸ hi)
  · rw [hs.mem i (hsize ▸ hi) p]
    exact and_congr_right fun hp => by rw [hslot p hp]
  · rw [Table.head, hlisted p hp, hslot p hp]
    exact hs.head p hp
  · refine h.rep.keys.imp_of_mem fun {a b} ha hb hab => ?_
    rwa [Table.key, Table.key, hlisted a ha, hlisted b hb]
  · rw [Table.key, hbucket e he]
    exact h.key e he
  · rw [Table.val, hbucket e he]
    exact h.val e he

section Frame

variable [DecidableEq P]

theorem write_bucket_of_ne (t : Table K V P) {b p : P} (f : Bucket K V P → Bucket K V P)
    (hp : p ≠ b) : (t.write b f).bucket p = t.bucket p :=
  Function.update_of_ne hp ..

/-- Only the neighbours in the chain are written. -/
theorem unlinkSlot_bucket (t : Table K V P) {b p : P} (hprev : t.prev b ≠ some p)
    (hnext : t.next b ≠ some p) : (t.unlinkSlot b).bucket p = t.bucket p := by
  rw [unlinkSlot]
  cases hb : t.prev b with
  | none =>
    cases hn : t.next b with
    | none => rfl
    | some n =>
      rw [hn] at hnext
      exact write_bucket_of_ne _ _ fun hpn => hnext (congrArg some hpn.symm)
  | some q =>
    rw [hb] at hprev
    have hq : p ≠ q := fun hpq => hprev (congrArg some hpq.symm)
    cases hn : t.next b with
    | none => exact write_bucket_of_ne _ _ hq
    | some n =>
      rw [hn] at hnext
      have hpn : p ≠ n := fun hpn => hnext (congrArg some hpn.symm)
      exact (write_bucket_of_ne _ _ hpn).trans (write_bucket_of_ne _ _ hq)

/-- Only the neighbours in the list are written. -/
theorem unlinkAll_bucket (t : Table K V P) {b p : P} (hprev : t.tprev b ≠ some p)
    (hnext : t.tnext b ≠ some p) : (t.unlinkAll b).bucket p = t.bucket p := by
  rw [unlinkAll]
  cases hb : t.tprev b with
  | none =>
    cases hn : t.tnext b with
    | none => rfl
    | some n =>
      rw [hn] at hnext
      have hpn : p ≠ n := fun hpn => hnext (congrArg some hpn.symm)
      exact write_bucket_of_ne { t with tlist := some n } (fun x => { x with tprev := none }) hpn
  | some q =>
    rw [hb] at hprev
    have hq : p ≠ q := fun hpq => hprev (congrArg some hpq.symm)
    cases hn : t.tnext b with
    | none => exact write_bucket_of_ne t (fun x => { x with tnext := none }) hq
    | some n =>
      rw [hn] at hnext
      have hpn : p ≠ n := fun hpn => hnext (congrArg some hpn.symm)
      exact (write_bucket_of_ne _ (fun x => { x with tprev := some q }) hpn).trans
        (write_bucket_of_ne t (fun x => { x with tnext := some n }) hq)

/-- Only the new bucket and the first of its slot are written. -/
theorem linkSlot_bucket (t : Table K V P) (i : Nat) {b p : P} (hb : p ≠ b)
    (hfirst : t.hlist i ≠ some p) : (t.linkSlot i b).bucket p = t.bucket p := by
  rw [linkSlot]
  cases hf : t.hlist i with
  | none => exact Function.update_of_ne hb ..
  | some n =>
    rw [hf] at hfirst
    have hpn : p ≠ n := fun hpn => hfirst (congrArg some hpn.symm)
    exact (Function.update_of_ne hpn ..).trans (Function.update_of_ne hb ..)

/-- Only the new bucket and the first of the list are written. -/
theorem linkAll_bucket (t : Table K V P) {b p : P} (hb : p ≠ b) (hfirst : t.tlist ≠ some p) :
    (t.linkAll b).bucket p = t.bucket p := by
  rw [linkAll]
  cases hf : t.tlist with
  | none => exact Function.update_of_ne hb ..
  | some n =>
    rw [hf] at hfirst
    have hpn : p ≠ n := fun hpn => hfirst (congrArg some hpn.symm)
    exact (Function.update_of_ne hpn ..).trans (Function.update_of_ne hb ..)

/-- An insertion leaves the buckets that are neither listed nor inserted. -/
theorem Represents.insert_bucket (h : Represents ks t A) {b p : P}
    (hins : htInsertBucket ks t b = some u) (hb : p ≠ b) (hp : p ∉ A.map (·.bucket)) :
    u.bucket p = t.bucket p := by
  rw [htInsertBucket, h.searchSlot, Option.bind_eq_bind, Option.bind_some] at hins
  split at hins
  · rw [← Option.some.inj hins]
  · obtain ⟨chain, hs⟩ := h.rep.slotted
    have hlt : t.slot ks b < t.size := Nat.mod_lt _ h.rep.size
    have hout : ∀ q, t.hlist (t.slot ks b) = some q → q ≠ p := fun q hq hqp => by
      have hmem := List.mem_of_head? ((hs.hlist _ hlt).symm.trans hq)
      exact hp (hqp ▸ ((hs.mem _ hlt q).1 hmem).1)
    have h1 := linkSlot_spec t (t.slot ks b) b
    rw [← Option.some.inj hins]
    refine (linkAll_bucket _ hb ?_).trans (linkSlot_bucket t _ hb fun hq => hout p hq rfl)
    rw [show (t.linkSlot (ks.hash (t.key b) % t.size) b).tlist = t.tlist from h1.tlist,
      h.rep.listed.tlist]
    exact fun hq => hp (List.mem_of_head? hq)

/-- An erasure leaves the buckets that the table does not list. -/
theorem Represents.erase_bucket (h : Represents ks t A) {b p : P}
    (hb : b ∈ A.map (·.bucket)) (hp : p ∉ A.map (·.bucket)) :
    (htEraseBucket t b).1.bucket p = t.bucket p := by
  obtain ⟨chain, hs⟩ := h.rep.slotted
  have hlt : t.slot ks b < t.size := Nat.mod_lt _ h.rep.size
  have hl := hs.links _ hlt
  have hbc : b ∈ chain (t.slot ks b) := (hs.mem _ hlt b).2 ⟨hb, rfl⟩
  have hout : ∀ q, q ∈ chain (t.slot ks b) → q ≠ p :=
    fun q hq hqp => hp (hqp ▸ ((hs.mem _ hlt q).1 hq).1)
  have h1 := unlinkSlot_spec t b
  have hall := h.rep.listed.links
  have hslot : (t.unlinkSlot b).bucket p = t.bucket p :=
    unlinkSlot_bucket t (fun hpb => hout p (hl.prev_mem hbc hpb) rfl)
      fun hpb => hout p (hl.next_mem hbc hpb) rfl
  rw [htEraseBucket, unlinkAll_bucket, hslot]
  · rw [h1.tprev]
    exact fun hpb => hp (hall.prev_mem hb hpb)
  · rw [h1.tnext]
    exact fun hpb => hp (hall.next_mem hb hpb)

end Frame

section Walk

variable {x y : List (Entry K V P)} {e : Entry K V P}

/-- The iterator at the front of a list of entries. -/
def first (A : List (Entry K V P)) : Option P := (A.map (·.bucket)).head?

theorem Represents.begin (h : Represents ks t A) : egHtBegin t = first A :=
  h.rep.listed.tlist

theorem Represents.next (h : Represents ks t (x ++ e :: y)) : egHtNext t e.bucket = first y := by
  have hlinks := h.rep.listed.links
  rw [List.map_append, List.map_cons] at hlinks
  rw [egHtNext, hlinks.neighbours.1, first]

variable [DecidableEq P]

/-- The bucket in the middle is erased, and the iterator moves to the next. -/
theorem Represents.erase (h : Represents ks t (x ++ e :: y)) :
    Represents ks (htEraseBucket t e.bucket).1 (x ++ y) ∧
      (htEraseBucket t e.bucket).2 = first y := by
  have hnd := h.nodup
  rw [List.map_append, List.map_cons] at hnd
  have hx : ∀ f ∈ x, f.bucket ≠ e.bucket := fun f hf hfe =>
    (List.nodup_append.1 hnd).2.2 _ (List.mem_map_of_mem hf) _ List.mem_cons_self hfe
  have hy : ∀ f ∈ y, f.bucket ≠ e.bucket := fun f hf hfe =>
    (List.nodup_cons.1 (List.nodup_append.1 hnd).2.1).1 (hfe ▸ List.mem_map_of_mem hf)
  have hlist : eraseBucket (x ++ e :: y) e.bucket = x ++ y := by
    rw [eraseBucket, List.filter_append, List.filter_cons_of_neg (by simp),
      List.filter_eq_self.2 (by simpa using hx), List.filter_eq_self.2 (by simpa using hy)]
  have hrep := h.unlink (b := e.bucket) (by simp)
  rw [hlist] at hrep
  exact ⟨hrep, h.next⟩

end Walk

section Together

variable [DecidableEq M] [DecidableEq P] {h : Heap M K V P} {E : M → List (Entry K V P)}

/-- Each table stands for its entries, and no bucket is in two of them. -/
structure Together (ks : Keys K) (h : Heap M K V P) (E : M → List (Entry K V P)) : Prop where
  rep : ∀ m, Represents ks (h.table m) (E m)
  apart : ∀ m n, m ≠ n → ∀ e ∈ E m, ∀ f ∈ E n, e.bucket ≠ f.bucket

omit [DecidableEq P] in
/-- One table and the buckets `S`, none of them of another table, have changed. -/
theorem Together.change (hs : Together ks h E) {h' : Heap M K V P} {m : M}
    {B : List (Entry K V P)} (hrep : Represents ks (h'.table m) B)
    (hheader : ∀ n ≠ m, h'.header n = h.header n) {S : P → Prop}
    (hS : ∀ n ≠ m, ∀ e ∈ E n, ¬ S e.bucket) (hB : ∀ e ∈ B, S e.bucket)
    (hout : ∀ p, ¬ S p → h'.bucket p = h.bucket p) :
    Together ks h' (Function.update E m B) := by
  refine ⟨fun n => ?_, fun n k hnk e he f hf => ?_⟩
  · by_cases hnm : n = m
    · subst hnm
      rw [Function.update_self]
      exact hrep
    · rw [Function.update_of_ne hnm]
      refine (hs.rep n).congr ?_ fun e he => hout _ (hS n hnm e he)
      rw [Heap.table_header, Heap.table_header, hheader n hnm]
  · by_cases hnm : n = m
    · subst hnm
      rw [Function.update_self] at he
      rw [Function.update_of_ne hnk.symm] at hf
      exact fun hef => hS k hnk.symm f hf (hef ▸ hB e he)
    · rw [Function.update_of_ne hnm] at he
      by_cases hkm : k = m
      · subst hkm
        rw [Function.update_self] at hf
        exact fun hef => hS n hnm e he (hef ▸ hB f hf)
      · rw [Function.update_of_ne hkm] at hf
        exact hs.apart n k hnk e he f hf

omit [DecidableEq P] in
theorem Together.put (hs : Together ks h E) {m : M} {B : List (Entry K V P)}
    (hrep : Represents ks t B) {S : P → Prop} (hS : ∀ n ≠ m, ∀ e ∈ E n, ¬ S e.bucket)
    (hB : ∀ e ∈ B, S e.bucket) (hout : ∀ p, ¬ S p → t.bucket p = h.bucket p) :
    Together ks (h.put m t) (Function.update E m B) :=
  hs.change (by rwa [Heap.table_put_self]) (fun _ hn => Heap.put_header_of_ne _ _ _ hn) hS hB hout

omit [DecidableEq M] [DecidableEq P] in
theorem Together.outside (hs : Together ks h E) {m n : M} (hn : n ≠ m) {e : Entry K V P}
    (he : e ∈ E n) : e.bucket ∉ (E m).map (·.bucket) := by
  intro hmem
  obtain ⟨f, hf, hfe⟩ := List.mem_map.1 hmem
  exact hs.apart m n hn.symm f hf e he hfe

/-- A bucket that no table lists is given a key and a value and inserted. -/
theorem Together.insert (hs : Together ks h E) (m : M) {b : P} (key : K) (val : V)
    (hb : ∀ n, b ∉ (E n).map (·.bucket)) :
    ∃ u, htInsertBucket ks ((h.table m).write b fun x => { x with key := key, val := val }) b =
        some u ∧
      Together ks (h.put m u) (Function.update E m (insertEntry ks (E m) ⟨b, key, val⟩)) := by
  obtain ⟨u, hu, hrep⟩ := Pooled.insert_step (hs.rep m) key val (hb m)
  refine ⟨u, hu, hs.put hrep (S := fun p => p = b ∨ p ∈ (E m).map (·.bucket))
    (fun n hn e he => ?_) (fun e he => ?_) fun p hp => ?_⟩
  · rintro (heb | hmem)
    · exact hb n (heb ▸ List.mem_map_of_mem he)
    · exact hs.outside hn he hmem
  · rw [insertEntry] at he
    split at he
    · exact Or.inr (List.mem_map_of_mem he)
    · rcases List.mem_cons.1 he with rfl | he
      · exact Or.inl rfl
      · exact Or.inr (List.mem_map_of_mem he)
  · obtain ⟨hpb, hmem⟩ := not_or.1 hp
    have hfill := (hs.rep m).fill (hb m) (fill_spec (h.table m) b key val)
    rw [hfill.insert_bucket hu hpb hmem]
    exact write_bucket_of_ne _ _ hpb

omit [DecidableEq P] in
/-- Fewer entries of one table, with no other bucket written. -/
theorem Together.sub (hs : Together ks h E) {m : M} {B : List (Entry K V P)}
    (hrep : Represents ks t B) (hB : ∀ e ∈ B, e ∈ E m)
    (hout : ∀ p ∉ (E m).map (·.bucket), t.bucket p = h.bucket p) :
    Together ks (h.put m t) (Function.update E m B) :=
  hs.put hrep (S := fun p => p ∈ (E m).map (·.bucket)) (fun _ hn _ he => hs.outside hn he)
    (fun e he => List.mem_map_of_mem (hB e he)) hout

theorem Together.remove (hs : Together ks h E) (m : M) (key : K) :
    ∃ u B, htRemoveBucket ks (h.table m) key = some u ∧ (∀ e ∈ B, e ∈ E m) ∧
      (E m).length ≤ B.length + 1 ∧
        Together ks (h.put m u) (Function.update E m B) := by
  have hm := hs.rep m
  rw [htRemoveBucket]
  split
  · exact ⟨_, E m, rfl, fun _ he => he, by omega, hs.sub hm (fun _ he => he) fun _ _ => rfl⟩
  · rename_i hnull
    rw [hm.find, if_neg hnull]
    cases hl : lookup ks (E m) key with
    | none => exact ⟨_, E m, rfl, fun _ he => he, by omega, hs.sub hm (fun _ he => he) fun _ _ => rfl⟩
    | some e =>
      have he : e ∈ E m := List.mem_of_find?_eq_some hl
      obtain ⟨x, y, hxy⟩ := List.append_of_mem he
      have hm' := hm
      rw [hxy] at hm'
      refine ⟨_, x ++ y, rfl, fun f hf => ?_, ?_, hs.sub hm'.erase.1 (fun f hf => ?_)
        fun p hp => ?_⟩
      · rw [hxy]
        rcases List.mem_append.1 hf with hf | hf
        · exact List.mem_append_left _ hf
        · exact List.mem_append_right _ (List.mem_cons_of_mem _ hf)
      · rw [hxy, List.length_append, List.length_append, List.length_cons]
        omega
      · rw [hxy]
        rcases List.mem_append.1 hf with hf | hf
        · exact List.mem_append_left _ hf
        · exact List.mem_append_right _ (List.mem_cons_of_mem _ hf)
      · exact hm.erase_bucket (List.mem_map_of_mem he) hp

omit [DecidableEq P] in
theorem Together.clear (hs : Together ks h E) (m : M) :
    Together ks (h.put m (htClearBucket (h.table m))) (Function.update E m []) :=
  hs.sub (Pooled.clear_step (hs.rep m)) (by simp) fun _ _ => rfl

end Together

end Doorhinges.Hashtable

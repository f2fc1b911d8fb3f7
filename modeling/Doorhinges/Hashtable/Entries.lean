import Doorhinges.Hashtable.Invariant

/-!
# The map a table stands for

A list of entries, the newest first, of which no two have equal keys. A table stands
for it when its buckets are those of the entries and hold their keys and values.
-/
namespace Doorhinges.Hashtable

open Table

structure Entry (K V P : Type) where
  bucket : P
  key : K
  val : V

variable {K V P : Type} {ks : Keys K} {t u : Table K V P} {A : List (Entry K V P)}

def lookup (ks : Keys K) (A : List (Entry K V P)) (key : K) : Option (Entry K V P) :=
  A.find? fun e => ks.compare key e.key

/-- A key that is present keeps its entry. -/
def insertEntry (ks : Keys K) (A : List (Entry K V P)) (e : Entry K V P) : List (Entry K V P) :=
  if (lookup ks A e.key).isSome then A else e :: A

def removeKey (ks : Keys K) (A : List (Entry K V P)) (key : K) : List (Entry K V P) :=
  A.filter fun e => !ks.compare key e.key

def eraseBucket [DecidableEq P] (A : List (Entry K V P)) (b : P) : List (Entry K V P) :=
  A.filter fun e => e.bucket ≠ b

/-- The bucket traversed after `b`. -/
def bucketAfter [DecidableEq P] (A : List (Entry K V P)) (b : P) : Option P :=
  ((A.map (·.bucket)).dropWhile (· ≠ b)).tail.head?

structure Represents (ks : Keys K) (t : Table K V P) (A : List (Entry K V P)) : Prop where
  rep : Rep ks t (A.map (·.bucket))
  key : ∀ e ∈ A, t.key e.bucket = e.key
  val : ∀ e ∈ A, t.val e.bucket = e.val

section Lookup

variable (h : Represents ks t A)
include h

theorem Represents.keys {e f : Entry K V P} (he : e ∈ A) (hf : f ∈ A)
    (hef : ks.compare e.key f.key) : e.bucket = f.bucket := by
  rw [← h.key e he, ← h.key f hf] at hef
  exact h.rep.key_inj (List.mem_map_of_mem he) (List.mem_map_of_mem hf) hef

theorem Represents.nodup : (A.map (·.bucket)).Nodup := h.rep.listed.links.nodup

theorem Represents.searchSlot (key : K) :
    t.searchSlot ks key = some ((lookup ks A key).map (·.bucket)) := by
  rw [h.rep.searchSlot, List.find?_map, lookup, ← List.head?_filter, ← List.head?_filter]
  congr 3
  refine List.filter_congr fun e he => ?_
  rw [Function.comp_apply, h.key e he]

theorem Represents.find (key : K) :
    egHtFind ks t key =
      some (if ks.isNull key then none else (lookup ks A key).map (·.bucket)) := by
  rw [egHtFind]
  split
  · rfl
  · exact h.searchSlot key

theorem Represents.elements : t.elements = A.length := by
  rw [h.rep.listed.elements, List.length_map]

/-- Removing a key that is present is erasing its bucket. -/
theorem Represents.removeKey_eq [DecidableEq P] {key : K} {e : Entry K V P}
    (he : lookup ks A key = some e) : removeKey ks A key = eraseBucket A e.bucket := by
  have hmem := List.mem_of_find?_eq_some he
  have hkey : ks.compare key e.key := by simpa using List.find?_some he
  refine List.filter_congr fun f hf => ?_
  have hiff : ks.compare key f.key ↔ f.bucket = e.bucket := by
    constructor
    · exact fun hc => h.keys hf hmem (ks.trans (ks.symm hc) hkey)
    · intro hb
      rw [← h.key f hf, hb, h.key e hmem]
      exact hkey
  by_cases hb : f.bucket = e.bucket
  · simp [hb, hiff.2 hb]
  · simp [hb, mt hiff.1 hb]

end Lookup

theorem removeKey_of_none {key : K} (he : lookup ks A key = none) : removeKey ks A key = A := by
  refine List.filter_eq_self.2 fun e hm => ?_
  simpa using List.find?_eq_none.1 he e hm

section Operations

variable [DecidableEq P]

theorem Represents.fill {b : P} {key : K} {val : V} (h : Represents ks t A)
    (hb : b ∉ A.map (·.bucket)) (hu : Filled t b key val u) : Represents ks u A := by
  have hne : ∀ e ∈ A, e.bucket ≠ b := fun e he hbe => hb (hbe ▸ List.mem_map_of_mem he)
  refine ⟨h.rep.fill hb hu, fun e he => ?_, fun e he => ?_⟩
  · rw [hu.key, Function.update_of_ne (hne e he), h.key e he]
  · rw [hu.val, Function.update_of_ne (hne e he), h.val e he]

/-- A new entry is linked in where its key is absent. -/
theorem Represents.link {e : Entry K V P} (h : Represents ks t A)
    (hb : e.bucket ∉ A.map (·.bucket)) (hkey : t.key e.bucket = e.key)
    (hval : t.val e.bucket = e.val) (habs : lookup ks A e.key = none) :
    Represents ks ((t.linkSlot (t.slot ks e.bucket) e.bucket).linkAll e.bucket) (e :: A) := by
  have h1 := linkSlot_spec t (t.slot ks e.bucket) e.bucket
  have h2 := linkAll_spec (t.linkSlot (t.slot ks e.bucket) e.bucket) e.bucket
  refine ⟨h.rep.link hb fun b hbm => ?_, fun f hf => ?_, fun f hf => ?_⟩
  · obtain ⟨f, hf, rfl⟩ := List.mem_map.1 hbm
    rw [hkey, h.key f hf]
    exact List.find?_eq_none.1 habs f hf
  · rw [h2.key, h1.key]
    rcases List.mem_cons.1 hf with rfl | hf
    · exact hkey
    · exact h.key f hf
  · rw [h2.val, h1.val]
    rcases List.mem_cons.1 hf with rfl | hf
    · exact hval
    · exact h.val f hf

theorem Represents.unlink {b : P} (h : Represents ks t A) (hb : b ∈ A.map (·.bucket)) :
    Represents ks ((t.unlinkSlot b).unlinkAll b) (eraseBucket A b) := by
  have h1 := unlinkSlot_spec t b
  have h2 := unlinkAll_spec (t.unlinkSlot b) b
  have hmap : (eraseBucket A b).map (·.bucket) = (A.map (·.bucket)).erase b := by
    rw [h.nodup.erase_eq_filter, List.filter_map]
    congr 1
    refine List.filter_congr fun e _ => ?_
    by_cases hbe : e.bucket = b <;> simp [hbe]
  refine ⟨by rw [hmap]; exact h.rep.unlink hb, fun f hf => ?_, fun f hf => ?_⟩
  · rw [h2.key, h1.key]
    exact h.key f (List.mem_filter.1 hf).1
  · rw [h2.val, h1.val]
    exact h.val f (List.mem_filter.1 hf).1

/-- The iterator an erasure leaves. -/
theorem Represents.tnext {b : P} (h : Represents ks t A) (hb : b ∈ A.map (·.bucket)) :
    t.tnext b = bucketAfter A b := by
  obtain ⟨x, y, hxy⟩ := List.append_of_mem hb
  have hl := h.rep.listed.links
  have hbx : ∀ p ∈ x, p ≠ b := fun p hp hpb => by
    have hnd := h.nodup
    rw [hxy] at hnd
    exact (List.nodup_append.1 hnd).2.2 p hp b List.mem_cons_self hpb
  rw [hxy] at hl
  rw [hl.neighbours.1, bucketAfter, hxy, List.dropWhile_append_of_pos fun p hp => by
    simpa using hbx p hp]
  simp

end Operations

end Doorhinges.Hashtable

import Doorhinges.GetAd.Pools
import Mathlib.Tactic.FinCases
import Mathlib.Tactic.IntervalCases

/-!
# get_inter over one memory

The maps take their nodes from one pool, so the erasures from the first map happen in the
memory that the searches of the others read.
-/
namespace Doorhinges.GetAd.Intersection

open Lib.CString
open Hashtable

variable {M K V P : Type} (ks : Keys K) (maps : Nat → M) (len : Nat)

/-- The inner loop from `i` on, over `n` maps: where it stops. -/
def firstLacking (h : Heap M K V P) (key : K) : Nat → Nat → Option Nat
  | 0, i => some i
  | n + 1, i => do
    match ← egHtFind ks (h.table (maps i)) key with
    | none => some i
    | some _ => firstLacking h key n (i + 1)

variable [DecidableEq M] [DecidableEq P]

/-- One iteration of the outer loop; the erasure and its `break` leave the inner loop at
some `i ≤ len`. -/
def interStep (h : Heap M K V P) (it : P) : Option (Heap M K V P × Option P) := do
  let i ← firstLacking ks maps h ((h.table (maps 0)).key it) len 1
  if i > len then some (h, egHtNext (h.table (maps 0)) it)
  else
    let r := htEraseBucket (h.table (maps 0)) it
    some (h.put (maps 0) r.1, r.2)

/-- The outer loop, from an iterator on; a map of `n` elements ends it after `n` rounds. -/
def getInterFrom : Nat → Heap M K V P → Option P → Option (Heap M K V P)
  | _, h, none => some h
  | 0, _, some _ => none
  | n + 1, h, some it => do
    let r ← interStep ks maps len h it
    getInterFrom n r.1 r.2

def getInter (h : Heap M K V P) : Option (Heap M K V P) :=
  getInterFrom ks maps len (egHtElements (h.table (maps 0))) h (egHtBegin (h.table (maps 0)))

/-- The maps stand for lists of entries, of which no two share a bucket. -/
structure Apart (h : Heap M K V P) (A : Nat → List (Entry K V P)) : Prop where
  rep : ∀ i ≤ len, Represents ks (h.table (maps i)) (A i)
  apart : ∀ i ≤ len, ∀ j ≤ len, i ≠ j → ∀ e ∈ A i, ∀ f ∈ A j, e.bucket ≠ f.bucket

/-- What `eg_ht_find` says of a key; it finds nothing under the null key. -/
def found (B : List (Entry K V P)) (key : K) : Bool :=
  !ks.isNull key && B.any fun f => ks.compare key f.key

/-- The key is found in each of the other maps. -/
def survives (A : Nat → List (Entry K V P)) (key : K) : Bool :=
  (List.range' 1 len).all fun i => found ks (A i) key

/-- Every map has an entry with the key. -/
def inAll (A : Nat → List (Entry K V P)) (key : K) : Bool :=
  (List.range (len + 1)).all fun i => (A i).any fun f => ks.compare key f.key

/-- Only the first map and its buckets may differ. -/
structure Frame (A : Nat → List (Entry K V P)) (h h' : Heap M K V P) : Prop where
  header : ∀ m ≠ maps 0, h'.header m = h.header m
  bucket : ∀ p ∉ (A 0).map (·.bucket), h'.bucket p = h.bucket p

/-- The first map keeps the entries whose keys all maps had, in their order, and every other
map is as before. -/
structure Intersected (A : Nat → List (Entry K V P)) (h h' : Heap M K V P) : Prop
    extends Frame maps A h h' where
  rep : Represents ks (h'.table (maps 0)) ((A 0).filter fun e => inAll ks len A e.key)
  walk : iterators (h'.table (maps 0)) =
    some (((A 0).filter fun e => inAll ks len A e.key).map (·.bucket))
  others : ∀ i, 1 ≤ i → i ≤ len → h'.header (maps i) = h.header (maps i) ∧
    (∀ e ∈ A i, h'.bucket e.bucket = h.bucket e.bucket) ∧
      Represents ks (h'.table (maps i)) (A i)

variable {ks maps len} {A : Nat → List (Entry K V P)} {h₀ h : Heap M K V P}

omit [DecidableEq M] [DecidableEq P] in
/-- The buckets of another map are none of the first. -/
theorem Apart.outside (ha : Apart ks maps len h₀ A) {i : Nat} (hi : 1 ≤ i) (hle : i ≤ len)
    {e : Entry K V P} (he : e ∈ A i) : e.bucket ∉ (A 0).map (·.bucket) := by
  intro hmem
  obtain ⟨f, hf, hfe⟩ := List.mem_map.1 hmem
  exact ha.apart 0 (Nat.zero_le _) i hle (by omega) f hf e he hfe

omit [DecidableEq M] [DecidableEq P] in
/-- A map that occurs twice in the array is empty. -/
theorem Apart.maps_ne (ha : Apart ks maps len h₀ A) (hne : A 0 ≠ []) {i : Nat} (hi : 1 ≤ i)
    (hle : i ≤ len) : maps i ≠ maps 0 := by
  intro hmaps
  have h0 := (ha.rep 0 (Nat.zero_le _)).rep.listed.iterators
  have hi' := (ha.rep i hle).rep.listed.iterators
  rw [hmaps, h0, Option.some.injEq] at hi'
  obtain ⟨e, he⟩ := List.exists_mem_of_ne_nil _ hne
  have hmem : e.bucket ∈ (A i).map (·.bucket) := hi' ▸ List.mem_map_of_mem he
  obtain ⟨f, hf, hfe⟩ := List.mem_map.1 hmem
  exact ha.apart 0 (Nat.zero_le _) i hle (by omega) e he f hf hfe.symm

omit [DecidableEq M] [DecidableEq P] in
/-- Outside the frame every other map still stands for its entries. -/
theorem Apart.others (ha : Apart ks maps len h₀ A) (hf : Frame maps A h₀ h) {i : Nat}
    (hi : 1 ≤ i) (hle : i ≤ len) (hne : maps i ≠ maps 0) :
    Represents ks (h.table (maps i)) (A i) := by
  refine (ha.rep i hle).congr ?_ fun e he => ?_
  · rw [Heap.table_header, Heap.table_header, hf.header _ hne]
  · exact hf.bucket _ (ha.outside hi hle he)

omit [DecidableEq M] [DecidableEq P] in
theorem find_found {t : Table K V P} {B : List (Entry K V P)} (h : Represents ks t B) (key : K) :
    ∃ it, egHtFind ks t key = some it ∧ it.isSome = found ks B key := by
  refine ⟨_, h.find key, ?_⟩
  rw [found]
  by_cases hnull : ks.isNull key
  · rw [if_pos hnull, hnull]
    rfl
  · rw [if_neg hnull, Option.isSome_map, Bool.eq_iff_iff, lookup, List.find?_isSome]
    simp [hnull]

omit [DecidableEq M] [DecidableEq P] in
/-- The inner loop passes all maps exactly when the key is found in each of them. -/
theorem firstLacking_spec (key : K) {n i : Nat}
    (hrep : ∀ j, i ≤ j → j < i + n → Represents ks (h.table (maps j)) (A j)) :
    ∃ k, firstLacking ks maps h key n i = some k ∧ i ≤ k ∧ k ≤ i + n ∧
      (k = i + n ↔ ∀ j, i ≤ j → j < i + n → found ks (A j) key) := by
  induction n generalizing i with
  | zero => exact ⟨i, rfl, le_rfl, le_rfl, fun _ j hj hlt => by omega, fun _ => rfl⟩
  | succ n ih =>
    obtain ⟨it, hfind, hfound⟩ := find_found (hrep i le_rfl (by omega)) key
    cases it with
    | none =>
      refine ⟨i, ?_, le_rfl, by omega, fun hk => by omega, fun hall => ?_⟩
      · rw [firstLacking, hfind]
        rfl
      · rw [hall i le_rfl (by omega)] at hfound
        cases hfound
    | some e =>
      obtain ⟨k, hk, hle, hlt, hiff⟩ := ih (i := i + 1) fun j hj hjlt =>
        hrep j (by omega) (by omega)
      refine ⟨k, ?_, by omega, by omega, fun hki j hj hjlt => ?_, fun hall => ?_⟩
      · rw [firstLacking, hfind]
        exact hk
      · rcases Nat.eq_or_lt_of_le hj with rfl | hj
        · exact hfound.symm
        · exact hiff.1 (by omega) j hj (by omega)
      · have hki := hiff.2 fun j hj hjlt => hall j (by omega) (by omega)
        omega

omit [DecidableEq M] [DecidableEq P] in
theorem survives_iff {key : K} :
    survives ks len A key ↔ ∀ j, 1 ≤ j → j < 1 + len → found ks (A j) key := by
  rw [survives, List.all_eq_true]
  simp only [List.mem_range'_1, and_imp]

omit [DecidableEq M] [DecidableEq P] in
/-- An entry of the first map with a key proper survives when all maps have its key. -/
theorem survives_eq {e : Entry K V P} (he : e ∈ A 0) (hkey : !ks.isNull e.key) :
    survives ks len A e.key = inAll ks len A e.key := by
  rw [Bool.eq_iff_iff, survives_iff, inAll, List.all_eq_true]
  constructor
  · intro hall j hj
    rcases Nat.eq_zero_or_pos j with rfl | hpos
    · exact List.any_eq_true.2 ⟨e, he, ks.refl _⟩
    · have hfound := hall j hpos (by have := List.mem_range.1 hj; omega)
      rw [found, hkey] at hfound
      exact hfound
  · intro hall j _ hlt
    rw [found, hkey]
    exact hall j (List.mem_range.2 (by omega))

/-- One round, at the entry `e`. -/
theorem interStep_spec (ha : Apart ks maps len h₀ A) {x y : List (Entry K V P)}
    {e : Entry K V P} (hrep : Represents ks (h.table (maps 0)) (x ++ e :: y))
    (hsub : ∀ f ∈ x ++ e :: y, f ∈ A 0) (hf : Frame maps A h₀ h) :
    ∃ h', interStep ks maps len h e.bucket = some (h', first y) ∧ Frame maps A h₀ h' ∧
      Represents ks (h'.table (maps 0))
        (if survives ks len A e.key then x ++ e :: y else x ++ y) := by
  have he : e ∈ A 0 := hsub e (by simp)
  have hne : A 0 ≠ [] := List.ne_nil_of_mem he
  have hothers : ∀ j, 1 ≤ j → j < 1 + len → Represents ks (h.table (maps j)) (A j) :=
    fun j hj hlt => ha.others hf hj (by omega) (ha.maps_ne hne hj (by omega))
  have hkey : (h.table (maps 0)).key e.bucket = e.key := hrep.key e (by simp)
  obtain ⟨k, hk, -, hkle, hiff⟩ := firstLacking_spec e.key hothers
  rw [← survives_iff] at hiff
  by_cases hall : survives ks len A e.key
  · refine ⟨h, ?_, hf, by rwa [if_pos hall]⟩
    rw [interStep, hkey, hk, Option.bind_eq_bind, Option.bind_some,
      if_pos (by have := hiff.2 hall; omega), hrep.next]
  · obtain ⟨herase, hit⟩ := hrep.erase
    refine ⟨h.put (maps 0) (htEraseBucket (h.table (maps 0)) e.bucket).1, ?_, ⟨?_, ?_⟩, ?_⟩
    · have hlt : ¬ k > len := fun hgt => hall (hiff.1 (by omega))
      rw [interStep, hkey, hk, Option.bind_eq_bind, Option.bind_some, if_neg hlt, ← hit]
    · exact fun m hm => (Heap.put_header_of_ne _ _ _ hm).trans (hf.header m hm)
    · intro p hp
      have hout : p ∉ (x ++ e :: y).map (·.bucket) := fun hmem => by
        obtain ⟨f, hfm, rfl⟩ := List.mem_map.1 hmem
        exact hp (List.mem_map_of_mem (hsub f hfm))
      rw [Heap.put_bucket, hrep.erase_bucket (by simp) hout]
      exact hf.bucket p hp
    · rw [if_neg hall, Heap.table_put_self]
      exact herase

/-- From the iterator at `y`, with `x` kept so far. -/
theorem getInterFrom_spec (ha : Apart ks maps len h₀ A) (y : List (Entry K V P))
    {x : List (Entry K V P)} {n : Nat} (hrep : Represents ks (h.table (maps 0)) (x ++ y))
    (hsub : ∀ f ∈ x ++ y, f ∈ A 0) (hf : Frame maps A h₀ h) (hn : y.length ≤ n) :
    ∃ h', getInterFrom ks maps len n h (first y) = some h' ∧ Frame maps A h₀ h' ∧
      Represents ks (h'.table (maps 0)) (x ++ y.filter fun e => survives ks len A e.key) := by
  induction y generalizing x n h with
  | nil => exact ⟨h, by cases n <;> rfl, hf, hrep⟩
  | cons e y ih =>
    obtain ⟨n, rfl⟩ : ∃ k, n = k + 1 := ⟨n - 1, by rw [List.length_cons] at hn; omega⟩
    rw [List.length_cons] at hn
    obtain ⟨h₁, hstep, hf₁, hrep₁⟩ := interStep_spec ha hrep hsub hf
    have hround : getInterFrom ks maps len (n + 1) h (first (e :: y)) =
        getInterFrom ks maps len n h₁ (first y) := by
      rw [first, List.map_cons, List.head?_cons, getInterFrom, hstep]
      rfl
    rw [hround, List.filter_cons]
    split at hrep₁
    · rename_i hall
      rw [if_pos hall]
      obtain ⟨h', hh', hf', hrep'⟩ := ih (x := x ++ [e]) (by simpa using hrep₁)
        (by simpa using hsub) hf₁ (Nat.le_of_succ_le_succ hn)
      exact ⟨h', hh', hf', by simpa using hrep'⟩
    · rename_i hall
      rw [if_neg hall]
      refine ih hrep₁ (fun f hfm => hsub f ?_) hf₁ (Nat.le_of_succ_le_succ hn)
      rcases List.mem_append.1 hfm with hfm | hfm
      · exact List.mem_append_left _ hfm
      · exact List.mem_append_right _ (List.mem_cons_of_mem _ hfm)

/-- `get_inter` keeps the entries that survive. -/
theorem getInter_survivors (ha : Apart ks maps len h A) :
    ∃ h', getInter ks maps len h = some h' ∧ Frame maps A h h' ∧
      Represents ks (h'.table (maps 0)) ((A 0).filter fun e => survives ks len A e.key) ∧
        (A 0 = [] → h' = h) := by
  have h0 := ha.rep 0 (Nat.zero_le _)
  obtain ⟨h', hh', hf, hrep⟩ := getInterFrom_spec ha (A 0) (x := []) (n := (A 0).length) h0
    (fun _ hf => hf) ⟨fun _ _ => rfl, fun _ _ => rfl⟩ le_rfl
  refine ⟨h', ?_, hf, hrep, fun hnil => ?_⟩
  · rw [getInter, h0.begin, egHtElements, h0.elements]
    exact hh'
  · rw [hnil] at hh'
    exact (Option.some.inj hh').symm

theorem getInter_intersects (ks : Keys K) (maps : Nat → M) (len : Nat) (h : Heap M K V P)
    (A : Nat → List (Entry K V P)) (ha : Apart ks maps len h A)
    (hkeys : ∀ e ∈ A 0, !ks.isNull e.key) :
    ∃ h', getInter ks maps len h = some h' ∧ Intersected ks maps len A h h' := by
  obtain ⟨h', hrun, hf, hrep, hnil⟩ := getInter_survivors ha
  have hsame : ((A 0).filter fun e => survives ks len A e.key) =
      (A 0).filter fun e => inAll ks len A e.key :=
    List.filter_congr fun e he => survives_eq he (hkeys e he)
  rw [hsame] at hrep
  refine ⟨h', hrun, hf, hrep, hrep.rep.listed.iterators, fun i hi hle => ?_⟩
  by_cases hne : A 0 = []
  · rw [hnil hne]
    exact ⟨rfl, fun _ _ => rfl, ha.rep i hle⟩
  · have hmaps := ha.maps_ne hne hi hle
    exact ⟨hf.header _ hmaps, fun e he => hf.bucket _ (ha.outside hi hle he),
      ha.others hf hi hle hmaps⟩

/-- The entries that three replies leave in three maps. -/
def threeMaps : Nat → List AdEntry
  | 0 => addIds 0 [] [ascii "1", ascii "2", ascii "3", ascii "4"]
  | 1 => addIds 4 [] [ascii "2", ascii "7", ascii "4"]
  | 2 => addIds 7 [] [ascii "4", ascii "9", ascii "2", ascii "2"]
  | _ => []

theorem threeMaps_together : ∃ h : AdHeap, Together egNumKeys h fun m => threeMaps m := by
  have h0 : Stored { Pools.hashInit fun _ => ⟨0, [], none, none, none, none, 0⟩ with mapCur := 3 }
      fun _ => [] :=
    ⟨(Pools.hashInit_empty _).stored.together, by simp, fun _ _ => rfl, by decide⟩
  have y1 := h0.initMap (m := 0) (by decide)
    [some (ascii "1"), some (ascii "2"), some (ascii "3"), some (ascii "4")]
  obtain ⟨p1, hp1⟩ := Option.isSome_iff_exists.1 (y1.defined (by decide))
  obtain ⟨h1, hn1, hc1⟩ := y1.result p1 hp1
  have y2 := h1.initMap (m := 1) (by rw [hc1]; decide)
    [some (ascii "2"), some (ascii "7"), some (ascii "4")]
  obtain ⟨p2, hp2⟩ := Option.isSome_iff_exists.1 (y2.defined (by decide))
  obtain ⟨h2, hn2, hc2⟩ := y2.result p2 hp2
  have y3 := h2.initMap (m := 2) (by rw [hc2, hc1]; decide)
    [some (ascii "4"), some (ascii "9"), some (ascii "2"), some (ascii "2")]
  obtain ⟨p3, hp3⟩ := Option.isSome_iff_exists.1 (y3.defined (by decide))
  obtain ⟨h3, -⟩ := y3.result p3 hp3
  have hn1 : p1.nodeCur = 4 := hn1
  rw [hn1] at hn2 h3
  have hn2 : p2.nodeCur = 7 := hn2
  rw [hn2] at h3
  refine ⟨p3.heap, ?_⟩
  convert h3.together using 1
  funext m
  fin_cases m <;> rfl

/-- Three maps with two keys in common. -/
theorem getInter_intersects_three : ∃ h h' : AdHeap,
    (∀ m : MapId, Represents egNumKeys (h.table m) (threeMaps m)) ∧
      getInter egNumKeys (Fin.ofNat MAP_POOL_SIZE) 2 h = some h' ∧
        Intersected egNumKeys (Fin.ofNat MAP_POOL_SIZE) 2 threeMaps h h' := by
  obtain ⟨h, hh⟩ := threeMaps_together
  have hrep : ∀ i ≤ 2, Represents egNumKeys (h.table (Fin.ofNat MAP_POOL_SIZE i)) (threeMaps i) := by
    intro i hi
    have hr := hh.rep (Fin.ofNat MAP_POOL_SIZE i)
    interval_cases i <;> exact hr
  obtain ⟨h', hrun, hi⟩ := getInter_intersects egNumKeys (Fin.ofNat MAP_POOL_SIZE) 2 h threeMaps
    ⟨hrep, by decide⟩ (by decide)
  exact ⟨h, h', hh.rep, hrun, hi⟩

end Doorhinges.GetAd.Intersection

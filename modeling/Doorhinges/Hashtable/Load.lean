import Doorhinges.Hashtable.Growing
import Doorhinges.Lib.Bisect

/-!
# The load of the growing table

A table with the default callbacks for the size. The size is a prime of the list from the
start, and the chooser called with a prime of the list returns that prime.
-/
namespace Doorhinges.Hashtable.Load

open Lib.Machine
open Lib.Bisect
open Table

def egPrimeList : List Nat :=
  [53, 97, 193, 389, 769, 1543, 3079, 6151, 12289, 24593, 49157, 98317, 196613, 393241, 786433,
    1572869, 3145739, 6291469, 12582917, 25165843, 50331653, 100663319, 201326611, 402653189,
    805306457, 1610612741, 3221225473, 4294967291]

def EG_NUM_PRIMES : Nat := 28

def prime (i : Nat) : Nat := egPrimeList.getD i 0

/-- The largest prime of the list. -/
def lastPrime : Nat := prime (EG_NUM_PRIMES - 1)

def egNextPrime (n : Nat) : Nat := prime (search (fun i => prime i < n) 0 (EG_NUM_PRIMES - 1))

section Primes

variable {i j n : Nat}

theorem prime_lt (h : i < j) (hj : j < EG_NUM_PRIMES) : prime i < prime j := by
  have hsorted : egPrimeList.Pairwise (· < ·) := by decide
  have hlen : egPrimeList.length = EG_NUM_PRIMES := by decide
  have hget := List.pairwise_iff_getElem.1 hsorted i j (by omega) (by omega) h
  rwa [prime, prime, List.getD_eq_getElem?_getD, List.getD_eq_getElem?_getD,
    List.getElem?_eq_getElem (by omega), List.getElem?_eq_getElem (by omega)]

/-- The chooser finds a prime of the list, and before it only smaller numbers than `n`. -/
theorem nextPrime_spec (n : Nat) : ∃ i < EG_NUM_PRIMES, egNextPrime n = prime i ∧
    (∀ j < i, prime j < n) ∧ (i < EG_NUM_PRIMES - 1 → n ≤ prime i) := by
  have hmono : ∀ i j, i ≤ j → j < EG_NUM_PRIMES → decide (prime j < n) = true →
      decide (prime i < n) = true := by
    intro i j hij hj hlow
    rw [decide_eq_true_eq] at hlow ⊢
    rcases Nat.lt_or_eq_of_le hij with h | rfl
    · exact Nat.lt_trans (prime_lt h hj) hlow
    · exact hlow
  obtain ⟨-, hend, hbefore, hat⟩ := @search_spec _ _ hmono 0 (EG_NUM_PRIMES - 1) (by decide)
  refine ⟨_, ?_, rfl, fun j hj => of_decide_eq_true (hbefore j (Nat.zero_le j) hj), fun h => ?_⟩
  · have hnum : EG_NUM_PRIMES = 28 := rfl
    omega
  · exact Nat.not_lt.1 (of_decide_eq_false (hat (by omega)))

/-- A prime of the list is its own next prime. -/
theorem nextPrime_prime (h : i < EG_NUM_PRIMES) : egNextPrime (prime i) = prime i := by
  obtain ⟨j, hj, heq, hbefore, hat⟩ := nextPrime_spec (prime i)
  rcases Nat.lt_trichotomy i j with hlt | rfl | hlt
  · exact absurd (hbefore i hlt) (Nat.lt_irrefl _)
  · exact heq
  · have hnum : EG_NUM_PRIMES = 28 := rfl
    exact absurd (hat (by omega)) (Nat.not_le.2 (prime_lt hlt h))

theorem nextPrime_idem (n : Nat) : egNextPrime (egNextPrime n) = egNextPrime n := by
  obtain ⟨i, hi, heq, -⟩ := nextPrime_spec n
  rw [heq, nextPrime_prime hi]

theorem nextPrime_pos (n : Nat) : 0 < egNextPrime n := by
  obtain ⟨i, hi, heq, -⟩ := nextPrime_spec n
  rw [heq]
  rcases Nat.eq_zero_or_pos i with rfl | hpos
  · decide
  · exact Nat.lt_trans (by decide) (prime_lt hpos hi)

theorem nextPrime_le_last (n : Nat) : egNextPrime n ≤ lastPrime := by
  obtain ⟨i, hi, heq, -⟩ := nextPrime_spec n
  have hnum : EG_NUM_PRIMES = 28 := rfl
  rw [heq, lastPrime]
  rcases Nat.lt_or_eq_of_le (Nat.le_sub_one_of_lt hi) with h | rfl
  · exact (prime_lt h (by omega)).le
  · exact Nat.le_refl _

end Primes

variable {K V P : Type} [DecidableEq P]

/-- `eg_is_resize` and `eg_next_prime`. -/
def defaultSizes : Sizes K V P where
  isResize t := t.size < t.elements
  getNewsize := egNextPrime
  pos := nextPrime_pos

def egHtCreate (size : Nat) (bucket : P → Bucket K V P) : Table K V P :=
  emptyTable (egNextPrime size) bucket

/-- A successful `eg_ht_insert` into the bucket that `malloc` returns. -/
def inserted (ks : Keys K) (t : Table K V P) (x : Entry K V P) : Option (Table K V P) :=
  (egHtInsert ks defaultSizes t x.bucket x.key x.val).bind fun r =>
    if r.2 = 1 then some r.1 else none

/-- The load, while there is a larger prime. -/
def LoadBounded (t : Table K V P) : Prop := t.size < lastPrime → t.elements ≤ t.size + 1

/-- A resize that the call triggers enlarges the table, while there is a larger prime. -/
def Grows (ks : Keys K) (t : Table K V P) (x : Entry K V P) : Prop :=
  defaultSizes.isResize t = true → t.size < lastPrime →
    ∀ u, inserted ks t x = some u → t.size < u.size

section Step

variable {ks : Keys K} {t u : Table K V P} {x : Entry K V P}

theorem rehash_counts {newsize n : Nat} {b : Option P} (h : rehash ks newsize n b t = some u) :
    u.size = t.size ∧ u.elements = t.elements := by
  induction n generalizing t b with
  | zero =>
    cases b with
    | none =>
      obtain rfl := Option.some.inj h
      exact ⟨rfl, rfl⟩
    | some b => cases h
  | succ n ih =>
    cases b with
    | none =>
      obtain rfl := Option.some.inj h
      exact ⟨rfl, rfl⟩
    | some b =>
      have hlink := linkSlot_spec t (ks.hash (t.key b) % newsize) b
      obtain ⟨hsize, hcount⟩ := ih h
      exact ⟨hsize.trans hlink.size, hcount.trans hlink.elements⟩

/-- The last part of an insertion. -/
theorem linked_counts {h : Nat} {b : P} {key : K} {val : V} {r : Table K V P × Nat}
    (hr : (if h < (t.write b fun x => { x with key := key, val := val }).size then
      some (((t.write b fun x => { x with key := key, val := val }).linkSlot h b).linkAll b, 1)
      else none) = some r) : r.1.size = t.size ∧ r.1.elements = t.elements + 1 := by
  split at hr
  · obtain rfl := Option.some.inj hr
    have hfill := fill_spec t b key val
    generalize (t.write b fun x => { x with key := key, val := val }) = v at hfill
    have hslot := linkSlot_spec v h b
    have hall := linkAll_spec (v.linkSlot h b) b
    exact ⟨hall.size.trans (hslot.size.trans hfill.size), by
      rw [hall.elements, hslot.elements, hfill.elements]⟩
  · cases hr

/-- A successful call counts one element more, and takes the size that the chooser names. -/
theorem inserted_counts (h : inserted ks t x = some u) : u.elements = t.elements + 1 ∧
    u.size = if t.size < t.elements then egNextPrime t.size else t.size := by
  obtain ⟨r, hr, hret⟩ := Option.bind_eq_some_iff.1 h
  split at hret
  · rename_i hone
    obtain rfl := Option.some.inj hret
    rw [egHtInsert] at hr
    split at hr
    · obtain rfl := Option.some.inj hr
      cases hone
    · obtain ⟨found, -, hr⟩ := Option.bind_eq_some_iff.1 hr
      cases found with
      | some b =>
        obtain rfl := Option.some.inj hr
        cases hone
      | none =>
        by_cases hres : t.size < t.elements
        · have hresize : (defaultSizes (K := K) (V := V) (P := P)).isResize t = true :=
            decide_eq_true hres
          dsimp only at hr
          rw [if_pos hresize] at hr
          obtain ⟨v, hv, hr⟩ := Option.bind_eq_some_iff.1 hr
          obtain ⟨hvsize, hvcount⟩ := rehash_counts hv
          obtain ⟨hsize, hcount⟩ := linked_counts hr
          rw [if_pos hres, hsize, hcount, hvsize, hvcount]
          exact ⟨rfl, rfl⟩
        · have hresize : ¬ (defaultSizes (K := K) (V := V) (P := P)).isResize t = true := by
            rw [defaultSizes, decide_eq_true_eq]
            exact hres
          dsimp only at hr
          rw [if_neg hresize] at hr
          obtain ⟨hsize, hcount⟩ := linked_counts hr
          rw [if_neg hres]
          exact ⟨hcount, hsize⟩
  · cases hret

end Step

section Run

variable {ks : Keys K} {t u : Table K V P} {x : Entry K V P} {xs : List (Entry K V P)}

theorem inserted_fixed (hfix : egNextPrime t.size = t.size) (h : inserted ks t x = some u) :
    u.size = t.size ∧ u.elements = t.elements + 1 := by
  obtain ⟨hcount, hsize⟩ := inserted_counts h
  rw [hfix, ite_self] at hsize
  exact ⟨hsize, hcount⟩

/-- The size is never changed. -/
theorem run_counts (hfix : egNextPrime t.size = t.size)
    (hrun : run (inserted ks) t xs = some u) :
    u.size = t.size ∧ u.elements = t.elements + xs.length := by
  induction xs generalizing t with
  | nil =>
    obtain rfl := Option.some.inj hrun
    exact ⟨rfl, rfl⟩
  | cons x xs ih =>
    obtain ⟨v, hv, hrun⟩ := Option.bind_eq_some_iff.1 hrun
    obtain ⟨hsize, hcount⟩ := inserted_fixed hfix hv
    rw [← hsize] at hfix ⊢
    obtain ⟨husize, hucount⟩ := ih hfix hrun
    refine ⟨husize, ?_⟩
    rw [hucount, hcount, List.length_cons]
    omega

/-- A run that never fills the table past its size keeps the bound, and triggers no resize. -/
theorem run_bounded (hfix : egNextPrime t.size = t.size)
    (hroom : t.size < lastPrime → t.elements + xs.length ≤ t.size + 1)
    (hrun : run (inserted ks) t xs = some u) :
    Always (inserted ks) LoadBounded t xs ∧ Throughout (inserted ks) (Grows ks) t xs := by
  induction xs generalizing t with
  | nil => exact ⟨hroom, trivial⟩
  | cons x xs ih =>
    obtain ⟨v, hv, hrun⟩ := Option.bind_eq_some_iff.1 hrun
    obtain ⟨hsize, hcount⟩ := inserted_fixed hfix hv
    rw [List.length_cons] at hroom
    obtain ⟨halways, hgrows⟩ := ih (t := v) (by rwa [hsize]) (by omega) hrun
    refine ⟨⟨fun hlt => ?_, v, hv, halways⟩, ⟨fun hres hlt => ?_, fun w hw => ?_⟩⟩
    · have hle := hroom hlt
      omega
    · have hle := hroom hlt
      have hfull : t.size < t.elements := of_decide_eq_true hres
      omega
    · obtain rfl := Option.some.inj (hv.symm.trans hw)
      exact hgrows

/-- The default callbacks keep the load bounded exactly in the runs that never need them. -/
theorem load_bounded_iff (ks : Keys K) (size : Nat) (bucket : P → Bucket K V P)
    (xs : List (Entry K V P)) (hrun : (run (inserted ks) (egHtCreate size bucket) xs).isSome) :
    (Always (inserted ks) LoadBounded (egHtCreate size bucket) xs ∧
      Throughout (inserted ks) (Grows ks) (egHtCreate size bucket) xs) ↔
      xs.length ≤ egNextPrime size + 1 ∨ egNextPrime size = lastPrime := by
  obtain ⟨u, hu⟩ := Option.isSome_iff_exists.1 hrun
  have hfix := nextPrime_idem size
  have hlast : egNextPrime size ≤ lastPrime := nextPrime_le_last size
  constructor
  · rintro ⟨halways, -⟩
    by_cases hbig : egNextPrime size = lastPrime
    · exact .inr hbig
    · obtain ⟨v, hv, hbounded⟩ := halways.at_end
      obtain ⟨hsize, hcount⟩ := run_counts (t := egHtCreate size bucket) hfix hv
      have hle := hbounded (by rw [hsize]; exact Nat.lt_of_le_of_ne hlast hbig)
      rw [hsize, hcount] at hle
      exact .inl (by rwa [show (egHtCreate size bucket).elements = 0 from rfl, Nat.zero_add] at hle)
  · intro hroom
    refine run_bounded hfix (fun hlt => ?_) hu
    have hne : egNextPrime size ≠ lastPrime := Nat.ne_of_lt hlt
    rw [show (egHtCreate size bucket).elements = 0 from rfl, Nat.zero_add]
    exact hroom.resolve_right hne

end Run

section Succeeding

variable {ks : Keys K} {t : Table K V P} {A xs : List (Entry K V P)}

/-- Two calls with other keys and other buckets. -/
def Apart (ks : Keys K) (e f : Entry K V P) : Prop :=
  ¬ ks.compare e.key f.key ∧ e.bucket ≠ f.bucket

/-- Calls with new keys and fresh buckets succeed. -/
theorem run_succeeds (hfix : egNextPrime t.size = t.size) (h : Represents ks t A)
    (hkeys : ∀ e ∈ xs, ¬ ks.isNull e.key) (hapart : (xs ++ A).Pairwise (Apart ks)) :
    (run (inserted ks) t xs).isSome := by
  induction xs generalizing t A with
  | nil => rfl
  | cons x xs ih =>
    obtain ⟨hx, hrest⟩ := List.pairwise_cons.1 hapart
    have hnew : lookup ks A x.key = none :=
      List.find?_eq_none.2 fun e he => (hx e (List.mem_append_right xs he)).1
    have hfresh : x.bucket ∉ A.map (·.bucket) := by
      intro hmem
      obtain ⟨e, he, heq⟩ := List.mem_map.1 hmem
      exact (hx e (List.mem_append_right xs he)).2 heq.symm
    have hslot : Growing.SlotKept ks defaultSizes t (.insert x.bucket x.key x.val) := fun _ _ => by
      show ks.hash x.key % egNextPrime t.size = _
      rw [hfix]
    obtain ⟨u, hu, hr⟩ :=
      Growing.insert_step h (hkeys x List.mem_cons_self) hfresh hslot
    rw [insertEntry, hnew] at hr
    have hstep : inserted ks t x = some u := by
      rw [inserted, hu, hnew]
      rfl
    have hsym : ∀ {e f : Entry K V P}, Apart ks e f → Apart ks f e :=
      fun h => ⟨fun hc => h.1 (ks.symm hc), h.2.symm⟩
    have hnext : (xs ++ x :: A).Pairwise (Apart ks) :=
      (List.perm_middle.pairwise_iff hsym).2 hapart
    have hrun := ih (by rwa [(inserted_fixed hfix hstep).1]) hr
      (fun e he => hkeys e (List.mem_cons_of_mem x he)) hnext
    rw [run, hstep]
    exact hrun

end Succeeding

section Rebuilt

theorem nextPrime_first : egNextPrime 53 = 53 := nextPrime_prime (by decide : 0 < EG_NUM_PRIMES)

def created53 : Table Nat Nat Nat := egHtCreate 53 fun _ => ⟨0, 0, none, none, none, none, 0⟩

/-- Insertions of the keys 1, 2, .. -/
def numbers (n : Nat) : List (Entry Nat Nat Nat) := (List.range n).map fun i => ⟨i, i + 1, 0⟩

theorem numbers_succeed (n : Nat) : (run (inserted egNumKeys) created53 (numbers n)).isSome := by
  have hempty : Represents egNumKeys created53 [] :=
    ⟨rep_empty (nextPrime_pos 53) (fun _ _ => rfl) rfl rfl, by simp, by simp⟩
  refine run_succeeds (nextPrime_idem 53) hempty ?_ ?_
  · intro e he
    obtain ⟨i, -, rfl⟩ := List.mem_map.1 he
    simp [egNumKeys]
  · rw [List.append_nil, numbers, List.pairwise_map]
    refine List.pairwise_lt_range.imp fun {i j} hij => ?_
    simp [Apart, egNumKeys]
    omega

theorem load_bounded_three :
    (Always (inserted egNumKeys) LoadBounded created53 (numbers 3) ∧
      Throughout (inserted egNumKeys) (Grows egNumKeys) created53 (numbers 3)) ↔
      (numbers 3).length ≤ egNextPrime 53 + 1 ∨ egNextPrime 53 = lastPrime :=
  load_bounded_iff egNumKeys 53 _ (numbers 3) (numbers_succeed 3)

/-- The fifty-fifth key finds a table of fifty-four in 53 slots, which is rebuilt with 53. -/
theorem table_never_grows : ¬ ∀ (size : Nat) (bucket : Nat → Bucket Nat Nat Nat)
    (xs : List (Entry Nat Nat Nat)),
    (run (inserted egNumKeys) (egHtCreate size bucket) xs).isSome →
    Always (inserted egNumKeys) LoadBounded (egHtCreate size bucket) xs ∧
      Throughout (inserted egNumKeys) (Grows egNumKeys) (egHtCreate size bucket) xs := by
  intro hclaim
  obtain ⟨t, ht, hbounded⟩ := (hclaim 53 _ (numbers 55) (numbers_succeed 55)).1.at_end
  obtain ⟨hsize, hcount⟩ := run_counts (t := created53) (nextPrime_idem 53) ht
  have hfirst : created53.size = 53 := nextPrime_first
  have hlen : (numbers 55).length = 55 := by rw [numbers, List.length_map, List.length_range]
  have hle := hbounded (by rw [hsize, hfirst]; decide)
  rw [hsize, hcount, hfirst, hlen] at hle
  exact absurd hle (by decide)

end Rebuilt

end Doorhinges.Hashtable.Load

import Doorhinges.Hashtable.Load
import Mathlib.Algebra.Group.Nat.Defs

/-!
# The search for a size

`eg_next_prime` over any increasing table in the place of `eg_prime_list`. A read outside of
the table has no value, and neither has a loop that is not over.
-/
namespace Doorhinges.Hashtable.NextPrime

open Lib.Bisect
open Load (EG_NUM_PRIMES)

/-- A table in the place of `eg_prime_list`. -/
structure PrimeTable where
  entries : List UInt64
  size : entries.length = EG_NUM_PRIMES
  sorted : entries.Pairwise (· < ·)

/-- `*p` for the pointer `i` entries behind the first. -/
def read (table : List UInt64) (i : Int) : Option UInt64 :=
  if 0 ≤ i then table[i.toNat]? else none

/-- The `while` loop and the `return`, for at most `rounds` tests of the condition. -/
def nextPrimeLoop (table : List UInt64) (n : UInt64) : Nat → Int → Int → Option UInt64
  | 0, _, _ => none
  | rounds + 1, f, len =>
    if len > 0 then do
      let half := len >>> (1 : Nat)
      let m := f + half
      let p ← read table m
      if p < n then nextPrimeLoop table n rounds (m + 1) (len - half - 1)
      else nextPrimeLoop table n rounds f half
    else read table f

def egNextPrime (table : List UInt64) (n : UInt64) (rounds : Nat) : Option UInt64 :=
  nextPrimeLoop table n rounds 0 (EG_NUM_PRIMES - 1)

/-- The least entry from `n` on, or the last entry. -/
structure PrimeTable.LowerBound (t : PrimeTable) (n p : UInt64) : Prop where
  mem : p ∈ t.entries
  reaches : ∀ q ∈ t.entries, n ≤ q → n ≤ p ∧ p ≤ q
  last : (∀ q ∈ t.entries, q < n) → t.entries.getLast? = some p

section Loop

variable {table : List UInt64} {n : UInt64}

/-- The entry is there and smaller. -/
def below (table : List UInt64) (n : UInt64) (i : Nat) : Bool := table[i]?.any (· < n)

@[simp] theorem read_natCast (i : Nat) : read table i = table[i]? := by
  rw [read, if_pos (Int.natCast_nonneg i), Int.toNat_natCast]

theorem loop_end (rounds : Nat) (f : Nat) :
    nextPrimeLoop table n (rounds + 1) f 0 = table[f]? := by
  rw [nextPrimeLoop, if_neg (Int.lt_irrefl 0), read_natCast]

/-- A round halves what is left. -/
theorem loop_round {f len : Nat} (hlen : 0 < len) (hfit : f + len ≤ table.length)
    (rounds : Nat) : nextPrimeLoop table n (rounds + 1) f len =
      if below table n (f + len / 2) then
        nextPrimeLoop table n rounds ((f + len / 2 + 1 : Nat) : Int) ((len - len / 2 - 1 : Nat) : Int)
      else nextPrimeLoop table n rounds f ((len / 2 : Nat) : Int) := by
  have hhalf : (len : Int) >>> (1 : Nat) = ((len / 2 : Nat) : Int) := by
    rw [Int.shiftRight_eq_div_pow]
    omega
  have hmid : (f : Int) + ((len / 2 : Nat) : Int) = ((f + len / 2 : Nat) : Int) := by omega
  have hleft : (len : Int) - ((len / 2 : Nat) : Int) - 1 = ((len - len / 2 - 1 : Nat) : Int) := by
    omega
  have hmidlen : f + len / 2 < table.length := by omega
  have hread : table[f + len / 2]? = some table[f + len / 2] :=
    List.getElem?_eq_getElem hmidlen
  rw [nextPrimeLoop, if_pos (by omega)]
  simp only [hhalf, hmid, hleft, read_natCast, hread, Option.bind_eq_bind, Option.bind_some, below,
    Option.any_some, decide_eq_true_eq]
  rfl

/-- The loop ends after as many rounds as the length has binary digits, inside of the table. -/
theorem loop_eq_search {k f len : Nat} (hlen : len < 2 ^ k) (hfit : f + len ≤ table.length)
    (rounds : Nat) : nextPrimeLoop table n (rounds + k + 1) f len =
      table[search (below table n) f len]? := by
  induction k generalizing f len with
  | zero =>
    obtain rfl : len = 0 := by omega
    rw [search, if_pos rfl]
    exact loop_end _ f
  | succ k ih =>
    rw [search]
    by_cases hzero : len = 0
    · subst hzero
      rw [if_pos rfl]
      exact loop_end _ f
    · have hpow : 2 ^ (k + 1) = 2 * 2 ^ k := by rw [Nat.pow_succ, Nat.mul_comm]
      rw [if_neg hzero, ← Nat.add_assoc, loop_round (by omega) hfit]
      by_cases hbelow : below table n (f + len / 2) = true
      · rw [if_pos hbelow, if_pos hbelow]
        apply ih <;> omega
      · rw [if_neg hbelow, if_neg hbelow]
        apply ih <;> omega

end Loop

namespace PrimeTable

variable (t : PrimeTable) (n : UInt64)

/-- The place of the entry that the search returns. -/
def place : Nat := search (below t.entries n) 0 (EG_NUM_PRIMES - 1)

variable {t n} {i j : Nat}

theorem entries_le (hij : i ≤ j) (hj : j < t.entries.length) : t.entries[i] ≤ t.entries[j] := by
  rcases Nat.lt_or_eq_of_le hij with h | rfl
  · apply UInt64.le_of_lt
    exact List.pairwise_iff_getElem.1 t.sorted i j (by omega) hj h
  · exact UInt64.le_refl _

theorem below_iff (hi : i < t.entries.length) : below t.entries n i = true ↔ t.entries[i] < n := by
  rw [below, List.getElem?_eq_getElem hi, Option.any_some, decide_eq_true_eq]

theorem place_lt : t.place n < EG_NUM_PRIMES ∧
    (∀ i (hi : i < t.entries.length), i < t.place n → t.entries[i] < n) ∧
    ∀ hi : t.place n < t.entries.length, t.place n < EG_NUM_PRIMES - 1 →
      n ≤ t.entries[t.place n] := by
  have hsize := t.size
  have hnum : EG_NUM_PRIMES = 28 := rfl
  have hmono : ∀ i j, i ≤ j → j < t.entries.length → below t.entries n j = true →
      below t.entries n i = true := by
    intro i j hij hj hlow
    rw [below_iff hj] at hlow
    rw [below_iff (by omega)]
    exact UInt64.lt_of_le_of_lt (entries_le hij hj) hlow
  obtain ⟨-, hend, hbefore, hat⟩ :=
    @search_spec _ _ hmono 0 (EG_NUM_PRIMES - 1) (by omega)
  refine ⟨?_, fun i hi hlt => ?_, fun hi hlt => ?_⟩
  · rw [place]
    omega
  · exact (below_iff hi).1 (hbefore i (Nat.zero_le i) hlt)
  · have hfalse := hat (by rwa [Nat.zero_add])
    apply UInt64.not_lt.1
    intro hlow
    rw [← below_iff hi, place, hfalse] at hlow
    cases hlow

theorem place_lowerBound (hi : t.place n < t.entries.length) :
    t.LowerBound n t.entries[t.place n] := by
  have hsize := t.size
  have hnum : EG_NUM_PRIMES = 28 := rfl
  obtain ⟨hplace, hbefore, hat⟩ := place_lt (t := t) (n := n)
  refine ⟨List.getElem_mem hi, fun q hq hle => ?_, fun hall => ?_⟩
  · obtain ⟨j, hj, rfl⟩ := List.mem_iff_getElem.1 hq
    have hij : t.place n ≤ j := by
      by_contra hlt
      exact UInt64.not_le.2 (hbefore j hj (by omega)) hle
    refine ⟨?_, entries_le hij hj⟩
    by_cases hlast : t.place n < EG_NUM_PRIMES - 1
    · exact hat hi hlast
    · have heq : t.place n = j := by omega
      simpa only [heq] using hle
  · have hlast : t.place n = t.entries.length - 1 := by
      by_contra hne
      have hle := hat hi (by omega)
      exact UInt64.not_le.2 (hall _ (List.getElem_mem hi)) hle
    rw [List.getLast?_eq_getElem?, ← hlast, List.getElem?_eq_getElem hi]

/-- Six tests of the condition are enough. -/
theorem egNextPrime_eq (rounds : Nat) :
    egNextPrime t.entries n (rounds + 6) = t.entries[t.place n]? := by
  have hdigits : EG_NUM_PRIMES - 1 < 2 ^ 5 := by decide
  have hfit : 0 + (EG_NUM_PRIMES - 1) ≤ t.entries.length := by
    rw [t.size]
    decide
  exact loop_eq_search hdigits hfit rounds

end PrimeTable

/-- Over any table the search ends with the least entry from `n` on, or the last one. -/
theorem next_prime_lower_bound (t : PrimeTable) (n : UInt64) :
    ∃ p, t.LowerBound n p ∧ ∀ rounds, egNextPrime t.entries n (rounds + 6) = some p := by
  have hi : t.place n < t.entries.length := by
    rw [t.size]
    exact PrimeTable.place_lt.1
  refine ⟨_, PrimeTable.place_lowerBound hi, fun rounds => ?_⟩
  rw [PrimeTable.egNextPrime_eq, List.getElem?_eq_getElem hi]

/-- `eg_prime_list`. -/
def egPrimeTable : PrimeTable where
  entries := Load.egPrimeList.map UInt64.ofNat
  size := by decide
  sorted := by decide

section Refinement

variable {n : UInt64} {i : Nat}

theorem entries_toNat (hi : i < egPrimeTable.entries.length) :
    egPrimeTable.entries[i].toNat = Load.prime i := by
  have hlong : ∀ p ∈ Load.egPrimeList, p < 2 ^ 64 := by decide
  have hi' : i < Load.egPrimeList.length := by
    simpa only [egPrimeTable, List.length_map] using hi
  calc egPrimeTable.entries[i].toNat
      = (UInt64.ofNat Load.egPrimeList[i]).toNat := congrArg UInt64.toNat (List.getElem_map _)
    _ = Load.egPrimeList[i] := UInt64.toNat_ofNat_of_lt' (hlong _ (List.getElem_mem hi'))
    _ = Load.prime i := by
      rw [Load.prime, List.getD_eq_getElem?_getD, List.getElem?_eq_getElem hi', Option.getD_some]

/-- Over `eg_prime_list` this is the chooser of the growing table. -/
theorem egNextPrime_toNat (n : UInt64) (rounds : Nat) :
    (egNextPrime egPrimeTable.entries n (rounds + 6)).map UInt64.toNat =
      some (Load.egNextPrime n.toNat) := by
  have hsize := egPrimeTable.size
  have hlow : ∀ i < EG_NUM_PRIMES,
      below egPrimeTable.entries n i = decide (Load.prime i < n.toNat) := by
    intro i hi
    have hi' : i < egPrimeTable.entries.length := by omega
    rw [Bool.eq_iff_iff, PrimeTable.below_iff hi', decide_eq_true_eq, UInt64.lt_iff_toNat_lt,
      entries_toNat hi']
  have hplace : egPrimeTable.place n =
      search (fun i => decide (Load.prime i < n.toNat)) 0 (EG_NUM_PRIMES - 1) :=
    search_congr fun i _ hi => hlow i (by omega)
  have hi : egPrimeTable.place n < egPrimeTable.entries.length := by
    rw [hsize]
    exact PrimeTable.place_lt.1
  rw [PrimeTable.egNextPrime_eq, List.getElem?_eq_getElem hi, Option.map_some, entries_toNat hi,
    Load.egNextPrime, hplace]

end Refinement

end Doorhinges.Hashtable.NextPrime

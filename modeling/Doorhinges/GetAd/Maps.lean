import Doorhinges.Hashtable.Pooled
import Doorhinges.Lib.Decimal

/-!
# The maps of get_ad

The loops of `get_ad` over its pooled tables of ad ids, with the id as a number for key
and its text for value. The buckets are those of the node pool, in its order. A result
`none` is a null pointer that is read.
-/
namespace Doorhinges.GetAd

open Lib.CString
open Hashtable

abbrev AdMap := Table Nat Bytes Nat
abbrev AdEntry := Entry Nat Bytes Nat

def NODE_POOL_SIZE : Nat := 4000

/-- `eg_next_prime(AD_SIZE)`. -/
def MAP_SIZE : Nat := 193

/-- A map of the pool; the nodes hold what earlier requests left in them. -/
def getHtMap (nodes : Nat → Bucket Nat Bytes Nat) : AdMap := emptyTable MAP_SIZE nodes

/-- `key = atoi(str)` as `unsigned long`. -/
def idKey (str : Bytes) : Nat := (atoi str % 2 ^ 64).toNat

/-- The node `cur` of the pool goes into the map. -/
def insertId (cur : Nat) (m : AdMap) (str : Bytes) : Option AdMap :=
  htInsertBucket egNumKeys (m.write cur fun x => { x with key := idKey str, val := str }) cur

/-- `init_map`, which returns where the pool is exhausted. -/
def initMap (cur : Nat) (m : AdMap) : List (Option Bytes) → Option (Nat × AdMap)
  | [] => some (cur, m)
  | e :: es =>
    if NODE_POOL_SIZE ≤ cur then some (cur, m)
    else do
      let str ← e
      let m ← insertId cur m str
      initMap (cur + 1) m es

/-- The inner loop of `get_inter`: one of the other maps lacks the key. -/
def lacks (key : Nat) : List AdMap → Option Bool
  | [] => some false
  | m :: ms => do
    match ← egHtFind egNumKeys m key with
    | none => some true
    | some _ => lacks key ms

/-- The outer loop, from an iterator on; a map of `n` elements ends it after `n` rounds. -/
def getInterFrom (others : List AdMap) : Nat → AdMap → Option Nat → Option AdMap
  | _, m, none => some m
  | 0, _, some _ => none
  | n + 1, m, some it => do
    if ← lacks (m.key it) others then
      let r := htEraseBucket m it
      getInterFrom others n r.1 r.2
    else getInterFrom others n m (egHtNext m it)

def getInter (m : AdMap) (others : List AdMap) : Option AdMap :=
  getInterFrom others (egHtElements m) m (egHtBegin m)

/-- The ids of a reply are removed. -/
def removeIds (m : AdMap) : List (Option Bytes) → Option AdMap
  | [] => some m
  | e :: es => do
    let str ← e
    let m ← htRemoveBucket egNumKeys m (idKey str)
    removeIds m es

/-- `n` calls of `eg_ht_next`. -/
def skip (m : AdMap) : Nat → Option Nat → Option (Option Nat)
  | 0, it => some it
  | _ + 1, none => none
  | n + 1, some it => skip m n (egHtNext m it)

/-- The texts of the next `n` buckets. -/
def take (m : AdMap) : Nat → Option Nat → Option (List Bytes)
  | 0, _ => some []
  | _ + 1, none => none
  | n + 1, some it => (take m n (egHtNext m it)).map (m.val it :: ·)

/-- The texts in the order of the traversal. -/
def texts (m : AdMap) : Option (List Bytes) := take m (egHtElements m) (egHtBegin m)

/-- A canonical ad id. -/
def IsId (str : Bytes) : Prop := ∃ n, 1 ≤ n ∧ n < 2 ^ 31 ∧ str = decimalNat n

theorem idKey_decimalNat {n : Nat} (h : n < 2 ^ 31) : idKey (decimalNat n) = n := by
  rw [idKey, atoi_decimalNat h]
  omega

theorem IsId.key_pos {str : Bytes} (h : IsId str) : idKey str ≠ 0 := by
  obtain ⟨n, hn, hlt, rfl⟩ := h
  rw [idKey_decimalNat hlt]
  omega

theorem IsId.eq {s t : Bytes} (hs : IsId s) (ht : IsId t) (h : idKey s = idKey t) : s = t := by
  obtain ⟨n, -, hn, rfl⟩ := hs
  obtain ⟨m, -, hm, rfl⟩ := ht
  rw [idKey_decimalNat hn, idKey_decimalNat hm] at h
  rw [h]

/-- A map stands for a list of entries from the pool, each under the number of its text. -/
structure Holds (cur : Nat) (m : AdMap) (A : List AdEntry) : Prop where
  rep : Represents egNumKeys m A
  used : ∀ e ∈ A, e.bucket < cur
  keys : ∀ e ∈ A, e.key = idKey e.val
  ids : ∀ e ∈ A, IsId e.val

def hasKey (A : List AdEntry) (key : Nat) : Bool := (lookup egNumKeys A key).isSome

theorem hasKey_iff {A : List AdEntry} {key : Nat} : hasKey A key ↔ ∃ e ∈ A, e.key = key := by
  rw [hasKey, lookup, List.find?_isSome]
  simp [egNumKeys, eq_comm]

section Holds

variable {cur : Nat} {m : AdMap} {A : List AdEntry}

theorem Holds.mono (h : Holds cur m A) {n : Nat} (hn : cur ≤ n) : Holds n m A :=
  ⟨h.rep, fun e he => (h.used e he).trans_le hn, h.keys, h.ids⟩

theorem holds_empty (nodes : Nat → Bucket Nat Bytes Nat) : Holds cur (getHtMap nodes) [] :=
  ⟨Pooled.empty_represents (by decide) nodes, by simp, by simp, by simp⟩

theorem Holds.elements (h : Holds cur m A) : egHtElements m = A.length := h.rep.elements

theorem Holds.empty (h : Holds cur m A) : egHtEmpty m = A.isEmpty := by
  rw [egHtEmpty, h.rep.elements]
  cases A <;> simp

theorem Holds.key_ne (h : Holds cur m A) {e : AdEntry} (he : e ∈ A) : e.key ≠ 0 := by
  rw [h.keys e he]
  exact (h.ids e he).key_pos

/-- No two entries have the same id. -/
theorem Holds.distinct (h : Holds cur m A) : A.Pairwise fun e f => e.key ≠ f.key := by
  have hkeys := List.pairwise_map.1 h.rep.rep.keys
  refine hkeys.imp_of_mem fun {e f} he hf hne => ?_
  rw [h.rep.key e he, h.rep.key f hf] at hne
  simpa [egNumKeys] using hne

theorem Holds.nodup (h : Holds cur m A) : (A.map (·.val)).Nodup := by
  refine List.pairwise_map.2 (h.distinct.imp_of_mem fun {e f} he hf hne hv => hne ?_)
  rw [h.keys e he, h.keys f hf, hv]

theorem Holds.find (h : Holds cur m A) {key : Nat} (hkey : key ≠ 0) :
    egHtFind egNumKeys m key = some ((lookup egNumKeys A key).map (·.bucket)) := by
  rw [h.rep.find, if_neg]
  simpa [egNumKeys] using hkey

theorem mem_insertEntry {e f : AdEntry} (h : e ∈ insertEntry egNumKeys A f) : e = f ∨ e ∈ A := by
  rw [insertEntry] at h
  split at h
  · exact Or.inr h
  · exact List.mem_cons.1 h

theorem hasKey_insertEntry (f : AdEntry) (key : Nat) :
    hasKey (insertEntry egNumKeys A f) key ↔ key = f.key ∨ hasKey A key := by
  rw [insertEntry]
  split
  · rename_i hf
    exact ⟨Or.inr, fun h => h.elim (fun h => h ▸ hf) id⟩
  · rw [hasKey_iff, hasKey_iff]
    simp [eq_comm]

theorem Holds.insert (h : Holds cur m A) {str : Bytes} (hs : IsId str) :
    ∃ m', insertId cur m str = some m' ∧
      Holds (cur + 1) m' (insertEntry egNumKeys A ⟨cur, idKey str, str⟩) := by
  have hfresh : cur ∉ A.map (·.bucket) := fun hc => by
    obtain ⟨e, he, hb⟩ := List.mem_map.1 hc
    exact absurd (h.used e he) (by omega)
  obtain ⟨m', hm', hrep⟩ := Pooled.insert_step h.rep (idKey str) str hfresh
  refine ⟨m', hm', hrep, fun e he => ?_, fun e he => ?_, fun e he => ?_⟩
  · rcases mem_insertEntry he with rfl | he
    · exact Nat.lt_succ_self _
    · exact (h.used e he).trans (Nat.lt_succ_self _)
  · rcases mem_insertEntry he with rfl | he
    · rfl
    · exact h.keys e he
  · rcases mem_insertEntry he with rfl | he
    · exact hs
    · exact h.ids e he

/-- Fewer entries are still entries of the pool. -/
theorem Holds.sub (h : Holds cur m A) {m' : AdMap} {B : List AdEntry}
    (hrep : Represents egNumKeys m' B) (hB : ∀ e ∈ B, e ∈ A) : Holds cur m' B :=
  ⟨hrep, fun e he => h.used e (hB e he), fun e he => h.keys e (hB e he),
    fun e he => h.ids e (hB e he)⟩

theorem Holds.remove (h : Holds cur m A) (str : Bytes) :
    ∃ m', htRemoveBucket egNumKeys m (idKey str) = some m' ∧
      Holds cur m' (A.filter fun e => e.key ≠ idKey str) := by
  obtain ⟨m', hm', hrep⟩ := Pooled.remove_step h.rep (idKey str)
  have hlist : (if egNumKeys.isNull (idKey str) then A else removeKey egNumKeys A (idKey str)) =
      A.filter fun e => e.key ≠ idKey str := by
    split
    · rename_i hnull
      have hzero : idKey str = 0 := by simpa [egNumKeys] using hnull
      refine (List.filter_eq_self.2 fun e he => ?_).symm
      simpa [hzero] using h.key_ne he
    · refine List.filter_congr fun e _ => ?_
      simp [egNumKeys, eq_comm]
  rw [hlist] at hrep
  exact ⟨m', hm', h.sub hrep fun e he => (List.mem_filter.1 he).1⟩

end Holds

/-- The elements of a reply are canonical ids. -/
def Ids (es : List (Option Bytes)) : Prop := ∀ e ∈ es, ∃ str, e = some str ∧ IsId str

/-- The elements for which the pool still has nodes. -/
def fitting (cur : Nat) (es : List (Option Bytes)) : List (Option Bytes) :=
  es.take (NODE_POOL_SIZE - cur)

/-- What `init_map` makes of a map: the old entries and those of the reply that fit. -/
structure Inited (cur : Nat) (A : List AdEntry) (es : List (Option Bytes)) (r : Nat × AdMap)
    (B : List AdEntry) : Prop where
  holds : Holds r.1 r.2 B
  cur_eq : r.1 = cur + (fitting cur es).length
  mem : ∀ e ∈ B, e ∈ A ∨ some e.val ∈ fitting cur es
  all : ∀ key, hasKey A key ∨ (∃ str, some str ∈ fitting cur es ∧ idKey str = key) →
    hasKey B key

theorem fitting_cons {cur : Nat} (h : cur < NODE_POOL_SIZE) (e : Option Bytes)
    (es : List (Option Bytes)) : fitting cur (e :: es) = e :: fitting (cur + 1) es := by
  rw [fitting, fitting, show NODE_POOL_SIZE - cur = NODE_POOL_SIZE - (cur + 1) + 1 by omega,
    List.take_succ_cons]

theorem initMap_spec {cur : Nat} {m : AdMap} {A : List AdEntry} (h : Holds cur m A)
    {es : List (Option Bytes)} (hes : Ids es) :
    ∃ r B, initMap cur m es = some r ∧ Inited cur A es r B := by
  induction es generalizing cur m A with
  | nil =>
    exact ⟨(cur, m), A, rfl, h, by simp [fitting], fun e he => Or.inl he,
      fun key hk => hk.elim id fun ⟨_, hs, _⟩ => by simp [fitting] at hs⟩
  | cons e es ih =>
    obtain ⟨⟨str, rfl, hstr⟩, hrest⟩ := List.forall_mem_cons.1 hes
    rw [initMap]
    split
    · rename_i hfull
      have hnil : fitting cur (some str :: es) = [] := by
        rw [fitting, Nat.sub_eq_zero_of_le hfull, List.take_zero]
      refine ⟨(cur, m), A, rfl, h, by rw [hnil]; rfl, fun e he => Or.inl he, fun key hk => ?_⟩
      rw [hnil] at hk
      exact hk.elim id fun ⟨_, hs, _⟩ => absurd hs List.not_mem_nil
    · rename_i hroom
      obtain ⟨m', hm', hins⟩ := h.insert hstr
      obtain ⟨r, B, hr, hB⟩ := ih hins hrest
      rw [Nat.not_le] at hroom
      refine ⟨r, B, by simp [hm', hr], hB.holds, ?_, fun e he => ?_, fun key hk => ?_⟩
      · rw [hB.cur_eq, fitting_cons hroom, List.length_cons]
        omega
      · rw [fitting_cons hroom]
        rcases hB.mem e he with he | he
        · rcases mem_insertEntry he with rfl | he
          · exact Or.inr List.mem_cons_self
          · exact Or.inl he
        · exact Or.inr (List.mem_cons_of_mem _ he)
      · rw [fitting_cons hroom] at hk
        refine hB.all key ?_
        rw [hasKey_insertEntry]
        rcases hk with hk | ⟨s, hs, hkey⟩
        · exact Or.inl (Or.inr hk)
        · rcases List.mem_cons.1 hs with hs | hs
          · obtain rfl := Option.some.inj hs
            exact Or.inl (Or.inl hkey.symm)
          · exact Or.inr ⟨s, hs, hkey⟩

/-- A new map holds exactly the ids of the reply that fit. -/
theorem initMap_new (nodes : Nat → Bucket Nat Bytes Nat) (cur : Nat) {es : List (Option Bytes)}
    (hes : Ids es) :
    ∃ r B, initMap cur (getHtMap nodes) es = some r ∧ Holds r.1 r.2 B ∧
      r.1 = cur + (fitting cur es).length ∧
        ∀ str, (∃ e ∈ B, e.val = str) ↔ some str ∈ fitting cur es := by
  obtain ⟨r, B, hr, hB⟩ := initMap_spec (holds_empty nodes) hes
  refine ⟨r, B, hr, hB.holds, hB.cur_eq, fun str => ⟨?_, fun hs => ?_⟩⟩
  · rintro ⟨e, he, rfl⟩
    exact (hB.mem e he).resolve_left List.not_mem_nil
  · obtain ⟨e, he, hkey⟩ := hasKey_iff.1 (hB.all _ (Or.inr ⟨str, hs, rfl⟩))
    obtain ⟨t, ht, hid⟩ := hes _ (List.mem_of_mem_take hs)
    obtain rfl := Option.some.inj ht
    rw [hB.holds.keys e he] at hkey
    exact ⟨e, he, (hB.holds.ids e he).eq hid hkey⟩

theorem removeIds_spec {cur : Nat} {m : AdMap} {A : List AdEntry} (h : Holds cur m A)
    {es : List (Option Bytes)} (hes : Ids es) :
    ∃ m', removeIds m es = some m' ∧ Holds cur m' (A.filter fun e => some e.val ∉ es) := by
  induction es generalizing m A with
  | nil => exact ⟨m, rfl, by simpa using h⟩
  | cons e es ih =>
    obtain ⟨⟨str, rfl, hstr⟩, hrest⟩ := List.forall_mem_cons.1 hes
    obtain ⟨m₁, hm₁, h₁⟩ := h.remove str
    obtain ⟨m₂, hm₂, h₂⟩ := ih h₁ hrest
    refine ⟨m₂, by simp [removeIds, hm₁, hm₂], ?_⟩
    rw [List.filter_filter] at h₂
    have hsame : (A.filter fun e => some e.val ∉ some str :: es) =
        A.filter fun e => decide (some e.val ∉ es) && decide (e.key ≠ idKey str) := by
      refine List.filter_congr fun e he => ?_
      have hkey : e.key = idKey str ↔ e.val = str := by
        rw [h.keys e he]
        exact ⟨fun hk => (h.ids e he).eq hstr hk, fun hv => hv ▸ rfl⟩
      simp [hkey, Bool.and_comm]
    rw [hsame]
    exact h₂

section Walk

variable {cur : Nat} {m : AdMap} {x y : List AdEntry} {e : AdEntry}

/-- The iterator at the front of a list of entries. -/
def front (A : List AdEntry) : Option Nat := A.head?.map (·.bucket)

theorem Holds.begin {A : List AdEntry} (h : Holds cur m A) : egHtBegin m = front A := by
  rw [egHtBegin, h.rep.rep.listed.tlist, List.head?_map, front]

theorem Holds.next (h : Holds cur m (x ++ e :: y)) : egHtNext m e.bucket = front y := by
  have hlinks := h.rep.rep.listed.links
  rw [List.map_append, List.map_cons] at hlinks
  rw [egHtNext, hlinks.neighbours.1, List.head?_map, front]

theorem Holds.key_eq (h : Holds cur m (x ++ e :: y)) : m.key e.bucket = e.key :=
  h.rep.key e (by simp)

theorem Holds.val_eq (h : Holds cur m (x ++ e :: y)) : m.val e.bucket = e.val :=
  h.rep.val e (by simp)

theorem Holds.erase (h : Holds cur m (x ++ e :: y)) :
    Holds cur (htEraseBucket m e.bucket).1 (x ++ y) ∧
      (htEraseBucket m e.bucket).2 = front y := by
  have hnd := h.rep.nodup
  rw [List.map_append, List.map_cons] at hnd
  have hlist : eraseBucket (x ++ e :: y) e.bucket = x ++ y := by
    have hx : ∀ f ∈ x, f.bucket ≠ e.bucket := fun f hf hfe =>
      (List.nodup_append.1 hnd).2.2 _ (List.mem_map_of_mem hf) _ List.mem_cons_self hfe
    have hy : ∀ f ∈ y, f.bucket ≠ e.bucket := fun f hf hfe =>
      (List.nodup_cons.1 (List.nodup_append.1 hnd).2.1).1 (hfe ▸ List.mem_map_of_mem hf)
    rw [eraseBucket, List.filter_append, List.filter_cons_of_neg (by simp),
      List.filter_eq_self.2 (by simpa using hx), List.filter_eq_self.2 (by simpa using hy)]
  have hrep := h.rep.unlink (b := e.bucket) (by simp)
  rw [hlist] at hrep
  refine ⟨h.sub hrep fun f hf => ?_, h.next⟩
  rcases List.mem_append.1 hf with hf | hf
  · exact List.mem_append_left _ hf
  · exact List.mem_append_right _ (List.mem_cons_of_mem _ hf)

/-- The maps of the list stand for the lists of entries, in order. -/
abbrev HoldAll (cur : Nat) : List AdMap → List (List AdEntry) → Prop := List.Forall₂ (Holds cur)

theorem lacks_spec {others : List AdMap} {Bs : List (List AdEntry)} (h : HoldAll cur others Bs)
    {key : Nat} (hkey : key ≠ 0) :
    lacks key others = some (!Bs.all fun B => hasKey B key) := by
  induction h with
  | nil => rfl
  | @cons o B others Bs ho _ ih =>
    rw [lacks, ho.find hkey]
    cases hl : lookup egNumKeys B key with
    | none => simp [hasKey, hl]
    | some f => simp [hasKey, hl, ih]

theorem getInterFrom_spec {others : List AdMap} {Bs : List (List AdEntry)}
    (ho : HoldAll cur others Bs) (y : List AdEntry) {x : List AdEntry} {m : AdMap} {n : Nat}
    (h : Holds cur m (x ++ y)) (hn : y.length ≤ n) :
    ∃ m', getInterFrom others n m (front y) = some m' ∧
      Holds cur m' (x ++ y.filter fun e => Bs.all fun B => hasKey B e.key) := by
  induction y generalizing x m n with
  | nil => exact ⟨m, by cases n <;> rfl, h⟩
  | cons e y ih =>
    obtain ⟨n, rfl⟩ : ∃ k, n = k + 1 := ⟨n - 1, by rw [List.length_cons] at hn; omega⟩
    rw [List.length_cons] at hn
    have hlacks := lacks_spec ho (h.key_ne (e := e) (by simp))
    have hstep : getInterFrom others (n + 1) m (front (e :: y)) =
        if Bs.all fun B => hasKey B e.key then getInterFrom others n m (front y)
        else getInterFrom others n (htEraseBucket m e.bucket).1 (front y) := by
      rw [front, List.head?_cons, Option.map_some, getInterFrom, h.key_eq, hlacks, h.next]
      cases Bs.all fun B => hasKey B e.key with
      | true => rfl
      | false =>
        show getInterFrom others n _ (htEraseBucket m e.bucket).2 = _
        rw [h.erase.2]
        rfl
    rw [hstep, List.filter_cons]
    by_cases hall : Bs.all fun B => hasKey B e.key
    · rw [if_pos hall, if_pos hall]
      obtain ⟨m', hm', hh⟩ := ih (x := x ++ [e]) (by simpa using h) (Nat.le_of_succ_le_succ hn)
      exact ⟨m', hm', by simpa using hh⟩
    · rw [if_neg hall, if_neg hall]
      exact ih h.erase.1 (Nat.le_of_succ_le_succ hn)

/-- `get_inter` keeps the entries whose key every other map has. -/
theorem getInter_spec {others : List AdMap} {Bs : List (List AdEntry)}
    (ho : HoldAll cur others Bs) {A : List AdEntry} (h : Holds cur m A) :
    ∃ m', getInter m others = some m' ∧
      Holds cur m' (A.filter fun e => Bs.all fun B => hasKey B e.key) := by
  rw [getInter, h.begin, h.elements]
  exact getInterFrom_spec ho A (x := []) h le_rfl

theorem skip_spec (n : Nat) {x y : List AdEntry} (h : Holds cur m (x ++ y)) (hn : n ≤ y.length) :
    skip m n (front y) = some (front (y.drop n)) := by
  induction n generalizing x y with
  | zero => rfl
  | succ n ih =>
    cases y with
    | nil => simp at hn
    | cons e y =>
      rw [front, List.head?_cons, Option.map_some, skip, h.next, List.drop_succ_cons]
      exact ih (x := x ++ [e]) (by simpa using h) (by simpa using hn)

theorem take_spec (n : Nat) {x y : List AdEntry} (h : Holds cur m (x ++ y)) (hn : n ≤ y.length) :
    take m n (front y) = some ((y.take n).map (·.val)) := by
  induction n generalizing x y with
  | zero => rfl
  | succ n ih =>
    cases y with
    | nil => simp at hn
    | cons e y =>
      rw [front, List.head?_cons, Option.map_some, take, h.next, h.val_eq, List.take_succ_cons,
        ih (x := x ++ [e]) (by simpa using h) (by simpa using hn)]
      rfl

theorem texts_spec {A : List AdEntry} (h : Holds cur m A) : texts m = some (A.map (·.val)) := by
  rw [texts, h.begin, h.elements, take_spec A.length (x := []) h le_rfl, List.take_length]

end Walk

end Doorhinges.GetAd

import Doorhinges.BlockingList.Model
import Doorhinges.Lib.Links

/-!
# The operations of the blocking list

The list from the head to the end holds the queued data in order. A push of a datum
that is not queued appends it, a pop takes the first.
-/
namespace Doorhinges.BlockingList

open Lib.Links

variable {P : Type}

/-- The list from the head to the end holds `queue`. -/
structure Represents (l : XList P) (queue : List P) : Prop where
  head : l.head = queue.head?
  tail : queue ≠ [] → l.tail = queue.getLast?
  path : Path l.next queue none
  nodup : queue.Nodup
  len : l.len.toNat = queue.length
  bound : l.len ≤ l.maxLen

theorem represents_create (maxLen : UInt64) (next : P → Option P) :
    Represents (xListCreate maxLen next) [] :=
  ⟨rfl, fun h => absurd rfl h, trivial, List.nodup_nil, rfl, UInt64.zero_le⟩

/-- A pop takes the first datum and tells an empty list. -/
theorem Represents.pop {l : XList P} {queue : List P} (h : Represents l queue) :
    l.pop.2 = queue.head? ∧ Represents l.pop.1 queue.tail ∧
      l.pop.1.maxLen = l.maxLen ∧ l.pop.1.sem = l.sem := by
  cases queue with
  | nil =>
    have hpop : l.pop = (l, none) := by simp [XList.pop, h.head]
    rw [hpop]
    exact ⟨rfl, h, rfl, rfl⟩
  | cons d queue =>
    have hpop : l.pop = ({ l with len := l.len - 1, head := l.next d }, some d) := by
      simp [XList.pop, h.head]
    have hlen : l.len.toNat = queue.length + 1 := h.len
    have hone : (1 : UInt64) ≤ l.len := by
      rw [UInt64.le_iff_toNat_le, hlen]
      exact Nat.le_add_left _ _
    have hsub : (l.len - 1).toNat = queue.length := by
      rw [UInt64.toNat_sub_of_le _ _ hone, hlen]
      rfl
    rw [hpop]
    refine ⟨rfl, ⟨?_, ?_, h.path.2, h.nodup.of_cons, hsub, ?_⟩, rfl, rfl⟩
    · have hnext : l.next d = queue.head?.or none := h.path.1
      simpa using hnext
    · intro hne
      have hlast : (d :: queue).getLast? = queue.getLast? := List.getLast?_cons_of_ne_nil hne
      exact (h.tail (List.cons_ne_nil d queue)).trans hlast
    · have hbound := UInt64.le_iff_toNat_le.mp h.bound
      apply UInt64.le_iff_toNat_le.mpr
      show (l.len - 1).toNat ≤ l.maxLen.toNat
      omega

theorem semPost_same (l : XList P) : l.semPost.head = l.head ∧ l.semPost.tail = l.tail ∧
    l.semPost.next = l.next ∧ l.semPost.len = l.len ∧ l.semPost.maxLen = l.maxLen := by
  unfold XList.semPost
  split <;> exact ⟨rfl, rfl, rfl, rfl, rfl⟩

theorem semPost_le (l : XList P) : l.semPost.sem ≤ l.sem + 1 := by
  unfold XList.semPost
  split
  · exact le_rfl
  · exact Nat.le_add_right _ _

section Push

variable [DecidableEq P]

theorem append_head (l : XList P) (data : P) : (l.append data).head = l.head.or (some data) := by
  unfold XList.append
  cases l.head <;> simp

theorem append_tail (l : XList P) (data : P) : (l.append data).tail = some data := by
  unfold XList.append
  split <;> rfl

theorem append_next {l : XList P} {queue : List P} (h : Represents l queue) (data : P) (p : P)
    (hp : p ≠ data) (hlast : queue.getLast? ≠ some p) : (l.append data).next p = l.next p := by
  unfold XList.append
  cases hq : queue with
  | nil => simp [h.head, hq, hp]
  | cons d rest =>
    have hne : queue ≠ [] := by simp [hq]
    have htail := h.tail hne
    have hhead : l.head = some d := by rw [h.head, hq]; rfl
    obtain ⟨t, ht⟩ : ∃ t, queue.getLast? = some t := ⟨_, List.getLast?_eq_some_getLast hne⟩
    have hpt : p ≠ t := by
      intro heq
      rw [ht, heq] at hlast
      exact hlast rfl
    rw [ht] at htail
    simp [hhead, htail, hp, hpt]

theorem append_next_data {l : XList P} {queue : List P} (h : Represents l queue) {data : P}
    (hd : data ∉ queue) : (l.append data).next data = none := by
  unfold XList.append
  cases hq : queue with
  | nil => simp [h.head, hq]
  | cons d rest =>
    have hne : queue ≠ [] := by simp [hq]
    have hhead : l.head = some d := by rw [h.head, hq]; rfl
    have ht := List.getLast?_eq_some_getLast hne
    have hdt : data ≠ queue.getLast hne := fun heq => hd (heq ▸ List.getLast_mem hne)
    rw [← h.tail hne] at ht
    simp [hhead, ht, hdt]

theorem append_next_last {l : XList P} {queue : List P} (h : Represents l queue) {data p : P}
    (hlast : queue.getLast? = some p) : (l.append data).next p = some data := by
  have hne : queue ≠ [] := by
    intro hq
    rw [hq] at hlast
    cases hlast
  obtain ⟨d, rest, rfl⟩ := List.exists_cons_of_ne_nil hne
  have hhead : l.head = some d := h.head
  have htail : l.tail = some p := (h.tail hne).trans hlast
  simp [XList.append, hhead, htail]

/-- The new datum is linked in behind the last. -/
theorem path_append_data {l : XList P} {queue : List P} (h : Represents l queue) {data : P}
    (hd : data ∉ queue) : Path (l.append data).next (queue ++ [data]) none := by
  have hlink : ∀ qs, qs <:+ queue → Path l.next qs none →
      Path (l.append data).next qs (some data) := by
    intro qs
    induction qs with
    | nil => intro _ _; trivial
    | cons q qs ih =>
      intro hqs hpath
      refine ⟨?_, ih ((List.suffix_cons q qs).trans hqs) hpath.2⟩
      obtain ⟨pre, hpre⟩ := hqs
      by_cases hnil : qs = []
      · subst hnil
        rw [append_next_last h (by rw [← hpre]; simp)]
        rfl
      · have hq : q ∈ queue := by
          rw [← hpre]
          simp
        have hnd : (pre ++ q :: qs).Nodup := hpre ▸ h.nodup
        have hnot : queue.getLast? ≠ some q := by
          intro hlast
          rw [← hpre, List.getLast?_append_of_ne_nil _ (List.cons_ne_nil q qs),
            List.getLast?_cons_of_ne_nil hnil] at hlast
          have hmem : q ∈ qs := List.mem_of_getLast? hlast
          have hnd' := (List.nodup_append.mp hnd).2.1
          exact (List.nodup_cons.mp hnd').1 hmem
        rw [append_next h data q (fun heq => hd (heq ▸ hq)) hnot, hpath.1]
        obtain ⟨r, rest, rfl⟩ := List.exists_cons_of_ne_nil hnil
        rfl
  rw [path_append]
  exact ⟨hlink queue (List.suffix_refl queue) h.path, append_next_data h hd, trivial⟩

theorem append_same (l : XList P) (data : P) : (l.append data).len = l.len ∧
    (l.append data).maxLen = l.maxLen ∧ (l.append data).sem = l.sem := by
  unfold XList.append
  split <;> exact ⟨rfl, rfl, rfl⟩

/-- A push under the limit appends; one at the limit changes nothing. -/
theorem Represents.push {l : XList P} {queue : List P} (h : Represents l queue) {data : P}
    (hd : data ∉ queue) :
    ((l.push data).2 = 0 ∧ Represents (l.push data).1 (queue ++ [data]) ∧
      (l.push data).1.maxLen = l.maxLen ∧ (l.push data).1.sem ≤ l.sem + 1) ∨
    ((l.push data).2 = -1 ∧ (l.push data).1 = l) := by
  unfold XList.push
  split
  · rename_i hlt
    left
    obtain ⟨hlen, hmax, hsem⟩ := append_same l data
    have hlt' : l.len.toNat < l.maxLen.toNat := UInt64.lt_iff_toNat_lt.mp hlt
    have hsucc : (l.len + 1).toNat = queue.length + 1 := by
      have hone : (1 : UInt64).toNat = 1 := rfl
      have hmaxlt := l.maxLen.toNat_lt
      have hq := h.len
      rw [UInt64.toNat_add, hone]
      omega
    set m : XList P := { l.append data with len := (l.append data).len + 1 } with hm
    obtain ⟨hhead', htail', hnext', hlen', hmax'⟩ := semPost_same m
    refine ⟨rfl, ⟨?_, ?_, ?_, ?_, ?_, ?_⟩, hmax'.trans hmax, ?_⟩
    · rw [hhead', List.head?_append, ← h.head]
      exact append_head l data
    · intro _
      rw [htail', List.getLast?_concat]
      exact append_tail l data
    · rw [hnext']
      exact path_append_data h hd
    · exact List.nodup_append.mpr ⟨h.nodup, List.nodup_singleton _, fun a ha b hb heq =>
        hd (by rw [← List.mem_singleton.mp hb, ← heq]; exact ha)⟩
    · rw [hlen', List.length_append]
      show ((l.append data).len + 1).toNat = _
      rw [hlen, hsucc]
      rfl
    · rw [hlen', hmax', UInt64.le_iff_toNat_le]
      show ((l.append data).len + 1).toNat ≤ (l.append data).maxLen.toNat
      rw [hlen, hmax, hsucc]
      have hq := h.len
      omega
    · rw [← hsem]
      exact semPost_le m
  · exact .inr ⟨rfl, rfl⟩

end Push

end Doorhinges.BlockingList

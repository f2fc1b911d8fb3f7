import Doorhinges.CycleQueue.Fifo
import Doorhinges.LogWork.Wakeup

/-!
# A drain without pushes

The loop of `log_work_thread` over queues that nobody fills in the meantime. A round takes at
most a hundred records from a queue; a queue that is found empty leaves the part of the array
that the round still visits. A round that is begun again has paid for it with a hundred
records of one queue at least, so the loop ends.
-/
namespace Doorhinges.LogWork

open CycleQueue
open Lib.CString

/-- What the step passes to `redis_write_log`, with the index of its queue. -/
def redisWriteLog (s : State) : List (Nat × Bytes) :=
  match s.worker with
  | .head d => ((egCqHead (s.queue (s.current d))).join.map fun str => (s.current d, str)).toList
  | _ => []

/-- The worker alone, from here to the end of the loop. -/
inductive Drains (cfg : Config) : State → List (Nat × Bytes) → State → Prop
  | done {s} (h : s.worker = .load) : Drains cfg s [] s
  | step {s t u out} (hne : s.worker ≠ .load) (hwork : work cfg s = some t)
      (h : Drains cfg t out u) : Drains cfg s (redisWriteLog s ++ out) u

/-- The records of one queue among those written. -/
def writtenOf (out : List (Nat × Bytes)) (q : Nat) : List Bytes :=
  (out.filter (·.1 = q)).map (·.2)

section Total

/-- The records that are left. -/
def total (n : Nat) (rest : Nat → List Bytes) : Nat :=
  ((List.range n).map fun q => (rest q).length).sum

theorem total_update {n q : Nat} {rest : Nat → List Bytes} {r : Bytes} {rs : List Bytes}
    (hq : q < n) (hrest : rest q = r :: rs) :
    total n (Function.update rest q rs) + 1 = total n rest := by
  have hbelow : ∀ m ≤ q, total m (Function.update rest q rs) = total m rest := by
    intro m hm
    refine congrArg List.sum (List.map_congr_left fun p hp => ?_)
    have hne : p ≠ q := by
      have hlt := List.mem_range.1 hp
      omega
    rw [Function.update_of_ne hne]
  induction n with
  | zero => exact absurd hq (Nat.not_lt_zero q)
  | succ n ih =>
    have hsucc (f : Nat → List Bytes) : total (n + 1) f = total n f + (f n).length := by
      simp [total, List.range_succ]
    rw [hsucc, hsucc]
    by_cases hlast : q = n
    · subst hlast
      rw [hbelow q (Nat.le_refl q), Function.update_self, hrest, List.length_cons]
      omega
    · rw [Function.update_of_ne (Ne.symm hlast), ← ih (by omega)]
      omega

end Total

/-- The queues from `num` on have nothing left. -/
def Emptied (s : State) (rest : Nat → List Bytes) (num : Nat) : Prop :=
  ∀ k q, num ≤ k → s.logQueues[k]? = some q → rest q = []

def Place (cfg : Config) (s : State) (rest : Nat → List Bytes) : Worker → Prop
  | .head d => d.i < d.num ∧ d.num ≤ cfg.threadNum ∧ Emptied s rest d.num
  | .pop d =>
    (d.i < d.num ∧ d.num ≤ cfg.threadNum ∧ Emptied s rest d.num) ∧ rest (s.current d) ≠ []
  | .load => Emptied s rest 0
  | _ => False

/-- The loop is at work, and `rest` is in the queues. -/
structure Draining (cfg : Config) (s : State) (rest : Nat → List Bytes) : Prop where
  order : s.logQueues.Perm (List.range cfg.threadNum)
  queues : ∀ q < cfg.threadNum, Represents (s.queue q) (rest q)
  place : Place cfg s rest s.worker

/-- The records that are still to be written: a record is popped behind its write. -/
def unwritten (s : State) (rest : Nat → List Bytes) (q : Nat) : List Bytes :=
  match s.worker with
  | .pop d => if q = s.current d then (rest q).tail else rest q
  | _ => rest q

/-- What is left of the loop: a record is worth more than a round, and a round in which the
index has moved on has earned the next one. -/
def credit (cfg : Config) (i : Nat) : Nat := if i = 0 then 0 else cfg.threadNum + 1

def price (cfg : Config) (rest : Nat → List Bytes) (num i : Nat) : Nat :=
  2 * ((cfg.threadNum + 2) * total cfg.threadNum rest + num + credit cfg i)

def measure (cfg : Config) (rest : Nat → List Bytes) : Worker → Nat
  | .head d => price cfg rest d.num d.i + 1
  | .pop d => price cfg rest d.num d.i
  | _ => 0

section Step

variable {cfg : Config} {s : State} {rest : Nat → List Bytes} {d : Drain} {num i : Nat}

theorem Draining.length (h : Draining cfg s rest) : s.logQueues.length = cfg.threadNum := by
  rw [h.order.length_eq, List.length_range]

theorem Draining.current (h : Draining cfg s rest) (hi : d.i < cfg.threadNum) :
    s.logQueues[d.i]? = some (s.current d) ∧ s.current d < cfg.threadNum := by
  have hlen := h.length
  have hget : s.logQueues[d.i]? = some (s.current d) := by
    rw [State.current, List.getD_eq_getElem _ _ (by omega), List.getElem?_eq_getElem]
  exact ⟨hget, List.mem_range.1 (h.order.subset (List.mem_of_getElem? hget))⟩

/-- A record pays for the index that moves on behind it. -/
theorem price_popped {rest' : Nat → List Bytes}
    (h : total cfg.threadNum rest' + 1 = total cfg.threadNum rest) (num i j : Nat) :
    price cfg rest' num j + 1 < price cfg rest num i := by
  have hcredit : credit cfg j ≤ cfg.threadNum + 1 := by
    rw [credit]
    split <;> omega
  rw [price, price, ← h, Nat.mul_succ]
  omega

/-- Where the loop stands behind a queue. -/
theorem nextQueue_spec (hlen : s.logQueues.length = cfg.threadNum) (hnum : num ≤ cfg.threadNum)
    (hi : i ≤ num) (hmoved : num ≠ 0 → i = num → i ≠ 0) (hempty : Emptied s rest num) :
    Place cfg s rest (nextQueue cfg.threadNum num i) ∧
      measure cfg rest (nextQueue cfg.threadNum num i) ≤ price cfg rest num i + 1 ∧
      ∀ t q, t.worker = nextQueue cfg.threadNum num i → unwritten t rest q = rest q := by
  rw [nextQueue]
  split
  · rename_i hlt
    exact ⟨⟨hlt, hnum, hempty⟩, Nat.le_refl _, fun t q ht => by rw [unwritten, ht]⟩
  · rename_i hend
    split
    · rename_i hzero
      subst hzero
      exact ⟨hempty, Nat.zero_le _, fun t q ht => by rw [unwritten, ht]⟩
    · rename_i hpos
      have hi0 : i ≠ 0 := hmoved hpos (by omega)
      rw [startDrain, if_pos (by omega)]
      refine ⟨⟨by dsimp only; omega, Nat.le_refl _, fun k q hk hq => ?_⟩, ?_,
        fun t q ht => by rw [unwritten, ht]⟩
      · have hlt := (List.getElem?_eq_some_iff.1 hq).1
        dsimp only at hk
        omega
      · rw [measure, price, price, credit, credit, if_pos rfl, if_neg hi0]
        dsimp only
        omega

/-- A queue with nothing left leaves the part that is still visited. -/
theorem Draining.found_empty (h : Draining cfg s rest) (hw : s.worker = .head d)
    (hrest : rest (s.current d) = []) :
    ∃ t, work cfg s = some t ∧ Draining cfg t rest ∧
      measure cfg rest t.worker < measure cfg rest s.worker ∧
      ∀ q, rest q = writtenOf (redisWriteLog s) q ++ unwritten t rest q := by
  have hlen := h.length
  have hplace := h.place
  rw [hw] at hplace
  obtain ⟨hi, hnum, hempty⟩ := hplace
  obtain ⟨hget, hlt⟩ := h.current (d := d) (by omega)
  obtain ⟨seg, tail, free, hlayout⟩ := h.queues _ hlt
  have hhead : egCqHead (s.queue (s.current d)) = some none := by
    rw [hlayout.head_eq_pop, hrest]
    rfl
  have hwritten : redisWriteLog s = [] := by
    rw [redisWriteLog, hw]
    dsimp only
    rw [hhead]
    rfl
  let u : State := { s with logQueues := swapOut s.logQueues d.i d.num }
  have hperm : u.logQueues.Perm s.logQueues := swapOut_perm hi (by omega)
  have hempty' : Emptied u rest (d.num - 1) := by
    intro k q hk hq
    rcases swapOut_tail hi (by omega) hk hq with hat | ⟨hk, hat⟩
    · rw [hget] at hat
      obtain rfl := Option.some.inj hat
      exact hrest
    · exact hempty k q hk hat
  have hulen : u.logQueues.length = cfg.threadNum := by rw [hperm.length_eq, hlen]
  obtain ⟨hplace, hmeasure, hunwritten⟩ :=
    nextQueue_spec hulen (by omega) (by omega : d.i ≤ d.num - 1) (by omega) hempty'
  refine ⟨{ u with worker := nextQueue cfg.threadNum (d.num - 1) d.i }, ?_,
    ⟨hperm.trans h.order, h.queues, ?_⟩, ?_, fun q => by rw [hwritten]; exact (hunwritten _ q rfl).symm⟩
  · rw [work, hw]
    dsimp only
    rw [hhead]
    rfl
  · exact hplace
  · rw [hw]
    refine Nat.lt_of_le_of_lt hmeasure ?_
    rw [measure, price, price]
    omega

/-- A record that is there is written, and popped in the next step. -/
theorem Draining.found (h : Draining cfg s rest) (hw : s.worker = .head d)
    (hrest : rest (s.current d) ≠ []) :
    ∃ t, work cfg s = some t ∧ Draining cfg t rest ∧
      measure cfg rest t.worker < measure cfg rest s.worker ∧
      ∀ q, rest q = writtenOf (redisWriteLog s) q ++ unwritten t rest q := by
  have hplace := h.place
  rw [hw] at hplace
  obtain ⟨hget, hlt⟩ := h.current (d := d) (Nat.lt_of_lt_of_le hplace.1 hplace.2.1)
  obtain ⟨seg, tail, free, hlayout⟩ := h.queues _ hlt
  obtain ⟨r, rs, hr⟩ := List.exists_cons_of_ne_nil hrest
  have hhead : egCqHead (s.queue (s.current d)) = some (some r) := by
    rw [hlayout.head_eq_pop, hr]
    rfl
  refine ⟨{ s with worker := .pop d }, ?_, ⟨h.order, h.queues, hplace, hrest⟩, ?_, fun q => ?_⟩
  · rw [work, hw]
    dsimp only
    rw [hhead]
    rfl
  · rw [hw]
    exact Nat.lt_succ_self _
  · have hwritten : redisWriteLog s = [(s.current d, r)] := by
      rw [redisWriteLog, hw]
      dsimp only
      rw [hhead]
      rfl
    rw [hwritten, unwritten]
    dsimp only
    change rest q = _ ++ if q = s.current d then _ else _
    by_cases hq : q = s.current d
    · rw [if_pos hq, hq, hr]
      simp [writtenOf]
    · rw [if_neg hq]
      simp [writtenOf, Ne.symm hq]

theorem Draining.popped (h : Draining cfg s rest) (hw : s.worker = .pop d) :
    ∃ t rest', work cfg s = some t ∧ Draining cfg t rest' ∧
      measure cfg rest' t.worker < measure cfg rest s.worker ∧
      ∀ q, unwritten s rest q = unwritten t rest' q := by
  have hlen := h.length
  have hplace := h.place
  rw [hw] at hplace
  obtain ⟨⟨hi, hnum, hempty⟩, hrest⟩ := hplace
  obtain ⟨hget, hlt⟩ := h.current (d := d) (by omega)
  obtain ⟨r, rs, hr⟩ := List.exists_cons_of_ne_nil hrest
  obtain ⟨seg, tail, free, hlayout⟩ := h.queues _ hlt
  rw [hr] at hlayout
  obtain ⟨cq, seg', free', hpop, hlayout'⟩ := hlayout.pop_layout
  let rest' := Function.update rest (s.current d) rs
  let u : State := s.setQueue (s.current d) cq
  have hself : rest' (s.current d) = rs := Function.update_self ..
  have hother {q : Nat} (hne : q ≠ s.current d) : rest' q = rest q := Function.update_of_ne hne ..
  have htotal : total cfg.threadNum rest' + 1 = total cfg.threadNum rest := total_update hlt hr
  have hqueues : ∀ q < cfg.threadNum, Represents (u.queue q) (rest' q) := by
    intro q hq
    by_cases hsame : q = s.current d
    · subst hsame
      have hqueue : u.queue (s.current d) = cq := Function.update_self ..
      rw [hqueue, hself]
      exact ⟨seg', _, free', hlayout'⟩
    · have hqueue : u.queue q = s.queue q := Function.update_of_ne hsame ..
      rw [hqueue, hother hsame]
      exact h.queues q hq
  have hempty' : Emptied u rest' d.num := by
    intro k q hk hq
    have hold := hempty k q hk hq
    have hne : q ≠ s.current d := by
      rintro rfl
      exact hrest hold
    rw [hother hne, hold]
  have hunwritten (q : Nat) : unwritten s rest q = rest' q := by
    rw [unwritten, hw]
    dsimp only
    by_cases hq : q = s.current d
    · subst hq
      rw [if_pos rfl, hr, hself]
      rfl
    · rw [if_neg hq, hother hq]
  by_cases hj : d.j + 1 < 100
  · refine ⟨{ u with worker := .head { d with j := d.j + 1 } }, rest', ?_,
      ⟨h.order, hqueues, hi, hnum, hempty'⟩, ?_, hunwritten⟩
    · rw [work, hw]
      dsimp only
      rw [hpop, Option.map_some, if_pos hj]
    · rw [hw]
      exact price_popped htotal d.num d.i d.i
  · obtain ⟨hplace, hmeasure, hnext⟩ :=
      nextQueue_spec (s := u) hlen hnum hi (fun _ _ => Nat.succ_ne_zero d.i) hempty'
    refine ⟨{ u with worker := nextQueue cfg.threadNum d.num (d.i + 1) }, rest', ?_,
      ⟨h.order, hqueues, hplace⟩, ?_, fun q => (hunwritten q).trans (hnext _ q rfl).symm⟩
    · rw [work, hw]
      dsimp only
      rw [hpop, Option.map_some, if_neg hj]
    · rw [hw]
      exact Nat.lt_of_le_of_lt hmeasure (price_popped htotal d.num d.i (d.i + 1))

end Step

section Run

variable {cfg : Config} {s : State} {rest : Nat → List Bytes}

/-- A step of the loop comes nearer to its end and leaves what it does not write. -/
theorem Draining.step (h : Draining cfg s rest) (hne : s.worker ≠ .load) :
    ∃ t rest', work cfg s = some t ∧ Draining cfg t rest' ∧
      measure cfg rest' t.worker < measure cfg rest s.worker ∧
      ∀ q, unwritten s rest q = writtenOf (redisWriteLog s) q ++ unwritten t rest' q := by
  cases hw : s.worker with
  | head d =>
    have hall (q : Nat) : unwritten s rest q = rest q := by rw [unwritten, hw]
    by_cases hrest : rest (s.current d) = []
    · obtain ⟨t, hwork, ht, hless, hleft⟩ := h.found_empty hw hrest
      exact ⟨t, rest, hwork, ht, hw ▸ hless, fun q => (hall q).trans (hleft q)⟩
    · obtain ⟨t, hwork, ht, hless, hleft⟩ := h.found hw hrest
      exact ⟨t, rest, hwork, ht, hw ▸ hless, fun q => (hall q).trans (hleft q)⟩
  | pop d =>
    obtain ⟨t, rest', hwork, ht, hless, hleft⟩ := h.popped hw
    have hnone : redisWriteLog s = [] := by rw [redisWriteLog, hw]
    exact ⟨t, rest', hwork, ht, hw ▸ hless, fun q => by rw [hnone]; exact hleft q⟩
  | load => exact absurd hw hne
  | running | last | test | timedwait | wait | store e | finished =>
    have hplace := h.place
    rw [hw] at hplace
    exact hplace.elim

theorem Draining.written_lt (h : Draining cfg s rest) :
    ∀ e ∈ redisWriteLog s, e.1 < cfg.threadNum := by
  intro e he
  rw [redisWriteLog] at he
  split at he
  · rename_i d hw
    have hplace := h.place
    rw [hw] at hplace
    rw [Option.mem_toList, Option.map_eq_some_iff] at he
    obtain ⟨str, -, rfl⟩ := he
    exact (h.current (d := d) (Nat.lt_of_lt_of_le hplace.1 hplace.2.1)).2
  · cases he

theorem writtenOf_append (out out' : List (Nat × Bytes)) (q : Nat) :
    writtenOf (out ++ out') q = writtenOf out q ++ writtenOf out' q := by
  rw [writtenOf, List.filter_append, List.map_append]
  rfl

/-- The loop ends, and what is in the queues is written in their order. -/
theorem Draining.drains (h : Draining cfg s rest) : ∃ out t rest', Drains cfg s out t ∧
    Draining cfg t rest' ∧ t.worker = .load ∧ (∀ e ∈ out, e.1 < cfg.threadNum) ∧
    ∀ q, unwritten s rest q = writtenOf out q ++ rest' q := by
  induction hn : measure cfg rest s.worker using Nat.strong_induction_on generalizing s rest with
  | h n ih =>
    by_cases hload : s.worker = .load
    · exact ⟨[], s, rest, .done hload, h, hload, nofun, fun q => by rw [unwritten, hload]; rfl⟩
    · obtain ⟨t, rest', hwork, ht, hless, hleft⟩ := h.step hload
      obtain ⟨out, u, rest'', hdrain, hu, huload, hlt, hwritten⟩ := ih _ (hn ▸ hless) ht rfl
      refine ⟨_, u, rest'', .step hload hwork hdrain, hu, huload,
        List.forall_mem_append.2 ⟨h.written_lt, hlt⟩, fun q => ?_⟩
      rw [hleft q, hwritten q, writtenOf_append, List.append_assoc]

/-- Where the loop begins. -/
theorem draining_start {records : Nat → List Bytes} (hstart : s.worker = startDrain cfg.threadNum)
    (horder : s.logQueues.Perm (List.range cfg.threadNum))
    (hqueues : ∀ q < cfg.threadNum, Represents (s.queue q) (records q)) :
    Draining cfg s records ∧ ∀ q, unwritten s records q = records q := by
  have hlen : s.logQueues.length = cfg.threadNum := by rw [horder.length_eq, List.length_range]
  have hempty : Emptied s records cfg.threadNum := by
    intro k q hk hq
    have hlt := (List.getElem?_eq_some_iff.1 hq).1
    omega
  rw [startDrain] at hstart
  split at hstart
  · rename_i hpos
    refine ⟨⟨horder, hqueues, ?_⟩, fun q => by rw [unwritten, hstart]⟩
    rw [hstart]
    exact ⟨hpos, Nat.le_refl _, hempty⟩
  · rename_i hzero
    refine ⟨⟨horder, hqueues, ?_⟩, fun q => by rw [unwritten, hstart]⟩
    rw [hstart]
    exact fun k q _ hq => hempty k q (by omega) hq

/-- The drain ends with every queue empty, the array permuted, and the records of each queue
written once and in their order. -/
theorem drain_empties (cfg : Config) (s : State) (records : Nat → List Bytes)
    (hstart : s.worker = startDrain cfg.threadNum)
    (horder : s.logQueues.Perm (List.range cfg.threadNum))
    (hqueues : ∀ q < cfg.threadNum, Represents (s.queue q) (records q)) :
    ∃ out t, Drains cfg s out t ∧
      (∀ q < cfg.threadNum, writtenOf out q = records q ∧ Represents (t.queue q) []) ∧
      (∀ e ∈ out, e.1 < cfg.threadNum) ∧ t.logQueues.Perm s.logQueues := by
  obtain ⟨hdraining, hall⟩ := draining_start hstart horder hqueues
  obtain ⟨out, t, rest, hdrain, ht, hload, hlt, hwritten⟩ := hdraining.drains
  have hplace := ht.place
  rw [hload] at hplace
  refine ⟨out, t, hdrain, fun q hq => ?_, hlt, ht.order.trans horder.symm⟩
  obtain ⟨k, hk⟩ := List.getElem?_of_mem (ht.order.symm.subset (List.mem_range.2 hq))
  have hrest : rest q = [] := hplace k q (Nat.zero_le k) hk
  constructor
  · rw [← hall q, hwritten q, hrest, List.append_nil]
  · rw [← hrest]
    exact ht.queues q hq

/-- Two threads, at the start of the loop. -/
def twoQueues (cq₀ cq₁ : EgCycleQueue Bytes) : State :=
  { start ⟨2, true⟩ (fun q => if q = 0 then cq₀ else cq₁) with worker := startDrain 2 }

theorem drain_empties_two : ∃ cq₀ cq₁ : EgCycleQueue Bytes, Represents cq₀ [] ∧
    Represents cq₁ [ascii "1"] ∧ ∃ out t, Drains ⟨2, true⟩ (twoQueues cq₀ cq₁) out t ∧
      (∀ q < 2, writtenOf out q = (if q = 0 then [] else [ascii "1"]) ∧
        Represents (t.queue q) []) ∧
      (∀ e ∈ out, e.1 < 2) ∧ t.logQueues.Perm [0, 1] := by
  obtain ⟨cq₀, hcreate, hempty⟩ := create_represents (α := Bytes) (by decide : 1 ≤ 8) 0
  have hfresh : (egCqCreate .ok 8 0 : Option (Option (EgCycleQueue Bytes))).join.map
      shrinksOntoHead = some false := by decide
  rw [hcreate] at hfresh
  have ⟨seg, tail, free, hlayout⟩ := hempty
  obtain ⟨cq₁, -, hpush, -⟩ := hlayout.push_layout (ascii "1")
  have hone : Represents cq₁ [ascii "1"] := hpush (Option.some.inj hfresh)
  refine ⟨cq₀, cq₁, hempty, hone, drain_empties ⟨2, true⟩ (twoQueues cq₀ cq₁) _ rfl (.refl _) ?_⟩
  intro q hq
  by_cases hzero : q = 0
  · simpa [twoQueues, start, hzero] using hempty
  · simpa [twoQueues, start, hzero] using hone

end Run

end Doorhinges.LogWork

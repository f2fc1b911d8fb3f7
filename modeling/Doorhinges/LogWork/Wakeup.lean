import Doorhinges.LogWork.Model
import Doorhinges.CycleQueue.Steps
import Doorhinges.Lib.Machine
import Mathlib.Data.List.Perm.Basic
import Mathlib.Data.List.Nodup
import Mathlib.Data.List.GetD

/-!
# No wake-up is lost

A thread that finds `g_log_empty` at 0 relies on the one that stored the 0: its
post is still to come, or its token is there, or the worker has not raised the
flag since and will come back to every queue after it has. `Safe` says which of
these holds at each point of the worker.
-/
namespace Doorhinges.LogWork

open CycleQueue
open Lib.CString
open Lib.Machine

variable {cfg : Config} {s t : State}

/-- A record waits in the queue: `eg_cq_head` does not return NULL. -/
def Logged (cq : EgCycleQueue Bytes) : Prop := egCqHead cq ≠ some none

/-- The worker sleeps on a semaphore that nobody is going to post while a record waits. -/
structure Stranded (cfg : Config) (s : State) : Prop where
  blocked : s.worker = .wait
  noToken : s.sem = 0
  outside : ∀ p, s.thread p = .idle
  logged : ∃ q < cfg.threadNum, Logged (s.queue q)

/-- A token is there or about to be. -/
def Posted (s : State) : Prop := 0 < s.sem ∨ ∃ p, s.thread p = .post

def Stirring (s : State) : Prop := 0 < s.sem ∨ ∃ p, s.thread p ≠ .idle

/-- A thread that finds the flag at 0 may go. -/
def Alert (s : State) : Prop := s.logEmpty = 0 → Posted s

def Unserved (cfg : Config) (s : State) : Prop := ∃ q < cfg.threadNum, Logged (s.queue q)

/-- The queues from `num` on were found empty, and who pushed since has left a trace. -/
def Seen (s : State) (num : Nat) : Prop :=
  ∀ k q, num ≤ k → s.logQueues[k]? = some q → Logged (s.queue q) → Stirring s ∨ s.logEmpty = 0

def Safe (cfg : Config) (s : State) : Worker → Prop
  | .running | .last | .test => Alert s ∧ (Unserved cfg s → Stirring s ∨ s.logEmpty = 1)
  | .timedwait => True
  | .wait => Alert s ∧ (Unserved cfg s → Stirring s)
  | .head d | .pop d => d.i < d.num ∧ d.num ≤ cfg.threadNum ∧ Seen s d.num
  | .load => Unserved cfg s → Stirring s ∨ s.logEmpty = 0
  | .store e => e = 0 ∨ Alert s ∧ (Unserved cfg s → Stirring s)
  | .finished => True

structure Guarding (cfg : Config) (s : State) : Prop where
  order : s.logQueues.Perm (List.range cfg.threadNum)
  safe : Safe cfg s s.worker

theorem Posted.stirring (h : Posted s) : Stirring s :=
  h.imp_right fun ⟨p, hp⟩ => ⟨p, by simp [hp]⟩

theorem Guarding.not_stranded (h : Guarding cfg s) : ¬Stranded cfg s := by
  intro hs
  have hsafe := h.safe
  rw [hs.blocked] at hsafe
  rcases hsafe.2 hs.logged with htoken | ⟨p, hp⟩
  · have := hs.noToken
    omega
  · exact hp (hs.outside p)

section Threads

/-- As long as somebody stirs, only the promise behind the flag has to be kept. -/
theorem Safe.of_stirring {w : Worker} (h : Safe cfg s w) (hstir : Stirring t)
    (halert : Alert s → Alert t) : Safe cfg t w := by
  cases w with
  | running => exact ⟨halert h.1, fun _ => .inl hstir⟩
  | last => exact ⟨halert h.1, fun _ => .inl hstir⟩
  | test => exact ⟨halert h.1, fun _ => .inl hstir⟩
  | timedwait => trivial
  | wait => exact ⟨halert h.1, fun _ => hstir⟩
  | head d => exact ⟨h.1, h.2.1, fun _ _ _ _ _ => .inl hstir⟩
  | pop d => exact ⟨h.1, h.2.1, fun _ _ _ _ _ => .inl hstir⟩
  | load => exact fun _ => .inl hstir
  | store e => exact h.imp_right fun h => ⟨halert h.1, fun _ => hstir⟩
  | finished => trivial

/-- A thread leaves because the flag is 0: either a token comes, or the worker
raises the flag later. -/
theorem Safe.of_flag {w : Worker} (h : Safe cfg s w) (hzero : s.logEmpty = 0)
    (hflag : t.logEmpty = s.logEmpty) (hposted : Posted s → Posted t) : Safe cfg t w := by
  have hzero' : t.logEmpty = 0 := hflag.trans hzero
  by_cases hp : Posted s
  · exact h.of_stirring (hposted hp).stirring fun _ _ => hposted hp
  · have halert : ¬Alert s := fun ha => hp (ha hzero)
    cases w with
    | running => exact absurd h.1 halert
    | last => exact absurd h.1 halert
    | test => exact absurd h.1 halert
    | timedwait => trivial
    | wait => exact absurd h.1 halert
    | head d => exact ⟨h.1, h.2.1, fun _ _ _ _ _ => .inr hzero'⟩
    | pop d => exact ⟨h.1, h.2.1, fun _ _ _ _ _ => .inr hzero'⟩
    | load => exact fun _ => .inr hzero'
    | store e => exact h.imp_right fun h => absurd h.1 halert
    | finished => trivial

@[simp] theorem goto_thread (s : State) (p : Nat) (pc : Pc) : (s.goto p pc).thread p = pc := by
  simp [State.goto]

theorem goto_other (s : State) {p r : Nat} (h : r ≠ p) (pc : Pc) :
    (s.goto p pc).thread r = s.thread r := by
  simp [State.goto, h]

/-- A thread that was not about to post moves. -/
theorem Posted.goto (h : Posted s) {p : Nat} (hp : s.thread p ≠ .post) (pc : Pc) :
    Posted (s.goto p pc) := by
  rcases h with htoken | ⟨r, hr⟩
  · exact .inl htoken
  · have hrp : r ≠ p := by
      rintro rfl
      exact hp hr
    exact .inr ⟨r, by rw [goto_other s hrp, hr]⟩

theorem stirring_goto (s : State) (p : Nat) {pc : Pc} (h : pc ≠ .idle) : Stirring (s.goto p pc) :=
  .inr ⟨p, by simpa using h⟩

theorem semPost_pos (n : Nat) : 0 < semPost n := by
  unfold semPost intMax
  split <;> omega

theorem Guarding.logHandler (h : Guarding cfg s) {p cq : Nat} (hidle : s.thread p = .idle)
    {str : Bytes} {m : Malloc} (hs : logHandler cfg s p cq str m = some t) : Guarding cfg t := by
  unfold LogWork.logHandler at hs
  split at hs
  · obtain ⟨r, -, rfl⟩ := Option.map_eq_some_iff.mp hs
    refine ⟨h.order, h.safe.of_stirring (stirring_goto _ p (by decide)) fun halert hzero => ?_⟩
    exact (show Posted (s.setQueue cq r.2) from halert hzero).goto
      (by simp [State.setQueue, hidle]) .test
  · obtain rfl := Option.some.inj hs
    exact h

theorem Guarding.act (h : Guarding cfg s) {p : Nat} (hs : act s p = some t) : Guarding cfg t := by
  unfold LogWork.act at hs
  cases hp : s.thread p with
  | idle => simp [hp] at hs
  | test =>
    simp only [hp, Option.some.injEq] at hs
    subst hs
    have hpost : s.thread p ≠ .post := by simp [hp]
    by_cases hzero : s.logEmpty = 0
    · rw [if_pos hzero]
      exact ⟨h.order, h.safe.of_flag hzero rfl fun hpo => hpo.goto hpost .idle⟩
    · rw [if_neg hzero]
      exact ⟨h.order, h.safe.of_stirring (stirring_goto s p (by decide))
        fun _ he => absurd he hzero⟩
  | zero =>
    simp only [hp, Option.some.injEq] at hs
    subst hs
    exact ⟨h.order, h.safe.of_stirring (stirring_goto _ p (by decide))
      fun _ _ => .inr ⟨p, by simp⟩⟩
  | post =>
    simp only [hp, Option.some.injEq] at hs
    subst hs
    have htoken : Posted ({ s with sem := semPost s.sem }.goto p .idle) := .inl (semPost_pos _)
    exact ⟨h.order, h.safe.of_stirring htoken.stirring fun _ _ => htoken⟩

end Threads

section Worker

theorem Guarding.length (h : Guarding cfg s) : s.logQueues.length = cfg.threadNum := by
  simpa using h.order.length_eq

theorem Guarding.current (h : Guarding cfg s) {d : Drain} (hi : d.i < cfg.threadNum) :
    s.logQueues[d.i]? = some (s.current d) := by
  have hlen := h.length
  rw [State.current, List.getD_eq_getElem _ _ (by omega)]
  exact List.getElem?_eq_getElem _

theorem safe_startDrain (hperm : s.logQueues.Perm (List.range cfg.threadNum)) :
    Safe cfg s (startDrain cfg.threadNum) := by
  have hlen : s.logQueues.length = cfg.threadNum := by simpa using hperm.length_eq
  unfold startDrain
  split
  · rename_i hpos
    refine ⟨hpos, Nat.le_refl _, fun k q hk hq => ?_⟩
    rw [List.getElem?_eq_none (by rw [hlen]; exact hk)] at hq
    cases hq
  · rintro ⟨q, hq, -⟩
    omega

/-- The drain ends after a pass that has found every queue empty. -/
theorem safe_nextQueue (hperm : s.logQueues.Perm (List.range cfg.threadNum)) {num : Nat}
    (hnum : num ≤ cfg.threadNum) (hseen : Seen s num) (i : Nat) :
    Safe cfg s (nextQueue cfg.threadNum num i) := by
  unfold nextQueue
  split
  · rename_i hi
    exact ⟨hi, hnum, hseen⟩
  · split
    · rename_i hzero
      rintro ⟨q, hq, hlogged⟩
      obtain ⟨k, hk⟩ := List.mem_iff_getElem?.mp (hperm.mem_iff.mpr (List.mem_range.mpr hq))
      exact hseen k q (by omega) hk hlogged
    · exact safe_startDrain hperm

theorem swapOut_perm {l : List Nat} {i num : Nat} (hi : i < num) (hnum : num ≤ l.length) :
    (swapOut l i num).Perm l := by
  rw [swapOut, List.getD_eq_getElem _ _ (by omega), List.getD_eq_getElem _ _ (by omega)]
  exact List.set_set_perm (by omega) (by omega)

/-- From `num - 1` on, the queue that was found empty is followed by the ones before it. -/
theorem swapOut_tail {l : List Nat} {i num k q : Nat} (hi : i < num) (hnum : num ≤ l.length)
    (hk : num - 1 ≤ k) (hq : (swapOut l i num)[k]? = some q) :
    l[i]? = some q ∨ num ≤ k ∧ l[k]? = some q := by
  by_cases hlast : k = num - 1
  · subst hlast
    rw [swapOut, List.getElem?_set_self (by rw [List.length_set]; omega),
      List.getD_eq_getElem _ _ (by omega)] at hq
    exact .inl (by rw [List.getElem?_eq_getElem (by omega), hq])
  · rw [swapOut, List.getElem?_set_ne (by omega), List.getElem?_set_ne (by omega)] at hq
    exact .inr ⟨by omega, hq⟩

/-- The queue at `i` is found empty. -/
theorem Guarding.found_empty (h : Guarding cfg s) {d : Drain} (hd : Safe cfg s (.head d))
    (hempty : egCqHead (s.queue (s.current d)) = some none) :
    Guarding cfg { s with
      logQueues := swapOut s.logQueues d.i d.num
      worker := nextQueue cfg.threadNum (d.num - 1) d.i } := by
  obtain ⟨hi, hnum, hseen⟩ := hd
  have hlen := h.length
  have hperm := (swapOut_perm hi (by omega : d.num ≤ s.logQueues.length)).trans h.order
  refine ⟨hperm, safe_nextQueue hperm (by omega) (fun k q hk hq hlogged => ?_) d.i⟩
  rcases swapOut_tail hi (by omega) hk hq with hat | ⟨hk, hat⟩
  · rw [h.current (by omega)] at hat
    obtain rfl := Option.some.inj hat
    exact absurd hempty hlogged
  · exact hseen k q hk hat hlogged

/-- A pop touches a queue that still has its turn. -/
theorem Seen.pop (h : Guarding cfg s) {d : Drain} (hd : Safe cfg s (.pop d))
    (cq : EgCycleQueue Bytes) : Seen (s.setQueue (s.current d) cq) d.num := by
  obtain ⟨hi, hnum, hseen⟩ := hd
  intro k q hk hq hlogged
  have hne : q ≠ s.current d := by
    rintro rfl
    have hlen := h.length
    have hnodup : s.logQueues.Nodup := h.order.nodup_iff.mpr List.nodup_range
    have hat := h.current (d := d) (by omega)
    have hsame := (List.getElem?_inj (by omega) hnodup).mp (hat.trans hq.symm)
    omega
  exact hseen k q hk hq (by simpa [State.setQueue, hne] using hlogged)

theorem Guarding.work (h : Guarding cfg s) (hs : work cfg s = some t) : Guarding cfg t := by
  have hsafe := h.safe
  unfold LogWork.work at hs
  cases hw : s.worker with
  | running =>
    simp only [hw, Option.some.injEq] at hs hsafe
    subst hs
    refine ⟨h.order, ?_⟩
    dsimp only
    split
    · exact hsafe
    · exact hsafe
  | last =>
    simp only [hw, Option.some.injEq] at hs hsafe
    subst hs
    refine ⟨h.order, ?_⟩
    dsimp only
    split
    · exact hsafe
    · trivial
  | test =>
    simp only [hw, Option.some.injEq] at hs hsafe
    subst hs
    refine ⟨h.order, ?_⟩
    dsimp only
    split
    · trivial
    · rename_i hone
      exact ⟨hsafe.1, fun hu => (hsafe.2 hu).resolve_right hone⟩
  | timedwait =>
    simp only [hw, Option.ite_none_right_eq_some, Option.some.injEq] at hs
    obtain ⟨-, rfl⟩ := hs
    exact ⟨h.order, safe_startDrain h.order⟩
  | wait =>
    simp only [hw, Option.ite_none_right_eq_some, Option.some.injEq] at hs
    obtain ⟨-, rfl⟩ := hs
    exact ⟨h.order, safe_startDrain h.order⟩
  | head d =>
    simp only [hw] at hs hsafe
    obtain ⟨str, hstr, rfl⟩ := Option.map_eq_some_iff.mp hs
    cases str with
    | none => exact h.found_empty hsafe hstr
    | some _ => exact ⟨h.order, hsafe⟩
  | pop d =>
    simp only [hw] at hs hsafe
    obtain ⟨r, -, rfl⟩ := Option.map_eq_some_iff.mp hs
    have hseen := Seen.pop h hsafe r.2
    refine ⟨h.order, ?_⟩
    dsimp only
    split
    · exact ⟨hsafe.1, hsafe.2.1, hseen⟩
    · exact safe_nextQueue (s := s.setQueue (s.current d) r.2) h.order hsafe.2.1 hseen _
  | load =>
    simp only [hw, Option.some.injEq] at hs hsafe
    subst hs
    refine ⟨h.order, ?_⟩
    by_cases hzero : s.logEmpty = 0
    · exact .inl hzero
    · exact .inr ⟨fun he => absurd he hzero, fun hu => (hsafe hu).resolve_right hzero⟩
  | store e =>
    simp only [hw, Option.ite_none_right_eq_some, Option.some.injEq] at hs hsafe
    obtain ⟨-, rfl⟩ := hs
    refine ⟨h.order, fun he => absurd he (Nat.succ_ne_zero e), fun hu => ?_⟩
    rcases hsafe with rfl | hsafe
    · exact .inr rfl
    · exact .inl (hsafe.2 hu)
  | finished => simp [hw] at hs

end Worker

theorem Guarding.step (h : Guarding cfg s) {l : Label} (hs : step cfg s l = some t) :
    Guarding cfg t := by
  cases l with
  | log p cq str m =>
    simp only [LogWork.step, Option.ite_none_right_eq_some] at hs
    exact h.logHandler hs.1.1 hs.2
  | act p => exact h.act hs
  | shutdown p =>
    simp only [LogWork.step, Option.ite_none_right_eq_some, Option.some.injEq] at hs
    obtain ⟨hidle, rfl⟩ := hs
    exact ⟨h.order, h.safe.of_stirring (stirring_goto s p (by decide))
      fun halert hzero => (halert hzero).goto (by simp [hidle]) .zero⟩
  | clear =>
    obtain rfl := Option.some.inj hs
    exact ⟨h.order, h.safe⟩
  | work => exact h.work hs
  | timeout =>
    simp only [LogWork.step, Option.ite_none_right_eq_some, Option.some.injEq] at hs
    obtain ⟨-, rfl⟩ := hs
    exact ⟨h.order, safe_startDrain h.order⟩

/-- The worker comes back to every queue while the flag is 1. -/
theorem guarding_start (queue : Nat → EgCycleQueue Bytes) : Guarding cfg (start cfg queue) :=
  ⟨.refl _, fun hzero => absurd hzero Nat.one_ne_zero, fun _ => .inr rfl⟩

/-- Whatever the order of the steps, the worker is never blocked in `sem_wait` on
an empty semaphore with every thread outside and a record in a queue. -/
theorem no_lost_wakeup (cfg : Config) (queue : Nat → EgCycleQueue Bytes) (ls : List Label)
    (s : State) (hr : run (step cfg) (start cfg queue) ls = some s) : ¬Stranded cfg s :=
  (run_invariant (fun _ _ _ h hs => Guarding.step h hs) (guarding_start queue) hr).not_stranded

/-- The worker goes through two rounds and sleeps; a record is pushed and the worker woken. -/
def sleepAndWake : List Label :=
  [.work, .work, .timeout, .work, .work, .work, .work, .work, .log 0 0 [65] .ok, .act 0, .act 0,
    .act 0]

theorem no_lost_wakeup_sleeping : ∃ cq, egCqCreate .ok 1 0 = some (some cq) ∧
    ∃ s, run (step ⟨1, true⟩) (start ⟨1, true⟩ fun _ => cq) sleepAndWake = some s ∧
      s.worker = .wait ∧ s.sem = 1 ∧ ¬Stranded ⟨1, true⟩ s := by
  obtain ⟨cq, hcq, s, hr, hw, hsem⟩ : ∃ cq, egCqCreate .ok 1 0 = some (some cq) ∧
      ∃ s, run (step ⟨1, true⟩) (start ⟨1, true⟩ fun _ => cq) sleepAndWake = some s ∧
        s.worker = .wait ∧ s.sem = 1 := ⟨_, rfl, _, rfl, rfl, rfl⟩
  exact ⟨cq, hcq, s, hr, hw, hsem, no_lost_wakeup ⟨1, true⟩ (fun _ => cq) sleepAndWake s hr⟩

end Doorhinges.LogWork

import Doorhinges.Callback.Overrun

/-!
# A show is charged at most once per session

Only the holder of a session's show lock marks a charge for a show, and at most
once; the lease keeps a second holder out as long as no count of the lock is
read as 1 a second time.
-/
namespace Doorhinges.Callback

open Lib.CString
open Lib.Redis (Cmd Reply Store Field Entry Value)
open Lib.Program
open Lib.Machine

variable {X : Externals} {addFloat : Option Field → Bytes → Bytes} {s t : Sys} {sid : Bytes}

/-- How the digest of a callback changes in one step. -/
inductive View.Next (X : Externals) (v : View) : View → Prop
  | same : Next X v v
  | called (c : Command) (r : Option Reply) : Next X v (v.called X c r)
  | sent (c : Command) : Next X v (v.sent c)
  | marked (m : Mark) : Next X v (v.marked m)

/-- A callback of the next state has just started or was there before. -/
theorem trans_proc {l : Label} (ht : Trans X addFloat s l t) {i : Nat} {p' : Proc}
    (hp' : t.procs i = some p') :
    p'.view = {} ∨ ∃ p, s.procs i = some p ∧ p.view.Next X p'.view := by
  cases ht with
  | spawn j q hj =>
    rcases setProc_some hp' with ⟨-, rfl⟩ | hp
    · exact .inl rfl
    · exact .inr ⟨p', hp, .same⟩
  | call j v l c k hj =>
    rcases setProc_some hp' with ⟨rfl, rfl⟩ | hp
    · exact .inr ⟨_, hj, .called c _⟩
    · exact .inr ⟨p', hp, .same⟩
  | send j v l c k hj =>
    rcases setProc_some hp' with ⟨rfl, rfl⟩ | hp
    · exact .inr ⟨_, hj, .sent c⟩
    · exact .inr ⟨p', hp, .same⟩
  | mark j v l m k hj =>
    rcases setProc_some hp' with ⟨rfl, rfl⟩ | hp
    · exact .inr ⟨_, hj, .marked m⟩
    · exact .inr ⟨p', hp, .same⟩
  | deliver n c hc => exact .inr ⟨p', hp', .same⟩
  | tick d =>
    obtain ⟨p, hp, rfl⟩ := Option.map_eq_some_iff.mp hp'
    exact .inr ⟨p, hp, .same⟩
  | adbody k text r hr hid => exact .inr ⟨p', hp', .same⟩
  | admin c hc => exact .inr ⟨p', hp', .same⟩

theorem View.Next.deducted {v w : View} (h : v.Next X w) (hw : w.deducted = false) :
    v.deducted = false := by
  cases h with
  | same => exact hw
  | called c r => unfold View.called at hw; split at hw <;> exact hw
  | sent c => unfold View.sent at hw; split at hw <;> exact hw
  | marked m =>
    unfold View.marked at hw
    split at hw
    · exact hw
    · cases hw
    · exact hw
    · exact hw

/-- A mark is logged by the callback that is about to make it. -/
theorem count_mark {l : Label} (ht : Trans X addFloat s l t) (m : Mark) :
    t.log.count (.mark m) = s.log.count (.mark m) ∨ ∃ i v lt k,
      s.procs i = some ⟨.mark m k, v, lt⟩ ∧ t.procs i = some ⟨k, v.marked m, lt⟩ ∧
      t.log.count (.mark m) = s.log.count (.mark m) + 1 := by
  cases ht with
  | spawn => exact .inl rfl
  | call => left; simp [Sys.setProc, Sys.serve]
  | send => exact .inl rfl
  | mark i v lt m' k hi =>
    by_cases hm : m' = m
    · subst hm
      exact .inr ⟨i, v, lt, k, hi, by simp [Sys.setProc], by simp [Sys.setProc]⟩
    · left
      simp [Sys.setProc, hm]
  | deliver => left; simp [Sys.serve]
  | tick => exact .inl rfl
  | adbody => left; simp [Sys.serve]
  | admin => left; simp [Sys.serve]

theorem showGate_holder {v : View} {l : Late} (h : v.OnSession sid) (hl : v.sLock = some 1) :
    (showGate sid).status v l = .holder := by
  have hr : (showGate sid).read v = true := decide_eq_true h
  have ht : (showGate sid).tried v = some 1 := hl
  simp [Gate.status, hr, ht]

def showCharges (sid : Bytes) (s : Sys) : Nat := s.log.count (.mark (.deductMoney .shown sid))

structure ShowInv (X : Externals) (sid : Bytes) (s : Sys) : Prop where
  base : Base X s
  lease : Lib.Lease.Inv 900000 ((showGate sid).lease s)
  once : Gate.Once (showGate sid) (·.deducted) (showCharges sid s) s

theorem ShowInv.initial (h : s.Initial) : ShowInv X sid s := by
  have hstatus : ∀ i, (showGate sid).statusOf (s.procs i) = .idle := fun i => by rw [h.procs i]; rfl
  refine ⟨Base.initial h, ?_, ?_, ?_⟩
  · have hlease : (showGate sid).lease s = ⟨s.clock, none, none, fun _ => .idle⟩ := by
      simp only [Gate.lease, hstatus, h.store _ (show (showGate sid).guardKey.reserved = true from rfl),
        h.store _ (show (showGate sid).lockKey.reserved = true from rfl)]
      rfl
    rw [hlease]
    exact Lib.Lease.Inv.start
  · intro _
    simp [showCharges, h.log]
  · intro i p hp
    simp [h.procs i] at hp

theorem ShowInv.step (h : ShowInv X sid s) {l : Label} (ht : Trans X addFloat s l t)
    (hin : InTime (showGate sid) s l) (hfit : Fits (showGate sid) s l)
    (honce : RecordedOnce sid s l) : ShowInv X sid t := by
  have hsim := show_sim h.base ht hin hfit honce
  refine ⟨h.base.step ht, ?_, h.once.step h.lease hsim ?_ ?_⟩
  · rcases hsim with hsim | hsim
    · rw [hsim]
      exact h.lease
    · exact h.lease.step hsim
  · intro i p' hp' hhold
    rcases trans_proc ht hp' with hview | ⟨p, hp, hnext⟩
    · rw [hview] at hhold
      cases hhold
    · exact ⟨p, hp, hnext.deducted⟩
  · rcases count_mark ht (.deductMoney .shown sid) with hcount | ⟨i, v, lt, k, hi, hi', hcount⟩
    · exact .inl hcount.le
    · obtain ⟨hon, hl, -, hd⟩ := h.base.mayMark hi
      exact .inr ⟨i, _, _, hi, hi', showGate_holder hon hl, hd, rfl, hcount.le⟩

/-- In any interleaving of callbacks, deliveries, clock ticks and other
programs, a session whose record is written at most once is charged at most once
for a show, provided no count of its show lock beyond the first is read as 1. -/
theorem show_charged_at_most_once {s₀ : Sys} (h₀ : s₀.Initial) {ls : List Label}
    (hg : Throughout (step X addFloat) (fun s l => InTime (showGate sid) s l ∧
      RecordedOnce sid s l ∧ Fits (showGate sid) s l) s₀ ls)
    (hr : run (step X addFloat) s₀ ls = some t) : showCharges sid t ≤ 1 := by
  have hstep : ∀ s l t, ShowInv X sid s → (InTime (showGate sid) s l ∧ RecordedOnce sid s l ∧
      Fits (showGate sid) s l) → step X addFloat s l = some t → ShowInv X sid t :=
    fun s l t hi ⟨hin, honce, hfit⟩ hs => hi.step (step_trans hs) hin hfit honce
  exact (invariant_run hstep (ShowInv.initial h₀) hg hr).once.le_one

namespace Sample

/-- The store after the first show and `n` counts of the show lock. -/
def shown (n : Int) : Store RedisKey := fun k =>
  if k = .shownum uuidKey then some ⟨.int 1, none⟩
  else if k = .sLock sessionId then some ⟨.int n, none⟩
  else (recorded (ascii "1")).store k

def showCharge : Event := .mark (.deductMoney .shown sessionId)

abbrev showStep := step (externals (ascii "1")) sum

set_option maxRecDepth 20000 in
/-- Every show counts the lock up in its fourth action. -/
def shows : Overrun (externals (ascii "1")) sum where
  request := request (ascii "1")
  charge := showCharge
  store := shown
  actions := 4
  next n := by
    have hlock : (shown n).lookup 0 (.sLock sessionId) = some ⟨.int n, none⟩ := rfl
    refine ⟨_, rfl, (incr_store hlock).trans ?_, rfl⟩
    funext k
    by_cases hk : k = .sLock sessionId <;> simp [shown, hk]

set_option maxRecDepth 20000 in
theorem show_first : ∃ a, alone (externals (ascii "1")) sum (recorded (ascii "1")).store
    (request (ascii "1")) 12 = some a ∧ a.store = shown 1 ∧ a.log.count showCharge = 1 :=
  ⟨_, rfl, rfl, by decide +kernel⟩

set_option maxRecDepth 20000 in
/-- The count 2^32 + 1 is an int of value 1. -/
theorem show_last : ∃ a, alone (externals (ascii "1")) sum (shown ↑(1 + 4294967295))
    (request (ascii "1")) 12 = some a ∧ a.log.count showCharge = 1 :=
  ⟨_, rfl, by decide +kernel⟩

def firstShow : List Label := block (request (ascii "1")) 12 0

theorem show_counted : ∃ t, run showStep (recorded (ascii "1")) firstShow = some t ∧
    shows.Counted 1 t := by
  obtain ⟨a, ha, hstore, hcharge⟩ := show_first
  refine ⟨_, run_block rfl rfl ha, rfl, hstore, fun j hj => ?_, ?_⟩
  · have hj0 : j ≠ 0 := by omega
    simp only [Solo.plug, if_neg hj0]
    rfl
  · have hnone : (recorded (ascii "1")).log.count showCharge = 0 := by decide +kernel
    have hcharge' : a.log.count shows.charge = 1 := hcharge
    have hnone' : (recorded (ascii "1")).log.count shows.charge = 0 := hnone
    simp only [Solo.plug, List.count_append, hcharge', hnone']

end Sample

/-- Two shows of a session act in turn; the second one ends before the first is charged. -/
def Sample.twoShows : List Label :=
  .adbody sessionId (record (ascii "1")) :: .spawn 0 (request (ascii "1")) ::
    .spawn 1 (request (ascii "1")) :: (List.replicate 6 [Label.exec 0, .exec 1]).flatten ++
      List.replicate 6 (.exec 0)

theorem show_charged_at_most_once_two : ∃ t,
    run Sample.showStep Sample.start Sample.twoShows = some t ∧
      showCharges Sample.sessionId t = 1 := by
  have hcharged : ((run Sample.showStep Sample.start Sample.twoShows).any fun t =>
      1 ≤ showCharges Sample.sessionId t) = true := by decide +kernel
  obtain ⟨t, hrun, hone⟩ := (Option.any_eq_true _ _).1 hcharged
  have hle : showCharges Sample.sessionId t ≤ 1 :=
    show_charged_at_most_once Sample.start_initial (by decide +kernel) hrun
  exact ⟨t, hrun, le_antisymm hle (of_decide_eq_true hone)⟩

/-- 2^32 + 1 shows of one session charge it twice. -/
theorem show_charged_twice : ¬ ∀ (s₀ t : Sys) (ls : List Label), s₀.Initial →
    Throughout Sample.showStep (fun s l =>
      InTime (showGate Sample.sessionId) s l ∧ RecordedOnce Sample.sessionId s l) s₀ ls →
    run Sample.showStep s₀ ls = some t → showCharges Sample.sessionId t ≤ 1 := by
  intro h
  obtain ⟨s, hs, hcounted⟩ := Sample.show_counted
  obtain ⟨ls, t, hquiet, ht, hcharges⟩ := hcounted.twice Sample.show_last
  have hall : ∀ l ∈ Sample.firstShow ++ ls, Label.quiet l = true := by
    intro l hl
    rcases List.mem_append.mp hl with hl | hl
    · exact block_quiet hl
    · exact hquiet l hl
  have hallowed : Throughout Sample.showStep (fun s l =>
      InTime (showGate Sample.sessionId) s l ∧ RecordedOnce Sample.sessionId s l) Sample.start
      (.adbody Sample.sessionId (Sample.record (ascii "1")) :: (Sample.firstShow ++ ls)) :=
    Sample.throughout_recorded (fun s l hl hs => ⟨hs.inTime rfl, Label.quiet.recordedOnce hl⟩)
      ⟨trivial, fun _ => rfl⟩ hall
  have hrun : run Sample.showStep (Sample.recorded (ascii "1")) (Sample.firstShow ++ ls) =
      some t := by
    rw [run_append, hs]
    exact ht
  have hrun := (Sample.run_recorded (ascii "1") (Sample.firstShow ++ ls)).trans hrun
  have hle := h _ t _ Sample.start_initial hallowed hrun
  have htwo : showCharges Sample.sessionId t = 2 := hcharges
  omega

end Doorhinges.Callback

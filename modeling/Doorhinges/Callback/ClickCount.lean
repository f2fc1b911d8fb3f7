import Doorhinges.Callback.Charging
import Doorhinges.Lib.Tickets

/-!
# Billed clicks of one key on one day

The day counter hands every counted click a number of its own; a click is billed
as masclick only with a number up to 2. This needs neither locks nor timing.
-/
namespace Doorhinges.Callback

open Lib.CString
open Lib.Redis (Cmd Reply Store Field Entry Value counterOf exec_hincrby_one)
open Lib.Program

variable {X : Externals} {addFloat : Option Field → Bytes → Bytes} {s t : Sys} {day key : Bytes}

/-- The number a callback got for its key on that day. -/
def View.number (day key : Bytes) (v : View) : Option Int :=
  v.clicknum.bind fun c => if c.1 = day ∧ c.2.1 = key then some c.2.2 else none

def isMasclick (X : Externals) (day key : Bytes) : Event → Bool
  | .mark (.masclick _ d k) => d = day && X.md5 (sessionKeyText k) = key
  | _ => false

/-- The day counter of one key and the callbacks that were counted by it. -/
def tickets (X : Externals) (day key : Bytes) (s : Sys) : Lib.Tickets.State Nat where
  last := counterOf key (s.store (.clicknum day))
  number i := (s.procs i).bind fun p => p.view.number day key
  spent i := (s.procs i).any fun p => (p.view.number day key).isSome && p.view.masclicked
  count := s.log.countP (isMasclick X day key)

theorem number_some {v : View} {m : Int} (h : v.clicknum = some (day, key, m)) :
    v.number day key = some m := by
  simp [View.number, h]

theorem number_none {v : View} (h : v.clicknum = none) : v.number day key = none := by
  simp [View.number, h]

theorem number_other {v : View} {d k : Bytes} {m : Int} (h : v.clicknum = some (d, k, m))
    (hne : ¬(d = day ∧ k = key)) : v.number day key = none := by
  simp [View.number, h, hne]

theorem tickets_setProc (i : Nat) (p : Proc) :
    tickets X day key (s.setProc i p) =
      { tickets X day key s with
        number := Function.update (tickets X day key s).number i (p.view.number day key)
        spent := Function.update (tickets X day key s).spent i
          ((p.view.number day key).isSome && p.view.masclicked) } := by
  simp only [tickets, Sys.setProc, Lib.Tickets.State.mk.injEq, true_and, and_true]
  constructor
  · funext j
    by_cases hj : j = i
    · subst hj
      simp
    · simp [hj]
  · funext j
    by_cases hj : j = i
    · subst hj
      simp
    · simp [hj]

theorem tickets_setProc_same {i : Nat} {p q : Proc} (hi : s.procs i = some q)
    (hn : p.view.number day key = q.view.number day key)
    (hm : (q.view.number day key).isSome = true → p.view.masclicked = q.view.masclicked) :
    tickets X day key (s.setProc i p) = tickets X day key s := by
  have hspent : ((p.view.number day key).isSome && p.view.masclicked) =
      (tickets X day key s).spent i := by
    rw [hn]
    cases hs : (q.view.number day key).isSome with
    | false => simp [tickets, hi, hs]
    | true => simp [tickets, hi, hs, hm hs]
  have hnumber : p.view.number day key = (tickets X day key s).number i := by
    simp [tickets, hi, hn]
  rw [tickets_setProc, hspent, hnumber]
  simp

/-- A command on another key is no draw. -/
theorem tickets_serve_other {c : Command} (hc : .clicknum day ≠ c.key) :
    tickets X day key (s.serve addFloat c).2 = tickets X day key s := by
  have hrun := Store.run_other addFloat s.store s.clock c hc
  simp only [tickets, Sys.serve, hrun, Lib.Tickets.State.mk.injEq, true_and, List.countP_append]
  simp [isMasclick]

theorem tickets_mark_other {m : Mark} (hm : isMasclick X day key (.mark m) = false) :
    tickets X day key { s with log := s.log ++ [Event.mark m] } = tickets X day key s := by
  simp [tickets, List.countP_append, hm]

theorem sendable_not_count {c : Command} (hc : Sendable c) : .clicknum day ≠ c.key := by
  cases hc with
  | plain hfree =>
    rintro hk
    rw [← hk] at hfree
    cases hfree
  | sExpire _ => simp [Cmd.key]
  | cExpire _ => simp [Cmd.key]
  | record _ _ _ => simp [Cmd.key]

/-- Counting a click draws its number. -/
theorem tickets_count (hb : Base X s) {i : Nat} {v : View} {l : Late} {p : Proc} {prog : Act Unit}
    {d k : Bytes} (hi : s.procs i = some ⟨prog, v, l⟩) (hv : v.clicknum = none)
    (hm : v.masclicked = false) (hpm : p.view.masclicked = false)
    (hp : p.view.clicknum =
      some (d, k, (s.serve addFloat (.hincrby (.clicknum d) k 1)).1.integer)) :
    tickets X day key ((s.serve addFloat (.hincrby (.clicknum d) k 1)).2.setProc i p) =
        tickets X day key s ∨
      Lib.Tickets.Step 2 (tickets X day key s)
        (tickets X day key ((s.serve addFloat (.hincrby (.clicknum d) k 1)).2.setProc i p)) := by
  have hnone : v.number day key = none := number_none hv
  by_cases hd : d = day
  · subst hd
    have hlook : s.store.lookup s.clock (.clicknum d) = s.store (.clicknum d) := by
      cases hst : s.store (.clicknum d) with
      | none => simp [Store.lookup, hst]
      | some e =>
        refine Store.lookup_some.mpr ⟨hst, ?_⟩
        have hcounters : e.Counters := hb.entries _ e hst
        simp [Entry.alive, hcounters.1]
    obtain ⟨e, hexec, -, hself, hothers⟩ :=
      exec_hincrby_one addFloat s.clock (RedisKey.clicknum d) k (hb.entries (.clicknum d))
    rw [← hlook] at hexec
    have hreply : (s.serve addFloat (.hincrby (.clicknum d) k 1)).1 =
        .int (counterOf k (s.store (.clicknum d)) + 1) := by
      rw [← hlook]
      exact congrArg Prod.fst hexec
    have hstore : (s.serve addFloat (.hincrby (.clicknum d) k 1)).2.store (.clicknum d) = some e :=
      Store.run_self addFloat (c := Cmd.hincrby (RedisKey.clicknum d) k 1)
        (congrArg Prod.snd hexec)
    rw [hreply] at hp
    have hlog : (s.serve addFloat (.hincrby (.clicknum d) k 1)).2.log.countP
        (isMasclick X d key) = s.log.countP (isMasclick X d key) := by
      simp [Sys.serve, List.countP_append, isMasclick]
    by_cases hk : k = key
    · subst hk
      right
      have hstep : Lib.Tickets.Step 2 (tickets X d k s) _ :=
        .draw (tickets X d k s) i (by simp [tickets, hi, hnone])
      convert hstep using 1
      rw [tickets_setProc, number_some hp, hpm]
      have hspent : (tickets X d k s).spent i = false := by simp [tickets, hi, hm]
      simp only [tickets, hstore, hself, hlog, Bool.and_false, Lib.Tickets.State.mk.injEq, true_and,
        and_true]
      refine ⟨rfl, ?_⟩
      exact (congrArg _ hspent.symm).trans (Function.update_eq_self i (tickets X d k s).spent)
    · left
      have hpn : p.view.number d key = none := number_other hp fun h => hk h.2
      have hsame : tickets X d key (s.serve addFloat (.hincrby (.clicknum d) k 1)).2 =
          tickets X d key s := by
        simp only [tickets, hstore, hlog, hothers key (Ne.symm hk)]
        rfl
      have hproc : (s.serve addFloat (.hincrby (.clicknum d) k 1)).2.procs i = _ := hi
      rw [tickets_setProc_same hproc (hpn.trans hnone.symm) fun h => by simp [hnone] at h, hsame]
  · left
    have hpn : p.view.number day key = none := number_other hp fun h => hd h.1
    have hproc : (s.serve addFloat (.hincrby (.clicknum d) k 1)).2.procs i = _ := hi
    rw [tickets_setProc_same hproc (hpn.trans hnone.symm) fun h => by simp [hnone] at h,
      tickets_serve_other (by simpa [Cmd.key] using Ne.symm hd)]

theorem number_congr {v w : View} (h : w.clicknum = v.clicknum) :
    w.number day key = v.number day key := by
  simp only [View.number, h]

theorem tickets_call (hb : Base X s) {i : Nat} {v : View} {l : Late} {c : Command}
    {k : Option Reply → Act Unit} (hi : s.procs i = some ⟨.call c k, v, l⟩) :
    let t := (s.serve addFloat c).2.setProc i
      ⟨k (some (s.serve addFloat c).1), v.called X c (some (s.serve addFloat c).1), l.called c⟩
    tickets X day key t = tickets X day key s ∨
      Lib.Tickets.Step 2 (tickets X day key s) (tickets X day key t) := by
  intro t
  have hother : (∀ d, c.key ≠ .clicknum d) → tickets X day key t = tickets X day key s := by
    intro hc
    have hproc : (s.serve addFloat c).2.procs i = some ⟨.call c k, v, l⟩ := hi
    refine (tickets_setProc_same hproc (number_congr (called_clicknum hc)) fun _ =>
      called_flags.2.1).trans ?_
    exact tickets_serve_other (Ne.symm (hc day))
  cases callShape (hb.mayCall hi) with
  | getSession k' _ => exact .inl (hother (by simp [Cmd.key]))
  | sIncr k' _ _ _ => exact .inl (hother (by simp [Cmd.key]))
  | getShown k' _ _ _ _ => exact .inl (hother (by simp [Cmd.key]))
  | cIncr k' _ _ _ => exact .inl (hother (by simp [Cmd.key]))
  | count d k' hv hm => exact tickets_count hb hi hv hm hm rfl
  | free hfree =>
    refine .inl (hother fun d hd => ?_)
    rw [hd] at hfree
    cases hfree

theorem tickets_mark (hb : Base X s) {i : Nat} {v : View} {l : Late} {m : Mark} {k : Act Unit}
    (hi : s.procs i = some ⟨.mark m k, v, l⟩) :
    let t := { s with log := s.log ++ [Event.mark m] }.setProc i ⟨k, v.marked m, l⟩
    tickets X day key t = tickets X day key s ∨
      Lib.Tickets.Step 2 (tickets X day key s) (tickets X day key t) := by
  intro t
  have hclick : (v.marked m).clicknum = v.clicknum := by
    unfold View.marked
    split <;> rfl
  have hnumber : (v.marked m).number day key = v.number day key := number_congr hclick
  cases hm : isMasclick X day key (.mark m) with
  | false =>
    left
    have hi' : { s with log := s.log ++ [Event.mark m] }.procs i = some ⟨.mark m k, v, l⟩ := hi
    refine (tickets_setProc_same hi' hnumber fun hsome => ?_).trans (tickets_mark_other hm)
    cases m with
    | masclick sid d key' =>
      obtain ⟨-, -, -, -, n, -, hn⟩ := hb.mayMark hi
      have hnone : v.number day key = none := by
        refine number_other hn fun h => ?_
        simp [isMasclick, h] at hm
      simp [hnone] at hsome
    | answer _ | quickAnswer | logged _ _ _ | accepted _ | deductMoney _ _ => rfl
  | true =>
    right
    cases m with
    | masclick sid d key' =>
      obtain ⟨rfl, rfl⟩ : d = day ∧ X.md5 (sessionKeyText key') = key := by
        simpa [isMasclick] using hm
      obtain ⟨-, -, hfresh, -, n, hle, hn⟩ := hb.mayMark hi
      have hsome := number_some hn
      have hstep : Lib.Tickets.Step 2 (tickets X d (X.md5 (sessionKeyText key')) s) _ :=
        .spend _ i n (by simp [tickets, hi, hsome]) hle (by simp [tickets, hi, hfresh])
      convert hstep using 1
      simp only [t, tickets_setProc, hnumber, hsome]
      have hold : (tickets X d (X.md5 (sessionKeyText key')) s).number i = some n := by
        simp [tickets, hi, hsome]
      have hcount : (s.log ++ [Event.mark (.masclick sid d key')]).countP
          (isMasclick X d (X.md5 (sessionKeyText key'))) =
          s.log.countP (isMasclick X d (X.md5 (sessionKeyText key'))) + 1 := by
        simp [List.countP_append, hm]
      rw [← hold]
      simp only [tickets, hcount, View.marked, Bool.and_true,
        Lib.Tickets.State.mk.injEq, true_and, and_true]
      exact ⟨Function.update_eq_self i _, by simp [hi, hsome]⟩
    | answer _ | quickAnswer | logged _ _ _ | accepted _ | deductMoney _ _ => cases hm

/-- Every step draws a number, spends one, or leaves the tickets alone. -/
theorem tickets_sim (hb : Base X s) {l : Label} (ht : Trans X addFloat s l t) :
    tickets X day key t = tickets X day key s ∨
      Lib.Tickets.Step 2 (tickets X day key s) (tickets X day key t) := by
  cases ht with
  | spawn i q hi =>
    left
    have hnumber : (tickets X day key s).number i = none := by simp [tickets, hi]
    have hspent : (tickets X day key s).spent i = false := by simp [tickets, hi]
    rw [tickets_setProc]
    show { tickets X day key s with
      number := Function.update (tickets X day key s).number i none
      spent := Function.update (tickets X day key s).spent i false } = _
    rw [← hnumber, ← hspent, Function.update_eq_self, Function.update_eq_self]
  | call i v l c k hi => exact tickets_call hb hi
  | send i v l c k hi =>
    left
    have hclick : (v.sent c).clicknum = v.clicknum ∧ (v.sent c).masclicked = v.masclicked := by
      unfold View.sent
      split <;> exact ⟨rfl, rfl⟩
    exact tickets_setProc_same hi (number_congr hclick.1) fun _ => hclick.2
  | mark i v l m k hi => exact tickets_mark hb hi
  | deliver n c hc =>
    exact .inl (tickets_serve_other (sendable_not_count (hb.outgoing c (List.mem_of_getElem? hc))))
  | tick d =>
    left
    simp only [tickets, Lib.Tickets.State.mk.injEq, true_and, and_true]
    constructor
    · funext i
      cases s.procs i <;> rfl
    · funext i
      cases s.procs i <;> rfl
  | adbody k text r hr hid => exact .inl (tickets_serve_other (by simp [Cmd.key]))
  | admin c hc => exact .inl (tickets_serve_other (sendable_not_count (.plain hc)))

theorem tickets_initial (h : s.Initial) :
    tickets X day key s = ⟨0, fun _ => none, fun _ => false, 0⟩ := by
  have hst : s.store (.clicknum day) = none := h.store _ rfl
  simp [tickets, h.procs, h.log, hst, counterOf, Lib.Redis.fieldsOf, Lib.Redis.getField,
    Lib.Redis.numberOf]

end Doorhinges.Callback

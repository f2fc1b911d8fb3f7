import Doorhinges.Callback.ShowLock
import Doorhinges.Callback.ShowRecord
import Doorhinges.Callback.ClickCount
import Mathlib.Data.List.Perm.Basic

/-!
# A click is charged after its show and at most once

The recorded show guards the click lock as the session record guards the show
lock. It is written by the holder of the show lock only, so it is stored once,
and the lease argument applies a second time.
-/
namespace Doorhinges.Callback

open Lib.CString
open Lib.Redis (Cmd Reply Store Field Entry Value)
open Lib.Program
open Lib.Machine
open Lib.Trace

variable {X : Externals} {addFloat : Option Field → Bytes → Bytes} {s t : Sys} {sid : Bytes}

def isRecord (sid : Bytes) : Command → Bool
  | .setex (.shown k) _ _ => k = sid
  | _ => false

/-- The records of the session's show, on their way or stored. -/
def records (sid : Bytes) (s : Sys) : Nat :=
  s.outgoing.countP (isRecord sid) + (s.store (.shown sid)).isSome.toNat

theorem isRecord_iff {c : Command} :
    isRecord sid c = true ↔ ∃ n b, c = .setex (.shown sid) n b := by
  unfold isRecord
  split
  · simp [eq_comm]
  · rename_i hno
    simp only [Bool.false_eq_true, false_iff, not_exists]
    rintro n b rfl
    exact hno sid n b rfl

theorem View.Next.recorded {v w : View} (h : v.Next X w) (hw : w.recorded = false) :
    v.recorded = false := by
  cases h with
  | same => exact hw
  | called c r => rw [called_flags.2.2] at hw; exact hw
  | sent c =>
    unfold View.sent at hw
    split at hw
    · cases hw
    · exact hw
  | marked m => unfold View.marked at hw; split at hw <;> exact hw

theorem records_serve_other {c : Command} (hc : .shown sid ≠ c.key) :
    records sid (s.serve addFloat c).2 = records sid s := by
  simp only [records, Sys.serve, Store.run_other addFloat s.store s.clock c hc]

theorem records_call (hb : Base X s) {i : Nat} {v : View} {l : Late} {c : Command}
    {k : Option Reply → Act Unit} (hi : s.procs i = some ⟨.call c k, v, l⟩) :
    records sid (s.serve addFloat c).2 = records sid s := by
  cases callShape (hb.mayCall hi) with
  | getShown k' _ _ _ _ => simp only [records, Sys.serve, get_same]
  | getSession k' _ => exact records_serve_other (by simp [Cmd.key])
  | sIncr k' _ _ _ => exact records_serve_other (by simp [Cmd.key])
  | cIncr k' _ _ _ => exact records_serve_other (by simp [Cmd.key])
  | count d k' _ _ => exact records_serve_other (by simp [Cmd.key])
  | free hfree =>
    refine records_serve_other ?_
    rintro hk
    rw [← hk] at hfree
    cases hfree

/-- Serving a record stores it; serving anything else leaves the show key alone. -/
theorem records_deliver (hb : Base X s) {n : Nat} {c : Command} (hc : s.outgoing[n]? = some c) :
    records sid ({ s with outgoing := s.outgoing.eraseIdx n }.serve addFloat c).2 ≤
      records sid s := by
  obtain ⟨hn, hget⟩ := List.getElem?_eq_some_iff.mp hc
  have hcount : s.outgoing.countP (isRecord sid) =
      (s.outgoing.eraseIdx n).countP (isRecord sid) + if isRecord sid c then 1 else 0 := by
    rw [← (List.getElem_cons_eraseIdx_perm hn).countP_eq (isRecord sid), hget, List.countP_cons]
  cases hr : isRecord sid c with
  | true =>
    rw [hr, if_pos rfl] at hcount
    have hone := Bool.toNat_le ((s.store.run addFloat s.clock c).2 (.shown sid)).isSome
    simp only [records, Sys.serve, hcount]
    omega
  | false =>
    rw [hr] at hcount
    have hother : .shown sid ≠ c.key := by
      cases hb.outgoing c (List.mem_of_getElem? hc) with
      | plain hfree =>
        rintro hk
        rw [← hk] at hfree
        cases hfree
      | sExpire _ => simp [Cmd.key]
      | cExpire _ => simp [Cmd.key]
      | record k b _ => simpa [isRecord, Cmd.key, eq_comm] using hr
    rw [records_serve_other hother]
    simp only [records, hcount]
    simp

/-- The holder of the show lock sends the session's record, once. -/
theorem recorded_once (hb : Base X s) (hlease : Lib.Lease.Inv 900000 ((showGate sid).lease s))
    (h : Gate.Once (showGate sid) (·.recorded) (records sid s) s) {l : Label}
    (ht : Trans X addFloat s l t)
    (hsim : (showGate sid).lease t = (showGate sid).lease s ∨
      Lib.Lease.Step 900000 ((showGate sid).lease s) ((showGate sid).lease t)) :
    Gate.Once (showGate sid) (·.recorded) (records sid t) t := by
  refine h.step hlease hsim ?_ ?_
  · intro i p' hp' hhold
    rcases trans_proc ht hp' with hview | ⟨p, hp, hnext⟩
    · rw [hview] at hhold
      cases hhold
    · exact ⟨p, hp, hnext.recorded⟩
  · cases ht with
    | spawn i q hi => exact .inl le_rfl
    | call i v l c k hi => exact .inl (records_call hb hi).le
    | mark i v l m k hi => exact .inl le_rfl
    | deliver n c hc => exact .inl (records_deliver hb hc)
    | tick d => exact .inl le_rfl
    | adbody k text r hr hid => exact .inl (records_serve_other (by simp [Cmd.key])).le
    | admin c hc =>
      refine .inl (records_serve_other ?_).le
      rintro hk
      rw [← hk] at hc
      cases hc
    | send i v l c k hi =>
      have hout : (s.outgoing ++ [c]).countP (isRecord sid) =
          s.outgoing.countP (isRecord sid) + if isRecord sid c then 1 else 0 := by
        rw [List.countP_append, List.countP_singleton]
      cases hr : isRecord sid c with
      | false =>
        left
        rw [hr] at hout
        simp only [records, Sys.setProc, hout]
        simp
      | true =>
        right
        rw [hr, if_pos rfl] at hout
        obtain ⟨n, b, rfl⟩ := isRecord_iff.mp hr
        obtain ⟨-, hon, hl, -, hrec, -⟩ := hb.maySend hi
        refine ⟨i, _, ⟨k, v.sent (.setex (.shown sid) n b), l⟩, hi, by simp [Sys.setProc],
          showGate_holder hon hl, hrec, rfl, ?_⟩
        simp only [records, Sys.setProc, hout]
        omega

theorem clickGate_read {v : View} :
    (clickGate sid).read v = true ↔ v.OnSession sid ∧ v.shown.isSome = true := by
  simp [clickGate, View.OnSession]

theorem clickGate_off {v : View} (h : ¬v.OnSession sid) : (clickGate sid).read v = false := by
  rw [Bool.eq_false_iff]
  exact fun hr => h (clickGate_read.mp hr).1

theorem clickGate_unread {v : View} (h : v.shown = none) : (clickGate sid).read v = false := by
  rw [Bool.eq_false_iff]
  intro hr
  have := (clickGate_read.mp hr).2
  simp [h] at this

theorem clickGate_holder {v : View} {l : Late} (h : v.OnSession sid) (hs : v.shown.isSome = true)
    (hl : v.cLock = some 1) : (clickGate sid).status v l = .holder := by
  have ht : (clickGate sid).tried v = some 1 := hl
  simp [Gate.status, clickGate_read.mpr ⟨h, hs⟩, ht]

theorem clickGate_status {v w : View} (hs : w.session = v.session) (hr : w.shown = v.shown)
    (hl : w.cLock = v.cLock) {l m : Late} (hlate : m.cLock = l.cLock) :
    (clickGate sid).status w m = (clickGate sid).status v l :=
  Gate.status_congr (by simp only [clickGate, hs, hr]) hl hlate

/-- A callback that reads the session's recorded show finds it alive. -/
theorem click_read (hb : Base X s) {i : Nat} {v : View} {l : Late} {k : Option Reply → Act Unit}
    (hi : s.procs i = some ⟨.call (.get (.shown sid)) k, v, l⟩) (hon : v.OnSession sid)
    (hs : v.shown = none) (hc : v.cLock = none) :
    let r := (s.serve addFloat (.get (.shown sid))).1
    let t := (s.serve addFloat (.get (.shown sid))).2.setProc i
      ⟨k (some r), v.called X (.get (.shown sid)) (some r), l.called (.get (.shown sid))⟩
    (clickGate sid).lease t = (clickGate sid).lease s ∨
      Lib.Lease.Step 900000 ((clickGate sid).lease s) ((clickGate sid).lease t) := by
  intro r t
  have hidle : (clickGate sid).statusOf (s.procs i) = .idle := by
    rw [hi]
    exact Gate.status_idle (clickGate_unread hs)
  have hsame : (s.serve addFloat (.get (.shown sid))).2.store = s.store := get_same
  have hlease : (clickGate sid).lease t = (clickGate sid).lease (s.setProc i
      ⟨k (some r), v.called X (.get (.shown sid)) (some r), l.called (.get (.shown sid))⟩) := by
    simp only [t, Gate.lease, Sys.setProc, hsame]
    rfl
  rw [hlease]
  cases hr : r.str? with
  | none =>
    left
    refine Gate.lease_setProc_same ?_
    rw [hidle]
    exact Gate.status_idle (clickGate_unread hr)
  | some b =>
    right
    have hstr : r = .str b := by
      revert hr
      cases r <;> simp [Reply.str?]
    obtain ⟨e, he, ha⟩ := get_text hstr (hb.shown_text sid)
    obtain ⟨-, e', he'⟩ := hb.entries _ _ he
    refine Gate.lease_read hidle he he' ha (Gate.status_waiting ?_ hc)
    exact clickGate_read.mpr ⟨hon, Option.isSome_iff_exists.mpr ⟨b, hr⟩⟩

theorem click_call (hb : Base X s) {i : Nat} {v : View} {l : Late} {c : Command}
    {k : Option Reply → Act Unit} (hi : s.procs i = some ⟨.call c k, v, l⟩)
    (hin : InTime (clickGate sid) s (.exec i)) (hfit : Fits (clickGate sid) s (.exec i)) :
    let t := (s.serve addFloat c).2.setProc i
      ⟨k (some (s.serve addFloat c).1), v.called X c (some (s.serve addFloat c).1), l.called c⟩
    (clickGate sid).lease t = (clickGate sid).lease s ∨
      Lib.Lease.Step 900000 ((clickGate sid).lease s) ((clickGate sid).lease t) := by
  intro t
  have hsame : ∀ {c' : Command}, (clickGate sid).guardKey ≠ c'.key →
      (clickGate sid).lockKey ≠ c'.key →
      (clickGate sid).status (v.called X c' (some (s.serve addFloat c').1)) (l.called c') =
        (clickGate sid).status v l →
      (clickGate sid).lease ((s.serve addFloat c').2.setProc i
        ⟨k (some (s.serve addFloat c').1), v.called X c' (some (s.serve addFloat c').1),
          l.called c'⟩) = (clickGate sid).lease s := by
    intro c' hg hl hst
    refine Gate.lease_call_same hg hl ?_
    rw [hi]
    exact hst
  cases callShape (hb.mayCall hi) with
  | getSession k' hf =>
    refine .inl (hsame (by simp [clickGate, Cmd.key]) (by simp [clickGate, Cmd.key]) ?_)
    have hunread : (v.called X (.get (.adsession k'))
        (some (s.serve addFloat (.get (.adsession k'))).1)).shown = none := hf.shown
    exact (Gate.status_idle (clickGate_unread hunread)).trans
      (Gate.status_idle (clickGate_unread hf.shown)).symm
  | sIncr k' hon hl hs =>
    exact .inl (hsame (by simp [clickGate, Cmd.key]) (by simp [clickGate, Cmd.key]) rfl)
  | count d k' hv hm =>
    exact .inl (hsame (by simp [clickGate, Cmd.key]) (by simp [clickGate, Cmd.key]) rfl)
  | free hfree =>
    have hno : ∀ key : RedisKey, key.reserved = true → key ≠ c.key := by
      rintro key hkey rfl
      rw [hfree] at hkey
      cases hkey
    refine .inl (hsame (hno _ rfl) (hno _ rfl) (clickGate_status ?_ ?_ ?_ ?_))
    · exact called_session fun k => (hno (.adsession k) rfl).symm
    · exact called_shown fun k => (hno (.shown k) rfl).symm
    · exact called_cLock fun k => (hno (.cLock k) rfl).symm
    · exact late_cLock fun k => (hno (.shown k) rfl).symm
  | getShown k' hon hs hc hl =>
    by_cases hk : k' = sid
    · subst hk
      exact click_read hb hi hon hs hc
    · have hoff : ¬v.OnSession sid := fun h => hk (Option.some.inj (hon.symm.trans h))
      refine .inl (hsame (by simpa [clickGate, Cmd.key] using Ne.symm hk)
        (by simp [clickGate, Cmd.key]) ?_)
      have hoff' : ¬(v.called X (.get (.shown k'))
          (some (s.serve addFloat (.get (.shown k'))).1)).OnSession sid := hoff
      exact (Gate.status_idle (clickGate_off hoff')).trans
        (Gate.status_idle (clickGate_off hoff)).symm
  | cIncr k' hon hc hs =>
    by_cases hk : k' = sid
    · subst hk
      right
      refine Gate.lease_incr (g := clickGate k') (by simp [clickGate]) (hb.entries _) hi
        (clickGate_read.mpr ⟨hon, hs⟩) hc (fun _ => hin k v l hi) ?_
        (clickGate_read.mpr ⟨hon, hs⟩) rfl
      exact fun n t' hl' ha => hfit k v l hi n t' (lookup_alive hl' ha)
    · have hoff : ¬v.OnSession sid := fun h => hk (Option.some.inj (hon.symm.trans h))
      refine .inl (hsame (by simp [clickGate, Cmd.key])
        (by simpa [clickGate, Cmd.key] using Ne.symm hk) ?_)
      have hoff' : ¬(v.called X (.incr (.cLock k'))
          (some (s.serve addFloat (.incr (.cLock k'))).1)).OnSession sid := hoff
      exact (Gate.status_idle (clickGate_off hoff')).trans
        (Gate.status_idle (clickGate_off hoff)).symm

/-- Every step is a step of the session's click lease or leaves it alone. -/
theorem click_sim (hb : Base X s) (hrec : records sid s ≤ 1) {l : Label}
    (ht : Trans X addFloat s l t) (hin : InTime (clickGate sid) s l)
    (hfit : Fits (clickGate sid) s l) :
    (clickGate sid).lease t = (clickGate sid).lease s ∨
      Lib.Lease.Step 900000 ((clickGate sid).lease s) ((clickGate sid).lease t) := by
  have hkeys : (clickGate sid).guardKey ≠ (clickGate sid).lockKey := by simp [clickGate]
  have hfree : ∀ c : Command, c.key.reserved = false →
      (clickGate sid).lease (s.serve addFloat c).2 = (clickGate sid).lease s := by
    intro c hc
    refine Gate.lease_serve_other ?_ ?_ <;>
    · intro hk
      rw [← hk] at hc
      cases hc
  cases ht with
  | spawn i q hi =>
    left
    refine Gate.lease_setProc_same ?_
    rw [hi]
    exact Gate.status_idle rfl
  | call i v l c k hi => exact click_call hb hi hin hfit
  | send i v l c k hi =>
    left
    obtain ⟨hs, -, hr, hl⟩ := sent_view v c
    refine Gate.lease_setProc_same ?_
    rw [hi]
    exact clickGate_status hs hr hl rfl
  | mark i v l m k hi =>
    left
    obtain ⟨hs, -, hr, hl⟩ := marked_view v m
    refine Gate.lease_setProc_same ?_
    rw [hi]
    exact clickGate_status hs hr hl rfl
  | deliver n c hc =>
    have hmem := List.mem_of_getElem? hc
    cases hb.outgoing c hmem with
    | plain h => exact .inl (hfree c h)
    | sExpire k =>
      exact .inl (Gate.lease_serve_other (by simp [clickGate, Cmd.key]) (by simp [clickGate, Cmd.key]))
    | cExpire k =>
      by_cases hk : k = sid
      · subst hk
        exact Gate.lease_expire hkeys (hb.entries _)
      · exact .inl (Gate.lease_serve_other (by simp [clickGate, Cmd.key])
          (by simpa [clickGate, Cmd.key] using Ne.symm hk))
    | record k b h =>
      by_cases hk : k = sid
      · subst hk
        -- the record on its way is the only one
        have hpos : 0 < s.outgoing.countP (isRecord k) :=
          List.countP_pos_iff.mpr ⟨_, hmem, by simp [isRecord]⟩
        have hnone : s.store (.shown k) = none := by
          unfold records at hrec
          cases hst : s.store (.shown k) with
          | none => rfl
          | some e =>
            simp only [hst, Option.isSome_some, Bool.toNat_true] at hrec
            omega
        exact .inr (Gate.lease_setex hkeys b hnone)
      · exact .inl (Gate.lease_serve_other (by simpa [clickGate, Cmd.key] using Ne.symm hk)
          (by simp [clickGate, Cmd.key]))
  | tick d =>
    refine .inr (Gate.lease_tick d ?_ (hb.entries _))
    intro v l hr
    obtain ⟨a, ha, hid⟩ := Option.map_eq_some_iff.mp (clickGate_read.mp hr).1
    simp [clickGate, Late.ticked, ha, hid]
  | adbody k text r hr hid =>
    exact .inl (Gate.lease_serve_other (by simp [clickGate, Cmd.key]) (by simp [clickGate, Cmd.key]))
  | admin c hc => exact .inl (hfree c hc)

def clickCharges (sid : Bytes) (s : Sys) : Nat := s.log.count (.mark (.deductMoney .click sid))

def isMasclickOf (day : Bytes) (key : ClickKey) : Event → Bool
  | .mark (.masclick _ d k) => d = day && k = key
  | _ => false

/-- What holds of the clicks of a session and of the billed clicks of each day. -/
structure ClickLaw (sid : Bytes) (s : Sys) : Prop where
  after_show : Precedes (accepted sid) (.mark (.deductMoney .click sid)) s.log
  once : clickCharges sid s ≤ 1
  shown_valid : ∀ day key, Precedes (recordedShow sid (decimal IMP_SHOW_VALID))
    (.mark (.masclick sid day key)) s.log
  twice_a_day : ∀ day key, s.log.countP (isMasclickOf day key) ≤ 2

structure ClickInv (X : Externals) (sid : Bytes) (s : Sys) : Prop where
  shown : ShowInv X sid s
  history : History sid s
  recorded : Gate.Once (showGate sid) (·.recorded) (records sid s) s
  lease : Lib.Lease.Inv 900000 ((clickGate sid).lease s)
  once : Gate.Once (clickGate sid) (·.deducted) (clickCharges sid s) s
  counted : ∀ day key, Lib.Tickets.Inv 2 (tickets X day key s)

theorem ClickInv.initial (h : s.Initial) : ClickInv X sid s := by
  have hnobody : ∀ i p, s.procs i ≠ some p := fun i p hp => by simp [h.procs i] at hp
  refine ⟨.initial h, .initial h, ⟨fun _ => ?_, fun i p hp => absurd hp (hnobody i p)⟩, ?_,
    ⟨fun _ => ?_, fun i p hp => absurd hp (hnobody i p)⟩, fun day key => ?_⟩
  · simp [records, h.outgoing, h.store (.shown sid) rfl]
  · have hlease : (clickGate sid).lease s = ⟨s.clock, none, none, fun _ => .idle⟩ := by
      have hstatus : ∀ i, (clickGate sid).statusOf (s.procs i) = .idle := fun i => by
        rw [h.procs i]
        rfl
      simp only [Gate.lease, hstatus,
        h.store _ (show (clickGate sid).guardKey.reserved = true from rfl),
        h.store _ (show (clickGate sid).lockKey.reserved = true from rfl)]
      rfl
    rw [hlease]
    exact Lib.Lease.Inv.start
  · simp [clickCharges, h.log]
  · rw [tickets_initial h]
    exact Lib.Tickets.Inv.start

theorem ClickInv.step (h : ClickInv X sid s) {l : Label} (ht : Trans X addFloat s l t)
    (hin : InTime (showGate sid) s l) (hcin : InTime (clickGate sid) s l)
    (honce : RecordedOnce sid s l) (hfit : Fits (showGate sid) s l)
    (hcfit : Fits (clickGate sid) s l) : ClickInv X sid t := by
  have hb := h.shown.base
  have hsim := click_sim hb h.recorded.le_one ht hcin hcfit
  have hshow := show_sim hb ht hin hfit honce
  refine ⟨h.shown.step ht hin hfit honce, h.history.step hb ht,
    recorded_once hb h.shown.lease h.recorded ht hshow, ?_, h.once.step h.lease hsim ?_ ?_,
    fun day key => ?_⟩
  · rcases hsim with hsim | hsim
    · rw [hsim]
      exact h.lease
    · exact h.lease.step hsim
  · intro i p' hp' hhold
    rcases trans_proc ht hp' with hview | ⟨p, hp, hnext⟩
    · rw [hview] at hhold
      cases hhold
    · exact ⟨p, hp, hnext.deducted⟩
  · rcases count_mark ht (.deductMoney .click sid) with hcount | ⟨i, v, lt, k, hi, hi', hcount⟩
    · exact .inl hcount.le
    · obtain ⟨hon, hl, hs, hd⟩ := hb.mayMark hi
      exact .inr ⟨i, _, _, hi, hi', clickGate_holder hon hs hl, hd, rfl, hcount.le⟩
  · rcases tickets_sim hb ht with hsame | hstep
    · rw [hsame]
      exact h.counted day key
    · exact (h.counted day key).step hstep

theorem ClickInv.law (h : ClickInv X sid s) : ClickLaw sid s := by
  refine ⟨h.history.charged, h.once.le_one, h.history.billed, fun day key => ?_⟩
  have hle := (h.counted day (X.md5 (sessionKeyText key))).count_le
  refine le_trans (List.countP_mono_left fun e _ he => ?_) hle
  unfold isMasclickOf at he
  split at he
  · obtain ⟨hd, hk⟩ : _ ∧ _ := by simpa using he
    simp [isMasclick, hd, hk]
  · cases he

/-- In any interleaving: a click is charged after an accepted show of its session
and at most once, and a click is billed as masclick only after a valid show and at
most twice a day for one key. The one charge needs that no count of a lock beyond
the first is read as 1. -/
theorem click_law {s₀ : Sys} (h₀ : s₀.Initial) {ls : List Label}
    (hg : Throughout (step X addFloat) (fun s l => (InTime (showGate sid) s l ∧
      InTime (clickGate sid) s l ∧ RecordedOnce sid s l) ∧
      Fits (showGate sid) s l ∧ Fits (clickGate sid) s l) s₀ ls)
    (hr : run (step X addFloat) s₀ ls = some t) : ClickLaw sid t := by
  have hstep : ∀ s l t, ClickInv X sid s → ((InTime (showGate sid) s l ∧
      InTime (clickGate sid) s l ∧ RecordedOnce sid s l) ∧
      Fits (showGate sid) s l ∧ Fits (clickGate sid) s l) →
      step X addFloat s l = some t → ClickInv X sid t :=
    fun s l t hi ⟨⟨hin, hcin, honce⟩, hfit, hcfit⟩ hs =>
      hi.step (step_trans hs) hin hcin honce hfit hcfit
  exact (invariant_run hstep (ClickInv.initial h₀) hg hr).law

namespace Sample

/-- The store after an accepted show, its record, and `n` counts of the click lock. -/
def clicked (n : Int) : Store RedisKey := fun k =>
  if k = .clicknum day then some ⟨.hash [(sessionKey, .int 1)], none⟩
  else if k = .cLock sessionId then some ⟨.int n, none⟩
  else if k = .shown sessionId then some ⟨.text (ascii "1"), some 900000⟩
  else if k = .shownum uuidKey then some ⟨.int 1, none⟩
  else if k = .sLock sessionId then some ⟨.int 1, none⟩
  else (recorded (ascii "2")).store k

def clickCharge : Event := .mark (.deductMoney .click sessionId)

abbrev clickStep := step (externals (ascii "2")) sum

set_option maxRecDepth 20000 in
/-- Every click counts the click lock up in its fifth action. -/
def clicks : Overrun (externals (ascii "2")) sum where
  request := request (ascii "2")
  charge := clickCharge
  store := clicked
  actions := 5
  next n := by
    have hlock : (clicked n).lookup 0 (.cLock sessionId) = some ⟨.int n, none⟩ := rfl
    refine ⟨_, rfl, (incr_store hlock).trans ?_, rfl⟩
    funext k
    by_cases hk : k = .cLock sessionId <;> simp [clicked, hk]

/-- A show up to its record, which is served, and a click up to its charge. -/
def firstClick : List Label :=
  block (request (ascii "1")) 14 0 ++ .deliver 6 :: block (request (ascii "2")) 12 1

theorem firstClick_quiet {l : Label} (h : l ∈ firstClick) : l.quiet = true := by
  rcases List.mem_append.mp h with h | h
  · exact block_quiet h
  · rcases List.mem_cons.mp h with rfl | h
    · rfl
    · exact block_quiet h

set_option maxRecDepth 20000 in
theorem click_run : ∃ t, run clickStep (recorded (ascii "2")) firstClick = some t ∧
    t.clock = 0 ∧ t.store = clicked 1 ∧ t.log.count clickCharge = 1 := by
  refine ⟨_, rfl, rfl, rfl, by decide +kernel⟩

theorem click_counted : ∃ t, run clickStep (recorded (ascii "2")) firstClick = some t ∧
    clicks.Counted 1 t := by
  obtain ⟨t, hrun, hclock, hstore, hcharge⟩ := click_run
  refine ⟨t, hrun, hclock, hstore, fun j hj => ?_, hcharge⟩
  have hnone : (recorded (ascii "2")).procs j = none := rfl
  refine unused_run (fun q hq => ?_) hnone hrun
  simp only [firstClick, block, List.mem_append, List.mem_cons, List.mem_replicate,
    Label.spawn.injEq, reduceCtorEq, and_false, or_false, false_or] at hq
  omega

set_option maxRecDepth 20000 in
/-- The count 2^32 + 1 is an int of value 1. -/
theorem click_last : ∃ a, alone (externals (ascii "2")) sum (clicked ↑(1 + 4294967295))
    (request (ascii "2")) 12 = some a ∧ a.log.count clickCharge = 1 :=
  ⟨_, rfl, by decide +kernel⟩

end Sample

/-- A show, and two clicks that act in turn; the second one ends before the first is charged. -/
def Sample.twoClicks : List Label :=
  .adbody sessionId (record (ascii "2")) :: block (request (ascii "1")) 14 0 ++
    .deliver 6 :: .spawn 1 (request (ascii "2")) :: .spawn 2 (request (ascii "2")) ::
      (List.replicate 7 [Label.exec 1, .exec 2]).flatten ++ List.replicate 5 (.exec 1)

theorem click_law_two : ∃ t, run Sample.clickStep Sample.start Sample.twoClicks = some t ∧
    ClickLaw Sample.sessionId t ∧ clickCharges Sample.sessionId t = 1 := by
  have hcharged : ((run Sample.clickStep Sample.start Sample.twoClicks).any fun t =>
      1 ≤ clickCharges Sample.sessionId t) = true := by decide +kernel
  obtain ⟨t, hrun, hone⟩ := (Option.any_eq_true _ _).1 hcharged
  have hlaw : ClickLaw Sample.sessionId t :=
    click_law Sample.start_initial (by decide +kernel) hrun
  exact ⟨t, hrun, hlaw, le_antisymm hlaw.once (of_decide_eq_true hone)⟩

/-- 2^32 + 1 clicks of one session charge it twice. -/
theorem click_charged_twice : ¬ ∀ (s₀ t : Sys) (ls : List Label), s₀.Initial →
    Throughout Sample.clickStep (fun s l => InTime (showGate Sample.sessionId) s l ∧
      InTime (clickGate Sample.sessionId) s l ∧ RecordedOnce Sample.sessionId s l) s₀ ls →
    run Sample.clickStep s₀ ls = some t → ClickLaw Sample.sessionId t := by
  intro h
  obtain ⟨s, hs, hcounted⟩ := Sample.click_counted
  obtain ⟨ls, t, hquiet, ht, hcharges⟩ := hcounted.twice Sample.click_last
  have hall : ∀ l ∈ Sample.firstClick ++ ls, Label.quiet l = true := by
    intro l hl
    rcases List.mem_append.mp hl with hl | hl
    · exact Sample.firstClick_quiet hl
    · exact hquiet l hl
  have hallowed : Throughout Sample.clickStep (fun s l =>
      InTime (showGate Sample.sessionId) s l ∧ InTime (clickGate Sample.sessionId) s l ∧
        RecordedOnce Sample.sessionId s l) Sample.start
      (.adbody Sample.sessionId (Sample.record (ascii "2")) :: (Sample.firstClick ++ ls)) :=
    Sample.throughout_recorded (fun s l hl hs => ⟨hs.inTime rfl, hs.inTime rfl,
      Label.quiet.recordedOnce hl⟩) ⟨trivial, trivial, fun _ => rfl⟩ hall
  have hrun : run Sample.clickStep (Sample.recorded (ascii "2")) (Sample.firstClick ++ ls) =
      some t := by
    rw [run_append, hs]
    exact ht
  have hrun := (Sample.run_recorded (ascii "2") (Sample.firstClick ++ ls)).trans hrun
  have hle := (h _ t _ Sample.start_initial hallowed hrun).once
  have htwo : clickCharges Sample.sessionId t = 2 := hcharges
  omega

end Doorhinges.Callback

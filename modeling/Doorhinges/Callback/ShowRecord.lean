import Doorhinges.Callback.Charging
import Doorhinges.Lib.Trace

/-!
# What a recorded show says about the past

A show is recorded only by a callback that passed the show limits, and a click
gets past the show test only by reading such a record. This holds in every
interleaving, however the clock moves.
-/
namespace Doorhinges.Callback

open Lib.CString
open Lib.Redis (Cmd Reply Store Field Entry Value)
open Lib.Program
open Lib.Trace

variable {X : Externals} {addFloat : Option Field → Bytes → Bytes} {s t : Sys} {sid : Bytes}

def accepted (sid : Bytes) : Event := .mark (.accepted sid)

/-- The server has stored that the session's show is `b`. -/
def recordedShow (sid b : Bytes) : Event := .ran (.setex (.shown sid) 900 b) .status

structure ShownAs (sid b : Bytes) (log : List Event) : Prop where
  accepted : accepted sid ∈ log
  recorded : recordedShow sid b ∈ log

/-- What the log says about what a callback has learnt. -/
structure Informed (sid : Bytes) (log : List Event) (v : View) : Prop where
  accepted : v.OnSession sid → v.accepted = true → accepted sid ∈ log
  shown : v.OnSession sid → ∀ b, v.shown = some b → ShownAs sid b log ∧
    (b = decimal IMP_SHOW_VALID ∨ b = decimal IMP_SHOW_INVALID)

structure History (sid : Bytes) (s : Sys) : Prop where
  procs : ∀ i p, s.procs i = some p → Informed sid s.log p.view
  sent : ∀ n b, Cmd.setex (.shown sid) n b ∈ s.outgoing → accepted sid ∈ s.log
  stored : ∀ b e, s.store (.shown sid) = some ⟨.text b, e⟩ → ShownAs sid b s.log
  charged : Precedes (accepted sid) (.mark (.deductMoney .click sid)) s.log
  billed : ∀ day key, Precedes (recordedShow sid (decimal IMP_SHOW_VALID))
    (.mark (.masclick sid day key)) s.log

theorem ShownAs.snoc {b : Bytes} {log : List Event} (h : ShownAs sid b log) (e : Event) :
    ShownAs sid b (log ++ [e]) :=
  ⟨List.mem_append_left _ h.accepted, List.mem_append_left _ h.recorded⟩

namespace Informed

variable {log : List Event} {v : View}

theorem fresh : Informed sid log {} := ⟨fun h => (by cases h), fun h => (by cases h)⟩

theorem snoc (h : Informed sid log v) (e : Event) : Informed sid (log ++ [e]) v :=
  ⟨fun hon ha => List.mem_append_left _ (h.accepted hon ha),
    fun hon b hb => ⟨(h.shown hon b hb).1.snoc e, (h.shown hon b hb).2⟩⟩

theorem congr {w : View} (h : Informed sid log v) (hs : w.session = v.session)
    (ha : w.accepted = v.accepted) (hb : w.shown = v.shown) : Informed sid log w :=
  ⟨fun hon hw => h.accepted (by rw [View.OnSession, ← hs]; exact hon) (ha ▸ hw),
    fun hon b hw => h.shown (by rw [View.OnSession, ← hs]; exact hon) b (hb ▸ hw)⟩

theorem called {c : Command} {r : Reply} (h : Informed sid log v) (hc : mayCall v c)
    (hr : c = .get (.shown sid) → ∀ b, r.str? = some b → ShownAs sid b log ∧
      (b = decimal IMP_SHOW_VALID ∨ b = decimal IMP_SHOW_INVALID)) :
    Informed sid log (v.called X c (some r)) := by
  cases callShape hc with
  | getSession k hf =>
    constructor
    · intro _ ha
      have hno : v.accepted = true := ha
      simp [hf.accepted] at hno
    · intro _ b hb
      have hno : v.shown = some b := hb
      simp [hf.shown] at hno
  | getShown k hon hs hk hl =>
    refine ⟨h.accepted, fun hon' b hb => hr ?_ b hb⟩
    obtain rfl : k = sid := Option.some.inj (hon.symm.trans hon')
    rfl
  | sIncr k hon hl hs => exact h.congr rfl rfl rfl
  | cIncr k hon hk hs => exact h.congr rfl rfl rfl
  | count d k hk hm => exact h.congr rfl rfl rfl
  | free hfree =>
    refine h.congr (called_session ?_) called_flags.1 (called_shown ?_)
    · intro k hk
      simp [hk, RedisKey.reserved] at hfree
    · intro k hk
      simp [hk, RedisKey.reserved] at hfree

theorem sent (h : Informed sid log v) (c : Command) : Informed sid log (v.sent c) := by
  obtain ⟨hs, -, hb, -⟩ := sent_view v c
  refine h.congr hs ?_ hb
  unfold View.sent
  split <;> rfl

theorem marked {m : Mark} (h : Informed sid log v) (hm : mayMark X v m) :
    Informed sid (log ++ [Event.mark m]) (v.marked m) := by
  obtain ⟨hs, -, hb, -⟩ := marked_view v m
  refine ⟨fun hon ha => ?_, fun hon b hw => ?_⟩
  · have hon' : v.OnSession sid := by
      rw [View.OnSession, ← hs]
      exact hon
    cases m with
    | accepted k =>
      obtain rfl : k = sid := Option.some.inj (hm.1.symm.trans hon')
      exact List.mem_append_right _ List.mem_cons_self
    | answer _ | quickAnswer | logged _ _ _ | deductMoney _ _ | masclick _ _ _ =>
      exact List.mem_append_left _ (h.accepted hon' ha)
  · rw [hb] at hw
    exact ((h.snoc _).shown (by rw [View.OnSession, ← hs]; exact hon) b hw)

end Informed

/-- Only the delivery of a recorded show changes the show key. -/
theorem shown_origin {st : Store RedisKey} {now : Nat} {c : Command} (hc : Served X c)
    {b : Bytes} {e : Option Nat} (h : (st.run addFloat now c).2 (.shown sid) = some ⟨.text b, e⟩) :
    st (.shown sid) = some ⟨.text b, e⟩ ∨ c = .setex (.shown sid) 900 b := by
  rcases Store.run_origin addFloat h with hold | ⟨hkey, hnew⟩
  · exact .inl hold
  · cases hc with
    | sent hs =>
      cases hs with
      | plain hfree => simp [← hkey, RedisKey.reserved] at hfree
      | sExpire k => cases hkey
      | cExpire k => cases hkey
      | record k b' hb =>
        cases hkey
        obtain ⟨rfl, -⟩ : b' = b ∧ _ := by simpa [Cmd.exec] using hnew
        exact .inr rfl
    | getShown k =>
      cases hkey
      rw [get_entry] at hnew
      exact .inl (Store.lookup_some.mp hnew).1
    | getSession k => cases hkey
    | sIncr k => cases hkey
    | cIncr k => cases hkey
    | count d k => cases hkey
    | adbody k text r hr hid => cases hkey

namespace History

theorem initial (h : s.Initial) : History sid s where
  procs i p hp := by simp [h.procs i] at hp
  sent n b hc := by simp [h.outgoing] at hc
  stored b e he := by simp [h.store (.shown sid) rfl] at he
  charged := by rw [h.log]; exact .nil
  billed day key := by rw [h.log]; exact .nil

/-- The server runs a command: what it stores was on its way. -/
theorem serve (h : History sid s) {c : Command} (hc : Served X c)
    (hsent : ∀ b, c = .setex (.shown sid) 900 b → accepted sid ∈ s.log) :
    History sid (s.serve addFloat c).2 where
  procs i p hp := (h.procs i p hp).snoc _
  sent n b hb := List.mem_append_left _ (h.sent n b hb)
  stored b e he := by
    rcases shown_origin hc he with hold | rfl
    · exact (h.stored b e hold).snoc _
    · exact ⟨List.mem_append_left _ (hsent b rfl), List.mem_append_right _ List.mem_cons_self⟩
  charged := h.charged.snoc fun he => by cases he
  billed day key := (h.billed day key).snoc fun he => by cases he

theorem setProc (h : History sid s) {i : Nat} {p : Proc} (hp : Informed sid s.log p.view) :
    History sid (s.setProc i p) := by
  refine ⟨fun j q hq => ?_, h.sent, h.stored, h.charged, h.billed⟩
  rcases setProc_some hq with ⟨-, rfl⟩ | hq
  · exact hp
  · exact h.procs j q hq

/-- A click that may charge has read a recorded show. -/
theorem mark (h : History sid s) {i : Nat} {v : View} {l : Late} {m : Mark} {k : Act Unit}
    (hi : s.procs i = some ⟨.mark m k, v, l⟩) (hm : mayMark X v m) :
    History sid ({ s with log := s.log ++ [Event.mark m] }.setProc i ⟨k, v.marked m, l⟩) := by
  have hv := h.procs i _ hi
  suffices hlog : History sid { s with log := s.log ++ [Event.mark m] } from
    hlog.setProc (hv.marked hm)
  refine ⟨fun j q hq => (h.procs j q hq).snoc _, fun n b hb =>
    List.mem_append_left _ (h.sent n b hb), fun b e he => (h.stored b e he).snoc _, ?_, ?_⟩
  · refine h.charged.snoc fun he => ?_
    obtain rfl : m = .deductMoney .click sid := by simpa using he
    obtain ⟨hon, -, hs, -⟩ := hm
    obtain ⟨b, hb⟩ := Option.isSome_iff_exists.mp hs
    exact (hv.shown hon b hb).1.accepted
  · refine fun day key => (h.billed day key).snoc fun he => ?_
    obtain rfl : m = .masclick sid day key := by simpa using he
    obtain ⟨hon, -, -, ⟨b, hb, hone⟩, -⟩ := hm
    obtain ⟨has, hvalid⟩ := hv.shown hon b hb
    rcases hvalid with rfl | rfl
    · exact has.recorded
    · exact absurd hone (by decide)

theorem step (h : History sid s) (hb : Base X s) {l : Label} (ht : Trans X addFloat s l t) :
    History sid t := by
  cases ht with
  | spawn i q hi => exact h.setProc .fresh
  | call i v l c k hi =>
    have hmay := hb.mayCall hi
    have hserve : History sid (s.serve addFloat c).2 := by
      refine h.serve (served_of_mayCall (X := X) hmay) fun b hc => ?_
      subst hc
      cases hmay
    refine hserve.setProc (((h.procs i _ hi).snoc _).called hmay fun hc b hr => ?_)
    subst hc
    have hstr : (s.store.run addFloat s.clock (.get (.shown sid))).1 = .str b := by
      revert hr
      simp only [Sys.serve]
      cases (s.store.run addFloat s.clock (.get (.shown sid))).1 <;> simp [Reply.str?]
    obtain ⟨e, he, -⟩ := get_text hstr (hb.shown_text sid)
    refine ⟨(h.stored b e he).snoc _, ?_⟩
    rcases (hb.entries _ _ he).1 with hv | hv
    · exact .inl (by simpa using hv)
    · exact .inr (by simpa using hv)
  | send i v l c k hi =>
    have hv := h.procs i _ hi
    suffices hout : History sid { s with outgoing := s.outgoing ++ [c] } from
      hout.setProc (p := ⟨k, v.sent c, l⟩) (hv.sent c)
    refine ⟨h.procs, fun n b hc => ?_, h.stored, h.charged, h.billed⟩
    rcases List.mem_append.mp hc with hc | hc
    · exact h.sent n b hc
    · obtain rfl := List.mem_singleton.mp hc
      obtain ⟨-, hon, -, ha, -⟩ := hb.maySend hi
      exact hv.accepted hon ha
  | mark i v l m k hi => exact h.mark hi (hb.mayMark hi)
  | deliver n c hc =>
    have hmem := List.mem_of_getElem? hc
    have hless : History sid { s with outgoing := s.outgoing.eraseIdx n } :=
      ⟨h.procs, fun n b hb => h.sent n b (List.mem_of_mem_eraseIdx hb), h.stored, h.charged,
        h.billed⟩
    exact hless.serve (.sent (X := X) (hb.outgoing c hmem)) fun b hcb => h.sent 900 b (hcb ▸ hmem)
  | tick d =>
    refine ⟨fun i p hp => ?_, h.sent, h.stored, h.charged, h.billed⟩
    obtain ⟨q, hq, rfl⟩ := Option.map_eq_some_iff.mp hp
    exact h.procs i q hq
  | adbody k text r hr hid => exact h.serve (.adbody k text r hr hid) fun b hc => by cases hc
  | admin c hc =>
    refine h.serve (X := X) (.sent (.plain hc)) fun b hcb => ?_
    subst hcb
    cases hc

end History

end Doorhinges.Callback

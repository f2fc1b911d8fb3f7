import Doorhinges.Messages.ReadIds

/-!
# What becomes of a counted message

Every id that a counter has given out is stored, was given to a request that was
rejected because its packet is too long, or is still in the hands of its request.
-/
namespace Doorhinges.Messages

open Lib.CString
open Lib.Program
open Lib.Machine
open Lib.Threads

/-- The fate of the message with this id. -/
structure Verdict where
  fate : Fate
  packet : Packet
  msgid : Nat

variable (X : Externals)

/-- A call decides a message when its request no longer holds the id. -/
def decided (v : View) (c : Cmd) (r : Reply) : List Verdict :=
  match v.building, v.drawn, (called X v c r).drawn, (called X v c r).fate with
  | some p, some msgid, none, some fate => [⟨fate, p, msgid⟩]
  | _, _, _, _ => []

/-- The messages that a run stored or rejected. -/
def verdicts (s : MsgSys) (ls : List (Label Request Reply)) : List Verdict :=
  emitted (msgStep X) (emits (decided X)) s ls

/-- The id has a message, and the request that stored it had its packet within the limit. -/
def IsStored (vs : List Verdict) (s : Store) (c : Counter) (msgid : Nat) : Prop :=
  ∃ p text, p.counter = c ∧ ⟨.stored, p, msgid⟩ ∈ vs ∧ s.msg c msgid = some text ∧
    Stored X p msgid text

def IsTooLong (vs : List Verdict) (c : Counter) (msgid : Nat) : Prop :=
  ∃ p, p.counter = c ∧ ⟨.tooLong, p, msgid⟩ ∈ vs

def InHands (views : Nat → Option View) (c : Counter) (msgid : Nat) : Prop :=
  ∃ i v p, views i = some v ∧ v.building = some p ∧ p.counter = c ∧ v.drawn = some msgid

/-- Every counted id is accounted for, as long as the counter fits the code's type. -/
def Accounted (vs : List Verdict) (s : Store) (views : Nat → Option View) : Prop :=
  ∀ c n msgid, s.counter c = some n → n < 2 ^ 32 → 1 ≤ msgid → msgid ≤ n →
    IsStored X vs s c msgid ∨ IsTooLong vs c msgid ∨ InHands views c msgid

variable {X} {vs : List Verdict} {s t : Store} {views : Nat → Option View}

/-- An id stays in the hands of a request that is not the one that moves. -/
theorem InHands.update {i : Nat} {v w : View} (hv : views i = some v)
    (hsame : v.drawn = none ∨ w.building = v.building ∧ w.drawn = v.drawn) {c : Counter}
    {msgid : Nat} (h : InHands views c msgid) :
    InHands (Function.update views i (some w)) c msgid := by
  obtain ⟨j, u, p, hu, hp, hc, hd⟩ := h
  by_cases hj : j = i
  · subst hj
    obtain rfl : u = v := Option.some.inj (hu.symm.trans hv)
    rcases hsame with hnone | ⟨hb, hdr⟩
    · rw [hnone] at hd
      cases hd
    · exact ⟨j, w, p, by simp, hb.trans hp, hc, hdr.trans hd⟩
  · exact ⟨j, u, p, by simpa [hj] using hu, hp, hc, hd⟩

/-- A move that keeps the counters, the messages and the id of its request. -/
theorem Accounted.still (h : Accounted X vs s views) (hcounter : t.counter = s.counter)
    (hmsg : t.msg = s.msg) {i : Nat} {v w : View} (hv : views i = some v)
    (hsame : v.drawn = none ∨ w.building = v.building ∧ w.drawn = v.drawn) :
    Accounted X vs t (Function.update views i (some w)) := by
  intro c n msgid hc hn h1 hle
  rcases h c n msgid (hcounter ▸ hc) hn h1 hle with ⟨p, text, hp, hmem, hm, hst⟩ | hlong | hhand
  · exact .inl ⟨p, text, hp, hmem, hmsg ▸ hm, hst⟩
  · exact .inr (.inl hlong)
  · exact .inr (.inr (hhand.update hv hsame))

theorem Accounted.start (h : Accounted X vs s views) {i : Nat}
    (hv : ∀ v, views i = some v → v.drawn = none) (w : View) :
    Accounted X vs s (Function.update views i (some w)) := by
  intro c n msgid hc hn h1 hle
  rcases h c n msgid hc hn h1 hle with hst | hlong | ⟨j, u, p, hu, hp, hpc, hd⟩
  · exact .inl hst
  · exact .inr (.inl hlong)
  · have hj : j ≠ i := by
      rintro rfl
      rw [hv u hu] at hd
      cases hd
    exact .inr (.inr ⟨j, u, p, by simpa [hj] using hu, hp, hpc, hd⟩)

/-- A new id is in the hands of the request that drew it. -/
theorem Accounted.incr (h : Accounted X vs s views) {i : Nat} {v : View} {p : Packet}
    (hv : views i = some v) (hd : v.drawn = none) (hp : v.building = some p) :
    Accounted X vs
      { s with counter := fun e => if e = p.counter then some (s.count p.counter + 1) else s.counter e }
      (Function.update views i (some { v with drawn := some (asMsgid (s.count p.counter + 1)) })) := by
  intro c n msgid hc hn h1 hle
  have hold : ∀ m, s.counter c = some m → m < 2 ^ 32 → msgid ≤ m →
      IsStored X vs s c msgid ∨ IsTooLong vs c msgid ∨
        InHands (Function.update views i
          (some { v with drawn := some (asMsgid (s.count p.counter + 1)) })) c msgid := by
    intro m hm hlt hle
    rcases h c m msgid hm hlt h1 hle with hst | hlong | hhand
    · exact .inl hst
    · exact .inr (.inl hlong)
    · exact .inr (.inr (hhand.update hv (.inl hd)))
  by_cases hcp : c = p.counter
  · subst hcp
    have hcount : s.count p.counter + 1 = n := by simpa using hc
    by_cases hnew : msgid = n
    · have hasid : asMsgid (s.count p.counter + 1) = msgid := by
        rw [asMsgid, hcount, hnew]
        exact Nat.mod_eq_of_lt hn
      exact .inr (.inr ⟨i, _, p, Function.update_self .., hp, rfl, congrArg some hasid⟩)
    · cases hcounter : s.counter p.counter with
      | none =>
        simp only [Store.count, hcounter, Option.getD_none] at hcount
        omega
      | some m =>
        simp only [Store.count, hcounter, Option.getD_some] at hcount
        exact hold m hcounter (by omega) (by omega)
  · exact hold n (by simpa [hcp] using hc) hn hle

/-- The request's id is decided: nothing but that id changes hands. -/
theorem Accounted.decide (h : Accounted X vs s views) {i : Nat} {v w : View} {p : Packet}
    {msgid : Nat} (hv : views i = some v) (hp : v.building = some p) (hd : v.drawn = some msgid)
    (hcounter : t.counter = s.counter)
    (hstored : ∀ c m, IsStored X vs s c m → IsStored X vs t c m)
    (hnow : IsStored X vs t p.counter msgid ∨ IsTooLong vs p.counter msgid) :
    Accounted X vs t (Function.update views i (some w)) := by
  intro c n m hc hn h1 hle
  rcases h c n m (hcounter ▸ hc) hn h1 hle with hst | hlong | ⟨j, u, q, hu, hq, hqc, hqd⟩
  · exact .inl (hstored c m hst)
  · exact .inr (.inl hlong)
  · by_cases hj : j = i
    · subst hj
      obtain rfl : u = v := Option.some.inj (hu.symm.trans hv)
      obtain rfl : p = q := Option.some.inj (hp.symm.trans hq)
      obtain rfl : msgid = m := Option.some.inj (hd.symm.trans hqd)
      obtain rfl := hqc
      exact hnow.imp_right .inl
    · exact .inr (.inr ⟨j, u, q, by simpa [hj] using hu, hq, hqc, hqd⟩)

theorem Accounted.call (h : Accounted X vs s views) {i : Nat} {v : View} {c : Cmd} {r : Reply}
    (hv : views i = some v) (hc : mayCall X v c) (hr : r ≠ .fail)
    (hvs : ∀ e ∈ decided X v c r, e ∈ vs) (hs : serve s c r = some t) :
    Accounted X vs t (Function.update views i (some (called X v c r))) := by
  cases c with
  | incr d =>
    obtain ⟨hd, p, hp, rfl⟩ := hc
    rcases serve_cases hs with rfl | ⟨e, he, rfl, rfl⟩ | ⟨_, _, he, _⟩ | ⟨_, _, _, he, _⟩
    · exact h.still rfl rfl hv (.inl hd)
    · obtain rfl : p.counter = e := Cmd.incr.inj he
      exact h.incr hv hd hp
    · cases he
    · cases he
  | evalRead k m =>
    rcases serve_cases hs with rfl | ⟨_, he, _⟩ | ⟨_, _, _, _, _, rfl⟩ | ⟨_, _, _, he, _⟩
    · exact h.still rfl rfl hv (.inr ⟨rfl, rfl⟩)
    · cases he
    · exact h.still rfl rfl hv (.inr ⟨rfl, rfl⟩)
    · cases he
  | time =>
    obtain ⟨p, msgid, hp, hd⟩ := hc
    obtain rfl : t = s := by
      cases r <;> first | exact (Option.some.inj hs).symm | cases hs
    by_cases hlong : tooLong X p msgid r.number
    · refine h.decide hv hp hd rfl (fun _ _ hst => hst) (.inr ⟨p, rfl, hvs _ ?_⟩)
      simp [decided, called, hp, hd, hlong]
    · have hview : called X v .time r = v := by simp [called, hp, hd, hlong]
      rw [hview]
      exact h.still rfl rfl hv (.inr ⟨rfl, rfl⟩)
  | hsetMsg d msgid text =>
    obtain ⟨hd, p, hp, rfl, hst⟩ := hc
    cases r with
    | done =>
      obtain rfl := Option.some.inj hs
      have hnow : IsStored X vs (hsetMsg s p.counter msgid text) p.counter msgid := by
        refine ⟨p, text, rfl, hvs _ ?_, by simp [hsetMsg], hst⟩
        simp [decided, called, hp, hd, Reply.failed]
      refine h.decide hv hp hd rfl (fun c m hold => ?_) (.inl hnow)
      by_cases hsame : c = p.counter ∧ m = msgid
      · obtain ⟨rfl, rfl⟩ := hsame
        exact hnow
      · obtain ⟨q, x, hq, hmem, hm, hstq⟩ := hold
        exact ⟨q, x, hq, hmem, by simpa [hsetMsg, hsame] using hm, hstq⟩
    | fail => exact absurd rfl hr
    | num _ => cases hs
    | text _ => cases hs
  | push =>
    rcases serve_cases hs with rfl | ⟨_, he, _⟩ | ⟨_, _, he, _⟩ | ⟨_, _, _, he, _⟩
    · exact h.still rfl rfl hv (.inl hc)
    · cases he
    · cases he
    · cases he

theorem accounted_preserved (X : Externals) (vs : List Verdict) :
    Preserves serve (rules X) (program X) View.fresh Ended
    (fun _ v c r => r ≠ .fail ∧ ∀ e ∈ decided X v c r, e ∈ vs) (Accounted X vs) where
  keeps q := program_keeps q
  start _ _ _ h hv := h.start (fun v hs => (hv v hs).elim fun _ he => he.drawn) _
  call _ _ _ _ _ _ _ h hv hc hg hs := h.call hv hc hg.1 hg.2 hs
  mark _ _ _ _ _ h hv hd := h.still rfl rfl hv (.inl hd)

/-- No command fails. -/
def NoFailure (_ : Store) (_ : View) (_ : Cmd) (r : Reply) : Prop := r ≠ .fail

variable (X)

def empty : MsgSys := ⟨⟨fun _ => none, fun _ => none, fun _ _ => none⟩, fun _ => none⟩

/-- When nobody is inside, every id up to a counter is stored by a request whose
packet is within the limit, or was given to a request whose packet is too long;
a request that has ended has answered accordingly. Nothing takes a counter or a
read id back. -/
theorem every_id_decided (ls : List (Label Request Reply))
    (hg : Throughout (msgStep X) (Guarded NoFailure) empty ls) (s : MsgSys)
    (hr : run (msgStep X) empty ls = some s) :
    (∀ i a v, s.thread i = some ⟨.ret a, v⟩ → Ended a v) ∧
    ((∀ i, outside (s.thread i) = true) → ∀ c n msgid, s.shared.counter c = some n →
      n < 2 ^ 32 → 1 ≤ msgid → msgid ≤ n →
      IsStored X (verdicts X empty ls) s.shared c msgid ∨
        IsTooLong (verdicts X empty ls) c msgid) ∧
    ∀ ls₁ ls₂ u, ls = ls₁ ++ ls₂ → run (msgStep X) empty ls₁ = some u →
      Grown u.shared s.shared ∧ Advanced u.shared s.shared := by
  have hkept : Kept (rules X) Ended (Accounted X (verdicts X empty ls)) s :=
    (Kept.start fun _ _ _ hc => (by cases hc)).run (accounted_preserved X _) (Guarded.recorded hg) hr
  refine ⟨fun i a v hi => hkept.keeps i _ hi, fun hout c n msgid hc hn h1 hle => ?_, ?_⟩
  · rcases hkept.holds c n msgid hc hn h1 hle with hst | hlong | ⟨i, v, p, hv, hp, hpc, hd⟩
    · exact .inl hst
    · exact .inr hlong
    · obtain ⟨a, hended⟩ := hkept.post_of_outside (hout i) hv
      rw [hended.drawn] at hd
      cases hd
  · rintro ls₁ ls₂ u rfl hu
    rw [run_append, hu, Option.bind_some] at hr
    exact ⟨grown_run hr, advanced_run hr⟩

section Samples

variable {X} {msg : Bytes}

/-- One message to user 2 on an empty store, measured at time 0. -/
def oneMsg (msg : Bytes) : List (Label Request Reply) :=
  [.start 0 (request 1 (.upMsg 2 msg)), .act 0 .done, .act 0 (.num 1), .act 0 (.num 0)]

theorem oneMsg_noFailure : Throughout (msgStep X) (Guarded NoFailure) empty (oneMsg msg) := by
  refine ⟨trivial, fun _ _ => ⟨fun _ _ _ _ => ?_, fun _ _ => ⟨fun _ _ _ _ => ?_, fun _ _ =>
    ⟨fun _ _ _ _ => ?_, fun _ _ => trivial⟩⟩⟩⟩
  · exact Reply.noConfusion
  · exact Reply.noConfusion
  · exact Reply.noConfusion

/-- A message that is too long ends with its id counted and nothing stored. -/
theorem oneMsg_rejected (hlong : tooLong X (.pushMsg 1 2 msg) 1 0) :
    ∃ s, run (msgStep X) empty (oneMsg msg) = some s ∧ (∀ i, outside (s.thread i) = true) ∧
      s.shared.counter (.msgid 2) = some 1 ∧ s.shared.msg (.msgid 2) 1 = none := by
  obtain ⟨s, hs⟩ : ∃ s, run (msgStep X) empty (oneMsg msg) = some s := ⟨_, rfl⟩
  refine ⟨s, hs, fun i => ?_, ?_, ?_⟩
  · obtain rfl := Option.some.inj hs
    by_cases hi : i = 0
    · subst hi
      exact congrArg (fun p => outside (some ⟨p, _⟩)) (if_pos hlong)
    · simp [Sys.set, hi, outside, empty]
  · obtain rfl := Option.some.inj hs
    rfl
  · obtain rfl := Option.some.inj hs
    rfl

/-- A text that is a byte too long. -/
def longText : Bytes := List.replicate 3073 0

theorem longText_tooLong : tooLong plain (.pushMsg 1 2 longText) 1 0 := by
  show 3072 < longText.length
  rw [longText, List.length_replicate]
  omega

theorem every_id_decided_rejected : ∃ u s,
    run (msgStep plain) empty ((oneMsg longText).take 3) = some u ∧
    run (msgStep plain) empty (oneMsg longText) = some s ∧
    (IsStored plain (verdicts plain empty (oneMsg longText)) s.shared (.msgid 2) 1 ∨
      IsTooLong (verdicts plain empty (oneMsg longText)) (.msgid 2) 1) ∧
    u.shared.counter (.msgid 2) = some 1 ∧ Grown u.shared s.shared := by
  obtain ⟨s, hs, hout, hcount, -⟩ := oneMsg_rejected longText_tooLong
  obtain ⟨u, hu⟩ : ∃ u, run (msgStep plain) empty ((oneMsg longText).take 3) = some u := ⟨_, rfl⟩
  obtain ⟨-, hdecided, hkept⟩ := every_id_decided plain (oneMsg longText) oneMsg_noFailure s hs
  refine ⟨u, s, hu, hs, hdecided hout (.msgid 2) 1 1 hcount (by decide) (by decide) (by decide),
    ?_, (hkept _ _ u (List.take_append_drop 3 _).symm hu).1⟩
  obtain rfl := Option.some.inj hu
  rfl

/-- The rejected message keeps its id, and nothing is stored under it. -/
theorem counted_not_stored : ¬∀ (X : Externals) (ls : List (Label Request Reply)) (s : MsgSys),
    Throughout (msgStep X) (Guarded NoFailure) empty ls → run (msgStep X) empty ls = some s →
    (∀ i, outside (s.thread i) = true) → ∀ c n msgid, s.shared.counter c = some n → 1 ≤ msgid →
    msgid ≤ n → ∃ text, s.shared.msg c msgid = some text := by
  intro h
  obtain ⟨s, hs, hout, hcount, hmsg⟩ := oneMsg_rejected longText_tooLong
  obtain ⟨text, htext⟩ := h plain (oneMsg longText) s oneMsg_noFailure hs hout (.msgid 2) 1 1 hcount
    (by decide) (by decide)
  rw [hmsg] at htext
  cases htext

end Samples

end Doorhinges.Messages

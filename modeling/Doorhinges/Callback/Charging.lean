import Doorhinges.Callback.Gate

/-!
# What every state of the callbacks satisfies

`Base` is the part of the invariant that does not depend on a session: the
programs keep the rules, the commands on their way are of known kinds, records
are stored under their own session id and locks hold counters.
-/
namespace Doorhinges.Callback

open Lib.CString
open Lib.Redis (Cmd Reply Store Field Entry Value exec_hincrby_one)
open Lib.Program
open Lib.Machine

/-- A command that a callback may have sent. -/
inductive Sendable : Command → Prop
  | plain {c : Command} (h : c.key.reserved = false) : Sendable c
  | sExpire (sid : Bytes) : Sendable (.expire (.sLock sid) 900)
  | cExpire (sid : Bytes) : Sendable (.expire (.cLock sid) 900)
  | record (sid b : Bytes) (h : b = decimal IMP_SHOW_VALID ∨ b = decimal IMP_SHOW_INVALID) :
      Sendable (.setex (.shown sid) 900 b)

/-- A command that reaches the server in a run. -/
inductive Served (X : Externals) : Command → Prop
  | sent {c : Command} (h : Sendable c) : Served X c
  | getSession (k : Bytes) : Served X (.get (.adsession k))
  | getShown (sid : Bytes) : Served X (.get (.shown sid))
  | sIncr (sid : Bytes) : Served X (.incr (.sLock sid))
  | cIncr (sid : Bytes) : Served X (.incr (.cLock sid))
  | count (day key : Bytes) : Served X (.hincrby (.clicknum day) key 1)
  | adbody (sid text : Bytes) (r : AdSession) (hr : X.parseSession text = some r)
      (hid : r.sessionId = sid) : Served X (.setex (.adsession sid) 900 text)

variable {X : Externals} {addFloat : Option Field → Bytes → Bytes}

theorem sendable_of_maySend {v : View} {c : Command} (h : maySend v c) : Sendable c := by
  unfold maySend at h
  split at h
  · obtain ⟨rfl, -⟩ := h; exact .sExpire _
  · obtain ⟨rfl, -⟩ := h; exact .cExpire _
  · obtain ⟨rfl, -, -, -, -, hb⟩ := h; exact .record _ _ hb
  · exact .plain h

theorem served_of_mayCall {v : View} {c : Command} (h : mayCall v c) : Served X c := by
  unfold mayCall at h
  split at h
  · exact .getSession _
  · exact .sIncr _
  · exact .getShown _
  · exact .cIncr _
  · obtain ⟨rfl, -⟩ := h; exact .count _ _
  · exact .sent (.plain h)

/-- What may be stored under a reserved key; records and shows expire. -/
def EntryOk (X : Externals) : RedisKey → Entry → Prop
  | .adsession sid, e => (∃ text r, e.value = .text text ∧ X.parseSession text = some r ∧
      r.sessionId = sid) ∧ ∃ t, e.expires = some t
  | .shown _, e => (e.value = .text (decimal IMP_SHOW_VALID) ∨
      e.value = .text (decimal IMP_SHOW_INVALID)) ∧ ∃ t, e.expires = some t
  | .sLock _, e | .cLock _, e => ∃ n, e.value = .int n
  | .clicknum _, e => e.Counters
  | _, _ => True

structure Base (X : Externals) (s : Sys) : Prop where
  keeps : ∀ i p, s.procs i = some p → Keeps (rules X) p.prog p.view fun _ _ => True
  outgoing : ∀ c ∈ s.outgoing, Sendable c
  entries : ∀ k e, s.store k = some e → EntryOk X k e

theorem entryOk_of_free {k : RedisKey} (h : k.reserved = false) (e : Entry) : EntryOk X k e := by
  cases k <;> trivial

theorem incr_int {now : Nat} {k : RedisKey} {e : Option Entry} {e' : Entry}
    (he : ∀ e₀, e = some e₀ → ∃ n, e₀.value = .int n)
    (h : ((Cmd.incr k).exec addFloat now e).2 = some e') : ∃ n, e'.value = .int n := by
  cases e with
  | none =>
    obtain rfl := Option.some.inj h
    exact ⟨1, rfl⟩
  | some e =>
    obtain ⟨n, hn⟩ := he e rfl
    obtain ⟨v, t⟩ := e
    subst hn
    obtain rfl := Option.some.inj h
    exact ⟨n + 1, rfl⟩

theorem expire_value {now secs : Nat} {k : RedisKey} {e : Option Entry} {e' : Entry}
    (h : ((Cmd.expire k secs).exec addFloat now e).2 = some e') :
    ∃ e₀, e = some e₀ ∧ e'.value = e₀.value := by
  cases e with
  | none => cases h
  | some e =>
    obtain rfl := Option.some.inj h
    exact ⟨e, rfl, rfl⟩

theorem get_entry {now : Nat} {k : RedisKey} {e : Option Entry} :
    ((Cmd.get k).exec addFloat now e).2 = e := by
  cases e with
  | none => rfl
  | some e =>
    obtain ⟨v, t⟩ := e
    cases v <;> rfl

theorem exec_entryOk {now : Nat} {c : Command} (hc : Served X c) {e : Option Entry} {e' : Entry}
    (he : ∀ e₀, e = some e₀ → EntryOk X c.key e₀)
    (h : (c.exec addFloat now e).2 = some e') : EntryOk X c.key e' := by
  cases hc with
  | sent hs =>
    cases hs with
    | plain hfree => exact entryOk_of_free hfree _
    | sExpire sid =>
      obtain ⟨e₀, he₀, hv⟩ := expire_value h
      obtain ⟨n, hn⟩ := he e₀ he₀
      exact ⟨n, hv.trans hn⟩
    | cExpire sid =>
      obtain ⟨e₀, he₀, hv⟩ := expire_value h
      obtain ⟨n, hn⟩ := he e₀ he₀
      exact ⟨n, hv.trans hn⟩
    | record sid b hb =>
      obtain rfl := Option.some.inj h
      exact ⟨hb.imp (congrArg _) (congrArg _), _, rfl⟩
  | getSession k => rw [get_entry] at h; exact he e' h
  | getShown sid => rw [get_entry] at h; exact he e' h
  | sIncr sid => exact incr_int he h
  | cIncr sid => exact incr_int he h
  | count day key =>
    obtain ⟨e₁, hexec, hcounters, -⟩ :=
      exec_hincrby_one addFloat now (RedisKey.clicknum day) key he
    rw [hexec] at h
    obtain rfl := Option.some.inj h
    exact hcounters
  | adbody sid text r hr hid =>
    obtain rfl := Option.some.inj h
    exact ⟨⟨text, r, rfl, hr, hid⟩, _, rfl⟩

theorem run_entryOk {st : Store RedisKey} (hst : ∀ k e, st k = some e → EntryOk X k e)
    {now : Nat} {c : Command} (hc : Served X c) :
    ∀ k e, (st.run addFloat now c).2 k = some e → EntryOk X k e := by
  intro k e h
  rcases Store.run_origin addFloat h with hold | ⟨rfl, hnew⟩
  · exact hst k e hold
  · exact exec_entryOk hc (fun e₀ he₀ => hst _ _ (Store.lookup_some.mp he₀).1) hnew

namespace Base

variable {s t : Sys}

theorem initial (h : s.Initial) : Base X s where
  keeps i p hp := by simp [h.procs i] at hp
  outgoing c hc := by simp [h.outgoing] at hc
  entries k e he := by
    by_cases hk : k.reserved = true
    · simp [h.store k hk] at he
    · exact entryOk_of_free (by simpa using hk) _

/-- The rules a callback keeps, read off its next action. -/
theorem mayCall (h : Base X s) {i : Nat} {v : View} {l : Late} {c : Command}
    {k : Option Reply → Act Unit} (hi : s.procs i = some ⟨.call c k, v, l⟩) :
    Doorhinges.Callback.mayCall v c := (h.keeps i _ hi).1

theorem maySend (h : Base X s) {i : Nat} {v : View} {l : Late} {c : Command} {k : Act Unit}
    (hi : s.procs i = some ⟨.send c k, v, l⟩) : Doorhinges.Callback.maySend v c :=
  (h.keeps i _ hi).1

theorem mayMark (h : Base X s) {i : Nat} {v : View} {l : Late} {m : Mark} {k : Act Unit}
    (hi : s.procs i = some ⟨.mark m k, v, l⟩) : Doorhinges.Callback.mayMark X v m :=
  (h.keeps i _ hi).1

theorem setProc_keeps (h : ∀ i p, s.procs i = some p → Keeps (rules X) p.prog p.view fun _ _ => True)
    {i : Nat} {p : Proc} (hp : Keeps (rules X) p.prog p.view fun _ _ => True) :
    ∀ j q, (s.setProc i p).procs j = some q → Keeps (rules X) q.prog q.view fun _ _ => True := by
  intro j q hq
  by_cases hj : j = i
  · obtain rfl : p = q := by simpa [Sys.setProc, hj] using hq
    exact hp
  · exact h j q (by simpa [Sys.setProc, hj] using hq)

/-- Every command served in a step is of a known kind. -/
theorem step (h : Base X s) {l : Label} (ht : Trans X addFloat s l t) : Base X t := by
  cases ht with
  | spawn i q hi =>
    exact ⟨setProc_keeps h.keeps (aisCallback_keeps q), h.outgoing, h.entries⟩
  | call i v l c k hi =>
    exact ⟨setProc_keeps h.keeps ((h.keeps i _ hi).2 _), h.outgoing,
      run_entryOk h.entries (served_of_mayCall (h.mayCall hi))⟩
  | send i v l c k hi =>
    refine ⟨setProc_keeps h.keeps (h.keeps i _ hi).2, fun c' hc' => ?_, h.entries⟩
    rcases List.mem_append.mp hc' with hc' | hc'
    · exact h.outgoing c' hc'
    · obtain rfl := List.mem_singleton.mp hc'
      exact sendable_of_maySend (h.maySend hi)
  | mark i v l m k hi =>
    exact ⟨setProc_keeps h.keeps (h.keeps i _ hi).2, h.outgoing, h.entries⟩
  | deliver n c hc =>
    have hs := h.outgoing c (List.mem_of_getElem? hc)
    exact ⟨h.keeps, fun c' hc' => h.outgoing c' (List.mem_of_mem_eraseIdx hc'),
      run_entryOk h.entries (.sent hs)⟩
  | tick d =>
    refine ⟨fun i p hp => ?_, h.outgoing, h.entries⟩
    obtain ⟨q, hq, rfl⟩ := Option.map_eq_some_iff.mp hp
    exact h.keeps i q hq
  | adbody sid text r hr hid =>
    exact ⟨h.keeps, h.outgoing, run_entryOk h.entries (.adbody sid text r hr hid)⟩
  | admin c hc => exact ⟨h.keeps, h.outgoing, run_entryOk h.entries (.sent (.plain hc))⟩

theorem record_text (h : Base X s) (sid : Bytes) :
    ∀ e, s.store (.adsession sid) = some e → ∃ b, e.value = .text b := by
  intro e he
  obtain ⟨⟨b, -, hb, -⟩, -⟩ := h.entries _ e he
  exact ⟨b, hb⟩

theorem shown_text (h : Base X s) (sid : Bytes) :
    ∀ e, s.store (.shown sid) = some e → ∃ b, e.value = .text b := by
  intro e he
  rcases (h.entries _ e he).1 with hb | hb
  · exact ⟨_, hb⟩
  · exact ⟨_, hb⟩

end Base

/-- The clock has not passed the lock's expiry since the callback that is about
to count the lock up read the guard. -/
def InTime (g : Gate) (s : Sys) : Label → Prop
  | .exec i => ∀ k v l, s.procs i = some ⟨.call (.incr g.lockKey) k, v, l⟩ → g.late l = false
  | _ => True

/-- Counting up a live lock gives a number that an int does not read as 1. -/
def Fits (g : Gate) (s : Sys) : Label → Prop
  | .exec i => ∀ k v l, s.procs i = some ⟨.call (.incr g.lockKey) k, v, l⟩ →
    ∀ n t, s.store.lookup s.clock g.lockKey = some ⟨.int n, t⟩ → toInt32 (n + 1) ≠ 1
  | _ => True

/-- The session's record is written at most once. -/
def RecordedOnce (sid : Bytes) (s : Sys) : Label → Prop
  | .adbody sid' _ => sid' = sid → s.store (.adsession sid) = none
  | _ => True

/-- The callback that is about to count the lock up. -/
def counting (g : Gate) (s : Sys) (i : Nat) : Option Late :=
  match s.procs i with
  | some ⟨.call (.incr k) _, _, l⟩ => if k = g.lockKey then some l else none
  | _ => none

theorem counting_eq_some {g : Gate} {s : Sys} {i : Nat} {l : Late} :
    counting g s i = some l ↔ ∃ k v, s.procs i = some ⟨.call (.incr g.lockKey) k, v, l⟩ := by
  unfold counting
  split
  · rename_i k _ _ _ hi
    by_cases hk : k = g.lockKey <;> simp [hi, hk]
  · rename_i hno
    simp only [reduceCtorEq, false_iff, not_exists]
    exact fun k v hi => hno _ k v l hi

instance (g : Gate) (s : Sys) (l : Label) : Decidable (InTime g s l) :=
  match l with
  | .exec i => decidable_of_iff (∀ l ∈ counting g s i, g.late l = false)
      ⟨fun h k v l hi => h l (counting_eq_some.mpr ⟨k, v, hi⟩),
        fun h l hl => let ⟨k, v, hi⟩ := counting_eq_some.mp hl; h k v l hi⟩
  | .spawn _ _ | .deliver _ | .tick _ | .adbody _ _ | .admin _ => isTrue trivial

/-- The value of a lock that is alive. -/
def countOf (g : Gate) (s : Sys) : Option Int :=
  (s.store.lookup s.clock g.lockKey).bind fun e => (lockOf (some e)).map (·.1)

theorem countOf_eq_some {g : Gate} {s : Sys} {n : Int} :
    countOf g s = some n ↔ ∃ t, s.store.lookup s.clock g.lockKey = some ⟨.int n, t⟩ := by
  unfold countOf
  cases hl : s.store.lookup s.clock g.lockKey with
  | none => simp
  | some e =>
    obtain ⟨v, t⟩ := e
    cases v <;> simp [lockOf]

instance (g : Gate) (s : Sys) (l : Label) : Decidable (Fits g s l) :=
  match l with
  | .exec i => decidable_of_iff
      ((counting g s i).isSome = true → ∀ n ∈ countOf g s, toInt32 (n + 1) ≠ 1)
      ⟨fun h k v l hi n t hl => h (by simp [counting_eq_some.mpr ⟨k, v, hi⟩]) n
          (countOf_eq_some.mpr ⟨t, hl⟩),
        fun h hc n hn => by
          obtain ⟨l, hl⟩ := Option.isSome_iff_exists.mp hc
          obtain ⟨k, v, hi⟩ := counting_eq_some.mp hl
          obtain ⟨t, ht⟩ := countOf_eq_some.mp hn
          exact h k v l hi n t ht⟩
  | .spawn _ _ | .deliver _ | .tick _ | .adbody _ _ | .admin _ => isTrue trivial

instance (sid : Bytes) (s : Sys) (l : Label) : Decidable (RecordedOnce sid s l) :=
  match l with
  | .adbody sid' _ => inferInstanceAs (Decidable (sid' = sid → s.store (.adsession sid) = none))
  | .spawn _ _ | .exec _ | .deliver _ | .tick _ | .admin _ => isTrue trivial

section Digest

variable {v : View} {l : Late} {c : Command} {r : Option Reply}

theorem called_session (h : ∀ k, c.key ≠ .adsession k) : (v.called X c r).session = v.session := by
  unfold View.called
  split
  · exact absurd rfl (h _)
  all_goals rfl

theorem called_sLock (h : ∀ k, c.key ≠ .sLock k) : (v.called X c r).sLock = v.sLock := by
  unfold View.called
  split
  · rfl
  · exact absurd rfl (h _)
  all_goals rfl

theorem called_shown (h : ∀ k, c.key ≠ .shown k) : (v.called X c r).shown = v.shown := by
  unfold View.called
  split
  · rfl
  · rfl
  · rfl
  · exact absurd rfl (h _)
  all_goals rfl

theorem called_cLock (h : ∀ k, c.key ≠ .cLock k) : (v.called X c r).cLock = v.cLock := by
  unfold View.called
  split
  · rfl
  · rfl
  · rfl
  · rfl
  · exact absurd rfl (h _)
  all_goals rfl

theorem called_flags : (v.called X c r).accepted = v.accepted ∧
    (v.called X c r).masclicked = v.masclicked ∧ (v.called X c r).recorded = v.recorded := by
  unfold View.called
  split <;> exact ⟨rfl, rfl, rfl⟩

theorem called_clicknum (h : ∀ d, c.key ≠ .clicknum d) :
    (v.called X c r).clicknum = v.clicknum := by
  unfold View.called
  split
  all_goals first | rfl | exact absurd rfl (h _)

theorem late_sLock (h : ∀ k, c.key ≠ .adsession k) : (l.called c).sLock = l.sLock := by
  unfold Late.called
  split
  · exact absurd rfl (h _)
  all_goals rfl

theorem late_cLock (h : ∀ k, c.key ≠ .shown k) : (l.called c).cLock = l.cLock := by
  unfold Late.called
  split
  · rfl
  · exact absurd rfl (h _)
  · rfl

end Digest

/-- The calls the rules allow, by what they are. -/
inductive CallShape (v : View) : Command → Prop
  | getSession (k : Bytes) (h : v.Fresh) : CallShape v (.get (.adsession k))
  | sIncr (k : Bytes) (hon : v.OnSession k) (hl : v.sLock = none) (hs : v.shown = none) :
      CallShape v (.incr (.sLock k))
  | getShown (k : Bytes) (hon : v.OnSession k) (hs : v.shown = none) (hc : v.cLock = none)
      (hl : v.sLock = none) : CallShape v (.get (.shown k))
  | cIncr (k : Bytes) (hon : v.OnSession k) (hc : v.cLock = none) (hs : v.shown.isSome = true) :
      CallShape v (.incr (.cLock k))
  | count (d k : Bytes) (h : v.clicknum = none) (hm : v.masclicked = false) : CallShape v (.hincrby (.clicknum d) k 1)
  | free {c : Command} (h : c.key.reserved = false) : CallShape v c

theorem callShape {v : View} {c : Command} (h : mayCall v c) : CallShape v c := by
  unfold mayCall at h
  split at h
  · exact .getSession _ h
  · exact .sIncr _ h.1 h.2.1 h.2.2
  · exact .getShown _ h.1 h.2.1 h.2.2.1 h.2.2.2
  · exact .cIncr _ h.1 h.2.1 h.2.2
  · obtain ⟨rfl, hc, hm⟩ := h; exact .count _ _ hc hm
  · exact .free h

section ShowGate

variable {s t : Sys} {sid : Bytes}

theorem setProc_some {i j : Nat} {p q : Proc} (h : (s.setProc i p).procs j = some q) :
    j = i ∧ q = p ∨ s.procs j = some q := by
  by_cases hj : j = i
  · exact .inl ⟨hj, by simpa [Sys.setProc, hj, eq_comm] using h⟩
  · exact .inr (by simpa [Sys.setProc, hj] using h)

theorem showGate_same {i : Nat} {v : View} {l : Late} {c : Command} {prog prog' : Act Unit}
    {r : Option Reply} (hi : s.procs i = some ⟨prog, v, l⟩) (hk : ∀ k, c.key ≠ .adsession k)
    (hl : ∀ k, c.key ≠ .sLock k) :
    (showGate sid).lease ((s.serve addFloat c).2.setProc i ⟨prog', v.called X c r, l.called c⟩) =
      (showGate sid).lease s := by
  refine Gate.lease_call_same (Ne.symm (hk sid)) (Ne.symm (hl sid)) ?_
  rw [hi]
  refine Gate.status_congr ?_ (called_sLock hl) (late_sLock hk)
  simp only [showGate, called_session hk]

/-- A session lookup that finds the record of `sid` finds it alive under its own key. -/
theorem Base.session_found (hb : Base X s) {k : Bytes}
    (h : ((stringReply (some (s.serve addFloat (.get (.adsession k))).1)).bind
      X.parseSession).map (·.sessionId) = some sid) :
    k = sid ∧ ∃ e t, s.store (.adsession sid) = some e ∧ e.expires = some t ∧
      e.alive s.clock = true := by
  obtain ⟨r, hr, hid⟩ := Option.map_eq_some_iff.mp h
  obtain ⟨text, htext, hparse⟩ := Option.bind_eq_some_iff.mp hr
  have hstr : (s.serve addFloat (.get (.adsession k))).1 = .str text := by
    revert htext
    simp only [stringReply, Option.bind_some]
    cases (s.serve addFloat (.get (.adsession k))).1 <;> simp [Reply.str?]
  obtain ⟨t, hk, ha⟩ := get_text hstr (hb.record_text k)
  obtain ⟨⟨b, r', hb', hr', hid'⟩, t', ht'⟩ := hb.entries _ _ hk
  obtain rfl : text = b := by simpa using hb'
  obtain rfl : r = r' := Option.some.inj (hparse.symm.trans hr')
  obtain rfl : k = sid := hid'.symm.trans hid
  exact ⟨rfl, _, t', hk, ht', ha⟩

theorem show_call (hb : Base X s) {i : Nat} {v : View} {l : Late} {c : Command}
    {k : Option Reply → Act Unit} (hi : s.procs i = some ⟨.call c k, v, l⟩)
    (hin : InTime (showGate sid) s (.exec i)) (hfit : Fits (showGate sid) s (.exec i)) :
    let t := (s.serve addFloat c).2.setProc i
      ⟨k (some (s.serve addFloat c).1), v.called X c (some (s.serve addFloat c).1), l.called c⟩
    (showGate sid).lease t = (showGate sid).lease s ∨
      Lib.Lease.Step 900000 ((showGate sid).lease s) ((showGate sid).lease t) := by
  intro t
  cases callShape (hb.mayCall hi) with
  | getShown k' => exact .inl (showGate_same hi (by simp [Cmd.key]) (by simp [Cmd.key]))
  | cIncr k' => exact .inl (showGate_same hi (by simp [Cmd.key]) (by simp [Cmd.key]))
  | count d k' _ _ => exact .inl (showGate_same hi (by simp [Cmd.key]) (by simp [Cmd.key]))
  | free h =>
    refine .inl (showGate_same hi ?_ ?_)
    · rintro k' hk
      simp [hk, RedisKey.reserved] at h
    · rintro k' hk
      simp [hk, RedisKey.reserved] at h
  | getSession k' hfresh =>
    have hidle : (showGate sid).statusOf (s.procs i) = .idle := by
      simp [hi, Gate.statusOf, Gate.status, showGate, hfresh.session]
    have hsame : (s.serve addFloat (.get (.adsession k'))).2.store = s.store := get_same
    have hlease : (showGate sid).lease t = (showGate sid).lease (s.setProc i
        ⟨k (some (s.serve addFloat (.get (.adsession k'))).1),
          v.called X (.get (.adsession k')) (some (s.serve addFloat (.get (.adsession k'))).1),
          l.called (.get (.adsession k'))⟩) := by
      simp only [t, Gate.lease, Sys.setProc, hsame]
      rfl
    rw [hlease]
    by_cases hread : ((stringReply (some (s.serve addFloat (.get (.adsession k'))).1)).bind
        X.parseSession).map (·.sessionId) = some sid
    · obtain ⟨rfl, e, t', he, ht', ha⟩ := hb.session_found hread
      right
      exact Gate.lease_read hidle he ht' ha
        (Gate.status_waiting (decide_eq_true hread) hfresh.sLock)
    · left
      refine Gate.lease_setProc_same ?_
      rw [hidle]
      exact Gate.status_idle (decide_eq_false hread)
  | sIncr k' hon hl hs =>
    by_cases hk : k' = sid
    · subst hk
      right
      refine Gate.lease_incr (g := showGate k') (by simp [showGate]) (hb.entries _) hi ?_ hl ?_ ?_ ?_ ?_
      · exact decide_eq_true hon
      · exact fun _ => hin k v l hi
      · intro n t' hl' ha
        exact hfit k v l hi n t' (lookup_alive hl' ha)
      · exact decide_eq_true hon
      · rfl
    · left
      have hno : v.session.map (·.sessionId) ≠ some sid := by
        rw [hon]
        simpa using hk
      refine Gate.lease_call_same (by simp [showGate, Cmd.key])
        (by simpa [showGate, Cmd.key] using Ne.symm hk) ?_
      rw [hi, Gate.status_idle (decide_eq_false hno)]
      exact (Gate.status_idle (decide_eq_false hno)).symm

theorem sent_view (v : View) (c : Command) : (v.sent c).session = v.session ∧
    (v.sent c).sLock = v.sLock ∧ (v.sent c).shown = v.shown ∧ (v.sent c).cLock = v.cLock := by
  unfold View.sent
  split <;> exact ⟨rfl, rfl, rfl, rfl⟩

theorem marked_view (v : View) (m : Mark) : (v.marked m).session = v.session ∧
    (v.marked m).sLock = v.sLock ∧ (v.marked m).shown = v.shown ∧
    (v.marked m).cLock = v.cLock := by
  unfold View.marked
  split <;> exact ⟨rfl, rfl, rfl, rfl⟩

theorem showGate_status {v w : View} (hs : w.session = v.session) (hl : w.sLock = v.sLock)
    (l : Late) : (showGate sid).status w l = (showGate sid).status v l :=
  Gate.status_congr (by simp only [showGate, hs]) hl rfl

/-- Every step is a step of the session's show lease or leaves it alone. -/
theorem show_sim (hb : Base X s) {l : Label} (ht : Trans X addFloat s l t)
    (hin : InTime (showGate sid) s l) (hfit : Fits (showGate sid) s l)
    (honce : RecordedOnce sid s l) :
    (showGate sid).lease t = (showGate sid).lease s ∨
      Lib.Lease.Step 900000 ((showGate sid).lease s) ((showGate sid).lease t) := by
  have hkeys : (showGate sid).guardKey ≠ (showGate sid).lockKey := by simp [showGate]
  have hfree : ∀ c : Command, c.key.reserved = false →
      (showGate sid).lease (s.serve addFloat c).2 = (showGate sid).lease s := by
    intro c hc
    refine Gate.lease_serve_other ?_ ?_ <;>
    · intro hk
      rw [← hk] at hc
      cases hc
  cases ht with
  | spawn i q hi =>
    left
    refine Gate.lease_setProc_same ?_
    rw [hi]
    exact Gate.status_idle rfl
  | call i v l c k hi => exact show_call hb hi hin hfit
  | send i v l c k hi =>
    left
    obtain ⟨hs, hl, -⟩ := sent_view v c
    exact Gate.lease_setProc_same (by simp only [hi]; exact showGate_status hs hl l)
  | mark i v l m k hi =>
    left
    obtain ⟨hs, hl, -⟩ := marked_view v m
    exact Gate.lease_setProc_same (by simp only [hi]; exact showGate_status hs hl l)
  | deliver n c hc =>
    cases hb.outgoing c (List.mem_of_getElem? hc) with
    | plain h => exact .inl (hfree c h)
    | sExpire k =>
      by_cases hk : k = sid
      · subst hk
        exact Gate.lease_expire hkeys (hb.entries _)
      · exact .inl (Gate.lease_serve_other (by simp [showGate, Cmd.key])
          (by simpa [showGate, Cmd.key] using Ne.symm hk))
    | cExpire k =>
      exact .inl (Gate.lease_serve_other (by simp [showGate, Cmd.key]) (by simp [showGate, Cmd.key]))
    | record k b h =>
      exact .inl (Gate.lease_serve_other (by simp [showGate, Cmd.key]) (by simp [showGate, Cmd.key]))
  | tick d =>
    refine .inr (Gate.lease_tick d ?_ (hb.entries _))
    intro v l hr
    obtain ⟨a, ha, hid⟩ := Option.map_eq_some_iff.mp (of_decide_eq_true hr)
    simp [showGate, Late.ticked, ha, hid]
  | adbody k text r hr hid =>
    by_cases hk : k = sid
    · subst hk
      exact .inr (Gate.lease_setex hkeys text (honce rfl))
    · exact .inl (Gate.lease_serve_other (by simpa [showGate, Cmd.key] using Ne.symm hk)
        (by simp [showGate, Cmd.key]))
  | admin c hc => exact .inl (hfree c hc)

end ShowGate

end Doorhinges.Callback

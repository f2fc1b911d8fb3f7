import Doorhinges.Messages.Discipline

/-!
# Read ids stay behind their counters

The script lets an id pass when it exceeds the read id and either the counter
bounds it or there is no counter. The second half is the only way ahead of the
counter; a read id never goes back.
-/
namespace Doorhinges.Messages

open Lib.Program
open Lib.Machine
open Lib.Threads

def Store.count (s : Store) (c : Counter) : Nat := (s.counter c).getD 0

/-- Every read id is at most its counter. -/
def Behind (s : Store) : Prop := ∀ k r, s.readid k = some r → r ≤ s.count k.counter

/-- No read id is gone or smaller than it was. -/
def Advanced (s t : Store) : Prop :=
  ∀ k r, s.readid k = some r → ∃ r', t.readid k = some r' ∧ r ≤ r'

/-- No counter is gone or smaller than it was. -/
def Grown (s t : Store) : Prop :=
  ∀ c n, s.counter c = some n → ∃ n', t.counter c = some n' ∧ n ≤ n'

/-- The script acknowledges a positive id of a counter that does not exist. -/
def Unbounded (s : Store) (c : Cmd) : Prop :=
  match c with
  | .evalRead k m => s.counter k.counter = none ∧ 0 < m
  | _ => False

variable {s t : Store} {c : Cmd} {r : Reply}

/-- What a command can leave: the store, one more on a counter, a read id the
script lets pass, or a message. -/
theorem serve_cases (h : serve s c r = some t) :
    t = s ∨
    (∃ d, c = .incr d ∧ r = .num (s.count d + 1) ∧
      t = { s with counter := fun e => if e = d then some (s.count d + 1) else s.counter e }) ∨
    (∃ k m, c = .evalRead k m ∧ (∀ x ∈ s.readid k, x < m) ∧ (∀ n ∈ s.counter k.counter, m ≤ n) ∧
      t = { s with readid := fun j => if j = k then some m else s.readid j }) ∨
    (∃ d m text, c = .hsetMsg d m text ∧ r = .done ∧ t = hsetMsg s d m text) := by
  cases r with
  | fail => exact .inl (by cases c <;> exact (Option.some.inj h).symm)
  | done =>
    cases c with
    | hsetMsg d m text => exact .inr (.inr (.inr ⟨d, m, text, rfl, rfl, (Option.some.inj h).symm⟩))
    | push => exact .inl (Option.some.inj h).symm
    | incr _ => cases h
    | evalRead _ _ => cases h
    | time => cases h
  | num n =>
    cases c with
    | incr d =>
      simp only [serve, Option.ite_none_right_eq_some, Option.some.injEq] at h
      obtain ⟨rfl, rfl⟩ := h
      exact .inr (.inl ⟨d, rfl, rfl, rfl⟩)
    | time => exact .inl (Option.some.inj h).symm
    | hsetMsg _ _ _ => cases h
    | evalRead _ _ => cases h
    | push => cases h
  | text o =>
    cases c with
    | evalRead k m =>
      simp only [serve, Option.ite_none_right_eq_some, Option.some.injEq] at h
      obtain ⟨-, rfl⟩ := h
      by_cases hpass : (s.readid k = none ∨ ∃ r ∈ s.readid k, r < m) ∧
          (s.counter k.counter = none ∨ ∃ n ∈ s.counter k.counter, m ≤ n)
      · right
        right
        left
        refine ⟨k, m, rfl, fun x hx => ?_, fun n hn => ?_, by rw [evalRead, if_pos hpass]⟩
        · rcases hpass.1 with hnone | ⟨y, hy, hlt⟩
          · rw [hnone] at hx
            cases hx
          · obtain rfl := Option.some.inj (hx.symm.trans hy)
            exact hlt
        · rcases hpass.2 with hnone | ⟨y, hy, hle⟩
          · rw [hnone] at hn
            cases hn
          · obtain rfl := Option.some.inj (hn.symm.trans hy)
            exact hle
      · exact .inl (by rw [evalRead, if_neg hpass])
    | incr _ => cases h
    | hsetMsg _ _ _ => cases h
    | time => cases h
    | push => cases h

theorem Behind.serve (hb : Behind s) (hc : ¬Unbounded s c) (h : serve s c r = some t) :
    Behind t := by
  rcases serve_cases h with rfl | ⟨d, rfl, -, rfl⟩ | ⟨k, m, rfl, -, hle, rfl⟩ | ⟨d, m, x, rfl, -, rfl⟩
  · exact hb
  · intro k n hk
    have hn := hb k n hk
    by_cases hkd : k.counter = d
    · simp only [Store.count, hkd, if_true, Option.getD_some] at hn ⊢
      omega
    · simpa [Store.count, hkd] using hn
  · intro j n hj
    by_cases hjk : j = k
    · subst hjk
      obtain rfl : m = n := by simpa using hj
      cases hcount : s.counter j.counter with
      | none =>
        have hm : ¬0 < m := fun hm => hc ⟨hcount, hm⟩
        omega
      | some n =>
        simpa [Store.count, hcount] using hle n hcount
    · exact hb j n (by simpa [hjk] using hj)
  · exact hb

theorem Advanced.refl (s : Store) : Advanced s s := fun _ r h => ⟨r, h, Nat.le_refl r⟩

theorem Advanced.serve {s₀ : Store} (ha : Advanced s₀ s) (h : serve s c r = some t) :
    Advanced s₀ t := by
  rcases serve_cases h with rfl | ⟨d, rfl, -, rfl⟩ | ⟨k, m, rfl, hlt, -, rfl⟩ | ⟨d, m, x, rfl, -, rfl⟩
  · exact ha
  · exact ha
  · intro j n hj
    obtain ⟨x, hx, hle⟩ := ha j n hj
    by_cases hjk : j = k
    · subst hjk
      exact ⟨m, by simp, Nat.le_of_lt (Nat.lt_of_le_of_lt hle (hlt x hx))⟩
    · exact ⟨x, by simpa [hjk] using hx, hle⟩
  · exact ha

theorem Grown.refl (s : Store) : Grown s s := fun _ n h => ⟨n, h, Nat.le_refl n⟩

theorem Grown.serve {s₀ : Store} (hs₀ : Grown s₀ s) (h : serve s c r = some t) : Grown s₀ t := by
  rcases serve_cases h with rfl | ⟨d, rfl, -, rfl⟩ | ⟨k, m, rfl, -, -, rfl⟩ | ⟨d, m, x, rfl, -, rfl⟩
  · exact hs₀
  · intro e n he
    obtain ⟨n', hn', hle⟩ := hs₀ e n he
    by_cases hed : e = d
    · subst hed
      have hcount : s.count e = n' := by rw [Store.count, hn', Option.getD_some]
      exact ⟨s.count e + 1, if_pos rfl, by omega⟩
    · exact ⟨n', (if_neg hed).trans hn', hle⟩
  · exact hs₀
  · exact hs₀

/-- An unbounded acknowledgement overtakes at once, so nothing weaker will do. -/
theorem behind_evalRead_iff (hb : Behind s) (k : ReadKey) (m : Nat) :
    Behind (evalRead s k m).2 ↔ ¬Unbounded s (.evalRead k m) := by
  refine ⟨fun ht ⟨hnone, hm⟩ => ?_, fun hc => ?_⟩
  · have hcount : s.count k.counter = 0 := by simp [Store.count, hnone]
    have hread : s.readid k = none ∨ ∃ r ∈ s.readid k, r < m := by
      cases hr : s.readid k with
      | none => exact .inl rfl
      | some r =>
        have := hb k r hr
        exact .inr ⟨r, rfl, by omega⟩
    rw [evalRead, if_pos ⟨hread, .inl hnone⟩] at ht
    have := ht k m (by simp)
    simp only [Store.count, hnone, Option.getD_none] at this
    omega
  · exact hb.serve (c := .evalRead k m) hc (r := .text (evalRead s k m).1) (by simp [Messages.serve])

/-- No script acknowledges a positive id of a counter that does not exist. -/
def Bounded (s : Store) (_ : View) (c : Cmd) (r : Reply) : Prop := Unbounded s c → r = .fail

section Runs

variable {X : Externals} {u v : MsgSys} {ls : List (Label Request Reply)}

theorem advanced_run (h : run (msgStep X) u ls = some v) : Advanced u.shared v.shared :=
  shared_run (fun _ _ _ _ _ ha _ hsem => ha.serve hsem) (Advanced.refl _)
    (throughout_trivial ls u) h

theorem grown_run (h : run (msgStep X) u ls = some v) : Grown u.shared v.shared :=
  shared_run (fun _ _ _ _ _ hg _ hsem => hg.serve hsem) (Grown.refl _)
    (throughout_trivial ls u) h

end Runs

variable (X : Externals)

/-- Every read id stays behind its counter and none goes back. -/
theorem readid_law (s₀ : Store) (h₀ : Behind s₀) (ls₁ ls₂ : List (Label Request Reply))
    (hg : Throughout (msgStep X) (Guarded Bounded) ⟨s₀, fun _ => none⟩ (ls₁ ++ ls₂))
    (s t : MsgSys) (hs : run (msgStep X) ⟨s₀, fun _ => none⟩ ls₁ = some s)
    (ht : run (msgStep X) s ls₂ = some t) : Behind t.shared ∧ Advanced s.shared t.shared := by
  have hall : run (msgStep X) ⟨s₀, fun _ => none⟩ (ls₁ ++ ls₂) = some t := by
    rw [run_append, hs]
    exact ht
  refine ⟨?_, ?_⟩
  · refine shared_run (fun g v c r g' hb hG hsem => ?_) h₀ hg hall
    by_cases hu : Unbounded g c
    · obtain rfl := hG hu
      obtain rfl : g' = g := by cases c <;> exact (Option.some.inj hsem).symm
      exact hb
    · exact hb.serve hu hsem
  · exact advanced_run ht

section Samples

/-- The packet is the message alone and base64 does nothing. -/
def plain : Externals where
  serialize p _ _ :=
    match p with
    | .pushMsg _ _ msg => msg
    | .pushGrpMsg _ _ msg => msg
  base64 text := text
  maxMsgLen := 3072

def request (uin : Nat) (body : Body) : Request := ⟨⟨uin, true, uin, true⟩, some body⟩

/-- Three messages are counted and none is read. -/
def counted : Store := ⟨fun _ => some 3, fun _ => none, fun _ _ => none⟩

/-- Where every counter exists, every acknowledgement has its bound. -/
theorem bounded_of_counters {s₀ : Store} (h : ∀ c, s₀.counter c ≠ none)
    (ls : List (Label Request Reply)) :
    Throughout (msgStep X) (Guarded Bounded) ⟨s₀, fun _ => none⟩ ls := by
  have hkept : ∀ (s : MsgSys) l t, (∀ c, s.shared.counter c ≠ none) → True →
      msgStep X s l = some t → ∀ c, t.shared.counter c ≠ none := by
    intro s l t hs _ ht c hnone
    obtain ⟨n, hn⟩ := Option.ne_none_iff_exists'.1 (hs c)
    have hrun : run (msgStep X) s [l] = some t := by rw [run, ht, Option.bind_some, run]
    obtain ⟨n', hn', -⟩ := grown_run hrun c n hn
    rw [hnone] at hn'
    cases hn'
  refine Throughout.of_invariant hkept (fun s l hs _ => ?_) h (throughout_true ls _)
  cases l with
  | start _ _ => trivial
  | act i r =>
    rintro c k v - hunbounded
    cases c with
    | evalRead k m => exact absurd hunbounded.1 (hs _)
    | incr _ | hsetMsg _ _ _ | time | push => exact hunbounded.elim

/-- User 7 acknowledges message 2. -/
def ackTwo : List (Label Request Reply) :=
  [.start 0 (request 7 (.pushMsgAck 2)), .act 0 (.text (some 2))]

/-- A fourth message for user 7 is counted while 1 is acknowledged late; then 4 is. -/
def lateAck : List (Label Request Reply) :=
  [.start 1 (request 8 (.upMsg 7 [])), .act 1 .done, .start 0 (request 7 (.pushMsgAck 1)),
    .act 1 (.num 4), .act 0 (.text (some 2)), .start 0 (request 7 (.pushMsgAck 4)),
    .act 0 (.text (some 4))]

theorem readid_law_counted : ∃ s t : MsgSys,
    run (msgStep plain) ⟨counted, fun _ => none⟩ ackTwo = some s ∧
    run (msgStep plain) s lateAck = some t ∧ s.shared.readid (.readid 7) = some 2 ∧
    t.shared.readid (.readid 7) = some 4 ∧ Behind t.shared ∧ Advanced s.shared t.shared := by
  obtain ⟨s, hs⟩ : ∃ s : MsgSys, run (msgStep plain) ⟨counted, fun _ => none⟩ ackTwo = some s :=
    ⟨_, rfl⟩
  obtain ⟨t, ht⟩ : ∃ t : MsgSys, run (msgStep plain) s lateAck = some t := by
    obtain rfl := Option.some.inj hs
    exact ⟨_, rfl⟩
  refine ⟨s, t, hs, ht, ?_, ?_, readid_law plain counted (fun k r hr => by cases hr) _ _
    (bounded_of_counters plain (fun c hc => by cases hc) _) s t hs ht⟩
  · obtain rfl := Option.some.inj hs
    rfl
  · obtain rfl := Option.some.inj hs
    obtain rfl := Option.some.inj ht
    rfl

/-- An id is acknowledged before any message exists, and the read id is ahead. -/
theorem readid_ahead : ¬∀ (X : Externals) (s₀ : Store) (ls : List (Label Request Reply))
    (s : MsgSys), Behind s₀ → run (msgStep X) ⟨s₀, fun _ => none⟩ ls = some s →
    Behind s.shared := by
  intro h
  have hb := h plain ⟨fun _ => none, fun _ => none, fun _ _ => none⟩
    [.start 0 (request 7 (.pushMsgAck 5)), .act 0 (.text (some 5))] _
    (fun k r hr => by cases hr) rfl (.readid 7) 5 rfl
  exact absurd hb (by decide)

end Samples

end Doorhinges.Messages

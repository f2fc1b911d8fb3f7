import Doorhinges.BlockingList.Steps

/-!
# The blocking list is first in, first out

A blocking pop behind its wait has a datum of its own in the list, as long as the other
pops leave it there. Between pushes and blocking pops the semaphore sees to that; a
non-blocking pop takes a datum and leaves its count in the semaphore.
-/
namespace Doorhinges.BlockingList

open Lib.Program
open Lib.Machine
open Lib.Threads

variable {P : Type}

/-- Where a thread is: before its section, behind the wait, or behind a pop. -/
inductive View (P : Type) where
  | calling
  | woken
  | got (flag : Bool) (data : Option P)

def mayCall (v : View P) : Cmd P → Prop
  | .pop true => v = .woken
  | _ => v ≠ .woken

def called (v : View P) : Cmd P → Reply P → View P
  | .semWait, r => if r.int = 0 then .woken else .got true none
  | .pop flag, r => .got flag r.data?
  | _, _ => v

def rules : Discipline (Cmd P) (Reply P) Empty (View P) where
  mayCall := mayCall
  called := called
  maySend _ _ := True
  sent v _ := v
  mayMark _ _ := True
  marked v _ := v

/-- At its end a blocking pop returns what its section gave, or what its failed wait did. -/
def post (a : Returned P) (v : View P) : Prop :=
  v ≠ .woken ∧ ∀ d, a = .pop true d → v = .got true d

theorem program_keeps (q : Request P) : Keeps rules (program q) .calling post := by
  cases q with
  | push data =>
    cases data with
    | none => exact ⟨by simp, by simp⟩
    | some data => exact ⟨by simp [rules, mayCall], fun r => ⟨by simp [rules, called], by simp⟩⟩
  | pop flag =>
    cases flag with
    | false => exact ⟨by simp [rules, mayCall], fun r => ⟨by simp [rules, called], by simp⟩⟩
    | true =>
      refine ⟨by simp [rules, mayCall], fun r => ?_⟩
      show Keeps rules ((if r.int ≠ 0 then pure none else _) >>= _) (called .calling .semWait r) post
      rw [keeps_bind, keeps_ite]
      constructor
      · intro hr
        simp [called, hr, post]
      · intro hr
        have hview : called (P := P) .calling .semWait r = .woken := by
          simp only [ne_eq, not_not] at hr
          simp [called, hr]
        rw [hview]
        exact ⟨rfl, fun r => ⟨by simp [rules, called], by simp [rules, called]⟩⟩
  | top => exact ⟨by simp [rules, mayCall], fun r => ⟨by simp [rules, called], by simp⟩⟩
  | length => exact ⟨by simp [rules, mayCall], fun r => ⟨by simp [rules, called], by simp⟩⟩

/-- What went in is what came out and, behind it, the queue. -/
theorem popped_queue {s : Shared P} (h : s.popped <+: s.pushed) : s.popped ++ s.queue = s.pushed :=
  (List.prefix_iff_eq_append.mp h).symm ▸ rfl

theorem queue_eq {s : Shared P} {queue : List P} (h : s.pushed = s.popped ++ queue) :
    s.queue = queue := by
  rw [Shared.queue, h, List.drop_left]

/-- The list holds the queue. -/
structure Listed (cap : UInt64) (s : Shared P) (vs : Nat → Option (View P)) : Prop where
  history : s.popped <+: s.pushed
  list : Represents s.list s.queue
  maxLen : s.list.maxLen = cap
  counted : Counted vs .woken s.woken

/-- Every pop behind its wait has a datum in the list. -/
structure Inv (cap : UInt64) (s : Shared P) (vs : Nat → Option (View P)) : Prop
    extends Listed cap s vs where
  owed : s.woken ≤ s.queue.length
  datum : ∀ i, vs i ≠ some (.got true none)

/-- A datum is pushed only while it is not queued, and a pop passes the semaphore or takes a
datum without it only when there are more data than pops behind their wait. -/
def Spares [DecidableEq P] (s : Shared P) (_ : View P) (c : Cmd P) (_ : Reply P) : Prop :=
  match c with
  | .push data => s.list.len < s.list.maxLen → data ∉ s.queue
  | .semWait => 0 < s.list.sem → s.woken < s.list.len.toNat
  | .pop false => s.list.head ≠ none → s.woken < s.list.len.toNat
  | _ => True

variable {cap : UInt64} {s s' : Shared P} {vs : Nat → Option (View P)} {i : Nat} {v w : View P}

theorem datum_update (h : ∀ j, vs j ≠ some (.got true none)) (hw : w ≠ .got true none) (j : Nat) :
    Function.update vs i (some w) j ≠ some (.got true none) := by
  by_cases hj : j = i
  · subst hj
    simpa using hw
  · rw [Function.update_of_ne hj]
    exact h j

theorem Inv.initial (maxLen : UInt64) (next : P → Option P) :
    Inv (capacity maxLen) ⟨xListCreate maxLen next, [], [], 0⟩ fun _ => none :=
  ⟨⟨List.prefix_rfl, represents_create maxLen next, rfl, .none⟩, Nat.zero_le _, fun _ => by simp⟩

/-- A thread that is not behind its wait moves to another such place. -/
theorem Inv.view (h : Inv cap s vs) (hi : vs i ≠ some .woken) (hw : w ≠ .woken)
    (hd : w ≠ .got true none) : Inv cap s (Function.update vs i (some w)) :=
  ⟨⟨h.history, h.list, h.maxLen, h.counted.other hi hw⟩, h.owed, datum_update h.datum hd⟩

theorem Listed.head_eq_none (h : Listed cap s vs) : s.list.head = none ↔ s.queue = [] := by
  rw [h.list.head, List.head?_eq_none_iff]

variable [DecidableEq P]

/-- What a call leaves of the queue, the semaphore and the count of the woken pops. -/
inductive Effect (s s' : Shared P) : Cmd P → Reply P → Prop
  | pushed (data : P) (n : Int) : s'.queue = s.queue ++ [data] → s'.list.sem ≤ s.list.sem + 1 →
      s'.woken = s.woken → Effect s s' (.push data) (.status n)
  | waited : 0 < s.list.sem → s'.queue = s.queue → s'.list.sem = s.list.sem - 1 →
      s'.woken = s.woken + 1 → Effect s s' .semWait (.status 0)
  | popped (flag : Bool) (d : Option P) : d = s.queue.head? → s'.queue = s.queue.tail →
      s'.list.sem = s.list.sem → s'.woken = s.woken - flag.toNat →
      Effect s s' (.pop flag) (.data d)
  | same (c : Cmd P) (r : Reply P) : c ≠ .semWait → (∀ flag, c ≠ .pop flag) → s' = s →
      Effect s s' c r

/-- A datum that a push takes in is not queued. -/
def Fresh (s : Shared P) (c : Cmd P) : Prop :=
  ∀ data, c = .push data → s.list.len < s.list.maxLen → data ∉ s.queue

/-- A push under the limit puts the datum in behind the queue. -/
theorem push_serves (h : Represents s.list s.queue) (hhist : s.popped <+: s.pushed) {data : P}
    {n : Int} (hfresh : Fresh s (.push data)) (hs : serve s (.push data) (.status n) = some s') :
    Effect s s' (.push data) (.status n) ∧ s'.popped <+: s'.pushed ∧
      Represents s'.list s'.queue ∧ s'.list.maxLen = s.list.maxLen := by
  simp only [serve, Option.ite_none_right_eq_some, Option.some.injEq] at hs
  obtain ⟨rfl, rfl⟩ := hs
  by_cases hlt : s.list.len < s.list.maxLen
  · have hpush : (s.list.push data).2 = 0 := by simp [XList.push, hlt]
    obtain ⟨-, hrep, hmax, hsem⟩ := (h.push (hfresh data rfl hlt)).resolve_right fun hfull => by
      rw [hpush] at hfull
      cases hfull.1
    have hpushed : s.pushed ++ [data] = s.popped ++ (s.queue ++ [data]) := by
      rw [← popped_queue hhist, List.append_assoc]
    have hqueue := queue_eq (s := { s with
      list := (s.list.push data).1, pushed := s.pushed ++ [data] }) hpushed
    simp only [hpush, if_true]
    refine ⟨.pushed data 0 hqueue hsem rfl, hhist.trans (List.prefix_append _ _), ?_, hmax⟩
    rw [hqueue]
    exact hrep
  · have hpush : s.list.push data = (s.list, -1) := by simp [XList.push, hlt]
    rw [hpush]
    exact ⟨.same _ _ (by simp) (by simp) rfl, hhist, h, rfl⟩

/-- A pop takes the first of the queue. -/
theorem pop_serves (h : Represents s.list s.queue) (hhist : s.popped <+: s.pushed) {flag : Bool}
    {d : Option P} (hs : serve s (.pop flag) (.data d) = some s') :
    Effect s s' (.pop flag) (.data d) ∧ s'.popped <+: s'.pushed ∧
      Represents s'.list s'.queue ∧ s'.list.maxLen = s.list.maxLen := by
  simp only [serve, Option.ite_none_right_eq_some, Option.some.injEq] at hs
  obtain ⟨rfl, rfl⟩ := hs
  obtain ⟨hd, hrep, hmax, hsem⟩ := h.pop
  have hpushed : s.pushed = (s.popped ++ s.list.pop.2.toList) ++ s.queue.tail := by
    rw [hd, List.append_assoc, ← popped_queue hhist]
    cases s.queue <;> rfl
  have hqueue := queue_eq (s := { s with
    list := s.list.pop.1, popped := s.popped ++ s.list.pop.2.toList,
    woken := s.woken - flag.toNat }) hpushed
  refine ⟨.popped flag _ hd hqueue hsem rfl, hpushed ▸ List.prefix_append _ _, ?_, hmax⟩
  rw [hqueue]
  exact hrep

/-- What a call does to the list. -/
theorem serve_effect (h : Represents s.list s.queue) (hhist : s.popped <+: s.pushed) {c : Cmd P}
    {r : Reply P} (hfresh : Fresh s c) (hs : serve s c r = some s') :
    Effect s s' c r ∧ s'.popped <+: s'.pushed ∧ Represents s'.list s'.queue ∧
      s'.list.maxLen = s.list.maxLen := by
  cases c with
  | push data =>
    cases r with
    | status n => exact push_serves h hhist hfresh hs
    | data d => cases hs
    | len n => cases hs
  | semWait =>
    cases r with
    | status n =>
      simp only [serve, Option.ite_none_right_eq_some, Option.some.injEq] at hs
      obtain ⟨⟨rfl, hsem⟩, rfl⟩ := hs
      obtain ⟨hhead, htail, hpath, hnodup, hlen, hbound⟩ := h
      exact ⟨.waited hsem rfl rfl rfl, hhist, ⟨hhead, htail, hpath, hnodup, hlen, hbound⟩, rfl⟩
    | data d => cases hs
    | len n => cases hs
  | pop flag =>
    cases r with
    | data d => exact pop_serves h hhist hs
    | status n => cases hs
    | len n => cases hs
  | top =>
    cases r with
    | data d =>
      simp only [serve, Option.ite_none_right_eq_some, Option.some.injEq] at hs
      obtain ⟨-, rfl⟩ := hs
      exact ⟨.same _ _ (by simp) (by simp) rfl, hhist, h, rfl⟩
    | status n => cases hs
    | len n => cases hs
  | length =>
    cases r with
    | len n =>
      simp only [serve, Option.ite_none_right_eq_some, Option.some.injEq] at hs
      obtain ⟨-, rfl⟩ := hs
      exact ⟨.same _ _ (by simp) (by simp) rfl, hhist, h, rfl⟩
    | status n => cases hs
    | data d => cases hs

omit [DecidableEq P] in
/-- Only a wait that succeeds makes a woken pop, only the section behind it ends one. -/
theorem Effect.counted {c : Cmd P} {r : Reply P} (h : Effect s s' c r)
    (hcount : Counted vs .woken s.woken) (hi : vs i = some v) (hmay : mayCall v c) :
    Counted (Function.update vs i (some (called v c r))) .woken s'.woken := by
  have hother : v ≠ .woken → vs i ≠ some .woken := fun hv => by rw [hi]; simpa using hv
  cases h with
  | pushed data n _ _ hwoken =>
    rw [hwoken]
    exact hcount.other (hother hmay) hmay
  | waited _ _ _ hwoken =>
    rw [hwoken]
    exact hcount.enter (hother hmay)
  | popped flag d _ _ _ hwoken =>
    rw [hwoken]
    cases flag with
    | false => exact hcount.other (hother hmay) (by simp [called])
    | true =>
      obtain rfl : v = .woken := hmay
      exact hcount.leave hi (by simp [called])
  | same c r hwait hpop hsame =>
    subst hsame
    have hv : v ≠ .woken ∧ called v c r = v := by
      cases c with
      | push data => exact ⟨hmay, rfl⟩
      | semWait => exact absurd rfl hwait
      | pop flag => exact absurd rfl (hpop flag)
      | top => exact ⟨hmay, rfl⟩
      | length => exact ⟨hmay, rfl⟩
    rw [hv.2]
    exact hcount.other (hother hv.1) hv.1

theorem Listed.call (h : Listed cap s vs) {c : Cmd P} {r : Reply P} (hi : vs i = some v)
    (hmay : mayCall v c) (hfresh : Fresh s c) (hs : serve s c r = some s') :
    Listed cap s' (Function.update vs i (some (called v c r))) := by
  obtain ⟨heff, hhist, hrep, hmax⟩ := serve_effect h.list h.history hfresh hs
  exact ⟨hhist, hrep, hmax.trans h.maxLen, heff.counted h.counted hi hmay⟩

omit [DecidableEq P] in
theorem Spares.fresh [DecidableEq P] {c : Cmd P} {r : Reply P} (h : Spares s v c r) : Fresh s c := by
  rintro data rfl
  exact h

theorem Inv.call (h : Inv cap s vs) {c : Cmd P} {r : Reply P} (hi : vs i = some v)
    (hmay : mayCall v c) (hg : Spares s v c r) (hs : serve s c r = some s') :
    Inv cap s' (Function.update vs i (some (called v c r))) := by
  obtain ⟨heff, -⟩ := serve_effect h.list h.history hg.fresh hs
  have hlen := h.list.len
  have howed := h.owed
  refine ⟨h.toListed.call hi hmay hg.fresh hs, ?_, datum_update h.datum ?_⟩
  · cases heff with
    | pushed data n hqueue _ hwoken =>
      rw [hqueue, hwoken, List.length_append]
      omega
    | waited hsem hqueue _ hwoken =>
      have hlt : s.woken < s.list.len.toNat := hg hsem
      rw [hqueue, hwoken]
      omega
    | popped flag d _ hqueue _ hwoken =>
      rw [hqueue, hwoken, List.length_tail]
      cases flag with
      | false =>
        by_cases hq : s.queue = []
        · simp only [hq, List.length_nil] at howed ⊢
          exact howed
        · have hlt : s.woken < s.list.len.toNat := hg (h.head_eq_none.not.mpr hq)
          simp only [Bool.toNat_false]
          omega
      | true =>
        simp only [Bool.toNat_true]
        omega
    | same c r _ _ hsame => exact hsame ▸ howed
  · have hgot := h.datum i
    have hold : v ≠ .got true none := by
      rintro rfl
      exact hgot hi
    cases heff with
    | pushed data n => exact hold
    | waited => simp [called, Reply.int]
    | popped flag d hd =>
      cases flag with
      | false => simp [called]
      | true =>
        obtain rfl : v = .woken := hmay
        have hpos := h.counted.pos hi
        have hne : s.queue ≠ [] := by
          intro hnil
          rw [hnil] at howed
          exact absurd howed (Nat.not_le.mpr hpos)
        simpa [called, Reply.data?, hd] using hne
    | same c r hwait hpop =>
      cases c with
      | push data => exact hold
      | semWait => exact absurd rfl hwait
      | pop flag => exact absurd rfl (hpop flag)
      | top => exact hold
      | length => exact hold

abbrev ListSys (P : Type) := Sys (Shared P) (Cmd P) (Reply P) Empty (View P) (Returned P)

def start (maxLen : UInt64) (next : P → Option P) : ListSys P :=
  ⟨⟨xListCreate maxLen next, [], [], 0⟩, fun _ => none⟩

def listStep (s : ListSys P) (l : Label (Request P) (Reply P)) : Option (ListSys P) :=
  step serve rules program .calling s l

/-- The pops return the data in the order of the pushes, the length is the number of queued
data and in its limit, and no blocking pop has come back empty. -/
structure Correct (maxLen : UInt64) (s : ListSys P) : Prop where
  fifo : s.shared.popped <+: s.shared.pushed
  len : s.shared.list.len.toNat + s.shared.popped.length = s.shared.pushed.length
  bound : s.shared.list.len ≤ capacity maxLen
  datum : ∀ i v, s.thread i ≠ some ⟨.ret (.pop true none), v⟩

omit [DecidableEq P] in
theorem Inv.start (h : Inv cap s vs) (hpost : ∀ v, vs i = some v → ∃ a, post a v) :
    Inv cap s (Function.update vs i (some .calling)) := by
  refine h.view (fun hi => ?_) (by simp) (by simp)
  obtain ⟨a, ha⟩ := hpost _ hi
  exact ha.1 rfl

theorem inv_preserves (cap : UInt64) : Preserves (serve (P := P)) rules program .calling post
    Spares (Inv cap) where
  keeps := program_keeps
  start _ _ _ h hpost := h.start hpost
  call _ _ _ _ _ _ _ h hi hmay hg hs := h.call hi hmay hg hs
  mark _ _ _ _ e := e.elim

omit [DecidableEq P] in
theorem Correct.of_kept {maxLen : UInt64} {s : ListSys P}
    (h : Kept rules post (Inv (capacity maxLen)) s) : Correct maxLen s := by
  have hinv := h.holds
  refine ⟨hinv.history, ?_, hinv.maxLen ▸ hinv.list.bound, fun i v hi => ?_⟩
  · rw [hinv.list.len, ← popped_queue hinv.history, List.length_append, Nat.add_comm]
  · have hpost := h.keeps i _ hi
    have hv : v = .got true none := hpost.2 none rfl
    exact hinv.datum i (by rw [views, hi, hv]; rfl)

/-- In every interleaving in which each push and pop spares the queued data of others, the
list is a bounded queue and every blocking pop gets a datum. -/
theorem bounded_fifo (maxLen : UInt64) (next : P → Option P)
    {ls : List (Label (Request P) (Reply P))} {t : ListSys P}
    (hg : Throughout listStep (Guarded Spares) (start maxLen next) ls)
    (hr : run listStep (start maxLen next) ls = some t) : Correct maxLen t :=
  .of_kept (Kept.run (inv_preserves _) (Kept.start (Inv.initial maxLen next)) hg hr)

/-- One datum through a list of length 1, taken by a blocking pop. -/
def handover : List (Label (Request Nat) (Reply Nat)) :=
  [.start 0 (.push (some 7)), .act 0 (.status 0), .start 1 (.pop true), .act 1 (.status 0),
    .act 1 (.data (some 7))]

theorem bounded_fifo_handover : ∃ t, run listStep (start 1 fun _ => none) handover = some t ∧
    t.shared.popped = [7] ∧ Correct 1 t := by
  have hg : Throughout listStep (Guarded Spares) (start 1 fun _ => none) handover := by
    refine .cons trivial rfl (.cons (.of_call rfl ?_) rfl (.cons trivial rfl
      (.cons (.of_call rfl ?_) rfl (.cons (.of_call rfl ?_) rfl trivial))))
    · intro _
      exact List.not_mem_nil
    · intro _
      decide
    · trivial
  exact ⟨_, rfl, rfl, bounded_fifo 1 (fun _ => none) hg rfl⟩

/-- A non-blocking pop between a push and a blocking pop. -/
def takenOver : List (Label (Request Nat) (Reply Nat)) :=
  [.start 0 (.push (some 7)), .act 0 (.status 0), .start 0 (.pop false), .act 0 (.data (some 7)),
    .start 1 (.pop true), .act 1 (.status 0), .act 1 (.data none)]

/-- The blocking pop takes the count of a datum that is gone and returns nothing. -/
theorem blocking_pop_returns_null : ¬ ∀ (maxLen : UInt64) (next : Nat → Option Nat)
    (ls : List (Label (Request Nat) (Reply Nat))) (t : ListSys Nat),
    run listStep (start maxLen next) ls = some t → Correct maxLen t := by
  intro h
  obtain ⟨t, ht, hthread⟩ : ∃ t, run listStep (start 1 fun _ => none) takenOver = some t ∧
      t.thread 1 = some ⟨.ret (.pop true none), .got true none⟩ := ⟨_, rfl, rfl⟩
  exact (h 1 (fun _ => none) takenOver t ht).datum 1 _ hthread

end Doorhinges.BlockingList

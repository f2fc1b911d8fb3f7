import Doorhinges.BlockingList.Fifo

/-!
# The semaphore of the blocking list

As long as no pop without a wait takes a datum, the count of the semaphore and the pops
behind their wait never exceed the queued data. When a step leaves more pops behind
their wait than data, those pops alone bring one of them back with nothing.
-/
namespace Doorhinges.BlockingList

open Lib.Program
open Lib.Machine
open Lib.Threads

variable {P : Type} {cap : UInt64} {s s' : Shared P} {vs : Nat → Option (View P)} {i : Nat}
  {v w : View P} [DecidableEq P]

/-- A datum is pushed only while it is not queued, and only blocking pops take data. -/
def Waits (s : Shared P) (v : View P) (c : Cmd P) (r : Reply P) : Prop :=
  match c with
  | .pop false => s.list.head = none
  | c => c = .semWait ∨ Spares s v c r

structure Metered (cap : UInt64) (s : Shared P) (vs : Nat → Option (View P)) : Prop
    extends Inv cap s vs where
  counts : s.list.sem + s.woken ≤ s.queue.length

theorem Metered.spares (h : Metered cap s vs) {c : Cmd P} {r : Reply P} (hg : Waits s v c r) :
    Spares s v c r := by
  cases c with
  | push data => exact hg.resolve_left (by simp)
  | semWait =>
    intro hsem
    have hcounts := h.counts
    have hlen := h.list.len
    omega
  | pop flag =>
    cases flag with
    | false => exact fun hne => absurd hg hne
    | true => trivial
  | top => trivial
  | length => trivial

theorem Metered.call (h : Metered cap s vs) {c : Cmd P} {r : Reply P} (hi : vs i = some v)
    (hmay : mayCall v c) (hg : Waits s v c r) (hs : serve s c r = some s') :
    Metered cap s' (Function.update vs i (some (called v c r))) := by
  have hspares := h.spares hg
  refine ⟨h.toInv.call hi hmay hspares hs, ?_⟩
  obtain ⟨heff, -⟩ := serve_effect h.list h.history hspares.fresh hs
  have hcounts := h.counts
  cases heff with
  | pushed data n hqueue hsem hwoken =>
    rw [hqueue, hwoken, List.length_append, List.length_singleton]
    omega
  | waited hpos hqueue hsem hwoken =>
    rw [hqueue, hsem, hwoken]
    omega
  | popped flag d _ hqueue hsem hwoken =>
    rw [hqueue, hsem, hwoken, List.length_tail]
    cases flag with
    | false =>
      have hnil : s.queue = [] := h.head_eq_none.mp hg
      simp only [hnil, List.length_nil, Bool.toNat_false] at hcounts ⊢
      omega
    | true =>
      obtain rfl : v = .woken := hmay
      have hpos := h.counted.pos hi
      simp only [Bool.toNat_true]
      omega
  | same c r _ _ hsame => exact hsame ▸ hcounts

theorem metered_preserves (cap : UInt64) : Preserves (serve (P := P)) rules program .calling post
    Waits (Metered cap) where
  keeps := program_keeps
  start _ _ _ h hpost := ⟨h.toInv.start hpost, h.counts⟩
  call _ _ _ _ _ _ _ h hi hmay hg hs := h.call hi hmay hg hs
  mark _ _ _ _ e := e.elim

/-- Where only blocking pops take data, the semaphore keeps every pop from the data of others. -/
theorem spares_of_waits (maxLen : UInt64) (next : P → Option P)
    {ls : List (Label (Request P) (Reply P))}
    (hg : Throughout listStep (Guarded Waits) (start maxLen next) ls) :
    Throughout listStep (Guarded Spares) (start maxLen next) ls := by
  have hstep : ∀ (s : ListSys P) l t, Kept rules post (Metered (capacity maxLen)) s →
      Guarded Waits s l → listStep s l = some t → Kept rules post (Metered (capacity maxLen)) t :=
    fun s l t hk hw hs => hk.step (metered_preserves _) hw hs
  refine Throughout.of_invariant hstep (fun s l hk hw => ?_)
    (Kept.start ⟨Inv.initial maxLen next, Nat.zero_le _⟩) hg
  cases l with
  | start i q => trivial
  | act i r => exact fun c k v hi => hk.holds.spares (hw c k v hi)

/-- What is left of a blocking pop behind its wait. -/
def behindWait : Act P (Returned P) := .call (.pop true) fun r => .ret (.pop true r.data?)

omit [DecidableEq P] in
theorem program_wait : (program (.pop true) : Act P (Returned P)) =
    .call Cmd.semWait fun r => if r.int = 0 then behindWait else .ret (.pop true none) := by
  refine congrArg (Prog.call Cmd.semWait) (funext fun r => ?_)
  by_cases hr : r.int = 0
  · simp only [Prog.bind, hr, ne_eq, not_true_eq_false, if_false, if_true]
    rfl
  · simp only [Prog.bind, hr, ne_eq, not_false_eq_true, if_true, if_false]
    rfl

/-- A thread is at the start of a call, behind its wait, or done. -/
def Placed (p : Act P (Returned P)) : Prop :=
  (∃ q, p = program q) ∨ p = behindWait ∨ ∃ a, p = .ret a

omit [DecidableEq P] in
theorem placed_called {p : Act P (Returned P)} (h : Placed p) {c : Cmd P}
    {k : Reply P → Act P (Returned P)} (hp : p = .call c k) (r : Reply P) : Placed (k r) := by
  rcases h with ⟨q, rfl⟩ | rfl | ⟨a, rfl⟩
  · cases q with
    | push data =>
      cases data with
      | none => cases hp
      | some data =>
        obtain ⟨rfl, rfl⟩ := Prog.call.inj hp
        exact .inr (.inr ⟨_, rfl⟩)
    | pop flag =>
      cases flag with
      | false =>
        obtain ⟨rfl, rfl⟩ := Prog.call.inj hp
        exact .inr (.inr ⟨_, rfl⟩)
      | true =>
        rw [program_wait] at hp
        obtain ⟨rfl, rfl⟩ := Prog.call.inj hp
        by_cases hr : r.int = 0
        · exact .inr (.inl (if_pos hr))
        · exact .inr (.inr ⟨_, if_neg hr⟩)
    | top =>
      obtain ⟨rfl, rfl⟩ := Prog.call.inj hp
      exact .inr (.inr ⟨_, rfl⟩)
    | length =>
      obtain ⟨rfl, rfl⟩ := Prog.call.inj hp
      exact .inr (.inr ⟨_, rfl⟩)
  · obtain ⟨rfl, rfl⟩ := Prog.call.inj hp
    exact .inr (.inr ⟨_, rfl⟩)
  · cases hp

omit [DecidableEq P] in
/-- Only a thread behind its wait has that digest. -/
theorem placed_woken {p : Act P (Returned P)} (h : Placed p) (hk : Keeps rules p .woken post) :
    p = behindWait := by
  rcases h with ⟨q, rfl⟩ | rfl | ⟨a, rfl⟩
  · cases q with
    | push data =>
      cases data with
      | none => exact absurd rfl hk.1
      | some data => exact absurd rfl hk.1
    | pop flag => cases flag <;> exact absurd rfl hk.1
    | top => exact absurd rfl hk.1
    | length => exact absurd rfl hk.1
  · rfl
  · exact absurd rfl hk.1

theorem placed_step {s t : ListSys P} {l : Label (Request P) (Reply P)}
    (h : ∀ i p, s.thread i = some p → Placed p.prog) (hs : listStep s l = some t) :
    ∀ i p, t.thread i = some p → Placed p.prog := by
  have hset : ∀ (s : ListSys P) i p, (∀ i p, s.thread i = some p → Placed p.prog) →
      Placed p.prog → ∀ j q, (s.set i p).thread j = some q → Placed q.prog := by
    intro s i p h hp j q hq
    by_cases hj : j = i
    · subst hj
      obtain rfl : p = q := by simpa [Sys.set] using hq
      exact hp
    · exact h j q (by simpa [Sys.set, hj] using hq)
  rcases step_cases hs with ⟨i, q, rfl, -, rfl⟩ | ⟨i, r, c, k, v, g, rfl, hi, -, rfl⟩ |
    ⟨i, r, e, k, v, rfl, hi, rfl⟩
  · exact hset s i _ h (.inl ⟨q, rfl⟩)
  · exact hset { s with shared := g } i _ h (placed_called (h i _ hi) rfl r)
  · cases e

/-- More pops are behind their wait than data are queued. -/
structure Overdrawn (cap : UInt64) (s : ListSys P) : Prop where
  placed : ∀ i p, s.thread i = some p → Placed p.prog
  keeps : ∀ i p, s.thread i = some p → Keeps rules p.prog p.view post
  listed : Listed cap s.shared (views s)
  short : s.shared.queue.length < s.shared.woken

/-- The next of the woken pops takes what is first. -/
theorem Overdrawn.act {cap : UInt64} {s : ListSys P} (h : Overdrawn cap s) :
    ∃ i t, listStep s (.act i (.data s.shared.queue.head?)) = some t ∧
      t.thread i = some ⟨.ret (.pop true s.shared.queue.head?), .got true s.shared.queue.head?⟩ ∧
      (s.shared.queue ≠ [] → Overdrawn cap t ∧ t.shared.queue = s.shared.queue.tail) := by
  obtain ⟨i, hi⟩ := h.listed.counted.exists_of_pos (Nat.zero_lt_of_lt h.short)
  obtain ⟨⟨prog, view⟩, hthread, hview⟩ := Option.map_eq_some_iff.mp hi
  obtain rfl : view = .woken := hview
  obtain rfl := placed_woken (h.placed i _ hthread) (h.keeps i _ hthread)
  have hpop := h.listed.list.pop.1
  obtain ⟨g, hg⟩ : ∃ g, serve s.shared (.pop true) (.data s.shared.queue.head?) = some g := by
    simp [serve, hpop]
  have hstep : listStep s (.act i (.data s.shared.queue.head?)) =
      some ({ s with shared := g }.set i
        ⟨.ret (.pop true s.shared.queue.head?), .got true s.shared.queue.head?⟩) :=
    step_call hthread hg
  refine ⟨i, _, hstep, by simp [Sys.set], fun hne => ?_⟩
  have hfresh : Fresh s.shared (.pop true) := fun data hc => by cases hc
  have hview : (rules : Discipline (Cmd P) (Reply P) Empty (View P)).called .woken (.pop true)
      (.data s.shared.queue.head?) = .got true s.shared.queue.head? := rfl
  obtain ⟨heff, -⟩ := serve_effect h.listed.list h.listed.history hfresh hg
  cases heff with
  | same c r _ hc => exact absurd rfl (hc true)
  | popped flag d _ hqueue _ hwoken =>
    refine ⟨⟨placed_step h.placed hstep, ?_, ?_, ?_⟩, hqueue⟩
    · exact keeps_set (s := { s with shared := g }) h.keeps ⟨by simp, by simp⟩
    · rw [views_set]
      exact h.listed.call (c := .pop true) hi rfl hfresh hg
    · have hshort := h.short
      have hpos := List.length_pos_iff.mpr hne
      show g.queue.length < g.woken
      rw [hqueue, hwoken, List.length_tail, Bool.toNat_true]
      omega

/-- The woken pops alone bring one of them back with nothing. -/
theorem Overdrawn.comes_back_empty {cap maxLen : UInt64} {s : ListSys P} (h : Overdrawn cap s) :
    ∃ ls t, run listStep s ls = some t ∧ ¬ Correct maxLen t := by
  induction hn : s.shared.queue.length generalizing s with
  | zero =>
    obtain ⟨i, t, ht, hthread, -⟩ := h.act
    refine ⟨[.act i (.data s.shared.queue.head?)], t, by simp [run, ht], fun hc =>
      hc.datum i (.got true s.shared.queue.head?) ?_⟩
    rw [hthread, List.length_eq_zero_iff.mp hn]
    rfl
  | succ n ih =>
    obtain ⟨i, t, ht, -, hrest⟩ := h.act
    obtain ⟨hover, hqueue⟩ := hrest (List.ne_nil_of_length_eq_add_one hn)
    obtain ⟨ls, u, hu, hbad⟩ := ih hover (by rw [hqueue, List.length_tail, hn]; rfl)
    exact ⟨.act i (.data s.shared.queue.head?) :: ls, u, by simp [run, ht, hu], hbad⟩

/-- A pop that passes the semaphore or takes a datum where it should not leaves the list
overdrawn. -/
theorem overdrawn_of_not_spares {s t : ListSys P} (hp : ∀ i p, s.thread i = some p → Placed p.prog)
    (h : Kept rules post (Inv cap) s) {c : Cmd P} {k : Reply P → Act P (Returned P)} {r : Reply P}
    (hi : s.thread i = some ⟨.call c k, v⟩) (hc : ∀ d, c ≠ .push d)
    (hs : listStep s (.act i r) = some t) (hn : ¬ Spares s.shared v c r) : Overdrawn cap t := by
  have hplaced := placed_step hp hs
  rcases step_cases hs with ⟨j, q, hl, -⟩ | ⟨j, r', c', k', v', g, hl, hj, hserve, rfl⟩ |
    ⟨j, r', e, k', v', hl, -⟩
  · cases hl
  · obtain ⟨rfl, rfl⟩ := Label.act.inj hl
    rw [hi] at hj
    obtain ⟨⟨rfl, rfl⟩, rfl⟩ : (c = c' ∧ k = k') ∧ v = v' := by simpa using hj
    have hkeep := h.keeps i _ hi
    have hinv := h.holds
    have hview : views s i = some v := by rw [views, hi]; rfl
    have hfresh : Fresh s.shared c := fun data hd => absurd hd (hc data)
    obtain ⟨heff, -⟩ := serve_effect hinv.list hinv.history hfresh hserve
    refine ⟨hplaced, ?_, ?_, ?_⟩
    · exact keeps_set (s := { s with shared := g }) h.keeps (hkeep.2 r)
    · rw [views_set]
      exact hinv.toListed.call hview hkeep.1 hfresh hserve
    · show g.queue.length < g.woken
      have hlen := hinv.list.len
      cases heff with
      | pushed data n => exact absurd rfl (hc data)
      | waited hpos hqueue hsem hwoken =>
        rw [hqueue, hwoken]
        simp only [Spares, hpos, forall_const] at hn
        omega
      | popped flag d _ hqueue hsem hwoken =>
        cases flag with
        | true => exact absurd trivial hn
        | false =>
          obtain ⟨hhead, hle⟩ : s.shared.list.head ≠ none ∧
              ¬ s.shared.woken < s.shared.list.len.toNat := by
            simpa only [Spares, Classical.not_imp] using hn
          have hpos := List.length_pos_iff.mpr (hinv.head_eq_none.not.mp hhead)
          rw [hqueue, hwoken, List.length_tail, Bool.toNat_false]
          omega
      | same c r hwait hpop =>
        cases c with
        | push data => exact absurd rfl (hc data)
        | semWait => exact absurd rfl hwait
        | pop flag => exact absurd rfl (hpop flag)
        | top => exact absurd trivial hn
        | length => exact absurd trivial hn
  · cases e

/-- The condition on the pops is exact: where the pops and pushes so far spared the queue and
the next pop does not, the run can be continued to a blocking pop that returns nothing. -/
theorem spares_exact (maxLen : UInt64) (next : P → Option P)
    {ls : List (Label (Request P) (Reply P))} {s t : ListSys P}
    (hg : Throughout listStep (Guarded Spares) (start maxLen next) ls)
    (hr : run listStep (start maxLen next) ls = some s) {c : Cmd P}
    {k : Reply P → Act P (Returned P)} {r : Reply P} (hi : s.thread i = some ⟨.call c k, v⟩)
    (hc : ∀ d, c ≠ .push d) (hs : listStep s (.act i r) = some t) :
    ¬ Spares s.shared v c r → ∃ ls' u, run listStep t ls' = some u ∧ ¬ Correct maxLen u := by
  intro hn
  have hkept := Kept.run (inv_preserves (capacity maxLen)) (Kept.start (Inv.initial maxLen next)) hg hr
  have hplaced : ∀ i p, s.thread i = some p → Placed p.prog :=
    run_invariant (fun _ _ _ hp hs => placed_step hp hs)
      (show ∀ i p, (start maxLen next).thread i = some p → _ from fun _ _ h => by cases h) hr
  exact (overdrawn_of_not_spares hplaced hkept hi hc hs hn).comes_back_empty

end Doorhinges.BlockingList

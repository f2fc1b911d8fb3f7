import Doorhinges.ShmQueue.Model
import Doorhinges.Lib.Threads

/-!
# The lock of the queue

The semaphore starts at 1. The value and the processes between their acquire and
their release make 1 together for as long as no process gives back what it has not
taken, which the failed acquire of a `pop` does.
-/
namespace Doorhinges.ShmQueue

open Lib.Program
open Lib.Machine
open Lib.Threads

/-- Where a process is; `refused` is a `pop` whose acquire has failed. -/
inductive View where
  | outside
  | popping
  | pushing
  | holds
  | refused
  deriving DecidableEq

/-- The header or the message area is read or changed. -/
def Cmd.access : Cmd → Bool
  | .get _ | .set _ _ | .readHead _ | .writeHead _ _ | .readData _ _ | .writeData _ _ => true
  | .acquire | .release | .exit | .nanosleep => false

def mayCall : View → Cmd → Prop
  | .outside, _ => False
  | .popping, c | .pushing, c => c = .acquire
  | .holds, c => c ≠ .acquire
  | .refused, c => c = .release

def called (v : View) (c : Cmd) (r : Reply) : View :=
  match c with
  | .acquire =>
    if r = .interrupted then if v = .popping then .refused else .outside
    else .holds
  | .release | .exit => .outside
  | _ => v

def marked : Mark → View
  | .pop => .popping
  | .push => .pushing

def rules : Discipline Cmd Reply Mark View where
  mayCall := mayCall
  called := called
  maySend _ _ := True
  sent v _ := v
  mayMark v _ := v = .outside
  marked _ e := marked e

/-- The semaphore. Every operation carries `SEM_UNDO`, so the end of a process gives back
what the process has taken. -/
def serve (value : Nat) : Cmd → Reply → Option Nat
  | .acquire, .done => if value = 0 then none else some (value - 1)
  | .acquire, .interrupted => some value
  | .release, .done => some (value + 1)
  | .exit, .done => some (value + 1)
  | .nanosleep, .done => some value
  | .get _, .num _ => some value
  | .set _ _, .done => some value
  | .readHead _, .head _ => some value
  | .writeHead _ _, .done => some value
  | .readData _ _, .data _ => some value
  | .writeData _ _, .done => some value
  | _, _ => none

/-- A locked call; `rounds` is enough for the waits of a call that blocks. -/
inductive Query where
  | pop (blocked : Bool) (rounds : Nat)
  | push (blocked : Bool) (rounds : Nat) (mb : ShmBlock)
  deriving DecidableEq

inductive Outcome where
  | popped (mb : Option ShmBlock)
  | pushed (done : Bool)
  deriving DecidableEq

def program (shmLen : Int) : Query → Act Outcome
  | .pop blocked rounds => do
    let mb ← pop shmLen true blocked rounds
    pure (.popped mb)
  | .push blocked rounds mb => do
    let done ← push shmLen true blocked rounds mb
    pure (.pushed done)

/-- At its end a process holds nothing. -/
def Done (v : View) : Prop := v = .outside ∨ v = .pushing

section Keeps

variable {α : Type} {shmLen : Int} {blocked : Bool}

/-- The calls that leave the semaphore alone. -/
def quiet : Discipline Cmd Reply Mark Unit :=
  only (fun c => c.access = true ∨ c = .nanosleep) fun _ => False

def Quiet (p : Act α) : Prop := Keeps quiet p () fun _ _ => True

theorem Quiet.bind {β : Type} {p : Act α} {f : α → Act β} (hp : Quiet p)
    (hf : ∀ a, Quiet (f a)) : Quiet (p >>= f) :=
  keeps_bind_of hp fun a _ => hf a

theorem Quiet.pure (a : α) : Quiet (Pure.pure a : Act α) := trivial

theorem Quiet.crash : Quiet (.crash : Act α) := trivial

theorem Quiet.ite {b : Prop} [Decidable b] {p q : Act α} (hp : Quiet p) (hq : Quiet q) :
    Quiet (if b then p else q) := by
  unfold Quiet
  rw [keeps_ite]
  exact ⟨fun _ => hp, fun _ => hq⟩

theorem Quiet.onlyIf {b : Prop} [Decidable b] {p : Act Unit} (hp : Quiet p) :
    Quiet (onlyIf b p) := hp.ite (.pure ())

theorem Quiet.call {c : Cmd} (hc : c.access = true ∨ c = .nanosleep) :
    Quiet (Lib.Program.call c : Act Reply) := ⟨hc, fun _ => trivial⟩

/-- A process that holds the lock still holds it afterwards. -/
theorem Quiet.keeps {p : Act α} (hp : Quiet p) {Q : α → View → Prop} (hQ : ∀ a, Q a .holds) :
    Keeps rules p .holds Q := by
  refine keeps_of_only hp (fun c hc => ?_) (fun _ _ => ⟨trivial, rfl⟩) (fun _ h => h.elim) hQ
  have hne : c ≠ .acquire := by
    intro h
    subst h
    simp [Cmd.access] at hc
  refine ⟨hne, fun r => ?_⟩
  cases c <;> first | rfl | simp [Cmd.access] at hc

theorem get_quiet (x : Field) : Quiet (get x) := (Quiet.call (.inl rfl)).bind fun _ => .pure _

theorem set_quiet (x : Field) (n : Int) : Quiet (set x n) :=
  (Quiet.call (.inl rfl)).bind fun _ => .pure _

theorem readHead_quiet (pos : Int) : Quiet (readHead pos) :=
  (Quiet.call (.inl rfl)).bind fun _ => .pure _

theorem writeHead_quiet (pos : Int) (b : Head) : Quiet (writeHead pos b) :=
  (Quiet.call (.inl rfl)).bind fun _ => .pure _

theorem alignQueueTail_quiet : Quiet (alignQueueTail shmLen) := by
  have hmove : Quiet (do
      let head ← get .head
      let tail ← get .tail
      onlyIf (head < tail) (set .tail QUEUE_HEADER)) :=
    (get_quiet _).bind fun head => (get_quiet _).bind fun tail => (set_quiet _ _).onlyIf
  unfold alignQueueTail
  refine (get_quiet _).bind fun pos => (get_quiet _).bind fun tail => ?_
  apply Quiet.ite
  · exact (Quiet.pure _).bind fun _ => hmove.onlyIf
  · exact (readHead_quiet _).bind fun _ => (Quiet.pure _).bind fun _ => hmove.onlyIf

theorem alignQueueHead_quiet (mb : Head) : Quiet (alignQueueHead shmLen mb) := by
  unfold alignQueueHead
  refine (get_quiet _).bind fun tailPos => (get_quiet _).bind fun headPos => ?_
  apply Quiet.ite (.pure _)
  apply Quiet.ite ((set_quiet _ _).bind fun _ => .pure _)
  refine (get_quiet _).bind fun pos => Quiet.bind ?_ fun _ => .pure _
  apply Quiet.onlyIf
  exact (writeHead_quiet _ _).bind fun _ => set_quiet _ _

theorem noMessage_quiet : Quiet noMessage :=
  (get_quiet _).bind fun _ => (get_quiet _).bind fun _ => .pure _

theorem noRoom_quiet (mb : Head) : Quiet (noRoom mb) := by
  unfold noRoom
  refine (get_quiet _).bind fun tail => (get_quiet _).bind fun head => ?_
  refine Quiet.ite ?_ (.pure _)
  exact (get_quiet _).bind fun _ => (get_quiet _).bind fun _ => .pure _

theorem waitWhile_quiet {test : Act Bool} (ht : Quiet test) (n : Nat) :
    Quiet (waitWhile blocked test n) := by
  induction n with
  | zero => exact .crash
  | succ n ih =>
    unfold waitWhile
    refine ht.bind fun b => ?_
    refine Quiet.ite ?_ (.pure _)
    apply Quiet.ite (.pure _)
    exact (Quiet.call (.inr rfl)).bind fun _ => ih

theorem popWait_quiet (rounds : Nat) : Quiet (popWait shmLen blocked rounds) := by
  have hagain : ∀ n, Quiet (popAgain shmLen blocked rounds n) := by
    intro n
    induction n with
    | zero => exact .crash
    | succ n ih =>
      unfold popAgain
      refine (waitWhile_quiet noMessage_quiet rounds).bind fun r => ?_
      apply Quiet.ite (.pure _)
      refine alignQueueTail_quiet.bind fun _ => noMessage_quiet.bind fun b => ?_
      exact ih.ite (.pure _)
  exact alignQueueTail_quiet.bind fun _ => hagain rounds

theorem pushWait_quiet (mb : Head) (rounds : Nat) :
    Quiet (pushWait shmLen blocked mb rounds) := by
  have hagain : ∀ n, Quiet (pushAgain shmLen blocked mb rounds n) := by
    intro n
    induction n with
    | zero => exact .crash
    | succ n ih =>
      unfold pushAgain
      refine (waitWhile_quiet (noRoom_quiet mb) rounds).bind fun r => ?_
      apply Quiet.ite (.pure _)
      refine (alignQueueHead_quiet mb).bind fun r => ?_
      apply Quiet.ite (.pure _)
      exact (noRoom_quiet mb).bind fun b => ih.ite (.pure _)
  unfold pushWait
  refine (alignQueueHead_quiet mb).bind fun r => ?_
  exact (Quiet.pure _).ite (hagain rounds)

theorem putHead_quiet (mb : ShmBlock) : Quiet (putHead mb) := by
  unfold putHead
  refine (get_quiet _).bind fun pos => (writeHead_quiet _ _).bind fun _ => ?_
  refine (Quiet.call (.inl rfl)).bind fun _ => ?_
  exact (get_quiet _).bind fun head => set_quiet _ _

/-- A process that exits does nothing more. -/
theorem exit_keeps {Q : α → View → Prop} : Keeps rules (exit : Act α) .holds Q := by
  unfold exit
  rw [keeps_bind]
  exact ⟨by simp [rules, mayCall], fun _ => trivial⟩

theorem takeTail_keeps {Q : ShmBlock → View → Prop} (hQ : ∀ mb, Q mb .holds) :
    Keeps rules (takeTail shmLen) .holds Q := by
  unfold takeTail
  rw [keeps_bind]
  apply (get_quiet _).keeps
  intro pos
  rw [keeps_bind]
  apply (readHead_quiet _).keeps
  intro tailMb
  rw [keeps_ite]
  refine ⟨fun _ => exit_keeps, fun _ => ?_⟩
  rw [keeps_bind]
  apply (get_quiet _).keeps
  intro headPos
  rw [keeps_bind]
  apply (get_quiet _).keeps
  intro tail
  rw [keeps_ite]
  refine ⟨fun _ => exit_keeps, fun _ => ?_⟩
  rw [keeps_ite]
  refine ⟨fun _ => exit_keeps, fun _ => ?_⟩
  rw [keeps_bind]
  apply (Quiet.call (.inl rfl)).keeps
  intro r
  rw [keeps_bind]
  apply (set_quiet _ _).keeps
  intro _
  exact hQ _

theorem release_keeps {v : View} (hv : v = .holds ∨ v = .refused) {Q : Unit → View → Prop}
    (hQ : Q () .outside) : Keeps rules release v Q := by
  unfold release
  rw [keeps_bind]
  refine ⟨?_, fun _ => hQ⟩
  rcases hv with rfl | rfl
  · simp [rules, mayCall]
  · rfl

/-- An acquire fails exactly where the process does not hold the lock afterwards. -/
theorem acquire_keeps {v : View} (hv : mayCall v .acquire) {Q : Int → View → Prop}
    (hfail : Q (-1) (called v .acquire .interrupted)) (hdone : Q 0 .holds) :
    Keeps rules acquire v Q := by
  unfold acquire
  rw [keeps_bind]
  refine ⟨hv, fun r => ?_⟩
  by_cases hr : r = .interrupted
  · subst hr
    exact hfail
  · show Q (if r = .interrupted then -1 else 0) (called v .acquire r)
    rw [if_neg hr]
    simpa only [called, if_neg hr] using hdone

theorem pop_keeps (rounds : Nat) :
    Keeps rules (pop shmLen true blocked rounds) .outside fun _ => Done := by
  have hend : ∀ mb : Option ShmBlock, Keeps rules
      (onlyIf (true = true) release >>= fun _ => pure mb) .holds fun _ => Done := by
    intro mb
    rw [keeps_bind, keeps_onlyIf]
    refine ⟨fun _ => release_keeps (.inl rfl) (.inl rfl), fun h => absurd rfl h⟩
  unfold pop
  rw [keeps_bind, keeps_mark]
  refine ⟨rfl, ?_⟩
  show Keeps rules _ .popping _
  rw [if_pos rfl, keeps_bind]
  apply acquire_keeps (v := .popping) rfl
  · show Keeps rules (release >>= fun _ => pure none) .refused _
    rw [keeps_bind]
    exact release_keeps (.inr rfl) (.inl rfl)
  · show Keeps rules (popWait shmLen blocked rounds >>= _) .holds _
    rw [keeps_bind]
    apply (popWait_quiet rounds).keeps
    intro r
    rw [keeps_ite]
    refine ⟨fun _ => ?_, fun _ => hend none⟩
    rw [keeps_bind]
    exact takeTail_keeps fun mb => hend (some mb)

theorem push_keeps (mb : ShmBlock) (rounds : Nat) :
    Keeps rules (push shmLen true blocked rounds mb) .outside fun _ => Done := by
  have hend : ∀ done : Bool, Keeps rules
      (onlyIf (true = true) release >>= fun _ => pure done) .holds fun _ => Done := by
    intro done
    rw [keeps_bind, keeps_onlyIf]
    refine ⟨fun _ => release_keeps (.inl rfl) (.inl rfl), fun h => absurd rfl h⟩
  unfold push
  rw [keeps_bind, keeps_mark]
  refine ⟨rfl, ?_⟩
  show Keeps rules _ .pushing _
  rw [keeps_ite]
  refine ⟨fun _ => .inr rfl, fun _ => ?_⟩
  rw [if_pos rfl, keeps_bind]
  apply acquire_keeps (v := .pushing) rfl
  · exact .inl rfl
  · show Keeps rules (pushWait shmLen blocked mb.head rounds >>= _) .holds _
    rw [keeps_bind]
    apply (pushWait_quiet mb.head rounds).keeps
    intro r
    rw [keeps_ite]
    refine ⟨fun _ => ?_, fun _ => hend false⟩
    rw [keeps_bind]
    apply (putHead_quiet mb).keeps
    intro _
    exact hend true

theorem program_keeps (q : Query) : Keeps rules (program shmLen q) .outside fun _ => Done := by
  cases q with
  | pop blocked rounds =>
    unfold program
    rw [keeps_bind]
    exact pop_keeps rounds
  | push blocked rounds mb =>
    unfold program
    rw [keeps_bind]
    exact push_keeps mb rounds

end Keeps

/-- The value and the processes that hold the lock make 1. -/
structure OneHolder (value : Nat) (vs : Nat → Option View) : Prop where
  taken : ∀ i, vs i ≠ some .refused
  count : ∃ n, Counted vs .holds n ∧ n + value = 1

namespace OneHolder

variable {value i : Nat} {vs : Nat → Option View}

theorem taken_update (h : OneHolder value vs) {w : View} (hw : w ≠ .refused) (j : Nat) :
    Function.update vs i (some w) j ≠ some .refused := by
  by_cases hj : j = i
  · subst hj
    simpa using hw
  · simpa [hj] using h.taken j

theorem still (h : OneHolder value vs) {v : View} (hv : vs i = some v) :
    OneHolder value (Function.update vs i (some v)) := by
  rw [← hv, Function.update_eq_self]
  exact h

/-- A process goes on without the lock. -/
theorem move (h : OneHolder value vs) {w : View} (hv : vs i ≠ some .holds) (hw : w ≠ .holds)
    (hr : w ≠ .refused) : OneHolder value (Function.update vs i (some w)) := by
  obtain ⟨n, hn, hsum⟩ := h.count
  exact ⟨h.taken_update hr, n, hn.other hv hw, hsum⟩

theorem enter (h : OneHolder value vs) (hpos : value ≠ 0) (hv : vs i ≠ some .holds) :
    OneHolder (value - 1) (Function.update vs i (some .holds)) := by
  obtain ⟨n, hn, hsum⟩ := h.count
  exact ⟨h.taken_update (by decide), n + 1, hn.enter hv, by omega⟩

theorem leave (h : OneHolder value vs) (hv : vs i = some .holds) :
    OneHolder (value + 1) (Function.update vs i (some .outside)) := by
  obtain ⟨n, hn, hsum⟩ := h.count
  have hpos : 0 < n := hn.pos hv
  exact ⟨h.taken_update (by decide), n - 1, hn.leave hv (by decide), by omega⟩

end OneHolder

/-- The acquire of a `pop` is not interrupted. -/
def Uninterrupted (_ : Nat) (v : View) (c : Cmd) (r : Reply) : Prop :=
  v = .popping → c = .acquire → r ≠ .interrupted

instance (value : Nat) (v : View) (c : Cmd) (r : Reply) :
    Decidable (Uninterrupted value v c r) :=
  inferInstanceAs (Decidable (v = .popping → c = .acquire → r ≠ .interrupted))

section Preserved

variable {value : Nat} {vs : Nat → Option View} {i : Nat} {r : Reply} {value' : Nat}

/-- What an acquire can do: take the lock, or fail. -/
theorem serve_acquire (h : serve value .acquire r = some value') :
    r = .done ∧ value ≠ 0 ∧ value' = value - 1 ∨ r = .interrupted ∧ value' = value := by
  cases r with
  | done =>
    simp only [serve, Option.ite_none_left_eq_some, Option.some.injEq] at h
    exact .inl ⟨rfl, h.1, h.2.symm⟩
  | interrupted => exact .inr ⟨rfl, (Option.some.inj h).symm⟩
  | num n => cases h
  | head b => cases h
  | data s => cases h

theorem OneHolder.acquire (h : OneHolder value vs) {v : View} (hv : vs i = some v)
    (hfree : v ≠ .holds) (hg : Uninterrupted value v .acquire r)
    (hs : serve value .acquire r = some value') :
    OneHolder value' (Function.update vs i (some (called v .acquire r))) := by
  have hout : vs i ≠ some .holds := by
    intro hi
    exact hfree (Option.some.inj (hv.symm.trans hi))
  rcases serve_acquire hs with ⟨rfl, hpos, rfl⟩ | ⟨rfl, rfl⟩
  · exact h.enter hpos hout
  · have hpop : v ≠ .popping := fun hp => hg hp rfl rfl
    have hview : called v .acquire .interrupted = .outside := by simp [called, hpop]
    rw [hview]
    apply h.move hout <;> decide

theorem OneHolder.call (h : OneHolder value vs) {v : View} {c : Cmd} (hv : vs i = some v)
    (hc : mayCall v c) (hg : Uninterrupted value v c r) (hs : serve value c r = some value') :
    OneHolder value' (Function.update vs i (some (called v c r))) := by
  cases v with
  | outside => exact hc.elim
  | refused => exact absurd hv (h.taken i)
  | popping =>
    obtain rfl : c = .acquire := hc
    exact h.acquire hv (by decide) hg hs
  | pushing =>
    obtain rfl : c = .acquire := hc
    exact h.acquire hv (by decide) hg hs
  | holds =>
    cases c with
    | acquire => exact absurd rfl hc
    | release =>
      cases r <;> cases hs
      exact h.leave hv
    | exit =>
      cases r <;> cases hs
      exact h.leave hv
    | _ =>
      cases r <;> cases hs
      exact h.still hv

end Preserved

theorem oneHolder_preserved (shmLen : Int) : Preserves serve rules (program shmLen) .outside
    (fun _ => Done) Uninterrupted OneHolder where
  keeps q := program_keeps q
  start g vs i h hv := by
    apply h.move _ (by decide) (by decide)
    intro hi
    obtain ⟨a, hd⟩ := hv _ hi
    rcases hd with hd | hd <;> cases hd
  call _ _ _ _ _ _ _ h hv hc hg hs := h.call hv hc hg hs
  mark g vs i v e h hv hm := by
    obtain rfl : v = .outside := hm
    cases e with
    | pop => exact h.move (by simp [hv]) (by decide) (by decide)
    | push => exact h.move (by simp [hv]) (by decide) (by decide)

abbrev QueueSys := Lib.Threads.Sys Nat Cmd Reply Mark View Outcome

/-- The process is between a successful acquire and its release. -/
def holds (s : QueueSys) (i : Nat) : Prop := views s i = some .holds

/-- The next step of the process reads or changes the header or the message area. -/
def accesses (s : QueueSys) (i : Nat) : Prop :=
  ∃ c k v, s.thread i = some ⟨.call c k, v⟩ ∧ c.access = true

structure Mutex (s : QueueSys) : Prop where
  value : s.shared ≤ 1
  one : ∀ i j, holds s i → holds s j → i = j
  inside : ∀ i, accesses s i → holds s i

/-- `create`: the value is 1 and no process has run. -/
def create : QueueSys := ⟨1, fun _ => none⟩

theorem oneHolder_create : OneHolder 1 fun _ => none :=
  ⟨fun _ => by simp, 0, .none, rfl⟩

theorem mutex_of_oneHolder {s : QueueSys} (h : Kept rules (fun _ => Done) OneHolder s) :
    Mutex s := by
  obtain ⟨n, hn, hsum⟩ := h.holds.count
  refine ⟨by omega, fun i j hi hj => ?_, fun i hi => ?_⟩
  · apply hn.unique _ hi hj
    omega
  · obtain ⟨c, k, v, ht, hc⟩ := hi
    have hview : views s i = some v := by simp [views, ht]
    have hmay : mayCall v c := (h.keeps i _ ht).1
    cases v with
    | holds => exact hview
    | outside => exact hmay.elim
    | refused => exact absurd hview (h.holds.taken i)
    | popping =>
      obtain rfl : c = .acquire := hmay
      cases hc
    | pushing =>
      obtain rfl : c = .acquire := hmay
      cases hc

def queueStep (shmLen : Int) : QueueSys → Label Query Reply → Option QueueSys :=
  step serve rules (program shmLen) .outside

/-- In every interleaving of any number of processes in which no acquire of a `pop` is
interrupted, the semaphore is a mutex. -/
theorem semaphore_mutex (shmLen : Int) (ls : List (Label Query Reply)) (s : QueueSys)
    (hg : Throughout (queueStep shmLen) (Guarded Uninterrupted) create ls)
    (hr : run (queueStep shmLen) create ls = some s) : Mutex s :=
  mutex_of_oneHolder ((Kept.start oneHolder_create).run (oneHolder_preserved shmLen) hg hr)

section Samples

/-- A push of a message without data up to its first access. -/
def pushing (i : Nat) : List (Label Query Reply) :=
  [.start i (.push false 1 ⟨⟨12, 0, 1⟩, []⟩), .act i .done, .act i .done]

/-- A `push` waits behind another and is interrupted. -/
def waiting : List (Label Query Reply) :=
  pushing 0 ++ [.start 1 (.push false 1 ⟨⟨12, 0, 1⟩, []⟩), .act 1 .done, .act 1 .interrupted]

theorem semaphore_mutex_waiting : ∃ s, run (queueStep 4096) create waiting = some s ∧
    holds s 0 ∧ Mutex s := by
  have hg : Throughout (queueStep 4096) (Guarded Uninterrupted) create waiting := by
    refine .cons trivial rfl (.cons ?_ rfl (.cons (.of_call rfl ?_) rfl (.cons trivial rfl
      (.cons ?_ rfl (.cons (.of_call rfl ?_) rfl trivial)))))
    · intro c k v h
      cases h
    · decide
    · intro c k v h
      cases h
    · decide
  exact ⟨_, rfl, rfl, semaphore_mutex 4096 waiting _ hg rfl⟩

/-- A `pop` waits behind a `push` and is interrupted, and another `push` follows. -/
def interrupted : List (Label Query Reply) :=
  pushing 0 ++ [.start 1 (.pop false 1), .act 1 .done, .act 1 .interrupted, .act 1 .done] ++
    pushing 2

/-- The `pop` gives back what it has not taken, and two processes are inside. -/
theorem not_mutex : ¬ ∀ (shmLen : Int) (ls : List (Label Query Reply)) (s : QueueSys),
    run (queueStep shmLen) create ls = some s → Mutex s := by
  intro h
  obtain ⟨s, hs, hfirst, hthird⟩ : ∃ s, run (queueStep 4096) create interrupted = some s ∧
      holds s 0 ∧ holds s 2 := ⟨_, rfl, rfl, rfl⟩
  have hone := (h 4096 interrupted s hs).one 0 2 hfirst hthird
  cases hone

end Samples

end Doorhinges.ShmQueue

import Doorhinges.Lib.Program
import Doorhinges.Lib.Machine
import Mathlib.Data.Finset.Card
import Mathlib.Logic.Function.Basic

/-!
# Threads over a shared state

Any number of threads run programs against one shared state. A call is one atomic
step; the shared state says which replies are possible and what they leave. A
thread that has come to its end may start again. Each thread carries a digest of
its own past calls, and an invariant speaks about the shared state and the digests.
-/
namespace Doorhinges.Lib.Threads

open Lib.Program
open Lib.Machine

variable {σ Q C R E V α : Type}

structure Thread (C R E V α : Type) where
  prog : Prog C R E α
  view : V

structure Sys (σ C R E V α : Type) where
  shared : σ
  thread : Nat → Option (Thread C R E V α)

inductive Label (Q R : Type) where
  | start (i : Nat) (q : Q)
  | act (i : Nat) (r : R)

/-- The thread is outside: it has never run or has come to its end. -/
def outside : Option (Thread C R E V α) → Bool
  | none => true
  | some ⟨.ret _, _⟩ => true
  | some _ => false

variable (sem : σ → C → R → Option σ) (D : Discipline C R E V) (program : Q → Prog C R E α)
  (fresh : V)

def Sys.set (s : Sys σ C R E V α) (i : Nat) (p : Thread C R E V α) : Sys σ C R E V α :=
  { s with thread := Function.update s.thread i (some p) }

/-- The next action of a thread; `r` is the reply when the action is a call. -/
def Sys.act (s : Sys σ C R E V α) (i : Nat) (r : R) : Option (Sys σ C R E V α) :=
  match s.thread i with
  | some ⟨.call c k, v⟩ =>
    (sem s.shared c r).map fun g => { s with shared := g }.set i ⟨k r, D.called v c r⟩
  | some ⟨.mark e k, v⟩ => some (s.set i ⟨k, D.marked v e⟩)
  | _ => none

def step (s : Sys σ C R E V α) : Label Q R → Option (Sys σ C R E V α)
  | .start i q => if outside (s.thread i) then some (s.set i ⟨program q, fresh⟩) else none
  | .act i r => s.act sem D i r

/-- A condition on the calls of a run. -/
def Guarded (G : σ → V → C → R → Prop) (s : Sys σ C R E V α) : Label Q R → Prop
  | .start _ _ => True
  | .act i r => ∀ c k v, s.thread i = some ⟨.call c k, v⟩ → G s.shared v c r

/-- What a step gives off, told from the digest, the command and the reply of its call. -/
def emits {ε : Type} (emit : V → C → R → List ε) (s : Sys σ C R E V α) : Label Q R → List ε
  | .start _ _ => []
  | .act i r =>
    match s.thread i with
    | some ⟨.call c _, v⟩ => emit v c r
    | _ => []

def views (s : Sys σ C R E V α) (i : Nat) : Option V := (s.thread i).map (·.view)

/-- What has to be shown for an invariant of the shared state and the digests. -/
structure Preserves (post : α → V → Prop) (G : σ → V → C → R → Prop)
    (I : σ → (Nat → Option V) → Prop) : Prop where
  keeps : ∀ q, Keeps D (program q) fresh post
  start : ∀ g vs i, I g vs → (∀ v, vs i = some v → ∃ a, post a v) →
    I g (Function.update vs i (some fresh))
  call : ∀ g vs i v c r g', I g vs → vs i = some v → D.mayCall v c → G g v c r →
    sem g c r = some g' → I g' (Function.update vs i (some (D.called v c r)))
  mark : ∀ g vs i v e, I g vs → vs i = some v → D.mayMark v e →
    I g (Function.update vs i (some (D.marked v e)))

/-- The invariant, and what the threads still have to keep. -/
structure Kept (post : α → V → Prop) (I : σ → (Nat → Option V) → Prop)
    (s : Sys σ C R E V α) : Prop where
  keeps : ∀ i t, s.thread i = some t → Keeps D t.prog t.view post
  holds : I s.shared (views s)

/-- `n` threads have the digest `v`. -/
def Counted (vs : Nat → Option V) (v : V) (n : Nat) : Prop :=
  ∃ S : Finset Nat, (∀ i, i ∈ S ↔ vs i = some v) ∧ S.card = n

namespace Counted

variable {vs : Nat → Option V} {v w : V} {n i : Nat}

theorem none : Counted (fun _ => Option.none) v 0 :=
  ⟨∅, fun i => by simp, rfl⟩

theorem pos (h : Counted vs v n) (hi : vs i = some v) : 0 < n := by
  obtain ⟨S, hS, rfl⟩ := h
  exact Finset.card_pos.mpr ⟨i, (hS i).mpr hi⟩

theorem exists_of_pos (h : Counted vs v n) (hn : 0 < n) : ∃ i, vs i = some v := by
  obtain ⟨S, hS, rfl⟩ := h
  obtain ⟨i, hi⟩ := Finset.card_pos.mp hn
  exact ⟨i, (hS i).mp hi⟩

theorem unique (h : Counted vs v n) (hn : n ≤ 1) {j : Nat} (hi : vs i = some v)
    (hj : vs j = some v) : i = j := by
  obtain ⟨S, hS, rfl⟩ := h
  exact Finset.card_le_one.mp hn i ((hS i).mpr hi) j ((hS j).mpr hj)

theorem enter (h : Counted vs v n) (hi : vs i ≠ some v) :
    Counted (Function.update vs i (some v)) v (n + 1) := by
  obtain ⟨S, hS, rfl⟩ := h
  refine ⟨insert i S, fun j => ?_, Finset.card_insert_of_notMem fun hmem => hi ((hS i).mp hmem)⟩
  by_cases hj : j = i
  · subst hj
    simp
  · simp [hj, hS]

theorem leave (h : Counted vs v n) (hi : vs i = some v) (hw : w ≠ v) :
    Counted (Function.update vs i (some w)) v (n - 1) := by
  obtain ⟨S, hS, rfl⟩ := h
  refine ⟨S.erase i, fun j => ?_, Finset.card_erase_of_mem ((hS i).mpr hi)⟩
  by_cases hj : j = i
  · subst hj
    simp [hw]
  · simp [hj, hS]

theorem other (h : Counted vs v n) (hi : vs i ≠ some v) (hw : w ≠ v) :
    Counted (Function.update vs i (some w)) v n := by
  obtain ⟨S, hS, rfl⟩ := h
  refine ⟨S, fun j => ?_, rfl⟩
  by_cases hj : j = i
  · subst hj
    simp [hw, hS, hi]
  · simp [hj, hS]

end Counted

variable {sem D program fresh} {post : α → V → Prop} {G : σ → V → C → R → Prop}
  {I : σ → (Nat → Option V) → Prop} {s t : Sys σ C R E V α}

/-- A call with a possible reply. -/
theorem step_call {c : C} {k : R → Prog C R E α} {v : V} {i : Nat} {r : R} {g : σ}
    (hi : s.thread i = some ⟨.call c k, v⟩) (hg : sem s.shared c r = some g) :
    step sem D program fresh s (.act i r) =
      some ({ s with shared := g }.set i ⟨k r, D.called v c r⟩) := by
  show s.act sem D i r = _
  simp only [Sys.act, hi, hg, Option.map_some]

theorem Guarded.of_call {c : C} {k : R → Prog C R E α} {v : V} {i : Nat} {r : R}
    (hi : s.thread i = some ⟨.call c k, v⟩) (hg : G s.shared v c r) :
    Guarded (Q := Q) G s (.act i r) := by
  intro c' k' v' hi'
  obtain ⟨⟨rfl, -⟩, rfl⟩ : (c = c' ∧ k = k') ∧ v = v' := by simpa using hi.symm.trans hi'
  exact hg

theorem views_set (i : Nat) (p : Thread C R E V α) :
    views (s.set i p) = Function.update (views s) i (some p.view) := by
  funext j
  by_cases hj : j = i
  · subst hj
    simp [views, Sys.set]
  · simp [views, Sys.set, hj]

theorem keeps_set (h : ∀ i t, s.thread i = some t → Keeps D t.prog t.view post) {i : Nat}
    {p : Thread C R E V α} (hp : Keeps D p.prog p.view post) :
    ∀ j t, (s.set i p).thread j = some t → Keeps D t.prog t.view post := by
  intro j t ht
  by_cases hj : j = i
  · subst hj
    obtain rfl : p = t := by simpa [Sys.set] using ht
    exact hp
  · exact h j t (by simpa [Sys.set, hj] using ht)

/-- What a step can do: start a thread, make a call, or make a mark. -/
theorem step_cases {l : Label Q R} (h : step sem D program fresh s l = some t) :
    (∃ i q, l = .start i q ∧ outside (s.thread i) = true ∧ t = s.set i ⟨program q, fresh⟩) ∨
    (∃ i r c k v g, l = .act i r ∧ s.thread i = some ⟨.call c k, v⟩ ∧
      sem s.shared c r = some g ∧ t = { s with shared := g }.set i ⟨k r, D.called v c r⟩) ∨
    (∃ i r e k v, l = .act i r ∧ s.thread i = some ⟨.mark e k, v⟩ ∧
      t = s.set i ⟨k, D.marked v e⟩) := by
  cases l with
  | start i q =>
    simp only [step, Option.ite_none_right_eq_some, Option.some.injEq] at h
    exact .inl ⟨i, q, rfl, h.1, h.2.symm⟩
  | act i r =>
    right
    simp only [step, Sys.act] at h
    split at h
    · rename_i c k v hi
      obtain ⟨g, hg, rfl⟩ := Option.map_eq_some_iff.mp h
      exact .inl ⟨i, r, c, k, v, g, rfl, hi, hg, rfl⟩
    · rename_i e k v hi
      obtain rfl := Option.some.inj h
      exact .inr ⟨i, r, e, k, v, rfl, hi, rfl⟩
    · cases h

/-- A thread that is outside has kept its program's promise. -/
theorem Kept.post_of_outside (h : Kept D post I s) {i : Nat} (ho : outside (s.thread i) = true)
    {v : V} (hv : views s i = some v) : ∃ a, post a v := by
  obtain ⟨⟨prog, w⟩, ht, rfl⟩ := Option.map_eq_some_iff.mp hv
  rw [ht] at ho
  cases prog with
  | ret a => exact ⟨a, h.keeps i _ ht⟩
  | crash => cases ho
  | call _ _ => cases ho
  | send _ _ => cases ho
  | mark _ _ => cases ho

theorem Kept.step (hI : Preserves sem D program fresh post G I) (h : Kept D post I s)
    {l : Label Q R} (hg : Guarded G s l) (hs : step sem D program fresh s l = some t) :
    Kept D post I t := by
  rcases step_cases hs with ⟨i, q, rfl, ho, rfl⟩ | ⟨i, r, c, k, v, g, rfl, hi, hsem, rfl⟩ |
    ⟨i, r, e, k, v, rfl, hi, rfl⟩
  · refine ⟨keeps_set h.keeps (hI.keeps q), ?_⟩
    rw [views_set]
    exact hI.start _ _ i h.holds fun v hv => h.post_of_outside ho hv
  · have hkeep := h.keeps i _ hi
    have hview : views s i = some v := by simp [views, hi]
    refine ⟨keeps_set (s := { s with shared := g }) h.keeps (hkeep.2 r), ?_⟩
    rw [views_set]
    exact hI.call _ _ i v c r g h.holds hview hkeep.1 (hg c k v hi) hsem
  · have hkeep := h.keeps i _ hi
    have hview : views s i = some v := by simp [views, hi]
    refine ⟨keeps_set h.keeps hkeep.2, ?_⟩
    rw [views_set]
    exact hI.mark _ _ i v e h.holds hview hkeep.1

/-- Nobody has run yet. -/
theorem Kept.start {g : σ} (hI : I g fun _ => none) :
    Kept D post I (⟨g, fun _ => none⟩ : Sys σ C R E V α) :=
  ⟨fun _ _ h => (by cases h), hI⟩

/-- The invariant holds wherever a guarded run leads. -/
theorem Kept.run (hI : Preserves sem D program fresh post G I) (h : Kept D post I s)
    {ls : List (Label Q R)} (hg : Throughout (Threads.step sem D program fresh) (Guarded G) s ls)
    (hr : Machine.run (Threads.step sem D program fresh) s ls = some t) : Kept D post I t :=
  invariant_run (fun _ _ _ hi hG hs => hi.step hI hG hs) h hg hr

/-- A property of the shared state that every guarded call keeps needs no digests. -/
theorem shared_run {P : σ → Prop}
    (hcall : ∀ g v c r g', P g → G g v c r → sem g c r = some g' → P g') (h : P s.shared)
    {ls : List (Label Q R)} (hg : Throughout (Threads.step sem D program fresh) (Guarded G) s ls)
    (hr : Machine.run (Threads.step sem D program fresh) s ls = some t) : P t.shared := by
  have hstep : ∀ (s : Sys σ C R E V α) l t, P s.shared → Guarded G s l →
      Threads.step sem D program fresh s l = some t → P t.shared := by
    intro s l t hP hG hs
    rcases step_cases hs with ⟨i, q, rfl, ho, rfl⟩ | ⟨i, r, c, k, v, g, rfl, hi, hsem, rfl⟩ |
      ⟨i, r, e, k, v, rfl, hi, rfl⟩
    · exact hP
    · exact hcall _ v c r g hP (hG c k v hi) hsem
    · exact hP
  exact invariant_run hstep h hg hr

/-- A guarded run whose calls give off nothing but what the run gives off. -/
theorem Guarded.recorded {ε : Type} {emit : V → C → R → List ε} {ls : List (Label Q R)}
    (hg : Throughout (Threads.step sem D program fresh) (Guarded G) s ls) :
    Throughout (Threads.step sem D program fresh)
      (Guarded fun g v c r => G g v c r ∧
        ∀ e ∈ emit v c r, e ∈ emitted (Threads.step sem D program fresh) (emits emit) s ls) s ls := by
  have hall : Throughout (Threads.step sem D program fresh)
      (fun u l => ∀ e ∈ emits emit u l,
        e ∈ emitted (Threads.step sem D program fresh) (emits emit) s ls) s ls :=
    throughout_emitted fun e he => he
  refine Throughout.combine (fun u l hG hE => ?_) hg hall
  cases l with
  | start _ _ => trivial
  | act i r =>
    intro c k v hi
    exact ⟨hG c k v hi, by simpa only [emits, hi] using hE⟩

/-- Without a condition on the calls every run is guarded. -/
theorem throughout_trivial (ls : List (Label Q R)) (s : Sys σ C R E V α) :
    Throughout (Threads.step sem D program fresh) (Guarded fun _ _ _ _ => True) s ls := by
  induction ls generalizing s with
  | nil => trivial
  | cons l ls ih =>
    refine ⟨?_, fun t _ => ih t⟩
    cases l with
    | start _ _ => trivial
    | act _ _ => exact fun _ _ _ _ => trivial

end Doorhinges.Lib.Threads

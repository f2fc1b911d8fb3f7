import Mathlib.Tactic.ByContra

/-!
# Runs of a partial machine

A machine is a partial step function on states. A step that is not defined is
either an operation the environment may not perform or one whose behaviour the
source language leaves undefined; the two readings have their own run rules.
-/
namespace Doorhinges.Lib.Machine

variable {σ ι : Type*} (step : σ → ι → Option σ)

/-- The state after the inputs, when every step on the way is defined. -/
def run (s : σ) : List ι → Option σ
  | [] => some s
  | i :: is => (step s i).bind fun t => run t is

/-- Every step is defined and the property holds at each point, ends included. -/
def Always (P : σ → Prop) : σ → List ι → Prop
  | s, [] => P s
  | s, i :: is => P s ∧ ∃ t, step s i = some t ∧ Always P t is

/-- Each step of the run is taken in a state where the guard allows its input. -/
def Throughout (G : σ → ι → Prop) : σ → List ι → Prop
  | _, [] => True
  | s, i :: is => G s i ∧ ∀ t, step s i = some t → Throughout G t is

/-- The state is reached in guarded steps. -/
def Reaches (G : σ → ι → Prop) (s t : σ) : Prop :=
  ∃ is, Throughout step G s is ∧ run step s is = some t

/-- What the steps of a run give off, in order. -/
def emitted {ε : Type*} (emit : σ → ι → List ε) : σ → List ι → List ε
  | _, [] => []
  | s, i :: is => emit s i ++ (step s i).elim [] fun t => emitted emit t is

variable {step}

instance Throughout.decide {G : σ → ι → Prop} [∀ s i, Decidable (G s i)] :
    ∀ s is, Decidable (Throughout step G s is)
  | _, [] => isTrue trivial
  | s, i :: is =>
    match h : step s i with
    | none => decidable_of_iff (G s i) (by simp [Throughout, h])
    | some t =>
      have : Decidable (Throughout step G t is) := Throughout.decide t is
      decidable_of_iff (G s i ∧ Throughout step G t is) (by simp [Throughout, h])

theorem run_append (s : σ) (is js : List ι) :
    run step s (is ++ js) = (run step s is).bind fun t => run step t js := by
  induction is generalizing s with
  | nil => rfl
  | cons i is ih =>
    simp only [List.cons_append, run]
    cases step s i with
    | none => rfl
    | some t => exact ih t

/-- Blocks of inputs that each take stage `n` to stage `n + 1`. -/
theorem run_blocks {Stage : Nat → σ → Prop} {block : Nat → List ι} (a : Nat)
    (h : ∀ n s, a ≤ n → Stage n s → ∃ t, run step s (block n) = some t ∧ Stage (n + 1) t)
    (k : Nat) {s : σ} (hs : Stage a s) :
    ∃ t, run step s ((List.range' a k).flatMap block) = some t ∧ Stage (a + k) t := by
  induction k with
  | zero => exact ⟨s, rfl, hs⟩
  | succ k ih =>
    obtain ⟨t, ht, hst⟩ := ih
    obtain ⟨u, hu, hsu⟩ := h (a + k) t (by omega) hst
    refine ⟨u, ?_, hsu⟩
    rw [List.range'_concat, List.flatMap_append, run_append, ht]
    simpa using hu

/-- Partial steps: whatever state a guarded run reaches satisfies the invariant. -/
theorem invariant_run {Inv : σ → Prop} {G : σ → ι → Prop}
    (hstep : ∀ s i t, Inv s → G s i → step s i = some t → Inv t) :
    ∀ {is : List ι} {s t : σ}, Inv s → Throughout step G s is → run step s is = some t → Inv t := by
  intro is
  induction is with
  | nil =>
    intro s t hi _ hr
    obtain rfl := Option.some.inj hr
    exact hi
  | cons i is ih =>
    intro s t hi hg hr
    obtain ⟨u, hu, hr⟩ := Option.bind_eq_some_iff.mp hr
    exact ih (hstep s i u hi hg.1 hu) (hg.2 u hu) hr

/-- An invariant of every step needs no guard. -/
theorem run_invariant {Inv : σ → Prop} (hstep : ∀ s i t, Inv s → step s i = some t → Inv t) :
    ∀ {is : List ι} {s t : σ}, Inv s → run step s is = some t → Inv t := by
  intro is
  induction is with
  | nil =>
    intro s t hi hr
    obtain rfl := Option.some.inj hr
    exact hi
  | cons i is ih =>
    intro s t hi hr
    obtain ⟨u, hu, hr⟩ := Option.bind_eq_some_iff.mp hr
    exact ih (hstep s i u hi hu) hr

/-- Two guards of one run, taken together. -/
theorem Throughout.combine {G H K : σ → ι → Prop} (hK : ∀ s i, G s i → H s i → K s i) :
    ∀ {is : List ι} {s : σ}, Throughout step G s is → Throughout step H s is →
      Throughout step K s is := by
  intro is
  induction is with
  | nil => intro _ _ _; trivial
  | cons i is ih =>
    intro s hg hh
    exact ⟨hK s i hg.1 hh.1, fun t ht => ih (hg.2 t ht) (hh.2 t ht)⟩

/-- A guard that keeps an invariant, together with it, gives another guard. -/
theorem Throughout.of_invariant {Inv : σ → Prop} {G H : σ → ι → Prop}
    (hstep : ∀ s i t, Inv s → G s i → step s i = some t → Inv t)
    (hH : ∀ s i, Inv s → G s i → H s i) :
    ∀ {is : List ι} {s : σ}, Inv s → Throughout step G s is → Throughout step H s is := by
  intro is
  induction is with
  | nil => intro _ _ _; trivial
  | cons i is ih =>
    intro s hi hg
    exact ⟨hH s i hi hg.1, fun t ht => ih (hstep s i t hi hg.1 ht) (hg.2 t ht)⟩

theorem Throughout.cons {G : σ → ι → Prop} {s t : σ} {i : ι} {is : List ι} (hg : G s i)
    (ht : step s i = some t) (h : Throughout step G t is) : Throughout step G s (i :: is) :=
  ⟨hg, fun _ hu => Option.some.inj (ht.symm.trans hu) ▸ h⟩

theorem Reaches.refl {G : σ → ι → Prop} (s : σ) : Reaches step G s s := ⟨[], trivial, rfl⟩

theorem Reaches.head {G : σ → ι → Prop} {s t u : σ} {i : ι} (hg : G s i) (ht : step s i = some t)
    (h : Reaches step G t u) : Reaches step G s u := by
  obtain ⟨is, hthrough, hrun⟩ := h
  refine ⟨i :: is, Throughout.cons hg ht hthrough, ?_⟩
  rw [run, ht]
  exact hrun

theorem Reaches.trans {G : σ → ι → Prop} {s t u : σ} (h : Reaches step G s t)
    (h' : Reaches step G t u) : Reaches step G s u := by
  obtain ⟨is, hthrough, hrun⟩ := h
  induction is generalizing s with
  | nil =>
    obtain rfl := Option.some.inj hrun
    exact h'
  | cons i is ih =>
    obtain ⟨v, hv, hrun⟩ := Option.bind_eq_some_iff.mp hrun
    exact .head hthrough.1 hv (ih (hthrough.2 v hv) hrun)

theorem Reaches.invariant {Inv : σ → Prop} {G : σ → ι → Prop}
    (hstep : ∀ s i t, Inv s → G s i → step s i = some t → Inv t) {s t : σ} (hs : Inv s)
    (h : Reaches step G s t) : Inv t := by
  obtain ⟨is, hthrough, hrun⟩ := h
  exact invariant_run hstep hs hthrough hrun

/-- A guard on the inputs alone, where every input has its step. -/
theorem throughout_const {A G : ι → Prop} (hstep : ∀ s i, A i → ∃ t, step s i = some t) :
    ∀ {is : List ι} {s : σ}, (∀ i ∈ is, A i) →
      (Throughout step (fun _ i => G i) s is ↔ ∀ i ∈ is, G i) := by
  intro is
  induction is with
  | nil => exact fun _ => iff_of_true trivial (by simp)
  | cons i is ih =>
    intro s hA
    obtain ⟨hi, his⟩ := List.forall_mem_cons.1 hA
    obtain ⟨t, ht⟩ := hstep s i hi
    rw [List.forall_mem_cons, ← ih (s := t) his]
    refine and_congr_right fun _ => ⟨fun h => h t ht, fun h u hu => ?_⟩
    exact Option.some.inj (ht.symm.trans hu) ▸ h

/-- What a step gives off is among what the run gives off. -/
theorem throughout_emitted {ε : Type*} {emit : σ → ι → List ε} {E : ε → Prop} :
    ∀ {is : List ι} {s : σ}, (∀ e ∈ emitted step emit s is, E e) →
      Throughout step (fun s i => ∀ e ∈ emit s i, E e) s is := by
  intro is
  induction is with
  | nil => intro _ _; trivial
  | cons i is ih =>
    intro s h
    refine ⟨fun e he => h e (List.mem_append_left _ he), fun t ht => ih fun e he => h e ?_⟩
    rw [emitted, ht]
    exact List.mem_append_right _ he

/-- Total steps: a guarded run is defined throughout and keeps the property. -/
theorem always_of_throughout {Inv P : σ → Prop} {G : σ → ι → Prop}
    (hP : ∀ s, Inv s → P s)
    (hstep : ∀ s i, Inv s → G s i → ∃ t, step s i = some t ∧ Inv t) :
    ∀ {is : List ι} {s : σ}, Inv s → Throughout step G s is → Always step P s is := by
  intro is
  induction is with
  | nil => intro s hi _; exact hP s hi
  | cons i is ih =>
    intro s hi hg
    obtain ⟨t, ht, hit⟩ := hstep s i hi hg.1
    exact ⟨hP s hi, t, ht, ih hit (hg.2 t ht)⟩

theorem Always.here {P : σ → Prop} {s : σ} {is : List ι} (h : Always step P s is) : P s := by
  cases is with
  | nil => exact h
  | cons i is => exact h.1

/-- The property holds where the run ends. -/
theorem Always.at_end {P : σ → Prop} : ∀ {is : List ι} {s : σ}, Always step P s is →
    ∃ t, run step s is = some t ∧ P t := by
  intro is
  induction is with
  | nil => intro s h; exact ⟨s, rfl, h⟩
  | cons i is ih =>
    rintro s ⟨_, t, ht, h⟩
    obtain ⟨u, hu, hp⟩ := ih h
    exact ⟨u, by simp [run, ht, hu], hp⟩

/-- When an unguarded step breaks the property at once, the guard is exact for the runs
whose inputs are all allowed. -/
theorem always_iff_throughout_within {Inv P : σ → Prop} {A G : σ → ι → Prop}
    (hP : ∀ s, Inv s → P s)
    (hstep : ∀ s i, Inv s → A s i → G s i → ∃ t, step s i = some t ∧ Inv t)
    (hbad : ∀ s i, Inv s → A s i → ¬ G s i → ∀ t, step s i = some t → ¬ P t) :
    ∀ {is : List ι} {s : σ}, Inv s → Throughout step A s is →
      (Always step P s is ↔ Throughout step G s is) := by
  intro is
  induction is with
  | nil => intro s hi _; exact ⟨fun _ => trivial, fun _ => hP s hi⟩
  | cons i is ih =>
    intro s hi hA
    refine ⟨fun ⟨_, t, ht, ha⟩ => ?_, fun hg => ?_⟩
    · have hg : G s i := by
        by_contra hg
        exact hbad s i hi hA.1 hg t ht ha.here
      obtain ⟨u, hu, hiu⟩ := hstep s i hi hA.1 hg
      obtain rfl : t = u := Option.some.inj (ht.symm.trans hu)
      refine ⟨hg, fun v hv => ?_⟩
      obtain rfl : t = v := Option.some.inj (ht.symm.trans hv)
      exact (ih hiu (hA.2 t ht)).mp ha
    · obtain ⟨t, ht, hit⟩ := hstep s i hi hA.1 hg.1
      exact ⟨hP s hi, t, ht, (ih hit (hA.2 t ht)).mpr (hg.2 t ht)⟩

theorem throughout_true : ∀ (is : List ι) (s : σ), Throughout step (fun _ _ => True) s is
  | [], _ => trivial
  | _ :: is, _ => ⟨trivial, fun t _ => throughout_true is t⟩

/-- A guard that every input of the run meets. -/
theorem throughout_of_forall {G : ι → Prop} :
    ∀ {is : List ι} {s : σ}, (∀ i ∈ is, G i) → Throughout step (fun _ i => G i) s is := by
  intro is
  induction is with
  | nil => intro _ _; trivial
  | cons i is ih =>
    intro s h
    exact ⟨h i List.mem_cons_self, fun t _ => ih fun j hj => h j (List.mem_cons_of_mem i hj)⟩

/-- The same where every input is allowed. -/
theorem always_iff_throughout {Inv P : σ → Prop} {G : σ → ι → Prop}
    (hP : ∀ s, Inv s → P s)
    (hstep : ∀ s i, Inv s → G s i → ∃ t, step s i = some t ∧ Inv t)
    (hbad : ∀ s i, Inv s → ¬ G s i → ∀ t, step s i = some t → ¬ P t)
    {is : List ι} {s : σ} (hs : Inv s) : Always step P s is ↔ Throughout step G s is :=
  always_iff_throughout_within hP (fun s i hi _ => hstep s i hi) (fun s i hi _ => hbad s i hi) hs
    (throughout_true is s)

end Doorhinges.Lib.Machine

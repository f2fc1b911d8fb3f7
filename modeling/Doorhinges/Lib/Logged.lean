import Mathlib.Logic.Basic

/-!
# Runs that leave a log

A run writes entries to a log and ends with a value, or it stops before it has one.
What holds of every entry is found along the run.
-/
namespace Doorhinges.Lib

universe u

structure Logged (W α : Type u) where
  log : List W
  value : Option α

namespace Logged

variable {W α β : Type u}

instance : Monad (Logged W) where
  pure a := ⟨[], some a⟩
  bind m f :=
    match m.value with
    | none => ⟨m.log, none⟩
    | some a => ⟨m.log ++ (f a).log, (f a).value⟩

def tell (w : W) : Logged W PUnit := ⟨[w], some ⟨⟩⟩

/-- A run that goes on only where there is a value. -/
def ofOption (o : Option α) : Logged W α := ⟨[], o⟩

def stop : Logged W α := ofOption none

/-- Every entry has the property. -/
def Always (P : W → Prop) (m : Logged W α) : Prop := ∀ w ∈ m.log, P w

variable {P : W → Prop} {m : Logged W α} {f : α → Logged W β}

@[simp] theorem value_pure (a : α) : (pure a : Logged W α).value = some a := rfl

@[simp] theorem value_tell (w : W) : (tell w).value = some ⟨⟩ := rfl

@[simp] theorem value_ofOption (o : Option α) : (ofOption o : Logged W α).value = o := rfl

@[simp] theorem value_stop : (stop : Logged W α).value = none := rfl

@[simp] theorem value_bind : (m >>= f).value = m.value.bind fun a => (f a).value := by
  change (match m.value with
    | none => (⟨m.log, none⟩ : Logged W β)
    | some a => ⟨m.log ++ (f a).log, (f a).value⟩).value = _
  cases m.value <;> rfl

@[simp] theorem always_pure (a : α) : (pure a : Logged W α).Always P := fun _ h => nomatch h

@[simp] theorem always_tell (w : W) : (tell w).Always P ↔ P w := List.forall_mem_singleton

@[simp] theorem always_ofOption (o : Option α) : (ofOption o : Logged W α).Always P :=
  fun _ h => nomatch h

@[simp] theorem always_stop : (stop : Logged W α).Always P := always_ofOption none

/-- The entries of a run are those of its first part, and of the rest where there is one. -/
@[simp] theorem always_bind :
    (m >>= f).Always P ↔ m.Always P ∧ ∀ a, m.value = some a → (f a).Always P := by
  change (∀ w ∈ (match m.value with
    | none => (⟨m.log, none⟩ : Logged W β)
    | some a => ⟨m.log ++ (f a).log, (f a).value⟩).log, P w) ↔ _
  cases m.value with
  | none => simp [Always]
  | some a => simp [Always, or_imp, forall_and]

/-- The run ends with this value, and every entry on its way has the property. -/
def Ends (m : Logged W α) (P : W → Prop) (a : α) : Prop := m.value = some a ∧ m.Always P

theorem Ends.pure (a : α) : (pure a : Logged W α).Ends P a := ⟨rfl, always_pure a⟩

theorem Ends.tell {w : W} (h : P w) : (tell w).Ends P ⟨⟩ := ⟨rfl, (always_tell w).2 h⟩

theorem Ends.ofOption {o : Option α} {a : α} (h : o = some a) : (ofOption o : Logged W α).Ends P a :=
  ⟨h, always_ofOption o⟩

theorem Ends.bind {a : α} {b : β} (hm : m.Ends P a) (hf : (f a).Ends P b) : (m >>= f).Ends P b := by
  obtain ⟨hvalue, hlog⟩ := hm
  refine ⟨by rw [value_bind, hvalue, Option.bind_some, hf.1], always_bind.2 ⟨hlog, ?_⟩⟩
  intro a' ha'
  obtain rfl := Option.some.inj (hvalue.symm.trans ha')
  exact hf.2

end Logged

end Doorhinges.Lib

import Mathlib.Logic.Basic

/-!
# Computations that may be undefined

What a computation yields satisfies a property wherever it is defined, and it is defined
wherever its inputs are proper. Both are carried through a computation at once.
-/
namespace Doorhinges.Lib.Partial

universe u

variable {α β : Type u} {N : Prop} {x : Option α} {Q R : α → Prop} {S : β → Prop}

structure Yields (N : Prop) (x : Option α) (Q : α → Prop) : Prop where
  defined : N → x.isSome
  result : ∀ a, x = some a → Q a

theorem yields_some {a : α} (h : Q a) : Yields N (some a) Q :=
  ⟨fun _ => rfl, fun _ hb => Option.some.inj hb ▸ h⟩

/-- An improper input. -/
theorem yields_none (h : ¬ N) : Yields N (none : Option α) Q :=
  ⟨fun hN => absurd hN h, fun _ hb => nomatch hb⟩

theorem yields_of_eq {a : α} (hx : x = some a) (h : Q a) : Yields N x Q :=
  hx ▸ yields_some h

/-- The inputs are proper for a further reason. -/
theorem Yields.weaken {N' : Prop} (h : Yields N' x Q) (hN : N → N') : Yields N x Q :=
  ⟨fun hn => h.defined (hN hn), h.result⟩

theorem Yields.imp (h : Yields N x Q) (hQ : ∀ a, Q a → R a) : Yields N x R :=
  ⟨h.defined, fun a ha => hQ a (h.result a ha)⟩

theorem Yields.bind {f : α → Option β} (h : Yields N x Q) (hf : ∀ a, Q a → Yields N (f a) S) :
    Yields N (x >>= f) S := by
  rw [Option.bind_eq_bind]
  constructor
  · intro hN
    obtain ⟨a, ha⟩ := Option.isSome_iff_exists.1 (h.defined hN)
    rw [ha, Option.bind_some]
    exact (hf a (h.result a ha)).defined hN
  · intro b hb
    obtain ⟨a, ha, hfa⟩ := Option.bind_eq_some_iff.1 hb
    exact (hf a (h.result a ha)).result b hfa

theorem Yields.map {f : α → β} (h : Yields N x Q) (hf : ∀ a, Q a → S (f a)) :
    Yields N (x.map f) S := by
  constructor
  · intro hN
    rw [Option.isSome_map]
    exact h.defined hN
  · intro b hb
    obtain ⟨a, ha, hfa⟩ := Option.map_eq_some_iff.1 hb
    exact hfa ▸ hf a (h.result a ha)

end Doorhinges.Lib.Partial

/-!
# Traces of events

A trace only grows at its end, so what precedes an event is settled when the
event happens.
-/
namespace Doorhinges.Lib.Trace

universe u

variable {ε : Type u} {a b e : ε} {log : List ε}

/-- Every `b` of the trace has an `a` before it. -/
def Precedes (a b : ε) (log : List ε) : Prop := ∀ pre post, log = pre ++ b :: post → a ∈ pre

theorem Precedes.nil : Precedes a b [] := by
  intro pre post h
  simp at h

theorem Precedes.snoc (h : Precedes a b log) (he : e = b → a ∈ log) : Precedes a b (log ++ [e]) := by
  intro pre post hlog
  rcases List.eq_nil_or_concat post with rfl | ⟨post, last, rfl⟩
  · -- the new event is the `b`
    obtain ⟨rfl, hlast⟩ := List.append_inj' hlog rfl
    exact he (List.cons.inj hlast).1
  · rw [List.concat_eq_append, ← List.cons_append, ← List.append_assoc] at hlog
    obtain ⟨rfl, -⟩ := List.append_inj' hlog rfl
    exact h pre post rfl

end Doorhinges.Lib.Trace

import Doorhinges.Lib.Threads

/-!
# Disciplines under an assumption on the replies

`KeepsIf` is the weakest precondition for keeping a discipline as long as the replies are what
they are assumed to be. In a run that meets the assumption every thread still keeps what its
program has promised.
-/
namespace Doorhinges.Lib.Assumed

open Lib.Program
open Lib.Machine
open Lib.Threads

variable {σ Q C R E V α β : Type}

section Keeps

variable (D : Discipline C R E V) (A : V → C → R → Prop)

/-- Whatever the replies, as long as they are as assumed, the program keeps the discipline and
ends in `post`. -/
def KeepsIf : Prog C R E α → V → (α → V → Prop) → Prop
  | .ret a, v, post => post a v
  | .crash, _, _ => True
  | .call c k, v, post =>
    D.mayCall v c ∧ ∀ r, A v c r → KeepsIf (k r) (D.called v c r) post
  | .send c k, v, post => D.maySend v c ∧ KeepsIf k (D.sent v c) post
  | .mark e k, v, post => D.mayMark v e ∧ KeepsIf k (D.marked v e) post

variable {D A} {v : V}

theorem keepsIf_mono {p : Prog C R E α} {post post' : α → V → Prop} (h : KeepsIf D A p v post)
    (hpost : ∀ a u, post a u → post' a u) : KeepsIf D A p v post' := by
  induction p generalizing v with
  | ret a => exact hpost a v h
  | crash => trivial
  | call c k ih => exact ⟨h.1, fun r hr => ih r (h.2 r hr)⟩
  | send c k ih => exact ⟨h.1, ih h.2⟩
  | mark e k ih => exact ⟨h.1, ih h.2⟩

theorem keepsIf_bind {p : Prog C R E α} {f : α → Prog C R E β} {post : β → V → Prop} :
    KeepsIf D A (p >>= f) v post ↔ KeepsIf D A p v fun a u => KeepsIf D A (f a) u post := by
  show KeepsIf D A (p.bind f) v post ↔ _
  induction p generalizing v with
  | ret a => rfl
  | crash => rfl
  | call c k ih => exact and_congr_right fun _ => forall_congr' fun r => imp_congr_right fun _ => ih r
  | send c k ih => exact and_congr_right fun _ => ih
  | mark e k ih => exact and_congr_right fun _ => ih

theorem keepsIf_pure {a : α} {post : α → V → Prop} (h : post a v) :
    KeepsIf D A (pure a : Prog C R E α) v post := h

theorem keepsIf_seq {p : Prog C R E α} {f : α → Prog C R E β} {mid : α → V → Prop}
    {post : β → V → Prop} (hp : KeepsIf D A p v mid)
    (hf : ∀ a u, mid a u → KeepsIf D A (f a) u post) : KeepsIf D A (p >>= f) v post :=
  keepsIf_bind.2 (keepsIf_mono hp hf)

theorem keepsIf_ite {b : Prop} [Decidable b] {p q : Prog C R E α} {post : α → V → Prop}
    (hp : b → KeepsIf D A p v post) (hq : ¬b → KeepsIf D A q v post) :
    KeepsIf D A (if b then p else q) v post := by
  split
  · exact hp ‹_›
  · exact hq ‹_›

end Keeps

section Runs

variable {D : Discipline C R E V} {A : V → C → R → Prop} {sem : σ → C → R → Option σ}
  {program : Q → Prog C R E α} {fresh : V} {post : α → V → Prop} {s t : Sys σ C R E V α}

/-- Every thread keeps the discipline in what is left of its program. -/
def Keeping (D : Discipline C R E V) (A : V → C → R → Prop) (post : α → V → Prop)
    (s : Sys σ C R E V α) : Prop :=
  ∀ i t, s.thread i = some t → KeepsIf D A t.prog t.view post

theorem Keeping.set (h : Keeping D A post s) {i : Nat} {p : Thread C R E V α}
    (hp : KeepsIf D A p.prog p.view post) : Keeping D A post (s.set i p) := by
  intro j t ht
  by_cases hj : j = i
  · subst hj
    obtain rfl : p = t := by simpa [Sys.set] using ht
    exact hp
  · exact h j t (by simpa [Sys.set, hj] using ht)

theorem Keeping.step (hprogram : ∀ q, KeepsIf D A (program q) fresh post)
    (h : Keeping D A post s) {l : Label Q R} (hA : Guarded (fun _ => A) s l)
    (hs : step sem D program fresh s l = some t) : Keeping D A post t := by
  rcases step_cases hs with ⟨i, q, rfl, ho, rfl⟩ | ⟨i, r, c, k, v, g, rfl, hi, hsem, rfl⟩ |
    ⟨i, r, e, k, v, rfl, hi, rfl⟩
  · exact h.set (hprogram q)
  · exact Keeping.set (s := { s with shared := g }) h ((h i _ hi).2 r (hA c k v hi))
  · exact h.set (h i _ hi).2

theorem Keeping.run (hprogram : ∀ q, KeepsIf D A (program q) fresh post) {g : σ}
    {ls : List (Label Q R)}
    (hA : Throughout (Threads.step sem D program fresh) (Guarded fun _ => A) ⟨g, fun _ => none⟩ ls)
    (hr : Machine.run (Threads.step sem D program fresh) ⟨g, fun _ => none⟩ ls = some s) :
    Keeping D A post s :=
  invariant_run (fun _ _ _ hi hG hs => hi.step hprogram hG hs) (fun _ _ h => (by cases h)) hA hr

end Runs

end Doorhinges.Lib.Assumed

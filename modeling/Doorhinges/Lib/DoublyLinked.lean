import Doorhinges.Lib.Links
import Mathlib.Logic.Function.Basic

/-!
# Doubly linked lists

A list is a path of the forward links and, reversed, a path of the backward ones.
Pushing a node in front and unlinking one are given as updates of the two link
functions.
-/
namespace Doorhinges.Lib.DoublyLinked

open Lib.Links

variable {P : Type*} {next prev next' prev' : P → Option P}

structure Dll (next prev : P → Option P) (l : List P) : Prop where
  nodup : l.Nodup
  fwd : Path next l none
  bwd : Path prev l.reverse none

theorem dll_nil (next prev : P → Option P) : Dll next prev [] :=
  ⟨List.nodup_nil, path_nil .., path_nil ..⟩

/-- Only the links of the listed nodes matter. -/
theorem Dll.congr {l : List P} (h : Dll next prev l) (hn : ∀ p ∈ l, next' p = next p)
    (hp : ∀ p ∈ l, prev' p = prev p) : Dll next' prev' l :=
  ⟨h.nodup, h.fwd.congr hn, h.bwd.congr fun p hm => hp p (List.mem_reverse.1 hm)⟩

/-- The neighbours of a node. -/
theorem Dll.neighbours {a c : List P} {b : P} (h : Dll next prev (a ++ b :: c)) :
    next b = c.head? ∧ prev b = a.getLast? := by
  have hf := ((path_append ..).1 h.fwd).2.1
  have hb := h.bwd
  rw [List.reverse_append, List.reverse_cons, List.append_assoc] at hb
  have hb := ((path_append ..).1 hb).2.1
  exact ⟨by simpa using hf, by simpa using hb⟩

theorem Dll.next_mem {l : List P} {b n : P} (h : Dll next prev l) (hb : b ∈ l)
    (hn : next b = some n) : n ∈ l := by
  obtain ⟨a, c, rfl⟩ := List.append_of_mem hb
  rw [h.neighbours.1] at hn
  exact List.mem_append_right _ (List.mem_cons_of_mem _ (List.mem_of_head? hn))

theorem Dll.prev_mem {l : List P} {b p : P} (h : Dll next prev l) (hb : b ∈ l)
    (hp : prev b = some p) : p ∈ l := by
  obtain ⟨a, c, rfl⟩ := List.append_of_mem hb
  rw [h.neighbours.2] at hp
  exact List.mem_append_left _ (List.mem_of_getLast? hp)

section Update

variable [DecidableEq P]

/-- The link of a node is set, if there is the node. -/
def setLink (f : P → Option P) (at? v : Option P) : P → Option P :=
  match at? with
  | none => f
  | some p => Function.update f p v

theorem setLink_of_ne {f : P → Option P} {at? v : Option P} {x : P} (h : at? ≠ some x) :
    setLink f at? v x = f x := by
  cases at? with
  | none => rfl
  | some p => exact Function.update_of_ne (fun hx => h (congrArg some hx.symm)) ..

theorem setLink_self (f : P → Option P) (p : P) (v : Option P) :
    setLink f (some p) v p = v :=
  Function.update_self ..

/-- A new node comes in front. -/
theorem Dll.push {l : List P} {b : P} (h : Dll next prev l) (hb : b ∉ l) :
    Dll (Function.update next b l.head?)
      (setLink (Function.update prev b none) l.head? (some b)) (b :: l) := by
  have hne : ∀ p ∈ l, p ≠ b := fun p hp hpb => hb (hpb ▸ hp)
  refine ⟨List.nodup_cons.2 ⟨hb, h.nodup⟩, ⟨?_, ?_⟩, ?_⟩
  · rw [Function.update_self, Option.or_none]
  · exact h.fwd.congr fun p hp => Function.update_of_ne (hne p hp) ..
  · rw [List.reverse_cons, path_append]
    cases l with
    | nil => simp [setLink]
    | cons f l =>
      have hbf : b ≠ f := fun hbf => hb (hbf ▸ List.mem_cons_self)
      have hbwd := h.bwd
      rw [List.reverse_cons, path_append] at hbwd
      rw [List.reverse_cons, path_append]
      refine ⟨⟨hbwd.1.congr fun p hp => ?_, ?_, path_nil ..⟩, ?_, path_nil ..⟩
      · have hp : p ∈ l := List.mem_reverse.1 hp
        have hpf : f ≠ p := fun hpf => (List.nodup_cons.1 h.nodup).1 (hpf ▸ hp)
        rw [List.head?_cons, setLink_of_ne (by simpa using hpf)]
        exact Function.update_of_ne (hne p (List.mem_cons_of_mem _ hp)) ..
      · rw [List.head?_cons, setLink_self]
        rfl
      · rw [List.head?_cons, setLink_of_ne (by simpa using Ne.symm hbf), Function.update_self]
        rfl

/-- A path without one of its nodes, whose predecessor is given its successor. -/
theorem path_unlink {a c : List P} {b : P} (hnd : (a ++ b :: c).Nodup)
    (h : Path next (a ++ b :: c) none) :
    Path (setLink next a.getLast? (next b)) (a ++ c) none := by
  obtain ⟨ha, hb, hc⟩ := (path_append ..).1 h
  rcases List.eq_nil_or_concat a with rfl | ⟨a, p, rfl⟩
  · exact hc
  · rw [List.concat_eq_append, List.getLast?_concat, List.append_assoc]
    rw [List.concat_eq_append] at ha hnd
    obtain ⟨hnd1, -, hdisj⟩ := List.nodup_append.1 hnd
    obtain ⟨-, -, hp⟩ := List.nodup_append.1 hnd1
    rw [path_append] at ha ⊢
    refine ⟨?_, ?_, ?_⟩
    · have hx : ∀ x ∈ a, p ≠ x := fun x hx h => hp x hx p (List.mem_singleton.2 rfl) h.symm
      exact ha.1.congr fun x hx' => setLink_of_ne (by simpa using hx x hx')
    · rw [setLink_self]
      exact hb
    · have hx : ∀ x ∈ c, p ≠ x := fun x hx =>
        hdisj p (by simp) x (List.mem_cons_of_mem _ hx)
      exact hc.congr fun x hx' => setLink_of_ne (by simpa using hx x hx')

/-- A node is unlinked. -/
theorem Dll.unlink {l : List P} {b : P} (h : Dll next prev l) (hb : b ∈ l) :
    Dll (setLink next (prev b) (next b)) (setLink prev (next b) (prev b)) (l.erase b) := by
  obtain ⟨a, c, rfl⟩ := List.append_of_mem hb
  have hba : b ∉ a := fun hba =>
    (List.nodup_append.1 h.nodup).2.2 b hba b List.mem_cons_self rfl
  obtain ⟨hnext, hprev⟩ := h.neighbours
  rw [List.erase_append_right _ hba, List.erase_cons_head]
  refine ⟨h.nodup.sublist (by simp), ?_, ?_⟩
  · rw [hprev]
    exact path_unlink h.nodup h.fwd
  · rw [hnext, List.reverse_append, ← List.getLast?_reverse]
    have hbwd := h.bwd
    have hnd := List.nodup_reverse.2 h.nodup
    rw [List.reverse_append, List.reverse_cons, List.append_assoc] at hbwd hnd
    exact path_unlink hnd hbwd

theorem head?_erase {l : List P} {b : P} (h : Dll next prev l) (hb : b ∈ l) :
    (l.erase b).head? = if prev b = none then next b else l.head? := by
  obtain ⟨a, c, rfl⟩ := List.append_of_mem hb
  have hba : b ∉ a := fun hba =>
    (List.nodup_append.1 h.nodup).2.2 b hba b List.mem_cons_self rfl
  rw [List.erase_append_right _ hba, List.erase_cons_head, h.neighbours.1, h.neighbours.2]
  cases a with
  | nil => simp
  | cons x a => simp

end Update

end Doorhinges.Lib.DoublyLinked

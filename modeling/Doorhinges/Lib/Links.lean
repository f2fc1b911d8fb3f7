import Mathlib.Data.List.Rotate
import Mathlib.Data.List.Nodup

/-!
# Linked sequences and rings

`Path nxt l e` says that the successor function visits the nodes of `l` in order
and then leaves to `e`. With `e = none` it is a null-terminated list, with
`e = l.head?` a ring.
-/
namespace Doorhinges.Lib.Links

variable {P : Type*} {nxt nxt' : P → Option P}

def Path (nxt : P → Option P) : List P → Option P → Prop
  | [], _ => True
  | a :: l, e => nxt a = l.head?.or e ∧ Path nxt l e

@[simp] theorem path_nil (nxt : P → Option P) (e : Option P) : Path nxt [] e := trivial

@[simp] theorem path_cons (nxt : P → Option P) (a : P) (l : List P) (e : Option P) :
    Path nxt (a :: l) e ↔ nxt a = l.head?.or e ∧ Path nxt l e := Iff.rfl

theorem path_append (nxt : P → Option P) (l m : List P) (e : Option P) :
    Path nxt (l ++ m) e ↔ Path nxt l (m.head?.or e) ∧ Path nxt m e := by
  induction l with
  | nil => simp
  | cons a l ih =>
    simp only [List.cons_append, path_cons, ih, List.head?_append, Option.or_assoc, and_assoc]

/-- Only the successors of the listed nodes matter. -/
theorem Path.congr {l : List P} {e : Option P} (h : Path nxt l e)
    (he : ∀ p ∈ l, nxt' p = nxt p) : Path nxt' l e := by
  induction l with
  | nil => trivial
  | cons a l ih =>
    exact ⟨(he a (by simp)).trans h.1, ih h.2 fun p hp => he p (by simp [hp])⟩

theorem path_range (f : Nat → P) {n : Nat} {e : Option P}
    (hnext : ∀ i, i + 1 < n → nxt (f i) = some (f (i + 1)))
    (hlast : ∀ i, i + 1 = n → nxt (f i) = e) : Path nxt ((List.range n).map f) e := by
  induction n generalizing e with
  | zero => trivial
  | succ n ih =>
    rw [List.range_succ, List.map_append, path_append]
    refine ⟨ih (fun i hi => hnext i (by omega)) fun i hi => ?_, ?_⟩
    · rw [hnext i (by omega), hi]
      rfl
    · exact ⟨hlast n rfl, trivial⟩

/-- Following the successors from the first node returns to it, each node once. -/
structure Ring (nxt : P → Option P) (r : List P) : Prop where
  nodup : r.Nodup
  path : Path nxt r r.head?

namespace Ring

theorem swap {l m : List P} (h : Ring nxt (l ++ m)) : Ring nxt (m ++ l) := by
  refine ⟨List.nodup_append_comm.mp h.nodup, ?_⟩
  have hp := (path_append ..).mp h.path
  rw [path_append]
  cases l with
  | nil => simpa using h.path
  | cons a l =>
    cases m with
    | nil => simpa using h.path
    | cons b m => simpa using hp.symm

theorem rotated {r s : List P} (h : Ring nxt r) (hr : r ~r s) : Ring nxt s := by
  obtain ⟨n, rfl⟩ := hr
  rw [List.rotate_eq_drop_append_take_mod]
  apply swap
  rw [List.take_append_drop]
  exact h

theorem congr {r : List P} (h : Ring nxt r) (he : ∀ p ∈ r, nxt' p = nxt p) : Ring nxt' r :=
  ⟨h.nodup, h.path.congr he⟩

/-- A node is followed by its successor in the ring. -/
theorem next_cons {a : P} {l : List P} (h : Ring nxt (a :: l)) : nxt a = l.head?.or (some a) :=
  h.path.1

theorem next_some {r : List P} (h : Ring nxt r) {p : P} (hp : p ∈ r) : ∃ q, nxt p = some q := by
  obtain ⟨l, m, rfl⟩ := List.append_of_mem hp
  have hn := (h.swap).next_cons
  rw [hn]
  cases (m ++ l).head? <;> simp

/-- The last of a run of nodes after `a` leads to the node after the run. -/
theorem next_getLast {a : P} {l ms : List P} (h : Ring nxt (a :: (ms ++ l))) (hne : ms ≠ []) :
    nxt (ms.getLast hne) = l.head?.or (some a) := by
  have hp := ((path_append ..).mp h.path.2).1
  rw [← List.dropLast_append_getLast hne, path_append] at hp
  simpa using hp.2.1

/-- Splice a run of new nodes in after `a`. -/
theorem splice {a : P} {l ms : List P} (h : Ring nxt (a :: l)) (hne : ms ≠ [])
    (hnd : (a :: (ms ++ l)).Nodup) (ha : nxt' a = ms.head?) (hms : Path nxt' ms (nxt a))
    (hl : ∀ p ∈ l, nxt' p = nxt p) : Ring nxt' (a :: (ms ++ l)) := by
  refine ⟨hnd, ?_, ?_⟩
  · obtain ⟨m, ms, rfl⟩ := List.exists_cons_of_ne_nil hne
    simpa using ha
  · rw [path_append]
    refine ⟨?_, h.path.2.congr hl⟩
    rw [h.next_cons] at hms
    simpa using hms

/-- Unlink a run of nodes after `a` by giving `a` the successor of the run. -/
theorem unlink {a : P} {l ms : List P} (h : Ring nxt (a :: (ms ++ l))) (hne : ms ≠ [])
    (ha : nxt' a = nxt (ms.getLast hne)) (hl : ∀ p ∈ l, nxt' p = nxt p) :
    Ring nxt' (a :: l) := by
  have hp := (path_append ..).mp h.path.2
  refine ⟨h.nodup.sublist (by simp), ?_, hp.2.congr hl⟩
  rw [ha, h.next_getLast hne]
  simp

end Ring

theorem rotated_append (l m : List P) : l ++ m ~r m ++ l :=
  List.isRotated_append

/-- Two lists without repetition that start alike and are rotations are equal. -/
theorem eq_of_rotated_cons {a : P} {l m : List P} (hnd : (a :: l).Nodup)
    (h : (a :: l) ~r (a :: m)) : l = m := by
  obtain ⟨n, hn⟩ := h
  have hlen : (a :: l).length = (a :: m).length := by rw [← hn, List.length_rotate]
  have h0 : (a :: l).rotate n = (a :: l).rotate 0 := by
    have hlt : n % (a :: l).length < (a :: l).length := Nat.mod_lt _ (by simp)
    have hh := congrArg List.head? hn
    rw [← List.rotate_mod, List.head?_rotate hlt] at hh
    have hz : n % (a :: l).length = 0 := by
      have hx : (a :: l)[n % (a :: l).length]? = (a :: l)[0]? := by simpa using hh
      exact (List.getElem?_inj hlt hnd).mp hx
    rw [← List.rotate_mod, hz]
  rw [h0, List.rotate_zero] at hn
  exact (List.cons.inj hn).2

/-- A run that ends before the second part of an append lies in the first part. -/
theorem append_split {xs ys l m : List P} (h : xs ++ ys = l ++ m) (hne : l ≠ [])
    (hlast : l.getLast hne ∉ ys) : ∃ post, xs = l ++ post ∧ m = post ++ ys := by
  obtain ⟨a, rfl, rfl⟩ | ⟨post, rfl, rfl⟩ := List.append_eq_append_iff.mp h
  · rcases List.eq_nil_or_concat a with rfl | ⟨b, x, rfl⟩
    · exact ⟨[], by simp, by simp⟩
    · simp at hlast
  · exact ⟨post, rfl, rfl⟩

end Doorhinges.Lib.Links

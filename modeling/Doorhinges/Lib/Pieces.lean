import Mathlib.Data.List.TakeWhile

/-!
# Terminated pieces

The pieces of a list that end with a separator; what follows the last separator is not
among them. Texts joined with separators are found again from the positions where they
start.
-/
namespace Doorhinges.Lib.Pieces

variable {α : Type} [DecidableEq α] (sep : α)

/-- The pieces when `acc` has been seen since the last separator. -/
def piecesFrom (acc : List α) : List α → List (List α)
  | [] => []
  | a :: l => if a = sep then acc :: piecesFrom [] l else piecesFrom (acc ++ [a]) l

def pieces (l : List α) : List (List α) := piecesFrom sep [] l

variable {sep}

theorem piecesFrom_append {acc w : List α} (hw : sep ∉ w) (l : List α) :
    piecesFrom sep acc (w ++ l) = piecesFrom sep (acc ++ w) l := by
  induction w generalizing acc with
  | nil => simp
  | cons a w ih =>
    rw [List.mem_cons, not_or] at hw
    rw [List.cons_append, piecesFrom, if_neg (Ne.symm hw.1), ih hw.2]
    simp

/-- The first piece is cut off. -/
theorem pieces_cons {w : List α} (hw : sep ∉ w) (l : List α) :
    pieces sep (w ++ sep :: l) = w :: pieces sep l := by
  rw [pieces, piecesFrom_append hw, piecesFrom, if_pos rfl, List.nil_append, pieces]

/-- Without a separator there is no piece. -/
theorem pieces_of_not_mem {l : List α} (hl : sep ∉ l) : pieces sep l = [] := by
  have h : piecesFrom sep [] (l ++ []) = piecesFrom sep ([] ++ l) [] := piecesFrom_append hl []
  rwa [List.append_nil] at h

/-- Each text with a separator behind it. -/
def joined (sep : α) (ts : List (List α)) : List α := ts.flatMap fun t => t ++ [sep]

/-- The first separator at `pos` or behind it. -/
def findFrom (sep : α) (s : List α) (pos : Nat) : Option Nat :=
  ((s.drop pos).findIdx? (· = sep)).map (pos + ·)

/-- The starts of `n` texts from `pos` on; without a further separator the next is the front. -/
def starts (sep : α) (s : List α) : Nat → Nat → List Nat
  | 0, _ => []
  | n + 1, pos => pos :: starts sep s n ((findFrom sep s pos).elim 0 (· + 1))

/-- What stands from a position to the next separator. -/
def textAt (sep : α) (s : List α) (pos : Nat) : List α := (s.drop pos).takeWhile (· ≠ sep)

omit [DecidableEq α] in
theorem joined_cons (t : List α) (ts : List (List α)) :
    joined sep (t :: ts) = t ++ sep :: joined sep ts := by
  simp [joined]

theorem takeWhile_ne_append {t : List α} (ht : sep ∉ t) (l : List α) :
    (t ++ sep :: l).takeWhile (· ≠ sep) = t := by
  have hall : ∀ a ∈ t, decide (a ≠ sep) = true := by
    intro a ha
    exact decide_eq_true fun heq => ht (heq ▸ ha)
  rw [List.takeWhile_append_of_pos hall]
  simp

theorem findIdx?_append {t : List α} (ht : sep ∉ t) (l : List α) :
    (t ++ sep :: l).findIdx? (· = sep) = some t.length := by
  rw [List.findIdx?_eq_some_iff_getElem]
  refine ⟨by simp, by simp, fun j hj => ?_⟩
  have hmem : t[j] ∈ t := List.getElem_mem hj
  rw [List.getElem_append_left hj]
  simpa using fun heq : t[j] = sep => ht (heq ▸ hmem)

/-- The texts that were joined stand at the starts. -/
theorem texts_joined (pre : List α) {ts : List (List α)} (h : ∀ t ∈ ts, sep ∉ t) :
    (starts sep (pre ++ joined sep ts) ts.length pre.length).map
      (textAt sep (pre ++ joined sep ts)) = ts := by
  induction ts generalizing pre with
  | nil => rfl
  | cons t ts ih =>
    have ht : sep ∉ t := h t List.mem_cons_self
    have hdrop : (pre ++ joined sep (t :: ts)).drop pre.length = t ++ sep :: joined sep ts := by
      rw [List.drop_left, joined_cons]
    have hfind : findFrom sep (pre ++ joined sep (t :: ts)) pre.length =
        some (pre.length + t.length) := by
      rw [findFrom, hdrop, findIdx?_append ht]
      rfl
    have hpre : pre ++ joined sep (t :: ts) = (pre ++ (t ++ [sep])) ++ joined sep ts := by
      simp [joined_cons]
    have hlen : pre.length + t.length + 1 = (pre ++ (t ++ [sep])).length := by
      simp [Nat.add_assoc]
    rw [List.length_cons, starts, List.map_cons, textAt, hdrop, takeWhile_ne_append ht, hfind,
      Option.elim_some, hlen, hpre, ih _ fun u hu => h u (List.mem_cons_of_mem _ hu)]

end Doorhinges.Lib.Pieces

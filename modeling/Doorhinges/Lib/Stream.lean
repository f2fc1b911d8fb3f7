import Mathlib.Data.List.Infix

/-!
# Readers of a stream

A reader looks at what has come of a stream and either takes some of it, perhaps with an item
that is complete, or fails, or waits for more. Where it does not change its mind when more has
come, the items do not depend on where the stream is cut.
-/
namespace Doorhinges.Lib.Stream

variable {α σ ω ε : Type*}

/-- One look at the stream: absent to wait, else a failure, or the next state with the number of
units that are taken and the item that is complete, if one is. -/
abbrev Look (α σ ω ε : Type*) := σ → List α → Option (Except ε (σ × Nat × Option ω))

/-- Something is taken at each step, and what has been decided stays when more comes. -/
structure Steady (look : Look α σ ω ε) : Prop where
  takes : ∀ {s b s' n x}, look s b = some (.ok (s', n, x)) → 0 < n ∧ n ≤ b.length
  keeps : ∀ {s b r}, look s b = some r → ∀ c, look s (b ++ c) = some r

/-- Where reading ends: in a state with what is left of the stream, or with a failure. -/
abbrev End (α σ ε : Type*) := Except ε (σ × List α)

variable (look : Look α σ ω ε)

/-- Up to the first item, or as far as the stream goes. -/
def readOne : Nat → σ → List α → Option ω × End α σ ε
  | 0, s, b => (none, .ok (s, b))
  | k + 1, s, b =>
    match look s b with
    | none => (none, .ok (s, b))
    | some (.error e) => (none, .error e)
    | some (.ok (s', n, none)) => readOne k s' (b.drop n)
    | some (.ok (s', n, some x)) => (some x, .ok (s', b.drop n))

/-- All items of the stream. -/
def readAll : Nat → σ → List α → List ω × End α σ ε
  | 0, s, b => ([], .ok (s, b))
  | k + 1, s, b =>
    match look s b with
    | none => ([], .ok (s, b))
    | some (.error e) => ([], .error e)
    | some (.ok (s', n, x)) =>
      let r := readAll k s' (b.drop n)
      (x.toList ++ r.1, r.2)

/-- The items of a stream and where reading it ends. -/
def items (s : σ) (b : List α) : List ω × End α σ ε := readAll look (b.length + 1) s b

/-- The items from the end of a stream on. -/
def goOn : End α σ ε → List α → List ω × End α σ ε
  | .ok (s, b), c => items look s (b ++ c)
  | .error e, _ => ([], .error e)

/-- The reader is given a piece of the stream, or is asked for an item. -/
inductive Op (α : Type*) where
  | feed (b : List α)
  | read

/-- The items so far, and the state with what is left; after a failure nothing is taken. -/
def step (t : List ω × End α σ ε) : Op α → List ω × End α σ ε
  | .feed c =>
    match t.2 with
    | .ok (s, b) => (t.1, .ok (s, b ++ c))
    | .error e => (t.1, .error e)
  | .read =>
    match t.2 with
    | .ok (s, b) =>
      let r := readOne look (b.length + 1) s b
      (t.1 ++ r.1.toList, r.2)
    | .error e => (t.1, .error e)

def run (s : σ) (ops : List (Op α)) : List ω × End α σ ε :=
  ops.foldl (step look) ([], .ok (s, []))

/-- What the reader is given in all. -/
def fed : List (Op α) → List α
  | [] => []
  | .feed c :: ops => c ++ fed ops
  | .read :: ops => fed ops

/-- No item can be had without more. -/
def Exhausted : End α σ ε → Prop
  | .ok (s, b) => look s b = none
  | .error _ => True

variable {look}

section Items

variable {s s' : σ} {b : List α} {n : Nat} {x : Option ω} {e : ε}

theorem readAll_fuel (h : Steady look) {k l : Nat} (hk : b.length < k) (hl : b.length < l) :
    readAll look k s b = readAll look l s b := by
  induction k generalizing s b l with
  | zero => omega
  | succ k ih =>
    obtain ⟨l, rfl⟩ := Nat.exists_eq_succ_of_ne_zero (Nat.ne_zero_of_lt hl)
    rw [readAll, readAll]
    cases hlook : look s b with
    | none => rfl
    | some r =>
      cases r with
      | error e => rfl
      | ok r =>
        obtain ⟨s', n, x⟩ := r
        obtain ⟨hn, hlen⟩ := h.takes hlook
        have hdrop : (b.drop n).length + n = b.length := by
          rw [List.length_drop]
          omega
        dsimp only
        rw [ih (l := l) (by omega) (by omega)]

theorem items_none (h : look s b = none) : items look s b = ([], .ok (s, b)) := by
  rw [items, readAll, h]

theorem items_error (h : look s b = some (.error e)) : items look s b = ([], .error e) := by
  rw [items, readAll, h]

theorem items_ok (h : Steady look) (hlook : look s b = some (.ok (s', n, x))) :
    items look s b =
      (x.toList ++ (items look s' (b.drop n)).1, (items look s' (b.drop n)).2) := by
  obtain ⟨hn, hlen⟩ := h.takes hlook
  have hrest : readAll look b.length s' (b.drop n) = items look s' (b.drop n) :=
    readAll_fuel h (by rw [List.length_drop]; omega) (Nat.lt_succ_self _)
  rw [items, readAll, hlook]
  dsimp only
  rw [hrest]

/-- Reading goes on where it has ended. -/
theorem items_append (h : Steady look) (c : List α) : items look s (b ++ c) =
    ((items look s b).1 ++ (goOn look (items look s b).2 c).1,
      (goOn look (items look s b).2 c).2) := by
  induction hlen : b.length using Nat.strongRecOn generalizing s b with
  | ind len ih =>
    cases hlook : look s b with
    | none =>
      rw [items_none hlook]
      rfl
    | some r =>
      cases r with
      | error e =>
        rw [items_error hlook, items_error (h.keeps hlook c)]
        rfl
      | ok r =>
        obtain ⟨s', n, x⟩ := r
        obtain ⟨hn, hle⟩ := h.takes hlook
        have hdrop : (b ++ c).drop n = b.drop n ++ c := List.drop_append_of_le_length hle
        have hlt : (b.drop n).length < len := by
          rw [List.length_drop]
          omega
        rw [items_ok h hlook, items_ok h (h.keeps hlook c), hdrop, ih _ hlt rfl]
        dsimp only
        rw [List.append_assoc]

@[simp] theorem goOn_ok (s : σ) (b c : List α) :
    goOn look (.ok (s, b)) c = items look s (b ++ c) := rfl

@[simp] theorem goOn_error (e : ε) (c : List α) : goOn look (.error e) c = ([], .error e) := rfl

theorem goOn_exhausted {t : End α σ ε} (ht : Exhausted look t) : goOn look t [] = ([], t) := by
  cases t with
  | error e => rfl
  | ok t =>
    obtain ⟨s, b⟩ := t
    rw [goOn_ok, List.append_nil]
    exact items_none ht

/-- One item is the first of all. -/
theorem readOne_items (h : Steady look) {k : Nat} (hk : b.length < k) : items look s b =
    ((readOne look k s b).1.toList ++ (goOn look (readOne look k s b).2 []).1,
      (goOn look (readOne look k s b).2 []).2) := by
  induction k generalizing s b with
  | zero => omega
  | succ k ih =>
    rw [readOne]
    cases hlook : look s b with
    | none =>
      rw [items_none hlook, goOn_exhausted (t := .ok (s, b)) hlook]
      rfl
    | some r =>
      cases r with
      | error e =>
        rw [items_error hlook]
        rfl
      | ok r =>
        obtain ⟨s', n, x⟩ := r
        obtain ⟨hn, hle⟩ := h.takes hlook
        have hlt : (b.drop n).length < k := by
          rw [List.length_drop]
          omega
        rw [items_ok h hlook]
        cases x with
        | none => exact ih hlt
        | some x =>
          simp only [goOn_ok, List.append_nil]

theorem readOne_waits (h : Steady look) {k : Nat} (hk : b.length < k) {s' : σ} {b' : List α}
    (hend : readOne look k s b = (none, .ok (s', b'))) : look s' b' = none := by
  induction k generalizing s b with
  | zero => omega
  | succ k ih =>
    rw [readOne] at hend
    cases hlook : look s b with
    | none =>
      rw [hlook] at hend
      obtain ⟨-, hsame⟩ := Prod.mk.inj hend
      obtain ⟨rfl, rfl⟩ := Prod.mk.inj (Except.ok.inj hsame)
      exact hlook
    | some r =>
      rw [hlook] at hend
      cases r with
      | error e => cases hend
      | ok r =>
        obtain ⟨s₁, n, x⟩ := r
        obtain ⟨hn, hle⟩ := h.takes hlook
        cases x with
        | none => exact ih (by rw [List.length_drop]; omega) hend
        | some x => cases hend

theorem readOne_error {k : Nat} (hend : (readOne look k s b).2 = .error e) :
    (readOne look k s b).1 = none := by
  induction k generalizing s b with
  | zero => cases hend
  | succ k ih =>
    rw [readOne] at hend ⊢
    cases hlook : look s b with
    | none => rfl
    | some r =>
      rw [hlook] at hend
      cases r with
      | error e => rfl
      | ok r =>
        obtain ⟨s₁, n, x⟩ := r
        cases x with
        | none => exact ih hend
        | some x => cases hend

/-- The look that has found an item. -/
theorem readOne_found {k : Nat} {s' : σ} {b' : List α} {y : ω}
    (hend : readOne look k s b = (some y, .ok (s', b'))) :
    ∃ s₁ b₁ n, look s₁ b₁ = some (.ok (s', n, some y)) := by
  induction k generalizing s b with
  | zero => cases hend
  | succ k ih =>
    rw [readOne] at hend
    cases hlook : look s b with
    | none =>
      rw [hlook] at hend
      cases hend
    | some r =>
      rw [hlook] at hend
      cases r with
      | error e => cases hend
      | ok r =>
        obtain ⟨s₁, n, x⟩ := r
        cases x with
        | none => exact ih hend
        | some x =>
          obtain ⟨rfl, heq⟩ : x = y ∧ _ := by simpa using hend
          obtain ⟨rfl, rfl⟩ := heq
          exact ⟨_, _, _, hlook⟩

/-- An item is found with more behind it too. -/
theorem readOne_append (h : Steady look) {k l : Nat} {s' : σ} {b' : List α} {y : ω}
    (hend : readOne look k s b = (some y, .ok (s', b'))) (c : List α)
    (hl : (b ++ c).length < l) : readOne look l s (b ++ c) = (some y, .ok (s', b' ++ c)) := by
  induction k generalizing s b l with
  | zero => cases hend
  | succ k ih =>
    obtain ⟨l, rfl⟩ := Nat.exists_eq_succ_of_ne_zero (Nat.ne_zero_of_lt hl)
    rw [readOne] at hend ⊢
    cases hlook : look s b with
    | none =>
      rw [hlook] at hend
      cases hend
    | some r =>
      rw [hlook] at hend
      rw [h.keeps hlook c]
      cases r with
      | error e => cases hend
      | ok r =>
        obtain ⟨s₁, n, x⟩ := r
        obtain ⟨hn, hle⟩ := h.takes hlook
        have hdrop : (b ++ c).drop n = b.drop n ++ c := List.drop_append_of_le_length hle
        cases x with
        | none =>
          dsimp only at hend ⊢
          rw [hdrop]
          refine ih hend ?_
          rw [List.length_append] at hl ⊢
          rw [List.length_drop]
          omega
        | some x =>
          dsimp only at hend ⊢
          rw [hdrop]
          obtain ⟨rfl, heq⟩ : x = y ∧ _ := by simpa using hend
          obtain ⟨rfl, rfl⟩ := heq
          rfl

/-- Who waits with something at hand would also wait with nothing. -/
theorem waits_nil (h : Steady look) (hlook : look s b = none) : look s [] = none := by
  cases hnil : look s [] with
  | none => rfl
  | some r =>
    have hkeep := h.keeps hnil b
    rw [List.nil_append, hlook] at hkeep
    cases hkeep

end Items

section Run

/-- With what is left the items are those of the stream. -/
def Follows (look : Look α σ ω ε) (s : σ) (b : List α) (t : List ω × End α σ ε) : Prop :=
  items look s b = (t.1 ++ (goOn look t.2 []).1, (goOn look t.2 []).2)

variable {s : σ} {b : List α} {t : List ω × End α σ ε}

theorem follows_feed (h : Steady look) (ht : Follows look s b t) (c : List α) :
    Follows look s (b ++ c) (step look t (.feed c)) := by
  obtain ⟨xs, t⟩ := t
  rw [Follows, items_append h, ht]
  cases t with
  | error e => simp [step]
  | ok t =>
    obtain ⟨s', b'⟩ := t
    simp only [step, goOn_ok, List.append_nil]
    rw [items_append h]
    simp only [List.append_assoc]

theorem follows_read (h : Steady look) (ht : Follows look s b t) :
    Follows look s b (step look t .read) := by
  obtain ⟨xs, t⟩ := t
  rw [Follows, ht]
  cases t with
  | error e => rfl
  | ok t =>
    obtain ⟨s', b'⟩ := t
    have hone := readOne_items h (s := s') (b := b') (Nat.lt_succ_self _)
    simp only [step, goOn_ok, List.append_nil]
    rw [hone]
    simp only [List.append_assoc]

theorem follows_foldl (h : Steady look) (ops : List (Op α)) (ht : Follows look s b t) :
    Follows look s (b ++ fed ops) (ops.foldl (step look) t) := by
  induction ops generalizing b t with
  | nil => rwa [fed, List.append_nil]
  | cons op ops ih =>
    cases op with
    | feed c =>
      rw [fed, ← List.append_assoc]
      exact ih (follows_feed h ht c)
    | read => exact ih (follows_read h ht)

/-- However the stream is cut, the items are those of the whole. -/
theorem run_follows (h : Steady look) (s : σ) (ops : List (Op α)) :
    Follows look s (fed ops) (run look s ops) := by
  have hstart : Follows look s [] ([], .ok (s, [])) := by simp [Follows]
  exact follows_foldl h ops hstart

theorem run_eq (h : Steady look) {ops : List (Op α)}
    (hend : Exhausted look (run look s ops).2) : run look s ops = items look s (fed ops) := by
  rw [run_follows h s ops, goOn_exhausted hend, List.append_nil]

end Run

end Doorhinges.Lib.Stream

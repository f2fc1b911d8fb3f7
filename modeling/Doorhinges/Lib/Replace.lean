import Mathlib.Data.List.Infix

/-!
# Replacing a part of a list

`replaceAll` replaces the occurrences of a pattern from the left, and those that overlap the
one before are no occurrences. `replaceFirst` replaces only the first one. `replaceStarts`
replaces the first element of each occurrence, overlapping or not.
-/
namespace Doorhinges.Lib.Replace

variable {α : Type*} [DecidableEq α] (e r : List α)

/-- The occurrences from the left; `k` elements of the last one are still to be skipped. -/
def replaceFrom : Nat → List α → List α
  | _, [] => []
  | 0, a :: s => if e <+: a :: s then r ++ replaceFrom (e.length - 1) s else a :: replaceFrom 0 s
  | k + 1, _ :: s => replaceFrom k s

def replaceAll (s : List α) : List α := replaceFrom e r 0 s

def replaceStarts : List α → List α
  | [] => []
  | a :: s => if e <+: a :: s then r ++ replaceStarts s else a :: replaceStarts s

def replaceFirst : List α → List α
  | [] => if e = [] then r else []
  | a :: s => if e <+: a :: s then r ++ (a :: s).drop e.length else a :: replaceFirst s

/-- An occurrence starts at each element of those that `replaceAll` replaces; `k` elements of
the last one are still to come. -/
def CoveredFrom : Nat → List α → Prop
  | _, [] => True
  | 0, a :: s => if e <+: a :: s then CoveredFrom (e.length - 1) s else CoveredFrom 0 s
  | k + 1, a :: s => e <+: a :: s ∧ CoveredFrom k s

def Covered (s : List α) : Prop := CoveredFrom e 0 s

variable {e r} {a : α} {s : List α} {k : Nat}

theorem replaceFrom_nil : replaceFrom e r k [] = [] := by
  cases k <;> rfl

theorem replaceFrom_hit (h : e <+: a :: s) :
    replaceFrom e r 0 (a :: s) = r ++ replaceFrom e r (e.length - 1) s := by
  rw [replaceFrom, if_pos h]

theorem replaceFrom_miss (h : ¬ e <+: a :: s) :
    replaceFrom e r 0 (a :: s) = a :: replaceFrom e r 0 s := by
  rw [replaceFrom, if_neg h]

theorem replaceStarts_hit (h : e <+: a :: s) :
    replaceStarts e r (a :: s) = r ++ replaceStarts e r s := by
  rw [replaceStarts, if_pos h]

theorem replaceStarts_miss (h : ¬ e <+: a :: s) :
    replaceStarts e r (a :: s) = a :: replaceStarts e r s := by
  rw [replaceStarts, if_neg h]

theorem replaceFirst_hit (h : e <+: a :: s) :
    replaceFirst e r (a :: s) = r ++ (a :: s).drop e.length := by
  rw [replaceFirst, if_pos h]

theorem replaceFirst_miss (h : ¬ e <+: a :: s) :
    replaceFirst e r (a :: s) = a :: replaceFirst e r s := by
  rw [replaceFirst, if_neg h]

theorem replaceAll_eq_self (h : ¬ e <:+: s) : replaceAll e r s = s := by
  induction s with
  | nil => rfl
  | cons a s ih =>
    have hmiss : ¬ e <+: a :: s := fun hp => h hp.isInfix
    rw [replaceAll, replaceFrom_miss hmiss]
    exact congrArg (a :: ·) (ih fun hs => h (List.infix_cons hs))

theorem replaceStarts_eq_self (h : ¬ e <:+: s) : replaceStarts e r s = s := by
  induction s with
  | nil => rfl
  | cons a s ih =>
    have hmiss : ¬ e <+: a :: s := fun hp => h hp.isInfix
    rw [replaceStarts_miss hmiss, ih fun hs => h (List.infix_cons hs)]

theorem replaceFirst_eq_self (h : ¬ e <:+: s) : replaceFirst e r s = s := by
  induction s with
  | nil => rw [replaceFirst, if_neg fun he => h (List.infix_nil.2 he)]
  | cons a s ih =>
    have hmiss : ¬ e <+: a :: s := fun hp => h hp.isInfix
    rw [replaceFirst_miss hmiss, ih fun hs => h (List.infix_cons hs)]

theorem mem_replaceFirst {x : α} (h : x ∈ replaceFirst e r s) : x ∈ r ∨ x ∈ s := by
  induction s with
  | nil =>
    rw [replaceFirst] at h
    split at h
    · exact .inl h
    · exact .inr h
  | cons a s ih =>
    by_cases hhit : e <+: a :: s
    · rw [replaceFirst_hit hhit, List.mem_append] at h
      exact h.imp_right List.mem_of_mem_drop
    · rw [replaceFirst_miss hhit, List.mem_cons] at h
      rcases h with rfl | hs
      · exact .inr List.mem_cons_self
      · exact (ih hs).imp_right (List.mem_cons_of_mem a)

theorem replaceStarts_erase (b : α) (s : List α) :
    replaceStarts [b] [] s = s.filter (· ≠ b) := by
  induction s with
  | nil => rfl
  | cons a s ih =>
    by_cases hab : a = b
    · subst hab
      rw [replaceStarts_hit ⟨s, rfl⟩, List.nil_append, ih, List.filter_cons_of_neg (by simp)]
    · have hmiss : ¬ [b] <+: a :: s := fun h => hab (List.cons_prefix_cons.1 h).1.symm
      rw [replaceStarts_miss hmiss, ih, List.filter_cons_of_pos (by simpa using hab)]

theorem mem_replaceStarts {x : α} (h : x ∈ replaceStarts e r s) : x ∈ r ∨ x ∈ s := by
  induction s with
  | nil => exact .inr h
  | cons a s ih =>
    by_cases hhit : e <+: a :: s
    · rw [replaceStarts_hit hhit, List.mem_append] at h
      exact h.elim .inl fun hs => (ih hs).imp_right (List.mem_cons_of_mem a)
    · rw [replaceStarts_miss hhit, List.mem_cons] at h
      rcases h with rfl | hs
      · exact .inr List.mem_cons_self
      · exact (ih hs).imp_right (List.mem_cons_of_mem a)

/-- For a pattern of one element the two are the same. -/
theorem replaceStarts_singleton (h : e.length = 1) (s : List α) :
    replaceStarts e r s = replaceAll e r s := by
  induction s with
  | nil => rfl
  | cons a s ih =>
    by_cases hhit : e <+: a :: s
    · rw [replaceStarts_hit hhit, ih, replaceAll, replaceAll, replaceFrom_hit hhit, h]
    · rw [replaceStarts_miss hhit, ih, replaceAll, replaceAll, replaceFrom_miss hhit]

section Length

/-- The elements that are skipped make the difference. -/
theorem length_replaceFrom_add_le (hr : r ≠ []) (k : Nat) (s : List α) :
    (replaceFrom e r k s).length + min k s.length ≤ (replaceStarts e r s).length := by
  have hpos := List.length_pos_iff.2 hr
  induction s generalizing k with
  | nil => rw [replaceFrom_nil, List.length_nil, Nat.min_zero]; rfl
  | cons a s ih =>
    have hcons : (replaceStarts e r s).length + 1 ≤ (replaceStarts e r (a :: s)).length := by
      by_cases hhit : e <+: a :: s
      · rw [replaceStarts_hit hhit, List.length_append]
        omega
      · rw [replaceStarts_miss hhit, List.length_cons]
    cases k with
    | zero =>
      by_cases hhit : e <+: a :: s
      · have hrest := ih (e.length - 1)
        rw [replaceFrom_hit hhit, replaceStarts_hit hhit, List.length_append, List.length_append]
        omega
      · have hrest := ih 0
        rw [replaceFrom_miss hhit, replaceStarts_miss hhit]
        simp only [List.length_cons]
        omega
    | succ k =>
      have hrest := ih k
      rw [replaceFrom, List.length_cons]
      omega

theorem length_replaceAll_lt (hr : r ≠ []) (he : 2 ≤ e.length) (h : e <:+: s) :
    (replaceAll e r s).length < (replaceStarts e r s).length := by
  induction s with
  | nil =>
    rw [List.infix_nil.1 h] at he
    cases he
  | cons a s ih =>
    by_cases hhit : e <+: a :: s
    · have hrest := length_replaceFrom_add_le (e := e) hr (e.length - 1) s
      have hlen := hhit.length_le
      rw [List.length_cons] at hlen
      rw [replaceAll, replaceFrom_hit hhit, replaceStarts_hit hhit, List.length_append,
        List.length_append]
      omega
    · have hrest := ih ((List.infix_cons_iff.1 h).resolve_left hhit)
      rw [replaceAll, replaceFrom_miss hhit, replaceStarts_miss hhit]
      exact Nat.succ_lt_succ hrest

theorem length_erased_le (k : Nat) (s : List α) :
    (replaceFrom e [] k s).length ≤ (replaceStarts e [] s).length := by
  induction s generalizing k with
  | nil => rw [replaceFrom_nil]; exact Nat.zero_le _
  | cons a s ih =>
    have hcons : (replaceStarts e [] s).length ≤ (replaceStarts e [] (a :: s)).length := by
      by_cases hhit : e <+: a :: s
      · rw [replaceStarts_hit hhit, List.nil_append]
      · rw [replaceStarts_miss hhit, List.length_cons]
        omega
    cases k with
    | zero =>
      by_cases hhit : e <+: a :: s
      · rw [replaceFrom_hit hhit, replaceStarts_hit hhit]
        exact ih _
      · rw [replaceFrom_miss hhit, replaceStarts_miss hhit]
        exact Nat.succ_le_succ (ih 0)
    | succ k => exact (ih k).trans hcons

end Length

/-- Erasing the starts erases the occurrences exactly where they are covered by starts. -/
theorem erased_eq_iff (k : Nat) (s : List α) :
    replaceStarts e [] s = replaceFrom e [] k s ↔ CoveredFrom e k s := by
  induction s generalizing k with
  | nil => cases k <;> exact iff_of_true rfl trivial
  | cons a s ih =>
    by_cases hhit : e <+: a :: s
    · rw [replaceStarts_hit hhit, List.nil_append]
      cases k with
      | zero => rw [replaceFrom_hit hhit, List.nil_append, CoveredFrom, if_pos hhit, ih]
      | succ k => rw [replaceFrom, CoveredFrom, and_iff_right hhit, ih]
    · rw [replaceStarts_miss hhit]
      cases k with
      | zero =>
        rw [replaceFrom_miss hhit, CoveredFrom, if_neg hhit, List.cons_inj_right, ih]
      | succ k =>
        refine iff_of_false (fun heq => ?_) fun hcov => hhit hcov.1
        have hlen := congrArg List.length heq
        have hle := length_erased_le (e := e) k s
        rw [replaceFrom, List.length_cons] at hlen
        omega

/-- When it makes no difference that the starts are replaced and not the occurrences. -/
theorem replaceStarts_eq_iff (he : e ≠ []) (s : List α) :
    replaceStarts e r s = replaceAll e r s ↔
      e.length = 1 ∨ ¬ e <:+: s ∨ r = [] ∧ Covered e s := by
  by_cases h1 : e.length = 1
  · exact iff_of_true (replaceStarts_singleton h1 s) (.inl h1)
  by_cases hin : e <:+: s
  · have h2 : 2 ≤ e.length := by
      have := List.length_pos_iff.2 he
      omega
    simp only [h1, hin, not_true_eq_false, false_or]
    by_cases hr : r = []
    · subst hr
      exact (erased_eq_iff 0 s).trans (and_iff_right rfl).symm
    · refine iff_of_false (fun heq => ?_) fun h => hr h.1
      have hlt := length_replaceAll_lt hr h2 hin
      rw [heq] at hlt
      exact hlt.false
  · rw [replaceStarts_eq_self hin, replaceAll_eq_self hin]
    exact iff_of_true rfl (.inr (.inl hin))

end Doorhinges.Lib.Replace

import Mathlib.Data.List.Infix

/-!
# Fields without a separator between them

A field is a name, a mark and a value. A row of fields is written without anything between
them, so a value runs into the name behind it; the row can be read back as long as the mark
stands only once in each field and no name ends another.
-/
namespace Doorhinges.Lib.Fields

variable {α : Type} {d : α} {v w : List α} {qs rs : List (List α × List α)}

def field (d : α) (q : List α × List α) : List α := q.1 ++ d :: q.2

def row (d : α) (qs : List (List α × List α)) : List α := qs.flatMap (field d)

/-- The mark is in neither part. -/
def Single (d : α) (q : List α × List α) : Prop := d ∉ q.1 ∧ d ∉ q.2

/-- Where one of the names ends with the other they are the same. -/
def SuffixFree (m n : List α) : Prop := (m <:+ n → m = n) ∧ (n <:+ m → n = m)

instance [DecidableEq α] (m n : List α) : Decidable (SuffixFree m n) :=
  inferInstanceAs (Decidable ((m <:+ n → m = n) ∧ (n <:+ m → n = m)))

instance [DecidableEq α] (q : List α × List α) : Decidable (Single d q) :=
  inferInstanceAs (Decidable (d ∉ q.1 ∧ d ∉ q.2))

theorem mark_mem_row {q : List α × List α} (h : q ∈ qs) : d ∈ row d qs :=
  List.mem_flatMap.2 ⟨q, h, by simp [field]⟩

/-- What stands in front of the first mark. -/
theorem append_mark_inj {m n x y : List α} (hm : d ∉ m) (hn : d ∉ n)
    (h : m ++ d :: x = n ++ d :: y) : m = n ∧ x = y := by
  rcases List.append_eq_append_iff.1 h with ⟨a, hna, hx⟩ | ⟨a, hma, hy⟩
  · cases a with
    | nil => exact ⟨by simpa using hna.symm, by simpa using hx⟩
    | cons c a =>
      obtain ⟨rfl, -⟩ := List.cons.inj hx
      exact absurd (by simp [hna]) hn
  · cases a with
    | nil => exact ⟨by simpa using hma, by simpa using hy.symm⟩
    | cons c a =>
      obtain ⟨rfl, -⟩ := List.cons.inj hy
      exact absurd (by simp [hma]) hm

/-- A value and the name behind it are told apart by the name. -/
theorem append_name_inj {m n : List α} (hfree : SuffixFree m n) (h : v ++ m = w ++ n) :
    v = w ∧ m = n := by
  have hmn : m = n := by
    rcases List.suffix_or_suffix_of_suffix (List.suffix_append v m) (h ▸ List.suffix_append w n) with
      hm | hn
    · exact hfree.1 hm
    · exact (hfree.2 hn).symm
  subst hmn
  exact ⟨List.append_cancel_right h, rfl⟩

/-- Rows with the same text are the same, also behind the end of a value. -/
theorem row_inj (hqs : ∀ q ∈ qs, Single d q) (hrs : ∀ r ∈ rs, Single d r)
    (hfree : ∀ q ∈ qs, ∀ r ∈ rs, SuffixFree q.1 r.1) (hv : d ∉ v) (hw : d ∉ w)
    (h : v ++ row d qs = w ++ row d rs) : v = w ∧ qs = rs := by
  induction qs generalizing v w rs with
  | nil =>
    cases rs with
    | nil => exact ⟨by simpa [row] using h, rfl⟩
    | cons r rs =>
      -- the right side has a mark and the left side has none
      have hmem : d ∈ w ++ row d (r :: rs) := List.mem_append_right _ (mark_mem_row List.mem_cons_self)
      rw [← h] at hmem
      exact absurd hmem (by simpa [row] using hv)
  | cons q qs ih =>
    cases rs with
    | nil =>
      have hmem : d ∈ v ++ row d (q :: qs) := List.mem_append_right _ (mark_mem_row List.mem_cons_self)
      rw [h] at hmem
      exact absurd hmem (by simpa [row] using hw)
    | cons r rs =>
      obtain ⟨hq, hqs⟩ := List.forall_mem_cons.1 hqs
      obtain ⟨hr, hrs⟩ := List.forall_mem_cons.1 hrs
      have hcut : (v ++ q.1) ++ d :: (q.2 ++ row d qs) = (w ++ r.1) ++ d :: (r.2 ++ row d rs) := by
        simpa [row, field] using h
      obtain ⟨hnames, hrest⟩ := append_mark_inj (by simp [hv, hq.1]) (by simp [hw, hr.1]) hcut
      obtain ⟨hvw, hname⟩ :=
        append_name_inj (hfree q List.mem_cons_self r List.mem_cons_self) hnames
      have hfree' : ∀ q ∈ qs, ∀ r ∈ rs, SuffixFree q.1 r.1 := fun q' hq' r' hr' =>
        hfree q' (List.mem_cons_of_mem _ hq') r' (List.mem_cons_of_mem _ hr')
      obtain ⟨hvalue, hmore⟩ := ih hqs hrs hfree' hq.2 hr.2 hrest
      exact ⟨hvw, by rw [hmore, Prod.ext hname hvalue]⟩

end Doorhinges.Lib.Fields

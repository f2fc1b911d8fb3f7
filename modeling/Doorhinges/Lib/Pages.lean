/-!
# Reading in pages

A client asks for one page after the other with the cursor the page before it returned,
until there is none. When every page takes the front off what the cursor stands for, the
pages together are what the first cursor stands for.
-/
namespace Doorhinges.Lib.Pages

variable {σ β α : Type} (page : Nat → σ → Option (β × Option σ))

/-- The pages from a cursor on; `fuel` bounds their number. -/
def follow : Nat → Nat → σ → Option (List β)
  | 0, _, _ => none
  | fuel + 1, k, s =>
    match page k s with
    | none => none
    | some (b, none) => some [b]
    | some (b, some s') => (follow fuel (k + 1) s').map (b :: ·)

variable {page}

theorem follow_last {k : Nat} {s : σ} {b : β} (h : page k s = some (b, none)) (fuel : Nat) :
    follow page (fuel + 1) k s = some [b] := by
  simp [follow, h]

theorem follow_more {k : Nat} {s s' : σ} {b : β} {bs : List β} {fuel : Nat}
    (h : page k s = some (b, some s')) (hbs : follow page fuel (k + 1) s' = some bs) :
    follow page (fuel + 1) k s = some (b :: bs) := by
  simp [follow, h, hbs]

/-- `rest` is what a cursor stands for, `size` falls from page to page. -/
theorem follow_covers {items : β → List α} {rest : σ → List α} {Inv : σ → Prop}
    {Good : β → Prop} {size : σ → Nat}
    (hpage : ∀ k s, Inv s → ∃ b next, page k s = some (b, next) ∧ Good b ∧
      rest s = items b ++ next.elim [] rest ∧ ∀ s', next = some s' → Inv s' ∧ size s' < size s)
    (k : Nat) (s : σ) (hs : Inv s) :
    ∃ bs, follow page (size s + 1) k s = some bs ∧ bs.flatMap items = rest s ∧
      ∀ b ∈ bs, Good b := by
  obtain ⟨n, hn⟩ : ∃ n, size s ≤ n := ⟨_, Nat.le_refl _⟩
  suffices hfuel : ∃ bs, (∀ fuel, size s ≤ fuel → follow page (fuel + 1) k s = some bs) ∧
      bs.flatMap items = rest s ∧ ∀ b ∈ bs, Good b by
    obtain ⟨bs, hbs, hrest⟩ := hfuel
    exact ⟨bs, hbs _ (Nat.le_refl _), hrest⟩
  induction n generalizing k s with
  | zero =>
    obtain ⟨b, next, hp, hgood, hrest, hnext⟩ := hpage k s hs
    cases next with
    | none =>
      exact ⟨[b], fun fuel _ => follow_last hp fuel, by simpa using hrest.symm, by simpa using hgood⟩
    | some s' =>
      have hlt := (hnext s' rfl).2
      omega
  | succ n ih =>
    obtain ⟨b, next, hp, hgood, hrest, hnext⟩ := hpage k s hs
    cases next with
    | none =>
      exact ⟨[b], fun fuel _ => follow_last hp fuel, by simpa using hrest.symm, by simpa using hgood⟩
    | some s' =>
      obtain ⟨hinv, hlt⟩ := hnext s' rfl
      obtain ⟨bs, hbs, hflat, hall⟩ := ih (k + 1) s' hinv (by omega)
      refine ⟨b :: bs, fun fuel hfuel => ?_, ?_, ?_⟩
      · obtain ⟨m, rfl⟩ : ∃ m, fuel = m + 1 := ⟨fuel - 1, by omega⟩
        exact follow_more hp (hbs m (by omega))
      · rw [List.flatMap_cons, hflat, hrest]
        rfl
      · intro c hc
        rcases List.mem_cons.mp hc with rfl | hmem
        · exact hgood
        · exact hall c hmem

end Doorhinges.Lib.Pages

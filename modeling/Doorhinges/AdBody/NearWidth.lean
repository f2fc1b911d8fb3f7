import Doorhinges.AdBody.Model
import Doorhinges.Lib.Decimal
import Mathlib.Data.List.MinMax
import Mathlib.Data.Prod.Lex

/-!
# The nearest image size

One pass over the sizes keeps the best position so far and its distance, and compares the
proportions only where the distances are equal. What it keeps is always the first minimum of
the sizes it has seen.
-/
namespace Doorhinges.AdBody

open Lib.CString

/-- The sizes kept by the server. -/
def nearByWidth1 (imgSize : List Text) (width high : Int) : Option Text :=
  nearByWidth imgSize width high

/-- The sizes in the reply of the store. -/
def nearByWidth2 (hsImageSize : List Text) (width high : Int) : Option Text :=
  nearByWidth hsImageSize width high

/-- `w` and `h` in decimal digits with a capital `X` between them, the products within an int. -/
structure WxH (size : Text) (w h : Nat) : Prop where
  written : ∃ ws hs : Bytes, size.1 = ws ++ 88 :: hs ∧ ws ≠ [] ∧ hs ≠ [] ∧
    (∀ c ∈ ws, isDigit c) ∧ (∀ c ∈ hs, isDigit c) ∧ leadingNat ws = w ∧ leadingNat hs = h
  high : 0 < h ∧ h < 2 ^ 31
  wide : w * 100 < 2 ^ 31

/-- The numbers of a size. -/
def sizeWidth (size : Text) : Nat := leadingNat size
def sizeHigh (size : Text) : Nat := leadingNat (size.1.dropWhile (· ≠ 88)).tail

/-- How far a size is from the wanted one: by its width, and then by its proportions. -/
def distance (width high : Nat) (size : Text) : Nat ×ₗ Nat :=
  toLex ((sizeWidth size - width : Int).natAbs,
    ((100 * sizeWidth size / sizeHigh size : Nat) - (100 * width / high : Nat) : Int).natAbs)

section Sizes

variable {size : Text} {w h : Nat}

theorem WxH.read (hs : WxH size w h) : 88 ∈ size.1 ∧ atoi size = (sizeWidth size : Int) ∧
    atoi (size.1.dropWhile (· ≠ 88)).tail = (sizeHigh size : Int) ∧
      sizeWidth size = w ∧ sizeHigh size = h := by
  obtain ⟨ws, hs', hsize, hws, -, hwdigits, hhdigits, hw, hh⟩ := hs.written
  have hX : isDigit 88 = false := rfl
  have hlow := hs.high
  have hwide := hs.wide
  have hhigh : (size.1.dropWhile (· ≠ 88)).tail = hs' := by
    have hne : ∀ c ∈ ws, decide (c ≠ 88) = true := fun c hc => by
      rw [decide_eq_true_eq]
      rintro rfl
      exact absurd (hwdigits 88 hc) (by decide)
    rw [hsize, List.dropWhile_append_of_pos hne]
    rfl
  have hwidth : sizeWidth size = w := by rw [sizeWidth, hsize, leadingNat_before hwdigits hX, hw]
  rw [hhigh, hwidth, sizeHigh, hhigh, hh]
  refine ⟨by simp [hsize], ?_, ?_, rfl, rfl⟩
  · rw [hsize, atoi_before hws hwdigits hX, atoi_small hwdigits (by omega), hw]
  · rw [atoi_small hhdigits (by omega), hh]

theorem int32_sub {a b : Nat} (ha : a < 2 ^ 31) (hb : b < 2 ^ 31) :
    int32 ((a : Int) - b) = some ((a : Int) - b) :=
  int32_eq (by omega) (by omega)

theorem percent_eq (hw : w * 100 < 2 ^ 31) (hh : 0 < h) :
    percent w h = some ((100 * w / h : Nat) : Int) := by
  rw [percent, int32_eq (by omega) (by omega), Option.bind_eq_bind, Option.bind_some,
    if_neg (by omega)]
  have hproduct : ((w : Int) * 100) = ((100 * w : Nat) : Int) := by omega
  rw [hproduct, Int.ofNat_tdiv]

theorem percent_lt (hw : w * 100 < 2 ^ 31) : 100 * w / h < 2 ^ 31 :=
  Nat.lt_of_le_of_lt (Nat.div_le_self _ _) (by omega)

theorem sizePercent_eq (hs : WxH size w h) :
    sizePercent size.1 = some ((100 * sizeWidth size / sizeHigh size : Nat) : Int) := by
  obtain ⟨hX, hwidth, hhigh, rfl, rfl⟩ := hs.read
  rw [sizePercent, if_pos hX, hwidth, hhigh, percent_eq hs.wide hs.high.1]

end Sizes

section Loop

variable {sizes : List Text} {width high : Nat}

/-- What the loop keeps of the first `i` sizes. -/
def Best (sizes : List Text) (width high i : Nat) (s : Int × Nat) : Prop :=
  if i = 0 then s = (2 ^ 31 - 1, 0)
  else
    ∃ size, sizes[s.2]? = some size ∧ (sizes.take i).argmin (distance width high) = some size ∧
      s.1 = ((sizeWidth size - width : Int).natAbs : Int)

theorem distance_lt {a b : Text} : distance width high a < distance width high b ↔
    (sizeWidth a - width : Int).natAbs < (sizeWidth b - width : Int).natAbs ∨
      (sizeWidth a - width : Int).natAbs = (sizeWidth b - width : Int).natAbs ∧
        ((100 * sizeWidth a / sizeHigh a : Nat) - (100 * width / high : Nat) : Int).natAbs <
          ((100 * sizeWidth b / sizeHigh b : Nat) - (100 * width / high : Nat) : Int).natAbs := by
  rw [distance, distance, Prod.Lex.toLex_lt_toLex]

/-- One round keeps the first minimum. -/
theorem nearer_best (hsizes : ∀ size ∈ sizes, ∃ w h, WxH size w h) (hwidth : width * 100 < 2 ^ 31)
    {i : Nat} {s : Int × Nat} (hi : i < sizes.length) (hs : Best sizes width high i s) :
    ∃ s', nearer sizes width (100 * width / high : Nat) s i = some s' ∧
      Best sizes width high (i + 1) s' := by
  have hget : sizes[i]? = some sizes[i] := List.getElem?_eq_getElem hi
  obtain ⟨w, h, hsize⟩ := hsizes sizes[i] (List.getElem_mem hi)
  obtain ⟨hX, hread, -, hw, hh⟩ := hsize.read
  have hwide := hsize.wide
  have htake : sizes.take (i + 1) = sizes.take i ++ [sizes[i]] :=
    List.take_succ_eq_append_getElem hi
  have hbest : ∀ s', Best sizes width high (i + 1) s' ↔
      ∃ size, sizes[s'.2]? = some size ∧
        (sizes.take (i + 1)).argmin (distance width high) = some size ∧
          s'.1 = ((sizeWidth size - width : Int).natAbs : Int) := by
    intro s'
    rw [Best, if_neg (Nat.succ_ne_zero i)]
  rw [nearer, hget, Option.bind_eq_bind, Option.bind_some, if_pos hX, hread,
    int32_eq (by omega) (by omega), Option.bind_eq_bind, Option.bind_some]
  dsimp only
  by_cases h0 : i = 0
  · rw [Best, if_pos h0] at hs
    subst hs
    rw [if_pos (by omega)]
    refine ⟨_, rfl, (hbest _).2 ⟨sizes[i], hget, ?_, rfl⟩⟩
    have hnil : sizes.take i = [] := by rw [h0, List.take_zero]
    rw [htake, hnil]
    rfl
  · rw [Best, if_neg h0] at hs
    obtain ⟨old, hold, hmin, hdist⟩ := hs
    obtain ⟨w', h', hsize'⟩ := hsizes old (List.mem_of_getElem? hold)
    have hnext := List.argmin_concat (distance width high) sizes[i] (sizes.take i)
    rw [hmin, ← htake] at hnext
    dsimp only at hnext
    have hkeep : ¬ distance width high sizes[i] < distance width high old →
        Best sizes width high (i + 1) s := fun hle =>
      (hbest s).2 ⟨old, hold, by rw [hnext, if_neg hle], hdist⟩
    have hmove : ∀ d : Int, d = ((sizeWidth sizes[i] - width : Int).natAbs : Int) →
        distance width high sizes[i] < distance width high old →
          Best sizes width high (i + 1) (d, i) := fun d hd hlt =>
      (hbest (d, i)).2 ⟨sizes[i], hget, by rw [hnext, if_pos hlt], hd⟩
    rw [distance_lt] at hkeep hmove
    rcases Int.lt_trichotomy ((sizeWidth sizes[i] - width : Int).natAbs : Int) s.1 with
      hlt | heq | hgt
    · rw [if_pos hlt]
      exact ⟨_, rfl, hmove _ rfl (.inl (by omega))⟩
    · -- the distances are equal, so the proportions decide
      have hper := percent_lt (h := high) hwidth
      have hpercent := percent_lt (h := sizeHigh sizes[i]) (hw.symm ▸ hwide)
      obtain ⟨-, -, -, hw', -⟩ := hsize'.read
      have hpercent' := percent_lt (h := sizeHigh old) (hw'.symm ▸ hsize'.wide)
      rw [if_neg (by omega), if_pos heq, hold, Option.bind_some, sizePercent_eq hsize',
        Option.bind_some, int32_sub hpercent' hper, Option.bind_some, sizePercent_eq hsize,
        Option.bind_some, int32_sub hpercent hper, Option.bind_some]
      refine ⟨_, rfl, ?_⟩
      split
      · exact hmove _ heq.symm (.inr ⟨by omega, by omega⟩)
      · exact hkeep (by omega)
    · rw [if_neg (by omega), if_neg (by omega)]
      exact ⟨s, rfl, hkeep (by omega)⟩

/-- The pass keeps the first minimum of all sizes. -/
theorem nearByWidth_eq (hne : sizes ≠ []) (hsizes : ∀ size ∈ sizes, ∃ w h, WxH size w h)
    (hw : 0 < width) (hwidth : width * 100 < 2 ^ 31) (hh : 0 < high) :
    nearByWidth sizes width high = sizes.argmin (distance width high) := by
  have hrun : ∀ i ≤ sizes.length, ∃ s,
      (List.range i).foldlM (nearer sizes width (100 * width / high : Nat)) (2 ^ 31 - 1, 0) =
        some s ∧ Best sizes width high i s := by
    intro i
    induction i with
    | zero => exact fun _ => ⟨_, rfl, rfl⟩
    | succ i ih =>
      intro hi
      obtain ⟨s, hs, hbest⟩ := ih (by omega)
      obtain ⟨s', hs', hbest'⟩ := nearer_best hsizes hwidth hi hbest
      refine ⟨s', ?_, hbest'⟩
      rw [List.range_succ, List.foldlM_append, hs, Option.bind_eq_bind, Option.bind_some]
      rw [List.foldlM_cons, hs']
      rfl
  obtain ⟨s, hs, hbest⟩ := hrun sizes.length le_rfl
  have hlen : sizes.length ≠ 0 := fun h => hne (List.length_eq_zero_iff.1 h)
  rw [Best, if_neg hlen, List.take_length] at hbest
  obtain ⟨size, hget, hmin, -⟩ := hbest
  rw [nearByWidth, if_neg (by omega), percent_eq hwidth hh, Option.bind_eq_bind, Option.bind_some,
    hs, Option.bind_eq_bind, Option.bind_some, hget, hmin]

end Loop

/-- Both searches return the first of the nearest sizes. -/
theorem near_by_width_first (sizes : List Text) (width high : Nat) (hne : sizes ≠ [])
    (hsizes : ∀ size ∈ sizes, ∃ w h, WxH size w h) (hw : 0 < width)
    (hwidth : width * 100 < 2 ^ 31) (hh : 0 < high) :
    nearByWidth1 sizes width high = sizes.argmin (distance width high) ∧
      nearByWidth2 sizes width high = sizes.argmin (distance width high) :=
  ⟨nearByWidth_eq hne hsizes hw hwidth hh, nearByWidth_eq hne hsizes hw hwidth hh⟩

def banners : List Text := [Text.of (ascii "320X50"), Text.of (ascii "480X75")]

theorem near_by_width_first_banner :
    banners ≠ [] ∧ (∀ size ∈ banners, ∃ w h, WxH size w h) ∧ 0 < 400 ∧ 400 * 100 < 2 ^ 31 ∧ 0 < 62 ∧
      nearByWidth1 banners 400 62 = banners.argmin (distance 400 62) ∧
        nearByWidth2 banners 400 62 = banners.argmin (distance 400 62) := by
  have hne : banners ≠ [] := List.cons_ne_nil _ _
  have hsizes : ∀ size ∈ banners, ∃ w h, WxH size w h := by
    intro size hsize
    rcases List.mem_pair.1 hsize with rfl | rfl
    · exact ⟨320, 50, ⟨ascii "320", ascii "50", rfl, by decide, by decide, List.all_eq_true.1 rfl,
        List.all_eq_true.1 rfl, rfl, rfl⟩, by decide, by decide⟩
    · exact ⟨480, 75, ⟨ascii "480", ascii "75", rfl, by decide, by decide, List.all_eq_true.1 rfl,
        List.all_eq_true.1 rfl, rfl, rfl⟩, by decide, by decide⟩
  exact ⟨hne, hsizes, by decide, by decide, by decide,
    near_by_width_first banners 400 62 hne hsizes (by decide) (by decide) (by decide)⟩

example : nearByWidth1 banners 400 62 = some (Text.of (ascii "320X50")) := by decide

end Doorhinges.AdBody

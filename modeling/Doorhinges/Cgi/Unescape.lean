import Doorhinges.Cgi.Model
import Mathlib.Data.List.TakeWhile

/-!
# Decoding in place

The decoder stays inside a text as long as every percent sign it stops at has two more
bytes. Then it leaves the decoded text at the start of the array; else it reads past the
terminator.
-/
namespace Doorhinges.Cgi

open Lib.CString
open Query (cstr)

/-- The decoded text. -/
def unescape : Bytes → Bytes
  | [] => []
  | c :: rest =>
    if c = 37 then
      match rest with
      | a :: b :: rest => x2c a b :: unescape rest
      | _ => []
    else c :: unescape rest

/-- Every percent sign the decoder stops at has two more bytes. -/
def complete : Bytes → Bool
  | [] => true
  | c :: rest =>
    if c = 37 then
      match rest with
      | _ :: _ :: rest => complete rest
      | _ => false
    else complete rest

theorem unescape_percent (a b : UInt8) (rest : Bytes) :
    unescape (37 :: a :: b :: rest) = x2c a b :: unescape rest := by
  simp [unescape]

theorem unescape_cons {c : UInt8} (hc : c ≠ 37) (rest : Bytes) :
    unescape (c :: rest) = c :: unescape rest := by
  match rest with
  | [] | [_] | _ :: _ :: _ => simp [unescape, hc]

theorem complete_percent (a b : UInt8) (rest : Bytes) :
    complete (37 :: a :: b :: rest) = complete rest := by
  simp [complete]

theorem complete_cons {c : UInt8} (hc : c ≠ 37) (rest : Bytes) :
    complete (c :: rest) = complete rest := by
  match rest with
  | [] | [_] | _ :: _ :: _ => simp [complete, hc]

theorem complete_cut {rest : Bytes} (h : rest.length < 2) : complete (37 :: rest) = false := by
  match rest with
  | [] => rfl
  | [_] => simp [complete]

/-- A text in the cases of the decoder. -/
theorem text_cases {P : Bytes → Prop} (nil : P []) (cut : ∀ rest : Bytes, rest.length < 2 → P (37 :: rest))
    (percent : ∀ a b rest, P rest → P (37 :: a :: b :: rest))
    (cons : ∀ c rest, c ≠ 37 → P rest → P (c :: rest)) (text : Bytes) : P text := by
  induction hn : text.length using Nat.strong_induction_on generalizing text with
  | h n ih =>
    subst hn
    match text with
    | [] => exact nil
    | c :: rest =>
      by_cases hc : c = 37
      · subst hc
        match rest with
        | [] => exact cut [] (by decide)
        | [a] => exact cut [a] (by simp)
        | a :: b :: rest =>
          exact percent a b rest (ih rest.length (by simp only [List.length_cons]; omega) rest rfl)
      · exact cons c rest hc (ih rest.length (by simp) rest rfl)

section InPlace

variable {fuel x y : Nat} {url text tail : Bytes} {reads : List Nat}

theorem take_set {url : Bytes} {x : Nat} (hx : x < url.length) (c : UInt8) :
    (url.set x c).take (x + 1) = url.take x ++ [c] := by
  have hx' : x < (url.set x c).length := by rwa [List.length_set]
  rw [List.take_succ_eq_append_getElem hx', List.getElem_set_self, List.take_set_of_le le_rfl]

theorem drop_set {url : Bytes} {x y : Nat} (hx : x < y) (c : UInt8) :
    (url.set x c).drop y = url.drop y := by
  rw [List.drop_set, if_pos hx]

/-- What the array holds from `y` on. -/
theorem getElem?_of_drop {i : Nat} {l : Bytes} (h : url.drop y = l) : url[y + i]? = l[i]? := by
  rw [← h, List.getElem?_drop]

theorem lt_length_of_drop {c : UInt8} {l : Bytes} (h : url.drop y = c :: l) : y < url.length := by
  have := congrArg List.length h
  rw [List.length_drop, List.length_cons] at this
  omega

theorem unescapeFrom_nul (h : url[y]? = some 0) :
    unescapeFrom (fuel + 1) url x y reads = some (url.set x 0, reads ++ [y]) := by
  rw [unescapeFrom, h]
  rfl

theorem unescapeFrom_cons {c : UInt8} (h : url[y]? = some c) (h0 : c ≠ 0) (hc : c ≠ 37) :
    unescapeFrom (fuel + 1) url x y reads =
      unescapeFrom fuel (url.set x c) (x + 1) (y + 1) (reads ++ [y]) := by
  rw [unescapeFrom, h]
  simp [h0, hc]

theorem unescapeFrom_percent {a b : UInt8} (h : url[y]? = some 37) (hx : x ≤ y)
    (ha : url[y + 1]? = some a) (hb : url[y + 2]? = some b) :
    unescapeFrom (fuel + 1) url x y reads =
      unescapeFrom fuel (url.set x (x2c a b)) (x + 1) (y + 3) (reads ++ [y, y + 1, y + 2]) := by
  rw [unescapeFrom, h]
  have ha' : (url.set x 37)[y + 1]? = some a := by rw [List.getElem?_set_ne (by omega), ha]
  have hb' : (url.set x 37)[y + 2]? = some b := by rw [List.getElem?_set_ne (by omega), hb]
  simp [ha', hb']

/-- The decoder leaves what stands before `x`, writes the decoded text there, and reads
nothing past the terminator. -/
theorem unescapeFrom_complete (reads : List Nat) (hc : complete text = true) (hx : x ≤ y)
    (hurl : url.drop y = text ++ 0 :: tail) (h0 : 0 ∉ text) (hfuel : text.length < fuel) :
    ∃ url' rs tail', unescapeFrom fuel url x y reads = some (url', reads ++ rs) ∧
      (∀ i ∈ rs, i ≤ y + text.length) ∧ url'.length = url.length ∧
        url' = url.take x ++ (unescape text ++ 0 :: tail') := by
  obtain ⟨fuel, rfl⟩ := Nat.exists_eq_succ_of_ne_zero (Nat.ne_zero_of_lt hfuel)
  induction text using text_cases generalizing fuel x y url reads with
  | nil =>
    have hlen := lt_length_of_drop hurl
    have hget : url[y]? = some 0 := by simpa using getElem?_of_drop (i := 0) hurl
    refine ⟨url.set x 0, [y], (url.set x 0).drop (x + 1), unescapeFrom_nul hget, by simp, by simp, ?_⟩
    have hcut := List.take_append_drop (x + 1) (url.set x 0)
    rw [take_set (by omega)] at hcut
    simpa [unescape] using hcut.symm
  | cut rest hrest => rw [complete_cut hrest] at hc; cases hc
  | percent a b rest ih =>
    have hlen := lt_length_of_drop hurl
    have hget : url[y]? = some 37 := by simpa using getElem?_of_drop (i := 0) hurl
    have ha : url[y + 1]? = some a := by simpa using getElem?_of_drop (i := 1) hurl
    have hb : url[y + 2]? = some b := by simpa using getElem?_of_drop (i := 2) hurl
    simp only [List.mem_cons, not_or] at h0
    simp only [List.length_cons] at hfuel
    obtain ⟨fuel, rfl⟩ := Nat.exists_eq_succ_of_ne_zero (show fuel ≠ 0 by omega)
    have hrest : (url.set x (x2c a b)).drop (y + 3) = rest ++ 0 :: tail := by
      rw [drop_set (by omega), ← List.drop_drop, hurl]
      rfl
    obtain ⟨url', rs, tail', hrun, hrs, hlen', heq⟩ := ih (reads ++ [y, y + 1, y + 2])
      (by rwa [complete_percent] at hc) (x := x + 1) (by omega) hrest h0.2.2.2 fuel (by omega)
    refine ⟨url', [y, y + 1, y + 2] ++ rs, tail', ?_, ?_, by simpa using hlen', ?_⟩
    · rw [unescapeFrom_percent hget hx ha hb, hrun, List.append_assoc]
    · intro i hi
      rcases List.mem_append.1 hi with hi | hi
      · simp only [List.mem_cons, List.not_mem_nil, or_false] at hi
        simp only [List.length_cons]
        omega
      · have := hrs i hi
        simp only [List.length_cons]
        omega
    · rw [heq, take_set (by omega), unescape_percent]
      simp
  | cons c rest hc37 ih =>
    have hlen := lt_length_of_drop hurl
    have hget : url[y]? = some c := by simpa using getElem?_of_drop (i := 0) hurl
    rw [List.mem_cons, not_or] at h0
    simp only [List.length_cons] at hfuel
    obtain ⟨fuel, rfl⟩ := Nat.exists_eq_succ_of_ne_zero (show fuel ≠ 0 by omega)
    have hrest : (url.set x c).drop (y + 1) = rest ++ 0 :: tail := by
      rw [drop_set (by omega), ← List.drop_drop, hurl]
      rfl
    obtain ⟨url', rs, tail', hrun, hrs, hlen', heq⟩ := ih (reads ++ [y])
      (by rwa [complete_cons hc37] at hc) (x := x + 1) (by omega) hrest h0.2 fuel (by omega)
    refine ⟨url', [y] ++ rs, tail', ?_, ?_, by simpa using hlen', ?_⟩
    · rw [unescapeFrom_cons hget (Ne.symm h0.1) hc37, hrun, List.append_assoc]
    · intro i hi
      rcases List.mem_append.1 hi with hi | hi
      · obtain rfl := List.mem_singleton.1 hi
        omega
      · have := hrs i hi
        simp only [List.length_cons]
        omega
    · rw [heq, take_set (by omega), unescape_cons hc37]
      simp

/-- The indices read are only added to. -/
theorem unescapeFrom_reads {r : Bytes × List Nat} (h : unescapeFrom fuel url x y reads = some r) :
    ∀ i ∈ reads, i ∈ r.2 := by
  induction fuel generalizing url x y reads with
  | zero => cases h
  | succ fuel ih =>
    intro i hi
    rw [unescapeFrom] at h
    obtain ⟨c, -, h⟩ := Option.bind_eq_some_iff.1 h
    split at h
    · obtain rfl := Option.some.inj h
      exact List.mem_append_left _ hi
    · split at h
      · obtain ⟨a, -, h⟩ := Option.bind_eq_some_iff.1 h
        obtain ⟨b, -, h⟩ := Option.bind_eq_some_iff.1 h
        exact ih h i (List.mem_append_left _ hi)
      · exact ih h i (List.mem_append_left _ hi)

/-- Every round reads where it starts. -/
theorem unescapeFrom_start {r : Bytes × List Nat} (h : unescapeFrom fuel url x y reads = some r) :
    y ∈ r.2 := by
  cases fuel with
  | zero => cases h
  | succ fuel =>
    rw [unescapeFrom] at h
    obtain ⟨c, -, h⟩ := Option.bind_eq_some_iff.1 h
    split at h
    · obtain rfl := Option.some.inj h
      exact List.mem_append_right _ List.mem_cons_self
    · split at h
      · obtain ⟨a, -, h⟩ := Option.bind_eq_some_iff.1 h
        obtain ⟨b, -, h⟩ := Option.bind_eq_some_iff.1 h
        exact unescapeFrom_reads h y (by simp)
      · exact unescapeFrom_reads h y (by simp)

/-- A percent sign without two more bytes has the decoder read past the terminator. -/
theorem unescapeFrom_cut (hc : complete text = false) (hx : x ≤ y)
    (hurl : url.drop y = text ++ 0 :: tail) (h0 : 0 ∉ text) {r : Bytes × List Nat}
    (h : unescapeFrom fuel url x y reads = some r) : ∃ i ∈ r.2, y + text.length < i := by
  induction text using text_cases generalizing fuel x y url reads with
  | nil => cases hc
  | cut rest hrest =>
    have hget : url[y]? = some 37 := by simpa using getElem?_of_drop (i := 0) hurl
    obtain ⟨fuel, rfl⟩ : ∃ n, fuel = n + 1 := by
      cases fuel with
      | zero => cases h
      | succ n => exact ⟨n, rfl⟩
    rw [unescapeFrom, hget] at h
    simp only [Option.bind_eq_bind, Option.bind_some] at h
    rw [if_neg (by decide), if_pos trivial] at h
    obtain ⟨a, -, h⟩ := Option.bind_eq_some_iff.1 h
    obtain ⟨b, -, h⟩ := Option.bind_eq_some_iff.1 h
    -- the next round starts behind the terminator
    refine ⟨y + 3, unescapeFrom_start h, ?_⟩
    rw [List.length_cons]
    omega
  | percent a b rest ih =>
    have hget : url[y]? = some 37 := by simpa using getElem?_of_drop (i := 0) hurl
    have ha : url[y + 1]? = some a := by simpa using getElem?_of_drop (i := 1) hurl
    have hb : url[y + 2]? = some b := by simpa using getElem?_of_drop (i := 2) hurl
    simp only [List.mem_cons, not_or] at h0
    cases fuel with
    | zero => cases h
    | succ fuel =>
      rw [unescapeFrom_percent hget hx ha hb] at h
      have hrest : (url.set x (x2c a b)).drop (y + 3) = rest ++ 0 :: tail := by
        rw [drop_set (by omega), ← List.drop_drop, hurl]
        rfl
      obtain ⟨i, hi, hlt⟩ := ih (by rwa [complete_percent] at hc) (by omega) hrest h0.2.2.2 h
      refine ⟨i, hi, ?_⟩
      simp only [List.length_cons]
      omega
  | cons c rest hc37 ih =>
    have hget : url[y]? = some c := by simpa using getElem?_of_drop (i := 0) hurl
    rw [List.mem_cons, not_or] at h0
    cases fuel with
    | zero => cases h
    | succ fuel =>
      rw [unescapeFrom_cons hget (Ne.symm h0.1) hc37] at h
      have hrest : (url.set x c).drop (y + 1) = rest ++ 0 :: tail := by
        rw [drop_set (by omega), ← List.drop_drop, hurl]
        rfl
      obtain ⟨i, hi, hlt⟩ := ih (by rwa [complete_cons hc37] at hc) (by omega) hrest h0.2 h
      refine ⟨i, hi, ?_⟩
      simp only [List.length_cons]
      omega

end InPlace

end Doorhinges.Cgi

import Doorhinges.Lib.Decimal

/-!
# JSON texts

A reader of JSON, and the texts it reads back. Bytes from 128 on are taken as parts of
characters. Strings and literals stay as they are written.
-/
namespace Doorhinges.Lib.Json

open Lib.CString

inductive Value where
  /-- `true`, `false`, `null` or a number -/
  | lit (raw : Bytes)
  | str (raw : Bytes)
  | arr (vs : List Value)
  | obj (ms : List (Bytes × Value))

section Reader

def isBlank (c : UInt8) : Bool := c = 32 || c = 9 || c = 10 || c = 13

def skip (s : Bytes) : Bytes := s.dropWhile isBlank

def isHex (c : UInt8) : Bool := isDigit c || 65 ≤ c && c ≤ 70 || 97 ≤ c && c ≤ 102

/-- What may follow a backslash. -/
def escaped (e : UInt8) (s : Bytes) : Bool :=
  e ∈ ascii "\"\\/bfnrt" || e = 117 && 4 ≤ s.length && (s.take 4).all isHex

/-- The rest of a string and what follows its last quote; `esc` behind a backslash. -/
def stringFrom (esc : Bool) : Bytes → Option (Bytes × Bytes)
  | [] => none
  | c :: s =>
    if esc then
      if escaped c s then (stringFrom false s).map fun r => (c :: r.1, r.2) else none
    else if c = 34 then some ([], s)
    else if c < 32 then none
    else (stringFrom (c = 92) s).map fun r => (c :: r.1, r.2)

/-- The string behind its first quote. -/
def string (s : Bytes) : Option (Bytes × Bytes) := stringFrom false s

def digits (s : Bytes) : Option (Bytes × Bytes) :=
  if s.takeWhile isDigit = [] then none else some (s.takeWhile isDigit, s.dropWhile isDigit)

/-- An optional byte. -/
def optional (p : UInt8 → Bool) : Bytes → Bytes × Bytes
  | [] => ([], [])
  | c :: s => if p c then ([c], s) else ([], c :: s)

def intPart (s : Bytes) : Option (Bytes × Bytes) :=
  if s.head? = some 48 then some ([48], s.tail) else digits s

/-- Digits behind what announces them, which may be missing. -/
def announced (p q : UInt8 → Bool) (s : Bytes) : Option (Bytes × Bytes) :=
  let mark := optional p s
  if mark.1 = [] then some ([], s)
  else
    let sign := optional q mark.2
    (digits sign.2).map fun d => (mark.1 ++ sign.1 ++ d.1, d.2)

def number (s : Bytes) : Option (Bytes × Bytes) := do
  let sign := optional (· = 45) s
  let i ← intPart sign.2
  let f ← announced (· = 46) (fun _ => false) i.2
  let e ← announced (fun c => c = 101 || c = 69) (fun c => c = 43 || c = 45) f.2
  pure (sign.1 ++ i.1 ++ f.1 ++ e.1, e.2)

def word (w s : Bytes) : Option (Bytes × Bytes) :=
  if w.isPrefixOf s then some (w, s.drop w.length) else none

def literal (s : Bytes) : Option (Bytes × Bytes) :=
  if s.head? = some 116 then word (ascii "true") s
  else if s.head? = some 102 then word (ascii "false") s
  else if s.head? = some 110 then word (ascii "null") s
  else number s

/-- The byte behind the blanks is `c`. -/
def expect (c : UInt8) (s : Bytes) : Option Bytes :=
  if (skip s).head? = some c then some (skip s).tail else none

/-- The name of a member, up to its colon. -/
def name (s : Bytes) : Option (Bytes × Bytes) := do
  let s ← expect 34 s
  let k ← string s
  let s ← expect 58 k.2
  pure (k.1, s)

mutual

def value : Nat → Bytes → Option (Value × Bytes)
  | 0, _ => none
  | n + 1, s =>
    match skip s with
    | [] => none
    | c :: s =>
      if c = 34 then (string s).map fun r => (.str r.1, r.2)
      else if c = 91 then
        match expect 93 s with
        | some s => some (.arr [], s)
        | none => (elements n s).map fun r => (.arr r.1, r.2)
      else if c = 123 then
        match expect 125 s with
        | some s => some (.obj [], s)
        | none => (members n s).map fun r => (.obj r.1, r.2)
      else (literal (c :: s)).map fun r => (.lit r.1, r.2)

def elements : Nat → Bytes → Option (List Value × Bytes)
  | 0, _ => none
  | n + 1, s => do
    let v ← value n s
    match expect 93 v.2 with
    | some s => some ([v.1], s)
    | none => do
      let s ← expect 44 v.2
      let r ← elements n s
      pure (v.1 :: r.1, r.2)

def members : Nat → Bytes → Option (List (Bytes × Value) × Bytes)
  | 0, _ => none
  | n + 1, s => do
    let k ← name s
    let v ← value n k.2
    match expect 125 v.2 with
    | some s => some ([(k.1, v.1)], s)
    | none => do
      let s ← expect 44 v.2
      let r ← members n s
      pure ((k.1, v.1) :: r.1, r.2)

end

/-- The value of a JSON text; none where the text is not one. -/
def parse (s : Bytes) : Option Value :=
  match value (2 * s.length + 1) s with
  | some (v, rest) => if skip rest = [] then some v else none
  | none => none

end Reader

section Render

mutual

/-- The text of a value without blanks. -/
def Value.render : Value → Bytes
  | .lit raw => raw
  | .str raw => 34 :: (raw ++ [34])
  | .arr vs => 91 :: (renderElements vs ++ [93])
  | .obj ms => 123 :: (renderMembers ms ++ [125])

def renderElements : List Value → Bytes
  | [] => []
  | [v] => v.render
  | v :: w :: vs => v.render ++ 44 :: renderElements (w :: vs)

def renderMembers : List (Bytes × Value) → Bytes
  | [] => []
  | [(k, v)] => 34 :: (k ++ 34 :: 58 :: v.render)
  | (k, v) :: m :: ms => 34 :: (k ++ 34 :: 58 :: (v.render ++ 44 :: renderMembers (m :: ms)))

end

mutual

/-- Every literal and every string, names included, has its property. -/
def Value.All (lits strs : Bytes → Prop) : Value → Prop
  | .lit raw => lits raw
  | .str raw => strs raw
  | .arr vs => allElements lits strs vs
  | .obj ms => allMembers lits strs ms

def allElements (lits strs : Bytes → Prop) : List Value → Prop
  | [] => True
  | v :: vs => v.All lits strs ∧ allElements lits strs vs

def allMembers (lits strs : Bytes → Prop) : List (Bytes × Value) → Prop
  | [] => True
  | (k, v) :: ms => strs k ∧ v.All lits strs ∧ allMembers lits strs ms

end

mutual

/-- The depth of the recursion that reads a value. -/
def Value.need : Value → Nat
  | .lit _ => 1
  | .str _ => 1
  | .arr vs => needElements vs + 1
  | .obj ms => needMembers ms + 1

def needElements : List Value → Nat
  | [] => 0
  | v :: vs => max v.need (needElements vs) + 1

def needMembers : List (Bytes × Value) → Nat
  | [] => 0
  | (_, v) :: ms => max v.need (needMembers ms) + 1

end

end Render

def EscapeFree (raw : Bytes) : Prop := ∀ c ∈ raw, c ≠ 34 ∧ c ≠ 92

def Printable (raw : Bytes) : Prop := ∀ c ∈ raw, 32 ≤ c

/-- What follows does not belong to a number. -/
def Ends (s : Bytes) : Prop :=
  ∀ c t, s = c :: t → isDigit c = false ∧ c ≠ 46 ∧ c ≠ 101 ∧ c ≠ 69

def IsLiteral (raw : Bytes) : Prop := ∀ rest, Ends rest → literal (raw ++ rest) = some (raw, rest)

/-- The strings have no escapes. -/
abbrev Value.Plain (v : Value) : Prop := v.All IsLiteral EscapeFree

/-- The strings have no control characters. -/
abbrev Value.Legible (v : Value) : Prop := v.All (fun _ => True) Printable

section Tokens

variable {raw rest ds s : Bytes} {c : UInt8} {r : Bytes × Bytes}

theorem stringFrom_cons (h : c ≠ 34 ∧ c ≠ 92) :
    stringFrom false (c :: s) =
      if c < 32 then none else (stringFrom false s).map fun r => (c :: r.1, r.2) := by
  rw [stringFrom, if_neg Bool.false_ne_true, if_neg h.1, decide_eq_false h.2]

theorem string_legible (h : EscapeFree raw) (hp : Printable raw) :
    string (raw ++ 34 :: rest) = some (raw, rest) := by
  induction raw with
  | nil => rfl
  | cons c raw ih =>
    have hrest := ih (fun d hd => h d (List.mem_cons_of_mem c hd))
      fun d hd => hp d (List.mem_cons_of_mem c hd)
    rw [string] at hrest ⊢
    rw [List.cons_append, stringFrom_cons (h c List.mem_cons_self),
      if_neg (UInt8.not_lt.2 (hp c List.mem_cons_self)), hrest]
    rfl

/-- A string that is read at all is the one written. -/
theorem string_some (h : EscapeFree raw) (hr : string (raw ++ 34 :: rest) = some r) :
    r = (raw, rest) ∧ Printable raw := by
  induction raw generalizing r with
  | nil => exact ⟨(Option.some.inj hr).symm, nofun⟩
  | cons c raw ih =>
    rw [string, List.cons_append, stringFrom_cons (h c List.mem_cons_self)] at hr
    split at hr
    · cases hr
    rename_i hprint
    obtain ⟨q, hq, rfl⟩ := Option.map_eq_some_iff.1 hr
    obtain ⟨rfl, hraw⟩ := ih (fun d hd => h d (List.mem_cons_of_mem c hd)) hq
    exact ⟨rfl, List.forall_mem_cons.2 ⟨UInt8.not_lt.1 hprint, hraw⟩⟩

theorem Ends.cons (h : isDigit c = false ∧ c ≠ 46 ∧ c ≠ 101 ∧ c ≠ 69) : Ends (c :: s) := by
  rintro d t heq
  obtain ⟨rfl, -⟩ := List.cons.inj heq
  exact h

theorem digits_eq (hds : ∀ c ∈ ds, isDigit c = true) (hne : ds ≠ []) (h : Ends rest) :
    digits (ds ++ rest) = some (ds, rest) := by
  have htake : rest.takeWhile isDigit = [] := by
    cases rest with
    | nil => rfl
    | cons c t => exact List.takeWhile_cons_of_neg (by simp [(h c t rfl).1])
  have hdrop : rest.dropWhile isDigit = rest := by
    cases rest with
    | nil => rfl
    | cons c t => exact List.dropWhile_cons_of_neg (by simp [(h c t rfl).1])
  rw [digits, List.takeWhile_append_of_pos hds, List.dropWhile_append_of_pos hds, htake, hdrop,
    List.append_nil, if_neg hne]

theorem announced_end {p q : UInt8 → Bool} (h : ∀ c t, s = c :: t → p c = false) :
    announced p q s = some ([], s) := by
  cases s with
  | nil => rfl
  | cons c t => simp [announced, optional, h c t rfl]

/-- What follows the digits of a whole number. -/
theorem number_rest (h : Ends rest) (sign : Bytes) {i : Bytes}
    (hsign : optional (· = 45) s = (sign, i ++ rest)) (hi : intPart (i ++ rest) = some (i, rest)) :
    number s = some (sign ++ i, rest) := by
  have hfrac : announced (· = 46) (fun _ => false) rest = some ([], rest) :=
    announced_end fun c t heq => by simp [(h c t heq).2.1]
  have hexp : announced (fun c => c = 101 || c = 69) (fun c => c = 43 || c = 45) rest =
      some ([], rest) :=
    announced_end fun c t heq => by simp [(h c t heq).2.2]
  simp [number, hsign, hi, hfrac, hexp]

theorem intPart_decimalNat (n : Nat) (h : Ends rest) :
    intPart (decimalNat n ++ rest) = some (decimalNat n, rest) := by
  by_cases hzero : n = 0
  · subst hzero
    rfl
  · have hne : Nat.digits 10 n ≠ [] := Nat.digits_ne_nil_iff_ne_zero.2 hzero
    have heq : decimalNat n = (Nat.digits 10 n).reverse.map fun d => (48 + d).toUInt8 := by
      rw [decimalNat, if_neg hzero]
    have hhead : (decimalNat n ++ rest).head? ≠ some 48 := by
      rw [List.head?_append, heq, List.head?_map, List.head?_reverse,
        List.getLast?_eq_some_getLast hne]
      intro hbad
      have hdigit := (digit_byte (Nat.digits_lt_base (by decide) (List.getLast_mem hne))).2
      have hzero : (48 + (Nat.digits 10 n).getLast hne).toUInt8 = 48 := Option.some.inj hbad
      rw [hzero] at hdigit
      exact Nat.getLast_digit_ne_zero 10 ‹n ≠ 0› hdigit.symm
    rw [intPart, if_neg hhead]
    exact digits_eq (decimalNat_digits n) (decimalNat_ne_nil n) h

theorem decimal_literal (n : Int) : IsLiteral (decimal n) := by
  intro rest h
  rw [decimal]
  split
  · rw [List.cons_append, literal, if_neg (by simp), if_neg (by simp), if_neg (by simp)]
    exact number_rest h [45] rfl (intPart_decimalNat _ h)
  · obtain ⟨c, t, heq⟩ := List.exists_cons_of_ne_nil (decimalNat_ne_nil n.natAbs)
    have hdigit : isDigit c = true := decimalNat_digits n.natAbs c (heq ▸ List.mem_cons_self)
    have hne (b : UInt8) (hb : isDigit b = false) : (decimalNat n.natAbs ++ rest).head? ≠ some b := by
      rw [heq]
      rintro hbad
      rw [← Option.some.inj hbad, hdigit] at hb
      cases hb
    rw [literal, if_neg (hne 116 (by decide)), if_neg (hne 102 (by decide)),
      if_neg (hne 110 (by decide))]
    have hsign : optional (· = 45) (decimalNat n.natAbs ++ rest) =
        ([], decimalNat n.natAbs ++ rest) := by
      rw [heq, List.cons_append]
      exact if_neg (by simpa using (digit_plain hdigit).2.1)
    exact number_rest h [] hsign (intPart_decimalNat n.natAbs h)

end Tokens

section Steps

variable {n : Nat} {c d : UInt8} {s t raw rest : Bytes} {v : Value}

theorem skip_cons (h : isBlank c = false) : skip (c :: s) = c :: s :=
  List.dropWhile_cons_of_neg (by simp [h])

theorem expect_self (h : isBlank c = false) : expect c (c :: s) = some s := by
  rw [expect, skip_cons h]
  exact if_pos rfl

theorem expect_ne (h : isBlank d = false) (hne : d ≠ c) : expect c (d :: s) = none := by
  rw [expect, skip_cons h]
  exact if_neg fun heq => hne (Option.some.inj heq)

theorem value_str : value (n + 1) (34 :: s) = (string s).map fun r => (.str r.1, r.2) := rfl

theorem value_lit (h : isBlank c = false) (hne : c ≠ 34 ∧ c ≠ 91 ∧ c ≠ 123) :
    value (n + 1) (c :: s) = (literal (c :: s)).map fun r => (.lit r.1, r.2) := by
  rw [value, skip_cons h]
  dsimp only
  rw [if_neg hne.1, if_neg hne.2.1, if_neg hne.2.2]

theorem value_arr (h : isBlank c = false) (hne : c ≠ 93) :
    value (n + 1) (91 :: c :: s) = (elements n (c :: s)).map fun r => (.arr r.1, r.2) := by
  rw [value, skip_cons (by decide)]
  dsimp only
  rw [if_neg (by decide), if_pos rfl, expect_ne h hne]

theorem value_obj (h : isBlank c = false) (hne : c ≠ 125) :
    value (n + 1) (123 :: c :: s) = (members n (c :: s)).map fun r => (.obj r.1, r.2) := by
  rw [value, skip_cons (by decide)]
  dsimp only
  rw [if_neg (by decide), if_neg (by decide), if_pos rfl, expect_ne h hne]

theorem elements_none (h : value n s = none) : elements (n + 1) s = none := by
  rw [elements, h]
  rfl

theorem elements_last (h : value n s = some (v, 93 :: t)) :
    elements (n + 1) s = some ([v], t) := by
  rw [elements, h]
  rfl

theorem elements_more (h : value n s = some (v, 44 :: t)) :
    elements (n + 1) s = (elements n t).map fun r => (v :: r.1, r.2) := by
  rw [elements, h]
  change (elements n t).bind _ = _
  cases elements n t <;> rfl

/-- What follows an element is neither a comma nor the end. -/
theorem elements_stray (h : value n s = some (v, c :: t)) (hblank : isBlank c = false)
    (hne : c ≠ 93 ∧ c ≠ 44) : elements (n + 1) s = none := by
  rw [elements, h]
  change (match expect 93 (c :: t) with
    | some s => some ([v], s)
    | none => (expect 44 (c :: t)).bind fun s => (elements n s).bind fun r => some (v :: r.1, r.2)) = none
  rw [expect_ne hblank hne.1, expect_ne hblank hne.2]
  rfl

theorem name_legible (h : EscapeFree raw) (hp : Printable raw) :
    name (34 :: (raw ++ 34 :: 58 :: s)) = some (raw, s) := by
  rw [name, expect_self (by decide)]
  change (string (raw ++ 34 :: 58 :: s)).bind _ = _
  rw [string_legible h hp]
  rfl

theorem name_some (h : EscapeFree raw) {r : Bytes × Bytes}
    (hr : name (34 :: (raw ++ 34 :: 58 :: s)) = some r) : r = (raw, s) ∧ Printable raw := by
  rw [name, expect_self (by decide)] at hr
  change (string (raw ++ 34 :: 58 :: s)).bind _ = some r at hr
  obtain ⟨k, hk, hr⟩ := Option.bind_eq_some_iff.1 hr
  obtain ⟨rfl, hraw⟩ := string_some h hk
  exact ⟨(Option.some.inj hr).symm, hraw⟩

theorem members_none (h : ∀ k t, name s = some (k, t) → value n t = none) :
    members (n + 1) s = none := by
  rw [members]
  cases hk : name s with
  | none => rfl
  | some k =>
    change (value n k.2).bind _ = none
    rw [h k.1 k.2 hk]
    rfl

theorem members_last (hk : name s = some (raw, t)) (h : value n t = some (v, 125 :: rest)) :
    members (n + 1) s = some ([(raw, v)], rest) := by
  rw [members, hk]
  change (value n t).bind _ = _
  rw [h]
  rfl

theorem members_more (hk : name s = some (raw, t)) (h : value n t = some (v, 44 :: rest)) :
    members (n + 1) s = (members n rest).map fun r => ((raw, v) :: r.1, r.2) := by
  rw [members, hk]
  change (value n t).bind _ = _
  rw [h]
  change (members n rest).bind _ = _
  cases members n rest <;> rfl

/-- No literal begins with another byte. -/
theorem literal_none (hdigit : isDigit c = false) (hne : c ≠ 45 ∧ c ≠ 116 ∧ c ≠ 102 ∧ c ≠ 110) :
    literal (c :: s) = none := by
  have hhead (b : UInt8) (hb : c ≠ b) : (c :: s).head? ≠ some b := fun h => hb (Option.some.inj h)
  have hzero : c ≠ 48 := by
    rintro rfl
    cases hdigit
  have hsign : optional (· = 45) (c :: s) = ([], c :: s) := if_neg (by simpa using hne.1)
  have hint : intPart (c :: s) = none := by
    rw [intPart, if_neg (hhead 48 hzero), digits, List.takeWhile_cons_of_neg (by simp [hdigit]),
      if_pos rfl]
  rw [literal, if_neg (hhead 116 hne.2.1), if_neg (hhead 102 hne.2.2.1),
    if_neg (hhead 110 hne.2.2.2), number, hsign, hint]
  rfl

/-- The first byte of a value. -/
def Starts (c : UInt8) : Prop := isBlank c = false ∧ c ≠ 93 ∧ c ≠ 44

theorem IsLiteral.head (h : IsLiteral raw) :
    ∃ c s, raw = c :: s ∧ Starts c ∧ c ≠ 34 ∧ c ≠ 91 ∧ c ≠ 123 := by
  have hread := h [] nofun
  rw [List.append_nil] at hread
  cases raw with
  | nil => cases hread
  | cons c s =>
    refine ⟨c, s, rfl, ?_⟩
    by_contra hbad
    have hnone (b : UInt8) (hb : c = b) (hdigit : isDigit b = false)
        (hne : b ≠ 45 ∧ b ≠ 116 ∧ b ≠ 102 ∧ b ≠ 110) : False := by
      subst hb
      rw [literal_none hdigit hne] at hread
      cases hread
    apply hbad
    refine ⟨⟨?_, fun hb => hnone 93 hb (by decide) (by decide),
      fun hb => hnone 44 hb (by decide) (by decide)⟩, fun hb => hnone 34 hb (by decide) (by decide),
      fun hb => hnone 91 hb (by decide) (by decide), fun hb => hnone 123 hb (by decide) (by decide)⟩
    by_contra hblank
    simp only [isBlank, Bool.not_eq_false, Bool.or_eq_true, decide_eq_true_eq] at hblank
    rcases hblank with ((hb | hb) | hb) | hb
    · exact hnone 32 hb (by decide) (by decide)
    · exact hnone 9 hb (by decide) (by decide)
    · exact hnone 10 hb (by decide) (by decide)
    · exact hnone 13 hb (by decide) (by decide)

theorem Value.Plain.head {v : Value} (h : v.Plain) : ∃ c s, v.render = c :: s ∧ Starts c := by
  cases v with
  | lit raw =>
    rw [Value.Plain, Value.All] at h
    obtain ⟨c, s, hraw, hc, -⟩ := h.head
    exact ⟨c, s, by rw [Value.render, hraw], hc⟩
  | str raw => exact ⟨34, _, by rw [Value.render], by decide, by decide, by decide⟩
  | arr vs => exact ⟨91, _, by rw [Value.render], by decide, by decide, by decide⟩
  | obj ms => exact ⟨123, _, by rw [Value.render], by decide, by decide, by decide⟩

end Steps

section RoundTrip

theorem ends_nil : Ends [] := fun _ _ h => nomatch h

theorem ends_comma (s : Bytes) : Ends (44 :: s) := Ends.cons (by decide)

theorem ends_bracket (s : Bytes) : Ends (93 :: s) := Ends.cons (by decide)

theorem ends_brace (s : Bytes) : Ends (125 :: s) := Ends.cons (by decide)

theorem elements_head {v : Value} (h : v.Plain) (vs : List Value) (s : Bytes) :
    ∃ c t, renderElements (v :: vs) ++ s = c :: t ∧ Starts c := by
  obtain ⟨c, t, hv, hc⟩ := h.head
  cases vs with
  | nil => exact ⟨c, t ++ s, by rw [renderElements, hv, List.cons_append], hc⟩
  | cons w vs =>
    exact ⟨c, _, by rw [renderElements, hv, List.cons_append, List.cons_append], hc⟩

theorem members_head (k : Bytes) (v : Value) (ms : List (Bytes × Value)) :
    ∃ t, renderMembers ((k, v) :: ms) = 34 :: t := by
  cases ms with
  | nil => exact ⟨_, by rw [renderMembers]⟩
  | cons m ms => exact ⟨_, by rw [renderMembers]⟩

mutual

/-- A legible value is read back from its text. -/
theorem value_render : ∀ (v : Value) {n : Nat} {rest : Bytes}, v.Plain → v.Legible →
    v.need ≤ n → Ends rest → value n (v.render ++ rest) = some (v, rest)
  | .lit raw, n + 1, rest, hp, _, _, hrest => by
    rw [Value.Plain, Value.All] at hp
    obtain ⟨c, s, rfl, hc, hne⟩ := hp.head
    rw [Value.render, List.cons_append, value_lit hc.1 hne, ← List.cons_append, hp rest hrest]
    rfl
  | .str raw, n + 1, rest, hp, hl, _, _ => by
    rw [Value.render, List.cons_append, List.append_assoc, value_str, List.cons_append,
      List.nil_append, string_legible hp hl]
    rfl
  | .arr [], n + 1, rest, _, _, _, _ => by rw [Value.render, renderElements]; rfl
  | .arr (v :: vs), n + 1, rest, hp, hl, hn, _ => by
    have hread := @elements_render v vs _ rest hp hl (Nat.le_of_succ_le_succ hn)
    obtain ⟨c, t, hhead, hc⟩ := elements_head hp.1 vs (93 :: rest)
    rw [Value.render, List.cons_append, List.append_assoc, List.singleton_append]
    rw [hhead] at hread ⊢
    rw [value_arr hc.1 hc.2.1, hread]
    rfl
  | .obj [], n + 1, rest, _, _, _, _ => by rw [Value.render, renderMembers]; rfl
  | .obj ((k, v) :: ms), n + 1, rest, hp, hl, hn, _ => by
    have hread := @members_render k v ms _ rest hp hl (Nat.le_of_succ_le_succ hn)
    obtain ⟨t, hhead⟩ := members_head k v ms
    rw [Value.render, List.cons_append, List.append_assoc, List.singleton_append]
    rw [hhead, List.cons_append] at hread ⊢
    rw [value_obj (by decide) (by decide), hread]
    rfl

theorem elements_render : ∀ (v : Value) (vs : List Value) {n : Nat} {rest : Bytes},
    allElements IsLiteral EscapeFree (v :: vs) → allElements (fun _ => True) Printable (v :: vs) →
    needElements (v :: vs) ≤ n →
    elements n (renderElements (v :: vs) ++ 93 :: rest) = some (v :: vs, rest)
  | v, [], n + 1, rest, hp, hl, hn => by
    rw [needElements] at hn
    rw [renderElements]
    exact elements_last (value_render v hp.1 hl.1 (by omega) (ends_bracket rest))
  | v, w :: vs, n + 1, rest, hp, hl, hn => by
    rw [needElements] at hn
    have hv := value_render v (n := n) hp.1 hl.1 (by omega)
      (ends_comma (renderElements (w :: vs) ++ 93 :: rest))
    rw [renderElements, List.append_assoc, List.cons_append, elements_more hv,
      elements_render w vs hp.2 hl.2 (by omega)]
    rfl

theorem members_render : ∀ (k : Bytes) (v : Value) (ms : List (Bytes × Value)) {n : Nat}
    {rest : Bytes}, allMembers IsLiteral EscapeFree ((k, v) :: ms) →
    allMembers (fun _ => True) Printable ((k, v) :: ms) → needMembers ((k, v) :: ms) ≤ n →
    members n (renderMembers ((k, v) :: ms) ++ 125 :: rest) = some ((k, v) :: ms, rest)
  | k, v, [], n + 1, rest, hp, hl, hn => by
    rw [needMembers] at hn
    rw [renderMembers, List.cons_append, List.append_assoc]
    exact members_last (name_legible hp.1 hl.1)
      (value_render v hp.2.1 hl.2.1 (by omega) (ends_brace rest))
  | k, v, (l, w) :: ms, n + 1, rest, hp, hl, hn => by
    rw [needMembers] at hn
    have hv := value_render v (n := n) hp.2.1 hl.2.1 (by omega)
      (ends_comma (renderMembers ((l, w) :: ms) ++ 125 :: rest))
    have hk := name_legible (s := v.render ++ 44 :: (renderMembers ((l, w) :: ms) ++ 125 :: rest))
      hp.1 hl.1
    have htext : renderMembers ((k, v) :: (l, w) :: ms) ++ 125 :: rest =
        34 :: (k ++ 34 :: 58 ::
          (v.render ++ 44 :: (renderMembers ((l, w) :: ms) ++ 125 :: rest))) := by
      rw [renderMembers]
      simp only [List.cons_append, List.append_assoc]
    rw [htext, members_more hk hv, members_render l w ms hp.2.2 hl.2.2 (by omega)]
    rfl

end

mutual

/-- What is read at the text of a value is that value, which then is legible. -/
theorem value_some : ∀ (v : Value) {n : Nat} {rest : Bytes} {r : Value × Bytes}, v.Plain →
    Ends rest → value n (v.render ++ rest) = some r → r = (v, rest) ∧ v.Legible
  | .lit raw, n + 1, rest, r, hp, hrest, hr => by
    rw [Value.Plain, Value.All] at hp
    obtain ⟨c, s, rfl, hc, hne⟩ := hp.head
    rw [Value.render, List.cons_append, value_lit hc.1 hne, ← List.cons_append,
      hp rest hrest] at hr
    exact ⟨(Option.some.inj hr).symm, trivial⟩
  | .str raw, n + 1, rest, r, hp, _, hr => by
    rw [Value.render, List.cons_append, List.append_assoc, value_str, List.cons_append,
      List.nil_append] at hr
    obtain ⟨q, hq, rfl⟩ := Option.map_eq_some_iff.1 hr
    obtain ⟨rfl, hraw⟩ := string_some hp hq
    exact ⟨rfl, hraw⟩
  | .arr [], n + 1, rest, r, _, _, hr => by
    rw [Value.render, renderElements] at hr
    exact ⟨(Option.some.inj hr).symm, trivial⟩
  | .arr (v :: vs), n + 1, rest, r, hp, _, hr => by
    obtain ⟨c, t, hhead, hc⟩ := elements_head hp.1 vs (93 :: rest)
    rw [Value.render, List.cons_append, List.append_assoc, List.singleton_append, hhead,
      value_arr hc.1 hc.2.1, ← hhead] at hr
    obtain ⟨q, hq, rfl⟩ := Option.map_eq_some_iff.1 hr
    obtain ⟨rfl, hvs⟩ := elements_some v vs hp hq
    exact ⟨rfl, hvs⟩
  | .obj [], n + 1, rest, r, _, _, hr => by
    rw [Value.render, renderMembers] at hr
    exact ⟨(Option.some.inj hr).symm, trivial⟩
  | .obj ((k, v) :: ms), n + 1, rest, r, hp, _, hr => by
    obtain ⟨t, hhead⟩ := members_head k v ms
    rw [Value.render, List.cons_append, List.append_assoc, List.singleton_append, hhead,
      List.cons_append, value_obj (by decide) (by decide), ← List.cons_append, ← hhead] at hr
    obtain ⟨q, hq, rfl⟩ := Option.map_eq_some_iff.1 hr
    obtain ⟨rfl, hms⟩ := members_some k v ms hp hq
    exact ⟨rfl, hms⟩

theorem elements_some : ∀ (v : Value) (vs : List Value) {n : Nat} {rest : Bytes}
    {r : List Value × Bytes}, allElements IsLiteral EscapeFree (v :: vs) →
    elements n (renderElements (v :: vs) ++ 93 :: rest) = some r →
    r = (v :: vs, rest) ∧ allElements (fun _ => True) Printable (v :: vs)
  | v, [], n + 1, rest, r, hp, hr => by
    rw [renderElements] at hr
    cases hv : value n (v.render ++ 93 :: rest) with
    | none =>
      rw [elements_none hv] at hr
      cases hr
    | some q =>
      obtain ⟨rfl, hl⟩ := value_some v hp.1 (ends_bracket rest) hv
      rw [elements_last hv] at hr
      exact ⟨(Option.some.inj hr).symm, hl, trivial⟩
  | v, w :: vs, n + 1, rest, r, hp, hr => by
    rw [renderElements, List.append_assoc, List.cons_append] at hr
    cases hv : value n (v.render ++ 44 :: (renderElements (w :: vs) ++ 93 :: rest)) with
    | none =>
      rw [elements_none hv] at hr
      cases hr
    | some q =>
      obtain ⟨rfl, hl⟩ := value_some v hp.1 (ends_comma _) hv
      rw [elements_more hv] at hr
      obtain ⟨q, hq, rfl⟩ := Option.map_eq_some_iff.1 hr
      obtain ⟨rfl, hvs⟩ := elements_some w vs hp.2 hq
      exact ⟨rfl, hl, hvs⟩

theorem members_some : ∀ (k : Bytes) (v : Value) (ms : List (Bytes × Value)) {n : Nat}
    {rest : Bytes} {r : List (Bytes × Value) × Bytes},
    allMembers IsLiteral EscapeFree ((k, v) :: ms) →
    members n (renderMembers ((k, v) :: ms) ++ 125 :: rest) = some r →
    r = ((k, v) :: ms, rest) ∧ allMembers (fun _ => True) Printable ((k, v) :: ms)
  | k, v, [], n + 1, rest, r, hp, hr => by
    rw [renderMembers, List.cons_append, List.append_assoc] at hr
    have hread : members (n + 1) (34 :: (k ++ 34 :: 58 :: (v.render ++ 125 :: rest))) = some r := hr
    cases hk : name (34 :: (k ++ 34 :: 58 :: (v.render ++ 125 :: rest))) with
    | none =>
      rw [members_none fun _ _ h => by rw [hk] at h; cases h] at hread
      cases hread
    | some q =>
      obtain ⟨rfl, hkl⟩ := name_some hp.1 hk
      cases hv : value n (v.render ++ 125 :: rest) with
      | none =>
        rw [members_none fun _ _ h => by rw [hk] at h; cases h; exact hv] at hread
        cases hread
      | some q =>
        obtain ⟨rfl, hl⟩ := value_some v hp.2.1 (ends_brace rest) hv
        rw [members_last hk hv] at hread
        exact ⟨(Option.some.inj hread).symm, hkl, hl, trivial⟩
  | k, v, (l, w) :: ms, n + 1, rest, r, hp, hr => by
    have htext : renderMembers ((k, v) :: (l, w) :: ms) ++ 125 :: rest =
        34 :: (k ++ 34 :: 58 ::
          (v.render ++ 44 :: (renderMembers ((l, w) :: ms) ++ 125 :: rest))) := by
      rw [renderMembers]
      simp only [List.cons_append, List.append_assoc]
    rw [htext] at hr
    generalize htail : renderMembers ((l, w) :: ms) ++ 125 :: rest = tail at hr
    cases hk : name (34 :: (k ++ 34 :: 58 :: (v.render ++ 44 :: tail))) with
    | none =>
      rw [members_none fun _ _ h => by rw [hk] at h; cases h] at hr
      cases hr
    | some q =>
      obtain ⟨rfl, hkl⟩ := name_some hp.1 hk
      cases hv : value n (v.render ++ 44 :: tail) with
      | none =>
        rw [members_none fun _ _ h => by rw [hk] at h; cases h; exact hv] at hr
        cases hr
      | some q =>
        obtain ⟨rfl, hl⟩ := value_some v hp.2.1 (ends_comma tail) hv
        rw [members_more hk hv] at hr
        obtain ⟨q, hq, rfl⟩ := Option.map_eq_some_iff.1 hr
        obtain ⟨rfl, hms⟩ := members_some l w ms hp.2.2 (htail ▸ hq)
        exact ⟨rfl, hkl, hl, hms⟩

end

mutual

theorem need_le : ∀ v : Value, v.Plain → v.need ≤ 2 * v.render.length
  | .lit raw, h => by
    rw [Value.Plain, Value.All] at h
    obtain ⟨c, s, rfl, -⟩ := h.head
    rw [Value.need, Value.render, List.length_cons]
    omega
  | .str raw, _ => by
    rw [Value.need, Value.render, List.length_cons]
    omega
  | .arr vs, h => by
    have hvs := needElements_le vs h
    rw [Value.need, Value.render, List.length_cons, List.length_append]
    omega
  | .obj ms, h => by
    have hms := needMembers_le ms h
    rw [Value.need, Value.render, List.length_cons, List.length_append]
    omega

theorem needElements_le : ∀ vs : List Value, allElements IsLiteral EscapeFree vs →
    needElements vs ≤ 2 * (renderElements vs).length + 1
  | [], _ => Nat.zero_le _
  | [v], h => by
    have hv := need_le v h.1
    rw [needElements, needElements, renderElements]
    omega
  | v :: w :: vs, h => by
    have hv := need_le v h.1
    have hvs := needElements_le (w :: vs) h.2
    rw [needElements, renderElements, List.length_append, List.length_cons]
    omega

theorem needMembers_le : ∀ ms : List (Bytes × Value), allMembers IsLiteral EscapeFree ms →
    needMembers ms ≤ 2 * (renderMembers ms).length + 1
  | [], _ => Nat.zero_le _
  | [(k, v)], h => by
    have hv := need_le v h.2.1
    rw [needMembers, needMembers, renderMembers]
    simp only [List.length_cons, List.length_append]
    omega
  | (k, v) :: m :: ms, h => by
    have hv := need_le v h.2.1
    have hms := needMembers_le (m :: ms) h.2.2
    rw [needMembers, renderMembers]
    simp only [List.length_cons, List.length_append]
    omega

end

variable {v w : Value}

theorem parse_render (hp : v.Plain) (hl : v.Legible) : parse v.render = some v := by
  have hneed := need_le v hp
  have hread := @value_render v (2 * v.render.length + 1) [] hp hl (by omega) ends_nil
  rw [List.append_nil] at hread
  rw [parse, hread]
  rfl

theorem parse_some (hp : v.Plain) (h : parse v.render = some w) : w = v ∧ v.Legible := by
  have hsome {n : Nat} {r : Value × Bytes} (hr : value n v.render = some r) :
      r = (v, []) ∧ v.Legible :=
    value_some v hp ends_nil (by rwa [List.append_nil])
  rw [parse] at h
  cases hread : value (2 * v.render.length + 1) v.render with
  | none =>
    rw [hread] at h
    cases h
  | some r =>
    obtain ⟨rfl, hl⟩ := hsome hread
    rw [hread] at h
    exact ⟨(Option.some.inj h).symm, hl⟩

end RoundTrip

section Refused

variable {c : UInt8} {s k : Bytes} {v : Value}

theorem elements_stuck (hv : v.Plain) (hc : Starts c) (he : Ends (c :: s)) (n : Nat) :
    elements n (v.render ++ c :: s) = none := by
  cases n with
  | zero => rfl
  | succ n =>
    cases hread : value n (v.render ++ c :: s) with
    | none => exact elements_none hread
    | some r =>
      obtain ⟨rfl, -⟩ := value_some v hv he hread
      exact elements_stray hread hc.1 hc.2

theorem value_arr_stuck (hc : Starts c) (h : ∀ n, elements n (c :: s) = none) (n : Nat) :
    value n (91 :: c :: s) = none := by
  cases n with
  | zero => rfl
  | succ n => rw [value_arr hc.1 hc.2.1, h n, Option.map_none]

theorem value_obj_stuck (h : ∀ n, members n (34 :: s) = none) (n : Nat) :
    value n (123 :: 34 :: s) = none := by
  cases n with
  | zero => rfl
  | succ n => rw [value_obj (by decide) (by decide), h n, Option.map_none]

theorem members_stuck (hk : EscapeFree k) (h : ∀ n, value n s = none) (n : Nat) :
    members n (34 :: (k ++ 34 :: 58 :: s)) = none := by
  cases n with
  | zero => rfl
  | succ n =>
    apply members_none
    intro l t hname
    obtain ⟨heq, -⟩ := name_some hk hname
    rw [(Prod.mk.inj heq).2]
    exact h n

theorem members_stuck_later (hk : EscapeFree k) (hv : v.Plain) (h : ∀ n, members n s = none)
    (n : Nat) : members n (34 :: (k ++ 34 :: 58 :: (v.render ++ 44 :: s))) = none := by
  cases n with
  | zero => rfl
  | succ n =>
    cases hname : name (34 :: (k ++ 34 :: 58 :: (v.render ++ 44 :: s))) with
    | none => exact members_none fun l t hl => by rw [hname] at hl; cases hl
    | some q =>
      obtain ⟨rfl, -⟩ := name_some hk hname
      cases hread : value n (v.render ++ 44 :: s) with
      | none => exact members_none fun l t hl => by rw [hname] at hl; cases hl; exact hread
      | some r =>
        obtain ⟨rfl, -⟩ := value_some v hv (ends_comma s) hread
        rw [members_more hname hread, h n, Option.map_none]

theorem parse_stuck (h : ∀ n, value n s = none) : parse s = none := by
  rw [parse, h]

end Refused

example : (parse (ascii "\x7b\"a\": [1, -2.5e3]\x7d")).map Value.render =
    some (ascii "\x7b\"a\":[1,-2.5e3]\x7d") := by decide +kernel

end Doorhinges.Lib.Json

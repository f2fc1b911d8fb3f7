import Doorhinges.JsonC.Safe
import Doorhinges.Lib.Decimal

/-!
# What the tokener makes of words, numbers and strings

A run of the tokener over a text, turn by turn, and its runs over the texts of values without
members and elements, as they are printed.
-/
namespace Doorhinges.JsonC

open Lib.CString
open Relation (ReflTransGen)

variable {D : Type} {F : Floats D}

section Runs

/-- A turn of the loop over a text with its terminator. -/
inductive Step (F : Floats D) : JsonTokener D × Bytes → JsonTokener D × Bytes → Prop
  | next {t t' : JsonTokener D} {c : UInt8} {s : Bytes} (hact : act F t c = some (.next t')) :
    Step F (t, c :: s) (t', s)
  | redo {t t' : JsonTokener D} {c : UInt8} {s : Bytes} (hact : act F t c = some (.redo t')) :
    Step F (t, c :: s) (t', c :: s)

abbrev Steps (F : Floats D) := ReflTransGen (Step F)

variable {t u w : JsonTokener D} {c : UInt8} {s r : Bytes} {e : Option Err}

theorem steps_next (hact : act F t c = some (.next u)) (h : Steps F (u, s) (w, r)) :
    Steps F (t, c :: s) (w, r) := ReflTransGen.head (.next hact) h

theorem steps_redo (hact : act F t c = some (.redo u)) (h : Steps F (u, c :: s) (w, r)) :
    Steps F (t, c :: s) (w, r) := ReflTransGen.head (.redo hact) h

/-- The result of a loop does not change when a state leaves its character to another. -/
theorem parseEx_redo (h : Inv F t) (hact : act F t c = some (.redo u))
    (hs : s ++ [0] = c :: r) : jsonTokenerParseEx F t s = jsonTokenerParseEx F u s := by
  cases s with
  | nil =>
    obtain ⟨rfl, -⟩ := List.cons.inj hs
    rw [jsonTokenerParseEx, jsonTokenerParseEx, takeChar_redo h hact]
  | cons d s =>
    obtain ⟨rfl, -⟩ := List.cons.inj hs
    rw [jsonTokenerParseEx, jsonTokenerParseEx, takeChar_redo h hact]

/-- A run to where the loop is left. -/
theorem parseEx_of_steps (hinv : Inv F t) (hnul : 0 ∉ s)
    (h : Steps F (t, s ++ [0]) (u, c :: r)) (hact : act F u c = some (.out w e)) :
    jsonTokenerParseEx F t s = some (w, e) := by
  generalize hstart : (t, s ++ [0]) = a at h
  generalize hend : (u, c :: r) = b at h
  induction h using ReflTransGen.head_induction_on generalizing t s with
  | refl =>
    rw [← hstart] at hend
    obtain ⟨rfl, hs⟩ := Prod.mk.inj hend
    have htake : takeChar F TURNS u c = some (.out w e) := by rw [TURNS, takeChar, hact]
    cases s with
    | nil =>
      obtain ⟨rfl, -⟩ := List.cons.inj hs
      rw [jsonTokenerParseEx, htake]
    | cons d s =>
      obtain ⟨rfl, -⟩ := List.cons.inj hs
      rw [jsonTokenerParseEx, htake]
  | head hstep hsteps ih =>
    cases hstep with
    | @next _ t' d r' hnext =>
      obtain ⟨rfl, hs⟩ := Prod.mk.inj hstart
      cases s with
      | nil =>
        -- nothing comes behind the terminator
        obtain ⟨rfl, rfl⟩ := List.cons.inj hs
        obtain heq | ⟨b, hstep, -⟩ := ReflTransGen.cases_head hsteps
        · rw [← heq] at hend
          cases hend
        · cases hstep
      | cons d s =>
        obtain ⟨rfl, rfl⟩ := List.cons.inj hs
        rw [List.mem_cons, not_or] at hnul
        have hsafe := act_safe hinv d
        rw [hnext] at hsafe
        have htake : takeChar F TURNS t d = some (.more t') := by rw [TURNS, takeChar, hnext]
        rw [jsonTokenerParseEx, htake]
        exact (if_neg (Ne.symm hnul.1)).trans (ih hsafe hnul.2 rfl)
    | @redo _ t' d r' hredo =>
      obtain ⟨rfl, hs⟩ := Prod.mk.inj hstart
      have hsafe := act_safe hinv d
      rw [hredo] at hsafe
      rw [parseEx_redo hinv hredo hs]
      exact ih hsafe.1 hnul (by rw [hs])

end Runs

/-- The tokener has the value `v` in place of what it had to read, and waits for its end. -/
structure Has (t u : JsonTokener D) (v : JsonObject D) : Prop where
  top : u.top = ⟨.eatws, .finish, v, t.top.objFieldName⟩
  below : u.below = t.below

section Words

variable {t u : JsonTokener D} {s : State} {c : UInt8} {r : Bytes}

theorem sameCase_prefix {w p q : Bytes} (h : w = p ++ c :: q) :
    sameCase (min (p.length + 1) w.length) w (p ++ [c]) = true := by
  have hlen : min (p.length + 1) w.length = (p ++ [c]).length := by
    rw [h, List.length_append, List.length_append, List.length_cons, List.length_singleton]
    omega
  have hw : w = p ++ [c] ++ q := by rw [h, List.append_assoc, List.singleton_append]
  rw [sameCase, hlen, List.take_length, hw, List.take_left]
  exact decide_eq_true rfl

theorem length_lt_word {w p q : Bytes} (h : w = p ++ c :: q) : p.length < w.length := by
  rw [h, List.length_append, List.length_cons]
  omega

/-- A state that takes the bytes of a word one after the other. -/
theorem word_steps {w : Bytes} (t : JsonTokener D) (h : ∀ p c q, w = p ++ c :: q →
      act F { t with pb := p, stPos := p.length } c =
        some (.next { t with pb := p ++ [c], stPos := p.length + 1 })) (r : Bytes) :
    Steps F ({ t with pb := [], stPos := 0 }, w ++ r)
      ({ t with pb := w, stPos := w.length }, r) := by
  have hfrom : ∀ q p, p ++ q = w → Steps F ({ t with pb := p, stPos := p.length }, q ++ r)
      ({ t with pb := w, stPos := w.length }, r) := by
    intro q
    induction q with
    | nil =>
      intro p hp
      rw [List.append_nil] at hp
      rw [hp]
      exact .refl
    | cons c q ih =>
      intro p hp
      have hnext := ih (p ++ [c]) (by rw [List.append_assoc, List.singleton_append, hp])
      rw [List.length_append, List.length_singleton] at hnext
      exact steps_next (h p c q hp.symm) hnext
  exact hfrom w [] rfl

theorem act_null (hs : t.top.state = .null) : act F t c =
    if sameCase (min (t.stPos + 1) 4) (ascii "null") (t.pb ++ [c]) then
      if t.stPos = 4 then some (.redo (((t.append [c]).setCurrent .null).eatws .finish))
      else some (.next { t.append [c] with stPos := t.stPos + 1 })
    else some (.out (t.append [c]) (some .parseNull)) := by
  simp only [act, hs]
  rfl

theorem act_boolean (hs : t.top.state = .boolean) : act F t c =
    if sameCase (min (t.stPos + 1) 4) (ascii "true") (t.pb ++ [c]) then
      if t.stPos = 4 then some (.redo (((t.append [c]).setCurrent (.boolean true)).eatws .finish))
      else some (.next { t.append [c] with stPos := t.stPos + 1 })
    else if sameCase (min (t.stPos + 1) 5) (ascii "false") (t.pb ++ [c]) then
      if t.stPos = 5 then
        some (.redo (((t.append [c]).setCurrent (.boolean false)).eatws .finish))
      else some (.next { t.append [c] with stPos := t.stPos + 1 })
    else some (.out (t.append [c]) (some .parseBoolean)) := by
  simp only [act, hs]
  rfl

/-- Where a word has been read up to. -/
def wordAt (t : JsonTokener D) (s : State) (p : Bytes) : JsonTokener D :=
  { t.goto s with pb := p, stPos := p.length }

/-- A word that a state begins and takes byte for byte, and its value at what follows it. -/
theorem word_value {w : Bytes} {d : UInt8} {v : JsonObject D} (hd : w.head? = some d)
    (hstart : act F t d = some (.redo (wordAt t s [])))
    (hnext : ∀ p c q, w = p ++ c :: q → act F (wordAt t s p) c =
      some (.next { wordAt t s p with pb := p ++ [c], stPos := p.length + 1 }))
    (hend : ∀ c, act F (wordAt t s w) c =
      some (.redo ((((wordAt t s w).append [c]).setCurrent v).eatws .finish))) :
    ∃ u, Steps F (t, w ++ c :: r) (u, c :: r) ∧ Has t u v := by
  have hword := word_steps (F := F) (t.goto s) hnext (c :: r)
  obtain ⟨w', rfl⟩ := List.head?_eq_some_iff.1 hd
  exact ⟨_, (steps_redo hstart hword).tail (.redo (hend c)), rfl, rfl⟩

theorem null_steps (hs : t.top.state = .start) (c : UInt8) (r : Bytes) :
    ∃ u, Steps F (t, ascii "null" ++ c :: r) (u, c :: r) ∧ Has t u .null := by
  have hlen : (ascii "null").length = 4 := by decide
  refine word_value (s := .null) (d := 110) (by decide) ?_ (fun p c q h => ?_) fun c => ?_
  · simp only [act, hs]
    rfl
  · have hlt := length_lt_word h
    have hsame := sameCase_prefix h
    rw [hlen] at hlt hsame
    exact (act_null rfl).trans ((if_pos hsame).trans (if_neg (Nat.ne_of_lt hlt)))
  · exact (act_null rfl).trans ((if_pos (by rfl)).trans (if_pos hlen))

theorem true_steps (hs : t.top.state = .start) (c : UInt8) (r : Bytes) :
    ∃ u, Steps F (t, ascii "true" ++ c :: r) (u, c :: r) ∧ Has t u (.boolean true) := by
  have hlen : (ascii "true").length = 4 := by decide
  refine word_value (s := .boolean) (d := 116) (by decide) ?_ (fun p c q h => ?_) fun c => ?_
  · simp only [act, hs]
    rfl
  · have hlt := length_lt_word h
    have hsame := sameCase_prefix h
    rw [hlen] at hlt hsame
    exact (act_boolean rfl).trans ((if_pos hsame).trans (if_neg (Nat.ne_of_lt hlt)))
  · exact (act_boolean rfl).trans ((if_pos (by rfl)).trans (if_pos hlen))

/-- `false` is tried after `true`, which it has no beginning of. -/
theorem false_steps (hs : t.top.state = .start) (c : UInt8) (r : Bytes) :
    ∃ u, Steps F (t, ascii "false" ++ c :: r) (u, c :: r) ∧ Has t u (.boolean false) := by
  have hlen : (ascii "false").length = 5 := by decide
  have hfirst : ∀ (n : Nat) (p : Bytes),
      ¬ sameCase (min (n + 1) 4) (ascii "true") (102 :: p) = true := by
    intro n p h
    have hmin : min (n + 1) 4 = min n 3 + 1 := by omega
    rw [sameCase, hmin] at h
    have hcons : (116 : UInt8) = 102 := (List.cons.inj (of_decide_eq_true h)).1
    exact absurd hcons (by decide)
  refine word_value (s := .boolean) (d := 102) (by decide) ?_ (fun p c q h => ?_) fun c => ?_
  · simp only [act, hs]
    rfl
  · have hlt := length_lt_word h
    have hsame := sameCase_prefix h
    rw [hlen] at hlt hsame
    have hcons : ∃ p', p ++ [c] = 102 :: p' := by
      cases p with
      | nil => exact ⟨[], by rw [(List.cons.inj h).1.symm]; rfl⟩
      | cons d p => exact ⟨p ++ [c], by rw [(List.cons.inj h).1.symm]; rfl⟩
    have htrue : ¬ sameCase (min (p.length + 1) 4) (ascii "true") (p ++ [c]) = true := by
      obtain ⟨p', hp'⟩ := hcons
      rw [hp']
      exact hfirst _ _
    exact (act_boolean rfl).trans ((if_neg htrue).trans
      ((if_pos hsame).trans (if_neg (Nat.ne_of_lt hlt))))
  · exact (act_boolean rfl).trans ((if_neg (hfirst _ _)).trans ((if_pos (by rfl)).trans (if_pos hlen)))

end Words

section Numbers

variable {t u : JsonTokener D} {c d : UInt8} {w r : Bytes} {v : JsonObject D}

theorem number_next (hs : t.top.state = .number) (hc : isNumberChar c = true) : act F t c =
    some (.next { t.append [c] with isDouble := t.isDouble || c = 46 || c = 101 }) := by
  simp only [act, hs]
  exact if_pos hc

theorem number_end (hs : t.top.state = .number) (hc : isNumberChar c = false)
    (hv : numberOf F t = some v) : act F t c = some (.redo ((t.setCurrent v).eatws .finish)) := by
  simp only [act, hs, hv]
  exact if_neg (by rw [hc]; decide)

/-- Whether a number with these characters is a `double`. -/
def hasPoint (w : Bytes) : Bool := w.any fun c => c = 46 || c = 101

theorem number_steps (hs : t.top.state = .number) (hw : ∀ c ∈ w, isNumberChar c = true)
    (r : Bytes) : Steps F (t, w ++ r)
      ({ t with pb := t.pb ++ w, isDouble := t.isDouble || hasPoint w }, r) := by
  induction w generalizing t with
  | nil =>
    rw [List.append_nil, hasPoint, List.any_nil, Bool.or_false]
    exact .refl
  | cons c w ih =>
    obtain ⟨hc, hw⟩ := List.forall_mem_cons.1 hw
    refine steps_next (number_next hs hc) ?_
    have hsteps := ih (t := { t.append [c] with isDouble := t.isDouble || c = 46 || c = 101 }) hs hw
    simp only [JsonTokener.append, List.append_assoc, List.singleton_append, Bool.or_assoc] at hsteps
    simp only [hasPoint, List.any_cons, Bool.or_assoc] at hsteps ⊢
    exact hsteps

theorem start_number (hs : t.top.state = .start) (hd : isDigit d = true ∨ d = 45) :
    act F t d = some (.redo { t.goto .number with pb := [], isDouble := false }) := by
  have hle : d ≤ 57 := by
    obtain hd | rfl := hd
    · simp only [isDigit, Bool.and_eq_true, decide_eq_true_eq] at hd
      exact hd.2
    · decide
  have hgt : ∀ b : UInt8, 57 < b → d ≠ b := by
    rintro b hb rfl
    exact absurd hle (UInt8.not_le.2 hb)
  have hquote : d ≠ 34 ∧ d ≠ 39 := by
    constructor
    · rintro rfl
      revert hd
      decide
    · rintro rfl
      revert hd
      decide
  simp only [act, hs]
  rw [if_neg (hgt 123 (by decide)), if_neg (hgt 91 (by decide)),
    if_neg (not_or.2 ⟨hgt 78 (by decide), hgt 110 (by decide)⟩), if_neg (not_or.2 hquote),
    if_neg (not_or.2 ⟨hgt 84 (by decide), not_or.2 ⟨hgt 116 (by decide),
      not_or.2 ⟨hgt 70 (by decide), hgt 102 (by decide)⟩⟩⟩), if_pos hd]

/-- A number ends in front of what cannot be a part of it. -/
theorem number_value (hs : t.top.state = .start) (hd : w.head? = some d)
    (hfirst : isDigit d = true ∨ d = 45) (hw : ∀ c ∈ w, isNumberChar c = true)
    (hv : ∀ t : JsonTokener D, t.pb = w → t.isDouble = hasPoint w → numberOf F t = some v)
    (hc : isNumberChar c = false) (r : Bytes) :
    ∃ u, Steps F (t, w ++ c :: r) (u, c :: r) ∧ Has t u v := by
  have hsteps := number_steps (F := F)
    (t := { t.goto .number with pb := [], isDouble := false }) rfl hw (c :: r)
  have hend : act F ({ t.goto .number with pb := [] ++ w, isDouble := false || hasPoint w }) c =
      some (.redo _) := number_end rfl hc (hv _ rfl (Bool.false_or _))
  obtain ⟨w', rfl⟩ := List.head?_eq_some_iff.1 hd
  exact ⟨_, (steps_redo (start_number hs hfirst) hsteps).tail (.redo hend), rfl, rfl⟩

theorem isNumberChar_digit (hc : isDigit c = true) : isNumberChar c = true := by
  have hall : ∀ n : Fin 256, isDigit (UInt8.ofNat n) = true →
      isNumberChar (UInt8.ofNat n) = true := by
    decide +kernel
  simpa using hall ⟨c.toNat, c.toNat_lt⟩ (by simpa using hc)

theorem digit_noPoint (hc : isDigit c = true) : c ≠ 46 ∧ c ≠ 101 := by
  constructor
  · rintro rfl
    revert hc
    decide
  · rintro rfl
    revert hc
    decide

/-- A number that `%d` has printed is scanned as it was. -/
theorem strtol_decimal {n : Int} (hlo : -2 ^ 63 ≤ n) (hhi : n < 2 ^ 63) : strtol (decimal n) = n := by
  rw [decimal]
  split
  · rw [strtol, List.dropWhile_cons_of_neg (by decide)]
    show max (-(leadingNat (decimalNat n.natAbs) : Int)) (-2 ^ 63) = n
    rw [leadingNat_decimalNat]
    omega
  · have hlead := leadingNat_decimalNat n.natAbs
    obtain ⟨d, w, hw⟩ := List.exists_cons_of_ne_nil (decimalNat_ne_nil n.natAbs)
    have hd : isDigit d = true :=
      decimalNat_digits n.natAbs d (by rw [hw]; exact List.mem_cons_self)
    rw [hw] at hlead ⊢
    rw [strtol_digit hd, hlead]
    omega

/-- The first byte of a number, and the others. -/
theorem decimal_bytes (n : Int) : (∃ d, (decimal n).head? = some d ∧ (isDigit d = true ∨ d = 45)) ∧
    ∀ c ∈ decimal n, isDigit c = true ∨ c = 45 := by
  have hdigits := decimalNat_digits n.natAbs
  rw [decimal]
  split
  · refine ⟨⟨45, rfl, Or.inr rfl⟩, fun c hc => ?_⟩
    obtain rfl | hc := List.mem_cons.1 hc
    · exact Or.inr rfl
    · exact Or.inl (hdigits c hc)
  · obtain ⟨d, w, hw⟩ := List.exists_cons_of_ne_nil (decimalNat_ne_nil n.natAbs)
    refine ⟨⟨d, by rw [hw]; rfl, Or.inl (hdigits d ?_)⟩, fun c hc => Or.inl (hdigits c hc)⟩
    rw [hw]
    exact List.mem_cons_self

theorem scanInt_decimal (i : Int32) : scanInt (decimal i.toInt) = some i := by
  have hlo := Int32.le_toInt i
  have hhi := Int32.toInt_lt i
  have hread : Int32.ofInt (strtol (decimal i.toInt)) = i := by
    rw [strtol_decimal (by omega) (by omega), Int32.ofInt_toInt]
  obtain ⟨d, w, hw⟩ := List.exists_cons_of_ne_nil (decimalNat_ne_nil i.toInt.natAbs)
  have hd : isDigit d = true :=
    decimalNat_digits i.toInt.natAbs d (by rw [hw]; exact List.mem_cons_self)
  rw [scanInt, hread]
  refine if_pos ?_
  rw [decimal, hw]
  split
  · rw [List.dropWhile_cons_of_neg (by decide), List.head?_cons, if_pos (Or.inl rfl)]
    exact hd
  · obtain ⟨hspace, hminus, hplus⟩ := digit_plain hd
    rw [List.dropWhile_cons_of_neg (by simp [hspace]), List.head?_cons,
      if_neg (by simp [hminus, hplus])]
    exact hd

end Numbers

section Strings

/-- The tokener is in a string or a name with the text `p` so far. -/
structure Reading (s : State) (t u : JsonTokener D) (p : Bytes) : Prop where
  state : u.top.state = s
  pb : u.pb = p
  quote : u.quoteChar = 34
  current : u.top.current = t.top.current
  name : u.top.objFieldName = t.top.objFieldName
  below : u.below = t.below

variable {t u : JsonTokener D} {s : State} {b c e : UInt8} {p r : Bytes}

theorem Reading.char (hs : s = .string ∨ s = .objectField) (h : Reading s t u p) (hquote : c ≠ 34)
    (hslash : c ≠ 92) : Steps F (u, c :: r) (u.append [c], r) ∧
      Reading s t (u.append [c]) (p ++ [c]) := by
  have hact : act F u c = some (.next (u.append [c])) := by
    have hne : ¬ c = u.quoteChar := fun heq => hquote (heq.trans h.quote)
    obtain rfl | rfl := hs <;> simp only [act, h.state] <;> rw [if_neg hne, if_neg hslash]
  refine ⟨steps_next hact .refl, h.state, ?_, h.quote, h.current, h.name, h.below⟩
  show u.pb ++ [c] = _
  rw [h.pb]

/-- A backslash, and what it does to the state. -/
theorem Reading.escape (hs : s = .string ∨ s = .objectField) (h : Reading s t u p) :
    act F u 92 = some (.next (u.escape s)) := by
  have hne : ¬ (92 : UInt8) = u.quoteChar := by
    rw [h.quote]
    decide
  obtain rfl | rfl := hs <;> simp only [act, h.state] <;> rw [if_neg hne, if_pos trivial]

/-- A backslash and one character. -/
theorem Reading.escaped (hs : s = .string ∨ s = .objectField) (h : Reading s t u p)
    (he : escaped c = some e) : ∃ w, Steps F (u, 92 :: c :: r) (w, r) ∧
      Reading s t w (p ++ [e]) := by
  have hact : act F (u.escape s) c = some (.next (((u.escape s).append [e]).goto s)) := by
    simp only [act, JsonTokener.escape, he]
  refine ⟨_, steps_next (h.escape hs) (steps_next hact .refl), rfl, ?_, h.quote, h.current, h.name,
    h.below⟩
  show u.pb ++ [e] = _
  rw [h.pb]

/-- The code so far with the next digit of it. -/
def withDigit (t : JsonTokener D) (c : UInt8) : JsonTokener D :=
  { t with ucsChar := t.ucsChar + hexdigit c <<< (4 * (3 - t.stPos)).toUInt32,
           stPos := t.stPos + 1 }

theorem hex_next {n : Nat} (hs : u.top.state = .escapeUnicode) (hc : isHexChar c = true)
    (hn : u.stPos = n) (hpos : n + 1 ≠ 4) : act F u c = some (.next (withDigit u c)) := by
  simp only [act, hs, hn]
  rw [if_pos hc, if_neg hpos, withDigit, hn]

theorem hex_end (hs : u.top.state = .escapeUnicode) (hc : isHexChar c = true)
    (hn : u.stPos = 3) : act F u c = some (.next
      (((withDigit u c).append (utfOut (withDigit u c).ucsChar)).goto u.top.savedState)) := by
  simp only [act, hs, hn]
  rw [if_pos hc, if_pos (by decide), withDigit, hn]

/-- The digits of a control character. -/
theorem control_digits (hb : b < 32) :
    isHexChar (jsonHexChars.getD (b >>> 4).toNat 0) = true ∧
      isHexChar (jsonHexChars.getD (b &&& 15).toNat 0) = true ∧
      utfOut ((0 : UInt32) + hexdigit 48 <<< 12 + hexdigit 48 <<< 8 +
        hexdigit (jsonHexChars.getD (b >>> 4).toNat 0) <<< 4 +
        hexdigit (jsonHexChars.getD (b &&& 15).toNat 0) <<< 0) = [b] := by
  have hall : ∀ n : Fin 32, isHexChar (jsonHexChars.getD (UInt8.ofNat n >>> 4).toNat 0) = true ∧
      isHexChar (jsonHexChars.getD (UInt8.ofNat n &&& 15).toNat 0) = true ∧
      utfOut ((0 : UInt32) + hexdigit 48 <<< 12 + hexdigit 48 <<< 8 +
        hexdigit (jsonHexChars.getD (UInt8.ofNat n >>> 4).toNat 0) <<< 4 +
        hexdigit (jsonHexChars.getD (UInt8.ofNat n &&& 15).toNat 0) <<< 0) = [UInt8.ofNat n] := by
    decide +kernel
  simpa using hall ⟨b.toNat, UInt8.lt_iff_toNat_lt.1 hb⟩

/-- A control character that has no letter. -/
theorem Reading.control (hs : s = .string ∨ s = .objectField) (h : Reading s t u p) (hb : b < 32) :
    ∃ w, Steps F (u, [92, 117, 48, 48, jsonHexChars.getD (b >>> 4).toNat 0,
      jsonHexChars.getD (b &&& 15).toNat 0] ++ r) (w, r) ∧ Reading s t w (p ++ [b]) := by
  obtain ⟨hhigh, hlow, hcode⟩ := control_digits hb
  have hzero : isHexChar 48 = true := by decide
  have hu : act F (u.escape s) 117 = some (.next
      { (u.escape s).goto .escapeUnicode with ucsChar := 0, stPos := 0 }) := by
    have hnone : Doorhinges.JsonC.escaped 117 = none := by decide
    simp only [act, JsonTokener.escape, hnone]
    rfl
  refine ⟨_, steps_next (h.escape hs) (steps_next hu
    (steps_next (hex_next (n := 0) rfl hzero rfl (by decide))
    (steps_next (hex_next (n := 1) rfl hzero rfl (by decide))
    (steps_next (hex_next (n := 2) rfl hhigh rfl (by decide))
    (steps_next (hex_end rfl hlow rfl) .refl))))), rfl, ?_, h.quote, h.current, h.name, h.below⟩
  show u.pb ++ utfOut _ = _
  rw [h.pb]
  exact congrArg (p ++ ·) hcode

/-- A byte of a string is read from its escape. -/
theorem Reading.byte (hs : s = .string ∨ s = .objectField) (h : Reading s t u p) (b : UInt8)
    (r : Bytes) : ∃ w, Steps F (u, escapeByte b ++ r) (w, r) ∧ Reading s t w (p ++ [b]) := by
  rw [escapeByte]
  split
  · rename_i heq
    exact h.escaped hs (by rw [heq]; decide)
  split
  · rename_i heq
    exact h.escaped hs (by rw [heq]; decide)
  split
  · rename_i heq
    exact h.escaped hs (by rw [heq]; decide)
  split
  · rename_i heq
    exact h.escaped hs (by rw [heq]; decide)
  split
  · rename_i heq
    exact h.escaped hs (by rw [heq]; decide)
  split
  · rename_i heq
    exact h.escaped hs (by rw [heq]; decide)
  split
  · rename_i heq
    exact h.escaped hs (by rw [heq]; decide)
  split
  · rename_i hlt
    have htext : ascii "\\u00" = [92, 117, 48, 48] := by decide
    rw [htext]
    exact h.control hs hlt
  · rename_i hquote hslash _ _
    exact ⟨_, h.char hs hquote hslash⟩

/-- The text of a string. -/
theorem Reading.text (hs : s = .string ∨ s = .objectField) (h : Reading s t u p) (q r : Bytes) :
    ∃ w, Steps F (u, jsonEscapeStr q ++ r) (w, r) ∧ Reading s t w (p ++ q) := by
  induction q generalizing u p with
  | nil => exact ⟨u, .refl, by rwa [List.append_nil]⟩
  | cons b q ih =>
    obtain ⟨v, hv, hread⟩ := h.byte (F := F) hs b (jsonEscapeStr q ++ r)
    obtain ⟨w, hw, hread⟩ := ih hread
    refine ⟨w, ?_, ?_⟩
    · rw [jsonEscapeStr, List.flatMap_cons, List.append_assoc]
      exact hv.trans hw
    · rwa [List.append_assoc, List.singleton_append] at hread

theorem cstr_eq (h : 0 ∉ p) : cstr p = p := by
  refine List.takeWhile_eq_self_iff.2 fun c hc => ?_
  have hne : c ≠ 0 := fun heq => h (heq ▸ hc)
  simpa using hne

/-- A string value. -/
theorem string_steps (hs : t.top.state = .start) (hp : 0 ∉ p) (r : Bytes) :
    ∃ u, Steps F (t, 34 :: (jsonEscapeStr p ++ 34 :: r)) (u, r) ∧ Has t u (.string p) := by
  have hstart : act F t 34 = some (.next { t.goto .string with pb := [], quoteChar := 34 }) := by
    simp only [act, hs]
    rfl
  have hfirst : Reading .string t { t.goto .string with pb := [], quoteChar := 34 } [] :=
    ⟨rfl, rfl, rfl, rfl, rfl, rfl⟩
  obtain ⟨u, hu, hread⟩ := hfirst.text (F := F) (Or.inl rfl) p (34 :: r)
  have hend : act F u 34 = some (.next ((u.setCurrent (.string (cstr u.pb))).eatws .finish)) := by
    simp only [act, hread.state]
    exact if_pos hread.quote.symm
  refine ⟨_, (steps_next hstart hu).tail (.next hend), ?_, hread.below⟩
  show (⟨.eatws, .finish, .string (cstr u.pb), u.top.objFieldName⟩ : Srec D) = _
  rw [hread.pb, List.nil_append, cstr_eq hp, hread.name]

/-- The name of a member, behind its first quote. -/
theorem name_steps (hs : t.top.state = .objectField) (hpb : t.pb = []) (hquote : t.quoteChar = 34)
    (hp : 0 ∉ p) (r : Bytes) : ∃ u, Steps F (t, jsonEscapeStr p ++ 34 :: r) (u, r) ∧
      u.top = ⟨.eatws, .objectFieldEnd, t.top.current, some p⟩ ∧ u.below = t.below := by
  have hfirst : Reading .objectField t t [] := ⟨hs, hpb, hquote, rfl, rfl, rfl⟩
  obtain ⟨u, hu, hread⟩ := hfirst.text (F := F) (Or.inr rfl) p (34 :: r)
  have hend : act F u 34 = some (.next
      ({ u with top := { u.top with objFieldName := some (cstr u.pb) } }.eatws
        .objectFieldEnd)) := by
    simp only [act, hread.state]
    exact if_pos hread.quote.symm
  refine ⟨_, hu.tail (.next hend), ?_, hread.below⟩
  show (⟨.eatws, .objectFieldEnd, u.top.current, some (cstr u.pb)⟩ : Srec D) = _
  rw [hread.pb, List.nil_append, cstr_eq hp, hread.current]

end Strings

end Doorhinges.JsonC

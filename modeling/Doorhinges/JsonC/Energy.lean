import Doorhinges.JsonC.Scan

/-!
# What a text has room for

The strings of an object, with their names and quotes, are no longer than the text they have been
read from. What a tokener has read so far is counted with what is left of the text: no turn makes
it more, and an escape or a name that comes again makes it less.
-/
namespace Doorhinges.JsonC

open Lib.CString
open Relation (ReflTransGen)

variable {D : Type} {F : Floats D}

section Count

def JsonObject.members : JsonObject D → List (Bytes × JsonObject D)
  | .object ms => ms
  | _ => []

/-- A string as the value of a member takes up its bytes and quotes. -/
def valueCost : JsonObject D → Nat
  | .string s => s.length + 2
  | _ => 0

/-- A member takes up its name and value, the quotes of the name, a colon, and what is in front of
it. -/
def memberCost (m : Bytes × JsonObject D) : Nat := m.1.length + 4 + valueCost m.2

def cost (ms : List (Bytes × JsonObject D)) : Nat := (ms.map memberCost).sum

/-- A value that has been read. -/
def wholeCost : JsonObject D → Nat
  | .object ms => cost ms + 1
  | v => valueCost v

def Srec.name (r : Srec D) : Bytes := r.objFieldName.getD []

/-- What a level below has read of its object. -/
def Srec.waitCost (r : Srec D) : Nat :=
  if r.state = .objectValueAdd then cost r.current.members + 4 + r.name.length else 0

/-- What a state has read on its level. -/
def JsonTokener.part (t : JsonTokener D) : State → Nat
  | .string => wholeCost t.top.current + 1 + t.pb.length
  | .objectFieldStart => cost t.top.current.members + 1
  | .objectField => cost t.top.current.members + 2 + t.pb.length
  | .objectFieldEnd => cost t.top.current.members + 3 + t.top.name.length
  | .objectValue => cost t.top.current.members + 4 + t.top.name.length
  | .objectValueAdd => cost t.top.current.members + 4 + t.top.name.length + valueCost t.obj
  | .objectSep => cost t.top.current.members
  | _ => wholeCost t.top.current

def JsonTokener.topPart (t : JsonTokener D) : Nat :=
  match t.top.state with
  | .eatws | .commentStart | .comment | .commentEol | .commentEnd | .stringEscape =>
    t.part t.top.savedState
  | .escapeUnicode => t.part t.top.savedState + t.stPos
  | s => t.part s

def JsonTokener.weight (t : JsonTokener D) : Nat := (t.below.map Srec.waitCost).sum + t.topPart

/-- What has been read, and what is left of the text. -/
def energy (a : JsonTokener D × Bytes) : Nat := a.1.weight + a.2.length

theorem cost_append (ms ns : List (Bytes × JsonObject D)) :
    cost (ms ++ ns) = cost ms + cost ns := by
  rw [cost, List.map_append, List.sum_append]
  rfl

theorem memberCost_le {ms : List (Bytes × JsonObject D)} {m : Bytes × JsonObject D} (h : m ∈ ms) :
    memberCost m ≤ cost ms := by
  obtain ⟨as, bs, rfl⟩ := List.append_of_mem h
  rw [cost_append]
  show memberCost m ≤ cost as + (memberCost m + cost bs)
  omega

theorem cost_eraseP {ms : List (Bytes × JsonObject D)} (key : Bytes) :
    cost (ms.eraseP (·.1 = key)) + (if key ∈ ms.map Prod.fst then 4 else 0) ≤ cost ms := by
  induction ms with
  | nil => exact Nat.le_refl 0
  | cons m ms ih =>
    by_cases heq : m.1 = key
    · have hin : key ∈ (m :: ms).map Prod.fst := heq ▸ List.mem_cons_self
      rw [List.eraseP_cons_of_pos (by simpa using heq), if_pos hin]
      show cost ms + 4 ≤ memberCost m + cost ms
      rw [memberCost]
      omega
    · have hiff : key ∈ (m :: ms).map Prod.fst ↔ key ∈ ms.map Prod.fst := by
        rw [List.map_cons, List.mem_cons, or_iff_right (Ne.symm heq)]
      rw [List.eraseP_cons_of_neg (by simpa using heq)]
      show memberCost m + cost (ms.eraseP (·.1 = key)) + _ ≤ memberCost m + cost ms
      simp only [hiff]
      omega

/-- A member that is added costs no more than its text, and less if it takes the place of
another. -/
theorem cost_objectAdd (ms : List (Bytes × JsonObject D)) (key : Bytes) (v : JsonObject D) :
    cost (objectAdd ms key v) + (if key ∈ ms.map Prod.fst then 4 else 0) ≤
      cost ms + memberCost (key, v) := by
  have herase : cost (ms.eraseP (·.1 = key)) + (if key ∈ ms.map Prod.fst then 4 else 0) ≤
      cost ms := cost_eraseP key
  rw [objectAdd, cost_append]
  show cost _ + (memberCost (key, v) + 0) + _ ≤ _
  omega

theorem valueCost_le (v : JsonObject D) : valueCost v ≤ wholeCost v := by
  cases v with
  | object ms => exact Nat.zero_le _
  | _ => exact Nat.le_refl _

end Count

section Turns

variable {t t' : JsonTokener D} {s : State} {c : UInt8}

/-- The members that the lowest level has. -/
def JsonTokener.bottom (t : JsonTokener D) : List (Bytes × JsonObject D) :=
  (t.below.getLast?.getD t.top).current.members

/-- A turn makes up for the character that it takes, at most, and for less when it loses a member
of the lowest level. -/
def Fair (t : JsonTokener D) : Option (Act D) → Prop
  | some (.next t') => t'.weight ≤ t.weight + 1 ∧
    ∀ m ∈ t.bottom, m ∈ t'.bottom ∨ t'.weight ≤ t.weight
  | some (.redo t') => t'.weight ≤ t.weight ∧
    ∀ m ∈ t.bottom, m ∈ t'.bottom ∨ t'.weight < t.weight
  | some (.out t' e) => e = none → t' = t ∧ t.top.state = .finish
  | none => True

theorem fair_error (e : Err) : Fair t (some (.out t' (some e))) := by
  intro he
  cases he

theorem bottom_eq (hbelow : t'.below = t.below) (hcur : t'.top.current = t.top.current) :
    t'.bottom = t.bottom := by
  rw [JsonTokener.bottom, JsonTokener.bottom, hbelow]
  cases t.below.getLast? with
  | none => exact congrArg JsonObject.members hcur
  | some r => rfl

theorem Fair.next (hbelow : t'.below = t.below) (hcur : t'.top.current = t.top.current)
    (h : t'.weight ≤ t.weight + 1) : Fair t (some (.next t')) :=
  ⟨h, fun _ hm => Or.inl (bottom_eq hbelow hcur ▸ hm)⟩

theorem Fair.redo (hbottom : t'.bottom = t.bottom) (h : t'.weight ≤ t.weight) :
    Fair t (some (.redo t')) := ⟨h, fun _ hm => Or.inl (hbottom ▸ hm)⟩

/-- A member of the lowest level is one of the level itself, or is out of reach. -/
theorem mem_bottom {m : Bytes × JsonObject D} (hbelow : t'.below = t.below) (hm : m ∈ t.bottom) :
    m ∈ t'.bottom ∨ m ∈ t.top.current.members := by
  rw [JsonTokener.bottom, hbelow]
  rw [JsonTokener.bottom] at hm
  cases hlast : t.below.getLast? with
  | none =>
    rw [hlast] at hm
    exact Or.inr hm
  | some r =>
    rw [hlast] at hm
    exact Or.inl hm

theorem wholeCost_pos {v : JsonObject D} {m : Bytes × JsonObject D} (hm : m ∈ v.members) :
    4 < wholeCost v := by
  cases v with
  | object ms =>
    have hle : memberCost m ≤ cost ms := memberCost_le hm
    rw [memberCost] at hle
    rw [wholeCost]
    omega
  | _ => cases hm

/-- The state that has a value, which it puts in place of what the level has. -/
theorem Fair.setNext (hbelow : t'.below = t.below) (h : t'.weight ≤ t.weight + 1)
    (hlost : 4 < wholeCost t.top.current → t'.weight ≤ t.weight) : Fair t (some (.next t')) :=
  ⟨h, fun _ hm => (mem_bottom hbelow hm).imp_right fun hm => hlost (wholeCost_pos hm)⟩

theorem Fair.setRedo (hbelow : t'.below = t.below) (h : t'.weight ≤ t.weight)
    (hlost : 4 < wholeCost t.top.current → t'.weight < t.weight) : Fair t (some (.redo t')) :=
  ⟨h, fun _ hm => (mem_bottom hbelow hm).imp_right fun hm => hlost (wholeCost_pos hm)⟩

theorem topPart_of (hs : t.top.state = s) (hne : s ≠ .eatws ∧ s ≠ .commentStart ∧ s ≠ .comment ∧
    s ≠ .commentEol ∧ s ≠ .commentEnd ∧ s ≠ .stringEscape ∧ s ≠ .escapeUnicode) :
    t.topPart = t.part s := by
  rw [JsonTokener.topPart, hs]
  cases s with
  | eatws | commentStart | comment | commentEol | commentEnd | stringEscape | escapeUnicode =>
    simp at hne
  | _ => rfl

/-- Nothing that counts is read from blanks and comments. -/
theorem part_of_waits (h : s.Waits) (htop : t'.top.current = t.top.current)
    (hname : t'.top.objFieldName = t.top.objFieldName) : t'.part s = t.part s := by
  unfold JsonTokener.part Srec.name
  rw [htop, hname]
  cases s <;> first | rfl | exact h.elim

theorem State.Waits.plain (h : s.Waits) : s ≠ .eatws ∧ s ≠ .commentStart ∧ s ≠ .comment ∧
    s ≠ .commentEol ∧ s ≠ .commentEnd ∧ s ≠ .stringEscape ∧ s ≠ .escapeUnicode := by
  refine ⟨?_, ?_, ?_, ?_, ?_, ?_, ?_⟩ <;> (rintro rfl; exact h)

/-- The states of blanks and comments. -/
def State.Blank (s : State) : Prop :=
  s = .eatws ∨ s = .commentStart ∨ s = .comment ∨ s = .commentEol ∨ s = .commentEnd

theorem weight_blank (hs : t.top.state.Blank) :
    t.weight = (t.below.map Srec.waitCost).sum + t.part t.top.savedState := by
  rw [JsonTokener.weight, JsonTokener.topPart]
  obtain hs | hs | hs | hs | hs := hs <;> rw [hs]

theorem weight_of (hs : t.top.state = s) (hne : s ≠ .eatws ∧ s ≠ .commentStart ∧ s ≠ .comment ∧
    s ≠ .commentEol ∧ s ≠ .commentEnd ∧ s ≠ .stringEscape ∧ s ≠ .escapeUnicode) :
    t.weight = (t.below.map Srec.waitCost).sum + t.part s := by
  rw [JsonTokener.weight, topPart_of hs hne]

theorem waits_of_blank (h : Inv F t) (hs : t.top.state.Blank) : t.top.savedState.Waits := by
  have hok := h.top.ok
  obtain hs | hs | hs | hs | hs := hs <;> (simp only [Srec.Ok, hs] at hok; exact hok.1)

theorem fair_blank (h : Inv F t) (hs : t.top.state.Blank) : Fair t (act F t c) ∧
    ∀ t', act F t c = some (.next t') → t'.below = t.below ∧
      t'.top.current = t.top.current ∧ t'.weight = t.weight ∧ t'.top.state.Blank := by
  have hwaits := waits_of_blank h hs
  have hweight := weight_blank hs
  have hgoto : ∀ {t' : JsonTokener D} {s : State}, t'.below = t.below → t'.top = (t.goto s).top →
      s.Blank → Fair t (some (.next t')) ∧ ∀ u, some (Act.next t') = some (.next u) →
        u.below = t.below ∧ u.top.current = t.top.current ∧ u.weight = t.weight ∧
          u.top.state.Blank := by
    intro t' s hbelow htop hstate
    have hsaved : t'.top.savedState = t.top.savedState := by rw [htop]; rfl
    have hcur : t'.top.current = t.top.current := by rw [htop]; rfl
    have hname : t'.top.objFieldName = t.top.objFieldName := by rw [htop]; rfl
    have hblank : t'.top.state.Blank := by
      rw [htop]
      exact hstate
    have heq : t'.weight = t.weight := by
      rw [hweight, weight_blank hblank, hbelow, hsaved, part_of_waits hwaits hcur hname]
    refine ⟨.next hbelow hcur (heq ▸ Nat.le_succ _), fun u hu => ?_⟩
    obtain rfl := Act.next.inj (Option.some.inj hu)
    exact ⟨hbelow, hcur, heq, hblank⟩
  have herror : ∀ {t' : JsonTokener D} {e : Err}, Fair t (some (.out t' (some e))) ∧
      ∀ u, some (Act.out t' (some e)) = some (.next u) → u.below = t.below ∧
        u.top.current = t.top.current ∧ u.weight = t.weight ∧ u.top.state.Blank :=
    fun {_ _} => ⟨fair_error _, fun _ hu => by cases hu⟩
  have hgoto' := fun {t' : JsonTokener D} (hbelow : t'.below = t.below) (htop : t'.top = t.top) =>
    hgoto (s := t.top.state) hbelow htop hs
  obtain hs | hs | hs | hs | hs := hs <;> simp only [act, hs]
  · split
    · exact hgoto' rfl rfl
    split
    · exact hgoto (s := .commentStart) rfl rfl (by simp [State.Blank])
    · refine ⟨.redo (bottom_eq rfl rfl) (Nat.le_of_eq ?_), fun _ hu => (by cases hu)⟩
      rw [hweight, weight_of (s := t.top.savedState) rfl hwaits.plain]
      rfl
  · split
    · exact hgoto (s := .comment) rfl rfl (by simp [State.Blank])
    split
    · exact hgoto (s := .commentEol) rfl rfl (by simp [State.Blank])
    · exact herror
  · split
    · exact hgoto (s := .commentEnd) rfl rfl (by simp [State.Blank])
    · exact hgoto' rfl rfl
  · split
    · exact hgoto (s := .eatws) rfl rfl (by simp [State.Blank])
    · exact hgoto' rfl rfl
  · split
    · exact hgoto (s := .eatws) rfl rfl (by simp [State.Blank])
    · exact hgoto (s := .comment) rfl rfl (by simp [State.Blank])

theorem length_cstr_le (b : Bytes) : (cstr b).length ≤ b.length :=
  (List.takeWhile_prefix _).length_le

theorem length_utfOut_le (u : UInt32) : (utfOut u).length ≤ 3 := by
  rw [utfOut]
  split
  · exact Nat.le_add_left 1 2
  split
  · exact Nat.le_add_left 2 1
  · exact Nat.le_refl 3

/-- A character of a string or a name. A backslash does not count. -/
theorem fair_text (hs : t.top.state = .string ∨ t.top.state = .objectField) :
    Fair t (act F t c) ∧ (c = 92 → t.quoteChar = 34 →
      ∃ t', act F t c = some (.next t') ∧ t'.weight = t.weight) := by
  have hcstr := length_cstr_le t.pb
  obtain hs | hs := hs <;> have hweight := weight_of hs (by decide) <;> simp only [act, hs] <;>
    rw [JsonTokener.part] at hweight
  · constructor
    · split
      · have hnext : ((t.setCurrent (.string (cstr t.pb))).eatws .finish).weight =
            (t.below.map Srec.waitCost).sum + ((cstr t.pb).length + 2) := rfl
        exact .setNext rfl (by omega) (by omega)
      split
      · refine .next rfl rfl ?_
        show (t.below.map Srec.waitCost).sum + (wholeCost t.top.current + 1 + t.pb.length) ≤ _
        omega
      · refine .next rfl rfl ?_
        rw [weight_of (t := t.append [c]) hs (by decide)]
        show (t.below.map Srec.waitCost).sum + (wholeCost t.top.current + 1 +
          (t.pb ++ [c]).length) ≤ _
        rw [List.length_append, List.length_singleton]
        omega
    · rintro rfl hquote
      rw [hquote, if_neg (by decide), if_pos rfl]
      exact ⟨_, rfl, hweight.symm⟩
  · constructor
    · split
      · refine .next rfl rfl ?_
        show (t.below.map Srec.waitCost).sum + (cost t.top.current.members + 3 +
          (cstr t.pb).length) ≤ _
        omega
      split
      · refine .next rfl rfl ?_
        show (t.below.map Srec.waitCost).sum + (cost t.top.current.members + 2 + t.pb.length) ≤ _
        omega
      · refine .next rfl rfl ?_
        rw [weight_of (t := t.append [c]) hs (by decide)]
        show (t.below.map Srec.waitCost).sum + (cost t.top.current.members + 2 +
          (t.pb ++ [c]).length) ≤ _
        rw [List.length_append, List.length_singleton]
        omega
    · rintro rfl hquote
      rw [hquote, if_neg (by decide), if_pos rfl]
      exact ⟨_, rfl, hweight.symm⟩

/-- An escape has more bytes than what it stands for. -/
theorem fair_escape (h : Inv F t)
    (hs : t.top.state = .stringEscape ∨ t.top.state = .escapeUnicode) : Fair t (act F t c) := by
  have hok := h.top.ok
  have hsaved : t.top.savedState = .string ∨ t.top.savedState = .objectField := by
    obtain hs | hs := hs <;> (simp only [Srec.Ok, hs] at hok; exact hok.1)
  -- what the string has after the escape
  have hback : ∀ {t' : JsonTokener D} (b : Bytes), t'.below = t.below → t'.pb = t.pb ++ b →
      t'.top = (t.goto t.top.savedState).top →
      t'.weight = (t.below.map Srec.waitCost).sum + t.part t.top.savedState + b.length := by
    intro t' b hbelow hpb htop
    have hstate : t'.top.state = t.top.savedState := by rw [htop]; rfl
    have hcur : t'.top.current = t.top.current := by rw [htop]; rfl
    obtain hsaved | hsaved := hsaved
    · rw [weight_of (hstate.trans hsaved) (by decide), hsaved, hbelow, JsonTokener.part,
        JsonTokener.part, hpb, List.length_append, hcur]
      omega
    · rw [weight_of (hstate.trans hsaved) (by decide), hsaved, hbelow, JsonTokener.part,
        JsonTokener.part, hpb, List.length_append, hcur]
      omega
  obtain hs | hs := hs
  · have hweight : t.weight = (t.below.map Srec.waitCost).sum + t.part t.top.savedState := by
      rw [JsonTokener.weight, JsonTokener.topPart, hs]
    simp only [act, hs]
    split
    · rename_i e _
      have hnext : ((t.append [e]).goto t.top.savedState).weight =
          (t.below.map Srec.waitCost).sum + t.part t.top.savedState + 1 := hback [e] rfl rfl rfl
      exact .next rfl rfl (Nat.le_of_eq (hnext.trans (by rw [hweight])))
    split
    · refine .next rfl rfl (Nat.le_succ_of_le (Nat.le_of_eq ?_))
      rw [hweight]
      rfl
    · exact fair_error _
  · have hweight : t.weight =
        (t.below.map Srec.waitCost).sum + (t.part t.top.savedState + t.stPos) := by
      rw [JsonTokener.weight, JsonTokener.topPart, hs]
    by_cases hc : isHexChar c = true
    · by_cases hpos : t.stPos + 1 = 4
      · rw [hex_end hs hc (by omega)]
        have hlen := length_utfOut_le (withDigit t c).ucsChar
        have hnext : (((withDigit t c).append (utfOut (withDigit t c).ucsChar)).goto
            t.top.savedState).weight = (t.below.map Srec.waitCost).sum + t.part t.top.savedState +
              (utfOut (withDigit t c).ucsChar).length := hback _ rfl rfl rfl
        exact .next rfl rfl (by omega)
      · rw [hex_next (n := t.stPos) hs hc rfl hpos]
        have hnext : (withDigit t c).weight =
            (t.below.map Srec.waitCost).sum + (t.part t.top.savedState + (t.stPos + 1)) := by
          have hstate : (withDigit t c).top.state = .escapeUnicode := hs
          rw [JsonTokener.weight, JsonTokener.topPart, hstate]
          rfl
        exact .next rfl rfl (by omega)
    · have hout : act F t c = some (.out t (some .parseString)) := by
        simp only [act, hs]
        exact if_neg hc
      rw [hout]
      exact fair_error _

theorem wholeCost_numberOf {v : JsonObject D} (h : numberOf F t = some v) : wholeCost v = 0 := by
  rw [numberOf] at h
  split at h
  · obtain ⟨d, -, rfl⟩ := Option.map_eq_some_iff.1 h
    rfl
  · obtain ⟨i, -, rfl⟩ := Option.map_eq_some_iff.1 h
    rfl

/-- A value begins, or a word or a number, which do not count. -/
theorem fair_value (hs : t.top.state = .start ∨ t.top.state = .null ∨
    t.top.state = .boolean ∨ t.top.state = .number) : Fair t (act F t c) := by
  have hweight : t.weight = (t.below.map Srec.waitCost).sum + wholeCost t.top.current := by
    obtain hs | hs | hs | hs := hs <;> exact weight_of hs (by decide)
  have hgoto : ∀ {t' : JsonTokener D}, t'.below = t.below → t'.top.current = t.top.current →
      t'.top.state = .null ∨ t'.top.state = .boolean ∨ t'.top.state = .number →
      t'.weight = t.weight := by
    intro t' hbelow hcur hstate
    rw [hweight, ← hcur, ← hbelow]
    obtain hstate | hstate | hstate := hstate <;> exact weight_of hstate (by decide)
  have hvalue : ∀ {u : JsonTokener D} {v : JsonObject D}, u.below = t.below → wholeCost v = 0 →
      ((u.setCurrent v).eatws .finish).weight = (t.below.map Srec.waitCost).sum := by
    intro u v hbelow hv
    show (u.below.map Srec.waitCost).sum + wholeCost v = _
    rw [hbelow, hv, Nat.add_zero]
  obtain hs | hs | hs | hs := hs <;> simp only [act, hs]
  · split
    · have hnext : ((t.setCurrent (.object [])).eatws .objectFieldStart).weight =
          (t.below.map Srec.waitCost).sum + 1 := rfl
      exact .setNext rfl (by omega) (by omega)
    split
    · have hnext : ((t.setCurrent (.array [])).eatws .array).weight =
          (t.below.map Srec.waitCost).sum + 0 := rfl
      exact .setNext rfl (by omega) (by omega)
    split
    · exact .redo (bottom_eq rfl rfl) (Nat.le_of_eq (hgoto rfl rfl (Or.inl rfl)))
    split
    · refine .next rfl rfl ?_
      show (t.below.map Srec.waitCost).sum + (wholeCost t.top.current + 1 + 0) ≤ _
      omega
    split
    · exact .redo (bottom_eq rfl rfl) (Nat.le_of_eq (hgoto rfl rfl (Or.inr (Or.inl rfl))))
    split
    · exact .redo (bottom_eq rfl rfl) (Nat.le_of_eq (hgoto rfl rfl (Or.inr (Or.inr rfl))))
    · exact fair_error _
  · split
    · split
      · have hredo := hvalue (u := t.append [c]) (v := .null) rfl rfl
        exact .setRedo rfl (by omega) (by omega)
      · exact .next rfl rfl (Nat.le_succ_of_le (Nat.le_of_eq (hgoto rfl rfl (Or.inl hs))))
    · exact fair_error _
  · split
    · split
      · have hredo := hvalue (u := t.append [c]) (v := .boolean true) rfl rfl
        exact .setRedo rfl (by omega) (by omega)
      · exact .next rfl rfl (Nat.le_succ_of_le (Nat.le_of_eq (hgoto rfl rfl (Or.inr (Or.inl hs)))))
    split
    · split
      · have hredo := hvalue (u := t.append [c]) (v := .boolean false) rfl rfl
        exact .setRedo rfl (by omega) (by omega)
      · exact .next rfl rfl (Nat.le_succ_of_le (Nat.le_of_eq (hgoto rfl rfl (Or.inr (Or.inl hs)))))
    · exact fair_error _
  · split
    · exact .next rfl rfl (Nat.le_succ_of_le (Nat.le_of_eq (hgoto rfl rfl (Or.inr (Or.inr hs)))))
    · cases hv : numberOf F t with
      | none => exact fair_error _
      | some v =>
        have hredo := hvalue (u := t) (v := v) rfl (wholeCost_numberOf hv)
        exact .setRedo rfl (by omega) (by omega)

theorem bottom_down (t : JsonTokener D) (s : State) : (t.down s).bottom = t.bottom := by
  show (({ t.top with state := s } :: t.below).getLast?.getD _).current.members = _
  rw [JsonTokener.bottom, List.getLast?_cons]
  cases t.below.getLast? with
  | none => rfl
  | some r => rfl

theorem bottom_pop {l : Srec D} {ls : List (Srec D)} (hbelow : t.below = l :: ls)
    (htop : t'.top = l) (hbelow' : t'.below = ls) : t'.bottom = t.bottom := by
  rw [JsonTokener.bottom, JsonTokener.bottom, hbelow, htop, hbelow', List.getLast?_cons]
  cases ls.getLast? with
  | none => rfl
  | some r => rfl

theorem fair_finish (hs : t.top.state = .finish) (h : Inv F t) : Fair t (act F t c) := by
  have hweight := weight_of hs (by decide)
  simp only [act, hs]
  cases hbelow : t.below with
  | nil => exact fun _ => ⟨rfl, hs⟩
  | cons l ls =>
    have hstack := h.below
    rw [hbelow] at hstack
    have hneeds := hstack.1.2.ok
    have hle := valueCost_le t.top.current
    have hpart : t.part .finish = wholeCost t.top.current := rfl
    rw [hbelow, List.map_cons, List.sum_cons, hpart, Srec.waitCost] at hweight
    refine .redo (bottom_pop hbelow rfl rfl) ?_
    obtain hadds | hadds := hstack.1.1
    · simp only [Srec.Ok, hadds, State.Needs] at hneeds
      obtain ⟨vs, hvs⟩ := hneeds
      rw [weight_of (s := .arrayAdd) hadds (by decide), hweight]
      show (ls.map Srec.waitCost).sum + wholeCost l.current ≤ _
      rw [hvs]
      show (ls.map Srec.waitCost).sum + 0 ≤ _
      omega
    · rw [weight_of (s := .objectValueAdd) hadds (by decide), hweight, if_pos hadds]
      show (ls.map Srec.waitCost).sum + (cost l.current.members + 4 + l.name.length +
        valueCost t.top.current) ≤ _
      omega

/-- The states of an array, of which nothing counts. -/
theorem fair_array (hs : t.top.state = .array ∨ t.top.state = .arrayAdd ∨
    t.top.state = .arraySep) (h : Inv F t) : Fair t (act F t c) := by
  have hneeds := h.top.ok
  obtain ⟨vs, hcur⟩ : ∃ vs, t.top.current = .array vs := by
    obtain hs | hs | hs := hs <;> simp only [Srec.Ok, hs, State.Needs] at hneeds <;> exact hneeds
  have hsame : ∀ {t' : JsonTokener D}, t'.below = t.below → t'.topPart = 0 →
      t'.weight ≤ t.weight := by
    intro t' hbelow htop
    rw [JsonTokener.weight, JsonTokener.weight, hbelow, htop]
    exact Nat.le_add_right _ _
  have hzero : wholeCost t.top.current = 0 := by
    rw [hcur]
    rfl
  obtain hs | hs | hs := hs <;> simp only [act, hs]
  · split
    · exact .next rfl rfl (Nat.le_succ_of_le (hsame rfl hzero))
    split
    · exact fair_error _
    · refine .redo (bottom_down t _) ?_
      rw [JsonTokener.weight, JsonTokener.weight]
      show (0 + (t.below.map Srec.waitCost).sum) + 0 ≤ _
      omega
  · simp only [hcur]
    exact .setRedo rfl (hsame rfl rfl) (by omega)
  · split
    · exact .next rfl rfl (Nat.le_succ_of_le (hsame rfl hzero))
    split
    · exact .next rfl rfl (Nat.le_succ_of_le (hsame rfl hzero))
    · exact fair_error _

/-- The states of an object but the one that adds a member. -/
theorem fair_object (hs : t.top.state = .objectFieldStart ∨ t.top.state = .objectFieldEnd ∨
    t.top.state = .objectValue ∨ t.top.state = .objectSep) (h : Inv F t) :
    Fair t (act F t c) := by
  have hneeds := h.top.ok
  have hobject : ∃ ms, t.top.current = .object ms := by
    obtain hs | hs | hs | hs := hs <;> simp only [Srec.Ok, hs, State.Needs] at hneeds
    · exact hneeds
    · exact hneeds.1
    · exact hneeds.1
    · exact hneeds
  have hwhole : wholeCost t.top.current = cost t.top.current.members + 1 := by
    obtain ⟨ms, hms⟩ := hobject
    rw [hms]
    rfl
  obtain hs | hs | hs | hs := hs <;> have hweight := weight_of hs (by decide) <;>
    rw [JsonTokener.part] at hweight <;> simp only [act, hs]
  · split
    · refine .next rfl rfl ?_
      show (t.below.map Srec.waitCost).sum + wholeCost t.top.current ≤ _
      omega
    split
    · refine .next rfl rfl ?_
      show (t.below.map Srec.waitCost).sum + (cost t.top.current.members + 2 + 0) ≤ _
      omega
    · exact fair_error _
  · split
    · refine .next rfl rfl ?_
      show (t.below.map Srec.waitCost).sum + (cost t.top.current.members + 4 +
        t.top.name.length) ≤ _
      omega
    · exact fair_error _
  · split
    · exact fair_error _
    · refine .redo (bottom_down t _) ?_
      show (cost t.top.current.members + 4 + t.top.name.length + (t.below.map Srec.waitCost).sum) +
        0 ≤ _
      omega
  · split
    · refine .next rfl rfl ?_
      show (t.below.map Srec.waitCost).sum + wholeCost t.top.current ≤ _
      omega
    split
    · refine .next rfl rfl ?_
      show (t.below.map Srec.waitCost).sum + (cost t.top.current.members + 1) ≤ _
      omega
    · exact fair_error _

/-- A member is lost only to another one of its name. -/
theorem mem_objectAdd_of_ne {ms : List (Bytes × JsonObject D)} {m : Bytes × JsonObject D}
    {k : Bytes} (v : JsonObject D) (hm : m ∈ ms) (hne : m.1 ≠ k) : m ∈ objectAdd ms k v :=
  List.mem_append_left _ ((List.mem_eraseP_of_neg (by simpa using hne)).2 hm)

theorem fair_objectValueAdd (hs : t.top.state = .objectValueAdd) (h : Inv F t) :
    Fair t (act F t c) := by
  have hneeds := h.top.ok
  simp only [Srec.Ok, hs, State.Needs] at hneeds
  obtain ⟨⟨ms, hcur⟩, hname⟩ := hneeds
  obtain ⟨k, hname⟩ := Option.isSome_iff_exists.1 hname
  have hcost := cost_objectAdd ms k t.obj
  have hweight := weight_of hs (by decide)
  simp only [JsonTokener.part, hcur, Srec.name, hname, JsonObject.members, Option.getD_some]
    at hweight
  simp only [memberCost] at hcost
  simp only [act, hs, hcur, hname]
  constructor
  · show (t.below.map Srec.waitCost).sum + cost (objectAdd ms k t.obj) ≤ t.weight
    omega
  · intro m hm
    rw [JsonTokener.bottom] at hm ⊢
    show m ∈ (t.below.getLast?.getD _).current.members ∨
      (t.below.map Srec.waitCost).sum + cost (objectAdd ms k t.obj) < t.weight
    cases hlast : t.below.getLast? with
    | some r =>
      rw [hlast] at hm
      exact Or.inl hm
    | none =>
      rw [hlast, Option.getD_none, hcur] at hm
      by_cases hk : m.1 = k
      · have hin : k ∈ ms.map Prod.fst := hk ▸ List.mem_map_of_mem hm
        rw [if_pos hin] at hcost
        exact Or.inr (by omega)
      · exact Or.inl (mem_objectAdd_of_ne t.obj hm hk)

/-- One turn. -/
theorem act_fair (h : Inv F t) (c : UInt8) : Fair t (act F t c) := by
  cases hs : t.top.state with
  | eatws => exact (fair_blank h (Or.inl hs)).1
  | start => exact fair_value (Or.inl hs)
  | finish => exact fair_finish hs h
  | null => exact fair_value (Or.inr (Or.inl hs))
  | commentStart => exact (fair_blank h (Or.inr (Or.inl hs))).1
  | comment => exact (fair_blank h (Or.inr (Or.inr (Or.inl hs)))).1
  | commentEol => exact (fair_blank h (Or.inr (Or.inr (Or.inr (Or.inl hs))))).1
  | commentEnd => exact (fair_blank h (Or.inr (Or.inr (Or.inr (Or.inr hs))))).1
  | string => exact (fair_text (Or.inl hs)).1
  | stringEscape => exact fair_escape h (Or.inl hs)
  | escapeUnicode => exact fair_escape h (Or.inr hs)
  | boolean => exact fair_value (Or.inr (Or.inr (Or.inl hs)))
  | number => exact fair_value (Or.inr (Or.inr (Or.inr hs)))
  | array => exact fair_array (Or.inl hs) h
  | arrayAdd => exact fair_array (Or.inr (Or.inl hs)) h
  | arraySep => exact fair_array (Or.inr (Or.inr hs)) h
  | objectFieldStart => exact fair_object (Or.inl hs) h
  | objectField => exact (fair_text (Or.inr hs)).1
  | objectFieldEnd => exact fair_object (Or.inr (Or.inl hs)) h
  | objectValue => exact fair_object (Or.inr (Or.inr (Or.inl hs))) h
  | objectValueAdd => exact fair_objectValueAdd hs h
  | objectSep => exact fair_object (Or.inr (Or.inr (Or.inr hs))) h

end Turns

section Runs

variable {t u : JsonTokener D} {a b y : JsonTokener D × Bytes} {c : UInt8} {s : Bytes}

theorem inv_steps (h : Inv F a.1) (hsteps : Steps F a b) : Inv F b.1 := by
  induction hsteps with
  | refl => exact h
  | tail _ hstep ih =>
    cases hstep with
    | next hact => exact ih.turn (.next hact)
    | redo hact => exact ih.turn (.redo hact)

theorem energy_mk (t : JsonTokener D) (s : Bytes) : energy (t, s) = t.weight + s.length := rfl

/-- No run makes up for more than it takes from the text, and one that loses a member of the
lowest level makes up for less. -/
theorem energy_steps (h : Inv F a.1) (hsteps : Steps F a b) :
    energy b ≤ energy a ∧ ∀ m ∈ a.1.bottom, m ∈ b.1.bottom ∨ energy b < energy a := by
  induction hsteps with
  | refl => exact ⟨Nat.le_refl _, fun m hm => Or.inl hm⟩
  | @tail b d hab hstep ih =>
    have hinv := inv_steps h hab
    have hone : energy d ≤ energy b ∧ ∀ m ∈ b.1.bottom, m ∈ d.1.bottom ∨ energy d < energy b := by
      cases hstep with
      | @next t t' c s hact =>
        have hfair := act_fair (t := t) hinv c
        rw [hact] at hfair
        obtain ⟨hle, hbottom⟩ := hfair
        rw [energy_mk, energy_mk, List.length_cons]
        exact ⟨by omega, fun m hm => (hbottom m hm).imp_right fun hlt => by omega⟩
      | @redo t t' c s hact =>
        have hfair := act_fair (t := t) hinv c
        rw [hact] at hfair
        refine ⟨Nat.add_le_add_right hfair.1 _, fun m hm => (hfair.2 m hm).imp_right fun hlt => ?_⟩
        exact Nat.add_lt_add_right hlt _
    refine ⟨hone.1.trans ih.1, fun m hm => ?_⟩
    obtain hin | hlt := ih.2 m hm
    · exact (hone.2 m hin).imp_right fun hlt => hlt.trans_le ih.1
    · exact Or.inr (hone.1.trans_lt hlt)

theorem step_unique : Relator.RightUnique (Step F : JsonTokener D × Bytes → _ → Prop) := by
  intro a b d hb hd
  cases hb with
  | next hact =>
    cases hd with
    | next hact' => rw [Act.next.inj (Option.some.inj (hact.symm.trans hact'))]
    | redo hact' => cases hact.symm.trans hact'
  | redo hact =>
    cases hd with
    | next hact' => cases hact.symm.trans hact'
    | redo hact' => rw [Act.redo.inj (Option.some.inj (hact.symm.trans hact'))]

/-- Where nothing more than the terminator is read. -/
def Last (F : Floats D) (y : JsonTokener D × Bytes) : Prop := ∀ z, Step F y z → z.2 = []

/-- Everything that a run comes to is on the way to its end. -/
theorem steps_last (hb : Steps F a b) (hy : Steps F a y) (hlast : Last F y) (hne : b.2 ≠ []) :
    Steps F b y := by
  obtain h | h := ReflTransGen.total_of_right_unique step_unique hb hy
  · exact h
  · obtain heq | ⟨z, hstep, hz⟩ := ReflTransGen.cases_head h
    · rw [heq]
    · have hempty := hlast z hstep
      obtain heq | ⟨x, hstep', -⟩ := ReflTransGen.cases_head hz
      · exact absurd (heq ▸ hempty) hne
      · cases hstep' with
        | next => cases hempty
        | redo => cases hempty

theorem takeChar_steps {k : Nat} {x : Read D} (h : takeChar F k t c = some x) (r : Bytes) :
    ∃ w, Steps F (t, c :: r) (w, c :: r) ∧ (∀ u, x = .more u → act F w c = some (.next u)) ∧
      ∀ u e, x = .out u e → act F w c = some (.out u e) := by
  induction k generalizing t with
  | zero => cases h
  | succ k ih =>
    rw [takeChar] at h
    cases hact : act F t c with
    | none =>
      rw [hact] at h
      cases h
    | some a =>
      rw [hact] at h
      cases a with
      | next t' =>
        obtain rfl := Option.some.inj h
        refine ⟨t, .refl, fun u hu => ?_, fun u e hu => by cases hu⟩
        rw [hact, Read.more.inj hu]
      | redo t' =>
        obtain ⟨w, hw, hmore, hout⟩ := ih h
        exact ⟨w, steps_redo hact hw, hmore, hout⟩
      | out t' e =>
        obtain rfl := Option.some.inj h
        refine ⟨t, .refl, fun u hu => (by cases hu), fun u e hu => ?_⟩
        obtain ⟨rfl, rfl⟩ := Read.out.inj hu
        exact hact

/-- The states that go on behind the terminator. -/
theorem state_of_next_nul (hact : act F t 0 = some (.next u)) :
    t.top.state.Blank ∨ t.top.state = .null ∨ t.top.state = .boolean ∨ t.top.state = .string ∨
      t.top.state = .objectField ∨ t.top.state = .escapeUnicode := by
  cases hs : t.top.state with
  | eatws => exact Or.inl (Or.inl rfl)
  | commentStart => exact Or.inl (Or.inr (Or.inl rfl))
  | comment => exact Or.inl (Or.inr (Or.inr (Or.inl rfl)))
  | commentEol => exact Or.inl (Or.inr (Or.inr (Or.inr (Or.inl rfl))))
  | commentEnd => exact Or.inl (Or.inr (Or.inr (Or.inr (Or.inr rfl))))
  | null => exact Or.inr (Or.inl rfl)
  | boolean => exact Or.inr (Or.inr (Or.inl rfl))
  | string => exact Or.inr (Or.inr (Or.inr (Or.inl rfl)))
  | objectField => exact Or.inr (Or.inr (Or.inr (Or.inr (Or.inl rfl))))
  | escapeUnicode => exact Or.inr (Or.inr (Or.inr (Or.inr (Or.inr rfl))))
  | stringEscape =>
    have hnone : escaped 0 = none := by decide
    simp only [act, hs, hnone] at hact
    exact absurd hact (by simp)
  | number =>
    have hno : isNumberChar 0 = false := by decide
    simp only [act, hs, hno] at hact
    cases hv : numberOf F t <;> simp [hv] at hact
  | finish =>
    simp only [act, hs] at hact
    cases hbelow : t.below <;> simp [hbelow] at hact
  | arrayAdd =>
    simp only [act, hs] at hact
    cases hcur : t.top.current <;> simp [hcur] at hact
  | objectValueAdd =>
    simp only [act, hs] at hact
    split at hact
    · cases hact
    · cases hact
  | array | objectValue =>
    simp [act, hs] at hact
    split at hact
    · cases hact
    · cases hact
  | start | arraySep | objectFieldStart | objectFieldEnd | objectSep =>
    simp [act, hs, isDigit] at hact

/-- The terminator is read in a comment behind the value, or the value does not count yet. -/
theorem next_nul {ms : List (Bytes × JsonObject D)} (h : Inv F t)
    (hact : act F t 0 = some (.next u)) (heof : eof u = none) (hms : u.top.current = .object ms) :
    u.top.current = t.top.current ∧
      (t.below.map Srec.waitCost).sum + wholeCost u.top.current ≤ t.weight := by
  have hok := h.top.ok
  -- an object that is read is still what the level has
  have hkeep : u.top.current = t.top.current → ∀ n, (∀ {ms}, t.top.current = .object ms →
      cost ms + 1 ≤ n) → t.weight = (t.below.map Srec.waitCost).sum + n →
      u.top.current = t.top.current ∧
        (t.below.map Srec.waitCost).sum + wholeCost u.top.current ≤ t.weight := by
    intro hcur n hle hweight
    have hroom := hle (hcur ▸ hms)
    refine ⟨hcur, ?_⟩
    rw [hweight, hms, wholeCost]
    omega
  obtain hs | hs | hs | hs | hs | hs := state_of_next_nul hact
  · obtain ⟨hbelow, hcur, hweight, hblank⟩ := (fair_blank h hs).2 u hact
    have hsaved : u.top.savedState = .finish := by
      rw [eof] at heof
      by_contra hne
      have hstate : u.top.state ≠ .finish := by
        obtain hb | hb | hb | hb | hb := hblank <;> simp [hb]
      rw [if_pos ⟨hstate, hne⟩] at heof
      cases heof
    refine ⟨hcur, ?_⟩
    rw [← hweight, weight_blank hblank, hsaved, hbelow]
    exact Nat.le_refl _
  · rw [act_null hs] at hact
    split at hact
    · split at hact
      · cases hact
      · obtain rfl := Act.next.inj (Option.some.inj hact)
        refine hkeep rfl (wholeCost t.top.current) (fun hcur => ?_) (weight_of hs (by decide))
        rw [hcur, wholeCost]
    · cases hact
  · rw [act_boolean hs] at hact
    split at hact
    · split at hact
      · cases hact
      · obtain rfl := Act.next.inj (Option.some.inj hact)
        refine hkeep rfl (wholeCost t.top.current) (fun hcur => ?_) (weight_of hs (by decide))
        rw [hcur, wholeCost]
    split at hact
    · split at hact
      · cases hact
      · obtain rfl := Act.next.inj (Option.some.inj hact)
        refine hkeep rfl (wholeCost t.top.current) (fun hcur => ?_) (weight_of hs (by decide))
        rw [hcur, wholeCost]
    · cases hact
  · simp only [act, hs] at hact
    split at hact
    · obtain rfl := Act.next.inj (Option.some.inj hact)
      cases hms
    rw [if_neg (by decide)] at hact
    obtain rfl := Act.next.inj (Option.some.inj hact)
    refine hkeep rfl (wholeCost t.top.current + 1 + t.pb.length) (fun hcur => ?_)
      (weight_of hs (by decide))
    rw [hcur, wholeCost]
    omega
  · have hweight := weight_of hs (by decide)
    rw [JsonTokener.part] at hweight
    have hle : ∀ {ms}, t.top.current = .object ms →
        cost ms + 1 ≤ cost t.top.current.members + 2 + t.pb.length := by
      intro ms hcur
      rw [hcur, JsonObject.members]
      omega
    simp only [act, hs] at hact
    split at hact
    · obtain rfl := Act.next.inj (Option.some.inj hact)
      exact hkeep rfl _ hle hweight
    rw [if_neg (by decide)] at hact
    obtain rfl := Act.next.inj (Option.some.inj hact)
    exact hkeep rfl _ hle hweight
  · simp only [Srec.Ok, hs] at hok
    have hweight : t.weight =
        (t.below.map Srec.waitCost).sum + (t.part t.top.savedState + t.stPos) := by
      rw [JsonTokener.weight, JsonTokener.topPart, hs]
    have hle : ∀ {ms}, t.top.current = .object ms →
        cost ms + 1 ≤ t.part t.top.savedState + t.stPos := by
      intro ms hcur
      obtain hsaved | hsaved := hok.1
      · rw [hsaved, JsonTokener.part, hcur, wholeCost]
        omega
      · rw [hsaved, JsonTokener.part, hcur, JsonObject.members]
        omega
    have hc : isHexChar 0 = true := by decide
    by_cases hpos : t.stPos + 1 = 4
    · rw [hex_end hs hc (by omega)] at hact
      obtain rfl := Act.next.inj (Option.some.inj hact)
      exact hkeep rfl _ hle hweight
    · rw [hex_next (n := t.stPos) hs hc rfl hpos] at hact
      obtain rfl := Act.next.inj (Option.some.inj hact)
      exact hkeep rfl _ hle hweight

/-- A parse that succeeds is a run to a last place, where the object counts. -/
theorem last_of_parseEx {ms : List (Bytes × JsonObject D)} (h : Inv F t) (hnul : 0 ∉ s)
    (hparse : jsonTokenerParseEx F t s = some (u, none)) (hms : u.top.current = .object ms) :
    ∃ y, Steps F (t, s ++ [0]) y ∧ Last F y ∧ y.1.top.current = .object ms ∧
      (y.1.below.map Srec.waitCost).sum + cost ms + 2 ≤ energy y := by
  have hlast : ∀ {t : JsonTokener D} {c : UInt8} (r : Bytes), Inv F t →
      takeChar F TURNS t c = some (.out u none) → ∃ y, Steps F (t, c :: r) y ∧ Last F y ∧
        y.1.top.current = .object ms ∧
          (y.1.below.map Srec.waitCost).sum + cost ms + 2 ≤ energy y := by
    intro t c r h htake
    obtain ⟨w, hw, -, hout⟩ := takeChar_steps htake r
    have hact := hout u none rfl
    have hfair := act_fair (t := w) (inv_steps h hw) c
    rw [hact] at hfair
    obtain ⟨rfl, hstate⟩ := hfair rfl
    refine ⟨_, hw, fun z hz => ?_, hms, ?_⟩
    · cases hz with
      | next hact' => cases hact.symm.trans hact'
      | redo hact' => cases hact.symm.trans hact'
    · have hpart : u.part .finish = wholeCost u.top.current := rfl
      have hweight := weight_of hstate (by decide)
      rw [hpart, hms, wholeCost] at hweight
      rw [energy_mk, List.length_cons, hweight]
      show (u.below.map Srec.waitCost).sum + cost ms + 2 ≤ _
      omega
  induction s generalizing t with
  | nil =>
    rw [jsonTokenerParseEx] at hparse
    cases htake : takeChar F TURNS t 0 with
    | none =>
      rw [htake] at hparse
      cases hparse
    | some x =>
      rw [htake] at hparse
      cases x with
      | more v =>
        obtain ⟨rfl, heof⟩ := Prod.mk.inj (Option.some.inj hparse)
        obtain ⟨w, hw, hmore, -⟩ := takeChar_steps htake []
        have hact := hmore v rfl
        obtain ⟨hcur, hle⟩ := next_nul (t := w) (inv_steps h hw) hact heof hms
        rw [hms, wholeCost] at hle
        refine ⟨_, hw, fun z hz => ?_, hcur ▸ hms, ?_⟩
        · cases hz with
          | next => rfl
          | redo hact' => cases hact.symm.trans hact'
        · rw [energy_mk, List.length_singleton]
          show (w.below.map Srec.waitCost).sum + cost ms + 2 ≤ _
          omega
      | out v e =>
        obtain ⟨rfl, rfl⟩ := Prod.mk.inj (Option.some.inj hparse)
        exact hlast [] h htake
  | cons c s ih =>
    rw [List.mem_cons, not_or] at hnul
    rw [jsonTokenerParseEx] at hparse
    cases htake : takeChar F TURNS t c with
    | none =>
      rw [htake] at hparse
      cases hparse
    | some x =>
      rw [htake] at hparse
      cases x with
      | more v =>
        obtain ⟨w, hw, hmore, -⟩ := takeChar_steps htake (s ++ [0])
        have hstep : Steps F (t, c :: s ++ [0]) (v, s ++ [0]) :=
          hw.trans (steps_next (hmore v rfl) .refl)
        have hrest : jsonTokenerParseEx F v s = some (u, none) :=
          (if_neg (Ne.symm hnul.1)).symm.trans hparse
        obtain ⟨y, hy, hy'⟩ := ih (inv_steps h hstep) hnul.2 hrest
        exact ⟨y, hstep.trans hy, hy'⟩
      | out v e =>
        obtain ⟨rfl, rfl⟩ := Prod.mk.inj (Option.some.inj hparse)
        exact hlast (s ++ [0]) h htake

end Runs

end Doorhinges.JsonC

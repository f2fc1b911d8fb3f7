import Doorhinges.JsonC.Tokener
import Mathlib.Data.List.TakeWhile
import Mathlib.Logic.Relation

/-!
# The tokener is safe

What holds between two turns of the tokener: each level has what its state needs, and there is
room for the values on it. No turn is undefined, a character is taken in few states, and the
values are proper.
-/
namespace Doorhinges.JsonC

open Lib.CString

variable {D : Type} {F : Floats D}

section Invariant

/-- What a state needs of its level. -/
@[simp] def State.Needs (s : State) (r : Srec D) : Prop :=
  match s with
  | .array | .arrayAdd | .arraySep => ∃ vs, r.current = .array vs
  | .objectFieldStart | .objectField | .objectSep => ∃ ms, r.current = .object ms
  | .objectFieldEnd | .objectValue | .objectValueAdd =>
    (∃ ms, r.current = .object ms) ∧ r.objFieldName.isSome
  | _ => True

/-- The states that come behind blanks and comments. -/
def State.Waits : State → Prop
  | .start | .finish | .array | .arraySep | .objectFieldStart | .objectFieldEnd | .objectValue
  | .objectSep => True
  | _ => False

/-- The states that take the value of the level above. -/
def State.Adds (s : State) : Prop := s = .arrayAdd ∨ s = .objectValueAdd

/-- The level has what its state and the one behind it need. -/
def Srec.Ok (r : Srec D) : Prop :=
  match r.state with
  | .eatws | .commentStart | .comment | .commentEol | .commentEnd =>
    r.savedState.Waits ∧ r.savedState.Needs r
  | .stringEscape | .escapeUnicode =>
    (r.savedState = .string ∨ r.savedState = .objectField) ∧ r.savedState.Needs r
  | s => s.Needs r

structure Srec.Good (P : D → Prop) (depth : Nat) (r : Srec D) : Prop where
  ok : r.Ok
  proper : Proper P r.current
  room : nest r.current + depth < JSON_TOKENER_MAX_DEPTH
  name : ∀ k, r.objFieldName = some k → 0 ∉ k

/-- The levels below wait for a value. -/
def Stack (P : D → Prop) : List (Srec D) → Prop
  | [] => True
  | r :: rs => (r.state.Adds ∧ r.Good P rs.length) ∧ Stack P rs

/-- A `double` that has been read. -/
def Scanned (F : Floats D) (d : D) : Prop := ∃ s, F.sscanf s = some d

structure Inv (F : Floats D) (t : JsonTokener D) : Prop where
  top : t.top.Good (Scanned F) t.depth
  below : Stack (Scanned F) t.below
  obj : t.top.state.Adds →
    Proper (Scanned F) t.obj ∧ nest t.obj + 1 + t.depth < JSON_TOKENER_MAX_DEPTH

/-- How many states may still take the character. -/
def State.rank : State → Nat
  | .array | .objectValue => 8
  | .start => 6
  | .null | .boolean | .number => 5
  | .finish => 3
  | .arrayAdd | .objectValueAdd => 2
  | _ => 0

def JsonTokener.rank (t : JsonTokener D) : Nat :=
  if t.top.state = .eatws then t.top.savedState.rank + 1 else t.top.state.rank

theorem rank_lt (t : JsonTokener D) : t.rank < TURNS := by
  have hstate : ∀ s : State, s.rank ≤ 8 := by
    intro s
    cases s <;> decide
  have hsaved := hstate t.top.savedState
  have hstate := hstate t.top.state
  rw [JsonTokener.rank, TURNS]
  split <;> omega

/-- What a turn of a tokener may do. -/
def Act.Ok (F : Floats D) (t : JsonTokener D) : Act D → Prop
  | .next t' => Inv F t'
  | .redo t' => Inv F t' ∧ t'.rank < t.rank
  | .out t' e => e = none →
    Proper (Scanned F) t'.top.current ∧ nest t'.top.current < JSON_TOKENER_MAX_DEPTH

end Invariant

section Steps

variable {t t' : JsonTokener D} {r : Srec D} {s : State} {c : UInt8}

theorem fresh_not_adds : ¬ (Srec.fresh D).state.Adds := by simp [Srec.fresh, State.Adds]

theorem State.Needs.congr {r' : Srec D} (h : s.Needs r) (hcur : r'.current = r.current)
    (hname : r'.objFieldName = r.objFieldName) : s.Needs r' := by
  unfold State.Needs at h ⊢
  rw [hcur, hname]
  exact h

theorem State.Waits.not_adds (h : s.Waits) : ¬ s.Adds := by
  intro hadds
  obtain rfl | rfl := hadds
  · exact h
  · exact h

theorem Srec.ok_of_waits (hwaits : r.state.Waits) (h : r.state.Needs r) : r.Ok := by
  unfold Srec.Ok
  cases hs : r.state with
  | stringEscape | escapeUnicode | eatws | commentStart | comment | commentEol | commentEnd =>
    rw [hs] at hwaits
    exact hwaits.elim
  | _ =>
    rw [hs] at h
    exact h

/-- A turn within a level. -/
theorem Inv.within (h : Inv F t) (hbelow : t'.below = t.below) (hok : t'.top.Ok)
    (hadds : ¬ t'.top.state.Adds) (hproper : Proper (Scanned F) t'.top.current)
    (hroom : nest t'.top.current + t.depth < JSON_TOKENER_MAX_DEPTH)
    (hname : ∀ k, t'.top.objFieldName = some k → 0 ∉ k) : Inv F t' := by
  have hdepth : t'.depth = t.depth := congrArg List.length hbelow
  refine ⟨⟨hok, hproper, ?_, hname⟩, ?_, fun hadd => absurd hadd hadds⟩
  · rw [hdepth]
    exact hroom
  · rw [hbelow]
    exact h.below

/-- A turn that keeps the value of the level. -/
theorem Inv.kept (h : Inv F t) (hbelow : t'.below = t.below) (hok : t'.top.Ok)
    (hadds : ¬ t'.top.state.Adds) (hcur : t'.top.current = t.top.current)
    (hname : t'.top.objFieldName = t.top.objFieldName) : Inv F t' := by
  refine h.within hbelow hok hadds ?_ ?_ ?_
  · rw [hcur]
    exact h.top.proper
  · rw [hcur]
    exact h.top.room
  · rw [hname]
    exact h.top.name

/-- A turn that leaves the levels as they are. -/
theorem Inv.same (h : Inv F t) (hbelow : t'.below = t.below) (htop : t'.top = t.top)
    (hadds : ¬ t.top.state.Adds) : Inv F t' :=
  h.kept hbelow (htop ▸ h.top.ok) (htop ▸ hadds) (by rw [htop]) (by rw [htop])

/-- Blanks and comments may come next. -/
theorem Inv.eatws (h : Inv F t) (hwaits : s.Waits) (hneeds : s.Needs t.top) :
    Inv F (t.eatws s) :=
  h.kept rfl ⟨hwaits, hneeds.congr rfl rfl⟩ (by simp [JsonTokener.eatws, State.Adds]) rfl rfl

/-- A value without members or elements. -/
theorem Inv.scalar (h : Inv F t) {v : JsonObject D} (hv : Proper (Scanned F) v)
    (hnest : nest v = 0) : Inv F ((t.setCurrent v).eatws .finish) := by
  refine h.within rfl ⟨trivial, trivial⟩ (by simp [JsonTokener.eatws, State.Adds]) hv ?_ h.top.name
  show nest v + t.depth < _
  have hroom := h.top.room
  omega

/-- A turn that is defined and does what it may. -/
def Safe (F : Floats D) (t : JsonTokener D) : Option (Act D) → Prop
  | none => False
  | some a => a.Ok F t

theorem safe_error (e : Err) : Safe F t (some (.out t' (some e))) := by
  intro he
  cases he

/-- A state that is no start of an escape and no blank is left for another. -/
theorem rank_goto (hs : s ≠ .eatws) : (t.goto s).rank = s.rank := if_neg hs

theorem rank_of (hs : t.top.state = s) (hne : s ≠ .eatws) : t.rank = s.rank := by
  rw [JsonTokener.rank, if_neg (hs ▸ hne), hs]

theorem safe_eatws (h : Inv F t) (hs : t.top.state = .eatws) : Safe F t (act F t c) := by
  have hok := h.top.ok
  simp only [Srec.Ok, hs] at hok
  obtain ⟨hwaits, hneeds⟩ := hok
  simp only [act, hs]
  split
  · exact h
  split
  · refine h.kept rfl ⟨hwaits, hneeds.congr rfl rfl⟩ ?_ rfl rfl
    simp [JsonTokener.goto, State.Adds]
  · have hne : t.top.savedState ≠ .eatws := by
      intro heq
      rw [heq] at hwaits
      exact hwaits
    refine ⟨h.kept rfl (Srec.ok_of_waits hwaits (hneeds.congr rfl rfl)) hwaits.not_adds rfl rfl, ?_⟩
    rw [rank_goto hne, JsonTokener.rank, if_pos hs]
    exact Nat.lt_succ_self _

theorem safe_start (h : Inv F t) (hs : t.top.state = .start) : Safe F t (act F t c) := by
  have hroom : t.depth < JSON_TOKENER_MAX_DEPTH := by
    have hroom := h.top.room
    omega
  have hrank := rank_of hs (by decide)
  -- a word or a number is begun with the character that announces it
  have hbegin : ∀ {t'} {s : State}, t'.below = t.below → t'.top = (t.goto s).top →
      s = .null ∨ s = .boolean ∨ s = .number → Inv F t' ∧ t'.rank < t.rank := by
    intro t' s hbelow htop hstate
    constructor
    · refine h.kept hbelow ?_ ?_ ?_ ?_ <;> rw [htop]
      · obtain rfl | rfl | rfl := hstate <;> trivial
      · obtain rfl | rfl | rfl := hstate <;> simp [JsonTokener.goto, State.Adds]
      · rfl
      · rfl
    · have hrank' : t'.rank = s.rank := by
        obtain rfl | rfl | rfl := hstate <;> exact rank_of (by rw [htop]; rfl) (by decide)
      rw [hrank, hrank']
      obtain rfl | rfl | rfl := hstate <;> decide
  simp only [act, hs]
  split
  · refine h.within rfl ⟨trivial, [], rfl⟩ ?_ (.object List.nodup_nil (by simp) (by simp)) ?_
      h.top.name
    · simp [JsonTokener.eatws, State.Adds]
    · show nest (.object []) + t.depth < _
      rwa [nest, nestMembers, Nat.zero_add]
  split
  · refine h.within rfl ⟨trivial, [], rfl⟩ ?_ (.array (by simp)) ?_ h.top.name
    · simp [JsonTokener.eatws, State.Adds]
    · show nest (.array []) + t.depth < _
      rwa [nest, nestElements, Nat.zero_add]
  split
  · exact hbegin (s := .null) rfl rfl (Or.inl rfl)
  split
  · exact h.kept rfl trivial (by simp [JsonTokener.goto, State.Adds]) rfl rfl
  split
  · exact hbegin (s := .boolean) rfl rfl (Or.inr (Or.inl rfl))
  split
  · exact hbegin (s := .number) rfl rfl (Or.inr (Or.inr rfl))
  · exact safe_error _

theorem safe_finish (h : Inv F t) (hs : t.top.state = .finish) : Safe F t (act F t c) := by
  simp only [act, hs]
  have hroom := h.top.room
  cases hbelow : t.below with
  | nil =>
    intro _
    exact ⟨h.top.proper, by omega⟩
  | cons r rs =>
    have hstack := h.below
    rw [hbelow] at hstack
    obtain ⟨⟨hadds, hgood⟩, hrest⟩ := hstack
    refine ⟨⟨hgood, hrest, fun _ => ⟨h.top.proper, ?_⟩⟩, ?_⟩
    · rw [JsonTokener.depth, hbelow, List.length_cons] at hroom
      show nest t.top.current + 1 + rs.length < _
      omega
    · rw [rank_of hs (by decide)]
      obtain hadds | hadds := hadds
      · exact (rank_of hadds (by decide)).trans_lt (by decide)
      · exact (rank_of hadds (by decide)).trans_lt (by decide)

/-- The end of a word or a number. -/
theorem scalar_ok (h : Inv F t) {u : JsonTokener D} {v : JsonObject D}
    (hv : Proper (Scanned F) v) (hnest : nest v = 0) (hbelow : u.below = t.below)
    (htop : u.top = t.top) (hrank : t.rank = 5) :
    (Act.redo ((u.setCurrent v).eatws .finish)).Ok F t := by
  constructor
  · refine h.within hbelow ⟨trivial, trivial⟩ (by simp [JsonTokener.eatws, State.Adds]) hv ?_ ?_
    · show nest v + t.depth < _
      have hroom := h.top.room
      omega
    · show ∀ k, u.top.objFieldName = some k → 0 ∉ k
      rw [htop]
      exact h.top.name
  · rw [hrank]
    show (4 : Nat) < 5
    decide

theorem safe_null (h : Inv F t) (hs : t.top.state = .null) : Safe F t (act F t c) := by
  have hadds : ¬ t.top.state.Adds := by simp [hs, State.Adds]
  simp only [act, hs]
  split
  · split
    · exact scalar_ok (u := t.append [c]) h .null rfl rfl rfl (rank_of hs (by decide))
    · exact h.same rfl rfl hadds
  · exact safe_error _

theorem safe_boolean (h : Inv F t) (hs : t.top.state = .boolean) : Safe F t (act F t c) := by
  have hadds : ¬ t.top.state.Adds := by simp [hs, State.Adds]
  simp only [act, hs]
  split
  · split
    · exact scalar_ok (u := t.append [c]) h (.boolean true) rfl rfl rfl (rank_of hs (by decide))
    · exact h.same rfl rfl hadds
  split
  · split
    · exact scalar_ok (u := t.append [c]) h (.boolean false) rfl rfl rfl (rank_of hs (by decide))
    · exact h.same rfl rfl hadds
  · exact safe_error _

theorem proper_numberOf {v : JsonObject D} (h : numberOf F t = some v) :
    Proper (Scanned F) v ∧ nest v = 0 := by
  rw [numberOf] at h
  split at h
  · obtain ⟨d, hd, rfl⟩ := Option.map_eq_some_iff.1 h
    exact ⟨.double ⟨_, hd⟩, rfl⟩
  · obtain ⟨i, -, rfl⟩ := Option.map_eq_some_iff.1 h
    exact ⟨.int i, rfl⟩

theorem safe_number (h : Inv F t) (hs : t.top.state = .number) : Safe F t (act F t c) := by
  have hadds : ¬ t.top.state.Adds := by simp [hs, State.Adds]
  simp only [act, hs]
  split
  · exact h.same rfl rfl hadds
  · cases hnum : numberOf F t with
    | none => exact safe_error _
    | some v =>
      obtain ⟨hproper, hnest⟩ := proper_numberOf hnum
      exact scalar_ok (u := t) h hproper hnest rfl rfl (rank_of hs (by decide))

theorem safe_comment (h : Inv F t) (hs : t.top.state = .commentStart ∨ t.top.state = .comment ∨
    t.top.state = .commentEol ∨ t.top.state = .commentEnd) : Safe F t (act F t c) := by
  have hok := h.top.ok
  have hadds : ¬ t.top.state.Adds := by
    obtain hs | hs | hs | hs := hs <;> simp [hs, State.Adds]
  have hwaits : t.top.savedState.Waits ∧ t.top.savedState.Needs t.top := by
    obtain hs | hs | hs | hs := hs <;> simpa only [Srec.Ok, hs] using hok
  have hgoto : ∀ {t'} {s : State}, t'.below = t.below → t'.top = (t.goto s).top →
      s = .eatws ∨ s = .comment ∨ s = .commentEol ∨ s = .commentEnd → Inv F t' := by
    intro t' s hbelow htop hstate
    refine h.kept hbelow ?_ ?_ ?_ ?_ <;> rw [htop]
    · obtain rfl | rfl | rfl | rfl := hstate <;>
        exact ⟨hwaits.1, hwaits.2.congr rfl rfl⟩
    · obtain rfl | rfl | rfl | rfl := hstate <;> simp [JsonTokener.goto, State.Adds]
    · rfl
    · rfl
  obtain hs | hs | hs | hs := hs <;> simp only [act, hs]
  · split
    · exact hgoto (s := .comment) rfl rfl (by simp)
    split
    · exact hgoto (s := .commentEol) rfl rfl (by simp)
    · exact safe_error _
  · split
    · exact hgoto (s := .commentEnd) rfl rfl (by simp)
    · exact h.same rfl rfl hadds
  · split
    · exact hgoto (s := .eatws) rfl rfl (by simp)
    · exact h.same rfl rfl hadds
  · split
    · exact hgoto (s := .eatws) rfl rfl (by simp)
    · exact hgoto (s := .comment) rfl rfl (by simp)

/-- No string of a buffer has a terminator in it. -/
theorem cstr_nul (b : Bytes) : 0 ∉ cstr b := fun h => by simpa using List.mem_takeWhile_imp h

theorem safe_string (h : Inv F t) (hs : t.top.state = .string) : Safe F t (act F t c) := by
  have hadds : ¬ t.top.state.Adds := by simp [hs, State.Adds]
  simp only [act, hs]
  split
  · exact h.scalar (.string (cstr_nul _)) rfl
  split
  · refine h.kept rfl ⟨Or.inl rfl, trivial⟩ ?_ rfl rfl
    simp [JsonTokener.escape, State.Adds]
  · exact h.same rfl rfl hadds

/-- Escapes end in the string that they are in. -/
theorem safe_escape (h : Inv F t)
    (hs : t.top.state = .stringEscape ∨ t.top.state = .escapeUnicode) :
    Safe F t (act F t c) := by
  have hok := h.top.ok
  have hadds : ¬ t.top.state.Adds := by obtain hs | hs := hs <;> simp [hs, State.Adds]
  obtain ⟨hsaved, hneeds⟩ : (t.top.savedState = .string ∨ t.top.savedState = .objectField) ∧
      t.top.savedState.Needs t.top := by
    obtain hs | hs := hs <;> simpa only [Srec.Ok, hs] using hok
  have hback : ∀ {t'}, t'.below = t.below → t'.top = (t.goto t.top.savedState).top → Inv F t' := by
    intro t' hbelow htop
    refine h.kept hbelow ?_ ?_ ?_ ?_ <;> rw [htop]
    · have hneeds : t.top.savedState.Needs (t.goto t.top.savedState).top := hneeds.congr rfl rfl
      unfold Srec.Ok
      obtain hsaved | hsaved := hsaved
      · simp only [JsonTokener.goto, hsaved] at hneeds ⊢
        exact hneeds
      · simp only [JsonTokener.goto, hsaved] at hneeds ⊢
        exact hneeds
    · show ¬ t.top.savedState.Adds
      obtain hsaved | hsaved := hsaved <;> simp [hsaved, State.Adds]
    · rfl
    · rfl
  obtain hs | hs := hs <;> simp only [act, hs]
  · split
    · exact hback rfl rfl
    split
    · refine h.kept rfl ⟨hsaved, hneeds.congr rfl rfl⟩ ?_ rfl rfl
      simp [JsonTokener.goto, State.Adds]
    · exact safe_error _
  · split
    · split
      · exact hback rfl rfl
      · exact h.same rfl rfl hadds
    · exact safe_error _

/-- A container is done. -/
theorem finished (h : Inv F t) : Inv F (t.eatws .finish) := h.eatws trivial trivial

/-- A level down for an element or the value of a member. -/
theorem down_ok (h : Inv F t) (hadds : s.Adds) (hneeds : s.Needs t.top) (hrank : t.rank = 8)
    (hdepth : ¬ JSON_TOKENER_MAX_DEPTH - 1 ≤ t.depth) : (Act.redo (t.down s)).Ok F t := by
  constructor
  · refine ⟨⟨⟨trivial, trivial⟩, .null, ?_, fun _ hk => (by cases hk)⟩, ⟨⟨hadds, ?_,
      h.top.proper, h.top.room, h.top.name⟩, h.below⟩, fun hfresh => absurd hfresh fresh_not_adds⟩
    · show 0 + (t.depth + 1) < _
      omega
    · have hneeds : s.Needs { t.top with state := s } := hneeds.congr rfl rfl
      obtain rfl | rfl := hadds
      · exact hneeds
      · exact hneeds
  · rw [hrank]
    show (7 : Nat) < 8
    decide

theorem safe_array (h : Inv F t) (hs : t.top.state = .array) : Safe F t (act F t c) := by
  have hneeds := h.top.ok
  simp only [Srec.Ok, hs, State.Needs] at hneeds
  simp only [act, hs]
  split
  · exact finished h
  split
  · exact safe_error _
  · rename_i hdepth
    exact down_ok h (Or.inl rfl) hneeds (rank_of hs (by decide)) hdepth

theorem safe_arrayAdd (h : Inv F t) (hs : t.top.state = .arrayAdd) : Safe F t (act F t c) := by
  have hneeds := h.top.ok
  simp only [Srec.Ok, hs, State.Needs] at hneeds
  obtain ⟨vs, hcur⟩ := hneeds
  obtain ⟨hproper, hroom⟩ := h.obj (Or.inl hs)
  have hvs := h.top.proper
  have hnest := h.top.room
  rw [hcur] at hvs hnest
  simp only [act, hs, hcur]
  refine ⟨h.within rfl ⟨trivial, _, rfl⟩ (by simp [JsonTokener.eatws, State.Adds])
    (hvs.push hproper) ?_ h.top.name, ?_⟩
  · show nestElements (vs ++ [t.obj]) + t.depth < JSON_TOKENER_MAX_DEPTH
    have hle : nestElements (vs ++ [t.obj]) ≤ JSON_TOKENER_MAX_DEPTH - 1 - t.depth := by
      rw [nestElements_le_iff]
      intro v hv
      obtain hv | hv := List.mem_append.1 hv
      · have hmem := nestElements_le_iff.1 (Nat.le_refl (nestElements vs)) v hv
        rw [nest] at hnest
        omega
      · rw [List.mem_singleton.1 hv]
        omega
    rw [JSON_TOKENER_MAX_DEPTH] at *
    omega
  · rw [rank_of hs (by decide)]
    show (1 : Nat) < 2
    decide

theorem safe_arraySep (h : Inv F t) (hs : t.top.state = .arraySep) : Safe F t (act F t c) := by
  have hneeds := h.top.ok
  simp only [Srec.Ok, hs, State.Needs] at hneeds
  simp only [act, hs]
  split
  · exact finished h
  split
  · exact h.eatws trivial hneeds
  · exact safe_error _

theorem safe_objectFieldStart (h : Inv F t) (hs : t.top.state = .objectFieldStart) :
    Safe F t (act F t c) := by
  have hneeds := h.top.ok
  simp only [Srec.Ok, hs, State.Needs] at hneeds
  simp only [act, hs]
  split
  · exact finished h
  split
  · exact h.kept rfl hneeds (by simp [JsonTokener.goto, State.Adds]) rfl rfl
  · exact safe_error _

theorem safe_objectField (h : Inv F t) (hs : t.top.state = .objectField) :
    Safe F t (act F t c) := by
  have hneeds := h.top.ok
  have hadds : ¬ t.top.state.Adds := by simp [hs, State.Adds]
  simp only [Srec.Ok, hs, State.Needs] at hneeds
  simp only [act, hs]
  split
  · refine h.within rfl ⟨trivial, hneeds, rfl⟩ ?_ h.top.proper h.top.room ?_
    · simp [JsonTokener.eatws, State.Adds]
    · intro k hk
      obtain rfl := Option.some.inj hk
      exact cstr_nul _
  split
  · exact h.kept rfl ⟨Or.inr rfl, hneeds⟩ (by simp [JsonTokener.escape, State.Adds]) rfl rfl
  · exact h.same rfl rfl hadds

theorem safe_objectFieldEnd (h : Inv F t) (hs : t.top.state = .objectFieldEnd) :
    Safe F t (act F t c) := by
  have hneeds := h.top.ok
  simp only [Srec.Ok, hs, State.Needs] at hneeds
  simp only [act, hs]
  split
  · exact h.eatws trivial hneeds
  · exact safe_error _

theorem safe_objectValue (h : Inv F t) (hs : t.top.state = .objectValue) :
    Safe F t (act F t c) := by
  have hneeds := h.top.ok
  simp only [Srec.Ok, hs, State.Needs] at hneeds
  simp only [act, hs]
  split
  · exact safe_error _
  · rename_i hdepth
    exact down_ok h (Or.inr rfl) hneeds (rank_of hs (by decide)) hdepth

theorem safe_objectValueAdd (h : Inv F t) (hs : t.top.state = .objectValueAdd) :
    Safe F t (act F t c) := by
  have hneeds := h.top.ok
  simp only [Srec.Ok, hs, State.Needs] at hneeds
  obtain ⟨⟨ms, hcur⟩, hname⟩ := hneeds
  obtain ⟨k, hname⟩ := Option.isSome_iff_exists.1 hname
  obtain ⟨hproper, hroom⟩ := h.obj (Or.inr hs)
  have hms := h.top.proper
  have hnest := h.top.room
  rw [hcur] at hms hnest
  simp only [act, hs, hcur, hname]
  refine ⟨h.within rfl ⟨trivial, _, rfl⟩ (by simp [JsonTokener.eatws, State.Adds])
    (hms.add (h.top.name k hname) hproper) ?_ (fun _ hk => by cases hk), ?_⟩
  · show nestMembers (objectAdd ms k t.obj) + t.depth < JSON_TOKENER_MAX_DEPTH
    have hle : nestMembers (objectAdd ms k t.obj) ≤ JSON_TOKENER_MAX_DEPTH - 1 - t.depth := by
      rw [nestMembers_le_iff]
      intro m hm
      obtain hm | rfl := mem_objectAdd hm
      · have hmem := nestMembers_le_iff.1 (Nat.le_refl (nestMembers ms)) m hm
        rw [nest] at hnest
        omega
      · dsimp only
        omega
    rw [JSON_TOKENER_MAX_DEPTH] at *
    omega
  · rw [rank_of hs (by decide)]
    show (1 : Nat) < 2
    decide

theorem safe_objectSep (h : Inv F t) (hs : t.top.state = .objectSep) : Safe F t (act F t c) := by
  have hneeds := h.top.ok
  simp only [Srec.Ok, hs, State.Needs] at hneeds
  simp only [act, hs]
  split
  · exact finished h
  split
  · exact h.eatws trivial hneeds
  · exact safe_error _

/-- One turn. -/
theorem act_safe (h : Inv F t) (c : UInt8) : Safe F t (act F t c) := by
  cases hs : t.top.state with
  | eatws => exact safe_eatws h hs
  | start => exact safe_start h hs
  | finish => exact safe_finish h hs
  | null => exact safe_null h hs
  | commentStart => exact safe_comment h (Or.inl hs)
  | comment => exact safe_comment h (Or.inr (Or.inl hs))
  | commentEol => exact safe_comment h (Or.inr (Or.inr (Or.inl hs)))
  | commentEnd => exact safe_comment h (Or.inr (Or.inr (Or.inr hs)))
  | string => exact safe_string h hs
  | stringEscape => exact safe_escape h (Or.inl hs)
  | escapeUnicode => exact safe_escape h (Or.inr hs)
  | boolean => exact safe_boolean h hs
  | number => exact safe_number h hs
  | array => exact safe_array h hs
  | arrayAdd => exact safe_arrayAdd h hs
  | arraySep => exact safe_arraySep h hs
  | objectFieldStart => exact safe_objectFieldStart h hs
  | objectField => exact safe_objectField h hs
  | objectFieldEnd => exact safe_objectFieldEnd h hs
  | objectValue => exact safe_objectValue h hs
  | objectValueAdd => exact safe_objectValueAdd h hs
  | objectSep => exact safe_objectSep h hs

end Steps

section Runs

variable {t t' : JsonTokener D} {c : UInt8}

theorem inv_new (F : Floats D) : Inv F (.new D) :=
  ⟨⟨⟨trivial, trivial⟩, .null, Nat.succ_pos 31, fun _ hk => (by cases hk)⟩, trivial,
    fun hfresh => absurd hfresh fresh_not_adds⟩

/-- A turn of the loop. -/
inductive Turn (F : Floats D) : JsonTokener D → JsonTokener D → Prop
  | next {t t' : JsonTokener D} {c : UInt8} (h : act F t c = some (.next t')) : Turn F t t'
  | redo {t t' : JsonTokener D} {c : UInt8} (h : act F t c = some (.redo t')) : Turn F t t'

theorem Inv.turn (h : Inv F t) (hturn : Turn F t t') : Inv F t' := by
  cases hturn with
  | @next c hact =>
    have hsafe := act_safe h c
    rw [hact] at hsafe
    exact hsafe
  | @redo c hact =>
    have hsafe := act_safe h c
    rw [hact] at hsafe
    exact hsafe.1

/-- Every tokener that a new one comes to. -/
theorem inv_reached (h : Relation.ReflTransGen (Turn F) (.new D) t) : Inv F t := by
  induction h with
  | refl => exact inv_new F
  | tail _ hturn ih => exact ih.turn hturn

/-- What is known behind a character, or behind the loop. -/
def Read.Ok (F : Floats D) : Read D → Prop
  | .more t => Inv F t
  | .out t e => e = none →
    Proper (Scanned F) t.top.current ∧ nest t.top.current < JSON_TOKENER_MAX_DEPTH

/-- A character is taken: each state that leaves it to another has a higher rank. -/
theorem takeChar_ok {k : Nat} (h : Inv F t) (hk : t.rank < k) :
    ∃ r, takeChar F k t c = some r ∧ r.Ok F := by
  induction k generalizing t with
  | zero => exact absurd hk (Nat.not_lt_zero _)
  | succ k ih =>
    have hsafe := act_safe h c
    rw [takeChar]
    cases hact : act F t c with
    | none =>
      rw [hact] at hsafe
      exact hsafe.elim
    | some a =>
      rw [hact] at hsafe
      cases a with
      | next t' => exact ⟨_, rfl, hsafe⟩
      | redo t' => exact ih hsafe.1 (by have hlt := hsafe.2; omega)
      | out t' e => exact ⟨_, rfl, hsafe⟩

theorem takeChar_succ {k : Nat} {r : Read D} (h : takeChar F k t c = some r) :
    takeChar F (k + 1) t c = some r := by
  induction k generalizing t with
  | zero => cases h
  | succ k ih =>
    rw [takeChar] at h ⊢
    cases hact : act F t c with
    | none =>
      rw [hact] at h
      cases h
    | some a =>
      rw [hact] at h
      cases a with
      | next t' => exact h
      | redo t' => exact ih h
      | out t' e => exact h

/-- A state that leaves the character to another does nothing else with it. -/
theorem takeChar_redo (h : Inv F t) (hact : act F t c = some (.redo t')) :
    takeChar F TURNS t c = takeChar F TURNS t' c := by
  have hsafe := act_safe h c
  rw [hact] at hsafe
  obtain ⟨r, hr, -⟩ := takeChar_ok (c := c) (k := 9) hsafe.1 (by
    have hrank := rank_lt t
    have hlt := hsafe.2
    rw [TURNS] at hrank
    omega)
  have hleft : takeChar F TURNS t c = takeChar F 9 t' c := by
    rw [TURNS, takeChar, hact]
  rw [hleft, hr]
  exact (takeChar_succ hr).symm

/-- A run over a text. -/
theorem parseEx_ok (h : Inv F t) (s : Bytes) : ∃ r, jsonTokenerParseEx F t s = some r ∧
    (r.2 = none →
      Proper (Scanned F) r.1.top.current ∧ nest r.1.top.current < JSON_TOKENER_MAX_DEPTH) := by
  have hend : ∀ {t : JsonTokener D}, Inv F t → Proper (Scanned F) t.top.current ∧
      nest t.top.current < JSON_TOKENER_MAX_DEPTH := by
    intro t h
    have hroom := h.top.room
    exact ⟨h.top.proper, by omega⟩
  induction s generalizing t with
  | nil =>
    obtain ⟨r, hr, hok⟩ := takeChar_ok (c := 0) h (rank_lt t)
    rw [jsonTokenerParseEx, hr]
    cases r with
    | more t' => exact ⟨_, rfl, fun _ => hend hok⟩
    | out t' e => exact ⟨_, rfl, hok⟩
  | cons c s ih =>
    obtain ⟨r, hr, hok⟩ := takeChar_ok (c := c) h (rank_lt t)
    rw [jsonTokenerParseEx, hr]
    cases r with
    | more t' =>
      dsimp only
      split
      · exact ⟨_, rfl, fun _ => hend hok⟩
      · exact ih hok
    | out t' e => exact ⟨_, rfl, hok⟩

/-- Whatever the text, the tokener stays within its stack and no turn of it is undefined, it
comes to an end, and a value that it gives is proper and not nested deeper than the stack. -/
theorem parse_safe (F : Floats D) (text : Bytes) :
    (∀ t, Relation.ReflTransGen (Turn F) (.new D) t →
      t.depth < JSON_TOKENER_MAX_DEPTH ∧ ∀ c, (act F t c).isSome) ∧
    ∃ r, jsonTokenerParse F text = some r ∧ ∀ v, r = .ok v →
      Proper (Scanned F) v ∧ nest v < JSON_TOKENER_MAX_DEPTH := by
  constructor
  · intro t hreached
    have hinv := inv_reached hreached
    have hroom := hinv.top.room
    refine ⟨by omega, fun c => ?_⟩
    have hsafe := act_safe hinv c
    cases hact : act F t c with
    | none =>
      rw [hact] at hsafe
      exact hsafe.elim
    | some a => rfl
  · obtain ⟨⟨t, e⟩, hr, hok⟩ := parseEx_ok (inv_new F) text
    rw [jsonTokenerParse, hr]
    refine ⟨_, rfl, ?_⟩
    intro v hv
    cases e with
    | none =>
      obtain rfl := Except.ok.inj hv
      exact hok rfl
    | some e => cases hv

end Runs

end Doorhinges.JsonC

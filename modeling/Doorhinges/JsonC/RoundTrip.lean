import Doorhinges.JsonC.Scan

/-!
# Printing and reading an object

What `json_object_to_json_string` makes of an object is read by `json_tokener_parse` as that
object, up to the nesting that the stack of the tokener has room for.
-/
namespace Doorhinges.JsonC

open Lib.CString
open Relation (ReflTransGen)

variable {D : Type} {F : Floats D}

/-- A `double` whose text is that of a number, and is scanned as it was. The text of an infinity
is none, and six decimals are not enough for every number. -/
structure Kept (F : Floats D) (d : D) : Prop where
  chars : ∀ c ∈ F.sprintf d, isNumberChar c = true
  point : 46 ∈ F.sprintf d
  first : ∃ c, (F.sprintf d).head? = some c ∧ (isDigit c = true ∨ c = 45)
  back : F.sscanf (F.sprintf d) = some d

section Outcome

/-- Reading stops with the error of the depth. -/
def TooDeep (F : Floats D) (a : JsonTokener D × Bytes) : Prop :=
  ∃ u c s w, Steps F a (u, c :: s) ∧ act F u c = some (.out w (some .depth))

/-- What has `n` levels is read to where `Q` holds, if there is room for them. -/
def Reads (F : Floats D) (n : Nat) (a : JsonTokener D × Bytes)
    (Q : JsonTokener D × Bytes → Prop) : Prop :=
  (n < JSON_TOKENER_MAX_DEPTH → ∃ b, Steps F a b ∧ Q b) ∧
    (JSON_TOKENER_MAX_DEPTH ≤ n → TooDeep F a)

variable {a b : JsonTokener D × Bytes} {m n : Nat} {Q R : JsonTokener D × Bytes → Prop}

theorem TooDeep.of_steps (h : Steps F a b) (hb : TooDeep F b) : TooDeep F a := by
  obtain ⟨u, c, s, w, hsteps, hact⟩ := hb
  exact ⟨u, c, s, w, h.trans hsteps, hact⟩

theorem Reads.of_steps (h : Steps F a b) (hb : Reads F n b Q) : Reads F n a Q := by
  refine ⟨fun hn => ?_, fun hn => .of_steps h (hb.2 hn)⟩
  obtain ⟨d, hd, hq⟩ := hb.1 hn
  exact ⟨d, h.trans hd, hq⟩

/-- One thing is read and then another. -/
theorem Reads.bind (h : Reads F m a Q) (hnext : ∀ b, Q b → Reads F n b R) :
    Reads F (max m n) a R := by
  constructor
  · intro hn
    obtain ⟨b, hb, hq⟩ := h.1 (by omega)
    obtain ⟨d, hd, hr⟩ := (hnext b hq).1 (by omega)
    exact ⟨d, hb.trans hd, hr⟩
  · intro hn
    by_cases hm : m < JSON_TOKENER_MAX_DEPTH
    · obtain ⟨b, hb, hq⟩ := h.1 hm
      exact .of_steps hb ((hnext b hq).2 (by omega))
    · exact h.2 (by omega)

theorem Reads.mono (h : Reads F n a Q) (hqr : ∀ b, Q b → R b) : Reads F n a R := by
  refine ⟨fun hn => ?_, h.2⟩
  obtain ⟨b, hb, hq⟩ := h.1 hn
  exact ⟨b, hb, hqr b hq⟩

end Outcome

section Values

variable {t u : JsonTokener D} {s : State} {c : UInt8} {r : Bytes} {v : JsonObject D}

theorem Reads.found {n : Nat} {a : JsonTokener D × Bytes} {Q : JsonTokener D × Bytes → Prop}
    (hn : n < JSON_TOKENER_MAX_DEPTH) (h : ∃ b, Steps F a b ∧ Q b) : Reads F n a Q :=
  ⟨fun _ => h, fun hle => absurd hn (Nat.not_lt.2 hle)⟩

/-- From its first character to what follows it, the value is read. -/
def ReadBack (F : Floats D) (v : JsonObject D) : Prop :=
  ∀ (t : JsonTokener D) (c : UInt8) (r : Bytes), t.top.state = .start →
    t.top.objFieldName = none → t.depth < JSON_TOKENER_MAX_DEPTH → isNumberChar c = false →
    Reads F (nest v + t.depth) (t, toJsonString F v ++ c :: r)
      (fun b => b.2 = c :: r ∧ Has t b.1 v)

/-- A value without members and elements is read where it is. -/
theorem readBack_scalar (hnest : nest v = 0) (h : ∀ (t : JsonTokener D) (c : UInt8) (r : Bytes),
    t.top.state = .start → isNumberChar c = false →
    ∃ u, Steps F (t, toJsonString F v ++ c :: r) (u, c :: r) ∧ Has t u v) : ReadBack F v := by
  intro t c r hs _ hdepth hc
  obtain ⟨u, hu, hhas⟩ := h t c r hs hc
  exact .found (by omega) ⟨_, hu, rfl, hhas⟩

theorem readBack_null : ReadBack F (.null : JsonObject D) :=
  readBack_scalar rfl fun _ c r hs _ => null_steps hs c r

theorem readBack_boolean (b : Bool) : ReadBack F (.boolean b : JsonObject D) := by
  refine readBack_scalar rfl fun _ c r hs _ => ?_
  cases b with
  | true => exact true_steps hs c r
  | false => exact false_steps hs c r

theorem readBack_int (i : Int32) : ReadBack F (.int i : JsonObject D) := by
  obtain ⟨⟨d, hd, hfirst⟩, hbytes⟩ := decimal_bytes i.toInt
  have hpoint : hasPoint (decimal i.toInt) = false := by
    rw [hasPoint, List.any_eq_false]
    intro c hc
    obtain hc | rfl := hbytes c hc
    · obtain ⟨hdot, hexp⟩ := digit_noPoint hc
      simp [hdot, hexp]
    · decide
  have hchars : ∀ c ∈ decimal i.toInt, isNumberChar c = true := by
    intro c hc
    obtain hc | rfl := hbytes c hc
    · exact isNumberChar_digit hc
    · decide
  refine readBack_scalar rfl fun t c r hs hc =>
    number_value hs hd hfirst hchars (fun t hpb hdouble => ?_) hc r
  rw [numberOf, hdouble, hpoint, hpb, scanInt_decimal]
  rfl

theorem readBack_double {d : D} (h : Kept F d) : ReadBack F (.double d) := by
  obtain ⟨c, hc, hfirst⟩ := h.first
  have hpoint : hasPoint (F.sprintf d) = true := List.any_eq_true.2 ⟨46, h.point, rfl⟩
  refine readBack_scalar rfl fun t c r hs hend =>
    number_value hs hc hfirst h.chars (fun t hpb hdouble => ?_) hend r
  rw [numberOf, hdouble, hpoint, hpb, h.back]
  rfl

theorem readBack_string {p : Bytes} (hp : 0 ∉ p) : ReadBack F (.string p : JsonObject D) := by
  refine readBack_scalar rfl fun t c r hs _ => ?_
  have hquote : ascii "\"" = [34] := by decide
  rw [toJsonString, hquote, List.append_assoc, List.append_assoc]
  exact string_steps hs hp (c :: r)

/-- What a printed value may begin with. -/
theorem toJsonString_first (hv : Proper (Kept F) v) :
    ∃ c w, toJsonString F v = c :: w ∧ isSpace c = false ∧ c ≠ 47 ∧ c ≠ 93 := by
  have hnumber : ∀ {c : UInt8} {p : Bytes}, p.head? = some c → (isDigit c = true ∨ c = 45) →
      ∃ c w, p = c :: w ∧ isSpace c = false ∧ c ≠ 47 ∧ c ≠ 93 := by
    intro c p hc hfirst
    obtain ⟨w, rfl⟩ := List.head?_eq_some_iff.1 hc
    refine ⟨c, w, rfl, ?_⟩
    obtain hfirst | rfl := hfirst
    · have hspace := (digit_plain hfirst).1
      refine ⟨hspace, ?_, ?_⟩
      · rintro rfl
        revert hfirst
        decide
      · rintro rfl
        revert hfirst
        decide
    · decide
  cases hv with
  | null => exact ⟨110, ascii "ull", rfl, by decide⟩
  | boolean b =>
    cases b with
    | true => exact ⟨116, ascii "rue", rfl, by decide⟩
    | false => exact ⟨102, ascii "alse", rfl, by decide⟩
  | double h =>
    obtain ⟨c, hc, hfirst⟩ := h.first
    exact hnumber hc hfirst
  | int i =>
    obtain ⟨⟨d, hd, hfirst⟩, -⟩ := decimal_bytes i.toInt
    exact hnumber hd hfirst
  | object => exact ⟨123, _, rfl, by decide⟩
  | array => exact ⟨91, _, rfl, by decide⟩
  | string => exact ⟨34, _, rfl, by decide⟩

end Values

section Containers

variable {t u : JsonTokener D} {s a : State} {c : UInt8} {r : Bytes} {v : JsonObject D}

theorem blank_steps (hs : t.top.state = .eatws) (r : Bytes) : Steps F (t, 32 :: r) (t, r) := by
  refine steps_next ?_ .refl
  simp only [act, hs]
  rfl

/-- No blank and no comment. -/
theorem eatws_redo (hs : t.top.state = .eatws) (hspace : isSpace c = false) (hslash : c ≠ 47) :
    act F t c = some (.redo (t.goto t.top.savedState)) := by
  simp only [act, hs]
  rw [if_neg (by rw [hspace]; decide), if_neg hslash]

/-- A level whose value is complete goes back to the level below. -/
theorem finish_steps {l : Srec D} {ls : List (Srec D)} (hstate : t.top.state = .eatws)
    (hsaved : t.top.savedState = .finish) (hbelow : t.below = l :: ls)
    (hspace : isSpace c = false) (hslash : c ≠ 47) (r : Bytes) :
    ∃ u, Steps F (t, c :: r) (u, c :: r) ∧ u.top = l ∧ u.obj = t.top.current ∧ u.below = ls := by
  have hfinish : act F (t.goto t.top.savedState) c =
      some (.redo { t.goto t.top.savedState with obj := t.top.current, top := l, below := ls }) := by
    simp only [act, JsonTokener.goto, hsaved, hbelow]
  exact ⟨_, steps_redo (eatws_redo hstate hspace hslash) (steps_redo hfinish .refl), rfl, rfl, rfl⟩

/-- A value on the level above, if there is room for one, and back with it to the level that waits
for it in state `a`. -/
theorem inner_reads (hread : ReadBack F v) (hv : Proper (Kept F) v) {cur : JsonObject D}
    {name : Option Bytes} (htop : t.top = ⟨.eatws, s, cur, name⟩)
    (hdepth : t.depth < JSON_TOKENER_MAX_DEPTH) (hdown : ∀ c, c ≠ 93 → act F (t.goto s) c =
      if JSON_TOKENER_MAX_DEPTH - 1 ≤ t.depth then some (.out (t.goto s) (some .depth))
      else some (.redo ((t.goto s).down a))) {tail : Bytes}
    (htail : tail = c :: r ∧ isNumberChar c = false ∨ tail = 32 :: c :: r)
    (hspace : isSpace c = false) (hslash : c ≠ 47) :
    Reads F (nest v + 1 + t.depth) (t, toJsonString F v ++ tail)
      (fun b => b.2 = c :: r ∧ b.1.top = ⟨a, s, cur, name⟩ ∧ b.1.obj = v ∧
        b.1.below = t.below) := by
  obtain ⟨d, w, hfirst, hd, hd', hd''⟩ := toJsonString_first hv
  have heatws : act F t d = some (.redo (t.goto s)) := by
    have hstate : t.top.state = .eatws := by rw [htop]
    have hsaved : t.top.savedState = s := by rw [htop]
    rw [eatws_redo hstate hd hd', hsaved]
  have hact := hdown d hd''
  have htext : toJsonString F v ++ tail = d :: (w ++ tail) := by rw [hfirst, List.cons_append]
  by_cases hroom : JSON_TOKENER_MAX_DEPTH - 1 ≤ t.depth
  · rw [if_pos hroom] at hact
    have hmax : JSON_TOKENER_MAX_DEPTH = 32 := rfl
    refine ⟨fun hn => by omega, fun _ => ?_⟩
    rw [htext]
    exact ⟨_, _, _, _, steps_redo heatws .refl, hact⟩
  · rw [if_neg hroom] at hact
    have hmax : JSON_TOKENER_MAX_DEPTH = 32 := rfl
    have hstart : act F ((t.goto s).down a) d = some (.redo (((t.goto s).down a).goto .start)) :=
      eatws_redo rfl hd hd'
    obtain ⟨c', r', htail', hend⟩ : ∃ c' r', tail = c' :: r' ∧ isNumberChar c' = false := by
      obtain ⟨htail, hc⟩ | htail := htail
      · exact ⟨c, r, htail, hc⟩
      · exact ⟨32, c :: r, htail, by decide⟩
    have hvalue := hread (((t.goto s).down a).goto .start) c' r' rfl rfl
      (show t.depth + 1 < _ by omega) hend
    have hdepth' : (((t.goto s).down a).goto .start).depth = t.depth + 1 := rfl
    rw [hdepth', ← htail', htext, ← Nat.add_assoc, Nat.add_right_comm] at hvalue
    rw [htext]
    refine .of_steps (steps_redo heatws (steps_redo hact (steps_redo hstart .refl))) ?_
    refine ⟨fun hn => ?_, hvalue.2⟩
    obtain ⟨⟨u, r''⟩, hu, hr, hhas⟩ := hvalue.1 hn
    dsimp only at hr hhas
    have hstate : u.top.state = .eatws := by rw [hhas.top]
    have hblank : Steps F (u, r'') (u, c :: r) := by
      rw [hr]
      obtain ⟨htail, -⟩ | htail := htail
      · rw [htail]
      · rw [htail]
        exact blank_steps hstate _
    obtain ⟨x, hx, htop', hobj, hbelow⟩ := finish_steps (F := F) hstate (by rw [hhas.top])
      hhas.below hspace hslash r
    refine ⟨_, hu.trans (hblank.trans hx), rfl, ?_, ?_, hbelow⟩
    · rw [htop']
      simp only [JsonTokener.goto, htop]
    · rw [hobj, hhas.top]

/-- The value that has come up is an element. -/
theorem arrayAdd_steps {vs : List (JsonObject D)} {name : Option Bytes}
    (htop : u.top = ⟨.arrayAdd, s, .array vs, name⟩) (hspace : isSpace c = false) (hslash : c ≠ 47)
    (r : Bytes) : ∃ w, Steps F (u, c :: r) (w, c :: r) ∧
      w.top = ⟨.arraySep, .arraySep, .array (vs ++ [u.obj]), name⟩ ∧ w.below = u.below := by
  have hadd : act F u c = some (.redo ((u.setCurrent (.array (vs ++ [u.obj]))).eatws .arraySep)) := by
    simp only [act, htop]
  refine ⟨_, steps_redo hadd (steps_redo (eatws_redo rfl hspace hslash) .refl), ?_, rfl⟩
  show (⟨.arraySep, .arraySep, .array (vs ++ [u.obj]), u.top.objFieldName⟩ : Srec D) = _
  rw [htop]

theorem objectValueAdd_steps {ms : List (Bytes × JsonObject D)} {k : Bytes}
    (htop : u.top = ⟨.objectValueAdd, s, .object ms, some k⟩) (hspace : isSpace c = false)
    (hslash : c ≠ 47) (r : Bytes) : ∃ w, Steps F (u, c :: r) (w, c :: r) ∧
      w.top = ⟨.objectSep, .objectSep, .object (objectAdd ms k u.obj), none⟩ ∧
        w.below = u.below := by
  have hadd : act F u c = some (.redo ({ u with top := { u.top with
      current := .object (objectAdd ms k u.obj), objFieldName := none } }.eatws .objectSep)) := by
    simp only [act, htop]
  exact ⟨_, steps_redo hadd (steps_redo (eatws_redo rfl hspace hslash) .refl), rfl, rfl⟩

theorem array_down (t : JsonTokener D) (c : UInt8) (hc : c ≠ 93) : act F (t.goto .array) c =
    if JSON_TOKENER_MAX_DEPTH - 1 ≤ t.depth then some (.out (t.goto .array) (some .depth))
    else some (.redo ((t.goto .array).down .arrayAdd)) := by
  simp only [act, JsonTokener.goto]
  exact if_neg hc

theorem objectValue_down (t : JsonTokener D) (c : UInt8) (_ : c ≠ 93) :
    act F (t.goto .objectValue) c = if JSON_TOKENER_MAX_DEPTH - 1 ≤ t.depth then
      some (.out (t.goto .objectValue) (some .depth))
    else some (.redo ((t.goto .objectValue).down .objectValueAdd)) := by
  simp only [act, JsonTokener.goto]
  rfl

/-- The elements from one on, and the end of the array. -/
theorem elements_reads (vs : List (JsonObject D))
    (hvs : ∀ w ∈ v :: vs, ReadBack F w ∧ Proper (Kept F) w) (done : List (JsonObject D))
    {name : Option Bytes} (htop : t.top = ⟨.eatws, .array, .array done, name⟩)
    (hdepth : t.depth < JSON_TOKENER_MAX_DEPTH) (r : Bytes) :
    Reads F (nestElements (v :: vs) + t.depth)
      (t, elementsToJsonString F false (v :: vs) ++ 32 :: 93 :: r)
      (fun b => b.2 = r ∧ b.1.top = ⟨.eatws, .finish, .array (done ++ v :: vs), name⟩ ∧
        b.1.below = t.below) := by
  have hblank : ascii " " = [32] := by decide
  have hcomma : ascii ", " = [44, 32] := by decide
  induction vs generalizing v t done with
  | nil =>
    obtain ⟨hread, hv⟩ := hvs v List.mem_cons_self
    have hstate : t.top.state = .eatws := by rw [htop]
    have htext : elementsToJsonString F false [v] ++ 32 :: 93 :: r =
        32 :: (toJsonString F v ++ 32 :: 93 :: r) := by
      simp [elementsToJsonString, hblank]
    have hn : nestElements [v] + t.depth = max (nest v + 1 + t.depth) (0 + t.depth) := by
      simp only [nestElements]
      omega
    have hinner := inner_reads (c := 93) (r := r) hread hv htop hdepth
      (array_down t) (Or.inr rfl) (by decide) (by decide)
    rw [htext, hn]
    refine .of_steps (blank_steps hstate _) (hinner.bind fun b hb => ?_)
    obtain ⟨u, r'⟩ := b
    obtain ⟨rfl, htop', hobj, hbelow⟩ := hb
    dsimp only at htop' hobj hbelow
    obtain ⟨w, hw, hwtop, hwbelow⟩ :=
      arrayAdd_steps (F := F) (c := 93) htop' (by decide) (by decide) r
    have hend : act F w 93 = some (.next (w.eatws .finish)) := by
      simp only [act, hwtop]
      rfl
    refine .found (by omega) ⟨_, hw.tail (.next hend), rfl, ?_, hwbelow.trans hbelow⟩
    show (⟨.eatws, .finish, w.top.current, w.top.objFieldName⟩ : Srec D) = _
    rw [hwtop, hobj]
  | cons x vs ih =>
    obtain ⟨⟨hread, hv⟩, hvs⟩ := List.forall_mem_cons.1 hvs
    have hstate : t.top.state = .eatws := by rw [htop]
    have htext : elementsToJsonString F false (v :: x :: vs) ++ 32 :: 93 :: r =
        32 :: (toJsonString F v ++
          44 :: (elementsToJsonString F false (x :: vs) ++ 32 :: 93 :: r)) := by
      simp [elementsToJsonString, hblank, hcomma]
    have hn : nestElements (v :: x :: vs) + t.depth =
        max (nest v + 1 + t.depth) (nestElements (x :: vs) + t.depth) := by
      rw [nestElements]
      omega
    have hinner := inner_reads (c := 44)
      (r := elementsToJsonString F false (x :: vs) ++ 32 :: 93 :: r) hread hv htop hdepth
      (array_down t) (Or.inl ⟨rfl, by decide⟩) (by decide) (by decide)
    rw [htext, hn]
    refine .of_steps (blank_steps hstate _) (hinner.bind fun b hb => ?_)
    obtain ⟨u, r'⟩ := b
    obtain ⟨rfl, htop', hobj, hbelow⟩ := hb
    dsimp only at htop' hobj hbelow
    obtain ⟨w, hw, hwtop, hwbelow⟩ :=
      arrayAdd_steps (F := F) (c := 44) htop' (by decide) (by decide)
        (elementsToJsonString F false (x :: vs) ++ 32 :: 93 :: r)
    have hsep : act F w 44 = some (.next (w.eatws .array)) := by
      simp only [act, hwtop]
      rfl
    have hbelow' : (w.eatws .array).below = t.below := hwbelow.trans hbelow
    have hdepth' : (w.eatws .array).depth = t.depth := congrArg List.length hbelow'
    have htop'' : (w.eatws .array).top = ⟨.eatws, .array, .array (done ++ [v]), name⟩ := by
      show (⟨.eatws, .array, w.top.current, w.top.objFieldName⟩ : Srec D) = _
      rw [hwtop, hobj]
    have hrest := ih (t := w.eatws .array) hvs (done ++ [v]) htop'' (hdepth'.trans_lt hdepth)
    rw [hdepth', List.append_assoc, List.singleton_append, hbelow'] at hrest
    exact .of_steps (hw.tail (.next hsep)) hrest

/-- Up to the value of a member. -/
theorem member_name {k : Bytes} {ms : List (Bytes × JsonObject D)}
    (htop : t.top = ⟨.eatws, .objectFieldStart, .object ms, none⟩) (hk : 0 ∉ k) (r : Bytes) :
    ∃ u, Steps F (t, 32 :: 34 :: (jsonEscapeStr k ++ 34 :: 58 :: 32 :: r)) (u, r) ∧
      u.top = ⟨.eatws, .objectValue, .object ms, some k⟩ ∧ u.below = t.below := by
  have hstate : t.top.state = .eatws := by rw [htop]
  have hsaved : t.top.savedState = .objectFieldStart := by rw [htop]
  have hopen : act F (t.goto t.top.savedState) 34 = some (.next
      { (t.goto t.top.savedState).goto .objectField with pb := [], quoteChar := 34 }) := by
    simp only [act, JsonTokener.goto, hsaved]
    rfl
  obtain ⟨u, hu, hutop, hubelow⟩ := name_steps (F := F)
    (t := { (t.goto t.top.savedState).goto .objectField with pb := [], quoteChar := 34 })
    rfl rfl rfl hk (58 :: 32 :: r)
  have hustate : u.top.state = .eatws := by rw [hutop]
  have husaved : u.top.savedState = .objectFieldEnd := by rw [hutop]
  have hcolon : act F (u.goto u.top.savedState) 58 =
      some (.next ((u.goto u.top.savedState).eatws .objectValue)) := by
    simp only [act, JsonTokener.goto, husaved]
    rfl
  refine ⟨(u.goto u.top.savedState).eatws .objectValue, ?_, ?_, hubelow⟩
  · refine (blank_steps hstate _).trans ?_
    refine steps_redo (eatws_redo hstate (by decide) (by decide)) (steps_next hopen ?_)
    refine hu.trans ?_
    refine steps_redo (eatws_redo hustate (by decide) (by decide)) (steps_next hcolon ?_)
    exact blank_steps rfl r
  · show (⟨.eatws, .objectValue, u.top.current, u.top.objFieldName⟩ : Srec D) = _
    rw [hutop]
    show (⟨.eatws, .objectValue, t.top.current, some k⟩ : Srec D) = _
    rw [htop]

/-- The members from one on, and the end of the object. -/
theorem members_reads {k : Bytes} (ms : List (Bytes × JsonObject D))
    (hms : ∀ m ∈ (k, v) :: ms, 0 ∉ m.1 ∧ ReadBack F m.2 ∧ Proper (Kept F) m.2)
    (done : List (Bytes × JsonObject D)) (hkeys : ((done ++ (k, v) :: ms).map Prod.fst).Nodup)
    (htop : t.top = ⟨.eatws, .objectFieldStart, .object done, none⟩)
    (hdepth : t.depth < JSON_TOKENER_MAX_DEPTH) (r : Bytes) :
    Reads F (nestMembers ((k, v) :: ms) + t.depth)
      (t, membersToJsonString F false ((k, v) :: ms) ++ 32 :: 125 :: r)
      (fun b => b.2 = r ∧ b.1.top = ⟨.eatws, .finish, .object (done ++ (k, v) :: ms), none⟩ ∧
        b.1.below = t.below) := by
  have hblank : ascii " \"" = [32, 34] := by decide
  have hcolon : ascii "\": " = [34, 58, 32] := by decide
  have hcomma : ascii "," = [44] := by decide
  induction ms generalizing v k t done with
  | nil =>
    obtain ⟨hk, hread, hv⟩ := hms (k, v) List.mem_cons_self
    have htext : membersToJsonString F false [(k, v)] ++ 32 :: 125 :: r =
        32 :: 34 :: (jsonEscapeStr k ++ 34 :: 58 :: 32 ::
          (toJsonString F v ++ 32 :: 125 :: r)) := by
      simp [membersToJsonString, hblank, hcolon]
    have hn : nestMembers [(k, v)] + t.depth = max (nest v + 1 + t.depth) (0 + t.depth) := by
      simp only [nestMembers]
      omega
    have hnew : objectAdd done k v = done ++ [(k, v)] := objectAdd_new fun hin => by
      rw [List.map_append, List.nodup_append] at hkeys
      exact hkeys.2.2 k hin k List.mem_cons_self rfl
    obtain ⟨x, hx, hxtop, hxbelow⟩ := member_name (F := F) htop hk (toJsonString F v ++ 32 :: 125 :: r)
    have hxdepth : x.depth = t.depth := congrArg List.length hxbelow
    have hinner := inner_reads (c := 125) (r := r) hread hv hxtop
      (hxdepth.trans_lt hdepth) (objectValue_down x) (Or.inr rfl) (by decide) (by decide)
    rw [htext, hn, ← hxdepth]
    refine .of_steps hx (hinner.bind fun b hb => ?_)
    obtain ⟨u, r'⟩ := b
    obtain ⟨rfl, htop', hobj, hbelow⟩ := hb
    dsimp only at htop' hobj hbelow
    obtain ⟨w, hw, hwtop, hwbelow⟩ :=
      objectValueAdd_steps (F := F) (c := 125) htop' (by decide) (by decide) r
    have hend : act F w 125 = some (.next (w.eatws .finish)) := by
      simp only [act, hwtop]
      rfl
    refine .found (by omega) ⟨_, hw.tail (.next hend), rfl, ?_,
      hwbelow.trans (hbelow.trans hxbelow)⟩
    show (⟨.eatws, .finish, w.top.current, w.top.objFieldName⟩ : Srec D) = _
    rw [hwtop, hobj, hnew]
  | cons m ms ih =>
    obtain ⟨l, y⟩ := m
    obtain ⟨⟨hk, hread, hv⟩, hms⟩ := List.forall_mem_cons.1 hms
    have htext : membersToJsonString F false ((k, v) :: (l, y) :: ms) ++ 32 :: 125 :: r =
        32 :: 34 :: (jsonEscapeStr k ++ 34 :: 58 :: 32 :: (toJsonString F v ++
          44 :: (membersToJsonString F false ((l, y) :: ms) ++ 32 :: 125 :: r))) := by
      simp [membersToJsonString, hblank, hcolon, hcomma]
    have hn : nestMembers ((k, v) :: (l, y) :: ms) + t.depth =
        max (nest v + 1 + t.depth) (nestMembers ((l, y) :: ms) + t.depth) := by
      rw [nestMembers]
      omega
    have hnew : objectAdd done k v = done ++ [(k, v)] := objectAdd_new fun hin => by
      rw [List.map_append, List.nodup_append] at hkeys
      exact hkeys.2.2 k hin k List.mem_cons_self rfl
    obtain ⟨x, hx, hxtop, hxbelow⟩ := member_name (F := F) htop hk (toJsonString F v ++
      44 :: (membersToJsonString F false ((l, y) :: ms) ++ 32 :: 125 :: r))
    have hxdepth : x.depth = t.depth := congrArg List.length hxbelow
    have hinner := inner_reads (c := 44)
      (r := membersToJsonString F false ((l, y) :: ms) ++ 32 :: 125 :: r) hread hv hxtop
      (hxdepth.trans_lt hdepth) (objectValue_down x) (Or.inl ⟨rfl, by decide⟩) (by decide)
      (by decide)
    rw [htext, hn, ← hxdepth]
    refine .of_steps hx (hinner.bind fun b hb => ?_)
    obtain ⟨u, r'⟩ := b
    obtain ⟨rfl, htop', hobj, hbelow⟩ := hb
    dsimp only at htop' hobj hbelow
    obtain ⟨w, hw, hwtop, hwbelow⟩ :=
      objectValueAdd_steps (F := F) (c := 44) htop' (by decide) (by decide)
        (membersToJsonString F false ((l, y) :: ms) ++ 32 :: 125 :: r)
    have hsep : act F w 44 = some (.next (w.eatws .objectFieldStart)) := by
      simp only [act, hwtop]
      rfl
    have hbelow' : (w.eatws .objectFieldStart).below = t.below :=
      hwbelow.trans (hbelow.trans hxbelow)
    have hdepth' : (w.eatws .objectFieldStart).depth = x.depth :=
      congrArg List.length (hbelow'.trans hxbelow.symm)
    have htop'' : (w.eatws .objectFieldStart).top =
        ⟨.eatws, .objectFieldStart, .object (done ++ [(k, v)]), none⟩ := by
      show (⟨.eatws, .objectFieldStart, w.top.current, w.top.objFieldName⟩ : Srec D) = _
      rw [hwtop, hobj, hnew]
    have hrest := ih (t := w.eatws .objectFieldStart) hms (done ++ [(k, v)])
      (by rwa [List.append_assoc]) htop'' (hdepth'.trans_lt (hxdepth.trans_lt hdepth))
    rw [hdepth', List.append_assoc, List.singleton_append, hbelow'] at hrest
    exact .of_steps (hw.tail (.next hsep)) hrest

end Containers

section Main

variable {v : JsonObject D}

theorem readBack_array {vs : List (JsonObject D)}
    (hvs : ∀ w ∈ vs, ReadBack F w ∧ Proper (Kept F) w) : ReadBack F (.array vs) := by
  have hopen : ascii "[" = [91] := by decide
  have hclose : ascii " ]" = [32, 93] := by decide
  intro t c r hs _ hdepth _
  have hstart : act F t 91 = some (.next ((t.setCurrent (.array [])).eatws .array)) := by
    simp only [act, hs]
    rfl
  have htext : toJsonString F (.array vs) ++ c :: r =
      91 :: (elementsToJsonString F false vs ++ 32 :: 93 :: c :: r) := by
    simp [toJsonString, hopen, hclose]
  rw [htext]
  refine .of_steps (steps_next hstart .refl) ?_
  cases vs with
  | nil =>
    have hend : act F (((t.setCurrent (.array [])).eatws .array).goto .array) 93 =
        some (.next ((((t.setCurrent (.array [])).eatws .array).goto .array).eatws .finish)) := rfl
    have hsteps := (blank_steps (F := F) (t := (t.setCurrent (.array [])).eatws .array) rfl
      (93 :: c :: r)).trans (steps_redo (eatws_redo rfl (by decide) (by decide))
        (steps_next hend .refl))
    exact .found (by simpa [nest, nestElements] using hdepth) ⟨_, hsteps, rfl, rfl, rfl⟩
  | cons w vs =>
    have helements := elements_reads (t := (t.setCurrent (.array [])).eatws .array) vs hvs [] rfl
      hdepth (c :: r)
    exact helements.mono fun b hb => ⟨hb.1, hb.2.1, hb.2.2⟩

theorem readBack_object {ms : List (Bytes × JsonObject D)} (hkeys : (ms.map Prod.fst).Nodup)
    (hms : ∀ m ∈ ms, 0 ∉ m.1 ∧ ReadBack F m.2 ∧ Proper (Kept F) m.2) :
    ReadBack F (.object ms) := by
  have hopen : ascii "\x7b" = [123] := by decide
  have hclose : ascii " \x7d" = [32, 125] := by decide
  intro t c r hs hname hdepth _
  have hstart : act F t 123 =
      some (.next ((t.setCurrent (.object [])).eatws .objectFieldStart)) := by
    simp only [act, hs]
    rfl
  have htext : toJsonString F (.object ms) ++ c :: r =
      123 :: (membersToJsonString F false ms ++ 32 :: 125 :: c :: r) := by
    simp [toJsonString, hopen, hclose]
  have htop : ((t.setCurrent (.object [])).eatws .objectFieldStart).top =
      ⟨.eatws, .objectFieldStart, .object [], none⟩ := by
    rw [← hname]
    rfl
  rw [htext]
  refine .of_steps (steps_next hstart .refl) ?_
  cases ms with
  | nil =>
    have hend : act F (((t.setCurrent (.object [])).eatws .objectFieldStart).goto
        .objectFieldStart) 125 = some (.next ((((t.setCurrent (.object [])).eatws
          .objectFieldStart).goto .objectFieldStart).eatws .finish)) := rfl
    have hsteps := (blank_steps (F := F)
      (t := (t.setCurrent (.object [])).eatws .objectFieldStart) rfl (125 :: c :: r)).trans
        (steps_redo (eatws_redo rfl (by decide) (by decide)) (steps_next hend .refl))
    exact .found (by simpa [nest, nestMembers] using hdepth) ⟨_, hsteps, rfl, rfl, rfl⟩
  | cons m ms =>
    refine (members_reads ms hms [] hkeys htop hdepth (c :: r)).mono fun b hb => ?_
    obtain ⟨hr, htop, hbelow⟩ := hb
    exact ⟨hr, by rw [htop, hname]; rfl, hbelow⟩

theorem readBack_of_proper (hv : Proper (Kept F) v) : ReadBack F v := by
  induction hv with
  | null => exact readBack_null
  | boolean b => exact readBack_boolean b
  | double h => exact readBack_double h
  | int i => exact readBack_int i
  | object keys names h ih => exact readBack_object keys fun m hm => ⟨names m hm, ih m hm, h m hm⟩
  | array h ih => exact readBack_array fun w hw => ⟨ih w hw, h w hw⟩
  | string h => exact readBack_string h

theorem jsonEscapeStr_nul (s : Bytes) : 0 ∉ jsonEscapeStr s := by
  have hbyte : ∀ n : Fin 256, 0 ∉ escapeByte (UInt8.ofNat n) := by decide +kernel
  intro h
  obtain ⟨b, -, hb⟩ := List.mem_flatMap.1 h
  have hno := hbyte ⟨b.toNat, b.toNat_lt⟩
  rw [UInt8.ofNat_toNat] at hno
  exact hno hb

theorem toJsonString_nul (hv : Proper (Kept F) v) : 0 ∉ toJsonString F v := by
  have hmembers : ∀ (i : Bool) (ms : List (Bytes × JsonObject D)),
      (∀ m ∈ ms, 0 ∉ toJsonString F m.2) → 0 ∉ membersToJsonString F i ms := by
    intro i ms
    induction ms generalizing i with
    | nil => exact fun _ => List.not_mem_nil
    | cons m ms ih =>
      intro h
      obtain ⟨hm, hms⟩ := List.forall_mem_cons.1 h
      have hfirst : 0 ∉ (if i then ascii "," else []) := by cases i <;> decide
      have hquote : 0 ∉ ascii " \"" := by decide
      have hcolon : 0 ∉ ascii "\": " := by decide
      simp only [membersToJsonString, List.mem_append, not_or]
      exact ⟨⟨⟨⟨⟨hfirst, hquote⟩, jsonEscapeStr_nul m.1⟩, hcolon⟩, hm⟩, ih true hms⟩
  have helements : ∀ (i : Bool) (vs : List (JsonObject D)),
      (∀ w ∈ vs, 0 ∉ toJsonString F w) → 0 ∉ elementsToJsonString F i vs := by
    intro i vs
    induction vs generalizing i with
    | nil => exact fun _ => List.not_mem_nil
    | cons w vs ih =>
      intro h
      obtain ⟨hw, hvs⟩ := List.forall_mem_cons.1 h
      have hfirst : 0 ∉ (if i then ascii ", " else ascii " ") := by cases i <;> decide
      simp only [elementsToJsonString, List.mem_append, not_or]
      exact ⟨⟨hfirst, hw⟩, ih true hvs⟩
  induction hv with
  | null =>
    show 0 ∉ ascii "null"
    decide
  | boolean b =>
    show 0 ∉ (if b then ascii "true" else ascii "false")
    cases b <;> decide
  | double h => exact fun hin => absurd (h.chars 0 hin) (by decide)
  | int i =>
    intro hin
    obtain hzero | hzero := (decimal_bytes i.toInt).2 0 hin
    · exact absurd hzero (by decide)
    · exact absurd hzero (by decide)
  | object keys names h ih =>
    have hopen : 0 ∉ ascii "\x7b" := by decide
    have hclose : 0 ∉ ascii " \x7d" := by decide
    simp only [toJsonString, List.mem_append, not_or]
    exact ⟨⟨hopen, hmembers false _ ih⟩, hclose⟩
  | array h ih =>
    have hopen : 0 ∉ ascii "[" := by decide
    have hclose : 0 ∉ ascii " ]" := by decide
    simp only [toJsonString, List.mem_append, not_or]
    exact ⟨⟨hopen, helements false _ ih⟩, hclose⟩
  | string h =>
    have hquote : 0 ∉ ascii "\"" := by decide
    simp only [toJsonString, List.mem_append, not_or]
    exact ⟨⟨hquote, jsonEscapeStr_nul _⟩, hquote⟩

/-- The text of a proper object is parsed as that object if its values are nested less deep than
the stack of the tokener, and is refused with the error of the depth otherwise. -/
theorem parse_toJsonString (hv : Proper (Kept F) v) : jsonTokenerParse F (toJsonString F v) =
    some (if nest v < JSON_TOKENER_MAX_DEPTH then .ok v else .error .depth) := by
  have hnul := toJsonString_nul hv
  obtain ⟨d, w, hfirst, hd, hd', -⟩ := toJsonString_first hv
  have hstart : act F (.new D) d = some (.redo ((JsonTokener.new D).goto .start)) :=
    eatws_redo rfl hd hd'
  have hsteps : Steps F (.new D, toJsonString F v ++ [0])
      ((JsonTokener.new D).goto .start, toJsonString F v ++ [0]) := by
    rw [hfirst]
    exact steps_redo hstart .refl
  have hread := readBack_of_proper hv ((JsonTokener.new D).goto .start) 0 [] rfl rfl
    (Nat.succ_pos 31) (by decide)
  have hdepth : ((JsonTokener.new D).goto .start).depth = 0 := rfl
  rw [hdepth, Nat.add_zero] at hread
  rw [jsonTokenerParse]
  by_cases hn : nest v < JSON_TOKENER_MAX_DEPTH
  · obtain ⟨⟨u, r⟩, hu, hr, hhas⟩ := hread.1 hn
    dsimp only at hr hhas
    have hstate : u.top.state = .eatws := by rw [hhas.top]
    have hsaved : u.top.savedState = .finish := by rw [hhas.top]
    have hout : act F (u.goto .finish) 0 = some (.out (u.goto .finish) none) := by
      have hbelow : u.below = [] := hhas.below
      simp only [act, JsonTokener.goto, hbelow]
    have hfinish : act F u 0 = some (.redo (u.goto .finish)) := by
      rw [eatws_redo hstate (by decide) (by decide), hsaved]
    rw [hr] at hu
    rw [parseEx_of_steps (inv_new F) hnul
      ((hsteps.trans hu).trans (steps_redo hfinish .refl)) hout, if_pos hn]
    have hcur : u.top.current = v := by rw [hhas.top]
    exact congrArg (fun x => some (Except.ok x)) hcur
  · obtain ⟨u, c, s, x, hu, hout⟩ := hread.2 (Nat.not_lt.1 hn)
    rw [parseEx_of_steps (inv_new F) hnul (hsteps.trans hu) hout, if_neg hn]
    rfl

/-- One `double`, and its text. -/
def oneDouble : Floats Unit where
  sprintf _ := ascii "-0.500000"
  sscanf s := if s = ascii "-0.500000" then some () else none

theorem kept_oneDouble : Kept oneDouble () := by
  have hchars : (ascii "-0.500000").all isNumberChar = true := by decide
  exact ⟨List.all_eq_true.1 hchars, by decide, ⟨45, by decide, Or.inr rfl⟩, by decide⟩

/-- `[ -0.500000, { "a": [ 7, "\/" ] } ]` -/
def sample : JsonObject Unit :=
  .array [.double (), .object [(ascii "a", .array [.int 7, .string (ascii "/")])]]

theorem parse_toJsonString_sample :
    jsonTokenerParse oneDouble (toJsonString oneDouble sample) = some (.ok sample) := by
  have hinner : Proper (Kept oneDouble) (.array [.int 7, .string (ascii "/")]) := by
    refine .array (List.forall_mem_cons.2 ⟨.int 7, List.forall_mem_singleton.2 (.string ?_)⟩)
    decide
  have hobject : Proper (Kept oneDouble)
      (.object [(ascii "a", .array [.int 7, .string (ascii "/")])]) := by
    refine .object (List.nodup_singleton _) (List.forall_mem_singleton.2 ?_)
      (List.forall_mem_singleton.2 hinner)
    decide
  have hsample : Proper (Kept oneDouble) sample :=
    .array (List.forall_mem_cons.2 ⟨.double kept_oneDouble, List.forall_mem_singleton.2 hobject⟩)
  exact (parse_toJsonString hsample).trans (congrArg some (if_pos (by decide)))

end Main

end Doorhinges.JsonC

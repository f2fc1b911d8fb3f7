import Doorhinges.JsonC.Energy
import Doorhinges.JsonC.RoundTrip
import Mathlib.Algebra.Order.BigOperators.Group.List

/-!
# What the tokener makes of a plain object

The text of an object of strings that has been put together without escapes, and cut off
somewhere. The tokener reads the strings as they were if none of them has a quote or a backslash
and all of the text is there, and only then.
-/
namespace Doorhinges.JsonC

open Lib.CString

variable {D : Type} {F : Floats D}

section Text

/-- A member as it is, without escapes. -/
def plainMember (f : Bytes × Bytes) : Bytes := 34 :: f.1 ++ 34 :: 58 :: 34 :: f.2 ++ [34]

def plainMembers : List (Bytes × Bytes) → Bytes
  | [] => []
  | [f] => plainMember f
  | f :: g :: fs => plainMember f ++ 44 :: plainMembers (g :: fs)

def plainText (fs : List (Bytes × Bytes)) : Bytes := 123 :: plainMembers fs ++ [125]

/-- A string that needs no escape. -/
def Bare (b : Bytes) : Prop := 34 ∉ b ∧ 92 ∉ b

/-- The members that the text stands for. -/
def stringMembers (fs : List (Bytes × Bytes)) : List (Bytes × JsonObject D) :=
  fs.map fun f => (f.1, .string f.2)

end Text

section Runs

variable {t u : JsonTokener D} {s : State} {c d : UInt8} {p q r k : Bytes}
  {ms : List (Bytes × JsonObject D)}

theorem Reading.plain (hs : s = .string ∨ s = .objectField) (h : Reading s t u p) (hq : Bare q)
    (r : Bytes) : ∃ w, Steps F (u, q ++ r) (w, r) ∧ Reading s t w (p ++ q) := by
  induction q generalizing u p with
  | nil => exact ⟨u, .refl, by rwa [List.append_nil]⟩
  | cons c q ih =>
    obtain ⟨hquote, hslash⟩ := hq
    rw [List.mem_cons, not_or] at hquote hslash
    obtain ⟨hstep, hread⟩ := h.char (F := F) (r := q ++ r) hs (Ne.symm hquote.1) (Ne.symm hslash.1)
    obtain ⟨w, hw, hread⟩ := ih hread ⟨hquote.2, hslash.2⟩
    refine ⟨w, hstep.trans hw, ?_⟩
    rwa [List.append_assoc, List.singleton_append] at hread

/-- The tokener is in the string of member `k` of the lowest level, with the text `q` so far. -/
structure InValue (u : JsonTokener D) (ms : List (Bytes × JsonObject D)) (k q : Bytes) : Prop where
  state : u.top.state = .string
  pb : u.pb = q
  quote : u.quoteChar = 34
  below : ∃ s, u.below = [⟨.objectValueAdd, s, .object ms, some k⟩]

/-- A member up to somewhere in its string. -/
theorem inValue_steps {name : Option Bytes}
    (htop : t.top = ⟨.eatws, .objectFieldStart, .object ms, name⟩) (hbelow : t.below = [])
    (hk : Bare k) (hnul : 0 ∉ k) (hq : Bare q) (r : Bytes) :
    ∃ u, Steps F (t, 34 :: k ++ 34 :: 58 :: 34 :: q ++ r) (u, r) ∧ InValue u ms k q := by
  have hstate : t.top.state = .eatws := by rw [htop]
  have hsaved : t.top.savedState = .objectFieldStart := by rw [htop]
  let a : JsonTokener D :=
    { (t.goto .objectFieldStart).goto .objectField with pb := [], quoteChar := 34 }
  have hblank : act F t 34 = some (.redo (t.goto .objectFieldStart)) := by
    rw [eatws_redo hstate (by decide) (by decide), hsaved]
  have hopen : act F (t.goto .objectFieldStart) 34 = some (.next a) := by
    simp only [act, JsonTokener.goto]
    rfl
  have hname : Reading .objectField a a [] := ⟨rfl, rfl, rfl, rfl, rfl, rfl⟩
  obtain ⟨b, hb, hread⟩ := hname.plain (F := F) (Or.inr rfl) hk (34 :: 58 :: 34 :: q ++ r)
  let b' : JsonTokener D := { b with top := { b.top with objFieldName := some (cstr b.pb) } }
  have hclose : act F b 34 = some (.next (b'.eatws .objectFieldEnd)) := by
    simp only [act, hread.state]
    exact if_pos hread.quote.symm
  have hcolon : act F ((b'.eatws .objectFieldEnd).goto .objectFieldEnd) 58 =
      some (.next (b'.eatws .objectValue)) := by
    simp only [act, JsonTokener.goto]
    rfl
  have hdepth : b'.depth = 0 := by
    show b.below.length = 0
    rw [hread.below]
    exact congrArg List.length hbelow
  let e : JsonTokener D := ((b'.eatws .objectValue).goto .objectValue)
  have hdown : act F e 34 = some (.redo (e.down .objectValueAdd)) := by
    have hroom : ¬ JSON_TOKENER_MAX_DEPTH - 1 ≤ e.depth := by
      show ¬ JSON_TOKENER_MAX_DEPTH - 1 ≤ b'.depth
      rw [hdepth]
      decide
    simp only [act]
    exact if_neg hroom
  let f : JsonTokener D := (e.down .objectValueAdd).goto .start
  let g : JsonTokener D := { f.goto .string with pb := [], quoteChar := 34 }
  have hstart : act F f 34 = some (.next g) := by
    simp only [act]
    rfl
  have hvalue : Reading .string g g [] := ⟨rfl, rfl, rfl, rfl, rfl, rfl⟩
  obtain ⟨w, hw, hreadw⟩ := hvalue.plain (F := F) (Or.inl rfl) hq r
  refine ⟨w, ?_, hreadw.state, hreadw.pb, hreadw.quote, .objectValue, ?_⟩
  · rw [List.cons_append, List.cons_append, List.append_assoc]
    refine steps_redo hblank (steps_next hopen ?_)
    refine hb.trans (steps_next hclose ?_)
    refine steps_redo (eatws_redo rfl (by decide) (by decide)) (steps_next hcolon ?_)
    refine steps_redo (eatws_redo rfl (by decide) (by decide)) (steps_redo hdown ?_)
    refine steps_redo (eatws_redo rfl (by decide) (by decide)) (steps_next hstart hw)
  · rw [hreadw.below]
    show (⟨.objectValueAdd, .objectValue, b.top.current, some (cstr b.pb)⟩ :: b.below :
      List (Srec D)) = _
    rw [hread.current, hread.pb, hread.below, List.nil_append, cstr_eq hnul]
    show (⟨.objectValueAdd, .objectValue, t.top.current, some k⟩ :: t.below : List (Srec D)) = _
    rw [htop, hbelow]

/-- The end of the string. -/
theorem InValue.close (h : InValue u ms k q) (hnul : 0 ∉ q) :
    ∃ w, act F u 34 = some (.next w) ∧ w.top.state = .eatws ∧ w.top.savedState = .finish ∧
      w.top.current = .string q ∧ w.below = u.below := by
  have hact : act F u 34 = some (.next ((u.setCurrent (.string (cstr u.pb))).eatws .finish)) := by
    simp only [act, h.state]
    exact if_pos h.quote.symm
  refine ⟨_, hact, rfl, rfl, ?_, rfl⟩
  show JsonObject.string (cstr u.pb) = _
  rw [h.pb, cstr_eq hnul]

/-- The string becomes the value of the member. -/
theorem InValue.added (h : InValue u ms k q) (hnul : 0 ∉ q) (hspace : isSpace d = false)
    (hslash : d ≠ 47) (r : Bytes) : ∃ w, Steps F (u, 34 :: d :: r) (w, d :: r) ∧
      w.top = ⟨.objectSep, .objectSep, .object (objectAdd ms k (.string q)), none⟩ ∧
        w.below = [] := by
  obtain ⟨a, hact, hstate, hsaved, hcur, hbelow⟩ := h.close (F := F) hnul
  obtain ⟨s, hs⟩ := h.below
  obtain ⟨b, hb, hbtop, hobj, hbbelow⟩ :=
    finish_steps (F := F) hstate hsaved (hbelow.trans hs) hspace hslash r
  obtain ⟨w, hw, hwtop, hwbelow⟩ := objectValueAdd_steps (F := F) hbtop hspace hslash r
  refine ⟨w, steps_next hact (hb.trans hw), ?_, hwbelow.trans hbbelow⟩
  rw [hwtop, hobj, hcur]

/-- A plain member, and the character behind it. -/
theorem member_steps {f : Bytes × Bytes} {name : Option Bytes}
    (htop : t.top = ⟨.eatws, .objectFieldStart, .object ms, name⟩) (hbelow : t.below = [])
    (hk : Bare f.1) (hnul : 0 ∉ f.1) (hv : Bare f.2) (hvnul : 0 ∉ f.2)
    (hspace : isSpace d = false) (hslash : d ≠ 47) (r : Bytes) :
    ∃ w, Steps F (t, plainMember f ++ d :: r) (w, d :: r) ∧
      w.top = ⟨.objectSep, .objectSep, .object (objectAdd ms f.1 (.string f.2)), none⟩ ∧
        w.below = [] := by
  obtain ⟨u, hu, hin⟩ := inValue_steps (F := F) htop hbelow hk hnul hv (34 :: d :: r)
  obtain ⟨w, hw, hwtop, hwbelow⟩ := hin.added (F := F) hvnul hspace hslash r
  refine ⟨w, ?_, hwtop, hwbelow⟩
  have htext : plainMember f ++ d :: r = 34 :: f.1 ++ 34 :: 58 :: 34 :: f.2 ++ 34 :: d :: r := by
    simp [plainMember]
  rw [htext]
  exact hu.trans hw

/-- What comes behind a member that another one follows. -/
theorem comma_steps {v : JsonObject D} (htop : t.top = ⟨.objectSep, .objectSep, v, none⟩)
    (r : Bytes) : ∃ w, Steps F (t, 44 :: r) (w, r) ∧
      w.top = ⟨.eatws, .objectFieldStart, v, none⟩ ∧ w.below = t.below := by
  have hact : act F t 44 = some (.next (t.eatws .objectFieldStart)) := by
    simp only [act, htop]
    rfl
  refine ⟨_, steps_next hact .refl, ?_, rfl⟩
  show (⟨.eatws, .objectFieldStart, t.top.current, t.top.objFieldName⟩ : Srec D) = _
  rw [htop]

theorem plainMembers_cons (f g : Bytes × Bytes) (fs : List (Bytes × Bytes)) (r : Bytes) :
    plainMembers (f :: g :: fs) ++ r = plainMember f ++ 44 :: (plainMembers (g :: fs) ++ r) := by
  rw [plainMembers, List.append_assoc, List.cons_append]

/-- A member whose string is plain, and the members behind it that have not been read yet. -/
theorem first_steps {f : Bytes × Bytes} (g : Bytes × Bytes) (fs : List (Bytes × Bytes))
    {name : Option Bytes} (htop : t.top = ⟨.eatws, .objectFieldStart, .object ms, name⟩)
    (hbelow : t.below = []) (hk : Bare f.1) (hnul : 0 ∉ f.1) (hv : Bare f.2) (hvnul : 0 ∉ f.2)
    (r : Bytes) :
    ∃ w, Steps F (t, plainMembers (f :: g :: fs) ++ r) (w, plainMembers (g :: fs) ++ r) ∧
      w.top = ⟨.eatws, .objectFieldStart, .object (objectAdd ms f.1 (.string f.2)), none⟩ ∧
        w.below = [] := by
  obtain ⟨w, hw, hwtop, hwbelow⟩ := member_steps (F := F) (d := 44) htop hbelow hk hnul hv hvnul
    (by decide) (by decide) (plainMembers (g :: fs) ++ r)
  obtain ⟨x, hx, hxtop, hxbelow⟩ := comma_steps (F := F) hwtop (plainMembers (g :: fs) ++ r)
  rw [plainMembers_cons]
  exact ⟨x, hw.trans hx, hxtop, hxbelow.trans hwbelow⟩

/-- The members of a plain object, from one on, and its end. -/
theorem members_steps {fs : List (Bytes × Bytes)} {name : Option Bytes} (hne : fs ≠ [])
    (htop : t.top = ⟨.eatws, .objectFieldStart, .object ms, name⟩) (hbelow : t.below = [])
    (hkeys : ((ms ++ stringMembers fs).map Prod.fst).Nodup)
    (hnames : ∀ f ∈ fs, Bare f.1 ∧ 0 ∉ f.1) (hvalues : ∀ f ∈ fs, Bare f.2 ∧ 0 ∉ f.2)
    (r : Bytes) : ∃ w, Steps F (t, plainMembers fs ++ 125 :: r) (w, r) ∧
      w.top = ⟨.eatws, .finish, .object (ms ++ stringMembers fs), none⟩ ∧ w.below = [] := by
  induction fs generalizing t ms name with
  | nil => exact absurd rfl hne
  | cons f fs ih =>
    obtain ⟨hk, hnul⟩ := hnames f List.mem_cons_self
    obtain ⟨hv, hvnul⟩ := hvalues f List.mem_cons_self
    have hnew : objectAdd ms f.1 (.string f.2) = ms ++ [(f.1, .string f.2)] := by
      refine objectAdd_new fun hin => ?_
      rw [List.map_append, List.nodup_append] at hkeys
      exact hkeys.2.2 f.1 hin f.1 List.mem_cons_self rfl
    cases fs with
    | nil =>
      obtain ⟨w, hw, hwtop, hwbelow⟩ := member_steps (F := F) (d := 125) htop hbelow hk hnul hv
        hvnul (by decide) (by decide) r
      have hact : act F w 125 = some (.next (w.eatws .finish)) := by
        simp only [act, hwtop]
        rfl
      refine ⟨_, hw.trans (steps_next hact .refl), ?_, hwbelow⟩
      show (⟨.eatws, .finish, w.top.current, w.top.objFieldName⟩ : Srec D) = _
      rw [hwtop, hnew]
      rfl
    | cons g gs =>
      obtain ⟨w, hw, hwtop, hwbelow⟩ := first_steps (F := F) g gs htop hbelow hk
        hnul hv hvnul (125 :: r)
      have hassoc : objectAdd ms f.1 (.string f.2) ++ stringMembers (g :: gs) =
          ms ++ stringMembers (f :: g :: gs) := by
        rw [hnew, List.append_assoc]
        rfl
      obtain ⟨x, hx, hxtop, hxbelow⟩ := ih (List.cons_ne_nil _ _) hwtop hwbelow
        (by rwa [hassoc]) (fun e he => hnames e (List.mem_cons_of_mem _ he))
        (fun e he => hvalues e (List.mem_cons_of_mem _ he))
      exact ⟨x, hw.trans hx, by rw [hxtop, hassoc], hxbelow⟩

end Runs

section Lost

variable {t u : JsonTokener D} {a b : JsonTokener D × Bytes} {c : UInt8} {r : Bytes}
  {ms : List (Bytes × JsonObject D)} {fs gs : List (Bytes × Bytes)}

/-- On the way something is lost: more of the text than comes out of it, or one of the strings,
whose name has another one. -/
def Lost (F : Floats D) (fs : List (Bytes × Bytes)) (a : JsonTokener D × Bytes) : Prop :=
  ∃ b, Steps F a b ∧ b.2 ≠ [] ∧
    (energy b < energy a ∨ ∃ f ∈ fs, ∃ p, p ≠ f.2 ∧ (f.1, .string p) ∈ b.1.bottom)

theorem Lost.of_steps (hinv : Inv F a.1) (hsteps : Steps F a b) (hsub : gs ⊆ fs)
    (h : Lost F gs b) : Lost F fs a := by
  obtain ⟨d, hd, hne, hlost⟩ := h
  refine ⟨d, hsteps.trans hd, hne, ?_⟩
  obtain hlt | ⟨f, hf, p, hp, hmem⟩ := hlost
  · exact Or.inl (hlt.trans_le (energy_steps hinv hsteps).1)
  · exact Or.inr ⟨f, hsub hf, p, hp, hmem⟩

/-- A character that does not count. -/
theorem Lost.of_next (hact : act F t c = some (.next u)) (hweight : u.weight = t.weight)
    (hne : r ≠ []) : Lost F fs (t, c :: r) := by
  refine ⟨(u, r), steps_next hact .refl, hne, Or.inl ?_⟩
  rw [energy_mk, energy_mk, hweight, List.length_cons]
  omega

/-- Blanks and comments do not count. -/
theorem Lost.of_blank (hinv : Inv F t) (hstate : t.top.state = .eatws)
    (hc : isSpace c = true ∨ c = 47) (hne : r ≠ []) : Lost F fs (t, c :: r) := by
  have hnext : ∃ u, act F t c = some (.next u) := by
    simp only [act, hstate]
    obtain hc | rfl := hc
    · exact ⟨_, if_pos hc⟩
    · exact ⟨_, rfl⟩
  obtain ⟨u, hact⟩ := hnext
  exact .of_next hact ((fair_blank hinv (Or.inl hstate)).2 u hact).2.2.1 hne

theorem exists_first {v : Bytes} (h : ¬ Bare v) :
    ∃ p c q, v = p ++ c :: q ∧ Bare p ∧ (c = 34 ∨ c = 92) := by
  induction v with
  | nil => exact absurd ⟨List.not_mem_nil, List.not_mem_nil⟩ h
  | cons c v ih =>
    by_cases hc : c = 34 ∨ c = 92
    · exact ⟨[], c, v, rfl, ⟨List.not_mem_nil, List.not_mem_nil⟩, hc⟩
    · rw [not_or] at hc
      have hv : ¬ Bare v := fun hv =>
        h ⟨List.not_mem_cons_of_ne_of_not_mem (Ne.symm hc.1) hv.1,
          List.not_mem_cons_of_ne_of_not_mem (Ne.symm hc.2) hv.2⟩
      obtain ⟨p, d, q, rfl, hp, hd⟩ := ih hv
      exact ⟨c :: p, d, q, rfl, ⟨List.not_mem_cons_of_ne_of_not_mem (Ne.symm hc.1) hp.1,
        List.not_mem_cons_of_ne_of_not_mem (Ne.symm hc.2) hp.2⟩, hd⟩

/-- A string that has a quote or a backslash. -/
theorem value_lost {f : Bytes × Bytes} {name : Option Bytes} (hinv : Inv F t) (hf : f ∈ fs)
    (htop : t.top = ⟨.eatws, .objectFieldStart, .object ms, name⟩) (hbelow : t.below = [])
    (hk : Bare f.1) (hnul : 0 ∉ f.1) (hv : ¬ Bare f.2) (hvnul : 0 ∉ f.2) (hne : r ≠ []) :
    Lost F fs (t, plainMember f ++ r) := by
  obtain ⟨p, c, q, hvalue, hp, hc⟩ := exists_first hv
  have hpnul : 0 ∉ p := fun hin => hvnul (hvalue ▸ List.mem_append_left _ hin)
  have htext : plainMember f ++ r = 34 :: f.1 ++ 34 :: 58 :: 34 :: p ++ c :: (q ++ 34 :: r) := by
    simp [plainMember, hvalue]
  obtain ⟨u, hu, hin⟩ := inValue_steps (F := F) htop hbelow hk hnul hp (c :: (q ++ 34 :: r))
  have huinv : Inv F u := inv_steps hinv hu
  rw [htext]
  refine .of_steps hinv hu (List.Subset.refl fs) ?_
  obtain rfl | rfl := hc
  · -- the string ends, and what was to be more of it comes behind it
    obtain ⟨d, x, hx⟩ : ∃ d x, q ++ 34 :: r = d :: x := by
      cases q with
      | nil => exact ⟨34, r, rfl⟩
      | cons d q => exact ⟨d, q ++ 34 :: r, rfl⟩
    have hxne : x ≠ [] := by
      have hlen := congrArg List.length hx
      rw [List.length_append, List.length_cons, List.length_cons] at hlen
      have hr := List.length_pos_iff.2 hne
      exact List.length_pos_iff.1 (by omega)
    rw [hx]
    by_cases hd : isSpace d = true ∨ d = 47
    · obtain ⟨w, hact, hstate, -⟩ := hin.close (F := F) hpnul
      have hsteps : Steps F (u, 34 :: d :: x) (w, d :: x) := steps_next hact .refl
      exact .of_steps huinv hsteps (List.Subset.refl fs)
        (.of_blank (inv_steps huinv hsteps) hstate hd hxne)
    · rw [not_or] at hd
      obtain ⟨w, hw, hwtop, hwbelow⟩ :=
        hin.added (F := F) hpnul (Bool.eq_false_iff.2 hd.1) hd.2 x
      refine ⟨_, hw, List.cons_ne_nil _ _, Or.inr ⟨f, hf, p, ?_, ?_⟩⟩
      · intro heq
        have hlen := congrArg List.length (heq.trans hvalue)
        rw [List.length_append, List.length_cons] at hlen
        omega
      · show _ ∈ w.bottom
        rw [JsonTokener.bottom, hwbelow, List.getLast?_nil, Option.getD_none, hwtop]
        exact List.mem_append_right _ List.mem_cons_self
  · obtain ⟨w, hact, hweight⟩ := (fair_text (F := F) (Or.inl hin.state)).2 rfl hin.quote
    exact .of_next hact hweight (by simp)

theorem members_lost {name : Option Bytes} (hinv : Inv F t)
    (htop : t.top = ⟨.eatws, .objectFieldStart, .object ms, name⟩) (hbelow : t.below = [])
    (hnames : ∀ f ∈ fs, Bare f.1 ∧ 0 ∉ f.1) (hvalues : ∀ f ∈ fs, 0 ∉ f.2)
    (hbad : ∃ f ∈ fs, ¬ Bare f.2) (hne : r ≠ []) : Lost F fs (t, plainMembers fs ++ r) := by
  induction fs generalizing t ms name with
  | nil =>
    obtain ⟨f, hf, -⟩ := hbad
    cases hf
  | cons f fs ih =>
    obtain ⟨hk, hnul⟩ := hnames f List.mem_cons_self
    have hvnul := hvalues f List.mem_cons_self
    by_cases hv : Bare f.2
    · obtain ⟨e, he, hbade⟩ := hbad
      obtain rfl | he := List.mem_cons.1 he
      · exact absurd hv hbade
      cases fs with
      | nil => cases he
      | cons g gs =>
        obtain ⟨w, hw, hwtop, hwbelow⟩ := first_steps (F := F) g gs htop hbelow hk
          hnul hv hvnul r
        exact .of_steps hinv hw (List.subset_cons_self _ _) (ih (inv_steps hinv hw) hwtop hwbelow
          (fun e he => hnames e (List.mem_cons_of_mem _ he))
          (fun e he => hvalues e (List.mem_cons_of_mem _ he)) ⟨e, he, hbade⟩)
    · cases fs with
      | nil => exact value_lost hinv List.mem_cons_self htop hbelow hk hnul hv hvnul hne
      | cons g gs =>
        rw [plainMembers_cons]
        exact value_lost hinv List.mem_cons_self htop hbelow hk hnul hv hvnul (by simp)

end Lost

section Main

variable {fs : List (Bytes × Bytes)} {ms : List (Bytes × JsonObject D)}

theorem length_plainMembers (hne : fs ≠ []) :
    (plainMembers fs).length + 1 = cost (stringMembers fs : List (Bytes × JsonObject D)) := by
  have hmember : ∀ f : Bytes × Bytes,
      (plainMember f).length + 1 = memberCost (f.1, (.string f.2 : JsonObject D)) := by
    intro f
    simp [plainMember, memberCost, valueCost]
    omega
  induction fs with
  | nil => exact absurd rfl hne
  | cons f fs ih =>
    have hcons : cost (stringMembers (f :: fs) : List (Bytes × JsonObject D)) =
        memberCost (f.1, (.string f.2 : JsonObject D)) + cost (stringMembers fs) := rfl
    rw [hcons, ← hmember]
    cases fs with
    | nil => rfl
    | cons g gs =>
      rw [← ih (List.cons_ne_nil _ _), plainMembers, List.length_append, List.length_cons]
      omega

theorem objectGet_mem {k p : Bytes} (h : objectGet ms k = .string p) : (k, .string p) ∈ ms := by
  rw [objectGet] at h
  cases hfind : ms.find? (·.1 = k) with
  | none =>
    rw [hfind] at h
    cases h
  | some m =>
    rw [hfind] at h
    have hkey : m.1 = k := by simpa using List.find?_some hfind
    have hval : m.2 = .string p := h
    rw [← hkey, ← hval]
    exact List.mem_of_find?_eq_some hfind

/-- An object in which the strings are found has room for all of them. -/
theorem cost_le_of_get (hkeys : (fs.map Prod.fst).Nodup)
    (hget : ∀ f ∈ fs, objectGet ms f.1 = .string f.2) :
    cost (stringMembers fs : List (Bytes × JsonObject D)) ≤ cost ms := by
  have hnodup : (stringMembers fs : List (Bytes × JsonObject D)).Nodup := by
    refine List.Nodup.of_map Prod.fst ?_
    rw [stringMembers, List.map_map]
    exact hkeys
  have hsub : (stringMembers fs : List (Bytes × JsonObject D)) ⊆ ms := by
    intro m hm
    obtain ⟨f, hf, rfl⟩ := List.mem_map.1 hm
    exact objectGet_mem (hget f hf)
  obtain ⟨ns, hns, hsublist⟩ := List.subperm_of_subset hnodup hsub
  rw [cost, cost, ← (hns.map memberCost).sum_eq]
  exact (hsublist.map memberCost).sum_le_sum fun _ _ => Nat.zero_le _

theorem objectGet_stringMembers (hkeys : (fs.map Prod.fst).Nodup) :
    ∀ f ∈ fs, objectGet (stringMembers fs : List (Bytes × JsonObject D)) f.1 = .string f.2 := by
  induction fs with
  | nil => exact fun f hf => absurd hf List.not_mem_nil
  | cons g fs ih =>
    rw [List.map_cons, List.nodup_cons] at hkeys
    intro f hf
    rw [objectGet, stringMembers, List.map_cons]
    obtain rfl | hf := List.mem_cons.1 hf
    · rw [List.find?_cons_of_pos (by simp)]
      rfl
    · have hne : g.1 ≠ f.1 := fun heq => hkeys.1 (heq ▸ List.mem_map_of_mem hf)
      rw [List.find?_cons_of_neg (by simpa using hne)]
      exact ih hkeys.2 f hf

/-- The brace in front of the members. -/
theorem open_steps (F : Floats D) (s : Bytes) : ∃ t, Steps F (.new D, 123 :: s) (t, s) ∧
    t.top = ⟨.eatws, .objectFieldStart, .object [], none⟩ ∧ t.below = [] := by
  have hblank : act F (.new D) 123 = some (.redo ((JsonTokener.new D).goto .start)) :=
    eatws_redo rfl (by decide) (by decide)
  exact ⟨_, steps_redo hblank (steps_next (by rfl) .refl), rfl, rfl⟩

theorem plainMembers_nul (hnames : ∀ f ∈ fs, 0 ∉ f.1) (hvalues : ∀ f ∈ fs, 0 ∉ f.2) :
    0 ∉ plainMembers fs := by
  have hmember : ∀ f ∈ fs, 0 ∉ plainMember f := by
    intro f hf
    simp [plainMember, hnames f hf, hvalues f hf]
  induction fs with
  | nil => exact List.not_mem_nil
  | cons f fs ih =>
    cases fs with
    | nil => exact hmember f List.mem_cons_self
    | cons g gs =>
      have hrest := ih (fun e he => hnames e (List.mem_cons_of_mem _ he))
        (fun e he => hvalues e (List.mem_cons_of_mem _ he))
        (fun e he => hmember e (List.mem_cons_of_mem _ he))
      simp [plainMembers, hmember f List.mem_cons_self, hrest]

theorem mem_stack {P : D → Prop} {rs : List (Srec D)} {l : Srec D} (h : Stack P rs)
    (hl : l ∈ rs) : l.state.Adds ∧ l.Ok := by
  induction rs with
  | nil => cases hl
  | cons r rs ih =>
    obtain rfl | hl := List.mem_cons.1 hl
    · exact ⟨h.1.1, h.1.2.ok⟩
    · exact ih h.2 hl

/-- A level that waits and has members waits for the value of another one. -/
theorem waitCost_of_mem {l : Srec D} {m : Bytes × JsonObject D} (h : l.state.Adds ∧ l.Ok)
    (hm : m ∈ l.current.members) : 4 ≤ l.waitCost := by
  obtain ⟨hs | hs, hok⟩ := h
  · simp only [Srec.Ok, hs, State.Needs] at hok
    obtain ⟨vs, hvs⟩ := hok
    rw [hvs] at hm
    cases hm
  · rw [Srec.waitCost, if_pos hs]
    omega

/-- A successful parse of a text that the strings come out of has had all of the text, and has
lost nothing. -/
theorem parse_complete {s : Bytes} (hne : fs ≠ []) (hkeys : (fs.map Prod.fst).Nodup)
    (hnul : 0 ∉ s) (hlen : s.length ≤ (plainText fs).length)
    (hparse : jsonTokenerParse F s = some (.ok (.object ms)))
    (hget : ∀ f ∈ fs, objectGet ms f.1 = .string f.2) :
    (plainText fs).length ≤ s.length ∧ ¬ Lost F fs (.new D, s ++ [0]) := by
  obtain ⟨⟨u, e⟩, hex, heq⟩ := Option.map_eq_some_iff.1 hparse
  cases e with
  | some e => cases heq
  | none =>
    have hms : u.top.current = .object ms := Except.ok.inj heq
    obtain ⟨y, hy, hlast, hcur, henergy⟩ := last_of_parseEx (inv_new F) hnul hex hms
    have hcost : cost (stringMembers fs) ≤ cost ms := cost_le_of_get hkeys hget
    have hmembers := length_plainMembers (D := D) hne
    have hstart : energy (JsonTokener.new D, s ++ [0]) = s.length + 1 := by
      rw [energy_mk, List.length_append, List.length_singleton]
      exact Nat.zero_add _
    have htext : (plainText fs).length = (plainMembers fs).length + 2 := by
      simp [plainText]
    have hle := (energy_steps (inv_new F) hy).1
    refine ⟨by omega, fun hlost => ?_⟩
    obtain ⟨b, hb, hbne, hlost⟩ := hlost
    have hby : Steps F b y := steps_last hb hy hlast hbne
    have hbinv : Inv F b.1 := inv_steps (inv_new F) hb
    have hbstart := (energy_steps (inv_new F) hb).1
    obtain ⟨hyb, hkept⟩ := energy_steps hbinv hby
    obtain hlt | ⟨f, hf, p, hp, hmem⟩ := hlost
    · omega
    obtain hmem | hlt := hkept _ hmem
    · have hyinv : Inv F y.1 := inv_steps hbinv hby
      cases hbelow : y.1.below with
      | nil =>
        rw [JsonTokener.bottom, hbelow, List.getLast?_nil, Option.getD_none, hcur] at hmem
        have hproper := hyinv.top.proper
        rw [hcur] at hproper
        cases hproper with
        | object keys _ _ =>
          have hother : (f.1, JsonObject.string f.2) ∈ ms := objectGet_mem (hget f hf)
          have hsame := List.inj_on_of_nodup_map keys hmem hother rfl
          exact hp (JsonObject.string.inj (Prod.mk.inj hsame).2)
      | cons l ls =>
        have hin := List.getLast_mem (List.cons_ne_nil l ls)
        have hstack := hyinv.below
        rw [hbelow] at hstack henergy
        rw [JsonTokener.bottom, hbelow, List.getLast?_eq_some_getLast (List.cons_ne_nil l ls),
          Option.getD_some] at hmem
        have hwait := waitCost_of_mem (mem_stack hstack hin) hmem
        have hsum := List.le_sum_of_mem (List.mem_map_of_mem (f := Srec.waitCost) hin)
        omega
    · omega

/-- The strings are read as they are exactly if none of them has a quote or a backslash and all of
the text is there. -/
theorem parse_plainText_iff (F : Floats D) (hne : fs ≠ []) (hkeys : (fs.map Prod.fst).Nodup)
    (hnames : ∀ f ∈ fs, Bare f.1 ∧ 0 ∉ f.1) (hvalues : ∀ f ∈ fs, 0 ∉ f.2) (n : Nat) :
    (∃ ms, jsonTokenerParse F ((plainText fs).take n) = some (.ok (.object ms)) ∧
        ∀ f ∈ fs, objectGet ms f.1 = .string f.2) ↔
      (∀ f ∈ fs, Bare f.2) ∧ (plainText fs).length ≤ n := by
  have hnul : 0 ∉ plainText fs := by
    have hmembers := plainMembers_nul (fun f hf => (hnames f hf).2) hvalues
    simp [plainText, hmembers]
  have htext : plainText fs ++ [0] = 123 :: (plainMembers fs ++ 125 :: [0]) := by
    simp [plainText]
  obtain ⟨t, ht, htop, hbelow⟩ := open_steps F (plainMembers fs ++ 125 :: [0])
  rw [← htext] at ht
  constructor
  · intro h
    obtain ⟨ms, hparse, hget⟩ := h
    obtain ⟨hlen, hlost⟩ := parse_complete hne hkeys (fun hin => hnul (List.mem_of_mem_take hin))
      (List.length_take_le' _ _) hparse hget
    have hn : (plainText fs).length ≤ n := by
      rw [List.length_take] at hlen
      omega
    rw [List.take_of_length_le hn] at hlost
    refine ⟨fun f hf => ?_, hn⟩
    by_contra hbad
    exact hlost (.of_steps (inv_new F) ht (List.Subset.refl fs)
      (members_lost (inv_steps (inv_new F) ht) htop hbelow hnames hvalues ⟨f, hf, hbad⟩
        (List.cons_ne_nil _ _)))
  · intro h
    obtain ⟨hplain, hn⟩ := h
    obtain ⟨w, hw, hwtop, hwbelow⟩ := members_steps (F := F) hne htop hbelow
      (by rw [List.nil_append, stringMembers, List.map_map]; exact hkeys) hnames
      (fun f hf => ⟨hplain f hf, hvalues f hf⟩) [0]
    have hstate : w.top.state = .eatws := by rw [hwtop]
    have hsaved : w.top.savedState = .finish := by rw [hwtop]
    have hend : act F (w.goto w.top.savedState) 0 =
        some (.out (w.goto w.top.savedState) none) := by
      simp only [act, JsonTokener.goto, hsaved, hwbelow]
    have hex := parseEx_of_steps (inv_new F) hnul (ht.trans (hw.trans (steps_redo
      (eatws_redo hstate (by decide) (by decide)) .refl))) hend
    refine ⟨stringMembers fs, ?_, objectGet_stringMembers hkeys⟩
    rw [List.take_of_length_le hn, jsonTokenerParse, hex, Option.map_some]
    show some (Except.ok w.top.current) = _
    rw [hwtop]
    rfl

end Main

end Doorhinges.JsonC

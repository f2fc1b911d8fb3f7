import Doorhinges.Report.Answer
import Doorhinges.Report.Dates

/-!
# What a self-contained request gives

On a connection that holds nothing only the parameters can be read that the request has stored.
So a report is self-contained when it is refused with its parameters, or when it gives its dates
as far as `check_date` looks at them, and its key if they are accepted.
-/
namespace Doorhinges.Report

open Lib.CString
open Query

variable {c d : Conn} {p q : Nat} {b : UInt8}

section Sealed

/-- The buffer is readable exactly below `last`, and its last byte ends a text. -/
structure Sealed (c : Conn) : Prop where
  dom : ∀ i, (c.buf i).isSome ↔ i < c.last
  room : c.last ≤ MAX_REQUEST_BUF_SIZE
  ended : 0 < c.last → c.buf (c.last - 1) = some 0

/-- The texts of the format and the key are in the request's own part of the buffer. -/
structure Placed (c : Conn) : Prop extends Sealed c where
  format : ∀ p, c.apr.format = .param p → p < c.last
  key : ∀ p, c.apr.key = some p → p < c.last

theorem Sealed.byte (h : Sealed c) (hp : p < c.last) : ∃ b, c.buf p = some b :=
  Option.isSome_iff_exists.1 ((h.dom p).2 hp)

theorem Sealed.lt (h : Sealed c) (hb : c.buf p = some b) : p < c.last :=
  (h.dom p).1 (by rw [hb]; rfl)

/-- A byte that ends no text is not the last one. -/
theorem Sealed.succ_lt (h : Sealed c) (hb : c.buf p = some b) (hne : b ≠ 0) : p + 1 < c.last := by
  have hp := h.lt hb
  have hlast : p ≠ c.last - 1 := by
    rintro rfl
    exact hne (Option.some.inj (hb.symm.trans (h.ended (by omega))))
  omega

theorem Sealed.str (h : Sealed c) (hp : p < c.last) : ∃ s, c.str p = some s :=
  str_of_ended (fun i hi => h.byte hi) h.room (h.ended (by omega)) hp

/-- A byte that is not the last one may be replaced. -/
theorem Sealed.put (h : Sealed c) (hp : p + 1 < c.last) (b : UInt8) : Sealed (c.put p b) := by
  refine ⟨fun i => ?_, h.room, fun hlast => ?_⟩
  · show (if i = p then some b else c.buf i).isSome ↔ i < c.last
    split
    · rename_i hi
      exact ⟨fun _ => by omega, fun _ => rfl⟩
    · exact h.dom i
  · show (if c.last - 1 = p then some b else c.buf (c.last - 1)) = some 0
    rw [if_neg (by omega)]
    exact h.ended hlast

theorem Sealed.poke (h : Sealed c) (hp : p < c.last) (b : UInt8) :
    poke p b c = some ((), c.put p b) := by
  have hroom := h.room
  rw [Report.poke, Conn.setByte, if_pos (by omega)]
  rfl

theorem Sealed.number (h : Sealed c) (hp : p < c.last) : ∃ n, number p c = some (n, c) := by
  obtain ⟨s, hs⟩ := h.str hp
  exact ⟨_, number_eq hs⟩

theorem Placed.setParam (c : Conn) (i : Nat) (var : Bytes) (h : Placed c) :
    Placed (setParam c i var).conn := by
  refine setParam_keeps h i fun hroom apr hapr => ⟨⟨fun j => ?_, ?_, fun _ => strlcpy_ended c var⟩,
    fun p hp => ?_, fun p hp => ?_⟩
  · show (if c.last ≤ j ∧ j ≤ c.last + var.length then _ else c.buf j).isSome ↔
      j < c.last + var.length + 1
    split
    · exact ⟨fun _ => by omega, fun _ => rfl⟩
    · rw [h.dom j]
      omega
  · show c.last + var.length + 1 ≤ _
    omega
  · show p < c.last + var.length + 1
    rcases hapr.format with hnew | hold
    · obtain rfl := Text.param.inj (hnew.symm.trans hp)
      omega
    · have := h.format p (hold.symm.trans hp)
      omega
  · show p < c.last + var.length + 1
    rcases hapr.key with hnew | hold
    · obtain rfl := Option.some.inj (hnew.symm.trans hp)
      omega
    · have := h.key p (hold.symm.trans hp)
      omega

end Sealed

section Dates

/-- What is read of the end date; its day only when the month and the day of the start date
are accepted. -/
structure EndHeld (c : Conn) (p q : Nat) : Prop where
  fourth : q + 4 < c.last
  seventh : c.buf (q + 4) ≠ some 45 → q + 7 < c.last
  day : c.buf (q + 4) = some 45 ∨ c.buf (q + 7) = some 45 →
    ∀ x d, dateNumbers p c = some (x, d) → monthOrDayWrong x.2.1 x.2.2 = false → q + 8 < c.last

/-- The dates are given as far as `check_date` looks at them. -/
def DatesHeld (c : Conn) : Prop :=
  ∃ p, c.apr.startdate = some p ∧ p + 4 < c.last ∧ (c.buf (p + 4) = some 45 → p + 7 < c.last ∧
    (c.buf (p + 7) = some 45 → ∃ q, c.apr.enddate = some q ∧ EndHeld c p q))

/-- The connection whose date at `p` is cut. -/
def Conn.cut (c : Conn) (p : Nat) : Conn := (c.put (p + 4) 0).put (p + 7) 0

theorem Sealed.cut (h : Sealed c) (hp : p + 8 < c.last) : Sealed (c.cut p) :=
  (h.put (by omega) 0).put (p := p + 7) (by exact hp) 0

theorem dateNumbers_cut (h : Sealed c) (hp : p + 8 < c.last) :
    ∃ x, dateNumbers p c = some (x, c.cut p) := by
  have h4 := h.put (p := p + 4) (by omega) 0
  have hcut := h.cut hp
  obtain ⟨year, hyear⟩ := hcut.number (p := p) (by exact Nat.lt_of_le_of_lt (by omega) hp)
  obtain ⟨mon, hmon⟩ := hcut.number (p := p + 5) (by exact Nat.lt_of_le_of_lt (by omega) hp)
  obtain ⟨day, hday⟩ := hcut.number (p := p + 8) (by exact hp)
  refine ⟨(year, mon, day), ?_⟩
  rw [dateNumbers, act_run (h.poke (by omega) 0),
    act_run (h4.poke (by exact Nat.lt_of_le_of_lt (by omega) hp) 0)]
  exact (act_run hyear).trans ((act_run hmon).trans (act_run hday))

theorem poke_keeps {i j : Nat} (hij : j ≠ i) (h : poke i b c = some ((), d)) :
    d.buf j = c.buf j := by
  obtain ⟨e, he, hd⟩ := Option.map_eq_some_iff.1 h
  obtain ⟨-, rfl⟩ := Prod.mk.inj hd
  rw [Conn.setByte] at he
  split at he
  · obtain rfl := Option.some.inj he
    exact if_neg hij
  · cases he

theorem number_reads {n : Int} (h : number p c = some (n, d)) : d = c ∧ (c.buf p).isSome := by
  obtain ⟨s, e, hs, hpure⟩ := act_bind.1 h
  obtain ⟨-, rfl⟩ := act_pure.1 hpure
  obtain ⟨t, ht, he⟩ := Option.map_eq_some_iff.1 hs
  refine ⟨(Prod.mk.inj he).2.symm, ?_⟩
  rw [Conn.str, MAX_REQUEST_BUF_SIZE, Conn.readUpTo] at ht
  cases hb : c.buf p with
  | none =>
    rw [hb] at ht
    cases ht
  | some b => rfl

/-- The day of a date that is read is there. -/
theorem dateNumbers_room (h : Sealed c) {x : Int × Int × Int}
    (hx : dateNumbers p c = some (x, d)) : p + 8 < c.last := by
  obtain ⟨_, c1, h1, hx⟩ := act_bind.1 hx
  obtain ⟨_, c2, h2, hx⟩ := act_bind.1 hx
  obtain ⟨_, c3, h3, hx⟩ := act_bind.1 hx
  obtain ⟨_, c4, h4, hx⟩ := act_bind.1 hx
  obtain ⟨_, c5, h5, -⟩ := act_bind.1 hx
  obtain ⟨rfl, -⟩ := number_reads h3
  obtain ⟨rfl, -⟩ := number_reads h4
  obtain ⟨-, hread⟩ := number_reads h5
  rw [poke_keeps (by omega) h2, poke_keeps (by omega) h1] at hread
  exact (h.dom _).1 hread

/-- Two dates whose days are there are checked. -/
theorem checkNumbers_sealed (h : Sealed c) (hp : p + 8 < c.last) (hq : q + 8 < c.last) :
    ∃ r d, checkNumbers p q c = some (r, d) ∧ Sealed d := by
  obtain ⟨x, hx⟩ := dateNumbers_cut h hp
  obtain ⟨y, hy⟩ := dateNumbers_cut (h.cut hp) (p := q) (by exact hq)
  have h2 := (h.cut hp).cut (p := q) (by exact hq)
  rw [checkNumbers, act_run hx]
  split
  · exact ⟨_, _, rfl, h.cut hp⟩
  rw [act_run hy]
  split
  · exact ⟨_, _, rfl, h2⟩
  dsimp only
  split
  · exact ⟨_, _, rfl, h2⟩
  split
  · exact ⟨_, _, rfl, h2⟩
  have hp4 : p + 4 + 1 < c.last := by omega
  have hq4 : q + 4 + 1 < c.last := by omega
  have h3 := h2.put (p := p + 4) hp4 45
  have h4 := h3.put (p := p + 7) hp 45
  have h5 := h4.put (p := q + 4) hq4 45
  have h6 := h5.put (p := q + 7) hq 45
  refine ⟨.success, _, ?_, h6⟩
  rw [act_run (h2.poke (Nat.lt_of_succ_lt hp4) 45), act_run (h3.poke (Nat.lt_of_succ_lt hp) 45),
    act_run (h4.poke (Nat.lt_of_succ_lt hq4) 45), act_run (h5.poke (Nat.lt_of_succ_lt hq) 45)]
  rfl

/-- A byte that is looked at decides how `check_date` goes on. -/
theorem byte_bind {β : Type} {f : UInt8 → Act β} {r : β} :
    (byte p >>= f) c = some (r, d) ↔ ∃ b, c.buf p = some b ∧ f b c = some (r, d) := by
  show ((c.buf p).map fun b => (b, c)).bind (fun x => f x.1 x.2) = some (r, d) ↔ _
  rw [Option.bind_map, Option.bind_eq_some_iff]
  rfl

theorem param_bind {β : Type} {g : Apr → Option Nat} {f : Nat → Act β} {r : β} :
    (param g >>= f) c = some (r, d) ↔ ∃ p, g c.apr = some p ∧ f p c = some (r, d) := by
  show ((g c.apr).map fun p => (p, c)).bind (fun x => f x.1 x.2) = some (r, d) ↔ _
  rw [Option.bind_map, Option.bind_eq_some_iff]
  rfl

/-- The separator of the end date that `check_date` goes by. -/
theorem endSeparator_held (h : Sealed c) (h4 : q + 4 < c.last)
    (h7 : c.buf (q + 4) ≠ some 45 → q + 7 < c.last) :
    ∃ b, endSeparator q c = some (b, c) ∧
      (b = 45 ↔ c.buf (q + 4) = some 45 ∨ c.buf (q + 7) = some 45) := by
  obtain ⟨b4, hb4⟩ := h.byte h4
  by_cases hdash : b4 = 45
  · subst hdash
    exact ⟨45, byte_bind.2 ⟨45, hb4, rfl⟩, fun _ => .inl hb4, fun _ => rfl⟩
  · have hne : c.buf (q + 4) ≠ some 45 := fun he => hdash (Option.some.inj (hb4.symm.trans he))
    obtain ⟨b7, hb7⟩ := h.byte (h7 hne)
    refine ⟨b7, byte_bind.2 ⟨b4, hb4, ?_⟩, fun he => .inr (he ▸ hb7), fun he => ?_⟩
    · rw [if_neg hdash, byte, hb7]
      rfl
    · exact Option.some.inj (hb7.symm.trans (he.resolve_left hne))

/-- Dates that are held are checked. -/
theorem checkDate_of_held (h : Sealed c) (hheld : DatesHeld c) :
    ∃ r d, checkDate c = some (r, d) ∧ Sealed d := by
  obtain ⟨p, hp, hp4, hrest⟩ := hheld
  obtain ⟨b4, hb4⟩ := h.byte hp4
  by_cases hdash4 : b4 = 45
  swap
  · exact ⟨_, c, param_bind.2 ⟨p, hp, byte_bind.2 ⟨b4, hb4, by rw [if_pos hdash4]; rfl⟩⟩, h⟩
  subst hdash4
  obtain ⟨hp7, hrest⟩ := hrest hb4
  obtain ⟨b7, hb7⟩ := h.byte hp7
  by_cases hdash7 : b7 = 45
  swap
  · exact ⟨_, c, param_bind.2 ⟨p, hp, byte_bind.2 ⟨45, hb4, byte_bind.2 ⟨b7, hb7, by
      rw [if_pos hdash7]; rfl⟩⟩⟩, h⟩
  subst hdash7
  have hp8 : p + 8 < c.last := h.succ_lt hb7 (by decide)
  obtain ⟨q, hq, hend⟩ := hrest hb7
  obtain ⟨sep, hsep, hsepdash⟩ := endSeparator_held h hend.fourth hend.seventh
  have hrun (r : Code) (d : Conn)
      (hlast : (if sep ≠ 45 then pure .enddateFormat else checkNumbers p q : Act Code) c =
        some (r, d)) : checkDate c = some (r, d) :=
    param_bind.2 ⟨p, hp, byte_bind.2 ⟨45, hb4, byte_bind.2 ⟨45, hb7, param_bind.2 ⟨q, hq,
      act_bind.2 ⟨sep, c, hsep, hlast⟩⟩⟩⟩⟩
  by_cases hdash : sep = 45
  swap
  · exact ⟨_, c, hrun _ _ (by rw [if_pos hdash]; rfl), h⟩
  obtain ⟨x, hx⟩ := dateNumbers_cut h hp8
  cases hwrong : monthOrDayWrong x.2.1 x.2.2 with
  | true =>
    refine ⟨.startdateFormat, c.cut p, hrun _ _ ?_, h.cut hp8⟩
    rw [if_neg (not_not.2 hdash), checkNumbers, act_run hx, if_pos hwrong]
    rfl
  | false =>
    obtain ⟨r, d, hd, hsealed⟩ :=
      checkNumbers_sealed h hp8 (hend.day (hsepdash.1 hdash) x _ hx hwrong)
    exact ⟨r, d, hrun _ _ (by rw [if_neg (not_not.2 hdash), hd]), hsealed⟩

/-- Dates that are checked are held. -/
theorem held_of_checkDate (h : Sealed c) {r : Code} (hd : checkDate c = some (r, d)) :
    DatesHeld c := by
  obtain ⟨p, hp, hd⟩ := param_bind.1 hd
  obtain ⟨b4, hb4, hd⟩ := byte_bind.1 hd
  refine ⟨p, hp, h.lt hb4, fun hdash4 => ?_⟩
  obtain rfl := Option.some.inj (hb4.symm.trans hdash4)
  obtain ⟨b7, hb7, hd⟩ := byte_bind.1 hd
  refine ⟨h.lt hb7, fun hdash7 => ?_⟩
  obtain rfl := Option.some.inj (hb7.symm.trans hdash7)
  obtain ⟨q, hq, hd⟩ := param_bind.1 hd
  obtain ⟨sep, e, hsep, hd⟩ := act_bind.1 hd
  obtain ⟨c4, hc4, hsep4⟩ := byte_bind.1 hsep
  have hq4 := h.lt hc4
  have hq7 (hne : c.buf (q + 4) ≠ some 45) : q + 7 < c.last := by
    rw [if_neg fun he : c4 = 45 => hne (he ▸ hc4)] at hsep4
    obtain ⟨b, hb, -⟩ := Option.map_eq_some_iff.1 hsep4
    exact h.lt hb
  obtain ⟨sep', hsep', hsepdash⟩ := endSeparator_held h hq4 hq7
  obtain ⟨rfl, rfl⟩ := Prod.mk.inj (Option.some.inj (hsep'.symm.trans hsep))
  refine ⟨q, hq, hq4, hq7, fun hdash x e hx hright => ?_⟩
  have hp8 : p + 8 < c.last := dateNumbers_room h hx
  rw [if_neg (not_not.2 (hsepdash.2 hdash)), checkNumbers, act_run hx,
    if_neg (Bool.not_eq_true _ ▸ hright)] at hd
  obtain ⟨y, e', hy, -⟩ := act_bind.1 hd
  obtain ⟨x', hx'⟩ := dateNumbers_cut h hp8
  obtain ⟨-, rfl⟩ := Prod.mk.inj (Option.some.inj (hx'.symm.trans hx))
  have hday := dateNumbers_room (h.cut hp8) hy
  exact hday

end Dates

/-- The parameters of the request, on a connection that holds nothing. -/
def storedBy (bufr : Bytes) : Outcome :=
  aisAdreportSet { blank with apr := { blank.apr with format := .const (ascii "json") } }
    (cstr (urlDecode bufr MAX_REQUEST_BUF_SIZE true))

/-- The connection when its dates are checked. -/
def Conn.formatted (c : Conn) : Conn :=
  let f := (c.text c.apr.format).getD []
  { c with
    apr := { c.apr with
      format := .const (if caseEq f (ascii "xml") then ascii "xml" else ascii "json") } }

theorem storedBy_placed (bufr : Bytes) : Placed (storedBy bufr).conn := by
  refine setTokens_keeps (P := Placed) Placed.setParam ?_ _ _
  exact ⟨⟨fun i => ⟨fun hi => (by cases hi), fun hi => absurd hi (Nat.not_lt_zero i)⟩,
    Nat.zero_le _, fun h => absurd h (Nat.lt_irrefl 0)⟩, fun p hp => (by cases hp),
    fun p hp => (by cases hp)⟩

theorem format_placed (h : Placed c) : ∃ f, format c = some (f, c) := by
  unfold Report.format
  split
  · exact ⟨_, rfl⟩
  · rename_i p hp
    obtain ⟨s, hs⟩ := h.toSealed.str (h.format p hp)
    exact ⟨s, by rw [hs]; rfl⟩

theorem formatted_eq {f : Bytes} (hf : format c = some (f, c)) :
    c.formatted = { c with
      apr := { c.apr with
        format := .const (if caseEq f (ascii "xml") then ascii "xml" else ascii "json") } } := by
  have htext : c.text c.apr.format = some f := by
    unfold Report.format at hf
    unfold Conn.text
    split at hf
    · exact congrArg some (Prod.mk.inj (Option.some.inj hf)).1
    · obtain ⟨s, hs, he⟩ := Option.map_eq_some_iff.1 hf
      rw [hs, (Prod.mk.inj he).1]
  rw [Conn.formatted, htext]
  rfl

/-- Past its parameters a request goes on to its dates, and from accepted dates to its key. -/
theorem selfContained_run (bufr : Bytes) : SelfContained bufr ↔ ((storedBy bufr).ok = true →
    ∃ ret d, checkDate (storedBy bufr).conn.formatted = some (ret, d) ∧
      (ret = .success → ∃ p k, d.apr.key = some p ∧ d.str p = some k)) := by
  obtain ⟨f, hf⟩ := format_placed (storedBy_placed bufr)
  have hset : setFormat (.const (ascii "json")) blank =
    some ((), { blank with apr := { blank.apr with format := .const (ascii "json") } }) := rfl
  have hstored : outcome
      (fun c => aisAdreportSet c (cstr (urlDecode bufr MAX_REQUEST_BUF_SIZE true)))
      { blank with apr := { blank.apr with format := .const (ascii "json") } } =
    some (((storedBy bufr).code, (storedBy bufr).ok), (storedBy bufr).conn) := rfl
  rw [SelfContained, readRequest, act_run hset, act_run hstored, Option.isSome_iff_exists]
  dsimp only
  split
  · rename_i hok
    rw [act_run hf, act_run (d := (storedBy bufr).conn.formatted) (by rw [formatted_eq hf]; rfl)]
    constructor
    · rintro ⟨⟨r, e⟩, hr⟩ -
      obtain ⟨ret, d, hret, hrest⟩ := act_bind.1 hr
      refine ⟨ret, d, hret, fun hsuccess => ?_⟩
      rw [if_neg (not_not.2 hsuccess)] at hrest
      obtain ⟨p, hp, hrest⟩ := param_bind.1 hrest
      obtain ⟨k, e', hk, -⟩ := act_bind.1 hrest
      obtain ⟨s, hs, -⟩ := Option.map_eq_some_iff.1 hk
      exact ⟨p, s, hp, hs⟩
    · intro hdates
      obtain ⟨ret, d, hret, hkey⟩ := hdates hok
      rw [act_run hret]
      by_cases hsuccess : ret = .success
      · obtain ⟨p, k, hp, hk⟩ := hkey hsuccess
        have hstr : str p d = some (k, d) := by
          rw [str, hk]
          rfl
        rw [if_neg (not_not.2 hsuccess)]
        exact ⟨(.inr k, d), param_bind.2 ⟨p, hp, act_bind.2 ⟨k, d, hstr, rfl⟩⟩⟩
      · have hformat : d.apr.format = (storedBy bufr).conn.formatted.apr.format :=
          congrArg Apr.format (checkDate_quiet _ _ _ hret).apr
        obtain ⟨a, ha⟩ := errorFormat_defined (c := d) hformat ret
        rw [if_pos hsuccess]
        exact ⟨_, act_bind.2 ⟨a, d, ha, rfl⟩⟩
  · rename_i hok
    obtain ⟨a, ha⟩ : ∃ a, errorFormat (storedBy bufr).code (storedBy bufr).conn =
        some (a, (storedBy bufr).conn) := ⟨_, act_bind.2 ⟨f, _, hf, rfl⟩⟩
    exact ⟨fun _ h => absurd h hok, fun _ => ⟨_, act_bind.2 ⟨a, _, ha, rfl⟩⟩⟩

/-- A request is self-contained when its parameters are refused, or it gives its dates, and its
key if they are accepted. -/
theorem selfContained_iff (bufr : Bytes) :
    SelfContained bufr ↔ ((storedBy bufr).ok = true → DatesHeld (storedBy bufr).conn.formatted ∧
      ∀ d, checkDate (storedBy bufr).conn.formatted = some (.success, d) →
        ∃ p, (storedBy bufr).conn.apr.key = some p) := by
  have hplaced := storedBy_placed bufr
  have hsealed : Sealed (storedBy bufr).conn.formatted :=
    ⟨hplaced.dom, hplaced.room, hplaced.ended⟩
  rw [selfContained_run]
  refine forall_congr' fun hok => ⟨?_, ?_⟩
  · rintro ⟨ret, d, hret, hkey⟩
    refine ⟨held_of_checkDate hsealed hret, fun d' hd' => ?_⟩
    obtain ⟨rfl, rfl⟩ := Prod.mk.inj (Option.some.inj (hd'.symm.trans hret))
    obtain ⟨p, k, hp, -⟩ := hkey rfl
    rw [(checkDate_quiet _ _ _ hd').apr] at hp
    exact ⟨p, hp⟩
  · rintro ⟨hheld, hkey⟩
    obtain ⟨ret, d, hret, hd⟩ := checkDate_of_held hsealed hheld
    have hquiet := checkDate_quiet _ _ _ hret
    refine ⟨ret, d, hret, fun hsuccess => ?_⟩
    subst hsuccess
    obtain ⟨p, hp⟩ := hkey d hret
    obtain ⟨k, hk⟩ := hd.str (p := p) (hquiet.last ▸ hplaced.key p hp)
    exact ⟨p, k, by rw [hquiet.apr]; exact hp, hk⟩

end Doorhinges.Report

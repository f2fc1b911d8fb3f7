import Doorhinges.Report.Leftovers
import Mathlib.Data.List.GetD

/-!
# When an answer is the request's own

The answer of a report is that of the request and the database, whatever the
connection served before, as long as the report finds its dates and its key in
what this request has stored.
-/
namespace Doorhinges.Report

open Lib.CString
open Query

variable {c d : Conn}

section Filled

/-- The texts of the platform follow the parameters; the last byte ends a text. -/
structure Filled (c : Conn) : Prop extends Owned c where
  platform : ∃ p < c.last, c.app.platformProviderID = some p
  used : 0 < c.last
  ended : c.buf (c.last - 1) = some 0

/-- A text that starts in the request's own part ends there. -/
theorem str_of_ended (hcovered : ∀ i < c.last, ∃ b, c.buf i = some b)
    (hroom : c.last ≤ MAX_REQUEST_BUF_SIZE) (hended : c.buf (c.last - 1) = some 0) {p : Nat}
    (hp : p < c.last) : ∃ s, c.str p = some s := by
  have hread : ∀ n p, p < c.last → c.last ≤ n + p → ∃ s, c.readUpTo n p = some s := by
    intro n
    induction n with
    | zero => intro p hp hn; omega
    | succ n ih =>
      intro p hp hn
      obtain ⟨b, hb⟩ := hcovered p hp
      unfold Conn.readUpTo
      rw [hb]
      dsimp only
      split
      · exact ⟨[], rfl⟩
      · rename_i hzero
        have hlast : p ≠ c.last - 1 := by
          rintro rfl
          exact hzero (Option.some.inj (hb.symm.trans hended))
        obtain ⟨s, hs⟩ := ih (p + 1) (by omega) (by omega)
        exact ⟨b :: s, by rw [hs]; rfl⟩
  exact hread _ p hp (by omega)

theorem Filled.str (h : Filled c) {p : Nat} (hp : p < c.last) : ∃ s, c.str p = some s :=
  str_of_ended h.covered h.room h.ended hp

theorem strlcpy_ended (c : Conn) (s : Bytes) :
    (c.strlcpy s).buf ((c.strlcpy s).last - 1) = some 0 := by
  have hlen : (cstr s).length ≤ s.length := List.Sublist.length_le (List.takeWhile_sublist _)
  show (if c.last ≤ c.last + s.length + 1 - 1 ∧ c.last + s.length + 1 - 1 ≤ c.last + s.length then
    some ((cstr s).getD (c.last + s.length + 1 - 1 - c.last) 0) else _) = some 0
  rw [if_pos (by omega), List.getD_eq_default _ _ (by omega)]

theorem setAdsdk_owned (h : Owned c) {field : Option Bytes} {set : Nat → App → App}
    (hs : setAdsdk field set c = some d) : Owned d ∧ c.last < d.last ∧
      d.buf (d.last - 1) = some 0 ∧ d.apr = c.apr ∧ d.app = set c.last c.app := by
  cases field with
  | none => cases hs
  | some s =>
    rw [setAdsdk_some] at hs
    split at hs
    · cases hs
    · rename_i hroom
      obtain rfl := Option.some.inj hs
      refine ⟨⟨covered_strlcpy h.covered s, ?_, fun p hp => ?_, fun p hp => ?_⟩, ?_,
        strlcpy_ended c s, rfl, rfl⟩
      · show c.last + s.length + 1 ≤ _
        omega
      · show p < c.last + s.length + 1
        have := h.startdate p hp
        omega
      · show p < c.last + s.length + 1
        have := h.enddate p hp
        omega
      · show c.last < c.last + s.length + 1
        omega

theorem Filled.setAdsdk (h : Filled c) {field : Option Bytes} {set : Nat → App → App}
    (hs : setAdsdk field set c = some d)
    (hset : ∀ p a, (set p a).platformProviderID = a.platformProviderID) :
    Filled d ∧ d.apr = c.apr := by
  obtain ⟨hown, hlast, hended, hapr, happ⟩ := setAdsdk_owned h.toOwned hs
  obtain ⟨p, hp, hpid⟩ := h.platform
  refine ⟨⟨hown, ⟨p, by omega, ?_⟩, by omega, hended⟩, hapr⟩
  rw [happ, hset, hpid]

theorem setPlatform_filled (h : Owned c) {id show_ click key secret source : Option Bytes}
    (hs : setPlatform id show_ click key secret source c = some d) : Filled d ∧ d.apr = c.apr := by
  obtain ⟨c1, h1, hs⟩ := Option.bind_eq_some_iff.mp hs
  obtain ⟨hown, hlast, hended, hapr1, happ⟩ := setAdsdk_owned h h1
  have hf1 : Filled c1 := ⟨hown, ⟨c.last, hlast, by rw [happ]⟩, by omega, hended⟩
  obtain ⟨c2, h2, hs⟩ := Option.bind_eq_some_iff.mp hs
  obtain ⟨hf2, hapr2⟩ := hf1.setAdsdk h2 fun _ _ => rfl
  obtain ⟨c3, h3, hs⟩ := Option.bind_eq_some_iff.mp hs
  obtain ⟨hf3, hapr3⟩ := hf2.setAdsdk h3 fun _ _ => rfl
  obtain ⟨c4, h4, hs⟩ := Option.bind_eq_some_iff.mp hs
  obtain ⟨hf4, hapr4⟩ := hf3.setAdsdk h4 fun _ _ => rfl
  obtain ⟨c5, h5, hs⟩ := Option.bind_eq_some_iff.mp hs
  obtain ⟨hf5, hapr5⟩ := hf4.setAdsdk h5 fun _ _ => rfl
  obtain ⟨hf6, hapr6⟩ := hf5.setAdsdk hs fun _ _ => rfl
  exact ⟨hf6, by rw [hapr6, hapr5, hapr4, hapr3, hapr2, hapr1]⟩

end Filled

/-- A connection that holds nothing: no pointer is set and no byte may be read. -/
def blank : Conn := ⟨fun _ => none, 0, ⟨.const [], none, none, none, none, none, none, []⟩,
  ⟨none, none, none, none, none, none⟩⟩

/-- Up to the lookup of the platform the request meets only what it has stored itself;
`selfContained_iff` says which parameters that takes. -/
def SelfContained (bufr : Bytes) : Prop := (readRequest bufr blank).isSome

instance (bufr : Bytes) : Decidable (SelfContained bufr) :=
  inferInstanceAs (Decidable (_ = true))

/-- Where a request stands when its platform is looked up. -/
structure Asked (c : Conn) : Prop extends Owned c where
  format : ∃ s, c.apr.format = .const s
  start : ∃ p, c.apr.startdate = some p
  end_ : ∃ p, c.apr.enddate = some p

theorem errorFormat_defined {s : Bytes} (h : c.apr.format = .const s) (code : Code) :
    ∃ a, errorFormat code c = some (a, c) := by
  refine ⟨_, act_bind.mpr ⟨s, c, ?_, rfl⟩⟩
  unfold Report.format
  rw [h]

theorem read_same {α : Type} {o : Option α} {a : α}
    (h : (o.map fun a => (a, c)) = some (a, d)) : d = c := by
  obtain ⟨b, -, he⟩ := Option.map_eq_some_iff.mp h
  exact (Prod.mk.inj he).2.symm

theorem format_same {s : Bytes} (h : format c = some (s, d)) : d = c := by
  unfold Report.format at h
  split at h
  · exact (Prod.mk.inj (Option.some.inj h)).2.symm
  · exact read_same h

/-- The parameters are accepted, and what is left is to check the dates and read the key. -/
theorem asked_of_dates {c : Conn} (hown : Owned c) {f : Bytes} {key : Bytes}
    (h : (do
      setFormat (.const f)
      let ret ← checkDate
      if ret ≠ .success then do
        let a ← errorFormat ret
        pure (.inl a)
      else do
        let key ← param (·.key)
        let k ← str key
        pure (.inr k) : Act (Answer ⊕ Bytes)) c = some (.inr key, d)) : Asked d := by
  obtain ⟨_, c1, h1, g1⟩ := act_bind.mp h
  obtain ⟨-, rfl⟩ := Prod.mk.inj (Option.some.inj h1)
  obtain ⟨ret, c2, h2, g2⟩ := act_bind.mp g1
  have hstill := checkDate_quiet _ _ _ h2
  split at g2
  · obtain ⟨_, _, _, g3⟩ := act_bind.mp g2
    cases (act_pure.mp g3).1
  · rename_i hret
    obtain rfl : ret = .success := by simpa using hret
    obtain ⟨hs, he⟩ := dates_of_success h2
    obtain ⟨kp, c3, h3, g3⟩ := act_bind.mp g2
    obtain rfl : c3 = c2 := read_same h3
    obtain ⟨k, c4, h4, g4⟩ := act_bind.mp g3
    obtain rfl : c4 = c3 := read_same h4
    obtain ⟨-, rfl⟩ := act_pure.mp g4
    have hown1 : Owned { c with apr := { c.apr with format := .const f } } :=
      ⟨hown.covered, hown.room, hown.startdate, hown.enddate⟩
    have hown2 := hown1.still hstill
    exact ⟨hown2, by rw [hstill.apr]; exact ⟨_, rfl⟩, by rw [hstill.apr]; exact hs,
      by rw [hstill.apr]; exact he⟩

theorem asked_of_readRequest {bufr key : Bytes}
    (h : readRequest bufr blank = some (.inr key, d)) : Asked d := by
  obtain ⟨_, c1, h1, g1⟩ := act_bind.mp h
  obtain ⟨-, rfl⟩ := Prod.mk.inj (Option.some.inj h1)
  obtain ⟨r, c2, h2, g2⟩ := act_bind.mp g1
  have hown : Owned c2 := by
    obtain ⟨-, rfl⟩ := Prod.mk.inj (Option.some.inj h2)
    refine Owned.setTokens ⟨fun i hi => ?_, Nat.zero_le _, fun p hp => ?_, fun p hp => ?_⟩ _ _
    · exact absurd hi (Nat.not_lt_zero i)
    · cases hp
    · cases hp
  split at g2
  · obtain ⟨f, c3, h3, g3⟩ := act_bind.mp g2
    exact asked_of_dates (format_same h3 ▸ hown) g3
  · obtain ⟨_, _, _, g3⟩ := act_bind.mp g2
    cases (act_pure.mp g3).1

/-- After the lookup nothing depends on what was left behind. -/
theorem answerFor_defined (h : Asked c) (db : Database) (key : Bytes) :
    ∃ a d, answerFor db key c = some (a, d) := by
  obtain ⟨f, hf⟩ := h.format
  unfold answerFor
  cases db.adplatform key with
  | empty => exact (errorFormat_defined hf _).imp fun a ha => ⟨c, ha⟩
  | notObject => exact (errorFormat_defined hf _).imp fun a ha => ⟨c, ha⟩
  | object id show_ click key secret source =>
    dsimp only
    cases hs : setPlatform id show_ click key secret source c with
    | none => exact ⟨_, c, rfl⟩
    | some e =>
      dsimp only
      obtain ⟨hfill, hapr⟩ := setPlatform_filled h.toOwned hs
      have hfe : e.apr.format = .const f := by rw [hapr, hf]
      obtain ⟨p, hp, hpid⟩ := hfill.platform
      obtain ⟨pidText, hpidText⟩ := hfill.str hp
      have hreadPid : pid e = some (pidText, e) := by simp [pid, hpid, hpidText]
      obtain ⟨q, hq⟩ := h.start
      obtain ⟨r, hr⟩ := h.end_
      have hqe : e.apr.startdate = some q := by rw [hapr, hq]
      have hre : e.apr.enddate = some r := by rw [hapr, hr]
      obtain ⟨s, hs⟩ := hfill.str (hfill.startdate q hqe)
      obtain ⟨t, ht⟩ := hfill.str (hfill.enddate r hre)
      by_cases hbad : pidInvalid pidText = true
      · obtain ⟨a, ha⟩ := errorFormat_defined hfe .pidInvalidParameterIllegal
        exact ⟨a, e, act_bind.mpr ⟨pidText, e, hreadPid, by rw [if_pos hbad]; exact ha⟩⟩
      · by_cases hconn : (!db.connects) = true
        · obtain ⟨a, ha⟩ := errorFormat_defined hfe .connectError
          exact ⟨a, e, act_bind.mpr ⟨pidText, e, hreadPid, by rw [if_neg hbad, if_pos hconn]; exact ha⟩⟩
        · refine ⟨sqlAnswer (sqlText s t pidText), e, act_bind.mpr ⟨pidText, e, hreadPid, ?_⟩⟩
          rw [if_neg hbad, if_neg hconn]
          refine act_bind.mpr ⟨q, e, by simp [param, hqe], act_bind.mpr ⟨s, e, by simp [str, hs], ?_⟩⟩
          exact act_bind.mpr ⟨r, e, by simp [param, hre], act_bind.mpr ⟨t, e, by simp [str, ht], rfl⟩⟩

theorem aisReport_mono (db : Database) (bufr : Bytes) : Mono (aisReport db bufr) := by
  refine (readRequest_mono bufr).bind fun r => ?_
  cases r with
  | inl a => exact Mono.pure a
  | inr key => exact answerFor_mono db key

/-- A self-contained request has one answer, whatever connection serves it. -/
theorem answer_unique {bufr : Bytes} (h : SelfContained bufr) (db : Database) :
    ∃ a, ∀ c, ∃ d, serveReport db c bufr = some (a, d) := by
  obtain ⟨r, hr⟩ := Option.isSome_iff_exists.mp h
  obtain ⟨a, d, ha⟩ : ∃ a d, aisReport db bufr blank = some (a, d) := by
    obtain ⟨r, d⟩ := r
    cases r with
    | inl a => exact ⟨a, d, act_bind.mpr ⟨_, d, hr, rfl⟩⟩
    | inr key =>
      obtain ⟨a, e, he⟩ := answerFor_defined (asked_of_readRequest hr) db key
      exact ⟨a, e, act_bind.mpr ⟨_, d, hr, he⟩⟩
  refine ⟨a, fun c => ?_⟩
  -- The format and the flags are set before they are looked at.
  let e : Conn := { resetPerRequestAttributes c with apr := { c.apr with format := .const [], flags := [] } }
  have hsame : serveReport db c bufr = aisReport db bufr e := rfl
  have hle : HoldsLess blank e :=
    ⟨fun _ _ hb => (by cases hb), rfl, ⟨rfl, rfl, fun _ hp => (by cases hp),
      fun _ hp => (by cases hp), fun _ hp => (by cases hp)⟩, fun _ hp => (by cases hp)⟩
  obtain ⟨d', hd', -⟩ := aisReport_mono db bufr blank e a d hle ha
  exact ⟨d', hsame.trans hd'⟩

/-- Two connections with different pasts give a self-contained report the same answer. -/
theorem answer_independent {κ : Type} (db : Database) (others : κ → Conn → Conn) (bufr : Bytes)
    (h : SelfContained bufr) : ∀ (past₁ past₂ : List (Request κ)) (c₁ c₂ : Conn),
    serveAll db others created past₁ = some c₁ → serveAll db others created past₂ = some c₂ →
    (serveReport db c₁ bufr).map (·.1) = (serveReport db c₂ bufr).map (·.1) := by
  intro past₁ past₂ c₁ c₂ _ _
  obtain ⟨a, ha⟩ := answer_unique h db
  obtain ⟨d₁, hd₁⟩ := ha c₁
  obtain ⟨d₂, hd₂⟩ := ha c₂
  rw [hd₁, hd₂]
  rfl

section Samples

def noOther (k : Empty) (_ : Conn) : Conn := k.elim

/-- No key is known. -/
def noPlatform : Database := ⟨fun _ => .empty, true⟩

def complete : Bytes := ascii "r&key=K&startdate=2014-01-01&enddate=2014-01-02"

/-- Dates that are too short. -/
def misdated : Bytes := ascii "r&key=K&startdate=2014&enddate=2014"

def undated : Bytes := ascii "r&key=K"

theorem answer_independent_complete : ∃ c₁ c₂,
    serveAll noPlatform noOther created [] = some c₁ ∧
    serveAll noPlatform noOther created [.report misdated] = some c₂ ∧
    (serveReport noPlatform c₁ complete).map (·.1) =
      (serveReport noPlatform c₂ complete).map (·.1) := by
  obtain ⟨c₁, h₁⟩ : ∃ c, serveAll noPlatform noOther created [] = some c := ⟨_, rfl⟩
  obtain ⟨c₂, h₂⟩ : ∃ c, serveAll noPlatform noOther created [.report misdated] = some c :=
    ⟨_, rfl⟩
  exact ⟨c₁, c₂, h₁, h₂,
    answer_independent noPlatform noOther complete (by decide) _ _ c₁ c₂ h₁ h₂⟩

theorem undated_after_complete : ∃ c,
    serveAll noPlatform noOther created [.report complete] = some c ∧
    (serveReport noPlatform c undated).map (·.1) = some (.error false .platformEmpty) :=
  ⟨_, rfl, rfl⟩

theorem undated_after_misdated : ∃ c,
    serveAll noPlatform noOther created [.report misdated] = some c ∧
    (serveReport noPlatform c undated).map (·.1) = some (.error false .startdateFormat) :=
  ⟨_, rfl, rfl⟩

/-- A report without dates is checked against the dates of the report before it. -/
theorem answer_dependent : ¬∀ (db : Database) (bufr : Bytes) (past₁ past₂ : List (Request Empty))
    (c₁ c₂ : Conn), serveAll db noOther created past₁ = some c₁ →
    serveAll db noOther created past₂ = some c₂ →
    (serveReport db c₁ bufr).map (·.1) = (serveReport db c₂ bufr).map (·.1) := by
  intro h
  obtain ⟨c₁, h₁, ha₁⟩ := undated_after_complete
  obtain ⟨c₂, h₂, ha₂⟩ := undated_after_misdated
  have hsame := h noPlatform undated _ _ c₁ c₂ h₁ h₂
  rw [ha₁, ha₂] at hsame
  cases hsame

end Samples

end Doorhinges.Report

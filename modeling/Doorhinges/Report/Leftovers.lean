import Doorhinges.Report.Model

/-!
# What earlier requests leave behind

A connection holds less than another when every byte and every pointer it has is
the other's. What a request does on one that holds less, it does on the other.
A request that is answered by a connection that holds nothing is answered the
same whatever was served before.
-/
namespace Doorhinges.Report

open Lib.CString
open Query

structure AprLe (a b : Apr) : Prop where
  format : b.format = a.format
  flags : b.flags = a.flags
  key : ∀ p, a.key = some p → b.key = some p
  startdate : ∀ p, a.startdate = some p → b.startdate = some p
  enddate : ∀ p, a.enddate = some p → b.enddate = some p

/-- The first connection holds less; the fields that no answer is read from do not count. -/
structure HoldsLess (c d : Conn) : Prop where
  buf : ∀ i b, c.buf i = some b → d.buf i = some b
  last : d.last = c.last
  apr : AprLe c.apr d.apr
  platform : ∀ p, c.app.platformProviderID = some p → d.app.platformProviderID = some p

/-- What the code does on a connection, it does on one that holds more. -/
def Mono {α : Type} (m : Act α) : Prop :=
  ∀ c c' a d, HoldsLess c c' → m c = some (a, d) → ∃ d', m c' = some (a, d') ∧ HoldsLess d d'

variable {α β : Type} {c c' d : Conn}

theorem act_bind {m : Act α} {f : α → Act β} {b : β} :
    (m >>= f) c = some (b, d) ↔ ∃ a e, m c = some (a, e) ∧ f a e = some (b, d) := by
  show (m c).bind (fun r => f r.1 r.2) = some (b, d) ↔ _
  rw [Option.bind_eq_some_iff]
  exact ⟨fun ⟨r, hm, hf⟩ => ⟨r.1, r.2, hm, hf⟩, fun ⟨a, e, hm, hf⟩ => ⟨(a, e), hm, hf⟩⟩

theorem act_pure {a b : α} : (pure a : Act α) c = some (b, d) ↔ a = b ∧ c = d := by
  show some (a, c) = some (b, d) ↔ _
  simp

section Mono

theorem Mono.bind {m : Act α} {f : α → Act β} (hm : Mono m) (hf : ∀ a, Mono (f a)) :
    Mono (m >>= f) := by
  intro c c' b e hle hr
  obtain ⟨a, d, hmc, hfd⟩ := act_bind.mp hr
  obtain ⟨d', hmc', hd⟩ := hm c c' a d hle hmc
  obtain ⟨e', hfd', he⟩ := hf a d d' b e hd hfd
  exact ⟨e', act_bind.mpr ⟨a, d', hmc', hfd'⟩, he⟩

theorem Mono.pure (a : α) : Mono (pure a : Act α) := by
  intro c c' b d hle hr
  obtain ⟨rfl, rfl⟩ := act_pure.mp hr
  exact ⟨c', rfl, hle⟩

theorem Mono.ite {b : Prop} [Decidable b] {m n : Act α} (hm : Mono m) (hn : Mono n) :
    Mono (if b then m else n) := by
  split
  · exact hm
  · exact hn

theorem HoldsLess.readUpTo (h : HoldsLess c c') : ∀ {n p : Nat} {s : Bytes},
    c.readUpTo n p = some s → c'.readUpTo n p = some s := by
  intro n
  induction n with
  | zero => intro p s hs; cases hs
  | succ n ih =>
    intro p s hs
    unfold Conn.readUpTo at hs ⊢
    cases hb : c.buf p with
    | none => simp [hb] at hs
    | some b =>
      rw [hb] at hs
      rw [h.buf p b hb]
      dsimp only at hs ⊢
      split
      · rename_i hzero
        rwa [if_pos hzero] at hs
      · rename_i hzero
        rw [if_neg hzero] at hs
        obtain ⟨t, ht, rfl⟩ := Option.map_eq_some_iff.mp hs
        simp [ih ht]

/-- A part of the connection is read; the connection stays as it is. -/
theorem Mono.read {f : Conn → Option α} (hf : ∀ c c' a, HoldsLess c c' → f c = some a →
    f c' = some a) : Mono fun c => (f c).map fun a => (a, c) := by
  intro c c' b d hle hr
  obtain ⟨a, ha, he⟩ := Option.map_eq_some_iff.mp hr
  obtain ⟨rfl, rfl⟩ := Prod.mk.inj he
  exact ⟨c', by simp [hf c c' a hle ha], hle⟩

theorem byte_mono (p : Nat) : Mono (byte p) := Mono.read fun _ _ b hle hb => hle.buf p b hb

theorem str_mono (p : Nat) : Mono (str p) := Mono.read fun _ _ _ hle hs => hle.readUpTo hs

theorem number_mono (p : Nat) : Mono (number p) := (str_mono p).bind fun _ => Mono.pure _

theorem startdate_mono : Mono (param (·.startdate)) :=
  Mono.read fun _ _ p hle hp => hle.apr.startdate p hp

theorem enddate_mono : Mono (param (·.enddate)) :=
  Mono.read fun _ _ p hle hp => hle.apr.enddate p hp

theorem key_mono : Mono (param (·.key)) := Mono.read fun _ _ p hle hp => hle.apr.key p hp

theorem pid_mono : Mono pid := by
  refine Mono.read fun c c' s hle hs => ?_
  obtain ⟨p, hp, hs⟩ := Option.bind_eq_some_iff.mp hs
  exact Option.bind_eq_some_iff.mpr ⟨p, hle.platform p hp, hle.readUpTo hs⟩

theorem format_mono : Mono format := by
  intro c c' s d hle hr
  have hsame := hle.apr.format
  unfold format at hr ⊢
  rw [hsame]
  cases hf : c.apr.format with
  | const t =>
    simp only [hf, Option.some.injEq, Prod.mk.injEq] at hr
    obtain ⟨rfl, rfl⟩ := hr
    exact ⟨c', rfl, hle⟩
  | param p =>
    simp only [hf] at hr
    exact str_mono p c c' s d hle hr

theorem setFormat_mono (t : Text) : Mono (setFormat t) := by
  intro c c' u d hle hr
  obtain ⟨-, rfl⟩ := Prod.mk.inj (Option.some.inj hr)
  exact ⟨_, rfl, hle.buf, hle.last, ⟨rfl, hle.apr.flags, hle.apr.key, hle.apr.startdate,
    hle.apr.enddate⟩, hle.platform⟩

theorem poke_mono (p : Nat) (b : UInt8) : Mono (poke p b) := by
  intro c c' u d hle hr
  obtain ⟨e, he, hd⟩ := Option.map_eq_some_iff.mp hr
  obtain ⟨-, rfl⟩ := Prod.mk.inj hd
  unfold Conn.setByte at he
  split at he
  · rename_i hp
    obtain rfl := Option.some.inj he
    refine ⟨{ c' with buf := fun i => if i = p then some b else c'.buf i },
      by simp [poke, Conn.setByte, hp], fun i x hx => ?_, hle.last, hle.apr, hle.platform⟩
    by_cases hi : i = p
    · simpa [hi] using hx
    · simpa [hi] using hle.buf i x (by simpa [hi] using hx)
  · cases he

theorem HoldsLess.strlcpy (h : HoldsLess c c') (s : Bytes) :
    HoldsLess (c.strlcpy s) (c'.strlcpy s) := by
  refine ⟨fun i b hb => ?_, by simp [Conn.strlcpy, h.last], h.apr, h.platform⟩
  simp only [Conn.strlcpy, h.last] at hb ⊢
  split at hb
  · rename_i hi
    rwa [if_pos hi]
  · rename_i hi
    rw [if_neg hi]
    exact h.buf i b hb

theorem outcome_mono {f : Conn → Outcome}
    (hf : ∀ c c', HoldsLess c c' → (f c').code = (f c).code ∧ (f c').ok = (f c).ok ∧
      HoldsLess (f c).conn (f c').conn) : Mono (outcome f) := by
  intro c c' r d hle hr
  obtain ⟨hcode, hok, hconn⟩ := hf c c' hle
  obtain ⟨rfl, rfl⟩ := Prod.mk.inj (Option.some.inj hr)
  exact ⟨_, by simp only [outcome, hcode, hok], hconn⟩

end Mono

section Parameters

/-- The second outcome is that of the same code on a connection that holds more. -/
structure Follows (o o' : Outcome) : Prop where
  code : o'.code = o.code
  ok : o'.ok = o.ok
  conn : HoldsLess o.conn o'.conn

theorem store_follows (h : HoldsLess c c') (i : Nat) (code : Code) (mayBeEmpty : Bool) (var : Bytes)
    {set : Nat → Apr → Apr} (hset : ∀ p a b, AprLe a b → AprLe (set p a) (set p b)) :
    Follows (store c i code mayBeEmpty var set) (store c' i code mayBeEmpty var set) := by
  have hapr := hset c.last _ _ h.apr
  have hcopy := h.strlcpy var
  unfold store
  rw [h.last, h.apr.flags]
  split
  · exact ⟨rfl, rfl, h⟩
  · split
    · exact ⟨rfl, rfl, h⟩
    · exact ⟨rfl, rfl, hcopy.buf, hcopy.last,
        ⟨hapr.format, rfl, hapr.key, hapr.startdate, hapr.enddate⟩, hcopy.platform⟩

theorem setParam_follows (h : HoldsLess c c') (i : Nat) (var : Bytes) :
    Follows (setParam c i var) (setParam c' i var) := by
  unfold setParam
  split
  · exact store_follows h _ _ _ _ fun p a b hab =>
      ⟨rfl, hab.flags, hab.key, hab.startdate, hab.enddate⟩
  · exact store_follows h _ _ _ _ fun p a b hab =>
      ⟨hab.format, hab.flags, fun _ hq => hq, hab.startdate, hab.enddate⟩
  · exact store_follows h _ _ _ _ fun p a b hab =>
      ⟨hab.format, hab.flags, hab.key, fun _ hq => hq, hab.enddate⟩
  · exact store_follows h _ _ _ _ fun p a b hab =>
      ⟨hab.format, hab.flags, hab.key, hab.startdate, fun _ hq => hq⟩
  · exact store_follows h _ _ _ _ fun p a b hab =>
      ⟨hab.format, hab.flags, hab.key, hab.startdate, hab.enddate⟩
  · exact store_follows h _ _ _ _ fun p a b hab =>
      ⟨hab.format, hab.flags, hab.key, hab.startdate, hab.enddate⟩
  · exact store_follows h _ _ _ _ fun p a b hab =>
      ⟨hab.format, hab.flags, hab.key, hab.startdate, hab.enddate⟩
  · exact ⟨rfl, rfl, h⟩

theorem setToken_follows (h : HoldsLess c c') (code : Code) (pk : Bytes) :
    Follows (setToken c code pk) (setToken c' code pk) := by
  unfold setToken
  cases nameOf pk with
  | none => exact ⟨rfl, rfl, h⟩
  | some key =>
    dsimp only
    cases aisGetVar pk key 2048 with
    | none => exact ⟨rfl, rfl, h⟩
    | some var =>
      dsimp only
      rw [h.apr.flags]
      split
      · exact ⟨rfl, rfl, h⟩
      · split
        · exact ⟨rfl, rfl, h⟩
        · exact setParam_follows h _ var

theorem setTokens_follows (h : HoldsLess c c') (code : Code) (pks : List Bytes) :
    Follows (setTokens c code pks) (setTokens c' code pks) := by
  induction pks generalizing c c' code with
  | nil => exact ⟨rfl, rfl, h⟩
  | cons pk pks ih =>
    have hone := setToken_follows h code pk
    unfold setTokens
    dsimp only
    rw [hone.ok, hone.code]
    split
    · exact ih hone.conn _
    · exact hone

theorem aisAdreportSet_follows (h : HoldsLess c c') (buf : Bytes) :
    Follows (aisAdreportSet c buf) (aisAdreportSet c' buf) := by
  have hstart : HoldsLess { c with apr := { c.apr with flags := [] } }
      { c' with apr := { c'.apr with flags := [] } } :=
    ⟨h.buf, h.last, ⟨h.apr.format, rfl, h.apr.key, h.apr.startdate, h.apr.enddate⟩, h.platform⟩
  exact setTokens_follows hstart _ _

end Parameters

section Stages

theorem dateNumbers_mono (p : Nat) : Mono (dateNumbers p) :=
  (poke_mono _ _).bind fun _ => (poke_mono _ _).bind fun _ => (number_mono _).bind fun _ =>
    (number_mono _).bind fun _ => (number_mono _).bind fun _ => Mono.pure _

theorem checkNumbers_mono (start last : Nat) : Mono (checkNumbers start last) := by
  refine (dateNumbers_mono start).bind fun d1 => Mono.ite (Mono.pure _) ?_
  refine (dateNumbers_mono last).bind fun d2 => Mono.ite (Mono.pure _) ?_
  refine Mono.ite (Mono.pure _) (Mono.ite (Mono.pure _) ?_)
  exact (poke_mono _ _).bind fun _ => (poke_mono _ _).bind fun _ => (poke_mono _ _).bind fun _ =>
    (poke_mono _ _).bind fun _ => Mono.pure _

theorem checkDate_mono : Mono checkDate := by
  refine startdate_mono.bind fun start => (byte_mono _).bind fun s4 => Mono.ite (Mono.pure _) ?_
  refine (byte_mono _).bind fun s7 => Mono.ite (Mono.pure _) ?_
  refine enddate_mono.bind fun last => Mono.bind ?_ fun sep =>
    Mono.ite (Mono.pure _) (checkNumbers_mono start last)
  exact (byte_mono _).bind fun e4 => Mono.ite (Mono.pure _) (byte_mono _)

theorem errorFormat_mono (code : Code) : Mono (errorFormat code) :=
  format_mono.bind fun _ => Mono.pure _

theorem readRequest_mono (bufr : Bytes) : Mono (readRequest bufr) := by
  refine (setFormat_mono _).bind fun _ => ?_
  refine (outcome_mono fun c c' h => ?_).bind fun r => Mono.ite ?_ ?_
  · have hf := aisAdreportSet_follows h (cstr (urlDecode bufr MAX_REQUEST_BUF_SIZE true))
    exact ⟨hf.code, hf.ok, hf.conn⟩
  · refine format_mono.bind fun f => (setFormat_mono _).bind fun _ => checkDate_mono.bind fun ret =>
      Mono.ite ?_ ?_
    · exact (errorFormat_mono _).bind fun _ => Mono.pure _
    · exact key_mono.bind fun key => (str_mono key).bind fun _ => Mono.pure _
  · exact (errorFormat_mono _).bind fun _ => Mono.pure _

theorem buildSql_mono (db : Database) : Mono (buildSql db) := by
  refine pid_mono.bind fun id => Mono.ite (errorFormat_mono _) (Mono.ite (errorFormat_mono _) ?_)
  exact startdate_mono.bind fun _ => (str_mono _).bind fun _ => enddate_mono.bind fun _ =>
    (str_mono _).bind fun _ => Mono.pure _

theorem setAdsdk_some (s : Bytes) (set : Nat → App → App) (c : Conn) :
    setAdsdk (some s) set c = if MAX_REQUEST_BUF_SIZE < c.last + s.length + 1 then none
      else some { c.strlcpy s with app := set c.last c.app } := rfl

/-- Both copies of the same code fail, or both succeed. -/
def Alike (o o' : Option Conn) : Prop :=
  (o = none ∧ o' = none) ∨ ∃ d d', o = some d ∧ o' = some d' ∧ HoldsLess d d'

theorem Alike.bind {o o' : Option Conn} (h : Alike o o') {f : Conn → Option Conn}
    (hf : ∀ c c', HoldsLess c c' → Alike (f c) (f c')) : Alike (o.bind f) (o'.bind f) := by
  rcases h with ⟨rfl, rfl⟩ | ⟨d, d', rfl, rfl, hd⟩
  · exact .inl ⟨rfl, rfl⟩
  · exact hf d d' hd

theorem setAdsdk_alike (h : HoldsLess c c') (field : Option Bytes) {set : Nat → App → App}
    (hset : ∀ p a b, (∀ q, a.platformProviderID = some q → b.platformProviderID = some q) →
      ∀ q, (set p a).platformProviderID = some q → (set p b).platformProviderID = some q) :
    Alike (setAdsdk field set c) (setAdsdk field set c') := by
  cases field with
  | none => exact .inl ⟨rfl, rfl⟩
  | some s =>
    rw [setAdsdk_some, setAdsdk_some, h.last]
    split
    · exact .inl ⟨rfl, rfl⟩
    · have hcopy := h.strlcpy s
      exact .inr ⟨_, _, rfl, rfl, hcopy.buf, hcopy.last, hcopy.apr, hset _ _ _ h.platform⟩

theorem setPlatform_alike (h : HoldsLess c c') (id show_ click key secret source : Option Bytes) :
    Alike (setPlatform id show_ click key secret source c)
      (setPlatform id show_ click key secret source c') := by
  refine (setAdsdk_alike h id (by exact fun p a b _ q hq => hq)).bind fun c c' h => ?_
  refine (setAdsdk_alike h show_ (by exact fun p a b hab => hab)).bind fun c c' h => ?_
  refine (setAdsdk_alike h click (by exact fun p a b hab => hab)).bind fun c c' h => ?_
  refine (setAdsdk_alike h key (by exact fun p a b hab => hab)).bind fun c c' h => ?_
  refine (setAdsdk_alike h secret (by exact fun p a b hab => hab)).bind fun c c' h => ?_
  exact setAdsdk_alike h source fun p a b hab => hab

theorem answerFor_mono (db : Database) (key : Bytes) : Mono (answerFor db key) := by
  unfold answerFor
  cases db.adplatform key with
  | empty => exact errorFormat_mono _
  | notObject => exact errorFormat_mono _
  | object id show_ click key secret source =>
    intro c c' a d hle hr
    dsimp only at hr ⊢
    rcases setPlatform_alike hle id show_ click key secret source with
      ⟨hnone, hnone'⟩ | ⟨e, e', he, he', hee⟩
    · rw [hnone] at hr
      rw [hnone']
      obtain ⟨rfl, rfl⟩ := Prod.mk.inj (Option.some.inj hr)
      exact ⟨c', rfl, hle⟩
    · rw [he] at hr
      rw [he']
      exact buildSql_mono db e e' a d hee hr

end Stages

section Owned

/-- The code neither moves a parameter nor makes a byte of the buffer unreadable. -/
structure Still (c d : Conn) : Prop where
  buf : ∀ i b, c.buf i = some b → ∃ b', d.buf i = some b'
  last : d.last = c.last
  apr : d.apr = c.apr

def Quiet {α : Type} (m : Act α) : Prop := ∀ c a d, m c = some (a, d) → Still c d

theorem Still.refl (c : Conn) : Still c c := ⟨fun _ b hb => ⟨b, hb⟩, rfl, rfl⟩

theorem Still.trans {c d e : Conn} (h : Still c d) (h' : Still d e) : Still c e := by
  refine ⟨fun i b hb => ?_, h'.last.trans h.last, h'.apr.trans h.apr⟩
  obtain ⟨b', hb'⟩ := h.buf i b hb
  exact h'.buf i b' hb'

theorem Quiet.bind {m : Act α} {f : α → Act β} (hm : Quiet m) (hf : ∀ a, Quiet (f a)) :
    Quiet (m >>= f) := by
  intro c b e hr
  obtain ⟨a, d, hmc, hfd⟩ := act_bind.mp hr
  exact (hm c a d hmc).trans (hf a d b e hfd)

theorem Quiet.pure (a : α) : Quiet (pure a : Act α) := by
  intro c b d hr
  obtain ⟨-, rfl⟩ := act_pure.mp hr
  exact Still.refl c

theorem Quiet.ite {b : Prop} [Decidable b] {m n : Act α} (hm : Quiet m) (hn : Quiet n) :
    Quiet (if b then m else n) := by
  split
  · exact hm
  · exact hn

theorem Quiet.read (f : Conn → Option α) : Quiet fun c => (f c).map fun a => (a, c) := by
  intro c b d hr
  obtain ⟨a, -, he⟩ := Option.map_eq_some_iff.mp hr
  obtain ⟨-, rfl⟩ := Prod.mk.inj he
  exact Still.refl c

theorem poke_quiet (p : Nat) (b : UInt8) : Quiet (poke p b) := by
  intro c u d hr
  obtain ⟨e, he, hd⟩ := Option.map_eq_some_iff.mp hr
  obtain ⟨-, rfl⟩ := Prod.mk.inj hd
  unfold Conn.setByte at he
  split at he
  · obtain rfl := Option.some.inj he
    refine ⟨fun i x hx => ?_, rfl, rfl⟩
    by_cases hi : i = p
    · exact ⟨b, by simp [hi]⟩
    · exact ⟨x, by simpa [hi] using hx⟩
  · cases he

theorem dateNumbers_quiet (p : Nat) : Quiet (dateNumbers p) :=
  (poke_quiet _ _).bind fun _ => (poke_quiet _ _).bind fun _ =>
    (Quiet.bind (Quiet.read _) fun _ => Quiet.pure _).bind fun _ =>
    (Quiet.bind (Quiet.read _) fun _ => Quiet.pure _).bind fun _ =>
    (Quiet.bind (Quiet.read _) fun _ => Quiet.pure _).bind fun _ => Quiet.pure _

theorem checkNumbers_quiet (start last : Nat) : Quiet (checkNumbers start last) := by
  refine (dateNumbers_quiet start).bind fun d1 => Quiet.ite (Quiet.pure _) ?_
  refine (dateNumbers_quiet last).bind fun d2 => Quiet.ite (Quiet.pure _) ?_
  refine Quiet.ite (Quiet.pure _) (Quiet.ite (Quiet.pure _) ?_)
  exact (poke_quiet _ _).bind fun _ => (poke_quiet _ _).bind fun _ => (poke_quiet _ _).bind fun _ =>
    (poke_quiet _ _).bind fun _ => Quiet.pure _

theorem checkDate_quiet : Quiet checkDate := by
  refine (Quiet.read _).bind fun start => (Quiet.read _).bind fun s4 => Quiet.ite (Quiet.pure _) ?_
  refine (Quiet.read _).bind fun s7 => Quiet.ite (Quiet.pure _) ?_
  refine (Quiet.read _).bind fun last => Quiet.bind ?_ fun sep =>
    Quiet.ite (Quiet.pure _) (checkNumbers_quiet start last)
  exact (Quiet.read _).bind fun e4 => Quiet.ite (Quiet.pure _) (Quiet.read _)

/-- Dates that are accepted are both there. -/
theorem dates_of_success (h : checkDate c = some (.success, d)) :
    (∃ p, c.apr.startdate = some p) ∧ ∃ p, c.apr.enddate = some p := by
  have hread {f : Apr → Option Nat} {p : Nat} {e : Conn} (hp : param f c = some (p, e)) :
      f c.apr = some p ∧ c = e := by
    obtain ⟨q, hq, he⟩ := Option.map_eq_some_iff.mp hp
    obtain ⟨rfl, rfl⟩ := Prod.mk.inj he
    exact ⟨hq, rfl⟩
  have hbyte {p : Nat} {b : UInt8} {e : Conn} (hb : byte p c = some (b, e)) : c = e := by
    obtain ⟨q, -, he⟩ := Option.map_eq_some_iff.mp hb
    exact (Prod.mk.inj he).2
  obtain ⟨start, e, hstart, h⟩ := act_bind.mp h
  obtain ⟨hs, rfl⟩ := hread hstart
  obtain ⟨s4, e, h4, h⟩ := act_bind.mp h
  obtain rfl := hbyte h4
  refine ⟨⟨start, hs⟩, ?_⟩
  split at h
  · cases (act_pure.mp h).1
  · obtain ⟨s7, e, h7, h⟩ := act_bind.mp h
    obtain rfl := hbyte h7
    split at h
    · cases (act_pure.mp h).1
    · obtain ⟨last, e, hlast, h⟩ := act_bind.mp h
      exact ⟨last, (hread hlast).1⟩

/-- The request's own part of the buffer is readable and its dates are in it. -/
structure Owned (c : Conn) : Prop where
  covered : ∀ i < c.last, ∃ b, c.buf i = some b
  room : c.last ≤ MAX_REQUEST_BUF_SIZE
  startdate : ∀ p, c.apr.startdate = some p → p < c.last
  enddate : ∀ p, c.apr.enddate = some p → p < c.last

theorem covered_strlcpy (h : ∀ i < c.last, ∃ b, c.buf i = some b) (s : Bytes) :
    ∀ i < (c.strlcpy s).last, ∃ b, (c.strlcpy s).buf i = some b := by
  intro i hi
  simp only [Conn.strlcpy] at hi ⊢
  by_cases hnew : c.last ≤ i ∧ i ≤ c.last + s.length
  · exact ⟨_, if_pos hnew⟩
  · obtain ⟨b, hb⟩ := h i (by omega)
    exact ⟨b, by rw [if_neg hnew, hb]⟩

theorem Owned.still (h : Owned c) (hs : Still c d) : Owned d := by
  refine ⟨fun i hi => ?_, hs.last ▸ h.room, ?_, ?_⟩
  · obtain ⟨b, hb⟩ := h.covered i (hs.last ▸ hi)
    exact hs.buf i b hb
  · rw [hs.apr, hs.last]
    exact h.startdate
  · rw [hs.apr, hs.last]
    exact h.enddate

/-- The pointers are those from before, or lead to `p`. -/
structure Points (p : Nat) (a b : Apr) : Prop where
  format : b.format = .param p ∨ b.format = a.format
  key : b.key = some p ∨ b.key = a.key
  startdate : b.startdate = some p ∨ b.startdate = a.startdate
  enddate : b.enddate = some p ∨ b.enddate = a.enddate

/-- A parameter is refused, or its text is stored and a pointer leads to it. -/
theorem setParam_keeps {P : Conn → Prop} (h : P c) (i : Nat) {var : Bytes}
    (hstore : c.last + var.length + 2 ≤ MAX_REQUEST_BUF_SIZE →
      ∀ apr, Points c.last c.apr apr → P { c.strlcpy var with apr := apr }) :
    P (setParam c i var).conn := by
  have hone (j : Nat) (code : Code) (mayBeEmpty : Bool) {set : Nat → Apr → Apr}
      (hset : Points c.last c.apr (set c.last c.apr)) :
      P (store c j code mayBeEmpty var set).conn := by
    unfold store
    split
    · exact h
    · split
      · exact h
      · exact hstore (by omega) _ ⟨hset.format, hset.key, hset.startdate, hset.enddate⟩
  unfold setParam
  split
  · exact hone _ _ _ ⟨.inl rfl, .inr rfl, .inr rfl, .inr rfl⟩
  · exact hone _ _ _ ⟨.inr rfl, .inl rfl, .inr rfl, .inr rfl⟩
  · exact hone _ _ _ ⟨.inr rfl, .inr rfl, .inl rfl, .inr rfl⟩
  · exact hone _ _ _ ⟨.inr rfl, .inr rfl, .inr rfl, .inl rfl⟩
  · exact hone _ _ _ ⟨.inr rfl, .inr rfl, .inr rfl, .inr rfl⟩
  · exact hone _ _ _ ⟨.inr rfl, .inr rfl, .inr rfl, .inr rfl⟩
  · exact hone _ _ _ ⟨.inr rfl, .inr rfl, .inr rfl, .inr rfl⟩
  · exact h

/-- What every stored parameter keeps, the loop over the request keeps. -/
theorem setTokens_keeps {P : Conn → Prop}
    (hparam : ∀ c i var, P c → P (setParam c i var).conn) (h : P c) (code : Code)
    (pks : List Bytes) : P (setTokens c code pks).conn := by
  have htoken (c : Conn) (h : P c) (code : Code) (pk : Bytes) : P (setToken c code pk).conn := by
    unfold setToken
    cases nameOf pk with
    | none => exact h
    | some key =>
      dsimp only
      cases aisGetVar pk key 2048 with
      | none => exact h
      | some var =>
        dsimp only
        split
        · exact h
        · split
          · exact h
          · exact hparam c _ var h
  induction pks generalizing c code with
  | nil => exact h
  | cons pk pks ih =>
    have hone := htoken c h code pk
    unfold setTokens
    dsimp only
    split
    · exact ih hone _
    · exact hone

theorem Owned.setParam (c : Conn) (i : Nat) (var : Bytes) (h : Owned c) :
    Owned (setParam c i var).conn := by
  refine setParam_keeps h i fun hroom apr hapr => ?_
  refine ⟨covered_strlcpy h.covered var, ?_, fun q hq => ?_, fun q hq => ?_⟩
  · show c.last + var.length + 1 ≤ _
    omega
  · show q < c.last + var.length + 1
    rcases hapr.startdate with hnew | hold
    · obtain rfl := Option.some.inj (hnew.symm.trans hq)
      omega
    · have := h.startdate q (hold.symm.trans hq)
      omega
  · show q < c.last + var.length + 1
    rcases hapr.enddate with hnew | hold
    · obtain rfl := Option.some.inj (hnew.symm.trans hq)
      omega
    · have := h.enddate q (hold.symm.trans hq)
      omega

theorem Owned.setTokens (h : Owned c) (code : Code) (pks : List Bytes) :
    Owned (setTokens c code pks).conn :=
  setTokens_keeps Owned.setParam h code pks

end Owned

end Doorhinges.Report

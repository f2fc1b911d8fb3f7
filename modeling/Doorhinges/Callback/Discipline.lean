import Doorhinges.Callback.System

/-!
# What a callback may do and when

`rules` states which command or mark a callback may issue after what it has done
so far, as far as the session, lock, show and counter keys are concerned. Every
callback keeps these rules whatever the replies are.
-/
namespace Doorhinges.Callback

open Lib.CString
open Lib.Redis (Cmd Reply)
open Lib.Program

/-- The callback works on the session `sid`. -/
def View.OnSession (v : View) (sid : Bytes) : Prop := v.session.map (·.sessionId) = some sid

/-- Nothing of the record, lock and counter keys has been touched yet. -/
structure View.Fresh (v : View) : Prop where
  session : v.session = none
  sLock : v.sLock = none
  shown : v.shown = none
  cLock : v.cLock = none
  clicknum : v.clicknum = none
  accepted : v.accepted = false
  deducted : v.deducted = false
  recorded : v.recorded = false
  masclicked : v.masclicked = false

def mayCall (v : View) : Command → Prop
  | .get (.adsession _) => v.Fresh
  | .incr (.sLock sid) => v.OnSession sid ∧ v.sLock = none ∧ v.shown = none
  | .get (.shown sid) => v.OnSession sid ∧ v.shown = none ∧ v.cLock = none ∧ v.sLock = none
  | .incr (.cLock sid) => v.OnSession sid ∧ v.cLock = none ∧ v.shown.isSome
  | .hincrby (.clicknum _) _ n => n = 1 ∧ v.clicknum = none ∧ v.masclicked = false
  | c => c.key.reserved = false

def maySend (v : View) : Command → Prop
  | .expire (.sLock sid) n => n = 900 ∧ v.OnSession sid ∧ v.sLock = some 1
  | .expire (.cLock sid) n => n = 900 ∧ v.OnSession sid ∧ v.cLock = some 1
  | .setex (.shown sid) n b =>
    n = 900 ∧ v.OnSession sid ∧ v.sLock = some 1 ∧ v.accepted ∧ v.recorded = false ∧
      (b = decimal IMP_SHOW_VALID ∨ b = decimal IMP_SHOW_INVALID)
  | c => c.key.reserved = false

def mayMark (X : Externals) (v : View) : Mark → Prop
  | .accepted sid => v.OnSession sid ∧ v.sLock = some 1 ∧ ∃ n, v.shownum = some n ∧ n ≤ 12
  | .deductMoney .shown sid =>
    v.OnSession sid ∧ v.sLock = some 1 ∧ v.accepted ∧ v.deducted = false
  | .deductMoney .click sid =>
    v.OnSession sid ∧ v.cLock = some 1 ∧ v.shown.isSome ∧ v.deducted = false
  | .masclick sid day key =>
    v.OnSession sid ∧ v.cLock = some 1 ∧ v.masclicked = false ∧
      (∃ b, v.shown = some b ∧ atoi b = IMP_SHOW_VALID) ∧
      ∃ n, n ≤ 2 ∧ v.clicknum = some (day, X.md5 (sessionKeyText key), n)
  | _ => True

def rules (X : Externals) : Discipline Command (Option Reply) Mark View where
  mayCall := mayCall
  called := View.called X
  maySend := maySend
  sent := View.sent
  mayMark := mayMark X
  marked := View.marked

variable {X : Externals}

/-- A program that leaves the digest alone. -/
def Neutral {α : Type} (X : Externals) (p : Act α) : Prop :=
  ∀ v (Q : α → View → Prop), (∀ a, Q a v) → Keeps (rules X) p v Q

/-- Keys whose commands the digest does not record. -/
def RedisKey.plain : RedisKey → Bool
  | .shownum _ => false
  | k => !k.reserved

theorem reserved_of_plain {k : RedisKey} (h : k.plain = true) : k.reserved = false := by
  cases k <;> first | rfl | cases h

theorem plain_call {c : Command} (h : c.key.plain = true) (v : View) :
    mayCall v c ∧ ∀ r, v.called X c r = v := by
  unfold mayCall View.called
  constructor
  · split
    all_goals first | exact reserved_of_plain h | cases h
  · intro r
    split
    all_goals first | rfl | cases h

theorem plain_send {c : Command} (h : c.key.plain = true) (v : View) :
    maySend v c ∧ v.sent c = v := by
  unfold maySend View.sent
  constructor
  · split
    all_goals first | exact reserved_of_plain h | cases h
  · split
    all_goals first | rfl | cases h

namespace Neutral

variable {α β : Type}

theorem pure (a : α) : Neutral X (Pure.pure a : Act α) := fun _ _ hQ => hQ a

theorem bind {p : Act α} {f : α → Act β} (hp : Neutral X p) (hf : ∀ a, Neutral X (f a)) :
    Neutral X (p >>= f) := by
  intro v Q hQ
  rw [keeps_bind]
  exact hp v _ fun a => hf a v Q hQ

theorem deref (o : Option α) : Neutral X (deref o : Act α) := by
  intro v Q hQ
  rw [keeps_deref]
  exact fun a _ => hQ a

theorem call {c : Command} (hc : c.key.plain = true) : Neutral X (call c : Act (Option Reply)) := by
  intro v Q hQ
  obtain ⟨hm, hv⟩ := plain_call (X := X) hc v
  refine ⟨hm, fun r => ?_⟩
  show Q r (v.called X c r)
  rw [hv r]
  exact hQ r

theorem send {c : Command} (hc : c.key.plain = true) : Neutral X (send c : Act Unit) := by
  intro v Q hQ
  obtain ⟨hm, hv⟩ := plain_send hc v
  refine ⟨hm, ?_⟩
  show Q () (v.sent c)
  rw [hv]
  exact hQ ()

theorem ite (b : Prop) [Decidable b] {p q : Act α} (hp : Neutral X p) (hq : Neutral X q) :
    Neutral X (if b then p else q) := by
  split
  · exact hp
  · exact hq

theorem onlyIf (b : Prop) [Decidable b] {p : Act Unit} (hp : Neutral X p) :
    Neutral X (onlyIf b p) :=
  .ite b hp (.pure ())

end Neutral

theorem saddAll_neutral (uuid : Bytes) (es : List (Option Bytes)) :
    Neutral X (saddAll uuid es) := by
  induction es with
  | nil => exact .pure ()
  | cons e es ih => exact .bind (.deref e) fun m => .bind (.send rfl) fun _ => ih

theorem deductMoney_neutral (orderId adId t : Bytes) (h : Int) :
    Neutral X (DeductMoney X orderId adId t h) := by
  refine .bind (.call rfl) fun model => .bind (.call rfl) fun price => .bind (.send rfl) fun _ => ?_
  refine .bind ?_ fun _ => .bind (.call rfl) fun days => .bind (.onlyIf _ ?_) fun _ => .send rfl
  · exact .ite _ (.send rfl) (.ite _ (.bind (.send rfl) fun _ => .send rfl) (.pure ()))
  · refine .bind (.call rfl) fun balance => ?_
    cases stringReply balance with
    | some _ => exact .send rfl
    | none => exact .bind (.call rfl) fun unallocated => .onlyIf _ (.send rfl)

theorem numberOf_neutral (r : Reply) : Neutral X (numberOf r) :=
  .ite _ (.pure 0) (.bind (.deref _) fun _ => .pure _)

theorem showFrequency_neutral (orderId uuid day : Bytes) :
    Neutral X (showFrequency orderId uuid day) := by
  refine .bind (.call rfl) fun r => .bind ?_ fun fre =>
    .ite _ (.bind (.call rfl) fun n => ?_) (.pure ())
  · cases r with
    | none => exact .pure 0
    | some r => exact numberOf_neutral r
  · cases n with
    | none => exact .pure ()
    | some n =>
      exact .ite _ (.bind (.call rfl) fun members => .bind (.deref _) fun members =>
        .bind (saddAll_neutral _ _) fun _ => .send rfl) (.pure ())

theorem clickFrequency_neutral (orderId uuid day : Bytes) :
    Neutral X (clickFrequency orderId uuid day) := by
  refine .bind (.call rfl) fun state => ?_
  cases state with
  | none => exact .pure false
  | some state =>
    refine .bind (numberOf_neutral state) fun isClickFre =>
      .ite _ (.bind (.call rfl) fun r => ?_) (.pure true)
    cases r with
    | none => exact .pure false
    | some r =>
      refine .bind (numberOf_neutral r) fun fre =>
        .ite _ (.bind (.call rfl) fun n => .bind (.deref _) fun n => ?_) (.pure true)
      refine .ite _ (.bind (.call rfl) fun members => ?_) (.pure true)
      cases members with
      | none => exact .pure false
      | some members =>
        refine .bind (saddAll_neutral _ _) fun _ => .bind (.call rfl) fun days => ?_
        cases days with
        | none => exact .pure false
        | some days => exact .bind (.onlyIf _ (.send rfl)) fun _ => .pure true

/-- The digest when the switch is entered: the session is known and nothing else. -/
structure View.Entered (v : View) (sid : Bytes) : Prop where
  onSession : v.OnSession sid
  sLock : v.sLock = none
  shown : v.shown = none
  cLock : v.cLock = none
  clicknum : v.clicknum = none
  deducted : v.deducted = false
  recorded : v.recorded = false
  masclicked : v.masclicked = false

theorem acceptedShow_keeps (f : Frame) {n : Int} {v : View}
    (hs : v.OnSession f.session.sessionId) (hl : v.sLock = some 1) (hn : v.shownum = some n)
    (h12 : n ≤ 12) (hd : v.deducted = false) (hr : v.recorded = false) :
    Keeps (rules X) (acceptedShow X f n) v fun _ _ => True := by
  unfold acceptedShow
  rw [keeps_bind, keeps_mark]
  refine ⟨⟨hs, hl, n, hn, h12⟩, ?_⟩
  rw [keeps_bind, keeps_send]
  refine ⟨rfl, ?_⟩
  rw [keeps_bind, keeps_send]
  refine ⟨rfl, ?_⟩
  have hrest : ∀ w : View, w.OnSession f.session.sessionId → w.sLock = some 1 → w.accepted = true →
      w.recorded = false → Keeps (rules X) (do
        showFrequency f.orderId f.session.uuid f.req.day
        if n ≤ 4 then do
          send (hincrbyOne f.dayTotal "masshow")
          send (.setex (.shown f.session.sessionId) 900 (decimal IMP_SHOW_VALID))
          pure ⟨0, true, 0⟩
        else do
          send (.setex (.shown f.session.sessionId) 900 (decimal IMP_SHOW_INVALID))
          pure (⟨0, false, 0⟩ : Outcome)) w fun _ _ => True := by
    intro w hws hwl hwa hwr
    rw [keeps_bind]
    refine showFrequency_neutral _ _ _ w _ fun _ => ?_
    rw [keeps_ite]
    refine ⟨fun _ => ?_, fun _ => ?_⟩
    · exact ⟨rfl, ⟨rfl, hws, hwl, hwa, hwr, .inl rfl⟩, trivial⟩
    · exact ⟨⟨rfl, hws, hwl, hwa, hwr, .inr rfl⟩, trivial⟩
  rw [keeps_bind, keeps_onlyIf]
  refine ⟨fun _ => ?_, fun _ => hrest _ hs hl rfl hr⟩
  rw [keeps_bind, keeps_mark]
  exact ⟨⟨hs, hl, rfl, hd⟩, deductMoney_neutral _ _ _ _ _ _ fun _ => hrest _ hs hl rfl hr⟩

theorem showBranch_keeps (f : Frame) {v : View} (hv : v.Entered f.session.sessionId) :
    Keeps (rules X) (showBranch X f) v fun _ _ => True := by
  unfold showBranch
  rw [keeps_bind, keeps_call]
  refine ⟨⟨hv.onSession, hv.sLock, hv.shown⟩, fun lock => ?_⟩
  cases lock with
  | none => trivial
  | some lock =>
    rw [keeps_ite]
    refine ⟨fun hone => ?_, fun _ => ⟨rfl, trivial⟩⟩
    rw [keeps_bind, keeps_send]
    refine ⟨⟨rfl, hv.onSession, congrArg some hone⟩, ?_⟩
    rw [keeps_bind, keeps_send]
    refine ⟨rfl, ?_⟩
    rw [keeps_bind, keeps_call]
    refine ⟨rfl, fun stats => ?_⟩
    cases stats with
    | none => trivial
    | some stats =>
      have hrest : Keeps (rules X)
          (if stats.integer > 12 then pure (⟨10, false, 0⟩ : Outcome)
            else acceptedShow X f stats.integer)
          { v with sLock := some (toInt32 lock.integer), shownum := some stats.integer }
          fun _ _ => True := by
        rw [keeps_ite]
        refine ⟨fun _ => trivial, fun h12 => ?_⟩
        exact acceptedShow_keeps f hv.onSession (congrArg some hone) rfl (by omega) hv.deducted
          hv.recorded
      rw [keeps_bind, keeps_onlyIf]
      exact ⟨fun _ => ⟨rfl, hrest⟩, fun _ => hrest⟩

theorem countedClick_keeps (f : Frame) {b : Bytes} {v : View}
    (hs : v.OnSession f.session.sessionId) (hl : v.cLock = some 1) (hb : v.shown = some b)
    (hc : v.clicknum = none) (hd : v.deducted = false) (hm : v.masclicked = false)
    (hk : f.sessionKey = X.md5 (sessionKeyText
      ⟨f.session.appId, f.session.uuid, f.session.adId, f.pid, f.session.ip⟩)) :
    Keeps (rules X) (countedClick X f (atoi b)) v fun _ _ => True := by
  unfold countedClick
  rw [keeps_bind, keeps_send]
  refine ⟨⟨rfl, hs, hl⟩, ?_⟩
  rw [keeps_bind, keeps_send]
  refine ⟨rfl, ?_⟩
  rw [keeps_bind, keeps_call]
  refine ⟨⟨rfl, hc, hm⟩, fun stats => ?_⟩
  cases stats with
  | none => trivial
  | some stats =>
    rw [keeps_ite]
    refine ⟨fun _ => trivial, fun _ => ?_⟩
    rw [keeps_bind, keeps_send]
    refine ⟨rfl, ?_⟩
    rw [keeps_bind, keeps_send]
    refine ⟨rfl, ?_⟩
    have hrest : ∀ w : View, w.OnSession f.session.sessionId → w.cLock = some 1 →
        w.shown = some b → w.clicknum = some (f.req.day, f.sessionKey, stats.integer) →
        w.masclicked = false → Keeps (rules X) (do
          let finished ← clickFrequency f.orderId f.session.uuid f.req.day
          if finished && stats.integer ≤ 2 && atoi b = 1 then do
            mark (.masclick f.session.sessionId f.req.day
              ⟨f.session.appId, f.session.uuid, f.session.adId, f.pid, f.session.ip⟩)
            send (hincrbyOne f.dayTotal "masclick")
            pure ⟨0, true, 0⟩
          else pure (⟨0, false, 0⟩ : Outcome)) w fun _ _ => True := by
      intro w hws hwl hwb hwc hwm
      rw [keeps_bind]
      refine clickFrequency_neutral _ _ _ w _ fun finished => ?_
      rw [keeps_ite]
      refine ⟨fun h => ?_, fun _ => trivial⟩
      simp only [Bool.and_eq_true, decide_eq_true_eq] at h
      exact ⟨⟨hws, hwl, hwm, ⟨b, hwb, h.2⟩, stats.integer, h.1.2, hk ▸ hwc⟩, rfl, trivial⟩
    rw [keeps_bind, keeps_onlyIf]
    refine ⟨fun _ => ?_, fun _ => hrest _ hs hl hb rfl hm⟩
    rw [keeps_bind, keeps_mark]
    exact ⟨⟨hs, hl, Option.isSome_iff_exists.mpr ⟨b, hb⟩, hd⟩,
      deductMoney_neutral _ _ _ _ _ _ fun _ => hrest _ hs hl hb rfl hm⟩

theorem clickBranch_keeps (f : Frame) {v : View} (hv : v.Entered f.session.sessionId)
    (hk : f.sessionKey = X.md5 (sessionKeyText
      ⟨f.session.appId, f.session.uuid, f.session.adId, f.pid, f.session.ip⟩)) :
    Keeps (rules X) (clickBranch X f) v fun _ _ => True := by
  unfold clickBranch
  rw [keeps_bind, keeps_call]
  refine ⟨⟨hv.onSession, hv.shown, hv.cLock, hv.sLock⟩, fun shown => ?_⟩
  cases shown with
  | none => trivial
  | some shown =>
    rw [keeps_ite]
    refine ⟨fun _ => ⟨rfl, trivial⟩, fun _ => ?_⟩
    rw [keeps_bind, keeps_deref]
    intro b hb
    rw [keeps_bind, keeps_call]
    have hshown : ((some shown).bind (·.str?)).isSome = true := by simp [hb]
    refine ⟨⟨hv.onSession, hv.cLock, hshown⟩, fun lock => ?_⟩
    cases lock with
    | none => trivial
    | some lock =>
      rw [keeps_ite]
      refine ⟨fun hone => ?_, fun _ => ⟨rfl, trivial⟩⟩
      have hlock : some (toInt32 lock.integer) = some 1 := congrArg some hone
      rw [keeps_bind, keeps_send]
      refine ⟨⟨rfl, hv.onSession, hlock⟩, ?_⟩
      exact countedClick_keeps f hv.onSession hlock hb hv.clicknum hv.deducted hv.masclicked hk

theorem settle_keeps (q : Request) (s : AdSession) (pid : Bytes) {v : View}
    (hv : v.Entered s.sessionId) :
    Keeps (rules X) (settle X q s pid) v fun _ _ => True := by
  unfold settle
  rw [keeps_bind, keeps_call]
  refine ⟨rfl, fun order => ?_⟩
  have hlog : ∀ (o : Outcome) (w : View), Keeps (rules X)
      (onlyIf (q.writeLog = true)
        (mark (.logged o.sProcessNode (o.nIsCheat > 0) o.bIsBilling))) w fun _ _ => True :=
    fun o w => by rw [keeps_onlyIf]; exact ⟨fun _ => ⟨trivial, trivial⟩, fun _ => trivial⟩
  refine keeps_bind_of ?_ hlog
  unfold branch
  simp only [keeps_ite]
  exact ⟨fun _ => showBranch_keeps _ hv, fun _ => ⟨fun _ => clickBranch_keeps _ hv rfl,
    fun _ => trivial⟩⟩

/-- Every callback keeps the rules, whatever the store answers. -/
theorem aisCallback_keeps (q : Request) :
    Keeps (rules X) (aisCallback X q) {} fun _ _ => True := by
  unfold aisCallback
  rw [keeps_bind, keeps_call]
  refine ⟨⟨rfl, rfl, rfl, rfl, rfl, rfl, rfl, rfl, rfl⟩, fun getreply => ?_⟩
  cases hs : (stringReply getreply).bind X.parseSession with
  | none => exact ⟨trivial, rfl, trivial⟩
  | some s =>
    rw [keeps_bind, keeps_call]
    refine ⟨rfl, fun hgetreply => ?_⟩
    unfold withPlatform
    cases stringReply hgetreply with
    | none => exact ⟨trivial, trivial⟩
    | some text =>
      dsimp only
      cases X.parsePlatform text with
      | none => exact ⟨trivial, trivial⟩
      | some p =>
        dsimp only
        have hanswer : ∀ w : View, Keeps (rules X)
            (mark (if q.replies then Mark.answer .success else .quickAnswer)) w
            fun _ _ => True := by
          intro w
          cases q.replies <;> exact ⟨trivial, trivial⟩
        refine keeps_bind_of ?_ fun _ => hanswer
        unfold debugOr
        rw [keeps_ite]
        refine ⟨fun _ => ?_, fun _ => settle_keeps q s _ ?_⟩
        · unfold countDebug
          rw [keeps_ite]
          exact ⟨fun _ => ⟨rfl, trivial⟩, fun _ => ⟨rfl, trivial⟩⟩
        · have hid : ((stringReply getreply).bind X.parseSession).map (·.sessionId) =
              some s.sessionId := by rw [hs]; rfl
          exact ⟨hid, rfl, rfl, rfl, rfl, rfl, rfl, rfl⟩

end Doorhinges.Callback

import Doorhinges.ShowCap.Model

/-!
# What a callback owes once it has counted a show

A callback that has counted the show that reaches the show frequency reads the ad list of
the order before it does anything else, and then adds every id of it for the device of its
session record. `rules` states this of its commands; every callback keeps them whatever
the store answers.
-/
namespace Doorhinges.ShowCap

open Lib.CString
open Lib.Redis (Cmd Reply)
open Lib.Program
open Callback

/-- The callback owes nothing. -/
structure View.Idle (v : View) : Prop where
  device : ∀ k, v.counted = some k → v.session.map (·.uuid) = some k.device
  listed : ∀ k f, v.counted = some k → v.fre = some (k.order, f) → f ≤ k.number →
    ∃ l, v.adlist = some (k.order, l)
  added : ∀ order l, v.adlist = some (order, l) → l.reverse = v.adds.map some

def mayCall (v : View) : Command → Prop
  | .get (.adsession _) => v.Idle ∧ v.adds = []
  | .smembers (.orderAdlist _) => True
  | _ => v.Idle

def maySend (v : View) : Command → Prop
  | .sadd (.tagUuid device) _ => v.session.map (·.uuid) = some device
  | _ => v.Idle

def rules (X : Externals) : Discipline Command (Option Reply) Mark View where
  mayCall := mayCall
  called := View.called X
  maySend := maySend
  sent := View.sent
  mayMark v _ := v.Idle
  marked v _ := v

variable {X : Externals} {v : View}

/-- The keys whose commands the digest does not record. -/
def plain : RedisKey → Bool
  | .adsession _ | .orderShowfre _ | .freOrderidShow _ _ | .orderAdlist _ | .tagUuid _ => false
  | _ => true

/-- A program that only works on other keys. -/
def Aside {α : Type} (p : Act α) : Prop :=
  Keeps (only (fun c => plain c.key) fun _ => True) p () fun _ _ => True

theorem plain_call {c : Command} (hc : plain c.key) (hv : v.Idle) :
    mayCall v c ∧ ∀ r, v.called X c r = v := by
  unfold mayCall View.called
  constructor
  · split
    all_goals first | exact hv | cases hc
  · intro r
    split
    all_goals first | rfl | cases hc

theorem plain_send {c : Command} (hc : plain c.key) (hv : v.Idle) :
    maySend v c ∧ v.sent c = v := by
  unfold maySend View.sent
  constructor
  · split
    all_goals first | exact hv | cases hc
  · split
    all_goals first | rfl | cases hc

theorem Aside.keeps {α : Type} {p : Act α} {Q : α → View → Prop} (h : Aside p) (hv : v.Idle)
    (hQ : ∀ a, Q a v) : Keeps (rules X) p v Q :=
  keeps_of_only h (fun _ hc => plain_call hc hv) (fun _ hc => plain_send hc hv)
    (fun _ _ => ⟨hv, rfl⟩) hQ

namespace Aside

variable {α β : Type}

theorem pure (a : α) : Aside (Pure.pure a : Act α) := trivial

theorem bind {p : Act α} {f : α → Act β} (hp : Aside p) (hf : ∀ a, Aside (f a)) :
    Aside (p >>= f) :=
  keeps_bind_of hp fun a _ => hf a

theorem call {c : Command} (hc : plain c.key) : Aside (call c : Act (Option Reply)) :=
  ⟨hc, fun _ => trivial⟩

theorem send {c : Command} (hc : plain c.key) : Aside (send c : Act Unit) := ⟨hc, trivial⟩

theorem mark (m : Mark) : Aside (mark m : Act Unit) := ⟨trivial, trivial⟩

theorem deref (o : Option α) : Aside (deref o : Act α) :=
  (keeps_deref o _ _).2 fun _ _ => trivial

theorem ite (b : Prop) [Decidable b] {p q : Act α} (hp : Aside p) (hq : Aside q) :
    Aside (if b then p else q) :=
  (keeps_ite b p q _ _).2 ⟨fun _ => hp, fun _ => hq⟩

theorem onlyIf (b : Prop) [Decidable b] {p : Act Unit} (hp : Aside p) : Aside (onlyIf b p) :=
  .ite b hp (.pure ())

end Aside

theorem deductMoney_aside (orderId adId t : Bytes) (h : Int) :
    Aside (DeductMoney X orderId adId t h) := by
  refine .bind (.call rfl) fun model => .bind (.call rfl) fun price => .bind (.send rfl) fun _ => ?_
  refine .bind ?_ fun _ => .bind (.call rfl) fun days => .bind (.onlyIf _ ?_) fun _ => .send rfl
  · exact .ite _ (.send rfl) (.ite _ (.bind (.send rfl) fun _ => .send rfl) (.pure ()))
  · refine .bind (.call rfl) fun balance => ?_
    cases stringReply balance with
    | some _ => exact .send rfl
    | none => exact .bind (.call rfl) fun unallocated => .onlyIf _ (.send rfl)

section Numbers

variable {D : Discipline Command (Option Reply) Mark View} {Q : Int → View → Prop}

theorem numberOf_keeps {r : Reply} (h : Q (freOf (some r)) v) : Keeps D (numberOf r) v Q := by
  unfold numberOf
  rw [keeps_ite]
  refine ⟨fun hnil => ?_, fun hnil => ?_⟩
  · simpa [freOf, hnil] using h
  · rw [keeps_bind, keeps_deref]
    intro s hs
    simpa [freOf, hnil, hs] using h

theorem numberOrNone_keeps {r : Option Reply} (h : Q (freOf r) v) :
    Keeps D (numberOrNone r) v Q := by
  cases r with
  | none => exact h
  | some r => exact numberOf_keeps h

end Numbers

/-- The callback is past its session record and has not touched the show frequency. -/
structure View.Entered (v : View) (uuid : Bytes) : Prop where
  session : v.session.map (·.uuid) = some uuid
  counted : v.counted = none
  adlist : v.adlist = none
  adds : v.adds = []

theorem View.Entered.idle {uuid : Bytes} (h : v.Entered uuid) : v.Idle where
  device k hk := by rw [h.counted] at hk; cases hk
  listed k f hk := by rw [h.counted] at hk; cases hk
  added order l hl := by rw [h.adlist] at hl; cases hl

/-- All ids of the list are sent, in the order of the loop. -/
theorem saddAll_keeps {uuid : Bytes} (es : List (Option Bytes)) {v : View}
    {Q : Unit → View → Prop} (hs : v.session.map (·.uuid) = some uuid)
    (hQ : ∀ ids : List Bytes, es = ids.map some → Q () { v with adds := v.adds ++ ids }) :
    Keeps (rules X) (saddAll uuid es) v Q := by
  induction es generalizing v with
  | nil =>
    rw [saddAll, keeps_pure]
    simpa using hQ [] rfl
  | cons e es ih =>
    rw [saddAll, keeps_bind, keeps_deref]
    rintro m rfl
    rw [keeps_bind, keeps_send]
    refine ⟨hs, ih hs fun ids hids => ?_⟩
    have h := hQ (m :: ids) (by rw [hids, List.map_cons])
    simpa [rules, View.sent] using h

/-- After the list has been read, the loop leaves the callback idle. -/
theorem saddAll_idle {uuid : Bytes} (order : Bytes) {l : List (Option Bytes)}
    (hs : v.session.map (·.uuid) = some uuid) (hl : v.adlist = some (order, l))
    (hadds : v.adds = []) (hcounted : ∀ k, v.counted = some k → k.order = order ∧ k.device = uuid) :
    Keeps (rules X) (saddAll uuid l.reverse) v fun _ w => w.Idle := by
  refine saddAll_keeps _ hs fun ids hids => ⟨fun k hk => ?_, fun k f hk _ _ => ?_, fun o l' hl' => ?_⟩
  · exact hs.trans (congrArg some (hcounted k hk).2.symm)
  · exact ⟨l, by rw [(hcounted k hk).1]; exact hl⟩
  · obtain ⟨-, rfl⟩ : order = o ∧ l = l' := by simpa [hl] using hl'
    simp [hadds, hids]

theorem showFrequency_keeps (orderId uuid day : Bytes) (h : v.Entered uuid) :
    Keeps (rules X) (showFrequency orderId uuid day) v fun _ w => w.Idle := by
  unfold showFrequency
  rw [keeps_bind, keeps_call]
  refine ⟨h.idle, fun r => ?_⟩
  rw [keeps_bind]
  refine numberOrNone_keeps ?_
  have h' : View.Entered { v with fre := some (orderId, freOf r) } uuid :=
    ⟨h.session, h.counted, h.adlist, h.adds⟩
  rw [keeps_ite]
  refine ⟨fun _ => ?_, fun _ => h'.idle⟩
  rw [keeps_bind, keeps_call]
  refine ⟨h'.idle, fun n => ?_⟩
  cases n with
  | none => exact ⟨fun k hk => (by cases hk), fun k f hk => (by cases hk), h'.idle.added⟩
  | some n =>
    rw [keeps_ite]
    refine ⟨fun _ => ?_, fun hlt => ?_⟩
    · rw [keeps_bind, keeps_call]
      refine ⟨trivial, fun members => ?_⟩
      rw [keeps_bind, keeps_deref]
      rintro members rfl
      rw [keeps_bind]
      refine keeps_mono (saddAll_idle orderId h.session rfl h.adds ?_) fun _ w hw => ⟨hw, hw⟩
      intro k hk
      obtain rfl := Option.some.inj hk
      exact ⟨rfl, rfl⟩
    · refine ⟨fun k hk => ?_, fun k f hk hf hle => ?_, h'.idle.added⟩
      · obtain rfl := Option.some.inj hk
        exact h.session
      · obtain rfl := Option.some.inj hk
        obtain ⟨-, rfl⟩ := Prod.mk.inj (Option.some.inj hf)
        exact absurd hle (by simpa using hlt)

theorem clickFrequency_keeps (orderId uuid day : Bytes) (h : v.Entered uuid) :
    Keeps (rules X) (clickFrequency orderId uuid day) v fun _ w => w.Idle := by
  unfold clickFrequency
  rw [keeps_bind, keeps_call]
  refine ⟨h.idle, fun state => ?_⟩
  cases state with
  | none => exact h.idle
  | some state =>
    rw [keeps_bind]
    refine numberOf_keeps ?_
    rw [keeps_ite]
    refine ⟨fun _ => ?_, fun _ => h.idle⟩
    rw [keeps_bind, keeps_call]
    refine ⟨h.idle, fun r => ?_⟩
    cases r with
    | none => exact h.idle
    | some r =>
      rw [keeps_bind]
      refine numberOf_keeps ?_
      rw [keeps_ite]
      refine ⟨fun _ => ?_, fun _ => h.idle⟩
      rw [keeps_bind, keeps_call]
      refine ⟨h.idle, fun n => ?_⟩
      rw [keeps_bind, keeps_deref]
      rintro n rfl
      rw [keeps_ite]
      refine ⟨fun _ => ?_, fun _ => h.idle⟩
      rw [keeps_bind, keeps_call]
      refine ⟨trivial, fun members => ?_⟩
      cases members with
      | none =>
        have h' : View.Entered { v with adlist := none } uuid :=
          ⟨h.session, h.counted, rfl, h.adds⟩
        exact h'.idle
      | some members =>
        rw [keeps_bind]
        have hnone : ∀ k, v.counted = some k → k.order = orderId ∧ k.device = uuid := by
          intro k hk
          rw [h.counted] at hk
          cases hk
        refine keeps_mono (saddAll_idle orderId h.session rfl h.adds hnone) fun _ w hw => ?_
        refine (Aside.bind (.call rfl) fun days => ?_).keeps hw fun _ => hw
        cases days with
        | none => exact .pure false
        | some days => exact .bind (.onlyIf _ (.send rfl)) fun _ => .pure true

theorem acceptedShow_keeps (f : Frame) (n : Int) (h : v.Entered f.session.uuid) :
    Keeps (rules X) (acceptedShow X f n) v fun _ w => w.Idle := by
  have hbefore : Aside (do
      mark (.accepted f.session.sessionId)
      send (hincrbyOne f.dayTotal "assshow")
      send (.sadd .tomssqladid f.session.adId)
      onlyIf (f.session.callbackType.head? = some 49) (do
        mark (.deductMoney .shown f.session.sessionId)
        DeductMoney X f.orderId f.session.adId f.req.day f.req.hour) : Act Unit) :=
    .bind (.mark _) fun _ => .bind (.send rfl) fun _ => .bind (.send rfl) fun _ =>
      .onlyIf _ (.bind (.mark _) fun _ => deductMoney_aside _ _ _ _)
  have hafter : Aside (if n ≤ 4 then do
      send (hincrbyOne f.dayTotal "masshow")
      send (.setex (.shown f.session.sessionId) 900 (decimal IMP_SHOW_VALID))
      pure ⟨0, true, 0⟩
    else do
      send (.setex (.shown f.session.sessionId) 900 (decimal IMP_SHOW_INVALID))
      pure ⟨0, false, 0⟩ : Act Outcome) :=
    .ite _ (.bind (.send rfl) fun _ => .bind (.send rfl) fun _ => .pure _)
      (.bind (.send rfl) fun _ => .pure _)
  have hfre : Keeps (rules X) (showFrequency f.orderId f.session.uuid f.req.day) v
      fun _ w => Keeps (rules X) _ w fun _ w => w.Idle :=
    keeps_mono (showFrequency_keeps _ _ _ h) fun _ w hw => hafter.keeps hw fun _ => hw
  have hall := hbefore.keeps (X := X) h.idle (Q := fun _ w => Keeps (rules X)
    (showFrequency f.orderId f.session.uuid f.req.day) w
      fun _ w => Keeps (rules X) _ w fun _ w => w.Idle) fun _ => hfre
  simp only [keeps_bind] at hall
  unfold acceptedShow
  simp only [keeps_bind]
  exact hall

theorem showBranch_keeps (f : Frame) (h : v.Entered f.session.uuid) :
    Keeps (rules X) (showBranch X f) v fun _ w => w.Idle := by
  unfold showBranch
  rw [keeps_bind, keeps_call]
  refine ⟨h.idle, fun lock => ?_⟩
  cases lock with
  | none => exact h.idle
  | some lock =>
    rw [keeps_ite]
    refine ⟨fun _ => ?_, fun _ => ⟨h.idle, h.idle⟩⟩
    rw [keeps_bind, keeps_send]
    refine ⟨h.idle, ?_⟩
    rw [keeps_bind, keeps_send]
    refine ⟨h.idle, ?_⟩
    rw [keeps_bind, keeps_call]
    refine ⟨h.idle, fun stats => ?_⟩
    cases stats with
    | none => exact h.idle
    | some stats =>
      have hrest : Keeps (rules X) (if stats.integer > 12 then pure (⟨10, false, 0⟩ : Outcome)
          else acceptedShow X f stats.integer) v fun _ w => w.Idle := by
        rw [keeps_ite]
        exact ⟨fun _ => h.idle, fun _ => acceptedShow_keeps f _ h⟩
      rw [keeps_bind, keeps_onlyIf]
      exact ⟨fun _ => ⟨h.idle, hrest⟩, fun _ => hrest⟩

theorem countedClick_keeps (f : Frame) (limit : Int) (h : v.Entered f.session.uuid) :
    Keeps (rules X) (countedClick X f limit) v fun _ w => w.Idle := by
  unfold countedClick
  rw [keeps_bind, keeps_send]
  refine ⟨h.idle, ?_⟩
  rw [keeps_bind, keeps_send]
  refine ⟨h.idle, ?_⟩
  rw [keeps_bind, keeps_call]
  refine ⟨h.idle, fun stats => ?_⟩
  cases stats with
  | none => exact h.idle
  | some stats =>
    rw [keeps_ite]
    refine ⟨fun _ => h.idle, fun _ => ?_⟩
    rw [keeps_bind, keeps_send]
    refine ⟨h.idle, ?_⟩
    rw [keeps_bind, keeps_send]
    refine ⟨h.idle, ?_⟩
    have hmoney : Aside (onlyIf (f.session.callbackType.head? = some 50) (do
        mark (.deductMoney .click f.session.sessionId)
        DeductMoney X f.orderId f.session.adId f.req.day f.req.hour) : Act Unit) :=
      .onlyIf _ (.bind (.mark _) fun _ => deductMoney_aside _ _ _ _)
    rw [keeps_bind]
    refine hmoney.keeps h.idle fun _ => ?_
    rw [keeps_bind]
    refine keeps_mono (clickFrequency_keeps _ _ _ h) fun finished w hw => ?_
    rw [keeps_ite]
    exact ⟨fun _ => ⟨hw, hw, hw⟩, fun _ => hw⟩

theorem clickBranch_keeps (f : Frame) (h : v.Entered f.session.uuid) :
    Keeps (rules X) (clickBranch X f) v fun _ w => w.Idle := by
  unfold clickBranch
  rw [keeps_bind, keeps_call]
  refine ⟨h.idle, fun shown => ?_⟩
  cases shown with
  | none => exact h.idle
  | some shown =>
    rw [keeps_ite]
    refine ⟨fun _ => ⟨h.idle, h.idle⟩, fun _ => ?_⟩
    rw [keeps_bind, keeps_deref]
    intro s _
    rw [keeps_bind, keeps_call]
    refine ⟨h.idle, fun lock => ?_⟩
    cases lock with
    | none => exact h.idle
    | some lock =>
      rw [keeps_ite]
      refine ⟨fun _ => ?_, fun _ => ⟨h.idle, h.idle⟩⟩
      rw [keeps_bind, keeps_send]
      exact ⟨h.idle, countedClick_keeps f _ h⟩

theorem settle_keeps (q : Request) (s : AdSession) (pid : Bytes) (h : v.Entered s.uuid) :
    Keeps (rules X) (settle X q s pid) v fun _ w => w.Idle := by
  unfold settle
  rw [keeps_bind, keeps_call]
  refine ⟨h.idle, fun order => ?_⟩
  rw [keeps_bind]
  have hlog : ∀ (o : Outcome) (w : View), w.Idle → Keeps (rules X)
      (onlyIf (q.writeLog = true)
        (mark (.logged o.sProcessNode (o.nIsCheat > 0) o.bIsBilling))) w fun _ w => w.Idle :=
    fun o w hw => (Aside.onlyIf _ (.mark _)).keeps hw fun _ => hw
  refine keeps_mono ?_ hlog
  unfold branch
  simp only [keeps_ite]
  exact ⟨fun _ => showBranch_keeps _ h, fun _ => ⟨fun _ => clickBranch_keeps _ h, fun _ => h.idle⟩⟩

theorem withPlatform_keeps (q : Request) (s : AdSession) (hgetreply : Option Reply)
    (h : v.Entered s.uuid) :
    Keeps (rules X) (withPlatform X q s hgetreply) v fun _ w => w.Idle := by
  unfold withPlatform
  cases stringReply hgetreply with
  | none => exact ⟨h.idle, h.idle⟩
  | some text =>
    dsimp only
    cases X.parsePlatform text with
    | none => exact ⟨h.idle, h.idle⟩
    | some p =>
      dsimp only
      rw [keeps_bind]
      have hdebug : Aside (countDebug q p.platformProviderID) := .ite _ (.send rfl) (.send rfl)
      have hdone : Keeps (rules X) (debugOr X q s p.platformProviderID) v fun _ w => w.Idle := by
        unfold debugOr
        rw [keeps_ite]
        exact ⟨fun _ => hdebug.keeps h.idle fun _ => h.idle, fun _ => settle_keeps q s _ h⟩
      exact keeps_mono hdone fun _ w hw => ⟨hw, hw⟩

/-- Every callback keeps the rules, whatever the store answers. -/
theorem aisCallback_keeps (q : Request) :
    Keeps (rules X) (aisCallback X q) {} fun _ w => w.Idle := by
  have hidle : ∀ s, View.Idle { session := s } := fun s =>
    ⟨fun k hk => (by cases hk), fun k f hk => (by cases hk), fun o l hl => (by cases hl)⟩
  unfold aisCallback
  rw [keeps_bind, keeps_call]
  refine ⟨⟨hidle none, rfl⟩, fun getreply => ?_⟩
  have hview : (rules X).called {} (.get (.adsession q.sessionid)) getreply =
      { session := (stringReply getreply).bind X.parseSession } := rfl
  rw [hview]
  cases (stringReply getreply).bind X.parseSession with
  | none => exact ⟨hidle _, hidle _, hidle _⟩
  | some s =>
    rw [keeps_bind, keeps_call]
    exact ⟨hidle _, fun hgetreply => withPlatform_keeps q s hgetreply ⟨rfl, rfl, rfl, rfl⟩⟩

end Doorhinges.ShowCap

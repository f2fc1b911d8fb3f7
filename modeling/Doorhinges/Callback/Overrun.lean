import Doorhinges.Callback.Charging
import Doorhinges.Callback.Solo

/-!
# Counting a lock past the range of an int

While the clock stands still a lock can be counted up as often as there are
callbacks. `Overrun` is such a run: each callback counts the lock up once, and
the last of them charges.
-/
namespace Doorhinges.Callback

open Lib.CString
open Lib.Redis (Cmd Reply Store Field Entry Value)
open Lib.Program
open Lib.Machine

variable {X : Externals} {addFloat : Option Field → Bytes → Bytes} {s t : Sys} {sid : Bytes}

/-- Callbacks start and act and sent commands are served; nothing else happens. -/
def Label.quiet : Label → Bool
  | .spawn _ _ | .exec _ | .deliver _ => true
  | _ => false

/-- No callback is late for a lock. -/
def Punctual (s : Sys) : Prop := ∀ i p, s.procs i = some p → p.late = {}

theorem Punctual.step {l : Label} (h : Punctual s) (ht : Trans X addFloat s l t)
    (hl : l.quiet = true) : Punctual t := by
  intro i p hp
  cases ht with
  | spawn j q hj =>
    rcases setProc_some hp with ⟨-, rfl⟩ | hp
    · rfl
    · exact h i p hp
  | call j v l c k hj =>
    rcases setProc_some hp with ⟨-, rfl⟩ | hp
    · obtain rfl : l = {} := h j _ hj
      show Late.called {} c = {}
      unfold Late.called
      split <;> rfl
    · exact h i p hp
  | send j v l c k hj =>
    rcases setProc_some hp with ⟨-, rfl⟩ | hp
    · obtain rfl : l = {} := h j _ hj
      rfl
    · exact h i p hp
  | mark j v l m k hj =>
    rcases setProc_some hp with ⟨-, rfl⟩ | hp
    · obtain rfl : l = {} := h j _ hj
      rfl
    · exact h i p hp
  | deliver _ _ _ => exact h i p hp
  | tick _ | adbody _ _ _ _ _ | admin _ _ => cases hl

/-- While the clock stands still nobody becomes late. -/
theorem throughout_quiet {G : Sys → Label → Prop}
    (hG : ∀ s l, l.quiet = true → Punctual s → G s l) {ls : List Label}
    (hq : ∀ l ∈ ls, l.quiet = true) (h : Punctual s) : Throughout (step X addFloat) G s ls := by
  induction ls generalizing s with
  | nil => trivial
  | cons l ls ih =>
    have hl := hq l List.mem_cons_self
    exact ⟨hG s l hl h, fun t ht =>
      ih (fun l' hl' => hq l' (List.mem_cons_of_mem l hl')) (h.step (step_trans ht) hl)⟩

theorem Punctual.inTime {g : Gate} (hg : g.late {} = false) {l : Label} (h : Punctual s) :
    InTime g s l := by
  cases l with
  | exec i =>
    intro k v l hi
    obtain rfl : l = {} := h i _ hi
    exact hg
  | spawn _ _ | deliver _ | tick _ | adbody _ _ | admin _ => trivial

theorem Label.quiet.recordedOnce {l : Label} (h : l.quiet = true) : RecordedOnce sid s l := by
  cases l with
  | adbody _ _ => cases h
  | spawn _ _ | exec _ | deliver _ | tick _ | admin _ => trivial

theorem unused_step {i : Nat} {l : Label} (hl : ∀ q, l ≠ .spawn i q) (hi : s.procs i = none)
    (ht : Trans X addFloat s l t) : t.procs i = none := by
  have hother : ∀ {u : Sys} {j : Nat} {p q : Proc}, u.procs = s.procs → s.procs j = some q →
      (u.setProc j p).procs i = none := by
    intro u j p q hu hj
    have hij : i ≠ j := by
      rintro rfl
      simp [hi] at hj
    simp [Sys.setProc, hij, hu, hi]
  cases ht with
  | spawn j q hj =>
    have hij : i ≠ j := by
      rintro rfl
      exact hl q rfl
    simp [Sys.setProc, hij, hi]
  | call j v l c k hj => exact hother rfl hj
  | send j v l c k hj => exact hother rfl hj
  | mark j v l m k hj => exact hother rfl hj
  | deliver _ _ _ => exact hi
  | tick d => simp [hi]
  | adbody _ _ _ _ _ => exact hi
  | admin _ _ => exact hi

/-- A callback that is not started stays unused. -/
theorem unused_run {i : Nat} {ls : List Label} (hl : ∀ q, .spawn i q ∉ ls)
    (hi : s.procs i = none) (hr : run (step X addFloat) s ls = some t) : t.procs i = none := by
  induction ls generalizing s with
  | nil =>
    obtain rfl := Option.some.inj hr
    exact hi
  | cons l ls ih =>
    obtain ⟨u, hu, hr⟩ := Option.bind_eq_some_iff.mp hr
    refine ih (fun q hq => hl q (List.mem_cons_of_mem l hq)) ?_ hr
    exact unused_step (fun q hq => hl q (hq ▸ List.mem_cons_self)) hi (step_trans hu)

/-- A callback alone on a store, after its first `n` actions. -/
def alone (X : Externals) (addFloat : Option Field → Bytes → Bytes) (st : Store RedisKey)
    (q : Request) (n : Nat) : Option Solo :=
  Solo.steps X addFloat 0 n { store := st, proc := ⟨aisCallback X q, {}, {}⟩ }

def block (q : Request) (n i : Nat) : List Label := .spawn i q :: List.replicate n (.exec i)

theorem block_quiet {q : Request} {n i : Nat} {l : Label} (h : l ∈ block q n i) :
    l.quiet = true := by
  rcases List.mem_cons.mp h with rfl | h
  · rfl
  · rw [(List.mem_replicate.mp h).2]
    rfl

/-- A new callback acts while the rest of the system stands still. -/
theorem run_block {q : Request} {n i : Nat} {a : Solo} (hc : s.clock = 0)
    (hi : s.procs i = none) (ha : alone X addFloat s.store q n = some a) :
    run (step X addFloat) s (block q n i) = some (Solo.plug s i a) :=
  Solo.run_spawn hi (by rw [hc]; exact ha)

/-- Callbacks that count a lock up and do not charge; `store n` is the store
after `n` counts. -/
structure Overrun (X : Externals) (addFloat : Option Field → Bytes → Bytes) where
  request : Request
  charge : Event
  store : Int → Store RedisKey
  actions : Nat
  next : ∀ n, ∃ a, alone X addFloat (store n) request actions = some a ∧
    a.store = store (n + 1) ∧ a.log.count charge = 0

namespace Overrun

variable (o : Overrun X addFloat)

/-- The lock has been counted up `n` times and there was one charge. -/
structure Counted (n : Nat) (s : Sys) : Prop where
  clock : s.clock = 0
  store : s.store = o.store n
  unused : ∀ j, n < j → s.procs j = none
  charged : s.log.count o.charge = 1

variable {o}

theorem Counted.step {n : Nat} (h : o.Counted n s) :
    ∃ t, run (step X addFloat) s (block o.request o.actions (n + 1)) = some t ∧
      o.Counted (n + 1) t := by
  obtain ⟨a, ha, hstore, hcharge⟩ := o.next n
  rw [← h.store] at ha
  refine ⟨_, run_block h.clock (h.unused _ (Nat.lt_succ_self n)) ha, h.clock, ?_, fun j hj => ?_, ?_⟩
  · simpa [Solo.plug] using hstore
  · have hjn : j ≠ n + 1 := by omega
    simpa [Solo.plug, hjn] using h.unused j (by omega)
  · simp only [Solo.plug, List.count_append, h.charged, hcharge]

/-- When the callback after `k` more counts charges, there are two charges. -/
theorem Counted.twice {k m : Nat} (h : o.Counted 1 s)
    (hlast : ∃ a, alone X addFloat (o.store ↑(1 + k)) o.request m = some a ∧
      a.log.count o.charge = 1) :
    ∃ ls t, (∀ l ∈ ls, Label.quiet l = true) ∧ run (Callback.step X addFloat) s ls = some t ∧
      t.log.count o.charge = 2 := by
  have hnext : ∀ n s, 1 ≤ n → o.Counted n s → ∃ t,
      run (Callback.step X addFloat) s (block o.request o.actions (n + 1)) = some t ∧
        o.Counted (n + 1) t := fun n s _ hs => hs.step
  obtain ⟨u, hu, hcount⟩ := run_blocks 1 hnext k h
  obtain ⟨a, ha, hcharge⟩ := hlast
  rw [← hcount.store] at ha
  have hrun := run_block hcount.clock (hcount.unused _ (Nat.lt_succ_self _)) ha
  refine ⟨(List.range' 1 k).flatMap (fun n => block o.request o.actions (n + 1)) ++
    block o.request m (1 + k + 1), Solo.plug u (1 + k + 1) a, fun l hl => ?_, ?_, ?_⟩
  · rcases List.mem_append.mp hl with hl | hl
    · obtain ⟨n, -, hl⟩ := List.mem_flatMap.mp hl
      exact block_quiet hl
    · exact block_quiet hl
  · rw [run_append, hu, Option.bind_some]
    exact hrun
  · simp only [Solo.plug, List.count_append, hcount.charged, hcharge]

end Overrun

theorem incr_store {st : Store RedisKey} {k : RedisKey} {n : Int} {e : Option Nat}
    (hl : st.lookup 0 k = some ⟨.int n, e⟩) :
    (st.run addFloat 0 (.incr k)).2 = fun k' => if k' = k then some ⟨.int (n + 1), e⟩ else st k' := by
  funext k'
  by_cases hk : k' = k
  · subst hk
    simp [(incr_alive hl).2]
  · simp [Store.run_other addFloat st 0 (.incr k) hk, hk]

namespace Sample

def sessionId : Bytes := ascii "5f"

def session (callbackType : Bytes) : AdSession where
  adId := ascii "7"
  sessionId := sessionId
  callbackType := callbackType
  appId := ascii "1"
  uuid := ascii "u"
  ip := ascii "1.2.3.4"
  platformKey := ascii "k"

def record (callbackType : Bytes) : Bytes :=
  ascii "\x7b\"AdId\":\"7\",\"SessionId\":\"5f\",\"Ip\":\"1.2.3.4\",\"CallbackType\":\"" ++
    callbackType ++ ascii "\",\"AppId\":\"1\",\"Uuid\":\"u\",\"PlatformKey\":\"k\"\x7d"

def platforms : Entry :=
  ⟨.hash [(ascii "k", .text (ascii "\x7b\"PlatformProviderID\":\"13\"\x7d"))], none⟩

def uuidKey : Bytes := ascii "2adc78b1f3a7db3bd9b4c13da04a124b"

def sessionKey : Bytes := ascii "9a470dc0e1a669281e30ae311b47ab96"

/-- The libraries on the texts of the sample. -/
def externals (callbackType : Bytes) : Externals where
  parseSession _ := some (session callbackType)
  parsePlatform _ := some ⟨ascii "13"⟩
  md5 t := if t = uuidKeyText (session callbackType) (ascii "13") then uuidKey else sessionKey
  negatedFloat _ := ascii "-0.000000"

def sum : Option Field → Bytes → Bytes := fun _ v => v

def day : Bytes := ascii "2014-05-28"

def request (callbacktype : Bytes) : Request where
  callbacktype := callbacktype
  sessionid := sessionId
  pid := ascii "13"
  day := day
  hour := 9
  replies := false
  writeLog := false

def start : Sys where
  clock := 0
  store k := if k = .adplatform then some platforms else none
  procs _ := none
  outgoing := []
  log := []

theorem start_initial : start.Initial := by
  refine ⟨fun _ => rfl, rfl, rfl, fun k hk => ?_⟩
  have hne : k ≠ .adplatform := by
    rintro rfl
    cases hk
  simp [start, hne]

/-- The ad request has stored its record. -/
def recorded (callbackType : Bytes) : Sys :=
  (start.serve sum (.setex (.adsession sessionId) 900 (record callbackType))).2

theorem run_recorded (callbackType : Bytes) (ls : List Label) :
    run (step (externals callbackType) sum) start
      (.adbody sessionId (record callbackType) :: ls) =
    run (step (externals callbackType) sum) (recorded callbackType) ls := rfl

/-- Behind the record only quiet steps: nobody is late and no record is written. -/
theorem throughout_recorded {callbackType : Bytes} {G : Sys → Label → Prop}
    (hG : ∀ s l, l.quiet = true → Punctual s → G s l)
    (hfirst : G start (.adbody sessionId (record callbackType))) {ls : List Label}
    (hq : ∀ l ∈ ls, l.quiet = true) :
    Throughout (step (externals callbackType) sum) G start
      (.adbody sessionId (record callbackType) :: ls) := by
  refine ⟨hfirst, fun t ht => throughout_quiet hG hq fun i p hp => ?_⟩
  obtain rfl : recorded callbackType = t := Option.some.inj ht
  cases hp

end Sample

end Doorhinges.Callback

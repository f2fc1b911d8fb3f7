import Doorhinges.Callback.Discipline
import Doorhinges.Lib.Lease

/-!
# The two locks as leases

A gate is a guard key and the lock key that protects what the guard allows: the
session record and the show lock, the recorded show and the click lock. Its
`lease` forgets everything else about a state; every step of the system is a
step of the lease or leaves it alone.
-/
namespace Doorhinges.Callback

open Lib.CString
open Lib.Redis (Cmd Reply Store Field Entry Value)
open Lib.Program
open Lib.Lease (Status)

/-- How a gate reads the digest of a callback. -/
structure Gate where
  guardKey : RedisKey
  lockKey : RedisKey
  read : View → Bool
  tried : View → Option Int
  late : Late → Bool

def showGate (sid : Bytes) : Gate where
  guardKey := .adsession sid
  lockKey := .sLock sid
  read v := v.session.map (·.sessionId) = some sid
  tried v := v.sLock
  late l := l.sLock

def clickGate (sid : Bytes) : Gate where
  guardKey := .shown sid
  lockKey := .cLock sid
  read v := v.session.map (·.sessionId) = some sid && v.shown.isSome
  tried v := v.cLock
  late l := l.cLock

def lockOf (e : Option Entry) : Option (Int × Option Nat) :=
  match e with
  | some ⟨.int n, t⟩ => some (n, t)
  | _ => none

namespace Gate

variable (g : Gate)

def status (v : View) (l : Late) : Status :=
  if g.read v then
    match g.tried v with
    | none => .waiting (g.late l)
    | some n => if n = 1 then .holder else .lost
  else .idle

def statusOf : Option Proc → Status
  | none => .idle
  | some p => g.status p.view p.late

def lease (s : Sys) : Lib.Lease.State Nat where
  clock := s.clock
  guard := (s.store g.guardKey).bind (·.expires)
  lock := lockOf (s.store g.lockKey)
  status i := g.statusOf (s.procs i)

/-- The lock key only ever holds a counter. -/
def Counter (st : Store RedisKey) : Prop := ∀ e, st g.lockKey = some e → ∃ n, e.value = .int n

end Gate

section Store

variable {addFloat : Option Field → Bytes → Bytes} {st : Store RedisKey} {now : Nat} {k : RedisKey}

theorem lockOf_eq_some {e : Option Entry} {n : Int} {t : Option Nat} :
    lockOf e = some (n, t) ↔ e = some ⟨.int n, t⟩ := by
  unfold lockOf
  split
  · simp
  · rename_i hno
    simp only [reduceCtorEq, false_iff]
    rintro rfl
    exact hno n t rfl

theorem alive_lockOf {e : Entry} {n : Int} (hv : e.value = .int n) :
    Lib.Lease.alive now (lockOf (some e)) = e.alive now := by
  obtain ⟨v, t⟩ := e
  subst hv
  cases t <;> rfl

/-- A lock that is not alive reads as absent. -/
theorem lookup_dead (hc : ∀ e, st k = some e → ∃ n, e.value = .int n)
    (hd : Lib.Lease.alive now (lockOf (st k)) = false) : st.lookup now k = none := by
  cases hk : st k with
  | none => simp [Store.lookup, hk]
  | some e =>
    obtain ⟨n, hn⟩ := hc e hk
    rw [hk, alive_lockOf hn] at hd
    simp [Store.lookup, hk, Option.filter, hd]

theorem lookup_alive {n : Int} {t : Option Nat} (hk : lockOf (st k) = some (n, t))
    (ha : Lib.Lease.alive now (lockOf (st k)) = true) : st.lookup now k = some ⟨.int n, t⟩ := by
  rw [lockOf_eq_some] at hk
  rw [hk, alive_lockOf rfl] at ha
  exact Store.lookup_some.mpr ⟨hk, ha⟩

theorem incr_dead (hl : st.lookup now k = none) :
    (st.run addFloat now (.incr k)).1 = .int 1 ∧
      (st.run addFloat now (.incr k)).2 k = some ⟨.int 1, none⟩ := by
  refine ⟨by simp [Store.run, Cmd.key, hl, Cmd.exec], ?_⟩
  exact Store.run_self addFloat (c := .incr k) (by simp [Cmd.key, hl, Cmd.exec])

theorem incr_alive {n : Int} {t : Option Nat} (hl : st.lookup now k = some ⟨.int n, t⟩) :
    (st.run addFloat now (.incr k)).1 = .int (n + 1) ∧
      (st.run addFloat now (.incr k)).2 k = some ⟨.int (n + 1), t⟩ := by
  refine ⟨by simp [Store.run, Cmd.key, hl, Cmd.exec], ?_⟩
  exact Store.run_self addFloat (c := .incr k) (by simp [Cmd.key, hl, Cmd.exec])

theorem expire_alive {n : Int} {t : Option Nat} {secs : Nat}
    (hl : st.lookup now k = some ⟨.int n, t⟩) :
    (st.run addFloat now (.expire k secs)).2 k = some ⟨.int n, some (now + 1000 * secs)⟩ :=
  Store.run_self addFloat (c := .expire k secs) (by simp [Cmd.key, hl, Cmd.exec])

theorem expire_dead {secs : Nat} (hl : st.lookup now k = none) :
    (st.run addFloat now (.expire k secs)).2 = st :=
  Store.run_same addFloat (by simp [Cmd.key, hl, Cmd.exec])

theorem get_same : (st.run addFloat now (.get k)).2 = st := by
  refine Store.run_same addFloat ?_
  cases hl : st.lookup now k with
  | none => simp [Cmd.key, hl, Cmd.exec]
  | some e =>
    obtain ⟨v, t⟩ := e
    cases v <;> simp [Cmd.key, hl, Cmd.exec]

theorem setex_self {secs : Nat} {b : Bytes} :
    (st.run addFloat now (.setex k secs b)).2 k = some ⟨.text b, some (now + 1000 * secs)⟩ :=
  Store.run_self addFloat (c := .setex k secs b) rfl

/-- A string answer comes from a live text. -/
theorem get_text {b : Bytes} (h : (st.run addFloat now (.get k)).1 = .str b)
    (hc : ∀ e, st k = some e → ∃ b, e.value = .text b) :
    ∃ t, st k = some ⟨.text b, t⟩ ∧ (⟨.text b, t⟩ : Entry).alive now = true := by
  simp only [Store.run, Cmd.key] at h
  cases hl : st.lookup now k with
  | none => simp [hl, Cmd.exec] at h
  | some e =>
    obtain ⟨hk, ha⟩ := Store.lookup_some.mp hl
    obtain ⟨c, hv⟩ := hc e hk
    obtain ⟨v, t⟩ := e
    subst hv
    rw [hl] at h
    obtain rfl : c = b := by simpa [Cmd.exec] using h
    exact ⟨t, hk, ha⟩

end Store

namespace Gate

variable {g : Gate} {s : Sys} {addFloat : Option Field → Bytes → Bytes}

theorem lease_serve_other {c : Command} (hg : g.guardKey ≠ c.key) (hl : g.lockKey ≠ c.key) :
    g.lease (s.serve addFloat c).2 = g.lease s := by
  simp only [lease, Sys.serve, Store.run_other addFloat s.store s.clock c hg,
    Store.run_other addFloat s.store s.clock c hl]

theorem lease_setProc (i : Nat) (p : Proc) :
    g.lease (s.setProc i p) =
      { g.lease s with status := Function.update (g.lease s).status i (g.status p.view p.late) } := by
  simp only [lease, Sys.setProc]
  congr 1
  funext j
  by_cases hj : j = i
  · subst hj
    simp [statusOf]
  · simp [hj]

/-- A callback whose digest the gate reads the same way as before. -/
theorem lease_setProc_same {i : Nat} {p : Proc}
    (h : g.status p.view p.late = g.statusOf (s.procs i)) : g.lease (s.setProc i p) = g.lease s := by
  rw [lease_setProc, h]
  simp [lease]

theorem lease_call_same {i : Nat} {c : Command} {p : Proc} (hg : g.guardKey ≠ c.key)
    (hl : g.lockKey ≠ c.key) (hp : g.status p.view p.late = g.statusOf (s.procs i)) :
    g.lease ((s.serve addFloat c).2.setProc i p) = g.lease s := by
  have hsame : g.lease ((s.serve addFloat c).2.setProc i p) = g.lease (s.serve addFloat c).2 :=
    lease_setProc_same hp
  rw [hsame, lease_serve_other hg hl]

theorem status_idle {v : View} {l : Late} (h : g.read v = false) : g.status v l = .idle := by
  simp [status, h]

theorem status_waiting {v : View} {l : Late} (hr : g.read v = true) (ht : g.tried v = none) :
    g.status v l = .waiting (g.late l) := by
  simp [status, hr, ht]

theorem status_congr {v w : View} {l m : Late} (hr : g.read w = g.read v)
    (ht : g.tried w = g.tried v) (hl : g.late m = g.late l) : g.status w m = g.status v l := by
  simp only [status, hr, ht, hl]

/-- The clock moves on; every callback that has read the guard is late when the
lock's expiry was passed. -/
theorem lease_tick (d : Nat) (hlate : ∀ v l, g.read v = true →
    g.late (l.ticked v s.store s.clock d) = (g.late l || passes s.store s.clock d g.lockKey))
    (hcounter : g.Counter s.store) :
    Lib.Lease.Step 900000 (g.lease s) (g.lease
      { s with
        clock := s.clock + d
        procs := fun i => (s.procs i).map fun p =>
          { p with late := p.late.ticked p.view s.store s.clock d } }) := by
  have hcross : Lib.Lease.crosses s.clock d (lockOf (s.store g.lockKey)) =
      passes s.store s.clock d g.lockKey := by
    unfold passes
    cases hk : s.store g.lockKey with
    | none => rfl
    | some e =>
      obtain ⟨n, hn⟩ := hcounter e hk
      obtain ⟨v, t⟩ := e
      subst hn
      cases t <;> rfl
  have hs : Lib.Lease.Step 900000 (g.lease s) _ := .tick (g.lease s) d
  convert hs using 1
  simp only [lease, Lib.Lease.State.mk.injEq, true_and]
  funext i
  cases s.procs i with
  | none => rfl
  | some p =>
    simp only [Option.map_some, statusOf, hcross]
    unfold status
    cases hr : g.read p.view with
    | false => rfl
    | true =>
      simp only [if_true, hlate p.view p.late hr]
      cases g.tried p.view with
      | none => rfl
      | some n => by_cases hn : n = 1 <;> simp [hn, Status.ticked]

/-- What a callback finds in the lock decides whether it holds it: the first
to count up a lock that is not alive does, unless it is late, and a later count
does not as long as it is not read as 1. -/
theorem lease_incr {i : Nat} {v : View} {l : Late} {prog : Act Unit} {p : Proc}
    (hkeys : g.guardKey ≠ g.lockKey) (hcounter : g.Counter s.store)
    (hi : s.procs i = some ⟨prog, v, l⟩) (hread : g.read v = true) (htried : g.tried v = none)
    (hlate : Lib.Lease.alive s.clock (lockOf (s.store g.lockKey)) = false → g.late l = false)
    (hnarrow : ∀ n t, lockOf (s.store g.lockKey) = some (n, t) →
      Lib.Lease.alive s.clock (lockOf (s.store g.lockKey)) = true → toInt32 (n + 1) ≠ 1)
    (hpr : g.read p.view = true)
    (hpt : g.tried p.view = some (toInt32 (s.serve addFloat (.incr g.lockKey)).1.integer)) :
    Lib.Lease.Step 900000 (g.lease s)
      (g.lease ((s.serve addFloat (.incr g.lockKey)).2.setProc i p)) := by
  have hguard : (s.serve addFloat (.incr g.lockKey)).2.store g.guardKey = s.store g.guardKey :=
    Store.run_other addFloat s.store s.clock _ hkeys
  have hstatus : (g.lease s).status i = .waiting (g.late l) := by
    simp [lease, hi, statusOf, status, hread, htried]
  rw [lease_setProc]
  cases ha : Lib.Lease.alive s.clock (lockOf (s.store g.lockKey)) with
  | false =>
    rw [hlate ha] at hstatus
    obtain ⟨hr, hk⟩ := @incr_dead addFloat _ _ _ (lookup_dead hcounter ha)
    have hp : g.status p.view p.late = .holder := by
      have hone : toInt32 (s.serve addFloat (.incr g.lockKey)).1.integer = 1 := by
        simp only [Sys.serve, hr]
        decide
      simp [status, hpr, hpt, hone]
    have hs : Lib.Lease.Step 900000 (g.lease s) _ := .take (g.lease s) i hstatus ha
    convert hs using 1
    rw [hp]
    simp only [lease, hguard]
    congr 1
    simp only [Sys.serve, hk]
    rfl
  | true =>
    cases hl : lockOf (s.store g.lockKey) with
    | none => simp [hl, Lib.Lease.alive] at ha
    | some nt =>
      obtain ⟨n, t⟩ := nt
      obtain ⟨hr, hk⟩ := @incr_alive addFloat _ _ _ _ _ (lookup_alive hl ha)
      have hp : g.status p.view p.late = .lost := by
        have hne : toInt32 (s.serve addFloat (.incr g.lockKey)).1.integer ≠ 1 := by
          simp only [Sys.serve, hr]
          exact hnarrow n t hl ha
        simp [status, hpr, hpt, hne]
      have hs : Lib.Lease.Step 900000 (g.lease s) _ := .lose (g.lease s) i _ n t hstatus hl ha
      convert hs using 1
      rw [hp]
      simp only [lease, hguard]
      congr 1
      simp only [Sys.serve, hk]
      rfl

/-- Extending a lock that is not alive does nothing. -/
theorem lease_expire (hkeys : g.guardKey ≠ g.lockKey) (hcounter : g.Counter s.store) :
    g.lease (s.serve addFloat (.expire g.lockKey 900)).2 = g.lease s ∨
      Lib.Lease.Step 900000 (g.lease s) (g.lease (s.serve addFloat (.expire g.lockKey 900)).2) := by
  have hguard : (s.serve addFloat (.expire g.lockKey 900)).2.store g.guardKey =
      s.store g.guardKey := Store.run_other addFloat s.store s.clock _ hkeys
  cases ha : Lib.Lease.alive s.clock (lockOf (s.store g.lockKey)) with
  | false =>
    left
    simp only [lease, Sys.serve, expire_dead (lookup_dead hcounter ha)]
  | true =>
    right
    cases hl : lockOf (s.store g.lockKey) with
    | none => simp [hl, Lib.Lease.alive] at ha
    | some nt =>
      obtain ⟨n, t⟩ := nt
      have hk := @expire_alive addFloat _ _ _ _ _ 900 (lookup_alive hl ha)
      have hs : Lib.Lease.Step 900000 (g.lease s) _ := .extend (g.lease s) n t hl ha
      convert hs using 1
      simp only [lease, hguard]
      congr 1
      simp only [Sys.serve, hk]
      rfl

/-- The first write of the guard. -/
theorem lease_setex (hkeys : g.guardKey ≠ g.lockKey) (b : Bytes)
    (hfirst : s.store g.guardKey = none) :
    Lib.Lease.Step 900000 (g.lease s) (g.lease (s.serve addFloat (.setex g.guardKey 900 b)).2) := by
  have hlock : (s.serve addFloat (.setex g.guardKey 900 b)).2.store g.lockKey =
      s.store g.lockKey := Store.run_other addFloat s.store s.clock _ (Ne.symm hkeys)
  have hs : Lib.Lease.Step 900000 (g.lease s) _ := .write (g.lease s) (by simp [lease, hfirst])
  convert hs using 1
  simp only [lease, hlock]
  congr 1
  simp only [Sys.serve, setex_self]
  rfl

/-- A callback reads the guard, which is alive. -/
theorem lease_read {i : Nat} {e : Entry} {p : Proc} {t : Nat} (hidle : g.statusOf (s.procs i) = .idle)
    (he : s.store g.guardKey = some e) (ht : e.expires = some t) (ha : e.alive s.clock = true)
    (hp : g.status p.view p.late = .waiting false) :
    Lib.Lease.Step 900000 (g.lease s) (g.lease (s.setProc i p)) := by
  rw [lease_setProc, hp]
  refine .read (g.lease s) i t hidle (by simp [lease, he, ht]) ?_
  simpa [lease, Entry.alive, ht] using ha

/-- `μ` counts something that only the holder of the lock does, and at most once;
`flag` tells whether a callback has done it. -/
structure Once (g : Gate) (flag : View → Bool) (μ : Nat) (s : Sys) : Prop where
  nobody : (∀ i, g.statusOf (s.procs i) ≠ .holder) → μ = 0
  holder : ∀ i p, s.procs i = some p → g.status p.view p.late = .holder →
    μ ≤ 1 ∧ (flag p.view = false → μ = 0)

theorem Once.le_one {flag : View → Bool} {μ : Nat} (h : Once g flag μ s) : μ ≤ 1 := by
  by_cases hno : ∀ i, g.statusOf (s.procs i) ≠ .holder
  · simp [h.nobody hno]
  · obtain ⟨i, hi⟩ := not_forall_not.mp hno
    cases hp : s.procs i with
    | none => simp [hp, statusOf] at hi
    | some p => exact (h.holder i p hp (by simpa [hp, statusOf] using hi)).1

theorem Once.step {flag : View → Bool} {μ μ' : Nat} {t : Sys} (h : Once g flag μ s)
    (hinv : Lib.Lease.Inv 900000 (g.lease s))
    (hsim : g.lease t = g.lease s ∨ Lib.Lease.Step 900000 (g.lease s) (g.lease t))
    (hflag : ∀ i p', t.procs i = some p' → g.status p'.view p'.late = .holder →
      ∃ p, s.procs i = some p ∧ (flag p'.view = false → flag p.view = false))
    (hμ : μ' ≤ μ ∨ ∃ i p p', s.procs i = some p ∧ t.procs i = some p' ∧
      g.status p.view p.late = .holder ∧ flag p.view = false ∧ flag p'.view = true ∧
      μ' ≤ μ + 1) : Once g flag μ' t := by
  have hstays : ∀ i, g.statusOf (s.procs i) = .holder → g.statusOf (t.procs i) = .holder := by
    intro i hi
    rcases hsim with hsim | hsim
    · exact (congrFun (congrArg Lib.Lease.State.status hsim) i).trans hi
    · exact hsim.holder_stays hi
  have hnew : ∀ i, g.statusOf (t.procs i) = .holder →
      g.statusOf (s.procs i) = .holder ∨ ∀ j, g.statusOf (s.procs j) ≠ .holder := by
    intro i hi
    rcases hsim with hsim | hsim
    · exact .inl ((congrFun (congrArg Lib.Lease.State.status hsim) i).symm.trans hi)
    · exact hinv.new_holder hsim hi
  have hstatus : ∀ {u : Sys} {i p}, u.procs i = some p →
      (g.statusOf (u.procs i) = .holder ↔ g.status p.view p.late = .holder) := by
    intro u i p hp
    rw [hp]
    rfl
  rcases hμ with hμ | ⟨i, p, p', hp, hp', hhold, hf, hf', hμ⟩
  · constructor
    · intro hno
      have h0 := h.nobody fun i hi => hno i (hstays i hi)
      omega
    · intro i p' hp' hi
      obtain ⟨p, hp, hmono⟩ := hflag i p' hp' hi
      rcases hnew i ((hstatus hp').mpr hi) with hold | hno
      · obtain ⟨hle, hzero⟩ := h.holder i p hp ((hstatus hp).mp hold)
        exact ⟨by omega, fun hfl => by have := hzero (hmono hfl); omega⟩
      · have h0 := h.nobody hno
        exact ⟨by omega, fun _ => by omega⟩
  · -- the holder does it now
    have hzero := (h.holder i p hp hhold).2 hf
    have hold : g.statusOf (s.procs i) = .holder := (hstatus hp).mpr hhold
    constructor
    · exact fun hno => absurd (hstays i hold) (hno i)
    · intro j q hq hj
      rcases hnew j ((hstatus hq).mpr hj) with hjold | hno
      · obtain rfl : j = i := hinv.unique j i hjold hold
        obtain rfl : p' = q := Option.some.inj (hp'.symm.trans hq)
        exact ⟨by omega, fun hfl => by simp [hf'] at hfl⟩
      · exact absurd hold (hno i)

end Gate

end Doorhinges.Callback

import Doorhinges.Callback.Model
import Doorhinges.Lib.Machine

/-!
# Callbacks running against one store

Any number of callbacks run at once. A command is one atomic step on the store;
a command that is sent and forgotten waits in `outgoing` until the server gets
to it, in any order. Beside its program each callback carries a `View`, a digest
of its own past commands, which no program reads.
-/
namespace Doorhinges.Callback

open Lib.CString
open Lib.Redis (Cmd Reply Store Field)
open Lib.Program

/-- What a callback has learnt and done so far. -/
structure View where
  session : Option AdSession := none
  sLock : Option Int := none
  shownum : Option Int := none
  accepted : Bool := false
  recorded : Bool := false
  shown : Option Bytes := none
  cLock : Option Int := none
  clicknum : Option (Bytes × Bytes × Int) := none
  deducted : Bool := false
  masclicked : Bool := false

/-- The digest after a command and its reply. -/
def View.called (X : Externals) (v : View) (c : Command) (r : Option Reply) : View :=
  match c with
  | .get (.adsession _) =>
    { v with session := (stringReply r).bind X.parseSession }
  | .incr (.sLock _) => { v with sLock := r.map fun r => toInt32 r.integer }
  | .incr (.shownum _) => { v with shownum := r.map (·.integer) }
  | .get (.shown _) => { v with shown := r.bind (·.str?) }
  | .incr (.cLock _) => { v with cLock := r.map fun r => toInt32 r.integer }
  | .hincrby (.clicknum day) key _ => { v with clicknum := r.map fun r => (day, key, r.integer) }
  | _ => v

def View.sent (v : View) (c : Command) : View :=
  match c with
  | .setex (.shown _) _ _ => { v with recorded := true }
  | _ => v

def View.marked (v : View) (m : Mark) : View :=
  match m with
  | .accepted _ => { v with accepted := true }
  | .deductMoney _ _ => { v with deducted := true }
  | .masclick _ _ _ => { v with masclicked := true }
  | _ => v

/-- The clock has gone past the expiry of the session's show or click lock since
the callback read the record that lets it take that lock. -/
structure Late where
  sLock : Bool := false
  cLock : Bool := false

def Late.called (l : Late) (c : Command) : Late :=
  match c with
  | .get (.adsession _) => { l with sLock := false }
  | .get (.shown _) => { l with cLock := false }
  | _ => l

structure Proc where
  prog : Act Unit
  view : View
  late : Late

inductive Event where
  | ran (c : Command) (r : Reply)
  | mark (m : Mark)
  deriving DecidableEq

structure Sys where
  clock : Nat
  store : Store RedisKey
  procs : Nat → Option Proc
  outgoing : List Command
  log : List Event

/-- Keys that only callbacks and the ad request code write. -/
def RedisKey.reserved : RedisKey → Bool
  | .adsession _ | .sLock _ | .cLock _ | .shown _ | .clicknum _ => true
  | _ => false

inductive Label where
  | spawn (i : Nat) (q : Request)
  | exec (i : Nat)
  | deliver (n : Nat)
  | tick (d : Nat)
  | adbody (sessionId : Bytes) (text : Bytes)
  | admin (c : Command)

/-- The clock goes past the expiry of a key. -/
def passes (st : Store RedisKey) (clock d : Nat) (k : RedisKey) : Bool :=
  match (st k).bind (·.expires) with
  | none => false
  | some e => clock ≤ e && e < clock + d

def Late.ticked (l : Late) (v : View) (st : Store RedisKey) (clock d : Nat) : Late :=
  match v.session with
  | none => l
  | some s =>
    { sLock := l.sLock || passes st clock d (.sLock s.sessionId)
      cLock := l.cLock || passes st clock d (.cLock s.sessionId) }

section Step

variable (X : Externals) (addFloat : Option Field → Bytes → Bytes)

/-- The server runs a command now. -/
def Sys.serve (s : Sys) (c : Command) : Reply × Sys :=
  let r := s.store.run addFloat s.clock c
  (r.1, { s with store := r.2, log := s.log ++ [.ran c r.1] })

def Sys.setProc (s : Sys) (i : Nat) (p : Proc) : Sys :=
  { s with procs := fun j => if j = i then some p else s.procs j }

/-- The next action of callback `i`. -/
def Sys.exec (s : Sys) (i : Nat) : Option Sys :=
  match s.procs i with
  | none => none
  | some p =>
    match p.prog with
    | .ret _ => none
    | .crash => none
    | .call c k =>
      let r := s.serve addFloat c
      some (r.2.setProc i ⟨k (some r.1), p.view.called X c (some r.1), p.late.called c⟩)
    | .send c k =>
      some ({ s with outgoing := s.outgoing ++ [c] }.setProc i ⟨k, p.view.sent c, p.late⟩)
    | .mark m k =>
      some ({ s with log := s.log ++ [Event.mark m] }.setProc i ⟨k, p.view.marked m, p.late⟩)

/-- `adbody` is the SETEX of get_adbody: the record it stores under a session id
carries that session id. `admin` is a command of any other program. -/
def step (s : Sys) : Label → Option Sys
  | .spawn i q =>
    if (s.procs i).isSome then none else some (s.setProc i ⟨aisCallback X q, {}, {}⟩)
  | .exec i => s.exec X addFloat i
  | .deliver n =>
    (s.outgoing[n]?).map fun c =>
      ({ s with outgoing := s.outgoing.eraseIdx n }.serve addFloat c).2
  | .tick d =>
    some
      { s with
        clock := s.clock + d
        procs := fun i => (s.procs i).map fun p =>
          { p with late := p.late.ticked p.view s.store s.clock d } }
  | .adbody sessionId text =>
    if (X.parseSession text).map (·.sessionId) = some sessionId then
      some (s.serve addFloat (.setex (.adsession sessionId) 900 text)).2
    else none
  | .admin c => if c.key.reserved then none else some (s.serve addFloat c).2

/-- The steps, one constructor for each thing that can happen. -/
inductive Trans (s : Sys) : Label → Sys → Prop
  | spawn (i : Nat) (q : Request) (hi : s.procs i = none) :
      Trans s (.spawn i q) (s.setProc i ⟨aisCallback X q, {}, {}⟩)
  | call (i : Nat) (v : View) (l : Late) (c : Command) (k : Option Reply → Act Unit)
      (hi : s.procs i = some ⟨.call c k, v, l⟩) :
      Trans s (.exec i) ((s.serve addFloat c).2.setProc i
        ⟨k (some (s.serve addFloat c).1), v.called X c (some (s.serve addFloat c).1), l.called c⟩)
  | send (i : Nat) (v : View) (l : Late) (c : Command) (k : Act Unit)
      (hi : s.procs i = some ⟨.send c k, v, l⟩) :
      Trans s (.exec i) ({ s with outgoing := s.outgoing ++ [c] }.setProc i ⟨k, v.sent c, l⟩)
  | mark (i : Nat) (v : View) (l : Late) (m : Mark) (k : Act Unit)
      (hi : s.procs i = some ⟨.mark m k, v, l⟩) :
      Trans s (.exec i) ({ s with log := s.log ++ [Event.mark m] }.setProc i ⟨k, v.marked m, l⟩)
  | deliver (n : Nat) (c : Command) (hc : s.outgoing[n]? = some c) :
      Trans s (.deliver n) ({ s with outgoing := s.outgoing.eraseIdx n }.serve addFloat c).2
  | tick (d : Nat) :
      Trans s (.tick d)
        { s with
          clock := s.clock + d
          procs := fun i => (s.procs i).map fun p =>
            { p with late := p.late.ticked p.view s.store s.clock d } }
  | adbody (sid text : Bytes) (r : AdSession) (hr : X.parseSession text = some r)
      (hid : r.sessionId = sid) :
      Trans s (.adbody sid text) (s.serve addFloat (.setex (.adsession sid) 900 text)).2
  | admin (c : Command) (hc : c.key.reserved = false) :
      Trans s (.admin c) (s.serve addFloat c).2

variable {X addFloat}

theorem step_trans {s t : Sys} {l : Label} (h : step X addFloat s l = some t) :
    Trans X addFloat s l t := by
  cases l with
  | spawn i q =>
    simp only [step, Option.ite_none_left_eq_some, Option.some.injEq] at h
    obtain ⟨hi, rfl⟩ := h
    exact .spawn i q (by simpa using hi)
  | exec i =>
    simp only [step, Sys.exec] at h
    split at h
    · cases h
    · rename_i p hi
      obtain ⟨prog, v, l⟩ := p
      cases prog with
      | ret a => cases h
      | crash => cases h
      | call c k => cases h; exact .call i v l c k hi
      | send c k => cases h; exact .send i v l c k hi
      | mark m k => cases h; exact .mark i v l m k hi
  | deliver n =>
    obtain ⟨c, hc, rfl⟩ := Option.map_eq_some_iff.mp h
    exact .deliver n c hc
  | tick d => cases h; exact .tick d
  | adbody sid text =>
    simp only [step, Option.ite_none_right_eq_some, Option.some.injEq] at h
    obtain ⟨hr, rfl⟩ := h
    obtain ⟨r, hr, hid⟩ := Option.map_eq_some_iff.mp hr
    exact .adbody sid text r hr hid
  | admin c =>
    simp only [step, Option.ite_none_left_eq_some, Option.some.injEq] at h
    obtain ⟨hc, rfl⟩ := h
    exact .admin c (by simpa using hc)

end Step

/-- No callback has started and the reserved keys are unused. -/
structure Sys.Initial (s : Sys) : Prop where
  procs : ∀ i, s.procs i = none
  outgoing : s.outgoing = []
  log : s.log = []
  store : ∀ k, k.reserved = true → s.store k = none

end Doorhinges.Callback

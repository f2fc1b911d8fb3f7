import Doorhinges.Callback.Model
import Doorhinges.GetAd.Model
import Doorhinges.Lib.Machine

/-!
# Show callbacks and ad requests on one store

A callback that reaches the show frequency of an order adds the ads of the order to the
tag set of its device; an ad request leaves out what it finds there. Any number of
callbacks run at once: a command is one atomic step on the store, and a command that is
sent and forgotten waits in `outgoing` until the server gets to it, in any order. Beside
its program each callback carries a digest of its own past, which no program reads.
-/
namespace Doorhinges.ShowCap

open Lib.CString
open Lib.Redis (Cmd Reply Store Field Entry membersOf)
open Lib.Program
open Callback (RedisKey AdSession Externals Request Mark Command Act aisCallback stringReply isNil)

/-- A counted show: the number the order's counter of the day gave the device. -/
structure Count where
  order : Bytes
  day : Bytes
  device : Bytes
  number : Int

/-- What a callback has learnt and done so far about the show frequency: the session
record, the frequency of an order, the counted show, the ad list of an order, and the ids
it has sent to the tag set, in this order. -/
structure View where
  session : Option AdSession := none
  fre : Option (Bytes × Int) := none
  counted : Option Count := none
  adlist : Option (Bytes × List (Option Bytes)) := none
  adds : List Bytes := []

/-- The number in the reply to `get order:%s:showfre`. -/
def freOf : Option Reply → Int
  | none => 0
  | some r => if isNil r then 0 else atoi (r.str?.getD [])

/-- The digest after a command and its reply. -/
def View.called (X : Externals) (v : View) (c : Command) (r : Option Reply) : View :=
  match c with
  | .get (.adsession _) => { v with session := (stringReply r).bind X.parseSession }
  | .get (.orderShowfre order) => { v with fre := some (order, freOf r) }
  | .hincrby (.freOrderidShow order day) device _ =>
    { v with counted := r.map fun r => ⟨order, day, device, r.integer⟩ }
  | .smembers (.orderAdlist order) => { v with adlist := r.map fun r => (order, r.elements) }
  | _ => v

def View.sent (v : View) (c : Command) : View :=
  match c with
  | .sadd (.tagUuid _) m => { v with adds := v.adds ++ [m] }
  | _ => v

/-- A callback; `served` are its forgotten commands that the server has run, with their
replies, and `gone` the ids that it had added to the tag set of a device and that were
taken out again. -/
structure Proc where
  prog : Act Unit
  view : View
  served : List (Command × Reply)
  gone : List (Bytes × Bytes)

structure World where
  clock : Nat
  store : Store RedisKey
  procs : Nat → Option Proc
  outgoing : List (Nat × Command)

/-- `write` is a change of a key by any other program, ad requests included. `ask` is the
moment an ad request reads the tag set of its device; its other replies may be from any
time. -/
inductive Label where
  | spawn (i : Nat) (q : Request)
  | exec (i : Nat)
  | deliver (n : Nat)
  | tick (d : Nat)
  | write (k : RedisKey) (e : Option Entry)
  | ask (c : GetAd.Call)

/-- The members of the tag set of a device. -/
def World.tags (w : World) (device : Bytes) : List Bytes :=
  (membersOf (w.store.lookup w.clock (.tagUuid device))).getD []

/-- What the callback has added to tag sets. -/
def Proc.added (p : Proc) : List (Bytes × Bytes) :=
  p.served.filterMap fun s =>
    match s.1 with
    | .sadd (.tagUuid device) id => some (device, id)
    | _ => none

section Step

variable (X : Externals) (addFloat : Option Field → Bytes → Bytes)

def World.setProc (w : World) (i : Nat) (p : Proc) : World :=
  { w with procs := fun j => if j = i then some p else w.procs j }

/-- The server runs a command now. -/
def World.serve (w : World) (c : Command) : Reply × World :=
  let r := w.store.run addFloat w.clock c
  (r.1, { w with store := r.2 })

/-- The next action of callback `i`. -/
def World.exec (w : World) (i : Nat) : Option World :=
  match w.procs i with
  | none => none
  | some p =>
    match p.prog with
    | .ret _ => none
    | .crash => none
    | .call c k =>
      let r := w.serve addFloat c
      some (r.2.setProc i { p with prog := k (some r.1), view := p.view.called X c (some r.1) })
    | .send c k =>
      some ({ w with outgoing := w.outgoing ++ [(i, c)] }.setProc i
        { p with prog := k, view := p.view.sent c })
    | .mark _ k => some (w.setProc i { p with prog := k })

/-- The server runs a forgotten command. -/
def World.deliver (w : World) (n i : Nat) (c : Command) : World :=
  let r := { w with outgoing := w.outgoing.eraseIdx n }.serve addFloat c
  { r.2 with
    procs := fun j => (w.procs j).map fun p =>
      if j = i then { p with served := p.served ++ [(c, r.1)] } else p }

def World.write (w : World) (k : RedisKey) (e : Option Entry) : World :=
  { w with store := fun k' => if k' = k then e else w.store k' }

/-- The reply an ad request gets for the tag set of its device is the one of the store. -/
def World.answers (w : World) (c : GetAd.Call) : Bool :=
  c.reply (.tagUuid (c.log.uuid.getD [])) =
    some (w.serve addFloat (.smembers (.tagUuid (c.log.uuid.getD [])))).1

def World.act (w : World) : Label → Option World
  | .spawn i q =>
    if (w.procs i).isSome then none else some (w.setProc i ⟨aisCallback X q, {}, [], []⟩)
  | .exec i => w.exec X addFloat i
  | .deliver n => (w.outgoing[n]?).map fun s => w.deliver addFloat n s.1 s.2
  | .tick d => some { w with clock := w.clock + d }
  | .write k e => some (w.write k e)
  | .ask c => if w.answers addFloat c then some w else none

instance : LawfulBEq Bytes := inferInstance

/-- Each callback notes what was in a tag set in `w` and no longer is. -/
def World.watch (w w' : World) : World :=
  { w' with
    procs := fun i => (w'.procs i).map fun p =>
      { p with
        gone := p.gone ++ p.added.filter fun a => a.2 ∈ w.tags a.1 && a.2 ∉ w'.tags a.1 } }

def step (w : World) (l : Label) : Option World := (w.act X addFloat l).map w.watch

end Step

/-- No callback has started. -/
structure World.Initial (w : World) : Prop where
  procs : ∀ i, w.procs i = none
  outgoing : w.outgoing = []

/-- The callback has counted the show that reaches the show frequency of the order. -/
def View.Reached (v : View) (order device : Bytes) : Prop :=
  ∃ k f, v.counted = some k ∧ k.order = order ∧ k.device = device ∧ v.fre = some (order, f) ∧
    f ≤ k.number

/-- The callback is about to read an ad list or to add to a tag set, or has broken down. -/
def Proc.busy (p : Proc) : Bool :=
  match p.prog with
  | .crash => true
  | .call (.smembers (.orderAdlist _)) _ => true
  | .send (.sadd (.tagUuid _) _) _ => true
  | _ => false

/-- Callback `i` has nothing more to add, and the server has run what it has sent. -/
structure Finished (w : World) (i : Nat) (p : Proc) : Prop where
  proc : w.procs i = some p
  idle : p.busy = false
  delivered : ∀ c, (i, c) ∉ w.outgoing
  successful : ∀ s ∈ p.served, s.2 ≠ .error

end Doorhinges.ShowCap

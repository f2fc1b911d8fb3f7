import Doorhinges.Messages.Model
import Doorhinges.Lib.Threads

/-!
# What a message request does in which order

A request draws an id from its counter, measures the packet that carries the id,
and stores the packet under that id unless it is too long. The digest remembers
the id that is drawn and neither stored nor rejected.
-/
namespace Doorhinges.Messages

open Lib.CString
open Lib.Program
open Lib.Machine
open Lib.Threads

/-- What became of a message request. -/
inductive Fate where
  | stored
  | tooLong
  deriving DecidableEq

structure View where
  building : Option Packet
  drawn : Option Nat
  fate : Option Fate

def View.fresh : View := ⟨none, none, none⟩

variable (X : Externals)

def tooLong (p : Packet) (msgid tNow : Nat) : Prop :=
  X.maxMsgLen < (X.serialize p msgid tNow).length

instance (p : Packet) (msgid tNow : Nat) : Decidable (tooLong X p msgid tNow) :=
  inferInstanceAs (Decidable (_ < _))

/-- The text of a packet that passed the length check. -/
def Stored (p : Packet) (msgid : Nat) (text : Bytes) : Prop :=
  ∃ tNow, text = X.base64 (X.serialize p msgid tNow) ∧ ¬tooLong X p msgid tNow

def mayCall (v : View) : Cmd → Prop
  | .incr c => v.drawn = none ∧ ∃ p, v.building = some p ∧ p.counter = c
  | .evalRead _ _ => True
  | .time => ∃ p msgid, v.building = some p ∧ v.drawn = some msgid
  | .hsetMsg c msgid text => v.drawn = some msgid ∧
      ∃ p, v.building = some p ∧ p.counter = c ∧ Stored X p msgid text
  | .push => v.drawn = none

def called (v : View) (c : Cmd) (r : Reply) : View :=
  match c with
  | .incr _ => if r.failed then v else { v with drawn := some (asMsgid r.number) }
  | .time =>
    match v.building, v.drawn with
    | some p, some msgid =>
      if tooLong X p msgid r.number then { v with drawn := none, fate := some .tooLong } else v
    | _, _ => v
  | .hsetMsg _ _ _ =>
    if r.failed then { v with drawn := none } else { v with drawn := none, fate := some .stored }
  | _ => v

def rules : Discipline Cmd Reply Mark View where
  mayCall := mayCall X
  called := called X
  maySend _ _ := True
  sent v _ := v
  mayMark v _ := v.drawn = none
  marked v e :=
    match e with
    | .building p => { v with building := some p }

/-- At its end a request holds no id, and its answer tells what became of the message. -/
structure Ended (a : Answer) (v : View) : Prop where
  drawn : v.drawn = none
  stored : v.fate = some .stored → a = ⟨0, ""⟩
  tooLong : v.fate = some .tooLong ↔ a = ⟨2, "msg too long"⟩

abbrev MsgSys := Sys Store Cmd Reply Mark View Answer

def msgStep : MsgSys → Label Request Reply → Option MsgSys :=
  Lib.Threads.step serve (rules X) (program X) View.fresh

section Keeps

variable {X}

theorem setMsgID_keeps {c : Counter} {p : Packet} (hp : p.counter = c)
    {Q : Int × Nat → View → Prop} (hfail : Q (-1, 0) ⟨some p, none, none⟩)
    (hdrawn : ∀ msgid, Q (0, msgid) ⟨some p, some msgid, none⟩) :
    Keeps (rules X) (setMsgID c) ⟨some p, none, none⟩ Q := by
  unfold setMsgID
  rw [keeps_bind, keeps_call]
  refine ⟨⟨rfl, p, rfl, hp⟩, fun r => ?_⟩
  show Keeps (rules X) _ (called X _ (.incr c) r) Q
  rw [keeps_ite]
  refine ⟨fun hr => ?_, fun hr => ?_⟩
  · rw [called, if_pos hr]
    exact hfail
  · rw [called, if_neg hr]
    exact hdrawn _

theorem setReadID_keeps (k : ReadKey) (msgid : Nat) {v : View} {Q : Int → View → Prop}
    (hQ : ∀ a, Q a v) : Keeps (rules X) (setReadID k msgid) v Q := by
  unfold setReadID
  rw [keeps_bind, keeps_call]
  refine ⟨trivial, fun r => ?_⟩
  show Keeps (rules X) _ v Q
  rw [keeps_ite, keeps_ite]
  exact ⟨fun _ => hQ _, fun _ => ⟨fun _ => hQ _, fun _ => hQ _⟩⟩

theorem setMsg_keeps {p : Packet} {msgid : Nat} {text : Bytes} (hx : Stored X p msgid text)
    {Q : Int → View → Prop} (hfail : Q (-1) ⟨some p, none, none⟩)
    (hdone : Q 0 ⟨some p, none, some .stored⟩) :
    Keeps (rules X) (setMsg p.counter msgid text) ⟨some p, some msgid, none⟩ Q := by
  unfold setMsg
  rw [keeps_bind, keeps_call]
  refine ⟨⟨rfl, p, rfl, rfl, hx⟩, fun r => ?_⟩
  show Keeps (rules X) _ (called X _ (.hsetMsg p.counter msgid text) r) Q
  rw [keeps_ite]
  refine ⟨fun hr => ?_, fun hr => ?_⟩
  · rw [called, if_pos hr]
    exact hfail
  · rw [called, if_neg hr]
    exact hdone

theorem storeMsg_keeps (p : Packet) (msgid : Nat) :
    Keeps (rules X) (storeMsg X p msgid) ⟨some p, some msgid, none⟩ Ended := by
  unfold storeMsg
  rw [keeps_bind, keeps_call]
  refine ⟨⟨p, msgid, rfl, rfl⟩, fun tNow => ?_⟩
  dsimp only
  rw [keeps_ite]
  refine ⟨fun hlong => ?_, fun hshort => ?_⟩
  · have hlong : tooLong X p msgid tNow.number := hlong
    have hview : (rules X).called ⟨some p, some msgid, none⟩ .time tNow =
        ⟨some p, none, some .tooLong⟩ := if_pos hlong
    rw [hview]
    exact ⟨rfl, by simp, by simp⟩
  · have hshort : ¬tooLong X p msgid tNow.number := hshort
    have hview : (rules X).called ⟨some p, some msgid, none⟩ .time tNow =
        ⟨some p, some msgid, none⟩ := if_neg hshort
    rw [hview, keeps_bind]
    refine setMsg_keeps ⟨tNow.number, rfl, hshort⟩ ?_ ?_
    · rw [if_pos (by decide)]
      exact ⟨rfl, by simp, by simp⟩
    · rw [if_neg (by decide), keeps_bind, keeps_call]
      exact ⟨rfl, fun _ => ⟨rfl, fun _ => rfl, by simp [rules, called]⟩⟩

theorem process_keeps (uin : Nat) (body : Body) :
    Keeps (rules X) (process X uin body) View.fresh Ended := by
  have hack (k : ReadKey) (msgid : Nat) : Keeps (rules X) (processAck k msgid) View.fresh Ended := by
    unfold processAck
    rw [keeps_bind]
    refine setReadID_keeps k msgid fun iRet => ?_
    rw [keeps_ite]
    exact ⟨fun _ => ⟨rfl, by simp [View.fresh], by simp [View.fresh]⟩,
      fun _ => ⟨rfl, by simp [View.fresh], by simp [View.fresh]⟩⟩
  have hfail (p : Packet) : Ended ⟨1, "msgid error"⟩ ⟨some p, none, none⟩ :=
    ⟨rfl, by simp, by simp⟩
  cases body with
  | upMsg touin msg =>
    show Keeps (rules X) (processUpMsg X uin touin msg) View.fresh Ended
    unfold processUpMsg
    rw [keeps_bind, keeps_mark]
    refine ⟨rfl, ?_⟩
    rw [keeps_bind]
    refine setMsgID_keeps rfl (hfail _) fun msgid => ?_
    exact storeMsg_keeps _ msgid
  | upGrpMsg grpid msg =>
    show Keeps (rules X) (processUpGrpMsg X uin grpid msg) View.fresh Ended
    unfold processUpGrpMsg
    rw [keeps_bind, keeps_mark]
    refine ⟨rfl, ?_⟩
    rw [keeps_bind]
    refine setMsgID_keeps rfl (hfail _) fun msgid => ?_
    rw [if_neg (by simp), keeps_bind]
    exact setReadID_keeps _ _ fun _ => storeMsg_keeps _ msgid
  | pushMsgAck msgid => exact hack _ _
  | pushGrpMsgAck grpid msgid => exact hack _ _
  | noticeAck noticeid => exact hack _ _

theorem program_keeps (q : Request) : Keeps (rules X) (program X q) View.fresh Ended := by
  have hfail (message : String) : Ended ⟨1, message⟩ View.fresh :=
    ⟨rfl, by simp [View.fresh], by simp [View.fresh]⟩
  unfold program
  rw [keeps_ite, keeps_ite, keeps_ite]
  refine ⟨fun _ => hfail _, fun _ => ⟨fun _ => hfail _, fun _ => ⟨fun _ => hfail _, fun _ => ?_⟩⟩⟩
  cases q.body with
  | none => exact hfail _
  | some body => exact process_keeps _ body

end Keeps

end Doorhinges.Messages

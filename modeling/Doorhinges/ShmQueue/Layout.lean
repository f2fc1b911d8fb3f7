import Doorhinges.ShmQueue.Area
import Mathlib.Tactic.Linarith

/-!
# The layout of the queue

The messages lie one behind the other from the tail to the head, or from the tail to a pad and
from the start of the message area to the head.
-/
namespace Doorhinges.ShmQueue

open Lib.CString
open Lib.Program
open Lib.Handled
open Lib.Memory

/-- A message that `check_mb` accepts, with as many bytes of data as it says. -/
structure Message where
  block : ShmBlock
  accepted : checkMb block.head = true
  fits : block.head.Fits
  whole : (block.data.length : Int) = block.head.length - MB_HEAD_LENGTH

namespace Message

variable (mb : Message)

def length : Int := mb.block.head.length

theorem length_ge : 12 ≤ mb.length := by
  have h := mb.accepted
  simp only [checkMb, Bool.and_eq_true, Bool.not_eq_true', Bool.or_eq_false_iff] at h
  exact Int.not_lt.1 (of_decide_eq_false h.1.2)

end Message

/-- The bytes of the messages. -/
def total (q : List ShmBlock) : Int := (q.map fun mb => mb.head.length).sum

@[simp] theorem total_nil : total [] = 0 := rfl

@[simp] theorem total_cons (mb : ShmBlock) (q : List ShmBlock) :
    total (mb :: q) = mb.head.length + total q := List.sum_cons

@[simp] theorem total_append (q₁ q₂ : List ShmBlock) : total (q₁ ++ q₂) = total q₁ + total q₂ := by
  rw [total, List.map_append, List.sum_append]
  rfl

/-- The message is in the memory from `pos` on. -/
def MessageAt (m : Mem) (pos : Int) (mb : Message) : Prop :=
  headAt m pos = mb.block.head ∧ read m (pos + 12) mb.block.data.length = mb.block.data

/-- The messages are in the memory one behind the other, from `pos` to `stop`. -/
def Stored (m : Mem) : Int → List Message → Int → Prop
  | pos, [], stop => pos = stop
  | pos, mb :: q, stop => MessageAt m pos mb ∧ Stored m (pos + mb.length) q stop

section Stored

variable {m : Mem} {pos stop : Int} {q : List Message}

theorem total_nonneg (q : List Message) : 0 ≤ total (q.map Message.block) := by
  induction q with
  | nil => exact le_rfl
  | cons mb q ih =>
    have hlen : 12 ≤ mb.block.head.length := mb.length_ge
    rw [List.map_cons, total_cons]
    omega

theorem Stored.stop_eq (h : Stored m pos q stop) : stop = pos + total (q.map Message.block) := by
  induction q generalizing pos with
  | nil =>
    obtain rfl : pos = stop := h
    simp
  | cons mb q ih => rw [ih h.2, List.map_cons, total_cons, Message.length, Int.add_assoc]

theorem Stored.le (h : Stored m pos q stop) : pos ≤ stop := by
  have := total_nonneg q
  have := h.stop_eq
  omega

theorem Stored.snoc (h : Stored m pos q stop) {mb : Message} (hmb : MessageAt m stop mb) :
    Stored m pos (q ++ [mb]) (stop + mb.length) := by
  induction q generalizing pos with
  | nil =>
    obtain rfl : pos = stop := h
    exact ⟨hmb, rfl⟩
  | cons mb' q ih => exact ⟨h.1, ih h.2⟩

theorem messageAt_write {bs : Bytes} {c : Int} {mb : Message} (h : MessageAt m pos mb)
    (hc : pos + mb.length ≤ c ∨ c + bs.length ≤ pos) : MessageAt (write m c bs) pos mb := by
  have hwhole := mb.whole
  have hlen := mb.length_ge
  rw [Message.length] at hc hlen
  rw [MB_HEAD_LENGTH] at hwhole
  refine ⟨?_, ?_⟩
  · rw [headAt_write_apart (by omega)]
    exact h.1
  · rw [read_write_apart (by omega)]
    exact h.2

/-- A write beside the messages leaves them alone. -/
theorem Stored.write {bs : Bytes} {c : Int} (h : Stored m pos q stop)
    (hc : stop ≤ c ∨ c + bs.length ≤ pos) : Stored (write m c bs) pos q stop := by
  induction q generalizing pos with
  | nil => exact h
  | cons mb q ih =>
    have hle := Stored.le h.2
    have hlen := mb.length_ge
    exact ⟨messageAt_write h.1 (by omega), ih h.2 (by omega)⟩

/-- A message is found where its head and its data have been written. -/
theorem messageAt_written (mb : Message) :
    MessageAt (Lib.Memory.write (Lib.Memory.write m pos (encodeHead mb.block.head)) (pos + 12) mb.block.data)
      pos mb := by
  refine ⟨?_, read_write_self⟩
  rw [headAt_write_apart (by omega), headAt_write_self mb.fits]

end Stored

/-- Where the waiting messages are, the oldest first. -/
inductive Layout (shmLen : Int) (a : Area) (q : List Message) : Prop
  | flat (htail : a.tail = 8 ∨ 20 ≤ a.tail) (hq : Stored a.mem a.tail q a.head)
      (hend : a.head ≤ shmLen)
  | wrapped (q₁ q₂ : List Message) (stop : Int) (hsplit : q = q₁ ++ q₂) (hhead : 8 ≤ a.head)
      (hlt : a.head < a.tail) (htail : 20 ≤ a.tail) (hq₁ : Stored a.mem a.tail q₁ stop)
      (hstop : stop ≤ shmLen)
      (hpad : shmLen - stop < 12 ∨ (headAt a.mem stop).type = PAD_REQUEST)
      (hq₂ : Stored a.mem 8 q₂ a.head)

/-- The oldest message, if there is one, is at the tail, and the others are laid out behind it. -/
inductive Ready (shmLen : Int) (a : Area) : List Message → Prop
  | none (hempty : a.tail = a.head) (hrest : Layout shmLen a []) : Ready shmLen a []
  | some (mb : Message) (q : List Message) (hmb : MessageAt a.mem a.tail mb)
      (hne : a.tail ≠ a.head) (hhead : a.tail < a.head → a.tail + mb.length ≤ a.head)
      (hend : a.head < a.tail → a.tail + mb.length ≤ shmLen)
      (hrest : Layout shmLen { a with tail := a.tail + mb.length } q) : Ready shmLen a (mb :: q)

/-- Some messages lie behind the tail, and the oldest is of the type of a pad. -/
def Skips (a : Area) (q : List ShmBlock) : Prop :=
  a.head < a.tail ∧ a.head - QUEUE_HEADER < total q ∧
    (q.head?.map fun mb => mb.head.type) = some PAD_REQUEST

instance (a : Area) (q : List ShmBlock) : Decidable (Skips a q) := inferInstanceAs (Decidable (_ ∧ _))

section Tail

variable {shmLen : Int} {a : Area} {q : List Message}

theorem ready_of_flat (htail : a.tail = 8 ∨ 20 ≤ a.tail) (hq : Stored a.mem a.tail q a.head)
    (hend : a.head ≤ shmLen) : Ready shmLen a q := by
  cases q with
  | nil => exact .none hq (.flat htail hq hend)
  | cons mb q =>
    obtain ⟨hmb, hq⟩ := hq
    have hle := hq.le
    have hlen := mb.length_ge
    refine .some mb q hmb (by omega) (fun _ => hle) (fun _ => by omega) ?_
    exact .flat (.inr (show 20 ≤ a.tail + mb.length by omega)) hq hend

/-- Where the tail does not pass a message over, it is moved to the oldest one. -/
theorem Layout.ready (h : Layout shmLen a q) (hskip : ¬ Skips a (q.map Message.block)) :
    Ready shmLen (alignedTail shmLen a) q := by
  cases h with
  | flat htail hq hend =>
    have hle := hq.le
    rw [alignedTail, if_neg (by omega)]
    exact ready_of_flat htail hq hend
  | wrapped q₁ q₂ stop hsplit hhead hlt htail hq₁ hstop hpad hq₂ =>
    subst hsplit
    have hle := hq₁.le
    cases q₁ with
    | nil =>
      obtain rfl : a.tail = stop := hq₁
      have hat : atPad shmLen a = true := by
        rw [atPad, Bool.or_eq_true, decide_eq_true_eq, decide_eq_true_eq]
        exact hpad
      rw [alignedTail, if_pos ⟨hat, hlt⟩]
      exact ready_of_flat (.inl rfl) hq₂ (show a.head ≤ shmLen by omega)
    | cons mb q₁ =>
      obtain ⟨hmb, hq₁⟩ := hq₁
      have hle₁ := hq₁.le
      have hlen := mb.length_ge
      have htype : mb.block.head.type ≠ PAD_REQUEST := by
        intro htype
        apply hskip
        have htotal := hq₂.stop_eq
        have hnonneg := total_nonneg q₁
        refine ⟨hlt, ?_, congrArg some htype⟩
        rw [Message.length] at hlen
        rw [List.map_append, total_append, List.map_cons, total_cons, QUEUE_HEADER]
        omega
      have hat : atPad shmLen a = false := by
        have hroom : ¬ shmLen - a.tail < MB_HEAD_LENGTH := by
          rw [MB_HEAD_LENGTH]
          omega
        rw [atPad, hmb.1, decide_eq_false hroom, decide_eq_false htype]
        rfl
      rw [alignedTail, if_neg (by simp [hat])]
      refine .some mb (q₁ ++ q₂) hmb (by omega) (fun _ => by omega) (fun _ => by omega) ?_
      exact .wrapped q₁ q₂ stop rfl hhead (show a.head < a.tail + mb.length by omega)
        (show 20 ≤ a.tail + mb.length by omega) hq₁ hstop hpad hq₂

/-- The message at the tail passes the checks of `pop` and is copied as it is. -/
theorem exec_takeTail {mb : Message} (hmb : MessageAt a.mem a.tail mb)
    (hhead : a.tail < a.head → a.tail + mb.length ≤ a.head)
    (hend : a.head < a.tail → a.tail + mb.length ≤ shmLen) :
    exec access (takeTail shmLen) a =
      some (mb.block, { a with tail := a.tail + mb.length }) := by
  have hread : exec access (readHead a.tail) a = some (mb.block.head, a) :=
    congrArg (fun b => some (b, a)) hmb.1
  have hdata : exec access (call (.readData (a.tail + MB_HEAD_LENGTH)
      (mb.block.head.length - MB_HEAD_LENGTH)) : Act Reply) a = some (.data mb.block.data, a) := by
    rw [← mb.whole]
    exact congrArg (fun data => some (Reply.data data, a)) hmb.2
  rw [takeTail, exec_bind_of exec_get_tail, exec_bind_of hread, mb.accepted]
  rw [if_neg (by decide), exec_bind_of exec_get_head, exec_bind_of exec_get_tail,
    if_neg (by rw [Message.length] at hhead; omega), if_neg (by rw [Message.length] at hend; omega)]
  rw [exec_bind_of hdata]
  rfl

end Tail

/-- Some messages lie in front of the head, some may lie behind the tail, and a message of this
length has no place between the head and the end. -/
def Overruns (shmLen length : Int) (a : Area) : Prop :=
  QUEUE_HEADER < a.head ∧ a.head < a.tail ∧ shmLen - a.head < length

instance (shmLen length : Int) (a : Area) : Decidable (Overruns shmLen length a) :=
  inferInstanceAs (Decidable (_ ∧ _))

section Head

variable {shmLen : Int} {a : Area} {q : List Message}

theorem headAt_write_pad {m : Mem} {pos surplus : Int} :
    (headAt (write m pos (encodeHead ⟨surplus, 0, PAD_REQUEST⟩)) pos).type = PAD_REQUEST := by
  have hread : read (write m pos (encodeHead ⟨surplus, 0, PAD_REQUEST⟩)) pos 12 =
      encodeHead ⟨surplus, 0, PAD_REQUEST⟩ := read_write_self
  have htype : ((encodeHead ⟨surplus, 0, PAD_REQUEST⟩).drop 8).take 4 = bytes32 PAD_REQUEST := rfl
  have hfit : Int32 PAD_REQUEST := by decide
  rw [headAt, hread, decodeHead, htype, int32_bytes32 hfit]

theorem alignedHead_of_room {length : Int} (hlen : 12 ≤ length) (h : a.head + length ≤ shmLen) :
    alignedHead shmLen length a = (0, a) := by
  rw [alignedHead, if_neg (by omega), if_neg (by rw [MB_HEAD_LENGTH]; omega), if_neg (by omega)]

/-- The queue with its head at the start is laid out as before, behind a pad or too close to the
end for one. -/
theorem Layout.alignedHead_flat {length : Int} (htail : 20 ≤ a.tail)
    (hq : Stored a.mem a.tail q a.head) (hend : a.head ≤ shmLen) (h : shmLen - a.head < length) :
    ∃ b, alignedHead shmLen length a = (0, b) ∧ Layout shmLen b q ∧ b.head = 8 ∧
      b.tail = a.tail := by
  rw [alignedHead, if_neg (by rw [QUEUE_HEADER]; omega)]
  have hlt : (8 : Int) < a.tail := by omega
  by_cases hshort : shmLen - a.head < MB_HEAD_LENGTH
  · rw [if_pos hshort]
    exact ⟨_, rfl, .wrapped q [] a.head (List.append_nil q).symm le_rfl hlt htail hq hend
      (.inl hshort) rfl, rfl, rfl⟩
  · rw [if_neg hshort, if_pos h]
    exact ⟨_, rfl, .wrapped q [] a.head (List.append_nil q).symm le_rfl hlt htail
      (hq.write (.inl le_rfl)) hend (.inr headAt_write_pad) rfl, rfl, rfl⟩

theorem tooLittle_eq_false {length : Int} :
    tooLittle length a = false ↔ a.tail ≤ a.head ∨ a.head + length < a.tail := by
  rw [tooLittle, Bool.and_eq_false_iff, decide_eq_false_iff_not, decide_eq_false_iff_not]
  omega

/-- With the head at the start the pad lies between the head and the tail. -/
theorem Layout.alignedHead_start {length : Int} (h : Layout shmLen a q) (hhead : a.head = 8)
    (hlt : a.head < a.tail) (hlong : shmLen - a.head < length) :
    ∃ b, alignedHead shmLen length a = (0, b) ∧ Layout shmLen b q ∧
      tooLittle length b = true := by
  cases h with
  | flat htail hq hend =>
    have := hq.le
    omega
  | wrapped q₁ q₂ stop hsplit _ _ htail hq₁ hstop hpad hq₂ =>
    have hle := hq₁.le
    have hcode : (encodeHead ⟨shmLen - a.head, 0, PAD_REQUEST⟩).length = 12 := rfl
    rw [alignedHead, if_neg (by rw [QUEUE_HEADER]; omega), if_neg (by rw [MB_HEAD_LENGTH]; omega),
      if_pos hlong]
    refine ⟨_, rfl, ?_, ?_⟩
    · rw [hhead] at hq₂
      refine .wrapped q₁ q₂ stop hsplit le_rfl (show (8 : Int) < a.tail by omega) htail
        (hq₁.write (.inr ?_)) hstop ?_ (hq₂.write (.inl ?_))
      · rw [hcode]
        omega
      · refine hpad.imp_right fun hpad => ?_
        rw [headAt_write_apart (.inr (by rw [hcode]; omega))]
        exact hpad
      · exact hhead.ge
    · refine Bool.eq_true_of_not_eq_false fun hfalse => ?_
      have h := tooLittle_eq_false.1 hfalse
      change a.tail ≤ 8 ∨ 8 + length < a.tail at h
      omega

/-- The messages are laid out as before; where a message has room enough behind the tail, it has
room enough in front of the end. -/
theorem Layout.alignedHead (h : Layout shmLen a q) {mb : Message}
    (hover : ¬ Overruns shmLen mb.length a) :
    ∃ r b, alignedHead shmLen mb.length a = (r, b) ∧ Layout shmLen b q ∧
      (r ≠ -1 → tooLittle mb.length b = false → b.head + mb.length ≤ shmLen) := by
  by_cases hroom : a.head + mb.length ≤ shmLen
  · exact ⟨0, a, alignedHead_of_room mb.length_ge hroom, h, fun _ _ => hroom⟩
  · have hlong : shmLen - a.head < mb.length := by omega
    cases h with
    | flat htail hq hend =>
      have hle := hq.le
      rcases htail with htail | htail
      · refine ⟨-1, a, ?_, .flat (.inl htail) hq hend, fun hne => absurd rfl hne⟩
        rw [ShmQueue.alignedHead, if_pos ⟨by omega, htail⟩]
      · obtain ⟨b, hb, hlay, hhead, htail'⟩ :=
          alignedHead_flat htail hq hend hlong
        refine ⟨0, b, hb, hlay, fun _ hlittle => ?_⟩
        have := tooLittle_eq_false.1 hlittle
        omega
    | wrapped q₁ q₂ stop hsplit hhead hlt htail hq₁ hstop hpad hq₂ =>
      have hstart : a.head = 8 := by
        rw [Overruns, QUEUE_HEADER] at hover
        omega
      have hlay : Layout shmLen a q :=
        .wrapped q₁ q₂ stop hsplit hhead hlt htail hq₁ hstop hpad hq₂
      obtain ⟨b, hb, hlay', hlittle⟩ := hlay.alignedHead_start hstart hlt hlong
      refine ⟨0, b, hb, hlay', fun _ hfalse => ?_⟩
      rw [hlittle] at hfalse
      cases hfalse

/-- The message is the newest one in the layout. -/
theorem Layout.filled (h : Layout shmLen a q) {mb : Message}
    (hlittle : tooLittle mb.length a = false) (hroom : a.head + mb.length ≤ shmLen) :
    Layout shmLen (filled mb.block a) (q ++ [mb]) := by
  have hlen := mb.length_ge
  have hwhole : (mb.block.data.length : Int) = mb.length - 12 := mb.whole
  have hcode : (encodeHead mb.block.head).length = 12 := rfl
  have hmb : MessageAt (ShmQueue.filled mb.block a).mem a.head mb := messageAt_written mb
  cases h with
  | flat htail hq hend =>
    have hq' : Stored (ShmQueue.filled mb.block a).mem a.tail q a.head :=
      (hq.write (.inl le_rfl)).write (.inl (by rw [MB_HEAD_LENGTH]; omega))
    exact .flat htail (hq'.snoc hmb) hroom
  | wrapped q₁ q₂ stop hsplit hhead hlt htail hq₁ hstop hpad hq₂ =>
    have hle := hq₁.le
    have hfar : a.head + mb.length < a.tail := by
      have := tooLittle_eq_false.1 hlittle
      omega
    refine .wrapped q₁ (q₂ ++ [mb]) stop ?_ (show 8 ≤ a.head + mb.length by omega) hfar htail
      ((hq₁.write (.inr ?_)).write (.inr ?_)) hstop ?_ (Stored.snoc ?_ hmb)
    · rw [hsplit, List.append_assoc]
    · rw [hcode]
      omega
    · rw [MB_HEAD_LENGTH]
      omega
    · refine hpad.imp_right fun hpad => ?_
      change (headAt (write (write a.mem _ _) _ _) stop).type = _
      rw [headAt_write_apart (.inr (by rw [MB_HEAD_LENGTH]; omega)),
        headAt_write_apart (.inr (by rw [hcode]; omega))]
      exact hpad
    · exact (hq₂.write (.inl le_rfl)).write (.inl (by rw [MB_HEAD_LENGTH]; omega))

end Head

end Doorhinges.ShmQueue

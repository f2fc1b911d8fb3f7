import Doorhinges.ShmQueue.Model
import Doorhinges.Lib.Handled
import Doorhinges.Lib.Memory

/-!
# One process on the queue

What the programs do when nobody else is at the queue: each access finds the header and the
message area as they are. The functions of the queue are run to their end, one after the other.
-/
namespace Doorhinges.ShmQueue

open Lib.CString
open Lib.Program
open Lib.Handled
open Lib.Memory

/-- The header of the queue and the memory. -/
structure Area where
  head : Int
  tail : Int
  mem : Mem

/-- The twelve bytes in front of the data. -/
def encodeHead (b : Head) : Bytes := bytes32 b.length ++ bytes32 b.id ++ bytes32 b.type

def decodeHead (bs : Bytes) : Head :=
  ⟨int32 (bs.take 4), int32 ((bs.drop 4).take 4), int32 ((bs.drop 8).take 4)⟩

def headAt (m : Mem) (pos : Int) : Head := decodeHead (read m pos 12)

/-- The operations on the semaphore succeed. -/
def access (a : Area) : Cmd → Reply × Area
  | .get .head => (.num a.head, a)
  | .get .tail => (.num a.tail, a)
  | .set .head n => (.done, { a with head := n })
  | .set .tail n => (.done, { a with tail := n })
  | .readHead pos => (.head (headAt a.mem pos), a)
  | .writeHead pos b => (.done, { a with mem := write a.mem pos (encodeHead b) })
  | .readData pos n => (.data (read a.mem pos n.toNat), a)
  | .writeData pos data => (.done, { a with mem := write a.mem pos data })
  | .acquire | .release | .exit | .nanosleep => (.done, a)

section Heads

variable {m : Mem} {pos : Int} {b : Head}

/-- The fields fit their type. -/
def Head.Fits (b : Head) : Prop := Int32 b.length ∧ Int32 b.id ∧ Int32 b.type

instance (b : Head) : Decidable b.Fits := inferInstanceAs (Decidable (_ ∧ _))

theorem decodeHead_encodeHead (h : b.Fits) : decodeHead (encodeHead b) = b := by
  obtain ⟨hlength, hid, htype⟩ := h
  have htake : (encodeHead b).take 4 = bytes32 b.length := rfl
  have hmid : ((encodeHead b).drop 4).take 4 = bytes32 b.id := rfl
  have hdrop : ((encodeHead b).drop 8).take 4 = bytes32 b.type := rfl
  rw [decodeHead, htake, hmid, hdrop, int32_bytes32 hlength, int32_bytes32 hid,
    int32_bytes32 htype]

theorem headAt_write_self (h : b.Fits) : headAt (write m pos (encodeHead b)) pos = b := by
  rw [headAt, show 12 = (encodeHead b).length from rfl, read_write_self, decodeHead_encodeHead h]

theorem headAt_write_apart {bs : Bytes} {c : Int} (h : pos + 12 ≤ c ∨ c + bs.length ≤ pos) :
    headAt (write m c bs) pos = headAt m pos := by
  rw [headAt, headAt, read_write_apart h]

end Heads

section Align

variable (shmLen : Int)

/-- The tail is at a pad, or too little is left for a message. -/
def atPad (a : Area) : Bool :=
  shmLen - a.tail < MB_HEAD_LENGTH || (headAt a.mem a.tail).type = PAD_REQUEST

def alignedTail (a : Area) : Area :=
  if atPad shmLen a = true ∧ a.head < a.tail then { a with tail := QUEUE_HEADER } else a

def alignedHead (length : Int) (a : Area) : Int × Area :=
  if shmLen - a.head < length ∧ a.tail = QUEUE_HEADER then (-1, a)
  else if shmLen - a.head < MB_HEAD_LENGTH then (0, { a with head := QUEUE_HEADER })
  else if shmLen - a.head < length then
    (0, { a with
      head := QUEUE_HEADER
      mem := write a.mem a.head (encodeHead ⟨shmLen - a.head, 0, PAD_REQUEST⟩) })
  else (0, a)

def tooLittle (length : Int) (a : Area) : Bool :=
  a.tail - a.head > 0 && a.tail - a.head < length + 1

/-- The message is behind the old head. -/
def filled (mb : ShmBlock) (a : Area) : Area where
  head := a.head + mb.head.length
  tail := a.tail
  mem := write (write a.mem a.head (encodeHead mb.head)) (a.head + MB_HEAD_LENGTH) mb.data

end Align

section Exec

variable {shmLen : Int} {a : Area}

@[simp] theorem exec_get_head : exec access (get .head) a = some (a.head, a) := rfl

@[simp] theorem exec_get_tail : exec access (get .tail) a = some (a.tail, a) := rfl

@[simp] theorem exec_set_head (n : Int) :
    exec access (set .head n) a = some ((), { a with head := n }) := rfl

@[simp] theorem exec_set_tail (n : Int) :
    exec access (set .tail n) a = some ((), { a with tail := n }) := rfl

@[simp] theorem exec_readHead (pos : Int) :
    exec access (readHead pos) a = some (headAt a.mem pos, a) := rfl

@[simp] theorem exec_writeHead (pos : Int) (b : Head) :
    exec access (writeHead pos b) a =
      some ((), { a with mem := write a.mem pos (encodeHead b) }) := rfl

@[simp] theorem exec_release : exec access release a = some ((), a) := rfl

@[simp] theorem exec_acquire : exec access acquire a = some (0, a) := rfl

theorem exec_alignQueueTail :
    exec access (alignQueueTail shmLen) a = some ((), alignedTail shmLen a) := by
  rw [alignQueueTail, exec_bind_of exec_get_tail, exec_bind_of exec_get_tail, alignedTail, atPad]
  by_cases hend : shmLen - a.tail < MB_HEAD_LENGTH
  · by_cases hlt : a.head < a.tail <;> simp [hend, hlt]
  · have hread : exec access (readHead a.tail) a = some (headAt a.mem a.tail, a) := exec_readHead _
    generalize headAt a.mem a.tail = tailMb at hread ⊢
    dsimp only
    rw [if_neg hend, exec_bind_of hread]
    by_cases hpad : tailMb.type = PAD_REQUEST
    · by_cases hlt : a.head < a.tail <;> simp [hend, hpad, hlt]
    · simp [hend, hpad]

theorem exec_alignQueueHead (mb : Head) :
    exec access (alignQueueHead shmLen mb) a = some (alignedHead shmLen mb.length a) := by
  rw [alignQueueHead, exec_bind_of exec_get_tail, exec_bind_of exec_get_head, alignedHead]
  dsimp only
  by_cases h₁ : shmLen - a.head < mb.length ∧ a.tail = QUEUE_HEADER
  · rw [if_pos h₁, if_pos h₁]
    rfl
  · rw [if_neg h₁, if_neg h₁]
    by_cases h₂ : shmLen - a.head < MB_HEAD_LENGTH
    · rw [if_pos h₂, if_pos h₂]
      rfl
    · rw [if_neg h₂, if_neg h₂]
      by_cases h₃ : shmLen - a.head < mb.length <;> simp [h₃]

theorem exec_putHead (mb : ShmBlock) :
    exec access (putHead mb) a = some ((), filled mb a) := rfl

theorem exec_noMessage : exec access noMessage a = some (decide (a.tail = a.head), a) := rfl

theorem exec_noRoom (mb : Head) :
    exec access (noRoom mb) a = some (tooLittle mb.length a, a) := by
  rw [noRoom, exec_bind_of exec_get_tail, exec_bind_of exec_get_head, tooLittle]
  by_cases h : a.head < a.tail <;> simp [h]

/-- Without waiting the loop is over at once. -/
theorem exec_waitWhile {test : Act Bool} {b : Bool} (n : Nat)
    (h : exec access test a = some (b, a)) :
    exec access (waitWhile false test (n + 1)) a = some (if b then -1 else 0, a) := by
  rw [waitWhile, exec_bind_of h]
  cases b <;> rfl

/-- The second look at the tail finds it aligned. -/
theorem alignedTail_idem : alignedTail shmLen (alignedTail shmLen a) = alignedTail shmLen a := by
  by_cases h : atPad shmLen a = true ∧ a.head < a.tail
  · have haligned : alignedTail shmLen a = { a with tail := QUEUE_HEADER } := if_pos h
    rw [haligned, alignedTail]
    split <;> rfl
  · have haligned : alignedTail shmLen a = a := if_neg h
    rw [haligned, haligned]

theorem exec_popWait (n : Nat) :
    exec access (popWait shmLen false (n + 2)) a =
      some (if (alignedTail shmLen a).tail = (alignedTail shmLen a).head then -1 else 0,
        alignedTail shmLen a) := by
  rw [popWait, exec_bind_of exec_alignQueueTail, popAgain,
    exec_bind_of (exec_waitWhile (n + 1) exec_noMessage)]
  by_cases h : (alignedTail shmLen a).tail = (alignedTail shmLen a).head
  · simp [h]
  · have hgo : ¬ (if decide ((alignedTail shmLen a).tail = (alignedTail shmLen a).head) then
        (-1 : Int) else 0) = -1 := by simp [h]
    rw [if_neg hgo, exec_bind_of exec_alignQueueTail, alignedTail_idem,
      exec_bind_of exec_noMessage]
    simp [h]

/-- The head is aligned once, if the second time finds it aligned. -/
theorem exec_pushWait (n : Nat) (mb : Head) {r : Int} {b : Area}
    (h : alignedHead shmLen mb.length a = (r, b))
    (hagain : r ≠ -1 → tooLittle mb.length b = false →
      alignedHead shmLen mb.length b = (0, b)) :
    exec access (pushWait shmLen false mb (n + 1)) a =
      some (if r = -1 ∨ tooLittle mb.length b = true then -1 else 0, b) := by
  rw [pushWait, exec_bind_of ((exec_alignQueueHead mb).trans (congrArg some h))]
  by_cases hfail : r = -1
  · simp [hfail]
  · rw [if_neg hfail, pushAgain, exec_bind_of (exec_waitWhile n (exec_noRoom mb))]
    cases hroom : tooLittle mb.length b with
    | true => simp
    | false =>
      rw [if_neg (by decide),
        exec_bind_of ((exec_alignQueueHead mb).trans (congrArg some (hagain hfail hroom))),
        if_neg (by decide), exec_bind_of (exec_noRoom mb), hroom]
      simp [hfail]

theorem exec_release_if (locked : Bool) :
    exec access (onlyIf (locked = true) release) a = some ((), a) := by
  cases locked <;> rfl

theorem exec_pop (locked : Bool) (rounds : Nat) {r : Int} {b : Area}
    (h : exec access (popWait shmLen false rounds) a = some (r, b)) :
    exec access (pop shmLen locked false rounds) a =
      if r = 0 then (exec access (takeTail shmLen) b).map fun s => (some s.1, s.2)
      else some (none, b) := by
  have hpop : exec access (pop shmLen locked false rounds) a =
      exec access (popWait shmLen false rounds >>= fun r =>
        if r = 0 then takeTail shmLen >>= fun mb =>
          onlyIf (locked = true) release >>= fun _ => pure (some mb)
        else onlyIf (locked = true) release >>= fun _ => pure none) a := by
    cases locked <;> rfl
  rw [hpop, exec_bind_of h]
  split
  · rw [exec_bind, Option.map_eq_bind]
    congr 1
    funext s
    rw [exec_bind_of (exec_release_if locked)]
    rfl
  · rw [exec_bind_of (exec_release_if locked)]
    rfl

theorem exec_push (locked : Bool) (rounds : Nat) {mb : ShmBlock} {r : Int} {b : Area}
    (hmb : checkMb mb.head = true)
    (h : exec access (pushWait shmLen false mb.head rounds) a = some (r, b)) :
    exec access (push shmLen locked false rounds mb) a =
      some (if r = 0 then (true, filled mb b) else (false, b)) := by
  have hpush : exec access (push shmLen locked false rounds mb) a =
      exec access (pushWait shmLen false mb.head rounds >>= fun r =>
        if r = 0 then putHead mb >>= fun _ =>
          onlyIf (locked = true) release >>= fun _ => pure true
        else onlyIf (locked = true) release >>= fun _ => pure false) a := by
    rw [push, exec_bind_of (exec_mark _), if_neg (by rw [hmb]; decide)]
    cases locked <;> rfl
  rw [hpush, exec_bind_of h]
  split
  · rw [exec_bind_of (exec_putHead mb), exec_bind_of (exec_release_if locked)]
    rfl
  · rw [exec_bind_of (exec_release_if locked)]
    rfl

end Exec

end Doorhinges.ShmQueue

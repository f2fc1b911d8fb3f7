import Doorhinges.Hiredis.Reader

/-!
# Replies from a stream in pieces

The bytes of the replies come in pieces of any length. The reader takes them up to the end of an
item, so that the replies are those of the whole stream.
-/
namespace Doorhinges.Hiredis

open Lib.CString
open Lib.Stream (Look Steady End Op readOne items goOn Exhausted)
open Keepalive (Err)

/-- The type of an item, or the rest of it. -/
def look : Look UInt8 (List ReadTask) RedisReply (Option (Err × Bytes)) := fun stack b =>
  match started stack with
  | [] => none
  | cur :: stack =>
    match cur.type with
    | some type => processTyped type cur stack b
    | none =>
      match b with
      | [] => none
      | c :: _ =>
        match typeOf c with
        | none => some (.error (some (protocolByte c)))
        | some type => some (.ok ({ cur with type := some type } :: stack, 1, none))

section Line

attribute [local simp] seekNewline

variable {b : Bytes} {len : Nat}

theorem seekNewline_append (h : seekNewline b = some len) (c : Bytes) :
    seekNewline (b ++ c) = some len := by
  induction b generalizing len with
  | nil => cases h
  | cons x b ih =>
    cases b with
    | nil => cases h
    | cons y b =>
      rw [seekNewline] at h
      rw [List.cons_append, List.cons_append, seekNewline]
      split at h
      · rename_i hnl
        rwa [if_pos hnl]
      · rename_i hnl
        obtain ⟨k, hk, rfl⟩ := Option.map_eq_some_iff.1 h
        rw [if_neg hnl, ← List.cons_append, ih hk]
        rfl

/-- The line and its end have come. -/
theorem seekNewline_le (h : seekNewline b = some len) : len + 2 ≤ b.length := by
  induction b generalizing len with
  | nil => cases h
  | cons x b ih =>
    cases b with
    | nil => cases h
    | cons y b =>
      rw [seekNewline] at h
      rw [List.length_cons]
      split at h
      · obtain rfl := Option.some.inj h
        rw [List.length_cons]
        omega
      · obtain ⟨k, hk, rfl⟩ := Option.map_eq_some_iff.1 h
        have hle := ih hk
        omega

theorem mem_of_seekNewline (h : seekNewline b = some len) : 13 ∈ b := by
  induction b generalizing len with
  | nil => cases h
  | cons x b ih =>
    cases b with
    | nil => cases h
    | cons y b =>
      rw [seekNewline] at h
      split at h
      · rename_i hnl
        rw [hnl.1]
        exact List.mem_cons_self
      · obtain ⟨k, hk, rfl⟩ := Option.map_eq_some_iff.1 h
        exact List.mem_cons_of_mem _ (ih hk)

theorem readDigits_append (h : 13 ∈ b) (v : Nat) (c : Bytes) :
    readDigits v (b ++ c) = readDigits v b := by
  induction b generalizing v with
  | nil => cases h
  | cons x b ih =>
    rw [List.cons_append, readDigits, readDigits]
    by_cases hx : x = 13
    · rw [if_pos hx, if_pos hx]
    · rw [if_neg hx, if_neg hx]
      have hb : 13 ∈ b := (List.mem_cons.1 h).resolve_left (Ne.symm hx)
      dsimp only
      rw [ih hb]

/-- A number is read up to the end of its line. -/
theorem readLongLong_append (h : 13 ∈ b) (c : Bytes) :
    readLongLong (b ++ c) = readLongLong b := by
  obtain ⟨x, b, rfl⟩ := List.exists_cons_of_ne_nil (List.ne_nil_of_mem h)
  rw [readLongLong, readLongLong, List.cons_append, List.head?_cons, List.head?_cons]
  by_cases hsign : some x = some 45 ∨ some x = some (43 : UInt8)
  · rw [if_pos hsign, if_pos hsign, List.tail_cons, List.tail_cons, readDigits_append]
    refine (List.mem_cons.1 h).resolve_left ?_
    rintro rfl
    exact absurd hsign (by decide)
  · rw [if_neg hsign, if_neg hsign, ← List.cons_append, readDigits_append h]

end Line

section Items

/-- What is made of some bytes takes a part of them, and stays when more have come. A reply is
complete when the stack is empty. -/
structure Settled (f : Bytes → Step) : Prop where
  takes : ∀ {b s n x}, f b = some (.ok (s, n, x)) → (0 < n ∧ n ≤ b.length) ∧ (x.isSome ↔ s = [])
  keeps : ∀ {b r}, f b = some r → ∀ c, f (b ++ c) = some r

theorem moveFrom_empty (obj : RedisReply) (idx : Int) (stack : List ReadTask) :
    (moveFrom obj idx stack).2.isSome ↔ (moveFrom obj idx stack).1 = [] := by
  induction stack generalizing obj idx with
  | nil => simp [moveFrom]
  | cons prv stack ih =>
    rw [moveFrom]
    dsimp only
    split
    · exact ih _ _
    · simp

theorem complete_eq {obj : RedisReply} {m n : Nat} {cur : ReadTask} {stack s : List ReadTask}
    {x : Option RedisReply} (h : complete obj m (cur :: stack) = some (.ok (s, n, x))) :
    n = m ∧ (x.isSome ↔ s = []) := by
  rw [complete] at h
  simp only [Option.some.injEq, Except.ok.injEq, Prod.mk.injEq] at h
  obtain ⟨rfl, rfl, rfl⟩ := h
  exact ⟨rfl, moveFrom_empty _ _ _⟩

/-- An item begins with a line. -/
def withLine (f : Nat → Bytes → Step) (b : Bytes) : Step :=
  match seekNewline b with
  | none => none
  | some len => f len b

theorem withLine_settled {f : Nat → Bytes → Step}
    (htakes : ∀ {len b s n x}, len + 2 ≤ b.length → f len b = some (.ok (s, n, x)) →
      (0 < n ∧ n ≤ b.length) ∧ (x.isSome ↔ s = []))
    (hkeeps : ∀ {len b r}, len + 2 ≤ b.length → 13 ∈ b → f len b = some r →
      ∀ c, f len (b ++ c) = some r) : Settled (withLine f) := by
  constructor
  · intro b s n x h
    rw [withLine] at h
    cases hline : seekNewline b with
    | none =>
      rw [hline] at h
      cases h
    | some len =>
      rw [hline] at h
      exact htakes (seekNewline_le hline) h
  · intro b r h c
    rw [withLine] at h ⊢
    cases hline : seekNewline b with
    | none =>
      rw [hline] at h
      cases h
    | some len =>
      rw [hline] at h
      rw [seekNewline_append hline]
      exact hkeeps (seekNewline_le hline) (mem_of_seekNewline hline) h c

theorem line_settled (type : ReplyType) (cur : ReadTask) (stack : List ReadTask) :
    Settled (processLineItem type (cur :: stack)) := by
  refine withLine_settled (fun hle h => ?_) fun {len b r} hle hmem h c => ?_
  · cases type with
    | integer =>
      dsimp only at h
      split at h
      · cases h
      · obtain ⟨rfl, hempty⟩ := complete_eq h
        exact ⟨by omega, hempty⟩
    | _ =>
      obtain ⟨rfl, hempty⟩ := complete_eq h
      exact ⟨by omega, hempty⟩
  · rwa [readLongLong_append hmem, List.take_append_of_le_length (by omega)]

theorem bulk_settled (cur : ReadTask) (stack : List ReadTask) :
    Settled (processBulkItem (cur :: stack)) := by
  refine withLine_settled (fun hle h => ?_) fun {s b r} hle hmem h c => ?_
  · split at h
    · cases h
    · split at h
      · obtain ⟨rfl, hempty⟩ := complete_eq h
        exact ⟨by omega, hempty⟩
      · dsimp only at h
        split at h
        · obtain ⟨rfl, hempty⟩ := complete_eq h
          exact ⟨by omega, hempty⟩
        · cases h
  · rw [readLongLong_append hmem]
    split at h
    · exact h
    · rename_i len hlen
      dsimp only at h ⊢
      by_cases hneg : len < 0
      · rwa [if_pos hneg] at h ⊢
      · rw [if_neg hneg] at h ⊢
        split at h
        · rename_i hfit
          have hdrop : ((b ++ c).drop (s + 2)).take len.toNat =
              (b.drop (s + 2)).take len.toNat := by
            rw [List.drop_append_of_le_length (by omega), List.take_append_of_le_length]
            rw [List.length_drop]
            omega
          rwa [if_pos (by rw [List.length_append]; omega), hdrop]
        · cases h

theorem multiBulk_settled (cur : ReadTask) (stack : List ReadTask) :
    Settled (processMultiBulkItem cur stack) := by
  by_cases hdepth : stack.length = 8
  · have herror : processMultiBulkItem cur stack =
        fun _ => some (.error (some (.protocol, depthError))) := by
      funext b
      rw [processMultiBulkItem, if_pos hdepth]
    rw [herror]
    exact ⟨fun h => by simp at h, fun h _ => h⟩
  · have hline : processMultiBulkItem cur stack = _ := funext fun b => if_neg hdepth
    rw [hline]
    refine withLine_settled (fun hle h => ?_) fun hle hmem h c => ?_
    · split at h
      · cases h
      · split at h
        · obtain ⟨rfl, hempty⟩ := complete_eq h
          exact ⟨by omega, hempty⟩
        · split at h
          · cases h
          · split at h
            · simp only [Option.some.injEq, Except.ok.injEq, Prod.mk.injEq] at h
              obtain ⟨rfl, rfl, rfl⟩ := h
              exact ⟨by omega, by simp⟩
            · obtain ⟨rfl, hempty⟩ := complete_eq h
              exact ⟨by omega, hempty⟩
    · rwa [readLongLong_append hmem]

theorem typed_settled (type : ReplyType) (cur : ReadTask) (stack : List ReadTask) :
    Settled (processTyped type cur stack) := by
  cases type with
  | string => exact bulk_settled cur stack
  | array => exact multiBulk_settled _ _
  | nil => exact ⟨fun h => by simp [processTyped, undefined] at h, fun h _ => h⟩
  | integer => exact line_settled .integer cur stack
  | status => exact line_settled .status cur stack
  | error => exact line_settled .error cur stack

theorem steady_look : Steady look := by
  constructor
  · intro stack b s n x h
    rw [look] at h
    split at h
    · cases h
    · split at h
      · exact ((typed_settled _ _ _).takes h).1
      · split at h
        · cases h
        · split at h
          · simp at h
          · simp only [Option.some.injEq, Except.ok.injEq, Prod.mk.injEq] at h
            rw [List.length_cons]
            omega
  · intro stack b r h c
    rw [look] at h ⊢
    split at h
    · cases h
    · split at h
      · exact (typed_settled _ _ _).keeps h c
      · split at h
        · cases h
        · exact h

end Items

section Simulation

/-- The reader has got to this end of what it has been given; a reply begins on an empty stack. -/
def At (r : RedisReader) : End UInt8 (List ReadTask) (Option (Err × Bytes)) → Prop
  | .ok (stack, b) => r.err = none ∧ started r.rstack = started stack ∧ r.rest = b ∧
      r.pos ≤ r.buf.length
  | .error e => r.err = e ∧ e ≠ none

/-- What the loop over the items leaves, against the first reply of the stream. -/
def LoopEnds (x : Option RedisReply) (t : End UInt8 (List ReadTask) (Option (Err × Bytes))) :
    Option RedisReader → Prop
  | none => t = .error none
  | some r => At r t ∧ (r.err = none → r.reply = x ∧ (x.isSome ↔ r.rstack = []))

variable {r : RedisReader} {cur : ReadTask} {stack : List ReadTask}

theorem look_typed {type : ReplyType} (htype : cur.type = some type) (b : Bytes) :
    look (cur :: stack) b = processTyped type cur stack b := by
  rw [look, started, if_neg (by simp)]
  dsimp only
  rw [htype]

theorem look_untyped (htype : cur.type = none) (c : UInt8) (b : Bytes) :
    look (cur :: stack) (c :: b) =
      match typeOf c with
      | none => some (.error (some (protocolByte c)))
      | some type => some (.ok ({ cur with type := some type } :: stack, 1, none)) := by
  rw [look, started, if_neg (by simp)]
  dsimp only
  rw [htype]

theorem look_nil (htype : cur.type = none) : look (cur :: stack) [] = none := by
  rw [look, started, if_neg (by simp)]
  dsimp only
  rw [htype]

theorem processItems_succ (hstack : r.rstack ≠ []) (k : Nat) :
    RedisReader.processItems (k + 1) r = r.processItem.bind fun p =>
      if p.1 then RedisReader.processItems k p.2 else some p.2 := by
  refine (if_neg (mt List.isEmpty_iff.1 hstack)).trans ?_
  obtain hitem | ⟨p, hitem⟩ := Option.eq_none_or_eq_some r.processItem
  · rw [hitem]
    rfl
  · obtain ⟨go, r'⟩ := p
    rw [hitem]
    cases go with
    | true => rfl
    | false => rfl

/-- The loop stops where the first reply of the stream does. -/
theorem processItems_loopEnds {k l : Nat} (herr : r.err = none) (hreply : r.reply = none)
    (hpos : r.pos ≤ r.buf.length) (hstack : r.rstack ≠ []) (hk : r.rest.length < k)
    (hl : r.rest.length < l) :
    LoopEnds (readOne look l r.rstack r.rest).1 (readOne look l r.rstack r.rest).2
      (RedisReader.processItems k r) := by
  induction hlen : r.rest.length using Nat.strongRecOn generalizing r k l with
  | ind len ih =>
    obtain ⟨k, rfl⟩ := Nat.exists_eq_succ_of_ne_zero (Nat.ne_zero_of_lt hk)
    obtain ⟨l, rfl⟩ := Nat.exists_eq_succ_of_ne_zero (Nat.ne_zero_of_lt hl)
    obtain ⟨cur, stack, hcons⟩ := List.exists_cons_of_ne_nil hstack
    have hwait : LoopEnds none (.ok (r.rstack, r.rest)) (some r) := by
      refine ⟨⟨herr, rfl, rfl, hpos⟩, fun _ => ⟨hreply, ?_⟩⟩
      simp [hcons]
    have hitems := processItems_succ hstack k
    cases htype : cur.type with
    | some type =>
      have hitem : r.processItem = r.apply (processTyped type cur stack r.rest) := by
        rw [RedisReader.processItem, hcons]
        dsimp only
        rw [htype]
      rw [hitems, hitem, readOne, hcons, look_typed htype]
      rw [hcons] at hwait
      cases hstep : processTyped type cur stack r.rest with
      | none => exact hwait
      | some step =>
        cases step with
        | error e =>
          cases e with
          | none => exact rfl
          | some e => exact ⟨⟨rfl, by simp⟩, fun h => absurd h (Option.some_ne_none _)⟩
        | ok step =>
          obtain ⟨s', n, x⟩ := step
          obtain ⟨⟨hn, hle⟩, hempty⟩ := (typed_settled _ _ _).takes hstep
          have hbuf : r.rest.length + r.pos = r.buf.length := by
            rw [RedisReader.rest, List.length_drop]
            omega
          let r' : RedisReader := { r with rstack := s', pos := r.pos + n, reply := x }
          have hrest : r'.rest = r.rest.drop n := List.drop_drop.symm
          have hlt : r'.rest.length < r.rest.length := by
            rw [hrest, List.length_drop]
            omega
          have hpos' : r'.pos ≤ r'.buf.length := by
            show r.pos + n ≤ r.buf.length
            omega
          cases x with
          | none =>
            have hne : s' ≠ [] := fun heq => absurd (hempty.2 heq) (by simp)
            have h := ih _ (hlen ▸ hlt) (r := r') (k := k) (l := l) herr rfl hpos' hne (by omega)
              (by omega) rfl
            rw [hrest] at h
            exact h
          | some x =>
            obtain rfl : s' = [] := hempty.1 rfl
            have hdone : RedisReader.processItems k r' = some r' := by
              cases k with
              | zero => rfl
              | succ k => rfl
            show LoopEnds (some x) (.ok ([], r.rest.drop n)) (RedisReader.processItems k r')
            rw [hdone]
            exact ⟨⟨herr, rfl, hrest, hpos'⟩, fun _ => ⟨rfl, by simp [r']⟩⟩
    | none =>
      cases hrest : r.rest with
      | nil =>
        have hitem : r.processItem = some (false, r) := by
          rw [RedisReader.processItem, hcons]
          dsimp only
          rw [htype, hrest]
        rw [hitems, hitem, readOne, hcons, look_nil htype]
        rwa [hcons, hrest] at hwait
      | cons c b =>
        cases hc : typeOf c with
        | none =>
          have hitem : r.processItem = some (false, .setError (protocolByte c)) := by
            rw [RedisReader.processItem, hcons]
            dsimp only
            rw [htype, hrest]
            dsimp only
            rw [hc]
          rw [hitems, hitem, readOne, hcons, look_untyped htype, hc]
          exact ⟨⟨rfl, by simp⟩, fun h => absurd h (Option.some_ne_none _)⟩
        | some type =>
          let cur' : ReadTask := { cur with type := some type }
          let r' : RedisReader := { r with rstack := cur' :: stack, pos := r.pos + 1 }
          have hrest' : r'.rest = b := by
            have hdrop : r'.rest = r.rest.drop 1 := List.drop_drop.symm
            rw [hdrop, hrest]
            rfl
          have hitem : r.processItem = r'.processItem := by
            have hcur : r'.processItem = r'.apply (processTyped type cur' stack r'.rest) := rfl
            rw [hcur, hrest', RedisReader.processItem, hcons]
            dsimp only
            rw [htype, hrest]
            dsimp only
            rw [hc]
          have hsame : RedisReader.processItems (k + 1) r = RedisReader.processItems (k + 1) r' := by
            rw [hitems, hitem, processItems_succ (List.cons_ne_nil _ _)]
          rw [hrest, List.length_cons] at hlen hk hl
          have hbuf : r.rest.length + r.pos = r.buf.length := by
            rw [RedisReader.rest, List.length_drop]
            omega
          rw [hrest, List.length_cons] at hbuf
          rw [readOne, hcons, look_untyped htype, hc, hsame]
          have h := ih b.length (by omega) (r := r') (k := k + 1) (l := l) herr hreply
            (show r.pos + 1 ≤ r.buf.length by omega) (List.cons_ne_nil _ _)
            (by rw [hrest']; omega) (by rw [hrest']; omega) (by rw [hrest'])
          rwa [hrest'] at h

/-- Between two calls the reader has no reply of its own and waits. -/
def Rep (r : RedisReader) (t : End UInt8 (List ReadTask) (Option (Err × Bytes))) : Prop :=
  At r t ∧ (r.err = none → r.reply = none ∧ look r.rstack [] = none)

theorem look_congr {s s' : List ReadTask} (h : started s = started s') (b : Bytes) :
    look s b = look s' b := by
  rw [look, look, h]

theorem started_started (s : List ReadTask) : started (started s) = started s := by
  cases s <;> rfl

theorem At.congr {s s' : List ReadTask} {b : Bytes} (h : At r (.ok (s, b)))
    (hs : started s = started s') : At r (.ok (s', b)) :=
  ⟨h.1, h.2.1.trans hs, h.2.2⟩

/-- The task of a new reply makes no difference. -/
theorem LoopEnds.unstarted {k : Nat} {s : List ReadTask} {b : Bytes} {o : Option RedisReader}
    (h : LoopEnds (readOne look (k + 1) (started s) b).1 (readOne look (k + 1) (started s) b).2 o) :
    LoopEnds (readOne look (k + 1) s b).1 (readOne look (k + 1) s b).2 o := by
  rw [readOne, look_congr (started_started s)] at h
  rw [readOne]
  cases hlook : look s b with
  | none =>
    rw [hlook] at h
    cases o with
    | none => cases h
    | some r => exact ⟨At.congr h.1 (started_started s), h.2⟩
  | some step =>
    rw [hlook] at h
    cases step with
    | error e => exact h
    | ok step =>
      obtain ⟨s', n, x⟩ := step
      cases x with
      | none => exact h
      | some x => exact h

/-- Bytes that have been read go out of the buffer, and the reply out of the reader. -/
theorem finish_rep {k : Nat} {s : List ReadTask} {b : Bytes} (hk : b.length < k)
    (h : LoopEnds (readOne look k s b).1 (readOne look k s b).2 (some r)) :
    (r.finish.1 = r.finish.2.1.err.isNone ∧ r.finish.2.2 = (readOne look k s b).1) ∧
      Rep r.finish.2.1 (readOne look k s b).2 := by
  obtain ⟨hat, hone⟩ := h
  cases ht : (readOne look k s b).2 with
  | error e =>
    rw [ht] at hat
    obtain ⟨herr, hne⟩ := hat
    have hsome : r.err.isSome = true := by
      rw [herr, Option.isSome_iff_ne_none]
      exact hne
    rw [RedisReader.finish, if_pos hsome, Lib.Stream.readOne_error ht]
    refine ⟨⟨by rw [Option.isNone_eq_false_iff.2 hsome], rfl⟩, ⟨herr, hne⟩, fun hnone => ?_⟩
    exact absurd (herr.symm.trans hnone) hne
  | ok t =>
    obtain ⟨s', b'⟩ := t
    rw [ht] at hat
    obtain ⟨herr, hstarted, hrest, hpos⟩ := hat
    obtain ⟨hreply, hempty⟩ := hone herr
    let r₁ : RedisReader := if 1024 ≤ r.pos then { r with buf := r.rest, pos := 0 } else r
    have hr₁ : r₁.err = none ∧ r₁.rstack = r.rstack ∧ r₁.reply = r.reply ∧ r₁.rest = r.rest ∧
        r₁.pos ≤ r₁.buf.length := by
      by_cases hfull : 1024 ≤ r.pos
      · rw [show r₁ = _ from if_pos hfull]
        exact ⟨herr, rfl, rfl, rfl, Nat.zero_le _⟩
      · rw [show r₁ = r from if_neg hfull]
        exact ⟨herr, rfl, rfl, rfl, hpos⟩
    obtain ⟨herr₁, hstack₁, hreply₁, hrest₁, hpos₁⟩ := hr₁
    have hfinish : r.finish = if r₁.rstack.isEmpty then
        (true, { r₁ with reply := none }, r₁.reply) else (true, r₁, none) := by
      rw [RedisReader.finish, if_neg (by simp [herr])]
    rw [hfinish]
    by_cases hdone : r.rstack = []
    · rw [if_pos (by rw [hstack₁, hdone]; rfl)]
      refine ⟨⟨by simp [herr₁], hreply₁.trans hreply⟩, ⟨herr₁, ?_, hrest₁.trans hrest, hpos₁⟩, ?_⟩
      · exact (congrArg started hstack₁).trans hstarted
      · intro _
        refine ⟨rfl, ?_⟩
        show look r₁.rstack [] = none
        rw [hstack₁, hdone]
        rfl
    · rw [if_neg (by rw [hstack₁]; simpa using hdone)]
      have hnone : (readOne look k s b).1 = none :=
        Option.not_isSome_iff_eq_none.1 fun hsome => hdone (hempty.1 hsome)
      have hwaits := Lib.Stream.readOne_waits steady_look hk (Prod.ext hnone ht)
      refine ⟨⟨by simp [herr₁], hnone.symm⟩, ⟨herr₁, ?_, hrest₁.trans hrest, hpos₁⟩, fun _ => ⟨?_, ?_⟩⟩
      · exact (congrArg started hstack₁).trans hstarted
      · rw [hreply₁, hreply, hnone]
      · rw [hstack₁, look_congr hstarted]
        exact Lib.Stream.waits_nil steady_look hwaits

theorem processItems_started {s : List ReadTask} (herr : r.err = none) (hreply : r.reply = none)
    (hpos : r.pos ≤ r.buf.length) (hstarted : started r.rstack = started s) :
    LoopEnds (readOne look (r.rest.length + 1) s r.rest).1
      (readOne look (r.rest.length + 1) s r.rest).2
      (RedisReader.processItems (r.rest.length + 1) { r with rstack := started r.rstack }) := by
  have hne : started r.rstack ≠ [] := by
    rw [started]
    cases r.rstack <;> simp
  refine LoopEnds.unstarted ?_
  rw [← hstarted]
  exact processItems_loopEnds (r := { r with rstack := started r.rstack }) herr hreply hpos hne
    (Nat.lt_succ_self _) (Nat.lt_succ_self _)

theorem getReply_rep {s : List ReadTask} {b : Bytes} {ok : Bool} {r' : RedisReader}
    {x : Option RedisReply} (h : Rep r (.ok (s, b))) (hget : r.getReply = some (ok, r', x)) :
    (ok = r'.err.isNone ∧ x = (readOne look (b.length + 1) s b).1) ∧
      Rep r' (readOne look (b.length + 1) s b).2 := by
  obtain ⟨hat, hown⟩ := h
  obtain ⟨herr, hstarted, rfl, hpos⟩ := hat
  obtain ⟨hreply, hlook⟩ := hown herr
  rw [RedisReader.getReply, if_neg (by simp [herr])] at hget
  by_cases hbuf : r.buf.isEmpty = true
  · have hrest : r.rest = [] := by
      rw [RedisReader.rest, List.isEmpty_iff.1 hbuf, List.drop_nil]
    have hone : readOne look (r.rest.length + 1) s r.rest = (none, .ok (s, r.rest)) := by
      rw [readOne, hrest, ← look_congr hstarted, hlook]
    rw [if_pos hbuf] at hget
    obtain ⟨rfl, rfl, rfl⟩ : true = ok ∧ r = r' ∧ none = x := by simpa using hget
    rw [hone]
    exact ⟨⟨by rw [herr]; rfl, rfl⟩, ⟨herr, hstarted, rfl, hpos⟩, fun _ => ⟨hreply, hlook⟩⟩
  · rw [if_neg hbuf] at hget
    obtain ⟨r₁, hloop, hfinish⟩ := Option.map_eq_some_iff.1 hget
    have hends := processItems_started herr hreply hpos hstarted
    rw [hloop] at hends
    have hrep := finish_rep (Nat.lt_succ_self _) hends
    rwa [hfinish] at hrep

end Simulation

section Calls

variable {r r' : RedisReader} {calls calls' : List Call} {out out' : List RedisReply}

def Call.op : Call → Op UInt8
  | .feed b => .feed b
  | .getReply => .read

theorem fed_op (calls : List Call) :
    Lib.Stream.fed (calls.map Call.op) = calls.flatMap Call.bytes := by
  induction calls with
  | nil => rfl
  | cons c calls ih =>
    cases c with
    | feed b => rw [List.map_cons, Call.op, Lib.Stream.fed, ih, List.flatMap_cons, Call.bytes]
    | getReply => rw [List.map_cons, Call.op, Lib.Stream.fed, ih, List.flatMap_cons, Call.bytes,
        List.nil_append]

/-- One call keeps the reader at the end of what it has been given. -/
theorem exec_rep {t : End UInt8 (List ReadTask) (Option (Err × Bytes))} {c : Call} (h : Rep r t)
    (hexec : c.exec (out, r) = some (out', r')) :
    out' = (Lib.Stream.step look (out, t) c.op).1 ∧
      Rep r' (Lib.Stream.step look (out, t) c.op).2 := by
  cases t with
  | error e =>
    obtain ⟨herr, hne⟩ := h.1
    have hsome : r.err.isSome = true := by
      rw [herr, Option.isSome_iff_ne_none]
      exact hne
    cases c with
    | feed b =>
      rw [Call.exec, RedisReader.feed, if_pos hsome] at hexec
      obtain ⟨rfl, rfl⟩ := Prod.mk.inj (Option.some.inj hexec)
      exact ⟨rfl, h⟩
    | getReply =>
      rw [Call.exec, RedisReader.getReply, if_pos hsome] at hexec
      obtain ⟨rfl, rfl⟩ := Prod.mk.inj (Option.some.inj hexec)
      exact ⟨List.append_nil _, h⟩
  | ok t =>
    obtain ⟨s, b⟩ := t
    cases c with
    | feed c =>
      obtain ⟨⟨herr, hstarted, hrest, hpos⟩, hown⟩ := h
      rw [Call.exec, RedisReader.feed, if_neg (by simp [herr])] at hexec
      obtain ⟨rfl, rfl⟩ := Prod.mk.inj (Option.some.inj hexec)
      refine ⟨rfl, ⟨herr, hstarted, ?_, ?_⟩, hown⟩
      · show (r.buf ++ c).drop r.pos = b ++ c
        rw [List.drop_append_of_le_length hpos, ← hrest]
        rfl
      · show r.pos ≤ (r.buf ++ c).length
        rw [List.length_append]
        omega
    | getReply =>
      obtain ⟨⟨ok, r₁, x⟩, hget, heq⟩ := Option.map_eq_some_iff.1 hexec
      obtain ⟨rfl, rfl⟩ := Prod.mk.inj heq
      obtain ⟨⟨-, rfl⟩, hrep⟩ := getReply_rep h hget
      exact ⟨rfl, hrep⟩

theorem foldlM_rep {t : End UInt8 (List ReadTask) (Option (Err × Bytes))} (h : Rep r t)
    (hrun : calls.foldlM Call.exec (out, r) = some (out', r')) :
    out' = ((calls.map Call.op).foldl (Lib.Stream.step look) (out, t)).1 ∧
      Rep r' ((calls.map Call.op).foldl (Lib.Stream.step look) (out, t)).2 := by
  induction calls generalizing out r t with
  | nil =>
    obtain ⟨rfl, rfl⟩ := Prod.mk.inj (Option.some.inj hrun)
    exact ⟨rfl, h⟩
  | cons c calls ih =>
    rw [List.foldlM_cons] at hrun
    obtain ⟨⟨out₁, r₁⟩, hexec, hrun⟩ := Option.bind_eq_some_iff.1 hrun
    obtain ⟨rfl, hrep⟩ := exec_rep h hexec
    exact ih hrep hrun

/-- The replies so far with those that are still in the reader are the replies of the stream. -/
theorem replies_follow (h : replies calls = some (out, r)) :
    ∃ t, Rep r t ∧ items look [] (calls.flatMap Call.bytes) =
      (out ++ (goOn look t []).1, (goOn look t []).2) := by
  have hstart : Rep .create (.ok ([], [])) := ⟨⟨rfl, rfl, rfl, Nat.le_refl _⟩, fun _ => ⟨rfl, rfl⟩⟩
  obtain ⟨hout, hrep⟩ := foldlM_rep hstart h
  refine ⟨_, hrep, ?_⟩
  have hrun := Lib.Stream.run_follows steady_look [] (calls.map Call.op)
  rw [fed_op] at hrun
  rw [hout]
  exact hrun

/-- A reader that has no reply has got to the end of the stream. -/
theorem goOn_of_getReply {t : End UInt8 (List ReadTask) (Option (Err × Bytes))} {ok : Bool}
    {q : RedisReader} (h : Rep r t) (hget : r.getReply = some (ok, q, none)) :
    ∃ e, goOn look t [] = ([], e) ∧ Rep q e ∧ ok = q.err.isNone := by
  cases t with
  | error e =>
    obtain ⟨herr, hne⟩ := h.1
    have hsome : r.err.isSome = true := by
      rw [herr, Option.isSome_iff_ne_none]
      exact hne
    rw [RedisReader.getReply, if_pos hsome] at hget
    obtain ⟨rfl, rfl, -⟩ : false = ok ∧ r = q ∧ True := by simpa using hget
    exact ⟨_, rfl, h, (Option.isNone_eq_false_iff.2 hsome).symm⟩
  | ok t =>
    obtain ⟨s, b⟩ := t
    obtain ⟨⟨hok, hnone⟩, hrep⟩ := getReply_rep h hget
    refine ⟨_, ?_, hrep, hok⟩
    have hitems := Lib.Stream.readOne_items steady_look (s := s) (b := b) (Nat.lt_succ_self _)
    have hend : Exhausted look (readOne look (b.length + 1) s b).2 := by
      cases hone : (readOne look (b.length + 1) s b).2 with
      | error e => trivial
      | ok t => exact Lib.Stream.readOne_waits steady_look (Nat.lt_succ_self _) (Prod.ext hnone.symm hone)
    rw [Lib.Stream.goOn_ok, List.append_nil, hitems, ← hnone, Lib.Stream.goOn_exhausted hend]
    rfl

theorem Rep.err_eq {q q' : RedisReader} {t : End UInt8 (List ReadTask) (Option (Err × Bytes))}
    (h : Rep q t) (h' : Rep q' t) : q.err = q'.err := by
  cases t with
  | error e => exact h.1.1.trans h'.1.1.symm
  | ok t => exact h.1.1.trans h'.1.1.symm

/-- The replies and the error depend on the bytes only, not on how they are cut and when the
replies are asked for: any calls with the same bytes get the first of the replies, and all of them
with the same end where no further reply is to be had. -/
theorem replies_of_bytes {ok : Bool} {q : RedisReader}
    (hbytes : calls.flatMap Call.bytes = calls'.flatMap Call.bytes)
    (h : replies calls = some (out, r)) (hend : r.getReply = some (ok, q, none))
    (h' : replies calls' = some (out', r')) :
    out' <+: out ∧ ∀ ok' q', r'.getReply = some (ok', q', none) →
      out' = out ∧ ok' = ok ∧ q'.err = q.err := by
  obtain ⟨t, hrep, hitems⟩ := replies_follow h
  obtain ⟨t', hrep', hitems'⟩ := replies_follow h'
  obtain ⟨e, hgo, hq, rfl⟩ := goOn_of_getReply hrep hend
  rw [hgo, List.append_nil] at hitems
  rw [← hbytes, hitems] at hitems'
  refine ⟨⟨_, (congrArg Prod.fst hitems').symm⟩, fun ok' q' hend' => ?_⟩
  obtain ⟨e', hgo', hq', rfl⟩ := goOn_of_getReply hrep' hend'
  rw [hgo', List.append_nil] at hitems'
  obtain ⟨rfl, rfl⟩ := Prod.mk.inj hitems'
  have herr := hq.err_eq hq'
  exact ⟨rfl, by rw [herr], herr.symm⟩

/-- A reply is looked for, unless C leaves undefined what the stream holds. -/
theorem getReply_isSome {t : End UInt8 (List ReadTask) (Option (Err × Bytes))} (h : Rep r t)
    (hdefined : (goOn look t []).2 ≠ .error none) : r.getReply.isSome := by
  cases t with
  | error e =>
    obtain ⟨herr, hne⟩ := h.1
    have hsome : r.err.isSome = true := by
      rw [herr, Option.isSome_iff_ne_none]
      exact hne
    rw [RedisReader.getReply, if_pos hsome]
    rfl
  | ok t =>
    obtain ⟨s, b⟩ := t
    obtain ⟨⟨herr, hstarted, rfl, hpos⟩, hown⟩ := h
    rw [RedisReader.getReply, if_neg (by simp [herr])]
    split
    · rfl
    · rw [Option.isSome_map]
      cases hloop : RedisReader.processItems (r.rest.length + 1)
        { r with rstack := started r.rstack } with
      | some r₁ => rfl
      | none =>
        have hends := processItems_started herr (hown herr).1 hpos hstarted
        rw [hloop] at hends
        have hone : (readOne look (r.rest.length + 1) s r.rest).2 = .error none := hends
        refine absurd ?_ hdefined
        rw [Lib.Stream.goOn_ok, List.append_nil,
          Lib.Stream.readOne_items steady_look (Nat.lt_succ_self _), hone]
        rfl

theorem replies_isSome (hdefined : (items look [] (calls.flatMap Call.bytes)).2 ≠ .error none) :
    ∃ out r, replies calls = some (out, r) := by
  induction calls using List.reverseRecOn with
  | nil => exact ⟨_, _, rfl⟩
  | append_singleton calls c ih =>
    rw [List.flatMap_append, Lib.Stream.items_append steady_look] at hdefined
    have hbefore : (items look [] (calls.flatMap Call.bytes)).2 ≠ .error none := by
      intro herror
      rw [herror] at hdefined
      exact hdefined rfl
    obtain ⟨out, r, h⟩ := ih hbefore
    obtain ⟨t, hrep, hitems⟩ := replies_follow h
    have happend : replies (calls ++ [c]) = c.exec (out, r) := by
      rw [replies, List.foldlM_append]
      rw [replies] at h
      rw [h]
      simp
    rw [happend]
    cases c with
    | feed b => exact ⟨_, _, rfl⟩
    | getReply =>
      have hrest : (goOn look t []).2 ≠ .error none := by
        rw [hitems] at hbefore
        exact hbefore
      obtain ⟨x, hx⟩ := Option.isSome_iff_exists.1 (getReply_isSome hrep hrest)
      exact ⟨_, _, by rw [Call.exec, hx]; rfl⟩

/-- Two replies at once, and in pieces; the calls get both of them. -/
def atOnce : List Call := [.feed (ascii ":7\r\n$2\r\nOK\r\n"), .getReply, .getReply]

def inPieces : List Call :=
  [.feed (ascii ":7\r"), .getReply, .feed (ascii "\n$2\r\nO"), .getReply, .getReply,
    .feed (ascii "K\r\n"), .getReply]

theorem replies_of_bytes_pieces : ∃ out r out' r', replies atOnce = some (out, r) ∧
    replies inPieces = some (out', r') ∧ out.length = 2 ∧ out' = out := by
  have hdrained (calls : List Call) (h : ((replies calls).any fun t =>
      t.1.length = 2 && t.2.getReply.any fun x => x.2.2.isNone) = true) :
      ∃ out r ok q, replies calls = some (out, r) ∧ out.length = 2 ∧
        r.getReply = some (ok, q, none) := by
    obtain ⟨⟨out, r⟩, hrun, hboth⟩ := (Option.any_eq_true _ _).1 h
    obtain ⟨hlen, hend⟩ := Bool.and_eq_true_iff.1 hboth
    obtain ⟨⟨ok, q, x⟩, hget, hx⟩ := (Option.any_eq_true _ _).1 hend
    obtain rfl : x = none := Option.isNone_iff_eq_none.1 hx
    exact ⟨out, r, ok, q, hrun, of_decide_eq_true hlen, hget⟩
  have hbytes : atOnce.flatMap Call.bytes = inPieces.flatMap Call.bytes := by decide
  obtain ⟨out, r, ok, q, hrun, hlen, hget⟩ := hdrained atOnce (by decide +kernel)
  obtain ⟨out', r', ok', q', hrun', -, hget'⟩ := hdrained inPieces (by decide +kernel)
  exact ⟨out, r, out', r', hrun, hrun', hlen,
    ((replies_of_bytes hbytes hrun hget hrun').2 ok' q' hget').1⟩

end Calls

end Doorhinges.Hiredis

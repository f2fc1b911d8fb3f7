import Doorhinges.Lib.Pieces
import Doorhinges.Wire.Framing
import Mathlib.Data.List.TakeWhile

/-!
# The commands are the lines of the stream

However the stream is cut into reads, the bytes received are the lines handed over followed
by the unread bytes of the buffer, as long as no read fills the buffer. Where the connection
waits for more there is no newline left in them.
-/
namespace Doorhinges.Wire

open Lib.CString
open Lib.Machine
open Lib.Pieces

/-- The newline-terminated lines, as the handler gets them. -/
def lines (s : Bytes) : List Bytes := (pieces 10 s).map chomp

/-- No more than a kilobyte without a newline. -/
def LinesFit (s : Bytes) : Prop :=
  ∀ pre seg post, s = pre ++ seg ++ post → 10 ∉ seg → seg.length ≤ 1024

theorem LinesFit.of_append {s t : Bytes} (h : LinesFit (s ++ t)) : LinesFit s := by
  rintro pre seg post rfl hseg
  exact h pre seg (post ++ t) (by rw [List.append_assoc]) hseg

theorem linesFit_of_length {s : Bytes} (h : s.length ≤ 1024) : LinesFit s := by
  rintro pre seg post rfl -
  simp only [List.length_append] at h
  omega

theorem lines_cons {line : Bytes} (h : 10 ∉ line) (s : Bytes) :
    lines (line ++ 10 :: s) = chomp line :: lines s := by
  rw [lines, pieces_cons h, List.map_cons, lines]

theorem lines_of_not_mem {s : Bytes} (h : 10 ∉ s) : lines s = [] := by
  rw [lines, pieces_of_not_mem h, List.map_nil]

/-- The bytes that a call of `read` brings. -/
def ReadResult.bytes : ReadResult → Bytes
  | .data bytes => bytes
  | _ => []

section Buffer

variable {fresh : Nat → UInt8} {c c' : Conn} {bytes more : Bytes}

theorem length_window (h : c.rcurr + c.rbytes ≤ c.rbuf.length) : c.window.length = c.rbytes := by
  simp only [Conn.window, List.length_take, List.length_drop]
  omega

/-- The buffer of `c'` holds the unread bytes of `c` and what has been read since, from its
start on. -/
structure Extends (c c' : Conn) (bytes : Bytes) : Prop where
  rcurr : c'.rcurr = 0
  bound : c'.rbytes ≤ c'.rbuf.length
  rbytes : c'.rbytes = c.rbytes + bytes.length
  size : c'.rbuf.length = c.rbuf.length
  window : c'.window = c.window ++ bytes
  state : c'.state = c.state
  writeAndGo : c'.writeAndGo = c.writeAndGo
  running : c'.running = c.running
  pooled : c'.pooled = c.pooled

theorem Extends.trans {c'' : Conn} (h : Extends c c' bytes) (h' : Extends c' c'' more) :
    Extends c c'' (bytes ++ more) where
  rcurr := h'.rcurr
  bound := h'.bound
  rbytes := by rw [h'.rbytes, h.rbytes, List.length_append, Nat.add_assoc]
  size := h'.size.trans h.size
  window := by rw [h'.window, h.window, List.append_assoc]
  state := h'.state.trans h.state
  writeAndGo := h'.writeAndGo.trans h.writeAndGo
  running := h'.running.trans h.running
  pooled := h'.pooled.trans h.pooled

theorem extends_self (h0 : c.rcurr = 0) (h : c.rbytes ≤ c.rbuf.length) : Extends c c [] :=
  ⟨h0, h, rfl, rfl, by simp, rfl, rfl, rfl, rfl⟩

theorem extends_compact (h : c.rcurr + c.rbytes ≤ c.rbuf.length) : Extends c c.compact [] := by
  have hlen := length_window h
  unfold Conn.compact
  split
  · have hsize : (c.window ++ c.rbuf.drop c.window.length).length = c.rbuf.length := by
      rw [List.length_append, List.length_drop]
      omega
    refine ⟨rfl, ?_, rfl, hsize, ?_, rfl, rfl, rfl, rfl⟩
    · show c.rbytes ≤ _
      rw [hsize]
      omega
    · rw [List.append_nil]
      conv_lhs => rw [Conn.window]
      dsimp only
      rw [List.drop_zero, ← hlen, List.take_left]
  · rename_i h0
    exact extends_self (by simpa using h0) (by omega)

theorem extends_fill (h0 : c.rcurr = 0) (h : c.rbytes + bytes.length ≤ c.rbuf.length) :
    Extends c (c.fill bytes) bytes := by
  have hsize : (c.fill bytes).rbuf.length = c.rbuf.length := by
    simp only [Conn.fill, List.length_append, List.length_take, List.length_drop]
    omega
  refine ⟨h0, hsize ▸ h, rfl, hsize, ?_, rfl, rfl, rfl, rfl⟩
  have hlen : (c.rbuf.take c.rbytes ++ bytes).length = c.rbytes + bytes.length := by
    rw [List.length_append, List.length_take]
    omega
  simp only [Conn.window, Conn.fill, h0, List.drop_zero]
  rw [← hlen, List.take_left]

/-- What `try_read_network` reports about the bytes it has read. -/
structure Reports (results : List ReadResult) (got got' : TryRead) (bytes : Bytes) : Prop where
  read : bytes = results.flatMap ReadResult.bytes
  noData : got' = .noData → got = .noData ∧ bytes = []
  error : got' = .error → got = .error ∨ .failed ∈ results
  memory : got' = .memoryError → got = .memoryError

theorem Reports.trans {r rest : List ReadResult} {got got' got'' : TryRead}
    (h : Reports r got got' bytes) (h' : Reports rest got' got'' more) :
    Reports (r ++ rest) got got'' (bytes ++ more) where
  read := by rw [List.flatMap_append, ← h.read, ← h'.read]
  noData hn := by
    obtain ⟨hn', rfl⟩ := h'.noData hn
    obtain ⟨hn, rfl⟩ := h.noData hn'
    exact ⟨hn, rfl⟩
  error he := by
    rcases h'.error he with he | hf
    · exact (h.error he).imp_right (List.mem_append_left _)
    · exact .inr (List.mem_append_right _ hf)
  memory hm := h.memory (h'.memory hm)

/-- A call goes on exactly where it has filled the buffer. -/
theorem readOnce_spec {r : ReadResult} {got got' : TryRead} {again : Bool} (h0 : c.rcurr = 0)
    (hroom : c.rbytes < c.rbuf.length) (hgot : got ≠ .undefined)
    (h : readOnce c got r = some (c', bytes, got', again)) :
    Extends c c' bytes ∧ Reports [r] got got' bytes ∧ got' ≠ .undefined ∧
      (again ↔ c'.rbytes = c'.rbuf.length) := by
  cases r with
  | data bs =>
    simp only [readOnce, Option.ite_none_right_eq_some, Option.some.injEq, Prod.mk.injEq] at h
    obtain ⟨⟨hpos, hle⟩, rfl, rfl, rfl, rfl⟩ := h
    have hext : Extends c (c.fill bs) bs := extends_fill h0 (by omega)
    refine ⟨hext, ⟨by simp [ReadResult.bytes], ?_, ?_, ?_⟩, TryRead.noConfusion, ?_⟩
    · exact fun h => TryRead.noConfusion h
    · exact fun h => TryRead.noConfusion h
    · exact fun h => TryRead.noConfusion h
    · rw [decide_eq_true_eq, hext.rbytes, hext.size]
      omega
  | wouldBlock =>
    simp only [readOnce, Option.some.injEq, Prod.mk.injEq] at h
    obtain ⟨rfl, rfl, rfl, rfl⟩ := h
    refine ⟨extends_self h0 hroom.le, ⟨rfl, fun h => ⟨h, rfl⟩, .inl, id⟩, hgot, ?_⟩
    exact iff_of_false Bool.false_ne_true hroom.ne
  | failed =>
    simp only [readOnce, Option.some.injEq, Prod.mk.injEq] at h
    obtain ⟨rfl, rfl, rfl, rfl⟩ := h
    refine ⟨extends_self h0 hroom.le, ⟨rfl, fun h => TryRead.noConfusion h,
      fun _ => .inr List.mem_cons_self, fun h => TryRead.noConfusion h⟩, TryRead.noConfusion, ?_⟩
    exact iff_of_false Bool.false_ne_true hroom.ne
  | noMemory => cases h

theorem readLoop_full (hp : c.pooled) (hfull : c.rbuf.length ≤ c.rbytes) {got : TryRead}
    {results : List ReadResult} : readLoop fresh 0 c got results =
      if results = [] then some (c, [], .undefined) else none := by
  rw [readLoop.eq_def]
  dsimp only
  rw [if_neg (by simp), if_pos ⟨hfull, hp⟩]

theorem readLoop_roomy (hroom : c.rbytes < c.rbuf.length) {got : TryRead} {r : ReadResult}
    {rest : List ReadResult} (hr : r ≠ .noMemory) :
    readLoop fresh 0 c got (r :: rest) = (readOnce c got r).bind fun x =>
      if x.2.2.2 then
        (readLoop fresh 0 x.1 x.2.2.1 rest).bind fun y => some (y.1, x.2.1 ++ y.2.1, y.2.2)
      else if rest = [] then some (x.1, x.2.1, x.2.2.1) else none := by
  have hnot : ¬ c.rbytes ≥ c.rbuf.length := Nat.not_le.2 hroom
  rw [readLoop, if_neg fun h => hnot h.1, if_neg fun h => hnot h.1]
  · simp only [if_neg hnot]
    rfl
  · exact hr

theorem readLoop_spec {results : List ReadResult} {got got' : TryRead} (hp : c.pooled)
    (hm : .noMemory ∉ results) (h0 : c.rcurr = 0) (hb : c.rbytes ≤ c.rbuf.length)
    (hgot : got ≠ .undefined)
    (h : readLoop fresh 0 c got results = some (c', bytes, got')) :
    Extends c c' bytes ∧ Reports results got got' bytes ∧
      (got' = .undefined ↔ c'.rbytes = c'.rbuf.length) := by
  induction results generalizing c got bytes with
  | nil =>
    rcases Nat.lt_or_ge c.rbytes c.rbuf.length with hroom | hfull
    · rw [readLoop, if_neg fun h => Nat.not_le.2 hroom h.1,
        if_neg fun h => Nat.not_le.2 hroom h.1] at h
      cases h
    · rw [readLoop_full hp hfull, if_pos rfl, Option.some.injEq, Prod.mk.injEq,
        Prod.mk.injEq] at h
      obtain ⟨rfl, rfl, rfl⟩ := h
      refine ⟨extends_self h0 hb, ⟨rfl, fun h => TryRead.noConfusion h,
        fun h => TryRead.noConfusion h, fun h => TryRead.noConfusion h⟩, ?_⟩
      exact iff_of_true rfl (Nat.le_antisymm hb hfull)
  | cons r rest ih =>
    rw [List.mem_cons, not_or] at hm
    rcases Nat.lt_or_ge c.rbytes c.rbuf.length with hroom | hfull
    · rw [readLoop_roomy hroom (Ne.symm hm.1)] at h
      obtain ⟨⟨c₁, b₁, got₁, again⟩, honce, h⟩ := Option.bind_eq_some_iff.1 h
      obtain ⟨hext, hrep, hgot₁, hagain⟩ := readOnce_spec h0 hroom hgot honce
      dsimp only at h
      split at h
      · obtain ⟨⟨c₂, b₂, got₂⟩, hloop, h⟩ := Option.bind_eq_some_iff.1 h
        simp only [Option.some.injEq, Prod.mk.injEq] at h
        obtain ⟨rfl, rfl, rfl⟩ := h
        obtain ⟨hext', hrep', hfull⟩ :=
          ih (hext.pooled.trans hp) hm.2 hext.rcurr hext.bound hgot₁ hloop
        exact ⟨hext.trans hext', hrep.trans hrep', hfull⟩
      · rename_i hstop
        split at h
        · rename_i hrest
          simp only [Option.some.injEq, Prod.mk.injEq] at h
          obtain ⟨rfl, rfl, rfl⟩ := h
          rw [hrest]
          exact ⟨hext, hrep, iff_of_false hgot₁ fun hfull => hstop (hagain.2 hfull)⟩
        · cases h
    · rw [readLoop_full hp hfull, if_neg (List.cons_ne_nil r rest)] at h
      cases h

/-- What `try_read_network` does where memory is there: it is defined exactly where a byte of
the buffer is left. -/
theorem tryReadNetwork_spec {results : List ReadResult} {got : TryRead} (hp : c.pooled)
    (hm : .noMemory ∉ results) (hb : c.rcurr + c.rbytes ≤ c.rbuf.length)
    (h : tryReadNetwork fresh c results = some (c', bytes, got)) :
    Extends c c' bytes ∧ Reports results .noData got bytes ∧
      (got = .undefined ↔
        ¬ c.rbytes + (results.flatMap ReadResult.bytes).length < c.rbuf.length) := by
  have hcompact := extends_compact hb
  obtain ⟨hext, hrep, hfull⟩ := readLoop_spec (hcompact.pooled.trans hp) hm hcompact.rcurr
    hcompact.bound TryRead.noConfusion h
  have hext : Extends c c' bytes := hcompact.trans hext
  refine ⟨hext, hrep, ?_⟩
  have hbytes := hext.rbytes
  have hle := hext.bound
  rw [hfull, ← hrep.read, ← hbytes, ← hext.size]
  omega

end Buffer

section Run

variable {fresh : Nat → UInt8} {reqsPerEvent : Int} {w t : World}

/-- The connection stays open: no call fails, and memory is there. -/
def Open (_ : World) : Label → Prop
  | .round updated => updated = true
  | .network results => .failed ∉ results ∧ .noMemory ∉ results
  | .transmit result => result ≠ .hardError
  | _ => True

instance : ∀ w i, Decidable (Open w i)
  | _, .round updated => inferInstanceAs (Decidable (updated = true))
  | _, .network results =>
    inferInstanceAs (Decidable (.failed ∉ results ∧ .noMemory ∉ results))
  | _, .transmit result => inferInstanceAs (Decidable (result ≠ .hardError))
  | _, .wake => isTrue trivial
  | _, .parse _ _ => isTrue trivial

/-- What is read leaves a byte of the buffer free. -/
def Spare (w : World) : Label → Prop
  | .network results =>
    w.conn.rbytes + (results.flatMap ReadResult.bytes).length < w.conn.rbuf.length
  | _ => True

def Smooth (w : World) (i : Label) : Prop := Open w i ∧ Spare w i

structure Framed (w : World) : Prop where
  bound : w.conn.rcurr + w.conn.rbytes ≤ w.conn.rbuf.length
  size : w.conn.rbuf.length = DATA_BUFFER_SIZE
  pooled : w.conn.pooled
  split : ∃ consumed, w.received = consumed ++ w.conn.window ∧
    ∀ x, lines (consumed ++ x) = w.handed ++ lines x
  quiet : w.conn.state = .waiting ∨ w.conn.state = .read → 10 ∉ w.conn.window
  go : w.conn.state = .write → w.conn.writeAndGo = .newCmd
  closing : w.conn.state = .closing → ¬ LinesFit w.received
  defined : w.conn.state ≠ .undefined

theorem Framed.initial (h : w.Initial) : Framed w := by
  have hwindow : w.conn.window = [] := by rw [Conn.window, h.rbytes, List.take_zero]
  refine ⟨?_, h.rbuf, h.pooled, ⟨[], ?_, ?_⟩, ?_, ?_, ?_, ?_⟩
  · rw [h.rcurr, h.rbytes]
    exact Nat.zero_le _
  · rw [h.received, hwindow, List.append_nil]
  · intro x
    rw [h.handed, List.nil_append, List.nil_append]
  · intro _
    rw [hwindow]
    exact List.not_mem_nil
  · intro hs
    rw [h.state] at hs
    cases hs
  · intro hs
    rw [h.state] at hs
    cases hs
  · rw [h.state]
    exact ConnState.noConfusion

/-- A change of the fields that do not hold the bytes. -/
theorem Framed.of_same {c : Conn} (h : Framed w) (hbuf : c.rbuf = w.conn.rbuf)
    (hcurr : c.rcurr = w.conn.rcurr) (hbytes : c.rbytes = w.conn.rbytes)
    (hpooled : c.pooled = w.conn.pooled)
    (hquiet : c.state = .waiting ∨ c.state = .read → 10 ∉ w.conn.window)
    (hgo : c.state = .write → c.writeAndGo = .newCmd)
    (hclosing : c.state = .closing → ¬ LinesFit w.received) (hdefined : c.state ≠ .undefined) :
    Framed { w with conn := c } := by
  have hwindow : c.window = w.conn.window := by rw [Conn.window, hbuf, hcurr, hbytes, Conn.window]
  refine ⟨?_, ?_, hpooled.trans h.pooled, ?_, ?_, hgo, hclosing, hdefined⟩
  · show c.rcurr + c.rbytes ≤ c.rbuf.length
    rw [hcurr, hbytes, hbuf]
    exact h.bound
  · show c.rbuf.length = _
    rw [hbuf]
    exact h.size
  · show ∃ consumed, w.received = consumed ++ c.window ∧ _
    rw [hwindow]
    exact h.split
  · show _ → 10 ∉ c.window
    rw [hwindow]
    exact hquiet

theorem Framed.round (h : Framed w) {c : Conn} (hs : w.conn.round true = some c) :
    Framed { w with conn := c } := by
  unfold Conn.round at hs
  split at hs
  · dsimp only at hs
    split at hs
    · obtain rfl := Option.some.inj hs
      refine h.of_same rfl rfl rfl rfl ?_ ?_ ?_ ?_
      · intro hstate
        dsimp only at hstate
        split at hstate
        · simp at hstate
        · rename_i hempty
          have hzero : w.conn.rbytes = 0 := by omega
          rw [Conn.window, hzero, List.take_zero]
          exact List.not_mem_nil
      all_goals
        intro hstate
        dsimp only at hstate
        split at hstate <;> cases hstate
    · rw [if_neg (by simp)] at hs
      obtain rfl := Option.some.inj hs
      exact h.of_same rfl rfl rfl rfl h.quiet h.go h.closing h.defined
  · rename_i hwaiting
    rw [if_pos rfl] at hs
    obtain rfl := Option.some.inj hs
    refine h.of_same rfl rfl rfl rfl (fun _ => h.quiet (.inl hwaiting)) ?_ ?_ ConnState.noConfusion
    · intro hstate
      cases hstate
    · intro hstate
      cases hstate
  · cases hs

theorem Framed.transmitted (h : Framed w) (hstate : w.conn.state = .write) {r : Transmit}
    (hr : r ≠ .hardError) : Framed { w with conn := w.conn.transmitted r } := by
  have hgo := h.go hstate
  cases r with
  | complete =>
    refine h.of_same rfl rfl rfl rfl ?_ ?_ ?_ ?_
    all_goals
      intro hs
      simp [Conn.transmitted, hgo] at hs
  | incomplete => exact h
  | softError => exact h.of_same rfl rfl rfl rfl h.quiet h.go h.closing h.defined
  | hardError => exact absurd rfl hr

theorem Framed.networked (h : Framed w) (hstate : w.conn.state = .read) {results : List ReadResult}
    (hf : .failed ∉ results) (hm : .noMemory ∉ results) (hspare : Spare w (.network results))
    {r : Conn × Bytes × TryRead} (hr : tryReadNetwork fresh w.conn results = some r) :
    Framed { w with conn := r.1.networked r.2.2, received := w.received ++ r.2.1 } := by
  obtain ⟨c, bytes, got⟩ := r
  obtain ⟨hext, hrep, hundefined⟩ := tryReadNetwork_spec h.pooled hm h.bound hr
  obtain ⟨consumed, hreceived, hlines⟩ := h.split
  have hbound : c.rcurr + c.rbytes ≤ c.rbuf.length := by
    have := hext.bound
    rw [hext.rcurr]
    omega
  have hbase : Framed ⟨{ c with state := .parseCmd }, w.received ++ bytes, w.handed⟩ := by
    refine ⟨hbound, hext.size.trans h.size, hext.pooled.trans h.pooled, ⟨consumed, ?_, hlines⟩,
      ?_, ?_, ?_, ConnState.noConfusion⟩
    · show w.received ++ bytes = consumed ++ c.window
      rw [hreceived, hext.window, List.append_assoc]
    all_goals
      intro hs
      simp at hs
  dsimp only
  cases got with
  | noData =>
    obtain ⟨-, rfl⟩ := hrep.noData rfl
    refine hbase.of_same (c := { c with state := .waiting }) rfl rfl rfl rfl (fun _ => ?_) ?_ ?_ ?_
    · show 10 ∉ c.window
      rw [hext.window, List.append_nil]
      exact h.quiet (.inr hstate)
    all_goals
      intro hs
      cases hs
  | dataReceived => exact hbase
  | error => exact absurd ((hrep.error rfl).resolve_left (by simp)) hf
  | memoryError => exact absurd (hrep.memory rfl) (by simp)
  | undefined => exact absurd hspare (hundefined.1 rfl)

theorem length_chomp_le (line : Bytes) : (chomp line).length ≤ line.length := by
  unfold chomp
  split
  · rw [List.length_dropLast]
    omega
  · exact Nat.le_refl _

/-- The unread bytes up to a newline, the newline, and the rest. -/
theorem window_split {c : Conn} {el : Nat} (h : c.window.findIdx? (· = 10) = some el) :
    el < c.window.length ∧ 10 ∉ c.window.take el ∧
      c.window = c.window.take el ++ 10 :: c.window.drop (el + 1) := by
  obtain ⟨hlt, hel, hbefore⟩ := List.findIdx?_eq_some_iff_getElem.1 h
  refine ⟨hlt, ?_, ?_⟩
  · intro hmem
    obtain ⟨i, hi, hget⟩ := List.mem_iff_getElem.1 hmem
    rw [List.length_take] at hi
    rw [List.getElem_take] at hget
    exact hbefore i (by omega) (by simpa using hget)
  · have hten : c.window[el] = 10 := by simpa using hel
    conv_lhs => rw [← List.take_append_drop el c.window]
    rw [List.drop_eq_getElem_cons hlt, hten]

theorem window_takeLine {c : Conn} {el : Nat} {scratch : Bytes} (hs : scratch.length ≤ el + 1)
    (hb : c.rcurr + scratch.length ≤ c.rbuf.length) :
    ((c.overwrite scratch).rbuf.drop (c.rcurr + (el + 1))).take (c.rbytes - (el + 1)) =
      c.window.drop (el + 1) := by
  have hlen : (c.rbuf.take c.rcurr ++ scratch).length = c.rcurr + scratch.length := by
    rw [List.length_append, List.length_take]
    omega
  have hbehind : (c.overwrite scratch).rbuf.drop (c.rcurr + (el + 1)) =
      c.rbuf.drop (c.rcurr + (el + 1)) := by
    have hindex : c.rcurr + (el + 1) = c.rcurr + scratch.length + (el + 1 - scratch.length) := by
      omega
    have hscratch : (c.overwrite scratch).rbuf.drop (c.rcurr + scratch.length) =
        c.rbuf.drop (c.rcurr + scratch.length) := by
      conv_lhs => rw [← hlen]
      exact List.drop_left
    have hdrop (l : Bytes) : l.drop (c.rcurr + (el + 1)) =
        (l.drop (c.rcurr + scratch.length)).drop (el + 1 - scratch.length) := by
      rw [List.drop_drop, ← hindex]
    rw [hdrop, hdrop, hscratch]
  rw [hbehind, Conn.window, List.drop_take, List.drop_drop]

theorem Framed.taken (h : Framed w) {el : Nat} (hel : w.conn.window.findIdx? (· = 10) = some el)
    (hstate : w.conn.state = .parseCmd) {replies : Bool} {scratch : Bytes} {r : Conn × Bytes}
    (hr : w.conn.takeLine el replies scratch = some r) :
    Framed { w with conn := r.1, handed := w.handed ++ [r.2] } := by
  obtain ⟨hlt, hnone, hsplit⟩ := window_split hel
  obtain ⟨consumed, hreceived, hlines⟩ := h.split
  have hbound := h.bound
  rw [length_window hbound] at hlt
  unfold Conn.takeLine at hr
  dsimp only at hr
  split at hr
  · rename_i hscratch
    have hle : scratch.length ≤ el + 1 := by
      have := length_chomp_le (w.conn.window.take el)
      rw [List.length_take] at this
      omega
    obtain rfl := Option.some.inj hr
    have hwindow := window_takeLine hle (show w.conn.rcurr + scratch.length ≤ _ by omega)
    have hlength : (w.conn.overwrite scratch).rbuf.length = w.conn.rbuf.length := by
      simp only [Conn.overwrite, List.length_append, List.length_take, List.length_drop]
      omega
    refine ⟨?_, hlength.trans h.size, h.pooled,
      ⟨consumed ++ w.conn.window.take el ++ [10], ?_, ?_⟩, ?_, ?_, ?_, ?_⟩
    · show w.conn.rcurr + (el + 1) + (w.conn.rbytes - (el + 1)) ≤ _
      rw [hlength]
      omega
    · show w.received = _ ++ ((w.conn.overwrite scratch).rbuf.drop _).take _
      rw [show (w.conn.overwrite scratch).rbytes = w.conn.rbytes from rfl,
        show (w.conn.overwrite scratch).rcurr = w.conn.rcurr from rfl, hwindow, hreceived]
      conv_lhs => rw [hsplit]
      simp only [List.append_assoc, List.singleton_append]
    · intro x
      rw [List.append_assoc, List.append_assoc, hlines, List.singleton_append, lines_cons hnone,
        List.append_assoc, List.singleton_append]
    · intro hs
      cases replies <;> simp [Conn.overwrite, hstate] at hs
    · intro hs
      cases replies
      · simp [Conn.overwrite, hstate] at hs
      · rfl
    · intro hs
      cases replies <;> simp [Conn.overwrite, hstate] at hs
    · intro hs
      cases replies <;> simp [Conn.overwrite, hstate] at hs
  · cases hr

theorem Framed.parsed (h : Framed w) (hstate : w.conn.state = .parseCmd) {replies : Bool}
    {scratch : Bytes} {r : Conn × List Bytes × Bool}
    (hr : tryReadCommand w.conn replies scratch = some r) :
    Framed
      { w with
        conn := if r.2.2 then r.1 else { r.1 with state := .waiting }
        handed := w.handed ++ r.2.1 } := by
  unfold tryReadCommand at hr
  split at hr
  · rename_i el hel
    obtain ⟨r', hr', rfl⟩ := Option.map_eq_some_iff.1 hr
    exact h.taken hel hstate hr'
  · rename_i hel
    have hnone : 10 ∉ w.conn.window := by
      intro hmem
      rw [List.findIdx?_eq_none_iff] at hel
      simpa using hel 10 hmem
    split at hr
    · rename_i hlong
      obtain rfl := Option.some.inj hr
      rw [show w.handed ++ ([] : List Bytes) = w.handed from List.append_nil _]
      refine h.of_same (c := { w.conn with state := .closing }) rfl rfl rfl rfl ?_ ?_ ?_
        ConnState.noConfusion
      · intro _
        exact hnone
      · intro hs
        cases hs
      · intro _ hfit
        obtain ⟨consumed, hreceived, -⟩ := h.split
        have := hfit consumed w.conn.window [] (by rw [hreceived, List.append_nil]) hnone
        rw [length_window h.bound] at this
        omega
    · obtain rfl := Option.some.inj hr
      rw [show w.handed ++ ([] : List Bytes) = w.handed from List.append_nil _]
      refine h.of_same (c := { w.conn with state := .waiting }) rfl rfl rfl rfl (fun _ => hnone)
        ?_ ?_ ?_
      all_goals
        intro hs
        cases hs

theorem framed_step {i : Label} (h : Framed w) (hi : Smooth w i)
    (hs : step fresh reqsPerEvent w i = some t) : Framed t := by
  obtain ⟨ho, hspare⟩ := hi
  cases i with
  | wake =>
    rw [step] at hs
    split at hs
    · cases hs
    · obtain rfl := Option.some.inj hs
      exact h.of_same rfl rfl rfl rfl h.quiet h.go h.closing h.defined
  | round updated =>
    rw [step] at hs
    split at hs
    · obtain ⟨c, hc, rfl⟩ := Option.map_eq_some_iff.1 hs
      rw [show updated = true from ho] at hc
      exact h.round hc
    · cases hs
  | network results =>
    rw [step] at hs
    split at hs
    · rename_i hstate
      obtain ⟨r, hr, rfl⟩ := Option.map_eq_some_iff.1 hs
      exact h.networked hstate.2 ho.1 ho.2 hspare hr
    · cases hs
  | parse replies scratch =>
    rw [step] at hs
    split at hs
    · rename_i hstate
      obtain ⟨r, hr, rfl⟩ := Option.map_eq_some_iff.1 hs
      exact h.parsed hstate.2 hr
    · cases hs
  | transmit result =>
    rw [step] at hs
    split at hs
    · rename_i hstate
      obtain rfl := Option.some.inj hs
      exact h.transmitted hstate.2 ho
    · cases hs

theorem Framed.handed_prefix (h : Framed w) : w.handed <+: lines w.received := by
  obtain ⟨consumed, hreceived, hlines⟩ := h.split
  exact ⟨lines w.conn.window, by rw [hreceived, hlines]⟩

theorem Framed.handed_eq (h : Framed w) (hs : w.conn.state = .waiting ∨ w.conn.state = .read) :
    w.handed = lines w.received := by
  obtain ⟨consumed, hreceived, hlines⟩ := h.split
  rw [hreceived, hlines, lines_of_not_mem (h.quiet hs), List.append_nil]

/-- Where the connection waits for more, what is unread is the beginning of one line. -/
theorem Framed.unread_le (h : Framed w) (hfit : LinesFit w.received)
    (hs : w.conn.state = .waiting ∨ w.conn.state = .read) : w.conn.rbytes ≤ 1024 := by
  obtain ⟨consumed, hreceived, -⟩ := h.split
  rw [← length_window h.bound]
  exact hfit consumed w.conn.window [] (by rw [hreceived, List.append_nil]) (h.quiet hs)

end Run

end Doorhinges.Wire

import Doorhinges.Wire.Lines

/-!
# When the lines come through

As long as no read has filled the buffer the machine comes to wait for more, and whatever
keeps the limit of a line can then be received and is handed on. A read that fills the buffer
ends in the `realloc` of a pointer into the block of the pool.
-/
namespace Doorhinges.Wire

open Lib.CString
open Lib.Machine

section Network

variable {fresh : Nat → UInt8} {c : Conn}

theorem tryReadNetwork_wouldBlock (hb : c.rcurr + c.rbytes ≤ c.rbuf.length)
    (hroom : c.rbytes < c.rbuf.length) :
    tryReadNetwork fresh c [.wouldBlock] = some (c.compact, [], .noData) := by
  have hcompact := extends_compact hb
  have hroom : c.compact.rbytes < c.compact.rbuf.length := by
    rw [hcompact.rbytes, hcompact.size]
    exact hroom
  rw [tryReadNetwork, readLoop_roomy hroom ReadResult.noConfusion]
  rfl

/-- A read that leaves a byte free is the only one. -/
theorem tryReadNetwork_data (hb : c.rcurr + c.rbytes ≤ c.rbuf.length) {bytes : Bytes}
    (hbytes : bytes ≠ []) (hroom : c.rbytes + bytes.length < c.rbuf.length) :
    tryReadNetwork fresh c [.data bytes] = some (c.compact.fill bytes, bytes, .dataReceived) := by
  have hcompact := extends_compact hb
  have hrbytes : c.compact.rbytes = c.rbytes := hcompact.rbytes
  have hsize := hcompact.size
  have hpos := List.length_pos_iff.2 hbytes
  rw [tryReadNetwork, readLoop_roomy (by omega) ReadResult.noConfusion, readOnce,
    if_pos (by omega), Option.bind_some]
  dsimp only
  rw [decide_eq_false (by omega), if_neg Bool.false_ne_true, if_pos rfl]

/-- A read that fills an empty buffer. -/
theorem tryReadNetwork_fills (hp : c.pooled) (h0 : c.rcurr = 0) (hempty : c.rbytes = 0)
    {bytes : Bytes} (hbytes : bytes ≠ []) (hfull : bytes.length = c.rbuf.length) :
    tryReadNetwork fresh c [.data bytes] = some (c.fill bytes, bytes, .undefined) := by
  have hpos := List.length_pos_iff.2 hbytes
  have hsame : c.compact = c := if_neg fun h => h h0
  have hext : Extends c (c.fill bytes) bytes := extends_fill h0 (by omega)
  have hfill : (c.fill bytes).rbuf.length ≤ (c.fill bytes).rbytes := by
    rw [hext.size, hext.rbytes]
    omega
  rw [tryReadNetwork, hsame, readLoop_roomy (by omega) ReadResult.noConfusion, readOnce,
    if_pos (by omega), Option.bind_some]
  dsimp only
  rw [decide_eq_true (by omega), if_pos rfl, readLoop_full (hext.pooled.trans hp) hfill,
    if_pos rfl, Option.bind_some, List.append_nil]

end Network

section Settling

variable {fresh : Nat → UInt8} {reqsPerEvent : Int} {w t : World}

/-- Waiting for the next event to read more. -/
def Conn.Idle (c : Conn) : Prop := c.running = false ∧ c.state = .read

/-- Without another byte the machine comes to wait for one. -/
def Settles (fresh : Nat → UInt8) (reqsPerEvent : Int) (w : World) : Prop :=
  ∃ t, Reaches (step fresh reqsPerEvent) Smooth w t ∧ t.received = w.received ∧ t.conn.Idle

theorem settles_of_idle (h : w.conn.Idle) : Settles fresh reqsPerEvent w := ⟨w, .refl w, rfl, h⟩

theorem settles_of_step {i : Label} (hi : Smooth w i) (hs : step fresh reqsPerEvent w i = some t)
    (hr : t.received = w.received) (h : Settles fresh reqsPerEvent t) :
    Settles fresh reqsPerEvent w := by
  obtain ⟨u, hreach, hreceived, hidle⟩ := h
  exact ⟨u, hreach.head hi hs, hreceived.trans hr, hidle⟩

theorem settles_of_waiting (hw : w.conn.running = true) (hs : w.conn.state = .waiting) :
    Settles fresh reqsPerEvent w := by
  refine settles_of_step (i := .round true)
    (t := { w with conn := { w.conn with state := .read, running := false } }) ⟨rfl, trivial⟩ ?_
    rfl ?_
  · rw [step, if_pos hw, Conn.round, hs]
    rfl
  · exact settles_of_idle ⟨rfl, rfl⟩

theorem running_compact (c : Conn) : c.compact.running = c.running := by
  unfold Conn.compact
  split <;> rfl

theorem settles_of_read (h : Framed w) (hfit : LinesFit w.received) (hs : w.conn.state = .read) :
    Settles fresh reqsPerEvent w := by
  by_cases hw : w.conn.running = true
  · have hroom : w.conn.rbytes < w.conn.rbuf.length := by
      have hle := h.unread_le hfit (.inr hs)
      rw [h.size, DATA_BUFFER_SIZE]
      omega
    refine settles_of_step (i := .network [.wouldBlock])
      (t := { w with conn := { w.conn.compact with state := .waiting } })
      ⟨⟨by simp, by simp⟩, hroom⟩ ?_ rfl ?_
    · rw [step, if_pos ⟨hw, hs⟩, tryReadNetwork_wouldBlock h.bound hroom, Option.map_some,
        List.append_nil]
      rfl
    · refine settles_of_waiting ?_ rfl
      show w.conn.compact.running = true
      rw [running_compact, hw]
  · exact settles_of_idle ⟨by simpa using hw, hs⟩

/-- The induction is on the unread bytes: each line taken leaves fewer. -/
theorem settles_of_parseCmd {n : Nat} (h : Framed w) (hfit : LinesFit w.received)
    (hw : w.conn.running = true) (hs : w.conn.state = .parseCmd) (hn : w.conn.rbytes = n) :
    Settles fresh reqsPerEvent w := by
  induction n using Nat.strongRecOn generalizing w with
  | ind n ih =>
    cases hel : w.conn.window.findIdx? (· = 10) with
    | some el =>
      obtain ⟨hlt, -, -⟩ := window_split hel
      rw [length_window h.bound] at hlt
      let command := chomp (w.conn.window.take el)
      let r : Conn × Bytes :=
        ({ w.conn.overwrite (List.replicate (command.length + 1) 0) with
            rbytes := w.conn.rbytes - (el + 1), rcurr := w.conn.rcurr + (el + 1) }, command)
      have hline : w.conn.takeLine el false (List.replicate (command.length + 1) 0) = some r := by
        unfold Conn.takeLine
        dsimp only
        rw [if_pos List.length_replicate]
        rfl
      let i := Label.parse false (List.replicate (command.length + 1) 0)
      have hi : Smooth w i := ⟨trivial, trivial⟩
      have hstep : step fresh reqsPerEvent w i =
          some { w with conn := r.1, handed := w.handed ++ [r.2] } := by
        rw [step, if_pos ⟨hw, hs⟩, tryReadCommand, hel]
        dsimp only
        rw [hline]
        rfl
      refine settles_of_step hi hstep rfl (ih (n - (el + 1)) (by omega) ?_ hfit hw hs ?_)
      · exact framed_step h hi hstep
      · show w.conn.rbytes - (el + 1) = n - (el + 1)
        rw [hn]
    | none =>
      have hi : Smooth w (.parse false []) := ⟨trivial, trivial⟩
      by_cases hlong : 1024 < w.conn.rbytes ∧ w.conn.hopeless
      · have hstep : step fresh reqsPerEvent w (.parse false []) =
            some { w with conn := { w.conn with state := .closing } } := by
          rw [step, if_pos ⟨hw, hs⟩, tryReadCommand, hel]
          dsimp only
          rw [if_pos hlong, Option.map_some]
          dsimp only
          rw [List.append_nil]
          rfl
        exact absurd hfit ((framed_step h hi hstep).closing rfl)
      · refine settles_of_step (i := .parse false [])
          (t := { w with conn := { w.conn with state := .waiting } }) hi ?_ rfl ?_
        · rw [step, if_pos ⟨hw, hs⟩, tryReadCommand, hel]
          dsimp only
          rw [if_neg hlong, Option.map_some]
          dsimp only
          rw [List.append_nil]
          rfl
        · exact settles_of_waiting hw rfl

/-- `reset_cmd_handler`. -/
theorem settles_of_reset (h : Framed w) (hfit : LinesFit w.received) (hw : w.conn.running = true)
    (hs : w.conn.state = .newCmd) (hn : 1 ≤ w.conn.nreqs) : Settles fresh reqsPerEvent w := by
  have hi : Smooth w (.round true) := ⟨rfl, trivial⟩
  have hstep : step fresh reqsPerEvent w (.round true) = some
      { w with
        conn := { w.conn with
          nreqs := w.conn.nreqs - 1
          state := if w.conn.rbytes > 0 then .parseCmd else .waiting } } := by
    rw [step, if_pos hw, Conn.round, hs]
    dsimp only
    rw [if_pos (by omega)]
    rfl
  refine settles_of_step hi hstep rfl ?_
  by_cases hempty : w.conn.rbytes > 0
  · exact settles_of_parseCmd (framed_step h hi hstep) hfit hw (if_pos hempty) rfl
  · exact settles_of_waiting hw (if_neg hempty)

theorem step_wake (hw : w.conn.running = false) : step fresh reqsPerEvent w .wake =
    some { w with conn := { w.conn with running := true, nreqs := reqsPerEvent } } := by
  rw [step, if_neg (by rw [hw]; simp)]

/-- The connection had to give way to others. -/
theorem settles_of_yielded (hreqs : 0 < reqsPerEvent) (h : Framed w) (hfit : LinesFit w.received)
    (hw : w.conn.running = false) (hs : w.conn.state = .newCmd) :
    Settles fresh reqsPerEvent w := by
  have hi : Smooth w .wake := ⟨trivial, trivial⟩
  have hstep : step fresh reqsPerEvent w .wake = _ := step_wake hw
  exact settles_of_step hi hstep rfl
    (settles_of_reset (framed_step h hi hstep) hfit rfl hs hreqs)

theorem settles_of_newCmd (hreqs : 0 < reqsPerEvent) (h : Framed w) (hfit : LinesFit w.received)
    (hw : w.conn.running = true) (hs : w.conn.state = .newCmd) :
    Settles fresh reqsPerEvent w := by
  by_cases hn : 1 ≤ w.conn.nreqs
  · exact settles_of_reset h hfit hw hs hn
  · have hi : Smooth w (.round true) := ⟨rfl, trivial⟩
    have hstep : step fresh reqsPerEvent w (.round true) = some
        { w with conn := { w.conn with nreqs := w.conn.nreqs - 1, running := false } } := by
      rw [step, if_pos hw, Conn.round]
      dsimp only
      rw [hs]
      dsimp only
      rw [if_neg (by omega), if_neg (by simp), Option.map_some]
    refine settles_of_step hi hstep rfl ?_
    exact settles_of_yielded hreqs (framed_step h hi hstep) hfit rfl hs

theorem settles_of_running (hreqs : 0 < reqsPerEvent) (h : Framed w) (hfit : LinesFit w.received)
    (hw : w.conn.running = true) : Settles fresh reqsPerEvent w := by
  cases hs : w.conn.state with
  | newCmd => exact settles_of_newCmd hreqs h hfit hw hs
  | waiting => exact settles_of_waiting hw hs
  | read => exact settles_of_read h hfit hs
  | parseCmd => exact settles_of_parseCmd h hfit hw hs rfl
  | write =>
    have hstep : step fresh reqsPerEvent w (.transmit .complete) =
        some { w with conn := { w.conn with state := w.conn.writeAndGo } } := by
      rw [step, if_pos ⟨hw, hs⟩]
      rfl
    have hi : Smooth w (.transmit .complete) := ⟨by simp [Open], trivial⟩
    exact settles_of_step hi hstep rfl
      (settles_of_newCmd hreqs (framed_step h hi hstep) hfit hw (h.go hs))
  | closing => exact absurd hfit (h.closing hs)
  | undefined => exact absurd hs h.defined

theorem Framed.settles (h : Framed w) (hreqs : 0 < reqsPerEvent) (hfit : LinesFit w.received) :
    Settles fresh reqsPerEvent w := by
  by_cases hw : w.conn.running = true
  · exact settles_of_running hreqs h hfit hw
  · have hi : Smooth w .wake := ⟨trivial, trivial⟩
    have hstep : step fresh reqsPerEvent w .wake = _ := step_wake (by simpa using hw)
    exact settles_of_step hi hstep rfl
      (settles_of_running hreqs (framed_step h hi hstep) hfit rfl)

theorem Framed.reaches (h : Framed w) (hr : Reaches (step fresh reqsPerEvent) Smooth w t) :
    Framed t :=
  hr.invariant (fun _ _ _ h hi hs => framed_step h hi hs) h

end Settling

section Receiving

variable {fresh : Nat → UInt8} {reqsPerEvent : Int} {w t : World}

/-- One more byte is read by a connection that waits. -/
theorem Framed.receives_byte (h : Framed w) (hreqs : 0 < reqsPerEvent) (hidle : w.conn.Idle)
    (b : UInt8) (hfit : LinesFit (w.received ++ [b])) :
    ∃ t, Reaches (step fresh reqsPerEvent) Smooth w t ∧ t.conn.Idle ∧
      t.received = w.received ++ [b] := by
  obtain ⟨hw, hs⟩ := hidle
  have hle := h.unread_le hfit.of_append (.inr hs)
  have hsize := h.size
  rw [DATA_BUFFER_SIZE] at hsize
  let u : World := { w with conn := { w.conn with running := true, nreqs := reqsPerEvent } }
  have hi : Smooth w .wake := ⟨trivial, trivial⟩
  have hwake : step fresh reqsPerEvent w .wake = some u := step_wake hw
  have hu : Framed u := framed_step h hi hwake
  have hspare : Smooth u (.network [.data [b]]) := by
    refine ⟨⟨by simp, by simp⟩, ?_⟩
    show w.conn.rbytes + 1 < w.conn.rbuf.length
    omega
  have hread : step fresh reqsPerEvent u (.network [.data [b]]) = some
      { u with
        conn := { u.conn.compact.fill [b] with state := .parseCmd }
        received := w.received ++ [b] } := by
    rw [step, if_pos ⟨rfl, hs⟩, tryReadNetwork_data hu.bound (List.cons_ne_nil b []) hspare.2]
    rfl
  obtain ⟨t, hreach, hreceived, hidle⟩ := (framed_step hu hspare hread).settles hreqs hfit
  exact ⟨t, (hreach.head hspare hread).head hi hwake, hidle, hreceived⟩

/-- Whatever keeps the limit of a line is received, a byte at a time if need be. -/
theorem Framed.receives (h : Framed w) (hreqs : 0 < reqsPerEvent) (hidle : w.conn.Idle)
    (more : Bytes) (hfit : LinesFit (w.received ++ more)) :
    ∃ t, Reaches (step fresh reqsPerEvent) Smooth w t ∧ t.conn.Idle ∧
      t.received = w.received ++ more := by
  induction more generalizing w with
  | nil => exact ⟨w, .refl w, hidle, (List.append_nil _).symm⟩
  | cons b more ih =>
    have hsplit : w.received ++ b :: more = w.received ++ [b] ++ more := by simp
    rw [hsplit] at hfit ⊢
    obtain ⟨u, hu, hidle, hreceived⟩ := h.receives_byte hreqs hidle b hfit.of_append
    rw [← hreceived] at hfit ⊢
    obtain ⟨t, ht, hidle, hreceived⟩ := ih (h.reaches hu) hidle hfit
    exact ⟨t, hu.trans ht, hidle, hreceived⟩

end Receiving

section Main

variable (fresh : Nat → UInt8) (reqsPerEvent : Int)

/-- The bytes received have been cut into lines, and whatever comes next can be. -/
structure Faithful (t : World) : Prop where
  defined : t.conn.state ≠ .undefined
  bound : t.conn.rcurr + t.conn.rbytes ≤ t.conn.rbuf.length
  handed_prefix : t.handed <+: lines t.received
  handed_all : t.conn.state = .waiting ∨ t.conn.state = .read → t.handed = lines t.received
  receives : 0 < reqsPerEvent → ∀ more, LinesFit (t.received ++ more) →
    ∃ u, Reaches (step fresh reqsPerEvent) Smooth t u ∧ u.conn.Idle ∧
      u.received = t.received ++ more ∧ u.handed = lines (t.received ++ more)

/-- A step of a connection that stays open, on a stream that keeps the limit of a line. -/
def Allowed (w : World) (i : Label) : Prop :=
  Open w i ∧ ∃ t, step fresh reqsPerEvent w i = some t ∧ LinesFit t.received

variable {fresh reqsPerEvent} {w t : World}

theorem Framed.faithful (h : Framed w) (hfit : LinesFit w.received) :
    Faithful fresh reqsPerEvent w := by
  refine ⟨h.defined, h.bound, h.handed_prefix, h.handed_eq, fun hreqs more hmore => ?_⟩
  have hsettles : Settles fresh reqsPerEvent w := h.settles hreqs hfit
  obtain ⟨u, hu, hreceived, hidle⟩ := hsettles
  rw [← hreceived] at hmore
  obtain ⟨t, ht, hidle, hmore⟩ := (h.reaches hu).receives hreqs hidle more hmore
  have hreach : Reaches (step fresh reqsPerEvent) Smooth w t := hu.trans ht
  rw [hreceived] at hmore
  refine ⟨t, hreach, hidle, hmore, ?_⟩
  rw [(h.reaches hreach).handed_eq (.inr hidle.2), hmore]

/-- A read that fills the buffer leaves the connection without a defined state. -/
theorem undefined_of_not_spare (h : Framed w) {i : Label} (ho : Open w i) (hspare : ¬ Spare w i)
    (hs : step fresh reqsPerEvent w i = some t) : t.conn.state = .undefined := by
  cases i with
  | network results =>
    rw [step] at hs
    split at hs
    · obtain ⟨r, hr, rfl⟩ := Option.map_eq_some_iff.1 hs
      obtain ⟨c, bytes, got⟩ := r
      obtain ⟨-, -, hundefined⟩ := tryReadNetwork_spec h.pooled ho.2 h.bound hr
      obtain rfl := hundefined.2 hspare
      rfl
    · cases hs
  | wake | round _ | parse _ _ | transmit _ => exact absurd trivial hspare

/-- A run is faithful exactly as long as no read fills the buffer. -/
theorem framed_iff {is : List Label} (h : w.Initial)
    (ha : Throughout (step fresh reqsPerEvent) (Allowed fresh reqsPerEvent) w is) :
    Always (step fresh reqsPerEvent) (Faithful fresh reqsPerEvent) w is ↔
      Throughout (step fresh reqsPerEvent) Spare w is := by
  have hfit : LinesFit w.received := by
    rw [h.received]
    exact linesFit_of_length (Nat.zero_le _)
  have hfaithful : ∀ s : World, Framed s ∧ LinesFit s.received → Faithful fresh reqsPerEvent s :=
    fun s hs => hs.1.faithful hs.2
  refine always_iff_throughout_within hfaithful ?_ ?_ ⟨.initial h, hfit⟩ ha
  · rintro s i ⟨hs, -⟩ ⟨ho, t, ht, hfit⟩ hspare
    exact ⟨t, ht, framed_step hs ⟨ho, hspare⟩ ht, hfit⟩
  · rintro s i ⟨hs, -⟩ ⟨ho, -⟩ hspare t ht hfaithful
    exact hfaithful.defined (undefined_of_not_spare hs ho hspare ht)

end Main

section Samples

variable {fresh : Nat → UInt8} {is : List Label}

/-- A connection from the pool. -/
def accepted : World :=
  ⟨⟨List.replicate DATA_BUFFER_SIZE 0, 0, 0, .newCmd, .newCmd, 0, false, true⟩, [], []⟩

theorem accepted_initial : accepted.Initial :=
  ⟨List.length_replicate, rfl, rfl, rfl, rfl, rfl, rfl, rfl⟩

/-- The rounds before the first `read`, and what they leave. -/
def arrival : List Label := [.wake, .round true, .round true, .wake]

def awaiting : World :=
  { accepted with conn := { accepted.conn with state := .read, running := true, nreqs := 20 } }

theorem run_arrival :
    run (step fresh 20) accepted (arrival ++ is) = run (step fresh 20) awaiting is := rfl

theorem throughout_arrival {G : World → Label → Prop}
    (hG : ∀ w i, i = .wake ∨ i = .round true →
      (∃ t, step fresh 20 w i = some t ∧ t.received = []) → G w i)
    (h : Throughout (step fresh 20) G awaiting is) :
    Throughout (step fresh 20) G accepted (arrival ++ is) := by
  have hwake : ∀ w t, step fresh 20 w .wake = some t → t.received = [] → G w .wake :=
    fun w t ht hr => hG w _ (.inl rfl) ⟨t, ht, hr⟩
  have hround : ∀ w t, step fresh 20 w (.round true) = some t → t.received = [] →
      G w (.round true) := fun w t ht hr => hG w _ (.inr rfl) ⟨t, ht, hr⟩
  exact .cons (hwake _ _ rfl rfl) rfl (.cons (hround _ _ rfl rfl) rfl
    (.cons (hround _ _ rfl rfl) rfl (.cons (hwake _ _ rfl rfl) rfl h)))

theorem open_arrival {w : World} {i : Label} (hi : i = .wake ∨ i = .round true) :
    Open w i ∧ Spare w i := by
  rcases hi with rfl | rfl
  · exact ⟨trivial, trivial⟩
  · exact ⟨rfl, trivial⟩

theorem step_awaiting {results : List ReadResult} {r : Conn × Bytes × TryRead}
    (hr : tryReadNetwork fresh awaiting.conn results = some r) :
    step fresh 20 awaiting (.network results) =
      some { awaiting with conn := r.1.networked r.2.2, received := r.2.1 } := by
  rw [step, if_pos ⟨rfl, rfl⟩, hr]
  rfl

/-- Two lines in one read, and a third one that comes later. -/
theorem framed_iff_two : ∃ t, run (step (fun _ => 0) 20) accepted
      (arrival ++ [.network [.data (ascii "a\r\nb\n")]]) = some t ∧
    ∃ u, Reaches (step (fun _ => 0) 20) Smooth t u ∧ u.received = ascii "a\r\nb\nc\n" ∧
      u.handed = [ascii "a", ascii "b", ascii "c"] := by
  have hsize : awaiting.conn.rbuf.length = 16384 := List.length_replicate
  have hspare : Spare awaiting (.network [.data (ascii "a\r\nb\n")]) := by
    show 0 + 5 < awaiting.conn.rbuf.length
    omega
  have hdata : tryReadNetwork (fun _ => 0) awaiting.conn [.data (ascii "a\r\nb\n")] =
      some (_, ascii "a\r\nb\n", .dataReceived) :=
    tryReadNetwork_data (Nat.zero_le _) (by decide) hspare
  have hread := step_awaiting hdata
  have hfit : LinesFit (ascii "a\r\nb\n") := linesFit_of_length (by decide)
  have hallowed : Throughout (step (fun _ => 0) 20) (Allowed (fun _ => 0) 20) accepted
      (arrival ++ [.network [.data (ascii "a\r\nb\n")]]) := by
    refine throughout_arrival (fun w i hi ⟨t, ht, hr⟩ => ⟨(open_arrival hi).1, t, ht, ?_⟩)
      ⟨⟨⟨by simp, by simp⟩, _, hread, hfit⟩, fun _ _ => trivial⟩
    rw [hr]
    exact linesFit_of_length (Nat.zero_le _)
  have hfaithful := ((framed_iff accepted_initial hallowed).2
    (throughout_arrival (fun w i hi _ => (open_arrival hi).2) ⟨hspare, fun _ _ => trivial⟩)).at_end
  obtain ⟨t, ht, hfaithful⟩ := hfaithful
  refine ⟨t, ht, ?_⟩
  have hreceived : t.received = ascii "a\r\nb\n" := by
    rw [run_arrival, run, hread] at ht
    obtain rfl := Option.some.inj ht
    rfl
  obtain ⟨u, hu, -, hreceived', hhanded⟩ := hfaithful.receives (by decide) (ascii "c\n")
    (linesFit_of_length (by rw [hreceived]; decide))
  rw [hreceived] at hreceived' hhanded
  exact ⟨u, hu, hreceived', hhanded⟩

/-- Newlines that fill the buffer. -/
def flood : Bytes := List.replicate DATA_BUFFER_SIZE 10

theorem flood_fits : LinesFit flood := by
  intro pre seg post heq hseg
  have hnil : seg = [] := by
    rw [List.eq_nil_iff_forall_not_mem]
    intro b hb
    have hmem : b ∈ flood := by
      rw [heq]
      exact List.mem_append_left _ (List.mem_append_right _ hb)
    exact hseg (List.eq_of_mem_replicate hmem ▸ hb)
  rw [hnil]
  exact Nat.zero_le _

/-- Lines that are all there when the connection is first read are never handed on. -/
theorem not_framed : ¬ ∀ (fresh : Nat → UInt8) (w t : World) (is : List Label), w.Initial →
    Throughout (step fresh 20) Open w is → run (step fresh 20) w is = some t →
    LinesFit t.received →
      ∃ u, Reaches (step fresh 20) Open t u ∧ u.handed = lines t.received := by
  intro h
  have hflood : flood ≠ [] := List.cons_ne_nil 10 (List.replicate 16383 10)
  have hsize : flood.length = awaiting.conn.rbuf.length :=
    List.length_replicate.trans accepted_initial.rbuf.symm
  have hdata : tryReadNetwork (fun _ => 0) awaiting.conn [.data flood] =
      some (_, flood, .undefined) := tryReadNetwork_fills rfl rfl rfl hflood hsize
  let t : World := ⟨{ awaiting.conn.fill flood with state := .undefined }, flood, []⟩
  have hread : step (fun _ => 0) 20 awaiting (.network [.data flood]) = some t :=
    step_awaiting hdata
  have hopen : Throughout (step (fun _ => 0) 20) Open accepted
      (arrival ++ [.network [.data flood]]) :=
    throughout_arrival (fun w i hi _ => (open_arrival hi).1)
      ⟨⟨by simp, by simp⟩, fun _ _ => trivial⟩
  have hrun : run (step (fun _ => 0) 20) accepted (arrival ++ [.network [.data flood]]) =
      some t := by
    rw [run_arrival, run, hread, Option.bind_some, run]
  obtain ⟨u, ⟨js, -, hjs⟩, hhanded⟩ := h _ _ _ _ accepted_initial hopen hrun flood_fits
  have hnone : u.handed = [] := by
    cases js with
    | nil =>
      obtain rfl := Option.some.inj hjs
      rfl
    | cons i js =>
      obtain ⟨v, hv, -⟩ := Option.bind_eq_some_iff.1 hjs
      cases i <;> cases hv
  have hlines : lines flood ≠ [] := by
    have hcons : flood = [] ++ 10 :: List.replicate 16383 10 := rfl
    rw [hcons, lines_cons List.not_mem_nil]
    exact List.cons_ne_nil _ _
  exact hlines (hhanded.symm.trans hnone)

end Samples

end Doorhinges.Wire

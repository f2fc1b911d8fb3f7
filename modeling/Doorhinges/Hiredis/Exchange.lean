import Doorhinges.Hiredis.Format
import Doorhinges.Lib.Machine

/-!
# Commands and replies over a connection

A context appends commands to its output buffer, writes as much of it as the socket takes, and
reads replies from what has come. The server answers the commands one after the other, each when
the whole of it has come. Bytes of both directions are on their way in between.
-/
namespace Doorhinges.Hiredis

open Lib.CString
open Lib.Stream (End items goOn readOne Follows)
open Keepalive (Err)

section Context

/-- The buffers of a `redisContext`. -/
structure RedisContext where
  err : Option (Err × Bytes)
  obuf : Bytes
  reader : RedisReader

namespace RedisContext

variable (c : RedisContext)

/-- `redisAppendCommandArgv`, for a command that is made. -/
def appendCommandArgv (argv : List Bytes) : Option RedisContext :=
  (redisFormatCommandArgv argv).map fun cmd => { c with obuf := c.obuf ++ cmd }

/-- `redisBufferWrite` when the socket takes up to `n` bytes; with what it takes. -/
def bufferWrite (n : Nat) : Bytes × RedisContext :=
  if c.err.isSome then ([], c) else (c.obuf.take n, { c with obuf := c.obuf.drop n })

/-- `redisBufferRead` when the socket has these bytes. -/
def bufferRead (b : Bytes) : RedisContext :=
  if c.err.isSome then c
  else
    let r := c.reader.feed b
    { c with err := if r.1 then c.err else r.2.err, reader := r.2 }

/-- `redisGetReplyFromReader`. -/
def getReplyFromReader : Option (Option RedisReply × RedisContext) :=
  c.reader.getReply.map fun r =>
    (r.2.2, { c with err := if r.1 then c.err else r.2.1.err, reader := r.2.1 })

end RedisContext

end Context

section System

/-- A context and the server, with the bytes that are on their way, the commands that have been
appended and the replies that have been got. -/
structure Exchange (σ : Type) where
  ctx : RedisContext
  toServer : Bytes
  inbuf : Bytes
  server : σ
  toClient : Bytes
  appended : List (List Bytes)
  got : List RedisReply

inductive Event where
  | append (argv : List Bytes)
  | write (n : Nat)
  | arrive (n : Nat)
  | serve
  | read (n : Nat)
  | getReply

variable {σ : Type} (answer : σ → List Bytes → RedisReply × σ)

def stringOf : RedisReply → Option Bytes
  | .string str => some str
  | _ => none

/-- The arguments of a command that the server has read. -/
def argvOf : RedisReply → Option (List Bytes)
  | .array _ element => element.mapM stringOf
  | _ => none

/-- The server takes a whole command off what has come, and answers it. -/
def Exchange.serve (s : Exchange σ) : Option (Exchange σ) :=
  match readOne look (s.inbuf.length + 1) [] s.inbuf with
  | (some v, .ok (_, rest)) =>
    (argvOf v).map fun argv =>
      let r := answer s.server argv
      { s with inbuf := rest, server := r.2, toClient := s.toClient ++ r.1.wire }
  | _ => none

def Exchange.step (s : Exchange σ) : Event → Option (Exchange σ)
  | .append argv =>
    (s.ctx.appendCommandArgv argv).map fun c => { s with ctx := c, appended := s.appended ++ [argv] }
  | .write n =>
    let w := s.ctx.bufferWrite n
    some { s with ctx := w.2, toServer := s.toServer ++ w.1 }
  | .arrive n =>
    some { s with inbuf := s.inbuf ++ s.toServer.take n, toServer := s.toServer.drop n }
  | .serve => s.serve answer
  | .read n =>
    some { s with ctx := s.ctx.bufferRead (s.toClient.take n), toClient := s.toClient.drop n }
  | .getReply =>
    s.ctx.getReplyFromReader.map fun r => { s with ctx := r.2, got := s.got ++ r.1.toList }

/-- A new context and a server in this state. -/
def Exchange.start (srv : σ) : Exchange σ := ⟨⟨none, [], .create⟩, [], [], srv, [], [], []⟩

/-- The replies to these commands, and the server behind them. -/
def answers (srv : σ) : List (List Bytes) → List RedisReply × σ
  | [] => ([], srv)
  | argv :: rest =>
    let r := answer srv argv
    let rs := answers r.2 rest
    (r.1 :: rs.1, rs.2)

end System

section Invariant

variable {σ : Type} {answer : σ → List Bytes → RedisReply × σ} {srv : σ} {s : Exchange σ}

theorem wires_append (vs ws : List RedisReply) : wires (vs ++ ws) = wires vs ++ wires ws := by
  induction vs with
  | nil => rfl
  | cons v vs ih => rw [List.cons_append, wires, wires, ih, List.append_assoc]

theorem allWritable_append {vs ws : List RedisReply} (hvs : allWritable vs)
    (hws : allWritable ws) : allWritable (vs ++ ws) := by
  induction vs with
  | nil => exact hws
  | cons v vs ih => exact ⟨hvs.1, ih hvs.2⟩

theorem answers_append (answer : σ → List Bytes → RedisReply × σ) (srv : σ) (cmds cmds' : List (List Bytes)) :
    answers answer srv (cmds ++ cmds') =
      ((answers answer srv cmds).1 ++ (answers answer (answers answer srv cmds).2 cmds').1,
        (answers answer (answers answer srv cmds).2 cmds').2) := by
  induction cmds generalizing srv with
  | nil => rfl
  | cons argv cmds ih =>
    rw [List.cons_append, answers, answers, ih]
    rfl

theorem argvOf_command (argv : List Bytes) : argvOf (command argv) = some argv := by
  rw [command, argvOf]
  induction argv with
  | nil => rfl
  | cons arg argv ih => rw [List.map_cons, List.mapM_cons, ih]; rfl

/-- Of the commands that have been appended some have been answered; the texts of the others are
before the server and on their way, as are the texts of the replies before the reader. -/
structure Stands (answer : σ → List Bytes → RedisReply × σ) (srv : σ) (s : Exchange σ)
    (served pending : List (List Bytes)) (fed : Bytes)
    (t : End UInt8 (List ReadTask) (Option (Err × Bytes))) : Prop where
  appended : s.appended = served ++ pending
  commands : wires (pending.map command) = s.inbuf ++ s.toServer ++ s.ctx.obuf
  writable : allWritable (pending.map command)
  server : s.server = (answers answer srv served).2
  replies : wires (answers answer srv served).1 = fed ++ s.toClient
  err : s.ctx.err = none
  rep : Rep s.ctx.reader t
  follows : Follows look [] fed (s.got, t)

def Inv (answer : σ → List Bytes → RedisReply × σ) (srv : σ) (s : Exchange σ) : Prop :=
  ∃ served pending fed t, Stands answer srv s served pending fed t

/-- Every answer has a text that the reader can take. -/
def Proper (answer : σ → List Bytes → RedisReply × σ) : Prop :=
  ∀ srv argv, (answer srv argv).1.Writable ∧ Shallow (answer srv argv).1

theorem proper_answers (hanswer : Proper answer) (srv : σ) (cmds : List (List Bytes)) :
    allWritable (answers answer srv cmds).1 ∧ ∀ v ∈ (answers answer srv cmds).1, Shallow v := by
  induction cmds generalizing srv with
  | nil => exact ⟨trivial, nofun⟩
  | cons argv cmds ih =>
    obtain ⟨hwritable, hshallow⟩ := ih (answer srv argv).2
    obtain ⟨hw, hs⟩ := hanswer srv argv
    exact ⟨⟨hw, hwritable⟩, List.forall_mem_cons.2 ⟨hs, hshallow⟩⟩

/-- The texts of proper replies are read as these replies, with nothing left. -/
theorem items_proper {vs : List RedisReply} (hvs : allWritable vs) (hshallow : ∀ v ∈ vs, Shallow v) :
    items look [] (wires vs) = (vs, .ok ([], [])) := by
  obtain ⟨hreplies, hend⟩ := items_all hvs
  rw [depthOf, if_pos hshallow] at hend
  refine Prod.ext (hreplies.trans ?_) hend
  exact List.takeWhile_eq_self_iff.2 fun v hv => decide_eq_true (hshallow v hv)

variable {served pending : List (List Bytes)} {fed : Bytes}
  {t : End UInt8 (List ReadTask) (Option (Err × Bytes))}

/-- The replies so far are the first of the answers. -/
theorem Stands.got_prefix (h : Stands answer srv s served pending fed t) (hanswer : Proper answer) :
    s.got <+: (answers answer srv served).1 ∧ ∀ e, (goOn look t []).2 ≠ .error e := by
  obtain ⟨hwritable, hshallow⟩ := proper_answers hanswer srv served
  have hall := items_proper hwritable hshallow
  rw [h.replies, Lib.Stream.items_append steady_look, h.follows] at hall
  obtain ⟨hlist, hend⟩ := Prod.mk.inj hall
  refine ⟨⟨_, by rw [← hlist, List.append_assoc]⟩, fun e herror => ?_⟩
  dsimp only at hend
  rw [herror] at hend
  cases hend

/-- The reader has no error. -/
theorem Stands.reader_err (h : Stands answer srv s served pending fed t) (hanswer : Proper answer) :
    s.ctx.reader.err = none := by
  cases t with
  | error e => exact absurd rfl ((h.got_prefix hanswer).2 e)
  | ok t => exact h.rep.1.1

/-- One more call on the reader. -/
theorem Stands.call {c : Call} {out : List RedisReply} {r : RedisReader}
    (h : Stands answer srv s served pending fed t)
    (hexec : c.exec (s.got, s.ctx.reader) = some (out, r)) :
    ∃ t', Rep r t' ∧ Follows look [] (fed ++ c.bytes) (out, t') := by
  obtain ⟨rfl, hrep⟩ := exec_rep h.rep hexec
  refine ⟨_, hrep, ?_⟩
  cases c with
  | feed b => exact Lib.Stream.follows_feed steady_look h.follows b
  | getReply =>
    rw [Call.bytes, List.append_nil]
    exact Lib.Stream.follows_read steady_look h.follows

/-- A command that can be read is the next that is pending. -/
theorem Stands.next {v : RedisReply} {st : List ReadTask} {rest : Bytes}
    (h : Stands answer srv s served pending fed t)
    (hone : readOne look (s.inbuf.length + 1) [] s.inbuf = (some v, .ok (st, rest))) :
    ∃ argv pending', pending = argv :: pending' ∧ v = command argv ∧
      wires (pending'.map command) = rest ++ s.toServer ++ s.ctx.obuf := by
  have hlong := Lib.Stream.readOne_append steady_look hone (s.toServer ++ s.ctx.obuf)
    (Nat.lt_succ_self _)
  rw [← List.append_assoc, ← h.commands] at hlong
  have hwritable := h.writable
  cases pending with
  | nil => cases hlong
  | cons argv pending' =>
    have hfirst := readOne_wire hwritable.1 (command_shallow argv) (wires (pending'.map command))
      (Nat.lt_succ_self _)
    rw [List.map_cons, wires] at hlong
    rw [hfirst] at hlong
    obtain ⟨rfl, heq⟩ : command argv = v ∧ _ := by simpa using hlong
    exact ⟨argv, pending', rfl, rfl, by rw [heq.2, List.append_assoc]⟩

theorem inv_step (hanswer : Proper answer) {e : Event} {s' : Exchange σ} (h : Inv answer srv s)
    (hstep : s.step answer e = some s') : Inv answer srv s' := by
  obtain ⟨served, pending, fed, t, h⟩ := h
  cases e with
  | append argv =>
    obtain ⟨c, hc, rfl⟩ := Option.map_eq_some_iff.1 hstep
    obtain ⟨cmd, hcmd, rfl⟩ := Option.map_eq_some_iff.1 hc
    obtain ⟨rfl, hargc, hargs⟩ := formatArgv_some hcmd
    refine ⟨served, pending ++ [argv], fed, t, ?_⟩
    constructor
    · show s.appended ++ [argv] = _
      rw [h.appended, List.append_assoc]
    · show _ = s.inbuf ++ s.toServer ++ (s.ctx.obuf ++ (command argv).wire)
      rw [List.map_append, wires_append, h.commands, List.map_singleton, wires, wires,
        List.append_nil, List.append_assoc (s.inbuf ++ s.toServer)]
    · rw [List.map_append]
      exact allWritable_append h.writable ⟨command_writable hargc hargs, trivial⟩
    · exact h.server
    · exact h.replies
    · exact h.err
    · exact h.rep
    · exact h.follows
  | write n =>
    have hw : s.ctx.bufferWrite n =
        (s.ctx.obuf.take n, { s.ctx with obuf := s.ctx.obuf.drop n }) := by
      rw [RedisContext.bufferWrite, if_neg (by simp [h.err])]
    rw [Exchange.step, hw] at hstep
    obtain rfl := Option.some.inj hstep
    refine ⟨served, pending, fed, t, { h with commands := ?_ }⟩
    show _ = s.inbuf ++ (s.toServer ++ s.ctx.obuf.take n) ++ s.ctx.obuf.drop n
    rw [h.commands, List.append_assoc, List.append_assoc, List.append_assoc, List.take_append_drop]
  | arrive n =>
    obtain rfl := Option.some.inj hstep
    refine ⟨served, pending, fed, t, { h with commands := ?_ }⟩
    show _ = s.inbuf ++ s.toServer.take n ++ s.toServer.drop n ++ s.ctx.obuf
    rw [h.commands, List.append_assoc s.inbuf (s.toServer.take n), List.take_append_drop]
  | serve =>
    rw [Exchange.step, Exchange.serve] at hstep
    split at hstep
    · rename_i v st rest hone
      obtain ⟨argv, pending', rfl, rfl, hrest⟩ := h.next hone
      rw [argvOf_command] at hstep
      obtain rfl := Option.some.inj hstep
      refine ⟨served ++ [argv], pending', fed, t, ?_⟩
      have hanswers := answers_append answer srv served [argv]
      constructor
      · rw [List.append_assoc]
        exact h.appended
      · exact hrest
      · exact h.writable.2
      · rw [hanswers]
        show (answer s.server argv).2 = (answer (answers answer srv served).2 argv).2
        rw [h.server]
      · rw [hanswers, wires_append, h.replies, h.server]
        show _ ++ wires [(answer (answers answer srv served).2 argv).1] = _
        rw [wires, wires, List.append_nil, List.append_assoc]
      · exact h.err
      · exact h.rep
      · exact h.follows
    · cases hstep
  | read n =>
    have hreader := h.reader_err hanswer
    have hfeed : s.ctx.reader.feed (s.toClient.take n) =
        (true, { s.ctx.reader with buf := s.ctx.reader.buf ++ s.toClient.take n }) := by
      rw [RedisReader.feed, if_neg (by simp [hreader])]
    obtain ⟨t', hrep, hfollows⟩ := h.call (c := .feed (s.toClient.take n)) rfl
    have hread : s.ctx.bufferRead (s.toClient.take n) =
        { s.ctx with reader := (s.ctx.reader.feed (s.toClient.take n)).2 } := by
      rw [RedisContext.bufferRead, if_neg (by simp [h.err]), hfeed]
      rfl
    rw [Exchange.step, hread] at hstep
    obtain rfl := Option.some.inj hstep
    refine ⟨served, pending, _, t', { h with replies := ?_, rep := hrep, follows := hfollows }⟩
    show _ = fed ++ s.toClient.take n ++ s.toClient.drop n
    rw [h.replies, List.append_assoc, List.take_append_drop]
  | getReply =>
    obtain ⟨⟨x, c⟩, hget, rfl⟩ := Option.map_eq_some_iff.1 hstep
    obtain ⟨⟨ok, r, y⟩, hreader, heq⟩ := Option.map_eq_some_iff.1 hget
    obtain ⟨rfl, rfl⟩ := Prod.mk.inj heq
    have hexec : Call.getReply.exec (s.got, s.ctx.reader) = some (s.got ++ y.toList, r) := by
      rw [Call.exec, hreader]
      rfl
    obtain ⟨t', hrep, hfollows⟩ := h.call hexec
    rw [Call.bytes, List.append_nil] at hfollows
    have hstands : Stands answer srv
        { s with ctx := { s.ctx with reader := r }, got := s.got ++ y.toList } served pending fed t' :=
      { h with rep := hrep, follows := hfollows }
    have hreader_err : r.err = none := hstands.reader_err hanswer
    have hctx : ({ s.ctx with err := if ok then s.ctx.err else r.err, reader := r } : RedisContext) =
        { s.ctx with reader := r } := by
      rw [hreader_err, h.err, ite_self, ← h.err]
    refine ⟨served, pending, fed, t', ?_⟩
    show Stands answer srv
      { s with
        ctx := { s.ctx with err := if ok then s.ctx.err else r.err, reader := r }
        got := s.got ++ y.toList } served pending fed t'
    rw [hctx]
    exact hstands

theorem inv_start (srv : σ) : Inv answer srv (Exchange.start srv) := by
  refine ⟨[], [], [], .ok ([], []), ?_⟩
  constructor
  · rfl
  · rfl
  · trivial
  · rfl
  · rfl
  · rfl
  · exact ⟨⟨rfl, rfl, rfl, Nat.le_refl _⟩, fun _ => ⟨rfl, rfl⟩⟩
  · simp [Follows, Exchange.start]

end Invariant

section Main

variable {σ : Type} {answer : σ → List Bytes → RedisReply × σ} {srv : σ} {s : Exchange σ}

/-- Nothing is on its way, the server has no whole command and the reader no further reply. -/
structure Exchange.Quiet (answer : σ → List Bytes → RedisReply × σ) (s : Exchange σ) : Prop where
  written : s.ctx.obuf = []
  arrived : s.toServer = []
  served : s.serve answer = none
  taken : s.toClient = []
  drained : ∀ x c, s.ctx.getReplyFromReader = some (x, c) → x = none

/-- In every run, however the bytes are cut and the steps of both sides are mixed, the replies
that have been got are the first of the answers to the commands in their order; there is no error,
and each call for a reply is defined. When all is quiet every command has got its reply. -/
theorem replies_in_order (hanswer : Proper answer) {events : List Event}
    (hrun : Lib.Machine.run (Exchange.step answer) (.start srv) events = some s) :
    s.got <+: (answers answer srv s.appended).1 ∧ s.ctx.err = none ∧
      (s.step answer .getReply).isSome ∧
      (s.Quiet answer → s.got = (answers answer srv s.appended).1) := by
  obtain ⟨served, pending, fed, t, h⟩ :=
    Lib.Machine.run_invariant (fun s e t hs => inv_step hanswer hs) (inv_start srv) hrun
  obtain ⟨hgot, hdefined⟩ := h.got_prefix hanswer
  have hsplit := answers_append answer srv served pending
  have hisSome : s.ctx.reader.getReply.isSome := getReply_isSome h.rep (hdefined none)
  refine ⟨?_, h.err, ?_, fun hquiet => ?_⟩
  · rw [h.appended, hsplit]
    exact hgot.trans (List.prefix_append _ _)
  · rw [Exchange.step, Option.isSome_map, RedisContext.getReplyFromReader, Option.isSome_map]
    exact hisSome
  · have hpending : pending = [] := by
      cases pending with
      | nil => rfl
      | cons argv pending' =>
        have hfirst := readOne_wire h.writable.1 (command_shallow argv)
          (wires (pending'.map command)) (Nat.lt_succ_self _)
        have hinbuf := h.commands
        rw [hquiet.written, hquiet.arrived, List.append_nil, List.append_nil, List.map_cons,
          wires] at hinbuf
        have hserve := hquiet.served
        rw [Exchange.serve, ← hinbuf, hfirst] at hserve
        dsimp only at hserve
        rw [argvOf_command] at hserve
        cases hserve
    obtain ⟨⟨ok, q, x⟩, hget⟩ := Option.isSome_iff_exists.1 hisSome
    have hx : x = none := hquiet.drained x { s.ctx with
      err := if ok then s.ctx.err else q.err, reader := q } (by
        rw [RedisContext.getReplyFromReader, hget]
        rfl)
    subst hx
    obtain ⟨e, hgo, -, -⟩ := goOn_of_getReply h.rep hget
    obtain ⟨hwritable, hshallow⟩ := proper_answers hanswer srv served
    have hall := items_proper hwritable hshallow
    rw [h.replies, hquiet.taken, List.append_nil, h.follows, hgo] at hall
    rw [h.appended, hpending, List.append_nil]
    simpa using congrArg Prod.fst hall

def okServer : Unit → List Bytes → RedisReply × Unit := fun _ _ => (.status (ascii "OK"), ())

/-- A command that arrives in pieces, and its reply. -/
def oneCommand : List Event :=
  [.append [ascii "GET", ascii "a b"], .write 5, .arrive 3, .getReply, .write 100, .arrive 100,
    .serve, .read 2, .getReply, .read 10, .getReply]

theorem replies_in_order_one : ∃ s, Lib.Machine.run (Exchange.step okServer) (.start ()) oneCommand
    = some s ∧ s.got.length = 1 ∧ s.got <+: (answers okServer () s.appended).1 := by
  have hproper : Proper okServer := by
    intro srv argv
    have hline : OneLine (ascii "OK") := oneLine_of_not_mem (by decide)
    exact ⟨hline, Nat.zero_le 8⟩
  have hrun : (Lib.Machine.run (Exchange.step okServer) (.start ()) oneCommand).any
      (fun s => s.got.length = 1) := by
    decide +kernel
  obtain ⟨s, hs, hlen⟩ := (Option.any_eq_true _ _).1 hrun
  exact ⟨s, hs, of_decide_eq_true hlen, (replies_in_order hproper hs).1⟩

end Main

end Doorhinges.Hiredis

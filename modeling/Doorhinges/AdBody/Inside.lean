import Doorhinges.AdBody.Writes
import Doorhinges.AdBody.Sessions

/-!
# When a call of `get_adbody` stays inside its arrays

The one test before a body compares the length of the template, and 500 bytes more,
with what is left; nothing compares the lengths of what is written. A call stays
inside exactly where these lengths do.
-/
namespace Doorhinges.AdBody

open Lib
open Lib.CString
open Lib.Logged

/-- The segments fit their arrays. None is closed that is not open, and the loop does not leave
the template. -/
def Gathers : Option Bytes → List Op → Prop
  | _, [] => True
  | none, .put _ :: ops => Gathers none ops
  | some seg, .put s :: ops => seg.length + s.length ≤ 1024 ∧ Gathers (some (seg ++ s)) ops
  | tp2, .out _ :: ops => Gathers tp2 ops
  | tp2, .print _ :: ops => Gathers tp2 ops
  | _, .start :: ops => Gathers (some []) ops
  | none, .close _ :: _ => False
  | some seg, .close s :: ops => seg.length + s.length < 1024 ∧
      ((seg ++ s).filter (· ≠ 92)).length < 400 ∧ Gathers none ops
  | tp2, .finish _ :: ops => Gathers tp2 ops
  | _, .fault :: _ => True
  | _, .stray :: _ => False

/-- A write that ends at `n`, and the writes after it, which begin at `k`. -/
def furthest (n k : Nat) (rest : Option Nat) : Option Nat :=
  some (rest.elim n fun x => max n (k + x))

/-- How far behind `sBody` the response is written, if it is. -/
def extent : Option Bytes → List Op → Option Nat
  | _, [] => none
  | none, .put s :: ops => furthest s.length s.length (extent none ops)
  | some seg, .put s :: ops => extent (some (seg ++ s)) ops
  | tp2, .out s :: ops => furthest s.length s.length (extent tp2 ops)
  | tp2, .print s :: ops => furthest (min (s.length + 1) 1024) s.length (extent tp2 ops)
  | _, .start :: ops => extent (some []) ops
  | none, .close _ :: _ => none
  | some seg, .close s :: ops =>
    furthest ((seg ++ s).filter (· ≠ 92)).length ((seg ++ s).filter (· ≠ 92)).length
      (extent none ops)
  | tp2, .finish s :: ops => furthest (s.length + 1) s.length (extent tp2 ops)
  | _, .fault :: _ => none
  | _, .stray :: _ => none

/-- The length of the body, for a script that comes to its end. -/
def advance : Option Bytes → List Op → Option Nat
  | _, [] => some 0
  | none, .put s :: ops => (advance none ops).map (s.length + ·)
  | some seg, .put s :: ops => advance (some (seg ++ s)) ops
  | tp2, .out s :: ops => (advance tp2 ops).map (s.length + ·)
  | tp2, .print s :: ops => (advance tp2 ops).map (s.length + ·)
  | _, .start :: ops => advance (some []) ops
  | none, .close _ :: _ => none
  | some seg, .close s :: ops =>
    (advance none ops).map (((seg ++ s).filter (· ≠ 92)).length + ·)
  | tp2, .finish s :: ops => (advance tp2 ops).map (s.length + ·)
  | _, .fault :: _ => none
  | _, .stray :: _ => none

/-- The lengths of the bodies fit from `sBody` on. -/
def Request.BodiesFit (r : Request) : Nat → Nat → List Ad → Prop
  | _, _, [] => True
  | k, sBody, ad :: ads =>
    match ad.body with
    | none => r.BodiesFit k sBody ads
    | some tp =>
      let ops := (r.env (r.sessionId k)).bodyScript tp
      let start := if k = 0 then sBody else sBody + 1
      r.space < sBody + tp.1.length + 500 ∨ ad.putinType = none ∨
        Gathers none ops ∧ (∀ x ∈ extent none ops, start + x ≤ r.space) ∧
          ∀ len ∈ advance none ops, r.BodiesFit (k + 1) (start + len) ads

/-- The lengths of the commands, of the session id and of the bodies fit. -/
def Request.LengthsFit (r : Request) : Prop :=
  r.listed ∧ (r.mget r.log.format).length < 1024 ∧
    (r.mget (ascii "paymodeltype")).length < r.space ∧
    ∀ width, r.nearWidth = some (some width) → r.bodybyterepy.isSome →
      33 ≤ r.space ∧ r.BodiesFit 0 33 r.ads

variable {r : Request}

theorem furthest_le {n k p s : Nat} {rest : Option Nat} :
    (∀ y, furthest n k rest = some y → p + y ≤ s) ↔
      p + n ≤ s ∧ ∀ x, rest = some x → p + k + x ≤ s := by
  cases rest with
  | none => simp [furthest]
  | some x =>
    simp only [furthest, Option.elim_some, Option.some.injEq, forall_eq']
    omega

@[simp] theorem always_response (c : Cursor) (s : Bytes) :
    (c.response s).Always r.Inside ↔ c.sBody + s.length ≤ r.space := by
  simp [Cursor.response, Request.Inside, Request.size]

@[simp] theorem value_response (c : Cursor) (s : Bytes) :
    (c.response s).value = some { c with sBody := c.sBody + s.length } := rfl

/-- The writes of a script are inside exactly where the lengths are. -/
theorem steps_inside (ops : List Op) (c : Cursor) : (c.steps ops).Always r.Inside ↔
    Gathers c.tp2 ops ∧ ∀ x ∈ extent c.tp2 ops, c.sBody + x ≤ r.space := by
  induction ops generalizing c with
  | nil => simp [Cursor.steps, Gathers, extent]
  | cons op ops ih =>
    obtain ⟨pos, tp2⟩ := c
    -- the first write and those after it
    rw [Cursor.steps, always_bind]
    cases op with
    | put s =>
      cases tp2 with
      | none =>
        simp only [Cursor.step, always_response, value_response, Option.some.injEq, forall_eq', ih,
          Gathers, extent, Option.mem_def, furthest_le]
        tauto
      | some seg =>
        simp only [Cursor.step, always_bind, value_bind, always_tell, always_pure, value_tell,
          value_pure, Option.some.injEq, forall_eq', Option.bind_some, ih, Gathers, extent,
          Option.mem_def, Request.Inside, Request.size, forall_const, and_true, and_assoc]
    | out s =>
      simp only [Cursor.step, always_response, value_response, Option.some.injEq, forall_eq', ih,
        Gathers, extent, Option.mem_def, furthest_le]
      tauto
    | print s =>
      simp only [Cursor.step, always_bind, value_bind, always_tell, always_pure, value_tell,
        value_pure, Option.some.injEq, forall_eq', Option.bind_some, ih, Gathers, extent,
        Option.mem_def, Request.Inside, Request.size, forall_const, and_true, furthest_le]
      tauto
    | start =>
      simp only [Cursor.step, always_pure, value_pure, Option.some.injEq, forall_eq', ih, Gathers,
        extent, true_and]
    | close s =>
      cases tp2 with
      | none => simp [Cursor.step, Gathers, Request.Inside, Request.size]
      | some seg =>
        simp only [Cursor.step, always_bind, value_bind, always_tell, always_response,
          value_response, always_pure, value_tell, value_pure, Option.some.injEq, forall_eq',
          Option.bind_some, ih, Gathers, extent, Option.mem_def, Request.Inside, Request.size,
          forall_const, and_true, furthest_le, Nat.succ_le_iff]
        tauto
    | finish s =>
      simp only [Cursor.step, always_bind, value_bind, always_tell, always_pure, value_tell,
        value_pure, Option.some.injEq, forall_eq', Option.bind_some, ih, Gathers, extent,
        Option.mem_def, Request.Inside, Request.size, forall_const, and_true, furthest_le,
        ← Nat.add_assoc]
      tauto
    | fault => simp [Cursor.step, Gathers, extent]
    | stray => simp [Cursor.step, Gathers, Request.Inside, Request.size]

theorem steps_value (ops : List Op) (c : Cursor) :
    (c.steps ops).value.map (·.sBody) = (advance c.tp2 ops).map (c.sBody + ·) := by
  induction ops generalizing c with
  | nil => rfl
  | cons op ops ih =>
    obtain ⟨pos, tp2⟩ := c
    rw [Cursor.steps, value_bind]
    cases op with
    | put s =>
      cases tp2 with
      | none => simp [Cursor.step, ih, advance, Function.comp_def, Nat.add_assoc]
      | some seg => simp [Cursor.step, ih, advance]
    | out s => simp [Cursor.step, ih, advance, Function.comp_def, Nat.add_assoc]
    | print s => simp [Cursor.step, ih, advance, Function.comp_def, Nat.add_assoc]
    | start => simp [Cursor.step, ih, advance]
    | close s =>
      cases tp2 with
      | none => simp [Cursor.step, advance]
      | some seg => simp [Cursor.step, ih, advance, Function.comp_def, Nat.add_assoc]
    | finish s => simp [Cursor.step, ih, advance, Function.comp_def, Nat.add_assoc]
    | fault => simp [Cursor.step, advance]
    | stray => simp [Cursor.step, advance]

theorem bodyWrites_inside (k pos : Nat) (ads : List Ad) (hspace : 33 ≤ r.space) :
    (r.bodyWrites k pos ads).Always r.Inside ↔ r.BodiesFit k pos ads := by
  induction ads generalizing k pos with
  | nil => simp [Request.bodyWrites, Request.BodiesFit]
  | cons ad ads ih =>
    rw [Request.bodyWrites, Request.BodiesFit]
    cases ad.body with
    | none => exact ih k pos
    | some tp =>
      dsimp only
      set start := if k = 0 then pos else pos + 1
      set ops := (r.env (r.sessionId k)).bodyScript tp
      by_cases hbreak : r.space < pos + tp.1.length + 500
      · simp [hbreak]
      · have hagain : (Request.nextSession k).Always r.Inside := by
          rw [Request.nextSession]
          split
          · exact always_pure ()
          · exact (always_tell _).2 hspace
        have hvalue : (Request.nextSession k).value = some () := by
          rw [Request.nextSession]
          split <;> rfl
        have hrest : (∀ c, (Cursor.steps ⟨start, none⟩ ops).value = some c →
            (r.bodyWrites (k + 1) c.sBody ads).Always r.Inside) ↔
              ∀ len ∈ advance none ops, r.BodiesFit (k + 1) (start + len) ads := by
          have hend := steps_value ops ⟨start, none⟩
          cases hc : (Cursor.steps ⟨start, none⟩ ops).value with
          | none =>
            rw [hc] at hend
            simp [Option.map_eq_none_iff.1 hend.symm]
          | some c =>
            rw [hc] at hend
            obtain ⟨len, hlen, hpos⟩ := Option.map_eq_some_iff.1 hend.symm
            rw [hlen]
            simp only [Option.some.injEq, forall_eq', Option.mem_def, ih, ← hpos]
        rw [if_neg hbreak]
        cases hput : ad.putinType with
        | none => simp
        | some element =>
          simp only [always_bind, always_ofOption, value_ofOption, hagain, hvalue, steps_inside,
            hrest, Option.some.injEq, forall_eq', forall_const, true_and, hbreak, false_or,
            reduceCtorEq, and_assoc]

theorem always_inside_iff (r : Request) : r.writes.Always r.Inside ↔ r.LengthsFit := by
  have hbodies : (do tell ⟨.params, 33⟩; r.bodyWrites 0 33 r.ads : Logged Write Unit).Always
      r.Inside ↔ 33 ≤ r.space ∧ r.BodiesFit 0 33 r.ads := by
    rw [always_bind, always_tell]
    refine and_congr_right fun hspace => ?_
    simp only [value_tell, forall_const]
    exact bodyWrites_inside 0 33 r.ads hspace
  rw [Request.writes, Request.LengthsFit, always_bind, Request.mgetWrites]
  by_cases hlisted : r.listed
  · rw [if_pos hlisted]
    simp only [always_bind, always_tell, value_bind, value_tell, Option.bind_some, forall_const,
      always_ofOption, value_ofOption, true_and, Request.Inside, Request.size,
      Nat.succ_le_iff, hlisted, and_assoc]
    refine and_congr_right fun _ => and_congr_right fun _ => ⟨fun h width hwidth hreply => ?_,
      fun h width hwidth => ?_⟩
    · have hwrites := h (some width) hwidth
      rw [if_pos ⟨rfl, hreply⟩] at hwrites
      exact hbodies.1 hwrites
    · split
      · rename_i hgoes
        obtain ⟨w, rfl⟩ := Option.isSome_iff_exists.1 hgoes.1
        exact hbodies.2 (h w hwidth hgoes.2)
      · exact always_pure ()
  · rw [if_neg hlisted]
    simp [hlisted, Request.Inside, Request.size]

section Agreement

variable {e : Env} {w w' : Writer} {tp2 : Option Bytes} {ops : List Op} {s pre : Bytes} {d : Nat}

/-- A script that comes to its end with a body of `d` bytes and a terminator. -/
structure Ends (tp2 : Option Bytes) (ops : List Op) (d : Nat) : Prop where
  gathers : Gathers tp2 ops
  advance : advance tp2 ops = some d
  extent : extent tp2 ops = some (d + 1)

theorem Ends.finish : Ends tp2 [.finish s] s.length :=
  ⟨by cases tp2 <;> trivial, by cases tp2 <;> rfl, by cases tp2 <;> rfl⟩

theorem Ends.put_none (h : Ends none ops d) : Ends none (.put s :: ops) (s.length + d) := by
  refine ⟨h.gathers, ?_, ?_⟩
  · rw [AdBody.advance, h.advance]
    rfl
  · rw [AdBody.extent, h.extent, furthest, Option.elim_some]
    congr 1
    omega

theorem Ends.put_some {seg : Bytes} (hs : seg.length + s.length ≤ 1024)
    (h : Ends (some (seg ++ s)) ops d) : Ends (some seg) (.put s :: ops) d :=
  ⟨⟨hs, h.gathers⟩, h.advance, h.extent⟩

theorem Ends.out (h : Ends tp2 ops d) : Ends tp2 (.out s :: ops) (s.length + d) := by
  refine ⟨by cases tp2 <;> exact h.gathers, ?_, ?_⟩
  · cases tp2 <;> rw [AdBody.advance, h.advance] <;> rfl
  · cases tp2 <;> rw [AdBody.extent, h.extent, furthest, Option.elim_some] <;> congr 1 <;> omega

theorem Ends.print (h : Ends tp2 ops d) : Ends tp2 (.print s :: ops) (s.length + d) := by
  refine ⟨by cases tp2 <;> exact h.gathers, ?_, ?_⟩
  · cases tp2 <;> rw [AdBody.advance, h.advance] <;> rfl
  · cases tp2 <;> rw [AdBody.extent, h.extent, furthest, Option.elim_some] <;> congr 1 <;> omega

theorem Ends.start (h : Ends (some []) ops d) : Ends tp2 (.start :: ops) d := by
  cases tp2 <;> exact ⟨h.gathers, h.advance, h.extent⟩

theorem Ends.close {seg : Bytes} (hlen : seg.length + s.length < 1024)
    (hkept : ((seg ++ s).filter (· ≠ 92)).length < 400) (h : Ends none ops d) :
    Ends (some seg) (.close s :: ops) (((seg ++ s).filter (· ≠ 92)).length + d) := by
  refine ⟨⟨hlen, hkept, h.gathers⟩, ?_, ?_⟩
  · rw [AdBody.advance, h.advance]
    rfl
  · rw [AdBody.extent, h.extent, furthest, Option.elim_some]
    congr 1
    omega

/-- The script takes the one writer to the other, whatever comes behind it. -/
def Writes (w : Writer) (ops : List Op) (w' : Writer) : Prop :=
  ∃ n, w'.sBody.length = w.sBody.length + n ∧
    ∀ rest d, Ends w'.tp2 rest d → Ends w.tp2 (ops ++ rest) (n + d)

theorem Writes.nil : Writes w [] w := ⟨0, rfl, fun _ d h => by rwa [Nat.zero_add]⟩

theorem Writes.append {w'' : Writer} {ops' : List Op} (h : Writes w ops w')
    (h' : Writes w' ops' w'') : Writes w (ops ++ ops') w'' := by
  obtain ⟨m, hm, h⟩ := h
  obtain ⟨n, hn, h'⟩ := h'
  refine ⟨m + n, by omega, fun rest d hrest => ?_⟩
  rw [List.append_assoc, Nat.add_assoc]
  exact h _ _ (h' rest d hrest)

theorem writes_put (h : w.put s = some w') : Writes w [.put s] w' := by
  obtain ⟨b, _ | seg⟩ := w
  · obtain rfl := Option.some.inj h
    exact ⟨s.length, List.length_append, fun rest d hrest => hrest.put_none⟩
  · rw [Writer.put] at h
    dsimp only at h
    split at h
    · rename_i hs
      obtain rfl := Option.some.inj h
      exact ⟨0, rfl, fun rest d hrest => by rw [Nat.zero_add]; exact hrest.put_some hs⟩
    · cases h

theorem writes_putBoth {t : Bytes} (h : w.putBoth s t = some w') :
    Writes w [.put s, .put t] w' := by
  obtain ⟨w1, h1, h2⟩ := Option.bind_eq_some_iff.1 h
  exact (writes_put h1).append (writes_put h2)

theorem writes_close (h : w.close pre = some w') : Writes w [.close pre] w' := by
  obtain ⟨b, _ | seg⟩ := w
  · cases h
  · rw [Writer.close, Option.bind_eq_bind, Option.bind_some] at h
    split at h
    · rename_i hlen
      obtain ⟨text, htext, h⟩ := Option.bind_eq_some_iff.1 h
      rw [replaceChar] at htext
      split at htext
      · rename_i hkept
        obtain rfl := Option.some.inj htext
        obtain rfl := Option.some.inj h
        exact ⟨_, List.length_append, fun rest d hrest => hrest.close hlen hkept⟩
      · cases htext
    · cases h

theorem writes_callback {path : Bytes} (h : w.callback e pre path = some w') :
    Writes w (e.callbackOps pre path) w' := by
  obtain ⟨domain, hdomain, h⟩ := Option.bind_eq_some_iff.1 h
  split at h
  · obtain rfl := Option.some.inj h
    rw [Env.callbackOps, hdomain]
    refine ⟨pre.length + (domain.1.length + (e.query path).length), ?_, fun rest d hrest => ?_⟩
    · simp only [List.length_append, Nat.add_assoc]
    · rw [Nat.add_assoc, Nat.add_assoc]
      exact hrest.print.out.out
  · cases h

theorem writes_token {t : Token} (h : w.token e pre t = some w') :
    Writes w (e.ops pre t) w' := by
  cases t with
  | imgdomain =>
    rw [Writer.token] at h
    rw [Env.ops]
    split at h
    · rename_i hset
      obtain ⟨u, hu, h⟩ := Option.bind_eq_some_iff.1 h
      rw [if_pos hset, hu]
      exact writes_putBoth h
    · rename_i hset
      obtain rfl := Option.some.inj h
      rw [if_neg hset]
      exact Writes.nil
  | format => exact writes_putBoth h
  | imgsize =>
    obtain ⟨n, hn, h⟩ := Option.bind_eq_some_iff.1 h
    rw [Env.ops, hn]
    exact writes_putBoth h
  | sessionid => exact writes_putBoth h
  | img | url =>
    obtain rfl := Option.some.inj h
    exact ⟨pre.length, List.length_append, fun rest d hrest => hrest.start.out⟩
  | endimg | endurl => exact writes_close h
  | cbimp | cbclk => exact writes_callback h

/-- Where the body is there, its script comes to its end with as many bytes. -/
theorem ends_script {f : Nat} {prev : Option UInt8} {tp b : Bytes}
    (h : substitute e f prev tp w = some b) :
    ∃ d, b.length = w.sBody.length + d ∧ Ends w.tp2 (e.script f prev tp) d := by
  induction f generalizing prev tp w with
  | zero => cases h
  | succ f ih =>
    have hwrites : ∀ {w' : Writer} {ops : List Op} {prev' : Option UInt8} {tp' : Bytes},
        Writes w ops w' → substitute e f prev' tp' w' = some b →
        ∃ d, b.length = w.sBody.length + d ∧ Ends w.tp2 (ops ++ e.script f prev' tp') d := by
      rintro w' ops prev' tp' ⟨n, hn, hops⟩ hrest
      obtain ⟨d, hd, hends⟩ := ih hrest
      exact ⟨n + d, by omega, hops _ _ hends⟩
    rw [substitute] at h
    rw [Env.script]
    cases hfind : tp.findIdx? (· = 36) with
    | none =>
      rw [hfind] at h
      obtain rfl := Option.some.inj h
      exact ⟨tp.length, List.length_append, Ends.finish⟩
    | some n =>
      rw [hfind] at h
      dsimp only at h ⊢
      cases hprev : (if n = 0 then prev else tp[n - 1]?) with
      | none =>
        rw [hprev] at h
        cases h
      | some c =>
        rw [hprev] at h
        rw [Option.bind_some]
        dsimp only at h
        cases htoken : tokenAt (c :: tp.drop n) with
        | some t =>
          rw [htoken] at h
          dsimp only at h ⊢
          by_cases hle : n + t.text.length ≤ tp.length + 1
          · rw [if_pos hle] at h
            obtain ⟨w', hw', h⟩ := Option.bind_eq_some_iff.1 h
            rw [if_pos hle]
            exact hwrites (writes_token hw') h
          · rw [if_neg hle] at h
            cases h
        | none =>
          rw [htoken] at h
          obtain ⟨w', hw', h⟩ := Option.bind_eq_some_iff.1 h
          exact hwrites (writes_put hw') h

end Agreement

/-- The bodies of a loop that goes through fit. -/
theorem bodiesFit_of_loop {ads : List Ad} (hspace : 33 ≤ r.space) {s s' : Loop}
    (hfirst : s.adnum = 0 → s.sBody = []) (h : r.loop s ads = some s') :
    r.BodiesFit s.adnum (33 + s.sBody.length) ads := by
  induction ads generalizing s with
  | nil => trivial
  | cons ad ads ih =>
    rw [Request.loop] at h
    rw [Request.BodiesFit]
    cases hbody : ad.body with
    | none =>
      rw [hbody] at h
      exact ih hfirst h
    | some tp =>
      rw [hbody] at h
      dsimp only at h ⊢
      by_cases hbreak : r.room < s.sBody.length + tp.1.length + 500
      · left
        rw [Request.room] at hbreak
        omega
      · rw [if_neg hbreak] at h
        obtain ⟨s1, hserve, h⟩ := Option.bind_eq_some_iff.1 h
        obtain ⟨element, helement, hserve⟩ := Option.bind_eq_some_iff.1 hserve
        obtain ⟨body, hbodyOf, hserve⟩ := Option.bind_eq_some_iff.1 hserve
        dsimp only at hserve
        by_cases hroom : (r.append s.adnum s.sBody body).length < r.room
        · rw [if_pos hroom] at hserve
          obtain rfl := Option.some.inj hserve
          obtain ⟨d, hd, hends⟩ := ends_script hbodyOf
          have hnext := ih (fun hzero => absurd hzero (Nat.succ_ne_zero _)) h
          rw [List.length_nil, Nat.zero_add] at hd
          have hlen : 33 + (r.append s.adnum s.sBody body).length =
              (if s.adnum = 0 then 33 + s.sBody.length else 33 + s.sBody.length + 1) + d := by
            rw [Request.append]
            split
            · rename_i hzero
              rw [hfirst hzero, hd]
              rfl
            · rw [List.length_append, List.length_cons, hd]
              omega
          right
          right
          refine ⟨hends.gathers, fun x hx => ?_, fun len hlen' => ?_⟩
          · have hx' := Option.some.inj (hends.extent.symm.trans hx)
            rw [Request.room] at hroom
            omega
          · have hlen'' := Option.some.inj (hends.advance.symm.trans hlen')
            rw [← hlen'', ← hlen]
            exact hnext
        · rw [if_neg hroom] at hserve
          cases hserve

/-- The lengths of a call that comes to its answer fit. -/
theorem lengthsFit_of_getAdbody {out : Answer} (h : getAdbody r = some out) : r.LengthsFit := by
  rw [getAdbody] at h
  by_cases hfits : r.fits
  · rw [hfits, Bool.not_true, if_neg Bool.false_ne_true] at h
    simp only [Request.fits, Bool.and_eq_true, decide_eq_true_eq] at hfits
    obtain ⟨⟨⟨hmget, htypes⟩, hslot⟩, hspace⟩ := hfits
    refine ⟨hslot, hmget, htypes, fun width hwidth _ => ⟨hspace, ?_⟩⟩
    rw [hwidth] at h
    obtain ⟨s, hloop, -⟩ := Option.map_eq_some_iff.1 h
    exact bodiesFit_of_loop hspace (fun _ => rfl) hloop
  · rw [Bool.not_eq_true] at hfits
    rw [hfits] at h
    cases h

/-- A call stays inside its arrays exactly where the lengths of its texts do, and so does each
call that comes to an answer. -/
theorem writes_inside_iff (r : Request) :
    ((∀ w ∈ r.writes.log, w.stop ≤ r.size w.place) ↔ r.LengthsFit) ∧
      ∀ out, getAdbody r = some out → ∀ w ∈ r.writes.log, w.stop ≤ r.size w.place :=
  ⟨always_inside_iff r, fun _ h => (always_inside_iff r).2 (lengthsFit_of_getAdbody h)⟩

/-- Ids of three digits for 100 advertisements. -/
def hundredIds : Bytes :=
  (List.range 100).flatMap fun i => decimalNat (100 + i) ++ List.replicate 7 0

/-- A hundred banners for one request. -/
def hundredRequest : Request :=
  { leftoverRequest with
    log := { leftoverRequest.log with adnum := 100, aidList := hundredIds }
    space := 8192
    bodybyterepy := some fun _ => some (Text.of (ascii "x"))
    sPutinModelTypereply := some fun _ => some (Text.of (ascii "1")) }

/-- The command for the bodies runs over its array. -/
theorem command_overrun : ¬ ∀ r : Request, ∀ w ∈ r.writes.log, w.stop ≤ r.size w.place := by
  intro h
  have hlen : (hundredRequest.mget hundredRequest.log.format).length = 1204 := by
    decide +kernel
  have hfit := ((always_inside_iff hundredRequest).1 (h hundredRequest)).2.1
  rw [hlen] at hfit
  omega

end Doorhinges.AdBody

import Doorhinges.Callback.Overrun
import Doorhinges.ShowCap.Discipline
import Doorhinges.GetAd.Picked

/-!
# The show cap is enforced

What a callback has sent to a tag set is on its way, in the set, or was taken out of it
again. A finished callback that has counted the show that reaches the show frequency has
sent the whole ad list, and an ad request returns nothing that it finds in the tag set.
-/
namespace Doorhinges.ShowCap

open Lib.CString
open Lib.Redis (Cmd Reply Store Field Entry membersOf)
open Lib.Program
open Lib.Machine
open Callback (RedisKey AdSession Externals Request Mark Command Act aisCallback)

variable {X : Externals} {addFloat : Option Field → Bytes → Bytes} {w w' : World}

section Steps

variable (X addFloat)

/-- The steps before the callbacks take note, one constructor for each kind. -/
inductive Acts (w : World) : Label → World → Prop
  | spawn (i : Nat) (q : Request) (hi : w.procs i = none) :
      Acts w (.spawn i q) (w.setProc i ⟨aisCallback X q, {}, [], []⟩)
  | call (i : Nat) (p : Proc) (c : Command) (k : Option Reply → Act Unit)
      (hi : w.procs i = some p) (hp : p.prog = .call c k) :
      Acts w (.exec i) ((w.serve addFloat c).2.setProc i
        { p with
          prog := k (some (w.serve addFloat c).1)
          view := p.view.called X c (some (w.serve addFloat c).1) })
  | send (i : Nat) (p : Proc) (c : Command) (k : Act Unit)
      (hi : w.procs i = some p) (hp : p.prog = .send c k) :
      Acts w (.exec i) ({ w with outgoing := w.outgoing ++ [(i, c)] }.setProc i
        { p with prog := k, view := p.view.sent c })
  | mark (i : Nat) (p : Proc) (m : Mark) (k : Act Unit)
      (hi : w.procs i = some p) (hp : p.prog = .mark m k) :
      Acts w (.exec i) (w.setProc i { p with prog := k })
  | deliver (n i : Nat) (c : Command) (hc : w.outgoing[n]? = some (i, c)) :
      Acts w (.deliver n) (w.deliver addFloat n i c)
  | tick (d : Nat) : Acts w (.tick d) { w with clock := w.clock + d }
  | write (k : RedisKey) (e : Option Entry) : Acts w (.write k e) (w.write k e)
  | ask (c : GetAd.Call) (hc : w.answers addFloat c = true) : Acts w (.ask c) w

variable {X addFloat}

theorem act_acts {l : Label} (h : w.act X addFloat l = some w') : Acts X addFloat w l w' := by
  cases l with
  | spawn i q =>
    simp only [World.act, Option.ite_none_left_eq_some, Option.some.injEq] at h
    obtain ⟨hi, rfl⟩ := h
    exact .spawn i q (by simpa using hi)
  | exec i =>
    simp only [World.act, World.exec] at h
    split at h
    · cases h
    · rename_i p hi
      split at h
      · cases h
      · cases h
      · rename_i c k hp
        cases h
        exact .call i p c k hi hp
      · rename_i c k hp
        cases h
        exact .send i p c k hi hp
      · rename_i m k hp
        cases h
        exact .mark i p m k hi hp
  | deliver n =>
    obtain ⟨⟨i, c⟩, hc, rfl⟩ := Option.map_eq_some_iff.mp h
    exact .deliver n i c hc
  | tick d => cases h; exact .tick d
  | write k e => cases h; exact .write k e
  | ask c =>
    simp only [World.act, Option.ite_none_right_eq_some, Option.some.injEq] at h
    obtain ⟨hc, rfl⟩ := h
    exact .ask c hc

theorem setProc_some {i j : Nat} {p q : Proc} (h : (w.setProc i p).procs j = some q) :
    j = i ∧ q = p ∨ j ≠ i ∧ w.procs j = some q := by
  by_cases hj : j = i
  · exact .inl ⟨hj, by simpa [World.setProc, hj, eq_comm] using h⟩
  · exact .inr ⟨hj, by simpa [World.setProc, hj] using h⟩

end Steps

/-- What the callback has sent to a tag set is under way or has been served. -/
def Sent (w : World) (i : Nat) (p : Proc) : Prop :=
  ∀ m ∈ p.view.adds, ∃ s, p.view.session = some s ∧
    ((i, .sadd (.tagUuid s.uuid) m) ∈ w.outgoing ∨
      ∃ r, (.sadd (.tagUuid s.uuid) m, r) ∈ p.served)

/-- What holds of callback `i` between two steps. -/
structure Kept (X : Externals) (w : World) (i : Nat) (p : Proc) : Prop where
  keeps : Keeps (rules X) p.prog p.view fun _ v => v.Idle
  sent : Sent w i p
  tagged : ∀ device id r, (Cmd.sadd (.tagUuid device) id, r) ∈ p.served → r ≠ .error →
    (device, id) ∈ p.gone ∨ id ∈ w.tags device

/-- What holds of it after the step from `w` to `w'`, before it takes note. -/
structure Half (X : Externals) (w w' : World) (i : Nat) (p : Proc) : Prop where
  keeps : Keeps (rules X) p.prog p.view fun _ v => v.Idle
  sent : Sent w' i p
  tagged : ∀ device id r, (Cmd.sadd (.tagUuid device) id, r) ∈ p.served → r ≠ .error →
    (device, id) ∈ p.gone ∨ id ∈ w.tags device ∨ id ∈ w'.tags device

theorem Kept.half {i : Nat} {p : Proc} (h : Kept X w i p)
    (hout : ∀ c, (i, c) ∈ w.outgoing → (i, c) ∈ w'.outgoing) : Half X w w' i p where
  keeps := h.keeps
  sent m hm := by
    obtain ⟨s, hs, hplace⟩ := h.sent m hm
    exact ⟨s, hs, hplace.imp_left (hout _)⟩
  tagged device id r hr hne := (h.tagged device id r hr hne).imp_right .inl

theorem Kept.fresh (q : Request) (i : Nat) : Kept X w i ⟨aisCallback X q, {}, [], []⟩ where
  keeps := aisCallback_keeps q
  sent _ hm := absurd hm List.not_mem_nil
  tagged _ _ _ hr := absurd hr List.not_mem_nil

/-- Only reading the session record changes the session, and it comes before any addition. -/
theorem called_sent {i : Nat} {p : Proc} {c : Command} {r : Option Reply} {prog : Act Unit}
    (hmay : mayCall p.view c) (h : Sent w i p) :
    Sent w i { p with prog := prog, view := p.view.called X c r } := by
  intro m hm
  have hadds : (p.view.called X c r).adds = p.view.adds := by
    unfold View.called
    split <;> rfl
  obtain ⟨s, hs, hplace⟩ := h m (hadds ▸ hm)
  refine ⟨s, ?_, hplace⟩
  rw [← hs]
  change (p.view.called X c r).session = p.view.session
  unfold View.called
  split
  · rw [hmay.2] at hadds
    change m ∈ (p.view.called X _ r).adds at hm
    rw [hadds] at hm
    exact absurd hm List.not_mem_nil
  all_goals rfl

theorem sent_sent {i : Nat} {p : Proc} {c : Command} {prog : Act Unit}
    (hmay : maySend p.view c) (h : Sent w i p) :
    Sent { w with outgoing := w.outgoing ++ [(i, c)] } i
      { p with prog := prog, view := p.view.sent c } := by
  have hold : ∀ m ∈ p.view.adds, ∃ s, p.view.session = some s ∧
      ((i, .sadd (.tagUuid s.uuid) m) ∈ w.outgoing ++ [(i, c)] ∨
        ∃ r, (.sadd (.tagUuid s.uuid) m, r) ∈ p.served) := by
    intro m hm
    obtain ⟨s, hs, hplace⟩ := h m hm
    exact ⟨s, hs, hplace.imp_left (List.mem_append_left _)⟩
  intro m hm
  change m ∈ (p.view.sent c).adds at hm
  change ∃ s, (p.view.sent c).session = some s ∧ _
  unfold View.sent at hm ⊢
  split at hm
  · rename_i device id
    rcases List.mem_append.1 hm with hm | hm
    · exact hold m hm
    · obtain rfl := List.mem_singleton.1 hm
      obtain ⟨s, hs, rfl⟩ := Option.map_eq_some_iff.1 hmay
      exact ⟨s, hs, .inl (List.mem_append_right _ List.mem_cons_self)⟩
  · exact hold m hm

/-- An id that has been added is in the set. -/
theorem sadd_tags {st : Store RedisKey} {now : Nat} {device id : Bytes}
    (h : (st.run addFloat now (.sadd (.tagUuid device) id)).1 ≠ .error) :
    id ∈ (membersOf ((st.run addFloat now (.sadd (.tagUuid device) id)).2.lookup now
      (.tagUuid device))).getD [] := by
  have hlive : ∀ l, Entry.alive now ⟨.set l, Lib.Redis.expiresOf (st.lookup now (.tagUuid device))⟩ := by
    intro l
    cases he : st.lookup now (.tagUuid device) with
    | none => rfl
    | some e => exact (Store.lookup_some.1 he).2
  cases hm : membersOf (st.lookup now (.tagUuid device)) with
  | none =>
    refine absurd ?_ h
    simp [Store.run, Cmd.exec, Cmd.key, hm]
  | some members =>
    by_cases hid : id ∈ members
    · have hsame : (st.run addFloat now (.sadd (.tagUuid device) id)).2 = st := by
        refine Store.run_same addFloat ?_
        simp [Cmd.exec, Cmd.key, hm, hid]
      rw [hsame, hm]
      exact hid
    · have hnew : (st.run addFloat now (.sadd (.tagUuid device) id)).2 (RedisKey.tagUuid device) =
          some ⟨.set (members ++ [id]), Lib.Redis.expiresOf (st.lookup now (.tagUuid device))⟩ :=
        Store.run_self addFloat (c := .sadd (RedisKey.tagUuid device) id)
          (by simp [Cmd.exec, Cmd.key, hm, hid])
      have hlook : Store.lookup _ now (RedisKey.tagUuid device) = some _ :=
        Store.lookup_some.2 ⟨hnew, hlive (members ++ [id])⟩
      rw [hlook]
      simp [membersOf]

theorem deliver_half {n i : Nat} {c : Command} (hc : w.outgoing[n]? = some (i, c)) {j : Nat}
    {p : Proc} (h : Kept X w j p) :
    Half X w (w.deliver addFloat n i c) j
      (if j = i then { p with served := p.served ++ [(c, (w.serve addFloat c).1)] } else p) := by
  obtain ⟨hn, hget⟩ := List.getElem?_eq_some_iff.1 hc
  have hperm := List.getElem_cons_eraseIdx_perm hn
  have hleft : ∀ a ∈ w.outgoing, a ≠ (i, c) → a ∈ (w.deliver addFloat n i c).outgoing := by
    intro a ha hne
    rcases List.mem_cons.1 (hperm.mem_iff.2 ha) with rfl | ha
    · exact absurd hget hne
    · exact ha
  split
  · rename_i hj
    subst hj
    refine ⟨h.keeps, fun m hm => ?_, fun device id r hr hne => ?_⟩
    · obtain ⟨s, hs, hplace⟩ := h.sent m hm
      refine ⟨s, hs, ?_⟩
      rcases hplace with hout | ⟨r, hr⟩
      · by_cases heq : (j, Cmd.sadd (.tagUuid s.uuid) m) = (j, c)
        · obtain ⟨-, rfl⟩ := Prod.mk.inj heq
          exact .inr ⟨_, List.mem_append_right _ List.mem_cons_self⟩
        · exact .inl (hleft _ hout heq)
      · exact .inr ⟨r, List.mem_append_left _ hr⟩
    · rcases List.mem_append.1 hr with hr | hr
      · exact (h.tagged device id r hr hne).imp_right .inl
      · obtain ⟨rfl, rfl⟩ := Prod.mk.inj (List.mem_singleton.1 hr)
        exact .inr (.inr (sadd_tags hne))
  · rename_i hj
    exact h.half fun a ha => hleft _ ha fun heq => hj (Prod.mk.inj heq).1

theorem acts_half {l : Label} (h : ∀ i p, w.procs i = some p → Kept X w i p)
    (ha : Acts X addFloat w l w') : ∀ i p, w'.procs i = some p → Half X w w' i p := by
  intro j p' hp'
  cases ha with
  | spawn i q hi =>
    rcases setProc_some hp' with ⟨-, rfl⟩ | ⟨-, hp⟩
    · exact (Kept.fresh q j).half fun _ hc => hc
    · exact (h j p' hp).half fun _ hc => hc
  | call i p c k hi hprog =>
    rcases setProc_some hp' with ⟨rfl, rfl⟩ | ⟨-, hp⟩
    · have hk := h j p hi
      have hkeeps := hk.keeps
      rw [hprog] at hkeeps
      refine ⟨hkeeps.2 _, called_sent hkeeps.1 hk.sent, fun device id r hr hne => ?_⟩
      exact (hk.tagged device id r hr hne).imp_right .inl
    · exact (h j p' hp).half fun _ hc => hc
  | send i p c k hi hprog =>
    rcases setProc_some hp' with ⟨rfl, rfl⟩ | ⟨-, hp⟩
    · have hk := h j p hi
      have hkeeps := hk.keeps
      rw [hprog] at hkeeps
      refine ⟨hkeeps.2, sent_sent hkeeps.1 hk.sent, fun device id r hr hne => ?_⟩
      exact (hk.tagged device id r hr hne).imp_right .inl
    · exact (h j p' hp).half fun _ hc => List.mem_append_left _ hc
  | mark i p m k hi hprog =>
    rcases setProc_some hp' with ⟨rfl, rfl⟩ | ⟨-, hp⟩
    · have hk := h j p hi
      have hkeeps := hk.keeps
      rw [hprog] at hkeeps
      refine ⟨hkeeps.2, hk.sent, fun device id r hr hne => ?_⟩
      exact (hk.tagged device id r hr hne).imp_right .inl
    · exact (h j p' hp).half fun _ hc => hc
  | deliver n i c hc =>
    obtain ⟨p, hp, rfl⟩ := Option.map_eq_some_iff.1 hp'
    exact deliver_half hc (h j p hp)
  | tick d => exact (h j p' hp').half fun _ hc => hc
  | write k e => exact (h j p' hp').half fun _ hc => hc
  | ask c hc => exact (h j p' hp').half fun _ hc => hc

/-- What leaves a tag set in the step is noted. -/
theorem watch_kept {i : Nat} {p : Proc} (h : Half X w w' i p) :
    Kept X (w.watch w') i
      { p with
        gone := p.gone ++ p.added.filter fun a => a.2 ∈ w.tags a.1 && a.2 ∉ w'.tags a.1 } := by
  refine ⟨h.keeps, h.sent, fun device id r hr hne => ?_⟩
  have hadded : (device, id) ∈ p.added := List.mem_filterMap.2 ⟨_, hr, rfl⟩
  change _ ∨ id ∈ w'.tags device
  by_cases hin : id ∈ w'.tags device
  · exact .inr hin
  · refine .inl (List.mem_append.2 ?_)
    rcases h.tagged device id r hr hne with hgone | hwas | his
    · exact .inl hgone
    · exact .inr (List.mem_filter.2 ⟨hadded, by simpa [hwas] using hin⟩)
    · exact absurd his hin

theorem kept_step {l : Label} (h : ∀ i p, w.procs i = some p → Kept X w i p)
    (hs : step X addFloat w l = some w') : ∀ i p, w'.procs i = some p → Kept X w' i p := by
  obtain ⟨u, hu, rfl⟩ := Option.map_eq_some_iff.1 hs
  intro i p' hp'
  obtain ⟨p, hp, rfl⟩ := Option.map_eq_some_iff.1 hp'
  exact watch_kept (acts_half h (act_acts hu) i p hp)

theorem kept_run {w₀ : World} (h₀ : w₀.Initial) {ls : List Label}
    (hr : run (step X addFloat) w₀ ls = some w) : ∀ i p, w.procs i = some p → Kept X w i p := by
  have hstart : ∀ i p, w₀.procs i = some p → Kept X w₀ i p := by
    intro i p hp
    rw [h₀.procs i] at hp
    cases hp
  have hstep : ∀ (w : World) (l : Label) (w' : World), (∀ i p, w.procs i = some p → Kept X w i p) →
      step X addFloat w l = some w' → ∀ i p, w'.procs i = some p → Kept X w' i p :=
    fun _ _ _ h hs => kept_step h hs
  exact run_invariant hstep hstart hr

/-- A callback that is not busy owes nothing. -/
theorem Kept.idle {i : Nat} {p : Proc} (h : Kept X w i p) (hb : p.busy = false) : p.view.Idle := by
  have hkeeps := h.keeps
  unfold Proc.busy at hb
  cases hprog : p.prog with
  | ret a =>
    rw [hprog] at hkeeps
    exact hkeeps
  | crash =>
    rw [hprog] at hb
    cases hb
  | call c k =>
    rw [hprog] at hkeeps hb
    have hmay : mayCall p.view c := hkeeps.1
    unfold mayCall at hmay
    split at hmay
    · exact hmay.1
    · cases hb
    · exact hmay
  | send c k =>
    rw [hprog] at hkeeps hb
    have hmay : maySend p.view c := hkeeps.1
    unfold maySend at hmay
    split at hmay
    · cases hb
    · exact hmay
  | mark m k =>
    rw [hprog] at hkeeps
    exact hkeeps.1

/-- A finished callback has put the whole list into the tag set. -/
theorem finished_tagged {i : Nat} {p : Proc} (h : Kept X w i p) (hf : Finished w i p)
    {order device : Bytes} (hr : p.view.Reached order device) :
    ∃ l, p.view.adlist = some (order, l) ∧
      ∀ id, some id ∈ l → (device, id) ∉ p.gone → id ∈ w.tags device := by
  have hidle := h.idle hf.idle
  obtain ⟨k, f, hk, rfl, rfl, hfre, hle⟩ := hr
  obtain ⟨l, hl⟩ := hidle.listed k f hk hfre hle
  refine ⟨l, hl, fun id hid hgone => ?_⟩
  have hadded : id ∈ p.view.adds := by
    have hmem : some id ∈ p.view.adds.map some := by
      rw [← hidle.added _ l hl]
      exact List.mem_reverse.2 hid
    simpa using hmem
  obtain ⟨s, hs, hplace⟩ := h.sent id hadded
  have hdevice : s.uuid = k.device := by
    have := hidle.device k hk
    simpa [hs] using this
  rw [hdevice] at hplace
  rcases hplace with hout | ⟨r, hserved⟩
  · exact absurd hout (hf.delivered _)
  · exact (h.tagged _ _ r hserved (hf.successful _ hserved)).resolve_left hgone

/-- The reply an ad request gets is the tag set. -/
theorem answers_tags {c : GetAd.Call} {device : Bytes} (hu : c.log.uuid = some device)
    (h : w.answers addFloat c = true) (id : Bytes) :
    some id ∈ GetAd.elementsOf (c.reply (.tagUuid device)) ↔ id ∈ w.tags device := by
  rw [World.answers, hu, Option.getD_some, decide_eq_true_eq] at h
  rw [h, World.tags]
  simp only [World.serve, Store.run, Cmd.exec, Cmd.key]
  cases membersOf (w.store.lookup w.clock (.tagUuid device)) with
  | none => simp [GetAd.elementsOf, Reply.elements]
  | some members => simp [GetAd.elementsOf, Reply.elements]

/-- In every run of callbacks and ad requests, once a callback has counted the show that
reaches the show frequency of the order and has finished, an ad request of the device
returns no ad of the list the callback has read, but for those taken out of the tag set
again. -/
theorem cap_enforced {w₀ : World} (h₀ : w₀.Initial) {ls : List Label}
    (hr : run (step X addFloat) w₀ ls = some w) {i : Nat} {p : Proc} (hf : Finished w i p)
    {order device : Bytes} (hreached : p.view.Reached order device) {c : GetAd.Call}
    (hc : c.Canonical) (hu : c.log.uuid = some device)
    (hask : step X addFloat w (.ask c) = some w') :
    ∃ l, p.view.adlist = some (order, l) ∧ ∃ r, GetAd.getAd c = some r ∧
      ∀ id, some id ∈ l → (device, id) ∉ p.gone → id ∉ r.chosen.getD [] ∧ id ∉ r.ads := by
  obtain ⟨l, hl, htagged⟩ := finished_tagged (kept_run h₀ hr i p hf.proc) hf hreached
  obtain ⟨r, hads, hnone⟩ := GetAd.getAd_excludes hc
  refine ⟨l, hl, r, hads, fun id hid hgone => hnone id ?_⟩
  have hanswers : w.answers addFloat c = true := by
    obtain ⟨u, hu, -⟩ := Option.map_eq_some_iff.1 hask
    simp only [World.act, Option.ite_none_right_eq_some] at hu
    exact hu.1
  rw [hu, Option.getD_some]
  exact (answers_tags hu hanswers id).2 (htagged id hid hgone)

namespace Sample

/-- The ad 7 of the order 3 is to be shown once a day. -/
def store : Store RedisKey := fun k =>
  if k = .adplatform then some Callback.Sample.platforms
  else if k = .adsession Callback.Sample.sessionId then
    some ⟨.text (Callback.Sample.record (ascii "0")), none⟩
  else if k = .adOrderid (ascii "7") then some ⟨.text (ascii "3"), none⟩
  else if k = .orderShowfre (ascii "3") then some ⟨.text (ascii "1"), none⟩
  else if k = .orderAdlist (ascii "3") then some ⟨.set [ascii "7"], none⟩
  else none

def start : World := ⟨0, store, fun _ => none, []⟩

/-- A show callback runs to its end, and the server to the end of what it has sent. -/
def labels : List Label :=
  .spawn 0 (Callback.Sample.request (ascii "1")) ::
    (List.replicate 19 (.exec 0) ++ List.replicate 9 (.deliver 0))

abbrev capStep := step (Callback.Sample.externals (ascii "0")) Callback.Sample.sum

/-- An ad request of the device, with the ads 7 and 8 in every set. -/
def request : GetAd.Call where
  log :=
    { ppId := some (ascii "13"), appId := some (ascii "1"), category := some (ascii "2")
      uuid := some (ascii "u"), clinet := some (ascii "1"), opreator := some (ascii "1")
      adSpaceType := some (ascii "1"), deviceType := some (ascii "1"), ip := ascii "1.2.3.4"
      lg := [], lat := [], adnum := 1 }
  types := []
  reply
    | .tagUuid _ => some (.array [some (ascii "7")])
    | .coverage _ => none
    | .debugip => none
    | .ipArea _ => none
    | .lastrequest _ _ => none
    | .appLib _ _ => none
    | _ => some (.array [some (ascii "7"), some (ascii "8")])
  near _ _ _ _ _ := false
  rand := 0
  nodes := fun _ => ⟨0, [], none, none, none, none, 0⟩
  arr := fun _ => []
  buffer := List.replicate 64 0

theorem request_canonical : request.Canonical where
  ids q _ := by
    have h7 : GetAd.IsId (ascii "7") := ⟨7, by decide, by decide, by decide⟩
    have h8 : GetAd.IsId (ascii "8") := ⟨8, by decide, by decide, by decide⟩
    cases q <;> simp [GetAd.Ids, GetAd.elementsOf, request, Reply.elements, h7, h8]
  coverage ids es h := by cases h

set_option maxRecDepth 20000 in
/-- The show has been counted and the ad 7 is in the tag set. -/
theorem run_labels : ∃ w p, run capStep start labels = some w ∧ Finished w 0 p ∧
    p.view.Reached (ascii "3") (ascii "u") ∧
    p.view.adlist = some (ascii "3", [some (ascii "7")]) ∧ p.gone = [] ∧
    capStep w (.ask request) = some (w.watch w) := by
  refine ⟨_, _, rfl, ⟨rfl, rfl, ?_, ?_⟩, ⟨_, _, rfl, rfl, rfl, rfl, ?_⟩, rfl, rfl, rfl⟩
  · exact fun _ => List.not_mem_nil
  · decide +kernel
  · decide

end Sample

theorem cap_enforced_first : ∃ w p, run Sample.capStep Sample.start Sample.labels = some w ∧
    p.view.adlist = some (ascii "3", [some (ascii "7")]) ∧ w.procs 0 = some p ∧
    ∃ r, GetAd.getAd Sample.request = some r ∧ ascii "7" ∉ r.ads := by
  obtain ⟨w, p, hrun, hfinished, hreached, hadlist, hgone, hask⟩ := Sample.run_labels
  have hinitial : Sample.start.Initial := ⟨fun _ => rfl, rfl⟩
  obtain ⟨l, hl, r, hr, hnot⟩ :=
    cap_enforced hinitial hrun hfinished hreached Sample.request_canonical rfl hask
  obtain rfl : l = [some (ascii "7")] := by simpa [hadlist, eq_comm] using hl
  exact ⟨w, p, hrun, hadlist, hfinished.proc, r, hr,
    (hnot _ List.mem_cons_self (by simp [hgone])).2⟩

end Doorhinges.ShowCap

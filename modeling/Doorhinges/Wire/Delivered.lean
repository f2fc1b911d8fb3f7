import Doorhinges.Wire.Reply

/-!
# A reply is delivered once

However `add_iov` cuts the answer into messages and the socket takes it, the bytes accepted
followed by those the pending entries still stand for are the answer. The headers in use
partition the entries in use: each begins where the one before it ends.
-/
namespace Doorhinges.Wire

open Lib.CString
open Lib.Machine
open Lib.Slices

/-- The headers cover the entries from `s` to `e` of the array at `block`, one after another. -/
def Chained (block : Nat) : Nat → List Msghdr → Nat → Prop
  | s, [], e => s = e
  | s, m :: ms, e => m.block = block ∧ m.iov = s ∧ Chained block (s + m.iovlen) ms e

section Chain

variable {b b' s e : Nat} {m : Msghdr} {ms ms' : List Msghdr}

theorem Chained.le (h : Chained b s ms e) : s ≤ e := by
  induction ms generalizing s with
  | nil => exact Nat.le_of_eq h
  | cons m ms ih =>
    have := ih h.2.2
    omega

theorem chained_append : Chained b s (ms ++ ms') e ↔ ∃ i, Chained b s ms i ∧ Chained b i ms' e := by
  induction ms generalizing s with
  | nil =>
    constructor
    · intro h
      exact ⟨s, rfl, h⟩
    · rintro ⟨i, rfl, h⟩
      exact h
  | cons m ms ih =>
    constructor
    · rintro ⟨hb, hs, h⟩
      obtain ⟨i, hi, h⟩ := ih.1 h
      exact ⟨i, ⟨hb, hs, hi⟩, h⟩
    · rintro ⟨i, ⟨hb, hs, hi⟩, h⟩
      exact ⟨hb, hs, ih.2 ⟨i, hi, h⟩⟩

theorem chained_concat : Chained b s (ms ++ [m]) e ↔
    Chained b s ms m.iov ∧ m.block = b ∧ m.iov + m.iovlen = e := by
  rw [chained_append]
  constructor
  · rintro ⟨i, hi, hb, rfl, h⟩
    exact ⟨hi, hb, h⟩
  · rintro ⟨hi, hb, h⟩
    exact ⟨_, hi, hb, rfl, h⟩

theorem repoint_append {rest : List Msghdr} : repoint b ms.length s (ms ++ rest) =
    repoint b ms.length s ms ++ rest := by
  induction ms generalizing s with
  | nil => rfl
  | cons m ms ih =>
    rw [List.length_cons, List.cons_append, repoint, repoint, ih]
    rfl

theorem chained_repoint (b' : Nat) (h : Chained b s ms e) : Chained b' s (repoint b' ms.length s ms) e := by
  induction ms generalizing s with
  | nil => exact h
  | cons m ms ih => exact ⟨rfl, rfl, ih h.2.2⟩

end Chain

/-- What building and sending the messages leaves alone. -/
structure Same (c c' : Output) : Prop where
  wbuf : c'.wbuf = c.wbuf
  state : c'.state = c.state
  writeAndGo : c'.writeAndGo = c.writeAndGo
  running : c'.running = c.running

section Build

variable (spare : Slice) (spareMsg : Msghdr) {c c' : Output} {front : List Msghdr}
  {last : Msghdr} {text : Bytes}

theorem Same.refl (c : Output) : Same c c := ⟨rfl, rfl, rfl, rfl⟩

theorem Same.trans {c'' : Output} (h : Same c c') (h' : Same c' c'') : Same c c'' :=
  ⟨h'.wbuf.trans h.wbuf, h'.state.trans h.state, h'.writeAndGo.trans h.writeAndGo,
    h'.running.trans h.running⟩

/-- `front` and `last` are the headers in use, and the entries in use stand for `text`. -/
structure Built (c : Output) (front : List Msghdr) (last : Msghdr) (text : Bytes) : Prop where
  curr : c.msgcurr = 0
  used : c.msgused = front.length + 1
  msgs : ∃ rest, c.msglist = front ++ last :: rest
  size : 0 < c.iov.length
  iov : c.iovused ≤ c.iov.length
  chain : Chained c.block 0 (front ++ [last]) c.iovused
  front : ∀ m ∈ front, 0 < m.iovlen
  last : c.msgbytes = 0 ∨ 0 < last.iovlen
  fits : ∀ v ∈ c.iov.take c.iovused, v.Fits c.wbuf
  text : gather c.wbuf (c.iov.take c.iovused) = text

theorem Built.getElem_last (h : Built c front last text) : c.msglist[c.msgused - 1]? = some last := by
  obtain ⟨rest, hmsgs⟩ := h.msgs
  rw [hmsgs, h.used, Nat.add_sub_cancel, List.getElem?_append_right (Nat.le_refl _), Nat.sub_self]
  rfl

/-- The first header behind `front` is set. -/
theorem set_front {rest : List Msghdr} {m : Msghdr} (h : rest ≠ []) :
    ∃ rest', (front ++ rest).set front.length m = front ++ m :: rest' := by
  obtain ⟨x, rest', rfl⟩ := List.exists_cons_of_ne_nil h
  refine ⟨rest', ?_⟩
  rw [List.set_append_right _ _ (Nat.le_refl _), Nat.sub_self, List.set_cons_zero]

theorem msglist_addMsghdr {used rest : List Msghdr} (hmsgs : c.msglist = used ++ rest)
    (hused : c.msgused = used.length) (hsize : 0 < c.msglist.length) :
    ∃ rest', (c.addMsghdr spareMsg).msglist = used ++ ⟨c.block, c.iovused, 0⟩ :: rest' := by
  unfold Output.addMsghdr
  dsimp only
  rw [hused]
  split
  · rw [hmsgs, List.append_assoc]
    apply set_front
    intro hnil
    have hlen : (rest ++ List.replicate (used ++ rest).length spareMsg).length = 0 := by
      rw [hnil]
      rfl
    rw [← hmsgs, List.length_append, List.length_replicate] at hlen
    omega
  · rename_i hfull
    rw [hmsgs]
    apply set_front
    rintro rfl
    rw [hmsgs, List.append_nil] at hfull
    exact hfull rfl

theorem Built.addMsghdr (h : Built c front last text) (hlast : 0 < last.iovlen) :
    Built (c.addMsghdr spareMsg) (front ++ [last]) ⟨c.block, c.iovused, 0⟩ text := by
  obtain ⟨rest, hmsgs⟩ := h.msgs
  have hmsgs' : c.msglist = (front ++ [last]) ++ rest := by rw [hmsgs, List.append_cons]
  refine ⟨h.curr, ?_, ?_, h.size, h.iov, ?_, ?_, .inl rfl, h.fits, h.text⟩
  · show c.msgused + 1 = _
    rw [h.used, List.length_append, List.length_singleton]
  · refine msglist_addMsghdr spareMsg hmsgs' ?_ ?_
    · rw [h.used, List.length_append, List.length_singleton]
    · rw [hmsgs, List.length_append, List.length_cons]
      omega
  · exact chained_concat.2 ⟨h.chain, rfl, rfl⟩
  · intro m hm
    rcases List.mem_append.1 hm with hm | hm
    · exact h.front m hm
    · rw [List.mem_singleton.1 hm]
      exact hlast

theorem Built.openMsg (h : Built c front last text) (limit : Bool) :
    ∃ c' front' last', c.openMsg spareMsg limit = some c' ∧ Built c' front' last' text ∧
      Same c c' ∧ (limit = true → c'.msgbytes < udpMaxPayloadSize) := by
  unfold Output.openMsg
  rw [h.getElem_last]
  by_cases hfull : last.iovlen = iovMax ∨ limit ∧ c.msgbytes ≥ udpMaxPayloadSize
  · refine ⟨_, _, _, congrArg some (if_pos hfull), h.addMsghdr spareMsg ?_,
      ⟨rfl, rfl, rfl, rfl⟩, ?_⟩
    · rcases hfull with hfull | ⟨-, hbytes⟩
      · rw [hfull]
        decide
      · rcases h.last with h0 | hlast
        · rw [h0] at hbytes
          exact absurd hbytes (by decide)
        · exact hlast
    · intro _
      exact (show 0 < udpMaxPayloadSize by decide)
  · refine ⟨c, front, last, congrArg some (if_neg hfull), h, Same.refl _, ?_⟩
    intro hlimit
    rw [not_or, not_and] at hfull
    have := hfull.2 hlimit
    omega

theorem repoint_concat (front : List Msghdr) (last : Msghdr) {b s : Nat} : ∃ front' last',
    repoint b (front.length + 1) s (front ++ [last]) = front' ++ [last'] ∧
      front'.length = front.length ∧ front'.map Msghdr.iovlen = front.map Msghdr.iovlen ∧
      last'.iovlen = last.iovlen := by
  induction front generalizing s with
  | nil => exact ⟨[], ⟨b, s, last.iovlen⟩, rfl, rfl, rfl, rfl⟩
  | cons m front ih =>
    obtain ⟨front', last', hrep, hlength, hmap, hlast⟩ := ih (s := s + m.iovlen)
    refine ⟨⟨b, s, m.iovlen⟩ :: front', last', ?_, ?_, ?_, hlast⟩
    · rw [List.length_cons, List.cons_append, repoint, hrep]
      rfl
    · rw [List.length_cons, List.length_cons, hlength]
    · rw [List.map_cons, List.map_cons, hmap]

theorem Built.ensureIovSpace (h : Built c front last text) : ∃ front' last',
    Built (c.ensureIovSpace spare) front' last' text ∧ Same c (c.ensureIovSpace spare) ∧
      (c.ensureIovSpace spare).iovused < (c.ensureIovSpace spare).iov.length ∧
      (c.ensureIovSpace spare).msgbytes = c.msgbytes := by
  unfold Output.ensureIovSpace
  by_cases hfull : c.iovused ≥ c.iov.length
  · rw [if_pos hfull]
    obtain ⟨rest, hmsgs⟩ := h.msgs
    obtain ⟨front', last', hrep, hlength, hmap, hlast⟩ :=
      repoint_concat front last (b := c.block + 1) (s := 0)
    have hsize := h.size
    have htake : (c.iov ++ List.replicate c.iov.length spare).take c.iovused =
        c.iov.take c.iovused := List.take_append_of_le_length h.iov
    have hchain := chained_repoint (c.block + 1) h.chain
    rw [List.length_append, List.length_singleton, hrep] at hchain
    refine ⟨front', last', ⟨h.curr, ?_, ⟨rest, ?_⟩, ?_, ?_, hchain, ?_, ?_, ?_, ?_⟩,
      ⟨rfl, rfl, rfl, rfl⟩, ?_, rfl⟩
    · rw [hlength]
      exact h.used
    · dsimp only
      have hsplit : c.msglist = (front ++ [last]) ++ rest := by rw [hmsgs, List.append_cons]
      have hused : c.msgused = (front ++ [last]).length := by
        rw [h.used, List.length_append, List.length_singleton]
      rw [hsplit, hused, repoint_append, List.length_append, List.length_singleton, hrep,
        ← List.append_cons]
    · rw [List.length_append]
      omega
    · rw [List.length_append]
      have := h.iov
      dsimp only
      omega
    · intro m hm
      have hlen : m.iovlen ∈ front'.map Msghdr.iovlen := List.mem_map_of_mem hm
      rw [hmap] at hlen
      obtain ⟨m', hm', heq⟩ := List.mem_map.1 hlen
      rw [← heq]
      exact h.front m' hm'
    · rw [hlast]
      exact h.last
    · dsimp only
      rw [htake]
      exact h.fits
    · dsimp only
      rw [htake]
      exact h.text
    · rw [List.length_append, List.length_replicate]
      have := h.iov
      dsimp only
      omega
  · rw [if_neg hfull]
    exact ⟨front, last, h, Same.refl _, Nat.lt_of_not_le hfull, rfl⟩

theorem Built.putIov (h : Built c front last text) {v : Slice} (hv : v.Fits c.wbuf)
    (hroom : c.iovused < c.iov.length) :
    ∃ c', c.putIov v = some c' ∧
      Built c' front { last with iovlen := last.iovlen + 1 } (text ++ v.select c.wbuf) ∧
      Same c c' := by
  obtain ⟨hfront, hblock, hend⟩ := chained_concat.1 h.chain
  obtain ⟨rest, hmsgs⟩ := h.msgs
  have htake : (c.iov.set c.iovused v).take (c.iovused + 1) = c.iov.take c.iovused ++ [v] := by
    rw [List.take_succ_eq_append_getElem (by rw [List.length_set]; exact hroom),
      List.getElem_set_self, List.take_set_of_le (Nat.le_refl _)]
  unfold Output.putIov
  rw [h.getElem_last]
  refine ⟨_, if_pos ⟨hblock, by rw [hend]; exact hroom⟩, ⟨h.curr, h.used, ?_, ?_, ?_, ?_, h.front, ?_,
    ?_, ?_⟩, ⟨rfl, rfl, rfl, rfl⟩⟩
  · refine ⟨rest, ?_⟩
    dsimp only
    rw [hmsgs, h.used, Nat.add_sub_cancel, List.set_append_right _ _ (Nat.le_refl _), Nat.sub_self,
      List.set_cons_zero]
  · rw [List.length_set]
    exact h.size
  · rw [List.length_set]
    exact hroom
  · refine chained_concat.2 ⟨hfront, hblock, ?_⟩
    dsimp only
    omega
  · exact .inr (Nat.succ_pos _)
  · dsimp only
    rw [hend, htake]
    intro w hw
    rcases List.mem_append.1 hw with hw | hw
    · exact h.fits w hw
    · rw [List.mem_singleton.1 hw]
      exact hv
  · dsimp only
    rw [hend, htake, gather_append, h.text, gather_cons, gather_nil, List.append_nil]

theorem leftover_lt {limit : Bool} {msgbytes len : Nat} (hlen : 0 < len)
    (h : limit = true → msgbytes < udpMaxPayloadSize) : leftover limit msgbytes len < len := by
  unfold leftover
  split
  · rename_i hlimit
    have := h hlimit.1
    omega
  · exact hlen

/-- The rounds of `add_iov`; what is left over gets shorter with each. -/
theorem Built.addIovLoop {fuel buf len : Nat} (h : Built c front last text) (hfuel : len < fuel)
    (hlen : 0 < len) (hbuf : buf + len ≤ c.wbuf.length) :
    ∃ c' front' last', c.addIovLoop spare spareMsg fuel buf len = some c' ∧
      Built c' front' last' (text ++ Slice.select c.wbuf ⟨buf, len⟩) ∧ 0 < last'.iovlen ∧
      Same c c' := by
  induction fuel generalizing c front last text buf len with
  | zero => exact absurd hfuel (Nat.not_lt_zero _)
  | succ fuel ih =>
    rw [Output.addIovLoop]
    obtain ⟨c₁, front₁, last₁, hopen, h₁, hsame₁, hmtu⟩ :=
      h.openMsg spareMsg (decide (1 = c.msgused))
    obtain ⟨front₂, last₂, h₂, hsame₂, hroom, hbytes⟩ := h₁.ensureIovSpace spare
    have hsame := hsame₁.trans hsame₂
    rw [hopen, Option.bind_eq_bind, Option.bind_some]
    dsimp only
    have hleft := leftover_lt hlen fun hlimit => hbytes ▸ hmtu hlimit
    generalize leftover (decide (1 = c.msgused)) (c₁.ensureIovSpace spare).msgbytes len = k at hleft ⊢
    rw [← hsame.wbuf] at hbuf ⊢
    obtain ⟨c₃, hput, h₃, hsame₃⟩ :=
      h₂.putIov (v := ⟨buf, len - k⟩) ⟨by dsimp only; omega, by dsimp only; omega⟩ hroom
    rw [hput, Option.bind_some]
    split
    · rename_i hk
      rw [← hsame₃.wbuf] at hbuf ⊢
      obtain ⟨c', front', last', hloop, h', hlast', hsame'⟩ :=
        @ih c₃ _ _ _ (buf + (len - k)) k h₃ (by omega) hk (by omega)
      refine ⟨c', front', last', hloop, ?_, hlast', (hsame.trans hsame₃).trans hsame'⟩
      have hsplit := select_split c₃.wbuf buf (len - k) k
      rw [Nat.sub_add_cancel hleft.le] at hsplit
      rw [← hsplit, ← List.append_assoc]
      rwa [← hsame₃.wbuf] at h'
    · rename_i hk
      obtain rfl : k = 0 := by omega
      exact ⟨c₃, _, _, rfl, h₃, Nat.succ_pos _, hsame.trans hsame₃⟩

end Build

section Send

variable {c c' : Output} {done msgs : List Msghdr} {s n k p : Nat} {rest : Bytes}
  {iov : List Slice}

/-- The entries in use from `s` on. -/
def Output.entries (c : Output) (s : Nat) : List Slice := (c.iov.take c.iovused).drop s

/-- The messages `msgs` are left, and their entries stand for `rest`. Only the first of them
may have been written out. -/
structure Pending (c : Output) (done msgs : List Msghdr) (s : Nat) (rest : Bytes) : Prop where
  built : 0 < c.iovused
  iov : c.iovused ≤ c.iov.length
  list : ∃ free, c.msglist = done ++ (msgs ++ free)
  curr : c.msgcurr = done.length
  used : c.msgused = done.length + msgs.length
  chain : Chained c.block s msgs c.iovused
  tail : ∀ m ∈ msgs.tail, 0 < m.iovlen
  fits : ∀ v ∈ c.entries s, v.Fits c.wbuf
  text : gather c.wbuf (c.entries s) = rest

theorem Built.pending {front : List Msghdr} {last : Msghdr} {text : Bytes}
    (h : Built c front last text) (hlast : 0 < last.iovlen) :
    Pending c [] (front ++ [last]) 0 text := by
  obtain ⟨free, hmsgs⟩ := h.msgs
  have hend := (chained_concat.1 h.chain).2.2
  refine ⟨by omega, h.iov, ⟨free, ?_⟩, h.curr, ?_, h.chain, ?_, h.fits, h.text⟩
  · rw [hmsgs, List.nil_append, List.append_assoc, List.singleton_append]
  · rw [h.used, List.length_append, List.length_singleton, List.length_nil, Nat.zero_add]
  · intro m hm
    rcases List.mem_append.1 (List.mem_of_mem_tail hm) with hm | hm
    · exact h.front m hm
    · rw [List.mem_singleton.1 hm]
      exact hlast

theorem Pending.getElem_head {m : Msghdr} (h : Pending c done (m :: msgs) s rest) :
    c.msglist[c.msgcurr]? = some m := by
  obtain ⟨free, hlist⟩ := h.list
  rw [hlist, h.curr, List.getElem?_append_right (Nat.le_refl _), Nat.sub_self]
  rfl

theorem same_nextMsg : Same c c.nextMsg := by
  unfold Output.nextMsg
  split <;> exact ⟨rfl, rfl, rfl, rfl⟩

/-- A message that is written out is passed over. -/
theorem Pending.nextMsg (h : Pending c done msgs s rest) : ∃ done' msgs',
    Pending c.nextMsg done' msgs' s rest ∧ ∀ m ∈ msgs', 0 < m.iovlen := by
  cases msgs with
  | nil =>
    have hused := h.used
    have hskip : c.nextMsg = c := by
      unfold Output.nextMsg
      rw [if_neg]
      rintro ⟨hlt, -⟩
      rw [hused, h.curr] at hlt
      exact absurd hlt (Nat.lt_irrefl _)
    rw [hskip]
    exact ⟨done, [], h, fun m hm => nomatch hm⟩
  | cons m ms =>
    have hlt : c.msgcurr < c.msgused := by
      rw [h.curr, h.used, List.length_cons]
      omega
    by_cases hlen : m.iovlen = 0
    · have hnext : c.nextMsg = { c with msgcurr := c.msgcurr + 1 } := by
        unfold Output.nextMsg
        rw [if_pos ⟨hlt, by rw [h.getElem_head, Option.map_some, hlen]⟩]
      obtain ⟨free, hlist⟩ := h.list
      obtain ⟨-, -, hchain⟩ := h.chain
      rw [hlen, Nat.add_zero] at hchain
      rw [hnext]
      refine ⟨done ++ [m], ms, ⟨h.built, h.iov, ⟨free, ?_⟩, ?_, ?_, hchain, ?_, h.fits, h.text⟩,
        h.tail⟩
      · rw [hlist, List.append_assoc, List.singleton_append, List.cons_append]
      · rw [List.length_append, List.length_singleton, ← h.curr]
      · have := h.used
        rw [List.length_cons] at this
        rw [List.length_append, List.length_singleton]
        dsimp only
        omega
      · intro m' hm'
        exact h.tail m' (List.mem_of_mem_tail hm')
    · have hskip : c.nextMsg = c := by
        unfold Output.nextMsg
        rw [if_neg]
        rintro ⟨-, hhead⟩
        rw [h.getElem_head, Option.map_some] at hhead
        exact hlen (Option.some.inj hhead)
      rw [hskip]
      refine ⟨done, m :: ms, h, ?_⟩
      intro m' hm'
      rcases List.mem_cons.1 hm' with rfl | hm'
      · exact Nat.pos_of_ne_zero hlen
      · exact h.tail m' hm'

theorem drop_succ_take (h : p < iov.length) :
    (iov.drop p).take (k + 1) = iov[p] :: (iov.drop (p + 1)).take k := by
  rw [List.drop_eq_getElem_cons h, List.take_succ_cons]

/-- The array after the cut of one entry. -/
def cutAt (iov : List Slice) (p res : Nat) : List Slice :=
  if res > 0 then iov.modify p fun v => v.cut res else iov

theorem length_cutAt {res : Nat} : (cutAt iov p res).length = iov.length := by
  unfold cutAt
  split
  · exact List.length_modify _ _ _
  · rfl

theorem drop_cutAt {res q : Nat} (h : 0 < res → p < q) : (cutAt iov p res).drop q = iov.drop q := by
  unfold cutAt
  split
  · rename_i hres
    exact List.drop_modify_of_lt _ _ _ _ (h hres)
  · rfl

/-- Entries are removed from the front of the slice of the array from `p` to `p + k`. -/
theorem consume_spec {buf : Bytes} (hb : p + k ≤ iov.length)
    (hfits : ∀ v ∈ (iov.drop p).take k, v.Fits buf)
    (hn : n ≤ (gather buf ((iov.drop p).take k)).length) :
    ∃ k' p' res, consume iov k p n = (k', p', res) ∧ p' + k' = p + k ∧ (0 < res → 0 < k') ∧
      ((cutAt iov p' res).drop p').take k' = advance n ((iov.drop p).take k) := by
  induction k generalizing p n with
  | zero =>
    obtain rfl : n = 0 := by simpa using hn
    exact ⟨0, p, 0, rfl, rfl, id, by simp [advance]⟩
  | succ k ih =>
    have hp : p < iov.length := by omega
    rw [drop_succ_take hp] at hfits hn ⊢
    have hlen := (hfits _ List.mem_cons_self).length_select
    rw [gather_cons, List.length_append, hlen] at hn
    rw [consume, List.getElem?_eq_getElem hp, advance]
    dsimp only
    split
    · obtain ⟨k', p', res, hcons, hend, hres, hadv⟩ :=
        ih (p := p + 1) (n := n - iov[p].len) (by omega)
          (fun v hv => hfits v (List.mem_cons_of_mem _ hv)) (by omega)
      exact ⟨k', p', res, hcons, by omega, hres, hadv⟩
    · refine ⟨k + 1, p, n, rfl, rfl, fun _ => Nat.succ_pos _, ?_⟩
      unfold cutAt
      split
      · have hp' : p < (iov.modify p fun v => v.cut n).length := by
          rw [List.length_modify]
          exact hp
        rw [drop_succ_take hp', List.getElem_modify_eq,
          List.drop_modify_of_lt _ _ _ _ (Nat.lt_succ_self p)]
      · obtain rfl : n = 0 := by omega
        rw [drop_succ_take hp]
        rfl

theorem entries_split (h : s + k ≤ c.iovused) :
    c.entries s = (c.iov.drop s).take k ++ c.entries (s + k) := by
  rw [Output.entries, Output.entries, ← List.drop_drop, List.drop_take]
  have hk : k ≤ c.iovused - s := by omega
  conv_lhs => rw [← List.take_append_drop k ((c.iov.drop s).take (c.iovused - s))]
  rw [List.take_take, Nat.min_eq_left hk]

/-- The vectors `sendmsg` is given are those at the front. -/
theorem Pending.vectors {m : Msghdr} (h : Pending c done (m :: msgs) s rest) :
    c.vectors m = some ((c.iov.drop s).take m.iovlen) := by
  obtain ⟨hblock, hs, hchain⟩ := h.chain
  have hle := hchain.le
  have hiov := h.iov
  unfold Output.vectors
  dsimp only
  rw [hs]
  refine if_pos ⟨hblock, by omega, fun v hv => ?_⟩
  refine (h.fits v ?_).2
  rw [entries_split hle]
  exact List.mem_append_left _ hv

/-- The bytes the socket has accepted are removed from the front. -/
theorem Pending.written {m : Msghdr} (h : Pending c done (m :: msgs) s rest)
    (hn : n ≤ (gather c.wbuf ((c.iov.drop s).take m.iovlen)).length) :
    ∃ m' s', Pending (c.written m n) done (m' :: msgs) s' (rest.drop n) := by
  obtain ⟨hblock, hs, hchain⟩ := h.chain
  have hle := hchain.le
  have hiov := h.iov
  have hsplit := entries_split hle
  have hfits := h.fits
  have htext := h.text
  rw [hsplit] at hfits htext
  have hfront : ∀ v ∈ (c.iov.drop s).take m.iovlen, v.Fits c.wbuf :=
    fun v hv => hfits v (List.mem_append_left _ hv)
  obtain ⟨k', p', res, hcons, hend, hres, hadv⟩ := consume_spec (by omega) hfront hn
  have hwritten : c.written m n =
      { c with
        msglist := c.msglist.set c.msgcurr ⟨m.block, p', k'⟩
        iov := cutAt c.iov p' res } := by
    unfold Output.written
    rw [hs, hcons]
    rfl
  have hbehind : (cutAt c.iov p' res).drop (p' + k') = c.iov.drop (s + m.iovlen) := by
    rw [drop_cutAt fun hpos => by have := hres hpos; omega, hend]
  have hentries : (c.written m n).entries p' =
      advance n ((c.iov.drop s).take m.iovlen) ++ c.entries (s + m.iovlen) := by
    rw [hwritten, entries_split (k := k') (by dsimp only; omega), Output.entries, Output.entries]
    dsimp only
    rw [hadv, List.drop_take, List.drop_take, hbehind, hend]
  refine ⟨⟨m.block, p', k'⟩, p', ?_, ?_, ?_, ?_, ?_, ?_, h.tail, ?_, ?_⟩
  · rw [hwritten]
    exact h.built
  · rw [hwritten]
    dsimp only
    rw [length_cutAt]
    exact h.iov
  · obtain ⟨free, hlist⟩ := h.list
    refine ⟨free, ?_⟩
    rw [hwritten]
    dsimp only
    rw [hlist, h.curr, List.set_append_right _ _ (Nat.le_refl _), Nat.sub_self]
    rfl
  · rw [hwritten]
    exact h.curr
  · rw [hwritten]
    exact h.used
  · rw [hwritten]
    refine ⟨hblock, rfl, ?_⟩
    dsimp only
    rw [hend]
    exact hchain
  · rw [hentries, show (c.written m n).wbuf = c.wbuf from rfl]
    intro v hv
    rcases List.mem_append.1 hv with hv | hv
    · exact fits_advance hfront v hv
    · exact hfits v (List.mem_append_right _ hv)
  · rw [hentries, show (c.written m n).wbuf = c.wbuf from rfl, gather_append, gather_advance hfront,
      ← htext, gather_append, List.drop_append_of_le_length hn]

/-- The result of a round, as far as no call fails. -/
inductive Sent (c : Output) (rest : Bytes) : Output → Bytes → Transmit → Prop
  | complete {c' : Output} (hrest : rest = []) (hs : Same c c') : Sent c rest c' [] .complete
  | softError {c' : Output} {done msgs : List Msghdr} {s : Nat}
    (h : Pending c' done msgs s rest) (hs : Same c c') : Sent c rest c' [] .softError
  | incomplete {c' : Output} {done msgs : List Msghdr} {s n : Nat}
    (hn : 0 < n ∧ n ≤ rest.length) (h : Pending c' done msgs s (rest.drop n)) (hs : Same c c') :
    Sent c rest c' (rest.take n) .incomplete

def Reliable : Option SendResult → Prop
  | some (.wouldBlock updated) => updated = true
  | some .failed => False
  | _ => True

instance : ∀ result, Decidable (Reliable result)
  | some (.wouldBlock updated) => inferInstanceAs (Decidable (updated = true))
  | some .failed => isFalse id
  | some (.sent _) => isTrue trivial
  | none => isTrue trivial

theorem Pending.rest_nil (h : Pending c done [] s rest) : rest = [] := by
  have hs : s = c.iovused := h.chain
  have := h.text
  rw [Output.entries, List.drop_eq_nil_of_le (by rw [List.length_take]; omega), gather_nil] at this
  exact this.symm

theorem Pending.transmit {result : Option SendResult} {r : Output × Bytes × Transmit}
    (h : Pending c done msgs s rest) (ho : Reliable result) (hr : c.transmit result = some r) :
    Sent c rest r.1 r.2.1 r.2.2 := by
  obtain ⟨done', msgs', h', hpos⟩ := h.nextMsg
  have hsame := same_nextMsg (c := c)
  unfold Output.transmit at hr
  dsimp only at hr
  cases msgs' with
  | nil =>
    have hall : ¬ c.nextMsg.msgcurr < c.nextMsg.msgused := by
      rw [h'.curr, h'.used]
      exact Nat.lt_irrefl _
    rw [if_neg hall] at hr
    split at hr
    · obtain rfl := Option.some.inj hr
      exact .complete h'.rest_nil hsame
    · cases hr
  | cons m msgs' =>
    have hlt : c.nextMsg.msgcurr < c.nextMsg.msgused := by
      rw [h'.curr, h'.used, List.length_cons]
      omega
    rw [if_pos hlt, h'.getElem_head, Option.bind_eq_bind, Option.bind_some, h'.vectors,
      Option.bind_eq_bind, Option.bind_some] at hr
    split at hr
    · cases hr
    · rename_i n
      split at hr
      · rename_i hn
        obtain rfl := Option.some.inj hr
        obtain ⟨m', s', hwritten⟩ := h'.written hn.2
        have hrest := h'.text
        rw [entries_split h'.chain.2.2.le, gather_append] at hrest
        have htake : (gather c.nextMsg.wbuf
            ((c.nextMsg.iov.drop s).take m.iovlen)).take n = rest.take n := by
          rw [← hrest, List.take_append_of_le_length hn.2]
        have hle : n ≤ rest.length := by
          rw [← hrest, List.length_append]
          omega
        dsimp only
        rw [htake]
        exact .incomplete ⟨hn.1, hle⟩ hwritten (hsame.trans ⟨rfl, rfl, rfl, rfl⟩)
      · cases hr
    · obtain rfl := Option.some.inj hr
      exact .softError h' hsame
    · cases ho
    · cases ho

/-- Either all is written or the socket can take one more byte. -/
theorem Pending.can_transmit (h : Pending c done msgs s rest) :
    (∃ r, c.transmit none = some r ∧ r.2.2 = .complete) ∨
      ∃ r, c.transmit (some (.sent 1)) = some r ∧ r.2.2 = .incomplete := by
  obtain ⟨done', msgs', h', hpos⟩ := h.nextMsg
  cases msgs' with
  | nil =>
    have hall : ¬ c.nextMsg.msgcurr < c.nextMsg.msgused := by
      rw [h'.curr, h'.used]
      exact Nat.lt_irrefl _
    refine .inl ⟨(c.nextMsg, [], .complete), ?_, rfl⟩
    unfold Output.transmit
    dsimp only
    rw [if_neg hall, if_pos rfl]
  | cons m msgs' =>
    have hlt : c.nextMsg.msgcurr < c.nextMsg.msgused := by
      rw [h'.curr, h'.used, List.length_cons]
      omega
    have hle := h'.chain.2.2.le
    have hsome : 1 ≤ (gather c.nextMsg.wbuf ((c.nextMsg.iov.drop s).take m.iovlen)).length := by
      obtain ⟨k, hk⟩ := Nat.exists_eq_succ_of_ne_zero (hpos m List.mem_cons_self).ne'
      have hs : s < c.nextMsg.iov.length := by
        have := h'.iov
        omega
      have hfits : c.nextMsg.iov[s].Fits c.nextMsg.wbuf := by
        refine h'.fits _ ?_
        rw [entries_split hle, hk, Nat.succ_eq_add_one, drop_succ_take hs]
        exact List.mem_append_left _ List.mem_cons_self
      rw [hk, Nat.succ_eq_add_one, drop_succ_take hs, gather_cons, List.length_append,
        hfits.length_select]
      have := hfits.1
      omega
    refine .inr ⟨(c.nextMsg.written m 1,
      (gather c.nextMsg.wbuf ((c.nextMsg.iov.drop s).take m.iovlen)).take 1, .incomplete), ?_, rfl⟩
    unfold Output.transmit
    dsimp only
    rw [if_pos hlt, h'.getElem_head, Option.bind_eq_bind, Option.bind_some, h'.vectors,
      Option.bind_eq_bind, Option.bind_some, if_pos ⟨Nat.one_pos, hsome⟩]

end Send

section Run

variable {spare : Slice} {spareMsg : Msghdr} {str : Bytes} {w t : Sending}

/-- No call fails. -/
def Accepts (_ : Sending) : WriteLabel → Prop
  | .wake => True
  | .round result => Reliable result

instance : ∀ w i, Decidable (Accepts w i)
  | _, .wake => isTrue trivial
  | _, .round result => inferInstanceAs (Decidable (Reliable result))

/-- Where the delivery of the answer `str` stands. -/
inductive Delivering (str : Bytes) (w : Sending) : Prop
  | ready (hs : w.conn.state = .write) (hgo : w.conn.writeAndGo = .newCmd)
    (hused : w.conn.iovused = 0) {last : Msghdr} (h : Built w.conn [] last [])
    (hcurr : w.conn.wcurr = 0) (hbytes : w.conn.wbytes = str.length + 1)
    (hbuf : str ++ [0] <+: w.conn.wbuf) (ha : w.accepted = [])
  | pending (hs : w.conn.state = .write) (hgo : w.conn.writeAndGo = .newCmd)
    {done msgs : List Msghdr} {s : Nat} {rest : Bytes} (h : Pending w.conn done msgs s rest)
    (ha : w.accepted ++ rest = str ++ [0])
  | delivered (hs : w.conn.state = .newCmd) (ha : w.accepted = str ++ [0])

theorem delivering_outString {c : Output} (hiov : 0 < c.iov.length) (hmsg : 0 < c.msglist.length)
    (hn : c.noreply = false) (hfit : str.length + 1 ≤ c.wbuf.length) :
    Delivering str ⟨c.outString spareMsg str, []⟩ := by
  have hout : c.outString spareMsg str = (c.nuke.addMsghdr spareMsg).assemble str := by
    unfold Output.outString
    rw [if_neg (by rw [hn]; simp), if_neg (by omega)]
  have hlist := msglist_addMsghdr (c := c.nuke) spareMsg
    (List.nil_append c.msglist).symm List.length_nil.symm hmsg
  have hbuilt : Built ((c.nuke.addMsghdr spareMsg).assemble str) [] ⟨c.block, 0, 0⟩ [] := by
    refine ⟨rfl, rfl, hlist, hiov, Nat.zero_le _, ⟨rfl, rfl, rfl⟩, ?_, .inl rfl, ?_, rfl⟩
    · intro m hm
      cases hm
    · intro v hv
      cases hv
  rw [hout]
  refine .ready rfl rfl rfl hbuilt rfl rfl ⟨c.wbuf.drop (str.length + 1), ?_⟩ rfl
  rw [List.append_assoc]
  rfl

/-- The messages are there before `transmit` is called. -/
theorem Delivering.build (spare : Slice) (spareMsg : Msghdr) (h : Delivering str w)
    (hs : w.conn.state = .write) :
    ∃ c done msgs s rest, w.conn.build spare spareMsg = some c ∧ Pending c done msgs s rest ∧
      w.accepted ++ rest = str ++ [0] ∧ Same w.conn c ∧ w.conn.writeAndGo = .newCmd := by
  cases h with
  | ready _ hgo hused h hcurr hbytes hbuf ha =>
    have hle := hbuf.length_le
    rw [List.length_append, List.length_singleton] at hle
    obtain ⟨c, front, last, hloop, hbuilt, hlast, hsame⟩ :=
      h.addIovLoop spare spareMsg (Nat.lt_succ_self (str.length + 1)) (Nat.succ_pos _)
        (show 0 + (str.length + 1) ≤ w.conn.wbuf.length by omega)
    refine ⟨c, _, _, 0, _, ?_, hbuilt.pending hlast, ?_, hsame, hgo⟩
    · unfold Output.build
      rw [if_pos hused, hcurr, hbytes]
      exact hloop
    · obtain ⟨tail, htail⟩ := hbuf
      rw [ha, List.nil_append, List.nil_append, Slice.select, List.drop_zero, ← htail]
      exact List.take_left' (by simp)
  | pending _ hgo h ha =>
    refine ⟨w.conn, _, _, _, _, if_neg h.built.ne', h, ha, Same.refl _, hgo⟩
  | delivered hs' _ =>
    rw [hs] at hs'
    cases hs'

theorem Built.of_running {c : Output} {front : List Msghdr} {last : Msghdr} {text : Bytes}
    (h : Built c front last text) (b : Bool) : Built { c with running := b } front last text :=
  ⟨h.curr, h.used, h.msgs, h.size, h.iov, h.chain, h.front, h.last, h.fits, h.text⟩

theorem Pending.of_running {c : Output} {done msgs : List Msghdr} {s : Nat} {rest : Bytes}
    (h : Pending c done msgs s rest) (b : Bool) :
    Pending { c with running := b } done msgs s rest :=
  ⟨h.built, h.iov, h.list, h.curr, h.used, h.chain, h.tail, h.fits, h.text⟩

theorem Delivering.wake (h : Delivering str w) :
    Delivering str { w with conn := { w.conn with running := true } } := by
  cases h with
  | ready hs hgo hused h hcurr hbytes hbuf ha =>
    exact .ready hs hgo hused (h.of_running true) hcurr hbytes hbuf ha
  | pending hs hgo h ha => exact .pending hs hgo (h.of_running true) ha
  | delivered hs ha => exact .delivered hs ha

/-- What a round of `conn_write` makes of the delivery. -/
theorem Delivering.sent {c : Output} {rest : Bytes} {r : Output × Bytes × Transmit}
    (hs : c.state = .write) (hgo : c.writeAndGo = .newCmd) (ha : w.accepted ++ rest = str ++ [0])
    (h : Sent c rest r.1 r.2.1 r.2.2) :
    Delivering str ⟨r.1.transmitted r.2.2, w.accepted ++ r.2.1⟩ := by
  obtain ⟨c', bytes, got⟩ := r
  cases h with
  | complete hrest hsame =>
    refine .delivered (hsame.writeAndGo.trans hgo) ?_
    rw [← ha, hrest]
  | softError h hsame =>
    refine .pending (hsame.state.trans hs) (hsame.writeAndGo.trans hgo) (h.of_running false) ?_
    rw [List.append_nil, ha]
  | incomplete hn h hsame =>
    refine .pending (hsame.state.trans hs) (hsame.writeAndGo.trans hgo) h ?_
    rw [List.append_assoc, List.take_append_drop, ha]

theorem delivering_step {i : WriteLabel} (h : Delivering str w) (ho : Accepts w i)
    (hr : writeStep spare spareMsg w i = some t) : Delivering str t := by
  cases i with
  | wake =>
    rw [writeStep] at hr
    split at hr
    · cases hr
    · obtain rfl := Option.some.inj hr
      exact h.wake
  | round result =>
    rw [writeStep] at hr
    split at hr
    · rename_i hw
      obtain ⟨c, done, msgs, s, rest, hbuild, hpending, ha, hsame, hgo⟩ :=
        h.build spare spareMsg hw.2
      rw [hbuild, Option.bind_eq_bind, Option.bind_some] at hr
      obtain ⟨r, htransmit, hr⟩ := Option.bind_eq_some_iff.1 hr
      obtain rfl := Option.some.inj hr
      exact .sent (hsame.state.trans hw.2) (hsame.writeAndGo.trans hgo) ha
        (hpending.transmit ho htransmit)
    · cases hr

theorem delivering_throughout {is : List WriteLabel} (h : Delivering str w)
    (ho : Throughout (writeStep spare spareMsg) Accepts w is)
    (hr : run (writeStep spare spareMsg) w is = some t) : Delivering str t :=
  invariant_run (fun _ _ _ h ho hs => delivering_step h ho hs) h ho hr

/-- The socket can take the rest. -/
def Completes (spare : Slice) (spareMsg : Msghdr) (str : Bytes) (w : Sending) : Prop :=
  ∃ js u, Throughout (writeStep spare spareMsg) Accepts w js ∧
    run (writeStep spare spareMsg) w js = some u ∧ u.conn.state = .newCmd ∧
    u.accepted = str ++ [0]

theorem completes_of_step {i : WriteLabel} (ho : Accepts w i)
    (hs : writeStep spare spareMsg w i = some t) (h : Completes spare spareMsg str t) :
    Completes spare spareMsg str w := by
  obtain ⟨js, u, haccepts, hrun, hstate, haccepted⟩ := h
  refine ⟨i :: js, u, ⟨ho, ?_⟩, ?_, hstate, haccepted⟩
  · intro t' ht'
    obtain rfl := Option.some.inj (hs.symm.trans ht')
    exact haccepts
  · rw [run, hs]
    exact hrun

theorem completes_of_delivered (hs : w.conn.state = .newCmd) (ha : w.accepted = str ++ [0]) :
    Completes spare spareMsg str w :=
  ⟨[], w, trivial, rfl, hs, ha⟩

/-- The induction is on the bytes not accepted yet. -/
theorem Delivering.completes_running {n : Nat} (h : Delivering str w)
    (hw : w.conn.running = true) (hn : str.length + 1 - w.accepted.length = n) :
    Completes spare spareMsg str w := by
  induction n using Nat.strongRecOn generalizing w with
  | ind n ih =>
    by_cases hstate : w.conn.state = .write
    · obtain ⟨c, done, msgs, s, rest, hbuild, hpending, ha, hsame, hgo⟩ :=
        h.build spare spareMsg hstate
      have hround {result : Option SendResult} {r : Output × Bytes × Transmit}
          (hr : c.transmit result = some r) : writeStep spare spareMsg w (.round result) =
            some ⟨r.1.transmitted r.2.2, w.accepted ++ r.2.1⟩ := by
        rw [writeStep, if_pos ⟨hw, hstate⟩, hbuild, Option.bind_eq_bind, Option.bind_some, hr]
        rfl
      rcases hpending.can_transmit with ⟨⟨c', bytes, got⟩, hr, hgot⟩ | ⟨⟨c', bytes, got⟩, hr, hgot⟩
      · obtain rfl : got = .complete := hgot
        have ho : Reliable none := trivial
        refine completes_of_step (i := .round none) ho (hround hr) ?_
        cases hpending.transmit ho hr with
        | complete hrest hsame' =>
          refine completes_of_delivered (hsame'.writeAndGo.trans (hsame.writeAndGo.trans hgo)) ?_
          rw [← ha, hrest]
      · obtain rfl : got = .incomplete := hgot
        have ho : Reliable (some (.sent 1)) := trivial
        refine completes_of_step (i := .round (some (.sent 1))) ho (hround hr) ?_
        have hnext := delivering_step (i := .round (some (.sent 1))) h ho (hround hr)
        have hlen := congrArg List.length ha
        simp only [List.length_append, List.length_singleton] at hlen
        cases hpending.transmit ho hr with
        | incomplete hk h' hsame' =>
          rename_i k
          have hshort : (w.accepted ++ rest.take k).length = w.accepted.length + k := by
            rw [List.length_append, List.length_take]
            omega
          refine ih (str.length + 1 - (w.accepted ++ rest.take k).length) (by omega) hnext ?_ rfl
          exact hsame'.running.trans (hsame.running.trans hw)
    · cases h with
      | ready hs => exact absurd hs hstate
      | pending hs => exact absurd hs hstate
      | delivered hs ha => exact completes_of_delivered hs ha

theorem Delivering.completes (h : Delivering str w) : Completes spare spareMsg str w := by
  by_cases hw : w.conn.running = true
  · exact h.completes_running hw rfl
  · have ho : Accepts w .wake := trivial
    have hstep : writeStep spare spareMsg w .wake =
        some { w with conn := { w.conn with running := true } } := if_neg hw
    exact completes_of_step ho hstep ((delivering_step h ho hstep).completes_running rfl rfl)

theorem Delivering.accepted_prefix (h : Delivering str w) : w.accepted <+: str ++ [0] := by
  cases h with
  | ready _ _ _ _ _ _ _ ha =>
    rw [ha]
    exact List.nil_prefix
  | pending _ _ _ ha => exact ⟨_, ha⟩
  | delivered _ ha => exact ⟨[], by rw [ha, List.append_nil]⟩

theorem Delivering.accepted_eq (h : Delivering str w) (hs : w.conn.state ≠ .write) :
    w.accepted = str ++ [0] := by
  cases h with
  | ready hs' => exact absurd hs' hs
  | pending hs' => exact absurd hs' hs
  | delivered _ ha => exact ha

theorem delivered_once {c : Output} {is : List WriteLabel} (hiov : 0 < c.iov.length)
    (hmsg : 0 < c.msglist.length) (hn : c.noreply = false)
    (hfit : str.length + 1 ≤ c.wbuf.length)
    (ho : Throughout (writeStep spare spareMsg) Accepts ⟨c.outString spareMsg str, []⟩ is)
    (hr : run (writeStep spare spareMsg) ⟨c.outString spareMsg str, []⟩ is = some t) :
    t.accepted <+: str ++ [0] ∧ (t.conn.state ≠ .write → t.accepted = str ++ [0]) ∧
      ∃ js u, Throughout (writeStep spare spareMsg) Accepts t js ∧
        run (writeStep spare spareMsg) t js = some u ∧ u.conn.state = .newCmd ∧
        u.accepted = str ++ [0] := by
  have h := delivering_throughout (delivering_outString hiov hmsg hn hfit) ho hr
  exact ⟨h.accepted_prefix, h.accepted_eq, h.completes⟩

/-- An answer for two headers and two vectors, with room for one of each. -/
def longAnswer : Bytes := List.replicate 1500 97

/-- A part of the first header, a socket that is full, the rest of it, and the second. -/
theorem delivered_once_long :
    let c : Output := ⟨List.replicate 1600 1, 0, 0, 7, [⟨9, 9⟩], 5, [⟨0, 3, 3⟩], 5, 5, 5, false,
      .parseCmd, .closing, true⟩
    let is : List WriteLabel := [.round (some (.sent 1000)), .round (some (.wouldBlock true)),
      .wake, .round (some (.sent 400)), .round (some (.sent 101)), .round none]
    ∃ t, run (writeStep ⟨0, 0⟩ ⟨0, 0, 0⟩) ⟨c.outString ⟨0, 0, 0⟩ longAnswer, []⟩ is = some t ∧
      t.conn.iov.length = 2 ∧ t.conn.msgused = 2 ∧ t.accepted = longAnswer ++ [0] := by
  intro c is
  have hrun : (run (writeStep ⟨0, 0⟩ ⟨0, 0, 0⟩) ⟨c.outString ⟨0, 0, 0⟩ longAnswer, []⟩ is).map
      (fun t => (t.conn.state, t.conn.iov.length, t.conn.msgused)) = some (.newCmd, 2, 2) := by
    decide +kernel
  obtain ⟨t, ht, hend⟩ := Option.map_eq_some_iff.1 hrun
  obtain ⟨hstate, hiov, hmsg⟩ : t.conn.state = .newCmd ∧ t.conn.iov.length = 2 ∧
      t.conn.msgused = 2 := by simpa using hend
  have hopen : Throughout (writeStep ⟨0, 0⟩ ⟨0, 0, 0⟩) Accepts
      ⟨c.outString ⟨0, 0, 0⟩ longAnswer, []⟩ is := by decide +kernel
  have hfit : longAnswer.length + 1 ≤ c.wbuf.length := by decide +kernel
  refine ⟨t, ht, hiov, hmsg, (delivered_once (by decide) (by decide) rfl hfit hopen ht).2.1 ?_⟩
  rw [hstate]
  decide

end Run

end Doorhinges.Wire

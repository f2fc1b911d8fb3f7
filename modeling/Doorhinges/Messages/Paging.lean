import Doorhinges.Lib.Decimal
import Doorhinges.Lib.Pages
import Doorhinges.Lib.Runs
import Doorhinges.Messages.Queries

/-!
# Pages of offline messages

A page of `getMsg` or `getGrpMsg` asks for the ids from its cursor down, and its new cursor
is the next id below, so the pages of a client that follows the cursor ask for every id
down to 1 once.
-/
namespace Doorhinges.Messages.Queries

open Lib.CString
open Lib.Pages
open Lib.Pieces
open Lib.Program
open Lib.Runs

/-- Redis answers every command, with one value for each key. -/
def Succeeds (o : List Cmd → Reply) : Prop :=
  (∀ h keys, ∃ val, o (.mget keys :: h) = some val ∧ val.length = keys.length) ∧
    ∀ h key fields, ∃ val, o (.hmget key fields :: h) = some val ∧ val.length = fields.length

/-- The texts of the ids `n`, `n - 1`, … of a page of `count`. -/
def idsDown (n count : Nat) : List Bytes := (List.range count).map fun i => decimalNat (n - i)

theorem toNat_sub_ofNat {m : UInt32} {j : Nat} (h : j ≤ m.toNat) :
    (m - .ofNat j).toNat = m.toNat - j := by
  have hj : (UInt32.ofNat j).toNat = j := UInt32.toNat_ofNat_of_lt (h.trans_lt m.toNat_lt)
  rw [UInt32.toNat_sub_of_le _ _ (by rw [UInt32.le_iff_toNat_le, hj]; exact h), hj]

/-- From round `j` on the loop adds the ids that are left of the page, at most down to 1. -/
theorem pageFields_from {m c : UInt32} {left j : Nat} (hleft : j + left = c.toNat)
    (hj : j < m.toNat) (mstr : Bytes) :
    pageFields m c left (.ofNat j) mstr =
      (mstr ++ joined 0 ((List.range' j (min c.toNat m.toNat - j)).map fun i =>
        decimalNat (m.toNat - i)), .ofNat (min c.toNat m.toNat)) := by
  induction left generalizing j mstr with
  | zero =>
    have hmin : min c.toNat m.toNat = c.toNat := by omega
    have hzero : c.toNat - j = 0 := by omega
    simp [pageFields, hmin, hzero, joined]
  | succ left ih =>
    have hmid := toNat_sub_ofNat hj.le
    have hone : m - .ofNat j = 1 ↔ j + 1 = m.toNat := by
      rw [← UInt32.toNat_inj, hmid]
      show m.toNat - j = 1 ↔ _
      omega
    have hsucc : UInt32.ofNat j + 1 = .ofNat (j + 1) := by simp [UInt32.ofNat_add]
    by_cases hlast : j + 1 = m.toNat
    · have hmin : min c.toNat m.toNat = j + 1 := by omega
      have hcount : min c.toNat m.toNat - j = 1 := by omega
      show (if m - .ofNat j = 1 then _ else _) = _
      rw [if_pos (hone.mpr hlast), hcount, hsucc, hmin, field, hmid, List.range'_one,
        List.map_singleton, joined_cons]
      rfl
    · have hcount : min c.toNat m.toNat - j = (min c.toNat m.toNat - (j + 1)) + 1 := by omega
      show (if m - .ofNat j = 1 then _ else _) = _
      rw [if_neg (hone.not.mpr hlast), hsucc, ih (by omega) (by omega), hcount, List.range'_succ,
        List.map_cons, joined_cons, field, hmid, List.append_assoc, List.append_assoc]
      rfl

theorem pageFields_eq {m : UInt32} (hm : m ≠ 0) (c : UInt32) :
    pageFields m c c.toNat 0 [] = (joined 0 (idsDown m.toNat (min c.toNat m.toNat)),
      .ofNat (min c.toNat m.toNat)) := by
  have hpos : 0 < m.toNat := Nat.pos_of_ne_zero fun h => hm (UInt32.toNat_inj.mp h)
  have h := pageFields_from (m := m) (c := c) (j := 0) (Nat.zero_add _) hpos []
  rw [Nat.sub_zero, ← List.range_eq_range', List.nil_append] at h
  exact h

/-- The pointers lead to the texts that were joined. -/
theorem keyArray_joined (size : Nat) (ts : List Bytes) (hsize : ts.length ≤ size)
    (hnul : ∀ t ∈ ts, 0 ∉ t) : keyArray size ts.length (joined 0 ts) = pure ts := by
  rw [keyArray, if_neg (Nat.not_lt.mpr hsize)]
  have h := texts_joined [] hnul
  rw [List.nil_append] at h
  exact congrArg pure h

theorem valArray_eq {n : Nat} {val : List (Option Bytes)} (h : val.length = n) :
    valArray n val = pure val := by
  rw [valArray, if_neg (Nat.not_lt.mpr h.ge), List.take_of_length_le h.le]

theorem length_idsDown (n count : Nat) : (idsDown n count).length = count := by
  simp [idsDown]

theorem idsDown_nul (n count : Nat) : ∀ t ∈ idsDown n count, 0 ∉ t := by
  intro t ht
  obtain ⟨i, -, rfl⟩ := List.mem_map.mp ht
  exact decimalNat_nul _

variable {M : Type} (parse : Bytes → Option M) {o : List Cmd → Reply} {h : List Cmd}

/-- A page that Redis answers asks for the ids down from its cursor. -/
theorem finish_getMsgs (ho : Succeeds o) (key : Bytes) {m c : UInt32} (hm : m ≠ 0)
    (hc : c.toNat ≤ MAX_MSG_NUM) : ∃ messages : List M,
    trace o h (getMsgs parse key m c) = [.inl (.hmget key (idsDown m.toNat (min c.toNat m.toNat)))] ∧
    finish o h (getMsgs parse key m c) =
      some ((0, ⟨messages, some (m - .ofNat (min c.toNat m.toNat))⟩),
        .hmget key (idsDown m.toNat (min c.toNat m.toNat)) :: h) := by
  set n := min c.toNat m.toNat with hn
  have hlt : n < 2 ^ 32 := by
    have := m.toNat_lt
    omega
  have hcount : (UInt32.ofNat n).toNat = n := UInt32.toNat_ofNat_of_lt hlt
  have hkeys : keyArray MAX_MSG_NUM n (joined 0 (idsDown m.toNat n)) = pure (idsDown m.toNat n) := by
    have h := keyArray_joined MAX_MSG_NUM (idsDown m.toNat n)
      (by rw [length_idsDown]; omega) (idsDown_nul _ _)
    rwa [length_idsDown] at h
  obtain ⟨val, hval, hlen⟩ := ho.2 h key (idsDown m.toNat n)
  rw [length_idsDown] at hlen
  have hcursor : (if 0 < m - UInt32.ofNat n then m - UInt32.ofNat n else 0) = m - .ofNat n := by
    split
    · rfl
    · rename_i hzero
      exact (UInt32.le_zero_iff.mp (UInt32.not_lt.mp hzero)).symm
  obtain ⟨k, hprog, hk⟩ : ∃ k, getMsgs parse key m c = .call (.hmget key (idsDown m.toNat n)) k ∧
      ∀ val, k (some val) = valArray n val >>= fun val =>
        .ret (0, ⟨val.filterMap fun text => text.bind parse, some (m - .ofNat n)⟩) := by
    unfold getMsgs
    rw [pageFields_eq hm]
    simp only [← hn, hcount, hkeys, hcursor]
    exact ⟨_, rfl, fun _ => rfl⟩
  refine ⟨val.filterMap fun text => text.bind parse, ?_, ?_⟩
  · rw [hprog, trace, hval, hk, valArray_eq hlen]
    rfl
  · rw [hprog, finish, hval, hk, valArray_eq hlen]
    rfl

variable {parse}

/-- The counters are read with one command. -/
theorem finish_getIDs (ho : Succeeds o) (rkey mkey : Bytes) : ∃ readid msgid,
    trace o h (getIDs rkey mkey) = [.inl (.mget [rkey, mkey])] ∧
    finish o h (getIDs rkey mkey) = some ((0, readid, msgid), .mget [rkey, mkey] :: h) := by
  obtain ⟨val, hval, hlen⟩ := ho.1 h [rkey, mkey]
  obtain ⟨k, hprog, hk⟩ : ∃ k, getIDs rkey mkey = .call (.mget [rkey, mkey]) k ∧
      ∀ val, k (some val) = valArray 2 val >>= fun val =>
        .ret (0, idOf (val.getD 0 none), idOf (val.getD 1 none)) :=
    ⟨_, rfl, fun _ => rfl⟩
  have hread := valArray_eq (n := 2) hlen
  refine ⟨idOf (val.getD 0 none), idOf (val.getD 1 none), ?_, ?_⟩
  · rw [hprog, trace, hval, hk, hread]
    rfl
  · rw [hprog, finish, hval, hk, hread]
    rfl

/-- The session of the request is the one of its connection. -/
structure Verified (header : Header) : Prop where
  fdFound : header.fdFound = true
  uin : header.fdUin = header.uin
  sessionFound : header.sessionFound = true

theorem verified_eq {R : Type} {header : Header} (hv : Verified header) (body : Act (Ack R)) :
    verified header body = body := by
  simp [verified, hv.fdFound, hv.uin, hv.sessionFound]

/-- The messages a command asks for. -/
def asked : List (Cmd ⊕ Empty) → List (Bytes × Bytes) :=
  List.flatMap fun c =>
    match c with
    | .inl (.hmget key fields) => fields.map fun f => (key, f)
    | _ => []

/-- A page as its client sees it. -/
structure Seen where
  asked : List (Bytes × Bytes)
  cursor : UInt32

/-- The client's next page; its state is the cursor and what has been sent to Redis. -/
def seePage {R : Type} (o : List Cmd → Reply) (request : Nat → UInt32 → Act (Ack R))
    (cursor : R → Option UInt32) (k : Nat) (s : UInt32 × List Cmd) :
    Option (Seen × Option (UInt32 × List Cmd)) :=
  (finish o s.2 (request k s.1)).bind fun e =>
    (e.1.packet.bind cursor).map fun c =>
      (⟨asked (trace o s.2 (request k s.1)), c⟩, if c = 0 then none else some (c, e.2))

/-- Following the cursor from `m` asks for `m`, …, 1 in this order, at most a page at a time,
and the cursor is 0 on the page of id 1 only. -/
def Enumerates {R : Type} (o : List Cmd → Reply) (request : Nat → UInt32 → Act (Ack R))
    (cursor : R → Option UInt32) (key : Bytes) (m : UInt32) : Prop :=
  ∃ ps, follow (seePage o request cursor) (m.toNat + 1) 0 (m, []) = some ps ∧
    ps.flatMap (·.asked) = (idsDown m.toNat m.toNat).map (fun f => (key, f)) ∧
    ∀ p ∈ ps, p.asked.length ≤ MAX_MSG_NUM ∧ (p.cursor = 0 ↔ (key, decimalNat 1) ∈ p.asked)

theorem decimalNat_inj {m n : Nat} (h : decimalNat m = decimalNat n) : m = n := by
  rw [← leadingNat_decimalNat m, h, leadingNat_decimalNat]

theorem idsDown_split {n k : Nat} (h : k ≤ n) :
    idsDown n n = idsDown n k ++ idsDown (n - k) (n - k) := by
  obtain ⟨d, rfl⟩ := Nat.exists_eq_add_of_le h
  rw [idsDown, List.range_add, List.map_append, List.map_map, Nat.add_sub_cancel_left]
  congr 1
  refine List.map_congr_left fun i _ => ?_
  show decimalNat (k + d - (k + i)) = decimalNat (d - i)
  rw [Nat.add_sub_add_left]

theorem one_mem_idsDown {n k : Nat} (hk : k ≤ n) :
    decimalNat 1 ∈ idsDown n k ↔ k = n ∧ 0 < n := by
  constructor
  · intro h
    obtain ⟨i, hi, heq⟩ := List.mem_map.mp h
    have hone := decimalNat_inj heq
    have hlt := List.mem_range.mp hi
    omega
  · rintro ⟨rfl, hpos⟩
    refine List.mem_map.mpr ⟨k - 1, List.mem_range.mpr (by omega), ?_⟩
    rw [Nat.sub_sub_self hpos]

/-- A request whose every page asks for the ids down from its cursor enumerates. -/
theorem enumerates_of_pages {R : Type} {request : Nat → UInt32 → Act (Ack R)}
    {cursor : R → Option UInt32} {key : Bytes} (counts : Nat → Nat)
    (hcounts : ∀ k, 0 < counts k ∧ counts k ≤ MAX_MSG_NUM)
    (hpage : ∀ k h m, m ≠ 0 → ∃ ack h', finish o h (request k m) = some (ack, h') ∧
      ack.packet.bind cursor = some (m - .ofNat (min (counts k) m.toNat)) ∧
      asked (trace o h (request k m)) =
        (idsDown m.toNat (min (counts k) m.toNat)).map fun f => (key, f))
    {m : UInt32} (hm : m ≠ 0) : Enumerates o request cursor key m := by
  have hsee : ∀ k (s : UInt32 × List Cmd), s.1 ≠ 0 → ∃ p next,
      seePage o request cursor k s = some (p, next) ∧
      (p.asked.length ≤ MAX_MSG_NUM ∧ (p.cursor = 0 ↔ (key, decimalNat 1) ∈ p.asked)) ∧
      (idsDown s.1.toNat s.1.toNat).map (fun f => (key, f)) = p.asked ++
        next.elim [] (fun s => (idsDown s.1.toNat s.1.toNat).map fun f => (key, f)) ∧
      ∀ s', next = some s' → s'.1 ≠ 0 ∧ s'.1.toNat < s.1.toNat := by
    intro k s hs
    obtain ⟨ack, h', hfinish, hcursor, hasked⟩ := hpage k s.2 s.1 hs
    obtain ⟨hpos, hmax⟩ := hcounts k
    have hm : 0 < s.1.toNat := Nat.pos_of_ne_zero fun h => hs (UInt32.toNat_inj.mp h)
    set n := min (counts k) s.1.toNat with hn
    have hle : n ≤ s.1.toNat := Nat.min_le_right _ _
    have hrest : (s.1 - UInt32.ofNat n).toNat = s.1.toNat - n := toNat_sub_ofNat hle
    have hzero : s.1 - UInt32.ofNat n = 0 ↔ n = s.1.toNat := by
      rw [← UInt32.toNat_inj, hrest]
      show s.1.toNat - n = 0 ↔ _
      omega
    refine ⟨⟨asked (trace o s.2 (request k s.1)), s.1 - UInt32.ofNat n⟩,
      if s.1 - UInt32.ofNat n = 0 then none else some (s.1 - UInt32.ofNat n, h'), ?_, ⟨?_, ?_⟩, ?_, ?_⟩
    · rw [seePage, hfinish, Option.bind_some, hcursor]
      rfl
    · rw [hasked, List.length_map, length_idsDown]
      exact (Nat.min_le_left _ _).trans hmax
    · rw [hzero, hasked]
      have hmem : (key, decimalNat 1) ∈ (idsDown s.1.toNat n).map (fun f => (key, f)) ↔
          decimalNat 1 ∈ idsDown s.1.toNat n := by simp
      rw [hmem, one_mem_idsDown hle, and_iff_left hm]
    · rw [hasked, idsDown_split hle, List.map_append]
      split
      · rename_i hlast
        rw [hzero.mp hlast, Nat.sub_self]
        rfl
      · rw [Option.elim_some, hrest]
    · intro s' hs'
      split at hs'
      · cases hs'
      · rename_i hmore
        obtain rfl := Option.some.inj hs'
        refine ⟨hmore, ?_⟩
        rw [hrest]
        omega
  exact follow_covers hsee 0 (m, []) hm

theorem toNat_atMostPage (c : UInt32) : (atMostPage c).toNat = min c.toNat MAX_MSG_NUM := by
  have hten : (10 : UInt32).toNat = MAX_MSG_NUM := rfl
  rw [atMostPage]
  split
  · rename_i hlt
    have hlt' := UInt32.lt_iff_toNat_lt.mp hlt
    omega
  · rename_i hle
    have hle' := UInt32.le_iff_toNat_le.mp (UInt32.not_lt.mp hle)
    omega

theorem atMostPage_pos {c : UInt32} (hc : c ≠ 0) :
    0 < (atMostPage c).toNat ∧ (atMostPage c).toNat ≤ MAX_MSG_NUM := by
  have hpos : 0 < c.toNat := Nat.pos_of_ne_zero fun h => hc (UInt32.toNat_inj.mp h)
  have hmax : 0 < MAX_MSG_NUM := by decide
  rw [toNat_atMostPage]
  omega

variable {header : Header} {counts : Nat → UInt32} {m : UInt32}

theorem offline_enumerates (ho : Succeeds o) (hv : Verified header) (hcounts : ∀ k, counts k ≠ 0)
    (hm : m ≠ 0) : Enumerates o (fun k m => processOfflineMsg parse header (some ⟨m, counts k⟩))
      (fun rsp => rsp.page.msgid) (decimalNat header.uin ++ ascii ".msg") m := by
  refine enumerates_of_pages (fun k => (atMostPage (counts k)).toNat)
    (fun k => atMostPage_pos (hcounts k)) (fun k h m hm => ?_) hm
  set rkey := decimalNat header.uin ++ ascii ".readid"
  set mkey := decimalNat header.uin ++ ascii ".msgid"
  obtain ⟨readid, msgid, htrace, hids⟩ := finish_getIDs (h := h) ho rkey mkey
  obtain ⟨messages, htrace', hpage⟩ := finish_getMsgs (h := .mget [rkey, mkey] :: h) parse
    ho (decimalNat header.uin ++ ascii ".msg") hm (atMostPage_pos (hcounts k)).2
  have hprog : processOfflineMsg parse header (some ⟨m, counts k⟩) = getIDs rkey mkey >>= fun ids =>
      if ids.1 = 0 then getMsg parse header.uin m (atMostPage (counts k)) >>= fun e =>
        pure ⟨⟨0, ""⟩, some ⟨e.2, some ids.2.1⟩⟩
      else pure ⟨⟨0, ""⟩, some ⟨⟨[], none⟩, none⟩⟩ := by
    simp only [processOfflineMsg, verified_eq hv, hm, if_false]
    rfl
  rw [hprog, finish_bind_of hids, trace_bind_of hids, htrace]
  refine ⟨_, _, finish_bind_of hpage, rfl, ?_⟩
  show asked (_ ++ trace o _ (getMsgs parse _ m _ >>= _)) = _
  rw [trace_bind_of hpage, htrace']
  simp [asked]

theorem group_enumerates (ho : Succeeds o) (hv : Verified header) (grpid : Nat)
    (hcounts : ∀ k, counts k ≠ 0) (hm : m ≠ 0) :
    Enumerates o (fun k m => processGetGrpMsg parse header (some (grpid, ⟨m, counts k⟩)))
      (fun rsp => rsp.msgid) (decimalNat grpid ++ ascii ".grpmsg") m := by
  refine enumerates_of_pages (fun k => (atMostPage (counts k)).toNat)
    (fun k => atMostPage_pos (hcounts k)) (fun k h m hm => ?_) hm
  obtain ⟨messages, htrace, hpage⟩ := finish_getMsgs (h := h) parse
    ho (decimalNat grpid ++ ascii ".grpmsg") hm (atMostPage_pos (hcounts k)).2
  have hprog : processGetGrpMsg parse header (some (grpid, ⟨m, counts k⟩)) =
      getGrpMsg parse grpid m (atMostPage (counts k)) >>= fun e =>
        pure ⟨⟨0, ""⟩, some e.2⟩ := by
    simp only [processGetGrpMsg, verified_eq hv, hm, if_false]
  rw [hprog]
  refine ⟨_, _, finish_bind_of hpage, rfl, ?_⟩
  show asked (trace o _ (getMsgs parse _ m _ >>= _)) = _
  rw [trace_bind_of hpage, htrace]
  simp [asked]

/-- Whatever page sizes a client asks for, the pages of its offline messages and those of a
group's messages ask for every id from the first down to 1 once and in order. -/
theorem pages_enumerate {N : Type} {parse' : Bytes → Option N} (ho : Succeeds o)
    (hv : Verified header) (grpid : Nat) (hcounts : ∀ k, counts k ≠ 0) (hm : m ≠ 0) :
    Enumerates o (fun k m => processOfflineMsg parse header (some ⟨m, counts k⟩))
      (fun rsp => rsp.page.msgid) (decimalNat header.uin ++ ascii ".msg") m ∧
    Enumerates o (fun k m => processGetGrpMsg parse' header (some (grpid, ⟨m, counts k⟩)))
      (fun rsp => rsp.msgid) (decimalNat grpid ++ ascii ".grpmsg") m :=
  ⟨offline_enumerates ho hv hcounts hm, group_enumerates ho hv grpid hcounts hm⟩

/-- Redis without a message. -/
def emptyRedis : List Cmd → Reply
  | .mget keys :: _ => some (keys.map fun _ => none)
  | .hmget _ fields :: _ => some (fields.map fun _ => none)
  | [] => none

theorem emptyRedis_succeeds : Succeeds emptyRedis :=
  ⟨fun _ keys => ⟨keys.map fun _ => none, rfl, List.length_map _⟩,
    fun _ _ fields => ⟨fields.map fun _ => none, rfl, List.length_map _⟩⟩

theorem pages_enumerate_twelve :
    Enumerates emptyRedis (fun _ m => processOfflineMsg some ⟨3, true, 3, true⟩ (some ⟨m, 5⟩))
      (fun rsp => rsp.page.msgid) (decimalNat 3 ++ ascii ".msg") 12 ∧
    Enumerates emptyRedis (fun _ m => processGetGrpMsg some ⟨3, true, 3, true⟩ (some (8, ⟨m, 5⟩)))
      (fun rsp => rsp.msgid) (decimalNat 8 ++ ascii ".grpmsg") 12 :=
  pages_enumerate emptyRedis_succeeds ⟨rfl, rfl, rfl⟩ 8 (fun _ => by decide) (by decide)

end Doorhinges.Messages.Queries

import Doorhinges.Messages.Paging

/-!
# Pages of notices

A client starts with notice id 0 and follows the ids up to the notice counter. The count
of the last page is a difference of two ids: it is small for the ids a client was given,
and for an id far above the counter it can come out as any number.
-/
namespace Doorhinges.Messages.Queries

open Lib.CString
open Lib.Pages
open Lib.Pieces
open Lib.Program
open Lib.Runs

theorem asInt_eq (n : UInt32) :
    asInt n = if n.toNat < 2 ^ 31 then (n.toNat : Int) else n.toNat - 2 ^ 32 := by
  have hlt := n.toNat_lt
  rw [asInt, toInt32, Int.bmod_def]
  split <;> split <;> omega

theorem ofInt_asInt (n : UInt32) : UInt32.ofInt (asInt n) = n := by
  have hlt := n.toNat_lt
  rw [asInt_eq, ← UInt32.toNat_inj, UInt32.ofInt, UInt32.toNat_ofNat']
  split <;> omega

/-- The id is so far above the counter that the difference counts as positive again. -/
def Overshoots (noticeid msgid count : UInt32) : Prop :=
  noticeid.toNat + min count.toNat MAX_MSG_NUM < 2 ^ 32 ∧
    msgid.toNat + 1 + 2 ^ 31 < noticeid.toNat ∧ noticeid.toNat + MAX_MSG_NUM < msgid.toNat + 1 + 2 ^ 32

instance (noticeid msgid count : UInt32) : Decidable (Overshoots noticeid msgid count) :=
  inferInstanceAs (Decidable (_ ∧ _))

/-- The page of a count the request was cut to. -/
def pageOf (noticeid readid msgid count : UInt32) : NoticePage :=
  noticePage noticeid readid msgid (asInt (atMostPage count))

theorem pageOf_count_le_iff {readid msgid : UInt32} (hread : readid.toNat < 2 ^ 31)
    (hmsg : msgid.toNat < 2 ^ 31) (noticeid count : UInt32) :
    (pageOf noticeid readid msgid count).count ≤ MAX_MSG_NUM ↔
      ¬ Overshoots noticeid msgid count := by
  have hcount := toNat_atMostPage count
  have hid := noticeid.toNat_lt
  have hmax : MAX_MSG_NUM = 10 := rfl
  have hone : (1 : UInt32).toNat = 1 := rfl
  rw [pageOf, noticePage, ofInt_asInt, Overshoots]
  split
  · rename_i hzero
    have hzero' : noticeid.toNat = 0 := by rw [hzero]; rfl
    split
    · rename_i hlt
      have hlt' := UInt32.lt_iff_toNat_lt.mp hlt
      rw [UInt32.toNat_add] at hlt'
      simp only [asInt_eq, UInt32.toNat_sub]
      split <;> omega
    · simp only [asInt_eq]
      split <;> omega
  · split
    · rename_i hlt
      have hlt' := UInt32.lt_iff_toNat_lt.mp hlt
      rw [UInt32.toNat_add] at hlt'
      simp only [asInt_eq, UInt32.toNat_sub, UInt32.toNat_add, hone]
      split <;> omega
    · rename_i hle
      have hle' := UInt32.le_iff_toNat_le.mp (UInt32.not_lt.mp hle)
      rw [UInt32.toNat_add] at hle'
      simp only [asInt_eq]
      split <;> omega

/-- The text of a counter; one that is absent counts as 0. -/
def Stores (val : Option Bytes) (n : Nat) : Prop := val = some (decimalNat n) ∨ val = none ∧ n = 0

theorem idOf_stores {val : Option Bytes} {n : Nat} (h : Stores val n) (hn : n < 2 ^ 31) :
    idOf val = .ofNat n := by
  rcases h with rfl | ⟨rfl, rfl⟩
  · show UInt32.ofInt (atoi (decimalNat n)) = _
    rw [atoi_decimalNat hn, UInt32.ofInt]
    congr 1
    omega
  · rfl

/-- Redis answers, and the read id and the notice counter of the user stay what they are. -/
structure Notified (o : List Cmd → Reply) (uin readid counter : Nat) : Prop where
  succeeds : Succeeds o
  stored : ∀ h, ∃ a b,
    o (.mget [decimalNat uin ++ ascii ".noticereadid", decimalNat uin ++ ascii ".noticeid"] :: h) =
      some [a, b] ∧ Stores a readid ∧ Stores b counter

/-- The texts of the `count` ids from `first` on. -/
def idsUp (first : UInt32) (count : Nat) : List Bytes :=
  (List.range count).map fun i => decimalNat (first + .ofNat i).toNat

theorem noticeFields_eq (first : UInt32) (count : Nat) :
    noticeFields first count = joined 0 (idsUp first count) := by
  rw [noticeFields, joined, idsUp, List.flatMap_map]
  rfl

theorem idsUp_nul (first : UInt32) (count : Nat) : ∀ t ∈ idsUp first count, 0 ∉ t := by
  intro t ht
  obtain ⟨i, -, rfl⟩ := List.mem_map.mp ht
  exact decimalNat_nul _

theorem length_idsUp (first : UInt32) (count : Nat) : (idsUp first count).length = count := by
  simp [idsUp]

variable {M : Type} (parse : Bytes → Option M) {o : List Cmd → Reply} {h : List Cmd}

/-- A page that fits the key array asks for its ids, an empty one for nothing. -/
theorem finish_getNotice (ho : Succeeds o) (uin : Nat) (first : UInt32) {count : Int}
    (hc : count ≤ MAX_MSG_NUM) : ∃ (messages : List M) (h' : List Cmd),
    finish o h (getNotice parse uin first count) = some ((0, messages), h') ∧
    asked (trace o h (getNotice parse uin first count)) =
      (idsUp first count.toNat).map fun f => (decimalNat uin ++ ascii ".notice", f) := by
  by_cases hpos : count ≤ 0
  · have hnone : count.toNat = 0 := Int.toNat_eq_zero.mpr hpos
    refine ⟨[], h, ?_, ?_⟩
    · rw [getNotice, if_pos hpos]
      rfl
    · rw [getNotice, if_pos hpos, hnone]
      rfl
  · have hkeys : keyArray MAX_MSG_NUM count.toNat (noticeFields first count.toNat) =
        pure (idsUp first count.toNat) := by
      have h := keyArray_joined MAX_MSG_NUM (idsUp first count.toNat)
        (by rw [length_idsUp]; omega) (idsUp_nul _ _)
      rwa [length_idsUp, ← noticeFields_eq] at h
    obtain ⟨val, hval, hlen⟩ := ho.2 h (decimalNat uin ++ ascii ".notice") (idsUp first count.toNat)
    rw [length_idsUp] at hlen
    obtain ⟨k, hprog, hk⟩ : ∃ k, getNotice parse uin first count =
          .call (.hmget (decimalNat uin ++ ascii ".notice") (idsUp first count.toNat)) k ∧
        ∀ val, k (some val) = valArray count.toNat val >>= fun val =>
          .ret (0, val.filterMap fun text => text.bind parse) := by
      unfold getNotice
      rw [if_neg hpos, hkeys]
      exact ⟨_, rfl, fun _ => rfl⟩
    refine ⟨val.filterMap fun text => text.bind parse,
      .hmget (decimalNat uin ++ ascii ".notice") (idsUp first count.toNat) :: h, ?_, ?_⟩
    · rw [hprog, finish, hval, hk, valArray_eq hlen]
      rfl
    · have htrace : trace o h (getNotice parse uin first count) =
          [.inl (.hmget (decimalNat uin ++ ascii ".notice") (idsUp first count.toNat))] := by
        rw [hprog, trace, hval, hk, valArray_eq hlen]
        rfl
      rw [htrace]
      simp [asked]

/-- A page beyond the key array is written past it. -/
theorem finish_getNotice_over (uin : Nat) (first : UInt32) {count : Int}
    (hc : (MAX_MSG_NUM : Int) < count) :
    finish o h (getNotice parse uin first count : Act (Int × List M)) = none := by
  have hpos : ¬ count ≤ 0 := by
    have hmax : MAX_MSG_NUM = 10 := rfl
    omega
  rw [getNotice, if_neg hpos, keyArray, if_pos (by omega)]
  rfl

variable {header : Header} {readid counter : Nat}

/-- What a notice request asks for and answers, and when it writes past its key array. -/
theorem finish_processNotice (hn : Notified o header.uin readid counter) (hv : Verified header)
    (hread : readid < 2 ^ 31) (hcounter : counter < 2 ^ 31) (noticeid count : UInt32) :
    ((pageOf noticeid (.ofNat readid) (.ofNat counter) count).count ≤ MAX_MSG_NUM →
      ∃ messages h', finish o h (processNotice parse header (some ⟨noticeid, count⟩)) =
        some (⟨⟨0, ""⟩, some ⟨messages,
          some (pageOf noticeid (.ofNat readid) (.ofNat counter) count).noticeid,
          some (.ofNat readid)⟩⟩, h') ∧
      asked (trace o h (processNotice parse header (some ⟨noticeid, count⟩))) =
        (idsUp (pageOf noticeid (.ofNat readid) (.ofNat counter) count).first
          (pageOf noticeid (.ofNat readid) (.ofNat counter) count).count.toNat).map fun f =>
          (decimalNat header.uin ++ ascii ".notice", f)) ∧
    ((MAX_MSG_NUM : Int) < (pageOf noticeid (.ofNat readid) (.ofNat counter) count).count →
      finish o h (processNotice parse header (some ⟨noticeid, count⟩)) = none) := by
  set rkey := decimalNat header.uin ++ ascii ".noticereadid"
  set mkey := decimalNat header.uin ++ ascii ".noticeid"
  set page := pageOf noticeid (.ofNat readid) (.ofNat counter) count with hpage
  obtain ⟨a, b, hval, ha, hb⟩ := hn.stored h
  have hids : finish o h (getIDs rkey mkey) =
      some ((0, .ofNat readid, .ofNat counter), .mget [rkey, mkey] :: h) := by
    rw [← idOf_stores ha hread, ← idOf_stores hb hcounter]
    show finish o (.mget [rkey, mkey] :: h) _ = _
    rw [hval]
    rfl
  have hidsTrace : trace o h (getIDs rkey mkey) = [.inl (.mget [rkey, mkey])] := by
    show _ :: trace o (.mget [rkey, mkey] :: h) _ = _
    rw [hval]
    rfl
  have hprog : processNotice parse header (some ⟨noticeid, count⟩) =
      getIDs rkey mkey >>= fun ids =>
        if ids.1 = 0 then
          getNotice parse header.uin (pageOf noticeid ids.2.1 ids.2.2 count).first
            (pageOf noticeid ids.2.1 ids.2.2 count).count >>= fun e =>
          pure ⟨⟨0, ""⟩, some ⟨e.2, some (pageOf noticeid ids.2.1 ids.2.2 count).noticeid,
            some ids.2.1⟩⟩
        else pure ⟨⟨0, ""⟩, some ⟨[], none, none⟩⟩ := by
    simp only [processNotice, verified_eq hv]
    rfl
  rw [hprog, finish_bind_of hids, trace_bind_of hids, hidsTrace]
  constructor
  · intro hle
    obtain ⟨messages, h', hfinish, hasked⟩ := finish_getNotice (h := .mget [rkey, mkey] :: h)
      parse hn.succeeds header.uin page.first hle
    refine ⟨messages, h', finish_bind_of hfinish, ?_⟩
    show asked (_ ++ trace o _ (getNotice parse _ page.first page.count >>= _)) = _
    rw [trace_bind_of hfinish, trace_pure, List.append_nil, ← hasked]
    rfl
  · intro hlt
    show finish o _ (getNotice parse _ page.first page.count >>= _) = _
    rw [finish_bind, finish_getNotice_over _ _ _ hlt]
    rfl

variable {parse}

/-- The ids a cursor stands for start here. -/
def startOf (readid : Nat) (noticeid : UInt32) : Nat :=
  if noticeid = 0 then readid + 1 else noticeid.toNat

/-- Up to the counter a page takes the ids at the front and its cursor is the next one, or it
takes all that are left and its cursor is 0. -/
theorem pageOf_front (hcounter : counter < 2 ^ 31) {noticeid count : UInt32}
    (hread : readid < startOf readid noticeid) (hle : startOf readid noticeid ≤ counter + 1)
    (hcount : count ≠ 0) : ∃ k : Nat, k ≤ MAX_MSG_NUM ∧
      (pageOf noticeid (.ofNat readid) (.ofNat counter) count).first.toNat =
        startOf readid noticeid ∧
      (pageOf noticeid (.ofNat readid) (.ofNat counter) count).count = k ∧
      ((pageOf noticeid (.ofNat readid) (.ofNat counter) count).noticeid = 0 ∧
          startOf readid noticeid + k = counter + 1 ∨
        (pageOf noticeid (.ofNat readid) (.ofNat counter) count).noticeid.toNat =
          startOf readid noticeid + k ∧ 0 < k ∧ startOf readid noticeid + k ≤ counter + 1) := by
  have hone : (1 : UInt32).toNat = 1 := rfl
  have hc := atMostPage_pos hcount
  have hmax : MAX_MSG_NUM = 10 := rfl
  by_cases hzero : noticeid = 0
  · simp only [startOf, hzero, if_true] at hread hle ⊢
    have hr : (UInt32.ofNat readid).toNat = readid :=
      UInt32.toNat_ofNat_of_lt (show _ < 2 ^ 32 by omega)
    have hm : (UInt32.ofNat counter).toNat = counter :=
      UInt32.toNat_ofNat_of_lt (show _ < 2 ^ 32 by omega)
    simp only [pageOf, noticePage, ofInt_asInt, if_true]
    split
    · rename_i hlt
      have hlt' := UInt32.lt_iff_toNat_lt.mp hlt
      rw [UInt32.toNat_add, hr, hm] at hlt'
      refine ⟨counter - readid, by omega, ?_, ?_, .inl ⟨rfl, by omega⟩⟩
      · rw [UInt32.toNat_add, hr, hone]
        omega
      · simp only [asInt_eq, UInt32.toNat_sub, hr, hm]
        split <;> omega
    · rename_i hge
      have hge' := UInt32.le_iff_toNat_le.mp (UInt32.not_lt.mp hge)
      rw [UInt32.toNat_add, hr, hm] at hge'
      refine ⟨(atMostPage count).toNat, hc.2, ?_, ?_, .inr ⟨?_, hc.1, by omega⟩⟩
      · rw [UInt32.toNat_add, hr, hone]
        omega
      · rw [asInt_eq, if_pos (by omega)]
      · simp only [UInt32.toNat_add, hr, hone]
        omega
  · simp only [startOf, hzero, if_false] at hread hle ⊢
    have hm : (UInt32.ofNat counter).toNat = counter :=
      UInt32.toNat_ofNat_of_lt (show _ < 2 ^ 32 by omega)
    simp only [pageOf, noticePage, ofInt_asInt, hzero, if_false]
    split
    · rename_i hlt
      have hlt' := UInt32.lt_iff_toNat_lt.mp hlt
      rw [UInt32.toNat_add, hm] at hlt'
      refine ⟨counter + 1 - noticeid.toNat, by omega, rfl, ?_, .inl ⟨rfl, by omega⟩⟩
      simp only [asInt_eq, UInt32.toNat_sub, UInt32.toNat_add, hm, hone]
      split <;> omega
    · rename_i hge
      have hge' := UInt32.le_iff_toNat_le.mp (UInt32.not_lt.mp hge)
      rw [UInt32.toNat_add, hm] at hge'
      refine ⟨(atMostPage count).toNat, hc.2, rfl, ?_, .inr ⟨?_, hc.1, by omega⟩⟩
      · rw [asInt_eq, if_pos (by omega)]
      · simp only [UInt32.toNat_add]
        omega

/-- The texts of the ids from `n` up to the counter. -/
def idsUntil (n counter : Nat) : List Bytes := (List.range' n (counter + 1 - n)).map decimalNat

theorem idsUp_eq {first : UInt32} {k : Nat} (h : first.toNat + k ≤ 2 ^ 32) :
    idsUp first k = (List.range' first.toNat k).map decimalNat := by
  rw [List.range'_eq_map_range, List.map_map]
  refine List.map_congr_left fun i hi => congrArg decimalNat ?_
  have hlt := List.mem_range.mp hi
  have hi' : (UInt32.ofNat i).toNat = i := UInt32.toNat_ofNat_of_lt (show _ < 2 ^ 32 by omega)
  rw [UInt32.toNat_add, hi']
  exact Nat.mod_eq_of_lt (by omega)

theorem idsUntil_split {n k counter : Nat} (h : n + k ≤ counter + 1) :
    idsUntil n counter = (List.range' n k).map decimalNat ++ idsUntil (n + k) counter := by
  rw [idsUntil, idsUntil, ← List.map_append]
  have hlen : counter + 1 - n = k + (counter + 1 - (n + k)) := by omega
  rw [hlen, List.range'_append_1]

/-- Following the cursor from 0 asks for the unread ids once, in order. -/
def Covers (parse : Bytes → Option M) (o : List Cmd → Reply) (header : Header)
    (counts : Nat → UInt32) (readid counter : Nat) : Prop :=
  ∃ ps, follow (seePage o (fun k noticeid => processNotice parse header (some ⟨noticeid, counts k⟩))
      (fun rsp => rsp.noticeid)) (counter - readid + 1) 0 (0, []) = some ps ∧
    ps.flatMap (·.asked) = (idsUntil (readid + 1) counter).map fun f =>
      (decimalNat header.uin ++ ascii ".notice", f)

theorem notices_cover (hn : Notified o header.uin readid counter) (hv : Verified header)
    (hle : readid ≤ counter) (hcounter : counter < 2 ^ 31) {counts : Nat → UInt32}
    (hcounts : ∀ k, counts k ≠ 0) : Covers parse o header counts readid counter := by
  set key := decimalNat header.uin ++ ascii ".notice" with hkey
  have hpage : ∀ k (s : UInt32 × List Cmd), (readid < startOf readid s.1 ∧
        startOf readid s.1 ≤ counter + 1) → ∃ p next,
      seePage o (fun k noticeid => processNotice parse header (some ⟨noticeid, counts k⟩))
        (fun rsp => rsp.noticeid) k s = some (p, next) ∧ True ∧
      (idsUntil (startOf readid s.1) counter).map (fun f => (key, f)) = p.asked ++
        next.elim [] (fun s => (idsUntil (startOf readid s.1) counter).map fun f => (key, f)) ∧
      ∀ s', next = some s' → (readid < startOf readid s'.1 ∧ startOf readid s'.1 ≤ counter + 1) ∧
        counter + 1 - startOf readid s'.1 < counter + 1 - startOf readid s.1 := by
    rintro k ⟨noticeid, h⟩ ⟨hlow, hhigh⟩
    change readid < startOf readid noticeid at hlow
    change startOf readid noticeid ≤ counter + 1 at hhigh
    obtain ⟨n, hn10, hfirst, hcount, hcursor⟩ := pageOf_front hcounter hlow hhigh (hcounts k)
    set page := pageOf noticeid (.ofNat readid) (.ofNat counter) (counts k) with hpage
    have hle10 : page.count ≤ MAX_MSG_NUM := by
      rw [hcount]
      exact Int.ofNat_le.mpr hn10
    obtain ⟨messages, h', hfinish, hasked⟩ := (finish_processNotice (h := h) parse hn hv
      (by omega) hcounter noticeid (counts k)).1 hle10
    have hfit : startOf readid noticeid + n ≤ counter + 1 := by
      rcases hcursor with ⟨-, heq⟩ | ⟨-, -, hle⟩
      · exact heq.le
      · exact hle
    have hfields : asked (trace o h (processNotice parse header (some ⟨noticeid, counts k⟩))) =
        ((List.range' (startOf readid noticeid) n).map decimalNat).map fun f => (key, f) := by
      rw [hasked, ← hpage, hcount, Int.toNat_natCast, idsUp_eq (by rw [hfirst]; omega), hfirst]
    refine ⟨⟨asked (trace o h (processNotice parse header (some ⟨noticeid, counts k⟩))),
      page.noticeid⟩, if page.noticeid = 0 then none else some (page.noticeid, h'), ?_, trivial, ?_, ?_⟩
    · rw [seePage, hfinish]
      rfl
    · rw [hfields, idsUntil_split hfit, List.map_append]
      congr 1
      rcases hcursor with ⟨hzero, heq⟩ | ⟨hnext, hpos, -⟩
      · rw [if_pos hzero, heq, idsUntil, Nat.sub_self]
        rfl
      · have hne : page.noticeid ≠ 0 := by
          intro hzero
          rw [hzero] at hnext
          have hz : (0 : UInt32).toNat = 0 := rfl
          omega
        have hs : startOf readid page.noticeid = startOf readid noticeid + n :=
          (if_neg hne).trans hnext
        rw [if_neg hne, Option.elim_some, hs]
    · intro s' hs'
      split at hs'
      · cases hs'
      · rename_i hne
        obtain rfl := Option.some.inj hs'
        obtain ⟨hnext, hpos, hle⟩ := hcursor.resolve_left fun hlast => hne hlast.1
        have hs : startOf readid page.noticeid = startOf readid noticeid + n :=
          (if_neg hne).trans hnext
        show (_ < startOf readid page.noticeid ∧ startOf readid page.noticeid ≤ _) ∧
          _ - startOf readid page.noticeid < _
        rw [hs]
        show (_ ∧ _) ∧ _ < counter + 1 - startOf readid noticeid
        omega
  have hstart : startOf readid 0 = readid + 1 := if_pos rfl
  obtain ⟨ps, hps, hall, -⟩ := follow_covers hpage 0 (0, []) (by
    show _ < startOf readid 0 ∧ startOf readid 0 ≤ _
    rw [hstart]
    omega)
  refine ⟨ps, ?_, ?_⟩
  · have hsize : counter + 1 - startOf readid (0, ([] : List Cmd)).1 + 1 = counter - readid + 1 := by
      show counter + 1 - startOf readid 0 + 1 = _
      rw [hstart]
      omega
    rw [← hsize]
    exact hps
  · rw [hall]
    show (idsUntil (startOf readid 0) counter).map _ = _
    rw [hstart]

/-- A notice request stays inside its key array exactly when its notice id does not overshoot,
and the pages of a client that starts with 0 ask for the unread ids once and in order. -/
theorem notices_bounded_iff (hn : Notified o header.uin readid counter) (hv : Verified header)
    (hread : readid < 2 ^ 31) (hcounter : counter < 2 ^ 31) :
    (∀ noticeid count : UInt32,
      ((pageOf noticeid (.ofNat readid) (.ofNat counter) count).count ≤ MAX_MSG_NUM ↔
        ¬ Overshoots noticeid (.ofNat counter) count) ∧
      ((finish o h (processNotice parse header (some ⟨noticeid, count⟩))).isSome = true ↔
        ¬ Overshoots noticeid (.ofNat counter) count)) ∧
    (readid ≤ counter → ∀ counts : Nat → UInt32, (∀ k, counts k ≠ 0) →
      Covers parse o header counts readid counter) := by
  have hr : (UInt32.ofNat readid).toNat = readid :=
    UInt32.toNat_ofNat_of_lt (show _ < 2 ^ 32 by omega)
  have hm : (UInt32.ofNat counter).toNat = counter :=
    UInt32.toNat_ofNat_of_lt (show _ < 2 ^ 32 by omega)
  refine ⟨fun noticeid count => ?_, fun hle counts hcounts => notices_cover hn hv hle hcounter hcounts⟩
  have hiff := pageOf_count_le_iff (hr.trans_lt hread) (hm.trans_lt hcounter) noticeid count
  refine ⟨hiff, hiff.symm.trans ?_ |>.symm⟩
  obtain ⟨hfits, hover⟩ := finish_processNotice (h := h) parse hn hv hread hcounter
    noticeid count
  constructor
  · intro hle
    obtain ⟨messages, h', hfinish, -⟩ := hfits hle
    rw [hfinish]
    rfl
  · intro hsome
    by_contra hlt
    rw [hover (Int.not_le.mp hlt)] at hsome
    cases hsome

/-- A user who has read 3 notices of 12, and no text stored. -/
def twelveNotices : List Cmd → Reply
  | .mget keys :: h =>
    if keys.length = 2 then some [some (decimalNat 3), some (decimalNat 12)]
    else emptyRedis (.mget keys :: h)
  | h => emptyRedis h

theorem twelveNotices_notified : Notified twelveNotices 7 3 12 := by
  refine ⟨⟨fun h keys => ?_, emptyRedis_succeeds.2⟩, fun h => ⟨_, _, rfl, .inl rfl, .inl rfl⟩⟩
  by_cases hkeys : keys.length = 2
  · exact ⟨_, if_pos hkeys, hkeys.symm⟩
  · obtain ⟨val, hval, hlen⟩ := emptyRedis_succeeds.1 h keys
    exact ⟨val, (if_neg hkeys).trans hval, hlen⟩

theorem notices_bounded_iff_twelve :
    (∀ noticeid count : UInt32,
      ((pageOf noticeid (.ofNat 3) (.ofNat 12) count).count ≤ MAX_MSG_NUM ↔
        ¬ Overshoots noticeid (.ofNat 12) count) ∧
      ((finish twelveNotices []
        (processNotice some ⟨7, true, 7, true⟩ (some ⟨noticeid, count⟩))).isSome = true ↔
        ¬ Overshoots noticeid (.ofNat 12) count)) ∧
    (3 ≤ 12 → ∀ counts : Nat → UInt32, (∀ k, counts k ≠ 0) →
      Covers some twelveNotices ⟨7, true, 7, true⟩ counts 3 12) :=
  notices_bounded_iff twelveNotices_notified ⟨rfl, rfl, rfl⟩ (by decide) (by decide)

/-- An id far above the counter asks for 112 notices. -/
theorem notice_count_unbounded : ¬ ∀ noticeid count readid msgid : UInt32,
    readid.toNat < 2 ^ 31 → msgid.toNat < 2 ^ 31 →
    (pageOf noticeid readid msgid count).count ≤ MAX_MSG_NUM := by
  intro h
  exact absurd (h 4294967285 10 0 100 (by decide) (by decide)) (by decide)

end Doorhinges.Messages.Queries

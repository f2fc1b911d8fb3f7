import Doorhinges.Hiredis.Cut
import Doorhinges.Lib.Decimal

/-!
# Replies as they are written

A reply has one text in the protocol. The reader takes each reply from its text, as far as the
arrays in it are nested no deeper than its stack of tasks.
-/
namespace Doorhinges.Hiredis

open Lib.CString
open Lib.Stream (End items goOn readOne Exhausted)
open Keepalive (Err)

/-- A line with its end. -/
def line (s : Bytes) : Bytes := s ++ [13, 10]

mutual

def RedisReply.wire : RedisReply → Bytes
  | .string str => 36 :: line (decimalNat str.length) ++ line str
  | .array elements element => 42 :: line (decimal elements) ++ wires element
  | .integer n => 58 :: line (decimal n)
  | .nil => 36 :: line (decimal (-1))
  | .status str => 43 :: line str
  | .error str => 45 :: line str

def wires : List RedisReply → Bytes
  | [] => []
  | v :: vs => v.wire ++ wires vs

end

mutual

/-- How deep arrays are nested. -/
def RedisReply.height : RedisReply → Nat
  | .array _ element => heights element + 1
  | .string _ | .integer _ | .nil | .status _ | .error _ => 0

def heights : List RedisReply → Nat
  | [] => 0
  | v :: vs => max v.height (heights vs)

end

/-- No end of a line stands in the text. -/
def OneLine (s : Bytes) : Prop := ¬ [13, 10] <:+: s

mutual

/-- A reply that has a text: numbers fit their types, an array has all of its elements and a
status and an error stand on one line. -/
def RedisReply.Writable : RedisReply → Prop
  | .string str => str.length < 2 ^ 63
  | .array elements element =>
    elements = element.length ∧ element.length < 2 ^ 31 ∧ allWritable element
  | .integer n => n.natAbs < 2 ^ 63
  | .nil => True
  | .status str => OneLine str
  | .error str => OneLine str

def allWritable : List RedisReply → Prop
  | [] => True
  | v :: vs => v.Writable ∧ allWritable vs

end

section Line

variable {s : Bytes}

theorem oneLine_cons {c : UInt8} (h : OneLine (c :: s)) : OneLine s := fun hin =>
  h (hin.trans (List.suffix_cons c s).isInfix)

/-- The first end of a line is that of the line. -/
theorem seekNewline_line (h : OneLine s) (rest : Bytes) :
    seekNewline (line s ++ rest) = some s.length := by
  induction s with
  | nil => rfl
  | cons c s ih =>
    have hrest := ih (oneLine_cons h)
    cases s with
    | nil =>
      have hno : ¬ (c = 13 ∧ (13 : UInt8) = 10) := fun heq => absurd heq.2 (by decide)
      show seekNewline (c :: 13 :: 10 :: rest) = some 1
      rw [seekNewline, if_neg hno]
      rfl
    | cons d s =>
      have hno : ¬ (c = 13 ∧ d = 10) := by
        intro heq
        obtain ⟨rfl, rfl⟩ := heq
        exact h (List.prefix_append [13, 10] s).isInfix
      show seekNewline (c :: d :: (s ++ [13, 10] ++ rest)) = some (s.length + 1 + 1)
      rw [seekNewline, if_neg hno]
      exact congrArg (Option.map (· + 1)) hrest

theorem oneLine_of_not_mem (h : 13 ∉ s) : OneLine s := fun hin =>
  h (hin.subset List.mem_cons_self)

end Line

section Numbers

theorem le_foldl_digits (ds : Bytes) (v : Nat) :
    v ≤ ds.foldl (fun acc c => 10 * acc + digitVal c) v := by
  induction ds generalizing v with
  | nil => exact Nat.le_refl v
  | cons c ds ih =>
    have h := ih (10 * v + digitVal c)
    rw [List.foldl_cons]
    omega

theorem readDigits_digits {ds : Bytes} (h : ∀ c ∈ ds, isDigit c) {v : Nat}
    (hlt : ds.foldl (fun acc c => 10 * acc + digitVal c) v < 2 ^ 63) (rest : Bytes) :
    readDigits v (ds ++ 13 :: rest) =
      some (some (ds.foldl (fun acc c => 10 * acc + digitVal c) v)) := by
  induction ds generalizing v with
  | nil => rw [List.nil_append, readDigits, if_pos rfl, List.foldl_nil]
  | cons c ds ih =>
    obtain ⟨hc, hds⟩ := List.forall_mem_cons.1 h
    have hne : c ≠ 13 := by
      rintro rfl
      exact absurd hc (by decide)
    have hle := le_foldl_digits ds (10 * v + digitVal c)
    rw [List.foldl_cons] at hlt ⊢
    rw [List.cons_append, readDigits, if_neg hne, if_pos hc]
    dsimp only
    rw [if_pos (by omega), Nat.mul_comm v 10, ih hds hlt]

theorem foldl_decimalNat (n : Nat) :
    (decimalNat n).foldl (fun acc c => 10 * acc + digitVal c) 0 = n := by
  have hlead := leadingNat_decimalNat n
  rwa [leadingNat, (takeWhile_all (decimalNat_digits n)).1] at hlead

theorem readDigits_decimalNat {n : Nat} (h : n < 2 ^ 63) (rest : Bytes) :
    readDigits 0 (decimalNat n ++ 13 :: rest) = some (some n) := by
  rw [readDigits_digits (decimalNat_digits n) (by rwa [foldl_decimalNat]), foldl_decimalNat]

theorem decimalNat_head (n : Nat) (rest : Bytes) :
    ∃ c s, decimalNat n ++ rest = c :: s ∧ c ≠ 45 ∧ c ≠ 43 := by
  obtain ⟨c, s, hs⟩ := List.exists_cons_of_ne_nil (decimalNat_ne_nil n)
  have hc : isDigit c = true := decimalNat_digits n c (by rw [hs]; exact List.mem_cons_self)
  exact ⟨c, s ++ rest, by rw [hs]; rfl, (digit_plain hc).2⟩

theorem readLongLong_nat {n : Nat} (h : n < 2 ^ 63) (rest : Bytes) :
    readLongLong (line (decimalNat n) ++ rest) = some (n : Int) := by
  have htext : line (decimalNat n) ++ rest = decimalNat n ++ 13 :: 10 :: rest := by
    rw [line, List.append_assoc]
    rfl
  obtain ⟨c, s, hs, hminus, hplus⟩ := decimalNat_head n (13 :: 10 :: rest)
  have hread := readDigits_decimalNat h (10 :: rest)
  rw [htext, hs] at *
  rw [readLongLong, List.head?_cons, if_neg (by simpa using hminus),
    if_neg (by simpa using ⟨hminus, hplus⟩), hread]
  simp

/-- A number is read from its text. -/
theorem readLongLong_decimal {n : Int} (h : n.natAbs < 2 ^ 63) (rest : Bytes) :
    readLongLong (line (decimal n) ++ rest) = some n := by
  rw [decimal]
  split
  · rename_i hneg
    have hread := readDigits_decimalNat h (10 :: rest)
    have htext : line (45 :: decimalNat n.natAbs) ++ rest =
        45 :: (decimalNat n.natAbs ++ 13 :: 10 :: rest) := by
      rw [line, List.cons_append, List.cons_append, List.append_assoc]
      rfl
    rw [htext, readLongLong, List.head?_cons, if_pos rfl, if_pos (Or.inl rfl), List.tail_cons,
      hread]
    simp only [Option.map_some, Option.elim_some, Option.some.injEq]
    omega
  · rw [readLongLong_nat h]
    exact congrArg some (by omega)

theorem oneLine_decimalNat (n : Nat) : OneLine (decimalNat n) :=
  oneLine_of_not_mem fun h => absurd (decimalNat_digits n 13 h) (by decide)

theorem oneLine_decimal (n : Int) : OneLine (decimal n) := by
  rw [decimal]
  split
  · refine oneLine_of_not_mem (List.not_mem_cons_of_ne_of_not_mem (by decide) fun h => ?_)
    exact absurd (decimalNat_digits _ 13 h) (by decide)
  · exact oneLine_decimalNat _

end Numbers

section Items

abbrev Found := List RedisReply × End UInt8 (List ReadTask) (Option (Err × Bytes))

/-- The rest of the stream when the object at this place is complete. -/
def after (obj : RedisReply) (idx : Int) (stack : List ReadTask) (rest : Bytes) : Found :=
  let next := moveFrom obj idx stack
  (next.2.toList ++ (items look next.1 rest).1, (items look next.1 rest).2)

/-- Where reading ends at an array that is nested too deep. -/
def tooDeep : Found := ([], .error (some (.protocol, depthError)))

variable {cur : ReadTask} {stack : List ReadTask} {c : UInt8} {type : ReplyType} {b rest : Bytes}

theorem items_type (hcur : cur.type = none) (hc : typeOf c = some type) (b : Bytes) :
    items look (cur :: stack) (c :: b) =
      items look ({ cur with type := some type } :: stack) b := by
  have hlook : look (cur :: stack) (c :: b) =
      some (.ok ({ cur with type := some type } :: stack, 1, none)) := by
    rw [look_untyped hcur, hc]
  rw [Lib.Stream.items_ok steady_look hlook]
  rfl

theorem items_complete {obj : RedisReply} {n : Nat} (hcur : cur.type = some type)
    (h : processTyped type cur stack b = complete obj n (cur :: stack)) :
    items look (cur :: stack) b = after obj cur.idx stack (b.drop n) := by
  have hlook : look (cur :: stack) b = complete obj n (cur :: stack) := by
    rw [look_typed hcur, h]
  rw [Lib.Stream.items_ok steady_look hlook]
  rfl

theorem drop_line (s rest : Bytes) : (line s ++ rest).drop (s.length + 2) = rest :=
  List.drop_left' (by rw [line, List.length_append]; rfl)

theorem take_line (s rest : Bytes) : (line s ++ rest).take s.length = s := by
  rw [line, List.append_assoc]
  exact List.take_left' rfl

/-- A line of its own is an item. -/
theorem items_line {obj : RedisReply} {s : Bytes} (hcur : cur.type = none)
    (hc : typeOf c = some type) (htype : ∀ cur : ReadTask,
      processTyped type cur stack (line s ++ rest) = complete obj (s.length + 2) (cur :: stack)) :
    items look (cur :: stack) (c :: line s ++ rest) = after obj cur.idx stack rest := by
  rw [List.cons_append, items_type hcur hc, items_complete rfl (htype _), drop_line]

theorem items_integer {n : Int} (h : n.natAbs < 2 ^ 63) (hcur : cur.type = none) :
    items look (cur :: stack) (58 :: line (decimal n) ++ rest) =
      after (.integer n) cur.idx stack rest := by
  refine items_line hcur rfl fun cur => ?_
  rw [processTyped, processLineItem, seekNewline_line (oneLine_decimal n)]
  dsimp only
  rw [readLongLong_decimal h]

theorem items_status {s : Bytes} (h : OneLine s) (hcur : cur.type = none) :
    items look (cur :: stack) (43 :: line s ++ rest) = after (.status s) cur.idx stack rest := by
  refine items_line hcur rfl fun cur => ?_
  rw [processTyped, processLineItem, seekNewline_line h]
  dsimp only
  rw [take_line]

theorem items_error {s : Bytes} (h : OneLine s) (hcur : cur.type = none) :
    items look (cur :: stack) (45 :: line s ++ rest) = after (.error s) cur.idx stack rest := by
  refine items_line hcur rfl fun cur => ?_
  rw [processTyped, processLineItem, seekNewline_line h]
  dsimp only
  rw [take_line]

theorem items_nil (hcur : cur.type = none) :
    items look (cur :: stack) (36 :: line (decimal (-1)) ++ rest) =
      after .nil cur.idx stack rest := by
  refine items_line hcur rfl fun cur => ?_
  rw [processTyped, processBulkItem, seekNewline_line (oneLine_decimal (-1))]
  dsimp only
  rw [readLongLong_decimal (by decide)]
  rfl

theorem items_string {s : Bytes} (h : s.length < 2 ^ 63) (hcur : cur.type = none) :
    items look (cur :: stack) (36 :: line (decimalNat s.length) ++ line s ++ rest) =
      after (.string s) cur.idx stack rest := by
  have hhead := drop_line (decimalNat s.length) (line s ++ rest)
  have hstep : ∀ cur : ReadTask, processTyped .string cur stack
      (line (decimalNat s.length) ++ (line s ++ rest)) = complete (.string s)
        ((decimalNat s.length).length + 2 + (s.length + 2)) (cur :: stack) := by
    intro cur
    rw [processTyped, processBulkItem, seekNewline_line (oneLine_decimalNat _)]
    dsimp only
    rw [readLongLong_nat h]
    dsimp only
    rw [if_neg (by omega), Int.toNat_natCast, hhead, take_line, if_pos]
    simp only [List.length_append, line, List.length_cons, List.length_nil]
    omega
  have hdrop : (line (decimalNat s.length) ++ (line s ++ rest)).drop
      ((decimalNat s.length).length + 2 + (s.length + 2)) = rest := by
    rw [← List.drop_drop, hhead, drop_line]
  rw [List.append_assoc, List.cons_append, items_type hcur rfl, items_complete rfl (hstep _), hdrop]

theorem items_tooDeep (hstack : stack.length = 8) (hcur : cur.type = none) (b : Bytes) :
    items look (cur :: stack) (42 :: b) = tooDeep := by
  have hlook : look ({ cur with type := some .array } :: stack) b =
      some (.error (some (.protocol, depthError))) := by
    rw [look_typed rfl, processTyped, processMultiBulkItem, if_pos hstack]
  rw [items_type hcur rfl, Lib.Stream.items_error hlook]
  rfl

theorem items_empty (hstack : stack.length < 8) (hcur : cur.type = none) :
    items look (cur :: stack) (42 :: line (decimal 0) ++ rest) =
      after (.array 0 []) cur.idx stack rest := by
  refine items_line hcur rfl fun cur => ?_
  rw [processTyped, processMultiBulkItem, if_neg (by omega), seekNewline_line (oneLine_decimal 0)]
  dsimp only
  rw [readLongLong_decimal (by decide)]
  rfl

/-- The task of an array, and the one of its first element. -/
theorem items_array {n : Int} (hpos : 0 < n) (hlt : n < 2 ^ 31) (hstack : stack.length < 8)
    (hcur : cur.type = none) :
    items look (cur :: stack) (42 :: line (decimal n) ++ rest) =
      items look (.item 0 :: ⟨some .array, n, cur.idx, []⟩ :: stack) rest := by
  have hlook : look ({ cur with type := some .array } :: stack) (line (decimal n) ++ rest) =
      some (.ok (.item 0 :: ⟨some .array, n, cur.idx, []⟩ :: stack, (decimal n).length + 2,
        none)) := by
    rw [look_typed rfl, processTyped, processMultiBulkItem, if_neg (by omega),
      seekNewline_line (oneLine_decimal n)]
    dsimp only
    rw [readLongLong_decimal (by omega)]
    dsimp only
    rw [if_neg (by omega), if_neg (by omega), if_pos hpos]
  rw [List.cons_append, items_type hcur rfl, Lib.Stream.items_ok steady_look hlook, drop_line]
  rfl

/-- An element of an array is complete, the last one or one before it. -/
theorem after_last {prv : ReadTask} {v : RedisReply} (hlen : prv.elements = prv.obj.length + 1) :
    after v prv.obj.length (prv :: stack) rest =
      after (.array prv.elements (prv.obj ++ [v])) prv.idx stack rest := by
  rw [after, moveFrom]
  dsimp only
  rw [if_pos (by omega)]
  rfl

theorem after_more {prv : ReadTask} {v : RedisReply}
    (hlen : prv.elements ≠ prv.obj.length + 1) :
    after v prv.obj.length (prv :: stack) rest =
      items look (.item (prv.obj ++ [v]).length :: { prv with obj := prv.obj ++ [v] } :: stack)
        rest := by
  rw [after, moveFrom]
  dsimp only
  rw [if_neg (by omega), List.length_append]
  rfl

end Items

section Values

mutual

/-- A reply is read from its text, unless an array in it is nested too deep. -/
theorem items_wire : ∀ (v : RedisReply) {cur : ReadTask} {stack : List ReadTask} {rest : Bytes},
    v.Writable → cur.type = none → stack.length ≤ 8 → items look (cur :: stack) (v.wire ++ rest) =
      if stack.length + v.height ≤ 8 then after v cur.idx stack rest else tooDeep
  | .string str, cur, stack, rest, hv, hcur, hstack => by
    rw [RedisReply.height, Nat.add_zero, if_pos hstack, RedisReply.wire, items_string hv hcur]
  | .integer n, cur, stack, rest, hv, hcur, hstack => by
    rw [RedisReply.height, Nat.add_zero, if_pos hstack, RedisReply.wire, items_integer hv hcur]
  | .nil, cur, stack, rest, hv, hcur, hstack => by
    rw [RedisReply.height, Nat.add_zero, if_pos hstack, RedisReply.wire, items_nil hcur]
  | .status str, cur, stack, rest, hv, hcur, hstack => by
    rw [RedisReply.height, Nat.add_zero, if_pos hstack, RedisReply.wire, items_status hv hcur]
  | .error str, cur, stack, rest, hv, hcur, hstack => by
    rw [RedisReply.height, Nat.add_zero, if_pos hstack, RedisReply.wire, items_error hv hcur]
  | .array n [], cur, stack, rest, hv, hcur, hstack => by
    obtain ⟨rfl, -⟩ := hv
    rw [RedisReply.height, heights, RedisReply.wire, wires, List.append_nil]
    by_cases hfull : stack.length = 8
    · rw [if_neg (by omega), List.cons_append, items_tooDeep hfull hcur]
    · rw [if_pos (by omega)]
      exact items_empty (by omega) hcur
  | .array n (v :: vs), cur, stack, rest, hv, hcur, hstack => by
    obtain ⟨rfl, hlt, hall⟩ := hv
    rw [RedisReply.height, RedisReply.wire, List.append_assoc]
    by_cases hfull : stack.length = 8
    · rw [if_neg (by omega), List.cons_append, items_tooDeep hfull hcur]
    · have hpos : (0 : Int) < (v :: vs).length := by
        rw [List.length_cons]
        omega
      rw [items_array hpos (by omega) (by omega) hcur]
      exact @items_wires v vs ⟨some .array, (v :: vs).length, cur.idx, []⟩ stack rest hall
        (by omega) (by simp)
termination_by v => sizeOf v

theorem items_wires : ∀ (v : RedisReply) (vs : List RedisReply) {prv : ReadTask}
    {stack : List ReadTask} {rest : Bytes}, allWritable (v :: vs) → stack.length < 8 →
    prv.elements = prv.obj.length + (v :: vs).length →
    items look (.item prv.obj.length :: prv :: stack) (wires (v :: vs) ++ rest) =
      if stack.length + (heights (v :: vs) + 1) ≤ 8 then
        after (.array prv.elements (prv.obj ++ v :: vs)) prv.idx stack rest
      else tooDeep
  | v, [], prv, stack, rest, hall, hstack, hlen => by
    have hread := @items_wire v (.item prv.obj.length) (prv :: stack) rest hall.1 rfl hstack
    have hlast := @after_last stack rest prv v hlen
    rw [wires, wires, List.append_nil, hread, List.length_cons, heights, heights, Nat.max_zero,
      Nat.add_right_comm, ← hlast]
    rfl
  | v, w :: vs, prv, stack, rest, hall, hstack, hlen => by
    have hread := @items_wire v (.item prv.obj.length) (prv :: stack) (wires (w :: vs) ++ rest)
      hall.1 rfl hstack
    rw [wires, List.append_assoc, hread, List.length_cons, heights]
    by_cases hdeep : stack.length + 1 + v.height ≤ 8
    · have hlen' : prv.elements = (prv.obj ++ [v]).length + (w :: vs).length := by
        rw [hlen]
        simp only [List.length_cons, List.length_append, List.length_nil]
        omega
      have hmore := @after_more stack (wires (w :: vs) ++ rest) prv v
        (by rw [hlen, List.length_cons, List.length_cons]; omega)
      have hrest := @items_wires w vs { prv with obj := prv.obj ++ [v] } stack rest hall.2 hstack
        hlen'
      have hmax : stack.length + (heights (w :: vs) + 1) ≤ 8 ↔
          stack.length + (max v.height (heights (w :: vs)) + 1) ≤ 8 := by
        omega
      rw [if_pos hdeep, ← if_congr hmax rfl rfl]
      refine hmore.trans (hrest.trans ?_)
      rw [List.append_assoc, List.singleton_append]
    · rw [if_neg hdeep, if_neg (by omega)]
termination_by v vs => sizeOf v + sizeOf vs + 1

end

/-- The reader has the tasks for it. -/
def Shallow (v : RedisReply) : Prop := v.height ≤ 8

instance (v : RedisReply) : Decidable (Shallow v) := inferInstanceAs (Decidable (v.height ≤ 8))

/-- The error at the first reply that is nested too deep. -/
def depthOf (vs : List RedisReply) : Option (Err × Bytes) :=
  if ∀ v ∈ vs, Shallow v then none else some (.protocol, depthError)

theorem wire_head (v : RedisReply) : ∃ c s, v.wire = c :: s ∧ (typeOf c).isSome := by
  cases v with
  | array n element => exact ⟨42, _, by rw [RedisReply.wire, List.cons_append], rfl⟩
  | string str => exact ⟨36, _, by rw [RedisReply.wire, List.cons_append], rfl⟩
  | integer n => exact ⟨58, _, by rw [RedisReply.wire], rfl⟩
  | nil => exact ⟨36, _, by rw [RedisReply.wire], rfl⟩
  | status str => exact ⟨43, _, by rw [RedisReply.wire], rfl⟩
  | error str => exact ⟨45, _, by rw [RedisReply.wire], rfl⟩

/-- A reply begins where the one before it has ended. -/
theorem items_first (v : RedisReply) (rest : Bytes) :
    items look [] (v.wire ++ rest) = items look [.item (-1)] (v.wire ++ rest) := by
  obtain ⟨c, s, hwire, hc⟩ := wire_head v
  obtain ⟨type, htype⟩ := Option.isSome_iff_exists.1 hc
  have hlook : look [.item (-1)] (c :: (s ++ rest)) =
      some (.ok ([{ ReadTask.item (-1) with type := some type }], 1, none)) := by
    rw [look_untyped rfl, htype]
  have hsame : look [] (c :: (s ++ rest)) = look [.item (-1)] (c :: (s ++ rest)) := rfl
  rw [hwire, List.cons_append, Lib.Stream.items_ok steady_look hlook,
    Lib.Stream.items_ok steady_look (hsame.trans hlook)]

theorem items_all {vs : List RedisReply} (hvs : allWritable vs) :
    (items look [] (wires vs)).1 = vs.takeWhile (Shallow ·) ∧
      (items look [] (wires vs)).2 = (match depthOf vs with
        | none => .ok ([], [])
        | some e => .error (some e)) := by
  induction vs with
  | nil => exact ⟨rfl, rfl⟩
  | cons v vs ih =>
    obtain ⟨hv, hvs⟩ := hvs
    obtain ⟨hreplies, hend⟩ := ih hvs
    have hitem := @items_wire v (.item (-1)) [] (wires vs) hv rfl (Nat.zero_le _)
    rw [List.length_nil, Nat.zero_add] at hitem
    rw [wires, items_first, hitem]
    by_cases hdeep : v.height ≤ 8
    · have hdepth : depthOf (v :: vs) = depthOf vs := by
        rw [depthOf, depthOf]
        refine if_congr ?_ rfl rfl
        rw [List.forall_mem_cons, and_iff_right (show Shallow v from hdeep)]
      have hafter : after v (ReadTask.item (-1)).idx [] (wires vs) =
          (v :: (items look [] (wires vs)).1, (items look [] (wires vs)).2) := rfl
      rw [if_pos hdeep, hafter, hreplies, hend, hdepth,
        List.takeWhile_cons_of_pos (by simpa using (show Shallow v from hdeep))]
      exact ⟨rfl, rfl⟩
    · have hnot : ¬ Shallow v := hdeep
      have hdepth : depthOf (v :: vs) = some (.protocol, depthError) :=
        if_neg fun hall => hnot (hall v List.mem_cons_self)
      rw [if_neg hdeep, hdepth, List.takeWhile_cons_of_neg (by simpa using hnot)]
      exact ⟨rfl, rfl⟩

/-- The texts of replies, cut at any places and with replies asked for at any time, are read as
these replies up to the first that is nested too deep; after all calls at the end of the stream
there is an error exactly if there is such a reply. -/
theorem replies_of_wires {vs : List RedisReply} {calls : List Call} (hvs : allWritable vs)
    (hbytes : calls.flatMap Call.bytes = wires vs) :
    ∃ out r ok q x, replies calls = some (out, r) ∧ r.getReply = some (ok, q, x) ∧
      out ++ x.toList <+: vs.takeWhile (Shallow ·) ∧
      (x = none → out = vs.takeWhile (Shallow ·) ∧ q.err = depthOf vs) := by
  obtain ⟨hreplies, hend⟩ := items_all hvs
  have hdefined : (items look [] (wires vs)).2 ≠ .error none := by
    rw [hend]
    cases depthOf vs <;> simp
  obtain ⟨out, r, hrun⟩ := replies_isSome (by rwa [hbytes])
  obtain ⟨t, hrep, hitems⟩ := replies_follow hrun
  rw [hbytes] at hitems
  have hrest : (goOn look t []).2 ≠ .error none := by
    rw [hitems] at hdefined
    exact hdefined
  obtain ⟨⟨ok, q, x⟩, hget⟩ := Option.isSome_iff_exists.1 (getReply_isSome hrep hrest)
  refine ⟨out, r, ok, q, x, hrun, hget, ?_, ?_⟩
  · have hmore : replies (calls ++ [.getReply]) = some (out ++ x.toList, q) := by
      rw [replies, List.foldlM_append]
      rw [replies] at hrun
      rw [hrun]
      simp [Call.exec, hget]
    obtain ⟨t', -, hitems'⟩ := replies_follow hmore
    rw [List.flatMap_append, hbytes] at hitems'
    have hnone : [Call.getReply].flatMap Call.bytes = [] := rfl
    rw [hnone, List.append_nil] at hitems'
    exact ⟨_, (congrArg Prod.fst hitems').symm.trans hreplies⟩
  · rintro rfl
    obtain ⟨e, hgo, hq, -⟩ := goOn_of_getReply hrep hget
    rw [hgo, List.append_nil] at hitems
    rw [hitems] at hreplies hend
    refine ⟨hreplies, ?_⟩
    obtain rfl : e = _ := hend
    cases hdepth : depthOf vs with
    | none =>
      rw [hdepth] at hq
      exact hq.1.1
    | some e =>
      rw [hdepth] at hq
      exact hq.1.1

/-- An array in an array, in two pieces. -/
theorem replies_of_wires_nested :
    let v : RedisReply := .array 2 [.array 1 [.integer (-7)], .string (ascii "a\r\n")]
    ∃ r, replies [.feed (v.wire.take 9), .getReply, .feed (v.wire.drop 9), .getReply] =
      some ([v], r) := by
  intro v
  have hgot : ((replies [.feed (v.wire.take 9), .getReply, .feed (v.wire.drop 9),
      .getReply]).any fun t => t.1.length = 1) = true := by decide +kernel
  have hint : (-7 : Int).natAbs < 2 ^ 63 := by decide
  have hstr : (ascii "a\r\n").length < 2 ^ 63 := by decide
  have hv : allWritable [v] :=
    ⟨⟨rfl, by decide, ⟨rfl, by decide, hint, trivial⟩, hstr, trivial⟩, trivial⟩
  have hbytes : [Call.feed (v.wire.take 9), .getReply, .feed (v.wire.drop 9),
      .getReply].flatMap Call.bytes = wires [v] := by
    simp [Call.bytes, wires]
  obtain ⟨out, r, ok, q, x, hrun, -, hprefix, -⟩ := replies_of_wires hv hbytes
  have hshallow : Shallow v := by decide
  rw [List.takeWhile_cons_of_pos (by simpa using hshallow), List.takeWhile_nil] at hprefix
  rw [hrun, Option.any_some, decide_eq_true_eq] at hgot
  have hout : out = [v] := ((List.prefix_append _ _).trans hprefix).eq_of_length hgot
  exact ⟨r, hout ▸ hrun⟩

end Values

section First

variable {s s' : List ReadTask} {b b' : Bytes} {n : Nat} {x : Option RedisReply}

/-- The stack is empty behind a reply and only there. -/
theorem look_empty (h : look s b = some (.ok (s', n, x))) : x.isSome ↔ s' = [] := by
  rw [look] at h
  split at h
  · cases h
  · split at h
    · exact ((typed_settled _ _ _).takes h).2
    · split at h
      · cases h
      · split at h
        · simp at h
        · simp only [Option.some.injEq, Except.ok.injEq, Prod.mk.injEq] at h
          obtain ⟨rfl, -, rfl⟩ := h
          simp

/-- Without a reply the stack does not become empty. -/
theorem items_stack (hs : s ≠ []) (h : items look s b = ([], .ok (s', b'))) : s' ≠ [] := by
  induction hlen : b.length using Nat.strongRecOn generalizing s b with
  | ind len ih =>
    cases hlook : look s b with
    | none =>
      rw [Lib.Stream.items_none hlook] at h
      obtain ⟨rfl, -⟩ : s = s' ∧ b = b' := by simpa using h
      exact hs
    | some r =>
      cases r with
      | error e =>
        rw [Lib.Stream.items_error hlook] at h
        simp at h
      | ok r =>
        obtain ⟨s₁, n, x⟩ := r
        obtain ⟨hn, hle⟩ := steady_look.takes hlook
        rw [Lib.Stream.items_ok steady_look hlook] at h
        obtain ⟨hnil, hend⟩ := Prod.mk.inj h
        obtain ⟨hx, hrest⟩ := List.append_eq_nil_iff.1 hnil
        have hs₁ : s₁ ≠ [] := by
          intro heq
          obtain ⟨y, rfl⟩ := Option.isSome_iff_exists.1 ((look_empty hlook).2 heq)
          cases hx
        exact ih _ (by rw [← hlen, List.length_drop]; omega) hs₁ (Prod.ext hrest hend) rfl

/-- Nothing is left when no reply has begun. -/
theorem items_none_left (h : items look [] b = ([], .ok ([], []))) : b = [] := by
  cases b with
  | nil => rfl
  | cons c b =>
    cases hc : typeOf c with
    | none =>
      have hlook : look [] (c :: b) = some (.error (some (protocolByte c))) := by
        show look [.item (-1)] (c :: b) = _
        rw [look_untyped rfl, hc]
      rw [Lib.Stream.items_error hlook] at h
      simp at h
    | some type =>
      have hlook : look [] (c :: b) =
          some (.ok ([{ ReadTask.item (-1) with type := some type }], 1, none)) := by
        show look [.item (-1)] (c :: b) = _
        rw [look_untyped rfl, hc]
      rw [Lib.Stream.items_ok steady_look hlook] at h
      exact absurd rfl (items_stack (List.cons_ne_nil _ _) h)

/-- The first reply is taken off the front of the stream. -/
theorem readOne_wire {v : RedisReply} (hv : v.Writable) (hshallow : Shallow v) (rest : Bytes)
    {k : Nat} (hk : (v.wire ++ rest).length < k) :
    readOne look k [] (v.wire ++ rest) = (some v, .ok ([], rest)) := by
  have hitem : items look [] v.wire = ([v], .ok ([], [])) := by
    have hread := @items_wire v (.item (-1)) [] [] hv rfl (Nat.zero_le _)
    have hfirst := items_first v []
    rw [List.append_nil] at hread hfirst
    rw [hfirst, hread, if_pos (by rw [List.length_nil, Nat.zero_add]; exact hshallow)]
    rfl
  have hone := Lib.Stream.readOne_items steady_look (s := []) (b := v.wire) (Nat.lt_succ_self _)
  rw [hitem] at hone
  have hfound : readOne look (v.wire.length + 1) [] v.wire = (some v, .ok ([], [])) := by
    cases hx : (readOne look (v.wire.length + 1) [] v.wire).1 with
    | none =>
      exfalso
      cases hend : (readOne look (v.wire.length + 1) [] v.wire).2 with
      | error e =>
        rw [hx, hend] at hone
        simp at hone
      | ok t =>
        have hwaits : Exhausted look (.ok t : End UInt8 (List ReadTask) _) :=
          Lib.Stream.readOne_waits steady_look (Nat.lt_succ_self _) (Prod.ext hx hend)
        rw [hx, hend, Lib.Stream.goOn_exhausted hwaits] at hone
        simp at hone
    | some y =>
      cases hend : (readOne look (v.wire.length + 1) [] v.wire).2 with
      | error e =>
        rw [Lib.Stream.readOne_error hend] at hx
        cases hx
      | ok t =>
        obtain ⟨s₁, b₁⟩ := t
        have hpair : readOne look (v.wire.length + 1) [] v.wire = (some y, .ok (s₁, b₁)) :=
          Prod.ext hx hend
        obtain ⟨s₂, b₂, n, hlook⟩ := Lib.Stream.readOne_found hpair
        obtain rfl : s₁ = [] := (look_empty hlook).1 rfl
        rw [hpair, Lib.Stream.goOn_ok, List.append_nil] at hone
        obtain ⟨hlist, hlast⟩ := Prod.mk.inj hone
        obtain ⟨rfl, hnil⟩ : v = y ∧ (items look [] b₁).1 = [] := by simpa using hlist
        obtain rfl := items_none_left (Prod.ext hnil hlast.symm)
        rw [hpair]
  exact Lib.Stream.readOne_append steady_look hfound rest hk

end First

end Doorhinges.Hiredis

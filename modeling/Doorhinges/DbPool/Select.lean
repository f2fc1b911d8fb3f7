import Doorhinges.DbPool.Model
import Doorhinges.Lib.Cells
import Doorhinges.Lib.Sweep
import Doorhinges.Query.Roundtrip

/-!
# The cells of a selection

`db_select` converts the fetched rows into the caller's array of descriptors, which is flat.
Each cell is converted once; two conversions do not do what the type of the target asks for.
The rows that the model of the pool gives its callers are the values of these targets.
-/
namespace Doorhinges.DbPool

open Lib.CString
open Lib.Cells
open Lib.Sweep
open Doorhinges.Query (cstr cstr_nul cstr_of_nul cstr_append)

/-- A descriptor of type `data_fmt_t` with what its target holds; the length of a string
descriptor is that of its buffer. -/
inductive Target where
  | int (value : Int)
  | longlong (value : Int)
  | str (buf : Bytes)
  deriving DecidableEq

/-- `strncpy`: the text up to its terminator, padded with zero bytes. -/
def strncpy (buf src : Bytes) (len : Nat) : Option Bytes :=
  store buf 0 ((cstr src).take len ++ List.replicate (len - (cstr src).length) 0)

/-- The two switches over the type; an absent column is NULL. -/
def storeCell : Target → Option Bytes → Option Target
  | .int _, some column =>
    let t_long := strtol column
    some (.int (if t_long > 0 then if t_long ≥ 0x7fffffff then 0x7fffffff else t_long else 0))
  | .longlong _, some column => some (.longlong (strtol column))
  | .str buf, some column => (strncpy buf column buf.length).map .str
  | .int _, none => some (.int 0)
  | .longlong _, none => some (.longlong 0)
  | .str buf, none => (store buf 0 [0]).map .str

/-- The place `i * col + j` in the arithmetic of ints. -/
def place (k : Nat) : Option Nat := if k < 2 ^ 31 then some k else none

/-- The columns of a row from the `j`-th on, `n` of them. -/
def fillRow (col i : Nat) (row : Row) : Nat → Nat → List Target → Option (List Target)
  | 0, _, pdb => some pdb
  | n + 1, j, pdb => do
    let k ← place (i * col + j)
    let p ← pdb[k]?
    let column ← row[j]?
    let p ← storeCell p column
    fillRow col i row n (j + 1) (pdb.set k p)

/-- The loop over the rows, from the `i`-th on; the result is the array and `*pretrows`. -/
def fetchRows (col : Nat) : Nat → Nat → List Row → List Target → Option (List Target × Nat)
  | 0, i, _, pdb => some (pdb, i)
  | _ + 1, i, [], pdb => some (pdb, i)
  | n + 1, i, row :: rows, pdb => do
    let pdb ← fillRow col i row col 0 pdb
    fetchRows col n (i + 1) rows pdb

/-- A call whose array has a place for every cell asked for, on a result with at least as many
columns. -/
structure Selection where
  rownum : Nat
  col : Nat
  recordset : List Row
  pdb : List Target
  columns : ∀ row ∈ recordset, col ≤ row.length
  places : rownum * col ≤ pdb.length

namespace Selection

variable (s : Selection)

def run : Option (List Target × Nat) := fetchRows s.col s.rownum 0 s.recordset s.pdb

def fetched : Nat := min s.rownum s.recordset.length

/-- What the result has for a place of the array. -/
def column (k : Nat) : Option (Option Bytes) :=
  s.recordset[k / s.col]?.bind fun row => row[k % s.col]?

end Selection

/-- An integer in the range of an int, or the nearer end of the range. -/
def saturated (n : Int) : Int := max (-2 ^ 31) (min n (2 ^ 31 - 1))

/-- What a target is to receive from a column. -/
def Received : Target → Option Bytes → Target → Prop
  | .int _, some column, p => p = .int (saturated (strtol column))
  | .longlong _, some column, p => p = .longlong (strtol column)
  | .str buf, some column, p => ∃ rest, p = .str ((cstr column).take (buf.length - 1) ++ 0 :: rest) ∧
      ((cstr column).take (buf.length - 1) ++ 0 :: rest).length = buf.length
  | .int _, none, p => p = .int 0
  | .longlong _, none, p => p = .longlong 0
  | .str buf, none, p => ∃ rest, p = .str (0 :: rest) ∧ (0 :: rest).length = buf.length

/-- The columns that are converted right: no negative number for an int, and no text that
leaves no room for its terminator. -/
def CellFits : Target → Option Bytes → Prop
  | .int _, some column => 0 ≤ strtol column
  | .str buf, some column => (cstr column).length < buf.length
  | .str buf, none => 0 < buf.length
  | _, _ => True

/-- The rows fetched are the first of the result, each target of theirs receives its column,
and the other ones keep what they held. -/
def Faithful (s : Selection) : Prop :=
  ∃ pdb, s.run = some (pdb, min s.rownum s.recordset.length) ∧
    (∀ i < min s.rownum s.recordset.length, ∀ j < s.col, ∃ p column p',
      s.pdb[i * s.col + j]? = some p ∧ (s.recordset[i]?.bind (·[j]?)) = some column ∧
        pdb[i * s.col + j]? = some p' ∧ Received p column p') ∧
    ∀ k, min s.rownum s.recordset.length * s.col ≤ k → pdb[k]? = s.pdb[k]?

/-- The places fit an int, and every cell fetched is one that is converted right. -/
def Convertible (s : Selection) : Prop :=
  s.fetched * s.col ≤ 2 ^ 31 ∧ ∀ i < s.fetched, ∀ j < s.col, ∀ p column,
    s.pdb[i * s.col + j]? = some p → s.recordset[i]?.bind (·[j]?) = some column →
      CellFits p column

section Cell

variable {buf : Bytes}

/-- `strncpy` fills the buffer. -/
theorem strncpy_eq (buf src : Bytes) : strncpy buf src buf.length =
    some ((cstr src).take buf.length ++ List.replicate (buf.length - (cstr src).length) 0) := by
  have hlen : ((cstr src).take buf.length ++
      List.replicate (buf.length - (cstr src).length) 0).length = buf.length := by
    rw [List.length_append, List.length_take, List.length_replicate]
    omega
  have hstore := @store_append UInt8 [] buf _ hlen.le
  rw [hlen, List.drop_length, List.append_nil] at hstore
  exact hstore

theorem store_nul (h : 0 < buf.length) : store buf 0 [0] = some (0 :: buf.drop 1) :=
  @store_append UInt8 [] buf [0] h

theorem received_int (n : Int) :
    (if n > 0 then if n ≥ 0x7fffffff then 0x7fffffff else n else 0) = saturated n ↔ 0 ≤ n := by
  rw [saturated]
  split
  · split <;> omega
  · omega

/-- A text that is not shorter than the buffer fills it without a terminator. -/
theorem received_str (text : Bytes) (h0 : 0 ∉ text) (len : Nat) :
    (∃ rest, text.take len ++ List.replicate (len - text.length) 0 =
      text.take (len - 1) ++ 0 :: rest ∧ (text.take (len - 1) ++ 0 :: rest).length = len) ↔
        text.length < len := by
  constructor
  · rintro ⟨rest, heq, hlen⟩
    by_contra hle
    rw [Nat.sub_eq_zero_of_le (by omega), List.replicate_zero, List.append_nil] at heq
    exact h0 (List.mem_of_mem_take (heq ▸ List.mem_append_right _ List.mem_cons_self))
  · intro hlt
    obtain ⟨k, hk⟩ := Nat.exists_eq_add_of_lt hlt
    have hpad : len - text.length = k + 1 := by omega
    rw [List.take_of_length_le (by omega), List.take_of_length_le (by omega), hpad,
      List.replicate_succ]
    refine ⟨List.replicate k 0, rfl, ?_⟩
    rw [List.length_append, List.length_cons, List.length_replicate]
    omega

/-- A cell is converted as its target asks for exactly if it fits. -/
theorem storeCell_iff (p : Target) (column : Option Bytes) :
    (∃ p', storeCell p column = some p' ∧ Received p column p') ↔ CellFits p column := by
  cases column with
  | none =>
    cases p with
    | int n => exact ⟨fun _ => trivial, fun _ => ⟨_, rfl, rfl⟩⟩
    | longlong n => exact ⟨fun _ => trivial, fun _ => ⟨_, rfl, rfl⟩⟩
    | str buf =>
      constructor
      · rintro ⟨p', hp', -⟩
        obtain ⟨b, hb, -⟩ := Option.map_eq_some_iff.1 hp'
        exact (store_eq_some hb).1
      · intro hpos
        refine ⟨_, by rw [storeCell, store_nul hpos, Option.map_some], buf.drop 1, rfl, ?_⟩
        rw [List.length_cons, List.length_drop, Nat.sub_add_cancel hpos]
  | some column =>
    cases p with
    | int n =>
      constructor
      · rintro ⟨p', hp', hreceived⟩
        obtain rfl := Option.some.inj hp'
        exact (received_int _).1 (Target.int.inj hreceived)
      · intro h
        exact ⟨_, rfl, congrArg Target.int ((received_int _).2 h)⟩
    | longlong n => exact ⟨fun _ => trivial, fun _ => ⟨_, rfl, rfl⟩⟩
    | str buf =>
      have hiff := received_str (cstr column) (cstr_nul column) buf.length
      rw [storeCell, strncpy_eq, Option.map_some]
      constructor
      · rintro ⟨p', hp', rest, hrest, hlen⟩
        obtain rfl := Option.some.inj hp'
        exact hiff.1 ⟨rest, Target.str.inj hrest, hlen⟩
      · intro h
        obtain ⟨rest, hrest, hlen⟩ := hiff.2 h
        exact ⟨_, rfl, rest, congrArg Target.str hrest, hlen⟩

end Cell

section Loops

variable (s : Selection)

/-- What the loops do at a place. -/
def Selection.step (k : Nat) (p : Target) : Option Target := do
  let _ ← place k
  let column ← s.column k
  storeCell p column

variable {s}

theorem column_at {i j : Nat} (hj : j < s.col) :
    s.column (i * s.col + j) = s.recordset[i]?.bind (·[j]?) := by
  have hdiv : (i * s.col + j) / s.col = i := by
    rw [Nat.mul_comm, Nat.mul_add_div (by omega), Nat.div_eq_of_lt (by omega), Nat.add_zero]
  have hmod : (i * s.col + j) % s.col = j := by
    rw [Nat.mul_comm, Nat.mul_add_mod, Nat.mod_eq_of_lt (by omega)]
  rw [Selection.column, hdiv, hmod]

theorem fillRow_eq {i : Nat} {row : Row} (hrow : s.recordset[i]? = some row) {n j : Nat}
    (hj : j + n ≤ s.col) (pdb : List Target) :
    fillRow s.col i row n j pdb = sweep s.step n (i * s.col + j) pdb := by
  induction n generalizing j pdb with
  | zero => rfl
  | succ n ih =>
    have hcolumn : s.column (i * s.col + j) = row[j]? := by
      rw [column_at (by omega), hrow, Option.bind_some]
    rw [fillRow, sweep]
    by_cases hint : i * s.col + j < 2 ^ 31
    · have hplace : place (i * s.col + j) = some (i * s.col + j) := if_pos hint
      simp only [Selection.step, hplace, hcolumn, Option.bind_eq_bind, Option.bind_some,
        Option.bind_assoc, ih (show j + 1 + n ≤ s.col by omega), Nat.add_assoc]
    · have hplace : place (i * s.col + j) = none := if_neg hint
      simp [Selection.step, hplace]

theorem fetchRows_eq {n i : Nat} {rows : List Row} (hrows : s.recordset.drop i = rows)
    (pdb : List Target) : fetchRows s.col n i rows pdb =
      (sweep s.step (min n rows.length * s.col) (i * s.col) pdb).map
        fun pdb => (pdb, i + min n rows.length) := by
  induction n generalizing i rows pdb with
  | zero =>
    rw [Nat.zero_min, Nat.zero_mul]
    rfl
  | succ n ih =>
    cases rows with
    | nil =>
      rw [List.length_nil, Nat.min_zero, Nat.zero_mul]
      rfl
    | cons row rows =>
      have hi : i < s.recordset.length := by
        by_contra hge
        rw [List.drop_of_length_le (by omega)] at hrows
        cases hrows
      rw [List.drop_eq_getElem_cons hi] at hrows
      obtain ⟨hrow, hrest⟩ := List.cons.inj hrows
      have hget : s.recordset[i]? = some row := by rw [List.getElem?_eq_getElem hi, hrow]
      have hcount : min (n + 1) (row :: rows).length * s.col =
          s.col + min n rows.length * s.col := by
        rw [List.length_cons, Nat.succ_min_succ, Nat.succ_mul, Nat.add_comm]
      have hnext : i * s.col + s.col = (i + 1) * s.col := (Nat.succ_mul i s.col).symm
      rw [fetchRows, fillRow_eq hget (by omega), hcount, sweep_add, Nat.add_zero, hnext]
      cases sweep s.step s.col (i * s.col) pdb with
      | none => rfl
      | some pdb' =>
        have hpretrows : i + 1 + min n rows.length = i + min (n + 1) (row :: rows).length := by
          rw [List.length_cons]
          omega
        rw [Option.bind_eq_bind, Option.bind_some, ih hrest, Option.bind_some, hpretrows]

theorem run_eq : s.run = (sweep s.step (s.fetched * s.col) 0 s.pdb).map (·, s.fetched) := by
  have hrun := @fetchRows_eq s s.rownum 0 s.recordset List.drop_zero s.pdb
  rw [Nat.zero_mul] at hrun
  simpa [Selection.run, Selection.fetched] using hrun

/-- The places of the rows fetched. -/
theorem place_lt {i j : Nat} (hi : i < s.fetched) (hj : j < s.col) :
    i * s.col + j < s.fetched * s.col :=
  calc i * s.col + j < (i + 1) * s.col := by rw [Nat.succ_mul]; omega
    _ ≤ s.fetched * s.col := Nat.mul_le_mul_right _ hi

theorem pdb_at {k : Nat} (hk : k < s.fetched * s.col) : ∃ p, s.pdb[k]? = some p := by
  have hlt : k < s.pdb.length :=
    calc k < s.fetched * s.col := hk
      _ ≤ s.rownum * s.col := Nat.mul_le_mul_right _ (Nat.min_le_left _ _)
      _ ≤ s.pdb.length := s.places
  exact ⟨_, List.getElem?_eq_getElem hlt⟩

theorem column_isSome {i j : Nat} (hi : i < s.fetched) (hj : j < s.col) :
    ∃ column, s.recordset[i]?.bind (·[j]?) = some column := by
  have hi : i < s.recordset.length := hi.trans_le (Nat.min_le_right _ _)
  have hj : j < s.recordset[i].length := hj.trans_le (s.columns _ (List.getElem_mem hi))
  exact ⟨_, by rw [List.getElem?_eq_getElem hi, Option.bind_some, List.getElem?_eq_getElem hj]⟩

theorem visit_at {i j : Nat} {p : Target} {column : Option Bytes} (hj : j < s.col)
    (hp : s.pdb[i * s.col + j]? = some p)
    (hcolumn : s.recordset[i]?.bind (·[j]?) = some column) (hint : i * s.col + j < 2 ^ 31) :
    visit s.step s.pdb (i * s.col + j) = storeCell p column := by
  have hplace : place (i * s.col + j) = some (i * s.col + j) := if_pos hint
  rw [visit, hp, Option.bind_some, Selection.step, hplace, column_at hj, hcolumn]
  rfl

/-- A place fetched is that of a row and a column. -/
theorem exists_cell {k : Nat} (hk : k < s.fetched * s.col) :
    ∃ i < s.fetched, ∃ j < s.col, i * s.col + j = k := by
  have hcol : 0 < s.col := Nat.pos_of_ne_zero fun h0 => by
    rw [h0, Nat.mul_zero] at hk
    omega
  exact ⟨k / s.col, (Nat.div_lt_iff_lt_mul hcol).2 hk, k % s.col, Nat.mod_lt _ hcol,
    Nat.div_add_mod' k s.col⟩

theorem visit_int {k : Nat} (h : (visit s.step s.pdb k).isSome) : k < 2 ^ 31 := by
  by_contra hge
  have hplace : place k = none := if_neg hge
  have hstep : s.step k = fun _ => none := by
    funext p
    rw [Selection.step, hplace]
    rfl
  rw [visit, hstep, Option.bind_fun_none] at h
  cases h

/-- A run that is defined has converted each cell from what the array held at first. -/
theorem run_visits {pdb : List Target} {pretrows : Nat} (h : s.run = some (pdb, pretrows)) :
    (∀ k < s.fetched * s.col, (visit s.step s.pdb k).isSome) ∧
      ∀ k < s.fetched * s.col, pdb[k]? = visit s.step s.pdb k := by
  rw [run_eq] at h
  obtain ⟨pdb', hsweep, hpair⟩ := Option.map_eq_some_iff.1 h
  obtain ⟨rfl, -⟩ := Prod.mk.inj hpair
  have hvisit : ∀ k < s.fetched * s.col, (visit s.step s.pdb k).isSome := fun k hk =>
    visit_isSome hsweep (Nat.zero_le k) (by omega)
  obtain ⟨mem, hmem, hget⟩ := @sweep_eq_some _ s.step (s.fetched * s.col) 0 s.pdb
    fun k _ hk => hvisit k (by omega)
  obtain rfl := Option.some.inj (hsweep.symm.trans hmem)
  exact ⟨hvisit, fun k hk => by rw [hget, if_pos (by omega)]⟩

end Loops

section Values

/-- What the caller reads from a target. -/
def Target.value : Target → DataValue
  | .int n => .int n
  | .longlong n => .longlong n
  | .str buf => .str (cstr buf)

/-- The format of a descriptor; only a string has a length. -/
def Target.fmt : Target → DataFmt
  | .int _ => ⟨.intType, 0⟩
  | .longlong _ => ⟨.longlongType, 0⟩
  | .str buf => ⟨.strType, buf.length⟩

/-- The formats of the array, row by row. -/
def Selection.formats (s : Selection) : List (List DataFmt) :=
  (List.range s.rownum).map fun i => ((s.pdb.drop (i * s.col)).take s.col).map Target.fmt

theorem storeCell_value {p p' : Target} {column : Option Bytes}
    (h : storeCell p column = some p') : p'.value = convert p.fmt column := by
  cases column with
  | none =>
    cases p with
    | int n => obtain rfl := Option.some.inj h; rfl
    | longlong n => obtain rfl := Option.some.inj h; rfl
    | str buf =>
      obtain ⟨b, hb, rfl⟩ := Option.map_eq_some_iff.1 h
      obtain rfl := Option.some.inj ((store_nul (store_eq_some hb).1).symm.trans hb)
      rfl
  | some column =>
    cases p with
    | int n =>
      obtain rfl := Option.some.inj h
      refine congrArg DataValue.int ?_
      rw [Int.min_def]
      split <;> omega
    | longlong n => obtain rfl := Option.some.inj h; rfl
    | str buf =>
      rw [storeCell, strncpy_eq, Option.map_some] at h
      obtain rfl := Option.some.inj h
      refine congrArg DataValue.str ?_
      have hplain : 0 ∉ (cstr column).take buf.length :=
        fun h0 => cstr_nul column (List.mem_of_mem_take h0)
      cases buf.length - (cstr column).length with
      | zero => rw [List.replicate_zero, List.append_nil, cstr_of_nul hplain]; rfl
      | succ k => rw [List.replicate_succ, cstr_append, cstr_of_nul hplain]; rfl

variable {s : Selection}

theorem formats_at {i j : Nat} {p : Target} (hi : i < s.rownum) (hj : j < s.col)
    (hp : s.pdb[i * s.col + j]? = some p) :
    ∃ row, s.formats[i]? = some row ∧ row[j]? = some p.fmt := by
  refine ⟨((s.pdb.drop (i * s.col)).take s.col).map Target.fmt, ?_, ?_⟩
  · rw [Selection.formats, List.getElem?_map, List.getElem?_range hi, Option.map_some]
  · rw [List.getElem?_map, List.getElem?_take_of_lt hj, List.getElem?_drop, hp, Option.map_some]

/-- The rows that `dbSelect` has for these formats are the values of the targets. -/
theorem run_values {pdb : List Target} {pretrows : Nat} (h : s.run = some (pdb, pretrows)) :
    pretrows = (List.zipWith (List.zipWith convert) s.formats s.recordset).length ∧
      ∀ i < pretrows, ∀ j < s.col, (pdb[i * s.col + j]?).map Target.value =
        (List.zipWith (List.zipWith convert) s.formats s.recordset)[i]?.bind (·[j]?) := by
  obtain ⟨hvisit, hget⟩ := run_visits h
  have hcount : pretrows = s.fetched := by
    rw [run_eq] at h
    obtain ⟨pdb', -, hpair⟩ := Option.map_eq_some_iff.1 h
    exact (Prod.mk.inj hpair).2.symm
  subst hcount
  refine ⟨?_, fun i hi j hj => ?_⟩
  · rw [List.length_zipWith, Selection.formats, List.length_map, List.length_range]
    rfl
  · have hk := place_lt hi hj
    obtain ⟨p, hp⟩ := pdb_at hk
    obtain ⟨column, hcolumn⟩ := column_isSome hi hj
    obtain ⟨p', hp'⟩ := Option.isSome_iff_exists.1 (hvisit _ hk)
    have hstore := visit_at hj hp hcolumn (visit_int (hvisit _ hk))
    obtain ⟨row, hrow, hcell⟩ := Option.bind_eq_some_iff.1 hcolumn
    obtain ⟨fmts, hfmts, hfmt⟩ := formats_at (hi.trans_le (Nat.min_le_left _ _)) hj hp
    rw [hget _ hk, hp', Option.map_some, storeCell_value (hstore.symm.trans hp'),
      List.getElem?_zipWith_eq_some.2 ⟨fmts, row, hfmts, hrow, rfl⟩, Option.bind_some,
      List.getElem?_zipWith_eq_some.2 ⟨p.fmt, column, hfmt, hcell, rfl⟩]

end Values

/-- The selections whose cells are all converted as their targets ask for. -/
theorem db_select_faithful_iff (s : Selection) : Faithful s ↔ Convertible s := by
  constructor
  · rintro ⟨pdb, hrun, hcells, -⟩
    obtain ⟨hvisit, hget⟩ := run_visits hrun
    refine ⟨?_, fun i hi j hj p column hp hcolumn => ?_⟩
    · by_contra hgt
      have := visit_int (hvisit (2 ^ 31) (by omega))
      omega
    · obtain ⟨p₀, column₀, p', hp₀, hcolumn₀, hp', hreceived⟩ := hcells i hi j hj
      obtain rfl := Option.some.inj (hp.symm.trans hp₀)
      obtain rfl := Option.some.inj (hcolumn.symm.trans hcolumn₀)
      have hk := place_lt hi hj
      have hstore := visit_at hj hp hcolumn (visit_int (hvisit _ hk))
      exact (storeCell_iff p column).1 ⟨p', by rw [← hstore, ← hget _ hk, hp'], hreceived⟩
  · rintro ⟨hint, hfits⟩
    have hcell : ∀ i < s.fetched, ∀ j < s.col, ∃ p column p', s.pdb[i * s.col + j]? = some p ∧
        s.recordset[i]?.bind (·[j]?) = some column ∧
          visit s.step s.pdb (i * s.col + j) = some p' ∧ Received p column p' := by
      intro i hi j hj
      have hk := place_lt hi hj
      obtain ⟨p, hp⟩ := pdb_at hk
      obtain ⟨column, hcolumn⟩ := column_isSome hi hj
      obtain ⟨p', hp', hreceived⟩ := (storeCell_iff p column).2 (hfits i hi j hj p column hp hcolumn)
      exact ⟨p, column, p', hp, hcolumn, by rw [visit_at hj hp hcolumn (by omega), hp'], hreceived⟩
    obtain ⟨pdb, hsweep, hget⟩ := @sweep_eq_some _ s.step (s.fetched * s.col) 0 s.pdb
      fun k _ hk => by
        obtain ⟨i, hi, j, hj, rfl⟩ := exists_cell (s := s) (by omega : k < s.fetched * s.col)
        obtain ⟨-, -, p', -, -, hp', -⟩ := hcell i hi j hj
        exact Option.isSome_of_eq_some hp'
    refine ⟨pdb, by rw [run_eq, hsweep]; rfl, fun i hi j hj => ?_, fun k hk => ?_⟩
    · have hk := place_lt hi hj
      obtain ⟨p, column, p', hp, hcolumn, hp', hreceived⟩ := hcell i hi j hj
      exact ⟨p, column, p', hp, hcolumn, by rw [hget, if_pos (by omega), hp'], hreceived⟩
    · have hk : s.fetched * s.col ≤ k := hk
      rw [hget, if_neg (by omega)]

/-- A row of two columns, the number `-5` and the text `abc`. -/
def discount : Selection where
  rownum := 1
  col := 2
  recordset := [[some (ascii "-5"), some (ascii "abc")]]
  pdb := [.int 7, .str [0, 0, 0]]
  columns := by decide
  places := by decide

/-- The negative number is stored as 0, and the text without a terminator. -/
theorem discount_stored : discount.run = some ([.int 0, .str (ascii "abc")], 1) := by rfl

theorem not_faithful : ¬ Faithful discount := by
  rintro ⟨pdb, hrun, hcells, -⟩
  obtain ⟨p, column, p', hp, hcolumn, hp', hreceived⟩ := hcells 0 (by decide) 0 (by decide)
  obtain ⟨rfl, -⟩ := Prod.mk.inj (Option.some.inj (discount_stored.symm.trans hrun))
  obtain rfl := Option.some.inj hp
  obtain rfl := Option.some.inj hcolumn
  obtain rfl := Option.some.inj hp'
  exact absurd (Target.int.inj hreceived) (by decide)

end Doorhinges.DbPool

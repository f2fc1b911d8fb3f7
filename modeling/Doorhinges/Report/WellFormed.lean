import Doorhinges.Report.Document
import Mathlib.Data.Bool.AllAny

/-!
# Well-formed reports

The objects of the rows stand side by side without a comma, so a JSON report has one row at
most. An XML report has any number of them.
-/
namespace Doorhinges.Report

open Lib
open Lib.CString
open Query

/-- A byte of a string without quotes, backslashes or markup. -/
def PlainByte (c : UInt8) : Prop := c ≠ 0 ∧ c ≠ 34 ∧ c ≠ 92 ∧ c ≠ 60 ∧ c ≠ 62 ∧ c ≠ 38

instance (c : UInt8) : Decidable (PlainByte c) :=
  inferInstanceAs (Decidable (c ≠ 0 ∧ c ≠ 34 ∧ c ≠ 92 ∧ c ≠ 60 ∧ c ≠ 62 ∧ c ≠ 38))

structure Row.Plain (r : Row) : Prop where
  dat : ∀ c ∈ r.dat, PlainByte c
  appId : ∀ c ∈ r.appId, PlainByte c

/-- The format can show the byte in a string. -/
def Shows (xml : Bool) (c : UInt8) : Prop := if xml then Xml.IsChar c else 32 ≤ c

instance (xml : Bool) (c : UInt8) : Decidable (Shows xml c) :=
  inferInstanceAs (Decidable (if xml then Xml.IsChar c else 32 ≤ c))

/-- The format can show the strings of the row that are printed. -/
structure Row.Shown (xml : Bool) (flag : Flags) (r : Row) : Prop where
  dat : ∀ c ∈ r.dat, Shows xml c
  appId : flag.appId = true → ∀ c ∈ r.appId, Shows xml c

/-- The text is the report of these rows. -/
def IsReport (xml : Bool) (flag : Flags) (rows : List Row) (s : Bytes) : Prop :=
  if xml then Xml.Document (ascii "result") (xmlReport flag rows) s
  else Json.parse s = some (jsonReport flag rows)

section Json

open Json (Value)

variable {flag : Flags} {r : Row} {rows : List Row} {lits strs : Bytes → Prop} {b : Bool}

theorem allElements_map {f : Row → Value} :
    Json.allElements lits strs (rows.map f) ↔ ∀ r ∈ rows, (f r).All lits strs := by
  induction rows with
  | nil => simp [Json.allElements]
  | cons r rows ih => rw [List.map_cons, Json.allElements, ih, List.forall_mem_cons]

theorem allMembers_append {ms ns : List (Bytes × Value)} :
    Json.allMembers lits strs (ms ++ ns) ↔
      Json.allMembers lits strs ms ∧ Json.allMembers lits strs ns := by
  induction ms with
  | nil => simp [Json.allMembers]
  | cons m ms ih => rw [List.cons_append, Json.allMembers, Json.allMembers, ih, and_assoc, and_assoc]

theorem allMembers_column {k : Bytes} {v : Value} :
    Json.allMembers lits strs (column b (k, v)) ↔ (b = true → strs k ∧ v.All lits strs) := by
  cases b <;> simp [column, Json.allMembers]

/-- What holds of the parts of an object. -/
theorem all_object (hname : ∀ k ∈ [ascii "date", ascii "devicetype", ascii "adspacetype",
      ascii "client", ascii "appid", ascii "request", ascii "impression", ascii "click"], strs k)
    (hlit : ∀ n, lits (decimal n)) :
    (jsonObject flag r).All lits strs ↔ strs r.dat ∧ (flag.appId = true → strs r.appId) := by
  simp only [List.forall_mem_cons] at hname
  obtain ⟨hdate, hdevice, hadspace, hclient, happid, hrequest, himpression, hclick, -⟩ := hname
  rw [jsonObject, Value.All, jsonMembers]
  simp [Json.allMembers, allMembers_append, allMembers_column, Value.All, hdate, hdevice, hadspace,
    hclient, happid, hrequest, himpression, hclick, hlit]

theorem all_report (hname : ∀ k ∈ [ascii "status", successCode, ascii "msg", successMsg,
      ascii "data"], strs k)
    (hname' : ∀ k ∈ [ascii "date", ascii "devicetype", ascii "adspacetype",
      ascii "client", ascii "appid", ascii "request", ascii "impression", ascii "click"], strs k)
    (hlit : ∀ n, lits (decimal n)) :
    (jsonReport flag rows).All lits strs ↔
      ∀ r ∈ rows, strs r.dat ∧ (flag.appId = true → strs r.appId) := by
  simp only [List.forall_mem_cons] at hname
  obtain ⟨hstatus, hcode, hmsg, htext, hdata, -⟩ := hname
  have hrows : Json.allElements lits strs (rows.map (jsonObject flag)) ↔
      ∀ r ∈ rows, strs r.dat ∧ (flag.appId = true → strs r.appId) :=
    allElements_map.trans (forall₂_congr fun r _ => all_object hname' hlit)
  rw [jsonReport, Value.All]
  simp [Json.allMembers, Value.All, hstatus, hcode, hmsg, htext, hdata, hrows]

theorem escapeFree_of_plain {s : Bytes} (h : ∀ c ∈ s, PlainByte c) : Json.EscapeFree s :=
  fun c hc => ⟨(h c hc).2.1, (h c hc).2.2.1⟩

instance (s : Bytes) : Decidable (Json.EscapeFree s) :=
  List.decidableBAll (fun c => c ≠ 34 ∧ c ≠ 92) s

instance (s : Bytes) : Decidable (Json.Printable s) :=
  List.decidableBAll (fun c => 32 ≤ c) s

theorem object_plain (h : r.Plain) : (jsonObject flag r).Plain :=
  (all_object (by decide) Json.decimal_literal).2
    ⟨escapeFree_of_plain h.dat, fun _ => escapeFree_of_plain h.appId⟩

theorem report_plain (h : ∀ r ∈ rows, r.Plain) : (jsonReport flag rows).Plain :=
  (all_report (by decide) (by decide) Json.decimal_literal).2 fun r hr =>
    ⟨escapeFree_of_plain (h r hr).dat, fun _ => escapeFree_of_plain (h r hr).appId⟩

theorem report_legible :
    (jsonReport flag rows).Legible ↔ ∀ r ∈ rows, r.Shown false flag := by
  rw [Value.Legible, all_report (by decide) (by decide) fun _ => trivial]
  exact forall₂_congr fun r _ => ⟨fun h => ⟨h.1, h.2⟩, fun h => ⟨h.dat, h.appId⟩⟩

theorem jsonText_head (flag : Flags) (r : Row) : ∃ t, jsonText flag r = 123 :: t :=
  ⟨_, by rw [jsonText_eq, jsonObject, Value.render]⟩

/-- At most one row: the text is that of the value. -/
theorem fullText_short (h : rows.length ≤ 1) :
    fullText false flag rows = (jsonReport flag rows).render := by
  have hbody : body false flag rows = Json.renderElements (rows.map (jsonObject flag)) := by
    match rows, h with
    | [], _ => rfl
    | [r], _ =>
      rw [List.map_singleton, Json.renderElements, ← jsonText_eq]
      exact List.append_nil _
  rw [fullText, hbody, jsonReport, Value.render]
  simp only [Json.renderMembers, Value.render, List.append_assoc, List.cons_append]
  rfl

/-- A second object follows the first one where a comma or the end should stand. -/
theorem fullText_long (hplain : ∀ r ∈ rows, r.Plain) (h : 1 < rows.length) :
    Json.parse (fullText false flag rows) = none := by
  obtain ⟨r, r', rows, rfl⟩ : ∃ r r' rest, rows = r :: r' :: rest := by
    match rows, h with
    | r :: r' :: rest, _ => exact ⟨r, r', rest, rfl⟩
  obtain ⟨t, ht⟩ := jsonText_head flag r
  obtain ⟨t', ht'⟩ := jsonText_head flag r'
  have hobject : (jsonObject flag r).Plain := object_plain (hplain r List.mem_cons_self)
  have hbrace : Json.Starts 123 := ⟨by decide, by decide, by decide⟩
  have helems := Json.elements_stuck (s := t' ++ (body false flag rows ++ tailOf false)) hobject
    hbrace (Json.Ends.cons (by decide))
  rw [← jsonText_eq, ht, List.cons_append] at helems
  have hdata := Json.members_stuck (k := ascii "data") (by decide)
    (Json.value_arr_stuck hbrace helems)
  have hmsg := Json.members_stuck_later (k := ascii "msg") (v := .str successMsg) (by decide)
    (by decide : Json.EscapeFree successMsg) hdata
  have hstatus := Json.members_stuck_later (k := ascii "status") (v := .str successCode) (by decide)
    (by decide : Json.EscapeFree successCode) hmsg
  have htext : fullText false flag (r :: r' :: rows) =
      123 :: 34 :: (ascii "status" ++ 34 :: 58 :: ((Value.str successCode).render ++ 44 :: 34 ::
        (ascii "msg" ++ 34 :: 58 :: ((Value.str successMsg).render ++ 44 :: 34 ::
        (ascii "data" ++ 34 :: 58 :: 91 :: 123 :: (t ++ 123 :: (t' ++
          (body false flag rows ++ tailOf false)))))))) := by
    have hbody : body false flag (r :: r' :: rows) =
        jsonText flag r ++ (jsonText flag r' ++ body false flag rows) := rfl
    rw [fullText, hbody, ht, ht']
    simp only [Value.render, List.append_assoc, List.cons_append]
    rfl
  rw [htext]
  exact Json.parse_stuck (Json.value_obj_stuck hstatus)

/-- A JSON report has at most one row, and legible strings. -/
theorem json_iff (hplain : ∀ r ∈ rows, r.Plain) :
    Json.parse (fullText false flag rows) = some (jsonReport flag rows) ↔
      rows.length ≤ 1 ∧ ∀ r ∈ rows, r.Shown false flag := by
  have hreport : (jsonReport flag rows).Plain := report_plain hplain
  by_cases h : rows.length ≤ 1
  · rw [fullText_short h, ← report_legible]
    constructor
    · intro hread
      exact ⟨h, (Json.parse_some hreport hread).2⟩
    · rintro ⟨-, hlegible⟩
      exact Json.parse_render hreport hlegible
  · rw [fullText_long hplain (by omega)]
    simp [h]

end Json

section Xml

open Xml (Node)

variable {flag : Flags} {r : Row} {rows : List Row} {b : Bool}

theorem decimal_charData (n : Int) : Xml.CharData (decimal n) := by
  have hdigit : ∀ c, isDigit c = true → Xml.IsChar c ∧ c ≠ 60 ∧ c ≠ 62 ∧ c ≠ 38 := by
    intro c hc
    have hbounds : 48 ≤ c ∧ c ≤ 57 := by simpa [isDigit] using hc
    have hne (b : UInt8) (hb : isDigit b = false) : c ≠ b := by
      rintro rfl
      rw [hc] at hb
      cases hb
    exact ⟨.inr (.inr (.inr (UInt8.le_trans (by decide) hbounds.1))), hne 60 (by decide),
      hne 62 (by decide), hne 38 (by decide)⟩
  intro c hc
  rw [decimal] at hc
  split at hc
  · rcases List.mem_cons.1 hc with rfl | hc
    · decide
    · exact hdigit c (decimalNat_digits _ c hc)
  · exact hdigit c (decimalNat_digits _ c hc)

theorem charData_iff {s : Bytes} (h : ∀ c ∈ s, PlainByte c) :
    Xml.CharData s ↔ ∀ c ∈ s, Shows true c := by
  refine forall₂_congr fun c hc => ⟨fun hchar => hchar.1, fun hshow => ⟨hshow, ?_⟩⟩
  obtain ⟨-, -, -, hmarkup⟩ := h c hc
  exact hmarkup

instance (s : Bytes) : Decidable (Xml.Name s) :=
  have : Decidable (∀ c ∈ s, Xml.IsLetter c) := List.decidableBAll Xml.IsLetter s
  inferInstanceAs (Decidable (s ≠ [] ∧ ∀ c ∈ s, Xml.IsLetter c))

instance (s : Bytes) : Decidable (Xml.CharData s) :=
  List.decidableBAll (fun c => Xml.IsChar c ∧ c ≠ 60 ∧ c ≠ 62 ∧ c ≠ 38) s

theorem leaf_wellFormed {name s : Bytes} (h : Xml.Name name) :
    (leaf name s).WellFormed ↔ Xml.CharData s := by
  simp [leaf, Node.WellFormed, Xml.AllWellFormed, h]

theorem allWellFormed_append {xs ys : List Node} :
    Xml.AllWellFormed (xs ++ ys) ↔ Xml.AllWellFormed xs ∧ Xml.AllWellFormed ys := by
  simp only [Xml.allWellFormed_iff, List.forall_mem_append]

theorem allWellFormed_column {x : Node} :
    Xml.AllWellFormed (column b x) ↔ (b = true → x.WellFormed) := by
  cases b <;> simp [column, Xml.AllWellFormed]

theorem info_wellFormed (h : r.Plain) : (xmlInfo flag r).WellFormed ↔ r.Shown true flag := by
  have hinfo : Xml.Name (ascii "info") := by decide
  rw [xmlInfo, Node.WellFormed, Xml.AllWellFormed, leaf_wellFormed (by decide),
    allWellFormed_append, allWellFormed_column, leaf_wellFormed (by decide), allWellFormed_append,
    allWellFormed_column, leaf_wellFormed (by decide), allWellFormed_append, allWellFormed_column,
    leaf_wellFormed (by decide), allWellFormed_append, allWellFormed_column,
    leaf_wellFormed (by decide), Xml.AllWellFormed, leaf_wellFormed (by decide), Xml.AllWellFormed,
    leaf_wellFormed (by decide), Xml.AllWellFormed, leaf_wellFormed (by decide), charData_iff h.dat,
    charData_iff h.appId]
  constructor
  · rintro ⟨-, hdat, -, -, -, happ, -⟩
    exact ⟨hdat, happ⟩
  · intro hshown
    exact ⟨hinfo, hshown.dat, fun _ => decimal_charData _, fun _ => decimal_charData _,
      fun _ => decimal_charData _, hshown.appId, decimal_charData _, decimal_charData _,
      decimal_charData _, trivial⟩

/-- An XML report is well formed where its strings may stand in a document. -/
theorem xml_iff (hplain : ∀ r ∈ rows, r.Plain) :
    Xml.Document (ascii "result") (xmlReport flag rows) (fullText true flag rows) ↔
      ∀ r ∈ rows, r.Shown true flag := by
  have htext : fullText true flag rows =
      Xml.declaration ++ (Node.elem (ascii "result") (xmlReport flag rows)).render := by
    have hbody : body true flag rows = Xml.renderAll (rows.map (xmlInfo flag)) := by
      rw [Xml.renderAll_eq, List.map_map]
      exact congrArg List.flatten (List.map_congr_left fun r _ => xmlText_eq flag r)
    rw [fullText, hbody]
    simp only [xmlReport, leaf, Node.render, Xml.renderAll, List.append_assoc, List.cons_append,
      List.append_nil]
    rfl
  have hrows : Xml.AllWellFormed (rows.map (xmlInfo flag)) ↔ ∀ r ∈ rows, r.Shown true flag := by
    rw [Xml.allWellFormed_iff, List.forall_mem_map]
    exact forall₂_congr fun r hr => info_wellFormed (hplain r hr)
  rw [Xml.Document, htext, and_iff_left rfl, xmlReport, Node.WellFormed, Xml.AllWellFormed,
    leaf_wellFormed (by decide), Xml.AllWellFormed, leaf_wellFormed (by decide), Xml.AllWellFormed,
    Node.WellFormed, Xml.AllWellFormed, hrows]
  constructor
  · rintro ⟨-, -, -, ⟨-, h⟩, -⟩
    exact h
  · intro h
    exact ⟨by decide, by decide, by decide, ⟨by decide, h⟩, trivial⟩

end Xml

section Reported

variable {xml : Bool} {flag : Flags} {rows : List Row}

/-- The rows make a report, or the answer is that they are too long. -/
def Reported (xml : Bool) (flag : Flags) (rows : List Row) : Prop :=
  if Fits xml flag rows then
    ∃ s, output xml flag rows = .text s ∧ IsReport xml flag rows s
  else output xml flag rows = .contextLong

theorem isReport_iff (hplain : ∀ r ∈ rows, r.Plain) :
    IsReport xml flag rows (fullText xml flag rows) ↔
      (xml = true ∨ rows.length ≤ 1) ∧ ∀ r ∈ rows, r.Shown xml flag := by
  cases xml with
  | false =>
    rw [IsReport, if_neg Bool.false_ne_true, json_iff hplain]
    simp
  | true =>
    rw [IsReport, if_pos rfl, xml_iff hplain]
    simp

/-- A report is made exactly of rows that fit, in JSON of one row at most, whose strings the
format can show. -/
theorem reported_iff (hplain : ∀ r ∈ rows, r.Plain) :
    Reported xml flag rows ↔ Fits xml flag rows ∧ (xml = true ∨ rows.length ≤ 1) ∧
      ∀ r ∈ rows, r.Shown xml flag := by
  have hout := output_eq xml flag rows
  rw [Reported, ← isReport_iff hplain]
  by_cases hfits : Fits xml flag rows
  · rw [if_pos (fits_iff.2 hfits)] at hout
    rw [if_pos hfits, hout, and_iff_right hfits]
    constructor
    · rintro ⟨s, hs, hreport⟩
      obtain rfl := Output.text.inj hs
      exact hreport
    · intro hreport
      exact ⟨_, rfl, hreport⟩
  · rw [if_neg (mt fits_iff.1 hfits)] at hout
    rw [if_neg hfits, hout]
    exact iff_of_false nofun fun h => hfits h.1

def noFlags : Flags := ⟨false, false, false, false⟩

/-- A row with a date. -/
def dayRow (dat : Bytes) : Row := ⟨dat, 0, 0, 0, [], 120, 7, -1⟩

theorem dayRow_plain {dat : Bytes} (h : (dat.all fun c => PlainByte c) = true) :
    (dayRow dat).Plain := ⟨List.all_iff_forall_prop.1 h, nofun⟩

theorem dayRow_shown {dat : Bytes} {xml : Bool} (h : (dat.all fun c => Shows xml c) = true) :
    (dayRow dat).Shown xml noFlags := ⟨List.all_iff_forall_prop.1 h, nofun⟩

/-- An XML report of two days. -/
theorem reported_two_days :
    Reported true noFlags [dayRow (ascii "2014-01-05"), dayRow (ascii "2014-01-06")] := by
  refine (reported_iff ?_).2 ⟨by decide, .inl rfl, ?_⟩
  · exact List.forall_mem_cons.2 ⟨dayRow_plain (by decide),
      List.forall_mem_singleton.2 (dayRow_plain (by decide))⟩
  · exact List.forall_mem_cons.2 ⟨dayRow_shown (by decide),
      List.forall_mem_singleton.2 (dayRow_shown (by decide))⟩

/-- A JSON report of two days is not one. -/
theorem rows_not_separated : ¬ ∀ (xml : Bool) (flag : Flags) (rows : List Row),
    (∀ r ∈ rows, r.Plain) → Reported xml flag rows := by
  intro hclaim
  have hplain : ∀ r ∈ [dayRow (ascii "2014-01-05"), dayRow (ascii "2014-01-06")], r.Plain :=
    List.forall_mem_cons.2 ⟨dayRow_plain (by decide),
      List.forall_mem_singleton.2 (dayRow_plain (by decide))⟩
  have hfits : Fits false noFlags [dayRow (ascii "2014-01-05"), dayRow (ascii "2014-01-06")] := by
    decide
  have hreported := hclaim false noFlags _ hplain
  rw [Reported, if_pos hfits, output_eq, if_pos (fits_iff.2 hfits)] at hreported
  obtain ⟨s, hs, hreport⟩ := hreported
  obtain rfl := Output.text.inj hs
  have hshort := ((isReport_iff hplain).1 hreport).1
  exact absurd hshort (by decide)

end Reported

end Doorhinges.Report

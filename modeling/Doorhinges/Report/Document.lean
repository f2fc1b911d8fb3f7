import Doorhinges.Report.Output

/-!
# The document as a whole

What the writes leave is compared with the rendering of one tree, an XML element or a JSON
value with one member of its data for each row.
-/
namespace Doorhinges.Report

open Lib
open Lib.CString
open Lib.Logged
open Query

section Appended

/-- The run puts `s` behind the text, and no write reaches further than its terminator. -/
def Appends (m : Bytes → Logged Nat Bytes) (s : Bytes) : Prop :=
  ∀ text, (m text).value = some (text ++ s) ∧
    (m text).Always (· ≤ text.length + s.length + 1)

variable {m k : Bytes → Logged Nat Bytes} {s t : Bytes} {b : Bool}

theorem Appends.bind (hm : Appends m s) (hk : Appends k t) :
    Appends (fun text => m text >>= k) (s ++ t) := by
  intro text
  obtain ⟨hvalue, hlog⟩ := hm text
  obtain ⟨hvalue', hlog'⟩ := hk (text ++ s)
  refine ⟨?_, always_bind.2 ⟨fun w hw => ?_, fun a ha w hw => ?_⟩⟩
  · rw [value_bind, hvalue]
    exact hvalue'.trans (by rw [List.append_assoc])
  · have hle := hlog w hw
    rw [List.length_append]
    omega
  · rw [hvalue] at ha
    obtain rfl := Option.some.inj ha
    have hle := hlog' w hw
    rw [List.length_append] at hle ⊢
    omega

theorem appends_pure : Appends pure [] := fun text =>
  ⟨by rw [value_pure, List.append_nil], always_pure text⟩

theorem appends_sprintf (s : Bytes) : Appends (sprintf s) s := by
  intro text
  refine ⟨rfl, always_bind.2 ⟨(always_tell _).2 ?_, fun _ _ => always_pure _⟩⟩
  exact Nat.le_refl _

theorem appends_sprintfIf (b : Bool) (s : Bytes) :
    Appends (sprintfIf b s) (if b then s else []) := by
  cases b with
  | false => exact appends_pure
  | true => exact appends_sprintf s

/-- The text of a row. -/
def xmlText (flag : Flags) (r : Row) : Bytes :=
  (ascii "<info><date>" ++ r.dat ++ ascii "</date>") ++
    ((if flag.deviceType then
      ascii "<devicetype>" ++ decimal r.deviceType ++ ascii "</devicetype>" else []) ++
    ((if flag.adspaceType then
      ascii "<adspacetype>" ++ decimal r.adspaceType ++ ascii "</adspacetype>" else []) ++
    ((if flag.client then ascii "<client>" ++ decimal r.client ++ ascii "</client>" else []) ++
    ((if flag.appId then ascii "<appid>" ++ r.appId ++ ascii "</appid>" else []) ++
    (ascii "<request>" ++ decimal r.reQuest ++ ascii "</request><impression>" ++
      decimal r.imPression ++ ascii "</impression><click>" ++ decimal r.click ++
      ascii "</click></info>")))))

def jsonText (flag : Flags) (r : Row) : Bytes :=
  (ascii "\x7b\"date\":\"" ++ r.dat ++ ascii "\",") ++
    ((if flag.deviceType then
      ascii "\"devicetype\":" ++ decimal r.deviceType ++ ascii "," else []) ++
    ((if flag.adspaceType then
      ascii "\"adspacetype\":" ++ decimal r.adspaceType ++ ascii "," else []) ++
    ((if flag.client then ascii "\"client\":" ++ decimal r.client ++ ascii "," else []) ++
    ((if flag.appId then ascii "\"appid\":\"" ++ r.appId ++ ascii "\"," else []) ++
    (ascii "\"request\":" ++ decimal r.reQuest ++ ascii ",\"impression\":" ++
      decimal r.imPression ++ ascii ",\"click\":" ++ decimal r.click ++ ascii "\x7d")))))

theorem appends_xmlRow (flag : Flags) (r : Row) : Appends (xmlRow flag r) (xmlText flag r) :=
  (appends_sprintf _).bind ((appends_sprintfIf _ _).bind ((appends_sprintfIf _ _).bind
    ((appends_sprintfIf _ _).bind ((appends_sprintfIf _ _).bind (appends_sprintf _)))))

theorem appends_jsonRow (flag : Flags) (r : Row) : Appends (jsonRow flag r) (jsonText flag r) :=
  (appends_sprintf _).bind ((appends_sprintfIf _ _).bind ((appends_sprintfIf _ _).bind
    ((appends_sprintfIf _ _).bind ((appends_sprintfIf _ _).bind (appends_sprintf _)))))

theorem appends_nextRows {row : Row → Bytes → Logged Nat Bytes} {f : Row → Bytes}
    (h : ∀ r, Appends (row r) (f r)) (rows : List Row) :
    Appends (nextRows row rows) (rows.map f).flatten := by
  induction rows with
  | nil => exact appends_pure
  | cons r rows ih => exact (h r).bind ih

/-- Everything between the first write and the last. -/
def body (xml : Bool) (flag : Flags) (rows : List Row) : Bytes :=
  (rows.map (if xml then xmlText flag else jsonText flag)).flatten

def headOf (xml : Bool) : Bytes := if xml then xmlHead else jsonHead

def tailOf (xml : Bool) : Bytes := if xml then ascii "</data></result>" else ascii "]\x7d"

def fullText (xml : Bool) (flag : Flags) (rows : List Row) : Bytes :=
  headOf xml ++ body xml flag rows ++ tailOf xml

theorem document_eq (xml : Bool) (flag : Flags) (rows : List Row) :
    ∃ loop, Appends loop (body xml flag rows) ∧
      document xml flag rows = head (headOf xml) >>= fun text => loop text >>= strlcpy4 (tailOf xml) := by
  cases xml with
  | false => exact ⟨_, appends_nextRows (appends_jsonRow flag) rows, rfl⟩
  | true => exact ⟨_, appends_nextRows (appends_xmlRow flag) rows, rfl⟩

theorem length_headOf (xml : Bool) : (headOf xml).length < 199 := by
  cases xml <;> decide

theorem head_eq (h : s.length < 199) :
    (head s).value = some s ∧ (head s).Always (· ≤ s.length + 1) := by
  have hsame : CString.snprintf 200 s = s := List.take_of_length_le (Nat.le_of_lt h)
  refine ⟨?_, always_bind.2 ⟨(always_tell _).2 (Nat.min_le_left _ _), fun _ _ => always_pure _⟩⟩
  rw [head, value_bind, value_tell, hsame]
  rfl

/-- The writes are inside exactly when the text is. -/
theorem document_log (xml : Bool) (flag : Flags) (rows : List Row) {n : Nat} :
    (document xml flag rows).value = some (fullText xml flag rows) ∧
      ((document xml flag rows).Always (· ≤ n) ↔ (fullText xml flag rows).length ≤ n) := by
  obtain ⟨loop, hloop, heq⟩ := document_eq xml flag rows
  obtain ⟨hhead, hheadlog⟩ := head_eq (length_headOf xml)
  obtain ⟨hvalue, hlog⟩ := hloop (headOf xml)
  have htail : 2 ≤ (tailOf xml).length := by cases xml <;> decide
  have hlen : (fullText xml flag rows).length =
      (headOf xml).length + (body xml flag rows).length + (tailOf xml).length := by
    rw [fullText, List.length_append, List.length_append]
  rw [heq]
  constructor
  · rw [value_bind, hhead, Option.bind_some, value_bind, hvalue]
    rfl
  · rw [always_bind, hhead]
    constructor
    · rintro ⟨-, hrest⟩
      obtain ⟨-, hlast⟩ := always_bind.1 (hrest _ rfl)
      have hle := (always_tell _).1 (always_bind.1 (hlast _ hvalue)).1
      rw [List.length_append] at hle
      omega
    · intro hle
      refine ⟨fun w hw => ?_, fun a ha => ?_⟩
      · have hw := hheadlog w hw
        omega
      · obtain rfl := Option.some.inj ha
        refine always_bind.2 ⟨fun w hw => ?_, fun a ha => ?_⟩
        · have hw := hlog w hw
          omega
        · rw [hvalue] at ha
          obtain rfl := Option.some.inj ha
          refine always_bind.2 ⟨(always_tell _).2 ?_, fun _ _ => always_pure _⟩
          rw [List.length_append]
          omega

/-- The length test never finds a text too long: it comes when all is written. -/
theorem output_eq (xml : Bool) (flag : Flags) (rows : List Row) :
    output xml flag rows =
      if (fullText xml flag rows).length < MAX_REQUEST_BUF_SIZE then
        .text (fullText xml flag rows) else .undefined := by
  obtain ⟨hvalue, hlog⟩ := document_log xml flag rows (n := MAX_REQUEST_BUF_SIZE)
  have hall : (document xml flag rows).log.all (· ≤ MAX_REQUEST_BUF_SIZE) ↔
      (fullText xml flag rows).length ≤ MAX_REQUEST_BUF_SIZE := by
    rw [← hlog, List.all_eq_true]
    simp only [decide_eq_true_eq]
    rfl
  rw [output]
  rw [hvalue]
  dsimp only
  by_cases hlt : (fullText xml flag rows).length < MAX_REQUEST_BUF_SIZE
  · rw [if_pos ⟨hall.2 hlt.le, hlt⟩, if_neg (by omega), if_pos hlt]
  · rw [if_neg (fun h => hlt h.2), if_neg hlt]

end Appended

section Trees

open Json (Value)

/-- A part for a column that may be missing. -/
def column {α : Type} (b : Bool) (x : α) : List α := if b then [x] else []

def jsonMembers (flag : Flags) (r : Row) : List (Bytes × Value) :=
  (ascii "date", .str r.dat) ::
    (column flag.deviceType (ascii "devicetype", .lit (decimal r.deviceType)) ++
    (column flag.adspaceType (ascii "adspacetype", .lit (decimal r.adspaceType)) ++
    (column flag.client (ascii "client", .lit (decimal r.client)) ++
    (column flag.appId (ascii "appid", .str r.appId) ++
    [(ascii "request", .lit (decimal r.reQuest)),
      (ascii "impression", .lit (decimal r.imPression)),
      (ascii "click", .lit (decimal r.click))]))))

/-- The object of a row. -/
def jsonObject (flag : Flags) (r : Row) : Value := .obj (jsonMembers flag r)

/-- The report as a JSON value. -/
def jsonReport (flag : Flags) (rows : List Row) : Value :=
  .obj [(ascii "status", .str successCode), (ascii "msg", .str successMsg),
    (ascii "data", .arr (rows.map (jsonObject flag)))]

open Xml (Node)

def leaf (name s : Bytes) : Node := .elem name [.text s]

/-- The element of a row. -/
def xmlInfo (flag : Flags) (r : Row) : Node :=
  .elem (ascii "info") (leaf (ascii "date") r.dat ::
    (column flag.deviceType (leaf (ascii "devicetype") (decimal r.deviceType)) ++
    (column flag.adspaceType (leaf (ascii "adspacetype") (decimal r.adspaceType)) ++
    (column flag.client (leaf (ascii "client") (decimal r.client)) ++
    (column flag.appId (leaf (ascii "appid") r.appId) ++
    [leaf (ascii "request") (decimal r.reQuest), leaf (ascii "impression") (decimal r.imPression),
      leaf (ascii "click") (decimal r.click)])))))

/-- What the element `result` contains. -/
def xmlReport (flag : Flags) (rows : List Row) : List Node :=
  [leaf (ascii "status") successCode, leaf (ascii "msg") successMsg,
    .elem (ascii "data") (rows.map (xmlInfo flag))]

variable {flag : Flags} {r : Row} {rows : List Row} {b : Bool} {k : Bytes} {v : Value}
  {ms : List (Bytes × Value)}

theorem renderMembers_cons (h : ms ≠ []) : Json.renderMembers ((k, v) :: ms) =
    34 :: (k ++ 34 :: 58 :: (v.render ++ 44 :: Json.renderMembers ms)) := by
  obtain ⟨m, ms, rfl⟩ := List.exists_cons_of_ne_nil h
  rw [Json.renderMembers]

theorem renderMembers_column (h : ms ≠ []) : Json.renderMembers (column b (k, v) ++ ms) =
    (if b then 34 :: (k ++ 34 :: 58 :: (v.render ++ [44])) else []) ++ Json.renderMembers ms := by
  cases b with
  | false => rfl
  | true =>
    refine (renderMembers_cons h).trans ?_
    simp only [if_true, List.cons_append, List.append_assoc, List.nil_append]

theorem jsonText_eq (flag : Flags) (r : Row) : jsonText flag r = (jsonObject flag r).render := by
  rw [jsonObject, Value.render, jsonMembers, renderMembers_cons (by simp), renderMembers_column (by simp),
    renderMembers_column (by simp), renderMembers_column (by simp), renderMembers_column (by simp)]
  simp only [jsonText, Json.renderMembers, Value.render, List.append_assoc, List.cons_append]
  rfl

theorem renderAll_column {x : Node} {xs : List Node} : Xml.renderAll (column b x ++ xs) =
    (if b then x.render else []) ++ Xml.renderAll xs := by
  cases b with
  | false => rfl
  | true => rw [column, if_pos rfl, List.singleton_append, Xml.renderAll, if_pos rfl]

theorem xmlText_eq (flag : Flags) (r : Row) : xmlText flag r = (xmlInfo flag r).render := by
  rw [xmlInfo, Node.render, Xml.renderAll, renderAll_column, renderAll_column, renderAll_column,
    renderAll_column]
  simp only [xmlText, leaf, Xml.renderAll, Node.render, List.append_assoc, List.cons_append,
    List.append_nil]
  rfl

end Trees

section Lengths

def columnSize (b : Bool) (n : Nat) : Nat := if b then n else 0

/-- The bytes of a row. -/
def Row.size (xml : Bool) (flag : Flags) (r : Row) : Nat :=
  (if xml then 85 else 45) + r.dat.length +
    columnSize flag.deviceType ((if xml then 25 else 14) + (decimal r.deviceType).length) +
    columnSize flag.adspaceType ((if xml then 27 else 15) + (decimal r.adspaceType).length) +
    columnSize flag.client ((if xml then 17 else 10) + (decimal r.client).length) +
    columnSize flag.appId ((if xml then 15 else 11) + r.appId.length) +
    (decimal r.reQuest).length + (decimal r.imPression).length + (decimal r.click).length

/-- The report and its terminator have room in the buffer. -/
def Fits (xml : Bool) (flag : Flags) (rows : List Row) : Prop :=
  (if xml then 105 else 41) + (rows.map (Row.size xml flag)).sum < MAX_REQUEST_BUF_SIZE

instance (xml : Bool) (flag : Flags) (rows : List Row) : Decidable (Fits xml flag rows) :=
  Nat.decLt _ _

variable {xml : Bool} {flag : Flags} {rows : List Row}

theorem length_column (b : Bool) (s : Bytes) :
    (if b then s else []).length = columnSize b s.length := by
  cases b <;> rfl

theorem length_xmlText (flag : Flags) (r : Row) :
    (xmlText flag r).length = r.size true flag := by
  have h1 : (ascii "<info><date>").length + (ascii "</date>").length = 19 := by decide
  have h2 : (ascii "<devicetype>").length + (ascii "</devicetype>").length = 25 := by decide
  have h3 : (ascii "<adspacetype>").length + (ascii "</adspacetype>").length = 27 := by decide
  have h4 : (ascii "<client>").length + (ascii "</client>").length = 17 := by decide
  have h5 : (ascii "<appid>").length + (ascii "</appid>").length = 15 := by decide
  have h6 : (ascii "<request>").length + (ascii "</request><impression>").length +
    (ascii "</impression><click>").length + (ascii "</click></info>").length = 66 := by decide
  simp only [xmlText, List.length_append, length_column, Row.size, columnSize, if_true]
  split_ifs <;> omega

theorem length_jsonText (flag : Flags) (r : Row) :
    (jsonText flag r).length = r.size false flag := by
  have h1 : (ascii "\x7b\"date\":\"").length + (ascii "\",").length = 11 := by decide
  have h2 : (ascii "\"devicetype\":").length + (ascii ",").length = 14 := by decide
  have h3 : (ascii "\"adspacetype\":").length + (ascii ",").length = 15 := by decide
  have h4 : (ascii "\"client\":").length + (ascii ",").length = 10 := by decide
  have h5 : (ascii "\"appid\":\"").length + (ascii "\",").length = 11 := by decide
  have h6 : (ascii "\"request\":").length + (ascii ",\"impression\":").length +
    (ascii ",\"click\":").length + (ascii "\x7d").length = 34 := by decide
  simp only [jsonText, List.length_append, length_column, Row.size, columnSize, Bool.false_eq_true,
    if_false]
  split_ifs <;> omega

theorem length_fullText (xml : Bool) (flag : Flags) (rows : List Row) :
    (fullText xml flag rows).length =
      (if xml then 105 else 41) + (rows.map (Row.size xml flag)).sum := by
  have hrow : ∀ r, ((if xml then xmlText flag else jsonText flag) r).length = r.size xml flag := by
    intro r
    cases xml with
    | false => exact length_jsonText flag r
    | true => exact length_xmlText flag r
  have hbody : (body xml flag rows).length = (rows.map (Row.size xml flag)).sum := by
    rw [body, List.length_flatten, List.map_map]
    exact congrArg List.sum (List.map_congr_left fun r _ => hrow r)
  have hends : (headOf xml).length + (tailOf xml).length = if xml then 105 else 41 := by
    cases xml <;> decide
  rw [fullText, List.length_append, List.length_append, hbody]
  omega

theorem fits_iff : (fullText xml flag rows).length < MAX_REQUEST_BUF_SIZE ↔ Fits xml flag rows := by
  rw [Fits, length_fullText]

end Lengths

end Doorhinges.Report

import Doorhinges.AisGet.SessionRecord
import Doorhinges.JsonC.Plain

/-!
# The record of a session and the tokener

`ais_callback` gives the record that `get_adbody` has stored to `json_tokener_parse` and takes the
fields from the object. The tokener does not mind control characters.
-/
namespace Doorhinges.AisGet

open Lib.CString
open Lib.Redis (Reply)
open Lib.Runs (finish)
open Query
open AdBody (AdSession)
open JsonC (Floats Bare jsonTokenerParse objectGet plainMember plainMembers plainText)

variable {D : Type}

/-- The tokener makes an object of the text, and each field of the record is a string of it. -/
def ParsedBack (F : Floats D) (s : AdSession) (text : Bytes) : Prop :=
  ∃ ms, jsonTokenerParse F text = some (.ok (.object ms)) ∧
    ∀ f ∈ fields s, objectGet ms f.1 = .string f.2

/-- A record that the tokener can read. -/
structure Parsable (marked : Bool) (place : Nat) (s : AdSession) : Prop where
  apart : marked → s.setex.value.length < place
  fromLine : ∀ t ∈ parameters marked s, 92 ∉ t.1
  asCome : ∀ t ∈ unsanitised marked s, Bare t.1
  fits : s.text.length < MAX_REQUEST_BUF_SIZE

section Text

theorem renderMembers_plain (fs : List (Bytes × Bytes)) :
    Lib.Json.renderMembers (fs.map fun f => (f.1, .str f.2)) = plainMembers fs := by
  induction fs with
  | nil => rfl
  | cons f fs ih =>
    cases fs with
    | nil => simp [Lib.Json.renderMembers, Lib.Json.Value.render, plainMembers, plainMember]
    | cons g gs =>
      rw [List.map_cons, List.map_cons, Lib.Json.renderMembers, ← List.map_cons
        (f := fun f : Bytes × Bytes => (f.1, Lib.Json.Value.str f.2)), ih]
      simp [Lib.Json.Value.render, plainMembers, plainMember]

theorem text_plain (s : AdSession) : s.text = plainText (fields s) := by
  rw [text_eq, Lib.Json.plainObject, Lib.Json.Value.render, renderMembers_plain]
  simp [plainText]

theorem plain_of_clean {b : Bytes} (h : Lib.Json.Clean b) : Bare b :=
  ⟨fun hin => (h.1 34 hin).1 rfl, fun hin => (h.1 92 hin).2 rfl⟩

theorem parsedBack_iff (F : Floats D) (s : AdSession) : ParsedBack F s s.setex.value ↔
    (∀ f ∈ fields s, Bare f.2) ∧ s.text.length < MAX_REQUEST_BUF_SIZE := by
  have hlen : s.text.length ≤ MAX_REQUEST_BUF_SIZE - 1 ↔
      s.text.length < MAX_REQUEST_BUF_SIZE := by
    rw [MAX_REQUEST_BUF_SIZE]
    omega
  have hnames : ∀ f ∈ fields s, Bare f.1 ∧ 0 ∉ f.1 := by
    intro f hf
    refine ⟨plain_of_clean (name_clean s f hf), fun hin => ?_⟩
    exact absurd ((name_clean s f hf).2 0 hin) (by decide)
  have hvalues : ∀ f ∈ fields s, 0 ∉ f.2 := by
    intro f hf
    obtain ⟨m, -, rfl⟩ := List.mem_map.1 hf
    exact m.2.2
  rw [ParsedBack, AdSession.setex, snprintf, ← hlen, text_plain]
  exact JsonC.parse_plainText_iff F (fields_ne_nil s) (names_nodup s) hnames hvalues _

/-- All fields are plain when the parameters have no backslash and the texts that nobody has
looked at are plain. -/
theorem fields_plain_iff {s : AdSession} {marked : Bool} (hid : Lib.Json.Clean s.sessionId.1)
    (hpid : Lib.Json.Clean s.platformProviderID.1)
    (hquote : ∀ t ∈ parameters marked s, 34 ∉ t.1) : (∀ f ∈ fields s, Bare f.2) ↔
      (∀ t ∈ parameters marked s, 92 ∉ t.1) ∧ ∀ t ∈ unsanitised marked s, Bare t.1 := by
  have hline : (∀ t ∈ parameters marked s, 92 ∉ t.1) ↔ ∀ t ∈ parameters marked s, Bare t.1 :=
    forall₂_congr fun t ht => (and_iff_right (hquote t ht)).symm
  rw [hline]
  simp only [fields, AdSession.members, parameters, unsanitised, List.map_cons, List.map_nil,
    List.forall_mem_cons, List.forall_mem_append, plain_of_clean hid, plain_of_clean hpid, true_and]
  cases marked with
  | true => simp; tauto
  | false => simp; tauto

end Text

section Main

/-- The tokener reads all the records that `get_adbody` stores as they were written exactly if
every ad that is served is one with a record that it can read. -/
theorem records_parsed_back_iff (F : Floats D) (E : Env) (o : List Action → Option Reply)
    (line : Bytes) (f : Following) (r : Ready) (h : List Action) (ip : Bytes) (ids : List Bytes)
    (m : Option Reply × Option Reply × Option Reply) (out : AdBody.Answer)
    (hready : finish o [] (check E (parse line f E.stack).ap) = some (some r, h))
    (hip : texts r.ap .ip = some ip)
    (hout : AdBody.getAdbody (lineRequest E line f r ip ids m) = some out) :
    (∃ records, stored (marked E line f r) (uuidPlace (bufferOf line f E.stack))
        out.sessions = some records ∧ ∀ x ∈ records, ParsedBack F x.1 x.2) ↔
      ∀ s ∈ out.sessions,
        Parsable (marked E line f r) (uuidPlace (bufferOf line f E.stack)) s := by
  have hpid := pid_digits (passed_pid hready)
  rw [stored_all_iff]
  refine forall₂_congr fun s hs => ?_
  obtain ⟨hid, hpid, hquote⟩ := session_unquoted hpid hip hout hs
  rw [parsedBack_iff, fields_plain_iff hid hpid hquote]
  constructor
  · intro h
    exact ⟨h.1, h.2.1.1, h.2.1.2, h.2.2⟩
  · intro h
    exact ⟨h.apart, ⟨h.fromLine, h.asCome⟩, h.fits⟩

theorem records_parsed_back_iff_marked : ∃ r out records,
    AdBody.getAdbody (adRequest longLine r) = some out ∧ out.sessions ≠ [] ∧
      stored (marked sdkEnv longLine ⟨[], []⟩ r)
        (uuidPlace (bufferOf longLine ⟨[], []⟩ sdkEnv.stack)) out.sessions = some records ∧
      ∀ x ∈ records, ParsedBack JsonC.oneDouble x.1 x.2 := by
  obtain ⟨r, h, out, s, hready, hip, hout, hs, hplace, hplain, hlen, -⟩ := longLine_served
  have hparsable : ∀ t ∈ out.sessions, Parsable (marked sdkEnv longLine ⟨[], []⟩ r)
      (uuidPlace (bufferOf longLine ⟨[], []⟩ sdkEnv.stack)) t := by
    rw [hs, List.forall_mem_singleton]
    refine ⟨fun _ => hplace, fun t ht hc => ?_, fun t ht => ⟨fun hc => ?_, fun hc => ?_⟩, hlen⟩
    · exact (plain_byte (plain_parameters hplain _ t ht) hc).2.2.2 rfl
    · exact (plain_byte (plain_unsanitised hplain _ t ht) hc).2.1 rfl
    · exact (plain_byte (plain_unsanitised hplain _ t ht) hc).2.2.2 rfl
  obtain ⟨records, hrecords, hread⟩ := (records_parsed_back_iff JsonC.oneDouble sdkEnv oneReply
    longLine ⟨[], []⟩ r h _ _ _ out hready hip hout).2 hparsable
  exact ⟨r, out, records, hout, by rw [hs]; exact List.cons_ne_nil _ _, hrecords, hread⟩

end Main

end Doorhinges.AisGet

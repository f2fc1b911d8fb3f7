import Doorhinges.AisGet.LogRecord
import Doorhinges.Lib.JsonFields

/-!
# The record of a session

`get_adbody` writes the record of a session as a JSON text with `snprintf`, and `ais_callback`
looks its fields up by name. The fields go into the text as they are.
-/
namespace Doorhinges.AisGet

open Lib.CString
open Lib.Program
open Lib.Redis (Reply)
open Lib.Runs (finish)
open Query
open AdBody (AdSession Text)

/-- The fields of the record, as they are and under their names. -/
def fields (s : AdSession) : List (Bytes × Bytes) := s.members.map fun m => (m.1, m.2.1)

/-- The text is one of the record: each field is found in it under its name. -/
def ReadBack (s : AdSession) (text : Bytes) : Prop :=
  ∃ v, Lib.Json.parse text = some v ∧ ∀ f ∈ fields s, v.field f.1 = some f.2

/-- The SETEX commands of `get_adbody` for the records, one for each ad. Nothing is said about a
record that reaches the uuid it is made from. -/
def stored (marked : Bool) (place : Nat) (sessions : List AdSession) :
    Option (List (AdSession × Bytes)) :=
  if marked && sessions.any (covers place) then none
  else some (sessions.map fun s => (s, s.setex.value))

/-- The text can stand in a JSON string as it is, quotes aside. -/
def Unescaped (t : Bytes) : Prop := ∀ c ∈ t, 32 ≤ c ∧ c ≠ 92

/-- The texts of a record that are parameters of the line. -/
def parameters (marked : Bool) (s : AdSession) : List Text :=
  [s.appName, s.ip, s.appId, s.client, s.deviceType, s.sdkVersion, s.osVersion, s.deviceNum,
    s.density, s.pw, s.ph, s.long, s.lat, s.operator, s.net, s.adSpaceType, s.category] ++
    if marked then [] else [s.uuid]

/-- A record that can be read. The parameters have lost their quotes, not their backslashes and
control characters; the other texts are as they have come. -/
structure Readable (marked : Bool) (place : Nat) (s : AdSession) : Prop where
  apart : marked → s.setex.value.length < place
  fromLine : ∀ t ∈ parameters marked s, Unescaped t.1
  asCome : ∀ t ∈ unsanitised marked s, Unescaped t.1 ∧ 34 ∉ t.1
  fits : s.text.length < MAX_REQUEST_BUF_SIZE

section Text

theorem fields_ne_nil (s : AdSession) : fields s ≠ [] := List.cons_ne_nil _ _

theorem names_nodup (s : AdSession) : ((fields s).map Prod.fst).Nodup := by
  simp only [fields, AdSession.members, List.map_cons, List.map_nil]
  decide +kernel

theorem name_clean (s : AdSession) : ∀ f ∈ fields s, Lib.Json.Clean f.1 := by
  -- the bytes are listed by `all`: a bounded `∀` would go through every byte there is
  have hall : ∀ k ∈ (fields s).map Prod.fst,
      k.all (fun c => decide (32 ≤ c ∧ c ≠ 34 ∧ c ≠ 92)) = true := by
    simp only [fields, AdSession.members, List.map_cons, List.map_nil]
    decide +kernel
  intro f hf
  have hname : ∀ c ∈ f.1, 32 ≤ c ∧ c ≠ 34 ∧ c ≠ 92 := fun c hc =>
    of_decide_eq_true (List.all_eq_true.1 (hall f.1 (List.mem_map_of_mem hf)) c hc)
  exact ⟨fun c hc => (hname c hc).2, fun c hc => (hname c hc).1⟩

/-- The members of an object of texts, as the format of `get_adbody` has them. -/
theorem renderMembers_eq (fs : List (Bytes × Bytes)) :
    Lib.Json.renderMembers (fs.map fun f => (f.1, .str f.2)) =
      (ascii ",").intercalate (fs.map fun f =>
        ascii "\"" ++ f.1 ++ ascii "\":\"" ++ f.2 ++ ascii "\"") := by
  have hquote : ascii "\"" = [34] := by decide
  have hcolon : ascii "\":\"" = [34, 58, 34] := by decide
  have hcomma : ascii "," = [44] := by decide
  induction fs with
  | nil => rfl
  | cons f fs ih =>
    cases fs with
    | nil =>
      simp [Lib.Json.renderMembers, Lib.Json.Value.render, List.intercalate, hquote, hcolon]
    | cons g fs =>
      rw [List.map_cons, List.map_cons, Lib.Json.renderMembers, ← List.map_cons
        (f := fun f : Bytes × Bytes => (f.1, Lib.Json.Value.str f.2)), ih]
      simp [Lib.Json.Value.render, List.intercalate, hquote, hcolon, hcomma]

theorem text_eq (s : AdSession) : s.text = (Lib.Json.plainObject (fields s)).render := by
  have hopen : ascii "\x7b" = [123] := by decide
  have hclose : ascii "\x7d" = [125] := by decide
  rw [Lib.Json.plainObject, Lib.Json.Value.render, renderMembers_eq, fields, List.map_map,
    AdSession.text, hopen, hclose]
  rfl

/-- The record is read back if its texts can stand in a JSON text and all of it is stored. -/
theorem readBack_iff (s : AdSession) : ReadBack s s.setex.value ↔
    (∀ f ∈ fields s, Lib.Json.Clean f.2) ∧ s.text.length < MAX_REQUEST_BUF_SIZE := by
  have hlen : s.text.length ≤ MAX_REQUEST_BUF_SIZE - 1 ↔
      s.text.length < MAX_REQUEST_BUF_SIZE := by
    rw [MAX_REQUEST_BUF_SIZE]
    omega
  rw [ReadBack, AdSession.setex, snprintf, ← hlen, text_eq]
  exact Lib.Json.fields_iff (fields_ne_nil s) (names_nodup s) (name_clean s) _

end Text

section Sanitised

variable {E : Env} {r : Ready} {uuid : Option Bytes} {ip : Bytes} {ids : List Bytes}

theorem clean_iff (t : Bytes) : Lib.Json.Clean t ↔ Unescaped t ∧ 34 ∉ t := by
  constructor
  · intro h
    exact ⟨fun c hc => ⟨h.2 c hc, (h.1 c hc).2⟩, fun hc => (h.1 34 hc).1 rfl⟩
  · intro h
    exact ⟨fun c hc => ⟨fun heq => h.2 (heq ▸ hc), (h.1 c hc).2⟩, fun c hc => (h.1 c hc).1⟩

theorem textOf_quote (p : Params.Param) : 34 ∉ (textOf r p).1 := by
  intro h
  have hmem : (34 : UInt8) ∈ (texts r.ap p).getD [] := (List.takeWhile_prefix _).subset h
  rw [texts] at hmem
  cases hfinal : r.ap.final p with
  | none =>
    rw [hfinal] at hmem
    cases hmem
  | some t =>
    rw [hfinal] at hmem
    obtain ⟨c, -, hc⟩ := List.mem_map.1 hmem
    split at hc
    · cases hc
    · rename_i hno
      exact hno (Or.inr (Or.inl hc))

/-- The id of the session is written in hexadecimal digits. -/
theorem bin2str_clean (p : Bytes) : Lib.Json.Clean (AdBody.bin2str p) := by
  have hdigit : ∀ n : Fin 256, [AdBody.hexLower (UInt8.ofNat n >>> 4),
      AdBody.hexLower (UInt8.ofNat n &&& 15)].all
        (fun c => decide (32 ≤ c ∧ c ≠ 34 ∧ c ≠ 92)) = true := by
    decide +kernel
  have hall : ∀ c ∈ AdBody.bin2str p, 32 ≤ c ∧ c ≠ 34 ∧ c ≠ 92 := by
    intro c hc
    obtain ⟨b, -, hb⟩ := List.mem_flatMap.1 hc
    have hboth := hdigit ⟨b.toNat, b.toNat_lt⟩
    rw [UInt8.ofNat_toNat] at hboth
    exact of_decide_eq_true (List.all_eq_true.1 hboth c hb)
  exact ⟨fun c hc => (hall c hc).2, fun c hc => (hall c hc).1⟩

theorem digits_clean {t : Bytes} (h : ∀ c ∈ t, isDigit c) : Lib.Json.Clean t := by
  have hall : ∀ c ∈ t, 32 ≤ c ∧ c ≠ 34 ∧ c ≠ 92 := by
    intro c hc
    have hdigit := h c hc
    rw [isDigit, Bool.and_eq_true, decide_eq_true_eq, decide_eq_true_eq] at hdigit
    refine ⟨UInt8.le_trans (by decide) hdigit.1, ?_, ?_⟩
    · intro heq
      exact absurd (heq ▸ hdigit.1) (by decide)
    · intro heq
      exact absurd (heq ▸ hdigit.2) (by decide)
  exact ⟨fun c hc => (hall c hc).2, fun c hc => (hall c hc).1⟩

theorem clean_of {b : Bytes} (h : Lib.Json.Clean b) : Lib.Json.Clean (Text.of b).1 :=
  ⟨fun c hc => h.1 c ((List.takeWhile_prefix _).subset hc),
    fun c hc => h.2 c ((List.takeWhile_prefix _).subset hc)⟩

/-- What the server makes itself is clean, and no parameter has a quote. -/
theorem session_unquoted {m : Option Reply × Option Reply × Option Reply} {out : AdBody.Answer}
    {s : AdSession} (hpid : ∀ c ∈ r.app.platformProviderID, isDigit c)
    (hip : texts r.ap .ip = some ip)
    (hout : AdBody.getAdbody (GetAd.received (bodyRequest E r uuid ip ids false) m) = some out)
    (hs : s ∈ out.sessions) :
    Lib.Json.Clean s.sessionId.1 ∧ Lib.Json.Clean s.platformProviderID.1 ∧
      ∀ t ∈ parameters (fromMarker r uuid) s, 34 ∉ t.1 := by
  obtain ⟨aid, pp, i, putinType, hpp, rfl⟩ := AdBody.mem_sessions hout hs
  have hstart : (GetAd.received (bodyRequest E r uuid ip ids false) m).start.ppId =
      Text.of r.app.platformProviderID := if_neg (Bool.eq_false_iff.1 (debug_false hpid))
  have hpp : pp = Text.of r.app.platformProviderID := hpp.elim (·.trans hstart) id
  have htext : ∀ p, 34 ∉ (textOf r p).1 := textOf_quote
  have hip : 34 ∉ (Text.of ip).1 := by
    have h := htext .ip
    rwa [textOf, hip, Option.getD_some] at h
  refine ⟨clean_of (bin2str_clean _), hpp ▸ clean_of (digits_clean hpid), ?_⟩
  rw [parameters, List.forall_mem_append]
  constructor
  · simp only [List.forall_mem_cons]
    exact ⟨htext _, hip, htext _, htext _, htext _, htext _, htext _, htext _, htext _, htext _,
      htext _, htext _, htext _, htext _, htext _, htext _, htext _, by simp⟩
  · cases hfrom : fromMarker r uuid with
    | true => simp
    | false =>
      have huuid : uuidUsed r uuid = texts r.ap .uuid := if_neg (Bool.eq_false_iff.1 hfrom)
      rw [if_neg Bool.false_ne_true, List.forall_mem_singleton]
      show 34 ∉ (Text.of ((uuidUsed r uuid).getD [])).1
      rw [huuid]
      exact htext .uuid

/-- All fields are clean when the parameters have nothing to escape and the texts that nobody
has looked at are clean. -/
theorem fields_clean_iff {s : AdSession} {marked : Bool} (hid : Lib.Json.Clean s.sessionId.1)
    (hpid : Lib.Json.Clean s.platformProviderID.1)
    (hquote : ∀ t ∈ parameters marked s, 34 ∉ t.1) :
    (∀ f ∈ fields s, Lib.Json.Clean f.2) ↔
      (∀ t ∈ parameters marked s, Unescaped t.1) ∧
        ∀ t ∈ unsanitised marked s, Unescaped t.1 ∧ 34 ∉ t.1 := by
  have hline : (∀ t ∈ parameters marked s, Unescaped t.1) ↔
      ∀ t ∈ parameters marked s, Lib.Json.Clean t.1 := by
    refine forall₂_congr fun t ht => ?_
    rw [clean_iff, and_iff_left (hquote t ht)]
  have hcome : (∀ t ∈ unsanitised marked s, Unescaped t.1 ∧ 34 ∉ t.1) ↔
      ∀ t ∈ unsanitised marked s, Lib.Json.Clean t.1 :=
    forall₂_congr fun t _ => (clean_iff t.1).symm
  rw [hline, hcome]
  simp only [fields, AdSession.members, parameters, unsanitised, List.map_cons, List.map_nil,
    List.forall_mem_cons, List.forall_mem_append, hid, hpid, true_and]
  cases marked with
  | true => simp; tauto
  | false => simp; tauto

end Sanitised

section Main

/-- All the records are stored and have a property exactly if none of them reaches the uuid and
each has it. -/
theorem stored_all_iff {marked : Bool} {place : Nat} {sessions : List AdSession}
    {P : AdSession → Bytes → Prop} :
    (∃ records, stored marked place sessions = some records ∧ ∀ x ∈ records, P x.1 x.2) ↔
      ∀ s ∈ sessions, (marked → s.setex.value.length < place) ∧ P s s.setex.value := by
  rw [stored]
  by_cases hover : (marked && sessions.any (covers place)) = true
  · rw [if_pos hover]
    refine iff_of_false (fun ⟨_, hnone, _⟩ => by cases hnone) fun hall => ?_
    obtain ⟨hfrom, hany⟩ := Bool.and_eq_true_iff.1 hover
    obtain ⟨s, hs, hcover⟩ := List.any_eq_true.1 hany
    exact absurd ((hall s hs).1 hfrom) (Nat.not_lt.2 (of_decide_eq_true hcover))
  · rw [if_neg hover]
    have hapart : ∀ s ∈ sessions, marked = true → s.setex.value.length < place := by
      intro s hs hfrom
      refine Nat.lt_of_not_le fun hle => hover ?_
      rw [hfrom, Bool.true_and]
      exact List.any_eq_true.2 ⟨s, hs, decide_eq_true hle⟩
    constructor
    · intro hrecords s hs
      obtain ⟨records, heq, hall⟩ := hrecords
      obtain rfl := Option.some.inj heq
      exact ⟨hapart s hs, hall _ (List.mem_map_of_mem hs)⟩
    · intro hall
      refine ⟨_, rfl, fun x hx => ?_⟩
      obtain ⟨s, hs, rfl⟩ := List.mem_map.1 hx
      exact (hall s hs).2

/-- The records that `get_adbody` stores are all read back as they were written exactly if every
ad that is served is one with a record that can be read. -/
theorem records_read_back_iff (E : Env) (o : List Action → Option Reply) (line : Bytes)
    (f : Following) (r : Ready) (h : List Action) (ip : Bytes) (ids : List Bytes)
    (m : Option Reply × Option Reply × Option Reply) (out : AdBody.Answer)
    (hready : finish o [] (check E (parse line f E.stack).ap) = some (some r, h))
    (hip : texts r.ap .ip = some ip)
    (hout : AdBody.getAdbody (lineRequest E line f r ip ids m) = some out) :
    (∃ records, stored (marked E line f r) (uuidPlace (bufferOf line f E.stack))
        out.sessions = some records ∧ ∀ x ∈ records, ReadBack x.1 x.2) ↔
      ∀ s ∈ out.sessions,
        Readable (marked E line f r) (uuidPlace (bufferOf line f E.stack)) s := by
  have hpid := pid_digits (passed_pid hready)
  rw [stored_all_iff]
  refine forall₂_congr fun s hs => ?_
  obtain ⟨hid, hpid, hquote⟩ := session_unquoted hpid hip hout hs
  rw [readBack_iff, fields_clean_iff hid hpid hquote]
  constructor
  · intro h
    exact ⟨h.1, h.2.1.1, h.2.1.2, h.2.2⟩
  · intro h
    exact ⟨h.apart, ⟨h.fromLine, h.asCome⟩, h.fits⟩

theorem plain_parameters {s : AdSession} (h : ∀ m ∈ s.members, isPlain m.2) (marked : Bool) :
    ∀ t ∈ parameters marked s, isPlain t.1 := by
  simp only [AdSession.members, List.forall_mem_cons] at h
  cases marked <;> simp [parameters, h]

theorem records_read_back_iff_marked : ∃ r out records,
    AdBody.getAdbody (adRequest longLine r) = some out ∧ out.sessions ≠ [] ∧
      stored (marked sdkEnv longLine ⟨[], []⟩ r)
        (uuidPlace (bufferOf longLine ⟨[], []⟩ sdkEnv.stack)) out.sessions = some records ∧
      ∀ x ∈ records, ReadBack x.1 x.2 := by
  obtain ⟨r, h, out, s, hready, hip, hout, hs, hplace, hplain, hlen, -⟩ := longLine_served
  have hreadable : ∀ t ∈ out.sessions, Readable (marked sdkEnv longLine ⟨[], []⟩ r)
      (uuidPlace (bufferOf longLine ⟨[], []⟩ sdkEnv.stack)) t := by
    rw [hs, List.forall_mem_singleton]
    refine ⟨fun _ => hplace, fun t ht c hc => ?_, fun t ht => ⟨fun c hc => ?_, fun hc => ?_⟩, hlen⟩
    · have hbyte := plain_byte (plain_parameters hplain _ t ht) hc
      exact ⟨hbyte.1, hbyte.2.2.2⟩
    · have hbyte := plain_byte (plain_unsanitised hplain _ t ht) hc
      exact ⟨hbyte.1, hbyte.2.2.2⟩
    · exact (plain_byte (plain_unsanitised hplain _ t ht) hc).2.1 rfl
  obtain ⟨records, hrecords, hread⟩ := (records_read_back_iff sdkEnv oneReply longLine ⟨[], []⟩
    r h _ _ _ out hready hip hout).2 hreadable
  exact ⟨r, out, records, hout, by rw [hs]; exact List.cons_ne_nil _ _, hrecords, hread⟩

end Main

end Doorhinges.AisGet

import Doorhinges.AdBody.Sessions
import Doorhinges.AisGet.Isolated
import Doorhinges.Lib.Columns
import Doorhinges.Lib.DecimalText

/-!
# The log record of an ad

`log_handler` joins its fields with commas and cuts the record to the length of an entry of
the log. The parameters have lost their commas by then, and the fields that the server makes
itself have none; the others are as the stores and the line have them.
-/
namespace Doorhinges.AisGet

open Lib.CString
open Lib.Columns
open Lib.Program
open Lib.Redis (Reply)
open Lib.Runs (finish)
open Query
open Params (cutMarker)
open AdBody (AdSession Text)

def LOG_CONTENT_LEN : Nat := 512

/-- `%02d`. -/
def twoDigits (n : Nat) : Bytes := if n < 10 then 48 :: decimalNat n else decimalNat n

/-- The date of the request. -/
structure Date where
  year : Nat
  month : Nat
  mday : Nat
  hour : Nat
  min : Nat
  sec : Nat

def Date.text (d : Date) : Bytes :=
  decimalNat d.year ++ ascii "-" ++ twoDigits d.month ++ ascii "-" ++ twoDigits d.mday ++
    ascii " " ++ twoDigits d.hour ++ ascii ":" ++ twoDigits d.min ++ ascii ":" ++ twoDigits d.sec

/-- `ais_logparams_t` as `log_handler` reads it; `session` has the fields that `get_adbody`
has put into the record of the session. -/
structure LogParams where
  session : AdSession
  requestMode : Bytes
  date : Date
  isCheat : Bytes
  isBilling : Bytes
  level : Int

/-- The columns of the format of `log_handler`. -/
def LogParams.columns (log : LogParams) : List Bytes :=
  let s := log.session
  [s.sessionId.1, ascii "{AdvertisersID}", ascii "{ADOrderID}", s.adId.1, s.platformProviderID.1,
    s.sdkVersion.1, s.platformKey.1,
    s.callbackType.1, log.requestMode, ascii "{ADPrice}", s.adPlatformPrice.1, log.date.text,
    s.ip.1, s.appId.1, s.appName.1, s.uuid.1, s.deviceNum.1,
    s.client.1, s.osVersion.1, s.density.1, decimal (atoi s.pw.1), decimal (atoi s.ph.1),
    s.long.1, s.lat.1, ascii "{ProName}", ascii "{CityName}", s.operator.1,
    ascii "{ISPName}", s.net.1, ascii "{NetName}", log.isCheat, log.isBilling, s.adSpaceType.1,
    ascii "{AdSpaceTypeName}", s.deviceType.1, decimal log.level, s.category.1]

/-- The record `log_handler` pushes where `OPEN_WRITE_LOG` is set. -/
def logHandler (log : LogParams) : Bytes := snprintf LOG_CONTENT_LEN (joined 44 log.columns)

/-- The bytes of the whole record, with its terminator. -/
def LogParams.size (log : LogParams) : Nat := (log.columns.map fun c => c.length + 1).sum

/-- The fields when an ad has been written out. -/
def logParams (date : Date) (s : AdSession) : LogParams :=
  ⟨s, ascii "1", date, ascii "1", ascii "1", 3⟩

/-- The calls of `log_handler` in `get_adbody`, one for each ad; none where it is debugged.
They are absent where a record of a session reaches the uuid it is made from. -/
def logCalls (date : Date) (marked : Bool) (place : Nat) (q : AdBody.Request)
    (sessions : List AdSession) : Option (List LogParams) :=
  if q.debug then some []
  else if marked && q.allRecorded.any (covers place) then none
  else some (sessions.map (logParams date))

/-- The texts that go into the record as they have come: the id and the type of the ad, the
key of the platform and the price, and the uuid where it is the one behind the marker. -/
def unsanitised (marked : Bool) (s : AdSession) : List Text :=
  [s.adId, s.callbackType, s.platformKey, s.adPlatformPrice] ++ if marked then [s.uuid] else []

/-- An ad whose record keeps its columns. -/
structure Recorded (date : Date) (marked : Bool) (place : Nat) (s : AdSession) : Prop where
  apart : marked → s.setex.value.length < place
  commas : ∀ t ∈ unsanitised marked s, 44 ∉ t.1
  fits : (logParams date s).size ≤ LOG_CONTENT_LEN

section Record

variable {log : LogParams}

theorem logHandler_iff (log : LogParams) : (logHandler log).splitOn 44 = log.columns ↔
    (∀ c ∈ log.columns, 44 ∉ c) ∧ log.size ≤ LOG_CONTENT_LEN := by
  have hne : log.columns ≠ [] := List.cons_ne_nil _ _
  have hsize : log.size = (joined 44 log.columns).length + 1 := (length_joined hne).symm
  have hlen : (joined 44 log.columns).length ≤ LOG_CONTENT_LEN - 1 ↔
      log.size ≤ LOG_CONTENT_LEN := by
    rw [hsize, LOG_CONTENT_LEN]
    omega
  rw [logHandler, snprintf, splitOn_take_iff hne, hlen]

theorem decimalNat_comma (n : Nat) : 44 ∉ decimalNat n := fun h =>
  absurd (Lib.DecimalText.all_digits_decimalNat n 44 h) (by decide)

theorem decimal_comma (n : Int) : 44 ∉ decimal n := by
  rw [decimal]
  split
  · exact List.not_mem_cons_of_ne_of_not_mem (by decide) (decimalNat_comma _)
  · exact decimalNat_comma _

theorem twoDigits_comma (n : Nat) : 44 ∉ twoDigits n := by
  rw [twoDigits]
  split
  · exact List.not_mem_cons_of_ne_of_not_mem (by decide) (decimalNat_comma _)
  · exact decimalNat_comma _

theorem date_comma (d : Date) : 44 ∉ d.text := by
  have hdash : 44 ∉ ascii "-" := by decide
  have hcolon : 44 ∉ ascii ":" := by decide
  have hblank : 44 ∉ ascii " " := by decide
  simp only [Date.text, List.mem_append, decimalNat_comma, twoDigits_comma, hdash, hcolon, hblank,
    or_self, not_false_eq_true]

/-- The fields that hold a parameter, and those that the server makes. -/
def sanitised (s : AdSession) : List Text :=
  [s.sessionId, s.platformProviderID, s.sdkVersion, s.ip, s.appId, s.appName, s.deviceNum,
    s.client, s.osVersion, s.density, s.long, s.lat, s.operator, s.net, s.adSpaceType,
    s.deviceType, s.category]

/-- The columns are free of commas when the texts are that nobody has looked at. -/
theorem columns_iff {s : AdSession} {date : Date} {marked : Bool}
    (hs : ∀ t ∈ sanitised s, 44 ∉ t.1) (huuid : marked = false → 44 ∉ s.uuid.1) :
    (∀ c ∈ (logParams date s).columns, 44 ∉ c) ↔ ∀ t ∈ unsanitised marked s, 44 ∉ t.1 := by
  have hnames : ∀ c ∈ [ascii "{AdvertisersID}", ascii "{ADOrderID}", ascii "{ADPrice}",
      ascii "{ProName}", ascii "{CityName}", ascii "{ISPName}", ascii "{NetName}",
      ascii "{AdSpaceTypeName}", ascii "1"], 44 ∉ c := by
    decide
  simp only [sanitised, List.forall_mem_cons] at hs
  simp only [List.forall_mem_cons] at hnames
  simp only [LogParams.columns, logParams, unsanitised, List.forall_mem_cons,
    List.forall_mem_append, date_comma, decimal_comma, hnames, hs]
  cases marked with
  | false => simp [huuid]; tauto
  | true => simp; tauto

end Record

section Sanitised

variable {E : Env} {r : Ready} {uuid : Option Bytes} {ip : Bytes} {ids : List Bytes}

theorem textOf_comma {b : Bytes} (h : 44 ∉ b) : 44 ∉ (Text.of b).1 := fun hmem =>
  h ((List.takeWhile_prefix _).subset hmem)

theorem replaceIllegalChar_comma (t : Bytes) : 44 ∉ replaceIllegalChar t := by
  intro h
  obtain ⟨c, -, hc⟩ := List.mem_map.1 h
  split at hc
  · cases hc
  · rename_i hno
    exact hno (Or.inl hc)

theorem texts_comma (c : Params.Ap) (p : Params.Param) : 44 ∉ (texts c p).getD [] := by
  rw [texts]
  cases c.final p with
  | none => exact List.not_mem_nil
  | some t => exact replaceIllegalChar_comma t

theorem bin2str_comma (p : Bytes) : 44 ∉ AdBody.bin2str p := by
  have hall : ∀ n : Fin 256, AdBody.hexLower (UInt8.ofNat n >>> 4) ≠ 44 ∧
      AdBody.hexLower (UInt8.ofNat n &&& 15) ≠ 44 := by
    decide +kernel
  intro h
  obtain ⟨b, -, hb⟩ := List.mem_flatMap.1 h
  have hbyte : AdBody.hexLower (b >>> 4) ≠ 44 ∧ AdBody.hexLower (b &&& 15) ≠ 44 := by
    simpa using hall ⟨b.toNat, b.toNat_lt⟩
  rcases List.mem_cons.1 hb with hb | hb
  · exact hbyte.1 hb.symm
  · exact hbyte.2 (List.mem_singleton.1 hb).symm

/-- A platform with a number for its id. -/
theorem pid_digits {pid : Bytes} (h : pidInvalid pid = false) : ∀ c ∈ pid, isDigit c := by
  rw [pidInvalid, Bool.or_eq_false_iff, Bool.or_eq_false_iff] at h
  simpa using h.1.1

theorem debug_false {pid : Bytes} (h : ∀ c ∈ pid, isDigit c) :
    caseEq (Text.of pid) AdBody.DEBUGPID = false := by
  rw [caseEq, decide_eq_false_iff_not]
  intro heq
  have hd : (100 : UInt8) ∈ (Text.of pid).1.map lower := by
    rw [heq]
    decide
  obtain ⟨c, hc, hlower⟩ := List.mem_map.1 hd
  have hdigit := h c ((List.takeWhile_prefix _).subset hc)
  rw [isDigit, Bool.and_eq_true, decide_eq_true_eq, decide_eq_true_eq] at hdigit
  rw [lower, if_neg] at hlower
  · rw [hlower] at hdigit
    exact absurd hdigit.2 (by decide)
  · rw [Bool.and_eq_true, decide_eq_true_eq, decide_eq_true_eq]
    intro hupper
    exact absurd (UInt8.le_trans hupper.1 hdigit.2) (by decide)

/-- What is taken from the line has no comma left, up to the uuid behind the marker. -/
theorem session_sanitised {m : Option Reply × Option Reply × Option Reply} {out : AdBody.Answer}
    {s : AdSession} (hpid : ∀ c ∈ r.app.platformProviderID, isDigit c)
    (hip : texts r.ap .ip = some ip)
    (hout : AdBody.getAdbody (GetAd.received (bodyRequest E r uuid ip ids false) m) = some out)
    (hs : s ∈ out.sessions) :
    (∀ t ∈ sanitised s, 44 ∉ t.1) ∧ (fromMarker r uuid = false → 44 ∉ s.uuid.1) := by
  obtain ⟨aid, pp, i, putinType, hpp, rfl⟩ := AdBody.mem_sessions hout hs
  have hstart : (GetAd.received (bodyRequest E r uuid ip ids false) m).start.ppId =
      Text.of r.app.platformProviderID := if_neg (Bool.eq_false_iff.1 (debug_false hpid))
  have hpp : pp = Text.of r.app.platformProviderID := hpp.elim (·.trans hstart) id
  have hpid : 44 ∉ r.app.platformProviderID := fun h => absurd (hpid 44 h) (by decide)
  have hip : 44 ∉ ip := by
    have h := texts_comma r.ap .ip
    rwa [hip] at h
  have htext : ∀ p, 44 ∉ (textOf r p).1 := fun p => textOf_comma (texts_comma r.ap p)
  refine ⟨?_, fun hfrom => ?_⟩
  · simp only [sanitised, List.forall_mem_cons]
    exact ⟨textOf_comma (bin2str_comma _), hpp ▸ textOf_comma hpid, htext _, textOf_comma hip,
      htext _, htext _, htext _, htext _, htext _, htext _, htext _, htext _, htext _, htext _,
      htext _, htext _, htext _, by simp⟩
  · have huuid : uuidUsed r uuid = texts r.ap .uuid := if_neg (Bool.eq_false_iff.1 hfrom)
    show 44 ∉ (Text.of ((uuidUsed r uuid).getD [])).1
    rw [huuid]
    exact textOf_comma (texts_comma r.ap .uuid)

end Sanitised

section Main

/-- What `get_adbody` works on for the line, with the answers of the store. -/
def lineRequest (E : Env) (line : Bytes) (f : Following) (r : Ready) (ip : Bytes)
    (ids : List Bytes) (m : Option Reply × Option Reply × Option Reply) : AdBody.Request :=
  GetAd.received (bodyRequest E r (parse line f E.stack).uuid ip ids false) m

/-- The id behind the marker of the line is used. -/
def marked (E : Env) (line : Bytes) (f : Following) (r : Ready) : Bool :=
  fromMarker r (parse line f E.stack).uuid

/-- Each record that `get_adbody` has written is split at its commas into the fields exactly if
every ad that is served is one whose record keeps its columns. -/
theorem columns_kept_iff (E : Env) (o : List Action → Option Reply) (line : Bytes) (f : Following)
    (r : Ready) (h : List Action) (ip : Bytes) (ids : List Bytes)
    (m : Option Reply × Option Reply × Option Reply) (date : Date) (out : AdBody.Answer)
    (hready : finish o [] (check E (parse line f E.stack).ap) = some (some r, h))
    (hip : texts r.ap .ip = some ip)
    (hout : AdBody.getAdbody (lineRequest E line f r ip ids m) = some out) :
    (∃ calls, logCalls date (marked E line f r) (uuidPlace (bufferOf line f E.stack))
        (lineRequest E line f r ip ids m) out.sessions = some calls ∧
        ∀ log ∈ calls, (logHandler log).splitOn 44 = log.columns) ↔
      ∀ s ∈ out.sessions,
        Recorded date (marked E line f r) (uuidPlace (bufferOf line f E.stack)) s := by
  have hpid := pid_digits (passed_pid hready)
  have hdebug : (lineRequest E line f r ip ids m).debug = false := debug_false hpid
  generalize uuidPlace (bufferOf line f E.stack) = place
  have hcolumns : ∀ s ∈ out.sessions,
      (logHandler (logParams date s)).splitOn 44 = (logParams date s).columns ↔
        (∀ t ∈ unsanitised (marked E line f r) s, 44 ∉ t.1) ∧
          (logParams date s).size ≤ LOG_CONTENT_LEN := by
    intro s hs
    obtain ⟨hclean, huuid⟩ := session_sanitised hpid hip hout hs
    rw [logHandler_iff, columns_iff hclean huuid]
    rfl
  rw [logCalls, hdebug, if_neg Bool.false_ne_true, AdBody.allRecorded_eq hout]
  by_cases hover : (marked E line f r && out.sessions.any (covers place)) = true
  · rw [if_pos hover]
    refine iff_of_false (fun ⟨_, hnone, _⟩ => by cases hnone) fun hall => ?_
    obtain ⟨hfrom, hany⟩ := Bool.and_eq_true_iff.1 hover
    obtain ⟨s, hs, hcover⟩ := List.any_eq_true.1 hany
    exact absurd ((hall s hs).apart hfrom) (Nat.not_lt.2 (of_decide_eq_true hcover))
  · rw [if_neg hover]
    have hapart : ∀ s ∈ out.sessions, marked E line f r = true →
        s.setex.value.length < place := by
      intro s hs hfrom
      refine Nat.lt_of_not_le fun hle => hover ?_
      rw [hfrom, Bool.true_and]
      exact List.any_eq_true.2 ⟨s, hs, decide_eq_true hle⟩
    constructor
    · rintro ⟨calls, heq, hall⟩ s hs
      obtain rfl := Option.some.inj heq
      obtain ⟨hcommas, hfits⟩ := (hcolumns s hs).1 (hall _ (List.mem_map_of_mem hs))
      exact ⟨hapart s hs, hcommas, hfits⟩
    · intro hall
      refine ⟨_, rfl, fun log hlog => ?_⟩
      obtain ⟨s, hs, rfl⟩ := List.mem_map.1 hlog
      exact (hcolumns s hs).2 ⟨(hall s hs).commas, (hall s hs).fits⟩

/-- The answers of the store about one ad. -/
def oneAd : Option Reply × Option Reply × Option Reply :=
  (some (.array [some (ascii "x")]), some (.array [some (ascii "320X50")]),
    some (.array [some (ascii "1")]))

/-- One ad is served for the line. -/
def adRequest (line : Bytes) (r : Ready) : AdBody.Request :=
  lineRequest sdkEnv line ⟨[], []⟩ r (ascii "1.2.3.4") [ascii "7"] oneAd

/-- The bytes of the text are plain in a row of columns and in a string of JSON. -/
def isPlain (t : Bytes) : Bool := t.all fun c => 32 ≤ c && c ≠ 34 && c ≠ 44 && c ≠ 92

theorem plain_byte {t : Bytes} (h : isPlain t) {c : UInt8} (hc : c ∈ t) :
    32 ≤ c ∧ c ≠ 34 ∧ c ≠ 44 ∧ c ≠ 92 := by
  have hbyte := List.all_eq_true.1 h c hc
  simp only [Bool.and_eq_true, decide_eq_true_eq] at hbyte
  exact ⟨hbyte.1.1.1, hbyte.1.1.2, hbyte.1.2, hbyte.2⟩

theorem longLine_served : ∃ r h out s,
    finish oneReply [] (check sdkEnv (parse longLine ⟨[], []⟩ sdkEnv.stack).ap) =
        some (some r, h) ∧
      texts r.ap .ip = some (ascii "1.2.3.4") ∧
      AdBody.getAdbody (adRequest longLine r) = some out ∧ out.sessions = [s] ∧
      s.setex.value.length < uuidPlace (bufferOf longLine ⟨[], []⟩ sdkEnv.stack) ∧
      (∀ m ∈ s.members, isPlain m.2) ∧ s.text.length < MAX_REQUEST_BUF_SIZE ∧
      (logParams ⟨2026, 1, 2, 3, 4, 5⟩ s).size ≤ LOG_CONTENT_LEN := by
  have h : ((finish oneReply []
      (check sdkEnv (parse longLine ⟨[], []⟩ sdkEnv.stack).ap)).any fun x =>
        x.1.any fun r => texts r.ap .ip = some (ascii "1.2.3.4") &&
          (AdBody.getAdbody (adRequest longLine r)).any fun out => out.sessions.length = 1 &&
            out.sessions.all fun s =>
              s.setex.value.length < uuidPlace (bufferOf longLine ⟨[], []⟩ sdkEnv.stack) &&
                (s.members.all fun m => isPlain m.2) && s.text.length < MAX_REQUEST_BUF_SIZE &&
                (logParams ⟨2026, 1, 2, 3, 4, 5⟩ s).size ≤ LOG_CONTENT_LEN) = true := by
    decide +kernel
  obtain ⟨⟨ready, hist⟩, hrun, hready⟩ := (Option.any_eq_true _ _).1 h
  obtain ⟨r, rfl, hr⟩ := (Option.any_eq_true _ _).1 hready
  obtain ⟨hip, hr⟩ := Bool.and_eq_true_iff.1 hr
  obtain ⟨out, hout, hr⟩ := (Option.any_eq_true _ _).1 hr
  obtain ⟨hlen, hall⟩ := Bool.and_eq_true_iff.1 hr
  obtain ⟨s, hs⟩ := List.length_eq_one_iff.1 (of_decide_eq_true hlen)
  have hone := List.all_eq_true.1 hall s (by rw [hs]; exact List.mem_singleton.2 rfl)
  simp only [Bool.and_eq_true, decide_eq_true_eq, List.all_eq_true] at hone
  exact ⟨r, hist, out, s, hrun, of_decide_eq_true hip, hout, hs, hone.1.1.1, hone.1.1.2,
    hone.1.2, hone.2⟩

theorem plain_unsanitised {s : AdSession} (h : ∀ m ∈ s.members, isPlain m.2) (marked : Bool) :
    ∀ t ∈ unsanitised marked s, isPlain t.1 := by
  simp only [AdSession.members, List.forall_mem_cons] at h
  cases marked <;> simp [unsanitised, h]

theorem columns_kept_iff_marked : ∃ r out calls,
    AdBody.getAdbody (adRequest longLine r) = some out ∧ out.sessions ≠ [] ∧
      logCalls ⟨2026, 1, 2, 3, 4, 5⟩ (marked sdkEnv longLine ⟨[], []⟩ r)
        (uuidPlace (bufferOf longLine ⟨[], []⟩ sdkEnv.stack)) (adRequest longLine r)
        out.sessions = some calls ∧
      ∀ log ∈ calls, (logHandler log).splitOn 44 = log.columns := by
  obtain ⟨r, h, out, s, hready, hip, hout, hs, hplace, hplain, -, hsize⟩ := longLine_served
  have hrecorded : ∀ t ∈ out.sessions, Recorded ⟨2026, 1, 2, 3, 4, 5⟩
      (marked sdkEnv longLine ⟨[], []⟩ r)
      (uuidPlace (bufferOf longLine ⟨[], []⟩ sdkEnv.stack)) t := by
    rw [hs, List.forall_mem_singleton]
    refine ⟨fun _ => hplace, fun t ht hcomma => ?_, hsize⟩
    exact (plain_byte (plain_unsanitised hplain _ t ht) hcomma).2.2.1 rfl
  obtain ⟨calls, hcalls, hkept⟩ :=
    (columns_kept_iff sdkEnv oneReply longLine ⟨[], []⟩ r h _ _ _ _ out hready hip hout).2 hrecorded
  exact ⟨r, out, calls, hout, by rw [hs]; exact List.cons_ne_nil _ _, hcalls, hkept⟩

/-- A request of the SDK with a comma in the id behind the marker, in a line that is longer than
the record of the session. -/
def commaLine : Bytes :=
  ascii ("a&Key=k&Uuid=u&Client=1&Operator=1&Ip=1.2.3.4&Category=1&AdSpaceType=1&Aw=1&Ah=1" ++
    "&TimeStamp=1&Sign=s&AppId=a&Pad=") ++ List.replicate 280 120 ++ ascii "LOMARKID=u,v"

def commaCalls (r : Ready) (out : AdBody.Answer) : Option (List LogParams) :=
  logCalls ⟨2026, 1, 2, 3, 4, 5⟩ (marked sdkEnv commaLine ⟨[], []⟩ r)
    (uuidPlace (bufferOf commaLine ⟨[], []⟩ sdkEnv.stack)) (adRequest commaLine r) out.sessions

/-- A record with a comma in one of its columns is written for the line. -/
theorem commaLine_logged : ∃ r h out,
    finish oneReply [] (check sdkEnv (parse commaLine ⟨[], []⟩ sdkEnv.stack).ap) =
        some (some r, h) ∧
      texts r.ap .ip = some (ascii "1.2.3.4") ∧
      AdBody.getAdbody (adRequest commaLine r) = some out ∧
      ∃ calls, commaCalls r out = some calls ∧ ∃ log ∈ calls, ∃ c ∈ log.columns, 44 ∈ c := by
  have h : ((finish oneReply []
      (check sdkEnv (parse commaLine ⟨[], []⟩ sdkEnv.stack).ap)).any fun x =>
        x.1.any fun r => texts r.ap .ip = some (ascii "1.2.3.4") &&
          (AdBody.getAdbody (adRequest commaLine r)).any fun out =>
            (commaCalls r out).any fun calls =>
              calls.any fun log => log.columns.any (·.contains 44)) = true := by
    decide +kernel
  obtain ⟨⟨ready, hist⟩, hrun, hready⟩ := (Option.any_eq_true _ _).1 h
  obtain ⟨r, rfl, hr⟩ := (Option.any_eq_true _ _).1 hready
  obtain ⟨hip, hr⟩ := Bool.and_eq_true_iff.1 hr
  obtain ⟨out, hout, hcalls⟩ := (Option.any_eq_true _ _).1 hr
  obtain ⟨calls, heq, hany⟩ := (Option.any_eq_true _ _).1 hcalls
  obtain ⟨log, hlog, hany⟩ := List.any_eq_true.1 hany
  obtain ⟨c, hc, hcomma⟩ := List.any_eq_true.1 hany
  exact ⟨r, hist, out, hrun, of_decide_eq_true hip, hout, calls, heq, log, hlog, c, hc,
    List.contains_iff_mem.1 hcomma⟩

/-- The id behind the marker makes a column of its own. -/
theorem columns_shifted : ¬ ∀ (E : Env) (o : List Action → Option Reply) (line : Bytes)
    (f : Following) (r : Ready) (h : List Action) (ip : Bytes) (ids : List Bytes)
    (m : Option Reply × Option Reply × Option Reply) (date : Date) (out : AdBody.Answer),
      finish o [] (check E (parse line f E.stack).ap) = some (some r, h) →
      texts r.ap .ip = some ip →
      AdBody.getAdbody (lineRequest E line f r ip ids m) = some out →
      ∃ calls, logCalls date (marked E line f r) (uuidPlace (bufferOf line f E.stack))
        (lineRequest E line f r ip ids m) out.sessions = some calls ∧
        ∀ log ∈ calls, (logHandler log).splitOn 44 = log.columns := by
  intro hall
  obtain ⟨r, h, out, hready, hip, hout, calls, heq, log, hlog, c, hc, hcomma⟩ := commaLine_logged
  obtain ⟨calls', heq', hkept⟩ := hall sdkEnv oneReply commaLine ⟨[], []⟩ r h _ _ oneAd
    ⟨2026, 1, 2, 3, 4, 5⟩ out hready hip hout
  obtain rfl := Option.some.inj (heq.symm.trans heq')
  exact ((logHandler_iff log).1 (hkept log hlog)).1 c hc hcomma

end Main

end Doorhinges.AisGet

import Doorhinges.AisGet.Buffered
import Doorhinges.Params.Flagged

/-!
# Requests that wait in one buffer

Whether the answer to a line depends on what stands behind it in the read buffer. The two
handlers of callbacks copy a string and stop at its end; `ais_get` goes behind the end when
the line ends with the marker and the platform is one of the SDK.
-/
namespace Doorhinges.AisGet

open Lib.CString
open Lib.Redis (Reply)
open Lib.Program
open Lib.Runs
open Query
open Params (Param Ap aisAdSet cutMarker)
open GetAd (ReplyVar)

/-- What a program may do that writes no record over its own text. -/
abbrev clear : Discipline Action (Option Reply) Event Unit := only (fun _ => True) (· ≠ .overlap)

abbrev Clear {α : Type} (p : Act α) : Prop := Keeps clear p () fun _ _ => True

section Check

variable {E : Env} {c : Ap} {r : Ready} {o : List Action → Option Reply} {h h' : List Action}

/-- What the checks have seen of a request that passes them. -/
structure Passed (s : Ap × Bool) (r : Ready) : Prop where
  ap : r.ap = s.1
  accepted : s.2
  full : ∀ p ∈ required, p ∈ s.1.flags

theorem keeps_refuse {Q : Option Ready → Prop} (hQ : Q none) (e : Error) (format : Option Bytes) :
    Keeps clear (refuse e format) () fun a _ => Q a :=
  ⟨nofun, hQ⟩

theorem keeps_checkApp (c : Ap) (a : App) :
    Keeps clear (checkApp E c a) () fun x _ =>
      ∀ r, x = some r → r.ap = c ∧ pidInvalid r.app.platformProviderID = false := by
  have hrefuse := keeps_refuse (Q := fun x =>
      ∀ r, x = some r → r.ap = c ∧ pidInvalid r.app.platformProviderID = false)
    (fun _ h => by cases h)
  rw [checkApp]
  split
  · exact hrefuse _ _
  split
  · exact hrefuse _ _
  split
  · exact hrefuse _ _
  rename_i hpid
  rw [keeps_bind, keeps_call]
  refine ⟨trivial, fun reply => ?_⟩
  cases priceOf E reply with
  | none => exact ⟨nofun, trivial, fun _ h => by cases h⟩
  | some price =>
    rintro r hr
    rw [← Option.some.inj hr]
    exact ⟨rfl, Bool.eq_false_iff.2 hpid⟩

theorem keeps_check (s : Ap × Bool) :
    Keeps clear (check E s) () fun x _ =>
      ∀ r, x = some r → Passed s r ∧ pidInvalid r.app.platformProviderID = false := by
  have hrefuse := keeps_refuse (Q := fun x =>
      ∀ r, x = some r → Passed s r ∧ pidInvalid r.app.platformProviderID = false)
    (fun _ h => by cases h)
  rw [check]
  split
  · exact hrefuse _ _
  rename_i hok
  split
  · exact hrefuse _ _
  rename_i hall
  have hflags : ∀ p ∈ required, p ∈ s.1.flags := by simpa using hall
  cases texts s.1 .key with
  | none => exact ⟨nofun, fun _ h => by cases h⟩
  | some key =>
    rw [keeps_bind, keeps_call]
    refine ⟨trivial, fun reply => ?_⟩
    split
    · split
      · exact hrefuse _ _
      · trivial
      · exact keeps_mono (keeps_checkApp _ _) fun x _ hx r hr =>
          ⟨⟨(hx r hr).1, by simpa using hok, hflags⟩, (hx r hr).2⟩
    · exact hrefuse _ _

/-- The platform of such a request is a number. -/
theorem passed_pid {s : Ap × Bool} (hrun : finish o h (check E s) = some (some r, h')) :
    pidInvalid r.app.platformProviderID = false :=
  (finish_keeps (keeps_check s) hrun r rfl).2

/-- Then `get_ad` finds everything it insists on. -/
theorem Passed.complete {l : Bytes} (hp : Passed (aisAdSet .start l) r) (uuid : Option Bytes)
    (ip : Bytes) : (adCall E r uuid ip).log.missing = false := by
  obtain ⟨hap, hok, hreq⟩ := hp
  have hflagged := Params.aisAdSet_flagged hok
  have htext : ∀ p ∈ required, (r.ap.text p).isSome := by
    intro p hp
    rw [hap]
    exact hflagged p (hreq p hp)
  have hsome : ∀ p ∈ required, r.ap.final p = r.ap.text p → (texts r.ap p).isSome := by
    intro p hp hfinal
    rw [texts, Option.isSome_map, hfinal]
    exact htext p hp
  have hdevice : (texts r.ap .deviceType).isSome := rfl
  have huuid : (uuidUsed r uuid).isSome := by
    rw [uuidUsed]
    split
    · rename_i hfrom
      exact (Bool.and_eq_true _ _ ▸ hfrom).2
    · exact hsome .uuid (by decide) rfl
  have hnone : ∀ {x : Option Bytes}, x.isSome → x.isNone = false := by
    intro x hx
    cases x with
    | none => cases hx
    | some _ => rfl
  rw [GetAd.Log.missing]
  simp only [adCall, List.any_cons, List.any_nil, Option.isNone_some, Bool.false_or,
    hnone (hsome .appId (by decide) rfl), hnone (hsome .category (by decide) rfl), hnone huuid,
    hnone (hsome .client (by decide) rfl), hnone (hsome .operator (by decide) rfl),
    hnone (hsome .adSpaceType (by decide) rfl), hnone hdevice]

end Check

section Serve

variable {E : Env} {r : Ready} {uuid : Option Bytes} {place : Nat}
  {o : List Action → Option Reply}

/-- Without the SDK the id behind the marker is not used. -/
theorem serve_same (hsdk : r.app.isSdk = false) (u v : Option Bytes) :
    serve E r u place = serve E r v place := by
  have hfrom : ∀ u, fromMarker r u = false := by
    intro u
    rw [fromMarker, hsdk, Bool.false_and]
  have hused : uuidUsed r u = uuidUsed r v := by
    rw [uuidUsed, uuidUsed, hfrom u, hfrom v]
    rfl
  have hcall : ∀ ip, adCall E r u ip = adCall E r v ip := by
    intro ip
    rw [adCall, adCall, hused]
  have hanswer : answerWith E r u place = answerWith E r v place := by
    funext ip ids debug
    have hbody : bodyRequest E r u ip ids debug = bodyRequest E r v ip ids debug := by
      rw [bodyRequest, bodyRequest, hused]
    rw [answerWith, answerWith, hbody, hfrom u, hfrom v]
  rw [serve, serve, hanswer]
  simp only [hcall]

/-- Without an address the handler is at its end. -/
theorem serve_nowhere (hip : texts r.ap .ip = none) (h : List Action) :
    trace o h (serve E r uuid place) = [] := by
  rw [serve, hip]
  rfl

end Serve

section Overlap

variable (E : Env) (r : Ready) (uuid : Option Bytes) (place : Nat)
  (o : List Action → Option Reply) (h : List Action)

variable {E r uuid place o h}

theorem Clear.not_mem {α : Type} {p : Act α} (hp : Clear p) : .inr .overlap ∉ trace o h p :=
  fun hmem => mark_of_keeps hp hmem rfl

end Overlap

section Ads

variable (E : Env) (o : List Action → Option Reply) (line : Bytes)

/-- The run of `ais_get` on the line, with the answers of the server. -/
def run (f : Following) : List (Action ⊕ Event) := trace o [] (aisGet E (parse line f E.stack))

/-- The checks let the line through, for `r`. -/
def Serves (r : Ready) (h : List Action) : Prop :=
  finish o [] (check E (aisAdSet .start (cutMarker (cstr (decoded line))))) = some (some r, h)

/-- The line is served, and its platform is one of the SDK. -/
def Takes : Prop := ∃ r h, Serves E o line r h ∧ r.app.isSdk ∧ (texts r.ap .ip).isSome

variable {E o line} {f g : Following}

theorem run_eq {r : Ready} {h : List Action} (hline : line.length < MAX_REQUEST_BUF_SIZE)
    (hrun : finish o [] (check E (aisAdSet .start (cutMarker (cstr (decoded line))))) =
      some (some r, h)) :
    run E o line f =
      trace o [] (check E (aisAdSet .start (cutMarker (cstr (decoded line))))) ++
        trace o h (serve E r (parse line f E.stack).uuid (parse line f E.stack).place) := by
  rw [run, aisGet, parse_ap hline]
  exact trace_bind_of hrun

/-- What follows does not matter where the line does not end with the marker, or is not served
for the SDK. -/
theorem run_same (hline : line.length < MAX_REQUEST_BUF_SIZE)
    (hsafe : ¬ (Takes E o line ∧ EndsWithMarker line)) : run E o line f = run E o line g := by
  by_cases hend : EndsWithMarker line
  · have htakes : ¬ Takes E o line := fun h => hsafe ⟨h, hend⟩
    rw [run, run, aisGet, aisGet, parse_ap hline, parse_ap hline]
    refine trace_bind_congr fun ready h hrun => ?_
    cases ready with
    | none =>
      show trace o h (pure ()) = trace o h (pure ())
      rfl
    | some r =>
      show trace o h (serve E r _ _) = trace o h (serve E r _ _)
      cases hsdk : r.app.isSdk with
      | false => rw [parse_place hline, parse_place hline, serve_same hsdk]
      | true =>
        cases hip : texts r.ap .ip with
        | none => rw [serve_nowhere hip, serve_nowhere hip]
        | some ip => exact absurd ⟨r, h, hrun, hsdk, by rw [hip]; rfl⟩ htakes
  · rw [run, run, parse_same hline hend]

end Ads

section Command

variable {line : Bytes} {n m : Nat}

end Command

section Examples

def sdkEnv : Env where
  openTimestamp := false
  openSign := false
  time := 0
  day := ascii "2026-01-01"
  parseApp := fun _ => .app ⟨ascii "13", [], [], [], [], ascii "2"⟩
  positive := fun _ => true
  md5 := id
  near := fun _ _ _ _ _ => false
  rand := 0
  nodes := fun _ => ⟨0, [], none, none, none, none, 0⟩
  arr := fun _ => []
  imgDomain := none
  imgUrl := none
  imgSize := []
  uuid := fun _ => []
  stack := []
  adparamsBuf := fun _ => 0

def oneReply : List Action → Option Reply := fun _ => some (.str (ascii "1"))

/-- A request of the SDK that is longer than the record of its session. -/
def longLine : Bytes :=
  ascii ("a&Key=k&Uuid=u&Client=1&Operator=1&Ip=1.2.3.4&Category=1&AdSpaceType=1&Aw=1&Ah=1" ++
    "&TimeStamp=1&Sign=s&AppId=a&Pad=") ++ List.replicate 280 120 ++ ascii "LOMARKID=v"

end Examples

end Doorhinges.AisGet

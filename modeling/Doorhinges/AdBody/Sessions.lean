import Doorhinges.AdBody.Model
import Doorhinges.Query.Roundtrip
import Mathlib.Data.List.Nodup
import Mathlib.Tactic.IntervalCases

/-!
# Sessions and bodies

The records of one call follow its returned bodies one for one, except that the
type of an earlier advertisement stays behind when a later one has none, and that
only a JSON response is returned beyond its first body.
-/
namespace Doorhinges.AdBody

open Lib.CString
open Query

/-- An advertisement with a body, as the loop serves it. -/
structure Served where
  aid : Text
  element : Option Text
  body : Bytes

/-- The advertisements the loop serves from here on; absent when a round of the loop is. -/
def Request.walk (r : Request) : Nat → Bytes → List Ad → Option (List Served)
  | _, _, [] => some []
  | k, sBody, ad :: ads =>
    match ad.body with
    | none => r.walk k sBody ads
    | some tp =>
      if r.room < sBody.length + tp.1.length + 500 then some []
      else do
        let element ← ad.putinType
        let body ← bodyOf (r.env (r.sessionId k)) tp
        if (r.append k sBody body).length < r.room then
          (r.walk (k + 1) (r.append k sBody body) ads).map (⟨ad.aid, element, body⟩ :: ·)
        else none

/-- The advertisements a call serves; absent when a buffer is overrun or a null pointer
is used. -/
def Request.served (r : Request) : Option (List Served) :=
  if !r.fits then none
  else
    match r.nearWidth with
    | none => none
    | some none => some []
    | some (some _) => r.walk 0 [] r.ads

def Request.push (r : Request) (s : Loop) (x : Served) : Loop :=
  { putinType := x.element.getD s.putinType
    ppId := r.log.ppId
    adnum := s.adnum + 1
    sBody := r.append s.adnum s.sBody x.body
    sessions :=
      s.sessions ++ [r.session x.aid s.ppId (r.sessionId s.adnum) (x.element.getD s.putinType)]
    lastrequest := if s.adnum = 0 then some (r.lastrequest x.aid) else s.lastrequest }

/-- The records of a row of served advertisements. -/
def Request.records (r : Request) : Text → Text → Nat → List Served → List AdSession
  | _, _, _, [] => []
  | ppId, last, k, x :: l =>
    r.session x.aid ppId (r.sessionId k) (x.element.getD last) ::
      r.records r.log.ppId (x.element.getD last) (k + 1) l

section Loop

variable {r : Request}

theorem loop_eq_walk (s : Loop) (ads : List Ad) :
    r.loop s ads = (r.walk s.adnum s.sBody ads).map (·.foldl r.push s) := by
  induction ads generalizing s with
  | nil => rfl
  | cons ad ads ih =>
    rw [Request.loop, Request.walk]
    cases ad.body with
    | none => exact ih s
    | some tp =>
      dsimp only
      split
      · rfl
      · rw [Request.serve]
        cases ad.putinType with
        | none => rfl
        | some element =>
          cases bodyOf (r.env (r.sessionId s.adnum)) tp with
          | none => simp
          | some body =>
            simp only [Option.bind_eq_bind, Option.bind_some]
            split
            · rw [Option.bind_some, ih, Option.map_map]
              rfl
            · rfl

theorem getAdbody_eq (r : Request) :
    getAdbody r = r.served.map fun l => (l.foldl r.push r.start).answer := by
  rw [getAdbody, Request.served]
  split
  · rfl
  · cases r.nearWidth with
    | none => rfl
    | some w =>
      cases w with
      | none => rfl
      | some w => simp only [loop_eq_walk, Option.map_map]; rfl

theorem foldl_adnum (s : Loop) (l : List Served) :
    (l.foldl r.push s).adnum = s.adnum + l.length := by
  induction l generalizing s with
  | nil => rfl
  | cons x l ih =>
    have hx : (r.push s x).adnum = s.adnum + 1 := rfl
    rw [List.foldl_cons, ih, hx, List.length_cons]
    omega

theorem foldl_sessions (s : Loop) (l : List Served) :
    (l.foldl r.push s).sessions = s.sessions ++ r.records s.ppId s.putinType s.adnum l := by
  induction l generalizing s with
  | nil => simp [Request.records]
  | cons x l ih => rw [List.foldl_cons, ih, Request.records]; simp [Request.push]

theorem foldl_sBody (s : Loop) (hs : s.adnum ≠ 0) (l : List Served) :
    (l.foldl r.push s).sBody = [r.separator].intercalate (s.sBody :: l.map (·.body)) := by
  induction l generalizing s with
  | nil => simp [List.intercalate]
  | cons x l ih =>
    rw [List.foldl_cons, ih _ (Nat.succ_ne_zero _)]
    cases l <;> simp [Request.push, Request.append, hs, List.intercalate]

theorem serve_sessions {s s' : Loop} {ad : Ad} {tp : Text} (h : r.serve s ad tp = some s') :
    ∃ element, ad.putinType = some element ∧ s'.adnum = s.adnum + 1 ∧ s'.sessions =
      s.sessions ++ [r.session ad.aid s.ppId (r.sessionId s.adnum) (element.getD s.putinType)] := by
  obtain ⟨element, helement, h⟩ := Option.bind_eq_some_iff.1 h
  obtain ⟨body, -, h⟩ := Option.bind_eq_some_iff.1 h
  obtain ⟨-, h⟩ := Option.ite_none_right_eq_some.1 h
  obtain rfl := Option.some.inj h
  exact ⟨element, helement, rfl, rfl⟩

/-- A loop that comes to its end keeps the records it has written. -/
theorem loop_recorded {s s' : Loop} {ads : List Ad} (h : r.loop s ads = some s') :
    s'.sessions = s.sessions ++ r.recorded s ads ∧
      s'.adnum = s.adnum + (r.recorded s ads).length := by
  induction ads generalizing s with
  | nil =>
    obtain rfl := Option.some.inj h
    exact ⟨(List.append_nil _).symm, rfl⟩
  | cons ad ads ih =>
    rw [Request.loop] at h
    rw [Request.recorded]
    cases hbody : ad.body with
    | none =>
      rw [hbody] at h
      exact ih h
    | some tp =>
      rw [hbody] at h
      dsimp only at h ⊢
      split at h
      · rename_i hfull
        obtain rfl := Option.some.inj h
        rw [if_pos hfull]
        exact ⟨(List.append_nil _).symm, rfl⟩
      · rename_i hroom
        obtain ⟨t, ht, h⟩ := Option.bind_eq_some_iff.1 h
        obtain ⟨element, helement, hadnum, hsessions⟩ := serve_sessions ht
        obtain ⟨hrest, hcount⟩ := ih h
        rw [if_neg hroom, helement, ht]
        dsimp only
        rw [Option.map_some, Option.getD_some, hrest, hcount, hsessions, hadnum, List.length_cons]
        exact ⟨by simp, by omega⟩

/-- The records of an answer are those the call has written. -/
theorem allRecorded_eq {out : Answer} (h : getAdbody r = some out) :
    r.allRecorded = out.sessions := by
  rw [getAdbody] at h
  rw [Request.allRecorded]
  split at h
  · cases h
  · rename_i hfits
    rw [if_neg hfits]
    split at h
    · cases h
    · rename_i hwidth
      obtain rfl := Option.some.inj h
      rw [hwidth]
      rfl
    · rename_i hwidth
      rw [hwidth]
      obtain ⟨s, hloop, rfl⟩ := Option.map_eq_some_iff.1 h
      obtain ⟨hsessions, hcount⟩ := loop_recorded hloop
      have hstart : r.start.adnum = 0 := rfl
      rw [hstart, Nat.zero_add] at hcount
      show r.recorded r.start r.ads = s.answer.sessions
      rw [Loop.answer]
      by_cases hnone : s.adnum = 0
      · rw [if_pos hnone]
        exact List.length_eq_zero_iff.1 (hcount.symm.trans hnone)
      · rw [if_neg hnone]
        exact hsessions.symm

/-- The text of a call is the row of its bodies. -/
theorem text_eq (x : Served) (l : List Served) :
    ((x :: l).foldl r.push r.start).sBody =
      [r.separator].intercalate ((x :: l).map (·.body)) := by
  rw [List.foldl_cons, foldl_sBody _ (Nat.succ_ne_zero _)]
  rfl

/-- Each served advertisement is one of the request, with its own element and its body under
the session id of its place. -/
def Request.Drawn (r : Request) : Nat → List Served → Prop
  | _, [] => True
  | k, x :: l =>
    (∃ ad ∈ r.ads, ∃ tp, ad.body = some tp ∧ ad.putinType = some x.element ∧ ad.aid = x.aid ∧
      bodyOf (r.env (r.sessionId k)) tp = some x.body) ∧ r.Drawn (k + 1) l

theorem walk_drawn {ads : List Ad} (hads : ∀ ad ∈ ads, ad ∈ r.ads) {k : Nat} {sBody : Bytes}
    {l : List Served} (h : r.walk k sBody ads = some l) :
    r.Drawn k l ∧ (l.map (·.aid)).Sublist (ads.map (·.aid)) := by
  induction ads generalizing k sBody l with
  | nil =>
    obtain rfl := Option.some.inj h
    exact ⟨trivial, List.Sublist.refl _⟩
  | cons ad ads ih =>
    have hrest : ∀ a ∈ ads, a ∈ r.ads := fun a ha => hads a (List.mem_cons_of_mem _ ha)
    rw [Request.walk] at h
    cases hb : ad.body with
    | none =>
      rw [hb] at h
      obtain ⟨hd, hs⟩ := ih hrest h
      exact ⟨hd, hs.cons _⟩
    | some tp =>
      rw [hb] at h
      dsimp only at h
      split at h
      · obtain rfl := Option.some.inj h
        exact ⟨trivial, List.nil_sublist _⟩
      · obtain ⟨element, he, h⟩ := Option.bind_eq_some_iff.1 h
        obtain ⟨body, hbody, h⟩ := Option.bind_eq_some_iff.1 h
        split at h
        · obtain ⟨l', hl', rfl⟩ := Option.map_eq_some_iff.1 h
          obtain ⟨hd, hs⟩ := ih hrest hl'
          exact ⟨⟨⟨ad, hads ad List.mem_cons_self, tp, hb, he, rfl, hbody⟩, hd⟩, hs.cons_cons _⟩
        · cases h

theorem served_drawn {l : List Served} (h : r.served = some l) :
    r.Drawn 0 l ∧ (l.map (·.aid)).Sublist (r.ads.map (·.aid)) := by
  rw [Request.served] at h
  split at h
  · cases h
  · split at h
    · cases h
    · obtain rfl := Option.some.inj h
      exact ⟨trivial, List.nil_sublist _⟩
    · exact walk_drawn (fun _ h => h) h

theorem drawn_nul {k : Nat} {l : List Served} (h : r.Drawn k l) : ∀ x ∈ l, 0 ∉ x.body := by
  induction l generalizing k with
  | nil => exact fun x hx => absurd hx List.not_mem_nil
  | cons x l ih =>
    obtain ⟨⟨ad, -, tp, -, -, -, hbody⟩, hl⟩ := h
    exact List.forall_mem_cons.2 ⟨bodyOf_nul tp.2 hbody, ih hl⟩

end Loop

section Records

variable {r : Request} {ppId last : Text} {k : Nat}

/-- What a record has of the request. -/
theorem mem_records {l : List Served} {s : AdSession} (h : s ∈ r.records ppId last k l) :
    ∃ aid pp i putinType, (pp = ppId ∨ pp = r.log.ppId) ∧
      s = r.session aid pp (r.sessionId i) putinType := by
  induction l generalizing ppId last k with
  | nil => cases h
  | cons x l ih =>
    rcases List.mem_cons.1 h with rfl | h
    · exact ⟨_, _, _, _, Or.inl rfl, rfl⟩
    · obtain ⟨aid, pp, i, putinType, hpp, rfl⟩ := ih h
      exact ⟨aid, pp, i, putinType, Or.inr (hpp.elim id id), rfl⟩

end Records

section SessionIds

end SessionIds

section Returned

variable {r : Request}

theorem intercalate_nul {sep : UInt8} (hsep : sep ≠ 0) {bodies : List Bytes}
    (h : ∀ b ∈ bodies, 0 ∉ b) : 0 ∉ [sep].intercalate bodies := by
  induction bodies with
  | nil => simp [List.intercalate]
  | cons b bodies ih =>
    obtain ⟨hb, hrest⟩ := List.forall_mem_cons.1 h
    cases bodies with
    | nil => simpa [List.intercalate] using hb
    | cons c bodies =>
      rw [List.intercalate_cons_cons]
      simp [hb, ih hrest, Ne.symm hsep]

/-- A single body is returned whole, and so is any number of them in a JSON response. -/
theorem returned_eq {l : List Served} (hnul : ∀ x ∈ l, 0 ∉ x.body)
    (h : r.json ∨ l.length ≤ 1) :
    cstr ([r.separator].intercalate (l.map (·.body))) =
      [r.separator].intercalate (l.map (·.body)) := by
  refine cstr_of_nul ?_
  rcases h with h | h
  · refine intercalate_nul (by rw [Request.separator, if_pos h]; decide) fun b hb => ?_
    obtain ⟨x, hx, rfl⟩ := List.mem_map.1 hb
    exact hnul x hx
  · cases l with
    | nil => simp [List.intercalate]
    | cons x l =>
      obtain rfl : l = [] := List.length_eq_zero_iff.1 (by simpa using h)
      simpa [List.intercalate] using hnul x List.mem_cons_self

/-- Otherwise only the first is. -/
theorem returned_first {x y : Served} {l : List Served} (hx : 0 ∉ x.body) (h : ¬ r.json) :
    cstr ([r.separator].intercalate ((x :: y :: l).map (·.body))) = x.body := by
  rw [Request.separator, if_neg h, List.map_cons, List.map_cons, List.intercalate_cons_cons,
    List.append_assoc, cstr, List.takeWhile_append_of_pos]
  · simp
  · intro c hc
    simpa using fun h0 : c = 0 => hx (h0 ▸ hc)

end Returned

section Main

variable {r : Request}

theorem getAdbody_nil (h : r.served = some []) : getAdbody r = some .nothing := by
  rw [getAdbody_eq, h]
  rfl

theorem getAdbody_cons {x : Served} {l : List Served} (h : r.served = some (x :: l)) :
    ∃ out, getAdbody r = some out ∧
      out.body = some (cstr ([r.separator].intercalate ((x :: l).map (·.body)))) ∧
      out.sessions = r.records r.start.ppId (Text.of []) 0 (x :: l) := by
  have hn : ((x :: l).foldl r.push r.start).adnum ≠ 0 := by
    rw [foldl_adnum, List.length_cons]
    omega
  refine ⟨_, by rw [getAdbody_eq, h, Option.map_some, Loop.answer, if_neg hn], ?_, ?_⟩
  · rw [text_eq]
  · rw [foldl_sessions]
    rfl

theorem mem_sessions {out : Answer} {s : AdSession} (hout : getAdbody r = some out)
    (hs : s ∈ out.sessions) : ∃ aid pp i putinType, (pp = r.start.ppId ∨ pp = r.log.ppId) ∧
      s = r.session aid pp (r.sessionId i) putinType := by
  obtain ⟨l, hl, -⟩ := Option.map_eq_some_iff.1 ((getAdbody_eq r).symm.trans hout)
  cases l with
  | nil =>
    obtain rfl := Option.some.inj (hout.symm.trans (getAdbody_nil hl))
    cases hs
  | cons x l =>
    obtain ⟨out', hout', -, hsessions⟩ := getAdbody_cons hl
    obtain rfl := Option.some.inj (hout.symm.trans hout')
    rw [hsessions] at hs
    exact mem_records hs

/-- Two banners are served, and only the first has a type. -/
def leftoverRequest : Request where
  log :=
    let empty := Text.of []
    { format := Text.of (ascii "json"), adSpaceType := Text.of (ascii "banner")
      ppId := Text.of (ascii "13"), appName := empty, ip := Text.of (ascii "1.2.3.4")
      adpPrice := empty, appId := Text.of (ascii "a"), clinet := Text.of (ascii "1")
      deviceType := empty, uuid := Text.of (ascii "u"), sdkVer := empty, osVer := empty
      deviceNum := empty, density := empty, pw := empty, ph := empty, lg := empty
      lat := empty, opreator := empty, net := empty, key := Text.of (ascii "k")
      category := empty, timestamp := Text.of (ascii "1"), aw := some (Text.of (ascii "320"))
      ah := some (Text.of (ascii "50")), adnum := 2
      aidList := ascii "7" ++ List.replicate 9 0 ++ ascii "8" ++ List.replicate 9 0 }
  space := 2048
  platformProviderID := some (Text.of (ascii "13"))
  imgDomain := none
  imgUrl := none
  imgSize := []
  bodybyterepy := some fun j => some (Text.of (if j.val = 0 then ascii "x" else ascii "y"))
  hsImageSize := some [Text.of (ascii "320X50")]
  sPutinModelTypereply := some fun j => if j.val = 0 then some (Text.of (ascii "1")) else none
  uuid := fun k => List.replicate 15 0 ++ [k.toUInt8]
  md5 := fun _ => List.replicate 32 48

end Main

end Doorhinges.AdBody

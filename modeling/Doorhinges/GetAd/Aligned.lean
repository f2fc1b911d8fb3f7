import Doorhinges.GetAd.Commands

/-!
# Commands and replies in step

Every path through `get_ad` reads one reply for each command, into its own variable. In
`get_adbody` the ids are part of a format, so it does so exactly if the commands fit their
buffers and the percent signs of the ids come in pairs.
-/
namespace Doorhinges.GetAd

open Lib.CString
open Lib.Redis (Reply)
open Lib.Program
open Lib.Pipeline

/-- Where every read leaves the object of its reply; undefined behaviour is not in step. -/
def InStep {α : Type} (p : Act Reply α) : Prop := Aligned Command.var (fun _ => False) p

section GetAd

variable (c : Call)

theorem reads_eq : c.reads = (c.burst.map Command.query).map Command.var := by
  rw [Call.reads, Call.burst]
  split <;> rfl

theorem command_inStep (q : Query) (m : Vars) : InStep (command some q m) :=
  aligned_bind (aligned_ask _) fun _ => aligned_pure _

theorem askApp_inStep (m : Vars) : InStep (c.askApp some m) := by
  rw [Call.askApp]
  split
  · refine aligned_bind (command_inStep _ _) fun m => ?_
    split
    · exact command_inStep _ _
    · exact aligned_pure _
  · exact aligned_pure _

theorem askCoverage_inStep (m : Vars) : InStep (c.askCoverage some m) := by
  rw [Call.askCoverage]
  split
  · split
    · exact aligned_bind (aligned_deref _) fun ids => command_inStep _ _
    · exact aligned_pure _
  · exact aligned_pure _

theorem askArea_inStep (m : Vars) : InStep (c.askArea some m) := by
  rw [Call.askArea]
  split
  · split
    · exact aligned_pure _
    · refine aligned_bind (aligned_deref _) fun ⟨_, n⟩ => ?_
      dsimp only
      split
      · split
        · exact command_inStep _ _
        · exact aligned_pure _
        · exact command_inStep _ _
      · exact aligned_pure _
  · exact aligned_pure _

theorem getAd_inStep : InStep (c.getAd some) := by
  rw [Call.getAd]
  split
  · exact aligned_pure _
  · refine aligned_bind (aligned_exchange (reads_eq c)) fun rs => ?_
    refine aligned_bind (askApp_inStep _ _) fun m => ?_
    refine aligned_bind (askCoverage_inStep _ _) fun m => ?_
    refine aligned_bind (askArea_inStep _ _) fun m => ?_
    exact aligned_bind (aligned_deref _) fun result => aligned_pure _

end GetAd

section Format

/-- Each percent sign is followed by another, which is left out with it. -/
def paired : Bytes → Bool
  | [] => true
  | [c] => c ≠ 37
  | c :: d :: s => if c = 37 then d = 37 && paired s else paired (d :: s)

/-- The same for a whole text, which may end with a single percent sign. -/
def isFormat : Bytes → Bool
  | [] => true
  | [_] => true
  | c :: d :: s => if c = 37 then d = 37 && isFormat s else isFormat (d :: s)

theorem format_iff (w : Words) (s : Bytes) :
    (∃ argv, redisvFormatCommand w s = .command argv) ↔ isFormat s := by
  fun_induction redisvFormatCommand w s with
  | case1 w => exact iff_of_true ⟨_, rfl⟩ rfl
  | case2 w c ih => exact ih
  | case3 w s ih => simpa [isFormat] using ih
  | case4 w d s hd harg => simp [isFormat, hd]
  | case5 w d s hd harg => simp [isFormat, hd]
  | case6 w c d s hc ih => simpa [isFormat, hc] using ih

theorem paired_of_not_mem {s : Bytes} (h : 37 ∉ s) : paired s := by
  fun_induction paired s with
  | case1 => rfl
  | case2 c => exact decide_eq_true fun hc => h (List.mem_singleton.2 hc.symm)
  | case3 d s ih => exact absurd List.mem_cons_self h
  | case4 c d s hc ih => exact ih fun hs => h (List.mem_cons_of_mem _ hs)

theorem isFormat_append {s : Bytes} (h : paired s) (t : Bytes) :
    isFormat (s ++ t) = isFormat t := by
  fun_induction paired s with
  | case1 => rfl
  | case2 c =>
    have hc : c ≠ 37 := by simpa using h
    cases t with
    | nil => rfl
    | cons d t => simp [isFormat, hc]
  | case3 d s ih =>
    rw [Bool.and_eq_true, decide_eq_true_eq] at h
    rw [h.1, List.cons_append, List.cons_append, isFormat, if_pos rfl, decide_eq_true rfl,
      Bool.true_and, ih h.2]
  | case4 c d s hc ih =>
    rw [List.cons_append, List.cons_append, isFormat, if_neg hc]
    exact ih h

theorem isFormat_append_of_not {s : Bytes} (h : ¬ paired s) {c : UInt8} (hc : c ≠ 37)
    (t : Bytes) : isFormat (s ++ c :: t) = false := by
  fun_induction paired s with
  | case1 => exact absurd rfl h
  | case2 d =>
    have hd : d = 37 := by simpa using h
    rw [hd, List.singleton_append, isFormat, if_pos rfl, decide_eq_false hc, Bool.false_and]
  | case3 d s ih =>
    rw [List.cons_append, List.cons_append, isFormat, if_pos rfl]
    by_cases hd : d = 37
    · rw [ih fun hs => h (by rw [hd, hs]; rfl), Bool.and_false]
    · rw [decide_eq_false hd, Bool.false_and]
  | case4 b d s hb ih =>
    rw [List.cons_append, List.cons_append, isFormat, if_neg hb]
    exact ih h

/-- The words ` ad:<id>:<suffix>` of an MGET. -/
theorem isFormat_words {pre suffix : Bytes} (hpre : 37 ∉ pre) (hsuffix : 37 ∉ suffix)
    (ids : List Bytes) :
    isFormat (ids.flatMap fun id => pre ++ id ++ 58 :: suffix) ↔ ∀ id ∈ ids, paired id := by
  induction ids with
  | nil => exact iff_of_true rfl fun _ h => absurd h List.not_mem_nil
  | cons id ids ih =>
    rw [List.flatMap_cons, List.append_assoc, List.append_assoc,
      isFormat_append (paired_of_not_mem hpre), List.forall_mem_cons]
    by_cases hid : paired id
    · have hend : paired (58 :: suffix) := paired_of_not_mem (by simp [hsuffix])
      rw [isFormat_append hid, isFormat_append hend, ih]
      exact (and_iff_right hid).symm
    · rw [List.cons_append, isFormat_append_of_not hid (by decide)]
      exact iff_of_false (by simp) fun h => hid h.1

end Format

section GetAdbody

open AdBody (Request)

variable {r : Request}

/-- The commands stay in their buffers, and no id has a percent sign without a partner. -/
def WellFormed (r : Request) : Prop :=
  commandsFit r ∧ ∀ i < r.log.adnum, paired (r.aidAt i).1

theorem isFormat_mget {suffix : Bytes} (h : 37 ∉ suffix) :
    isFormat (r.mget suffix) ↔ ∀ i < r.log.adnum, paired (r.aidAt i).1 := by
  have hwords := isFormat_words (show 37 ∉ ascii " ad:" by decide) h
    ((List.range r.log.adnum).map fun i => (r.aidAt i).1)
  have htext : r.mget suffix = ascii "MGET" ++
      ((List.range r.log.adnum).map fun i => (r.aidAt i).1).flatMap
        fun id => ascii " ad:" ++ id ++ 58 :: suffix := by
    rw [Request.mget, List.flatMap_map]
    refine congrArg (ascii "MGET" ++ ·) (List.flatMap_congr fun i _ => ?_)
    rw [List.append_assoc]
    rfl
  rw [htext, isFormat_append (paired_of_not_mem (by decide)), hwords]
  simp

/-- With a text that is no format the reply to the command between is never read. -/
theorem adbodyReplies_inStep_iff (hformat : 37 ∉ r.log.format.1) :
    InStep (adbodyReplies some r) ↔ WellFormed r := by
  have h1 := (format_iff ([], none) _).trans (isFormat_mget (r := r) hformat)
  have h2 := (format_iff ([], none) _).trans
    (isFormat_mget (r := r) (show 37 ∉ ascii "paymodeltype" by decide))
  rw [WellFormed]
  by_cases hfit : commandsFit r
  · rw [and_iff_right hfit, InStep]
    by_cases hids : ∀ i < r.log.adnum, paired (r.aidAt i).1
    · obtain ⟨bodies, hbodies⟩ := h1.2 hids
      obtain ⟨types, htypes⟩ := h2.2 hids
      refine iff_of_true ?_ hids
      rintro ⟨_, n, m⟩ ⟨rfl, hcount⟩
      obtain rfl : n = m := hcount
      rw [adbodyReplies, if_pos hfit]
      simp only [redisAppendCommand, hbodies, htypes]
      exact ⟨trivial, trivial, trivial, rfl, fun _ => ⟨rfl, fun _ => ⟨rfl, fun _ => ⟨rfl, rfl⟩⟩⟩⟩
    · refine iff_of_false (fun hstep => ?_) hids
      have hkeeps := hstep Traffic.none Traffic.level_none
      rw [adbodyReplies, if_pos hfit] at hkeeps
      simp only [redisAppendCommand] at hkeeps
      cases hbodies : redisvFormatCommand ([], none) (r.mget r.log.format) with
      | command argv => exact hids (h1.1 ⟨argv, hbodies⟩)
      | undefined =>
        rw [hbodies] at hkeeps
        exact hkeeps.1
      | invalid =>
        rw [hbodies] at hkeeps
        cases htypes : redisvFormatCommand ([], none) (r.mget (ascii "paymodeltype")) with
        | command argv => exact hids (h2.1 ⟨argv, htypes⟩)
        | undefined =>
          rw [htypes] at hkeeps
          exact hkeeps.2.1
        | invalid =>
          rw [htypes] at hkeeps
          exact absurd hkeeps.2.1 (List.cons_ne_nil _ _)
  · refine iff_of_false (fun hstep => ?_) fun h => hfit h.1
    have hkeeps := hstep Traffic.none Traffic.level_none
    rw [adbodyReplies, if_neg hfit] at hkeeps
    exact hkeeps.1

theorem getAdbody_inStep (h : InStep (adbodyReplies some r)) : InStep (getAdbody some r) :=
  aligned_bind h fun _ => aligned_deref _

end GetAdbody

section Main

open AdBody (Request Text)

/-- `get_ad` is in step on every path; `get_adbody` is if the request is well formed, and its
replies only are then. The format that `ais_ad_set` leaves is `xml` or `json`. -/
theorem inStep_iff (r : Request) (hformat : 37 ∉ r.log.format.1) :
    (∀ c : Call, InStep (c.getAd some)) ∧
      (InStep (adbodyReplies some r) ↔ WellFormed r) ∧
      (WellFormed r → InStep (getAdbody some r)) := by
  have hiff := adbodyReplies_inStep_iff hformat
  exact ⟨getAd_inStep, hiff, fun h => getAdbody_inStep (hiff.2 h)⟩

/-- A request for one banner whose id is the list. -/
def bannerRequest (aidList : Bytes) : Request where
  log :=
    let empty := Text.of []
    { format := Text.of (ascii "json"), adSpaceType := Text.of (ascii "1")
      ppId := Text.of (ascii "13"), appName := empty, ip := Text.of (ascii "1.2.3.4")
      adpPrice := empty, appId := Text.of (ascii "a"), clinet := Text.of (ascii "1")
      deviceType := empty, uuid := Text.of (ascii "u"), sdkVer := empty, osVer := empty
      deviceNum := empty, density := empty, pw := empty, ph := empty, lg := empty
      lat := empty, opreator := empty, net := empty, key := Text.of (ascii "k")
      category := empty, timestamp := Text.of (ascii "1"), aw := some (Text.of (ascii "320"))
      ah := some (Text.of (ascii "50")), adnum := 1, aidList := aidList }
  space := 2048
  platformProviderID := some (Text.of (ascii "13"))
  imgDomain := none
  imgUrl := none
  imgSize := []
  bodybyterepy := none
  hsImageSize := none
  sPutinModelTypereply := none
  uuid := fun _ => List.replicate 16 0
  md5 := fun _ => List.replicate 32 48

theorem inStep_banner : InStep (getAdbody some (bannerRequest (ascii "457" ++ [0]))) := by
  refine (inStep_iff _ ?_).2.2 ⟨?_, ?_⟩
  · decide
  · decide
  · decide

/-- The id `7%z` holds no conversion: both MGET commands are dropped, the one between them is
appended, and no reply is read. -/
theorem not_inStep : ¬ ((∀ c : Call, InStep (c.getAd some)) ∧
    ∀ r : Request, 37 ∉ r.log.format.1 → InStep (getAdbody some r)) := by
  rintro ⟨-, h⟩
  have hstep := h (bannerRequest (ascii "7%z" ++ [0])) (by decide)
  have hrun : getAdbody some (bannerRequest (ascii "7%z" ++ [0])) =
      (append (.imageSize (ascii "1")) : Act Reply Unit).bind fun _ => pure .nothing := by rfl
  rw [hrun] at hstep
  exact absurd (hstep Traffic.none Traffic.level_none).2.1 (List.cons_ne_nil _ _)

end Main

end Doorhinges.GetAd

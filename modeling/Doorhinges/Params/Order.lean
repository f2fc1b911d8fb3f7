import Doorhinges.Params.Md5
import Doorhinges.Params.Signed
import Mathlib.Data.List.Pairwise

/-!
# The order of the parameters

Whether a line is accepted is a question about its tokens one by one, about the parameters
they are for, and about the room they take together; none of it depends on their order. The
tokens that are signed are then sorted, and a row of different tokens has one sorting.
-/
namespace Doorhinges.Params

open Lib.CString
open Query

/-- The array `ais_ad_set` leaves where `OPEN_SIGN` is set. -/
def sortedParray (sort : List Bytes → List Bytes) (s : Bytes) : List Bytes :=
  sort (aisAdSet .start s).1.parray

/-- The calls of `MD5Update` in `ais_md5`. -/
def aisMd5Calls (md5 : List Bytes) (ads : Bytes) : List Bytes := md5 ++ [ads]

/-- The text `ais_md5` leaves in its buffer. -/
def ha1 (stack : Bytes) (md5 : List Bytes) (ads : Bytes) : Bytes :=
  bin2str (md5Final (updates (md5Init stack) (aisMd5Calls md5 ads)))

section Sorted

variable {sort : List Bytes → List Bytes} {a b : Bytes}

theorem compDict_antisymm (hab : compDict a b) (hba : compDict b a) : caseEq a b := by
  rw [caseEq, decide_eq_true_eq]
  induction a generalizing b with
  | nil =>
    cases b with
    | nil => rfl
    | cons y t => cases hba
  | cons x s ih =>
    cases b with
    | nil => cases hab
    | cons y t =>
      rw [compDict] at hab hba
      by_cases hxy : lower x = lower y
      · rw [if_pos hxy] at hab
        rw [if_pos hxy.symm] at hba
        rw [List.map_cons, List.map_cons, hxy, ih hab hba]
      · rw [if_neg hxy, decide_eq_true_eq] at hab
        rw [if_neg (Ne.symm hxy), decide_eq_true_eq] at hba
        exact absurd hab (UInt8.lt_asymm hba)

/-- Rows of the same tokens are sorted alike as long as the case tells them apart. -/
theorem sort_perm (hsort : Sorts sort) {l k : List Bytes} (hperm : l.Perm k)
    (hdiff : k.Pairwise fun a b => caseEq a b = false) : sort l = sort k := by
  have hsymm : Std.Symm fun a b : Bytes => caseEq a b = false := ⟨fun a b h => by
    rw [caseEq, decide_eq_false_iff_not] at h ⊢
    exact Ne.symm h⟩
  apply List.Perm.eq_of_pairwise _ (hsort.ordered l) (hsort.ordered k)
    ((hsort.perm l).trans (hperm.trans (hsort.perm k).symm))
  intro a b ha hb hab hba
  have ha : a ∈ k := hperm.mem_iff.1 ((hsort.perm l).mem_iff.1 ha)
  have hb : b ∈ k := (hsort.perm k).mem_iff.1 hb
  by_contra hne
  have hcase := hdiff.forall ha hb hne
  rw [compDict_antisymm hab hba] at hcase
  cases hcase

end Sorted

/-- What the switch takes of the parameter buffer. -/
def charge (p : Param) (var : Bytes) : Nat :=
  if var = [] ∧ (emptyText p).isSome then 0 else var.length + 1

def cost (pk : Bytes) : Nat :=
  ((paramOf pk).bind fun p => (decodedOf pk).map (charge p)).getD 0

/-- The checks that look at nothing but the token. -/
structure Allowed (pk : Bytes) : Prop where
  decodes : (nameOf pk).isSome → (decodedOf pk).isSome
  accepts : ∀ p var, paramOf pk = some p → decodedOf pk = some var → Accepts p var

section Token

variable {c : Ap} {p : Param} {var pk : Bytes}

/-- A step goes on exactly if `ok` holds and what it takes leaves a byte of the room. -/
structure Takes (c : Ap) (ok : Prop) (n : Nat) (flags : List Param) (r : Ap × Bool) : Prop where
  goes : r.2 ↔ ok ∧ c.last + n < MAX_REQUEST_BUF_SIZE
  last : r.2 → r.1.last = c.last + n
  flags : r.2 → r.1.flags = flags

theorem Takes.fails {ok : Prop} {n : Nat} {flags : List Param} {r : Ap × Bool} (hr : r.2 = false)
    (hno : ok → ¬ c.last + n < MAX_REQUEST_BUF_SIZE) : Takes c ok n flags r :=
  ⟨iff_of_false (by simp [hr]) fun h => hno h.1 h.2, fun h => absurd h (by simp [hr]),
    fun h => absurd h (by simp [hr])⟩

theorem runMacros_takes (p : Param) (var : Bytes) (c : Ap) (hdef : ¬ Defaults p var) :
    Takes c (Accepts p var) (var.length + 1) c.flags (runMacros p var c (macros p)) := by
  obtain ⟨heq, hbefore, hafter⟩ := macros_eq p
  have hframed : Framed c p (runMacros p var c (macros p)).1 := runMacros_framed (macros p)
  have hflags := hframed.flags
  have haccept : Accepts p var ↔ (macros p).all (·.passes var) := or_iff_right hdef
  obtain ⟨-, hlast, hok⟩ := runMacros_checks p var (c := c) hbefore
  rw [heq, List.all_append, Bool.and_eq_true] at haccept
  rw [heq, runMacros_append, hok] at hflags ⊢
  cases hpass : (before p).all (·.passes var) with
  | false =>
    refine Takes.fails (hok.trans hpass) fun h => ?_
    exact absurd (hpass.symm.trans (haccept.1 h).1) Bool.false_ne_true
  | true =>
    rw [hpass, if_pos rfl] at hflags
    rw [if_pos rfl, runMacros] at *
    by_cases hroom : MAX_REQUEST_BUF_SIZE < c.last + var.length + 2
    · have hcopy : runMacro p var (runMacros p var c (before p)).1 .copy =
          ((runMacros p var c (before p)).1, false) := by
        rw [runMacro, hlast, if_pos hroom]
      rw [hcopy, if_neg Bool.false_ne_true]
      exact Takes.fails rfl fun _ => by omega
    · have hcopy : (runMacro p var (runMacros p var c (before p)).1 .copy).2 ∧
          (runMacro p var (runMacros p var c (before p)).1 .copy).1.last =
            c.last + var.length + 1 := by
        rw [runMacro, hlast, if_neg hroom]
        exact ⟨rfl, rfl⟩
      obtain ⟨-, hlast', hok'⟩ := runMacros_checks p var
        (c := (runMacro p var (runMacros p var c (before p)).1 .copy).1) hafter
      rw [if_pos hcopy.1] at hflags ⊢
      refine ⟨?_, fun _ => hlast'.trans hcopy.2, fun _ => hflags⟩
      rw [hok', haccept, and_iff_right hpass, List.all_cons, Macro.passes, Bool.true_and,
        and_iff_left (by omega)]

theorem setParam_takes (p : Param) (var : Bytes) (c : Ap) (hroom : c.last < MAX_REQUEST_BUF_SIZE) :
    Takes c (Accepts p var) (charge p var) c.flags (setParam c p var) := by
  rw [setParam, charge]
  cases hempty : emptyText p with
  | none =>
    rw [if_neg (by simp)]
    exact runMacros_takes p var c (by simp [Defaults, hempty])
  | some s =>
    dsimp only
    by_cases hvar : var = []
    · rw [if_pos hvar, if_pos ⟨hvar, rfl⟩]
      have hdef : Accepts p var := Or.inl ⟨hvar, by simp [hempty]⟩
      exact ⟨iff_of_true rfl ⟨hdef, hroom⟩, fun _ => rfl, fun _ => rfl⟩
    · rw [if_neg hvar, if_neg fun h => hvar h.1]
      exact runMacros_takes p var c fun hdef => hvar hdef.1

theorem setKnown_takes (p : Param) (var : Bytes) (c : Ap) (hroom : c.last < MAX_REQUEST_BUF_SIZE) :
    Takes c (Accepts p var ∧ p ∉ c.flags) (charge p var) (p :: c.flags) (setKnown c p var) := by
  rw [setKnown]
  by_cases hp : p ∈ c.flags
  · rw [if_pos hp]
    exact Takes.fails rfl fun h => absurd hp h.2
  · have hset := setParam_takes p var { c with code := .parametrerNotfull } hroom
    rw [if_neg hp, and_iff_left hp]
    dsimp only
    by_cases hok : (setParam { c with code := .parametrerNotfull } p var).2
    · rw [if_pos hok]
      exact ⟨iff_of_true rfl (hset.goes.1 hok), fun _ => hset.last hok,
        fun _ => congrArg (p :: ·) (hset.flags hok)⟩
    · rw [if_neg hok]
      exact ⟨hset.goes, hset.last, fun h => absurd h hok⟩

theorem setToken_takes (pk : Bytes) (c : Ap) (hroom : c.last < MAX_REQUEST_BUF_SIZE) :
    Takes c (Allowed pk ∧ ∀ p, paramOf pk = some p → p ∉ c.flags) (cost pk)
      ((paramOf pk).toList ++ c.flags) (setToken c pk) := by
  rw [setToken, cost]
  cases hname : nameOf pk with
  | none =>
    have hparam : paramOf pk = none := by
      rw [paramOf, hname]
      rfl
    rw [hparam]
    have hallowed : Allowed pk := ⟨by simp [hname], by simp [hparam]⟩
    exact ⟨iff_of_true rfl ⟨⟨hallowed, by simp⟩, hroom⟩, fun _ => rfl, fun _ => rfl⟩
  | some key =>
    have hdecoded : decodedOf pk = aisGetVar pk key 2048 := by
      rw [decodedOf, hname]
      rfl
    have hparam : paramOf pk = aisGetMask key := by
      rw [paramOf, hname]
      rfl
    dsimp only
    cases hvar : aisGetVar pk key 2048 with
    | none =>
      refine Takes.fails rfl fun h => ?_
      have hsome := h.1.decodes (by simp [hname])
      rw [hdecoded, hvar] at hsome
      cases hsome
    | some var =>
      obtain ⟨-, hflags, hlast⟩ := keep_eq c (aisGetMask key) pk var
      have hval : decodedOf pk = some var := hdecoded.trans hvar
      dsimp only
      rw [hparam, hval]
      generalize c.keep (aisGetMask key) pk var = d at hflags hlast ⊢
      cases hmask : aisGetMask key with
      | none =>
        have hallowed : Allowed pk := ⟨by simp [hval], by simp [hparam, hmask]⟩
        exact ⟨iff_of_true rfl ⟨⟨hallowed, by simp⟩, hroom⟩, fun _ => hlast, fun _ => hflags⟩
      | some p =>
        have hallowed : Allowed pk ↔ Accepts p var := by
          refine ⟨fun h => h.accepts p var (hparam.trans hmask) hval, fun h => ⟨by simp [hval], ?_⟩⟩
          intro q v hq hv
          obtain rfl := Option.some.inj (hmask.symm.trans (hparam.symm.trans hq))
          obtain rfl := Option.some.inj (hval.symm.trans hv)
          exact h
        have hset := setKnown_takes p var d (hlast ▸ hroom)
        rw [hflags] at hset
        have hparams : (∀ q, some p = some q → q ∉ c.flags) ↔ p ∉ c.flags :=
          ⟨fun h => h p rfl, fun h q hq => Option.some.inj hq ▸ h⟩
        refine ⟨?_, ?_, hset.flags⟩
        · rw [hset.goes, hallowed, hparams, hlast]
          rfl
        · rw [← hlast]
          exact hset.last

end Token

/-- The loop goes through to its end. -/
structure Passes (last : Nat) (flags : List Param) (pks : List Bytes) : Prop where
  allowed : ∀ pk ∈ pks, Allowed pk
  fresh : ∀ p ∈ pks.filterMap paramOf, p ∉ flags
  once : (pks.filterMap paramOf).Nodup
  room : last + (pks.map cost).sum < MAX_REQUEST_BUF_SIZE

section Accepted

variable {c : Ap} {pks pks' : List Bytes} {pk : Bytes} {last : Nat} {flags : List Param}

/-- One more token in front. -/
theorem passes_cons : Passes last flags (pk :: pks) ↔
    ((Allowed pk ∧ ∀ p, paramOf pk = some p → p ∉ flags) ∧
        last + cost pk < MAX_REQUEST_BUF_SIZE) ∧
      Passes (last + cost pk) ((paramOf pk).toList ++ flags) pks := by
  have hmap : (pk :: pks).filterMap paramOf = (paramOf pk).toList ++ pks.filterMap paramOf := by
    rw [List.filterMap_cons]
    cases paramOf pk <;> rfl
  have hsum : ((pk :: pks).map cost).sum = cost pk + (pks.map cost).sum := by
    rw [List.map_cons, List.sum_cons]
  constructor
  · intro h
    have hfresh := h.fresh
    have honce := h.once
    have hroom := h.room
    rw [hmap] at hfresh honce
    rw [hsum] at hroom
    obtain ⟨hpk, hpks⟩ := List.forall_mem_cons.1 h.allowed
    obtain ⟨-, honce, hapart⟩ := List.nodup_append.1 honce
    refine ⟨⟨⟨hpk, fun p hp => hfresh p (List.mem_append_left _ (by simp [hp]))⟩, by omega⟩,
      hpks, fun p hp hmem => ?_, honce, by omega⟩
    rcases List.mem_append.1 hmem with hown | hold
    · exact hapart p hown p hp rfl
    · exact hfresh p (List.mem_append_right _ hp) hold
  · rintro ⟨⟨⟨hpk, hown⟩, -⟩, h⟩
    refine ⟨List.forall_mem_cons.2 ⟨hpk, h.allowed⟩, ?_, ?_, ?_⟩
    · rw [hmap]
      intro p hp
      rcases List.mem_append.1 hp with hp | hp
      · exact hown p (by simpa using hp)
      · exact fun hmem => h.fresh p hp (List.mem_append_right _ hmem)
    · rw [hmap]
      refine List.nodup_append.2 ⟨by cases paramOf pk <;> simp, h.once, fun p hp q hq heq => ?_⟩
      exact h.fresh q hq (List.mem_append_left _ (heq ▸ hp))
    · rw [hsum]
      have hroom := h.room
      omega

theorem setTokens_iff (pks : List Bytes) (c : Ap) (hroom : c.last < MAX_REQUEST_BUF_SIZE) :
    (setTokens c pks).2 ↔ Passes c.last c.flags pks := by
  induction pks generalizing c with
  | nil => exact iff_of_true rfl ⟨by simp, by simp, by simp, by simpa using hroom⟩
  | cons pk pks ih =>
    have htoken := setToken_takes pk c hroom
    rw [setTokens, passes_cons, ← htoken.goes]
    by_cases hok : (setToken c pk).2
    · rw [if_pos hok, and_iff_right hok, ih, htoken.last hok, htoken.flags hok]
      rw [htoken.last hok]
      exact (htoken.goes.1 hok).2
    · rw [if_neg hok]
      exact iff_of_false hok fun h => hok h.1

theorem Passes.perm (h : Passes last flags pks) (hperm : pks.Perm pks') :
    Passes last flags pks' where
  allowed pk hpk := h.allowed pk (hperm.mem_iff.2 hpk)
  fresh p hp := h.fresh p ((hperm.filterMap paramOf).mem_iff.2 hp)
  once := (hperm.filterMap paramOf).nodup_iff.1 h.once
  room := (hperm.map cost).sum_nat ▸ h.room

/-- Whether a line is accepted does not depend on the order of its tokens. -/
theorem accepts_perm {s t : Bytes} (h : accepts s) (hperm : (tokens s).Perm (tokens t)) :
    accepts t := by
  have hroom : Ap.start.last < MAX_REQUEST_BUF_SIZE := by decide
  exact (setTokens_iff _ _ hroom).2 (((setTokens_iff _ _ hroom).1 h).perm hperm)

end Accepted

section Main

/-- Lines with the same parameters in another order are accepted together and leave the same
array where the case tells their signed texts apart; the digest of it and the key is that of
every row of calls that feeds the same bytes. -/
theorem signature_of_parameters (sort : List Bytes → List Bytes) (hsort : Sorts sort)
    (s t secretKey : Bytes) (hs : accepts s) (hfew : (kept s).length ≤ 64)
    (hdiff : (kept s).Pairwise fun a b => caseEq a b = false)
    (hperm : (tokens s).Perm (tokens t)) :
    accepts t ∧ sortedParray sort t = sortedParray sort s ∧
      fed (aisMd5Calls (sortedParray sort t) secretKey) =
        fed (aisMd5Calls (sortedParray sort s) secretKey) ∧
      ∀ (stack stack' : Bytes) (calls : List Bytes), stack.length = 64 → stack'.length = 64 →
        fed calls = fed (aisMd5Calls (sortedParray sort s) secretKey) →
          bin2str (md5Final (updates (md5Init stack') calls)) =
            ha1 stack (sortedParray sort t) secretKey := by
  have ht := accepts_perm hs hperm
  have hkept : (kept t).Perm (kept s) := (hperm.filter takesPart).symm
  have hsame : sortedParray sort t = sortedParray sort s := by
    rw [sortedParray, sortedParray, parray_eq ht, parray_eq hs, List.take_of_length_le hfew,
      List.take_of_length_le (hkept.length_eq ▸ hfew)]
    exact sort_perm hsort hkept hdiff
  refine ⟨ht, hsame, by rw [hsame], fun stack stack' calls hstack hstack' hcalls => ?_⟩
  rw [ha1, hsame, md5_pieces hstack' hstack hcalls]

theorem signature_of_parameters_two :
    sortedParray qsort (ascii "Aw=32&Ah=5") = [ascii "Ah=5", ascii "Aw=32"] ∧
      bin2str (md5Final (updates (md5Init (List.replicate 64 1))
          [ascii "Ah=", ascii "5Aw=3", ascii "2k"])) =
        ha1 (List.replicate 64 0) (sortedParray qsort (ascii "Aw=32&Ah=5")) (ascii "k") := by
  have h := signature_of_parameters qsort sorts_qsort (ascii "Ah=5&Aw=32") (ascii "Aw=32&Ah=5")
    (ascii "k") (by decide) (by decide) (by decide) (by decide)
  have hsorted : sortedParray qsort (ascii "Ah=5&Aw=32") = [ascii "Ah=5", ascii "Aw=32"] := by
    decide
  exact ⟨h.2.1.trans hsorted, h.2.2.2 _ _ _ rfl rfl (by rw [hsorted]; decide)⟩

end Main

end Doorhinges.Params

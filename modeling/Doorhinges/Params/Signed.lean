import Doorhinges.Lib.Fields
import Doorhinges.Params.Buffer
import Mathlib.Data.List.Sort

/-!
# The signed text

`ais_md5` is fed the tokens `ais_ad_set` has kept, sorted and without anything between them,
and the secret key. Lines with different parameters have different texts as long as none is
left out and the tokens can be told apart in the text.
-/
namespace Doorhinges.Params

open Lib.CString
open Lib.Fields
open Query

/-- `ais_strcasecmp(a, b) <= 0`. -/
def compDict : Bytes → Bytes → Bool
  | [], _ => true
  | _ :: _, [] => false
  | a :: s, b :: t => if lower a = lower b then compDict s t else lower a < lower b

/-- Tokens without a difference keep their order. -/
def qsort (parray : List Bytes) : List Bytes := parray.insertionSort fun a b => compDict a b

/-- `qsort` with `comp_dict`. -/
structure Sorts (sort : List Bytes → List Bytes) : Prop where
  perm : ∀ l, (sort l).Perm l
  ordered : ∀ l, (sort l).Pairwise fun a b => compDict a b

/-- What `ais_md5` hands to `MD5Update`. -/
def aisMd5 (md5 : List Bytes) (ads : Bytes) : Bytes := md5.flatten ++ ads

/-- `ais_ad_set` returns `AIS_OK`. -/
def accepts (s : Bytes) : Bool := (aisAdSet .start s).2

/-- The text for a line where `OPEN_SIGN` is set. -/
def signedText (s secretKey : Bytes) : Bytes :=
  aisMd5 (qsort (aisAdSet .start s).1.parray) secretKey

/-- The parameters that take no part whatever their value. -/
def excluded (pk : Bytes) : Bool :=
  paramOf pk = some .assUri || paramOf pk = some .assIp || paramOf pk = some .sign

/-- A pair of a name and a decoded value in the line, outside the excluded ones. -/
def Carries (s : Bytes) (q : Bytes × Bytes) : Prop :=
  ∃ pk ∈ tokens s, excluded pk = false ∧ nameOf pk = some q.1 ∧ decodedOf pk = some q.2

instance (s : Bytes) (q : Bytes × Bytes) : Decidable (Carries s q) :=
  inferInstanceAs (Decidable (∃ pk ∈ tokens s,
    excluded pk = false ∧ nameOf pk = some q.1 ∧ decodedOf pk = some q.2))

/-- A token with a value, outside the excluded ones. -/
def takesPart (pk : Bytes) : Bool := !excluded pk && (decodedOf pk).any (· ≠ [])

def kept (s : Bytes) : List Bytes := (tokens s).filter takesPart

/-- The raw name and the raw value of a token. -/
def split (pk : Bytes) : Bytes × Bytes := (pk.takeWhile (· ≠ 61), (pk.dropWhile (· ≠ 61)).tail)

/-- No token is left out, each has one equals sign, and no name ends with another. -/
structure Separable (s t : Bytes) : Prop where
  few : (kept s).length ≤ 64 ∧ (kept t).length ≤ 64
  single : ∀ pk ∈ kept s ++ kept t, 61 ∉ (split pk).2
  names : ∀ pk ∈ kept s, ∀ pk' ∈ kept t, SuffixFree (split pk).1 (split pk').1

section Sorted

variable {a b c : Bytes}

theorem compDict_total (a b : Bytes) : compDict a b ∨ compDict b a := by
  induction a generalizing b with
  | nil => exact Or.inl rfl
  | cons x s ih =>
    cases b with
    | nil => exact Or.inr rfl
    | cons y t =>
      rw [compDict, compDict]
      by_cases hxy : lower x = lower y
      · rw [if_pos hxy, if_pos hxy.symm]
        exact ih t
      · rw [if_neg hxy, if_neg (Ne.symm hxy), decide_eq_true_eq, decide_eq_true_eq]
        exact UInt8.lt_or_lt_of_ne hxy

theorem compDict_trans (hab : compDict a b) (hbc : compDict b c) : compDict a c := by
  induction a generalizing b c with
  | nil => rfl
  | cons x s ih =>
    cases b with
    | nil => cases hab
    | cons y t =>
      cases c with
      | nil => cases hbc
      | cons z u =>
        rw [compDict] at hab hbc ⊢
        by_cases hxy : lower x = lower y
        · rw [if_pos hxy] at hab
          by_cases hyz : lower y = lower z
          · rw [if_pos hyz] at hbc
            rw [if_pos (hxy.trans hyz)]
            exact ih hab hbc
          · rw [if_neg hyz] at hbc
            rw [hxy, if_neg hyz]
            exact hbc
        · rw [if_neg hxy, decide_eq_true_eq] at hab
          by_cases hyz : lower y = lower z
          · rw [← hyz, if_neg hxy]
            exact decide_eq_true hab
          · rw [if_neg hyz, decide_eq_true_eq] at hbc
            have hxz := UInt8.lt_trans hab hbc
            rw [if_neg (UInt8.ne_of_lt hxz)]
            exact decide_eq_true hxz

theorem sorts_qsort : Sorts qsort where
  perm := List.perm_insertionSort _
  ordered := by
    have : Std.Total fun a b => (compDict a b : Prop) := ⟨compDict_total⟩
    have : IsTrans Bytes fun a b => (compDict a b : Prop) := ⟨fun _ _ _ => compDict_trans⟩
    exact List.pairwise_insertionSort _

end Sorted

section Kept

variable {p : Param} {var pk : Bytes} {c : Ap}

theorem runMacro_parray (m : Macro) : (runMacro p var c m).1.parray = c.parray := by
  cases m with
  | copy =>
    rw [runMacro]
    split <;> rfl
  | _ => rfl

theorem runMacros_parray (ms : List Macro) : (runMacros p var c ms).1.parray = c.parray := by
  induction ms generalizing c with
  | nil => rfl
  | cons m ms ih =>
    rw [runMacros]
    split
    · exact (ih ..).trans (runMacro_parray m)
    · exact runMacro_parray m

theorem setKnown_parray : (setKnown c p var).1.parray = c.parray := by
  have hset : ∀ c : Ap, (setParam c p var).1.parray = c.parray := by
    intro c
    rw [setParam]
    cases emptyText p with
    | none => exact runMacros_parray _
    | some s =>
      dsimp only
      split
      · rfl
      · exact runMacros_parray _
  rw [setKnown]
  split
  · rfl
  · dsimp only
    split <;> exact hset _

/-- One more token is kept as long as there are fewer than 64. -/
theorem setToken_parray (hok : (setToken c pk).2) : (setToken c pk).1.parray =
    if takesPart pk ∧ c.parray.length < 64 then c.parray ++ [pk] else c.parray := by
  rw [setToken] at hok ⊢
  cases hname : nameOf pk with
  | none =>
    have htakes : takesPart pk = false := by simp [takesPart, decodedOf, hname]
    simp [htakes]
  | some key =>
    rw [hname] at hok
    dsimp only at hok ⊢
    cases hvar : aisGetVar pk key 2048 with
    | none =>
      rw [hvar] at hok
      cases hok
    | some var =>
      have hkeep : (c.keep (aisGetMask key) pk var).parray =
          if takesPart pk ∧ c.parray.length < 64 then c.parray ++ [pk] else c.parray := by
        have hparam : paramOf pk = aisGetMask key := by
          rw [paramOf, hname]
          rfl
        have hval : decodedOf pk = some var := by
          rw [decodedOf, hname]
          exact hvar
        rw [Ap.keep, takesPart, excluded, hval, hparam]
        by_cases hroom : c.parray.length < 64
        · by_cases hv : var = []
          · simp [hv]
          · by_cases h1 : aisGetMask key = some .assUri
            · simp [h1]
            · by_cases h2 : aisGetMask key = some .assIp
              · simp [h2]
              · by_cases h3 : aisGetMask key = some .sign
                · simp [h3]
                · simp [hv, h1, h2, h3, hroom]
        · simp [hroom]
      dsimp only
      rw [← hkeep]
      cases aisGetMask key with
      | none => rfl
      | some p => exact setKnown_parray

theorem setTokens_parray (pks : List Bytes) (hok : (setTokens c pks).2)
    (hlen : c.parray.length ≤ 64) : (setTokens c pks).1.parray =
      c.parray ++ (pks.filter takesPart).take (64 - c.parray.length) := by
  induction pks generalizing c with
  | nil => simp [setTokens]
  | cons pk pks ih =>
    rw [setTokens] at hok ⊢
    split at hok
    · rename_i hpk
      have hparray := setToken_parray hpk
      rw [if_pos hpk, List.filter_cons]
      by_cases htakes : takesPart pk
      · by_cases hroom : c.parray.length < 64
        · rw [if_pos ⟨htakes, hroom⟩] at hparray
          have hlen' : (setToken c pk).1.parray.length = c.parray.length + 1 := by
            rw [hparray, List.length_append, List.length_singleton]
          have hrest : 64 - c.parray.length = 64 - (c.parray.length + 1) + 1 := by omega
          rw [ih hok (by omega), hlen', hparray, if_pos htakes, hrest, List.take_succ_cons,
            List.append_assoc, List.singleton_append]
        · rw [if_neg fun h => hroom h.2] at hparray
          have hfull : 64 - c.parray.length = 0 := by omega
          rw [ih hok (by rw [hparray]; exact hlen), hparray, hfull, List.take_zero, List.take_zero]
      · rw [if_neg fun h => htakes h.1] at hparray
        rw [ih hok (by rw [hparray]; exact hlen), hparray, if_neg htakes]
    · rename_i hpk
      exact absurd hok hpk

theorem parray_eq {s : Bytes} (h : accepts s) :
    (aisAdSet .start s).1.parray = (kept s).take 64 :=
  setTokens_parray (tokens s) h (Nat.zero_le _)

/-- The signed text is that of the kept tokens in their sorted order. -/
theorem signedText_eq {s : Bytes} (h : accepts s) (secretKey : Bytes) :
    signedText s secretKey = (qsort ((kept s).take 64)).flatten ++ secretKey := by
  rw [signedText, parray_eq h]
  rfl

end Kept

section Cut

variable {s t pk : Bytes}

theorem mem_kept (h : pk ∈ kept s) : pk ∈ tokens s ∧ takesPart pk :=
  List.mem_filter.1 h

theorem field_split (h : pk ∈ kept s) : field 61 (split pk) = pk ∧ 61 ∉ (split pk).1 := by
  have hmem : 61 ∈ pk := by
    by_contra hno
    have hname : nameOf pk = none := if_neg hno
    have hnone : decodedOf pk = none := by rw [decodedOf, hname]; rfl
    have htakes := (mem_kept h).2
    rw [takesPart, hnone, Option.any_none, Bool.and_false] at htakes
    cases htakes
  refine ⟨?_, fun hin => by simpa using List.mem_takeWhile_imp hin⟩
  have hdrop : pk.dropWhile (· ≠ 61) = 61 :: (pk.dropWhile (· ≠ 61)).tail := by
    cases hd : pk.dropWhile (· ≠ 61) with
    | nil =>
      have hall := List.dropWhile_eq_nil_iff.1 hd 61 hmem
      simp at hall
    | cons c rest =>
      have hc := List.head?_dropWhile_not (· ≠ 61) pk
      rw [hd] at hc
      have hc : c = 61 := by simpa using hc
      rw [hc]
      rfl
  calc field 61 (split pk)
      = pk.takeWhile (· ≠ 61) ++ 61 :: (pk.dropWhile (· ≠ 61)).tail := rfl
    _ = pk.takeWhile (· ≠ 61) ++ pk.dropWhile (· ≠ 61) := by rw [← hdrop]
    _ = pk := List.takeWhile_append_dropWhile

theorem flatten_eq_row {l : List Bytes} (h : ∀ pk ∈ l, pk ∈ kept s) :
    l.flatten = row 61 (l.map split) := by
  rw [row, List.flatMap_map, ← List.flatMap_id']
  exact List.flatMap_congr fun pk hpk => (field_split (h pk hpk)).1.symm

/-- Rows of tokens that can be told apart are the same where their texts are. -/
theorem eq_of_flatten (hsep : Separable s t) {l k : List Bytes} (hl : l.Perm (kept s))
    (hk : k.Perm (kept t)) (h : l.flatten = k.flatten) : l = k := by
  have hls : ∀ pk ∈ l, pk ∈ kept s := fun pk hpk => hl.mem_iff.1 hpk
  have hkt : ∀ pk ∈ k, pk ∈ kept t := fun pk hpk => hk.mem_iff.1 hpk
  have hrow : [] ++ row 61 (l.map split) = [] ++ row 61 (k.map split) := by
    rw [List.nil_append, List.nil_append, ← flatten_eq_row hls, ← flatten_eq_row hkt, h]
  have hmap : l.map split = k.map split := by
    refine (row_inj ?_ ?_ ?_ List.not_mem_nil List.not_mem_nil hrow).2
    · intro q hq
      obtain ⟨pk, hpk, rfl⟩ := List.mem_map.1 hq
      exact ⟨(field_split (hls pk hpk)).2, hsep.single pk (List.mem_append_left _ (hls pk hpk))⟩
    · intro q hq
      obtain ⟨pk, hpk, rfl⟩ := List.mem_map.1 hq
      exact ⟨(field_split (hkt pk hpk)).2, hsep.single pk (List.mem_append_right _ (hkt pk hpk))⟩
    · intro q hq r hr
      obtain ⟨pk, hpk, rfl⟩ := List.mem_map.1 hq
      obtain ⟨pk', hpk', rfl⟩ := List.mem_map.1 hr
      exact hsep.names pk (hls pk hpk) pk' (hkt pk' hpk')
  have hback : ∀ (m : List Bytes) (u : Bytes), (∀ pk ∈ m, pk ∈ kept u) →
      (m.map split).map (field 61) = m := by
    intro m u hm
    rw [List.map_map]
    exact (List.map_congr_left fun pk hpk => (field_split (hm pk hpk)).1).trans (List.map_id m)
  rw [← hback l s hls, hmap, hback k t hkt]

/-- The pairs with a value are those of the tokens that take part. -/
theorem carries_iff {q : Bytes × Bytes} (hq : q.2 ≠ []) :
    Carries s q ↔ ∃ pk ∈ kept s, nameOf pk = some q.1 ∧ decodedOf pk = some q.2 := by
  constructor
  · rintro ⟨pk, hpk, hout, hname, hval⟩
    refine ⟨pk, List.mem_filter.2 ⟨hpk, ?_⟩, hname, hval⟩
    rw [takesPart, hout, hval]
    simpa using hq
  · rintro ⟨pk, hpk, hname, hval⟩
    obtain ⟨htok, htakes⟩ := mem_kept hpk
    refine ⟨pk, htok, ?_, hname, hval⟩
    rw [takesPart, Bool.and_eq_true] at htakes
    simpa using htakes.1

end Cut

section Known

/-- In the table only a name that is left out ends with another. -/
theorem params_suffix : ∀ a ∈ params, ∀ b ∈ params, a.1 ≠ .assIp → b.1 ≠ .assIp →
    a.2.map lower <:+ b.2.map lower → a.2.map lower = b.2.map lower := by
  decide +kernel

theorem params_length : ∀ a ∈ params, a.2.length < 255 := by decide

/-- The name of a token for a known parameter is that of the table, up to its case. -/
theorem split_known {pk : Bytes} {p : Param} (h : paramOf pk = some p) :
    ∃ a ∈ params, a.1 = p ∧ (split pk).1.map lower = a.2.map lower := by
  obtain ⟨key, hname, hmask⟩ := Option.bind_eq_some_iff.1 h
  obtain ⟨a, hfind, rfl⟩ := Option.map_eq_some_iff.1 hmask
  have ha := List.mem_of_find?_eq_some hfind
  have hcase : a.2.map lower = key.map lower := by
    simpa [caseEq] using List.find?_some hfind
  rw [nameOf] at hname
  split at hname
  · obtain rfl := Option.some.inj hname
    -- a known name is too short to have been cut
    have hlen := congrArg List.length hcase
    have hshort := params_length a ha
    rw [List.length_map, List.length_map, List.length_take] at hlen
    have hwhole : (pk.takeWhile (· ≠ 61)).take 255 = (split pk).1 :=
      List.take_of_length_le (by omega)
    exact ⟨a, ha, rfl, by rw [hcase, hwhole]⟩
  · cases hname

/-- The names of known parameters that take part can always be told apart. -/
theorem suffixFree_known {s t pk pk' : Bytes} (hpk : pk ∈ kept s) (hpk' : pk' ∈ kept t)
    (h : (paramOf pk).isSome) (h' : (paramOf pk').isSome) :
    SuffixFree (split pk).1 (split pk').1 := by
  have hout : ∀ {u v : Bytes} {p : Param}, v ∈ kept u → paramOf v = some p → p ≠ .assIp := by
    intro u v p hv hp heq
    have htakes := (mem_kept hv).2
    rw [takesPart, excluded, hp, heq] at htakes
    cases htakes
  have hsuffix : ∀ {u u' v v' : Bytes}, v ∈ kept u → v' ∈ kept u' → (paramOf v).isSome →
      (paramOf v').isSome → (split v).1 <:+ (split v').1 → (split v).1 = (split v').1 := by
    intro u u' v v' hv hv' hp hp' hsuf
    obtain ⟨p, hp⟩ := Option.isSome_iff_exists.1 hp
    obtain ⟨p', hp'⟩ := Option.isSome_iff_exists.1 hp'
    obtain ⟨a, ha, hap, heq⟩ := split_known hp
    obtain ⟨b, hb, hbp, heq'⟩ := split_known hp'
    have hlower := params_suffix a ha b hb (hap ▸ hout hv hp) (hbp ▸ hout hv' hp')
      (heq ▸ heq' ▸ hsuf.map lower)
    refine hsuf.eq_of_length ?_
    have hlen := congrArg List.length (heq.trans (hlower.trans heq'.symm))
    rwa [List.length_map, List.length_map] at hlen
  exact ⟨hsuffix hpk hpk' h h', hsuffix hpk' hpk h' h⟩

end Known

section Main

/-- The text is that of the first 64 tokens with a value, sorted. Different parameters with a
value have different texts where no token is left out and the tokens can be told apart; by
their names, those of the table always can. -/
theorem signed_commits :
    (Sorts qsort ∧ ∀ s secretKey, accepts s →
      signedText s secretKey = (qsort ((kept s).take 64)).flatten ++ secretKey) ∧
    (∀ s t secretKey, accepts s → accepts t → Separable s t →
      (∃ q : Bytes × Bytes, q.2 ≠ [] ∧ ¬ (Carries s q ↔ Carries t q)) →
        signedText s secretKey ≠ signedText t secretKey) ∧
    ∀ s t, ∀ pk ∈ kept s, ∀ pk' ∈ kept t, (paramOf pk).isSome → (paramOf pk').isSome →
      SuffixFree (split pk).1 (split pk').1 := by
  refine ⟨⟨sorts_qsort, fun s secretKey hs => signedText_eq hs secretKey⟩,
    fun s t secretKey hs ht hsep ⟨q, hq, hne⟩ heq => ?_,
    fun s t pk hpk pk' hpk' h h' => suffixFree_known hpk hpk' h h'⟩
  have hls : (qsort (kept s)).Perm (kept s) := sorts_qsort.perm _
  have hkt : (qsort (kept t)).Perm (kept t) := sorts_qsort.perm _
  have hflat : (qsort (kept s)).flatten = (qsort (kept t)).flatten := by
    rw [signedText_eq hs, signedText_eq ht, List.take_of_length_le hsep.few.1,
      List.take_of_length_le hsep.few.2] at heq
    exact List.append_cancel_right heq
  have hperm : (kept s).Perm (kept t) :=
    hls.symm.trans (eq_of_flatten hsep hls hkt hflat ▸ hkt)
  refine hne ?_
  rw [carries_iff hq, carries_iff hq]
  exact exists_congr fun pk => and_congr_left fun _ => hperm.mem_iff

theorem signed_commits_two :
    signedText (ascii "Ah=5&Aw=32") (ascii "k") ≠ signedText (ascii "Aw=320&Ah=5") (ascii "k") ∧
      signedText (ascii "Aw=320&Ah=5") (ascii "k") = ascii "Ah=5Aw=320k" := by
  constructor
  · exact signed_commits.2.1 _ _ _ (by decide) (by decide) ⟨by decide, by decide, by decide⟩
      ⟨(ascii "Aw", ascii "32"), by decide, by decide⟩
  · exact (signed_commits.1.2 _ _ (by decide)).trans (by decide)

/-- Two lines, and a pair only one of them carries. In the first case an equals sign in a value
hides where a parameter ends, in the second a name that ends with another; then the 65th
parameter, and an empty value. -/
def clashes : List (Bytes × Bytes × Bytes × Bytes) :=
  [(ascii "X=1Y=2", ascii "X=1&Y=2", ascii "Y", ascii "2"),
    (ascii "A=1B&C=2", ascii "A=1&BC=2", ascii "C", ascii "2"),
    ((List.replicate 64 (ascii "x=1&")).flatten ++ ascii "y=2",
      (List.replicate 64 (ascii "x=1&")).flatten ++ ascii "y=3", ascii "y", ascii "2"),
    (ascii "X=1", ascii "X=1&Y=", ascii "Y", [])]

theorem not_committed :
    (¬ ∀ s t secretKey, accepts s → accepts t → (∃ q, ¬ (Carries s q ↔ Carries t q)) →
      signedText s secretKey ≠ signedText t secretKey) ∧
    ∀ e ∈ clashes, accepts e.1 ∧ accepts e.2.1 ∧ ¬ (Carries e.1 e.2.2 ↔ Carries e.2.1 e.2.2) ∧
      signedText e.1 [] = signedText e.2.1 [] := by
  have hclash : ∀ e ∈ clashes, accepts e.1 ∧ accepts e.2.1 ∧
      ¬ (Carries e.1 e.2.2 ↔ Carries e.2.1 e.2.2) ∧ signedText e.1 [] = signedText e.2.1 [] := by
    decide +kernel
  refine ⟨fun h => ?_, hclash⟩
  obtain ⟨hs, ht, hne, heq⟩ := hclash _ List.mem_cons_self
  exact h _ _ _ hs ht ⟨_, hne⟩ heq

end Main

end Doorhinges.Params

import Doorhinges.Cgi.Unescape

/-!
# What is bound to a name

`cut` follows the loop of `Map_Cgi_Params` on the texts between the delimiters alone. When
no percent sign is cut off by the end of its text, each name and each value is the decoded
form of its own text; else the decoder reads past a terminator.
-/
namespace Doorhinges.Cgi

open Lib.CString
open Query (cstr)

/-- The number returned, the texts decoded, and the bindings made, in order. -/
structure Cut where
  ret : Int
  texts : List Bytes
  bound : List (Bytes × Bytes)

def Cut.add (c : Cut) (text : Bytes) (bound : List (Bytes × Bytes)) : Cut :=
  ⟨c.ret, text :: c.texts, bound ++ c.bound⟩

/-- The loop on the texts; `name` is the text of the name whose value comes next. -/
def cutFrom : Nat → Option Bytes → Bytes → Cut
  | _, _, [] => ⟨0, [], []⟩
  | 0, _, _ :: _ => ⟨0, [], []⟩
  | fuel + 1, none, c :: cs =>
    let text := textOf ((c :: cs).dropWhile isDelim)
    let after := afterText ((c :: cs).dropWhile isDelim)
    if after.head? ≠ some 61 ∨ after.length = 1 then
      if after.length ≠ 1 then ⟨-3, [text], [(text, [])]⟩
      else (cutFrom fuel none after.tail).add text [(text, [])]
    else (cutFrom fuel (some text) after.tail).add text []
  | fuel + 1, some name, c :: cs =>
    (cutFrom fuel none (afterText (c :: cs)).tail).add (textOf (c :: cs))
      [(name, textOf (c :: cs))]

def cut (buffer : Bytes) : Cut := cutFrom buffer.length none buffer

/-- The string a text stands for. -/
def decoded (text : Bytes) : Bytes := cstr (unescape (text.map plus))

/-- A binding; names that decode to the empty string are not bound. -/
def bindDecoded (param : Params) (b : Bytes × Bytes) : Params :=
  if decoded b.1 = [] then param else param.bind (decoded b.1) (decoded b.2)

/-- Nothing is read past a terminator, the loops end, and each string is that of its own
text. -/
def OwnText (param : Params) (buffer lexeme : Bytes) : Prop :=
  ∃ o, mapCgiParams param (some buffer) (some lexeme) = some o ∧
    (∀ r ∈ o.reads, r.index ≤ r.terminator) ∧ o.ret = (cut buffer).ret ∧
      o.param = (cut buffer).bound.foldl bindDecoded param

section Decode

theorem plus_eq_percent (c : UInt8) : plus c = 37 ↔ c = 37 := by
  unfold plus
  split
  · rename_i h
    subst h
    decide
  · rfl

theorem complete_plus (text : Bytes) : complete (text.map plus) = complete text := by
  induction text using text_cases with
  | nil => rfl
  | cut rest hrest =>
    have hrest' : (rest.map plus).length < 2 := by rwa [List.length_map]
    rw [complete_cut hrest]
    exact complete_cut hrest'
  | percent a b rest ih =>
    rw [complete_percent, ← ih]
    exact complete_percent _ _ _
  | cons c rest hc ih =>
    rw [complete_cons hc, ← ih]
    exact complete_cons (mt (plus_eq_percent c).1 hc) _

theorem plus_nul {text : Bytes} (h : 0 ∉ text) : 0 ∉ text.map plus := by
  intro h0
  obtain ⟨c, hc, hplus⟩ := List.mem_map.1 h0
  unfold plus at hplus
  split at hplus
  · cases hplus
  · exact h (hplus ▸ hc)

theorem textOf_subset {rest : Bytes} {c : UInt8} (h : c ∈ textOf rest) : c ∈ rest :=
  (List.takeWhile_sublist _).subset h

theorem length_after (rest : Bytes) : (textOf rest).length + (afterText rest).length = rest.length := by
  rw [← List.length_append, textOf, afterText, List.takeWhile_append_dropWhile]

theorem length_store {lexeme text : Bytes} (h : text.length < lexeme.length) :
    (store lexeme text).length = lexeme.length := by
  simp only [store, List.length_append, List.length_cons, List.length_drop]
  omega

/-- A complete lexeme is decoded to its own string. -/
theorem unescapeUrl_complete {lexeme text : Bytes} (hc : complete text = true) (h0 : 0 ∉ text)
    (hlen : text.length < lexeme.length) :
    ∃ url rs, unescapeUrl (store lexeme (text.map plus)) = some (url, rs) ∧
      (∀ i ∈ rs, i ≤ text.length) ∧ url.length = lexeme.length ∧ cstr url = decoded text := by
  have hlen' : (text.map plus).length < lexeme.length := by rwa [List.length_map]
  have hstore : (store lexeme (text.map plus)).drop 0 = text.map plus ++ 0 :: _ := List.drop_zero
  obtain ⟨url, rs, tail, hrun, hrs, hurl, heq⟩ := unescapeFrom_complete [] (x := 0)
    (by rwa [complete_plus]) le_rfl hstore (plus_nul h0)
    (show (text.map plus).length < (store lexeme (text.map plus)).length by
      rwa [length_store hlen'])
  refine ⟨url, rs, by simpa [unescapeUrl] using hrun, by simpa using hrs, ?_, ?_⟩
  · rw [hurl, length_store hlen']
  · rw [heq, List.take_zero, List.nil_append, decoded, cstr, List.takeWhile_append]
    split
    · rw [List.takeWhile_cons_of_neg (by decide), List.append_nil]
      exact (List.takeWhile_eq_self_iff.2 (List.takeWhile_eq_self_iff.1
        ((List.takeWhile_prefix _).eq_of_length ‹_›))).symm
    · rfl

theorem length_unescape_le (text : Bytes) : (unescape text).length ≤ text.length := by
  induction text using text_cases with
  | nil => exact le_rfl
  | cut rest hrest =>
    match rest with
    | [] | [_] => simp [unescape]
  | percent a b rest ih =>
    rw [unescape_percent]
    simp only [List.length_cons]
    omega
  | cons c rest hc ih =>
    rw [unescape_cons hc]
    simp only [List.length_cons]
    omega

theorem length_decoded_le (text : Bytes) : (decoded text).length ≤ text.length := by
  have h1 : (decoded text).length ≤ (unescape (text.map plus)).length :=
    (List.takeWhile_prefix _).length_le
  have h2 := length_unescape_le (text.map plus)
  rw [List.length_map] at h2
  omega

theorem unescapeUrl_cut {lexeme text : Bytes} (hc : complete text = false) (h0 : 0 ∉ text)
    {r : Bytes × List Nat} (h : unescapeUrl (store lexeme (text.map plus)) = some r) :
    ∃ i ∈ r.2, text.length < i := by
  have hstore : (store lexeme (text.map plus)).drop 0 = text.map plus ++ 0 :: _ := List.drop_zero
  obtain ⟨i, hi, hlt⟩ := unescapeFrom_cut (by rwa [complete_plus]) le_rfl hstore (plus_nul h0) h
  exact ⟨i, hi, by simpa using hlt⟩

end Decode

section Scan

variable {fuel : Nat} {s : Scan} {rest : Bytes}

/-- The loop is where `cutFrom` is. -/
def Scan.At (s : Scan) : Option Bytes → Prop
  | none => s.token = .name
  | some text => s.token = .value ∧ s.name = decoded text

/-- The indices read for one text. -/
def readsOf (text : Bytes) (rs : List Nat) (string : Bytes) : List Read :=
  (rs ++ List.range (string.length + 1)).map (Read.mk · text.length)

theorem readsOf_le {text : Bytes} {rs : List Nat} (h : ∀ i ∈ rs, i ≤ text.length) :
    ∀ r ∈ readsOf text rs (decoded text), r.index ≤ r.terminator := by
  intro r hr
  obtain ⟨i, hi, rfl⟩ := List.mem_map.1 hr
  rcases List.mem_append.1 hi with hi | hi
  · exact h i hi
  · have hlt := List.mem_range.1 hi
    exact (Nat.lt_succ_iff.1 hlt).trans (length_decoded_le text)

/-- The array after one lexeme has been decoded. -/
structure Decodes (s : Scan) (text : Bytes) (url : Bytes) (rs : List Read) : Prop where
  reads : ∀ r ∈ rs, r.index ≤ r.terminator
  length : url.length = s.lexeme.length
  string : cstr url = decoded text

theorem round_name (ht : s.token = .name) (hlen : rest.length < s.lexeme.length) (h0 : 0 ∉ rest)
    (hc : complete (textOf (rest.dropWhile isDelim)) = true) :
    ∃ url rs, Decodes s (textOf (rest.dropWhile isDelim)) url rs ∧ s.round rest = some
      (Scan.named ⟨.name, decoded (textOf (rest.dropWhile isDelim)), s.param, url, s.reads ++ rs⟩
        (afterText (rest.dropWhile isDelim))) := by
  have hle : (textOf (rest.dropWhile isDelim)).length ≤ rest.length :=
    ((List.takeWhile_sublist _).trans (List.dropWhile_sublist _)).length_le
  have hnul : 0 ∉ textOf (rest.dropWhile isDelim) := fun h =>
    h0 ((List.dropWhile_sublist _).subset (textOf_subset h))
  obtain ⟨url, rs, hrun, hrs, hurl, hstr⟩ := unescapeUrl_complete hc hnul (hle.trans_lt hlen)
  refine ⟨url, readsOf _ rs (decoded _), ⟨readsOf_le hrs, hurl, hstr⟩, ?_⟩
  simp [Scan.round, Scan.start, ht, hrun, hstr, readsOf]

theorem round_value (ht : s.token = .value) (hlen : rest.length < s.lexeme.length) (h0 : 0 ∉ rest)
    (hc : complete (textOf rest) = true) :
    ∃ url rs, Decodes s (textOf rest) url rs ∧ s.round rest = some
      (Scan.valued ⟨.value, s.name, s.param, url, s.reads ++ rs⟩ (decoded (textOf rest))
        (afterText rest)) := by
  have hle : (textOf rest).length ≤ rest.length := (List.takeWhile_sublist _).length_le
  have hnul : 0 ∉ textOf rest := fun h => h0 (textOf_subset h)
  obtain ⟨url, rs, hrun, hrs, hurl, hstr⟩ := unescapeUrl_complete hc hnul (hle.trans_lt hlen)
  refine ⟨url, readsOf _ rs (decoded _), ⟨readsOf_le hrs, hurl, hstr⟩, ?_⟩
  simp [Scan.round, Scan.start, ht, hrun, hstr, readsOf]

/-- What a run of the loop gives: `o` is the outcome of the loop from `s` on. -/
structure Scanned (s : Scan) (c : Cut) (o : Outcome) : Prop where
  reads : ∃ rs, o.reads = s.reads ++ rs ∧ ∀ r ∈ rs, r.index ≤ r.terminator
  ret : o.ret = c.ret
  param : o.param = c.bound.foldl bindDecoded s.param

theorem Scanned.step {s s' : Scan} {c : Cut} {o : Outcome} {text url : Bytes} {rs : List Read}
    {bound : List (Bytes × Bytes)} (hd : Decodes s text url rs) (hreads : s'.reads = s.reads ++ rs)
    (hparam : s'.param = bound.foldl bindDecoded s.param) (h : Scanned s' c o) :
    Scanned s (c.add text bound) o := by
  obtain ⟨rs', hrs', hle⟩ := h.reads
  refine ⟨⟨rs ++ rs', ?_, ?_⟩, h.ret, ?_⟩
  · rw [hrs', hreads, List.append_assoc]
  · intro r hr
    rcases List.mem_append.1 hr with hr | hr
    · exact hd.reads r hr
    · exact hle r hr
  · rw [h.param, hparam]
    exact List.foldl_append.symm

theorem bindDecoded_nil (param : Params) (text : Bytes) :
    (if decoded text = [] then param else param.bind (decoded text) []) =
      [(text, [])].foldl bindDecoded param := rfl

theorem length_tail_after {rest : Bytes} {fuel : Nat} (h : rest.length ≤ fuel + 1) :
    (afterText (rest.dropWhile isDelim)).tail.length ≤ fuel := by
  have h1 := length_after (rest.dropWhile isDelim)
  have h2 : (rest.dropWhile isDelim).length ≤ rest.length := (List.dropWhile_sublist _).length_le
  rw [List.length_tail]
  omega

theorem length_tail_after' {rest : Bytes} {fuel : Nat} (h : rest.length ≤ fuel + 1) :
    (afterText rest).tail.length ≤ fuel := by
  have h1 := length_after rest
  rw [List.length_tail]
  omega

theorem after_subset {rest : Bytes} {c : UInt8} (h : c ∈ (afterText rest).tail) : c ∈ rest :=
  (List.dropWhile_sublist _).subset (List.mem_of_mem_tail h)

theorem scan_more {s s' : Scan} {c : UInt8} {cs rest : Bytes}
    (h : s.round (c :: cs) = some (.more s' rest)) :
    scan (fuel + 1) s (c :: cs) = scan fuel s' rest := by
  rw [scan, h]
  rfl

theorem scan_done {s : Scan} {c : UInt8} {cs : Bytes} {o : Outcome}
    (h : s.round (c :: cs) = some (.done o)) : scan (fuel + 1) s (c :: cs) = some o := by
  rw [scan, h]
  rfl

/-- The loop on complete texts. -/
theorem scan_complete {nm : Option Bytes} (hs : s.At nm) (hfuel : rest.length ≤ fuel)
    (hlen : rest.length < s.lexeme.length) (h0 : 0 ∉ rest)
    (hc : ∀ t ∈ (cutFrom fuel nm rest).texts, complete t = true) :
    ∃ o, scan fuel s rest = some o ∧ Scanned s (cutFrom fuel nm rest) o := by
  induction fuel generalizing s nm rest with
  | zero =>
    obtain rfl := List.length_eq_zero_iff.1 (Nat.le_zero.1 hfuel)
    refine ⟨_, by rw [scan], ⟨⟨[], by simp, by simp⟩, ?_, ?_⟩⟩ <;> cases nm <;> rfl
  | succ fuel ih =>
    cases rest with
    | nil => refine ⟨_, by rw [scan], ⟨⟨[], by simp, by simp⟩, ?_, ?_⟩⟩ <;> cases nm <;> rfl
    | cons c cs =>
      cases nm with
      | none =>
        have hfirst : complete (textOf ((c :: cs).dropWhile isDelim)) = true := by
          refine hc _ ?_
          rw [cutFrom]
          split
          · split <;> exact List.mem_cons_self
          · exact List.mem_cons_self
        obtain ⟨url, rs, hd, hround⟩ := round_name hs hlen h0 hfirst
        have htail := length_tail_after hfuel
        have hless := length_tail_after (le_refl ((c :: cs).length))
        have hnul : 0 ∉ (afterText ((c :: cs).dropWhile isDelim)).tail := fun h =>
          h0 ((List.dropWhile_sublist _).subset (after_subset h))
        have hroom : (afterText ((c :: cs).dropWhile isDelim)).tail.length < url.length := by
          rw [hd.length]
          rw [List.length_cons] at hlen
          omega
        rw [cutFrom] at hc ⊢
        generalize textOf ((c :: cs).dropWhile isDelim) = text at hc hd hround ⊢
        generalize afterText ((c :: cs).dropWhile isDelim) = after at hc hround htail hnul hroom ⊢
        rw [Scan.named] at hround
        by_cases hlast : after.head? ≠ some 61 ∨ after.length = 1
        · rw [if_pos hlast] at hc hround ⊢
          by_cases herr : after.length ≠ 1
          · rw [if_pos herr] at hc hround ⊢
            rw [scan_done hround]
            exact ⟨_, rfl, ⟨rs, rfl, hd.reads⟩, rfl, bindDecoded_nil _ _⟩
          · rw [if_neg herr] at hc hround ⊢
            rw [scan_more hround]
            obtain ⟨o, ho, hscan⟩ := ih (s := ⟨.name, decoded text, _, url, s.reads ++ rs⟩)
              (show Scan.At _ none from rfl) htail hroom hnul fun t ht =>
                hc t (List.mem_cons_of_mem _ ht)
            exact ⟨o, ho, hscan.step hd rfl (bindDecoded_nil _ _)⟩
        · rw [if_neg hlast] at hc hround ⊢
          rw [scan_more hround]
          obtain ⟨o, ho, hscan⟩ := ih (s := ⟨.value, decoded text, s.param, url, s.reads ++ rs⟩)
            (show Scan.At _ (some text) from ⟨rfl, rfl⟩) htail hroom hnul fun t ht =>
              hc t (List.mem_cons_of_mem _ ht)
          exact ⟨o, ho, hscan.step hd (by rfl) (by rfl)⟩
      | some name =>
        rw [cutFrom] at hc ⊢
        obtain ⟨url, rs, hd, hround⟩ := round_value hs.1 hlen h0 (hc _ List.mem_cons_self)
        have htail := length_tail_after' hfuel
        have hless := length_tail_after' (le_refl ((c :: cs).length))
        have hroom : (afterText (c :: cs)).tail.length < url.length := by
          rw [hd.length]
          rw [List.length_cons] at hlen
          omega
        rw [scan_more hround]
        obtain ⟨o, ho, hscan⟩ := ih (s := ⟨.name, s.name, _, url, s.reads ++ rs⟩)
          (show Scan.At _ none from rfl) htail hroom (fun h => h0 (after_subset h)) fun t ht =>
            hc t (List.mem_cons_of_mem _ ht)
        refine ⟨o, ho, hscan.step hd rfl ?_⟩
        rw [hs.2]
        rfl

/-- The reads recorded when a round is over. -/
def Round.reads : Round → List Read
  | .more s _ => s.reads
  | .done o => o.reads

theorem named_reads (s : Scan) (after : Bytes) : (s.named after).reads = s.reads := by
  unfold Scan.named
  split
  · dsimp only
    split <;> rfl
  · rfl

/-- A round decodes one text and adds its reads. -/
theorem round_reads {r : Round} (h : s.round rest = some r) :
    ∃ u, unescapeUrl (store s.lexeme ((textOf (s.start rest)).map plus)) = some u ∧
      r.reads = s.reads ++ readsOf (textOf (s.start rest)) u.2 (cstr u.1) := by
  rw [Scan.round] at h
  obtain ⟨⟨url, rs⟩, hu, h⟩ := Option.bind_eq_some_iff.1 h
  refine ⟨_, hu, ?_⟩
  dsimp only at h
  split at h
  · obtain rfl := Option.some.inj h
    exact named_reads _ _
  · obtain rfl := Option.some.inj h
    rfl

theorem scan_reads {o : Outcome} (h : scan fuel s rest = some o) : ∀ r ∈ s.reads, r ∈ o.reads := by
  induction fuel generalizing s rest with
  | zero =>
    cases rest with
    | nil =>
      rw [scan] at h
      obtain rfl := Option.some.inj h
      exact fun _ hr => hr
    | cons c cs => cases h
  | succ fuel ih =>
    cases rest with
    | nil =>
      rw [scan] at h
      obtain rfl := Option.some.inj h
      exact fun _ hr => hr
    | cons c cs =>
      intro r hr
      rw [scan] at h
      obtain ⟨R, hR, h⟩ := Option.bind_eq_some_iff.1 h
      obtain ⟨u, -, hreads⟩ := round_reads hR
      have hmem : r ∈ R.reads := by
        rw [hreads]
        exact List.mem_append_left _ hr
      cases R with
      | more s' rest' => exact ih h r hmem
      | done o' =>
        obtain rfl := Option.some.inj h
        exact hmem

/-- A read past a terminator stays recorded. -/
theorem scan_cut_here {c : UInt8} {cs : Bytes} {o : Outcome} (h0 : 0 ∉ c :: cs)
    (hc : complete (textOf (s.start (c :: cs))) = false)
    (h : scan (fuel + 1) s (c :: cs) = some o) : ∃ r ∈ o.reads, r.terminator < r.index := by
  rw [scan] at h
  obtain ⟨R, hR, h⟩ := Option.bind_eq_some_iff.1 h
  obtain ⟨u, hu, hreads⟩ := round_reads hR
  have hnul : 0 ∉ textOf (s.start (c :: cs)) := by
    intro hmem
    have hmem := textOf_subset hmem
    rw [Scan.start] at hmem
    split at hmem
    · exact h0 ((List.dropWhile_sublist _).subset hmem)
    · exact h0 hmem
  obtain ⟨i, hi, hlt⟩ := unescapeUrl_cut hc hnul hu
  have hmem : ⟨i, (textOf (s.start (c :: cs))).length⟩ ∈ R.reads := by
    rw [hreads]
    exact List.mem_append_right _ (List.mem_map_of_mem (List.mem_append_left _ hi))
  cases R with
  | more s' rest' => exact ⟨_, scan_reads h _ hmem, hlt⟩
  | done o' =>
    obtain rfl := Option.some.inj h
    exact ⟨_, hmem, hlt⟩

/-- A text that is cut off has the loop read past a terminator. -/
theorem scan_cut {nm : Option Bytes} (hs : s.At nm) (hlen : rest.length < s.lexeme.length)
    (h0 : 0 ∉ rest) (hc : ∃ t ∈ (cutFrom fuel nm rest).texts, complete t = false) {o : Outcome}
    (h : scan fuel s rest = some o) : ∃ r ∈ o.reads, r.terminator < r.index := by
  induction fuel generalizing s nm rest with
  | zero =>
    obtain ⟨t, ht, -⟩ := hc
    cases rest <;> cases nm <;> exact absurd ht List.not_mem_nil
  | succ fuel ih =>
    cases rest with
    | nil =>
      obtain ⟨t, ht, -⟩ := hc
      cases nm <;> exact absurd ht List.not_mem_nil
    | cons c cs =>
      cases nm with
      | none =>
        have hstart : s.start (c :: cs) = (c :: cs).dropWhile isDelim := if_pos hs
        cases hfirst : complete (textOf ((c :: cs).dropWhile isDelim)) with
        | false => exact scan_cut_here h0 (by rwa [hstart]) h
        | true =>
          obtain ⟨url, rs, hd, hround⟩ := round_name hs hlen h0 hfirst
          have hless := length_tail_after (le_refl ((c :: cs).length))
          have hnul : 0 ∉ (afterText ((c :: cs).dropWhile isDelim)).tail := fun h =>
            h0 ((List.dropWhile_sublist _).subset (after_subset h))
          have hroom : (afterText ((c :: cs).dropWhile isDelim)).tail.length < url.length := by
            rw [hd.length]
            rw [List.length_cons] at hlen
            omega
          rw [cutFrom] at hc
          generalize textOf ((c :: cs).dropWhile isDelim) = text at hc hround hfirst
          generalize afterText ((c :: cs).dropWhile isDelim) = after at hc hround hnul hroom
          obtain ⟨t, ht, hcut⟩ := hc
          have hne : t ≠ text := by
            rintro rfl
            rw [hcut] at hfirst
            cases hfirst
          rw [Scan.named] at hround
          by_cases hlast : after.head? ≠ some 61 ∨ after.length = 1
          · rw [if_pos hlast] at ht hround
            by_cases herr : after.length ≠ 1
            · rw [if_pos herr] at ht
              exact absurd (List.mem_singleton.1 ht) hne
            · rw [if_neg herr] at ht hround
              rw [scan_more hround] at h
              exact ih (s := ⟨.name, decoded text, _, url, s.reads ++ rs⟩)
                (show Scan.At _ none from rfl) hroom hnul
                ⟨t, (List.mem_cons.1 ht).resolve_left hne, hcut⟩ h
          · rw [if_neg hlast] at ht hround
            rw [scan_more hround] at h
            exact ih (s := ⟨.value, decoded text, s.param, url, s.reads ++ rs⟩)
              (show Scan.At _ (some text) from ⟨rfl, rfl⟩) hroom hnul
              ⟨t, (List.mem_cons.1 ht).resolve_left hne, hcut⟩ h
      | some name =>
        have hstart : s.start (c :: cs) = c :: cs := if_neg (by rw [hs.1]; decide)
        cases hfirst : complete (textOf (c :: cs)) with
        | false => exact scan_cut_here h0 (by rwa [hstart]) h
        | true =>
          obtain ⟨url, rs, hd, hround⟩ := round_value hs.1 hlen h0 hfirst
          have hless := length_tail_after' (le_refl ((c :: cs).length))
          have hroom : (afterText (c :: cs)).tail.length < url.length := by
            rw [hd.length]
            rw [List.length_cons] at hlen
            omega
          rw [scan_more hround] at h
          rw [cutFrom] at hc
          obtain ⟨t, ht, hcut⟩ := hc
          have hne : t ≠ textOf (c :: cs) := by
            rintro rfl
            rw [hcut] at hfirst
            cases hfirst
          exact ih (s := ⟨.name, s.name, _, url, s.reads ++ rs⟩) (show Scan.At _ none from rfl)
            hroom (fun h => h0 (after_subset h))
            ⟨t, (List.mem_cons.1 ht).resolve_left hne, hcut⟩ h

end Scan

/-- Each binding depends on its own text alone exactly when the decoder never stops at a
percent sign with fewer than two bytes left in its text. -/
theorem own_text_iff (param : Params) {buffer lexeme : Bytes} (h0 : 0 ∉ buffer)
    (hlen : lexeme.length = buffer.length + 1) :
    OwnText param buffer lexeme ↔ ∀ t ∈ (cut buffer).texts, complete t = true := by
  have hroom : buffer.length < lexeme.length := by omega
  constructor
  · rintro ⟨o, ho, hreads, -⟩ t ht
    by_contra hc
    obtain ⟨r, hr, hlt⟩ := scan_cut (s := ⟨.name, [], param, lexeme, []⟩)
      (show Scan.At _ none from rfl) hroom h0 ⟨t, ht, by simpa using hc⟩ ho
    have := hreads r hr
    omega
  · intro hc
    obtain ⟨o, ho, hscan⟩ := scan_complete (s := ⟨.name, [], param, lexeme, []⟩)
      (show Scan.At _ none from rfl) le_rfl hroom h0 hc
    obtain ⟨rs, hrs, hle⟩ := hscan.reads
    refine ⟨o, ho, ?_, hscan.ret, hscan.param⟩
    rw [hrs]
    exact hle

theorem own_text_iff_plain : OwnText (fun _ => none) (ascii "k=%41") (List.replicate 6 1) :=
  (own_text_iff _ (by decide) (by decide)).2 (by decide)

/-- `%4` at the end of a value is completed by what an earlier value has left. -/
theorem own_text_cut : ¬ ∀ (param : Params) (buffer lexeme : Bytes), 0 ∉ buffer →
    lexeme.length = buffer.length + 1 → OwnText param buffer lexeme := by
  intro h
  obtain ⟨o, ho, hreads, -⟩ :=
    h (fun _ => none) (ascii "k=12345&v=%4") (List.replicate 13 0) (by decide) (by decide)
  obtain ⟨r, hr, hlt⟩ := scan_cut (s := ⟨.name, [], _, List.replicate 13 0, []⟩)
    (show Scan.At _ none from rfl) (by decide) (by decide) ⟨ascii "%4", by decide, by decide⟩ ho
  exact absurd (hreads r hr) (by omega)

example : ((mapCgiParams (fun _ => none) (some (ascii "k=12345&v=%4"))
    (some (List.replicate 13 0))).bind fun o => o.param (ascii "v")) = some (16 :: ascii "45") := by
  decide

end Doorhinges.Cgi

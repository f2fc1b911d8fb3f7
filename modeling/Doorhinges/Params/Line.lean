import Doorhinges.Params.Model
import Doorhinges.Query.Roundtrip

/-!
# The decoded line

A query of encoded values is decoded as a whole, so its tokens are cut from the
values themselves: a value comes whole if it holds no marker and no ampersand.
-/
namespace Doorhinges.Params

open Lib.CString
open Query

def Param.name (p : Param) : Bytes := ((params.find? (·.1 = p)).map (·.2)).getD []

/-- `name=value`. -/
def pair (q : Param × Bytes) : Bytes := q.1.name ++ 61 :: q.2

/-- The query of a list of parameters, with a buffer for `url_encode` that holds its value. -/
def query (qs : List (Param × Bytes)) : Bytes :=
  [38].intercalate (qs.map fun q => pair (q.1, urlEncode q.2 (3 * q.2.length + 1) true))

/-- The same with the values as they are. -/
def line (qs : List (Param × Bytes)) : Bytes := [38].intercalate (qs.map pair)

theorem name_facts (p : Param) :
    aisGetMask p.name = some p ∧ p.name ≠ [] ∧ 61 ∉ p.name ∧ 38 ∉ p.name ∧ 0 ∉ p.name ∧
      p.name.length ≤ 255 ∧ caseEq (p.name.take 7) (ascii "groupby") = false ∧
      cutMarker p.name = p.name ∧ ∀ c ∈ p.name, Plain false true c := by
  cases p <;> decide +kernel

section Line

theorem decode_pair (p : Param) {v : Bytes} (hv : 0 ∉ v) (rest : Bytes) :
    decode false true (pair (p, urlEncode v (3 * v.length + 1) true) ++ rest) =
      pair (p, v) ++ decode false true rest := by
  obtain ⟨-, -, -, -, -, -, -, -, hplain⟩ := name_facts p
  have heq : urlEncode v (3 * v.length + 1) true = v.flatMap encodeByte :=
    encodeFrom_eq hv (by omega)
  rw [pair, pair, heq, List.append_assoc, List.append_assoc, decode_plain hplain,
    List.cons_append, decode_cons (by decide), decode_encode]
  rfl

/-- The first decoding gives the line with its values. -/
theorem decode_query (qs : List (Param × Bytes)) (hqs : ∀ q ∈ qs, 0 ∉ q.2) :
    decode false true (query qs) = line qs := by
  induction qs with
  | nil => rfl
  | cons q qs ih =>
    obtain ⟨hq, hqs⟩ := List.forall_mem_cons.1 hqs
    cases qs with
    | nil =>
      have h := decode_pair q.1 hq []
      rw [List.append_nil] at h
      simpa [query, line, List.intercalate, decode] using h
    | cons r qs =>
      have h := decode_pair q.1 hq (38 :: query (r :: qs))
      rw [decode_cons (by decide), ih hqs] at h
      rw [query, line, List.map_cons, List.map_cons, List.map_cons, List.map_cons,
        List.intercalate_cons_cons, List.intercalate_cons_cons, List.append_assoc,
        List.append_assoc]
      exact h

theorem line_nul (qs : List (Param × Bytes)) (hqs : ∀ q ∈ qs, 0 ∉ q.2) : 0 ∉ line qs := by
  induction qs with
  | nil => simp [line, List.intercalate]
  | cons q qs ih =>
    obtain ⟨hq, hqs⟩ := List.forall_mem_cons.1 hqs
    obtain ⟨-, -, -, -, hname, -⟩ := name_facts q.1
    have hpair : 0 ∉ pair q := by simp [pair, hname, hq]
    cases qs with
    | nil => simpa [line, List.intercalate] using hpair
    | cons r qs =>
      have ih := ih hqs
      rw [line, List.map_cons] at ih
      rw [line, List.map_cons, List.map_cons, List.intercalate_cons_cons]
      simp only [List.mem_append, List.mem_singleton, hpair, ih, or_false, false_or]
      decide

/-- What `ais_ad_set` is given. -/
theorem aisGet_query (qs : List (Param × Bytes)) (hqs : ∀ q ∈ qs, 0 ∉ q.2)
    (hlen : (line qs).length < MAX_REQUEST_BUF_SIZE) :
    aisGet (query qs) = setTokens .start (tokens (cutMarker (line qs))) := by
  rw [aisGet, aisAdSet, urlDecode, decode_query qs hqs, List.take_of_length_le (by omega),
    cstr_of_nul (line_nul qs hqs)]

end Line

section Marker

theorem prefix_of_prefix_append {m x rest : Bytes} {d : UInt8} (h : m <+: x ++ d :: rest)
    (hd : d ∉ m) : m <+: x := by
  obtain ⟨t, ht⟩ := h
  rcases List.append_eq_append_iff.1 ht with ⟨a, hx, -⟩ | ⟨a, hm, ha⟩
  · exact ⟨a, hx.symm⟩
  · cases a with
    | nil => exact ⟨[], by rw [List.append_nil, hm, List.append_nil]⟩
    | cons e a =>
      obtain ⟨rfl, -⟩ := List.cons.inj ha
      exact absurd (by simp [hm]) hd

theorem cutMarker_cons_eq {c : UInt8} {x : Bytes} :
    cutMarker (c :: x) = c :: x ↔ ¬ marker <+: c :: x ∧ cutMarker x = x := by
  rw [cutMarker]
  split
  · rename_i h
    simp [List.isPrefixOf_iff_prefix.1 h]
  · rename_i h
    have h : ¬ marker <+: c :: x := fun hp => h (List.isPrefixOf_iff_prefix.2 hp)
    simp [h]

theorem cutMarker_cons {c : UInt8} {x : Bytes} (h : ¬ marker <+: c :: x) :
    cutMarker (c :: x) = c :: cutMarker x :=
  if_neg fun hp => h (List.isPrefixOf_iff_prefix.1 hp)

/-- A byte outside the marker ends a text without a marker. -/
theorem cutMarker_append {x : Bytes} {d : UInt8} (hx : cutMarker x = x) (hd : d ∉ marker)
    (rest : Bytes) : cutMarker (x ++ d :: rest) = x ++ d :: cutMarker rest := by
  induction x with
  | nil =>
    refine cutMarker_cons fun h => ?_
    have := (prefix_of_prefix_append (x := []) h hd).length_le
    exact absurd this (by decide)
  | cons c x ih =>
    obtain ⟨hc, hx⟩ := cutMarker_cons_eq.1 hx
    rw [List.cons_append, cutMarker_cons, ih hx, List.cons_append]
    exact fun h => hc (prefix_of_prefix_append (x := c :: x) h hd)

theorem length_of_cutMarker_ne {x : Bytes} (hx : cutMarker x ≠ x) :
    marker.length ≤ x.length := by
  induction x with
  | nil => exact absurd rfl hx
  | cons c x ih =>
    by_cases h : marker <+: c :: x
    · exact h.length_le
    · have hx : cutMarker x ≠ x := fun hx' => hx (cutMarker_cons_eq.2 ⟨h, hx'⟩)
      exact (ih hx).trans (Nat.le_succ _)

/-- Behind a marker nothing matters. -/
theorem cutMarker_append_of_ne {x : Bytes} (hx : cutMarker x ≠ x) (rest : Bytes) :
    cutMarker (x ++ rest) = cutMarker x := by
  induction x with
  | nil => exact absurd rfl hx
  | cons c x ih =>
    by_cases h : marker <+: c :: x
    · have h' : marker <+: c :: (x ++ rest) := h.trans (List.prefix_append (c :: x) rest)
      rw [List.cons_append, cutMarker, cutMarker, if_pos (List.isPrefixOf_iff_prefix.2 h),
        if_pos (List.isPrefixOf_iff_prefix.2 h')]
    · have hx' : cutMarker x ≠ x := fun hx' => hx (cutMarker_cons_eq.2 ⟨h, hx'⟩)
      have h' : ¬ marker <+: c :: (x ++ rest) := fun hp => h <|
        List.prefix_of_prefix_length_le hp (List.prefix_append (c :: x) rest)
          ((length_of_cutMarker_ne hx').trans (Nat.le_succ _))
      rw [List.cons_append, cutMarker_cons h', cutMarker_cons h, ih hx']

theorem prefix_cutMarker (x : Bytes) : cutMarker x <+: x := by
  induction x with
  | nil => exact List.prefix_rfl
  | cons c x ih =>
    rw [cutMarker]
    split
    · exact List.nil_prefix
    · exact (List.prefix_cons_inj c).2 ih

end Marker

section Token

/-- What is left of a value when the line is cut into tokens. -/
def seen (v : Bytes) : Bytes := (cutMarker v).takeWhile (· ≠ 38)

theorem prefix_seen (v : Bytes) : seen v <+: v :=
  (List.takeWhile_prefix _).trans (prefix_cutMarker v)

theorem seen_ampersand (v : Bytes) : 38 ∉ seen v := by
  intro h
  simpa using List.mem_takeWhile_imp h

theorem seen_eq_iff (v : Bytes) : seen v = v ↔ cutMarker v = v ∧ 38 ∉ v := by
  constructor
  · intro h
    have hle : (seen v).length ≤ (cutMarker v).length := (List.takeWhile_prefix _).length_le
    rw [h] at hle
    exact ⟨(prefix_cutMarker v).eq_of_length_le hle, h ▸ seen_ampersand v⟩
  · rintro ⟨hcut, hamp⟩
    rw [seen, hcut]
    exact List.takeWhile_eq_self_iff.2 fun c hc => by simpa using fun h : c = 38 => hamp (h ▸ hc)

theorem tokens_cut {x : Bytes} (hne : x ≠ []) (hx : 38 ∉ x) {rest : Bytes}
    (hrest : ∀ c ∈ rest.head?, c = 38) : tokens (x ++ rest) = x :: tokens rest.tail := by
  cases rest with
  | nil =>
    rw [List.append_nil]
    exact tokens_last hne hx
  | cons c rest =>
    obtain rfl := hrest c rfl
    exact tokens_append hne hx rest

/-- The line of a list of parameters begins with the first of them. -/
theorem line_cons (q : Param × Bytes) (qs : List (Param × Bytes)) :
    ∃ rest, line (q :: qs) = pair q ++ rest ∧
      (rest = [] ∧ qs = [] ∨ rest = 38 :: line qs) := by
  cases qs with
  | nil => exact ⟨[], by simp [line, List.intercalate], Or.inl ⟨rfl, rfl⟩⟩
  | cons r qs =>
    refine ⟨38 :: line (r :: qs), ?_, Or.inr rfl⟩
    rw [line, line, List.map_cons, List.map_cons, List.intercalate_cons_cons, List.append_assoc]
    rfl

/-- The first token of the line, and the others where its value has come whole. -/
theorem tokens_line (p : Param) (v : Bytes) (qs : List (Param × Bytes)) :
    ∃ more, tokens (cutMarker (line ((p, v) :: qs))) = pair (p, seen v) :: more ∧
      (seen v = v → more = tokens (cutMarker (line qs))) := by
  obtain ⟨-, hne, -, hamp, -, -, -, hname, -⟩ := name_facts p
  obtain ⟨rest, hline, hrest⟩ := line_cons (p, v) qs
  -- behind the value the marker leaves nothing or an ampersand with what follows
  obtain ⟨tail, hcut, htail, hwhole⟩ : ∃ tail, cutMarker (v ++ rest) = cutMarker v ++ tail ∧
      (∀ c ∈ tail.head?, c = 38) ∧ (cutMarker v = v → tail.tail = cutMarker (line qs)) := by
    by_cases hv : cutMarker v = v
    · rcases hrest with ⟨rfl, rfl⟩ | rfl
      · exact ⟨[], by simp, by simp, fun _ => rfl⟩
      · exact ⟨38 :: cutMarker (line qs), by rw [cutMarker_append hv (by decide), hv], by simp,
          fun _ => rfl⟩
    · exact ⟨[], by rw [cutMarker_append_of_ne hv, List.append_nil], by simp, fun h => absurd h hv⟩
  have hdrop : ∀ c ∈ ((cutMarker v).dropWhile (· ≠ 38) ++ tail).head?, c = 38 := by
    cases hd : (cutMarker v).dropWhile (· ≠ 38) with
    | nil => exact htail
    | cons c d =>
      intro e he
      obtain rfl : c = e := by simpa using he
      have hc := List.head?_dropWhile_not (fun c : UInt8 => decide (c ≠ 38)) (cutMarker v)
      rw [hd] at hc
      simpa using hc
  have hsplit : cutMarker (line ((p, v) :: qs)) =
      pair (p, seen v) ++ ((cutMarker v).dropWhile (· ≠ 38) ++ tail) := by
    rw [hline, pair, pair, List.append_assoc, List.cons_append, cutMarker_append hname (by decide),
      hcut, List.append_assoc, List.cons_append, ← List.append_assoc, seen,
      List.takeWhile_append_dropWhile]
  have hpair : 38 ∉ pair (p, seen v) := by simp [pair, hamp, seen_ampersand v]
  refine ⟨tokens ((cutMarker v).dropWhile (· ≠ 38) ++ tail).tail,
    by rw [hsplit, tokens_cut (by simp [pair]) hpair hdrop], fun hs => ?_⟩
  obtain ⟨hv, hv38⟩ := (seen_eq_iff v).1 hs
  have hnil : (cutMarker v).dropWhile (fun c => decide (c ≠ 38)) = [] := by
    rw [hv]
    exact List.dropWhile_eq_nil_iff.2 fun c hc => by simpa using fun h : c = 38 => hv38 (h ▸ hc)
  rw [hnil, List.nil_append, hwhole hv]

end Token

end Doorhinges.Params

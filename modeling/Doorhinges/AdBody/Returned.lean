import Doorhinges.AdBody.Sessions

/-!
# The returned text

A JSON response returns the bodies of all the advertisements it counts. In any other
format a zero byte stays behind each body but the last, and the text ends with the first.
-/
namespace Doorhinges.AdBody

open Lib.CString
open Query

/-- The bodies as a response is to hold them. -/
def Request.reference (r : Request) (bodies : List Bytes) : Bytes :=
  if r.json then (ascii ",").intercalate bodies else bodies.flatten

/-- The text holds the bodies of the advertisements that are counted, and nothing else. -/
def Request.Complete (r : Request) (out : Answer) : Prop :=
  ∃ l, r.served = some l ∧ out.request = l.length ∧
    out.body = if l = [] then none else some (r.reference (l.map (·.body)))

variable {r : Request}

/-- A call answers with what it has served. -/
theorem getAdbody_served {l : List Served} (h : r.served = some l) : ∃ out,
    getAdbody r = some out ∧ out.request = l.length ∧
      out.body = if l = [] then none else some (cstr ([r.separator].intercalate (l.map (·.body)))) := by
  cases l with
  | nil => exact ⟨.nothing, getAdbody_nil h, rfl, rfl⟩
  | cons x l =>
    have hnum : ((x :: l).foldl r.push r.start).adnum = (x :: l).length :=
      (foldl_adnum _ _).trans (Nat.zero_add _)
    have hne : ((x :: l).foldl r.push r.start).adnum ≠ 0 := by
      rw [hnum]
      exact Nat.succ_ne_zero _
    refine ⟨_, by rw [getAdbody_eq, h, Option.map_some, Loop.answer, if_neg hne], hnum, ?_⟩
    rw [if_neg (List.cons_ne_nil x l), text_eq]

/-- Without the comma the text is the first body, and the rest of the bodies are missing. -/
theorem first_eq_reference_iff {x : Served} {l : List Served} (hjson : ¬ r.json) :
    x.body = r.reference ((x :: l).map (·.body)) ↔ ∀ y ∈ l, y.body = [] := by
  rw [Request.reference, if_neg hjson, List.map_cons, List.flatten_cons]
  constructor
  · intro h
    have hrest : (l.map (·.body)).flatten = [] := by
      have hlen := congrArg List.length h
      rw [List.length_append] at hlen
      exact List.eq_nil_of_length_eq_zero (by omega)
    intro y hy
    exact List.flatten_eq_nil_iff.mp hrest _ (List.mem_map_of_mem hy)
  · intro h
    have hrest : (l.map (·.body)).flatten = [] := by
      refine List.flatten_eq_nil_iff.mpr fun b hb => ?_
      obtain ⟨y, hy, rfl⟩ := List.mem_map.mp hb
      exact h y hy
    rw [hrest, List.append_nil]

/-- The text of what is served is the reference for JSON, and else when no body is cut off. -/
theorem text_eq_reference_iff {l : List Served} (hnul : ∀ x ∈ l, 0 ∉ x.body) (hne : l ≠ []) :
    cstr ([r.separator].intercalate (l.map (·.body))) = r.reference (l.map (·.body)) ↔
      r.json = true ∨ ∀ x ∈ l.tail, x.body = [] := by
  obtain ⟨x, l, rfl⟩ := List.exists_cons_of_ne_nil hne
  by_cases hjson : r.json
  · rw [returned_eq hnul (.inl hjson), Request.reference, if_pos hjson, Request.separator,
      if_pos hjson]
    exact iff_of_true rfl (.inl hjson)
  · rw [List.tail_cons, or_iff_right hjson]
    cases l with
    | nil =>
      rw [returned_eq hnul (.inr le_rfl), Request.reference, if_neg hjson]
      simp [List.intercalate]
    | cons y l =>
      rw [returned_first (hnul x List.mem_cons_self) hjson]
      exact first_eq_reference_iff hjson

/-- The text is complete exactly when the call stays in its buffers and the format is JSON or
every body behind the first is empty. -/
theorem complete_iff (r : Request) :
    (∃ out, getAdbody r = some out ∧ r.Complete out) ↔
      ∃ l, r.served = some l ∧ (r.json = true ∨ ∀ x ∈ l.tail, x.body = []) := by
  constructor
  · rintro ⟨out, hout, l, hl, -, hbody⟩
    refine ⟨l, hl, ?_⟩
    obtain ⟨out', hout', -, hbody'⟩ := getAdbody_served hl
    obtain rfl := Option.some.inj (hout.symm.trans hout')
    by_cases hne : l = []
    · subst hne
      exact .inr fun x hx => absurd hx List.not_mem_nil
    · rw [if_neg hne] at hbody hbody'
      have htext := Option.some.inj (hbody'.symm.trans hbody)
      exact (text_eq_reference_iff (drawn_nul (served_drawn hl).1) hne).mp htext
  · rintro ⟨l, hl, hcomplete⟩
    obtain ⟨out, hout, hrequest, hbody⟩ := getAdbody_served hl
    refine ⟨out, hout, l, hl, hrequest, ?_⟩
    by_cases hne : l = []
    · rw [hbody, if_pos hne, if_pos hne]
    · rw [hbody, if_neg hne, if_neg hne,
        (text_eq_reference_iff (drawn_nul (served_drawn hl).1) hne).mpr hcomplete]

/-- Two banners for a client that asks for XML. -/
def xmlRequest : Request :=
  { leftoverRequest with log := { leftoverRequest.log with format := Text.of (ascii "xml") } }

theorem xmlRequest_served :
    xmlRequest.served.map (·.map (·.body)) = some [ascii "x", ascii "y"] := by
  decide +kernel

/-- The second body is missing. -/
theorem second_body_missing : ¬ ∀ r : Request, r.served ≠ none →
    ∃ out, getAdbody r = some out ∧ r.Complete out := by
  intro h
  obtain ⟨l, hl, hbodies⟩ := Option.map_eq_some_iff.mp xmlRequest_served
  obtain ⟨x, l, rfl, -, hrest⟩ := List.map_eq_cons_iff.mp hbodies
  obtain ⟨y, l, rfl, hy, -⟩ := List.map_eq_cons_iff.mp hrest
  obtain ⟨out, hout, l', hl', -, hbody⟩ := h xmlRequest (by rw [hl]; exact Option.some_ne_none _)
  obtain rfl := Option.some.inj (hl.symm.trans hl')
  obtain ⟨out', hout', -, hbody'⟩ := getAdbody_served hl
  obtain rfl := Option.some.inj (hout.symm.trans hout')
  rw [if_neg (List.cons_ne_nil _ _)] at hbody hbody'
  have htext := Option.some.inj (hbody'.symm.trans hbody)
  rcases (text_eq_reference_iff (drawn_nul (served_drawn hl).1) (List.cons_ne_nil _ _)).mp htext with
    hjson | hempty
  · exact absurd hjson (by decide)
  · have hnil := hempty y List.mem_cons_self
    rw [hy] at hnil
    exact absurd hnil (by decide)

end Doorhinges.AdBody

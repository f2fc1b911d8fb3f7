import Doorhinges.Cgi.OwnText

/-!
# Encoded parameters

Pairs that are percent-encoded and joined come back as bindings, in their order.
-/
namespace Doorhinges.Cgi

open Lib.CString
open Query (cstr isXDigit hexToI isAlpha)

/-- A letter or digit stands for itself; any byte may be written in hexadecimal, and a blank
as a plus sign. -/
inductive EncodedByte : UInt8 → Bytes → Prop
  | plain (c : UInt8) (hc : isAlpha c || isDigit c) : EncodedByte c [c]
  | percent (a b : UInt8) (ha : isXDigit a) (hb : isXDigit b) :
      EncodedByte (hexToI a * 16 + hexToI b) [37, a, b]
  | blank : EncodedByte 32 [43]

inductive Encoded : Bytes → Bytes → Prop
  | nil : Encoded [] []
  | cons {c : UInt8} {e s t : Bytes} (hc : EncodedByte c e) (hs : Encoded s t) :
      Encoded (c :: s) (e ++ t)

def EncodedPair (p e : Bytes × Bytes) : Prop := Encoded p.1 e.1 ∧ Encoded p.2 e.2

/-- `name=value` joined with `&`. -/
def join : List (Bytes × Bytes) → Bytes
  | [] => []
  | [p] => p.1 ++ 61 :: p.2
  | p :: ps => p.1 ++ 61 :: (p.2 ++ 38 :: join ps)

/-- Later pairs override earlier ones. -/
def Params.bindAll (param : Params) (ps : List (Bytes × Bytes)) : Params :=
  ps.foldl (fun m p => m.bind p.1 p.2) param

section Bytes

theorem plain_byte {c : UInt8} (h : isAlpha c || isDigit c) :
    c ≠ 0 ∧ isDelim c = false ∧ plus c = c ∧ c ≠ 37 := by
  have all : ∀ n : Fin 256, (isAlpha (UInt8.ofNat n) || isDigit (UInt8.ofNat n)) = true →
      UInt8.ofNat n ≠ 0 ∧ isDelim (UInt8.ofNat n) = false ∧ plus (UInt8.ofNat n) = UInt8.ofNat n ∧
        UInt8.ofNat n ≠ 37 := by
    decide +kernel
  simpa using all ⟨c.toNat, c.toNat_lt⟩ (by simpa using h)

theorem hex_byte {c : UInt8} (h : isXDigit c) :
    c ≠ 0 ∧ isDelim c = false ∧ plus c = c ∧ hexValue c = hexToI c := by
  have all : ∀ n : Fin 256, isXDigit (UInt8.ofNat n) = true →
      UInt8.ofNat n ≠ 0 ∧ isDelim (UInt8.ofNat n) = false ∧ plus (UInt8.ofNat n) = UInt8.ofNat n ∧
        hexValue (UInt8.ofNat n) = hexToI (UInt8.ofNat n) := by
    decide +kernel
  simpa using all ⟨c.toNat, c.toNat_lt⟩ (by simpa using h)

theorem EncodedByte.bytes {c : UInt8} {e : Bytes} (h : EncodedByte c e) :
    e ≠ [] ∧ ∀ x ∈ e, x ≠ 0 ∧ isDelim x = false := by
  cases h with
  | plain _ hc =>
    obtain ⟨h0, hd, -⟩ := plain_byte hc
    simp [h0, hd]
  | percent a b ha hb =>
    obtain ⟨ha0, had, -⟩ := hex_byte ha
    obtain ⟨hb0, hbd, -⟩ := hex_byte hb
    have h37 : isDelim 37 = false := rfl
    simp [ha0, had, hb0, hbd, h37]
  | blank => decide +kernel

/-- One encoded byte in front of a text. -/
theorem EncodedByte.decode {c : UInt8} {e : Bytes} (h : EncodedByte c e) (t : Bytes) :
    unescape ((e ++ t).map plus) = c :: unescape (t.map plus) ∧ complete (e ++ t) = complete t := by
  cases h with
  | plain _ hc =>
    obtain ⟨-, -, hplus, h37⟩ := plain_byte hc
    rw [List.singleton_append, List.map_cons, hplus, unescape_cons h37, complete_cons h37]
    exact ⟨rfl, rfl⟩
  | percent a b ha hb =>
    obtain ⟨-, -, hpa, hva⟩ := hex_byte ha
    obtain ⟨-, -, hpb, hvb⟩ := hex_byte hb
    have hmap : ([37, a, b] ++ t).map plus = 37 :: a :: b :: t.map plus := by
      have hpp : plus 37 = 37 := rfl
      simp [hpa, hpb, hpp]
    rw [hmap, unescape_percent, x2c, hva, hvb]
    exact ⟨rfl, complete_percent a b t⟩
  | blank =>
    have hmap : (([43] : Bytes) ++ t).map plus = 32 :: t.map plus := rfl
    rw [hmap, unescape_cons (by decide)]
    exact ⟨rfl, complete_cons (by decide) t⟩

end Bytes

namespace Encoded

variable {s t : Bytes}

theorem clean (h : Encoded s t) : ∀ x ∈ t, x ≠ 0 ∧ isDelim x = false := by
  induction h with
  | nil => simp
  | cons hc _ ih =>
    intro x hx
    rcases List.mem_append.1 hx with hx | hx
    · exact hc.bytes.2 x hx
    · exact ih x hx

theorem ne_nil (h : Encoded s t) (hs : s ≠ []) : t ≠ [] := by
  cases h with
  | nil => exact absurd rfl hs
  | cons hc _ => exact fun hnil => hc.bytes.1 (List.append_eq_nil_iff.1 hnil).1

theorem complete (h : Encoded s t) : complete t = true := by
  induction h with
  | nil => rfl
  | cons hc _ ih => rw [(hc.decode _).2, ih]

theorem decoded (h : Encoded s t) (h0 : 0 ∉ s) : decoded t = s := by
  have hall : unescape (t.map plus) = s := by
    clear h0
    induction h with
    | nil => rfl
    | cons hc _ ih => rw [(hc.decode _).1, ih]
  rw [Cgi.decoded, hall, cstr]
  exact List.takeWhile_eq_self_iff.2 fun c hc => by simpa using fun h : c = 0 => h0 (h ▸ hc)

end Encoded

section Join

/-- A text up to a delimiter. -/
theorem text_append {t rest : Bytes} (ht : ∀ x ∈ t, isDelim x = false)
    (hrest : ∀ x, rest.head? = some x → isDelim x = true) :
    textOf (t ++ rest) = t ∧ afterText (t ++ rest) = rest := by
  have hall : ∀ x ∈ t, (!isDelim x) = true := fun x hx => by rw [ht x hx]; rfl
  rw [textOf, afterText, List.takeWhile_append_of_pos hall, List.dropWhile_append_of_pos hall]
  cases rest with
  | nil => simp
  | cons c cs =>
    have hc := hrest c rfl
    rw [List.takeWhile_cons_of_neg (by simp [hc]), List.dropWhile_cons_of_neg (by simp [hc])]
    simp

/-- What the loop makes of encoded pairs. -/
structure Pairs (es : List (Bytes × Bytes)) (c : Cut) : Prop where
  ret : c.ret = 0
  bound : c.bound = es
  texts : ∀ t ∈ c.texts, ∃ e ∈ es, t = e.1 ∨ t = e.2

theorem Pairs.add {e : Bytes × Bytes} {es : List (Bytes × Bytes)} {c : Cut} (h : Pairs es c) :
    Pairs (e :: es) ((c.add e.2 [e]).add e.1 []) := by
  refine ⟨h.ret, ?_, ?_⟩
  · simp [Cut.add, h.bound]
  · intro t ht
    simp only [Cut.add, List.mem_cons] at ht
    rcases ht with rfl | rfl | ht
    · exact ⟨e, List.mem_cons_self, .inl rfl⟩
    · exact ⟨e, List.mem_cons_self, .inr rfl⟩
    · obtain ⟨e', he', ht⟩ := h.texts t ht
      exact ⟨e', List.mem_cons_of_mem _ he', ht⟩

theorem cutFrom_nil (fuel : Nat) (nm : Option Bytes) : cutFrom fuel nm [] = ⟨0, [], []⟩ := by
  cases fuel <;> cases nm <;> rfl

/-- A name with its value, where anything is left behind the equals sign. -/
theorem cutFrom_pair {fuel : Nat} {n v rest : Bytes} (hn : n ≠ [])
    (hnd : ∀ x ∈ n, isDelim x = false) (hvd : ∀ x ∈ v, isDelim x = false)
    (hrest : ∀ x, rest.head? = some x → isDelim x = true) (hne : v ++ rest ≠ []) :
    cutFrom (fuel + 2) none (n ++ 61 :: (v ++ rest)) =
      ((cutFrom fuel none rest.tail).add v [(n, v)]).add n [] := by
  obtain ⟨c, cs, rfl⟩ := List.exists_cons_of_ne_nil hn
  have hdrop : (c :: cs ++ 61 :: (v ++ rest)).dropWhile isDelim = c :: cs ++ 61 :: (v ++ rest) := by
    rw [List.cons_append, List.dropWhile_cons_of_neg (by simp [hnd c List.mem_cons_self])]
  have heq : ∀ x, (61 :: (v ++ rest)).head? = some x → isDelim x = true := by
    rintro _ ⟨⟩
    rfl
  have htext := text_append hnd heq
  have hlen : (61 :: (v ++ rest)).length ≠ 1 := by
    have := List.length_pos_iff.2 hne
    rw [List.length_cons]
    omega
  rw [List.cons_append] at hdrop htext ⊢
  rw [cutFrom, hdrop, htext.1, htext.2, if_neg (by simpa using hne)]
  obtain ⟨d, ds, hd⟩ := List.exists_cons_of_ne_nil hne
  have hvalue := text_append hvd hrest
  rw [List.tail_cons, hd, cutFrom, ← hd, hvalue.1, hvalue.2]

/-- The last name with nothing behind the equals sign. -/
theorem cutFrom_last {fuel : Nat} {n : Bytes} (hn : n ≠ []) (hnd : ∀ x ∈ n, isDelim x = false) :
    cutFrom (fuel + 1) none (n ++ [61]) = ⟨0, [n], [(n, [])]⟩ := by
  obtain ⟨c, cs, rfl⟩ := List.exists_cons_of_ne_nil hn
  have hdrop : (c :: cs ++ [61]).dropWhile isDelim = c :: cs ++ [61] := by
    rw [List.cons_append, List.dropWhile_cons_of_neg (by simp [hnd c List.mem_cons_self])]
  have heq : ∀ x, ([61] : Bytes).head? = some x → isDelim x = true := by
    rintro _ ⟨⟩
    rfl
  have htext := text_append hnd heq
  rw [List.cons_append] at hdrop htext ⊢
  rw [cutFrom, hdrop, htext.1, htext.2, if_pos (by simp), if_neg (by simp), List.tail_cons,
    cutFrom_nil]
  rfl

theorem length_join (p : Bytes × Bytes) (ps : List (Bytes × Bytes)) :
    p.1.length + p.2.length + 1 + (join ps).length ≤ (join (p :: ps)).length := by
  cases ps with
  | nil =>
    simp only [join, List.length_append, List.length_cons, List.length_nil]
    omega
  | cons q qs =>
    simp only [join, List.length_append, List.length_cons]
    omega

theorem mem_join {es : List (Bytes × Bytes)} {x : UInt8} (h : x ∈ join es) :
    ∃ e ∈ es, x ∈ e.1 ∨ x ∈ e.2 ∨ x = 61 ∨ x = 38 := by
  induction es using join.induct with
  | case1 => exact absurd h List.not_mem_nil
  | case2 p =>
    simp only [join, List.mem_append, List.mem_cons] at h
    exact ⟨p, List.mem_cons_self, by tauto⟩
  | case3 p ps hne ih =>
    rw [join.eq_3 _ _ hne] at h
    simp only [List.mem_append, List.mem_cons] at h
    by_cases hrest : x ∈ join ps
    · obtain ⟨e, he, hx⟩ := ih hrest
      exact ⟨e, List.mem_cons_of_mem _ he, hx⟩
    · exact ⟨p, List.mem_cons_self, by tauto⟩

theorem cutFrom_join {es : List (Bytes × Bytes)} (hn : ∀ e ∈ es, e.1 ≠ [])
    (hd : ∀ e ∈ es, (∀ x ∈ e.1, isDelim x = false) ∧ ∀ x ∈ e.2, isDelim x = false) {fuel : Nat}
    (hfuel : (join es).length ≤ fuel) : Pairs es (cutFrom fuel none (join es)) := by
  induction es generalizing fuel with
  | nil =>
    rw [join, cutFrom_nil]
    exact ⟨rfl, rfl, by simp⟩
  | cons e es ih =>
    obtain ⟨hne, hns⟩ := List.forall_mem_cons.1 hn
    obtain ⟨⟨hed, hev⟩, hds⟩ := List.forall_mem_cons.1 hd
    have hlen := length_join e es
    have hpos := List.length_pos_iff.2 hne
    obtain ⟨fuel, rfl⟩ : ∃ n, fuel = n + 2 := ⟨fuel - 2, by omega⟩
    cases es with
    | nil =>
      by_cases hv : e.2 = []
      · have hjoin : join [e] = e.1 ++ [61] := by rw [join, hv]
        rw [hjoin, cutFrom_last hne hed]
        refine ⟨rfl, by rw [← hv], fun t ht => ⟨e, List.mem_cons_self, .inl ?_⟩⟩
        exact List.mem_singleton.1 ht
      · have hjoin : join [e] = e.1 ++ 61 :: (e.2 ++ []) := by rw [join, List.append_nil]
        rw [hjoin, cutFrom_pair hne hed hev (by simp) (by simpa using hv), List.tail_nil,
          cutFrom_nil]
        exact Pairs.add ⟨rfl, rfl, by simp⟩
    | cons e' es' =>
      have hamp : ∀ x, (38 :: join (e' :: es')).head? = some x → isDelim x = true := by
        rintro _ ⟨⟩
        rfl
      have hjoin : join (e :: e' :: es') = e.1 ++ 61 :: (e.2 ++ 38 :: join (e' :: es')) := rfl
      rw [hjoin, cutFrom_pair hne hed hev hamp (by simp), List.tail_cons]
      exact (ih hns hds (by omega)).add

end Join

/-- Encoded pairs are bound one after another, whatever the array held. -/
theorem map_cgi_params_encoded {ps es : List (Bytes × Bytes)} (param : Params)
    (hps : ∀ p ∈ ps, p.1 ≠ [] ∧ 0 ∉ p.1 ∧ 0 ∉ p.2) (hes : List.Forall₂ EncodedPair ps es)
    {lexeme : Bytes} (hlen : lexeme.length = (join es).length + 1) :
    ∃ o, mapCgiParams param (some (join es)) (some lexeme) = some o ∧ o.ret = 0 ∧
      o.param = param.bindAll ps := by
  have hside : ∀ e ∈ es, e.1 ≠ [] ∧ (∀ x ∈ e.1, x ≠ 0 ∧ isDelim x = false) ∧
      (∀ x ∈ e.2, x ≠ 0 ∧ isDelim x = false) ∧ complete e.1 = true ∧ complete e.2 = true := by
    clear hlen
    induction hes with
    | nil => simp
    | cons he _ ih =>
      obtain ⟨⟨hne, -⟩, hps⟩ := List.forall_mem_cons.1 hps
      refine List.forall_mem_cons.2 ⟨?_, ih hps⟩
      exact ⟨he.1.ne_nil hne, he.1.clean, he.2.clean, he.1.complete, he.2.complete⟩
  have hpairs : Pairs es (cut (join es)) := by
    refine cutFrom_join (fun e he => (hside e he).1) (fun e he => ?_) le_rfl
    obtain ⟨-, hname, hvalue, -⟩ := hside e he
    exact ⟨fun x hx => (hname x hx).2, fun x hx => (hvalue x hx).2⟩
  have hcomplete : ∀ t ∈ (cut (join es)).texts, complete t = true := by
    intro t ht
    obtain ⟨e, he, rfl | rfl⟩ := hpairs.texts t ht
    · exact (hside e he).2.2.2.1
    · exact (hside e he).2.2.2.2
  have hnul : 0 ∉ join es := by
    intro h0
    obtain ⟨e, he, hmem⟩ := mem_join h0
    obtain ⟨-, hname, hvalue, -⟩ := hside e he
    rcases hmem with hmem | hmem | hmem | hmem
    · exact (hname 0 hmem).1 rfl
    · exact (hvalue 0 hmem).1 rfl
    · cases hmem
    · cases hmem
  obtain ⟨o, ho, hscan⟩ := scan_complete (s := ⟨.name, [], param, lexeme, []⟩)
    (show Scan.At _ none from rfl) le_rfl (by simp [hlen]) hnul hcomplete
  refine ⟨o, ho, hscan.ret.trans hpairs.ret, ?_⟩
  have hbound : (cutFrom (join es).length none (join es)).bound = es := hpairs.bound
  rw [hscan.param, hbound]
  clear hlen ho hscan hpairs hcomplete hnul hbound hside
  induction hes generalizing param with
  | nil => rfl
  | @cons p e ps es he _ ih =>
    obtain ⟨⟨hne, hname, hvalue⟩, hps⟩ := List.forall_mem_cons.1 hps
    rw [List.foldl_cons, Params.bindAll, List.foldl_cons, bindDecoded, he.1.decoded hname, he.2.decoded hvalue,
      if_neg hne]
    exact ih _ hps

theorem map_cgi_params_encoded_pairs : ∃ o, mapCgiParams (fun _ => none)
    (some (join [(ascii "k", ascii "%41+"), (ascii "v", [])])) (some (List.replicate 10 1)) = some o ∧
    o.ret = 0 ∧
    o.param = Params.bindAll (fun _ => none) [(ascii "k", ascii "A "), (ascii "v", [])] := by
  have hname : Encoded (ascii "k") (ascii "k") := .cons (.plain 107 rfl) .nil
  have hvalue : Encoded (ascii "A ") (ascii "%41+") :=
    .cons (.percent 52 49 rfl rfl) (.cons .blank .nil)
  have hlast : Encoded (ascii "v") (ascii "v") := .cons (.plain 118 rfl) .nil
  have hpairs : List.Forall₂ EncodedPair [(ascii "k", ascii "A "), (ascii "v", [])]
      [(ascii "k", ascii "%41+"), (ascii "v", [])] :=
    .cons ⟨hname, hvalue⟩ (.cons ⟨hlast, .nil⟩ .nil)
  exact map_cgi_params_encoded _ (by decide) hpairs (by decide)

end Doorhinges.Cgi

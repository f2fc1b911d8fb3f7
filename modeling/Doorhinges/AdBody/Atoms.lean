import Doorhinges.AdBody.Template

/-!
# The replacement loop, an atom at a time

A text is cut into bytes and tokens. Where none of its bytes begins something that
looks like a token, the loop of `get_adbody` meets the same bytes and tokens in the
same order.
-/
namespace Doorhinges.AdBody

open Lib.CString

/-- What a template is made of. -/
inductive Atom where
  | char (c : UInt8)
  | token (t : Token)
  deriving DecidableEq

def Atom.text : Atom → Bytes
  | .char c => [c]
  | .token t => t.text

def textOf (as : List Atom) : Bytes := as.flatMap Atom.text

/-- At no other place do six characters look like the first six of a token. -/
def Plain : List Atom → Prop
  | [] => True
  | .char c :: as => tokenAt (c :: textOf as) = none ∧ Plain as
  | .token _ :: as => Plain as

instance decPlain : ∀ as, Decidable (Plain as)
  | [] => inferInstanceAs (Decidable True)
  | .char c :: as =>
    have := decPlain as
    inferInstanceAs (Decidable (tokenAt (c :: textOf as) = none ∧ Plain as))
  | .token _ :: as => decPlain as

/-- The replacement loop on atoms: `lit` is what stands between `tp` and the place reached. -/
def run (e : Env) : Bytes → List Atom → Writer → Option Bytes
  | lit, [], w => some (w.sBody ++ lit)
  | lit, .char c :: as, w =>
    if c = 36 then (w.put (lit ++ [36])).bind (run e [] as) else run e (lit ++ [c]) as w
  | lit, .token t :: as, w => (w.token e lit t).bind (run e [] as)

theorem textOf_cons (a : Atom) (as : List Atom) : textOf (a :: as) = a.text ++ textOf as := rfl

theorem lower_bracket {c b : UInt8} (hb : b = 123 ∨ b = 91) (h : lower c = lower b) : c = b := by
  have hlower : lower b = b := by rcases hb with rfl | rfl <;> decide
  rw [hlower, lower] at h
  split at h
  · rename_i hc
    simp only [Bool.and_eq_true, decide_eq_true_eq, UInt8.le_iff_toNat_le] at hc
    have hsum := congrArg UInt8.toNat h
    rw [UInt8.toNat_add] at hsum
    have h65 : (65 : UInt8).toNat = 65 := rfl
    have h90 : (90 : UInt8).toNat = 90 := rfl
    have h32 : (32 : UInt8).toNat = 32 := rfl
    have hval : b.toNat = 123 ∨ b.toNat = 91 := by rcases hb with rfl | rfl <;> decide
    omega
  · exact h

/-- A token begins with a bracket. -/
theorem tokenAt_bracket {c : UInt8} {tp : Bytes} (h123 : c ≠ 123) (h91 : c ≠ 91) :
    tokenAt (c :: tp) = none := by
  rw [tokenAt, List.find?_eq_none]
  intro t _ h
  obtain ⟨b, x, hx, hb⟩ : ∃ b x, t.text.take 6 = b :: x ∧ (b = 123 ∨ b = 91) := by
    cases t <;> exact ⟨_, _, rfl, by decide⟩
  rw [caseEq, hx, decide_eq_true_eq] at h
  have hc := lower_bracket hb (List.cons.inj h).1
  rcases hb with rfl | rfl
  · exact h123 hc
  · exact h91 hc

theorem tokenAt_text (t : Token) (tp : Bytes) : tokenAt (t.text ++ tp) = some t := by
  have hlen := t.length_text
  rw [tokenAt, List.take_append_of_le_length (by omega)]
  cases t <;> decide

/-- A token is a bracket, a dollar sign and more, and a bracket at the end. -/
theorem Token.text_shape (t : Token) : ∃ b x c, t.text = b :: 36 :: x ∧ b ≠ 36 ∧
    t.text.getLast? = some c ∧ c ≠ 123 ∧ c ≠ 91 := by
  cases t <;> exact ⟨_, _, _, rfl, by decide, rfl, by decide, by decide⟩

theorem findIdx_none {lit : Bytes} (hlit : 36 ∉ lit) : lit.findIdx? (· = 36) = none := by
  rw [List.findIdx?_eq_none_iff]
  intro c hc
  exact decide_eq_false fun h => hlit (h ▸ hc)

theorem findIdx_dollar {lit : Bytes} (hlit : 36 ∉ lit) (x : Bytes) :
    (lit ++ 36 :: x).findIdx? (· = 36) = some lit.length := by
  rw [List.findIdx?_append, findIdx_none hlit]
  simp [List.findIdx?_cons]

theorem byte_before (prev : Option UInt8) (lit x : Bytes) :
    (if lit.length = 0 then prev else (lit ++ x)[lit.length - 1]?) = lit.getLast?.or prev := by
  rcases List.eq_nil_or_concat lit with rfl | ⟨l, c, rfl⟩
  · rfl
  · simp

/-- A dollar sign without a token is copied with what stands before it. -/
theorem substitute_dollar {e : Env} {lit x : Bytes} {prev : Option UInt8} {b : UInt8} (w : Writer)
    (fuel : Nat) (hlit : 36 ∉ lit) (hb : lit.getLast?.or prev = some b)
    (hnone : tokenAt (b :: 36 :: x) = none) :
    substitute e (fuel + 1) prev (lit ++ 36 :: x) w =
      (w.put (lit ++ [36])).bind (substitute e fuel (some 36) x) := by
  have htake : (lit ++ 36 :: x).take (lit.length + 1) = lit ++ [36] := by
    rw [List.take_length_add_append]
    rfl
  have hdrop : (lit ++ 36 :: x).drop (lit.length + 1) = x := by
    rw [List.drop_length_add_append]
    rfl
  simp only [substitute, findIdx_dollar hlit, byte_before, hb, List.drop_left, hnone, htake, hdrop]

/-- A token is replaced, and the text before it goes along. -/
theorem substitute_token {e : Env} {lit : Bytes} (t : Token) (x : Bytes) (prev : Option UInt8)
    (w : Writer) (fuel : Nat) (hlit : 36 ∉ lit) :
    substitute e (fuel + 1) prev (lit ++ (t.text ++ x)) w =
      (w.token e lit t).bind (substitute e fuel t.text.getLast? x) := by
  obtain ⟨b, y, -, htext, hb, -⟩ := t.text_shape
  have hlen := t.length_text
  have hfind : (lit ++ (t.text ++ x)).findIdx? (· = 36) = some (lit.length + 1) := by
    have h36 : 36 ∉ lit ++ [b] := by simp [hlit, Ne.symm hb]
    have h := findIdx_dollar h36 (y ++ x)
    rw [List.length_append, List.append_assoc] at h
    rw [htext]
    exact h
  have hbyte : (lit ++ (t.text ++ x))[lit.length + 1 - 1]? = some b := by
    rw [htext]
    simp
  have htok : tokenAt (b :: (lit ++ (t.text ++ x)).drop (lit.length + 1)) = some t := by
    rw [List.drop_length_add_append, htext, List.cons_append, List.drop_succ_cons, List.drop_zero,
      ← List.cons_append, ← htext]
    exact tokenAt_text t x
  have hbefore : before (lit ++ (t.text ++ x)) (lit.length + 1) = lit := by
    rw [before, if_neg (Nat.succ_ne_zero _), Nat.add_sub_cancel, List.take_left]
  have hlast : (lit ++ (t.text ++ x))[lit.length + 1 + t.text.length - 2]? = t.text.getLast? := by
    rw [List.getLast?_eq_getElem?, List.getElem?_append_right (by omega),
      List.getElem?_append_left (by omega)]
    congr 1
    omega
  have hdrop : (lit ++ (t.text ++ x)).drop (lit.length + 1 + t.text.length - 1) = x := by
    rw [show lit.length + 1 + t.text.length - 1 = lit.length + t.text.length by omega,
      List.drop_length_add_append, List.drop_left]
  have hle : lit.length + 1 + t.text.length ≤ (lit ++ (t.text ++ x)).length + 1 := by
    simp only [List.length_append]
    omega
  simp only [substitute, hfind, Nat.succ_ne_zero, if_false, hbyte, htok, hle, if_true, hbefore,
    hlast, hdrop]

/-- No token begins at the byte before the rest of the template. -/
structure Apart (as : List Atom) (lit : Bytes) (prev : Option UInt8) : Prop where
  literal : 36 ∉ lit
  last : ∀ c, lit.getLast?.or prev = some c → tokenAt (c :: textOf as) = none
  start : lit.getLast?.or prev = none → as.head? ≠ some (.char 36)

theorem Apart.after {as : List Atom} {c : UInt8} (h : tokenAt (c :: textOf as) = none) :
    Apart as [] (some c) :=
  ⟨List.not_mem_nil, fun _ hb => Option.some.inj hb ▸ h, fun hb => nomatch hb⟩

theorem Apart.char {as : List Atom} {lit : Bytes} {prev : Option UInt8} {c : UInt8}
    (h : Apart (.char c :: as) lit prev) (hc : c ≠ 36) (hnone : tokenAt (c :: textOf as) = none) :
    Apart as (lit ++ [c]) prev := by
  refine ⟨by simp [h.literal, Ne.symm hc], fun b hb => ?_, fun hb => ?_⟩
  · rw [List.getLast?_concat, Option.some_or] at hb
    exact Option.some.inj hb ▸ hnone
  · rw [List.getLast?_concat, Option.some_or] at hb
    cases hb

/-- The loop of `get_adbody` goes through the atoms one after another. -/
theorem substitute_atoms {e : Env} {as : List Atom} {lit : Bytes} {prev : Option UInt8}
    {w : Writer} {fuel : Nat} (hplain : Plain as) (h : Apart as lit prev)
    (hfuel : lit.length + (textOf as).length < fuel) :
    substitute e fuel prev (lit ++ textOf as) w = run e lit as w := by
  induction as generalizing lit prev w fuel with
  | nil =>
    obtain ⟨fuel, rfl⟩ := Nat.exists_eq_succ_of_ne_zero (Nat.ne_zero_of_lt hfuel)
    have hnone := findIdx_none h.literal
    rw [substitute, textOf, List.flatMap_nil, List.append_nil, hnone]
    rfl
  | cons a as ih =>
    rw [textOf_cons, List.length_append] at hfuel
    cases a with
    | char c =>
      obtain ⟨hc, hplain⟩ := hplain
      rw [Atom.text, List.length_singleton] at hfuel
      by_cases hdollar : c = 36
      · subst hdollar
        obtain ⟨fuel, rfl⟩ := Nat.exists_eq_succ_of_ne_zero (Nat.ne_zero_of_lt hfuel)
        obtain ⟨b, hb⟩ := Option.ne_none_iff_exists'.1 fun hb => h.start hb rfl
        have hnext : substitute e fuel (some 36) (textOf as) = run e [] as := by
          funext w'
          exact ih hplain (.after hc) (by rw [List.length_nil]; omega)
        rw [run, if_pos rfl, textOf_cons, ← hnext]
        exact substitute_dollar w fuel h.literal hb (h.last b hb)
      · have hnext := @ih _ _ w fuel hplain (h.char hdollar hc)
          (by rw [List.length_append, List.length_singleton]; omega)
        rw [run, if_neg hdollar, ← hnext, List.append_assoc]
        rfl
    | token t =>
      obtain ⟨fuel, rfl⟩ := Nat.exists_eq_succ_of_ne_zero (Nat.ne_zero_of_lt hfuel)
      obtain ⟨-, -, c, -, -, hlast, h123, h91⟩ := t.text_shape
      have hlen := t.length_text
      rw [Atom.text] at hfuel
      have hnext : substitute e fuel t.text.getLast? (textOf as) = run e [] as := by
        funext w'
        rw [hlast]
        exact ih hplain (.after (tokenAt_bracket h123 h91)) (by rw [List.length_nil]; omega)
      rw [run, textOf_cons, Atom.text, substitute_token t _ _ _ _ h.literal, hnext]

end Doorhinges.AdBody

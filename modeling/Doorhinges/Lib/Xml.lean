import Doorhinges.Lib.CString

/-!
# XML elements

Elements without attributes, references or sections. Bytes from 128 on are taken as parts of
characters.
-/
namespace Doorhinges.Lib.Xml

open Lib.CString

inductive Node where
  | text (s : Bytes)
  | elem (name : Bytes) (children : List Node)

/-- The control characters that a document may have are the blanks. -/
def IsChar (c : UInt8) : Prop := c = 9 ∨ c = 10 ∨ c = 13 ∨ 32 ≤ c

instance (c : UInt8) : Decidable (IsChar c) :=
  inferInstanceAs (Decidable (c = 9 ∨ c = 10 ∨ c = 13 ∨ 32 ≤ c))

def IsLetter (c : UInt8) : Prop := 97 ≤ c ∧ c ≤ 122

instance (c : UInt8) : Decidable (IsLetter c) := inferInstanceAs (Decidable (97 ≤ c ∧ c ≤ 122))

/-- No markup. -/
def CharData (s : Bytes) : Prop := ∀ c ∈ s, IsChar c ∧ c ≠ 60 ∧ c ≠ 62 ∧ c ≠ 38

def Name (s : Bytes) : Prop := s ≠ [] ∧ ∀ c ∈ s, IsLetter c

mutual

def Node.render : Node → Bytes
  | .text s => s
  | .elem name children =>
    60 :: (name ++ 62 :: (renderAll children ++ 60 :: 47 :: (name ++ [62])))

def renderAll : List Node → Bytes
  | [] => []
  | x :: xs => x.render ++ renderAll xs

end

mutual

def Node.WellFormed : Node → Prop
  | .text s => CharData s
  | .elem name children => Name name ∧ AllWellFormed children

def AllWellFormed : List Node → Prop
  | [] => True
  | x :: xs => x.WellFormed ∧ AllWellFormed xs

end

def declaration : Bytes := ascii "<?xml version=\"1.0\" encoding=\"utf-8\"?>"

/-- A document of one element. -/
def Document (name : Bytes) (children : List Node) (s : Bytes) : Prop :=
  (Node.elem name children).WellFormed ∧ s = declaration ++ (Node.elem name children).render

theorem allWellFormed_iff {xs : List Node} : AllWellFormed xs ↔ ∀ x ∈ xs, x.WellFormed := by
  induction xs with
  | nil => simp [AllWellFormed]
  | cons x xs ih => simp [AllWellFormed, ih]

theorem renderAll_eq (xs : List Node) : renderAll xs = (xs.map Node.render).flatten := by
  induction xs with
  | nil => rfl
  | cons x xs ih => rw [renderAll, ih, List.map_cons, List.flatten_cons]

end Doorhinges.Lib.Xml

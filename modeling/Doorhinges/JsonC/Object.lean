import Doorhinges.Lib.CString
import Mathlib.Data.List.Nodup

/-!
# The objects of json-c

A `json_object` is a value, or the null pointer. The members of an object are the entries of its
table, in the order in which they were added.
-/
namespace Doorhinges.JsonC

open Lib.CString

/-- What `sprintf` makes of a `double` with `%lf` and what `sscanf` makes of a text. -/
structure Floats (D : Type) where
  sprintf : D → Bytes
  sscanf : Bytes → Option D

/-- `struct json_object` -/
inductive JsonObject (D : Type) where
  | null
  | boolean (b : Bool)
  | double (d : D)
  | int (i : Int32)
  | object (members : List (Bytes × JsonObject D))
  | array (list : List (JsonObject D))
  | string (s : Bytes)

variable {D : Type}

section Printing

variable (F : Floats D)

def jsonHexChars : Bytes := ascii "0123456789abcdef"

/-- A byte of a string, as `json_escape_str` writes it. -/
def escapeByte (c : UInt8) : Bytes :=
  if c = 8 then ascii "\\b"
  else if c = 10 then ascii "\\n"
  else if c = 13 then ascii "\\r"
  else if c = 9 then ascii "\\t"
  else if c = 34 then ascii "\\\""
  else if c = 92 then ascii "\\\\"
  else if c = 47 then ascii "\\/"
  else if c < 32 then
    ascii "\\u00" ++ [jsonHexChars.getD (c >>> 4).toNat 0, jsonHexChars.getD (c &&& 15).toNat 0]
  else [c]

def jsonEscapeStr (s : Bytes) : Bytes := s.flatMap escapeByte

mutual

def toJsonString : JsonObject D → Bytes
  | .null => ascii "null"
  | .boolean b => if b then ascii "true" else ascii "false"
  | .double d => F.sprintf d
  | .int i => decimal i.toInt
  | .object ms => ascii "\x7b" ++ membersToJsonString false ms ++ ascii " \x7d"
  | .array vs => ascii "[" ++ elementsToJsonString false vs ++ ascii " ]"
  | .string s => ascii "\"" ++ jsonEscapeStr s ++ ascii "\""

/-- The members of an object, behind another one or not. -/
def membersToJsonString : Bool → List (Bytes × JsonObject D) → Bytes
  | _, [] => []
  | i, (k, v) :: ms =>
    (if i then ascii "," else []) ++ ascii " \"" ++ jsonEscapeStr k ++ ascii "\": " ++
      toJsonString v ++ membersToJsonString true ms

def elementsToJsonString : Bool → List (JsonObject D) → Bytes
  | _, [] => []
  | i, v :: vs =>
    (if i then ascii ", " else ascii " ") ++ toJsonString v ++ elementsToJsonString true vs

end

end Printing

/-- `json_object_object_add`: the entry of the key is deleted, the new one is the last. -/
def objectAdd (ms : List (Bytes × JsonObject D)) (key : Bytes) (val : JsonObject D) :
    List (Bytes × JsonObject D) :=
  ms.eraseP (·.1 = key) ++ [(key, val)]

/-- `json_object_object_get` -/
def objectGet (ms : List (Bytes × JsonObject D)) (key : Bytes) : JsonObject D :=
  ((ms.find? (·.1 = key)).map (·.2)).getD .null

section Shape

mutual

/-- How many levels down the values of the object are, with members or elements at each. -/
def nest : JsonObject D → Nat
  | .object ms => nestMembers ms
  | .array vs => nestElements vs
  | _ => 0

def nestMembers : List (Bytes × JsonObject D) → Nat
  | [] => 0
  | (_, v) :: ms => max (nest v + 1) (nestMembers ms)

def nestElements : List (JsonObject D) → Nat
  | [] => 0
  | v :: vs => max (nest v + 1) (nestElements vs)

end

/-- An object that can be: its strings are C strings and no two members have one key. `P` holds of
its `double`s. -/
inductive Proper (P : D → Prop) : JsonObject D → Prop where
  | null : Proper P .null
  | boolean (b : Bool) : Proper P (.boolean b)
  | double {d : D} (h : P d) : Proper P (.double d)
  | int (i : Int32) : Proper P (.int i)
  | object {ms : List (Bytes × JsonObject D)} (keys : (ms.map Prod.fst).Nodup)
    (names : ∀ m ∈ ms, 0 ∉ m.1) (h : ∀ m ∈ ms, Proper P m.2) : Proper P (.object ms)
  | array {vs : List (JsonObject D)} (h : ∀ v ∈ vs, Proper P v) : Proper P (.array vs)
  | string {s : Bytes} (h : 0 ∉ s) : Proper P (.string s)

variable {P Q : D → Prop} {v : JsonObject D} {ms : List (Bytes × JsonObject D)}
  {vs : List (JsonObject D)}

theorem Proper.mono (h : Proper P v) (hpq : ∀ d, P d → Q d) : Proper Q v := by
  induction h with
  | null => exact .null
  | boolean b => exact .boolean b
  | double h => exact .double (hpq _ h)
  | int i => exact .int i
  | object keys names _ ih => exact .object keys names ih
  | array _ ih => exact .array ih
  | string h => exact .string h

theorem nestMembers_le_iff {n : Nat} :
    nestMembers ms ≤ n ↔ ∀ m ∈ ms, nest m.2 + 1 ≤ n := by
  induction ms with
  | nil => simp [nestMembers]
  | cons m ms ih => rw [nestMembers, max_le_iff, ih, List.forall_mem_cons]

theorem nestElements_le_iff {n : Nat} :
    nestElements vs ≤ n ↔ ∀ v ∈ vs, nest v + 1 ≤ n := by
  induction vs with
  | nil => simp [nestElements]
  | cons v vs ih => rw [nestElements, max_le_iff, ih, List.forall_mem_cons]

theorem mem_objectAdd {key : Bytes} {m : Bytes × JsonObject D} (h : m ∈ objectAdd ms key v) :
    m ∈ ms ∨ m = (key, v) :=
  (List.mem_append.1 h).imp List.mem_of_mem_eraseP List.mem_singleton.1

theorem objectAdd_new {key : Bytes} (h : key ∉ ms.map Prod.fst) :
    objectAdd ms key v = ms ++ [(key, v)] := by
  rw [objectAdd, List.eraseP_of_forall_not]
  intro m hm heq
  exact h (of_decide_eq_true heq ▸ List.mem_map_of_mem hm)

/-- No two entries of a table have one key. -/
theorem nodup_objectAdd (key : Bytes) (h : (ms.map Prod.fst).Nodup) :
    ((objectAdd ms key v).map Prod.fst).Nodup := by
  have hkey : key ∉ (ms.eraseP (·.1 = key)).map Prod.fst := by
    induction ms with
    | nil => exact List.not_mem_nil
    | cons m ms ih =>
      rw [List.map_cons, List.nodup_cons] at h
      by_cases heq : m.1 = key
      · rw [List.eraseP_cons_of_pos (by simpa using heq), ← heq]
        exact h.1
      · rw [List.eraseP_cons_of_neg (by simpa using heq), List.map_cons]
        exact List.not_mem_cons_of_ne_of_not_mem (Ne.symm heq) (ih h.2)
  rw [objectAdd, List.map_append]
  refine List.Nodup.append (h.sublist (List.eraseP_sublist.map _)) (List.nodup_singleton _) ?_
  exact List.disjoint_singleton.2 hkey

/-- A member that is added keeps an object proper. -/
theorem Proper.add {key : Bytes} (h : Proper P (.object ms)) (hkey : 0 ∉ key)
    (hv : Proper P v) : Proper P (.object (objectAdd ms key v)) := by
  cases h with
  | object keys names h =>
    refine .object (nodup_objectAdd key keys) ?_ ?_
    · intro m hm
      obtain hm | rfl := mem_objectAdd hm
      · exact names m hm
      · exact hkey
    · intro m hm
      obtain hm | rfl := mem_objectAdd hm
      · exact h m hm
      · exact hv

theorem Proper.push (h : Proper P (.array vs)) (hv : Proper P v) :
    Proper P (.array (vs ++ [v])) := by
  cases h with
  | array h =>
    refine .array fun w hw => ?_
    obtain hw | hw := List.mem_append.1 hw
    · exact h w hw
    · exact List.mem_singleton.1 hw ▸ hv

end Shape

end Doorhinges.JsonC

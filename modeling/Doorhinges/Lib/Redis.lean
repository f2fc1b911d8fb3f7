import Doorhinges.Lib.CString

/-!
# A Redis store with expiring keys

One command reads and writes one key, atomically. A key whose time to live has
run out reads as absent. Floating-point sums are left to a parameter.
-/
namespace Doorhinges.Lib.Redis

open Lib.CString

inductive Field where
  | text (b : Bytes)
  | int (n : Int)
  deriving DecidableEq

inductive Value where
  | text (b : Bytes)
  | int (n : Int)
  | hash (fields : List (Bytes × Field))
  | set (members : List Bytes)
  deriving DecidableEq

/-- A stored value and, for a key with a time to live, the last instant it is alive. -/
structure Entry where
  value : Value
  expires : Option Nat
  deriving DecidableEq

inductive Reply where
  | status
  | nil
  | error
  | int (n : Int)
  | str (b : Bytes)
  | array (elements : List (Option Bytes))
  deriving DecidableEq

/-- The `integer` member of a reply object. -/
def Reply.integer : Reply → Int
  | .int n => n
  | _ => 0

/-- The `str` member of a reply object. -/
def Reply.str? : Reply → Option Bytes
  | .str b => some b
  | _ => none

def Reply.elements : Reply → List (Option Bytes)
  | .array l => l
  | _ => []

inductive Cmd (K : Type) where
  | get (k : K)
  | incr (k : K)
  | expire (k : K) (seconds : Nat)
  | setex (k : K) (seconds : Nat) (v : Bytes)
  | hget (k : K) (f : Bytes)
  | hset (k : K) (f v : Bytes)
  | hincrby (k : K) (f : Bytes) (n : Int)
  | hincrbyfloat (k : K) (f v : Bytes)
  | sadd (k : K) (m : Bytes)
  | smembers (k : K)
  deriving DecidableEq

variable {K : Type}

def Cmd.key : Cmd K → K
  | .get k | .incr k | .expire k _ | .setex k _ _ | .hget k _ | .hset k _ _ => k
  | .hincrby k _ _ | .hincrbyfloat k _ _ | .sadd k _ | .smembers k => k

/-- The integer a canonical decimal text stands for. -/
def string2ll (b : Bytes) : Option Int :=
  if decimal (strtol b) = b then some (strtol b) else none

def Field.int? : Field → Option Int
  | .int n => some n
  | .text b => string2ll b

def Field.bytes : Field → Bytes
  | .int n => decimal n
  | .text b => b

def getField (f : Bytes) : List (Bytes × Field) → Option Field
  | [] => none
  | (g, v) :: fields => if g = f then some v else getField f fields

def setField (f : Bytes) (v : Field) : List (Bytes × Field) → List (Bytes × Field)
  | [] => [(f, v)]
  | (g, w) :: fields => if g = f then (f, v) :: fields else (g, w) :: setField f v fields

@[simp] theorem getField_setField_self (f : Bytes) (v : Field) (h : List (Bytes × Field)) :
    getField f (setField f v h) = some v := by
  induction h with
  | nil => simp [setField, getField]
  | cons p h ih =>
    obtain ⟨g, w⟩ := p
    by_cases hg : g = f <;> simp [setField, getField, hg, ih]

theorem getField_setField_of_ne {f g : Bytes} (hne : g ≠ f) (v : Field)
    (h : List (Bytes × Field)) : getField g (setField f v h) = getField g h := by
  induction h with
  | nil => simp [setField, getField, Ne.symm hne]
  | cons p h ih =>
    obtain ⟨g', w⟩ := p
    by_cases hg : g' = f
    · subst hg
      simp [setField, getField, Ne.symm hne]
    · simp [setField, getField, hg, ih]

/-- The fields of an absent or a hash key. -/
def fieldsOf : Option Entry → Option (List (Bytes × Field))
  | none => some []
  | some ⟨.hash fields, _⟩ => some fields
  | some _ => none

def membersOf : Option Entry → Option (List Bytes)
  | none => some []
  | some ⟨.set members, _⟩ => some members
  | some _ => none

def expiresOf (e : Option Entry) : Option Nat := e.bind (·.expires)

/-- What a command answers and leaves, given the live entry of its key. -/
def Cmd.exec (addFloat : Option Field → Bytes → Bytes) (now : Nat) (c : Cmd K)
    (e : Option Entry) : Reply × Option Entry :=
  match c with
  | .get _ =>
    match e with
    | none => (.nil, e)
    | some ⟨.text b, _⟩ => (.str b, e)
    | some ⟨.int n, _⟩ => (.str (decimal n), e)
    | some _ => (.error, e)
  | .incr _ =>
    match e with
    | none => (.int 1, some ⟨.int 1, none⟩)
    | some ⟨.int n, t⟩ => (.int (n + 1), some ⟨.int (n + 1), t⟩)
    | some ⟨.text b, t⟩ =>
      match string2ll b with
      | none => (.error, e)
      | some n => (.int (n + 1), some ⟨.int (n + 1), t⟩)
    | some _ => (.error, e)
  | .expire _ seconds =>
    match e with
    | none => (.int 0, none)
    | some e => (.int 1, some { e with expires := some (now + 1000 * seconds) })
  | .setex _ seconds v => (.status, some ⟨.text v, some (now + 1000 * seconds)⟩)
  | .hget _ f =>
    match fieldsOf e with
    | none => (.error, e)
    | some fields => (((getField f fields).map fun v => Reply.str v.bytes).getD .nil, e)
  | .hset _ f v =>
    match fieldsOf e with
    | none => (.error, e)
    | some fields =>
      (.int (if (getField f fields).isSome then 0 else 1),
        some ⟨.hash (setField f (.text v) fields), expiresOf e⟩)
  | .hincrby _ f n =>
    match fieldsOf e with
    | none => (.error, e)
    | some fields =>
      match ((getField f fields).getD (.int 0)).int? with
      | none => (.error, e)
      | some m => (.int (m + n), some ⟨.hash (setField f (.int (m + n)) fields), expiresOf e⟩)
  | .hincrbyfloat _ f v =>
    match fieldsOf e with
    | none => (.error, e)
    | some fields =>
      let sum := addFloat (getField f fields) v
      (.str sum, some ⟨.hash (setField f (.text sum) fields), expiresOf e⟩)
  | .sadd _ m =>
    match membersOf e with
    | none => (.error, e)
    | some members =>
      if m ∈ members then (.int 0, e)
      else (.int 1, some ⟨.set (members ++ [m]), expiresOf e⟩)
  | .smembers _ =>
    match membersOf e with
    | none => (.error, e)
    | some members => (.array (members.map some), e)

/-- A hash that has only ever been counted up. -/
def Entry.Counters (e : Entry) : Prop :=
  e.expires = none ∧ ∃ fields, e.value = .hash fields ∧
    ∀ f v, getField f fields = some v → ∃ n, v = .int n

def numberOf : Option Field → Int
  | some (.int n) => n
  | _ => 0

def counterOf (f : Bytes) (e : Option Entry) : Int := numberOf ((fieldsOf e).bind (getField f))

theorem fieldsOf_counters {e : Option Entry} (he : ∀ e₀, e = some e₀ → e₀.Counters) :
    expiresOf e = none ∧ ∃ fields, fieldsOf e = some fields ∧
      ∀ f, getField f fields = none ∨ ∃ n, getField f fields = some (.int n) := by
  cases e with
  | none => exact ⟨rfl, [], rfl, fun f => .inl rfl⟩
  | some e =>
    obtain ⟨v, t⟩ := e
    obtain ⟨rfl, fields, rfl, hint⟩ := he _ rfl
    refine ⟨rfl, fields, rfl, fun f => ?_⟩
    cases hf : getField f fields with
    | none => exact .inl rfl
    | some v =>
      obtain ⟨n, rfl⟩ := hint f v hf
      exact .inr ⟨n, rfl⟩

/-- Counting up one field answers its new number and leaves the others. -/
theorem exec_hincrby_one (addFloat : Option Field → Bytes → Bytes) (now : Nat) (k : K) (f : Bytes)
    {e : Option Entry} (he : ∀ e₀, e = some e₀ → e₀.Counters) :
    ∃ e', (Cmd.hincrby k f 1).exec addFloat now e = (.int (counterOf f e + 1), some e') ∧
      e'.Counters ∧ counterOf f (some e') = counterOf f e + 1 ∧
      ∀ g, g ≠ f → counterOf g (some e') = counterOf g e := by
  obtain ⟨hexp, fields, hfields, hint⟩ := fieldsOf_counters he
  have hcount : ((getField f fields).getD (.int 0)).int? = some (counterOf f e) := by
    rcases hint f with hf | ⟨n, hf⟩ <;> simp [counterOf, numberOf, hfields, hf, Field.int?]
  refine ⟨⟨.hash (setField f (.int (counterOf f e + 1)) fields), none⟩, ?_, ⟨rfl, _, rfl, ?_⟩, ?_, ?_⟩
  · simp only [Cmd.exec, hfields, hcount, hexp]
  · intro g v hg
    by_cases hgf : g = f
    · subst hgf
      rw [getField_setField_self] at hg
      exact ⟨_, (Option.some.inj hg).symm⟩
    · rw [getField_setField_of_ne hgf] at hg
      rcases hint g with hn | ⟨n, hn⟩
      · simp [hn] at hg
      · exact ⟨n, by simpa [hn, eq_comm] using hg⟩
  · simp only [counterOf, fieldsOf, Option.bind_some, getField_setField_self, numberOf]
  · intro g hgf
    show numberOf (getField g (setField f _ fields)) = _
    rw [getField_setField_of_ne hgf, counterOf, hfields, Option.bind_some]

abbrev Store (K : Type) := K → Option Entry

def Entry.alive (now : Nat) (e : Entry) : Bool :=
  match e.expires with
  | none => true
  | some t => now ≤ t

/-- The entry of a key that has not expired. -/
def Store.lookup (st : Store K) (now : Nat) (k : K) : Option Entry :=
  (st k).filter (·.alive now)

variable [DecidableEq K] (addFloat : Option Field → Bytes → Bytes)

/-- A command that leaves the entry as it finds it leaves the map alone, so an
expired entry stays in the map until its key is written again. -/
def Store.run (st : Store K) (now : Nat) (c : Cmd K) : Reply × Store K :=
  let r := c.exec addFloat now (st.lookup now c.key)
  (r.1, if r.2 = st.lookup now c.key then st else fun k => if k = c.key then r.2 else st k)

theorem Store.run_other (st : Store K) (now : Nat) (c : Cmd K) {k : K} (h : k ≠ c.key) :
    (st.run addFloat now c).2 k = st k := by
  unfold Store.run
  dsimp only
  split
  · rfl
  · simp [h]

omit [DecidableEq K] in
theorem Store.lookup_some {st : Store K} {now : Nat} {k : K} {e : Entry} :
    st.lookup now k = some e ↔ st k = some e ∧ e.alive now = true := by
  simp [Store.lookup, Option.filter_eq_some_iff]

/-- The entry a command leaves is the entry its key then has. -/
theorem Store.run_self {st : Store K} {now : Nat} {c : Cmd K} {e : Entry}
    (h : (c.exec addFloat now (st.lookup now c.key)).2 = some e) :
    (st.run addFloat now c).2 c.key = some e := by
  unfold Store.run
  dsimp only
  rw [h]
  split
  · rename_i hs
    exact (Store.lookup_some.mp hs.symm).1
  · simp

/-- Where an entry of the map comes from. -/
theorem Store.run_origin {st : Store K} {now : Nat} {c : Cmd K} {k : K} {e : Entry}
    (h : (st.run addFloat now c).2 k = some e) :
    st k = some e ∨ k = c.key ∧ (c.exec addFloat now (st.lookup now c.key)).2 = some e := by
  unfold Store.run at h
  dsimp only at h
  split at h
  · exact .inl h
  · by_cases hk : k = c.key
    · exact .inr ⟨hk, by simpa [hk] using h⟩
    · exact .inl (by simpa [hk] using h)

theorem Store.run_same {st : Store K} {now : Nat} {c : Cmd K}
    (h : (c.exec addFloat now (st.lookup now c.key)).2 = st.lookup now c.key) :
    (st.run addFloat now c).2 = st := by
  unfold Store.run
  dsimp only
  rw [if_pos h]

end Doorhinges.Lib.Redis

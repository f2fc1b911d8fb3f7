import Doorhinges.Hiredis.Wire
import Mathlib.Algebra.Order.BigOperators.Group.List

/-!
# Commands as they are written

`redisFormatCommandArgv` writes a list of arguments, and `redisvFormatCommand` takes the words of
a format with the texts of its conversions. The text of a command is that of an array of strings,
so that no byte of an argument is taken for anything else.
-/
namespace Doorhinges.Hiredis

open Lib.CString

section Argv

/-- The rounds of the loop of `intlen`; `k` is more than it can take. -/
def intlenLoop : Nat → Nat → Nat
  | 0, _ => 0
  | k + 1, i => if i / 10 = 0 then 1 else intlenLoop k (i / 10) + 1

/-- The number of digits. -/
def intlen (n : Nat) : Nat := intlenLoop (n + 1) n

def bulklen (len : Nat) : Nat := 1 + intlen len + 2 + len + 2

/-- The text of a command, written to the buffer that has been counted for it; nothing is said
about a length that is no int, and the assertion on the length is checked. -/
def redisFormatCommandArgv (argv : List Bytes) : Option Bytes :=
  let totlen := 1 + intlen argv.length + 2 + (argv.map fun arg => bulklen arg.length).sum
  let cmd := 42 :: line (decimalNat argv.length) ++
    argv.flatMap fun arg => 36 :: line (decimalNat arg.length) ++ line arg
  if totlen < 2 ^ 31 ∧ cmd.length = totlen then some cmd else none

/-- The command as an array of strings. -/
def command (argv : List Bytes) : RedisReply := .array argv.length (argv.map .string)

end Argv

section Format

/-- An argument behind the format: a C string, a text with its length, or a number. -/
inductive Arg (ν : Type) where
  | str (s : Bytes)
  | bin (s : Bytes)
  | int (n : ν)
  | double (n : ν)

section Va

variable {ν : Type}

def Arg.str? : Arg ν → Option Bytes
  | .str s => some s
  | _ => none

def Arg.bin? : Arg ν → Option Bytes
  | .bin s => some s
  | _ => none

def Arg.int? : Arg ν → Option ν
  | .int n => some n
  | _ => none

def Arg.double? : Arg ν → Option ν
  | .double n => some n
  | _ => none

end Va

/-- What stands behind a `%` that is none of `%s`, `%b` and `%%`. -/
inductive Conversion where
  /-- a conversion of so many bytes -/
  | int (len : Nat)
  | double (len : Nat)
  | invalid
  /-- the format ends in it, and what is behind the format is read -/
  | beyond
  deriving DecidableEq

def optional (c : UInt8) (p : Bytes) : Bytes := if p.head? = some c then p.tail else p

def intfmts : Bytes := ascii "diouxX"

/-- An integer conversion behind a size; `len` counts what is before it. -/
def sized (len : Nat) : Bytes → Conversion
  | [] => .invalid
  | c :: _ => if c ∈ intfmts then .int (len + 1) else .invalid

def conversion (s : Bytes) : Conversion :=
  let p := [35, 48, 45, 32, 43].foldl (fun p c => optional c p) s
  let p := p.dropWhile isDigit
  let p := if p.head? = some 46 then p.tail.dropWhile isDigit else p
  let len := s.length - p.length
  match p with
  | [] => .beyond
  | c :: p =>
    if c ∈ intfmts then .int (len + 1)
    else if c ∈ ascii "eEfFgGaA" then .double (len + 1)
    else if c = 104 then if p.head? = some 104 then sized (len + 2) p.tail else sized (len + 1) p
    else if c = 108 then if p.head? = some 108 then sized (len + 2) p.tail else sized (len + 1) p
    else .invalid

/-- A format of `printf` that is too long for its buffer is not used, and the rest of it stands for
itself; with the number of bytes that are passed over. -/
def printed (s : Bytes) (len : Nat) : Option Bytes × Nat :=
  if len + 1 < 14 then (some (37 :: s.take len), len) else (none, 1)

variable {ν : Type} (vsnprintf : Bytes → ν → Bytes)

def converted (format : Option Bytes) (n : ν) : Bytes := (format.map (vsnprintf · n)).getD []

/-- The loop of `redisvFormatCommand` over the format: absent where C leaves undefined what is
done, and `some none` where the result is -1. -/
def formatLoop : Nat → Bytes → List (Arg ν) → Bytes → Bool → List Bytes →
    Option (Option (List Bytes))
  | 0, _, _, _, _, _ => none
  | _ + 1, [], _, curarg, touched, argv =>
    some (some (if touched then argv ++ [curarg] else argv))
  | k + 1, c :: f, args, curarg, touched, argv =>
    if c ≠ 37 ∨ f = [] then
      if c = 32 then
        if touched then formatLoop k f args [] false (argv ++ [curarg])
        else formatLoop k f args curarg false argv
      else formatLoop k f args (curarg ++ [c]) true argv
    else if f.head? = some 115 then
      (args.head?.bind Arg.str?).bind fun s =>
        formatLoop k f.tail args.tail (curarg ++ s) true argv
    else if f.head? = some 98 then
      (args.head?.bind Arg.bin?).bind fun s =>
        formatLoop k f.tail args.tail (curarg ++ s) true argv
    else if f.head? = some 37 then formatLoop k f.tail args (curarg ++ [37]) true argv
    else
      match conversion f with
      | .beyond => none
      | .invalid => some none
      | .int len =>
        (args.head?.bind Arg.int?).bind fun n =>
          formatLoop k (f.drop (printed f len).2) args.tail
            (curarg ++ converted vsnprintf (printed f len).1 n) true argv
      | .double len =>
        (args.head?.bind Arg.double?).bind fun n =>
          formatLoop k (f.drop (printed f len).2) args.tail
            (curarg ++ converted vsnprintf (printed f len).1 n) true argv

def redisvFormatCommand (format : Bytes) (args : List (Arg ν)) : Option (Option Bytes) :=
  match formatLoop vsnprintf (format.length + 1) format args [] false [] with
  | none => none
  | some none => some none
  | some (some argv) => (redisFormatCommandArgv argv).map some

end Format

section Words

/-- What a format is made of: bytes, blanks, and arguments that are put in as they are or by a
format of `printf`, if it is used. -/
inductive Piece where
  | byte (c : UInt8)
  | blank
  | str
  | bin
  | int (format : Option Bytes)
  | double (format : Option Bytes)
  deriving DecidableEq

/-- The pieces of a format; absent where no command is made of it. -/
def piecesOf : Nat → Bytes → Option (List Piece)
  | 0, _ => none
  | _ + 1, [] => some []
  | k + 1, c :: f =>
    if c ≠ 37 ∨ f = [] then
      (piecesOf k f).map ((if c = 32 then Piece.blank else .byte c) :: ·)
    else if f.head? = some 115 then (piecesOf k f.tail).map (.str :: ·)
    else if f.head? = some 98 then (piecesOf k f.tail).map (.bin :: ·)
    else if f.head? = some 37 then (piecesOf k f.tail).map (.byte 37 :: ·)
    else
      match conversion f with
      | .beyond => none
      | .invalid => none
      | .int len => (piecesOf k (f.drop (printed f len).2)).map (.int (printed f len).1 :: ·)
      | .double len => (piecesOf k (f.drop (printed f len).2)).map (.double (printed f len).1 :: ·)

def pieces (format : Bytes) : Option (List Piece) := piecesOf (format.length + 1) format

variable {ν : Type} (vsnprintf : Bytes → ν → Bytes)

/-- The texts of the pieces, none for a blank; absent where an argument is missing or of another
type. -/
def filled : List Piece → List (Arg ν) → Option (List (Option Bytes))
  | [], _ => some []
  | .byte c :: ps, args => (filled ps args).map (some [c] :: ·)
  | .blank :: ps, args => (filled ps args).map (none :: ·)
  | .str :: ps, args =>
    (args.head?.bind Arg.str?).bind fun s => (filled ps args.tail).map (some s :: ·)
  | .bin :: ps, args =>
    (args.head?.bind Arg.bin?).bind fun s => (filled ps args.tail).map (some s :: ·)
  | .int format :: ps, args =>
    (args.head?.bind Arg.int?).bind fun n =>
      (filled ps args.tail).map (some (converted vsnprintf format n) :: ·)
  | .double format :: ps, args =>
    (args.head?.bind Arg.double?).bind fun n =>
      (filled ps args.tail).map (some (converted vsnprintf format n) :: ·)

/-- What stands between blanks, when `acc` has been seen since the last one. -/
def groupsFrom {α : Type} (blank : α → Bool) (acc : List α) : List α → List (List α)
  | [] => if acc.isEmpty then [] else [acc]
  | a :: l =>
    if blank a then
      if acc.isEmpty then groupsFrom blank [] l else acc :: groupsFrom blank [] l
    else groupsFrom blank (acc ++ [a]) l

def groups {α : Type} (blank : α → Bool) (l : List α) : List (List α) := groupsFrom blank [] l

def joinTexts (group : List (Option Bytes)) : Bytes := group.flatMap fun t => t.getD []

/-- The words of the filled format. -/
def words (texts : List (Option Bytes)) : List Bytes := (groups Option.isNone texts).map joinTexts

theorem groupsFrom_map {α β : Type} (f : α → β) (blank : β → Bool) (acc l : List α) :
    groupsFrom blank (acc.map f) (l.map f) =
      (groupsFrom (fun a => blank (f a)) acc l).map (List.map f) := by
  induction l generalizing acc with
  | nil =>
    rw [List.map_nil, groupsFrom, groupsFrom, List.isEmpty_map]
    split <;> rfl
  | cons a l ih =>
    have hnil := ih []
    have hmore := ih (acc ++ [a])
    rw [List.map_nil] at hnil
    rw [List.map_append, List.map_singleton] at hmore
    rw [List.map_cons, groupsFrom, groupsFrom, List.isEmpty_map, hnil, hmore]
    split
    · split <;> simp
    · rfl

/-- The number of groups depends on where the blanks are. -/
theorem length_groups {α β : Type} {blank : α → Bool} {blank' : β → Bool} {l : List α}
    {l' : List β} (h : l.map blank = l'.map blank') :
    (groups blank l).length = (groups blank' l').length := by
  have hl : groupsFrom id [] (l.map blank) = (groups blank l).map (List.map blank) :=
    groupsFrom_map blank id [] l
  have hl' : groupsFrom id [] (l'.map blank') = (groups blank' l').map (List.map blank') :=
    groupsFrom_map blank' id [] l'
  rw [h, hl'] at hl
  have hlen := congrArg List.length hl
  rw [List.length_map, List.length_map] at hlen
  exact hlen.symm

theorem filled_blanks {ps : List Piece} {args : List (Arg ν)} {texts : List (Option Bytes)}
    (h : filled vsnprintf ps args = some texts) :
    texts.map Option.isNone = ps.map (fun p => decide (p = .blank)) := by
  induction ps generalizing args texts with
  | nil =>
    obtain rfl := Option.some.inj h
    rfl
  | cons p ps ih =>
    have hone : ∀ {args' : List (Arg ν)} {t : Option Bytes}, t.isNone = decide (p = .blank) →
        (filled vsnprintf ps args').map (t :: ·) = some texts →
        texts.map Option.isNone = (p :: ps).map (fun p => decide (p = .blank)) := by
      intro args' t ht h
      obtain ⟨ts, hts, rfl⟩ := Option.map_eq_some_iff.1 h
      rw [List.map_cons, List.map_cons, ih hts, ht]
    rw [filled.eq_def] at h
    cases p with
    | byte c => exact hone rfl h
    | blank => exact hone rfl h
    | str =>
      obtain ⟨s, -, h⟩ := Option.bind_eq_some_iff.1 h
      exact hone rfl h
    | bin =>
      obtain ⟨s, -, h⟩ := Option.bind_eq_some_iff.1 h
      exact hone rfl h
    | int format =>
      obtain ⟨n, -, h⟩ := Option.bind_eq_some_iff.1 h
      exact hone rfl h
    | double format =>
      obtain ⟨n, -, h⟩ := Option.bind_eq_some_iff.1 h
      exact hone rfl h

/-- The words that have been found are those of the pieces, and the last one goes on. -/
theorem formatLoop_eq {k : Nat} {f : Bytes} {ps : List Piece} {args : List (Arg ν)}
    {texts acc : List (Option Bytes)} (argv : List Bytes) (hps : piecesOf k f = some ps)
    (htexts : filled vsnprintf ps args = some texts) :
    formatLoop vsnprintf k f args (joinTexts acc) (!acc.isEmpty) argv =
      some (some (argv ++ (groupsFrom Option.isNone acc texts).map joinTexts)) := by
  induction k generalizing f ps args texts acc argv with
  | zero => cases hps
  | succ k ih =>
    have hgo : ∀ {f' : Bytes} {ps' : List Piece} {args' : List (Arg ν)}
        {texts' : List (Option Bytes)} (t : Bytes), piecesOf k f' = some ps' →
        filled vsnprintf ps' args' = some texts' →
        formatLoop vsnprintf k f' args' (joinTexts acc ++ t) true argv =
          some (some (argv ++ (groupsFrom Option.isNone acc (some t :: texts')).map joinTexts)) := by
      intro f' ps' args' texts' t hps' htexts'
      have hmore : joinTexts acc ++ t = joinTexts (acc ++ [some t]) := by
        rw [joinTexts, joinTexts, List.flatMap_append]
        simp
      have htouched : true = !(acc ++ [some t]).isEmpty := by simp
      rw [hmore, htouched, ih argv hps' htexts', groupsFrom, if_neg (by simp)]
    cases f with
    | nil =>
      obtain rfl := Option.some.inj hps
      obtain rfl := Option.some.inj htexts
      rw [formatLoop, groupsFrom]
      cases acc <;> simp
    | cons c f =>
      rw [piecesOf] at hps
      rw [formatLoop]
      by_cases hbyte : c ≠ 37 ∨ f = []
      · rw [if_pos hbyte] at hps ⊢
        obtain ⟨ps', hps', rfl⟩ := Option.map_eq_some_iff.1 hps
        by_cases hblank : c = 32
        · rw [if_pos hblank] at htexts ⊢
          obtain ⟨texts', htexts', rfl⟩ := Option.map_eq_some_iff.1 htexts
          rw [groupsFrom, if_pos Option.isNone_none]
          cases acc with
          | nil => exact ih argv hps' htexts'
          | cons t acc =>
            have hnext := @ih f ps' args texts' [] (argv ++ [joinTexts (t :: acc)]) hps' htexts'
            rw [List.append_assoc] at hnext
            exact hnext
        · rw [if_neg hblank] at htexts ⊢
          obtain ⟨texts', htexts', rfl⟩ := Option.map_eq_some_iff.1 htexts
          exact hgo [c] hps' htexts'
      · rw [if_neg hbyte] at hps ⊢
        by_cases hstr : f.head? = some 115
        · rw [if_pos hstr] at hps ⊢
          obtain ⟨ps', hps', rfl⟩ := Option.map_eq_some_iff.1 hps
          obtain ⟨s, hs, htexts⟩ := Option.bind_eq_some_iff.1 htexts
          obtain ⟨texts', htexts', rfl⟩ := Option.map_eq_some_iff.1 htexts
          rw [hs]
          exact hgo s hps' htexts'
        rw [if_neg hstr] at hps ⊢
        by_cases hbin : f.head? = some 98
        · rw [if_pos hbin] at hps ⊢
          obtain ⟨ps', hps', rfl⟩ := Option.map_eq_some_iff.1 hps
          obtain ⟨s, hs, htexts⟩ := Option.bind_eq_some_iff.1 htexts
          obtain ⟨texts', htexts', rfl⟩ := Option.map_eq_some_iff.1 htexts
          rw [hs]
          exact hgo s hps' htexts'
        rw [if_neg hbin] at hps ⊢
        by_cases hpercent : f.head? = some 37
        · rw [if_pos hpercent] at hps ⊢
          obtain ⟨ps', hps', rfl⟩ := Option.map_eq_some_iff.1 hps
          obtain ⟨texts', htexts', rfl⟩ := Option.map_eq_some_iff.1 htexts
          exact hgo [37] hps' htexts'
        rw [if_neg hpercent] at hps ⊢
        cases hconv : conversion f with
        | beyond =>
          rw [hconv] at hps
          cases hps
        | invalid =>
          rw [hconv] at hps
          cases hps
        | int len =>
          rw [hconv] at hps
          obtain ⟨ps', hps', rfl⟩ := Option.map_eq_some_iff.1 hps
          obtain ⟨n, hn, htexts⟩ := Option.bind_eq_some_iff.1 htexts
          obtain ⟨texts', htexts', rfl⟩ := Option.map_eq_some_iff.1 htexts
          dsimp only
          rw [hn]
          exact hgo _ hps' htexts'
        | double len =>
          rw [hconv] at hps
          obtain ⟨ps', hps', rfl⟩ := Option.map_eq_some_iff.1 hps
          obtain ⟨n, hn, htexts⟩ := Option.bind_eq_some_iff.1 htexts
          obtain ⟨texts', htexts', rfl⟩ := Option.map_eq_some_iff.1 htexts
          dsimp only
          rw [hn]
          exact hgo _ hps' htexts'

/-- Where a command is made, the format has pieces and the arguments are those they ask for. -/
theorem formatLoop_some {k : Nat} {f : Bytes} {args : List (Arg ν)} {curarg : Bytes}
    {touched : Bool} {argv out : List Bytes}
    (h : formatLoop vsnprintf k f args curarg touched argv = some (some out)) :
    ∃ ps texts, piecesOf k f = some ps ∧ filled vsnprintf ps args = some texts := by
  induction k generalizing f args curarg touched argv with
  | zero => cases h
  | succ k ih =>
    cases f with
    | nil => exact ⟨[], [], rfl, rfl⟩
    | cons c f =>
      rw [formatLoop] at h
      rw [piecesOf]
      by_cases hbyte : c ≠ 37 ∨ f = []
      · rw [if_pos hbyte] at h ⊢
        have hrest : ∃ ps texts, piecesOf k f = some ps ∧ filled vsnprintf ps args = some texts := by
          split at h
          · split at h
            · exact ih h
            · exact ih h
          · exact ih h
        obtain ⟨ps, texts, hps, htexts⟩ := hrest
        refine ⟨_, if c = 32 then none :: texts else some [c] :: texts, by rw [hps]; rfl, ?_⟩
        split <;> simp [filled, htexts]
      rw [if_neg hbyte] at h ⊢
      by_cases hstr : f.head? = some 115
      · rw [if_pos hstr] at h ⊢
        obtain ⟨s, hs, h⟩ := Option.bind_eq_some_iff.1 h
        obtain ⟨ps, texts, hps, htexts⟩ := ih h
        exact ⟨_, _, by rw [hps]; rfl, by rw [filled, hs, Option.bind_some, htexts]; rfl⟩
      rw [if_neg hstr] at h ⊢
      by_cases hbin : f.head? = some 98
      · rw [if_pos hbin] at h ⊢
        obtain ⟨s, hs, h⟩ := Option.bind_eq_some_iff.1 h
        obtain ⟨ps, texts, hps, htexts⟩ := ih h
        exact ⟨_, _, by rw [hps]; rfl, by rw [filled, hs, Option.bind_some, htexts]; rfl⟩
      rw [if_neg hbin] at h ⊢
      by_cases hpercent : f.head? = some 37
      · rw [if_pos hpercent] at h ⊢
        obtain ⟨ps, texts, hps, htexts⟩ := ih h
        exact ⟨_, _, by rw [hps]; rfl, by rw [filled, htexts]; rfl⟩
      rw [if_neg hpercent] at h ⊢
      cases hconv : conversion f with
      | beyond =>
        rw [hconv] at h
        cases h
      | invalid =>
        rw [hconv] at h
        cases h
      | int len =>
        rw [hconv] at h
        obtain ⟨n, hn, h⟩ := Option.bind_eq_some_iff.1 h
        obtain ⟨ps, texts, hps, htexts⟩ := ih h
        exact ⟨_, _, by dsimp only; rw [hps]; rfl,
          by rw [filled, hn, Option.bind_some, htexts]; rfl⟩
      | double len =>
        rw [hconv] at h
        obtain ⟨n, hn, h⟩ := Option.bind_eq_some_iff.1 h
        obtain ⟨ps, texts, hps, htexts⟩ := ih h
        exact ⟨_, _, by dsimp only; rw [hps]; rfl,
          by rw [filled, hn, Option.bind_some, htexts]; rfl⟩

end Words

section Text

theorem wires_strings (argv : List Bytes) : wires (argv.map .string) =
    argv.flatMap fun arg => 36 :: line (decimalNat arg.length) ++ line arg := by
  induction argv with
  | nil => rfl
  | cons arg argv ih => rw [List.map_cons, wires, ih, RedisReply.wire, List.flatMap_cons]

/-- The buffer that is counted is the one that is filled. -/
theorem formatArgv_some {argv : List Bytes} {text : Bytes}
    (h : redisFormatCommandArgv argv = some text) :
    text = (command argv).wire ∧ argv.length < 2 ^ 31 ∧ ∀ arg ∈ argv, arg.length < 2 ^ 31 := by
  rw [redisFormatCommandArgv] at h
  split at h
  · rename_i hlen
    obtain rfl := Option.some.inj h
    have hcount : decimal (argv.length : Int) = decimalNat argv.length := by
      rw [decimal, if_neg (by omega), Int.natAbs_natCast]
    refine ⟨?_, ?_, ?_⟩
    · rw [command, RedisReply.wire, wires_strings, hcount]
    · have hle := List.length_le_sum_of_one_le (argv.map fun arg => bulklen arg.length) (by
        intro n hn
        obtain ⟨arg, -, rfl⟩ := List.mem_map.1 hn
        rw [bulklen]
        omega)
      rw [List.length_map] at hle
      omega
    · intro arg harg
      have hle := List.le_sum_of_mem (List.mem_map_of_mem
        (f := fun arg : Bytes => bulklen arg.length) harg)
      rw [bulklen] at hle
      omega
  · cases h

theorem command_writable {argv : List Bytes} (hargc : argv.length < 2 ^ 31)
    (hargs : ∀ arg ∈ argv, arg.length < 2 ^ 31) : (command argv).Writable := by
  refine ⟨by rw [List.length_map], by rwa [List.length_map], ?_⟩
  clear hargc
  induction argv with
  | nil => trivial
  | cons arg argv ih =>
    obtain ⟨harg, hargs⟩ := List.forall_mem_cons.1 hargs
    exact ⟨show arg.length < 2 ^ 63 by omega, ih hargs⟩

theorem command_shallow (argv : List Bytes) : Shallow (command argv) := by
  have hflat : heights (argv.map .string) = 0 := by
    induction argv with
    | nil => rfl
    | cons arg argv ih => rw [List.map_cons, heights, ih, RedisReply.height]; rfl
  rw [Shallow, command, RedisReply.height, hflat]
  decide

end Text

section Commands

variable {ν : Type} (vsnprintf : Bytes → ν → Bytes)

/-- The arguments of a command: as many as the format has words, each made of the pieces of its
word. -/
def Words (c : Bytes × List (Arg ν)) (argv : List Bytes) : Prop :=
  ∃ ps texts, pieces c.1 = some ps ∧ filled vsnprintf ps c.2 = some texts ∧ argv = words texts ∧
    argv.length = (groups (fun p => decide (p = Piece.blank)) ps).length

theorem formatCommand_some {c : Bytes × List (Arg ν)} {text : Bytes}
    (h : redisvFormatCommand vsnprintf c.1 c.2 = some (some text)) :
    ∃ argv, Words vsnprintf c argv ∧ text = (command argv).wire ∧ (command argv).Writable := by
  rw [redisvFormatCommand] at h
  cases hloop : formatLoop vsnprintf (c.1.length + 1) c.1 c.2 [] false [] with
  | none =>
    rw [hloop] at h
    cases h
  | some r =>
    rw [hloop] at h
    cases r with
    | none => cases h
    | some argv =>
      obtain ⟨text', htext, heq⟩ := Option.map_eq_some_iff.1 h
      obtain rfl := Option.some.inj heq
      obtain ⟨ps, texts, hps, htexts⟩ := formatLoop_some vsnprintf hloop
      have hwords := @formatLoop_eq ν vsnprintf _ _ ps c.2 texts [] [] hps htexts
      have hargv : argv = words texts := Option.some.inj (Option.some.inj (hloop.symm.trans hwords))
      obtain ⟨rfl, hargc, hargs⟩ := formatArgv_some htext
      refine ⟨argv, ⟨ps, texts, hps, htexts, hargv, ?_⟩, rfl, command_writable hargc hargs⟩
      rw [hargv, words, List.length_map]
      exact length_groups (filled_blanks vsnprintf htexts)

/-- Commands that have been made from formats, appended to one another and cut at any places, are
read as these commands and nothing else: no byte of an argument makes a word, an argument or a
command of its own. -/
theorem commands_read_back {cmds : List (Bytes × List (Arg ν))} {texts : List Bytes}
    (hmade : List.Forall₂ (fun c text => redisvFormatCommand vsnprintf c.1 c.2 = some (some text))
      cmds texts) {calls : List Call} (hbytes : calls.flatMap Call.bytes = texts.flatten) :
    ∃ argvs, List.Forall₂ (Words vsnprintf) cmds argvs ∧
      ∃ out r ok q x, replies calls = some (out, r) ∧ r.getReply = some (ok, q, x) ∧
        out ++ x.toList <+: argvs.map command ∧
        (x = none → out = argvs.map command ∧ q.err = none) := by
  have hargvs : ∃ argvs : List (List Bytes), List.Forall₂ (Words vsnprintf) cmds argvs ∧
      texts.flatten = wires (argvs.map command) ∧ allWritable (argvs.map command) := by
    clear hbytes
    induction hmade with
    | nil => exact ⟨[], .nil, rfl, trivial⟩
    | cons hc _ ih =>
      obtain ⟨argv, hwords, htext, hwritable⟩ := formatCommand_some vsnprintf hc
      obtain ⟨argvs, hall, hflat, hrest⟩ := ih
      refine ⟨argv :: argvs, .cons hwords hall, ?_, hwritable, hrest⟩
      rw [List.flatten_cons, List.map_cons, wires, htext, hflat]
  obtain ⟨argvs, hall, hflat, hwritable⟩ := hargvs
  have hshallow : ∀ v ∈ argvs.map command, Shallow v := by
    intro v hv
    obtain ⟨argv, -, rfl⟩ := List.mem_map.1 hv
    exact command_shallow argv
  have hwhole : (argvs.map command).takeWhile (Shallow ·) = argvs.map command :=
    List.takeWhile_eq_self_iff.2 fun v hv => decide_eq_true (hshallow v hv)
  have hread := replies_of_wires hwritable (hbytes.trans hflat)
  rw [hwhole, depthOf, if_pos hshallow] at hread
  exact ⟨argvs, hall, hread⟩

/-- A command with the end of a line and the beginning of a command in an argument. -/
def lineCommand : Bytes × List (Arg Int) :=
  (ascii "SET k:%s %b", [.str (ascii "a b"), .bin (ascii "1\r\n*1\r\n")])

theorem commands_read_back_line : ∃ text r,
    redisvFormatCommand (fun _ n => decimal n) lineCommand.1 lineCommand.2 = some (some text) ∧
      replies [.feed text, .getReply] =
        some ([command [ascii "SET", ascii "k:a b", ascii "1\r\n*1\r\n"]], r) := by
  have hmade : ((redisvFormatCommand (fun _ n => decimal n) lineCommand.1 lineCommand.2).join.any
      fun text => (replies [.feed text, .getReply]).any fun t => t.1.length = 1) = true := by
    decide +kernel
  obtain ⟨text, htext, hgot⟩ := (Option.any_eq_true _ _).1 hmade
  have hbytes : [Call.feed text, .getReply].flatMap Call.bytes = [text].flatten := by
    simp [Call.bytes]
  obtain ⟨argvs, hwords, out, r, ok, q, x, hrun, -, hprefix, -⟩ :=
    commands_read_back (fun _ n => decimal n) (.cons (Option.join_eq_some_iff.1 htext) .nil) hbytes
  cases hwords with
  | cons hline hnone =>
    cases hnone
    obtain ⟨ps, texts, hps, htexts, rfl, -⟩ := hline
    have hparts : (pieces lineCommand.1).bind (fun ps =>
        (filled (fun _ n => decimal n) ps lineCommand.2).map words) =
          some [ascii "SET", ascii "k:a b", ascii "1\r\n*1\r\n"] := by
      decide +kernel
    rw [hps, Option.bind_some, htexts, Option.map_some, Option.some.injEq] at hparts
    rw [hparts] at hprefix
    rw [hrun, Option.any_some, decide_eq_true_eq] at hgot
    have hout := ((List.prefix_append _ _).trans hprefix).eq_of_length hgot
    rw [hout, List.map_singleton] at hrun
    exact ⟨text, r, Option.join_eq_some_iff.1 htext, hrun⟩

end Commands

end Doorhinges.Hiredis

import Doorhinges.Lib.Bump
import Doorhinges.Query.Roundtrip

/-!
# The list of ids

`get_ad` copies the ids to slots of `AIDLEN` bytes at `adparams_buf_last`, each with its
terminator and none with a check of its length or of the room that is left. An id that fills
its slot loses its terminator to the id behind it.
-/
namespace Doorhinges.GetAd

open Lib.CString
open Query

def AIDLEN : Nat := 10

section Source

/-- `strcpy`; `none` is a step outside the buffer. -/
def strcpyAt (mem : Bytes) (p : Nat) (s : Bytes) : Option Bytes :=
  if p + (s.length + 1) ≤ mem.length then some (Lib.Bump.overwrite mem p (s ++ [0])) else none

/-- The string at `aid_list + i * AIDLEN`. -/
def slotText (mem : Bytes) (i : Nat) : Bytes := cstr (mem.drop (i * AIDLEN))

/-- The loop over the ids; `mem` is the parameter buffer from `aid_list` on. -/
def fillAids : Nat → List Bytes → Bytes → Option Bytes
  | _, [], mem => some mem
  | i, id :: ids, mem => (strcpyAt mem (i * AIDLEN) id).bind (fillAids (i + 1) ids)

end Source

/-- What is read from the first slot: an id that fills its slot runs into the next. -/
def readThrough : List Bytes → Bytes
  | [] => []
  | [id] => id
  | id :: next :: ids =>
    if id.length < AIDLEN then id else id.take AIDLEN ++ readThrough (next :: ids)

/-- The last id and its terminator end in the buffer, behind the slots of the others. -/
def ListFits (ids : List Bytes) (room : Nat) : Prop :=
  ∀ id ∈ ids.getLast?, (ids.length - 1) * AIDLEN + id.length < room

instance (ids : List Bytes) (room : Nat) : Decidable (ListFits ids room) :=
  inferInstanceAs (Decidable (∀ id ∈ ids.getLast?, _))

section Strcpy

variable {mem mem' s : Bytes} {p : Nat}

theorem strcpyAt_some (h : strcpyAt mem p s = some mem') :
    p + (s.length + 1) ≤ mem.length ∧ mem' = Lib.Bump.overwrite mem p (s ++ [0]) := by
  rw [strcpyAt] at h
  by_cases hroom : p + (s.length + 1) ≤ mem.length
  · rw [if_pos hroom] at h
    exact ⟨hroom, (Option.some.inj h).symm⟩
  · rw [if_neg hroom] at h
    cases h

/-- The length stays, and so does what lies in front. -/
theorem strcpyAt_keeps (h : strcpyAt mem p s = some mem') {base : Nat} (hbase : base ≤ p) :
    mem'.length = mem.length ∧ mem'.take base = mem.take base := by
  obtain ⟨hroom, rfl⟩ := strcpyAt_some h
  have hp : p ≤ mem.length := by omega
  refine ⟨Lib.Bump.length_overwrite (by simpa using hroom), ?_⟩
  rw [← Nat.min_eq_left hbase, ← List.take_take, Lib.Bump.take_overwrite hp, List.take_take]

theorem strcpyAt_drop (h : strcpyAt mem p s = some mem') :
    mem'.drop p = s ++ 0 :: mem.drop (p + (s.length + 1)) := by
  obtain ⟨hroom, rfl⟩ := strcpyAt_some h
  rw [Lib.Bump.drop_overwrite (by omega), List.append_assoc, List.length_append]
  rfl

/-- A copy over the terminator of what has been written. -/
theorem strcpyAt_end (F z s : Bytes) : strcpyAt (F ++ 0 :: z) F.length s =
    if s.length ≤ z.length then some (F ++ s ++ 0 :: z.drop s.length) else none := by
  have hlen : (F ++ 0 :: z).length = F.length + (z.length + 1) := by
    rw [List.length_append, List.length_cons]
  rw [strcpyAt, hlen]
  by_cases h : s.length ≤ z.length
  · rw [if_pos (by omega), if_pos h, Lib.Bump.overwrite, List.take_left, List.length_append,
      ← List.drop_drop, List.drop_left, List.length_singleton, List.drop_succ_cons]
    simp
  · rw [if_neg (by omega), if_neg h]

end Strcpy

section Slots

theorem cstr_append_of_mem {q : Bytes} (h : 0 ∈ q) (rest : Bytes) : cstr (q ++ rest) = cstr q := by
  obtain ⟨x, y, rfl⟩ := List.append_of_mem h
  rw [List.append_assoc, List.cons_append, cstr_append, cstr_append]

theorem cstr_append_of_nul {q : Bytes} (h : 0 ∉ q) (rest : Bytes) :
    cstr (q ++ rest) = q ++ cstr rest :=
  List.takeWhile_append_of_pos fun b hb => by simpa using fun h0 : b = 0 => h (h0 ▸ hb)

/-- A string that ends in front of a place does not depend on what is behind it. -/
theorem slotText_take {mem : Bytes} {base i : Nat} (hbase : base ≤ mem.length)
    (h : i * AIDLEN + (slotText mem i).length < base) (rest : Bytes) :
    slotText (mem.take base ++ rest) i = slotText mem i := by
  have hlen : (mem.take base).length = base := List.length_take_of_le hbase
  have hcut : ∀ r : Bytes, (mem.take base ++ r).drop (i * AIDLEN) =
      (mem.take base).drop (i * AIDLEN) ++ r := fun r =>
    List.drop_append_of_le_length (by omega)
  have hself : mem.drop (i * AIDLEN) = (mem.take base).drop (i * AIDLEN) ++ mem.drop base := by
    rw [← hcut, List.take_append_drop]
  rw [slotText, hself] at h
  rw [slotText, slotText, hcut, hself]
  by_cases hmem : 0 ∈ (mem.take base).drop (i * AIDLEN)
  · rw [cstr_append_of_mem hmem, cstr_append_of_mem hmem]
  · rw [cstr_append_of_nul hmem, List.length_append, List.length_drop, hlen] at h
    omega

variable {ids : List Bytes} {mem m : Bytes} {i : Nat}

theorem fillAids_keeps (h : fillAids i ids mem = some m) :
    m.length = mem.length ∧ m.take (i * AIDLEN) = mem.take (i * AIDLEN) := by
  induction ids generalizing i mem with
  | nil =>
    obtain rfl := Option.some.inj h
    exact ⟨rfl, rfl⟩
  | cons id ids ih =>
    obtain ⟨mem', hcopy, hrest⟩ := Option.bind_eq_some_iff.1 h
    obtain ⟨hlen, htake⟩ := ih hrest
    obtain ⟨hlen', htake'⟩ := strcpyAt_keeps hcopy (le_refl (i * AIDLEN))
    have hle : i * AIDLEN ≤ (i + 1) * AIDLEN := Nat.mul_le_mul_right _ (Nat.le_succ i)
    have hfront := congrArg (List.take (i * AIDLEN)) htake
    rw [List.take_take, List.take_take, Nat.min_eq_left hle] at hfront
    exact ⟨hlen.trans hlen', hfront.trans htake'⟩

/-- The first slot of a filled list. -/
theorem slotText_first {id : Bytes} (hid : 0 ∉ id) (h : fillAids i (id :: ids) mem = some m) :
    slotText m i = if ids = [] ∨ id.length < AIDLEN then id
      else id.take AIDLEN ++ slotText m (i + 1) := by
  obtain ⟨mem', hcopy, hrest⟩ := Option.bind_eq_some_iff.1 h
  have hdrop := strcpyAt_drop hcopy
  by_cases hnil : ids = []
  · obtain rfl := hnil
    obtain rfl := Option.some.inj hrest
    rw [if_pos (Or.inl rfl), slotText, hdrop, cstr_append, cstr_of_nul hid]
  · have htake := (fillAids_keeps hrest).2
    -- the ten bytes of the slot are those the copy has left
    have hslot : m.drop (i * AIDLEN) =
        (mem'.drop (i * AIDLEN)).take AIDLEN ++ m.drop ((i + 1) * AIDLEN) := by
      have hten : i * AIDLEN + AIDLEN = (i + 1) * AIDLEN := (Nat.succ_mul i AIDLEN).symm
      rw [List.take_drop, hten, ← htake, ← hten, ← List.drop_drop (i := AIDLEN),
        ← List.take_drop, List.take_append_drop]
    rw [slotText, hslot, hdrop]
    by_cases hlt : id.length < AIDLEN
    · rw [if_pos (Or.inr hlt), cstr_append_of_mem, List.take_append, List.take_of_length_le hlt.le]
      · obtain ⟨k, hk⟩ := Nat.exists_eq_add_of_lt hlt
        rw [show AIDLEN - id.length = k + 1 by omega, List.take_succ_cons, cstr_append,
          cstr_of_nul hid]
      · obtain ⟨k, hk⟩ := Nat.exists_eq_add_of_lt hlt
        rw [List.take_append, show AIDLEN - id.length = k + 1 by omega, List.take_succ_cons]
        simp
    · have hge := Nat.le_of_not_lt hlt
      rw [if_neg (by simp [hnil, hlt]), List.take_append_of_le_length hge,
        cstr_append_of_nul fun hmem => hid (List.mem_of_mem_take hmem)]
      rfl

theorem slotText_fillAids (hids : ∀ id ∈ ids, 0 ∉ id) (h : fillAids i ids mem = some m) {j : Nat}
    (hj : j < ids.length) : slotText m (i + j) = readThrough (ids.drop j) := by
  induction ids generalizing i mem j with
  | nil => cases hj
  | cons id ids ih =>
    obtain ⟨hid, hids⟩ := List.forall_mem_cons.1 hids
    obtain ⟨mem', hcopy, hrest⟩ := Option.bind_eq_some_iff.1 h
    cases j with
    | succ j =>
      rw [List.drop_succ_cons, ← ih hids hrest (by simpa using hj),
        show i + 1 + j = i + (j + 1) by omega]
    | zero =>
      rw [Nat.add_zero, slotText_first hid h, List.drop_zero]
      cases ids with
      | nil => rfl
      | cons next ids =>
        rw [readThrough, ← List.drop_zero (l := next :: ids), ← ih hids hrest (by simp)]
        simp

/-- The list is filled exactly when each of its ids ends in the buffer. -/
theorem fillAids_isSome_iff : (fillAids i ids mem).isSome ↔
    ∀ j (h : j < ids.length), (i + j) * AIDLEN + ids[j].length < mem.length := by
  induction ids generalizing i mem with
  | nil => exact iff_of_true rfl fun j h => absurd h (Nat.not_lt_zero j)
  | cons id ids ih =>
    have hsplit : (∀ j (h : j < (id :: ids).length),
        (i + j) * AIDLEN + (id :: ids)[j].length < mem.length) ↔
          i * AIDLEN + id.length < mem.length ∧
            ∀ j (h : j < ids.length), (i + 1 + j) * AIDLEN + ids[j].length < mem.length := by
      constructor
      · intro h
        refine ⟨h 0 (Nat.succ_pos _), fun j hj => ?_⟩
        have hnext := h (j + 1) (Nat.succ_lt_succ hj)
        rwa [List.getElem_cons_succ, Nat.add_comm j, ← Nat.add_assoc] at hnext
      · rintro ⟨hfirst, hrest⟩ j hj
        cases j with
        | zero => exact hfirst
        | succ j =>
          rw [List.getElem_cons_succ, Nat.add_comm j, ← Nat.add_assoc]
          exact hrest j (Nat.lt_of_succ_lt_succ hj)
    rw [hsplit, fillAids, strcpyAt]
    by_cases hroom : i * AIDLEN + (id.length + 1) ≤ mem.length
    · rw [if_pos hroom, Option.bind_some, ih, Lib.Bump.length_overwrite (by simpa using hroom),
        iff_and_self]
      exact fun _ => hroom
    · rw [if_neg hroom]
      exact iff_of_false Bool.false_ne_true fun h => hroom h.1

/-- Where every id but the last leaves room for its terminator, it is the last one that
matters. -/
theorem fillAids_isSome_of_short (hshort : ∀ id ∈ ids.dropLast, id.length < AIDLEN) :
    (fillAids 0 ids mem).isSome ↔ ListFits ids mem.length := by
  rw [fillAids_isSome_iff, ListFits]
  simp only [Nat.zero_add]
  constructor
  · intro h id hid
    obtain ⟨front, rfl⟩ := List.getLast?_eq_some_iff.1 hid
    have hlast := h front.length (by simp)
    rw [List.length_append, List.length_singleton, Nat.add_sub_cancel]
    simpa using hlast
  · intro h j hj
    by_cases hend : j + 1 = ids.length
    · have hlast : ids.getLast? = some ids[j] := by
        rw [List.getLast?_eq_getElem?, ← hend, Nat.add_sub_cancel]
        exact List.getElem?_eq_getElem hj
      have hfits := h _ hlast
      rwa [← hend, Nat.add_sub_cancel] at hfits
    · -- the slot of the id is in front of the last one
      have hj' : j < ids.dropLast.length := by
        rw [List.length_dropLast]
        omega
      have hlt := hshort _ (List.getElem_mem hj')
      rw [List.getElem_dropLast] at hlt
      have hne : ids ≠ [] := fun hnil => by
        rw [hnil] at hj
        cases hj
      have hfits := h _ (List.getLast?_eq_some_getLast hne)
      have hle : (j + 1) * AIDLEN ≤ (ids.length - 1) * AIDLEN :=
        Nat.mul_le_mul_right _ (by omega)
      rw [Nat.succ_mul] at hle
      omega

end Slots

end Doorhinges.GetAd

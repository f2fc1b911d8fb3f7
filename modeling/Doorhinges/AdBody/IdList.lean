import Doorhinges.AdBody.Model
import Doorhinges.Lib.Decimal

/-!
# The packed list of ids

`get_adbody` reads the slots that `get_ad` has filled twice: for the two MGET commands, the
second of which it writes right behind the list, and for `log->aid`, when the space behind
the list has been used again.
-/
namespace Doorhinges.AdBody

open Lib.CString
open Query
open GetAd (AIDLEN strcpyAt slotText fillAids readThrough strcpyAt_some strcpyAt_keeps strcpyAt_end
  cstr_append_of_mem cstr_append_of_nul slotText_take fillAids_keeps slotText_fillAids
  fillAids_isSome_iff)

section Source

/-- What the loop of `get_adbody` writes: `tmp` is the text in `buftmp`. -/
structure Commands where
  tmp : Bytes
  tp1 : Nat
  mem : Bytes

/-- One round. The id is read from its slot for each of its copies; a string that reaches
the place it is copied to is no string that `strcpy` can copy. -/
def Commands.round (format : Bytes) (s : Commands) (i : Nat) : Option Commands :=
  let tmp := s.tmp ++ (ascii " ad:" ++ slotText s.mem i ++ ascii ":" ++ format)
  if 1024 ≤ tmp.length then none
  else
    (strcpyAt s.mem s.tp1 (ascii " ad:")).bind fun mem =>
      let tp2 := slotText mem i
      if s.tp1 + 4 ≤ i * AIDLEN + tp2.length then none
      else
        (strcpyAt mem (s.tp1 + 4) tp2).bind fun mem =>
          (strcpyAt mem (s.tp1 + 4 + tp2.length) (ascii ":paymodeltype")).map fun mem =>
            ⟨tmp, s.tp1 + 4 + tp2.length + 13, mem⟩

/-- The two commands for `adnum` ids; the second starts at `adnum * AIDLEN`. -/
def mgetCommands (format : Bytes) (adnum : Nat) (mem : Bytes) : Option Commands := do
  let tp1 := adnum * AIDLEN
  let mem ← strcpyAt mem tp1 (ascii "MGET")
  (List.range adnum).foldlM (Commands.round format) ⟨ascii "MGET", tp1 + 4, mem⟩

end Source

def adKey (suffix id : Bytes) : Bytes := ascii " ad:" ++ id ++ ascii ":" ++ suffix

/-- The command that names each id of the list. -/
def mgetText (suffix : Bytes) (ids : List Bytes) : Bytes :=
  ascii "MGET" ++ ids.flatMap (adKey suffix)

/-- The list is filled, both commands name its ids, and a slot holds its id also when the
space behind the list has been used for anything else. -/
def PackedKept (format : Bytes) (ids : List Bytes) (mem : Bytes) : Prop :=
  ∃ m, fillAids 0 ids mem = some m ∧ (∀ i (h : i < ids.length), slotText m i = ids[i]) ∧
    ∃ s, mgetCommands format ids.length m = some s ∧ s.tmp = mgetText format ids ∧
      slotText s.mem ids.length = mgetText (ascii "paymodeltype") ids ∧
      ∀ rest i (h : i < ids.length),
        slotText (s.mem.take (ids.length * AIDLEN) ++ rest) i = ids[i]

/-- An id that fills its slot goes on with the very text of the id behind it; the last one
does not fill its slot. -/
def SlotsKept : List Bytes → Prop
  | [] => True
  | [id] => id.length < AIDLEN
  | id :: next :: ids =>
    (id.length < AIDLEN ∨ id.drop AIDLEN = next) ∧ SlotsKept (next :: ids)

/-- The commands fit `buftmp` and the parameter buffer. -/
def Room (format : Bytes) (ids : List Bytes) (mem : Bytes) : Prop :=
  (mgetText format ids).length < 1024 ∧
    ids.length * AIDLEN + (mgetText (ascii "paymodeltype") ids).length < mem.length

instance (format : Bytes) (ids : List Bytes) (mem : Bytes) : Decidable (Room format ids mem) :=
  inferInstanceAs (Decidable (_ ∧ _))

instance : ∀ ids, Decidable (SlotsKept ids)
  | [] => inferInstanceAs (Decidable True)
  | [id] => inferInstanceAs (Decidable (id.length < AIDLEN))
  | id :: next :: ids =>
    have : Decidable (SlotsKept (next :: ids)) := instDecidableSlotsKept (next :: ids)
    inferInstanceAs (Decidable ((id.length < AIDLEN ∨ id.drop AIDLEN = next) ∧
      SlotsKept (next :: ids)))

section Kept

variable {ids : List Bytes} {mem m : Bytes} {i : Nat}

/-- Every id ends within the slots. -/
theorem SlotsKept.ends (h : SlotsKept ids) {j : Nat} (hj : j < ids.length) :
    j * AIDLEN + ids[j].length < ids.length * AIDLEN := by
  induction ids generalizing j with
  | nil => cases hj
  | cons id ids ih =>
    rw [List.length_cons, Nat.succ_mul]
    cases ids with
    | nil =>
      obtain rfl : j = 0 := Nat.lt_one_iff.1 hj
      have hlast : id.length < AIDLEN := h
      simpa using hlast
    | cons next ids =>
      obtain ⟨hid, hrest⟩ := h
      cases j with
      | succ j =>
        have hnext := ih hrest (j := j) (by simpa using hj)
        rw [List.getElem_cons_succ, Nat.succ_mul]
        omega
      | zero =>
        have hnext := ih hrest (j := 0) (by simp)
        rw [List.getElem_cons_zero] at hnext ⊢
        rcases hid with hshort | hgoes
        · omega
        · have hlen := congrArg List.length hgoes
          rw [List.length_drop] at hlen
          omega

theorem SlotsKept.read (h : SlotsKept ids) {j : Nat} (hj : j < ids.length) :
    readThrough (ids.drop j) = ids[j] := by
  induction ids generalizing j with
  | nil => cases hj
  | cons id ids ih =>
    cases ids with
    | nil =>
      obtain rfl : j = 0 := Nat.lt_one_iff.1 hj
      rfl
    | cons next ids =>
      obtain ⟨hid, hrest⟩ := h
      cases j with
      | succ j => exact ih hrest (by simpa using hj)
      | zero =>
        rw [List.drop_zero, readThrough, List.getElem_cons_zero]
        split
        · rfl
        · rename_i hlong
          have hgoes := hid.resolve_left hlong
          have hnext : readThrough (next :: ids) = next := ih hrest (j := 0) (by simp)
          rw [hnext, ← hgoes, List.take_append_drop]

/-- Ids that are read back, the last one from a slot of its own, are kept. -/
theorem slotsKept_of_read (h : ∀ j (hj : j < ids.length), readThrough (ids.drop j) = ids[j])
    (hlast : ∀ id ∈ ids.getLast?, id.length < AIDLEN) : SlotsKept ids := by
  induction ids with
  | nil => trivial
  | cons id ids ih =>
    cases ids with
    | nil => exact hlast id rfl
    | cons next ids =>
      have hrest : SlotsKept (next :: ids) := by
        apply ih
        · intro j hj
          exact h (j + 1) (by simpa using hj)
        · intro last hmem
          exact hlast last (by rwa [List.getLast?_cons_cons])
      refine ⟨?_, hrest⟩
      by_cases hshort : id.length < AIDLEN
      · exact Or.inl hshort
      · refine Or.inr ?_
        have hid := h 0 (by simp)
        have hnext : readThrough (next :: ids) = next := h 1 (by simp)
        rw [List.drop_zero, readThrough, if_neg hshort, hnext, List.getElem_cons_zero] at hid
        refine @List.append_cancel_left _ (id.take AIDLEN) _ _ ?_
        rw [List.take_append_drop, hid]

theorem fillAids_kept (h : SlotsKept ids) (hroom : ids.length * AIDLEN ≤ mem.length) :
    ∃ m, fillAids 0 ids mem = some m := by
  rw [← Option.isSome_iff_exists, fillAids_isSome_iff]
  intro j hj
  have hend := h.ends hj
  rw [Nat.zero_add]
  omega

end Kept

section Commands

variable {format mem : Bytes} {base : Nat}

/-- A round writes behind the list. -/
theorem Commands.round_keeps {s s' : Commands} {i : Nat} (h : s.round format i = some s')
    (hbase : base ≤ s.tp1) : base ≤ s'.tp1 ∧ s'.mem.take base = s.mem.take base := by
  rw [Commands.round] at h
  obtain ⟨-, h⟩ := Option.ite_none_left_eq_some.1 h
  obtain ⟨mem₁, h₁, h⟩ := Option.bind_eq_some_iff.1 h
  obtain ⟨-, h⟩ := Option.ite_none_left_eq_some.1 h
  obtain ⟨mem₂, h₂, h⟩ := Option.bind_eq_some_iff.1 h
  obtain ⟨mem₃, h₃, rfl⟩ := Option.map_eq_some_iff.1 h
  have k₁ := (strcpyAt_keeps h₁ hbase).2
  have k₂ := (@strcpyAt_keeps _ _ _ _ h₂ base (by omega)).2
  have k₃ := (@strcpyAt_keeps _ _ _ _ h₃ base (by omega)).2
  exact ⟨by show base ≤ _ + _ + _ + _; omega, k₃.trans (k₂.trans k₁)⟩

theorem Commands.rounds_keep {s s' : Commands} {is : List Nat}
    (h : is.foldlM (Commands.round format) s = some s') (hbase : base ≤ s.tp1) :
    s'.mem.take base = s.mem.take base := by
  induction is generalizing s with
  | nil =>
    obtain rfl := Option.some.inj h
    rfl
  | cons i is ih =>
    rw [List.foldlM_cons] at h
    obtain ⟨t, ht, hrest⟩ := Option.bind_eq_some_iff.1 h
    obtain ⟨hle, htake⟩ := Commands.round_keeps ht hbase
    exact (ih hrest hle).trans htake

/-- The list is not written to. -/
theorem mgetCommands_keeps {s : Commands} {n : Nat} (h : mgetCommands format n mem = some s) :
    n * AIDLEN ≤ mem.length ∧ s.mem.take (n * AIDLEN) = mem.take (n * AIDLEN) := by
  obtain ⟨mem', hstart, hrounds⟩ := Option.bind_eq_some_iff.1 h
  refine ⟨by have := (strcpyAt_some hstart).1; omega, ?_⟩
  rw [Commands.rounds_keep hrounds (Nat.le_add_right _ _)]
  exact (strcpyAt_keeps hstart (le_refl _)).2

end Commands

section Rounds

variable {format F z id : Bytes} {i : Nat}

/-- One round whose slot lies in front of what is written. -/
theorem Commands.round_iff {tmp : Bytes} {s' : Commands} (hslot : ∀ r, slotText (F ++ r) i = id)
    (hend : i * AIDLEN + id.length < F.length) :
    (⟨tmp, F.length, F ++ 0 :: z⟩ : Commands).round format i = some s' ↔
      (tmp ++ adKey format id).length < 1024 ∧
        (adKey (ascii "paymodeltype") id).length ≤ z.length ∧
          s' = ⟨tmp ++ adKey format id, (F ++ adKey (ascii "paymodeltype") id).length,
            F ++ adKey (ascii "paymodeltype") id ++
              0 :: z.drop (adKey (ascii "paymodeltype") id).length⟩ := by
  have hkey : adKey (ascii "paymodeltype") id = ascii " ad:" ++ id ++ ascii ":paymodeltype" := by
    rw [adKey, List.append_assoc _ (ascii ":")]
    rfl
  have hlen : (adKey (ascii "paymodeltype") id).length = 17 + id.length := by
    rw [hkey, List.length_append, List.length_append]
    show 4 + id.length + 13 = 17 + id.length
    omega
  have hslot₁ : ∀ r, slotText (F ++ ascii " ad:" ++ r) i = id := fun r => by
    rw [List.append_assoc]
    exact hslot _
  have hF₁ : F.length + 4 = (F ++ ascii " ad:").length := by rw [List.length_append]; rfl
  have hF₂ : F.length + 4 + id.length = (F ++ ascii " ad:" ++ id).length := by
    rw [List.length_append, ← hF₁]
  rw [hlen, Commands.round]
  dsimp only
  rw [hslot, ← adKey]
  by_cases htmp : (tmp ++ adKey format id).length < 1024
  swap
  · rw [if_pos (Nat.le_of_not_lt htmp)]
    exact ⟨nofun, fun h => absurd h.1 htmp⟩
  have had : (ascii " ad:").length = 4 := rfl
  have hpay : (ascii ":paymodeltype").length = 13 := rfl
  have hguard : ¬ F.length + 4 ≤ i * AIDLEN + id.length := by omega
  rw [if_neg (Nat.not_le_of_lt htmp), strcpyAt_end, had]
  by_cases hz : 17 + id.length ≤ z.length
  · have h₂ : id.length ≤ (z.drop 4).length := by rw [List.length_drop]; omega
    have h₃ : 13 ≤ ((z.drop 4).drop id.length).length := by
      rw [List.length_drop, List.length_drop]
      omega
    have hend₃ : F.length + 4 + id.length + 13 =
        (F ++ (ascii " ad:" ++ id ++ ascii ":paymodeltype")).length := by
      rw [List.length_append, ← hkey, hlen]
      omega
    rw [if_pos (by omega), Option.bind_some, hslot₁, if_neg hguard, hF₁, strcpyAt_end, if_pos h₂,
      Option.bind_some, ← hF₁, hF₂, strcpyAt_end, hpay, if_pos h₃, Option.map_some, ← hF₂, hend₃,
      List.drop_drop, List.drop_drop, Option.some_inj, hkey,
      show 4 + (id.length + 13) = 17 + id.length by omega]
    simp only [List.append_assoc] at htmp ⊢
    exact ⟨fun h => ⟨htmp, hz, h.symm⟩, fun h => h.2.2.symm⟩
  · refine ⟨fun h => ?_, fun h => absurd h.2.1 hz⟩
    obtain ⟨mem₁, h₁, h⟩ := Option.bind_eq_some_iff.1 h
    obtain ⟨hz₁, heq⟩ := Option.ite_none_right_eq_some.1 h₁
    obtain rfl := Option.some.inj heq
    rw [hslot₁, if_neg hguard, hF₁, strcpyAt_end] at h
    obtain ⟨mem₂, h₂, h⟩ := Option.bind_eq_some_iff.1 h
    obtain ⟨hz₂, heq⟩ := Option.ite_none_right_eq_some.1 h₂
    obtain rfl := Option.some.inj heq
    rw [← hF₁, hF₂, strcpyAt_end, hpay] at h
    obtain ⟨mem₃, h₃, -⟩ := Option.map_eq_some_iff.1 h
    obtain ⟨hz₃, -⟩ := Option.ite_none_right_eq_some.1 h₃
    rw [List.length_drop] at hz₂
    rw [List.length_drop, List.length_drop] at hz₃
    omega

theorem mgetText_snoc (suffix : Bytes) (ids : List Bytes) (id : Bytes) :
    mgetText suffix (ids ++ [id]) = mgetText suffix ids ++ adKey suffix id := by
  rw [mgetText, mgetText, List.flatMap_append, List.flatMap_singleton, List.append_assoc]

/-- Both commands for some of the ids, the second one behind the list. -/
def written (format region rest : Bytes) (ids : List Bytes) : Commands :=
  ⟨mgetText format ids, (region ++ mgetText (ascii "paymodeltype") ids).length,
    region ++ mgetText (ascii "paymodeltype") ids ++
      0 :: rest.drop ((mgetText (ascii "paymodeltype") ids).length + 1)⟩

variable {region rest : Bytes} {ids : List Bytes} {s : Commands}

theorem round_written (format rest : Bytes) {l : List Bytes}
    (hslot : ∀ r, slotText (region ++ r) i = id)
    (hend : i * AIDLEN + id.length < region.length)
    (hroom : (mgetText (ascii "paymodeltype") l).length < rest.length) :
    (written format region rest l).round format i = some s ↔
      (mgetText format (l ++ [id])).length < 1024 ∧
        (mgetText (ascii "paymodeltype") (l ++ [id])).length < rest.length ∧
          s = written format region rest (l ++ [id]) := by
  have hslotF : ∀ r, slotText (region ++ mgetText (ascii "paymodeltype") l ++ r) i = id :=
    fun r => by rw [List.append_assoc]; exact hslot _
  have hendF :
      i * AIDLEN + id.length < (region ++ mgetText (ascii "paymodeltype") l).length := by
    rw [List.length_append]
    omega
  have hz : (rest.drop ((mgetText (ascii "paymodeltype") l).length + 1)).length + 1 +
      (mgetText (ascii "paymodeltype") l).length = rest.length := by
    rw [List.length_drop]
    omega
  have hdrop : (rest.drop ((mgetText (ascii "paymodeltype") l).length + 1)).drop
      (adKey (ascii "paymodeltype") id).length =
        rest.drop ((mgetText (ascii "paymodeltype") (l ++ [id])).length + 1) := by
    rw [List.drop_drop, mgetText_snoc, List.length_append, Nat.add_right_comm]
  rw [written, Commands.round_iff hslotF hendF, hdrop, List.append_assoc region, ← mgetText_snoc,
    ← mgetText_snoc, ← written]
  have hlen := congrArg List.length (mgetText_snoc (ascii "paymodeltype") l id)
  rw [List.length_append] at hlen
  exact and_congr_right fun _ => and_congr_left fun _ => by omega

theorem rounds_iff (format : Bytes)
    (hslot : ∀ i (h : i < ids.length) (r : Bytes), slotText (region ++ r) i = ids[i])
    (hend : ∀ i (h : i < ids.length), i * AIDLEN + ids[i].length < region.length)
    (hrest : 4 < rest.length) {k : Nat} (hk : k ≤ ids.length) :
    (List.range k).foldlM (Commands.round format) (written format region rest []) = some s ↔
      (mgetText format (ids.take k)).length < 1024 ∧
        (mgetText (ascii "paymodeltype") (ids.take k)).length < rest.length ∧
          s = written format region rest (ids.take k) := by
  induction k generalizing s with
  | zero =>
    have hstart : (mgetText format []).length < 1024 := by
      show 4 < 1024
      decide
    exact ⟨fun h => ⟨hstart, hrest, (Option.some.inj h).symm⟩, fun h => congrArg some h.2.2.symm⟩
  | succ k ih =>
    have hlt : k < ids.length := hk
    have hsnoc : ids.take (k + 1) = ids.take k ++ [ids[k]] := (List.take_append_getElem hlt).symm
    have hround := fun hroom => round_written format rest (s := s) (l := ids.take k)
      (hslot k hlt) (hend k hlt) hroom
    rw [List.range_succ, List.foldlM_append, Option.bind_eq_bind, Option.bind_eq_some_iff, hsnoc]
    simp only [List.foldlM_cons, List.foldlM_nil, bind_pure]
    constructor
    · rintro ⟨t, ht, hlast⟩
      obtain ⟨-, hroom, rfl⟩ := (ih hlt.le).1 ht
      exact (hround hroom).1 hlast
    · intro h
      have htmp := congrArg List.length (mgetText_snoc format (ids.take k) ids[k])
      have hpay := congrArg List.length (mgetText_snoc (ascii "paymodeltype") (ids.take k) ids[k])
      rw [List.length_append] at htmp hpay
      have h₁ := h.1
      have h₂ := h.2.1
      have hroom : (mgetText (ascii "paymodeltype") (ids.take k)).length < rest.length := by omega
      exact ⟨_, (ih hlt.le).2 ⟨by omega, hroom, rfl⟩, (hround hroom).2 h⟩

/-- The commands are written when they fit, whatever the slots hold behind their ids. -/
theorem mgetCommands_iff (format : Bytes) {m : Bytes} (hbase : ids.length * AIDLEN ≤ m.length)
    (hslot : ∀ i (h : i < ids.length), slotText m i = ids[i])
    (hend : ∀ i (h : i < ids.length), i * AIDLEN + ids[i].length < ids.length * AIDLEN) :
    mgetCommands format ids.length m = some s ↔ Room format ids m ∧
      s = written format (m.take (ids.length * AIDLEN)) (m.drop (ids.length * AIDLEN)) ids := by
  set region := m.take (ids.length * AIDLEN) with hregion
  set rest := m.drop (ids.length * AIDLEN) with hrest
  have hlen : region.length = ids.length * AIDLEN := List.length_take_of_le hbase
  have hrestlen : rest.length = m.length - ids.length * AIDLEN := List.length_drop
  have hfour : ∀ l, 4 ≤ (mgetText (ascii "paymodeltype") l).length := fun l => by
    rw [mgetText, List.length_append]
    exact Nat.le_add_right 4 _
  have hroom : Room format ids m ↔ (mgetText format ids).length < 1024 ∧
      (mgetText (ascii "paymodeltype") ids).length < rest.length :=
    and_congr_right fun _ => by omega
  have hslots : ∀ i (h : i < ids.length) (r : Bytes), slotText (region ++ r) i = ids[i] :=
    fun i h r => (slotText_take hbase (by rw [hslot i h]; exact hend i h) r).trans (hslot i h)
  have hends : ∀ i (h : i < ids.length), i * AIDLEN + ids[i].length < region.length :=
    fun i h => by rw [hlen]; exact hend i h
  by_cases hstart : 4 < rest.length
  · have hcopy : strcpyAt m (ids.length * AIDLEN) (ascii "MGET") =
        some (region ++ ascii "MGET" ++ 0 :: rest.drop 5) := by
      rw [strcpyAt, if_pos (by show _ + 5 ≤ _; omega), Lib.Bump.overwrite, hrest, List.drop_drop,
        ← hregion, ← List.append_assoc, List.append_assoc (region ++ _)]
      rfl
    have hempty : (⟨ascii "MGET", ids.length * AIDLEN + 4,
        region ++ ascii "MGET" ++ 0 :: rest.drop 5⟩ : Commands) =
          written format region rest [] := by
      have htext : ∀ suffix, mgetText suffix [] = ascii "MGET" := fun _ => rfl
      rw [written, htext, htext, List.length_append, hlen]
      rfl
    have hall := rounds_iff format (s := s) hslots hends hstart le_rfl
    rw [List.take_length] at hall
    rw [mgetCommands, hcopy, hroom, and_assoc, ← hall, ← hempty]
    rfl
  · have hnone : strcpyAt m (ids.length * AIDLEN) (ascii "MGET") = none :=
      if_neg (by show ¬ _ + 5 ≤ _; omega)
    rw [mgetCommands, hnone, hroom]
    have := hfour ids
    exact ⟨fun h => (by cases h), fun h => absurd h.1.2 (by omega)⟩

end Rounds

section Packed

variable {format mem : Bytes} {ids : List Bytes}

theorem mgetText_nul {suffix : Bytes} (hsuffix : 0 ∉ suffix) (hids : ∀ id ∈ ids, 0 ∉ id) :
    0 ∉ mgetText suffix ids := by
  rw [mgetText, List.mem_append, List.mem_flatMap]
  rintro (hmem | ⟨id, hid, hmem⟩)
  · exact absurd hmem (by decide)
  · rw [adKey, List.mem_append, List.mem_append, List.mem_append] at hmem
    rcases hmem with ((hmem | hmem) | hmem) | hmem
    · exact absurd hmem (by decide)
    · exact hids id hid hmem
    · exact absurd hmem (by decide)
    · exact hsuffix hmem

/-- A last id that is read whatever is behind the list ends within its slot. -/
theorem last_short {region id : Bytes} (hlen : region.length = AIDLEN)
    (h : ∀ rest, cstr (region ++ rest) = id) : id.length < AIDLEN := by
  by_cases hmem : 0 ∈ region
  · obtain ⟨x, y, rfl⟩ := List.append_of_mem hmem
    have hid := h []
    rw [List.append_nil, cstr_append] at hid
    have hle := length_cstr_le x
    rw [List.length_append, List.length_cons] at hlen
    rw [hid] at hle
    omega
  · have hempty := h []
    have hbyte := h [1]
    rw [cstr_append_of_nul hmem] at hempty hbyte
    have := hempty.trans hbyte.symm
    exact absurd (List.append_cancel_left this) (by decide)

theorem packedKept_iff (hids : ∀ id ∈ ids, 0 ∉ id) :
    PackedKept format ids mem ↔ SlotsKept ids ∧ Room format ids mem := by
  constructor
  · rintro ⟨m, hfill, hslot, s, hs, -, -, hbehind⟩
    obtain ⟨hbase, htake⟩ := mgetCommands_keeps hs
    have hkept : SlotsKept ids := by
      apply slotsKept_of_read
      · intro j hj
        have hread := slotText_fillAids hids hfill hj
        rw [Nat.zero_add] at hread
        exact hread.symm.trans (hslot j hj)
      · intro id hid
        obtain ⟨front, rfl⟩ := List.getLast?_eq_some_iff.1 hid
        have hlen : (m.take ((front ++ [id]).length * AIDLEN)).length =
            front.length * AIDLEN + AIDLEN := by
          rw [List.length_take_of_le hbase, List.length_append, List.length_singleton,
            Nat.succ_mul]
        have hslice : ((m.take ((front ++ [id]).length * AIDLEN)).drop
            (front.length * AIDLEN)).length = AIDLEN := by
          rw [List.length_drop, hlen, Nat.add_sub_cancel_left]
        apply last_short hslice
        · intro rest
          have hread := hbehind rest front.length (by simp)
          rw [slotText, htake, List.drop_append_of_le_length (by omega)] at hread
          simpa using hread
    refine ⟨hkept, ?_⟩
    have hroom := ((mgetCommands_iff format hbase hslot fun i h => hkept.ends h).1 hs).1
    rwa [Room, (fillAids_keeps hfill).1] at hroom
  · rintro ⟨hkept, hroom⟩
    have hbase : ids.length * AIDLEN ≤ mem.length := by
      have := hroom.2
      omega
    obtain ⟨m, hfill⟩ := fillAids_kept hkept hbase
    have hlen := (fillAids_keeps hfill).1
    have hslot : ∀ i (h : i < ids.length), slotText m i = ids[i] := fun i h => by
      have hread := slotText_fillAids hids hfill h
      rw [Nat.zero_add] at hread
      rw [hread, hkept.read h]
    rw [← hlen] at hbase
    have hcommands := (mgetCommands_iff format hbase hslot fun i h =>
      hkept.ends h).2 ⟨by rwa [Room, hlen], rfl⟩
    have hregion : (m.take (ids.length * AIDLEN)).length = ids.length * AIDLEN :=
      List.length_take_of_le hbase
    refine ⟨m, hfill, hslot, _, hcommands, rfl, ?_, fun rest i h => ?_⟩
    · rw [slotText, written, List.append_assoc, List.drop_left' hregion, cstr_append,
        cstr_of_nul (mgetText_nul (by decide) hids)]
    · rw [written, List.append_assoc, List.take_left' hregion]
      exact (slotText_take hbase (by rw [hslot i h]; exact hkept.ends h) rest).trans (hslot i h)

end Packed

/-- Which lists of canonical ids are packed without damage. -/
theorem idList_kept_iff (format : Text) (ids : List Nat) (mem : Bytes) :
    PackedKept format (ids.map decimalNat) mem ↔
      SlotsKept (ids.map decimalNat) ∧ Room format (ids.map decimalNat) mem :=
  packedKept_iff fun id hid => by
    obtain ⟨n, -, rfl⟩ := List.mem_map.1 hid
    exact decimalNat_nul n

/-- An id of ten digits is read together with the id behind it. -/
theorem ten_digits_glued : Room (ascii "xml") ([1234567890, 5].map decimalNat)
    (List.replicate 100 0) ∧
      ¬ PackedKept (ascii "xml") ([1234567890, 5].map decimalNat) (List.replicate 100 0) := by
  refine ⟨by decide, ?_⟩
  rintro ⟨m, hfill, hslot, -⟩
  have hread := slotText_fillAids (j := 0) (by decide) hfill (by decide)
  rw [hslot 0 (by decide)] at hread
  exact absurd hread (by decide)

end Doorhinges.AdBody

import Doorhinges.Lib.Columns
import Doorhinges.Query.Decoder

/-!
# Looking up a parameter in memory

`ais_get_var` tries every position of its buffer and stops at the first hit. The fields
between the ampersands whose name is the one looked for are hit at their first byte, and
nothing else is; so the value is that of the first of them.
-/
namespace Doorhinges.Query

open Lib
open Lib.CString
open Lib.Cells
open Lib.Columns
open Lib.Logged

section Source

variable (mem : Nat → UInt8)

/-- `ais_strncasecmp` of a name with the bytes at `p` finds no difference. -/
def strncasecmp : Bytes → Nat → Logged Nat Bool
  | [], _ => pure true
  | c :: name, p => do
    let d ← peek mem p
    if lower c = lower d then strncasecmp name (p + 1) else pure false

/-- `memchr` over `n` bytes from `p` on. -/
def memchr (c : UInt8) : Nat → Nat → Logged Nat (Option Nat)
  | 0, _ => pure none
  | n + 1, p => do
    let d ← peek mem p
    if d = c then pure (some p) else memchr c n (p + 1)

/-- `p == buf || p[-1] == '&'` -/
def atStart (p : Nat) : Logged Nat Bool :=
  if p = 0 then pure true
  else do
    let c ← peek mem (p - 1)
    pure (c = 38)

/-- The condition of the loop's body. -/
def hit (name : Bytes) (p : Nat) : Logged Nat Bool := do
  if ← atStart mem p then do
    let c ← peek mem (p + name.length)
    if c = 61 then strncasecmp mem name p else pure false
  else pure false

/-- Values of names that begin with `groupby` keep their commas. -/
def turnsCommas (name : Bytes) : Bool := !caseEq (name.take 7) (ascii "groupby")

/-- A field may start at `p`, and the name and `=` stand there. -/
def Hits (name : Bytes) (p : Nat) : Prop :=
  (p = 0 ∨ mem (p - 1) = 38) ∧ mem (p + name.length) = 61 ∧
    caseEq name (slice mem p name.length) = true

instance (name : Bytes) (p : Nat) : Decidable (Hits mem name p) :=
  inferInstanceAs (Decidable (_ ∧ _ ∧ _))

variable (e dstLen : Nat) (name : Bytes)

/-- What follows a hit whose value starts at `p`; the result is `dst` and `len`. -/
def takeValue (p : Nat) (dst : Bytes) : Logged Nat (Bytes × Int) := do
  let s := (← memchr mem 38 (e - p) p).getD e
  if s - p < dstLen then do
    let r ← urlDecodeFrom mem (turnsCommas name) true s dstLen p dst
    pure (r.1, (r.2 : Int))
  else pure (dst, -1)

def lookupLoop : Nat → Nat → Bytes → Logged Nat (Bytes × Int)
  | 0, _, _ => Logged.stop
  | n + 1, p, dst =>
    if p + name.length < e then do
      if ← hit mem name p then takeValue mem e dstLen name (p + name.length + 1) dst
      else lookupLoop n (p + 1) dst
    else pure (dst, -1)

/-- `ais_get_var` on the `bufLen` bytes from 0 on. -/
def aisGetVarFrom (bufLen : Nat) (dst : Bytes) : Logged Nat (Bytes × Int) := do
  let dst ← ofOption (store dst 0 [0])
  lookupLoop mem bufLen dstLen name (bufLen + 1) 0 dst

end Source

section Fields

/-- The text before the first `=` is the name but for the case of its letters. -/
def Named (name field : Bytes) : Prop :=
  61 ∈ field ∧ caseEq name (field.takeWhile (· ≠ 61)) = true

instance (name field : Bytes) : Decidable (Named name field) :=
  inferInstanceAs (Decidable (_ ∧ _))

/-- Where the value of the first field of a name starts and ends; the fields begin at `off`. -/
def locate (name : Bytes) : Nat → List Bytes → Option (Nat × Nat)
  | _, [] => none
  | off, f :: fs =>
    if Named name f then some (off + name.length + 1, off + f.length)
    else locate name (off + f.length + 1) fs

variable {name field : Bytes}

theorem named_iff : Named name field ↔
    ∃ n value, field = n ++ 61 :: value ∧ 61 ∉ n ∧ caseEq name n = true := by
  constructor
  · rintro ⟨hmem, hcase⟩
    have hnot : 61 ∉ field.takeWhile (· ≠ 61) := fun h => by
      simpa using List.mem_takeWhile_imp h
    have hcut := List.takeWhile_append_dropWhile (p := (· ≠ 61)) (l := field)
    cases hrest : field.dropWhile (· ≠ 61) with
    | nil =>
      rw [hrest, List.append_nil] at hcut
      rw [hcut] at hnot
      exact absurd hmem hnot
    | cons c value =>
      have hc : c = 61 := by
        have := List.head?_dropWhile_not (· ≠ 61) field
        rw [hrest] at this
        simpa using this
      rw [hrest, hc] at hcut
      exact ⟨_, value, hcut.symm, hnot, hcase⟩
  · rintro ⟨n, value, rfl, hn, hcase⟩
    refine ⟨by simp, ?_⟩
    have hall : ∀ c ∈ n, decide (c ≠ 61) = true := fun c hc => by
      simpa using fun h : c = 61 => hn (h ▸ hc)
    rw [List.takeWhile_append_of_pos hall]
    simpa using hcase

theorem length_of_caseEq {s t : Bytes} (h : caseEq s t = true) : s.length = t.length := by
  simpa using congrArg List.length (of_decide_eq_true h)

/-- Only a separator has the lower case of a separator. -/
theorem lower_separator (c : UInt8) : (lower c = 38 ↔ c = 38) ∧ (lower c = 61 ↔ c = 61) := by
  have all : ∀ n : Fin 256, (lower (UInt8.ofNat n) = 38 ↔ UInt8.ofNat n = 38) ∧
      (lower (UInt8.ofNat n) = 61 ↔ UInt8.ofNat n = 61) := by
    decide +kernel
  simpa using all ⟨c.toNat, c.toNat_lt⟩

/-- A text that equals a name has no separators either. -/
theorem clean_of_caseEq {s : Bytes} (h : caseEq name s = true) (hand : 38 ∉ name)
    (heq : 61 ∉ name) : 38 ∉ s ∧ 61 ∉ s := by
  have hmap : s.map lower = name.map lower := (of_decide_eq_true h).symm
  constructor
  · intro hm
    obtain ⟨c, hc, hlow⟩ := List.mem_map.1 (hmap ▸ List.mem_map_of_mem hm)
    exact hand ((lower_separator c).1.1 hlow ▸ hc)
  · intro hm
    obtain ⟨c, hc, hlow⟩ := List.mem_map.1 (hmap ▸ List.mem_map_of_mem hm)
    exact heq ((lower_separator c).2.1 hlow ▸ hc)

end Fields

section Values

variable {mem : Nat → UInt8} {name : Bytes} {p n : Nat}

theorem length_slice : (slice mem p n).length = n := by simp [slice]

theorem value_strncasecmp :
    (strncasecmp mem name p).value = some (caseEq name (slice mem p name.length)) := by
  induction name generalizing p with
  | nil => rfl
  | cons c name ih =>
    rw [strncasecmp, List.length_cons, slice_succ]
    by_cases h : lower c = lower (mem p)
    · simp [h, ih, caseEq]
    · simp [h, caseEq]

/-- Where the search finds its byte, and where it does not. -/
theorem value_memchr {c : UInt8} {v : Bytes} (hv : c ∉ v) :
    (slice mem p n = v → (memchr mem c n p).value = some none) ∧
      ∀ rest, slice mem p n = v ++ c :: rest →
        (memchr mem c n p).value = some (some (p + v.length)) := by
  induction n generalizing p v with
  | zero => exact ⟨fun _ => rfl, fun rest h => by simp [slice] at h⟩
  | succ n ih =>
    rw [slice_succ, memchr]
    constructor
    · rintro rfl
      rw [List.mem_cons, not_or] at hv
      simp [Ne.symm hv.1, (ih hv.2).1 rfl]
    · intro rest h
      cases v with
      | nil =>
        obtain ⟨hc, -⟩ := List.cons.inj h
        simp [hc]
      | cons d v =>
        obtain ⟨hd, hrest⟩ := List.cons.inj h
        rw [List.mem_cons, not_or] at hv
        have hd' : ¬ mem p = c := fun heq => hv.1 (heq ▸ hd)
        simp only [value_bind, value_peek, Option.bind_some, if_neg hd', (ih hv.2).2 rest hrest,
          List.length_cons]
        exact congrArg (some ∘ some) (by omega)

theorem value_hit : (hit mem name p).value = some (decide (Hits mem name p)) := by
  have hstart : (atStart mem p).value = some (decide (p = 0 ∨ mem (p - 1) = 38)) := by
    rw [atStart]
    by_cases h : p = 0 <;> simp [h]
  rw [hit]
  simp only [value_bind, hstart, Option.bind_some, Hits]
  by_cases hs : p = 0 ∨ mem (p - 1) = 38
  · by_cases hc : mem (p + name.length) = 61 <;> simp [hs, hc, value_strncasecmp]
  · simp [hs]

/-- Positions without a hit are passed over. -/
theorem value_skip {q m e dstLen : Nat} {dst : Bytes} (hpq : p ≤ q) (hn : e - p < n)
    (hm : e - q < m) (h : ∀ r, p ≤ r → r < q → r + name.length < e → ¬ Hits mem name r) :
    (lookupLoop mem e dstLen name n p dst).value =
      (lookupLoop mem e dstLen name m q dst).value := by
  induction n generalizing p q m with
  | zero => omega
  | succ n ih =>
    obtain ⟨m, rfl⟩ := Nat.exists_eq_succ_of_ne_zero (Nat.ne_zero_of_lt hm)
    rw [lookupLoop]
    by_cases hgo : p + name.length < e
    · rcases hpq.eq_or_lt with rfl | hlt
      · -- the same position with other fuel
        rw [lookupLoop, if_pos hgo, if_pos hgo, value_bind, value_bind, value_hit]
        simp only [Option.bind_some]
        split
        · rfl
        · exact ih le_rfl (by omega) (by omega) fun r _ _ => by omega
      · rw [if_pos hgo, value_bind, value_hit]
        simp only [Option.bind_some, decide_eq_true_eq, if_neg (h p le_rfl hlt hgo)]
        exact ih hlt (by omega) hm fun r hr => h r (by omega)
    · rw [if_neg hgo, lookupLoop, if_neg (by omega)]

theorem slice_add (p n m : Nat) : slice mem p (n + m) = slice mem p n ++ slice mem (p + n) m := by
  rw [slice, slice, slice, ← List.map_append, List.range'_append_1]

/-- A text in memory and what follows it. -/
theorem slice_split {a b : Bytes} (h : slice mem p n = a ++ b) :
    slice mem p a.length = a ∧ slice mem (p + a.length) b.length = b ∧
      n = a.length + b.length := by
  have hlen : n = a.length + b.length := by
    rw [← List.length_append, ← h, length_slice]
  subst hlen
  rw [slice_add] at h
  obtain ⟨ha, hb⟩ := List.append_inj h length_slice
  exact ⟨ha, hb, rfl⟩

theorem mem_slice {c : UInt8} (h : c ∉ slice mem p n) {r : Nat} (hp : p ≤ r) (hr : r < p + n) :
    mem r ≠ c := by
  rintro rfl
  exact h (List.mem_map_of_mem (List.mem_range'_1.2 ⟨hp, hr⟩))

/-- What follows a field is nothing, or an ampersand. -/
def FieldEnd (rest : Bytes) : Prop := rest = [] ∨ ∃ t, rest = 38 :: t

section Field

variable {e off dstLen : Nat} {f rest : Bytes}

/-- The first byte of a field is hit exactly if the field has the name. -/
theorem hits_iff (hand : 38 ∉ name) (heq : 61 ∉ name) (hstart : off = 0 ∨ mem (off - 1) = 38)
    (hslice : slice mem off (e - off) = f ++ rest) (hrest : FieldEnd rest) (hf : 38 ∉ f) :
    (off + name.length < e ∧ Hits mem name off) ↔ Named name f := by
  rw [named_iff]
  constructor
  · rintro ⟨hlt, -, hequal, hcase⟩
    obtain ⟨hn38, hn61⟩ := clean_of_caseEq hcase hand heq
    obtain ⟨k, hk⟩ := Nat.exists_eq_add_of_lt hlt
    have hsplit : slice mem off name.length ++ 61 :: slice mem (off + name.length + 1) k =
        f ++ rest := by
      rw [← hslice, show e - off = name.length + (k + 1) by omega, slice_add, slice_succ, hequal]
    have hnot : ∀ t, rest ≠ 61 :: t := by
      rintro t rfl
      rcases hrest with h | ⟨t, h⟩
      · cases h
      · cases h
    rcases List.append_eq_append_iff.1 hsplit with ⟨c, hfc, hc⟩ | ⟨c, hnc, hc⟩
    · cases c with
      | nil => exact absurd hc.symm (hnot _)
      | cons x c =>
        obtain ⟨rfl, -⟩ := List.cons.inj hc
        exact ⟨_, c, hfc, hn61, hcase⟩
    · cases c with
      | nil => exact absurd hc (hnot _)
      | cons x c =>
        rcases hrest with h | ⟨t, h⟩
        · rw [h] at hc
          cases hc
        · rw [h, List.cons_append] at hc
          rw [hnc, ← (List.cons.inj hc).1] at hn38
          exact absurd (by simp) hn38
  · rintro ⟨n, value, rfl, -, hcase⟩
    have hlen : name.length = n.length := length_of_caseEq hcase
    rw [List.append_assoc] at hslice
    obtain ⟨hn, hvalue, hsize⟩ := slice_split hslice
    rw [List.cons_append, List.length_cons, slice_succ] at hvalue
    rw [List.length_append, List.length_cons] at hsize
    rw [Hits, hlen, hn]
    exact ⟨by omega, hstart, (List.cons.inj hvalue).1, hcase⟩

/-- The result where the value lies from `start` up to `stop`. -/
def valueAt (mem : Nat → UInt8) (name : Bytes) (dstLen : Nat) (dst : Bytes) (start stop : Nat) :
    Bytes × Int :=
  if stop - start < dstLen then
    let text := decoded mem (turnsCommas name) true start stop
    (text ++ 0 :: dst.drop (text.length + 1), text.length)
  else (dst, -1)

theorem length_decoded_le {comma form : Bool} (start stop : Nat) :
    (decoded mem comma form start stop).length ≤ stop - start := by
  have hle := @length_decodeBehind_le comma form (mem stop) (mem (stop + 1))
    (slice mem start (stop - start))
  rwa [length_slice] at hle

theorem value_takeValue {dst v : Bytes} (hslice : slice mem p (e - p) = v ++ rest)
    (hrest : FieldEnd rest) (hv : 38 ∉ v) (hpe : p ≤ e) (hpos : 1 ≤ dstLen)
    (hdst : dstLen ≤ dst.length) :
    (takeValue mem e dstLen name p dst).value =
      some (valueAt mem name dstLen dst p (p + v.length)) := by
  have hstop : (memchr mem 38 (e - p) p).value.map (·.getD e) = some (p + v.length) := by
    rcases hrest with rfl | ⟨t, rfl⟩
    · rw [List.append_nil] at hslice
      have hlen : v.length = e - p := by rw [← hslice, length_slice]
      rw [(value_memchr hv).1 hslice]
      exact congrArg some (by simp; omega)
    · rw [(value_memchr hv).2 t hslice]
      rfl
  obtain ⟨s, hs, hsv⟩ := Option.map_eq_some_iff.1 hstop
  rw [takeValue, value_bind, hs, Option.bind_some, hsv, valueAt]
  dsimp only
  by_cases hfit : p + v.length - p < dstLen
  · rw [if_pos hfit, if_pos hfit]
    obtain ⟨text, htext, hrun⟩ := @value_urlDecodeFrom mem (turnsCommas name) true (p + v.length)
      dstLen dst p hpos hdst
    have hle := @length_decoded_le mem (turnsCommas name) true p (p + v.length)
    rw [List.take_of_length_le (by omega)] at htext
    rw [value_bind, hrun, htext]
    rfl
  · rw [if_neg hfit, if_neg hfit]
    rfl

/-- The loop finds the first field that has the name. -/
theorem value_lookupLoop {fs : List Bytes} {dst : Bytes} (hand : 38 ∉ name) (heq : 61 ∉ name)
    (hpos : 1 ≤ dstLen) (hdst : dstLen ≤ dst.length) (hne : fs ≠ [])
    (hfs : ∀ f ∈ fs, 38 ∉ f) (hstart : off = 0 ∨ mem (off - 1) = 38)
    (hslice : slice mem off (e - off) = joined 38 fs) (hoff : off ≤ e) (hn : e - off < n) :
    (lookupLoop mem e dstLen name n off dst).value =
      some ((locate name off fs).elim (dst, -1) fun v => valueAt mem name dstLen dst v.1 v.2) := by
  induction fs generalizing off n with
  | nil => exact absurd rfl hne
  | cons f fs ih =>
    have hf : 38 ∉ f := hfs f List.mem_cons_self
    obtain ⟨rest, hjoin, hrest⟩ : ∃ rest, joined 38 (f :: fs) = f ++ rest ∧ FieldEnd rest := by
      cases fs with
      | nil => exact ⟨[], by rw [joined_singleton, List.append_nil], .inl rfl⟩
      | cons g fs => exact ⟨_, joined_cons_cons f g fs, .inr ⟨_, rfl⟩⟩
    have hfields := hslice
    rw [hjoin] at hslice
    obtain ⟨hfield, hbehind, hsize⟩ := slice_split hslice
    have hhit := hits_iff hand heq hstart hslice hrest hf
    rw [locate]
    by_cases hnamed : Named name f
    · obtain ⟨hlt, hhits⟩ := hhit.2 hnamed
      obtain ⟨k, value, rfl, -, hcase⟩ := named_iff.1 hnamed
      have hlen : name.length = k.length := length_of_caseEq hcase
      obtain ⟨n, rfl⟩ := Nat.exists_eq_succ_of_ne_zero (Nat.ne_zero_of_lt hn)
      have hvalue : slice mem (off + name.length + 1) (e - (off + name.length + 1)) =
          value ++ rest := by
        have hsplit : slice mem off (e - off) = (k ++ [61]) ++ (value ++ rest) := by
          rw [hslice]
          simp
        obtain ⟨-, hv, hsz⟩ := slice_split hsplit
        rw [List.length_append, List.length_singleton] at hv hsz
        rw [hlen, Nat.add_assoc, show e - (off + (k.length + 1)) = (value ++ rest).length by omega]
        exact hv
      rw [lookupLoop, if_pos hlt, value_bind, value_hit, Option.bind_some, decide_eq_true hhits,
        if_pos rfl, value_takeValue hvalue hrest (fun h => hf (by simp [h])) (by omega) hpos hdst,
        if_pos hnamed, Option.elim_some]
      have hstop : off + name.length + 1 + value.length = off + (k ++ 61 :: value).length := by
        rw [List.length_append, List.length_cons]
        omega
      rw [hstop]
    · -- no byte of the field is hit
      rw [if_neg hnamed]
      have hskip : ∀ m, e - (off + f.length + 1) < m →
          (lookupLoop mem e dstLen name n off dst).value =
            (lookupLoop mem e dstLen name m (off + f.length + 1) dst).value := by
        intro m hm
        apply value_skip (by omega) hn hm
        intro r hle hlt hgo hits
        rcases hle.eq_or_lt with rfl | hlt'
        · exact hnamed (hhit.1 ⟨hgo, hits⟩)
        · have hprev : mem (r - 1) ≠ 38 :=
            mem_slice (hfield.symm ▸ hf) (by omega) (by omega)
          exact hits.1.elim (by omega) hprev
      cases fs with
      | nil =>
        rw [joined_singleton] at hfields
        have hend : e - off = f.length := by rw [← hfields, length_slice]
        rw [hskip 1 (by omega), lookupLoop, if_neg (by omega)]
        rfl
      | cons g fs =>
        rw [joined_cons_cons] at hfields
        obtain ⟨-, hrest', hsize'⟩ := slice_split hfields
        rw [List.length_cons, slice_succ] at hrest'
        rw [List.length_cons] at hsize'
        obtain ⟨hamp, hrest'⟩ := List.cons.inj hrest'
        rw [hskip _ (Nat.lt_succ_self _)]
        apply ih (List.cons_ne_nil g fs) (fun f hf => hfs f (List.mem_cons_of_mem _ hf)) (.inr hamp)
        · rwa [show e - (off + f.length + 1) = (joined 38 (g :: fs)).length by omega]
        · omega
        · omega

end Field

section Reads

variable {e dstLen : Nat} {dst : Bytes}

/-- A byte of the buffer, or one of the two bytes behind a percent sign in it. -/
def InBuffer (mem : Nat → UInt8) (e r : Nat) : Prop :=
  r < e ∨ ∃ q < e, mem q = 37 ∧ (r = q + 1 ∨ r = q + 2)

theorem reads_strncasecmp : (strncasecmp mem name p).Always (· < p + name.length) := by
  induction name generalizing p with
  | nil => exact always_pure _
  | cons c name ih =>
    have hrest : (strncasecmp mem name (p + 1)).Always (· < p + (c :: name).length) :=
      fun r hr => by
        have := ih r hr
        rw [List.length_cons]
        omega
    rw [strncasecmp, always_bind, always_peek]
    refine ⟨by simp, fun d _ => ?_⟩
    split
    · exact hrest
    · exact always_pure _

theorem reads_memchr {c : UInt8} : (memchr mem c n p).Always (· < p + n) ∧
    ∀ s, (memchr mem c n p).value = some (some s) → s < p + n := by
  induction n generalizing p with
  | zero => exact ⟨always_pure _, fun s h => by cases h⟩
  | succ n ih =>
    obtain ⟨hreads, hvalue⟩ := @ih (p + 1)
    have hrest : (memchr mem c n (p + 1)).Always (· < p + (n + 1)) := fun r hr => by
      have := hreads r hr
      omega
    rw [memchr, always_bind, always_peek, value_bind, value_peek, Option.bind_some]
    refine ⟨⟨by omega, fun d _ => ?_⟩, fun s hs => ?_⟩
    · split
      · exact always_pure _
      · exact hrest
    · by_cases h : mem p = c
      · rw [if_pos h, value_pure] at hs
        cases hs
        omega
      · rw [if_neg h] at hs
        have := hvalue s hs
        omega

theorem reads_hit (h : p + name.length < e) : (hit mem name p).Always (· < e) := by
  have hstart : (atStart mem p).Always (· < e) := by
    rw [atStart]
    split
    · exact always_pure _
    · rw [always_bind, always_peek]
      exact ⟨by omega, fun c _ => always_pure _⟩
  have hname : (strncasecmp mem name p).Always (· < e) := fun r hr => by
    have := reads_strncasecmp r hr
    omega
  rw [hit, always_bind]
  refine ⟨hstart, fun b _ => ?_⟩
  split
  · rw [always_bind, always_peek]
    refine ⟨h, fun c _ => ?_⟩
    split
    · exact hname
    · exact always_pure _
  · exact always_pure _

theorem reads_takeValue (h : p ≤ e) : (takeValue mem e dstLen name p dst).Always (InBuffer mem e) := by
  obtain ⟨hreads, hvalue⟩ := @reads_memchr mem p (e - p) 38
  rw [takeValue, always_bind]
  refine ⟨fun r hr => .inl (by have := hreads r hr; omega), fun s hs => ?_⟩
  have hse : s.getD e ≤ e := by
    cases s with
    | none => exact le_rfl
    | some s =>
      have := hvalue s hs
      change s ≤ e
      omega
  dsimp only
  split
  · rw [always_bind]
    refine ⟨fun r hr => ?_, fun _ _ => always_pure _⟩
    rcases (reads_decodeLoop r hr).2 with hlt | ⟨q, -, hq, h37, hr⟩
    · exact .inl (by omega)
    · exact .inr ⟨q, by omega, h37, hr⟩
  · exact always_pure _

/-- What the loop reads. -/
theorem reads_lookupLoop : (lookupLoop mem e dstLen name n p dst).Always (InBuffer mem e) := by
  induction n generalizing p with
  | zero => exact always_stop
  | succ n ih =>
    rw [lookupLoop]
    split
    · rename_i hgo
      rw [always_bind]
      refine ⟨fun r hr => .inl (reads_hit hgo r hr), fun b _ => ?_⟩
      split
      · exact reads_takeValue (by omega)
      · exact ih
    · exact always_pure _

end Reads

end Values

/-- The value of the first field that has the name is found and decoded, `dst` is a string of
less than `dst_len` bytes, and only the buffer is read. -/
def Finds (mem : Nat → UInt8) (bufLen : Nat) (name : Bytes) (dstLen : Nat) (dst : Bytes) : Prop :=
  (aisGetVarFrom mem dstLen name bufLen dst).Always (InBuffer mem bufLen) ∧
    match locate name 0 ((slice mem 0 bufLen).splitOn 38) with
    | none => (aisGetVarFrom mem dstLen name bufLen dst).value = some (0 :: dst.drop 1, -1)
    | some (start, stop) =>
      if stop - start < dstLen then
        ∃ text, (aisGetVarFrom mem dstLen name bufLen dst).value =
            some (text ++ 0 :: dst.drop (text.length + 1), (text.length : Int)) ∧
          text = decoded mem (turnsCommas name) true start stop ∧ text.length < dstLen
      else (aisGetVarFrom mem dstLen name bufLen dst).value = some (0 :: dst.drop 1, -1)

theorem ais_get_var_finds (mem : Nat → UInt8) (bufLen : Nat) (name : Bytes) (dstLen : Nat)
    (dst : Bytes) (hand : 38 ∉ name) (heq : 61 ∉ name) (hpos : 1 ≤ dstLen)
    (hdst : dstLen ≤ dst.length) : Finds mem bufLen name dstLen dst := by
  have hstore : store dst 0 [0] = some (0 :: dst.drop 1) := by
    rw [store, if_pos (by rw [List.length_singleton]; omega)]
    rfl
  have hrun := @value_lookupLoop mem name (bufLen + 1) bufLen 0 dstLen
    ((slice mem 0 bufLen).splitOn 38) (0 :: dst.drop 1) hand heq hpos
    (by rw [List.length_cons, List.length_drop]; omega) (List.splitOn_ne_nil _ _)
    (fun f hf => not_mem_of_mem_splitOn hf) (.inl rfl)
    (by rw [joined, List.intercalate_splitOn, Nat.sub_zero]) (Nat.zero_le _) (by omega)
  have hvalue : (aisGetVarFrom mem dstLen name bufLen dst).value =
      (lookupLoop mem bufLen dstLen name (bufLen + 1) 0 (0 :: dst.drop 1)).value := by
    rw [aisGetVarFrom, value_bind, value_ofOption, hstore, Option.bind_some]
  constructor
  · rw [aisGetVarFrom, always_bind]
    exact ⟨always_ofOption _, fun dst' _ => reads_lookupLoop⟩
  · rw [hvalue, hrun]
    cases hfound : locate name 0 ((slice mem 0 bufLen).splitOn 38) with
    | none => rfl
    | some v =>
      obtain ⟨start, stop⟩ := v
      rw [Option.elim_some, valueAt]
      dsimp only
      by_cases hfit : stop - start < dstLen
      · have hle := @length_decoded_le mem (turnsCommas name) true start stop
        rw [if_pos hfit, if_pos hfit, List.drop_succ_cons, List.drop_drop, Nat.add_comm 1]
        exact ⟨_, rfl, rfl, by omega⟩
      · rw [if_neg hfit, if_neg hfit]

/-- A query in memory, with zero bytes behind it. -/
def inMemory (s : Bytes) (i : Nat) : UInt8 := s.getD i 0

theorem ais_get_var_finds_key :
    38 ∉ ascii "key" ∧ 61 ∉ ascii "key" ∧ 1 ≤ 4 ∧ 4 ≤ (List.replicate 4 (7 : UInt8)).length ∧
      Finds (inMemory (ascii "monkey=x&Key=a+b&key=c")) 22 (ascii "key") 4
        (List.replicate 4 7) := by
  have hand : 38 ∉ ascii "key" := by decide
  have heq : 61 ∉ ascii "key" := by decide
  have hdst : 4 ≤ (List.replicate 4 (7 : UInt8)).length := by decide
  exact ⟨hand, heq, by decide, hdst, ais_get_var_finds _ _ _ _ _ hand heq (by decide) hdst⟩

example : (aisGetVarFrom (inMemory (ascii "monkey=x&Key=a+b&key=c")) 4 (ascii "key") 22
    (List.replicate 4 7)).value = some (ascii "a b" ++ [0], 3) := by
  decide

end Doorhinges.Query

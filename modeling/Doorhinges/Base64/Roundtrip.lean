import Doorhinges.Base64.Model
import Doorhinges.Query.Roundtrip

/-!
# Base64 round trip

A group of up to three bytes fills the 24 bits of `prepare` from the top, and its characters
are the groups of six bits that the bytes reach. The decoder packs them to the same number.
-/
namespace Doorhinges.Base64

open Lib
open Lib.BitGroups
open Lib.CString
open Lib.Cells
open Lib.Logged
open Doorhinges.Query (cstr)

/-- Characters of the alphabet and up to two equals signs. -/
def IsBase64 (text : Bytes) : Prop :=
  ∃ body k, text = body ++ List.replicate k 61 ∧ k ≤ 2 ∧ ∀ c ∈ body, c ∈ base.take 64

/-- What `base64_encode` makes of `d`, and `base64_decode` of that. -/
def Restored (d : Bytes) : Prop :=
  ∃ ret out, (base64Encode d).value = some ret ∧ 0 ∈ ret ∧
    (cstr ret).length = 4 * ((d.length + 2) / 3) ∧ IsBase64 (cstr ret) ∧
      (base64Decode (cstr ret)).value = some out ∧ 0 ∈ out ∧ cstr out = d

def WritesInside (d : Bytes) : Prop :=
  (base64Encode d).Always Write.Inside ∧ ∀ ret, (base64Encode d).value = some ret →
    (base64Decode (cstr ret)).Always Write.Inside

/-- `d` is restored, and all writes are inside of the buffers. -/
def RoundTrip (d : Bytes) : Prop := Restored d ∧ WritesInside d

section Symbols

/-- The character for a number below 64. -/
def symbol (v : Nat) : UInt8 := base.getD v 0

/-- `prepare` for a group of bytes. -/
def prepared (g : Bytes) : Nat := pack 8 0 (g.map UInt8.toNat) <<< ((3 - g.length) * 8)

def group (g : Bytes) : Bytes := ((unpack 6 4 (prepared g)).take (g.length + 1)).map symbol

def symbols : Bytes → Bytes
  | [] => []
  | [a] => group [a]
  | [a, b] => group [a, b]
  | a :: b :: c :: rest => group [a, b, c] ++ symbols rest

/-- The number of equals signs. -/
def pad (d : Bytes) : Nat := (3 - d.length % 3) % 3

def encoded (d : Bytes) : Bytes := symbols d ++ List.replicate (pad d) 61

theorem symbol_facts : ∀ v < 64, base[v]? = some (symbol v) ∧ findPos (symbol v) = some v ∧
    symbol v ≠ 0 ∧ symbol v ≠ 61 ∧ symbol v ∈ base.take 64 := by decide

variable {g : Bytes} {c : UInt8}

theorem mem_group (h : c ∈ group g) : ∃ v < 64, c = symbol v := by
  obtain ⟨v, hv, rfl⟩ := List.mem_map.1 h
  exact ⟨v, unpack_lt (List.mem_of_mem_take hv), rfl⟩

theorem mem_symbols {d : Bytes} (h : c ∈ symbols d) : ∃ v < 64, c = symbol v := by
  induction d using symbols.induct with
  | case1 => cases h
  | case2 a => exact mem_group h
  | case3 a b => exact mem_group h
  | case4 a b x rest ih => exact (List.mem_append.1 h).elim mem_group ih

theorem length_group (h : g.length ≤ 3) : (group g).length = g.length + 1 := by
  rw [group, List.length_map, List.length_take, length_unpack]
  omega

theorem pad_cons (a b c : UInt8) (rest : Bytes) : pad (a :: b :: c :: rest) = pad rest := by
  simp only [pad, List.length_cons]
  omega

theorem encoded_cons (a b c : UInt8) (rest : Bytes) :
    encoded (a :: b :: c :: rest) = group [a, b, c] ++ encoded rest := by
  rw [encoded, encoded, symbols, pad_cons, List.append_assoc]

theorem length_encoded (d : Bytes) : (encoded d).length = 4 * ((d.length + 2) / 3) := by
  induction d using symbols.induct with
  | case1 => rfl
  | case2 a =>
    rw [encoded, symbols, List.length_append, length_group (by simp), List.length_replicate]
    simp [pad]
  | case3 a b =>
    rw [encoded, symbols, List.length_append, length_group (by simp), List.length_replicate]
    simp [pad]
  | case4 a b c rest ih =>
    rw [encoded_cons, List.length_append, ih, length_group (by simp)]
    simp only [List.length_cons, List.length_nil]
    omega

/-- A group filled up with zero bytes. -/
def padded (g : Bytes) : List Nat := g.map UInt8.toNat ++ List.replicate (3 - g.length) 0

theorem length_padded (h : g.length ≤ 3) : (padded g).length = 3 := by
  rw [padded, List.length_append, List.length_map, List.length_replicate]
  omega

theorem padded_lt {v : Nat} (h : v ∈ padded g) : v < 2 ^ 8 := by
  rcases List.mem_append.1 h with h | h
  · obtain ⟨c, -, rfl⟩ := List.mem_map.1 h
    exact c.toNat_lt
  · rw [(List.mem_replicate.1 h).2]
    exact Nat.two_pow_pos 8

theorem prepared_eq (g : Bytes) : prepared g = pack 8 0 (padded g) := by
  rw [padded, pack_append, pack_zeros, prepared]

theorem unpack_prepared (h : g.length ≤ 3) : unpack 8 3 (prepared g) = padded g := by
  have hunpack := @unpack_pack 8 0 (padded g) fun v => padded_lt
  rwa [length_padded h, ← prepared_eq] at hunpack

theorem prepared_lt (h : g.length ≤ 3) : prepared g < 2 ^ (4 * 6) := by
  obtain ⟨r, hr, heq⟩ := @pack_bounds 8 0 (padded g) fun v => padded_lt
  rw [prepared_eq, heq, Nat.zero_mul, Nat.zero_add]
  rwa [length_padded h] at hr

theorem pack_group (h : g.length ≤ 3) :
    pack 6 0 ((unpack 6 4 (prepared g)).take (g.length + 1)) <<< ((3 - g.length) * 6) =
      prepared g := by
  have hsplit := unpack_add (w := 6) (g.length + 1) (3 - g.length) (prepared g)
  rw [show g.length + 1 + (3 - g.length) = 4 by omega] at hsplit
  have hzeros : unpack 6 (3 - g.length) (prepared g) = List.replicate (3 - g.length) 0 :=
    unpack_shift (Nat.mul_le_mul_left _ (by decide))
  have hall := @pack_unpack 6 (prepared g) 4 0
  rw [hsplit, hzeros, pack_append, pack_zeros] at hall
  rw [hsplit, List.take_left' length_unpack, hall, Nat.zero_mul, Nat.zero_add]
  exact Nat.mod_eq_of_lt (prepared_lt h)

end Symbols

section Loops

/-- The first `text.length` bytes of `ret` are written, and `k` zero bytes follow. -/
def cursor (text : Bytes) (k : Nat) : Out := (text ++ List.replicate k 0, text.length)

variable {P : Write → Prop} {text : Bytes} {k n : Nat}

theorem put_ends (hP : ∀ w, w.Inside → P w) (text : Bytes) (k : Nat) (c : UInt8) :
    (put (cursor text (k + 1)) c).Ends P (cursor (text ++ [c]) k) := by
  have hroom : [c].length ≤ (List.replicate (k + 1) (0 : UInt8)).length := by simp
  have hstore : store (cursor text (k + 1)).1 (cursor text (k + 1)).2 [c] =
      some (text ++ [c] ++ List.replicate k 0) := by
    rw [cursor, store_append hroom, List.drop_replicate]
    rfl
  refine Ends.bind (Ends.tell (hP _ ?_)) (Ends.bind (Ends.ofOption hstore) ?_)
  · change text.length < (text ++ List.replicate (k + 1) 0).length
    rw [List.length_append, List.length_replicate]
    omega
  · have hnext : cursor (text ++ [c]) k =
        (text ++ [c] ++ List.replicate k 0, (cursor text (k + 1)).2 + 1) := by
      simp [cursor]
    rw [hnext]
    exact Ends.pure _

/-- A loop that puts one byte a round. -/
theorem puts_ends {f : Out → Nat → Logged Write Out} {char : Nat → UInt8} {l : List Nat}
    (h : ∀ i ∈ l, ∀ text k, (f (cursor text (k + 1)) i).Ends P (cursor (text ++ [char i]) k))
    (text : Bytes) (k : Nat) :
    (l.foldlM f (cursor text (l.length + k))).Ends P (cursor (text ++ l.map char) k) := by
  induction l generalizing text with
  | nil => simpa using Ends.pure _
  | cons i l ih =>
    rw [List.foldlM_cons, List.length_cons, Nat.succ_add]
    refine Ends.bind (h i List.mem_cons_self text (l.length + k)) ?_
    have hrest := ih (fun j hj => h j (List.mem_cons_of_mem i hj)) (text ++ [char i])
    rwa [List.append_assoc, List.singleton_append, ← List.map_cons] at hrest

theorem clear_ends {buf : Buffer} {size n : Nat} (h : ∀ i < n, P ⟨buf, i, size⟩) :
    (clear buf size n).Ends P () := by
  have hl : ∀ l : List Nat, (∀ i ∈ l, P ⟨buf, i, size⟩) →
      (l.forM fun i => tell (⟨buf, i, size⟩ : Write)).Ends P () := by
    intro l hl
    induction l with
    | nil => exact Ends.pure _
    | cons i l ih =>
      change (tell _ >>= fun _ => l.forM _).Ends P ()
      exact Ends.bind (Ends.tell (hl i List.mem_cons_self))
        (ih fun j hj => hl j (List.mem_cons_of_mem i hj))
  exact hl _ fun i hi => h i (List.mem_range.1 hi)

theorem alloc_ends (hP : ∀ w, w.Inside → P w) (h : n < 2 ^ 31) :
    (alloc n).Ends P (cursor [] n) := by
  rw [alloc, if_pos h]
  exact Ends.bind (clear_ends fun i hi => hP _ hi) (Ends.pure _)

/-- A group is gathered from the front of the data. -/
theorem gather_eq {number : UInt8 → Option Nat} {value : UInt8 → Nat} {width : Nat}
    {g rest : Bytes} (hnumber : ∀ c ∈ g, number c = some (value c))
    (hn : g.length = n ∨ g.length ≤ n ∧ rest = []) (prepare temp : Nat) :
    gather number width n (g ++ rest) prepare temp =
      some (pack width prepare (g.map value), temp + g.length, rest) := by
  induction g generalizing n prepare temp with
  | nil =>
    rcases hn with rfl | ⟨-, rfl⟩
    · rfl
    · cases n <;> rfl
  | cons c g ih =>
    obtain ⟨m, rfl⟩ : ∃ m, n = m + 1 := by
      refine ⟨n - 1, ?_⟩
      simp only [List.length_cons] at hn
      omega
    have hg := ih (fun x hx => hnumber x (List.mem_cons_of_mem c hx))
      (n := m) (by simpa using hn) (prepare <<< width ||| value c) (temp + 1)
    rw [List.cons_append, gather, hnumber c List.mem_cons_self, Option.bind_eq_bind,
      Option.bind_some, hg, List.length_cons, Nat.add_assoc, Nat.add_comm 1]
    rfl

/-- The characters of a group with its equals signs. -/
theorem changed_eq {a : UInt8} {g : Bytes} (h : (a :: g).length ≤ 3) :
    ((List.range 4).map fun i => if (a :: g).length < i then 61 else
      symbol (prepared (a :: g) >>> ((3 - i) * 6) % 2 ^ 6)) =
        group (a :: g) ++ List.replicate (3 - (a :: g).length) 61 := by
  match g, h with
  | [], _ => rfl
  | [_], _ => rfl
  | [_, _], _ => rfl

theorem putChanged_ends (prepare temp i : Nat) (text : Bytes) (k : Nat) (hi : i < 4) :
    (putChanged prepare temp (cursor text (k + 1)) i).Ends Write.Inside
      (cursor (text ++ [if temp < i then 61 else symbol (prepare >>> ((3 - i) * 6) % 2 ^ 6)]) k) := by
  refine Ends.bind (Ends.tell hi) (Ends.bind (Ends.ofOption ?_) (put_ends (fun _ h => h) text k _))
  split
  · rfl
  · exact (symbol_facts _ (Nat.mod_lt _ (Nat.two_pow_pos 6))).1

/-- A round of the encoder. -/
theorem encodeLoop_group {a : UInt8} {g rest : Bytes} {out : Out}
    (hg : (a :: g).length = 3 ∨ (a :: g).length ≤ 3 ∧ rest = []) (n : Nat)
    (hrest : (encodeLoop n rest (cursor (text ++ group (a :: g) ++
      List.replicate (3 - (a :: g).length) 61) k)).Ends Write.Inside out) :
    (encodeLoop (n + 1) (a :: g ++ rest) (cursor text (4 + k))).Ends Write.Inside out := by
  have hlen : (a :: g).length ≤ 3 := hg.elim Nat.le_of_eq And.left
  have hgather := @gather_eq 3 (some ·.toNat) UInt8.toNat 8 (a :: g) rest (fun _ _ => rfl) hg 0 0
  rw [Nat.zero_add] at hgather
  rw [List.append_assoc, ← changed_eq hlen] at hrest
  exact Ends.bind (clear_ends fun i hi => hi) (Ends.bind (Ends.ofOption hgather)
    (Ends.bind (puts_ends (fun i hi text k => putChanged_ends _ _ i text k (List.mem_range.1 hi))
      text k) hrest))

/-- The last group, where it is not full. -/
theorem encoded_short {a : UInt8} {g : Bytes} (h : (a :: g).length < 3) :
    encoded (a :: g) = group (a :: g) ++ List.replicate (3 - (a :: g).length) 61 := by
  match g, h with
  | [], _ => simp [encoded, symbols, pad]
  | [_], _ => simp [encoded, symbols, pad]

theorem encodeLoop_short {a : UInt8} {g : Bytes} (h : (a :: g).length < 3) (n : Nat) (text : Bytes)
    (k : Nat) : (encodeLoop (n + 2) (a :: g) (cursor text ((encoded (a :: g)).length + k))).Ends
      Write.Inside (cursor (text ++ encoded (a :: g)) k) := by
  have hlen : (encoded (a :: g)).length = 4 := by
    rw [length_encoded]
    simp only [List.length_cons] at h ⊢
    omega
  have hround := @encodeLoop_group text k a g [] (cursor (text ++ encoded (a :: g)) k)
    (.inr ⟨h.le, rfl⟩) (n + 1)
  rw [List.append_nil, List.append_assoc, ← encoded_short h] at hround
  rw [hlen]
  exact hround (Ends.pure _)

theorem encodeLoop_ends {d : Bytes} (hn : d.length < n) (text : Bytes) (k : Nat) :
    (encodeLoop n d (cursor text ((encoded d).length + k))).Ends Write.Inside
      (cursor (text ++ encoded d) k) := by
  induction d using symbols.induct generalizing n text with
  | case1 =>
    obtain ⟨m, rfl⟩ := Nat.exists_eq_add_of_lt hn
    rw [show encoded [] = [] from rfl, List.append_nil, List.length_nil, Nat.zero_add k]
    exact Ends.pure _
  | case2 a =>
    obtain ⟨m, rfl⟩ := Nat.exists_eq_add_of_lt hn
    rw [show [a].length + m + 1 = m + 2 by simp; omega]
    exact encodeLoop_short (by simp) m text k
  | case3 a b =>
    obtain ⟨m, rfl⟩ := Nat.exists_eq_add_of_lt hn
    rw [show [a, b].length + m + 1 = m + 1 + 2 by simp; omega]
    exact encodeLoop_short (by simp) (m + 1) text k
  | case4 a b c rest ih =>
    have hgroup : (group [a, b, c]).length = 4 := length_group (by simp)
    simp only [List.length_cons] at hn
    obtain ⟨m, rfl⟩ := Nat.exists_eq_add_one_of_ne_zero (by omega : n ≠ 0)
    have hrest := ih (n := m) (by omega) (text ++ group [a, b, c])
    rw [encoded_cons, List.length_append, hgroup, ← List.append_assoc, Nat.add_assoc 4]
    refine @encodeLoop_group text _ a [b, c] rest _ (.inl rfl) m ?_
    simpa using hrest

/-- The buffer of `base64_encode` is filled by the text and its terminator. -/
theorem base64Encode_ends {d : Bytes} (h : 4 * ((d.length + 2) / 3) + 1 < 2 ^ 31) :
    (base64Encode d).Ends Write.Inside (encoded d ++ [0]) := by
  have hretLen : (d.length / 3 + if d.length % 3 > 0 then 1 else 0) * 4 + 1 =
      (encoded d).length + 1 := by
    rw [length_encoded]
    split <;> omega
  rw [base64Encode, hretLen]
  refine Ends.bind (alloc_ends (fun _ h => h) (by rwa [length_encoded]))
    (Ends.bind (encodeLoop_ends (Nat.lt_succ_self _) [] 1)
      (Ends.bind (put_ends (fun _ h => h) _ 0 0) ?_))
  have hout : encoded d ++ [0] = (cursor ([] ++ encoded d ++ [0]) 0).1 := by simp [cursor]
  rw [hout]
  exact Ends.pure _

/-- The write of `memset` behind `need` is allowed for. -/
def InsideOrNeed (w : Write) : Prop := w.Inside ∨ w = ⟨.need, 3, 3⟩

theorem inside_or_need (w : Write) (h : w.Inside) : InsideOrNeed w := .inl h

/-- The zero bytes that a group which is not full is followed by. -/
def zeros (g : Bytes) : Bytes := List.replicate (min 1 (3 - g.length)) 0

/-- A loop that stops at `temp` characters reads off the first `temp` bytes. -/
theorem takeWhile_bytes (x : Nat) {temp : Nat} (h2 : 2 ≤ temp) (h4 : temp ≤ 4) :
    ((List.range 3).takeWhile (· ≠ temp)).map (fun i => (x >>> ((2 - i) * 8) % 2 ^ 8).toUInt8) =
      ((unpack 8 3 x).take temp).map Nat.toUInt8 := by
  obtain rfl | rfl | rfl : temp = 2 ∨ temp = 3 ∨ temp = 4 := by omega
  · rfl
  · rfl
  · rfl

/-- The bytes that the decoder stores for a group. -/
theorem stored_eq {a : UInt8} {g : Bytes} (h : (a :: g).length ≤ 3) :
    ((List.range 3).takeWhile (· ≠ (a :: g).length + 1)).map
      (fun i => (prepared (a :: g) >>> ((2 - i) * 8) % 2 ^ 8).toUInt8) =
        a :: g ++ zeros (a :: g) := by
  rw [takeWhile_bytes _ (by simp) (by omega), unpack_prepared h]
  match g, h with
  | [], _ => simp [padded, zeros]
  | [_], _ => simp [padded, zeros]
  | [_, _], _ => simp [padded, zeros]

theorem findPos_group {g : Bytes} : ∀ c ∈ group g, findPos c = some ((findPos c).getD 0) := by
  intro c hc
  obtain ⟨v, hv, rfl⟩ := mem_group hc
  rw [(symbol_facts v hv).2.1, Option.getD_some]

theorem group_numbers (g : Bytes) : (group g).map (fun c => (findPos c).getD 0) =
    (unpack 6 4 (prepared g)).take (g.length + 1) := by
  rw [group, List.map_map]
  refine (List.map_congr_left fun v hv => ?_).trans (List.map_id _)
  have hv := unpack_lt (List.mem_of_mem_take hv)
  rw [Function.comp_apply, (symbol_facts v hv).2.1, Option.getD_some, id]

/-- A round of the decoder. -/
theorem decodeLoop_group {a : UInt8} {g rest : Bytes} {out : Out}
    (hg : (a :: g).length = 3 ∨ (a :: g).length ≤ 3 ∧ rest = []) (n : Nat)
    (hrest : (decodeLoop n rest (cursor (text ++ (a :: g ++ zeros (a :: g))) k)).Ends
      InsideOrNeed out) :
    (decodeLoop (n + 1) (group (a :: g) ++ rest)
      (cursor text ((a :: g ++ zeros (a :: g)).length + k))).Ends InsideOrNeed out := by
  have hlen : (a :: g).length ≤ 3 := hg.elim Nat.le_of_eq And.left
  have hgroup := length_group hlen
  have hfull : (group (a :: g)).length = 4 ∨ (group (a :: g)).length ≤ 4 ∧ rest = [] := by
    rw [hgroup]
    exact hg.imp (congrArg (· + 1)) (And.imp_left Nat.succ_le_succ)
  have hgather := @gather_eq _ _ _ 6 _ _ findPos_group hfull 0 0
  rw [group_numbers, Nat.zero_add, hgroup] at hgather
  obtain ⟨x, xs, hx⟩ := List.exists_cons_of_length_eq_add_one hgroup
  rw [hx] at hgather ⊢
  have hneed : (clear .need 3 4).Ends InsideOrNeed () := by
    refine clear_ends fun i hi => ?_
    rcases Nat.lt_succ_iff_lt_or_eq.1 hi with hi | rfl
    · exact .inl hi
    · exact .inr rfl
  have hputs := @puts_ends InsideOrNeed
    (fun out i => put out (prepared (a :: g) >>> ((2 - i) * 8) % 2 ^ 8).toUInt8) _
    ((List.range 3).takeWhile (· ≠ (a :: g).length + 1))
    (fun i _ text k => put_ends inside_or_need text k _) text k
  rw [stored_eq hlen] at hputs
  have hcount := congrArg List.length (stored_eq hlen)
  rw [List.length_map] at hcount
  rw [hcount] at hputs
  have hprepare : pack 6 0 ((unpack 6 4 (prepared (a :: g))).take ((a :: g).length + 1)) <<<
      ((4 - ((a :: g).length + 1)) * 6) = prepared (a :: g) := by
    rw [Nat.succ_sub_succ, pack_group hlen]
  refine Ends.bind hneed (Ends.bind (Ends.ofOption hgather) ?_)
  simp only [hprepare]
  exact Ends.bind hputs hrest

/-- What the loop of `base64_decode` stores. -/
def stored (d : Bytes) : Bytes := d ++ List.replicate (min 1 (pad d)) 0

theorem stored_short {a : UInt8} {g : Bytes} (h : (a :: g).length < 3) :
    stored (a :: g) = a :: g ++ zeros (a :: g) := by
  match g, h with
  | [], _ => rfl
  | [_], _ => rfl

theorem stored_cons (a b c : UInt8) (rest : Bytes) :
    stored (a :: b :: c :: rest) = [a, b, c] ++ stored rest := by
  rw [stored, stored, pad_cons]
  rfl

theorem decodeLoop_short {a : UInt8} {g : Bytes} (h : (a :: g).length < 3) (n : Nat) (text : Bytes)
    (k : Nat) : (decodeLoop (n + 2) (group (a :: g)) (cursor text ((stored (a :: g)).length + k))).Ends
      InsideOrNeed (cursor (text ++ stored (a :: g)) k) := by
  have hround := @decodeLoop_group text k a g [] (cursor (text ++ stored (a :: g)) k)
    (.inr ⟨h.le, rfl⟩) (n + 1)
  rw [List.append_nil, ← stored_short h] at hround
  exact hround (Ends.pure _)

theorem decodeLoop_ends {d : Bytes} (hn : (symbols d).length < n) (text : Bytes) (k : Nat) :
    (decodeLoop n (symbols d) (cursor text ((stored d).length + k))).Ends InsideOrNeed
      (cursor (text ++ stored d) k) := by
  induction d using symbols.induct generalizing n text with
  | case1 =>
    obtain ⟨m, rfl⟩ := Nat.exists_eq_add_of_lt hn
    rw [show stored [] = [] from rfl, List.append_nil, List.length_nil, Nat.zero_add k]
    exact Ends.pure _
  | case2 a =>
    obtain ⟨m, rfl⟩ : ∃ m, n = m + 2 := ⟨n - 2, by
      rw [symbols, length_group (by simp), List.length_singleton] at hn
      omega⟩
    exact decodeLoop_short (by simp) m text k
  | case3 a b =>
    obtain ⟨m, rfl⟩ : ∃ m, n = m + 2 := ⟨n - 2, by
      rw [symbols, length_group (by simp)] at hn
      omega⟩
    exact decodeLoop_short (by simp) m text k
  | case4 a b c rest ih =>
    have hgroup : (group [a, b, c]).length = 4 := length_group (by simp)
    rw [symbols, List.length_append] at hn
    obtain ⟨m, rfl⟩ := Nat.exists_eq_add_one_of_ne_zero (by omega : n ≠ 0)
    have hrest := ih (n := m) (by omega) (text ++ [a, b, c])
    rw [symbols, stored_cons, List.length_append, ← List.append_assoc,
      Nat.add_assoc [a, b, c].length]
    refine @decodeLoop_group text _ a [b, c] (symbols rest) _ (.inl rfl) m ?_
    simpa [zeros] using hrest

end Loops

section Decode

variable {d : Bytes}

/-- The equals signs are at the end. -/
theorem fromEnd_encoded {k : Nat} (hpos : 0 < k) (hk : k ≤ (encoded d).length) :
    ∃ c, fromEnd (encoded d) k = some c ∧ (c = 61 ↔ k ≤ pad d) := by
  have hlen : (encoded d).length = (symbols d).length + pad d := by
    rw [encoded, List.length_append, List.length_replicate]
  rw [fromEnd, if_pos hk, hlen, encoded]
  by_cases h : k ≤ pad d
  · refine ⟨61, ?_, iff_of_true rfl h⟩
    rw [List.getElem?_append_right (by omega), List.getElem?_replicate, if_pos (by omega)]
  · have hlt : (symbols d).length + pad d - k < (symbols d).length := by omega
    obtain ⟨v, hv, heq⟩ := mem_symbols (List.getElem_mem hlt)
    refine ⟨_, (List.getElem?_append_left hlt).trans (List.getElem?_eq_getElem hlt), ?_⟩
    rw [heq]
    exact iff_of_false (symbol_facts v hv).2.2.2.1 h

/-- `base64_decode` counts the equals signs of an encoded text. -/
theorem equalCount_encoded (h : d ≠ []) : equalCount (encoded d) = some (pad d) := by
  have hlen : 3 < (encoded d).length := by
    have hpos := List.length_pos_iff.2 h
    rw [length_encoded]
    omega
  obtain ⟨a, ha, ha'⟩ := fromEnd_encoded (d := d) (k := 1) (by omega) (by omega)
  obtain ⟨b, hb, hb'⟩ := fromEnd_encoded (d := d) (k := 2) (by omega) (by omega)
  obtain ⟨c, hc, hc'⟩ := fromEnd_encoded (d := d) (k := 3) (by omega) hlen.le
  have hpad : pad d < 3 := Nat.mod_lt _ (by decide)
  simp only [equalCount, ha, hb, hc, Option.bind_eq_bind, Option.bind_some, ha', hb', hc',
    Option.some.injEq]
  split <;> split <;> split <;> omega

/-- Three bytes behind the terminator of the decoded text remain. -/
theorem decodedLen_encoded (d : Bytes) :
    decodedLen (encoded d).length (pad d) = (stored d).length + 4 := by
  rw [length_encoded, stored, List.length_append, List.length_replicate]
  obtain hpad | hpad | hpad : pad d = 0 ∨ pad d = 1 ∨ pad d = 2 := by
    rw [pad]
    omega
  all_goals
    rw [hpad, decodedLen]
    rw [pad] at hpad
    omega

theorem base64Decode_ends (h : d ≠ []) (hlen : 4 * ((d.length + 2) / 3) + 1 < 2 ^ 31) :
    (base64Decode (encoded d)).Ends InsideOrNeed (stored d ++ List.replicate 4 0) := by
  have htake : (encoded d).take ((encoded d).length - pad d) = symbols d := by
    rw [encoded, List.length_append, List.length_replicate, Nat.add_sub_cancel, List.take_left' rfl]
  have hsymbols : (symbols d).length < (encoded d).length + 1 := by
    rw [encoded, List.length_append]
    omega
  have hint : (stored d).length + 4 < 2 ^ 31 := by
    have hpos := List.length_pos_iff.2 h
    rw [stored, List.length_append, List.length_replicate]
    omega
  refine Ends.bind (Ends.ofOption (equalCount_encoded h)) ?_
  rw [decodedLen_encoded, htake]
  refine Ends.bind (alloc_ends inside_or_need hint) (Ends.bind (decodeLoop_ends hsymbols [] 4)
    (Ends.bind (put_ends inside_or_need _ 3 0) ?_))
  have hout : stored d ++ List.replicate 4 0 = (cursor ([] ++ stored d ++ [0]) 3).1 := by
    simp [cursor]
  rw [hout]
  exact Ends.pure _

theorem equalCount_le {data : Bytes} {e : Nat} (h : equalCount data = some e) : e ≤ 3 := by
  rw [equalCount] at h
  obtain ⟨a, -, h⟩ := Option.bind_eq_some_iff.1 h
  obtain ⟨b, -, h⟩ := Option.bind_eq_some_iff.1 h
  obtain ⟨c, -, h⟩ := Option.bind_eq_some_iff.1 h
  obtain rfl := Option.some.inj h
  split <;> split <;> split <;> omega

/-- Whatever is decoded, `memset` writes behind `need`. -/
theorem base64Decode_overruns {data out : Bytes} (h3 : 3 < data.length)
    (h : (base64Decode data).value = some out) : ¬ (base64Decode data).Always Write.Inside := by
  intro hinside
  rw [base64Decode, value_bind] at h
  rw [base64Decode, always_bind] at hinside
  obtain ⟨e, he, h⟩ := Option.bind_eq_some_iff.1 h
  rw [value_bind] at h
  obtain ⟨ret, hret, -⟩ := Option.bind_eq_some_iff.1 h
  have hloop := (always_bind.1 ((always_bind.1 (hinside.2 e he)).2 ret hret)).1
  have he := equalCount_le he
  obtain ⟨c, rest, hdata⟩ := List.exists_cons_of_length_pos
    (l := data.take (data.length - e)) (by rw [List.length_take]; omega)
  rw [hdata, decodeLoop, always_bind] at hloop
  exact absurd (hloop.1 ⟨.need, 3, 3⟩ (by decide)) (by decide)

end Decode

theorem isBase64_encoded (d : Bytes) : IsBase64 (encoded d) := by
  refine ⟨symbols d, pad d, rfl, Nat.le_of_lt_succ (Nat.mod_lt _ (by decide)), fun c hc => ?_⟩
  obtain ⟨v, hv, rfl⟩ := mem_symbols hc
  exact (symbol_facts v hv).2.2.2.2

theorem encoded_nul (d : Bytes) : 0 ∉ encoded d := by
  intro h
  rcases List.mem_append.1 h with h | h
  · obtain ⟨v, hv, heq⟩ := mem_symbols h
    exact (symbol_facts v hv).2.2.1 heq.symm
  · exact absurd (List.mem_replicate.1 h).2 (by decide)

/-- A text is never restored without a write outside of the buffers. -/
theorem not_roundTrip {d : Bytes} (h : d ≠ []) : ¬ RoundTrip d := by
  rintro ⟨⟨ret, out, hret, -, hlen, -, hout, -⟩, -, hinside⟩
  have hpos := List.length_pos_iff.2 h
  exact base64Decode_overruns (by omega) hout (hinside ret hret)

theorem restored {d : Bytes} (h : d ≠ []) (h0 : 0 ∉ d)
    (hlen : 4 * ((d.length + 2) / 3) + 1 < 2 ^ 31) : Restored d := by
  have hcstr : cstr (encoded d ++ [0]) = encoded d := by
    rw [Query.cstr_append, Query.cstr_of_nul (encoded_nul d)]
  have hd : cstr (stored d ++ List.replicate 4 0) = d := by
    rw [stored, List.append_assoc, List.replicate_append_replicate, List.replicate_succ,
      Query.cstr_append, Query.cstr_of_nul h0]
  refine ⟨encoded d ++ [0], stored d ++ List.replicate 4 0, (base64Encode_ends hlen).1, ?_, ?_, ?_, ?_,
    ?_, hd⟩
  · exact List.mem_append_right _ List.mem_cons_self
  · rw [hcstr, length_encoded]
  · rw [hcstr]
    exact isBase64_encoded d
  · rw [hcstr]
    exact (base64Decode_ends h hlen).1
  · exact List.mem_append_right _ List.mem_cons_self

/-- No text makes the trip with all writes inside of the buffers. But for the last byte of the
`memset` of `need` all are, and a text whose code has a length that fits an int is restored, if
that byte hits nothing: what lies behind `need` is a matter of the stack's layout, and the zero
may as well clear a byte of a variable of the loop. `Restored` follows the buffers only. -/
theorem base64_roundTrip_never (d : Bytes) (hne : d ≠ []) (h0 : 0 ∉ d) :
    ¬ RoundTrip d ∧ (4 * ((d.length + 2) / 3) + 1 < 2 ^ 31 → Restored d ∧
      (base64Encode d).Always Write.Inside ∧ ∀ ret, (base64Encode d).value = some ret →
        (base64Decode (cstr ret)).Always InsideOrNeed) := by
  refine ⟨not_roundTrip hne, fun hlen => ⟨restored hne h0 hlen, (base64Encode_ends hlen).2, ?_⟩⟩
  intro ret hret
  obtain rfl := Option.some.inj ((base64Encode_ends hlen).1.symm.trans hret)
  rw [Query.cstr_append, Query.cstr_of_nul (encoded_nul d)]
  exact (base64Decode_ends hne hlen).2

theorem base64_roundTrip_never_url : ¬ RoundTrip (ascii "a|1") ∧ Restored (ascii "a|1") := by
  have h := base64_roundTrip_never (ascii "a|1") (by decide) (by decide)
  exact ⟨h.1, (h.2 (by decide)).1⟩

/-- The shortest text makes `memset` write behind `need`. -/
theorem not_roundTrip_letter : ¬ RoundTrip (ascii "a") := not_roundTrip (by decide)

end Doorhinges.Base64

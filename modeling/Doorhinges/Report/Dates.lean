import Doorhinges.Lib.Decimal
import Doorhinges.Query.Roundtrip
import Doorhinges.Report.Leftovers

/-!
# The dates of a report

`check_date` cuts both strings at their separators, and puts these back on the one way
that accepts them. `checkStrings` says what becomes of two strings; the connection's
`checkDate` does this to the two parameters.
-/
namespace Doorhinges.Report

open Lib.CString
open Query

/-- Year, month and day of a string that is cut at its separators. -/
def cutNumbers (s : Bytes) : Int × Int × Int :=
  (atoi (s.take 4), atoi ((s.drop 5).take 2), atoi (s.drop 8))

/-- What `check_date` returns, and the two strings afterwards. -/
def checkStrings (start last : Bytes) : Code × Bytes × Bytes :=
  if start[4]? ≠ some 45 ∨ start[7]? ≠ some 45 then (.startdateFormat, start, last)
  else if last[4]? ≠ some 45 ∧ last[7]? ≠ some 45 then (.enddateFormat, start, last)
  else
    let d1 := cutNumbers start
    let d2 := cutNumbers last
    let rs := ((d2.1 - d1.1) * 12 + d2.2.1 - d1.2.1) * 30 + d2.2.2 - d1.2.2
    if monthOrDayWrong d1.2.1 d1.2.2 then (.startdateFormat, start.take 4, last)
    else if monthOrDayWrong d2.2.1 d2.2.2 then (.enddateFormat, start.take 4, last.take 4)
    else if rs < 0 then (.dateSubErr, start.take 4, last.take 4)
    else if 90 < rs then (.dateGtThree, start.take 4, last.take 4)
    else (.success, (start.set 4 45).set 7 45, (last.set 4 45).set 7 45)

section Strings

variable {c : Conn} {p q a i n : Nat} {b : UInt8} {s t bs cs : Bytes}

def Conn.put (c : Conn) (p : Nat) (b : UInt8) : Conn :=
  { c with buf := fun i => if i = p then some b else c.buf i }

/-- Bytes of the buffer that may be written. -/
structure Conn.Region (c : Conn) (p : Nat) (bs : Bytes) : Prop where
  get : ∀ i b, bs[i]? = some b → c.buf (p + i) = some b
  room : p + bs.length ≤ MAX_REQUEST_BUF_SIZE

theorem Conn.Region.put_self (h : c.Region p bs) (hi : i < bs.length) :
    (c.put (p + i) b).Region p (bs.set i b) := by
  refine ⟨fun j x hx => ?_, by rw [List.length_set]; exact h.room⟩
  change (if p + j = p + i then some b else c.buf (p + j)) = some x
  by_cases hij : j = i
  · subst hij
    rw [List.getElem?_set_self hi] at hx
    rw [if_pos rfl, hx]
  · rw [List.getElem?_set_ne (Ne.symm hij)] at hx
    rw [if_neg (by omega)]
    exact h.get j x hx

theorem Conn.Region.put_other (h : c.Region p bs) (ha : a < p ∨ p + bs.length ≤ a) :
    (c.put a b).Region p bs := by
  refine ⟨fun j x hx => ?_, h.room⟩
  have hj := (List.getElem?_eq_some_iff.1 hx).1
  change (if p + j = a then some b else c.buf (p + j)) = some x
  rw [if_neg (by omega)]
  exact h.get j x hx

theorem Conn.Region.poke_eq (h : c.Region p bs) (hi : i < bs.length) (b : UInt8) :
    poke (p + i) b c = some ((), c.put (p + i) b) := by
  have hroom := h.room
  rw [poke, Conn.setByte, if_pos (by omega)]
  rfl

theorem Conn.Region.byte_eq (h : c.Region p bs) (hb : bs[i]? = some b) :
    byte (p + i) c = some (b, c) := by
  rw [byte, h.get i b hb]
  rfl

theorem readUpTo_eq (hbyte : ∀ i b, bs[i]? = some b → c.buf (p + i) = some b) (h0 : 0 ∈ bs)
    (hn : bs.length ≤ n) : c.readUpTo n p = some (cstr bs) := by
  induction bs generalizing n p with
  | nil => cases h0
  | cons x bs ih =>
    obtain ⟨n, rfl⟩ := Nat.exists_eq_succ_of_ne_zero (Nat.ne_zero_of_lt hn)
    have hx : c.buf p = some x := hbyte 0 x rfl
    rw [Conn.readUpTo, hx]
    dsimp only
    by_cases hzero : x = 0
    · rw [if_pos hzero, hzero]
      rfl
    · have hrest := ih (p := p + 1) (n := n)
        (fun i y hy => by rw [Nat.add_assoc, Nat.add_comm 1 i]; exact hbyte (i + 1) y hy)
        ((List.mem_cons.1 h0).resolve_left (Ne.symm hzero)) (Nat.le_of_succ_le_succ hn)
      rw [if_neg hzero, hrest]
      simp [cstr, hzero]

/-- The C string from the `i`-th byte on. -/
theorem Conn.Region.str (h : c.Region p bs) (h0 : 0 ∈ bs.drop i) :
    c.str (p + i) = some (cstr (bs.drop i)) := by
  have hroom := h.room
  refine readUpTo_eq (fun j x hx => ?_) h0 ?_
  · rw [Nat.add_assoc]
    exact h.get (i + j) x (by rwa [List.getElem?_drop] at hx)
  · rw [List.length_drop]
    omega

/-- The two dates stand apart in the buffer. -/
structure Conn.Dates (c : Conn) (p q : Nat) (bs cs : Bytes) : Prop where
  first : c.Region p bs
  second : c.Region q cs
  apart : p + bs.length ≤ q ∨ q + cs.length ≤ p

theorem Conn.Dates.put_first (h : c.Dates p q bs cs) (hi : i < bs.length) :
    (c.put (p + i) b).Dates p q (bs.set i b) cs := by
  have hapart := h.apart
  exact ⟨h.first.put_self hi, h.second.put_other (by omega), by rwa [List.length_set]⟩

theorem Conn.Dates.put_second (h : c.Dates p q bs cs) (hi : i < cs.length) :
    (c.put (q + i) b).Dates p q bs (cs.set i b) := by
  have hapart := h.apart
  exact ⟨h.first.put_other (by omega), h.second.put_self hi, by rwa [List.length_set]⟩

/-- A string of at least eight bytes. -/
theorem eight (h : 8 ≤ s.length) :
    ∃ a b c d e f g i r, s = a :: b :: c :: d :: e :: f :: g :: i :: r := by
  match s, h with
  | a :: b :: c :: d :: e :: f :: g :: i :: r, _ => exact ⟨a, b, c, d, e, f, g, i, r, rfl⟩

/-- The bytes of a date once its separators are replaced. -/
def separated (s : Bytes) (b : UInt8) : Bytes := ((s ++ [0]).set 4 b).set 7 b

theorem cstr_terminated (h0 : 0 ∉ s) : cstr (s ++ [0]) = s :=
  (cstr_append s []).trans (cstr_of_nul h0)

theorem cstr_separated (h0 : 0 ∉ s) (h8 : 8 ≤ s.length) :
    cstr (separated s 0) = s.take 4 ∧ cstr ((separated s 0).drop 5) = (s.drop 5).take 2 ∧
      cstr ((separated s 0).drop 8) = s.drop 8 := by
  obtain ⟨a, b, c, d, e, f, g, i, r, rfl⟩ := eight h8
  simp only [List.mem_cons, not_or, eq_comm (a := (0 : UInt8))] at h0
  obtain ⟨ha, hb, hc, hd, -, hf, hg, -, hr⟩ := h0
  refine ⟨?_, ?_, ?_⟩
  · simp [separated, cstr, ha, hb, hc, hd]
  · simp [separated, cstr, hf, hg]
  · exact cstr_terminated hr

/-- The separators put back. -/
theorem cstr_restored (h0 : 0 ∉ s) (h8 : 8 ≤ s.length) :
    cstr (((separated s 0).set 4 45).set 7 45) = (s.set 4 45).set 7 45 := by
  obtain ⟨a, b, c, d, e, f, g, i, r, rfl⟩ := eight h8
  have hnul : 0 ∉ a :: b :: c :: d :: 45 :: f :: g :: 45 :: r := by
    simp only [List.mem_cons, not_or] at h0 ⊢
    obtain ⟨ha, hb, hc, hd, -, hf, hg, -, hr⟩ := h0
    exact ⟨ha, hb, hc, hd, by decide, hf, hg, by decide, hr⟩
  exact cstr_terminated hnul

theorem length_terminated : (s ++ [0]).length = s.length + 1 := List.length_append

theorem length_separated : (separated s b).length = s.length + 1 := by
  rw [separated, List.length_set, List.length_set, length_terminated]

theorem nul_separated (h8 : 8 ≤ s.length) {k : Nat} (hk : k ≤ 8) :
    0 ∈ (separated s 0).drop k := by
  obtain ⟨a, b, c, d, e, f, g, i, r, rfl⟩ := eight h8
  have hlast : 0 ∈ (separated (a :: b :: c :: d :: e :: f :: g :: i :: r) 0).drop 8 :=
    List.mem_append_right r List.mem_cons_self
  have hsplit := List.drop_drop (i := 8 - k) (j := k)
    (l := separated (a :: b :: c :: d :: e :: f :: g :: i :: r) 0)
  rw [Nat.add_sub_cancel' hk] at hsplit
  rw [← hsplit] at hlast
  exact List.mem_of_mem_drop hlast

theorem act_run {α β : Type} {m : Act α} {f : α → Act β} {x : α} {d : Conn}
    (hm : m c = some (x, d)) : (m >>= f) c = f x d := by
  show (m c).bind (fun r => f r.1 r.2) = f x d
  rw [hm]
  rfl

theorem number_eq (h : c.str p = some s) : number p c = some (atoi s, c) := by
  have hstr : str p c = some (s, c) := by
    rw [str, h]
    rfl
  rw [number, act_run hstr]
  rfl

/-- The date that begins at `p` is cut and read. -/
theorem dateNumbers_eq (h : c.Region p (s ++ [0])) (h0 : 0 ∉ s) (h8 : 8 ≤ s.length) :
    dateNumbers p c = some (cutNumbers s, (c.put (p + 4) 0).put (p + 7) 0) := by
  have hlen := length_terminated (s := s)
  have h1 := h.put_self (i := 4) (b := 0) (by omega)
  have h2 : ((c.put (p + 4) 0).put (p + 7) 0).Region p (separated s 0) :=
    h1.put_self (by rw [List.length_set]; omega)
  obtain ⟨hyear, hmon, hday⟩ := cstr_separated h0 h8
  have hstr (k : Nat) (hk : k ≤ 8) := h2.str (nul_separated h8 hk)
  rw [dateNumbers, act_run (h.poke_eq (by omega) 0),
    act_run (h1.poke_eq (by rw [List.length_set]; omega) 0),
    act_run (number_eq (p := p) (hstr 0 (by decide))), act_run (number_eq (hstr 5 (by decide))),
    act_run (number_eq (hstr 8 (by decide))), List.drop_zero, hyear, hmon, hday]
  rfl

theorem Conn.Region.terminated (h : c.Region p (s ++ [0])) (h0 : 0 ∉ s) : c.str p = some s := by
  have hstr := h.str (i := 0) (List.mem_append_right s List.mem_cons_self)
  rwa [List.drop_zero, cstr_terminated h0] at hstr

theorem Conn.Region.cut (h : c.Region p (separated s 0)) (h0 : 0 ∉ s) (h8 : 8 ≤ s.length) :
    c.str p = some (s.take 4) := by
  have hstr := h.str (i := 0) (nul_separated h8 (Nat.zero_le 8))
  rwa [List.drop_zero, (cstr_separated h0 h8).1] at hstr

theorem Conn.Region.restored (h : c.Region p (((separated s 0).set 4 45).set 7 45))
    (h0 : 0 ∉ s) (h8 : 8 ≤ s.length) : c.str p = some ((s.set 4 45).set 7 45) := by
  have hnul : 0 ∈ ((separated s 0).set 4 45).set 7 45 := by
    refine List.mem_of_mem_drop (i := 8) ?_
    rw [List.drop_set_of_lt (by decide), List.drop_set_of_lt (by decide)]
    exact nul_separated h8 (Nat.le_refl 8)
  have hstr := h.str (i := 0) hnul
  rwa [List.drop_zero, cstr_restored h0 h8] at hstr

/-- The code ends with a return value and two strings. -/
def Leaves (m : Act Code) (c : Conn) (p q : Nat) (r : Code × Bytes × Bytes) : Prop :=
  ∃ d, m c = some (r.1, d) ∧ d.str p = some r.2.1 ∧ d.str q = some r.2.2

theorem checkNumbers_leaves (h : c.Dates p q (s ++ [0]) (t ++ [0])) (hs0 : 0 ∉ s) (ht0 : 0 ∉ t)
    (hs8 : 8 ≤ s.length) (ht8 : 8 ≤ t.length) (hs : ¬ (s[4]? ≠ some 45 ∨ s[7]? ≠ some 45))
    (ht : ¬ (t[4]? ≠ some 45 ∧ t[7]? ≠ some 45)) :
    Leaves (checkNumbers p q) c p q (checkStrings s t) := by
  have hslen := length_separated (s := s) (b := 0)
  have htlen := length_separated (s := t) (b := 0)
  have hlen := length_terminated (s := s)
  have hlen' := length_terminated (s := t)
  have h1 : ((c.put (p + 4) 0).put (p + 7) 0).Dates p q (separated s 0) (t ++ [0]) :=
    (h.put_first (by omega)).put_first (by rw [List.length_set]; omega)
  have hfirst := dateNumbers_eq h.first hs0 hs8
  generalize (c.put (p + 4) 0).put (p + 7) 0 = c1 at h1 hfirst
  have h2 : ((c1.put (q + 4) 0).put (q + 7) 0).Dates p q (separated s 0) (separated t 0) :=
    (h1.put_second (by omega)).put_second (by rw [List.length_set]; omega)
  have hsecond := dateNumbers_eq h1.second ht0 ht8
  generalize (c1.put (q + 4) 0).put (q + 7) 0 = c2 at h2 hsecond
  rw [Leaves, checkNumbers, act_run hfirst, checkStrings, if_neg hs, if_neg ht]
  dsimp only
  split
  · exact ⟨c1, rfl, h1.first.cut hs0 hs8, h1.second.terminated ht0⟩
  rw [act_run hsecond]
  split
  · exact ⟨c2, rfl, h2.first.cut hs0 hs8, h2.second.cut ht0 ht8⟩
  split
  · exact ⟨c2, rfl, h2.first.cut hs0 hs8, h2.second.cut ht0 ht8⟩
  split
  · exact ⟨c2, rfl, h2.first.cut hs0 hs8, h2.second.cut ht0 ht8⟩
  have h3 := h2.put_first (i := 4) (b := 45) (by omega)
  have h4 := h3.put_first (i := 7) (b := 45) (by rw [List.length_set]; omega)
  have h5 := h4.put_second (i := 4) (b := 45) (by omega)
  have h6 := h5.put_second (i := 7) (b := 45) (by rw [List.length_set]; omega)
  rw [act_run (h2.first.poke_eq (by omega) 45),
    act_run (h3.first.poke_eq (by rw [List.length_set]; omega) 45),
    act_run (h4.second.poke_eq (by omega) 45),
    act_run (h5.second.poke_eq (by rw [List.length_set]; omega) 45)]
  exact ⟨_, rfl, h6.first.restored hs0 hs8, h6.second.restored ht0 ht8⟩

/-- A byte before the terminator. -/
theorem Conn.Region.char (h : c.Region p (s ++ [0])) (hi : i < s.length) :
    ∃ b, s[i]? = some b ∧ byte (p + i) c = some (b, c) := by
  refine ⟨s[i], List.getElem?_eq_getElem hi, h.byte_eq ?_⟩
  rw [List.getElem?_append_left hi]
  exact List.getElem?_eq_getElem hi

theorem endSeparator_eq (h : c.Region q (t ++ [0])) (h8 : 8 ≤ t.length) :
    ∃ b, endSeparator q c = some (b, c) ∧ (b ≠ 45 ↔ t[4]? ≠ some 45 ∧ t[7]? ≠ some 45) := by
  obtain ⟨b4, hb4, h4⟩ := h.char (i := 4) (by omega)
  obtain ⟨b7, hb7, h7⟩ := h.char (i := 7) (by omega)
  rw [endSeparator, act_run h4, hb4, hb7]
  by_cases hdash : b4 = 45
  · rw [if_pos hdash]
    exact ⟨b4, rfl, by simp [hdash]⟩
  · rw [if_neg hdash]
    exact ⟨b7, h7, by simp [hdash]⟩

/-- `check_date` does to the two parameters what `checkStrings` does to their texts. -/
theorem checkDate_leaves (hstart : c.apr.startdate = some p) (hend : c.apr.enddate = some q)
    (h : c.Dates p q (s ++ [0]) (t ++ [0])) (hs0 : 0 ∉ s) (ht0 : 0 ∉ t) (hs8 : 8 ≤ s.length)
    (ht8 : 8 ≤ t.length) : Leaves checkDate c p q (checkStrings s t) := by
  have hstr : c.str p = some s := h.first.terminated hs0
  have hstr' : c.str q = some t := h.second.terminated ht0
  have hparam : param (·.startdate) c = some (p, c) := by
    rw [param, hstart]
    rfl
  have hparam' : param (·.enddate) c = some (q, c) := by
    rw [param, hend]
    rfl
  obtain ⟨s4, hs4, hbyte4⟩ := h.first.char (i := 4) (by omega)
  obtain ⟨s7, hs7, hbyte7⟩ := h.first.char (i := 7) (by omega)
  obtain ⟨sep, hsep, hsepdash⟩ := endSeparator_eq h.second ht8
  rw [Leaves, checkDate, act_run hparam, act_run hbyte4]
  by_cases hdash4 : s4 = 45
  · rw [if_neg (not_not.2 hdash4), act_run hbyte7]
    by_cases hdash7 : s7 = 45
    · have hs : ¬ (s[4]? ≠ some 45 ∨ s[7]? ≠ some 45) := by simp [hs4, hs7, hdash4, hdash7]
      rw [if_neg (not_not.2 hdash7), act_run hparam', act_run hsep]
      by_cases hdash : sep ≠ 45
      · rw [if_pos hdash, checkStrings, if_neg hs, if_pos (hsepdash.1 hdash)]
        exact ⟨c, rfl, hstr, hstr'⟩
      · rw [if_neg hdash]
        exact checkNumbers_leaves h hs0 ht0 hs8 ht8 hs (mt hsepdash.2 hdash)
    · rw [if_pos hdash7, checkStrings, if_pos (by simp [hs7, hdash7])]
      exact ⟨c, rfl, hstr, hstr'⟩
  · rw [if_pos hdash4, checkStrings, if_pos (by simp [hs4, hdash4])]
    exact ⟨c, rfl, hstr, hstr'⟩

end Strings

/-- A date in the form that the request should have. -/
structure Date where
  year : Nat
  month : Nat
  day : Nat
  year_lt : year < 10000
  month_pos : 1 ≤ month
  month_le : month ≤ 12
  day_pos : 1 ≤ day
  day_le : day ≤ 31

/-- YYYY-MM-DD. -/
def Date.text (d : Date) : Bytes :=
  padded 4 d.year ++ 45 :: (padded 2 d.month ++ 45 :: padded 2 d.day)

def Date.NotAfter (a b : Date) : Prop :=
  a.year < b.year ∨ a.year = b.year ∧ (a.month < b.month ∨ a.month = b.month ∧ a.day ≤ b.day)

/-- The days between two dates when every month has thirty. -/
def Date.days (a b : Date) : Int :=
  (((b.year : Int) - a.year) * 12 + b.month - a.month) * 30 + b.day - a.day

/-- Two dates that a report may be asked for. -/
def ValidRange (s t : Bytes) : Prop :=
  ∃ a b : Date, s = a.text ∧ t = b.text ∧ a.NotAfter b ∧ a.days b ≤ 90

/-- The tests of the separators refuse the two strings. -/
def SeparatorsWrong (s t : Bytes) : Prop :=
  (s[4]? ≠ some 45 ∨ s[7]? ≠ some 45) ∨ t[4]? ≠ some 45 ∧ t[7]? ≠ some 45

section Exact

variable {s t : Bytes} {a b : Date}

theorem Date.text_cut (d : Date) : d.text.take 4 = padded 4 d.year ∧
    d.text.drop 5 = padded 2 d.month ++ 45 :: padded 2 d.day := by
  have hyear : (padded 4 d.year).length = 4 := length_padded 4 d.year
  constructor
  · exact List.take_left' hyear
  · rw [Date.text, List.drop_append, hyear, List.drop_eq_nil_of_le (by omega)]
    rfl

theorem Date.text_days (d : Date) : (d.text.drop 5).take 2 = padded 2 d.month ∧
    d.text.drop 8 = padded 2 d.day := by
  have hmonth : (padded 2 d.month).length = 2 := length_padded 2 d.month
  have hdrop : d.text.drop 8 = (d.text.drop 5).drop 3 := by rw [List.drop_drop]
  rw [hdrop, d.text_cut.2]
  constructor
  · exact List.take_left' hmonth
  · rw [List.drop_append, hmonth, List.drop_eq_nil_of_le (by omega)]
    rfl

theorem Date.length_text (d : Date) : d.text.length = 10 := by
  rw [Date.text, List.length_append, List.length_cons, List.length_append, List.length_cons,
    length_padded, length_padded, length_padded]

theorem Date.text_separators (d : Date) : d.text[4]? = some 45 ∧ d.text[7]? = some 45 := by
  have hyear : (padded 4 d.year).length = 4 := length_padded 4 d.year
  have hmonth : (padded 2 d.month).length = 2 := length_padded 2 d.month
  constructor
  · rw [Date.text, List.getElem?_append_right (by omega), hyear]
    rfl
  · rw [Date.text, List.getElem?_append_right (by omega), hyear, List.getElem?_cons_succ,
      List.getElem?_append_right (by omega), hmonth]
    rfl

theorem cutNumbers_text (d : Date) :
    cutNumbers d.text = ((d.year : Int), (d.month : Int), (d.day : Int)) := by
  have hyear := d.year_lt
  have hmonth := d.month_le
  have hday := d.day_le
  rw [cutNumbers, d.text_cut.1, d.text_days.1, d.text_days.2, atoi_padded (by omega) (by omega),
    atoi_padded (by omega) (by omega), atoi_padded (by omega) (by omega)]

/-- A range that does not run backwards is not negative in the metric. -/
theorem Date.NotAfter.days_nonneg (h : a.NotAfter b) : 0 ≤ a.days b := by
  have ha := a.day_le
  have hb := b.day_pos
  have hmonth := a.month_le
  have hmonth' := b.month_pos
  rw [Date.days]
  rcases h with h | ⟨heq, h | ⟨heq', h⟩⟩ <;> omega

theorem set_same {l : Bytes} {i : Nat} (h : l[i]? = some 45) : l.set i 45 = l := by
  obtain ⟨hi, hget⟩ := List.getElem?_eq_some_iff.1 h
  rw [← hget, List.set_getElem_self]

theorem ValidRange.accepted (h : ValidRange s t) : checkStrings s t = (.success, s, t) := by
  obtain ⟨a, b, rfl, rfl, hafter, hdays⟩ := h
  have hnonneg := hafter.days_nonneg
  obtain ⟨h4, h7⟩ := a.text_separators
  obtain ⟨h4', h7'⟩ := b.text_separators
  have ha := And.intro a.month_le a.day_le
  have hb := And.intro b.month_le b.day_le
  rw [Date.days] at hnonneg hdays
  rw [checkStrings, if_neg (by simp [h4, h7]), if_neg (by simp [h4']), cutNumbers_text,
    cutNumbers_text]
  dsimp only
  rw [if_neg (by simp [monthOrDayWrong]; omega), if_neg (by simp [monthOrDayWrong]; omega),
    if_neg (by omega), if_neg (by omega), set_same h4, set_same h7, set_same h4', set_same h7']

theorem SeparatorsWrong.refused (h : SeparatorsWrong s t) :
    (checkStrings s t).1 ≠ .success ∧ (checkStrings s t).2 = (s, t) := by
  rw [checkStrings]
  split
  · exact ⟨nofun, rfl⟩
  · rename_i hstart
    rw [if_pos (h.resolve_left hstart)]
    exact ⟨nofun, rfl⟩

theorem SeparatorsWrong.not_valid (h : SeparatorsWrong s t) : ¬ ValidRange s t := fun hvalid =>
  h.refused.1 (by rw [hvalid.accepted])

/-- The error exits behind the tests of the separators leave the start date cut. -/
theorem checkStrings_cut (h : ¬ SeparatorsWrong s t) (hcode : (checkStrings s t).1 ≠ .success) :
    (checkStrings s t).2.1 = s.take 4 := by
  obtain ⟨hstart, hend⟩ := not_or.1 h
  rw [checkStrings, if_neg hstart, if_neg hend] at hcode ⊢
  dsimp only at hcode ⊢
  split
  · rfl
  rename_i hfirst
  rw [if_neg hfirst] at hcode
  split
  · rfl
  rename_i hsecond
  rw [if_neg hsecond] at hcode
  split
  · rfl
  rename_i hneg
  rw [if_neg hneg] at hcode
  split
  · rfl
  rename_i hlong
  rw [if_neg hlong] at hcode
  exact absurd rfl hcode

theorem checkStrings_iff (h8 : 8 ≤ s.length) :
    (((checkStrings s t).1 = .success ↔ ValidRange s t) ∧ (checkStrings s t).2 = (s, t)) ↔
      SeparatorsWrong s t ∨ ValidRange s t := by
  constructor
  · rintro ⟨hcode, hsame⟩
    by_contra hno
    obtain ⟨hsep, hvalid⟩ := not_or.1 hno
    have hcut := checkStrings_cut hsep fun h => hvalid (hcode.1 h)
    have hlen := congrArg List.length hcut
    rw [hsame, List.length_take] at hlen
    dsimp only at hlen
    omega
  · rintro (h | h)
    · exact ⟨iff_of_false h.refused.1 h.not_valid, h.refused.2⟩
    · exact ⟨iff_of_true (by rw [h.accepted]) h, by rw [h.accepted]⟩

variable {c : Conn} {p q : Nat}

/-- `check_date` is right about a pair, and leaves it alone, exactly when its tests of the
separators refuse the pair or the pair is a valid range. -/
theorem checkDate_exact_iff (hstart : c.apr.startdate = some p) (hend : c.apr.enddate = some q)
    (h : c.Dates p q (s ++ [0]) (t ++ [0])) (hs0 : 0 ∉ s) (ht0 : 0 ∉ t) (hs8 : 8 ≤ s.length)
    (ht8 : 8 ≤ t.length) :
    (∃ code d, checkDate c = some (code, d) ∧ (code = .success ↔ ValidRange s t) ∧
      d.str p = some s ∧ d.str q = some t) ↔ SeparatorsWrong s t ∨ ValidRange s t := by
  obtain ⟨d, hrun, hstr, hstr'⟩ := checkDate_leaves hstart hend h hs0 ht0 hs8 ht8
  rw [← checkStrings_iff hs8]
  constructor
  · rintro ⟨code, e, hrun', hcode, hs, ht⟩
    obtain ⟨rfl, rfl⟩ := Prod.mk.inj (Option.some.inj (hrun.symm.trans hrun'))
    rw [hstr] at hs
    rw [hstr'] at ht
    exact ⟨hcode, Prod.ext (Option.some.inj hs) (Option.some.inj ht)⟩
  · rintro ⟨hcode, hsame⟩
    rw [hsame] at hstr hstr'
    exact ⟨_, d, hrun, hcode, hstr, hstr'⟩

/-- A connection whose buffer begins with two dates. -/
def dated (s t : Bytes) : Conn where
  buf i := ((s ++ [0]) ++ (t ++ [0]))[i]?
  last := s.length + t.length + 2
  apr := { format := .const (ascii "json"), key := none, startdate := some 0,
           enddate := some (s.length + 1), sign := none, timeStamp := none, groupby := none,
           flags := [3, 2] }
  app := { platformProviderID := none, showPutInPrice := none, clickPutInPrice := none,
           key := none, secretKey := none, callbackSource := none }

theorem dated_dates (h : s.length + t.length + 2 ≤ MAX_REQUEST_BUF_SIZE) :
    (dated s t).Dates 0 (s.length + 1) (s ++ [0]) (t ++ [0]) := by
  have hs := length_terminated (s := s)
  have ht := length_terminated (s := t)
  refine ⟨⟨fun i b hb => ?_, by omega⟩, ⟨fun i b hb => ?_, by omega⟩, .inl (by omega)⟩
  · change ((s ++ [0]) ++ (t ++ [0]))[0 + i]? = some b
    rw [Nat.zero_add, List.getElem?_append_left (List.getElem?_eq_some_iff.1 hb).1]
    exact hb
  · change ((s ++ [0]) ++ (t ++ [0]))[s.length + 1 + i]? = some b
    rw [List.getElem?_append_right (by omega), hs, Nat.add_sub_cancel_left]
    exact hb

/-- A range over the turn of the year. -/
theorem checkDate_exact_year : ∃ code d,
    checkDate (dated (ascii "2013-12-20") (ascii "2014-01-05")) = some (code, d) ∧
      (code = .success ↔ ValidRange (ascii "2013-12-20") (ascii "2014-01-05")) ∧
      d.str 0 = some (ascii "2013-12-20") ∧ d.str 11 = some (ascii "2014-01-05") :=
  (checkDate_exact_iff rfl rfl (dated_dates (by decide)) (by decide) (by decide) (by decide)
    (by decide)).2 (.inr ⟨⟨2013, 12, 20, by decide, by decide, by decide, by decide, by decide⟩,
      ⟨2014, 1, 5, by decide, by decide, by decide, by decide, by decide⟩, by decide, by decide,
      .inl (by decide), by decide⟩)

/-- What follows the last number is not looked at. -/
theorem trailing_text_accepted : ¬ ∀ (c : Conn) (p q : Nat) (s t : Bytes),
    c.apr.startdate = some p → c.apr.enddate = some q → c.Dates p q (s ++ [0]) (t ++ [0]) →
    0 ∉ s → 0 ∉ t → 8 ≤ s.length → 8 ≤ t.length →
    ∃ code d, checkDate c = some (code, d) ∧ (code = .success ↔ ValidRange s t) ∧
      d.str p = some s ∧ d.str q = some t := by
  intro hclaim
  have hdates := dated_dates (s := ascii "2014-01-01") (t := ascii "2014-01-05x") (by decide)
  obtain ⟨d, hrun, -⟩ := checkDate_leaves rfl rfl hdates (by decide) (by decide) (by decide)
    (by decide)
  obtain ⟨code, e, hrun', hcode, -⟩ := hclaim _ _ _ _ _ rfl rfl hdates (by decide) (by decide)
    (by decide) (by decide)
  have haccepted : (checkStrings (ascii "2014-01-01") (ascii "2014-01-05x")).1 = .success := by
    decide
  rw [hrun] at hrun'
  obtain ⟨a, b, -, htext, -⟩ := hcode.1
    ((Prod.mk.inj (Option.some.inj hrun')).1.symm.trans haccepted)
  have hlen := congrArg List.length htext
  rw [b.length_text] at hlen
  exact absurd hlen (by decide)

end Exact

end Doorhinges.Report

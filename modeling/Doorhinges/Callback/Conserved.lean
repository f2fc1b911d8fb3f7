import Doorhinges.Callback.Money

/-!
# Money is conserved exactly where prices print as they stand

One call moves the sums of its own order and ad: the money used by the price, the balance by
what `%f` prints of it. So the sums stay together as long as the two are the same number.
-/
namespace Doorhinges.Callback

open Lib.CString
open Lib.Redis (Cmd Reply)
open Lib.Program
open Lib.Runs
open Lib.Machine
open Lib.Binary64
open Lib.DecimalText

section Sent

variable (X : Externals) (c : Charge)

/-- The commands of the put-in model. -/
def Charge.byModel : List Command :=
  if c.model.head? = some 49 then [.hincrbyfloat (.usedmoneyAdDay c.orderId c.adId) c.t c.price]
  else if c.model.head? = some 50 then
    [.hincrbyfloat (.usedmoneyHours c.orderId c.t) (twoDigits c.h) c.price,
      .hincrbyfloat (.usedmoneyAdHours c.orderId c.adId c.t) (twoDigits c.h) c.price]
  else []

def Charge.unallocated : Command :=
  .hincrbyfloat (.orderMoney c.orderId) (ascii "unallocated_balance") (negatedFloat c.price)

theorem sentBy_deductByModel : sentBy c.reply
    (deductByModel c.orderId c.adId c.t c.h c.model c.price) = c.byModel ∧
      valueBy c.reply (deductByModel c.orderId c.adId c.t c.h c.model c.price) = some () := by
  rw [deductByModel, Charge.byModel]
  split_ifs
  · exact ⟨rfl, rfl⟩
  · exact ⟨rfl, rfl⟩
  · exact ⟨rfl, rfl⟩

theorem sentBy_deductUnallocated {Y : Externals} (hY : Y.negatedFloat = negatedFloat) :
    (sentBy c.reply (deductUnallocated Y c.orderId c.price) = [] ∨
      sentBy c.reply (deductUnallocated Y c.orderId c.price) = [c.unallocated]) ∧
        valueBy c.reply (deductUnallocated Y c.orderId c.price) = some () := by
  have hprog : ∃ k l,
      deductUnallocated Y c.orderId c.price =
        .call (.hget (.orderMoney c.orderId) (ascii "unallocated_balance")) k ∧
      (∀ r s, stringReply r = some s → k r = .send c.unallocated (.ret ())) ∧
      (∀ r, stringReply r = none →
        k r = .call (.hget (.orderMoney c.orderId) (ascii "unallocated")) l) ∧
      ∀ r, l r = if (stringReply r).isSome then .send c.unallocated (.ret ()) else .ret () := by
    rw [deductUnallocated, hY]
    refine ⟨_, _, rfl, fun r s hr => ?_, fun r hr => ?_, fun _ => rfl⟩
    · rw [Prog.bind, hr]
      rfl
    · rw [Prog.bind, hr]
      rfl
  obtain ⟨k, l, hrun, hsome, hnone, hl⟩ := hprog
  rw [hrun, sentBy, valueBy]
  cases hr : stringReply (c.reply (.hget (.orderMoney c.orderId) (ascii "unallocated_balance"))) with
  | some s =>
    rw [hsome _ s hr]
    exact ⟨Or.inr rfl, rfl⟩
  | none =>
    rw [hnone _ hr, sentBy, valueBy, hl]
    split_ifs
    · exact ⟨Or.inr rfl, rfl⟩
    · exact ⟨Or.inl rfl, rfl⟩

/-- What a call sends. -/
theorem sent_eq : ∃ us, (us = [] ∨ us = [c.unallocated]) ∧
    c.sent X = .hincrbyfloat (.usedmoneyDay c.orderId) c.t c.price :: c.byModel ++ us ++
      [.hincrbyfloat (.orderMoney c.orderId) (ascii "balance") (negatedFloat c.price)] := by
  obtain ⟨hmodel, hmodel'⟩ := sentBy_deductByModel c
  obtain ⟨hunalloc, hunalloc'⟩ :=
    sentBy_deductUnallocated c (Y := { X with negatedFloat := negatedFloat }) rfl
  -- the reads are answered; what is left begins with the put-in model
  let days := (((c.reply (.smembers (.notbudgetsday c.orderId))).map Reply.elements).getD
    []).filterMap id
  let rest : Act Unit := do
    onlyIf (days.any fun d => contains d c.t)
      (deductUnallocated { X with negatedFloat := negatedFloat } c.orderId c.price)
    send (.hincrbyfloat (.orderMoney c.orderId) (ascii "balance") (negatedFloat c.price))
  have hrest : ∃ us, (us = [] ∨ us = [c.unallocated]) ∧ sentBy c.reply rest = us ++
      [.hincrbyfloat (.orderMoney c.orderId) (ascii "balance") (negatedFloat c.price)] := by
    by_cases hday : days.any fun d => contains d c.t
    · refine ⟨_, hunalloc, ?_⟩
      change sentBy c.reply (onlyIf _ _ >>= _) = _
      rw [onlyIf, if_pos hday, sentBy_bind_of hunalloc']
      rfl
    · refine ⟨[], Or.inl rfl, ?_⟩
      change sentBy c.reply (onlyIf _ _ >>= _) = _
      rw [onlyIf, if_neg hday]
      rfl
  obtain ⟨us, hus, hsent⟩ := hrest
  refine ⟨us, hus, ?_⟩
  change .hincrbyfloat _ _ _ :: sentBy c.reply
    (deductByModel c.orderId c.adId c.t c.h c.model c.price >>= fun _ => _) = _
  rw [sentBy_bind_of hmodel', hmodel]
  change _ :: (c.byModel ++ sentBy c.reply rest) = _
  rw [hsent, List.cons_append, List.cons_append, List.append_assoc]
  rfl

end Sent

section Printed

/-- `%f` of the negated price, as a number. -/
def printedValue (v : ℚ) : ℚ :=
  (if v ≤ 0 then 1 else -1) * ((roundEven (toDouble |v| * 10 ^ 6) : ℚ) / 10 ^ 6)

theorem printSix_head (x : ℚ) : (printSix x).head? ≠ some 45 ∧ (printSix x).head? ≠ some 43 := by
  rw [printSix]
  have hne := decimalNat_ne_nil (roundEven (x * 10 ^ 6) / 10 ^ 6)
  have hall := all_digits_decimalNat (roundEven (x * 10 ^ 6) / 10 ^ 6)
  obtain ⟨d, ds, hds⟩ := List.exists_cons_of_ne_nil hne
  have hd : isDigit d := hall d (hds ▸ List.mem_cons_self)
  rw [hds, List.cons_append, List.head?_cons]
  constructor <;> rintro ⟨⟩ <;> exact absurd hd (by decide)

theorem decimalValue_printSix (x : ℚ) : decimalValue (printSix x) = unsignedValue (printSix x) := by
  obtain ⟨h45, h43⟩ := printSix_head x
  rw [decimalValue.eq_def]
  split
  · rename_i heq
    rw [heq] at h45
    exact absurd rfl h45
  · rename_i heq
    rw [heq] at h43
    exact absurd rfl h43
  · rfl

/-- What `%f` prints is read back, a zero of either sign as zero. -/
theorem decimalValue_negatedFloat {price : Bytes} {v w : ℚ} (hv : decimalValue price = some v)
    (hw : decimalValue (negatedFloat price) = some w) : w = printedValue v := by
  have hlead := leadingValue_of_decimalValue hv
  have hsign := decimalValue_sign hv
  rw [negatedFloat, dropWhile_of_decimalValue hv, hlead] at hw
  have hround := unsignedValue_printSix (toDouble |v|)
  by_cases hfin : toDouble |v| < 2 ^ 1024
  · rw [if_pos hfin] at hw
    by_cases hneg : price.head? = some 45
    · rw [if_pos hneg] at hsign hw
      rw [List.nil_append, decimalValue_printSix, hround] at hw
      rw [printedValue, if_pos hsign, one_mul]
      exact (Option.some.inj hw).symm
    · rw [if_neg hneg] at hsign hw
      rw [List.singleton_append, decimalValue, hround] at hw
      rw [← Option.some.inj hw, printedValue]
      rcases hsign.eq_or_lt with rfl | hpos
      · rw [abs_zero, toDouble_zero, zero_mul, roundEven_zero]
        norm_num
      · rw [if_neg (not_le.2 hpos)]
        ring
  · have hinf : decimalValue ([] ++ ascii "inf") = none ∧ decimalValue ([45] ++ ascii "inf") = none :=
      ⟨rfl, rfl⟩
    rw [if_neg hfin] at hw
    split_ifs at hw
    · rw [hinf.1] at hw
      cases hw
    · rw [hinf.2] at hw
      cases hw

/-- The price prints as it stands. -/
theorem printed_iff {c : Charge} {v : ℚ} (hv : decimalValue c.price = some v) :
    c.Printed ↔ printedValue v = -v := by
  have hnonneg : 0 ≤ toDouble |v| * 10 ^ 6 := mul_nonneg (toDouble_nonneg _) (by norm_num)
  have hdist : ∀ n : ℕ, |v| = n / 10 ^ 6 →
      |toDouble |v| * 10 ^ 6 - n| = |toDouble (abs v) - abs v| * 10 ^ 6 := fun n hn => by
    have heq : toDouble |v| * 10 ^ 6 - n = (toDouble |v| - |v|) * 10 ^ 6 := by
      rw [sub_mul, sub_right_inj, hn]
      field_simp
    rw [heq, abs_mul, abs_of_pos (by norm_num : (0 : ℚ) < 10 ^ 6)]
  have hround : printedValue v = -v ↔ ((roundEven (toDouble |v| * 10 ^ 6) : ℚ) / 10 ^ 6) = |v| := by
    rw [printedValue]
    split_ifs with hle
    · rw [one_mul, abs_of_nonpos hle]
    · rw [abs_of_pos (not_le.1 hle), neg_one_mul, neg_inj]
  rw [hround]
  constructor
  · rintro ⟨v', n, hv', hn, hnear⟩
    obtain rfl : v = v' := Option.some.inj (hv.symm.trans hv')
    have hround : roundEven (toDouble |v| * 10 ^ 6) = n := by
      rw [roundEven_eq_iff hnonneg, hdist n hn]
      refine hnear.imp (fun h => ?_) fun h => ⟨?_, h.2⟩
      · linarith
      · rw [h.1]
        norm_num
    rw [hround, hn]
  · intro h
    refine ⟨v, _, hv, h.symm, ?_⟩
    have hnear := roundEven_near hnonneg
    rw [hdist _ h.symm] at hnear
    refine hnear.imp (fun h => ?_) fun h => ⟨?_, h.2⟩
    · linarith
    · linarith [h.1]

end Printed

section Keys

/-- The parts of the key have no colon. -/
def PlainKey (k : RedisKey) : Prop := (∀ p ∈ keyParts k, Plain p) ∧ keyParts k ≠ []

theorem splitOn_keyText {k : RedisKey} (h : PlainKey k) : (keyText k).splitOn 58 = keyParts k :=
  List.splitOn_intercalate 58 h.1 h.2

theorem keyText_eq_iff {k l : RedisKey} (hk : PlainKey k) (hl : PlainKey l) :
    keyText k = keyText l ↔ keyParts k = keyParts l := by
  refine ⟨fun h => ?_, fun h => by rw [keyText, keyText, h]⟩
  rw [← splitOn_keyText hk, ← splitOn_keyText hl, h]

theorem plain_words : Plain (ascii "usedmoney") ∧ Plain (ascii "day") ∧ Plain (ascii "hours") ∧
    Plain (ascii "order") ∧ Plain (ascii "money") := by decide

variable {o a t : Bytes}

theorem plainKey_day (ho : Plain o) : PlainKey (.usedmoneyDay o) :=
  ⟨by simp [keyParts, ho, plain_words], by simp [keyParts]⟩

theorem plainKey_adDay (ho : Plain o) (ha : Plain a) : PlainKey (.usedmoneyAdDay o a) :=
  ⟨by simp [keyParts, ho, ha, plain_words], by simp [keyParts]⟩

theorem plainKey_hours (ho : Plain o) (ht : Plain t) : PlainKey (.usedmoneyHours o t) :=
  ⟨by simp [keyParts, ho, ht, plain_words], by simp [keyParts]⟩

theorem plainKey_adHours (ho : Plain o) (ha : Plain a) (ht : Plain t) :
    PlainKey (.usedmoneyAdHours o a t) :=
  ⟨by simp [keyParts, ho, ha, ht, plain_words], by simp [keyParts]⟩

theorem plainKey_money (ho : Plain o) : PlainKey (.orderMoney o) :=
  ⟨by simp [keyParts, ho, plain_words], by simp [keyParts]⟩

end Keys

section Booked

/-- The sum of the bookings chosen. -/
def sumOf (P : Bytes → Bytes → Bool) (bs : List Booking) : ℚ :=
  ((bs.filter fun b => P b.key b.field).map (·.amount)).sum

variable {P : Bytes → Bytes → Bool}

@[simp] theorem sumOf_nil : sumOf P [] = 0 := rfl

@[simp] theorem sumOf_cons (b : Booking) (bs : List Booking) :
    sumOf P (b :: bs) = (if P b.key b.field then b.amount else 0) + sumOf P bs := by
  rw [sumOf, List.filter_cons]
  split_ifs
  · rw [List.map_cons, List.sum_cons]
    rfl
  · rw [zero_add]
    rfl

@[simp] theorem sumOf_append (bs bs' : List Booking) :
    sumOf P (bs ++ bs') = sumOf P bs + sumOf P bs' := by
  rw [sumOf, List.filter_append, List.map_append, List.sum_append]
  rfl

theorem total_eq (s : Ledger) : s.total P = sumOf P s.bookings := rfl

/-- The bookings of the put-in model at a price. -/
def Charge.modelBookings (c : Charge) (v : ℚ) : List Booking :=
  if c.model.head? = some 49 then [⟨keyText (.usedmoneyAdDay c.orderId c.adId), c.t, v⟩]
  else if c.model.head? = some 50 then
    [⟨keyText (.usedmoneyHours c.orderId c.t), twoDigits c.h, v⟩,
      ⟨keyText (.usedmoneyAdHours c.orderId c.adId c.t), twoDigits c.h, v⟩]
  else []

/-- What a call books. -/
structure Booked (s : Ledger) (c : Charge) (v : ℚ) (s' : Ledger) : Prop where
  charges : s'.charges = s.charges ++ [(c, v)]
  bookings : ∃ us, (us = [] ∨
      us = [⟨keyText (.orderMoney c.orderId), ascii "unallocated_balance", printedValue v⟩]) ∧
    s'.bookings = s.bookings ++ (⟨keyText (.usedmoneyDay c.orderId), c.t, v⟩ ::
      c.modelBookings v ++ us ++
        [⟨keyText (.orderMoney c.orderId), ascii "balance", printedValue v⟩])

theorem mapM_byModel (c : Charge) {v : ℚ} (hv : decimalValue c.price = some v) :
    c.byModel.mapM book = some (c.modelBookings v) := by
  rw [Charge.byModel, Charge.modelBookings]
  split_ifs
  · simp [book, hv]
  · simp [book, hv]
  · rfl

theorem bookCharge_spec (X : Externals) (s : Ledger) {c : Charge} (hc : c.Accepted) :
    ∃ v s', decimalValue c.price = some v ∧ bookCharge X s c = some s' ∧ Booked s c v s' := by
  obtain ⟨v, hv⟩ := Option.isSome_iff_exists.1 hc.price
  obtain ⟨w, hw⟩ := Option.isSome_iff_exists.1 hc.printed
  have hwv := decimalValue_negatedFloat hv hw
  subst hwv
  obtain ⟨us, hus, hsent⟩ := sent_eq X c
  have hbooked : ∃ bs, us.mapM book = some bs ∧ (bs = [] ∨
      bs = [⟨keyText (.orderMoney c.orderId), ascii "unallocated_balance", printedValue v⟩]) := by
    rcases hus with rfl | rfl
    · exact ⟨[], rfl, Or.inl rfl⟩
    · exact ⟨_, by simp [Charge.unallocated, book, hw], Or.inr rfl⟩
  obtain ⟨bs, hbs, hcases⟩ := hbooked
  refine ⟨v, ⟨s.bookings ++ (⟨keyText (.usedmoneyDay c.orderId), c.t, v⟩ ::
      c.modelBookings v ++ bs ++
        [⟨keyText (.orderMoney c.orderId), ascii "balance", printedValue v⟩]),
    s.charges ++ [(c, v)]⟩, hv, ?_, rfl, bs, hcases, rfl⟩
  rw [bookCharge, hsent, hv]
  simp [mapM_byModel c hv, hbs, book, hv, hw]

end Booked

section Effects

variable {s s' : Ledger} {c : Charge} {v : ℚ} {o a : Bytes}

theorem words_ne : ascii "usedmoney" ≠ ascii "order" ∧ ascii "order" ≠ ascii "usedmoney" ∧
    ascii "hours" ≠ ascii "day" ∧ ascii "unallocated_balance" ≠ ascii "balance" := by decide

theorem Booked.charged (h : Booked s c v s') (P : Charge → Bool) :
    s'.charged P = s.charged P + if P c then v else 0 := by
  rw [Ledger.charged, h.charges, List.filter_append, List.map_append, List.sum_append,
    List.filter_singleton]
  split_ifs with hP <;> simp [Ledger.charged, hP]

/-- What a call adds under the keys and fields chosen. -/
theorem Booked.total (h : Booked s c v s') (P : Bytes → Bytes → Bool)
    (hun : P (keyText (.orderMoney c.orderId)) (ascii "unallocated_balance") = false) :
    s'.total P = s.total P +
      ((if P (keyText (.usedmoneyDay c.orderId)) c.t then v else 0) + sumOf P (c.modelBookings v) +
        if P (keyText (.orderMoney c.orderId)) (ascii "balance") then printedValue v else 0) := by
  obtain ⟨us, hus, hbookings⟩ := h.bookings
  have hzero : sumOf P us = 0 := by
    rcases hus with rfl | rfl
    · rfl
    · rw [sumOf_cons, hun, if_neg (by decide), zero_add]
      rfl
  rw [total_eq, total_eq, hbookings, sumOf_append, sumOf_append, sumOf_append, sumOf_cons, hzero,
    sumOf_cons, sumOf_nil, add_zero, add_zero]

/-- The keys of a call against a further one. -/
structure Against (c : Charge) (q : RedisKey) : Prop where
  day : keyText (.usedmoneyDay c.orderId) = keyText q ↔
    keyParts (.usedmoneyDay c.orderId) = keyParts q
  adDay : keyText (.usedmoneyAdDay c.orderId c.adId) = keyText q ↔
    keyParts (.usedmoneyAdDay c.orderId c.adId) = keyParts q
  hours : keyText (.usedmoneyHours c.orderId c.t) = keyText q ↔
    keyParts (.usedmoneyHours c.orderId c.t) = keyParts q
  adHours : keyText (.usedmoneyAdHours c.orderId c.adId c.t) = keyText q ↔
    keyParts (.usedmoneyAdHours c.orderId c.adId c.t) = keyParts q
  money : keyText (.orderMoney c.orderId) = keyText q ↔ keyParts (.orderMoney c.orderId) = keyParts q

theorem Charge.Accepted.against (hc : c.Accepted) {q : RedisKey} (hq : PlainKey q) : Against c q :=
  ⟨keyText_eq_iff (plainKey_day hc.order) hq, keyText_eq_iff (plainKey_adDay hc.order hc.ad) hq,
    keyText_eq_iff (plainKey_hours hc.order hc.date.1) hq,
    keyText_eq_iff (plainKey_adHours hc.order hc.ad hc.date.1) hq,
    keyText_eq_iff (plainKey_money hc.order) hq⟩

theorem Booked.used (h : Booked s c v s') (hc : c.Accepted) (ho : Plain o) :
    s'.used o = s.used o + if c.orderId = o then v else 0 := by
  obtain ⟨hday, hadDay, hhours, hadHours, hmoney⟩ := hc.against (plainKey_day ho)
  simp only [keyParts, List.cons.injEq, words_ne, and_true, true_and, reduceCtorEq, and_false,
    false_and] at hday hadDay hhours hadHours hmoney
  rw [Ledger.used, h.total _ (by simp [hmoney]), ← Ledger.used, Charge.modelBookings]
  split_ifs <;> simp_all

theorem Booked.balance (h : Booked s c v s') (hc : c.Accepted) (ho : Plain o) :
    s'.balance o = s.balance o + if c.orderId = o then printedValue v else 0 := by
  obtain ⟨hday, hadDay, hhours, hadHours, hmoney⟩ := hc.against (plainKey_money ho)
  simp only [keyParts, List.cons.injEq, words_ne, and_true, true_and, reduceCtorEq, and_false,
    false_and] at hday hadDay hhours hadHours hmoney
  rw [Ledger.balance, h.total _ (by simp [words_ne]), ← Ledger.balance, Charge.modelBookings]
  split_ifs <;> simp_all

theorem Booked.adDay (h : Booked s c v s') (hc : c.Accepted) (ho : Plain o) (ha : Plain a) :
    s'.adDay o a = s.adDay o a +
      if c.orderId = o ∧ c.adId = a ∧ c.model.head? = some 49 then v else 0 := by
  obtain ⟨hday, hadDay, hhours, hadHours, hmoney⟩ := hc.against (plainKey_adDay ho ha)
  simp only [keyParts, List.cons.injEq, words_ne, hc.date.2, and_true, true_and, reduceCtorEq,
    and_false] at hday hadDay hhours hadHours hmoney
  rw [Ledger.adDay, h.total _ (by simp [hmoney]), ← Ledger.adDay, Charge.modelBookings]
  split_ifs <;> simp_all

theorem Booked.adHours (h : Booked s c v s') (hc : c.Accepted) :
    s'.adHours o a = s.adHours o a +
      if c.orderId = o ∧ c.adId = a ∧ c.model.head? = some 50 then v else 0 := by
  have hday := splitOn_keyText (plainKey_day hc.order)
  have hadDay := splitOn_keyText (plainKey_adDay hc.order hc.ad)
  have hhours := splitOn_keyText (plainKey_hours hc.order hc.date.1)
  have hadHours := splitOn_keyText (plainKey_adHours hc.order hc.ad hc.date.1)
  have hmoney := splitOn_keyText (plainKey_money hc.order)
  simp only [keyParts] at hday hadDay hhours hadHours hmoney
  rw [Ledger.adHours, h.total _ (by simp [hmoney]), ← Ledger.adHours, Charge.modelBookings]
  split_ifs <;> simp_all

end Effects

section Small

variable {c : Charge} {v : ℚ}

/-- A price with at most six decimals below `2 ^ 33` prints as it stands. -/
theorem printed_of_small (hv : decimalValue c.price = some v) {n : ℕ}
    (hn : |v| = n / 10 ^ 6) (hlt : |v| < 2 ^ 33) : c.Printed := by
  have hclose := toDouble_close (abs_nonneg v) (n := 33) (by exact_mod_cast hlt) (by decide)
  refine ⟨v, n, hv, hn, Or.inl (hclose.trans_lt ?_)⟩
  norm_num

/-- `%f` is finite there. -/
theorem printed_isSome (hv : decimalValue c.price = some v) (hlt : |v| < 2 ^ 33) :
    (decimalValue (negatedFloat c.price)).isSome := by
  have hclose := toDouble_close (abs_nonneg v) (n := 33) (by exact_mod_cast hlt) (by decide)
  have hfin : toDouble |v| < 2 ^ 1024 := by
    have hle := le_abs_self (toDouble |v| - |v|)
    have hsmall : (2 : ℚ) ^ ((33 : ℤ) - 54) ≤ 1 := by norm_num
    calc toDouble |v| ≤ 2 ^ 33 + 1 := by linarith
      _ ≤ 2 ^ 34 := by norm_num
      _ < 2 ^ 1024 := pow_lt_pow_right₀ one_lt_two (by decide)
  have hprint := unsignedValue_printSix (toDouble |v|)
  rw [negatedFloat, leadingValue_of_decimalValue hv, dropWhile_of_decimalValue hv, if_pos hfin]
  split_ifs
  · rw [List.nil_append, decimalValue_printSix, hprint]
    rfl
  · rw [List.singleton_append, decimalValue, hprint]
    rfl

end Small

section Run

variable {X : Externals} {s s' : Ledger} {c : Charge} {v : ℚ}

theorem conserved_empty : Conserved .empty :=
  ⟨fun _ _ => by simp [Ledger.used, Ledger.balance, Ledger.total, Ledger.empty],
    fun _ _ _ _ => by simp [Ledger.adDay, Ledger.charged, Ledger.total, Ledger.empty],
    fun _ _ _ _ => by simp [Ledger.adHours, Ledger.charged, Ledger.total, Ledger.empty]⟩

/-- A call keeps the sums together exactly when its price prints as it stands. -/
theorem Booked.conserved_iff (h : Booked s c v s') (hc : c.Accepted) (hs : Conserved s) :
    Conserved s' ↔ printedValue v = -v := by
  constructor
  · intro hs'
    have hbefore := hs.orders c.orderId hc.order
    have hafter := hs'.orders c.orderId hc.order
    rw [h.used hc hc.order, h.balance hc hc.order, if_pos rfl, if_pos rfl] at hafter
    linarith
  · intro hv
    refine ⟨fun o ho => ?_, fun o a ho ha => ?_, fun o a ho ha => ?_⟩
    · rw [h.used hc ho, h.balance hc ho, hs.orders o ho, hv]
      split_ifs <;> ring
    · rw [h.adDay hc ho ha, h.charged, hs.days o a ho ha]
      simp only [Bool.and_eq_true, decide_eq_true_eq, and_assoc]
    · rw [h.adHours hc, h.charged, hs.hours o a ho ha]
      simp only [Bool.and_eq_true, decide_eq_true_eq, and_assoc]

/-- Over every sequence of calls that Redis accepts. -/
theorem money_conserved_iff (X : Externals) (cs : List Charge) (hcs : ∀ c ∈ cs, c.Accepted) :
    Always (bookCharge X) Conserved .empty cs ↔ ∀ c ∈ cs, c.Printed := by
  have hstep : ∀ (s : Ledger) (c : Charge), c.Accepted → ∃ t, bookCharge X s c = some t :=
    fun s c hc => by
      obtain ⟨v, t, -, ht, -⟩ := bookCharge_spec X s hc
      exact ⟨t, ht⟩
  rw [← throughout_const hstep hcs]
  refine always_iff_throughout_within (A := fun _ c => c.Accepted) (fun _ h => h)
    (fun s c hs hc hp => ?_) (fun s c hs hc hp t ht hcons => ?_) conserved_empty
    ((throughout_const hstep hcs).2 hcs)
  · obtain ⟨v, t, hv, ht, hb⟩ := bookCharge_spec X s hc
    exact ⟨t, ht, (hb.conserved_iff hc hs).2 ((printed_iff hv).1 hp)⟩
  · obtain ⟨v, u, hv, hu, hb⟩ := bookCharge_spec X s hc
    obtain rfl : t = u := Option.some.inj (ht.symm.trans hu)
    exact hp ((printed_iff hv).2 ((hb.conserved_iff hc hs).1 hcons))

/-- A call for ad 7 of order 3 at a price, on the day and under the put-in model given. -/
def adSeven (model price : Bytes) : Charge where
  orderId := ascii "3"
  adId := ascii "7"
  t := ascii "2016-05-01"
  h := 9
  reply := fun
    | .get (.adPutinmodeltype _) => some (.str model)
    | .get (.adPrice _) => some (.str price)
    | _ => some .nil

theorem adSeven_accepted (model : Bytes) {price : Bytes} {v : ℚ}
    (hv : decimalValue price = some v) (hlt : |v| < 2 ^ 33) : (adSeven model price).Accepted :=
  ⟨show Plain (ascii "3") by decide, show Plain (ascii "7") by decide,
    show Plain (ascii "2016-05-01") ∧ ascii "2016-05-01" ≠ ascii "day" by decide,
    Option.isSome_iff_exists.2 ⟨v, hv⟩, printed_isSome (c := adSeven model price) hv hlt⟩

/-- A charge by the day and one by the hour. -/
theorem money_conserved_iff_two :
    Always (bookCharge ⟨fun _ => none, fun _ => none, id, id⟩) Conserved .empty
      [adSeven (ascii "1") (ascii "12.5"), adSeven (ascii "2") (ascii "0.000001")] := by
  have h1 : decimalValue (ascii "12.5") = some (25 / 2) := by
    have hval : decimalValue (ascii "12.5") =
      some (((125 : ℕ) : ℚ) * 10 ^ ((0 : ℤ) - ((1 : ℕ) : ℤ))) := rfl
    rw [hval]
    norm_num
  have h2 : decimalValue (ascii "0.000001") = some (1 / 10 ^ 6) := by
    have hval : decimalValue (ascii "0.000001") =
      some (((1 : ℕ) : ℚ) * 10 ^ ((0 : ℤ) - ((6 : ℕ) : ℤ))) := rfl
    rw [hval]
    norm_num
  have hlt1 : |(25 / 2 : ℚ)| < 2 ^ 33 := by rw [abs_of_pos (by norm_num)]; norm_num
  have hlt2 : |(1 / 10 ^ 6 : ℚ)| < 2 ^ 33 := by rw [abs_of_pos (by norm_num)]; norm_num
  refine (money_conserved_iff _ _ ?_).2 ?_
  · rw [List.forall_mem_cons, List.forall_mem_singleton]
    exact ⟨adSeven_accepted _ h1 hlt1, adSeven_accepted _ h2 hlt2⟩
  · rw [List.forall_mem_cons, List.forall_mem_singleton]
    refine ⟨printed_of_small (n := 12500000) h1 ?_ hlt1, printed_of_small (n := 1) h2 ?_ hlt2⟩
    · rw [abs_of_pos (by norm_num)]
      norm_num
    · rw [abs_of_pos (by norm_num)]
      norm_num

/-- Less than half a millionth is used but leaves the balance as it is. -/
theorem price_lost : ¬ ∀ (X : Externals) (cs : List Charge), (∀ c ∈ cs, c.Accepted) →
    Always (bookCharge X) Conserved .empty cs := by
  intro hall
  have hv : decimalValue (ascii "0.0000004") = some (4 / 10 ^ 7) := by
    have hval : decimalValue (ascii "0.0000004") =
      some (((4 : ℕ) : ℚ) * 10 ^ ((0 : ℤ) - ((7 : ℕ) : ℤ))) := rfl
    rw [hval]
    norm_num
  have hc : (adSeven (ascii "1") (ascii "0.0000004")).Accepted :=
    adSeven_accepted _ hv (by rw [abs_of_pos (by norm_num)]; norm_num)
  let X : Externals := ⟨fun _ => none, fun _ => none, id, id⟩
  obtain ⟨-, t, ht, hconserved⟩ := hall X [_] (by simpa using hc)
  obtain ⟨v, u, hv', hu, hb⟩ := bookCharge_spec X .empty hc
  obtain rfl : t = u := Option.some.inj (ht.symm.trans hu)
  obtain ⟨w, n, hw, hn, -⟩ := (printed_iff hv').2 ((hb.conserved_iff hc conserved_empty).1 hconserved)
  -- the price is no number of millionths
  obtain rfl : 4 / 10 ^ 7 = w := Option.some.inj (hv.symm.trans hw)
  rw [abs_of_pos (by norm_num), eq_div_iff (by norm_num)] at hn
  norm_num at hn
  have hnat : (5 * n : ℚ) = 2 := by linarith
  norm_cast at hnat
  omega

end Run

end Doorhinges.Callback

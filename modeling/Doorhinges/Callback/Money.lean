import Doorhinges.Callback.Model
import Doorhinges.Lib.DecimalText
import Doorhinges.Lib.Machine
import Doorhinges.Lib.Runs

/-!
# The ledger of the charges

`DeductMoney` books the price as it stands under the keys of the money used, and the price
through a `double` and `%f` under the balance. The ledger lists what the commands of a
sequence of calls add, each sum exact.
-/
namespace Doorhinges.Callback

open Lib.CString
open Lib.Redis (Cmd Reply)
open Lib.Runs
open Lib.Machine
open Lib.Binary64
open Lib.DecimalText

/-- `%f` of `-atof(price)`. -/
def negatedFloat (price : Bytes) : Bytes :=
  let negative := (price.dropWhile isSpace).head? = some 45
  let magnitude := toDouble |leadingValue price|
  (if negative then [] else [45]) ++
    if magnitude < 2 ^ 1024 then printSix magnitude else ascii "inf"

/-- The parts of the money keys between their colons. -/
def keyParts : RedisKey → List Bytes
  | .usedmoneyDay orderId => [ascii "usedmoney", orderId, ascii "day"]
  | .usedmoneyAdDay orderId adId => [ascii "usedmoney", orderId, adId, ascii "day"]
  | .usedmoneyHours orderId day => [ascii "usedmoney", orderId, ascii "hours", day]
  | .usedmoneyAdHours orderId adId day => [ascii "usedmoney", orderId, adId, ascii "hours", day]
  | .orderMoney orderId => [ascii "order", orderId, ascii "money"]
  | _ => []

def keyText (k : RedisKey) : Bytes := [58].intercalate (keyParts k)

/-- A call of `DeductMoney` and what Redis answers to its reads. -/
structure Charge where
  orderId : Bytes
  adId : Bytes
  t : Bytes
  h : Int
  reply : Command → Option Reply

namespace Charge

variable (c : Charge)

def model : Bytes := (stringReply (c.reply (.get (.adPutinmodeltype c.adId)))).getD []

def price : Bytes := (stringReply (c.reply (.get (.adPrice c.adId)))).getD []

/-- The commands the call sends. -/
def sent (X : Externals) : List Command :=
  sentBy c.reply (DeductMoney { X with negatedFloat := negatedFloat } c.orderId c.adId c.t c.h)

end Charge

/-- What one `HINCRBYFLOAT` adds. -/
structure Booking where
  key : Bytes
  field : Bytes
  amount : ℚ

/-- The bookings so far, and the calls with their prices. -/
structure Ledger where
  bookings : List Booking
  charges : List (Charge × ℚ)

def Ledger.empty : Ledger := ⟨[], []⟩

/-- An increment that is no decimal number is refused. -/
def book : Command → Option Booking
  | .hincrbyfloat k f v => (decimalValue v).map fun q => ⟨keyText k, f, q⟩
  | _ => none

/-- A call all of whose commands succeed. -/
def bookCharge (X : Externals) (s : Ledger) (c : Charge) : Option Ledger := do
  let bookings ← (c.sent X).mapM book
  let price ← decimalValue c.price
  some ⟨s.bookings ++ bookings, s.charges ++ [(c, price)]⟩

namespace Ledger

variable (s : Ledger)

/-- The sum under the keys and fields chosen. -/
def total (P : Bytes → Bytes → Bool) : ℚ :=
  ((s.bookings.filter fun b => P b.key b.field).map (·.amount)).sum

/-- The sum of the prices of the calls chosen. -/
def charged (P : Charge → Bool) : ℚ := ((s.charges.filter fun c => P c.1).map (·.2)).sum

/-- The money used of an order, over all days. -/
def used (orderId : Bytes) : ℚ := s.total fun k _ => k = keyText (.usedmoneyDay orderId)

/-- What has been added to the balance of an order. -/
def balance (orderId : Bytes) : ℚ :=
  s.total fun k f => k = keyText (.orderMoney orderId) && f = ascii "balance"

def adDay (orderId adId : Bytes) : ℚ := s.total fun k _ => k = keyText (.usedmoneyAdDay orderId adId)

/-- The money used of an ad by the hour, over all days. -/
def adHours (orderId adId : Bytes) : ℚ :=
  s.total fun k _ => (k.splitOn 58).dropLast = [ascii "usedmoney", orderId, adId, ascii "hours"]

end Ledger

/-- A name without a colon. -/
def Plain (name : Bytes) : Prop := 58 ∉ name

instance (name : Bytes) : Decidable (Plain name) := inferInstanceAs (Decidable (58 ∉ name))

/-- The money used of each order is what its balance has lost, and the money used of each ad is
the sum of its charges under the model. -/
structure Conserved (s : Ledger) : Prop where
  orders : ∀ o, Plain o → s.used o = -s.balance o
  days : ∀ o a, Plain o → Plain a →
    s.adDay o a = s.charged fun c => c.orderId = o && c.adId = a && c.model.head? = some 49
  hours : ∀ o a, Plain o → Plain a →
    s.adHours o a = s.charged fun c => c.orderId = o && c.adId = a && c.model.head? = some 50

/-- The ids have no colon, the day is a date, and Redis takes both texts of the price. -/
structure Charge.Accepted (c : Charge) : Prop where
  order : Plain c.orderId
  ad : Plain c.adId
  date : Plain c.t ∧ c.t ≠ ascii "day"
  price : (decimalValue c.price).isSome
  printed : (decimalValue (negatedFloat c.price)).isSome

/-- The price has no more than six decimals, and the `double` next to it is nearer than half a
millionth; halfway it prints as the price when its millionths are even. -/
def Charge.Printed (c : Charge) : Prop :=
  ∃ v n, decimalValue c.price = some v ∧ |v| = (n : ℕ) / 10 ^ 6 ∧
    (|toDouble (abs v) - abs v| < 1 / (2 * 10 ^ 6) ∨
      |toDouble (abs v) - abs v| = 1 / (2 * 10 ^ 6) ∧ Even n)

end Doorhinges.Callback

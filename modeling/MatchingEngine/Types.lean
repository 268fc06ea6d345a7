import Mathlib.Data.Int.Order.Basic
import Mathlib.Tactic.Linarith

/-!
# Types of the matching engine

The value types of `types.hpp`, `order.hpp`, `price_domain.hpp` and the records of `order_book.hpp`. Ids, quantities and
indices are natural numbers; where a `std::uint64_t` of the source can wrap, the arithmetic is `add64` and `sub64`. Prices are
integers. An argument of an enumeration type is its underlying byte, since callers can pass any: `Side.ofRaw` and
`TimeInForce.ofRaw` say which bytes name a value.
-/

namespace MatchingEngine

/-! ## Machine arithmetic -/

/-- `a + b` on `std::uint64_t`. -/
def add64 (a b : Nat) : Nat := (a + b) % 2 ^ 64

/-- `a - b` on `std::uint64_t`. -/
def sub64 (a b : Nat) : Nat := (a + (2 ^ 64 - b % 2 ^ 64)) % 2 ^ 64

/-- A sum below `2 ^ 64` does not wrap around. -/
theorem add64_eq {a b : Nat} (h : a + b < 2 ^ 64) : add64 a b = a + b := Nat.mod_eq_of_lt h

/-- The difference from a larger quantity does not wrap around. -/
theorem sub64_eq {a b : Nat} (h : b ≤ a) (ha : a < 2 ^ 64) : sub64 a b = a - b := by
  unfold sub64
  omega

/-- A difference is a quantity of 64 bits. -/
theorem sub64_lt (a b : Nat) : sub64 a b < 2 ^ 64 := Nat.mod_lt _ (by decide)

/-- So is a sum. -/
theorem add64_lt (a b : Nat) : add64 a b < 2 ^ 64 := Nat.mod_lt _ (by decide)

/-- Adding to a wrapped sum wraps the sum. -/
theorem add64_mod (s q : Nat) : add64 (s % 2 ^ 64) q = (s + q) % 2 ^ 64 := by
  unfold add64
  omega

/-- Taking from a wrapped sum wraps what is left. -/
theorem sub64_mod {s q : Nat} (h : q ≤ s) : sub64 (s % 2 ^ 64) q = (s - q) % 2 ^ 64 := by
  unfold sub64
  omega

/-! ## Sides and enumerations -/

/-- The named values of `Side`. -/
inductive Side where
  | buy
  | sell
  deriving DecidableEq, Repr

/-- The side a byte names: `is_valid_side` accepts exactly these bytes. -/
def Side.ofRaw (raw : UInt8) : Option Side := if raw = 0 then some .buy else if raw = 1 then some .sell else none

/-- The byte of a side. -/
def Side.raw : Side → UInt8
  | .buy => 0
  | .sell => 1

/-- The byte of a side names the side. -/
@[simp] theorem Side.ofRaw_raw (s : Side) : Side.ofRaw s.raw = some s := by cases s <;> rfl

/-- `opposite_side`. -/
def Side.opposite : Side → Side
  | .buy => .sell
  | .sell => .buy

/-- The opposite of the opposite side is the side. -/
@[simp] theorem Side.opposite_opposite (s : Side) : s.opposite.opposite = s := by cases s <;> rfl

/-- The opposite side is another one. -/
theorem Side.opposite_ne (s : Side) : s.opposite ≠ s := by cases s <;> exact nofun

/-- The named values of `TimeInForce`. -/
inductive TimeInForce where
  | gtc
  | ioc
  | fok
  deriving DecidableEq, Repr

/-- The time in force a byte names: `is_valid_time_in_force` accepts exactly these bytes. -/
def TimeInForce.ofRaw (raw : UInt8) : Option TimeInForce :=
  if raw = 0 then some .gtc else if raw = 1 then some .ioc else if raw = 2 then some .fok else none

/-- The byte of a time in force. -/
def TimeInForce.raw : TimeInForce → UInt8
  | .gtc => 0
  | .ioc => 1
  | .fok => 2

/-- The byte of a time in force names it. -/
@[simp] theorem TimeInForce.ofRaw_raw (t : TimeInForce) : TimeInForce.ofRaw t.raw = some t := by cases t <;> rfl

/-- `crosses`: whether a maker level is at or better than the taker's limit. -/
def crosses (takerSide : Side) (makerLevel limitLevel : Nat) : Bool :=
  match takerSide with
  | .buy => makerLevel ≤ limitLevel
  | .sell => limitLevel ≤ makerLevel

inductive RejectReason where
  | none
  | invalidSide
  | invalidTimeInForce
  | invalidHandle
  | zeroQuantity
  | quantityTooLarge
  | priceOutOfDomain
  | insufficientTradeCapacity
  | orderCapacityExhausted
  | fokNotFillable
  | postOnlyWouldCross
  | selfTradePrevented
  | invalidDisplayQuantity
  | invalidTradingState
  deriving DecidableEq, Repr

inductive SelfTradePolicy where
  | none
  | cancelTaker
  deriving DecidableEq, Repr

inductive AllocationMode where
  | fifo
  | thresholdProRata
  deriving DecidableEq, Repr

inductive TradingState where
  | continuous
  | openingAuction
  deriving DecidableEq, Repr

inductive AuctionError where
  | none
  | notOpeningAuction
  | insufficientTradeCapacity
  deriving DecidableEq, Repr

inductive CancelReason where
  | none
  | invalidHandle
  deriving DecidableEq, Repr

inductive AmendReason where
  | none
  | invalidHandle
  | zeroQuantity
  | quantityTooLarge
  | increaseNotAllowed
  deriving DecidableEq, Repr

/-! ## Records -/

/-- `kInvalidIndex`: the index no slot has. -/
def kInvalidIndex : Nat := 2 ^ 32 - 1

structure Handle where
  index : Nat
  generation : Nat
  deriving DecidableEq, Repr

/-- `kInvalidHandle` of `order_book.cpp`. -/
def kInvalidHandle : Handle := ⟨kInvalidIndex, 0⟩

structure Trade where
  buyId : Nat
  sellId : Nat
  price : Int
  quantity : Nat
  deriving DecidableEq, Repr

/-- `make_trade`: the taker's id goes to its own side. -/
def makeTrade (takerSide : Side) (takerId makerId : Nat) (price : Int) (quantity : Nat) : Trade :=
  match takerSide with
  | .buy => ⟨takerId, makerId, price, quantity⟩
  | .sell => ⟨makerId, takerId, price, quantity⟩

structure LevelInfo where
  aggregateQuantity : Nat
  orderCount : Nat
  deriving DecidableEq, Repr

structure OrderInfo where
  id : Nat
  side : Side
  price : Int
  remaining : Nat
  deriving DecidableEq, Repr

structure SubmitResult where
  rejectReason : RejectReason
  executedQuantity : Nat
  unfilledQuantity : Nat
  tradeCount : Nat
  restingHandle : Handle
  deriving DecidableEq, Repr

structure StopActivation where
  orderId : Nat
  executedQuantity : Nat
  unfilledQuantity : Nat
  restingHandle : Handle
  deriving DecidableEq, Repr

structure CancelResult where
  rejectReason : CancelReason
  orderId : Nat
  canceledQuantity : Nat
  deriving DecidableEq, Repr

structure AmendResult where
  rejectReason : AmendReason
  orderId : Nat
  previousQuantity : Nat
  newQuantity : Nat
  handle : Handle
  deriving DecidableEq, Repr

structure AuctionResult where
  error : AuctionError
  clearingPrice : Option Int
  executedQuantity : Nat
  tradeCount : Nat
  deriving DecidableEq, Repr

/-- `rejected`: the result of a submission that was refused. -/
def rejected (reason : RejectReason) (quantity : Nat) : SubmitResult := ⟨reason, 0, quantity, 0, kInvalidHandle⟩

/-! ## Price domain -/

/-- `PriceDomain`: the constructor's checks are its fields, so a domain whose prices leave `std::int64_t` cannot be built. -/
structure PriceDomain where
  minimum : Int
  tickCount : Nat
  tickCount_pos : 0 < tickCount
  tickCount_lt : tickCount < 2 ^ 32
  minimum_ge : -2 ^ 63 ≤ minimum
  maximum_le : minimum + (tickCount - 1 : Nat) ≤ 2 ^ 63 - 1

namespace PriceDomain

variable (d : PriceDomain)

/-- The price of the last tick. -/
def maximum : Int := d.minimum + (d.tickCount - 1 : Nat)

def contains (price : Int) : Bool := d.minimum ≤ price ∧ price ≤ d.maximum

def indexOf (price : Int) : Option Nat := if d.contains price then some (price - d.minimum).toNat else none

def priceAt (index : Nat) : Option Int := if index < d.tickCount then some (d.minimum + index) else none

/-- The prices of a domain. -/
theorem contains_iff (p : Int) : d.contains p = true ↔ d.minimum ≤ p ∧ p < d.minimum + d.tickCount := by
  have := d.tickCount_pos
  rw [contains, maximum, decide_eq_true_iff]
  omega

/-- The level of a price is its distance from the lowest one. -/
theorem indexOf_eq_some {p : Int} {i : Nat} : d.indexOf p = some i ↔ i < d.tickCount ∧ p = d.minimum + i := by
  unfold indexOf
  split
  · rename_i h
    rw [contains_iff] at h
    rw [Option.some.injEq]
    omega
  · rename_i h
    rw [contains_iff] at h
    simp only [reduceCtorEq, false_iff]
    omega

/-- The price of a level is at its distance from the lowest one. -/
theorem priceAt_eq_some {p : Int} {i : Nat} : d.priceAt i = some p ↔ i < d.tickCount ∧ p = d.minimum + i := by
  unfold priceAt
  split
  · rename_i h
    rw [Option.some.injEq]
    exact ⟨fun e => ⟨h, e.symm⟩, fun e => e.2.symm⟩
  · rename_i h
    simp [h]

/-- Every level of a domain has a price. -/
theorem priceAt_of_lt {i : Nat} (h : i < d.tickCount) : d.priceAt i = some (d.minimum + i) := if_pos h

end PriceDomain

/-- `kMaximumPriceLevels`. -/
def kMaximumPriceLevels : Nat := 1000000

/-- What an `OrderBook` is constructed with. The checks the constructor makes (`checked_domain`, `checked_max_quantity`,
`checked_pro_rata_minimum` and the arena's `checked_capacity`) are fields. -/
structure BookConfig where
  domain : PriceDomain
  maxOrders : Nat
  maxOrderQuantity : Nat
  selfTradePolicy : SelfTradePolicy
  allocationMode : AllocationMode
  proRataMinimum : Nat
  ticks_le : domain.tickCount ≤ kMaximumPriceLevels
  maxOrders_lt : maxOrders < 2 ^ 32
  maxOrderQuantity_pos : 0 < maxOrderQuantity
  maxOrderQuantity_lt : maxOrderQuantity < 2 ^ 32
  fifo_minimum : allocationMode = .fifo → proRataMinimum = 0
  proRata_minimum : allocationMode = .thresholdProRata → 0 < proRataMinimum ∧ proRataMinimum ≤ maxOrderQuantity

/-- `checked_pro_rata_minimum`: the minimum an allocation mode keeps. -/
def checkedProRataMinimum : AllocationMode → Nat → Nat
  | .fifo, _ => 0
  | .thresholdProRata, minimum => minimum

/-- The checks of the `OrderBook` constructor: `none` where it throws. -/
def BookConfig.checked (domain : PriceDomain) (maxOrders maxOrderQuantity : Nat) (selfTradePolicy : SelfTradePolicy)
    (allocationMode : AllocationMode) (minimum : Nat) : Option BookConfig :=
  if ht : domain.tickCount ≤ kMaximumPriceLevels then
    if hq : 0 < maxOrderQuantity ∧ maxOrderQuantity < 2 ^ 32 then
      if ho : maxOrders < 2 ^ 32 then
        if hm : allocationMode = .thresholdProRata → 0 < minimum ∧ minimum ≤ maxOrderQuantity then
          some
            { domain, maxOrders, maxOrderQuantity, selfTradePolicy, allocationMode
              proRataMinimum := checkedProRataMinimum allocationMode minimum
              ticks_le := ht
              maxOrders_lt := ho
              maxOrderQuantity_pos := hq.1
              maxOrderQuantity_lt := hq.2
              fifo_minimum := fun h => by rw [h]; rfl
              proRata_minimum := fun h => by rw [h]; exact hm h }
        else none
      else none
    else none
  else none

end MatchingEngine

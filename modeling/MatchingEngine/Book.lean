import MatchingEngine.Arena
import MatchingEngine.Bitmap
import MatchingEngine.Lib.Comp

/-!
# The order book: state and primitives

The fields of `OrderBook` and the private operations of `order_book.cpp` that change them: intrusive queues at each level, the
dormant-stop list, resting and unlinking. A trade buffer is the list of the reports written so far, so `trade_count` is its length,
and `stop_activations_` with its count is a list.
-/

namespace MatchingEngine

open Function

structure PriceLevel where
  headIndex : Nat
  tailIndex : Nat
  aggregateQuantity : Nat
  orderCount : Nat
  deriving DecidableEq, Repr

/-- The level a book is constructed with. -/
def emptyLevel : PriceLevel := ⟨kInvalidIndex, kInvalidIndex, 0, 0⟩

/-- The level without the order between `previous` and `next`, and without the quantity `reduction`. -/
def PriceLevel.linkPast (p : PriceLevel) (previous next reduction : Nat) : PriceLevel where
  headIndex := if previous = kInvalidIndex then next else p.headIndex
  tailIndex := if next = kInvalidIndex then previous else p.tailIndex
  aggregateQuantity := sub64 p.aggregateQuantity reduction
  orderCount := p.orderCount - 1

/-- The level with the order between `previous` and `next` moved to its tail. -/
def PriceLevel.moveToTail (p : PriceLevel) (previous next index : Nat) : PriceLevel :=
  { p with headIndex := if previous = kInvalidIndex then next else p.headIndex, tailIndex := index }

/-- The level with an order of `remaining` added at its tail. -/
def PriceLevel.pushBack (p : PriceLevel) (index remaining : Nat) : PriceLevel where
  headIndex := if p.tailIndex = kInvalidIndex then index else p.headIndex
  tailIndex := index
  aggregateQuantity := add64 p.aggregateQuantity remaining
  orderCount := p.orderCount + 1

structure OrderBook where
  cfg : BookConfig
  levels : Side → Nat → PriceLevel
  occupancy : Side → HierarchicalBitmap
  arena : OrderArena
  traderIds : Nat → Nat
  displayQuantities : Nat → Nat
  displayedRemaining : Nat → Nat
  stopTriggerPrices : Nat → Int
  stopLimitPrices : Nat → Int
  stopPrevIndices : Nat → Nat
  stopNextIndices : Nat → Nat
  stopHead : Nat
  stopTail : Nat
  dormantStopCount : Nat
  stopActivations : List StopActivation
  lastExecutionPrice : Option Int
  tradingState : TradingState
  tradeReportIndices : Nat → Nat
  tradeReportEpochs : Nat → Nat
  tradeReportEpoch : Nat
  visitMarks : Nat → Nat
  visitEpoch : Nat

namespace OrderBook

/-- The constructor, once its arguments are checked; `none` where a bitmap's constructor throws. -/
def create (cfg : BookConfig) (tradingState : TradingState) : Option OrderBook :=
  (HierarchicalBitmap.create cfg.domain.tickCount).map fun bitmap =>
    { cfg, tradingState
      levels := fun _ _ => emptyLevel
      occupancy := fun _ => bitmap
      arena := OrderArena.create cfg.maxOrders
      traderIds := fun _ => 0
      displayQuantities := fun _ => 0
      displayedRemaining := fun _ => 0
      stopTriggerPrices := fun _ => 0
      stopLimitPrices := fun _ => 0
      stopPrevIndices := fun _ => 0
      stopNextIndices := fun _ => 0
      stopHead := kInvalidIndex
      stopTail := kInvalidIndex
      dormantStopCount := 0
      stopActivations := []
      lastExecutionPrice := none
      tradeReportIndices := fun _ => 0
      tradeReportEpochs := fun _ => 0
      tradeReportEpoch := 0
      visitMarks := fun _ => 0
      visitEpoch := 0 }

variable (b : OrderBook)

/-! ## Reading -/

/-- `level(side, index)`. -/
def level (side : Side) (index : Nat) : PriceLevel := b.levels side index

/-- A write through the reference `level` returns. -/
def setLevel (side : Side) (index : Nat) (value : PriceLevel) : OrderBook :=
  { b with levels := update b.levels side (update (b.levels side) index value) }

/-- A write through the reference `occupancy` returns. -/
def setOccupancy (side : Side) (value : HierarchicalBitmap) : OrderBook := { b with occupancy := update b.occupancy side value }

/-- The book with another arena. -/
def setArena (arena : OrderArena) : OrderBook := { b with arena }

/-- `displayed_remaining_[index] = value`. -/
def setDisplayed (index value : Nat) : OrderBook := { b with displayedRemaining := update b.displayedRemaining index value }

/-- `best_index`. -/
def bestIndex : Side → Option Nat
  | .buy => (b.occupancy .buy).lastSet
  | .sell => (b.occupancy .sell).firstSet

/-- `next_level`. -/
def nextLevel (side : Side) (current : Nat) : Option Nat :=
  match side with
  | .buy => if current = 0 then none else (b.occupancy .buy).previousSet (current - 1)
  | .sell => if b.cfg.domain.tickCount ≤ current + 1 then none else (b.occupancy .sell).nextSet (current + 1)

/-- `required_trade_capacity`. -/
def requiredTradeCapacity : Nat := b.arena.capacity

/-- `has_crossing_order`. -/
def hasCrossingOrder (side : Side) (limitIndex : Nat) : Bool :=
  match b.bestIndex side.opposite with
  | none => false
  | some best => crosses side best limitIndex

/-- `can_fully_fill`. -/
def canFullyFill (side : Side) (limitIndex quantity : Nat) : Comp Bool :=
  Comp.loop
    (fun (st : Option Nat × Nat) =>
      match st.1 with
      | none => pure (.done false)
      | some makerLevel =>
        if crosses side makerLevel limitIndex then
          let levelQuantity := (b.level side.opposite makerLevel).aggregateQuantity
          let needed := sub64 quantity st.2
          let available := add64 st.2 (min levelQuantity needed)
          if available = quantity then pure (.done true)
          else pure (.next (b.nextLevel side.opposite makerLevel, available))
        else pure (.done false))
    (b.bestIndex side.opposite, 0)

/-- The scan of one level in `would_self_trade`. -/
def levelHasTrader (traderId headIndex : Nat) : Comp Bool :=
  Comp.loop
    (fun orderIndex =>
      if orderIndex = kInvalidIndex then pure (.done false)
      else if b.traderIds orderIndex = traderId then pure (.done true)
      else pure (.next (b.arena.orderAt orderIndex).nextIndex))
    headIndex

/-- `would_self_trade`. -/
def wouldSelfTrade (traderId : Nat) (side : Side) (limitIndex : Nat) : Comp Bool :=
  Comp.loop
    (fun (makerLevel : Option Nat) =>
      match makerLevel with
      | none => pure (.done false)
      | some makerLevel =>
        if crosses side makerLevel limitIndex then do
          let found ← b.levelHasTrader traderId (b.level side.opposite makerLevel).headIndex
          if found then pure (.done true) else pure (.next (b.nextLevel side.opposite makerLevel))
        else pure (.done false))
    (b.bestIndex side.opposite)

/-- The slots of a level, in the order of its queue. -/
def levelSlots (side : Side) (index : Nat) : List Nat :=
  Links.walk kInvalidIndex (fun s => (b.arena.orderAt s).nextIndex) b.arena.capacity (b.level side index).headIndex

/-- The slots of the dormant stops, in their order. -/
def stopSlots : List Nat := Links.walk kInvalidIndex b.stopNextIndices b.arena.capacity b.stopHead

/-- `stop_is_triggered`. -/
def stopIsTriggered (side : Side) (triggerPrice : Int) : Bool :=
  match b.lastExecutionPrice with
  | none => false
  | some last =>
    match side with
    | .buy => triggerPrice ≤ last
    | .sell => last ≤ triggerPrice

/-! ## Queues -/

/-- `move_to_tail`. -/
def moveToTail (orderIndex : Nat) : OrderBook :=
  let order := b.arena.orderAt orderIndex
  let priceLevel := b.level order.side order.level
  if priceLevel.tailIndex = orderIndex then b
  else
    (b.setLevel order.side order.level (priceLevel.moveToTail order.prevIndex order.nextIndex orderIndex)).setArena
      (b.arena.moveToTail order.prevIndex order.nextIndex priceLevel.tailIndex orderIndex)

/-- `unlink`. -/
def unlink (handle : Handle) (aggregateReduction : Nat) : OrderBook :=
  let removed := b.arena.orderAt handle.index
  let priceLevel := (b.level removed.side removed.level).linkPast removed.prevIndex removed.nextIndex aggregateReduction
  let b' := b.setLevel removed.side removed.level priceLevel
  let b'' :=
    if priceLevel.orderCount = 0 then b'.setOccupancy removed.side ((b.occupancy removed.side).clear removed.level) else b'
  b''.setArena ((b.arena.linkPast removed.prevIndex removed.nextIndex).release handle)

/-- The order record `rest` and `rest_existing` write. -/
def restingOrder (id : Nat) (side : Side) (levelIndex remaining : Nat) : Order where
  id
  remaining
  prevIndex := (b.level side levelIndex).tailIndex
  nextIndex := kInvalidIndex
  encodedLevelSide := encodeLevelSide levelIndex side
  reservedFlags := 0

/-- The per-slot fields of a resting order in slot `index`, as `rest` and `rest_existing` set them. -/
def setResting (index traderId displayQuantity : Nat) : OrderBook :=
  { b with
    traderIds := update b.traderIds index traderId
    displayQuantities := update b.displayQuantities index displayQuantity
    displayedRemaining := update b.displayedRemaining index displayQuantity
    stopTriggerPrices := update b.stopTriggerPrices index 0
    stopLimitPrices := update b.stopLimitPrices index 0
    stopPrevIndices := update b.stopPrevIndices index 0
    stopNextIndices := update b.stopNextIndices index 0 }

/-- What `rest` and `rest_existing` do alike, once the order record is in its slot `index`: the per-slot fields are set and the
slot becomes the tail of its level. -/
def linkResting (index traderId : Nat) (side : Side) (levelIndex remaining displayQuantity : Nat) : OrderBook :=
  let priceLevel := b.level side levelIndex
  let b' := (b.setResting index traderId displayQuantity).setLevel side levelIndex (priceLevel.pushBack index remaining)
  if priceLevel.tailIndex = kInvalidIndex then b'.setOccupancy side ((b.occupancy side).set levelIndex)
  else b'.setArena (b.arena.setNext priceLevel.tailIndex index)

/-- `rest`. -/
def rest (id traderId : Nat) (side : Side) (levelIndex remaining displayQuantity : Nat) : Handle × OrderBook :=
  let acquired := b.arena.acquire (b.restingOrder id side levelIndex remaining)
  (acquired.1, (b.setArena acquired.2).linkResting acquired.1.index traderId side levelIndex remaining displayQuantity)

/-- `rest_existing`. -/
def restExisting (handle : Handle) (id traderId : Nat) (side : Side) (levelIndex remaining displayQuantity : Nat) : OrderBook :=
  (b.setArena (b.arena.setOrder handle.index (b.restingOrder id side levelIndex remaining))).linkResting handle.index traderId
    side levelIndex remaining displayQuantity

/-! ## Dormant stops -/

/-- What `rest_stop` does once the order record is in its slot `index`: the per-slot fields are set and the slot becomes the tail of
the dormant stops. -/
def linkStop (index : Nat) (triggerPrice : Int) (limitPrice : Option Int) : OrderBook :=
  let stopNextIndices := update b.stopNextIndices index kInvalidIndex
  { b with
    traderIds := update b.traderIds index 0
    displayQuantities := update b.displayQuantities index 0
    displayedRemaining := update b.displayedRemaining index 0
    stopTriggerPrices := update b.stopTriggerPrices index triggerPrice
    stopLimitPrices := update b.stopLimitPrices index (limitPrice.getD 0)
    stopPrevIndices := update b.stopPrevIndices index b.stopTail
    stopNextIndices := if b.stopTail = kInvalidIndex then stopNextIndices else update stopNextIndices b.stopTail index
    stopHead := if b.stopTail = kInvalidIndex then index else b.stopHead
    stopTail := index
    dormantStopCount := b.dormantStopCount + 1 }

/-- `rest_stop`. -/
def restStop (id : Nat) (side : Side) (triggerPrice : Int) (limitPrice : Option Int) (quantity : Nat) : Handle × OrderBook :=
  let acquired := b.arena.acquire
    { id
      remaining := quantity
      prevIndex := kInvalidIndex
      nextIndex := kInvalidIndex
      encodedLevelSide := encodeLevelSide 0 side
      reservedFlags := kOrderFlagDormantStop ||| (if limitPrice.isSome then 0 else kOrderFlagStopMarket) }
  (acquired.1, (b.setArena acquired.2).linkStop acquired.1.index triggerPrice limitPrice)

/-- `detach_stop`. -/
def detachStop (index : Nat) : OrderBook :=
  let previous := b.stopPrevIndices index
  let next := b.stopNextIndices index
  { b with
    stopHead := if previous = kInvalidIndex then next else b.stopHead
    stopNextIndices := if previous = kInvalidIndex then b.stopNextIndices else update b.stopNextIndices previous next
    stopTail := if next = kInvalidIndex then previous else b.stopTail
    stopPrevIndices := if next = kInvalidIndex then b.stopPrevIndices else update b.stopPrevIndices next previous
    dormantStopCount := b.dormantStopCount - 1 }

/-- `unlink_stop`. -/
def unlinkStop (handle : Handle) : OrderBook :=
  (b.detachStop handle.index).setArena (b.arena.release handle)

/-- `reset_stop_activations`. -/
def resetStopActivations : OrderBook := { b with stopActivations := [] }

/-! ## Queries -/

/-- `best_bid`. -/
def bestBid : Option Int := (b.bestIndex .buy).bind b.cfg.domain.priceAt

/-- `best_ask`. -/
def bestAsk : Option Int := (b.bestIndex .sell).bind b.cfg.domain.priceAt

/-- `level_info`. -/
def levelInfo (side : UInt8) (price : Int) : Option LevelInfo :=
  match Side.ofRaw side with
  | none => none
  | some side =>
    match b.cfg.domain.indexOf price with
    | none => none
    | some index => some ⟨(b.level side index).aggregateQuantity, (b.level side index).orderCount⟩

/-- `order_info`. -/
def orderInfo (handle : Handle) : Option OrderInfo :=
  match b.arena.resolve handle with
  | none => none
  | some order =>
    if order.dormant then
      let price := if order.stopMarket then 0 else b.stopLimitPrices handle.index
      some ⟨order.id, order.side, price, order.remaining⟩
    else
      match b.cfg.domain.priceAt order.level with
      | none => none
      | some price => some ⟨order.id, order.side, price, order.remaining⟩

end OrderBook

end MatchingEngine

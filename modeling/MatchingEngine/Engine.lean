import MatchingEngine.Check
import MatchingEngine.Command

/-!
# The sequenced engine

`SequencedEngine` of `sequenced_engine.hpp` and `sequenced_engine.cpp`: a book that takes numbered commands, one after the other, and
answers each with events. `eventsSize` is the size of the caller's span of events, and the events an application writes into it are
part of its result. The engine's trade buffer has `tradeCapacity` places; the reports of a command are kept as a list, so that a
command which would run over the buffer can be told from one which does not.
-/

namespace MatchingEngine

inductive EngineEventType where
  | submitResult
  | trade
  | cancelResult
  | amendResult
  | stopTriggered
  | auctionResult
  deriving DecidableEq, Repr

structure EngineEvent where
  commandSequence : UInt64 := 0
  orderId : Nat := 0
  secondaryOrderId : Nat := 0
  price : Int := 0
  quantity : Nat := 0
  secondaryQuantity : Nat := 0
  handle : Handle := ⟨0, 0⟩
  eventIndex : Nat := 0
  type : EngineEventType := .submitResult
  reason : UInt8 := 0
  reserved : UInt16 := 0
  deriving DecidableEq, Repr

/-- The underlying value of a reason: the enumerators are numbered in their order. -/
def RejectReason.raw (reason : RejectReason) : UInt8 := UInt8.ofNat reason.ctorIdx

@[inherit_doc RejectReason.raw]
def CancelReason.raw (reason : CancelReason) : UInt8 := UInt8.ofNat reason.ctorIdx

@[inherit_doc RejectReason.raw]
def AmendReason.raw (reason : AmendReason) : UInt8 := UInt8.ofNat reason.ctorIdx

@[inherit_doc RejectReason.raw]
def AuctionError.raw (error : AuctionError) : UInt8 := UInt8.ofNat error.ctorIdx

/-- `EngineEvent::trade`. -/
def EngineEvent.ofTrade (sequence : UInt64) (index : Nat) (execution : Trade) : EngineEvent :=
  { commandSequence := sequence, orderId := execution.buyId, secondaryOrderId := execution.sellId, price := execution.price
    quantity := execution.quantity, eventIndex := index, type := .trade }

/-- `submit_event`. -/
def submitEvent (sequence : UInt64) (orderId : Nat) (result : SubmitResult) : EngineEvent :=
  { commandSequence := sequence, orderId, quantity := result.executedQuantity, secondaryQuantity := result.unfilledQuantity
    handle := result.restingHandle, type := .submitResult, reason := result.rejectReason.raw }

/-- `stop_triggered_event`. -/
def stopTriggeredEvent (sequence : UInt64) (eventIndex : Nat) (activation : StopActivation) : EngineEvent :=
  { commandSequence := sequence, orderId := activation.orderId, quantity := activation.executedQuantity
    secondaryQuantity := activation.unfilledQuantity, handle := activation.restingHandle, eventIndex, type := .stopTriggered }

inductive ApplyStatus where
  | applied
  | invalidCommand
  | invalidSequence
  | sequenceExhausted
  | decreasingLogicalTime
  | insufficientEventCapacity
  deriving DecidableEq, Repr

structure SequencedEngine where
  orderBook : OrderBook
  tradeCapacity : Nat
  nextSequence : UInt64
  lastLogicalTime : UInt64
  sequenceExhausted : Bool

/-- The events of the trades of a command, from the index 1 on. -/
def tradeEvents (sequence : UInt64) (trades : List Trade) : List EngineEvent :=
  trades.mapIdx fun index trade => EngineEvent.ofTrade sequence (index + 1) trade

/-- The operation a command stands for; the commands carry no trader, so their orders are submitted under the id 0. -/
def CommandPayload.op (payload : CommandPayload) (tradesSize : Nat) : CommandType → Op
  | .submitLimit =>
    .submitLimit payload.orderId.toNat 0 payload.side payload.priceTicks.toInt payload.quantity.toNat payload.timeInForce tradesSize
  | .submitMarket => .submitMarket payload.orderId.toNat payload.side payload.quantity.toNat tradesSize
  | .submitIceberg =>
    .submitIceberg payload.orderId.toNat 0 payload.side payload.priceTicks.toInt payload.quantity.toNat payload.icebergDisplayQuantity
      tradesSize
  | .submitStop => .submitStop payload.orderId.toNat payload.side payload.stopTriggerPrice payload.quantity.toNat tradesSize
  | .submitStopLimit =>
    .submitStopLimit payload.orderId.toNat payload.side payload.stopTriggerPrice payload.priceTicks.toInt payload.quantity.toNat
      tradesSize
  | .cancel => .cancel payload.handle
  | .amendQuantity => .amendQuantity payload.handle payload.quantity.toNat
  | .replace => .replace payload.handle payload.priceTicks.toInt payload.quantity.toNat tradesSize
  | .uncrossOpeningAuction => .uncrossOpeningAuction tradesSize

namespace SequencedEngine

variable (e : SequencedEngine)

/-- The constructor; `none` where it throws. -/
def create (cfg : BookConfig) (nextSequence lastLogicalTime : UInt64) (tradingState : TradingState) : Option SequencedEngine :=
  if nextSequence = 0 then none
  else (OrderBook.create cfg tradingState).map fun book => ⟨book, cfg.maxOrders, nextSequence, lastLogicalTime, false⟩

/-- `maximum_event_capacity`. -/
def maximumEventCapacity : Nat := e.tradeCapacity * 2 + 1

/-- What a command that matches needs: the trades, its own event, and the stops that may be triggered. -/
def matchingCapacity : Nat := e.tradeCapacity + 1 + e.orderBook.dormantStopCount

/-- `required_event_capacity`, of a payload whose tag names `tag`. -/
def requiredEventCapacity (payload : CommandPayload) : CommandType → Comp Nat
  | .submitLimit => do
    let checked ← e.orderBook.preflightLimit payload.side payload.priceTicks.toInt payload.quantity.toNat payload.timeInForce
    return if checked.isOk then e.matchingCapacity else 1
  | .submitMarket => pure (if (e.orderBook.preflightMarket payload.side payload.quantity.toNat).isOk then e.matchingCapacity else 1)
  | .submitIceberg => do
    let checked ← e.orderBook.preflightLimit payload.side payload.priceTicks.toInt payload.quantity.toNat TimeInForce.gtc.raw
    return if checked.isOk then e.matchingCapacity else 1
  | .submitStop => pure (if (e.orderBook.preflightStop payload.side none payload.quantity.toNat).isOk then e.matchingCapacity + 1 else 1)
  | .submitStopLimit =>
    pure (if (e.orderBook.preflightStop payload.side (some payload.priceTicks.toInt) payload.quantity.toNat).isOk
      then e.matchingCapacity + 1 else 1)
  | .replace =>
    pure (if e.orderBook.preflightReplace payload.handle payload.priceTicks.toInt payload.quantity.toNat ≠ .none then 1
      else e.tradeCapacity + e.orderBook.dormantStopCount)
  | .cancel => pure 1
  | .amendQuantity => pure 1
  | .uncrossOpeningAuction => pure (e.tradeCapacity + 1)

/-- `write_submit_events`, with the book after the command. -/
def submitEvents (sequence : UInt64) (orderId : Nat) (result : SubmitResult) (trades : List Trade) (after : OrderBook) :
    List EngineEvent :=
  submitEvent sequence orderId result :: tradeEvents sequence trades ++
    after.stopActivations.mapIdx fun index activation => stopTriggeredEvent sequence (trades.length + 1 + index) activation

/-- The events of a command, from what its operation has shown. -/
def events (command : SequencedCommand) (tag : CommandType) (outcome : Outcome) (after : OrderBook) : List EngineEvent :=
  match outcome.reply with
  | .submit result =>
    -- A replacement keeps the id of the order it replaces, if there is one.
    let orderId := if tag = .replace then ((e.orderBook.orderInfo command.payload.handle).map OrderInfo.id).getD command.payload.orderId.toNat
      else command.payload.orderId.toNat
    submitEvents command.sequence orderId result outcome.trades after
  | .cancel result =>
    [{ commandSequence := command.sequence, orderId := result.orderId, quantity := result.canceledQuantity
       handle := command.payload.handle, type := .cancelResult, reason := result.rejectReason.raw }]
  | .amend result =>
    [{ commandSequence := command.sequence, orderId := result.orderId, quantity := result.previousQuantity
       secondaryQuantity := result.newQuantity, handle := result.handle, type := .amendResult, reason := result.rejectReason.raw }]
  | .auction result =>
    { commandSequence := command.sequence, price := result.clearingPrice.getD 0, quantity := result.executedQuantity
      type := .auctionResult, reason := result.error.raw } :: tradeEvents command.sequence outcome.trades

/-- The checks of `apply` on the command alone. -/
def commandStatus (command : SequencedCommand) : ApplyStatus :=
  if e.sequenceExhausted then .sequenceExhausted
  else if validateCommandPayload command.payload ≠ .none then .invalidCommand
  else if command.sequence ≠ e.nextSequence then .invalidSequence
  else if command.logicalTime < e.lastLogicalTime then .decreasingLogicalTime
  else .applied

/-- The body of `apply`, for a command whose tag names `tag`. -/
def perform (command : SequencedCommand) (tag : CommandType) : Comp (List EngineEvent × List Trade × SequencedEngine) := do
  let (outcome, book) ← e.orderBook.apply (command.payload.op e.tradeCapacity tag)
  let after := afterSequence e.nextSequence
  return (e.events command tag outcome book, outcome.trades, ⟨book, e.tradeCapacity, after.1, command.logicalTime, after.2⟩)

/-- `apply`: the status, the events, the trades that went through the trade buffer, and the engine. -/
def apply (command : SequencedCommand) (eventsSize : Nat) : Comp (ApplyStatus × List EngineEvent × List Trade × SequencedEngine) :=
  if e.commandStatus command ≠ .applied then pure (e.commandStatus command, [], [], e)
  else
    match CommandType.ofRaw command.payload.tag with
    | none => pure (.invalidCommand, [], [], e)
    | some tag => do
      let required ← e.requiredEventCapacity command.payload tag
      if eventsSize < required then return (.insufficientEventCapacity, [], [], e)
      let (events, trades, e') ← e.perform command tag
      return (.applied, events, trades, e')

end SequencedEngine

end MatchingEngine

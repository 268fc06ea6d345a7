import MatchingEngine.Protocol
import MatchingEngine.Replay

/-!
# Market data

`gateway.cpp`, `market_data_adapter.cpp` and `replay_market_data` of `replay.cpp`: messages of a feed are checked by the gateway, turned
into commands, and applied to an engine; the adapter follows the events to know which handle belongs to which order id. A function
that changes the gateway or the adapter returns what it leaves, also when it fails. The stream of messages is the list of what
`read_next` gives, with the errors among it.
-/

namespace MatchingEngine

/-- The vector idiom `v[i] = v.back(); v.pop_back();` at the first element with a property, if there is one. -/
def swapRemove {α : Type} (p : α → Bool) (v : List α) : List α :=
  match v.findIdx? p, v.getLast? with
  | some i, some back => (v.set i back).dropLast
  | _, _ => v

/-! ## The gateway -/

structure GatewayConfig where
  maxActiveOrders : Nat
  maxLanes : Nat
  maxQuantity : UInt64
  maxNotional : UInt64
  minPrice : Int64
  maxPrice : Int64
  maxOrdersPerSecond : UInt64
  deriving DecidableEq, Repr

/-- A configuration for small examples. -/
def GatewayConfig.small : GatewayConfig := ⟨2, 1, 100, 100000, 0, 1000, 10⟩

inductive GatewayRejectReason where
  | none
  | duplicateOrderId
  | orderCapacityExhausted
  | quantityTooLarge
  | priceOutOfCollar
  | rateLimited
  | notionalTooLarge
  | invalidLane
  deriving DecidableEq, Repr

structure RateWindow where
  start : UInt64
  count : UInt64
  deriving DecidableEq, Repr

structure GatewayValidator where
  config : GatewayConfig
  activeOrderIds : List Nat
  rateWindows : Nat → RateWindow

namespace GatewayValidator

/-- The constructor. -/
def create (config : GatewayConfig) : GatewayValidator where
  config :=
    { config with
      maxOrdersPerSecond := if config.maxOrdersPerSecond = 0 then 1 else config.maxOrdersPerSecond
      maxLanes := if config.maxLanes = 0 then 1 else config.maxLanes }
  activeOrderIds := []
  rateWindows _ := ⟨0, 0⟩

variable (g : GatewayValidator)

/-- `rate_limit_exceeded`: the window of the lane is renewed also when the limit is exceeded. -/
def rateLimitExceeded (laneId : Nat) (logicalTime : UInt64) : Bool × GatewayValidator :=
  if g.config.maxOrdersPerSecond = 0 then (false, g)
  else
    let bucketStart := logicalTime / 1000
    let window := g.rateWindows laneId
    let window : RateWindow := if window.count = 0 ∨ bucketStart ≠ window.start then ⟨bucketStart, 0⟩ else window
    if g.config.maxOrdersPerSecond ≤ window.count then (true, { g with rateWindows := Function.update g.rateWindows laneId window })
    else (false, { g with rateWindows := Function.update g.rateWindows laneId { window with count := window.count + 1 } })

/-- `absolute_notional`. -/
def absoluteNotional (price : Int64) (quantity : UInt64) : UInt64 :=
  let priceTicks := UInt64.ofNat price.toInt.natAbs
  if priceTicks ≠ 0 ∧ uint64Max / priceTicks < quantity then uint64Max else priceTicks * quantity

/-- The checks of `validate` before the rate limit: the first that fails. -/
def rejectReason (laneId id : Nat) (price : Int64) (quantity : UInt64) : GatewayRejectReason :=
  if g.config.maxLanes ≤ laneId then .invalidLane
  else if id = 0 then .duplicateOrderId
  else if id ∈ g.activeOrderIds then .duplicateOrderId
  else if g.config.maxActiveOrders ≤ g.activeOrderIds.length then .orderCapacityExhausted
  else if g.config.maxQuantity < quantity then .quantityTooLarge
  else if price < g.config.minPrice ∨ g.config.maxPrice < price then .priceOutOfCollar
  else if g.config.maxNotional < absoluteNotional price quantity then .notionalTooLarge
  else .none

/-- `validate`. -/
def validate (laneId id : Nat) (price : Int64) (quantity logicalTime : UInt64) : GatewayRejectReason × GatewayValidator :=
  if g.rejectReason laneId id price quantity ≠ .none then (g.rejectReason laneId id price quantity, g)
  else
    let (exceeded, g) := g.rateLimitExceeded laneId logicalTime
    if exceeded then (.rateLimited, g) else (.none, { g with activeOrderIds := g.activeOrderIds ++ [id] })

/-- `release`. -/
def release (id : Nat) : GatewayValidator := { g with activeOrderIds := swapRemove (fun active => active = id) g.activeOrderIds }

end GatewayValidator

/-! ## The adapter -/

inductive MarketDataAdaptError where
  | unsupportedMessage
  | invalidCommand
  | sequenceMismatch
  | sequenceExhausted
  | unknownOrder
  deriving DecidableEq, Repr

structure ActiveOrder where
  id : Nat
  handle : Handle
  deriving DecidableEq, Repr

structure MarketDataAdapter where
  gateway : GatewayValidator
  sequencer : Sequencer
  previousMarketDataSequence : UInt64
  lastGatewayRejectReason : GatewayRejectReason
  handles : List ActiveOrder

namespace MarketDataAdapter

/-- The constructor. -/
def create (gateway : GatewayValidator) : MarketDataAdapter := ⟨gateway, ⟨1, 0, false⟩, 0, .none, []⟩

variable (a : MarketDataAdapter)

/-- `find_handle`. -/
def findHandle (id : Nat) : Option Handle := (a.handles.find? fun active => active.id = id).map ActiveOrder.handle

/-- The command `adapt` makes of a message, before it is stamped. -/
def payload (message : MarketDataMessage) : Except MarketDataAdaptError CommandPayload × MarketDataAdapter :=
  match MarketDataMessageType.ofRaw message.type with
  | some .addOrder =>
    let (reason, gateway) := a.gateway.validate 0 message.orderId.toNat message.price message.quantity message.sequence
    let a := { a with gateway, lastGatewayRejectReason := reason }
    if reason ≠ .none then (.error .invalidCommand, a)
    else (.ok (.submitLimit message.orderId message.side message.price message.quantity TimeInForce.gtc.raw), a)
  | some .deleteOrder =>
    match a.findHandle message.orderId.toNat with
    | none => (.error .unknownOrder, a)
    | some handle => (.ok (.cancel (UInt32.ofNat handle.index) (UInt32.ofNat handle.generation)), a)
  | some .replaceOrder =>
    match a.findHandle message.orderId.toNat with
    | none => (.error .unknownOrder, a)
    | some handle => (.ok (.amendQuantity (UInt32.ofNat handle.index) (UInt32.ofNat handle.generation) message.quantity), a)
  | _ => (.error .unsupportedMessage, a)

/-- The error `adapt` makes of a sequencer's. -/
def stampError : SequencerError → MarketDataAdaptError
  | .invalidPayload => .invalidCommand
  | .decreasingLogicalTime => .sequenceMismatch
  | .sequenceExhausted => .sequenceExhausted

/-- `adapt`. -/
def adapt (message : MarketDataMessage) : Except MarketDataAdaptError SequencedCommand × MarketDataAdapter :=
  if validateMarketDataSequence a.previousMarketDataSequence message ≠ .none then (.error .sequenceMismatch, a)
  else
    match a.payload message with
    | (.error error, a) => (.error error, a)
    | (.ok payload, a) =>
      match a.sequencer.stamp payload message.sequence with
      | .error error => (.error (stampError error), a)
      | .ok (command, sequencer) => (.ok command, { a with sequencer, previousMarketDataSequence := message.sequence })

/-- The removal of an order id from the table of handles. -/
def forget (id : Nat) : MarketDataAdapter := { a with handles := swapRemove (fun active => active.id = id) a.handles }

/-- The update or addition of an order's handle. -/
def remember (id : Nat) (handle : Handle) : MarketDataAdapter :=
  match a.handles.findIdx? fun active => active.id = id with
  | some i => { a with handles := a.handles.modify i fun active => { active with handle } }
  | none => { a with handles := a.handles ++ [⟨id, handle⟩] }

/-- `record_applied_event`. -/
def recordAppliedEvent (event : EngineEvent) : MarketDataAdapter :=
  if event.type = .submitResult ∨ event.type = .stopTriggered then
    if event.handle.index = kInvalidIndex then { a.forget event.orderId with gateway := a.gateway.release event.orderId }
    else a.remember event.orderId event.handle
  else if event.type ≠ .cancelResult ∨ event.reason ≠ 0 then a
  else if a.handles.any fun active => active.id = event.orderId then
    { a.forget event.orderId with gateway := a.gateway.release event.orderId }
  else a

end MarketDataAdapter

/-! ## Replay -/

inductive MarketDataInputError where
  | openFailed
  | truncatedFrame
  | malformedFrame
  | sequenceGap
  deriving DecidableEq, Repr

inductive MarketDataReplayError where
  | input
  | adapter
  | apply
  | invariant
  deriving DecidableEq, Repr

/-- What a replay returns, and the adapter and the engine it leaves. -/
abbrev MarketDataReplayed := Except MarketDataReplayError ReplayResult × MarketDataAdapter × SequencedEngine

/-- The loop over the events of a command: each is recorded, then added to the fingerprint; `none` when one cannot be added. -/
def recordEvents : List EngineEvent → MarketDataAdapter → ReplayFingerprint → Option ReplayFingerprint × MarketDataAdapter
  | [], adapter, fingerprint => (some fingerprint, adapter)
  | event :: events, adapter, fingerprint =>
    let adapter := adapter.recordAppliedEvent event
    if (fingerprint.add event).1 ≠ .none then (none, adapter) else recordEvents events adapter (fingerprint.add event).2

/-- The body of the loop of `replay_market_data`, for a message that was read. -/
def replayMessage (eventsSize : Nat) (message : MarketDataMessage) (adapter : MarketDataAdapter) (engine : SequencedEngine)
    (result : ReplayResult) : Comp MarketDataReplayed :=
  match adapter.adapt message with
  | (.error _, adapter) => pure (.error .adapter, adapter, engine)
  | (.ok command, adapter) => do
    let (status, events, _, engine) ← engine.apply command eventsSize
    if status ≠ .applied then return (.error .apply, adapter, engine)
    match recordEvents events adapter (result.count command.sequence).fingerprint with
    | (none, adapter) => return (.error .apply, adapter, engine)
    | (some fingerprint, adapter) =>
      let (checked, orderBook) ← engine.orderBook.checkInvariants
      let engine := { engine with orderBook }
      if checked.violation ≠ .none then return (.error .invariant, adapter, engine)
      return (.ok { result.count command.sequence with fingerprint }, adapter, engine)

/-- The loop of `replay_market_data`. -/
def replayMessages (eventsSize : Nat) :
    List (Except MarketDataInputError MarketDataMessage) → MarketDataAdapter → SequencedEngine → ReplayResult → Comp MarketDataReplayed
  | [], adapter, engine, result => pure (.ok result, adapter, engine)
  | .error _ :: _, adapter, engine, _ => pure (.error .input, adapter, engine)
  | .ok message :: input, adapter, engine, result => do
    match ← replayMessage eventsSize message adapter engine result with
    | (.error error, adapter, engine) => return (.error error, adapter, engine)
    | (.ok result, adapter, engine) => replayMessages eventsSize input adapter engine result

/-- `replay_market_data`. -/
def replayMarketData (input : List (Except MarketDataInputError MarketDataMessage)) (adapter : MarketDataAdapter)
    (engine : SequencedEngine) (eventsSize : Nat) : Comp MarketDataReplayed :=
  if eventsSize < engine.maximumEventCapacity then pure (.error .apply, adapter, engine)
  else replayMessages eventsSize input adapter engine .initial

end MatchingEngine

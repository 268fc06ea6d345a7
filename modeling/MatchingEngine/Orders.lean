import MatchingEngine.Matching

/-!
# Public operations

The public operations of `OrderBook` in `order_book.cpp`. `tradesSize` is the size of the caller's span, and what an operation writes
into it is part of its result. `Op` and `Outcome` gather the operations and their results, and `apply` runs one of them.
-/

namespace MatchingEngine

open Function

/-- What `preflight` checks, which is against the configuration alone: the side when it is valid, or the reason to reject. -/
def BookConfig.preflight (cfg : BookConfig) (side : UInt8) (quantity : Nat) : Except RejectReason Side :=
  match Side.ofRaw side with
  | none => .error .invalidSide
  | some side =>
    if quantity = 0 then .error .zeroQuantity
    else if cfg.maxOrderQuantity < quantity then .error .quantityTooLarge
    else .ok side

namespace OrderBook

variable (b : OrderBook)

/-! ## Checks -/

/-- `preflight`. -/
def preflight (side : UInt8) (quantity : Nat) : Except RejectReason Side := b.cfg.preflight side quantity

/-- `preflight_limit`, with the side, level and time in force it has checked. -/
def preflightLimit (side : UInt8) (price : Int) (quantity : Nat) (timeInForce : UInt8) :
    Comp (Except RejectReason (Side × Nat × TimeInForce)) :=
  match TimeInForce.ofRaw timeInForce with
  | none => pure (.error .invalidTimeInForce)
  | some timeInForce =>
    match b.preflight side quantity with
    | .error reason => pure (.error reason)
    | .ok side =>
      match b.cfg.domain.indexOf price with
      | none => pure (.error .priceOutOfDomain)
      | some levelIndex => do
        if b.tradingState = .openingAuction ∧ timeInForce ≠ .gtc then pure (.error .invalidTradingState)
        else
          let fillable ← if timeInForce = .fok then b.canFullyFill side levelIndex quantity else pure true
          if !fillable then pure (.error .fokNotFillable)
          else if timeInForce = .gtc ∧ b.arena.size = b.arena.capacity ∧
              (b.tradingState = .openingAuction ∨ ¬b.hasCrossingOrder side levelIndex) then
            pure (.error .orderCapacityExhausted)
          else pure (.ok (side, levelIndex, timeInForce))

/-- `preflight_post_only`. -/
def preflightPostOnly (side : UInt8) (price : Int) (quantity : Nat) : RejectReason :=
  if b.tradingState = .openingAuction then .invalidTradingState
  else
    match b.preflight side quantity with
    | .error reason => reason
    | .ok side =>
      match b.cfg.domain.indexOf price with
      | none => .priceOutOfDomain
      | some levelIndex =>
        if b.hasCrossingOrder side levelIndex then .postOnlyWouldCross
        else if b.arena.size = b.arena.capacity then .orderCapacityExhausted
        else .none

/-- `preflight_market`. -/
def preflightMarket (side : UInt8) (quantity : Nat) : Except RejectReason Side :=
  if b.tradingState = .openingAuction then .error .invalidTradingState else b.preflight side quantity

/-- `preflight_stop`. -/
def preflightStop (side : UInt8) (limitPrice : Option Int) (quantity : Nat) : Except RejectReason Side :=
  if b.tradingState = .openingAuction then .error .invalidTradingState
  else
    match b.preflight side quantity with
    | .error reason => .error reason
    | .ok side =>
      if limitPrice.any fun price => (b.cfg.domain.indexOf price).isNone then .error .priceOutOfDomain
      else if b.arena.size = b.arena.capacity then .error .orderCapacityExhausted
      else .ok side

/-- `preflight_replace`. -/
def preflightReplace (handle : Handle) (newPrice : Int) (newQuantity : Nat) : RejectReason :=
  match b.arena.resolve handle with
  | none => .invalidHandle
  | some order =>
    if order.dormant then .invalidHandle
    else
      match b.preflight order.side.raw newQuantity with
      | .error reason => reason
      | .ok _ => if (b.cfg.domain.indexOf newPrice).isSome then .none else .priceOutOfDomain

/-! ## Submissions -/

/-- The end of a submission: the stops its executions trigger, then the result. -/
def concludeSubmission (quantity remaining : Nat) (handle : Handle) (trades : List Trade) :
    Comp (SubmitResult × List Trade × OrderBook) := do
  let (trades, b') ← b.triggerStops trades
  pure (⟨.none, sub64 quantity remaining, remaining, trades.length, handle⟩, trades, b')

/-- `submit_limit`. -/
def submitLimit (id traderId : Nat) (side : UInt8) (price : Int) (quantity : Nat) (timeInForce : UInt8) (tradesSize : Nat) :
    Comp (SubmitResult × List Trade × OrderBook) :=
  let b := b.resetStopActivations
  if (TimeInForce.ofRaw timeInForce).isNone then pure (rejected .invalidTimeInForce quantity, [], b)
  else
    match b.preflight side quantity with
    | .error reason => pure (rejected reason quantity, [], b)
    | .ok _ =>
      if tradesSize < b.requiredTradeCapacity then pure (rejected .insufficientTradeCapacity quantity, [], b)
      else do
        match ← b.preflightLimit side price quantity timeInForce with
        | .error reason => pure (rejected reason quantity, [], b)
        | .ok (side, levelIndex, timeInForce) =>
          let selfTrade ← if b.cfg.selfTradePolicy = .cancelTaker then b.wouldSelfTrade traderId side levelIndex else pure false
          if selfTrade then pure (rejected .selfTradePrevented quantity, [], b)
          else
            let x ←
              if b.tradingState = .continuous then
                Execution.matchTaker ⟨b, quantity, []⟩ id traderId side (some levelIndex)
              else pure ⟨b, quantity, []⟩
            let (handle, b') :=
              if timeInForce = .gtc ∧ x.remaining ≠ 0 then x.book.rest id traderId side levelIndex x.remaining x.remaining
              else (kInvalidHandle, x.book)
            b'.concludeSubmission quantity x.remaining handle x.trades

/-- `submit_post_only`. -/
def submitPostOnly (id : Nat) (side : UInt8) (price : Int) (quantity tradesSize : Nat) :
    Comp (SubmitResult × List Trade × OrderBook) :=
  if tradesSize < b.requiredTradeCapacity then pure (rejected .insufficientTradeCapacity quantity, [], b)
  else
    match b.preflightPostOnly side price quantity with
    | .none => b.submitLimit id 0 side price quantity TimeInForce.gtc.raw tradesSize
    | reason => pure (rejected reason quantity, [], b)

/-- `submit_iceberg`. -/
def submitIceberg (id traderId : Nat) (side : UInt8) (price : Int) (quantity displayQuantity tradesSize : Nat) :
    Comp (SubmitResult × List Trade × OrderBook) :=
  let b := b.resetStopActivations
  if b.tradingState = .openingAuction then pure (rejected .invalidTradingState quantity, [], b)
  else if displayQuantity = 0 ∨ quantity < displayQuantity then pure (rejected .invalidDisplayQuantity quantity, [], b)
  else
    match b.preflight side quantity with
    | .error reason => pure (rejected reason quantity, [], b)
    | .ok _ =>
      if tradesSize < b.requiredTradeCapacity then pure (rejected .insufficientTradeCapacity quantity, [], b)
      else do
        match ← b.preflightLimit side price quantity TimeInForce.gtc.raw with
        | .error reason => pure (rejected reason quantity, [], b)
        | .ok (side, levelIndex, _) =>
          let selfTrade ← if b.cfg.selfTradePolicy = .cancelTaker then b.wouldSelfTrade traderId side levelIndex else pure false
          if selfTrade then pure (rejected .selfTradePrevented quantity, [], b)
          else
            let x ← Execution.matchTaker ⟨b, quantity, []⟩ id traderId side (some levelIndex)
            let (handle, b') :=
              if x.remaining = 0 then (kInvalidHandle, x.book)
              else x.book.rest id traderId side levelIndex x.remaining (min displayQuantity x.remaining)
            b'.concludeSubmission quantity x.remaining handle x.trades

/-- `submit_market`. -/
def submitMarket (id : Nat) (side : UInt8) (quantity tradesSize : Nat) : Comp (SubmitResult × List Trade × OrderBook) :=
  let b := b.resetStopActivations
  match b.preflightMarket side quantity with
  | .error reason => pure (rejected reason quantity, [], b)
  | .ok side =>
    if tradesSize < b.requiredTradeCapacity then pure (rejected .insufficientTradeCapacity quantity, [], b)
    else do
      let x ← Execution.matchTaker ⟨b, quantity, []⟩ id 0 side none
      x.book.concludeSubmission quantity x.remaining kInvalidHandle x.trades

/-- The common body of `submit_stop` and `submit_stop_limit`, which differ in the limit price only. -/
def submitStopOrder (id : Nat) (side : UInt8) (triggerPrice : Int) (limitPrice : Option Int) (quantity tradesSize : Nat) :
    Comp (SubmitResult × List Trade × OrderBook) :=
  let b := b.resetStopActivations
  match b.preflightStop side limitPrice quantity with
  | .error reason => pure (rejected reason quantity, [], b)
  | .ok side =>
    if tradesSize < b.requiredTradeCapacity then pure (rejected .insufficientTradeCapacity quantity, [], b)
    else
      let (handle, b') := b.restStop id side triggerPrice limitPrice quantity
      if b'.stopIsTriggered side triggerPrice then do
        let (result, trades, b') ← b'.activateStop handle []
        let (trades, b') ← b'.triggerStops trades
        pure ({ result with tradeCount := trades.length }, trades, b')
      else pure (⟨.none, 0, quantity, 0, handle⟩, [], b')

/-- `submit_stop`. -/
def submitStop (id : Nat) (side : UInt8) (triggerPrice : Int) (quantity tradesSize : Nat) :
    Comp (SubmitResult × List Trade × OrderBook) :=
  b.submitStopOrder id side triggerPrice none quantity tradesSize

/-- `submit_stop_limit`. -/
def submitStopLimit (id : Nat) (side : UInt8) (triggerPrice limitPrice : Int) (quantity tradesSize : Nat) :
    Comp (SubmitResult × List Trade × OrderBook) :=
  b.submitStopOrder id side triggerPrice (some limitPrice) quantity tradesSize

/-! ## Cancel, amend, replace, uncross -/

/-- `cancel`. -/
def cancel (handle : Handle) : CancelResult × OrderBook :=
  match b.arena.resolve handle with
  | none => (⟨.invalidHandle, 0, 0⟩, b)
  | some order =>
    (⟨.none, order.id, order.remaining⟩, if order.dormant then b.unlinkStop handle else b.unlink handle order.remaining)

/-- `amend_quantity`. -/
def amendQuantity (handle : Handle) (newRemaining : Nat) : AmendResult × OrderBook :=
  match b.arena.resolve handle with
  | none => (⟨.invalidHandle, 0, 0, newRemaining, handle⟩, b)
  | some order =>
    let previous := order.remaining
    if newRemaining = 0 then (⟨.zeroQuantity, order.id, previous, newRemaining, handle⟩, b)
    else if b.cfg.maxOrderQuantity < newRemaining then (⟨.quantityTooLarge, order.id, previous, newRemaining, handle⟩, b)
    else if previous < newRemaining then (⟨.increaseNotAllowed, order.id, previous, newRemaining, handle⟩, b)
    else if newRemaining = previous then (⟨.none, order.id, previous, newRemaining, handle⟩, b)
    else
      let b' := b.setArena (b.arena.setOrder handle.index { order with remaining := newRemaining })
      if order.dormant then (⟨.none, order.id, previous, newRemaining, handle⟩, b')
      else
        let priceLevel := b.level order.side order.level
        let b'' := b'.setLevel order.side order.level
          { priceLevel with aggregateQuantity := sub64 priceLevel.aggregateQuantity (sub64 previous newRemaining) }
        (⟨.none, order.id, previous, newRemaining, handle⟩,
          b''.setDisplayed handle.index (min (b.displayedRemaining handle.index) newRemaining))

/-- `replace`. -/
def replace (handle : Handle) (newPrice : Int) (newQuantity tradesSize : Nat) : Comp (SubmitResult × List Trade × OrderBook) :=
  let b := b.resetStopActivations
  let reason := b.preflightReplace handle newPrice newQuantity
  if reason ≠ .none ∧ reason ≠ .priceOutOfDomain then pure (rejected reason newQuantity, [], b)
  else if tradesSize < b.requiredTradeCapacity then pure (rejected .insufficientTradeCapacity newQuantity, [], b)
  else if reason ≠ .none then pure (rejected reason newQuantity, [], b)
  else
    let order := b.arena.orderAt handle.index
    (b.unlink handle order.remaining).submitLimit order.id 0 order.side.raw newPrice newQuantity TimeInForce.gtc.raw tradesSize

/-- `uncross_opening_auction`. -/
def uncrossOpeningAuction (tradesSize : Nat) : Comp (AuctionResult × List Trade × OrderBook) :=
  if b.tradingState ≠ .openingAuction then pure (⟨.notOpeningAuction, none, 0, 0⟩, [], b)
  else if tradesSize < b.requiredTradeCapacity then pure (⟨.insufficientTradeCapacity, none, 0, 0⟩, [], b)
  else
    let clearing := chooseClearing (fun i => (b.level .buy i).aggregateQuantity) (fun i => (b.level .sell i).aggregateQuantity)
      (b.bestIndex .buy) (b.bestIndex .sell)
    let b : OrderBook := { b with tradingState := .continuous }
    match clearing.level.bind fun level => (b.cfg.domain.priceAt level).map fun price => (level, price) with
    | none => pure (⟨.none, none, 0, 0⟩, [], b)
    | some (clearingLevel, clearingPrice) =>
      if clearing.executable = 0 then pure (⟨.none, none, 0, 0⟩, [], b)
      else do
        let x ← auctionLoop clearingLevel clearingPrice ⟨b, clearing.executable, []⟩
        pure (⟨.none, some clearingPrice, sub64 clearing.executable x.remaining, x.trades.length⟩, x.trades,
          { x.book with lastExecutionPrice := some clearingPrice })

end OrderBook

/-! ## One operation -/

/-- A call of a public operation, with its arguments and the size of the span it is given. -/
inductive Op where
  | submitLimit (id traderId : Nat) (side : UInt8) (price : Int) (quantity : Nat) (timeInForce : UInt8) (tradesSize : Nat)
  | submitPostOnly (id : Nat) (side : UInt8) (price : Int) (quantity tradesSize : Nat)
  | submitIceberg (id traderId : Nat) (side : UInt8) (price : Int) (quantity displayQuantity tradesSize : Nat)
  | submitMarket (id : Nat) (side : UInt8) (quantity tradesSize : Nat)
  | submitStop (id : Nat) (side : UInt8) (triggerPrice : Int) (quantity tradesSize : Nat)
  | submitStopLimit (id : Nat) (side : UInt8) (triggerPrice limitPrice : Int) (quantity tradesSize : Nat)
  | cancel (handle : Handle)
  | amendQuantity (handle : Handle) (newRemaining : Nat)
  | replace (handle : Handle) (newPrice : Int) (newQuantity tradesSize : Nat)
  | uncrossOpeningAuction (tradesSize : Nat)
  deriving DecidableEq, Repr

/-- What a public operation returns. -/
inductive Reply where
  | submit (result : SubmitResult)
  | cancel (result : CancelResult)
  | amend (result : AmendResult)
  | auction (result : AuctionResult)
  deriving DecidableEq, Repr

/-- A reply that carries a reject reason or an error. -/
def Reply.Rejects : Reply → Prop
  | .submit r => r.rejectReason ≠ .none
  | .cancel r => r.rejectReason ≠ .none
  | .amend r => r.rejectReason ≠ .none
  | .auction r => r.error ≠ .none

instance (r : Reply) : Decidable r.Rejects :=
  match r with
  | .submit r => inferInstanceAs (Decidable (r.rejectReason ≠ .none))
  | .cancel r => inferInstanceAs (Decidable (r.rejectReason ≠ .none))
  | .amend r => inferInstanceAs (Decidable (r.rejectReason ≠ .none))
  | .auction r => inferInstanceAs (Decidable (r.error ≠ .none))

/-- What a call shows: its return value and the reports it wrote into the caller's span. -/
structure Outcome where
  reply : Reply
  trades : List Trade
  deriving DecidableEq, Repr

/-- The outcome and state after an operation that returns a `SubmitResult`. -/
def submitted {β : Type} (r : SubmitResult × List Trade × β) : Outcome × β := (⟨.submit r.1, r.2.1⟩, r.2.2)

/-- One call on a book. -/
def OrderBook.apply (b : OrderBook) : Op → Comp (Outcome × OrderBook)
  | .submitLimit id traderId side price quantity timeInForce tradesSize =>
    return submitted (← b.submitLimit id traderId side price quantity timeInForce tradesSize)
  | .submitPostOnly id side price quantity tradesSize => return submitted (← b.submitPostOnly id side price quantity tradesSize)
  | .submitIceberg id traderId side price quantity displayQuantity tradesSize =>
    return submitted (← b.submitIceberg id traderId side price quantity displayQuantity tradesSize)
  | .submitMarket id side quantity tradesSize => return submitted (← b.submitMarket id side quantity tradesSize)
  | .submitStop id side triggerPrice quantity tradesSize =>
    return submitted (← b.submitStop id side triggerPrice quantity tradesSize)
  | .submitStopLimit id side triggerPrice limitPrice quantity tradesSize =>
    return submitted (← b.submitStopLimit id side triggerPrice limitPrice quantity tradesSize)
  | .cancel handle => let (result, b') := b.cancel handle; pure (⟨.cancel result, []⟩, b')
  | .amendQuantity handle newRemaining => let (result, b') := b.amendQuantity handle newRemaining; pure (⟨.amend result, []⟩, b')
  | .replace handle newPrice newQuantity tradesSize =>
    return submitted (← b.replace handle newPrice newQuantity tradesSize)
  | .uncrossOpeningAuction tradesSize => do
    let (result, trades, b') ← b.uncrossOpeningAuction tradesSize
    pure (⟨.auction result, trades⟩, b')

end MatchingEngine

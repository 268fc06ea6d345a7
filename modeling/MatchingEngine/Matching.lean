import MatchingEngine.Book

/-!
# Matching

The matching loops of `order_book.cpp`: a taker against the best levels, under either allocation mode, the activation of stops and
the opening uncross. An `Execution` is what `match` and its parts pass along by reference: the book, the taker's remaining quantity
and the reports written so far.
-/

namespace MatchingEngine

open Function

/-- The book, the taker's `remaining` and the trade buffer, as `match` changes them. -/
structure Execution where
  book : OrderBook
  remaining : Nat
  trades : List Trade

namespace OrderBook

variable (b : OrderBook)

/-- The head of `match`: a new report epoch, so that no maker has a report for this taker yet. -/
def advanceReportEpoch : OrderBook :=
  if b.tradeReportEpoch = 2 ^ 32 - 1 then
    { b with
      tradeReportEpochs := fun index => if index < b.arena.capacity then 0 else b.tradeReportEpochs index
      tradeReportEpoch := 1 }
  else { b with tradeReportEpoch := b.tradeReportEpoch + 1 }

/-- The report part of `execute_match`: the maker's report for this taker grows, or is written. The trade span of the caller is modelled
as a list that is large enough for every report; the source writes behind the end of the span where a cascade needs more of them. -/
def report (takerId : Nat) (takerSide : Side) (makerIndex : Nat) (price : Int) (execution : Nat) (trades : List Trade) :
    OrderBook × List Trade :=
  if b.tradeReportEpochs makerIndex = b.tradeReportEpoch then
    (b, trades.modify (b.tradeReportIndices makerIndex) fun t => { t with quantity := add64 t.quantity execution })
  else
    ({ b with
        tradeReportEpochs := update b.tradeReportEpochs makerIndex b.tradeReportEpoch
        tradeReportIndices := update b.tradeReportIndices makerIndex trades.length },
      trades ++ [makeTrade takerSide takerId (b.arena.orderAt makerIndex).id price execution])

/-- The maker part of `execute_match`: the maker and its level are reduced; a maker that is used up is unlinked, one whose displayed
slice is used up shows its next slice at the tail. -/
def reduceMaker (makerSide : Side) (levelIndex makerIndex execution : Nat) : OrderBook :=
  let maker := b.arena.orderAt makerIndex
  let priceLevel := b.level makerSide levelIndex
  let displayed := sub64 (b.displayedRemaining makerIndex) execution
  let b1 := b.setLevel makerSide levelIndex
    { priceLevel with aggregateQuantity := sub64 priceLevel.aggregateQuantity execution }
  let b2 := b1.setDisplayed makerIndex displayed
  if execution = maker.remaining then b2.unlink (b2.arena.handleAt makerIndex) 0
  else
    let remaining := sub64 maker.remaining execution
    let b3 := b2.setArena (b2.arena.setOrder makerIndex { maker with remaining })
    if displayed = 0 then (b3.setDisplayed makerIndex (min (b.displayQuantities makerIndex) remaining)).moveToTail makerIndex
    else b3

end OrderBook

namespace Execution

variable (x : Execution)

/-- `execute_match`. -/
def executeMatch (takerId : Nat) (takerSide : Side) (levelIndex makerIndex execution : Nat) : Execution :=
  match x.book.cfg.domain.priceAt levelIndex with
  | none => x
  | some price =>
    let (book, trades) := x.book.report takerId takerSide makerIndex price execution x.trades
    let book : OrderBook := { book with lastExecutionPrice := some price }
    { book := book.reduceMaker takerSide.opposite levelIndex makerIndex execution
      remaining := sub64 x.remaining execution
      trades }

/-- `match_level_fifo`. -/
def matchLevelFifo (takerId takerTraderId : Nat) (takerSide : Side) (levelIndex : Nat) : Comp Execution :=
  Comp.loop
    (fun (x : Execution) =>
      let makerIndex := (x.book.level takerSide.opposite levelIndex).headIndex
      if x.remaining = 0 ∨ makerIndex = kInvalidIndex then pure (.done x)
      else if x.book.cfg.selfTradePolicy = .cancelTaker ∧ x.book.traderIds makerIndex = takerTraderId then pure (.done x)
      else
        let execution := min x.remaining (x.book.displayedRemaining makerIndex)
        pure (.next (x.executeMatch takerId takerSide levelIndex makerIndex execution)))
    x

/-- The first loop of `match_level_threshold_pro_rata`: the displayed total, and the order at which the pass has to end. -/
def displayedTotal (takerTraderId : Nat) (headIndex : Nat) : Comp (Nat × Nat) :=
  Comp.loop
    (fun (st : Nat × Nat) =>
      if st.1 = kInvalidIndex then pure (.done (st.2, kInvalidIndex))
      else if x.book.cfg.selfTradePolicy = .cancelTaker ∧ x.book.traderIds st.1 = takerTraderId then pure (.done (st.2, st.1))
      else pure (.next ((x.book.arena.orderAt st.1).nextIndex, add64 st.2 (x.book.displayedRemaining st.1))))
    (headIndex, 0)

/-- What the pro-rata pass allocates to one order: its share of the quantity by displayed size, at most what it displays, and
nothing below the minimum. -/
def proRataShare (minimum displayed proRataQuantity totalDisplayed : Nat) : Nat :=
  let execution := min (displayed * proRataQuantity / totalDisplayed % 2 ^ 64) displayed
  if execution < minimum then 0 else execution

/-- The second loop of `match_level_threshold_pro_rata`. -/
def proRataPass (takerId : Nat) (takerSide : Side) (levelIndex totalDisplayed endIndex : Nat) : Comp Execution :=
  let proRataQuantity := x.remaining
  Comp.loop
    (fun (st : Nat × Execution) =>
      let index := st.1
      let x := st.2
      if index = endIndex ∨ index = kInvalidIndex ∨ x.remaining = 0 then pure (.done x)
      else
        let nextIndex := (x.book.arena.orderAt index).nextIndex
        let execution := proRataShare x.book.cfg.proRataMinimum (x.book.displayedRemaining index) proRataQuantity totalDisplayed
        if execution = 0 then pure (.next (nextIndex, x))
        else pure (.next (nextIndex, x.executeMatch takerId takerSide levelIndex index execution)))
    ((x.book.level takerSide.opposite levelIndex).headIndex, x)

/-- `match_level_threshold_pro_rata`. -/
def matchLevelThresholdProRata (takerId takerTraderId : Nat) (takerSide : Side) (levelIndex : Nat) : Comp Execution := do
  let (totalDisplayed, endIndex) ← x.displayedTotal takerTraderId (x.book.level takerSide.opposite levelIndex).headIndex
  let x ← if totalDisplayed = 0 then pure x else x.proRataPass takerId takerSide levelIndex totalDisplayed endIndex
  x.matchLevelFifo takerId takerTraderId takerSide levelIndex

/-- `match_level`. -/
def matchLevel (takerId takerTraderId : Nat) (takerSide : Side) (levelIndex : Nat) : Comp Execution :=
  match x.book.cfg.allocationMode with
  | .thresholdProRata => x.matchLevelThresholdProRata takerId takerTraderId takerSide levelIndex
  | .fifo => x.matchLevelFifo takerId takerTraderId takerSide levelIndex

/-- One round of the loop of `match`. -/
def matchRound (takerId takerTraderId : Nat) (takerSide : Side) (limitIndex : Option Nat) : Comp (Turn Execution Execution) :=
  if x.remaining = 0 then pure (.done x)
  else
    match x.book.bestIndex takerSide.opposite with
    | none => pure (.done x)
    | some makerLevel =>
      if limitIndex.any fun limit => !crosses takerSide makerLevel limit then pure (.done x)
      else do
        let x' ← x.matchLevel takerId takerTraderId takerSide makerLevel
        pure (.next x')

/-- `match`. -/
def matchTaker (takerId takerTraderId : Nat) (takerSide : Side) (limitIndex : Option Nat) : Comp Execution :=
  Comp.loop (fun x => x.matchRound takerId takerTraderId takerSide limitIndex) { x with book := x.book.advanceReportEpoch }

end Execution

namespace OrderBook

variable (b : OrderBook)

/-- What `activate_stop` does once its taker has matched: the remainder rests in the stop's own slot, or the slot is released; the
activation is recorded. -/
def finishActivation (handle : Handle) (stop : Order) (limitIndex : Option Nat) (remaining : Nat) : SubmitResult × OrderBook :=
  let (resting, b') : Handle × OrderBook :=
    match limitIndex with
    | some limit =>
      if remaining ≠ 0 then (handle, b.restExisting handle stop.id 0 stop.side limit remaining remaining)
      else (kInvalidHandle, b.setArena (b.arena.release handle))
    | none => (kInvalidHandle, b.setArena (b.arena.release handle))
  let executed := sub64 stop.remaining remaining
  (⟨.none, executed, remaining, 0, resting⟩,
    { b' with stopActivations := b'.stopActivations ++ [⟨stop.id, executed, remaining, resting⟩] })

/-- `activate_stop`: the result carries the number of reports written so far. -/
def activateStop (handle : Handle) (trades : List Trade) : Comp (SubmitResult × List Trade × OrderBook) := do
  let stop := b.arena.orderAt handle.index
  let limitIndex := if stop.stopMarket then none else b.cfg.domain.indexOf (b.stopLimitPrices handle.index)
  let x ← Execution.matchTaker ⟨b.detachStop handle.index, stop.remaining, trades⟩ stop.id 0 stop.side limitIndex
  let (result, b') := x.book.finishActivation handle stop limitIndex x.remaining
  pure ({ result with tradeCount := x.trades.length }, x.trades, b')

/-- The search of `trigger_stops`: the first dormant stop that is triggered, or `kInvalidIndex`. -/
def findTriggered : Comp Nat :=
  Comp.loop
    (fun index =>
      if index = kInvalidIndex then pure (.done index)
      else if b.stopIsTriggered (b.arena.orderAt index).side (b.stopTriggerPrices index) then pure (.done index)
      else pure (.next (b.stopNextIndices index)))
    b.stopHead

/-- `trigger_stops`. -/
def triggerStops (trades : List Trade) : Comp (List Trade × OrderBook) :=
  Comp.loop
    (fun (st : List Trade × OrderBook) => do
      let index ← st.2.findTriggered
      if index = kInvalidIndex then pure (.done st)
      else
        let (_, trades, b) ← st.2.activateStop (st.2.arena.handleAt index) st.1
        pure (.next (trades, b)))
    (trades, b)

/-! ## The opening auction -/

/-- The lambda `reduce` of `execute_auction_match`. -/
def auctionReduce (execution index : Nat) : OrderBook :=
  let order := b.arena.orderAt index
  let handle := b.arena.handleAt index
  let remaining := sub64 order.remaining execution
  if remaining = 0 then b.unlink handle execution
  else
    let priceLevel := b.level order.side order.level
    let displayed := sub64 (b.displayedRemaining index) execution
    let b1 := b.setArena (b.arena.setOrder index { order with remaining })
    let b2 := b1.setLevel order.side order.level
      { priceLevel with aggregateQuantity := sub64 priceLevel.aggregateQuantity execution }
    let b3 := b2.setDisplayed index displayed
    if displayed = 0 then (b3.setDisplayed index (min (b.displayQuantities index) remaining)).moveToTail index else b3

/-- `execute_auction_match`. -/
def executeAuctionMatch (bidIndex askIndex : Nat) (clearingPrice : Int) (execution : Nat) (trades : List Trade) :
    List Trade × OrderBook :=
  let trade : Trade := ⟨(b.arena.orderAt bidIndex).id, (b.arena.orderAt askIndex).id, clearingPrice, execution⟩
  (trades ++ [trade], (b.auctionReduce execution bidIndex).auctionReduce execution askIndex)

/-- The loop of `uncross_opening_auction` at the clearing level. -/
def auctionLoop (clearingLevel : Nat) (clearingPrice : Int) (x : Execution) : Comp Execution :=
  Comp.loop
    (fun (x : Execution) =>
      match x.book.bestIndex .buy, x.book.bestIndex .sell with
      | some bidLevel, some askLevel =>
        if x.remaining ≠ 0 ∧ clearingLevel ≤ bidLevel ∧ askLevel ≤ clearingLevel then
          let bidIndex := (x.book.level .buy bidLevel).headIndex
          let askIndex := (x.book.level .sell askLevel).headIndex
          let execution := min x.remaining (min (x.book.displayedRemaining bidIndex) (x.book.displayedRemaining askIndex))
          let (trades, book) := x.book.executeAuctionMatch bidIndex askIndex clearingPrice execution x.trades
          pure (.next ⟨book, sub64 x.remaining execution, trades⟩)
        else pure (.done x)
      | _, _ => pure (.done x))
    x

end OrderBook

/-- The running choice of `uncross_opening_auction`. -/
structure Clearing where
  level : Option Nat
  executable : Nat
  imbalance : Nat
  deriving DecidableEq, Repr

/-- The lambda `distance` of `uncross_opening_auction`. -/
def levelDistance (reference candidate : Nat) : Nat :=
  if reference < candidate then candidate - reference else reference - candidate

/-- Whether a candidate level is chosen over the running choice. -/
def betterClearing (reference level executable imbalance : Nat) (best : Clearing) : Bool :=
  decide (best.executable < executable) ||
    (executable == best.executable && decide (imbalance < best.imbalance)) ||
    (executable == best.executable && imbalance == best.imbalance &&
      (match best.level with
        | none => true
        | some chosen => decide (levelDistance reference level < levelDistance reference chosen))) ||
    (executable == best.executable && imbalance == best.imbalance &&
      (match best.level with
        | none => false
        | some chosen => levelDistance reference level == levelDistance reference chosen && decide (chosen < level)))

/-- The scan of `uncross_opening_auction` over `count` levels from `level` on, with the eligible quantities so far. The quantities at
each level are parameters: `bids` and `asks` are the `aggregate_quantity` of the two sides. -/
def scanClearing (bids asks : Nat → Nat) (reference : Nat) : Nat → Nat → Nat → Nat → Clearing → Clearing
  | 0, _, _, _, best => best
  | count + 1, level, eligibleBids, eligibleAsks, best =>
    let eligibleAsks := add64 eligibleAsks (asks level)
    let executable := min eligibleBids eligibleAsks
    let imbalance := if eligibleAsks < eligibleBids then eligibleBids - eligibleAsks else eligibleAsks - eligibleBids
    let best := if betterClearing reference level executable imbalance best then ⟨some level, executable, imbalance⟩ else best
    scanClearing bids asks reference count (level + 1) (sub64 eligibleBids (bids level)) eligibleAsks best

/-- The choice of `uncross_opening_auction` from the best levels and the quantities at each level. -/
def chooseClearing (bids asks : Nat → Nat) (bestBid bestAsk : Option Nat) : Clearing :=
  match bestBid, bestAsk with
  | some bid, some ask =>
    if ask ≤ bid then
      let reference := ask + (bid - ask) / 2
      let count := bid + 1 - ask
      let eligibleBids := (List.range count).foldl (fun sum i => add64 sum (bids (ask + i))) 0
      scanClearing bids asks reference count ask eligibleBids 0 ⟨none, 0, 2 ^ 64 - 1⟩
    else ⟨none, 0, 2 ^ 64 - 1⟩
  | _, _ => ⟨none, 0, 2 ^ 64 - 1⟩

end MatchingEngine

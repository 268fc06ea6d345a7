import MatchingEngine.Check
import Mathlib.Tactic.Simps.Basic

/-!
# The visit marks

Only `check_invariants` reads and writes the visit marks of a book. Every other operation does the same on books that differ in
nothing else, and leaves the marks as they are (`OrderBook.apply_withMarks`).
-/

namespace MatchingEngine

open Function

/-- The book with other visit marks. -/
@[simps]
def OrderBook.withMarks (marks : Nat → Nat) (epoch : Nat) (b : OrderBook) : OrderBook := { b with visitMarks := marks, visitEpoch := epoch }

@[inherit_doc OrderBook.withMarks, simps]
def Execution.withMarks (marks : Nat → Nat) (epoch : Nat) (x : Execution) : Execution := { x with book := x.book.withMarks marks epoch }

variable {m : Nat → Nat} {e : Nat}

/-! ## Primitives -/

namespace OrderBook

variable (b : OrderBook)

/-- A choice between books with other marks is the book chosen, with these. -/
@[simp] theorem withMarks_ite {c : Prop} [Decidable c] (b' : OrderBook) :
    (if c then b else b').withMarks m e = if c then b.withMarks m e else b'.withMarks m e := apply_ite (withMarks m e) c b b'

/-- A level is read past the marks. -/
@[simp] theorem level_withMarks (side : Side) (index : Nat) : (b.withMarks m e).level side index = b.level side index := rfl

/-- A level is written past the marks. -/
@[simp] theorem setLevel_withMarks (side : Side) (index : Nat) (value : PriceLevel) :
    (b.withMarks m e).setLevel side index value = (b.setLevel side index value).withMarks m e := rfl

/-- So is an occupancy bitmap. -/
@[simp] theorem setOccupancy_withMarks (side : Side) (value : HierarchicalBitmap) :
    (b.withMarks m e).setOccupancy side value = (b.setOccupancy side value).withMarks m e := rfl

/-- So is the arena. -/
@[simp] theorem setArena_withMarks (arena : OrderArena) : (b.withMarks m e).setArena arena = (b.setArena arena).withMarks m e := rfl

/-- So is a displayed quantity. -/
@[simp] theorem setDisplayed_withMarks (index value : Nat) :
    (b.withMarks m e).setDisplayed index value = (b.setDisplayed index value).withMarks m e := rfl

/-- So are the trader and the display of a resting order. -/
@[simp] theorem setResting_withMarks (index traderId displayQuantity : Nat) :
    (b.withMarks m e).setResting index traderId displayQuantity = (b.setResting index traderId displayQuantity).withMarks m e := rfl

/-- `move_to_tail` leaves the marks. -/
@[simp] theorem moveToTail_withMarks (orderIndex : Nat) :
    (b.withMarks m e).moveToTail orderIndex = (b.moveToTail orderIndex).withMarks m e := by
  simp [moveToTail]

/-- `unlink` leaves the marks. -/
@[simp] theorem unlink_withMarks (handle : Handle) (reduction : Nat) :
    (b.withMarks m e).unlink handle reduction = (b.unlink handle reduction).withMarks m e := by
  unfold unlink
  simp only [withMarks_arena, level_withMarks, setLevel_withMarks, withMarks_occupancy, setOccupancy_withMarks, ← setArena_withMarks,
    withMarks_ite]

/-- Linking a resting order leaves the marks. -/
@[simp] theorem linkResting_withMarks (index traderId : Nat) (side : Side) (levelIndex remaining displayQuantity : Nat) :
    (b.withMarks m e).linkResting index traderId side levelIndex remaining displayQuantity =
      (b.linkResting index traderId side levelIndex remaining displayQuantity).withMarks m e := by
  simp [linkResting]

/-- The order that rests does not depend on the marks. -/
@[simp] theorem restingOrder_withMarks (orderId : Nat) (side : Side) (levelIndex remaining : Nat) :
    (b.withMarks m e).restingOrder orderId side levelIndex remaining = b.restingOrder orderId side levelIndex remaining := rfl

/-- `rest` gives the same handle and leaves the marks. -/
@[simp] theorem rest_withMarks (orderId traderId : Nat) (side : Side) (levelIndex remaining displayQuantity : Nat) :
    (b.withMarks m e).rest orderId traderId side levelIndex remaining displayQuantity =
      Prod.map id (withMarks m e) (b.rest orderId traderId side levelIndex remaining displayQuantity) := by
  simp [rest]

/-- `rest_existing` leaves the marks. -/
@[simp] theorem restExisting_withMarks (handle : Handle) (orderId traderId : Nat) (side : Side) (levelIndex remaining displayQuantity : Nat) :
    (b.withMarks m e).restExisting handle orderId traderId side levelIndex remaining displayQuantity =
      (b.restExisting handle orderId traderId side levelIndex remaining displayQuantity).withMarks m e := by
  simp [restExisting]

/-- Linking a stop leaves the marks. -/
@[simp] theorem linkStop_withMarks (index : Nat) (triggerPrice : Int) (limitPrice : Option Int) :
    (b.withMarks m e).linkStop index triggerPrice limitPrice = (b.linkStop index triggerPrice limitPrice).withMarks m e := rfl

/-- `rest_stop` gives the same handle and leaves the marks. -/
@[simp] theorem restStop_withMarks (orderId : Nat) (side : Side) (triggerPrice : Int) (limitPrice : Option Int) (quantity : Nat) :
    (b.withMarks m e).restStop orderId side triggerPrice limitPrice quantity =
      Prod.map id (withMarks m e) (b.restStop orderId side triggerPrice limitPrice quantity) := rfl

/-- `detach_stop` leaves the marks. -/
@[simp] theorem detachStop_withMarks (index : Nat) : (b.withMarks m e).detachStop index = (b.detachStop index).withMarks m e := rfl

/-- `unlink_stop` leaves the marks. -/
@[simp] theorem unlinkStop_withMarks (handle : Handle) : (b.withMarks m e).unlinkStop handle = (b.unlinkStop handle).withMarks m e := rfl

/-- `reset_stop_activations` leaves the marks. -/
@[simp] theorem resetStopActivations_withMarks : (b.withMarks m e).resetStopActivations = b.resetStopActivations.withMarks m e := rfl

/-- The report epoch is another counter than the one of the marks. -/
@[simp] theorem advanceReportEpoch_withMarks : (b.withMarks m e).advanceReportEpoch = b.advanceReportEpoch.withMarks m e := by
  unfold advanceReportEpoch
  simp only [withMarks_tradeReportEpoch, withMarks_ite]
  rfl

/-- A report is the same and leaves the marks. -/
theorem report_withMarks (takerId : Nat) (takerSide : Side) (makerIndex : Nat) (price : Int) (execution : Nat) (trades : List Trade) :
    (b.withMarks m e).report takerId takerSide makerIndex price execution trades =
      Prod.map (withMarks m e) id (b.report takerId takerSide makerIndex price execution trades) := by
  unfold report
  simp only [withMarks_tradeReportEpoch, withMarks_tradeReportEpochs, apply_ite (Prod.map (withMarks m e) id)]
  rfl

/-- A maker is reduced past the marks. -/
@[simp] theorem reduceMaker_withMarks (makerSide : Side) (levelIndex makerIndex execution : Nat) :
    (b.withMarks m e).reduceMaker makerSide levelIndex makerIndex execution =
      (b.reduceMaker makerSide levelIndex makerIndex execution).withMarks m e := by
  simp [reduceMaker]

/-- So is an order in the auction. -/
@[simp] theorem auctionReduce_withMarks (execution index : Nat) :
    (b.withMarks m e).auctionReduce execution index = (b.auctionReduce execution index).withMarks m e := by
  simp [auctionReduce]

/-! ## Reading -/

/-- The best level does not depend on the marks. -/
@[simp] theorem bestIndex_withMarks (side : Side) : (b.withMarks m e).bestIndex side = b.bestIndex side := rfl

/-- Nor does the required trade capacity. -/
@[simp] theorem requiredTradeCapacity_withMarks : (b.withMarks m e).requiredTradeCapacity = b.requiredTradeCapacity := rfl

/-- Nor does the check against self-trades. -/
@[simp] theorem wouldSelfTrade_withMarks (traderId : Nat) (side : Side) (limitIndex : Nat) :
    (b.withMarks m e).wouldSelfTrade traderId side limitIndex = b.wouldSelfTrade traderId side limitIndex := rfl

/-- Nor does the trigger of a stop. -/
@[simp] theorem stopIsTriggered_withMarks (side : Side) (triggerPrice : Int) :
    (b.withMarks m e).stopIsTriggered side triggerPrice = b.stopIsTriggered side triggerPrice := rfl

/-- Nor does the stop that is triggered next. -/
@[simp] theorem findTriggered_withMarks : (b.withMarks m e).findTriggered = b.findTriggered := rfl

/-- Nor does `order_info`. -/
@[simp] theorem orderInfo_withMarks (handle : Handle) : (b.withMarks m e).orderInfo handle = b.orderInfo handle := rfl

/-- Nor do the checks of a submission. -/
@[simp] theorem preflight_withMarks (side : UInt8) (quantity : Nat) : (b.withMarks m e).preflight side quantity = b.preflight side quantity := rfl

/-- Nor do those of a limit order. -/
@[simp] theorem preflightLimit_withMarks (side : UInt8) (price : Int) (quantity : Nat) (timeInForce : UInt8) :
    (b.withMarks m e).preflightLimit side price quantity timeInForce = b.preflightLimit side price quantity timeInForce := rfl

/-- Nor do those of a post-only order. -/
@[simp] theorem preflightPostOnly_withMarks (side : UInt8) (price : Int) (quantity : Nat) :
    (b.withMarks m e).preflightPostOnly side price quantity = b.preflightPostOnly side price quantity := rfl

/-- Nor do those of a market order. -/
@[simp] theorem preflightMarket_withMarks (side : UInt8) (quantity : Nat) :
    (b.withMarks m e).preflightMarket side quantity = b.preflightMarket side quantity := rfl

/-- Nor do those of a stop. -/
@[simp] theorem preflightStop_withMarks (side : UInt8) (limitPrice : Option Int) (quantity : Nat) :
    (b.withMarks m e).preflightStop side limitPrice quantity = b.preflightStop side limitPrice quantity := rfl

/-- Nor do those of a replacement. -/
@[simp] theorem preflightReplace_withMarks (handle : Handle) (newPrice : Int) (newQuantity : Nat) :
    (b.withMarks m e).preflightReplace handle newPrice newQuantity = b.preflightReplace handle newPrice newQuantity := rfl

end OrderBook

/-! ## Matching -/

namespace Execution

variable (x : Execution)

/-- One execution leaves the marks. -/
theorem executeMatch_withMarks (takerId : Nat) (takerSide : Side) (levelIndex makerIndex execution : Nat) :
    (x.withMarks m e).executeMatch takerId takerSide levelIndex makerIndex execution =
      (x.executeMatch takerId takerSide levelIndex makerIndex execution).withMarks m e := by
  unfold executeMatch
  simp only [withMarks_book, OrderBook.withMarks_cfg]
  cases x.book.cfg.domain.priceAt levelIndex with
  | none => rfl
  | some price =>
    simp only [OrderBook.report_withMarks, withMarks_trades]
    generalize x.book.report takerId takerSide makerIndex price execution x.trades = reported
    exact congrArg (fun book : OrderBook => (⟨book, _, _⟩ : Execution)) (OrderBook.reduceMaker_withMarks { reported.1 with lastExecutionPrice := some price } _ _ _ _)

/-- The FIFO loop over a level leaves the marks, by induction on its rounds. -/
theorem matchLevelFifo_withMarks (takerId takerTraderId : Nat) (takerSide : Side) (levelIndex : Nat) :
    (x.withMarks m e).matchLevelFifo takerId takerTraderId takerSide levelIndex =
      withMarks m e <$> x.matchLevelFifo takerId takerTraderId takerSide levelIndex := by
  refine Comp.loop_map (withMarks m e) (withMarks m e) (fun x => ?_) x
  simp only [withMarks_book, withMarks_remaining, OrderBook.level_withMarks, OrderBook.withMarks_cfg, OrderBook.withMarks_traderIds,
    OrderBook.withMarks_displayedRemaining, executeMatch_withMarks]
  split
  · rw [map_pure]
    rfl
  split
  · rw [map_pure]
    rfl
  · rw [map_pure]
    rfl

/-- The displayed total does not depend on the marks. -/
@[simp] theorem displayedTotal_withMarks (takerTraderId headIndex : Nat) :
    (x.withMarks m e).displayedTotal takerTraderId headIndex = x.displayedTotal takerTraderId headIndex := rfl

/-- The pro-rata pass leaves the marks, by induction on its rounds. -/
theorem proRataPass_withMarks (takerId : Nat) (takerSide : Side) (levelIndex totalDisplayed endIndex : Nat) :
    (x.withMarks m e).proRataPass takerId takerSide levelIndex totalDisplayed endIndex =
      withMarks m e <$> x.proRataPass takerId takerSide levelIndex totalDisplayed endIndex := by
  refine Comp.loop_map (Prod.map id (withMarks m e)) (withMarks m e) (fun st => ?_) (_, x)
  obtain ⟨index, y⟩ := st
  simp only [Prod.map_apply, id_eq, withMarks_book, withMarks_remaining, OrderBook.withMarks_arena, OrderBook.withMarks_cfg,
    OrderBook.withMarks_displayedRemaining, executeMatch_withMarks]
  split
  · rw [map_pure]
    rfl
  split
  · rw [map_pure]
    rfl
  · rw [map_pure]
    rfl

/-- A level is matched past the marks under either allocation mode. -/
theorem matchLevel_withMarks (takerId takerTraderId : Nat) (takerSide : Side) (levelIndex : Nat) :
    (x.withMarks m e).matchLevel takerId takerTraderId takerSide levelIndex =
      withMarks m e <$> x.matchLevel takerId takerTraderId takerSide levelIndex := by
  unfold matchLevel
  simp only [withMarks_book, OrderBook.withMarks_cfg]
  cases x.book.cfg.allocationMode with
  | fifo => exact x.matchLevelFifo_withMarks takerId takerTraderId takerSide levelIndex
  | thresholdProRata =>
    unfold matchLevelThresholdProRata
    simp only [displayedTotal_withMarks, withMarks_book, OrderBook.level_withMarks, map_bind]
    refine bind_congr fun total => ?_
    split
    · simp only [pure_bind]
      exact x.matchLevelFifo_withMarks takerId takerTraderId takerSide levelIndex
    · rw [proRataPass_withMarks, bind_map_left, map_bind]
      exact bind_congr fun (y : Execution) => y.matchLevelFifo_withMarks takerId takerTraderId takerSide levelIndex

/-- So is a taker against all its levels. -/
theorem matchTaker_withMarks (takerId takerTraderId : Nat) (takerSide : Side) (limitIndex : Option Nat) :
    (x.withMarks m e).matchTaker takerId takerTraderId takerSide limitIndex =
      withMarks m e <$> x.matchTaker takerId takerTraderId takerSide limitIndex := by
  unfold matchTaker
  simp only [withMarks_book, OrderBook.advanceReportEpoch_withMarks]
  refine Comp.loop_map (withMarks m e) (withMarks m e) (fun y => ?_) { x with book := x.book.advanceReportEpoch }
  unfold matchRound
  simp only [withMarks_remaining, withMarks_book, OrderBook.bestIndex_withMarks]
  split
  · rw [map_pure]
    rfl
  cases y.book.bestIndex takerSide.opposite with
  | none =>
    simp only [map_pure]
    rfl
  | some makerLevel =>
    simp only
    split
    · rw [map_pure]
      rfl
    · rw [matchLevel_withMarks, bind_map_left, map_bind]
      refine bind_congr fun z => ?_
      rw [map_pure]
      rfl

end Execution

/-! ## Operations -/

namespace OrderBook

variable (b : OrderBook)

/-- The end of an activation gives the same handle and leaves the marks. -/
theorem finishActivation_withMarks (handle : Handle) (stop : Order) (limitIndex : Option Nat) (remaining : Nat) :
    (b.withMarks m e).finishActivation handle stop limitIndex remaining =
      Prod.map id (withMarks m e) (b.finishActivation handle stop limitIndex remaining) := by
  unfold finishActivation
  cases limitIndex with
  | none => rfl
  | some limit =>
    simp only [restExisting_withMarks, withMarks_arena, setArena_withMarks]
    split
    · rfl
    · rfl

/-- What `activate_stop` and the submissions return: the result, the reports and the book. -/
abbrev mapBook (m : Nat → Nat) (e : Nat) : SubmitResult × List Trade × OrderBook → SubmitResult × List Trade × OrderBook :=
  Prod.map id (Prod.map id (withMarks m e))

/-- The activation of a stop leaves the marks. -/
theorem activateStop_withMarks (handle : Handle) (trades : List Trade) :
    (b.withMarks m e).activateStop handle trades = mapBook m e <$> b.activateStop handle trades := by
  unfold activateStop
  simp only [withMarks_arena, withMarks_cfg, withMarks_stopLimitPrices, detachStop_withMarks, map_bind]
  rw [show (⟨(b.detachStop handle.index).withMarks m e, (b.arena.orderAt handle.index).remaining, trades⟩ : Execution) =
    Execution.withMarks m e ⟨b.detachStop handle.index, (b.arena.orderAt handle.index).remaining, trades⟩ from rfl,
    Execution.matchTaker_withMarks, bind_map_left]
  refine bind_congr fun x => ?_
  simp only [Execution.withMarks_book, Execution.withMarks_remaining, Execution.withMarks_trades, finishActivation_withMarks, map_pure]
  rfl

/-- So does a cascade of them. -/
theorem triggerStops_withMarks (trades : List Trade) :
    (b.withMarks m e).triggerStops trades = Prod.map id (withMarks m e) <$> b.triggerStops trades := by
  refine Comp.loop_map (Prod.map id (withMarks m e)) (Prod.map id (withMarks m e)) (fun st => ?_) (trades, b)
  simp only [Prod.map_snd, Prod.map_fst, findTriggered_withMarks, map_bind]
  refine bind_congr fun index => ?_
  split
  · rw [map_pure]
    rfl
  · rw [withMarks_arena, activateStop_withMarks, bind_map_left, map_bind]
    refine bind_congr fun r => ?_
    rw [map_pure]
    rfl

/-- The end of a submission leaves the marks. -/
theorem concludeSubmission_withMarks (quantity remaining : Nat) (handle : Handle) (trades : List Trade) :
    (b.withMarks m e).concludeSubmission quantity remaining handle trades =
      mapBook m e <$> b.concludeSubmission quantity remaining handle trades := by
  unfold concludeSubmission
  rw [triggerStops_withMarks, bind_map_left, map_bind]
  refine bind_congr fun r => ?_
  rw [map_pure]
  rfl

/-- What follows the matching of a taker, when it keeps the marks. -/
theorem bind_matchTaker_withMarks {k : Execution → Comp (SubmitResult × List Trade × OrderBook)}
    (h : ∀ x, k (x.withMarks m e) = mapBook m e <$> k x) (quantity takerId takerTraderId : Nat) (takerSide : Side)
    (limitIndex : Option Nat) :
    (Execution.matchTaker ⟨b.withMarks m e, quantity, []⟩ takerId takerTraderId takerSide limitIndex >>= k) =
      mapBook m e <$> (Execution.matchTaker ⟨b, quantity, []⟩ takerId takerTraderId takerSide limitIndex >>= k) := by
  rw [show (⟨b.withMarks m e, quantity, []⟩ : Execution) = Execution.withMarks m e ⟨b, quantity, []⟩ from rfl,
    Execution.matchTaker_withMarks, bind_map_left, map_bind]
  exact bind_congr h

/-- The end of a submission: what is left of the taker rests or not, and the stops are triggered. -/
theorem conclude_withMarks {r r' : Handle × OrderBook} (h : r' = Prod.map id (withMarks m e) r) (quantity remaining : Nat)
    (trades : List Trade) :
    r'.2.concludeSubmission quantity remaining r'.1 trades = mapBook m e <$> r.2.concludeSubmission quantity remaining r.1 trades := by
  rw [h]
  exact concludeSubmission_withMarks _ _ _ _ _

/-- The remainder of a taker rests when `c` holds. -/
theorem restIf_withMarks {c : Prop} [Decidable c] (x : Execution) (orderId traderId : Nat) (side : Side)
    (levelIndex remaining displayQuantity : Nat) :
    (if c then (x.withMarks m e).book.rest orderId traderId side levelIndex remaining displayQuantity
        else (kInvalidHandle, (x.withMarks m e).book)) =
      Prod.map id (withMarks m e) (if c then x.book.rest orderId traderId side levelIndex remaining displayQuantity
        else (kInvalidHandle, x.book)) := by
  rw [Execution.withMarks_book]
  split
  · exact rest_withMarks _ _ _ _ _ _ _
  · rfl

/-- What is left of a taker rests, or does not, past the marks. -/
theorem restUnless_withMarks {c : Prop} [Decidable c] (x : Execution) (orderId traderId : Nat) (side : Side)
    (levelIndex remaining displayQuantity : Nat) :
    (if c then (kInvalidHandle, (x.withMarks m e).book)
        else (x.withMarks m e).book.rest orderId traderId side levelIndex remaining displayQuantity) =
      Prod.map id (withMarks m e) (if c then (kInvalidHandle, x.book)
        else x.book.rest orderId traderId side levelIndex remaining displayQuantity) := by
  rw [Execution.withMarks_book]
  split
  · rfl
  · exact rest_withMarks _ _ _ _ _ _ _

/-- `submit_limit` does the same whatever the marks. -/
theorem submitLimit_withMarks (orderId traderId : Nat) (side : UInt8) (price : Int) (quantity : Nat) (timeInForce : UInt8) (tradesSize : Nat) :
    (b.withMarks m e).submitLimit orderId traderId side price quantity timeInForce tradesSize =
      mapBook m e <$> b.submitLimit orderId traderId side price quantity timeInForce tradesSize := by
  unfold submitLimit
  simp only [resetStopActivations_withMarks, preflight_withMarks, requiredTradeCapacity_withMarks, preflightLimit_withMarks, withMarks_cfg,
    wouldSelfTrade_withMarks, withMarks_tradingState]
  split
  · rw [map_pure]
    rfl
  cases b.resetStopActivations.preflight side quantity with
  | error reason =>
    simp only [map_pure]
    rfl
  | ok _ =>
    simp only
    split
    · rw [map_pure]
      rfl
    rw [map_bind]
    refine bind_congr fun checked => ?_
    cases checked with
    | error reason =>
      simp only [map_pure]
      rfl
    | ok checked =>
      obtain ⟨side', levelIndex, timeInForce'⟩ := checked
      simp only [pure_bind, Bool.false_eq_true, if_false]
      split
      · rw [map_bind]
        refine bind_congr fun selfTrade => ?_
        split
        · rw [map_pure]
          rfl
        split
        · exact bind_matchTaker_withMarks _ (fun x => conclude_withMarks (restIf_withMarks x _ _ _ _ _ _) _ _ _) _ _ _ _ _
        · exact conclude_withMarks (restIf_withMarks ⟨b.resetStopActivations, quantity, []⟩ _ _ _ _ _ _) _ _ _
      · split
        · exact bind_matchTaker_withMarks _ (fun x => conclude_withMarks (restIf_withMarks x _ _ _ _ _ _) _ _ _) _ _ _ _ _
        · exact conclude_withMarks (restIf_withMarks ⟨b.resetStopActivations, quantity, []⟩ _ _ _ _ _ _) _ _ _

/-- So does `submit_post_only`. -/
theorem submitPostOnly_withMarks (orderId : Nat) (side : UInt8) (price : Int) (quantity tradesSize : Nat) :
    (b.withMarks m e).submitPostOnly orderId side price quantity tradesSize =
      mapBook m e <$> b.submitPostOnly orderId side price quantity tradesSize := by
  unfold submitPostOnly
  rw [requiredTradeCapacity_withMarks, preflightPostOnly_withMarks]
  by_cases h : tradesSize < b.requiredTradeCapacity
  · rw [if_pos h, if_pos h, map_pure]
    rfl
  rw [if_neg h, if_neg h]
  cases b.preflightPostOnly side price quantity
  case none => exact submitLimit_withMarks _ _ _ _ _ _ _ _
  all_goals rfl

/-- So does `submit_iceberg`. -/
theorem submitIceberg_withMarks (orderId traderId : Nat) (side : UInt8) (price : Int) (quantity displayQuantity tradesSize : Nat) :
    (b.withMarks m e).submitIceberg orderId traderId side price quantity displayQuantity tradesSize =
      mapBook m e <$> b.submitIceberg orderId traderId side price quantity displayQuantity tradesSize := by
  unfold submitIceberg
  simp only [resetStopActivations_withMarks, preflight_withMarks, requiredTradeCapacity_withMarks, preflightLimit_withMarks, withMarks_cfg,
    wouldSelfTrade_withMarks, withMarks_tradingState]
  split
  · rw [map_pure]
    rfl
  split
  · rw [map_pure]
    rfl
  cases b.resetStopActivations.preflight side quantity with
  | error reason =>
    simp only [map_pure]
    rfl
  | ok _ =>
    simp only
    split
    · rw [map_pure]
      rfl
    rw [map_bind]
    refine bind_congr fun checked => ?_
    cases checked with
    | error reason =>
      simp only [map_pure]
      rfl
    | ok checked =>
      obtain ⟨side', levelIndex, timeInForce'⟩ := checked
      simp only [pure_bind, Bool.false_eq_true, if_false]
      split
      · rw [map_bind]
        refine bind_congr fun selfTrade => ?_
        split
        · rw [map_pure]
          rfl
        · exact bind_matchTaker_withMarks _ (fun x => conclude_withMarks (restUnless_withMarks x _ _ _ _ _ _) _ _ _) _ _ _ _ _
      · exact bind_matchTaker_withMarks _ (fun x => conclude_withMarks (restUnless_withMarks x _ _ _ _ _ _) _ _ _) _ _ _ _ _

/-- So does `submit_market`. -/
theorem submitMarket_withMarks (orderId : Nat) (side : UInt8) (quantity tradesSize : Nat) :
    (b.withMarks m e).submitMarket orderId side quantity tradesSize = mapBook m e <$> b.submitMarket orderId side quantity tradesSize := by
  unfold submitMarket
  rw [resetStopActivations_withMarks]
  dsimp only
  rw [preflightMarket_withMarks, requiredTradeCapacity_withMarks]
  cases b.resetStopActivations.preflightMarket side quantity with
  | error reason =>
    simp only [map_pure]
    rfl
  | ok side' =>
    simp only
    by_cases h : tradesSize < b.resetStopActivations.requiredTradeCapacity
    · rw [if_pos h, if_pos h, map_pure]
      rfl
    · rw [if_neg h, if_neg h]
      refine bind_matchTaker_withMarks _ (fun x => ?_) _ _ _ _ _
      exact concludeSubmission_withMarks x.book _ _ _ _

/-- So do the two submissions of a stop. -/
theorem submitStopOrder_withMarks (orderId : Nat) (side : UInt8) (triggerPrice : Int) (limitPrice : Option Int) (quantity tradesSize : Nat) :
    (b.withMarks m e).submitStopOrder orderId side triggerPrice limitPrice quantity tradesSize =
      mapBook m e <$> b.submitStopOrder orderId side triggerPrice limitPrice quantity tradesSize := by
  unfold submitStopOrder
  rw [resetStopActivations_withMarks]
  dsimp only
  rw [preflightStop_withMarks, requiredTradeCapacity_withMarks]
  cases b.resetStopActivations.preflightStop side limitPrice quantity with
  | error reason =>
    simp only [map_pure]
    rfl
  | ok side' =>
    simp only
    by_cases h : tradesSize < b.resetStopActivations.requiredTradeCapacity
    · rw [if_pos h, if_pos h, map_pure]
      rfl
    rw [if_neg h, if_neg h, restStop_withMarks]
    obtain ⟨handle, b'⟩ := b.resetStopActivations.restStop orderId side' triggerPrice limitPrice quantity
    rw [Prod.map_apply]
    dsimp only
    rw [stopIsTriggered_withMarks]
    by_cases ht : b'.stopIsTriggered side' triggerPrice = true
    · rw [if_pos ht, if_pos ht, activateStop_withMarks, bind_map_left, map_bind]
      refine bind_congr fun (r : SubmitResult × List Trade × OrderBook) => ?_
      simp only [Prod.map_snd, Prod.map_fst, id_eq, triggerStops_withMarks, bind_map_left, map_bind]
      refine bind_congr fun (r' : List Trade × OrderBook) => ?_
      rw [map_pure]
      rfl
    · rw [if_neg ht, if_neg ht, map_pure]
      rfl

/-- So does `cancel`. -/
theorem cancel_withMarks (handle : Handle) : (b.withMarks m e).cancel handle = Prod.map id (withMarks m e) (b.cancel handle) := by
  unfold cancel
  rw [withMarks_arena]
  cases b.arena.resolve handle with
  | none => rfl
  | some order =>
    simp only [unlinkStop_withMarks, unlink_withMarks, Prod.map_apply, id_eq, withMarks_ite]

/-- So does `amend_quantity`. -/
theorem amendQuantity_withMarks (handle : Handle) (newRemaining : Nat) :
    (b.withMarks m e).amendQuantity handle newRemaining = Prod.map id (withMarks m e) (b.amendQuantity handle newRemaining) := by
  unfold amendQuantity
  rw [withMarks_arena]
  cases b.arena.resolve handle with
  | none => rfl
  | some order =>
    simp only [withMarks_cfg, setArena_withMarks, level_withMarks, setLevel_withMarks, withMarks_displayedRemaining, setDisplayed_withMarks]
    repeat' split
    all_goals rfl

/-- So does `replace`. -/
theorem replace_withMarks (handle : Handle) (newPrice : Int) (newQuantity tradesSize : Nat) :
    (b.withMarks m e).replace handle newPrice newQuantity tradesSize = mapBook m e <$> b.replace handle newPrice newQuantity tradesSize := by
  unfold replace
  simp only [resetStopActivations_withMarks, preflightReplace_withMarks, requiredTradeCapacity_withMarks, withMarks_arena, unlink_withMarks]
  split
  · rw [map_pure]
    rfl
  split
  · rw [map_pure]
    rfl
  split
  · rw [map_pure]
    rfl
  · exact submitLimit_withMarks _ _ _ _ _ _ _ _

/-- The loop of the uncross leaves the marks, by induction on its rounds. -/
theorem auctionLoop_withMarks (clearingLevel : Nat) (clearingPrice : Int) (x : Execution) :
    auctionLoop clearingLevel clearingPrice (x.withMarks m e) = Execution.withMarks m e <$> auctionLoop clearingLevel clearingPrice x := by
  refine Comp.loop_map (Execution.withMarks m e) (Execution.withMarks m e) (fun y => ?_) x
  simp only [Execution.withMarks_book, bestIndex_withMarks, Execution.withMarks_remaining, level_withMarks, withMarks_displayedRemaining,
    Execution.withMarks_trades, executeAuctionMatch, withMarks_arena, auctionReduce_withMarks]
  cases y.book.bestIndex .buy with
  | none =>
    simp only [map_pure]
    rfl
  | some bidLevel =>
    cases y.book.bestIndex .sell with
    | none =>
      simp only [map_pure]
      rfl
    | some askLevel =>
      simp only
      split
      · rw [map_pure]
        rfl
      · rw [map_pure]
        rfl

/-- `uncross_opening_auction` does the same whatever the marks. -/
theorem uncrossOpeningAuction_withMarks (tradesSize : Nat) :
    (b.withMarks m e).uncrossOpeningAuction tradesSize =
      Prod.map id (Prod.map id (withMarks m e)) <$> b.uncrossOpeningAuction tradesSize := by
  unfold uncrossOpeningAuction
  rw [withMarks_tradingState, requiredTradeCapacity_withMarks]
  simp only [level_withMarks, bestIndex_withMarks, withMarks_cfg]
  by_cases hstate : b.tradingState ≠ .openingAuction
  · rw [if_pos hstate, if_pos hstate, map_pure]
    rfl
  rw [if_neg hstate, if_neg hstate]
  by_cases hsize : tradesSize < b.requiredTradeCapacity
  · rw [if_pos hsize, if_pos hsize, map_pure]
    rfl
  rw [if_neg hsize, if_neg hsize]
  generalize chooseClearing (fun i => (b.level .buy i).aggregateQuantity) (fun i => (b.level .sell i).aggregateQuantity)
    (b.bestIndex .buy) (b.bestIndex .sell) = clearing
  cases clearing.level.bind fun level => (b.cfg.domain.priceAt level).map fun price => (level, price) with
  | none =>
    simp only [map_pure]
    rfl
  | some found =>
    simp only
    by_cases hzero : clearing.executable = 0
    · rw [if_pos hzero, if_pos hzero, map_pure]
      rfl
    · rw [if_neg hzero, if_neg hzero]
      have hloop := auctionLoop_withMarks (m := m) (e := e) found.1 found.2 ⟨{ b with tradingState := .continuous }, clearing.executable, []⟩
      rw [map_bind]
      refine (congrArg (· >>= _) hloop).trans ?_
      rw [bind_map_left]
      refine bind_congr fun x => ?_
      rw [map_pure]
      rfl

/-- One call on a book with other marks: the same outcome, and the same book with these marks. -/
theorem apply_withMarks (op : Op) : (b.withMarks m e).apply op = Prod.map id (withMarks m e) <$> b.apply op := by
  have hsubmitted : ∀ c : Comp (SubmitResult × List Trade × OrderBook),
      (do return submitted (← mapBook m e <$> c)) = Prod.map id (withMarks m e) <$> (do return submitted (← c)) := by
    intro c
    rw [bind_map_left, map_bind]
    exact bind_congr fun r => (map_pure _ _).symm
  cases op with
  | submitLimit orderId traderId side price quantity timeInForce tradesSize =>
    simp only [apply, submitLimit_withMarks]
    exact hsubmitted _
  | submitPostOnly orderId side price quantity tradesSize =>
    simp only [apply, submitPostOnly_withMarks]
    exact hsubmitted _
  | submitIceberg orderId traderId side price quantity displayQuantity tradesSize =>
    simp only [apply, submitIceberg_withMarks]
    exact hsubmitted _
  | submitMarket orderId side quantity tradesSize =>
    simp only [apply, submitMarket_withMarks]
    exact hsubmitted _
  | submitStop orderId side triggerPrice quantity tradesSize =>
    simp only [apply, submitStop, submitStopOrder_withMarks]
    exact hsubmitted _
  | submitStopLimit orderId side triggerPrice limitPrice quantity tradesSize =>
    simp only [apply, submitStopLimit, submitStopOrder_withMarks]
    exact hsubmitted _
  | cancel handle =>
    simp only [apply, cancel_withMarks, map_pure]
    rfl
  | amendQuantity handle newRemaining =>
    simp only [apply, amendQuantity_withMarks, map_pure]
    rfl
  | replace handle newPrice newQuantity tradesSize =>
    simp only [apply, replace_withMarks]
    exact hsubmitted _
  | uncrossOpeningAuction tradesSize =>
    simp only [apply, uncrossOpeningAuction_withMarks, bind_map_left, map_bind, map_pure]
    rfl

end OrderBook

end MatchingEngine

import MatchingEngine.Engine
import MatchingEngine.Protocol

/-!
# The publisher of the best levels

`MbpPublisher` of `mbp_publisher.cpp`: after an event, a frame that says what rests at the best price of a side.
-/

namespace MatchingEngine

inductive MbpPublishStatus where
  | published
  | outputError
  deriving DecidableEq, Repr

/-- `MbpPublisher`. -/
structure MbpPublisher where
  lastError : MarketDataFrameError := .none
  deriving DecidableEq, Repr

/-- The message of a best price and what rests there; without a price it says zeros. -/
def MbpPublisher.message (event : EngineEvent) (side : UInt8) (price : Option Int) (level : Option LevelInfo) : MarketDataMessage where
  sequence := event.commandSequence
  orderId := 0
  secondaryOrderId := 0
  price := Int64.ofInt (price.getD 0)
  quantity := UInt64.ofNat (level.elim 0 LevelInfo.aggregateQuantity)
  secondaryQuantity := 0
  orderCount := UInt32.ofNat (level.elim 0 LevelInfo.orderCount)
  type := 5
  side

/-- `publish_best`. -/
def MbpPublisher.publishBest (event : EngineEvent) (book : OrderBook) (side : UInt8) (output : Buffer) (size : Nat) :
    MbpPublishStatus × MbpPublisher × Buffer :=
  let price := if side = Side.buy.raw then book.bestBid else book.bestAsk
  let level := price.bind (book.levelInfo side)
  let (lastError, output) := encodeMarketDataFrame (message event side price level) output size
  (if lastError = .none then .published else .outputError, { lastError }, output)

end MatchingEngine

import MatchingEngine.Check
import MatchingEngine.Ladder

/-!
# Reflected books

The reflection of a price domain takes the price `p` to `minimum + maximum - p` and exchanges the sides. Here it is defined on calls and
their outcomes, and on the ladder. `OrderBook.Mirrors` says what a book shows when it is the reflection of another.
-/

namespace MatchingEngine

/-- The byte of the other side; a byte that names no side stays. -/
def Side.reflectRaw (raw : UInt8) : UInt8 := if raw = 0 then 1 else if raw = 1 then 0 else raw

namespace PriceDomain

variable (d : PriceDomain)

/-- The reflected price. -/
def reflect (price : Int) : Int := d.minimum + d.maximum - price

/-- The level of the reflected price; a level outside the domain stays. -/
def reflectLevel (i : Nat) : Nat := if i < d.tickCount then d.tickCount - 1 - i else i

end PriceDomain

section

variable (d : PriceDomain)

/-! ## Calls and outcomes -/

/-- A trade with buyer and seller exchanged. -/
def Trade.reflect (trade : Trade) : Trade := ⟨trade.sellId, trade.buyId, d.reflect trade.price, trade.quantity⟩

/-- A call with the other side, at the reflected prices. -/
def Op.reflect : Op → Op
  | .submitLimit id traderId side price quantity timeInForce tradesSize =>
    .submitLimit id traderId (Side.reflectRaw side) (d.reflect price) quantity timeInForce tradesSize
  | .submitPostOnly id side price quantity tradesSize => .submitPostOnly id (Side.reflectRaw side) (d.reflect price) quantity tradesSize
  | .submitIceberg id traderId side price quantity displayQuantity tradesSize =>
    .submitIceberg id traderId (Side.reflectRaw side) (d.reflect price) quantity displayQuantity tradesSize
  | .submitMarket id side quantity tradesSize => .submitMarket id (Side.reflectRaw side) quantity tradesSize
  | .submitStop id side triggerPrice quantity tradesSize =>
    .submitStop id (Side.reflectRaw side) (d.reflect triggerPrice) quantity tradesSize
  | .submitStopLimit id side triggerPrice limitPrice quantity tradesSize =>
    .submitStopLimit id (Side.reflectRaw side) (d.reflect triggerPrice) (d.reflect limitPrice) quantity tradesSize
  | .cancel handle => .cancel handle
  | .amendQuantity handle newRemaining => .amendQuantity handle newRemaining
  | .replace handle newPrice newQuantity tradesSize => .replace handle (d.reflect newPrice) newQuantity tradesSize
  | .uncrossOpeningAuction tradesSize => .uncrossOpeningAuction tradesSize

/-- An outcome with the same reply and reflected trades. -/
def Outcome.reflect (out : Outcome) : Outcome := ⟨out.reply, out.trades.map (Trade.reflect d)⟩

/-- A call and its outcome in the mirror. -/
def reflectCall (call : Op × Outcome) : Op × Outcome := (call.1.reflect d, call.2.reflect d)

/-- What is shown of an order: the other side, and the reflected price unless it is a placeholder. -/
def OrderInfo.reflect (placeholder : Bool) (info : OrderInfo) : OrderInfo :=
  ⟨info.id, info.side.opposite, if placeholder then info.price else d.reflect info.price, info.remaining⟩

/-! ## The ladder -/

def Dormant.reflect (stop : Dormant) : Dormant :=
  { stop with side := stop.side.opposite, trigger := d.reflect stop.trigger, limit := stop.limit.map d.reflect }

def Place.reflect : Place → Place
  | .resting side i => .resting side.opposite (d.reflectLevel i)
  | place => place

def Ladder.reflect (L : Ladder) : Ladder :=
  { L with
    queue := fun side i => L.queue side.opposite (d.reflectLevel i)
    stops := L.stops.map (Dormant.reflect d)
    held := L.held.map (Dormant.reflect d)
    place := fun slot => (L.place slot).reflect d
    lastPrice := L.lastPrice.map d.reflect }

def Taker.reflect (t : Taker) : Taker := { t with side := t.side.opposite, limit := t.limit.map d.reflectLevel }

def Fill.reflect (f : Fill) : Fill := { f with level := d.reflectLevel f.level }

def Sweep.reflect (w : Sweep) : Sweep := ⟨w.ladder.reflect d, w.remaining, w.fills.map (Fill.reflect d)⟩

end

/-! ## Books -/

namespace OrderBook

/-- Whether the price that is shown for a handle's order is a placeholder: a dormant market stop has none. -/
def placeholder (b : OrderBook) (handle : Handle) : Bool :=
  (b.arena.orderAt handle.index).dormant && (b.arena.orderAt handle.index).stopMarket

/-- `b'` is the reflection of `b`: the same orders in the same slots and in the same order, at reflected levels of the other side. -/
structure Mirrors (b b' : OrderBook) : Prop where
  tradingState : b'.tradingState = b.tradingState
  lastExecutionPrice : b'.lastExecutionPrice = b.lastExecutionPrice.map b.cfg.domain.reflect
  stopActivations : b'.stopActivations = b.stopActivations
  bestBid : b'.bestBid = b.bestAsk.map b.cfg.domain.reflect
  bestAsk : b'.bestAsk = b.bestBid.map b.cfg.domain.reflect
  levelInfo : ∀ side price, b'.levelInfo (Side.reflectRaw side) (b.cfg.domain.reflect price) = b.levelInfo side price
  queues : ∀ side i, b'.levelSlots side.opposite (b.cfg.domain.reflectLevel i) = b.levelSlots side i
  entries : ∀ side i, ∀ s ∈ b.levelSlots side i, (b'.arena.orderAt s).id = (b.arena.orderAt s).id ∧
    (b'.arena.orderAt s).remaining = (b.arena.orderAt s).remaining ∧ b'.traderIds s = b.traderIds s ∧
    b'.displayQuantities s = b.displayQuantities s ∧ b'.displayedRemaining s = b.displayedRemaining s
  stops : b'.stopSlots = b.stopSlots
  triggers : ∀ s ∈ b.stopSlots, b'.stopTriggerPrices s = b.cfg.domain.reflect (b.stopTriggerPrices s)
  orderInfo : ∀ handle, b'.orderInfo handle = (b.orderInfo handle).map (OrderInfo.reflect b.cfg.domain (b.placeholder handle))

end OrderBook

end MatchingEngine

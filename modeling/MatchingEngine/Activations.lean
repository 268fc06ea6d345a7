import MatchingEngine.Ladder

/-!
# The course of a call

What a call does on the book as a relation over its steps: the book it leaves when it starts to look for triggered stops, and the
activations it makes from there on, each with the book it is made on. `Stage` names the parts of `order_book.cpp` a submission has run by
then, and `Activates` the rounds of `trigger_stops`.
-/

namespace MatchingEngine

/-- The operations that submit an order. -/
def Op.submits : Op → Bool
  | .submitLimit .. | .submitPostOnly .. | .submitIceberg .. | .submitMarket .. | .submitStop .. | .submitStopLimit .. | .replace .. => true
  | .cancel _ | .amendQuantity _ _ | .uncrossOpeningAuction _ => false

def Op.postOnly : Op → Bool
  | .submitPostOnly .. => true
  | _ => false

/-- What a submission returns of an order that has entered, but for the number of its reports. -/
def Execution.submitResult (x : Execution) (quantity : Nat) (handle : Handle) : SubmitResult :=
  ⟨.none, sub64 quantity x.remaining, x.remaining, 0, handle⟩

namespace OrderBook

/-- Whether the dormant stop in a slot is triggered by the last execution. -/
def stopTriggered (b : OrderBook) (s : Nat) : Bool := b.stopIsTriggered (b.arena.orderAt s).side (b.stopTriggerPrices s)

/-- The number of the submission whose order is in a slot: orders are numbered as they are put into the arena. -/
def serialAt (b : OrderBook) (s : Nat) : Nat := (b.arena.slots s).serial

/-- An order has matched in continuous trading, and what is left of it rests or does not. -/
structure Entered (b : OrderBook) (t : Taker) (levelIndex quantity : Nat) (rests : Bool) (display : Nat → Nat) (x : Execution)
    (handle : Handle) (b' : OrderBook) : Prop where
  matched : b.tradingState = .continuous ∧ (Execution.matchTaker ⟨b, quantity, []⟩ t.id t.trader t.side t.limit).Returns x ∨
    b.tradingState ≠ .continuous ∧ x = ⟨b, quantity, []⟩
  rested : (rests = true ∧ x.remaining ≠ 0) ∧
      (handle, b') = x.book.rest t.id t.trader t.side levelIndex x.remaining (display x.remaining) ∨
    ¬(rests = true ∧ x.remaining ≠ 0) ∧ handle = kInvalidHandle ∧ b' = x.book

/-- What an accepted submission has done when it starts to look for triggered stops: what it will return, if it is no stop that is
triggered itself, the reports it has written, and the book it has left. -/
inductive Stage (b : OrderBook) : Op → SubmitResult → List Trade → OrderBook → Prop where
  | limit {id traderId quantity tradesSize levelIndex : Nat} {rawSide rawTime : UInt8} {price : Int} {side : Side} {tif : TimeInForce}
      {x : Execution} {handle : Handle} {b' : OrderBook} (side_eq : Side.ofRaw rawSide = some side)
      (level_eq : b.cfg.domain.indexOf price = some levelIndex) (time_eq : TimeInForce.ofRaw rawTime = some tif)
      (entered : Entered b.resetStopActivations ⟨id, traderId, side, some levelIndex⟩ levelIndex quantity (tif = .gtc) (fun r => r) x
        handle b') :
      Stage b (.submitLimit id traderId rawSide price quantity rawTime tradesSize) (x.submitResult quantity handle) x.trades b'
  | postOnly {id quantity tradesSize levelIndex : Nat} {rawSide : UInt8} {price : Int} {side : Side} {x : Execution} {handle : Handle}
      {b' : OrderBook} (side_eq : Side.ofRaw rawSide = some side) (level_eq : b.cfg.domain.indexOf price = some levelIndex)
      (entered : Entered b.resetStopActivations ⟨id, 0, side, some levelIndex⟩ levelIndex quantity true (fun r => r) x handle b') :
      Stage b (.submitPostOnly id rawSide price quantity tradesSize) (x.submitResult quantity handle) x.trades b'
  | iceberg {id traderId quantity displayQuantity tradesSize levelIndex : Nat} {rawSide : UInt8} {price : Int} {side : Side}
      {x : Execution} {handle : Handle} {b' : OrderBook} (side_eq : Side.ofRaw rawSide = some side)
      (level_eq : b.cfg.domain.indexOf price = some levelIndex)
      (entered : Entered b.resetStopActivations ⟨id, traderId, side, some levelIndex⟩ levelIndex quantity true (min displayQuantity) x
        handle b') :
      Stage b (.submitIceberg id traderId rawSide price quantity displayQuantity tradesSize) (x.submitResult quantity handle) x.trades b'
  | market {id quantity tradesSize : Nat} {rawSide : UInt8} {side : Side} {x : Execution} {handle : Handle} {b' : OrderBook}
      (side_eq : Side.ofRaw rawSide = some side)
      (entered : Entered b.resetStopActivations ⟨id, 0, side, none⟩ 0 quantity false (fun r => r) x handle b') :
      Stage b (.submitMarket id rawSide quantity tradesSize) (x.submitResult quantity handle) x.trades b'
  | replace {replaced : Handle} {order : Order} {quantity tradesSize levelIndex : Nat} {price : Int} {x : Execution} {handle : Handle}
      {b' : OrderBook} (order_eq : b.arena.resolve replaced = some order) (level_eq : b.cfg.domain.indexOf price = some levelIndex)
      (entered : Entered (b.resetStopActivations.unlink replaced order.remaining).resetStopActivations
        ⟨order.id, 0, order.side, some levelIndex⟩ levelIndex quantity true (fun r => r) x handle b') :
      Stage b (.replace replaced price quantity tradesSize) (x.submitResult quantity handle) x.trades b'
  | stop {id quantity tradesSize : Nat} {rawSide : UInt8} {triggerPrice : Int} {side : Side} {handle : Handle} {b' : OrderBook}
      (side_eq : Side.ofRaw rawSide = some side)
      (rested : (handle, b') = b.resetStopActivations.restStop id side triggerPrice none quantity) :
      Stage b (.submitStop id rawSide triggerPrice quantity tradesSize) ⟨.none, 0, quantity, 0, handle⟩ [] b'
  | stopLimit {id quantity tradesSize : Nat} {rawSide : UInt8} {triggerPrice limitPrice : Int} {side : Side} {handle : Handle}
      {b' : OrderBook} (side_eq : Side.ofRaw rawSide = some side)
      (rested : (handle, b') = b.resetStopActivations.restStop id side triggerPrice (some limitPrice) quantity) :
      Stage b (.submitStopLimit id rawSide triggerPrice limitPrice quantity tradesSize) ⟨.none, 0, quantity, 0, handle⟩ [] b'

/-- One activation: the book before it, the slot of the stop, and what `activate_stop` returned. -/
structure Pick where
  book : OrderBook
  slot : Nat
  result : SubmitResult

/-- The number of the submission of the stop. -/
def Pick.serial (p : Pick) : Nat := p.book.serialAt p.slot

/-- The order of the stop, as it was before the activation. -/
def Pick.order (p : Pick) : Order := p.book.arena.orderAt p.slot

/-- What there is to tell about an activation: the id of the stop, what it executed and left, and where the rest of it rests. -/
def Pick.activation (p : Pick) : StopActivation :=
  ⟨p.order.id, p.result.executedQuantity, p.result.unfilledQuantity, p.result.restingHandle⟩

/-- What an activation has executed is what its reports say, and what it has left is the rest of its stop. -/
structure Pick.Executes (p : Pick) : Prop where
  reports : ∃ trades own b', (p.book.activateStop (p.book.arena.handleAt p.slot) trades).Returns (p.result, trades ++ own, b') ∧
    (own.map Trade.quantity).sum = p.result.executedQuantity
  unfilled : p.result.executedQuantity + p.result.unfilledQuantity = p.order.remaining

/-- Activations one after another, until no dormant stop is triggered: each is of the triggered stop that was submitted first. The reports
are those written before and after. -/
inductive Activates : OrderBook → List Trade → List Pick → List Trade → OrderBook → Prop where
  | finished {b : OrderBook} {trades : List Trade} (quiet : ∀ s ∈ b.stopSlots, b.stopTriggered s = false) : Activates b trades [] trades b
  | pick {b b1 b' : OrderBook} {trades trades1 trades' : List Trade} {s : Nat} {result : SubmitResult} {picks : List Pick}
      (dormant : s ∈ b.stopSlots) (triggered : b.stopTriggered s = true)
      (earliest : ∀ x ∈ b.stopSlots, b.stopTriggered x = true → b.serialAt s ≤ b.serialAt x)
      (activated : (b.activateStop (b.arena.handleAt s) trades).Returns (result, trades1, b1))
      (rest : Activates b1 trades1 picks trades' b') : Activates b trades (⟨b, s, result⟩ :: picks) trades' b'

end OrderBook

/-- An accepted submission. -/
def Outcome.accepted (out : Outcome) : Bool :=
  match out.reply with
  | .submit result => result.rejectReason = .none
  | _ => false

/-- The activations of a call: those an accepted submission makes once its own order has entered, and none otherwise. -/
structure OrderBook.Cascades (b : OrderBook) (op : Op) (out : Outcome) (picks : List OrderBook.Pick) (b' : OrderBook) : Prop where
  accepted : out.accepted = true → ∃ result trades b₁, b.Stage op result trades b₁ ∧ b₁.Activates trades picks out.trades b'
  rejected : out.accepted = false → picks = []

/-- A post-only submission that its own checks refuse. -/
def OrderBook.RefusesPostOnly (b : OrderBook) : Op → Prop
  | .submitPostOnly _ side price quantity tradesSize =>
    tradesSize < b.requiredTradeCapacity ∨ b.preflightPostOnly side price quantity ≠ .none
  | _ => False

/-- Right after a call the book lists the stops that the call activated, in order, with what they executed and left, and nothing else. -/
def OrderBook.ListsActivations (b : OrderBook) (op : Op) (out : Outcome) (b' : OrderBook) : Prop :=
  ∃ picks, b.Cascades op out picks b' ∧ b'.stopActivations = picks.map OrderBook.Pick.activation

end MatchingEngine

import MatchingEngine.Activations
import MatchingEngine.Lemmas.Runs

/-!
# The ledger of a run

What a book-keeper writes down of the calls on a book, from their results alone: the quantities accepted, traded, cancelled, reduced,
replaced and left unfilled, and for each order the quantity it was last given with the reports that name it since. It is the `Ledger` of
`tests/support/differential_simulator.hpp`, with every way a quantity can leave the book on an account of its own.
-/

namespace MatchingEngine

open Function Ladder

/-- The quantity of the reports that name an order. -/
def reportedQuantity (id : Nat) (trades : List Trade) : Nat :=
  ((trades.filter fun t => t.buyId = id ∨ t.sellId = id).map Trade.quantity).sum

/-- What a submission has left and does not rest. -/
def SubmitResult.lost (r : SubmitResult) : Nat := if r.restingHandle = kInvalidHandle then r.unfilledQuantity else 0

/-- What an activated stop has left and does not rest. -/
def StopActivation.lost (a : StopActivation) : Nat := if a.restingHandle = kInvalidHandle then a.unfilledQuantity else 0

/-- The operations that submit a stop. -/
def Op.submitsStop (op : Op) : Bool := (stopArguments op).isSome

/-- The id of a new order; a replacement keeps the id of the order it replaces. -/
def Op.newId (op : Op) : Option Nat := (OrderBook.submittedTrader op).map Prod.fst

namespace OrderBook

/-- The quantity of all orders, at rest and dormant. -/
def openQuantity (b : OrderBook) : Nat := (b.arena.liveSlots.map fun s => (b.arena.orderAt s).remaining).sum

/-- What the order that an operation replaces has left. -/
def replacedQuantity (b : OrderBook) : Op → Nat
  | .replace handle _ _ _ => (b.arena.orderAt handle.index).remaining
  | _ => 0

end OrderBook

structure Ledger where
  accepted : Nat
  traded : Nat
  canceled : Nat
  reduced : Nat
  replaced : Nat
  unfilled : Nat
  quantity : Nat → Nat
  reported : Nat → Nat

namespace Ledger

def empty : Ledger := ⟨0, 0, 0, 0, 0, 0, fun _ => 0, fun _ => 0⟩

variable (ledger : Ledger)

/-- An order is given a quantity, and no report names it since. -/
def allot (id quantity : Nat) : Ledger :=
  { ledger with quantity := update ledger.quantity id quantity, reported := update ledger.reported id 0 }

/-- Reports. -/
def trade (trades : List Trade) : Ledger :=
  { ledger with
    traded := ledger.traded + (trades.map Trade.quantity).sum
    reported := fun id => ledger.reported id + reportedQuantity id trades }

/-- What a call moves from account to account. A stop that is triggered as it is submitted is among the activations. -/
def record (b : OrderBook) (op : Op) (out : Outcome) (b' : OrderBook) : Ledger :=
  match out.reply with
  | .submit r =>
    if r.rejectReason = .none then
      let quantity := (submittedQuantity op).getD 0
      { (ledger.allot (b.submittedId op) quantity).trade out.trades with
        accepted := ledger.accepted + quantity
        replaced := ledger.replaced + b.replacedQuantity op
        unfilled := ledger.unfilled + (if op.submitsStop then 0 else r.lost) + (b'.stopActivations.map StopActivation.lost).sum }
    else ledger
  | .cancel r => { ledger with canceled := ledger.canceled + r.canceledQuantity }
  | .amend r =>
    if r.rejectReason = .none then
      { ledger.allot r.orderId r.newQuantity with reduced := ledger.reduced + (r.previousQuantity - r.newQuantity) }
    else ledger
  | .auction _ => ledger.trade out.trades

end Ledger

namespace OrderBook

/-- A book, the calls that led to it, and the ledger kept on the way. -/
inductive Recorded (cfg : BookConfig) (state : TradingState) : List (Op × Outcome) → Ledger → OrderBook → Prop where
  | create {b : OrderBook} (created : OrderBook.create cfg state = some b) : Recorded cfg state [] .empty b
  | apply {calls : List (Op × Outcome)} {ledger : Ledger} {b b' : OrderBook} {op : Op} {out : Outcome}
      (before : Recorded cfg state calls ledger b) (returned : (b.apply op).Returns (out, b')) :
      Recorded cfg state (calls ++ [(op, out)]) (ledger.record b op out b') b'
  | check {calls : List (Op × Outcome)} {ledger : Ledger} {b b' : OrderBook} {result : InvariantResult}
      (before : Recorded cfg state calls ledger b) (returned : b.checkInvariants.Returns (result, b')) :
      Recorded cfg state calls ledger b'

/-- Of every run a ledger can be kept. -/
theorem Run.recorded {cfg : BookConfig} {state : TradingState} {calls : List (Op × Outcome)} {b : OrderBook}
    (h : Run cfg state calls b) : ∃ ledger, Recorded cfg state calls ledger b := by
  induction h with
  | create hc => exact ⟨_, .create hc⟩
  | apply _ hr ih =>
    obtain ⟨ledger, hrec⟩ := ih
    exact ⟨_, .apply hrec hr⟩
  | check _ hr ih =>
    obtain ⟨ledger, hrec⟩ := ih
    exact ⟨ledger, .check hrec hr⟩

/-- What the reports of a call account for, its activations aside: what a submitted order executed, or the uncross. -/
def executedBy (out : Outcome) : Nat :=
  match out.reply with
  | .submit r => r.executedQuantity
  | .auction r => r.executedQuantity
  | _ => 0

/-- The stops that a call activated, but for a stop that was triggered as it was submitted. -/
def othersActivated (b' : OrderBook) (op : Op) (out : Outcome) : List StopActivation :=
  if out.accepted then if op.submitsStop then b'.stopActivations.tail else b'.stopActivations else []

/-- A call accounts for all of its quantity: a submitted order executes it or leaves it unfilled, and the reports are what was executed. -/
structure Balances (op : Op) (out : Outcome) (b' : OrderBook) : Prop where
  submitted : ∀ quantity r, submittedQuantity op = some quantity → out.reply = .submit r →
    r.executedQuantity + r.unfilledQuantity = quantity
  reports : (out.trades.map Trade.quantity).sum =
    executedBy out + ((b'.othersActivated op out).map StopActivation.executedQuantity).sum

end OrderBook

end MatchingEngine

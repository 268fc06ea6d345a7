import MatchingEngine.Orders

/-!
# The ladder

What the order book is for, without links, bitmaps or cached sums: a queue of entries at each level of each side, the dormant stops in
order of arrival, the free slots in the order they will be used, and where each slot is. The ladder runs the same operations as the
book, queue by queue; the book's model is connected to it in `Lemmas/Refine`.
-/

namespace MatchingEngine

open Function

/-! ## State -/

/-- A resting order. The displayed slice is never empty and never more than the order has left or may display. -/
structure Entry where
  slot : Nat
  id : Nat
  trader : Nat
  remaining : Nat
  display : Nat
  displayed : Nat
  serial : Nat
  displayed_pos : 0 < displayed
  displayed_le : displayed ≤ display
  displayed_le_remaining : displayed ≤ remaining
  remaining_lt : remaining < 2 ^ 64
  deriving DecidableEq

/-- A dormant stop; a market stop has no limit. -/
structure Dormant where
  slot : Nat
  id : Nat
  side : Side
  trigger : Int
  limit : Option Int
  remaining : Nat
  serial : Nat
  remaining_pos : 0 < remaining
  remaining_lt : remaining < 2 ^ 64
  deriving DecidableEq

/-- Where a slot is: free, in a queue, in the stop list, or taken out of it while its stop is activated. -/
inductive Place where
  | free
  | resting (side : Side) (level : Nat)
  | dormant
  | held
  deriving DecidableEq, Repr

structure Ladder where
  queue : Side → Nat → List Entry
  stops : List Dormant
  held : Option Dormant
  free : List Nat
  place : Nat → Place
  freeNext : Nat → Nat
  releases : Nat → Nat
  accepted : Nat
  lastPrice : Option Int
  tradingState : TradingState
  activations : List StopActivation

/-- The generation of a slot that was released so often. -/
def generationOf (releases : Nat) : Nat := releases % (2 ^ 32 - 1) + 1

/-- What an execution of `q` leaves of an entry. -/
inductive Entry.Left where
  | part (e : Entry)
  | replenished (e : Entry)
  | filled

/-- An entry after an execution of at most its displayed slice: part of the slice is left, or the next slice is shown, or nothing is
left. -/
def Entry.after (e : Entry) (q : Nat) : Entry.Left :=
  if h : q < e.displayed then
    .part
      { e with
        remaining := e.remaining - q
        displayed := e.displayed - q
        displayed_pos := Nat.sub_pos_of_lt h
        displayed_le := Nat.le_trans (Nat.sub_le _ _) e.displayed_le
        displayed_le_remaining := Nat.sub_le_sub_right e.displayed_le_remaining q
        remaining_lt := Nat.lt_of_le_of_lt (Nat.sub_le _ _) e.remaining_lt }
  else if h : e.displayed < e.remaining then
    .replenished
      { e with
        remaining := e.remaining - e.displayed
        displayed := min e.display (e.remaining - e.displayed)
        displayed_pos := Nat.lt_min.mpr ⟨Nat.lt_of_lt_of_le e.displayed_pos e.displayed_le, Nat.sub_pos_of_lt h⟩
        displayed_le := Nat.min_le_left _ _
        displayed_le_remaining := Nat.min_le_right _ _
        remaining_lt := Nat.lt_of_le_of_lt (Nat.sub_le _ _) e.remaining_lt }
  else .filled

/-- An entry amended to less. -/
def Entry.amend (e : Entry) (newRemaining : Nat) : Entry :=
  if h : 0 < newRemaining ∧ newRemaining ≤ e.remaining then
    { e with
      remaining := newRemaining
      displayed := min e.displayed newRemaining
      displayed_pos := Nat.lt_min.mpr ⟨e.displayed_pos, h.1⟩
      displayed_le := Nat.le_trans (Nat.min_le_left _ _) e.displayed_le
      displayed_le_remaining := Nat.min_le_right _ _
      remaining_lt := Nat.lt_of_le_of_lt h.2 e.remaining_lt }
  else e

/-- A stop amended to less. -/
def Dormant.amend (d : Dormant) (newRemaining : Nat) : Dormant :=
  if h : 0 < newRemaining ∧ newRemaining ≤ d.remaining then
    { d with
      remaining := newRemaining
      remaining_pos := h.1
      remaining_lt := Nat.lt_of_le_of_lt h.2 d.remaining_lt }
  else d

namespace Ladder

/-- The ladder of a new book. -/
def create (cfg : BookConfig) (tradingState : TradingState) : Ladder where
  queue _ _ := []
  stops := []
  held := none
  free := List.range cfg.maxOrders
  place _ := .free
  freeNext index := if index = cfg.maxOrders - 1 then kInvalidIndex else index + 1
  releases _ := 0
  accepted := 0
  lastPrice := none
  tradingState
  activations := []

variable (cfg : BookConfig) (L : Ladder)

/-! ## Reading -/

/-- The handle of a slot. -/
def handleAt (slot : Nat) : Handle := ⟨slot, generationOf (L.releases slot)⟩

/-- All levels of a side, best first. -/
def scanOrder (n : Nat) : Side → List Nat
  | .buy => (List.range n).reverse
  | .sell => List.range n

/-- The levels of a side that hold an order, best first. -/
def occupied (side : Side) : List Nat := (scanOrder cfg.domain.tickCount side).filter fun i => !(L.queue side i).isEmpty

/-- The best level of a side. -/
def best (side : Side) : Option Nat := (L.occupied cfg side).head?

/-- The levels a taker of `side` can reach with its limit, best first. -/
def reach (side : Side) (limit : Nat) : List Nat := (L.occupied cfg side.opposite).takeWhile fun i => crosses side i limit

/-- The quantity at a level. -/
def total (side : Side) (i : Nat) : Nat := ((L.queue side i).map Entry.remaining).sum

/-- The quantity at a level as the book caches it. -/
def levelQuantity (side : Side) (i : Nat) : Nat := L.total side i % 2 ^ 64

/-- Whether the levels in reach hold the quantity. -/
def canFill (side : Side) (limit quantity : Nat) : Bool :=
  quantity ≤ ((L.reach cfg side limit).map (L.levelQuantity side.opposite)).sum

/-- Whether a taker of this trader would meet an order of the same trader. -/
def meetsTrader (trader : Nat) (side : Side) (limit : Nat) : Bool :=
  (L.reach cfg side limit).any fun i => (L.queue side.opposite i).any fun e => e.trader = trader

/-- Whether a stop is triggered by the last execution. -/
def triggered (side : Side) (trigger : Int) : Bool :=
  match L.lastPrice with
  | none => false
  | some last =>
    match side with
    | .buy => trigger ≤ last
    | .sell => last ≤ trigger

/-! ## Moves -/

/-- Put another queue at one level. -/
def setQueue (side : Side) (i : Nat) (q : List Entry) : Ladder :=
  { L with queue := update L.queue side (update (L.queue side) i q) }

/-- Give a slot back. -/
def release (slot : Nat) : Ladder :=
  { L with
    free := slot :: L.free
    freeNext := update L.freeNext slot (L.free.head?.getD kInvalidIndex)
    releases := update L.releases slot (L.releases slot + 1)
    place := update L.place slot .free }

/-- Execute `q` against the entry of `slot` at a level. -/
def fill (side : Side) (i slot q : Nat) : Ladder :=
  match (L.queue side i).span fun e => e.slot ≠ slot with
  | (_, []) => L
  | (l, e :: r) =>
    match e.after q with
    | .part e' => L.setQueue side i (l ++ e' :: r)
    | .replenished e' => L.setQueue side i (l ++ r ++ [e'])
    | .filled => (L.setQueue side i (l ++ r)).release slot

/-- Take an entry out of its queue. -/
def remove (side : Side) (i slot : Nat) : Ladder :=
  match (L.queue side i).span fun e => e.slot ≠ slot with
  | (_, []) => L
  | (l, _ :: r) => (L.setQueue side i (l ++ r)).release slot

/-- A new order rests at the tail of its level, in the first free slot. -/
def rest (id trader : Nat) (side : Side) (i remaining display : Nat) : Handle × Ladder :=
  match L.free with
  | [] => (kInvalidHandle, L)
  | slot :: free =>
    if h : (0 < display ∧ display ≤ remaining) ∧ remaining < 2 ^ 64 then
      let e : Entry :=
        { slot, id, trader, remaining, display
          displayed := display
          serial := L.accepted
          displayed_pos := h.1.1
          displayed_le := Nat.le_refl _
          displayed_le_remaining := h.1.2
          remaining_lt := h.2 }
      (L.handleAt slot,
        { L.setQueue side i (L.queue side i ++ [e]) with
          free
          place := update L.place slot (.resting side i)
          accepted := L.accepted + 1 })
    else (kInvalidHandle, L)

/-- A new stop joins the dormant stops, in the first free slot. -/
def restStop (id : Nat) (side : Side) (trigger : Int) (limit : Option Int) (quantity : Nat) : Option (Dormant × Ladder) :=
  match L.free with
  | [] => none
  | slot :: free =>
    if h : 0 < quantity ∧ quantity < 2 ^ 64 then
      let d : Dormant :=
        { slot, id, side, trigger, limit
          remaining := quantity
          serial := L.accepted
          remaining_pos := h.1
          remaining_lt := h.2 }
      some (d,
        { L with
          stops := L.stops ++ [d]
          free
          place := update L.place slot .dormant
          accepted := L.accepted + 1 })
    else none

/-- The first dormant stop with a property, and the others. -/
def splitStop (p : Dormant → Bool) : Option (Dormant × List Dormant) :=
  match L.stops.span fun d => !p d with
  | (_, []) => none
  | (l, d :: r) => some (d, l ++ r)

/-- Take a stop out of the list for good. -/
def removeStop (slot : Nat) : Ladder :=
  match L.splitStop fun d => d.slot = slot with
  | none => L
  | some (_, others) => { L with stops := others }.release slot

/-- Take a stop out of the list, to be activated. -/
def hold (d : Dormant) (others : List Dormant) : Ladder :=
  { L with stops := others, held := some d, place := update L.place d.slot .held }

/-- The held stop's remainder rests in its own slot. -/
def settle (d : Dormant) (i remaining : Nat) : Ladder :=
  if h : 0 < remaining ∧ remaining < 2 ^ 64 then
    let e : Entry :=
      { slot := d.slot
        id := d.id
        trader := 0
        remaining
        display := remaining
        displayed := remaining
        serial := d.serial
        displayed_pos := h.1
        displayed_le := Nat.le_refl _
        displayed_le_remaining := Nat.le_refl _
        remaining_lt := h.2 }
    { L.setQueue d.side i (L.queue d.side i ++ [e]) with
      held := none
      place := update L.place d.slot (.resting d.side i) }
  else L

/-- The held stop's slot is given back. -/
def dropHeld (d : Dormant) : Ladder := { L with held := none }.release d.slot

end Ladder

/-! ## Matching -/

/-- What a taker has taken from one maker. -/
structure Fill where
  slot : Nat
  makerId : Nat
  level : Nat
  quantity : Nat
  deriving DecidableEq, Repr

/-- An incoming order. -/
structure Taker where
  id : Nat
  trader : Nat
  side : Side
  limit : Option Nat
  deriving DecidableEq, Repr

/-- The taker a stop becomes. -/
def Dormant.taker (cfg : BookConfig) (d : Dormant) : Taker := ⟨d.id, 0, d.side, d.limit.bind cfg.domain.indexOf⟩

/-- The report of a fill. -/
def Taker.report (cfg : BookConfig) (t : Taker) (f : Fill) : Trade :=
  makeTrade t.side t.id f.makerId (cfg.domain.minimum + f.level) f.quantity

/-- One more execution against a maker: its fill grows, or is new. -/
def recordFill (fills : List Fill) (e : Entry) (level q : Nat) : List Fill :=
  if fills.any fun f => f.slot = e.slot then
    fills.map fun f => if f.slot = e.slot then { f with quantity := add64 f.quantity q } else f
  else fills ++ [⟨e.slot, e.id, level, q⟩]

/-- A taker at work: the ladder, what the taker has left and its fills so far. -/
structure Sweep where
  ladder : Ladder
  remaining : Nat
  fills : List Fill

namespace Sweep

variable (cfg : BookConfig) (t : Taker) (w : Sweep)

/-- One execution. -/
def exec (i : Nat) (e : Entry) (q : Nat) : Sweep where
  ladder := { w.ladder.fill t.side.opposite i e.slot q with lastPrice := some (cfg.domain.minimum + i) }
  remaining := sub64 w.remaining q
  fills := recordFill w.fills e i q

/-- Whether an entry stops this taker under the self-trade policy. -/
def blocks (e : Entry) : Bool := cfg.selfTradePolicy = .cancelTaker ∧ e.trader = t.trader

/-- First in, first out at one level. -/
def fifo (i : Nat) : Comp Sweep :=
  Comp.loop
    (fun (w : Sweep) =>
      match w.ladder.queue t.side.opposite i with
      | [] => pure (.done w)
      | e :: _ =>
        if w.remaining = 0 then pure (.done w)
        else if blocks cfg t e then pure (.done w)
        else pure (.next (w.exec cfg t i e (min w.remaining e.displayed))))
    w

/-- The slot after `slot` in a queue. -/
def nextSlot (q : List Entry) (slot : Nat) : Option Nat :=
  match q.span fun e => e.slot ≠ slot with
  | (_, []) => none
  | (_, _ :: r) => r.head?.map Entry.slot

/-- The pro-rata pass at one level, from `cursor` on and up to `stop`. -/
def proRata (i totalDisplayed : Nat) (stop : Option Nat) : Comp Sweep :=
  let quantity := w.remaining
  Comp.loop
    (fun (st : Option Nat × Sweep) =>
      let w := st.2
      match st.1 with
      | none => pure (.done w)
      | some slot =>
        if stop = some slot ∨ w.remaining = 0 then pure (.done w)
        else
          match (w.ladder.queue t.side.opposite i).find? fun e => e.slot = slot with
          | none => pure (.done w)
          | some e =>
            let next := nextSlot (w.ladder.queue t.side.opposite i) slot
            let q := Execution.proRataShare cfg.proRataMinimum e.displayed quantity totalDisplayed
            if q = 0 then pure (.next (next, w)) else pure (.next (next, w.exec cfg t i e q)))
    ((w.ladder.queue t.side.opposite i).head?.map Entry.slot, w)

/-- One level, under the book's allocation mode. -/
def level (i : Nat) : Comp Sweep :=
  match cfg.allocationMode with
  | .fifo => w.fifo cfg t i
  | .thresholdProRata => do
    let q := w.ladder.queue t.side.opposite i
    let totalDisplayed := ((q.takeWhile fun e => !blocks cfg t e).map Entry.displayed).sum % 2 ^ 64
    let stop := (q.find? fun e => blocks cfg t e).map Entry.slot
    let w ← if totalDisplayed = 0 then pure w else w.proRata cfg t i totalDisplayed stop
    w.fifo cfg t i

/-- One round: the best level, if the taker's limit allows it. -/
def round : Comp (Turn Sweep Sweep) :=
  if w.remaining = 0 then pure (.done w)
  else
    match w.ladder.best cfg t.side.opposite with
    | none => pure (.done w)
    | some i =>
      if t.limit.any fun limit => !crosses t.side i limit then pure (.done w)
      else do
        let w' ← w.level cfg t i
        pure (.next w')

/-- A taker against the ladder. -/
def run : Comp Sweep := Comp.loop (fun w => w.round cfg t) w

end Sweep

namespace Ladder

variable (cfg : BookConfig) (L : Ladder)

/-- What becomes of a held stop after it has matched: its remainder rests, or its slot is given back. `handle` is the stop's own. -/
def finish (handle : Handle) (d : Dormant) (limit : Option Nat) (remaining : Nat) : Handle × Ladder :=
  match limit with
  | some i => if remaining ≠ 0 then (handle, L.settle d i remaining) else (kInvalidHandle, L.dropHeld d)
  | none => (kInvalidHandle, L.dropHeld d)

/-- Activate a dormant stop: its result, its reports and the ladder after it. -/
def activate (d : Dormant) (others : List Dormant) : Comp (SubmitResult × List Trade × Ladder) := do
  let t := d.taker cfg
  let w ← Sweep.run cfg t ⟨L.hold d others, d.remaining, []⟩
  let executed := sub64 d.remaining w.remaining
  let (resting, L') := w.ladder.finish (L.handleAt d.slot) d t.limit w.remaining
  pure (⟨.none, executed, w.remaining, 0, resting⟩, w.fills.map (t.report cfg),
    { L' with activations := L'.activations ++ [⟨d.id, executed, w.remaining, resting⟩] })

/-- Activate triggered stops until none is left; the reports are added to those so far. -/
def cascade (trades : List Trade) : Comp (List Trade × Ladder) :=
  Comp.loop
    (fun (st : List Trade × Ladder) =>
      match st.2.splitStop fun d => st.2.triggered d.side d.trigger with
      | none => pure (.done st)
      | some (d, others) => do
        let (_, trades, L) ← st.2.activate cfg d others
        pure (.next (st.1 ++ trades, L)))
    (trades, L)

/-! ## Operations -/

/-- The order a handle denotes. -/
inductive Located where
  | resting (side : Side) (level : Nat) (e : Entry)
  | dormant (d : Dormant)

/-- The live order of a handle. -/
def resolve (handle : Handle) : Option Located :=
  if handle.index < cfg.maxOrders ∧ handle.generation = generationOf (L.releases handle.index) then
    match L.place handle.index with
    | .resting side i => ((L.queue side i).find? fun e => e.slot = handle.index).map (.resting side i)
    | .dormant => (L.stops.find? fun d => d.slot = handle.index).map .dormant
    | _ => none
  else none

/-! ## Queries -/

def bestBid : Option Int := (L.best cfg .buy).bind cfg.domain.priceAt

def bestAsk : Option Int := (L.best cfg .sell).bind cfg.domain.priceAt

def levelInfo (side : UInt8) (price : Int) : Option LevelInfo :=
  match Side.ofRaw side with
  | none => none
  | some side =>
    match cfg.domain.indexOf price with
    | none => none
    | some i => some ⟨L.levelQuantity side i, (L.queue side i).length⟩

/-- What a handle shows of its order; a dormant market stop shows the price 0. -/
def orderInfo (handle : Handle) : Option OrderInfo :=
  match L.resolve cfg handle with
  | none => none
  | some (.resting side i e) => some ⟨e.id, side, cfg.domain.minimum + i, e.remaining⟩
  | some (.dormant d) => some ⟨d.id, d.side, d.limit.getD 0, d.remaining⟩

/-! ## Checks -/

/-- Whether some order of the other side can trade with this limit. -/
def crossing (side : Side) (limit : Nat) : Bool :=
  match L.best cfg side.opposite with
  | none => false
  | some best => crosses side best limit

/-- The checks of a limit order. -/
def preflightLimit (side : UInt8) (price : Int) (quantity : Nat) (timeInForce : UInt8) :
    Except RejectReason (Side × Nat × TimeInForce) :=
  match TimeInForce.ofRaw timeInForce with
  | none => .error .invalidTimeInForce
  | some timeInForce =>
    match cfg.preflight side quantity with
    | .error reason => .error reason
    | .ok side =>
      match cfg.domain.indexOf price with
      | none => .error .priceOutOfDomain
      | some i =>
        if L.tradingState = .openingAuction ∧ timeInForce ≠ .gtc then .error .invalidTradingState
        else if timeInForce = .fok ∧ ¬L.canFill cfg side i quantity then .error .fokNotFillable
        else if timeInForce = .gtc ∧ L.free = [] ∧ (L.tradingState = .openingAuction ∨ ¬L.crossing cfg side i) then
          .error .orderCapacityExhausted
        else .ok (side, i, timeInForce)

/-- The checks of a post-only order. -/
def preflightPostOnly (side : UInt8) (price : Int) (quantity : Nat) : RejectReason :=
  if L.tradingState = .openingAuction then .invalidTradingState
  else
    match cfg.preflight side quantity with
    | .error reason => reason
    | .ok side =>
      match cfg.domain.indexOf price with
      | none => .priceOutOfDomain
      | some i =>
        if L.crossing cfg side i then .postOnlyWouldCross
        else if L.free = [] then .orderCapacityExhausted
        else .none

/-- The checks of a stop. -/
def preflightStop (side : UInt8) (limit : Option Int) (quantity : Nat) : Except RejectReason Side :=
  if L.tradingState = .openingAuction then .error .invalidTradingState
  else
    match cfg.preflight side quantity with
    | .error reason => .error reason
    | .ok side =>
      if limit.any fun price => (cfg.domain.indexOf price).isNone then .error .priceOutOfDomain
      else if L.free = [] then .error .orderCapacityExhausted
      else .ok side

/-- The ladder with its activations forgotten. -/
def reset : Ladder := { L with activations := [] }

/-- A submission that was refused. -/
def refuse (reason : RejectReason) (quantity : Nat) : Comp (SubmitResult × List Trade × Ladder) :=
  pure (rejected reason quantity, [], L)

/-- The end of a submission. -/
def conclude (quantity remaining : Nat) (handle : Handle) (trades : List Trade) : Comp (SubmitResult × List Trade × Ladder) := do
  let (trades, L') ← L.cascade cfg trades
  pure (⟨.none, sub64 quantity remaining, remaining, trades.length, handle⟩, trades, L')

/-- An order that passed its checks: it matches in continuous trading, and `display` says how much of a remainder that may rest is
displayed. -/
def enter (t : Taker) (i quantity : Nat) (rests : Bool) (display : Nat → Nat) : Comp (SubmitResult × List Trade × Ladder) := do
  let w ← if L.tradingState = .continuous then Sweep.run cfg t ⟨L, quantity, []⟩ else pure ⟨L, quantity, []⟩
  let (handle, L') :=
    if rests ∧ w.remaining ≠ 0 then w.ladder.rest t.id t.trader t.side i w.remaining (display w.remaining)
    else (kInvalidHandle, w.ladder)
  L'.conclude cfg quantity w.remaining handle (w.fills.map (t.report cfg))

/-- The self-trade check and then the entry of an order that passed its other checks. -/
def enterChecked (t : Taker) (i quantity : Nat) (rests : Bool) (display : Nat → Nat) : Comp (SubmitResult × List Trade × Ladder) :=
  if cfg.selfTradePolicy = .cancelTaker ∧ L.meetsTrader cfg t.trader t.side i then L.refuse .selfTradePrevented quantity
  else L.enter cfg t i quantity rests display

def submitLimit (id trader : Nat) (side : UInt8) (price : Int) (quantity : Nat) (timeInForce : UInt8) (tradesSize : Nat) :
    Comp (SubmitResult × List Trade × Ladder) :=
  let L := L.reset
  if (TimeInForce.ofRaw timeInForce).isNone then L.refuse .invalidTimeInForce quantity
  else
    match cfg.preflight side quantity with
    | .error reason => L.refuse reason quantity
    | .ok _ =>
      if tradesSize < cfg.maxOrders then L.refuse .insufficientTradeCapacity quantity
      else
        match L.preflightLimit cfg side price quantity timeInForce with
        | .error reason => L.refuse reason quantity
        | .ok (side, i, timeInForce) => L.enterChecked cfg ⟨id, trader, side, some i⟩ i quantity (timeInForce = .gtc) fun remaining => remaining

def submitPostOnly (id : Nat) (side : UInt8) (price : Int) (quantity tradesSize : Nat) : Comp (SubmitResult × List Trade × Ladder) :=
  if tradesSize < cfg.maxOrders then L.refuse .insufficientTradeCapacity quantity
  else
    match L.preflightPostOnly cfg side price quantity with
    | .none => L.submitLimit cfg id 0 side price quantity TimeInForce.gtc.raw tradesSize
    | reason => L.refuse reason quantity

def submitIceberg (id trader : Nat) (side : UInt8) (price : Int) (quantity displayQuantity tradesSize : Nat) :
    Comp (SubmitResult × List Trade × Ladder) :=
  let L := L.reset
  if L.tradingState = .openingAuction then L.refuse .invalidTradingState quantity
  else if displayQuantity = 0 ∨ quantity < displayQuantity then L.refuse .invalidDisplayQuantity quantity
  else
    match cfg.preflight side quantity with
    | .error reason => L.refuse reason quantity
    | .ok _ =>
      if tradesSize < cfg.maxOrders then L.refuse .insufficientTradeCapacity quantity
      else
        match L.preflightLimit cfg side price quantity TimeInForce.gtc.raw with
        | .error reason => L.refuse reason quantity
        | .ok (side, i, _) => L.enterChecked cfg ⟨id, trader, side, some i⟩ i quantity true (min displayQuantity)

def submitMarket (id : Nat) (side : UInt8) (quantity tradesSize : Nat) : Comp (SubmitResult × List Trade × Ladder) :=
  let L := L.reset
  if L.tradingState = .openingAuction then L.refuse .invalidTradingState quantity
  else
    match cfg.preflight side quantity with
    | .error reason => L.refuse reason quantity
    | .ok side =>
      if tradesSize < cfg.maxOrders then L.refuse .insufficientTradeCapacity quantity
      else do
        let t : Taker := ⟨id, 0, side, none⟩
        let w ← Sweep.run cfg t ⟨L, quantity, []⟩
        w.ladder.conclude cfg quantity w.remaining kInvalidHandle (w.fills.map (t.report cfg))

def submitStopOrder (id : Nat) (side : UInt8) (trigger : Int) (limit : Option Int) (quantity tradesSize : Nat) :
    Comp (SubmitResult × List Trade × Ladder) :=
  let L := L.reset
  match L.preflightStop cfg side limit quantity with
  | .error reason => L.refuse reason quantity
  | .ok side =>
    if tradesSize < cfg.maxOrders then L.refuse .insufficientTradeCapacity quantity
    else
      match L.restStop id side trigger limit quantity with
      | none => L.refuse .orderCapacityExhausted quantity
      | some (d, L') =>
        if L'.triggered side trigger then do
          let (result, trades, L') ← L'.activate cfg d L.stops
          let (trades, L') ← L'.cascade cfg trades
          pure ({ result with tradeCount := trades.length }, trades, L')
        else pure (⟨.none, 0, quantity, 0, L.handleAt d.slot⟩, [], L')

def cancel (handle : Handle) : CancelResult × Ladder :=
  match L.resolve cfg handle with
  | none => (⟨.invalidHandle, 0, 0⟩, L)
  | some (.resting side i e) => (⟨.none, e.id, e.remaining⟩, L.remove side i e.slot)
  | some (.dormant d) => (⟨.none, d.id, d.remaining⟩, L.removeStop d.slot)

/-- Why an order with `previous` left cannot be amended to `newRemaining`. -/
def amendReason (previous newRemaining : Nat) : AmendReason :=
  if newRemaining = 0 then .zeroQuantity
  else if cfg.maxOrderQuantity < newRemaining then .quantityTooLarge
  else if previous < newRemaining then .increaseNotAllowed
  else .none

/-- An entry's remaining quantity is amended in its place. -/
def amendEntry (side : Side) (i slot newRemaining : Nat) : Ladder :=
  L.setQueue side i ((L.queue side i).map fun e => if e.slot = slot then e.amend newRemaining else e)

/-- A dormant stop's quantity is amended in its place. -/
def amendStop (slot newRemaining : Nat) : Ladder :=
  { L with stops := L.stops.map fun d => if d.slot = slot then d.amend newRemaining else d }

def amendQuantity (handle : Handle) (newRemaining : Nat) : AmendResult × Ladder :=
  match L.resolve cfg handle with
  | none => (⟨.invalidHandle, 0, 0, newRemaining, handle⟩, L)
  | some (.resting side i e) =>
    let reason := amendReason cfg e.remaining newRemaining
    (⟨reason, e.id, e.remaining, newRemaining, handle⟩,
      if reason = .none then L.amendEntry side i e.slot newRemaining else L)
  | some (.dormant d) =>
    let reason := amendReason cfg d.remaining newRemaining
    (⟨reason, d.id, d.remaining, newRemaining, handle⟩, if reason = .none then L.amendStop d.slot newRemaining else L)

def replace (handle : Handle) (newPrice : Int) (newQuantity tradesSize : Nat) : Comp (SubmitResult × List Trade × Ladder) :=
  let L := L.reset
  match L.resolve cfg handle with
  | some (.resting side i e) =>
    match cfg.preflight side.raw newQuantity with
    | .error reason => L.refuse reason newQuantity
    | .ok _ =>
      if tradesSize < cfg.maxOrders then L.refuse .insufficientTradeCapacity newQuantity
      else if (cfg.domain.indexOf newPrice).isNone then L.refuse .priceOutOfDomain newQuantity
      else (L.remove side i e.slot).submitLimit cfg e.id 0 side.raw newPrice newQuantity TimeInForce.gtc.raw tradesSize
  | _ => L.refuse .invalidHandle newQuantity

/-- The opening uncross at a level: the best bid and the best ask trade until the quantity is used up. -/
def auction (clearingLevel : Nat) (clearingPrice : Int) : Ladder × Nat × List Trade → Comp (Ladder × Nat × List Trade) :=
  Comp.loop fun (L, remaining, trades) =>
    match L.best cfg .buy, L.best cfg .sell with
    | some bid, some ask =>
      if remaining ≠ 0 ∧ clearingLevel ≤ bid ∧ ask ≤ clearingLevel then
        match L.queue .buy bid, L.queue .sell ask with
        | b :: _, a :: _ =>
          let q := min remaining (min b.displayed a.displayed)
          pure (.next ((L.fill .buy bid b.slot q).fill .sell ask a.slot q, remaining - q, trades ++ [⟨b.id, a.id, clearingPrice, q⟩]))
        | _, _ => pure (.done (L, remaining, trades))
      else pure (.done (L, remaining, trades))
    | _, _ => pure (.done (L, remaining, trades))

/-- The level the opening auction clears at. -/
def clearing : Clearing := chooseClearing (L.levelQuantity .buy) (L.levelQuantity .sell) (L.best cfg .buy) (L.best cfg .sell)

def uncrossOpeningAuction (tradesSize : Nat) : Comp (AuctionResult × List Trade × Ladder) :=
  if L.tradingState ≠ .openingAuction then pure (⟨.notOpeningAuction, none, 0, 0⟩, [], L)
  else if tradesSize < cfg.maxOrders then pure (⟨.insufficientTradeCapacity, none, 0, 0⟩, [], L)
  else
    let executable := (L.clearing cfg).executable
    let L' : Ladder := { L with tradingState := .continuous }
    match (L.clearing cfg).level with
    | none => pure (⟨.none, none, 0, 0⟩, [], L')
    | some level =>
      if executable = 0 then pure (⟨.none, none, 0, 0⟩, [], L')
      else do
        let price := cfg.domain.minimum + level
        let (L', remaining, trades) ← auction cfg level price (L', executable, [])
        pure (⟨.none, some price, executable - remaining, trades.length⟩, trades, { L' with lastPrice := some price })

/-- One operation on the ladder. -/
def apply : Op → Comp (Outcome × Ladder)
  | .submitLimit id traderId side price quantity timeInForce tradesSize =>
    return submitted (← L.submitLimit cfg id traderId side price quantity timeInForce tradesSize)
  | .submitPostOnly id side price quantity tradesSize => return submitted (← L.submitPostOnly cfg id side price quantity tradesSize)
  | .submitIceberg id traderId side price quantity displayQuantity tradesSize =>
    return submitted (← L.submitIceberg cfg id traderId side price quantity displayQuantity tradesSize)
  | .submitMarket id side quantity tradesSize => return submitted (← L.submitMarket cfg id side quantity tradesSize)
  | .submitStop id side triggerPrice quantity tradesSize =>
    return submitted (← L.submitStopOrder cfg id side triggerPrice none quantity tradesSize)
  | .submitStopLimit id side triggerPrice limitPrice quantity tradesSize =>
    return submitted (← L.submitStopOrder cfg id side triggerPrice (some limitPrice) quantity tradesSize)
  | .cancel handle => let (result, L') := L.cancel cfg handle; pure (⟨.cancel result, []⟩, L')
  | .amendQuantity handle newRemaining =>
    let (result, L') := L.amendQuantity cfg handle newRemaining; pure (⟨.amend result, []⟩, L')
  | .replace handle newPrice newQuantity tradesSize =>
    return submitted (← L.replace cfg handle newPrice newQuantity tradesSize)
  | .uncrossOpeningAuction tradesSize => do
    let (result, trades, L') ← L.uncrossOpeningAuction cfg tradesSize
    pure (⟨.auction result, trades⟩, L')

end Ladder

end MatchingEngine

import MatchingEngine.Orders

/-!
# Checking the invariants of a book

`check_invariants` and `check_side_invariants` of `order_book.cpp`. The visit marks are the only part of the book they write; `Progress`
is what they have marked and counted so far.
-/

namespace MatchingEngine

open Function

inductive InvariantViolation where
  | none
  | bitmapHierarchyInconsistent
  | occupancyMismatch
  | emptyLevelMetadata
  | nonemptyInvalidHead
  | nonemptyInvalidTail
  | orderIndexOutOfRange
  | deadOrderReachable
  | headPrevNotInvalid
  | tailNextNotInvalid
  | previousNotReciprocal
  | nextNotReciprocal
  | duplicateOrderReachable
  | orderSideMismatch
  | orderLevelMismatch
  | nonpositiveRemaining
  | invalidDisplayState
  | aggregateOverflow
  | levelTailMismatch
  | levelCountMismatch
  | levelAggregateMismatch
  | liveOrderUnreachable
  | reachableCountMismatch
  | invalidStopState
  | crossedBook
  deriving DecidableEq, Repr

structure InvariantResult where
  violation : InvariantViolation
  side : Side
  levelIndex : Nat
  orderIndex : Nat
  reachableCount : Nat
  deriving DecidableEq, Repr

/-- The result of a check that found nothing. -/
def invariantHolds (reachableCount : Nat) : InvariantResult := ⟨.none, .buy, kInvalidIndex, kInvalidIndex, reachableCount⟩

/-- What a check has marked and counted. -/
structure Progress where
  marks : Nat → Nat
  reachable : Nat

/-- An order is marked and counted. -/
def Progress.visit (p : Progress) (epoch index : Nat) : Progress := ⟨update p.marks index epoch, p.reachable + 1⟩

namespace OrderBook

variable (b : OrderBook)

/-- The checks of a level before its queue is walked: a violation and the order it names. -/
def levelFault (priceLevel : PriceLevel) : Option (InvariantViolation × Nat) :=
  if priceLevel.headIndex = kInvalidIndex then some (.nonemptyInvalidHead, kInvalidIndex)
  else if priceLevel.tailIndex = kInvalidIndex then some (.nonemptyInvalidTail, kInvalidIndex)
  else if b.arena.capacity ≤ priceLevel.headIndex then some (.orderIndexOutOfRange, priceLevel.headIndex)
  else if !b.arena.isLiveIndex priceLevel.headIndex then some (.deadOrderReachable, priceLevel.headIndex)
  else if b.arena.capacity ≤ priceLevel.tailIndex then some (.orderIndexOutOfRange, priceLevel.tailIndex)
  else if !b.arena.isLiveIndex priceLevel.tailIndex then some (.deadOrderReachable, priceLevel.tailIndex)
  else if (b.arena.orderAt priceLevel.headIndex).prevIndex ≠ kInvalidIndex then some (.headPrevNotInvalid, priceLevel.headIndex)
  else if (b.arena.orderAt priceLevel.tailIndex).nextIndex ≠ kInvalidIndex then some (.tailNextNotInvalid, priceLevel.tailIndex)
  else none

/-- The checks of an order on the walk of its level, before it is marked. -/
def orderFault (side : Side) (levelIndex epoch : Nat) (marks : Nat → Nat) (current previous walkedQuantity : Nat) :
    Option InvariantViolation :=
  let order := b.arena.orderAt current
  if b.arena.capacity ≤ current then some .orderIndexOutOfRange
  else if !b.arena.isLiveIndex current then some .deadOrderReachable
  else if marks current = epoch then some .duplicateOrderReachable
  else if order.prevIndex ≠ previous then some .previousNotReciprocal
  else if order.side ≠ side then some .orderSideMismatch
  else if order.level ≠ levelIndex then some .orderLevelMismatch
  else if order.remaining = 0 then some .nonpositiveRemaining
  else if order.reservedFlags ≠ 0 then some .invalidStopState
  else if b.displayQuantities current = 0 ∨ b.displayedRemaining current = 0 ∨
      b.displayQuantities current < b.displayedRemaining current ∨ order.remaining < b.displayedRemaining current then
    some .invalidDisplayState
  else if 2 ^ 64 - 1 - order.remaining < walkedQuantity then some .aggregateOverflow
  else none

/-- The checks of an order's successor, after the order is marked. -/
def nextFault (current : Nat) : Option (InvariantViolation × Nat) :=
  let next := (b.arena.orderAt current).nextIndex
  if next = kInvalidIndex then none
  else if b.arena.capacity ≤ next then some (.orderIndexOutOfRange, next)
  else if !b.arena.isLiveIndex next then some (.deadOrderReachable, next)
  else if (b.arena.orderAt next).prevIndex ≠ current then some (.nextNotReciprocal, current)
  else none

/-- Where the walk of a level is. -/
structure Walk where
  current : Nat
  previous : Nat
  walkedCount : Nat
  walkedQuantity : Nat
  progress : Progress

/-- The walk of a level: a violation, or the walk's end. -/
def walkLevel (side : Side) (levelIndex epoch : Nat) (w : Walk) : Comp (Option InvariantResult × Walk) :=
  Comp.loop
    (fun (w : Walk) =>
      let failure (violation : InvariantViolation) (index : Nat) (p : Progress) : Option InvariantResult :=
        some ⟨violation, side, levelIndex, index, p.reachable⟩
      if w.current = kInvalidIndex then pure (.done (none, w))
      else
        match b.orderFault side levelIndex epoch w.progress.marks w.current w.previous w.walkedQuantity with
        | some violation => pure (.done (failure violation w.current w.progress, w))
        | none =>
          let progress := w.progress.visit epoch w.current
          match b.nextFault w.current with
          | some (violation, index) => pure (.done (failure violation index progress, { w with progress }))
          | none =>
            pure (.next
              { current := (b.arena.orderAt w.current).nextIndex
                previous := w.current
                walkedCount := w.walkedCount + 1
                walkedQuantity := w.walkedQuantity + (b.arena.orderAt w.current).remaining
                progress }))
    w

/-- One round of the loop of `check_side_invariants`. -/
def checkLevel (side : Side) (levelIndex epoch : Nat) (p : Progress) : Comp (Option InvariantResult × Progress) :=
  let priceLevel := b.level side levelIndex
  let failure (violation : InvariantViolation) (index reachable : Nat) : Option InvariantResult :=
    some ⟨violation, side, levelIndex, index, reachable⟩
  let nonempty : Bool := priceLevel.orderCount ≠ 0
  if ((b.occupancy side).test levelIndex).getD false ≠ nonempty then
    pure (failure .occupancyMismatch kInvalidIndex p.reachable, p)
  else if !nonempty then
    if priceLevel.headIndex ≠ kInvalidIndex ∨ priceLevel.tailIndex ≠ kInvalidIndex ∨ priceLevel.aggregateQuantity ≠ 0 then
      pure (failure .emptyLevelMetadata kInvalidIndex p.reachable, p)
    else pure (none, p)
  else
    match b.levelFault priceLevel with
    | some (violation, index) => pure (failure violation index p.reachable, p)
    | none => do
      let (result, w) ← b.walkLevel side levelIndex epoch ⟨priceLevel.headIndex, kInvalidIndex, 0, 0, p⟩
      if result.isSome then pure (result, w.progress)
      else if w.previous ≠ priceLevel.tailIndex then
        pure (failure .levelTailMismatch w.previous w.progress.reachable, w.progress)
      else if w.walkedCount ≠ priceLevel.orderCount then
        pure (failure .levelCountMismatch kInvalidIndex w.progress.reachable, w.progress)
      else if w.walkedQuantity ≠ priceLevel.aggregateQuantity then
        pure (failure .levelAggregateMismatch kInvalidIndex w.progress.reachable, w.progress)
      else pure (none, w.progress)

/-- `check_side_invariants` over `count` levels from `levelIndex` on: a violation, or none. -/
def checkSideInvariants (side : Side) (epoch : Nat) : Nat → Nat → Progress → Comp (Option InvariantResult × Progress)
  | 0, _, p => pure (none, p)
  | count + 1, levelIndex, p => do
    let (result, p) ← b.checkLevel side levelIndex epoch p
    if result.isSome then pure (result, p) else checkSideInvariants side epoch count (levelIndex + 1) p

/-- The walk of the dormant stops in `check_invariants`: a violation, or the last stop and the progress. -/
def checkStops (epoch : Nat) (p : Progress) : Comp (Option InvariantResult × Nat × Progress) :=
  Comp.loop
    (fun (st : Nat × Nat × Progress) =>
      let (stop, previousStop, p) := st
      let failure (side : Side) : Option InvariantResult := some ⟨.invalidStopState, side, kInvalidIndex, stop, p.reachable⟩
      if stop = kInvalidIndex then pure (.done (none, previousStop, p))
      else if b.arena.capacity ≤ stop ∨ !b.arena.isLiveIndex stop ∨ p.marks stop = epoch then
        pure (.done (failure .buy, previousStop, p))
      else
        let order := b.arena.orderAt stop
        if !order.dormant ∨ order.reservedFlags &&& (2 ^ 32 - 1 - (kOrderFlagDormantStop ||| kOrderFlagStopMarket)) ≠ 0 ∨
            order.remaining = 0 ∨ b.stopPrevIndices stop ≠ previousStop then
          pure (.done (failure order.side, previousStop, p))
        else pure (.next (b.stopNextIndices stop, stop, p.visit epoch stop)))
    (b.stopHead, kInvalidIndex, p)

/-- The scan of the arena in `check_invariants` over `count` slots from `index` on. -/
def checkSlots (epoch : Nat) (p : Progress) : Nat → Nat → Option InvariantResult
  | 0, _ => none
  | count + 1, index =>
    let order := b.arena.orderAt index
    if !b.arena.isLiveIndex index then checkSlots epoch p count (index + 1)
    else if order.remaining = 0 then some ⟨.nonpositiveRemaining, order.side, order.level, index, p.reachable⟩
    else if p.marks index ≠ epoch then some ⟨.liveOrderUnreachable, order.side, order.level, index, p.reachable⟩
    else checkSlots epoch p count (index + 1)

/-- The last checks of `check_invariants`: the count, and that the book is not crossed. -/
def checkTotals (p : Progress) : InvariantResult :=
  if p.reachable ≠ b.arena.size then ⟨.reachableCountMismatch, .buy, kInvalidIndex, kInvalidIndex, p.reachable⟩
  else
    match b.bestIndex .buy, b.bestIndex .sell with
    | some bid, some ask =>
      if b.tradingState = .continuous ∧ ask ≤ bid then ⟨.crossedBook, .buy, bid, kInvalidIndex, p.reachable⟩
      else invariantHolds p.reachable
    | _, _ => invariantHolds p.reachable

/-- The head of `check_invariants`: a new visit epoch. -/
def advanceVisitEpoch : OrderBook :=
  if b.visitEpoch = 2 ^ 32 - 1 then
    { b with
      visitMarks := fun index => if index < b.arena.capacity then 0 else b.visitMarks index
      visitEpoch := 1 }
  else { b with visitEpoch := b.visitEpoch + 1 }

/-- `check_invariants`. -/
def checkInvariants : Comp (InvariantResult × OrderBook) :=
  if !(b.occupancy .buy).hierarchyConsistent then
    pure (⟨.bitmapHierarchyInconsistent, .buy, kInvalidIndex, kInvalidIndex, 0⟩, b)
  else if !(b.occupancy .sell).hierarchyConsistent then
    pure (⟨.bitmapHierarchyInconsistent, .sell, kInvalidIndex, kInvalidIndex, 0⟩, b)
  else
    let b := b.advanceVisitEpoch
    let epoch := b.visitEpoch
    let levels := b.cfg.domain.tickCount
    let marked (p : Progress) : OrderBook := { b with visitMarks := p.marks }
    do
      let (result, lastStop, p) ← b.checkStops epoch ⟨b.visitMarks, 0⟩
      if let some result := result then return (result, marked p)
      if lastStop ≠ b.stopTail then return (⟨.invalidStopState, .buy, kInvalidIndex, lastStop, p.reachable⟩, marked p)
      if p.reachable ≠ b.dormantStopCount then
        return (⟨.invalidStopState, .buy, kInvalidIndex, b.stopTail, p.reachable⟩, marked p)
      let (result, p) ← b.checkSideInvariants .buy epoch levels 0 p
      if let some result := result then return (result, marked p)
      let (result, p) ← b.checkSideInvariants .sell epoch levels 0 p
      if let some result := result then return (result, marked p)
      if let some result := b.checkSlots epoch p b.arena.capacity 0 then return (result, marked p)
      return (b.checkTotals p, marked p)

/-! ## Runs -/

/-- A book and the calls that led to it from its construction, each with what it showed. A call that does not return leads nowhere;
`check_invariants` shows nothing but changes its own marks, so it may come between any two calls. -/
inductive Run (cfg : BookConfig) (state : TradingState) : List (Op × Outcome) → OrderBook → Prop where
  | create {b : OrderBook} (created : OrderBook.create cfg state = some b) : Run cfg state [] b
  | apply {calls : List (Op × Outcome)} {b b' : OrderBook} {op : Op} {out : Outcome} (before : Run cfg state calls b)
      (returned : (b.apply op).Returns (out, b')) : Run cfg state (calls ++ [(op, out)]) b'
  | check {calls : List (Op × Outcome)} {b b' : OrderBook} {result : InvariantResult} (before : Run cfg state calls b)
      (returned : b.checkInvariants.Returns (result, b')) : Run cfg state calls b'

/-- A run whose every call meets a condition on the book it is made on. -/
inductive RunIn (ok : OrderBook → Op → Prop) (cfg : BookConfig) (state : TradingState) : List (Op × Outcome) → OrderBook → Prop where
  | create {b : OrderBook} (created : OrderBook.create cfg state = some b) : RunIn ok cfg state [] b
  | apply {calls : List (Op × Outcome)} {b b' : OrderBook} {op : Op} {out : Outcome} (before : RunIn ok cfg state calls b)
      (meets : ok b op) (returned : (b.apply op).Returns (out, b')) : RunIn ok cfg state (calls ++ [(op, out)]) b'
  | check {calls : List (Op × Outcome)} {b b' : OrderBook} {result : InvariantResult} (before : RunIn ok cfg state calls b)
      (returned : b.checkInvariants.Returns (result, b')) : RunIn ok cfg state calls b'

/-- The order an operation submits, by its id, and the trader it is submitted under; an operation without a trader argument submits
under the anonymous id 0. -/
def submittedTrader : Op → Option (Nat × Nat)
  | .submitLimit id trader _ _ _ _ _ => some (id, trader)
  | .submitPostOnly id _ _ _ _ => some (id, 0)
  | .submitIceberg id trader _ _ _ _ _ => some (id, trader)
  | .submitMarket id _ _ _ => some (id, 0)
  | .submitStop id _ _ _ _ => some (id, 0)
  | .submitStopLimit id _ _ _ _ _ => some (id, 0)
  | _ => none

/-- The id of the order an operation submits: a replacement keeps the id of the order it replaces. -/
def submittedId : Op → Nat
  | .submitLimit id _ _ _ _ _ _ => id
  | .submitPostOnly id _ _ _ _ => id
  | .submitIceberg id _ _ _ _ _ _ => id
  | .submitMarket id _ _ _ => id
  | .submitStop id _ _ _ _ => id
  | .submitStopLimit id _ _ _ _ _ => id
  | .replace handle _ _ _ => (b.arena.orderAt handle.index).id
  | _ => 0

/-- A handle that a call has returned, with the order it was returned for: its serial number, which counts the orders the arena has
accepted, and its id. -/
structure Issue where
  handle : Handle
  serial : Nat
  id : Nat
  deriving DecidableEq, Repr

/-- What a call on the book `b` issues: the resting handle of the order it submitted, if it rests or sleeps. -/
def issues (op : Op) (out : Outcome) : List Issue :=
  match out.reply with
  | .submit result => if result.restingHandle = kInvalidHandle then [] else [⟨result.restingHandle, b.arena.accepted, b.submittedId op⟩]
  | _ => []

/-- A book and the handles issued on the way to it. -/
inductive History (cfg : BookConfig) (state : TradingState) : List Issue → OrderBook → Prop where
  | create {b : OrderBook} (created : OrderBook.create cfg state = some b) : History cfg state [] b
  | apply {issued : List Issue} {b b' : OrderBook} {op : Op} {out : Outcome} (before : History cfg state issued b)
      (returned : (b.apply op).Returns (out, b')) : History cfg state (issued ++ b.issues op out) b'
  | check {issued : List Issue} {b b' : OrderBook} {result : InvariantResult} (before : History cfg state issued b)
      (returned : b.checkInvariants.Returns (result, b')) : History cfg state issued b'

/-- Calls lead from one book to another. -/
inductive Later (b : OrderBook) : OrderBook → Prop where
  | refl : Later b b
  | apply {b' b'' : OrderBook} {op : Op} {out : Outcome} (before : Later b b') (returned : (b'.apply op).Returns (out, b'')) : Later b b''
  | check {b' b'' : OrderBook} {result : InvariantResult} (before : Later b b')
      (returned : b'.checkInvariants.Returns (result, b'')) : Later b b''

/-- The slots that the stop list and the levels reach. -/
def reachableSlots : List Nat :=
  b.stopSlots ++ (List.range b.cfg.domain.tickCount).flatMap (b.levelSlots .buy) ++
    (List.range b.cfg.domain.tickCount).flatMap (b.levelSlots .sell)

/-- Calls one after another, each with this much fuel. -/
def executeFrom (b : OrderBook) (fuel : Nat) (calls : List (Op × Outcome)) : List Op → Option (List (Op × Outcome) × OrderBook)
  | [] => some (calls, b)
  | op :: ops =>
    match (b.apply op).run fuel with
    | none => none
    | some (out, b') => executeFrom b' fuel (calls ++ [(op, out)]) ops

/-- Calls one after another on a new book. -/
def execute (cfg : BookConfig) (state : TradingState) (fuel : Nat) (ops : List Op) : Option (List (Op × Outcome) × OrderBook) :=
  (create cfg state).bind fun b => b.executeFrom fuel [] ops

/-- What is executed is a run. -/
theorem Run.executeFrom {cfg : BookConfig} {state : TradingState} {fuel : Nat} {ops : List Op} {calls calls' : List (Op × Outcome)}
    {b b' : OrderBook} (hb : Run cfg state calls b) (h : b.executeFrom fuel calls ops = some (calls', b')) : Run cfg state calls' b' := by
  induction ops generalizing calls b with
  | nil =>
    rw [OrderBook.executeFrom, Option.some.injEq, Prod.mk.injEq] at h
    exact h.1 ▸ h.2 ▸ hb
  | cons op ops ih =>
    rw [OrderBook.executeFrom] at h
    split at h
    · cases h
    · rename_i out b1 hr
      exact ih (.apply hb ⟨fuel, hr⟩) h

/-- What is executed is a run. -/
theorem Run.of_execute {cfg : BookConfig} {state : TradingState} {fuel : Nat} {ops : List Op} {calls : List (Op × Outcome)}
    {b : OrderBook} (h : execute cfg state fuel ops = some (calls, b)) : Run cfg state calls b := by
  obtain ⟨b0, hb0, h⟩ := Option.bind_eq_some_iff.mp h
  exact Run.executeFrom (.create hb0) h

/-- What is executed is a run of allowed calls, if all of them are allowed. -/
theorem RunIn.executeFrom {ok : OrderBook → Op → Prop} {cfg : BookConfig} {state : TradingState} {fuel : Nat} {ops : List Op}
    {calls calls' : List (Op × Outcome)} {b b' : OrderBook} (hok : ∀ b, ∀ op ∈ ops, ok b op) (hb : RunIn ok cfg state calls b)
    (h : b.executeFrom fuel calls ops = some (calls', b')) : RunIn ok cfg state calls' b' := by
  induction ops generalizing calls b with
  | nil =>
    rw [OrderBook.executeFrom, Option.some.injEq, Prod.mk.injEq] at h
    exact h.1 ▸ h.2 ▸ hb
  | cons op ops ih =>
    rw [OrderBook.executeFrom] at h
    split at h
    · cases h
    · rename_i out b1 hr
      exact ih (fun b op hop => hok b op (List.mem_cons_of_mem _ hop)) (.apply hb (hok b op List.mem_cons_self) ⟨fuel, hr⟩) h

/-- What is executed with calls that always meet the condition is a conditional run. -/
theorem RunIn.of_execute (ok : OrderBook → Op → Prop) {cfg : BookConfig} {state : TradingState} {fuel : Nat} {ops : List Op}
    {calls : List (Op × Outcome)} {b : OrderBook} (hok : ∀ b, ∀ op ∈ ops, ok b op)
    (h : execute cfg state fuel ops = some (calls, b)) : RunIn ok cfg state calls b := by
  obtain ⟨b0, hb0, h⟩ := Option.bind_eq_some_iff.mp h
  exact RunIn.executeFrom hok (.create hb0) h

end OrderBook

/-- A FIFO book of eight ticks from 100 on, for concrete runs. -/
def BookConfig.small (maxOrders : Nat) (maxOrders_lt : maxOrders < 2 ^ 32) (selfTradePolicy : SelfTradePolicy) : BookConfig where
  domain := ⟨100, 8, by decide, by decide, by decide, by decide⟩
  maxOrders
  maxOrderQuantity := 100
  selfTradePolicy
  allocationMode := .fifo
  proRataMinimum := 0
  ticks_le := by decide
  maxOrders_lt
  maxOrderQuantity_pos := by decide
  maxOrderQuantity_lt := by decide
  fifo_minimum := fun _ => rfl
  proRata_minimum := nofun

end MatchingEngine

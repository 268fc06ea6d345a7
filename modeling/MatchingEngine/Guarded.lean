import MatchingEngine.Check

/-!
# The invariant check with its accesses guarded

`check_invariants` once more, each access to an order or to an array of the arena's length checked at the place where the source makes
it: an access outside the arena ends the check with `none`. Levels and bitmap words are not accessed by what an order says, so they are
read as before.
-/

namespace MatchingEngine

namespace OrderBook

variable (b : OrderBook)

/-- An element of an array of the arena's length. -/
def readAt {α : Type} (elements : Nat → α) (index : Nat) : Option α := if index < b.arena.capacity then some (elements index) else none

/-- `order_at(index)`. -/
def readOrder (index : Nat) : Option Order := (b.readAt b.arena.slots index).map Slot.order

/-- `is_live_index(index)`, which checks the index itself. -/
def readLive (index : Nat) : Option Bool :=
  if index < b.arena.capacity then (b.readAt b.arena.slots index).map Slot.live else some false

/-- `visit_marks_[index] = epoch`, with the count. -/
def writeMark (epoch index : Nat) (p : Progress) : Option Progress :=
  if index < b.arena.capacity then some (p.visit epoch index) else none

/-- `levelFault`, guarded. -/
def guardedLevelFault (priceLevel : PriceLevel) : Option (Option (InvariantViolation × Nat)) :=
  if priceLevel.headIndex = kInvalidIndex then some (some (.nonemptyInvalidHead, kInvalidIndex))
  else if priceLevel.tailIndex = kInvalidIndex then some (some (.nonemptyInvalidTail, kInvalidIndex))
  else if b.arena.capacity ≤ priceLevel.headIndex then some (some (.orderIndexOutOfRange, priceLevel.headIndex))
  else do
    if !(← b.readLive priceLevel.headIndex) then return some (.deadOrderReachable, priceLevel.headIndex)
    if b.arena.capacity ≤ priceLevel.tailIndex then return some (.orderIndexOutOfRange, priceLevel.tailIndex)
    if !(← b.readLive priceLevel.tailIndex) then return some (.deadOrderReachable, priceLevel.tailIndex)
    if (← b.readOrder priceLevel.headIndex).prevIndex ≠ kInvalidIndex then return some (.headPrevNotInvalid, priceLevel.headIndex)
    if (← b.readOrder priceLevel.tailIndex).nextIndex ≠ kInvalidIndex then return some (.tailNextNotInvalid, priceLevel.tailIndex)
    return none

/-- `orderFault`, guarded. -/
def guardedOrderFault (side : Side) (levelIndex epoch : Nat) (marks : Nat → Nat) (current previous walkedQuantity : Nat) :
    Option (Option InvariantViolation) :=
  if b.arena.capacity ≤ current then some (some .orderIndexOutOfRange)
  else do
    if !(← b.readLive current) then return some .deadOrderReachable
    if (← b.readAt marks current) = epoch then return some .duplicateOrderReachable
    let order ← b.readOrder current
    if order.prevIndex ≠ previous then return some .previousNotReciprocal
    if order.side ≠ side then return some .orderSideMismatch
    if order.level ≠ levelIndex then return some .orderLevelMismatch
    if order.remaining = 0 then return some .nonpositiveRemaining
    if order.reservedFlags ≠ 0 then return some .invalidStopState
    let displayQuantity ← b.readAt b.displayQuantities current
    let displayed ← b.readAt b.displayedRemaining current
    if displayQuantity = 0 ∨ displayed = 0 ∨ displayQuantity < displayed ∨ order.remaining < displayed then
      return some .invalidDisplayState
    if 2 ^ 64 - 1 - order.remaining < walkedQuantity then return some .aggregateOverflow
    return none

/-- `nextFault`, guarded. -/
def guardedNextFault (current : Nat) : Option (Option (InvariantViolation × Nat)) := do
  let next := (← b.readOrder current).nextIndex
  if next = kInvalidIndex then return none
  if b.arena.capacity ≤ next then return some (.orderIndexOutOfRange, next)
  if !(← b.readLive next) then return some (.deadOrderReachable, next)
  if (← b.readOrder next).prevIndex ≠ current then return some (.nextNotReciprocal, current)
  return none

/-- A round of the walk of a level, guarded. -/
def guardedWalkRound (side : Side) (levelIndex epoch : Nat) (w : Walk) : Option (Turn Walk (Option InvariantResult × Walk)) :=
  let failure (violation : InvariantViolation) (index : Nat) (p : Progress) : Option InvariantResult :=
    some ⟨violation, side, levelIndex, index, p.reachable⟩
  if w.current = kInvalidIndex then some (.done (none, w))
  else do
    if let some violation := ← b.guardedOrderFault side levelIndex epoch w.progress.marks w.current w.previous w.walkedQuantity then
      return .done (failure violation w.current w.progress, w)
    let progress ← b.writeMark epoch w.current w.progress
    if let some (violation, index) := ← b.guardedNextFault w.current then
      return .done (failure violation index progress, { w with progress })
    let order ← b.readOrder w.current
    return .next
      { current := order.nextIndex
        previous := w.current
        walkedCount := w.walkedCount + 1
        walkedQuantity := w.walkedQuantity + order.remaining
        progress }

/-- A loop whose rounds are guarded: a failed access ends it. -/
def guardedLoop {σ ρ : Type} (round : σ → Option (Turn σ ρ)) (s : σ) : OptionT Comp ρ :=
  OptionT.mk (Comp.loop
    (fun s =>
      match round s with
      | none => pure (.done none)
      | some (.done r) => pure (.done (some r))
      | some (.next s) => pure (.next s))
    s)

/-- `walkLevel`, guarded. -/
def guardedWalkLevel (side : Side) (levelIndex epoch : Nat) (w : Walk) : OptionT Comp (Option InvariantResult × Walk) :=
  guardedLoop (b.guardedWalkRound side levelIndex epoch) w

/-- `checkLevel`, guarded. -/
def guardedCheckLevel (side : Side) (levelIndex epoch : Nat) (p : Progress) : OptionT Comp (Option InvariantResult × Progress) :=
  let priceLevel := b.level side levelIndex
  let failure (violation : InvariantViolation) (index reachable : Nat) : Option InvariantResult :=
    some ⟨violation, side, levelIndex, index, reachable⟩
  let nonempty : Bool := priceLevel.orderCount ≠ 0
  if ((b.occupancy side).test levelIndex).getD false ≠ nonempty then
    pure (failure .occupancyMismatch kInvalidIndex p.reachable, p)
  else if !nonempty then
    if priceLevel.headIndex ≠ kInvalidIndex ∨ priceLevel.tailIndex ≠ kInvalidIndex ∨ priceLevel.aggregateQuantity ≠ 0 then
      pure (failure .emptyLevelMetadata kInvalidIndex p.reachable, p)
    else pure (none, p)
  else
    match b.guardedLevelFault priceLevel with
    | none => OptionT.fail
    | some (some (violation, index)) => pure (failure violation index p.reachable, p)
    | some none => do
      let (result, w) ← b.guardedWalkLevel side levelIndex epoch ⟨priceLevel.headIndex, kInvalidIndex, 0, 0, p⟩
      if result.isSome then pure (result, w.progress)
      else if w.previous ≠ priceLevel.tailIndex then
        pure (failure .levelTailMismatch w.previous w.progress.reachable, w.progress)
      else if w.walkedCount ≠ priceLevel.orderCount then
        pure (failure .levelCountMismatch kInvalidIndex w.progress.reachable, w.progress)
      else if w.walkedQuantity ≠ priceLevel.aggregateQuantity then
        pure (failure .levelAggregateMismatch kInvalidIndex w.progress.reachable, w.progress)
      else pure (none, w.progress)

/-- `checkSideInvariants`, guarded. -/
def guardedCheckSideInvariants (side : Side) (epoch : Nat) :
    Nat → Nat → Progress → OptionT Comp (Option InvariantResult × Progress)
  | 0, _, p => pure (none, p)
  | count + 1, levelIndex, p => do
    let (result, p) ← b.guardedCheckLevel side levelIndex epoch p
    if result.isSome then pure (result, p) else guardedCheckSideInvariants side epoch count (levelIndex + 1) p

/-- A round of the walk of the dormant stops, guarded. -/
def guardedStopRound (epoch : Nat) (st : Nat × Nat × Progress) :
    Option (Turn (Nat × Nat × Progress) (Option InvariantResult × Nat × Progress)) :=
  let (stop, previousStop, p) := st
  let failure (side : Side) : Option InvariantResult := some ⟨.invalidStopState, side, kInvalidIndex, stop, p.reachable⟩
  if stop = kInvalidIndex then some (.done (none, previousStop, p))
  else if b.arena.capacity ≤ stop then some (.done (failure .buy, previousStop, p))
  else do
    if !(← b.readLive stop) then return .done (failure .buy, previousStop, p)
    if (← b.readAt p.marks stop) = epoch then return .done (failure .buy, previousStop, p)
    let order ← b.readOrder stop
    if !order.dormant ∨ order.reservedFlags &&& (2 ^ 32 - 1 - (kOrderFlagDormantStop ||| kOrderFlagStopMarket)) ≠ 0 ∨
        order.remaining = 0 then
      return .done (failure order.side, previousStop, p)
    if (← b.readAt b.stopPrevIndices stop) ≠ previousStop then return .done (failure order.side, previousStop, p)
    let marked ← b.writeMark epoch stop p
    return .next (← b.readAt b.stopNextIndices stop, stop, marked)

/-- `checkStops`, guarded. -/
def guardedCheckStops (epoch : Nat) (p : Progress) : OptionT Comp (Option InvariantResult × Nat × Progress) :=
  guardedLoop (b.guardedStopRound epoch) (b.stopHead, kInvalidIndex, p)

/-- `checkSlots`, guarded. -/
def guardedCheckSlots (epoch : Nat) (p : Progress) : Nat → Nat → Option (Option InvariantResult)
  | 0, _ => some none
  | count + 1, index => do
    if !(← b.readLive index) then return ← guardedCheckSlots epoch p count (index + 1)
    let order ← b.readOrder index
    if order.remaining = 0 then return some ⟨.nonpositiveRemaining, order.side, order.level, index, p.reachable⟩
    if (← b.readAt p.marks index) ≠ epoch then return some ⟨.liveOrderUnreachable, order.side, order.level, index, p.reachable⟩
    guardedCheckSlots epoch p count (index + 1)

/-- `checkInvariants` after the bitmaps and the new visit epoch, guarded. -/
def guardedCheckGraph : OptionT Comp (InvariantResult × OrderBook) := do
  let marked (p : Progress) : OrderBook := { b with visitMarks := p.marks }
  let (result, lastStop, p) ← b.guardedCheckStops b.visitEpoch ⟨b.visitMarks, 0⟩
  if let some result := result then return (result, marked p)
  if lastStop ≠ b.stopTail then return (⟨.invalidStopState, .buy, kInvalidIndex, lastStop, p.reachable⟩, marked p)
  if p.reachable ≠ b.dormantStopCount then
    return (⟨.invalidStopState, .buy, kInvalidIndex, b.stopTail, p.reachable⟩, marked p)
  let (result, p) ← b.guardedCheckSideInvariants .buy b.visitEpoch b.cfg.domain.tickCount 0 p
  if let some result := result then return (result, marked p)
  let (result, p) ← b.guardedCheckSideInvariants .sell b.visitEpoch b.cfg.domain.tickCount 0 p
  if let some result := result then return (result, marked p)
  let result ← OptionT.mk (pure (b.guardedCheckSlots b.visitEpoch p b.arena.capacity 0))
  if let some result := result then return (result, marked p)
  return (b.checkTotals p, marked p)

/-- `checkInvariants`, guarded; `advanceVisitEpoch` writes the marks below the capacity only. -/
def guardedCheckInvariants : OptionT Comp (InvariantResult × OrderBook) :=
  if !(b.occupancy .buy).hierarchyConsistent then
    pure (⟨.bitmapHierarchyInconsistent, .buy, kInvalidIndex, kInvalidIndex, 0⟩, b)
  else if !(b.occupancy .sell).hierarchyConsistent then
    pure (⟨.bitmapHierarchyInconsistent, .sell, kInvalidIndex, kInvalidIndex, 0⟩, b)
  else b.advanceVisitEpoch.guardedCheckGraph

end OrderBook

end MatchingEngine

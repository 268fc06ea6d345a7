import MatchingEngine.Engine
import MatchingEngine.Journal
import MatchingEngine.Lib.Bytes

/-!
# Snapshots

`SnapshotCodec::encode` and `SnapshotCodec::decode` of `snapshot.cpp`: an engine as bytes and back. The bytes are a header and one slot of
fixed size for each slot of the arena; the versions before 6 have shorter headers and slots, and what they do not store has a default.
Allocation is taken to succeed, so that `allocation_failed` is not returned.
-/

namespace MatchingEngine

open Function

/-! ## Format -/

def kMagic : List UInt8 := [77, 69, 83, 78, 65, 80, 52, 0]

def kSnapshotFormatVersion : Nat := 6

def kSnapshotHeaderSize : Nat := 124

def kLegacySnapshotHeaderSize : Nat := 112

def kSnapshotSlotSize : Nat := 96

def kMaximumSnapshotSlots : Nat := 1000000

def kChecksumOffset : Nat := 96

def kHeaderReservedOffset : Nat := 100

inductive SnapshotError where
  | none
  | invalidPath
  | notFound
  | permissionDenied
  | symlink
  | notRegularFile
  | fileTooLarge
  | invalidLength
  | invalidHeader
  | unsupportedVersion
  | checksumMismatch
  | priceLevelLimit
  | invalidConfiguration
  | invalidSequenceState
  | noncanonicalSlot
  | invalidSlotMetadata
  | liveCountMismatch
  | invalidFreeList
  | invalidOrder
  | invalidOrderGraph
  | aggregateOverflow
  | crossedBook
  | allocationFailed
  | invalidState
  | ioError
  | commitIndeterminate
  | tempCollisionLimit
  deriving DecidableEq, Repr

structure SnapshotPoint where
  sequence : UInt64
  logicalTime : UInt64
  deriving DecidableEq, Repr

structure DecodedSnapshot where
  engine : SequencedEngine
  point : SnapshotPoint

/-- `static_cast<std::uint64_t>` of a price. -/
def toUnsigned64 (value : Int) : Nat := (value % 2 ^ 64).toNat

/-- `static_cast<std::int64_t>` of a 64-bit word. -/
def toSigned64 (value : Nat) : Int := if value < 2 ^ 63 then value else value - 2 ^ 64

/-- The underlying value of a policy: the enumerators are numbered in their order. -/
def SelfTradePolicy.raw (policy : SelfTradePolicy) : Nat := policy.ctorIdx

@[inherit_doc SelfTradePolicy.raw]
def AllocationMode.raw (mode : AllocationMode) : Nat := mode.ctorIdx

@[inherit_doc SelfTradePolicy.raw]
def TradingState.raw (state : TradingState) : Nat := state.ctorIdx

/-- `static_cast<SelfTradePolicy>` of a value that the header check has let through. -/
def SelfTradePolicy.ofRaw (raw : Nat) : SelfTradePolicy := if raw = 0 then .none else .cancelTaker

@[inherit_doc SelfTradePolicy.ofRaw]
def AllocationMode.ofRaw (raw : Nat) : AllocationMode := if raw = 0 then .fifo else .thresholdProRata

@[inherit_doc SelfTradePolicy.ofRaw]
def TradingState.ofRaw (raw : Nat) : TradingState := if raw = 0 then .continuous else .openingAuction

/-- `snapshot_crc`: the loop passes over the bytes of the checksum. -/
def snapshotCrc (b : Buffer) (size : Nat) : UInt32 :=
  ~~~(List.range size).foldl
    (fun state index => if kChecksumOffset ≤ index ∧ index < kChecksumOffset + 4 then state else crc32cByte state (b index)) 0xffffffff

/-! ## Encoding -/

/-- The header of `engine` at `point`, in a snapshot of `size` bytes. -/
def snapshotHeaderFields (engine : SequencedEngine) (point : SnapshotPoint) (size : Nat) : List Buffer.Field :=
  let book := engine.orderBook
  kMagic.mapIdx (fun index byte => ⟨index, 1, byte.toNat⟩) ++
  [⟨8, 4, kSnapshotFormatVersion⟩,
   ⟨12, 4, kSnapshotHeaderSize⟩,
   ⟨16, 4, kSnapshotSlotSize⟩,
   ⟨20, 4, book.cfg.selfTradePolicy.raw⟩,
   ⟨24, 8, size⟩,
   ⟨32, 8, toUnsigned64 book.cfg.domain.minimum⟩,
   ⟨40, 4, book.cfg.domain.tickCount⟩,
   ⟨44, 4, book.cfg.maxOrderQuantity⟩,
   ⟨48, 4, book.arena.capacity⟩,
   ⟨52, 4, book.arena.size⟩,
   ⟨56, 4, book.arena.freeHead⟩,
   ⟨60, 4, if engine.sequenceExhausted then 1 else 0⟩,
   ⟨64, 8, engine.nextSequence.toNat⟩,
   ⟨72, 8, engine.lastLogicalTime.toNat⟩,
   ⟨80, 8, point.sequence.toNat⟩,
   ⟨88, 8, point.logicalTime.toNat⟩,
   ⟨100, 8, toUnsigned64 (book.lastExecutionPrice.getD 0)⟩,
   ⟨108, 4, if book.lastExecutionPrice.isSome then 1 else 0⟩,
   ⟨112, 4, book.cfg.allocationMode.raw⟩,
   ⟨116, 4, book.cfg.proRataMinimum⟩,
   ⟨120, 4, book.tradingState.raw⟩]

/-- Where the slot `index` begins. -/
def snapshotSlotOffset (index : Nat) : Nat := kSnapshotHeaderSize + index * kSnapshotSlotSize

/-- The slot `index` of a book. -/
def snapshotSlotFields (book : OrderBook) (index : Nat) : List Buffer.Field :=
  let slot := book.arena.slots index
  let offset := snapshotSlotOffset index
  [⟨offset, 4, slot.generation⟩,
   ⟨offset + 4, 4, slot.freeNext⟩,
   ⟨offset + 8, 1, if slot.live then 1 else 0⟩] ++
  if slot.live then
    [⟨offset + 12, 8, slot.order.id⟩,
     ⟨offset + 20, 8, slot.order.remaining⟩,
     ⟨offset + 28, 4, slot.order.prevIndex⟩,
     ⟨offset + 32, 4, slot.order.nextIndex⟩,
     ⟨offset + 36, 4, slot.order.encodedLevelSide⟩,
     ⟨offset + 40, 4, slot.order.reservedFlags⟩,
     ⟨offset + 48, 8, book.traderIds index⟩,
     ⟨offset + 56, 8, book.displayQuantities index⟩,
     ⟨offset + 64, 8, book.displayedRemaining index⟩,
     ⟨offset + 72, 8, toUnsigned64 (book.stopTriggerPrices index)⟩,
     ⟨offset + 80, 8, toUnsigned64 (book.stopLimitPrices index)⟩,
     ⟨offset + 88, 4, book.stopPrevIndices index⟩,
     ⟨offset + 92, 4, book.stopNextIndices index⟩]
  else []

/-- The bytes of `encode` before the checksum. -/
def snapshotContent (engine : SequencedEngine) (point : SnapshotPoint) (size : Nat) : Buffer :=
  (List.range engine.orderBook.arena.capacity).foldl (fun b index => b.writeFields (snapshotSlotFields engine.orderBook index))
    (Buffer.zeros.writeFields (snapshotHeaderFields engine point size))

/-- The size of the snapshot of a book with this many slots. -/
def snapshotSize (capacity : Nat) : Nat := kSnapshotHeaderSize + capacity * kSnapshotSlotSize

/-- The bytes `encode` returns. -/
def snapshotBytes (engine : SequencedEngine) (point : SnapshotPoint) : List UInt8 :=
  let size := snapshotSize engine.orderBook.arena.capacity
  let content := snapshotContent engine point size
  (content.writeU32 kChecksumOffset (snapshotCrc content size)).slice 0 size

/-- The point does not belong to the engine's state. -/
def SequencedEngine.misses (engine : SequencedEngine) (point : SnapshotPoint) : Bool :=
  (!engine.sequenceExhausted ∧ (point.sequence = uint64Max ∨ engine.nextSequence ≠ point.sequence + 1)) ∨
  (engine.sequenceExhausted ∧ (point.sequence ≠ uint64Max ∨ engine.nextSequence ≠ uint64Max)) ∨
  point.logicalTime ≠ engine.lastLogicalTime

/-- `encode_snapshot`: the bytes, and the engine, in whose book the check has left its marks. -/
def encodeSnapshot (engine : SequencedEngine) (point : SnapshotPoint) : Comp (Except SnapshotError (List UInt8) × SequencedEngine) :=
  if kMaximumSnapshotSlots < engine.orderBook.arena.capacity then pure (.error .invalidState, engine)
  else do
    let (result, book) ← engine.orderBook.checkInvariants
    let engine := { engine with orderBook := book }
    if result.violation ≠ .none then return (.error .invalidState, engine)
    if engine.misses point then return (.error .invalidState, engine)
    return (.ok (snapshotBytes engine point), engine)

/-! ## Reading the header -/

/-- What the header of a snapshot says; what its version does not store has its default. -/
structure SnapshotHeader where
  version : Nat
  selfTradePolicy : Nat
  allocationMode : Nat
  proRataMinimum : Nat
  tradingState : Nat
  minimum : Int
  tickCount : Nat
  maxQuantity : Nat
  capacity : Nat
  liveCount : Nat
  freeHead : Nat
  exhausted : Nat
  nextSequence : UInt64
  lastTime : UInt64
  point : SnapshotPoint
  lastExecutionPrice : Option Int
  deriving DecidableEq, Repr

namespace SnapshotHeader

def read (b : Buffer) : SnapshotHeader :=
  let version := b.readLE 8 4
  { version
    selfTradePolicy := b.readLE 20 4
    allocationMode := if version < 5 then 0 else b.readLE 112 4
    proRataMinimum := if version < 5 then 0 else b.readLE 116 4
    tradingState := if version < 6 then 0 else b.readLE 120 4
    minimum := toSigned64 (b.readLE 32 8)
    tickCount := b.readLE 40 4
    maxQuantity := b.readLE 44 4
    capacity := b.readLE 48 4
    liveCount := b.readLE 52 4
    freeHead := b.readLE 56 4
    exhausted := b.readLE 60 4
    nextSequence := b.readU64 64
    lastTime := b.readU64 72
    point := ⟨b.readU64 80, b.readU64 88⟩
    lastExecutionPrice := if 4 ≤ version ∧ b.readLE 108 4 = 1 then some (toSigned64 (b.readLE 100 8)) else none }

variable (h : SnapshotHeader)

def headerSize : Nat :=
  if h.version = kSnapshotFormatVersion then kSnapshotHeaderSize else if h.version = 5 then 120 else kLegacySnapshotHeaderSize

def slotSize : Nat := if h.version = 1 then 48 else if h.version = 2 then 56 else if h.version = 3 then 72 else kSnapshotSlotSize

/-- The length of a snapshot with this header. -/
def expected : Nat := h.headerSize + h.capacity * h.slotSize

/-- Where the slot `index` begins. -/
def slotOffset (index : Nat) : Nat := h.headerSize + index * h.slotSize

/-- The header does not have the form of its version. -/
def malformed (b : Buffer) : Bool :=
  b.readLE 12 4 ≠ h.headerSize ∨ b.readLE 16 4 ≠ h.slotSize ∨
  (h.version = 1 ∧ h.selfTradePolicy ≠ 0) ∨
  (2 ≤ h.version ∧ 1 < h.selfTradePolicy) ∨
  (h.version < 4 ∧ !b.allZero kHeaderReservedOffset (kLegacySnapshotHeaderSize - kHeaderReservedOffset)) ∨
  (4 ≤ h.version ∧ (1 < b.readLE 108 4 ∨ (b.readLE 108 4 = 0 ∧ b.readLE 100 8 ≠ 0))) ∨
  1 < h.allocationMode ∨
  1 < h.tradingState

/-- The configuration of the book is refused. -/
def badConfiguration : Bool :=
  h.maxQuantity = 0 ∨
  (h.allocationMode = 0 ∧ h.proRataMinimum ≠ 0) ∨
  (h.allocationMode = 1 ∧ (h.proRataMinimum = 0 ∨ h.maxQuantity < h.proRataMinimum))

/-- The sequence state is refused. -/
def badSequenceState : Bool :=
  h.nextSequence = 0 ∨ 1 < h.exhausted ∨ h.point.logicalTime ≠ h.lastTime ∨
  (h.exhausted = 0 ∧ (h.point.sequence = uint64Max ∨ h.nextSequence ≠ h.point.sequence + 1)) ∨
  (h.exhausted = 1 ∧ (h.point.sequence ≠ uint64Max ∨ h.nextSequence ≠ uint64Max))

/-- The checks of `decode` on the header and the length, in their order. -/
def fault (b : Buffer) (size : Nat) : Option SnapshotError :=
  if size < kLegacySnapshotHeaderSize then some .invalidLength
  else if b.slice 0 8 ≠ kMagic then some .invalidHeader
  else if h.version < 1 ∨ kSnapshotFormatVersion < h.version then some .unsupportedVersion
  else if size < h.headerSize then some .invalidLength
  else if h.malformed b then some .invalidHeader
  else if kMaximumSnapshotSlots < h.capacity ∨ (2 ^ 64 - 1 - h.headerSize) / h.slotSize < h.capacity then some .fileTooLarge
  else if size ≠ h.expected ∨ b.readLE 24 8 ≠ h.expected then some .invalidLength
  else if snapshotCrc b size ≠ b.readU32 kChecksumOffset then some .checksumMismatch
  else if h.tickCount = 0 ∨ kMaximumPriceLevels < h.tickCount then some .priceLevelLimit
  else if h.capacity < h.liveCount then some .liveCountMismatch
  else if h.badConfiguration then some .invalidConfiguration
  else if h.badSequenceState then some .invalidSequenceState
  else none

end SnapshotHeader

/-- The `PriceDomain` constructor; `none` where it throws. -/
def PriceDomain.checked (minimum : Int) (tickCount : Nat) : Option PriceDomain :=
  if h : 0 < tickCount ∧ tickCount < 2 ^ 32 ∧ -2 ^ 63 ≤ minimum ∧ minimum + (tickCount - 1 : Nat) ≤ 2 ^ 63 - 1 then
    some ⟨minimum, tickCount, h.1, h.2.1, h.2.2.1, h.2.2.2⟩
  else none

/-- The engine that `decode` constructs before it reads the slots; `none` where a constructor throws. -/
def SnapshotHeader.engine (h : SnapshotHeader) : Option SequencedEngine := do
  let domain ← PriceDomain.checked h.minimum h.tickCount
  let cfg ← BookConfig.checked domain h.capacity h.maxQuantity (.ofRaw h.selfTradePolicy) (.ofRaw h.allocationMode) h.proRataMinimum
  let engine ← SequencedEngine.create cfg h.nextSequence h.lastTime (.ofRaw h.tradingState)
  let book := engine.orderBook
  some
    { engine with
      sequenceExhausted := h.exhausted = 1
      orderBook :=
        { book with
          lastExecutionPrice := h.lastExecutionPrice
          arena := { book.arena with size := h.liveCount, freeHead := h.freeHead } } }

/-! ## Reading the slots -/

/-- What a slot of a snapshot says; what its version does not store has its default. -/
structure SlotRecord where
  generation : Nat
  freeNext : Nat
  live : Nat
  order : Order
  traderId : Nat
  displayQuantity : Nat
  displayedRemaining : Nat
  stopTriggerPrice : Int
  stopLimitPrice : Int
  stopPrevIndex : Nat
  stopNextIndex : Nat
  deriving DecidableEq, Repr

namespace SlotRecord

/-- The slot at `offset`, in a snapshot of a version. -/
def read (version : Nat) (b : Buffer) (offset : Nat) : SlotRecord :=
  let remaining := b.readLE (offset + 20) 8
  { generation := b.readLE offset 4
    freeNext := b.readLE (offset + 4) 4
    live := b.readLE (offset + 8) 1
    order :=
      { id := b.readLE (offset + 12) 8
        remaining
        prevIndex := b.readLE (offset + 28) 4
        nextIndex := b.readLE (offset + 32) 4
        encodedLevelSide := b.readLE (offset + 36) 4
        reservedFlags := b.readLE (offset + 40) 4 }
    traderId := if version = 1 then 0 else b.readLE (offset + 48) 8
    displayQuantity := if version < 3 then remaining else b.readLE (offset + 56) 8
    displayedRemaining := if version < 3 then remaining else b.readLE (offset + 64) 8
    stopTriggerPrice := if version < 4 then 0 else toSigned64 (b.readLE (offset + 72) 8)
    stopLimitPrice := if version < 4 then 0 else toSigned64 (b.readLE (offset + 80) 8)
    stopPrevIndex := if version < 4 then 0 else b.readLE (offset + 88) 4
    stopNextIndex := if version < 4 then 0 else b.readLE (offset + 92) 4 }

variable (s : SlotRecord) (h : SnapshotHeader)

/-- A dormant stop is refused. -/
def invalidStop : Bool :=
  h.version < 4 ∨
  s.order.reservedFlags &&& (2 ^ 32 - 1 - (kOrderFlagDormantStop ||| kOrderFlagStopMarket)) ≠ 0 ∨
  s.order.remaining = 0 ∨ h.maxQuantity < s.order.remaining ∨
  s.order.prevIndex ≠ kInvalidIndex ∨ s.order.nextIndex ≠ kInvalidIndex ∨
  s.order.level ≠ 0 ∨
  s.traderId ≠ 0 ∨ s.displayQuantity ≠ 0 ∨ s.displayedRemaining ≠ 0 ∨
  (s.order.stopMarket ∧ s.stopLimitPrice ≠ 0) ∨
  (s.stopPrevIndex ≠ kInvalidIndex ∧ h.capacity ≤ s.stopPrevIndex) ∨
  (s.stopNextIndex ≠ kInvalidIndex ∧ h.capacity ≤ s.stopNextIndex)

/-- A resting order is linked to a slot that does not exist. -/
def linksOutside : Bool :=
  (s.order.prevIndex ≠ kInvalidIndex ∧ h.capacity ≤ s.order.prevIndex) ∨
  (s.order.nextIndex ≠ kInvalidIndex ∧ h.capacity ≤ s.order.nextIndex)

/-- A resting order is refused. -/
def invalidResting : Bool :=
  s.order.remaining = 0 ∨ h.maxQuantity < s.order.remaining ∨
  s.displayQuantity = 0 ∨ s.displayedRemaining = 0 ∨
  s.displayQuantity < s.displayedRemaining ∨ s.order.remaining < s.displayedRemaining ∨
  h.tickCount ≤ s.order.level ∨ s.order.reservedFlags ≠ 0 ∨
  (4 ≤ h.version ∧ (s.stopTriggerPrice ≠ 0 ∨ s.stopLimitPrice ≠ 0 ∨ s.stopPrevIndex ≠ 0 ∨ s.stopNextIndex ≠ 0)) ∨
  s.linksOutside h

end SlotRecord

namespace OrderBook

variable (book : OrderBook) (index : Nat) (s : SlotRecord)

/-- The metadata of a slot is restored, and its order. -/
def restoreMeta (order : Order) : OrderBook :=
  book.setArena
    { book.arena with
      slots := update book.arena.slots index
        { book.arena.slots index with generation := s.generation, freeNext := s.freeNext, live := s.live = 1, order } }

/-- What `decode` writes into a dead slot. -/
def restoreDead : OrderBook := book.restoreMeta index s ⟨0, 0, 0, 0, 0, 0⟩

/-- The fields of a live slot. -/
def restoreFields : OrderBook :=
  { book.restoreMeta index s s.order with
    traderIds := update book.traderIds index s.traderId
    displayQuantities := update book.displayQuantities index s.displayQuantity
    displayedRemaining := update book.displayedRemaining index s.displayedRemaining
    stopTriggerPrices := update book.stopTriggerPrices index s.stopTriggerPrice
    stopLimitPrices := update book.stopLimitPrices index s.stopLimitPrice
    stopPrevIndices := update book.stopPrevIndices index s.stopPrevIndex
    stopNextIndices := update book.stopNextIndices index s.stopNextIndex }

/-- A restored stop becomes the head or the tail of the dormant stops if its links say so, and is counted. -/
def restoreStop : Except SnapshotError OrderBook :=
  if s.stopPrevIndex = kInvalidIndex ∧ book.stopHead ≠ kInvalidIndex then .error .invalidOrderGraph
  else if s.stopNextIndex = kInvalidIndex ∧ book.stopTail ≠ kInvalidIndex then .error .invalidOrderGraph
  else
    .ok
      { book with
        stopHead := if s.stopPrevIndex = kInvalidIndex then index else book.stopHead
        stopTail := if s.stopNextIndex = kInvalidIndex then index else book.stopTail
        dormantStopCount := book.dormantStopCount + 1 }

/-- A restored order is added to its level, and becomes its head or its tail if its links say so. -/
def restoreResting : Except SnapshotError OrderBook :=
  let side := s.order.side
  let level := s.order.level
  let priceLevel := book.level side level
  if 2 ^ 64 - 1 - s.order.remaining < priceLevel.aggregateQuantity then .error .aggregateOverflow
  else if s.order.prevIndex = kInvalidIndex ∧ priceLevel.headIndex ≠ kInvalidIndex then .error .invalidOrderGraph
  else if s.order.nextIndex = kInvalidIndex ∧ priceLevel.tailIndex ≠ kInvalidIndex then .error .invalidOrderGraph
  else
    .ok
      ((book.setLevel side level
        { headIndex := if s.order.prevIndex = kInvalidIndex then index else priceLevel.headIndex
          tailIndex := if s.order.nextIndex = kInvalidIndex then index else priceLevel.tailIndex
          aggregateQuantity := priceLevel.aggregateQuantity + s.order.remaining
          orderCount := priceLevel.orderCount + 1 }).setOccupancy side ((book.occupancy side).set level))

/-- The checks on a live slot and what is restored from it. -/
def restoreLive (h : SnapshotHeader) : Except SnapshotError OrderBook :=
  let book := book.restoreFields index s
  if s.order.dormant then if s.invalidStop h then .error .invalidOrder else book.restoreStop index s
  else if s.invalidResting h then .error (if s.linksOutside h then .invalidOrderGraph else .invalidOrder)
  else book.restoreResting index s

end OrderBook

/-- One round of the loop over the slots: the live slots observed so far, and the book. -/
def restoreSlot (h : SnapshotHeader) (b : Buffer) (st : Nat × OrderBook) (index : Nat) : Except SnapshotError (Nat × OrderBook) :=
  let offset := h.slotOffset index
  let s := SlotRecord.read h.version b offset
  if 1 < s.live ∨ !b.allZero (offset + 9) 3 then .error .noncanonicalSlot
  else if s.generation = 0 then .error .invalidSlotMetadata
  else if s.live = 0 then
    if !b.allZero (offset + 12) (h.slotSize - 12) then .error .noncanonicalSlot else .ok (st.1, st.2.restoreDead index s)
  else (st.2.restoreLive index s h).map fun book => (st.1 + 1, book)

/-- The loop over the slots, and the count of the live ones. -/
def restoreSlots (h : SnapshotHeader) (b : Buffer) (book : OrderBook) : Except SnapshotError OrderBook := do
  let (observedLive, book) ← (List.range h.capacity).foldlM (restoreSlot h b) (0, book)
  if observedLive ≠ h.liveCount then .error .liveCountMismatch else .ok book

/-- The walk of the free list: the slots seen, the last one first, or `none` for a slot that cannot be on it. -/
def walkFreeList (arena : OrderArena) : Comp (Option (List Nat)) :=
  Comp.loop
    (fun (st : Nat × List Nat) =>
      let (current, seen) := st
      if current = kInvalidIndex then pure (.done (some seen))
      else if arena.capacity ≤ current ∨ (arena.slots current).live ∨ current ∈ seen then pure (.done none)
      else pure (.next ((arena.slots current).freeNext, current :: seen)))
    (arena.freeHead, [])

/-- The free list holds the dead slots, each once. -/
def freeListIntact (arena : OrderArena) (liveCount : Nat) : Comp Bool := do
  let seen ← walkFreeList arena
  return match seen with
    | none => false
    | some seen => seen.length = arena.capacity - liveCount ∧ ∀ index < arena.capacity, (arena.slots index).live ∨ index ∈ seen

/-- `snapshot_invariant_error`. -/
def snapshotInvariantError : InvariantViolation → SnapshotError
  | .aggregateOverflow => .aggregateOverflow
  | .crossedBook => .crossedBook
  | .reachableCountMismatch => .liveCountMismatch
  | .none => .none
  | _ => .invalidOrderGraph

/-- The end of `decode`, with the slots restored: the free list and the invariants of the book are checked. -/
def concludeDecode (h : SnapshotHeader) (engine : SequencedEngine) (book : OrderBook) : Comp (Except SnapshotError DecodedSnapshot) := do
  let intact ← freeListIntact book.arena h.liveCount
  if !intact then return .error .invalidFreeList
  let (result, book) ← book.checkInvariants
  if result.violation ≠ .none then return .error (snapshotInvariantError result.violation)
  return .ok ⟨{ engine with orderBook := book }, h.point⟩

/-- `decode_snapshot`. -/
def decodeSnapshot (bytes : List UInt8) : Comp (Except SnapshotError DecodedSnapshot) :=
  let b := Buffer.ofList bytes
  let h := SnapshotHeader.read b
  match h.fault b bytes.length with
  | some error => pure (.error error)
  | none =>
    match h.engine with
    | none => pure (.error .invalidConfiguration)
    | some engine =>
      match restoreSlots h b engine.orderBook with
      | .error error => pure (.error error)
      | .ok book => concludeDecode h engine book

end MatchingEngine

import MatchingEngine.Lib.Links
import MatchingEngine.Types
import Mathlib.Logic.Function.Basic

/-!
# Orders and the order arena

`order.hpp` and `order_arena.hpp`: order records in a fixed array of slots, a free list threaded through the dead slots, and
generations that tell the occupants of a slot apart. Three fields are history variables that no operation reads: how often a
slot was released, the serial number of its occupant, and how many orders the arena has accepted.
-/

namespace MatchingEngine

open Function

/-! ## Encoded level and side -/

/-- `kOrderLevelMask`. -/
def kOrderLevelMask : Nat := 0x7fffffff

/-- `kOrderSideMask`. -/
def kOrderSideMask : Nat := 0x80000000

/-- `kOrderFlagDormantStop`. -/
def kOrderFlagDormantStop : Nat := 1

/-- `kOrderFlagStopMarket`. -/
def kOrderFlagStopMarket : Nat := 2

/-- `encode_level_side`. -/
def encodeLevelSide (level : Nat) : Side → Nat
  | .buy => level
  | .sell => level ||| kOrderSideMask

/-- `decode_level`. -/
def decodeLevel (encoded : Nat) : Nat := encoded &&& kOrderLevelMask

/-- `decode_side`. -/
def decodeSide (encoded : Nat) : Side := if encoded &&& kOrderSideMask = 0 then .buy else .sell

/-- `next_generation`. -/
def nextGeneration (generation : Nat) : Nat := if generation = 2 ^ 32 - 1 then 1 else generation + 1

/-! ## The arena -/

structure Order where
  id : Nat
  remaining : Nat
  prevIndex : Nat
  nextIndex : Nat
  encodedLevelSide : Nat
  reservedFlags : Nat
  deriving DecidableEq, Repr

namespace Order

/-- `detail::decode_side(order.encoded_level_side)`. -/
def side (o : Order) : Side := decodeSide o.encodedLevelSide

/-- `detail::decode_level(order.encoded_level_side)`. -/
def level (o : Order) : Nat := decodeLevel o.encodedLevelSide

/-- `(order.reserved_flags & kOrderFlagDormantStop) != 0`. -/
def dormant (o : Order) : Bool := o.reservedFlags &&& kOrderFlagDormantStop ≠ 0

/-- `(order.reserved_flags & kOrderFlagStopMarket) != 0`. -/
def stopMarket (o : Order) : Bool := o.reservedFlags &&& kOrderFlagStopMarket ≠ 0

end Order

/-- The order a slot is constructed with. -/
def emptyOrder : Order := ⟨0, 0, kInvalidIndex, kInvalidIndex, 0, 0⟩

/-- `OrderArena::Slot`; `releases` and `serial` are history variables. -/
structure Slot where
  order : Order
  generation : Nat
  freeNext : Nat
  live : Bool
  releases : Nat
  serial : Nat
  deriving DecidableEq, Repr

/-- `OrderArena`; `accepted` is a history variable. -/
structure OrderArena where
  capacity : Nat
  slots : Nat → Slot
  size : Nat
  freeHead : Nat
  accepted : Nat

namespace OrderArena

/-- The constructor: every slot dead, chained in order of index. -/
def create (capacity : Nat) : OrderArena where
  capacity
  slots index :=
    { order := emptyOrder
      generation := 1
      freeNext := if index = capacity - 1 then kInvalidIndex else index + 1
      live := false
      releases := 0
      serial := 0 }
  size := 0
  freeHead := if capacity = 0 then kInvalidIndex else 0
  accepted := 0

variable (a : OrderArena)

/-- `order_at`. -/
def orderAt (index : Nat) : Order := (a.slots index).order

/-- A write through the reference `order_at` returns. -/
def setOrder (index : Nat) (order : Order) : OrderArena :=
  { a with slots := update a.slots index { a.slots index with order } }

/-- `order_at(index).next_index = value`. -/
def setNext (index value : Nat) : OrderArena := a.setOrder index { a.orderAt index with nextIndex := value }

/-- `order_at(index).prev_index = value`. -/
def setPrev (index value : Nat) : OrderArena := a.setOrder index { a.orderAt index with prevIndex := value }

/-- The neighbours of an order between `previous` and `next` are linked past it. -/
def linkPast (previous next : Nat) : OrderArena :=
  let a' := if previous = kInvalidIndex then a else a.setNext previous next
  if next = kInvalidIndex then a' else a'.setPrev next previous

/-- The order `index` between `previous` and `next` is linked behind `tail`. -/
def moveToTail (previous next tail index : Nat) : OrderArena :=
  let a' := if previous = kInvalidIndex then a else a.setNext previous next
  (((a'.setPrev next previous).setNext tail index).setPrev index tail).setNext index kInvalidIndex

/-- `handle_at`. -/
def handleAt (index : Nat) : Handle := ⟨index, (a.slots index).generation⟩

/-- `is_live_handle`. -/
def isLiveHandle (handle : Handle) : Bool :=
  handle.generation ≠ 0 && decide (handle.index < a.capacity) && (a.slots handle.index).live &&
    decide ((a.slots handle.index).generation = handle.generation)

/-- `is_live_index`. -/
def isLiveIndex (index : Nat) : Bool := decide (index < a.capacity) && (a.slots index).live

/-- The free list: the slots from the head on, along `free_next`. -/
def freeSlots : List Nat := Links.walk kInvalidIndex (fun index => (a.slots index).freeNext) a.capacity a.freeHead

/-- The live slots, by index. -/
def liveSlots : List Nat := (List.range a.capacity).filter fun index => (a.slots index).live

/-- `resolve`: `none` for a null pointer. -/
def resolve (handle : Handle) : Option Order := if a.isLiveHandle handle then some (a.orderAt handle.index) else none

/-- `acquire`: the head of the free list becomes live. -/
def acquire (order : Order) : Handle × OrderArena :=
  if a.freeHead = kInvalidIndex then (kInvalidHandle, a)
  else
    let index := a.freeHead
    (a.handleAt index,
      { a with
        freeHead := (a.slots index).freeNext
        slots := update a.slots index { a.slots index with order, live := true, serial := a.accepted }
        size := a.size + 1
        accepted := a.accepted + 1 })

/-- `release`: the slot goes to the head of the free list under its next generation. -/
def release (handle : Handle) : OrderArena :=
  if a.isLiveHandle handle then
    let slot := a.slots handle.index
    { a with
      slots := update a.slots handle.index
        { slot with
          live := false
          generation := nextGeneration slot.generation
          freeNext := a.freeHead
          releases := slot.releases + 1 }
      freeHead := handle.index
      size := a.size - 1 }
  else a

end OrderArena

end MatchingEngine

import MatchingEngine.Lemmas.Bitmap
import MatchingEngine.Lemmas.Ladder
import MatchingEngine.Lib.Links
import Mathlib.Data.Nat.Bitwise

/-!
# When a book represents a ladder

`Rep gh cfg b L`: the arena's slots are where the ladder says, the links of each level spell its queue, the cached counts and sums are
those of the queue, the bitmaps are the occupied levels, and the stop links spell the dormant stops. With `gh` the history variables
agree too; a book rebuilt from a snapshot represents its ladder without them.
-/

namespace MatchingEngine

open Function

/-! ## Views of the arena -/

/-- A slot without its order. -/
def Slot.shell (s : Slot) : Slot := { s with order := emptyOrder }

namespace OrderArena

/-- The forward links. -/
def next (a : OrderArena) (s : Nat) : Nat := (a.orderAt s).nextIndex

/-- The backward links. -/
def prev (a : OrderArena) (s : Nat) : Nat := (a.orderAt s).prevIndex

/-- A slot with its links blanked out. -/
def data (a : OrderArena) (s : Nat) : Slot :=
  { a.slots s with order := { a.orderAt s with prevIndex := 0, nextIndex := 0 } }

/-- An order that is written is read back, and the other slots keep theirs. -/
@[simp] theorem orderAt_setOrder (a : OrderArena) (s : Nat) (o : Order) (t : Nat) :
    (a.setOrder s o).orderAt t = if t = s then o else a.orderAt t := by
  simp only [orderAt, setOrder, update_apply]
  split <;> rfl

/-- Writing an order keeps the capacity. -/
@[simp] theorem setOrder_capacity (a : OrderArena) (s : Nat) (o : Order) : (a.setOrder s o).capacity = a.capacity := rfl

/-- It keeps the size. -/
@[simp] theorem setOrder_size (a : OrderArena) (s : Nat) (o : Order) : (a.setOrder s o).size = a.size := rfl

/-- It keeps the head of the free list. -/
@[simp] theorem setOrder_freeHead (a : OrderArena) (s : Nat) (o : Order) : (a.setOrder s o).freeHead = a.freeHead := rfl

/-- It keeps the count of the orders accepted. -/
@[simp] theorem setOrder_accepted (a : OrderArena) (s : Nat) (o : Order) : (a.setOrder s o).accepted = a.accepted := rfl

/-- Writing back the order of a slot changes nothing. -/
theorem setOrder_self (a : OrderArena) (s : Nat) : a.setOrder s (a.orderAt s) = a := by
  simp [setOrder, orderAt]

/-- The successors after an order is written. -/
theorem next_setOrder (a : OrderArena) (s : Nat) (o : Order) : (a.setOrder s o).next = update a.next s o.nextIndex := by
  funext t
  simp only [next, orderAt_setOrder, update_apply]
  split <;> rfl

/-- The predecessors after an order is written. -/
theorem prev_setOrder (a : OrderArena) (s : Nat) (o : Order) : (a.setOrder s o).prev = update a.prev s o.prevIndex := by
  funext t
  simp only [prev, orderAt_setOrder, update_apply]
  split <;> rfl

/-- `setNext` sets one successor. -/
@[simp] theorem next_setNext (a : OrderArena) (s x : Nat) : (a.setNext s x).next = update a.next s x := next_setOrder a s _

/-- It leaves the predecessors. -/
@[simp] theorem prev_setNext (a : OrderArena) (s x : Nat) : (a.setNext s x).prev = a.prev := by
  rw [setNext, prev_setOrder]
  exact update_eq_self s a.prev

/-- `setPrev` leaves the successors. -/
@[simp] theorem next_setPrev (a : OrderArena) (s x : Nat) : (a.setPrev s x).next = a.next := by
  rw [setPrev, next_setOrder]
  exact update_eq_self s a.next

/-- It sets one predecessor. -/
@[simp] theorem prev_setPrev (a : OrderArena) (s x : Nat) : (a.setPrev s x).prev = update a.prev s x := prev_setOrder a s _

/-- Of the data of the slots, the links apart, writing an order changes that of its slot. -/
theorem data_setOrder (a : OrderArena) (s : Nat) (o : Order) (t : Nat) :
    (a.setOrder s o).data t = if t = s then { a.data t with order := { o with prevIndex := 0, nextIndex := 0 } } else a.data t := by
  by_cases h : t = s
  · subst h
    simp [data, setOrder, orderAt]
  · simp [data, setOrder, orderAt, h]

/-- Relinking a slot does not touch its data. -/
theorem data_relink (a : OrderArena) (s x y : Nat) (t : Nat) :
    (a.setOrder s { a.orderAt s with prevIndex := x, nextIndex := y }).data t = a.data t := by
  rw [data_setOrder]
  split
  · rename_i h
    subst h
    rfl
  · rfl

/-- A successor is no part of the data. -/
@[simp] theorem data_setNext (a : OrderArena) (s x t : Nat) : (a.setNext s x).data t = a.data t :=
  data_relink a s (a.orderAt s).prevIndex x t

/-- Nor is a predecessor. -/
@[simp] theorem data_setPrev (a : OrderArena) (s x t : Nat) : (a.setPrev s x).data t = a.data t :=
  data_relink a s x (a.orderAt s).nextIndex t

/-- Two arenas that differ in links only. -/
structure SameButLinks (a a' : OrderArena) : Prop where
  capacity : a'.capacity = a.capacity
  size : a'.size = a.size
  freeHead : a'.freeHead = a.freeHead
  accepted : a'.accepted = a.accepted
  data : ∀ t, a'.data t = a.data t

/-- An arena is the same as itself. -/
theorem SameButLinks.refl (a : OrderArena) : SameButLinks a a := ⟨rfl, rfl, rfl, rfl, fun _ => rfl⟩

/-- Two changes of links are one. -/
theorem SameButLinks.trans {a a' a'' : OrderArena} (h : SameButLinks a a') (h' : SameButLinks a' a'') : SameButLinks a a'' :=
  ⟨h'.1.trans h.1, h'.2.trans h.2, h'.3.trans h.3, h'.4.trans h.4, fun t => (h'.5 t).trans (h.5 t)⟩

/-- `setNext` changes links only. -/
theorem sameButLinks_setNext (a : OrderArena) (s x : Nat) : SameButLinks a (a.setNext s x) :=
  ⟨rfl, rfl, rfl, rfl, data_setNext a s x⟩

/-- So does `setPrev`. -/
theorem sameButLinks_setPrev (a : OrderArena) (s x : Nat) : SameButLinks a (a.setPrev s x) :=
  ⟨rfl, rfl, rfl, rfl, data_setPrev a s x⟩

/-- So does the unlinking of an element. -/
theorem sameButLinks_linkPast (a : OrderArena) (previous next : Nat) : SameButLinks a (a.linkPast previous next) := by
  have h1 : SameButLinks a (if previous = kInvalidIndex then a else a.setNext previous next) := by
    split
    · exact SameButLinks.refl a
    · exact sameButLinks_setNext a _ _
  unfold linkPast
  dsimp only
  split
  · exact h1
  · exact h1.trans (sameButLinks_setPrev _ _ _)

/-- So does the move of an element to the tail. -/
theorem sameButLinks_moveToTail (a : OrderArena) (previous next tail index : Nat) :
    SameButLinks a (a.moveToTail previous next tail index) := by
  have h1 : SameButLinks a (if previous = kInvalidIndex then a else a.setNext previous next) := by
    split
    · exact SameButLinks.refl a
    · exact sameButLinks_setNext a _ _
  exact (((h1.trans (sameButLinks_setPrev _ _ _)).trans (sameButLinks_setNext _ _ _)).trans (sameButLinks_setPrev _ _ _)).trans
    (sameButLinks_setNext _ _ _)

/-- What `release` does to a live slot. -/
theorem release_of_live {a : OrderArena} {s : Nat} (hs : s < a.capacity) (hl : (a.slots s).live = true)
    (hg : (a.slots s).generation ≠ 0) :
    a.release (a.handleAt s) =
      { a with
        slots := update a.slots s
          { a.slots s with
            live := false
            generation := nextGeneration (a.slots s).generation
            freeNext := a.freeHead
            releases := (a.slots s).releases + 1 }
        freeHead := s
        size := a.size - 1 } := by
  have : a.isLiveHandle (a.handleAt s) = true := by simp [isLiveHandle, handleAt, hs, hl, hg]
  rw [release, if_pos this]
  rfl

/-- A release keeps the capacity. -/
@[simp] theorem release_capacity (a : OrderArena) (h : Handle) : (a.release h).capacity = a.capacity := by
  unfold release
  split <;> rfl

/-- It keeps the count of the orders accepted. -/
@[simp] theorem release_accepted (a : OrderArena) (h : Handle) : (a.release h).accepted = a.accepted := by
  unfold release
  split <;> rfl

/-- It keeps the orders of all slots, that of its own included. -/
@[simp] theorem orderAt_release (a : OrderArena) (h : Handle) (t : Nat) : (a.release h).orderAt t = a.orderAt t := by
  unfold release
  split
  · simp only [orderAt, update_apply]
    split
    · rename_i he
      rw [he]
    · rfl
  · rfl

/-- It keeps the successors. -/
@[simp] theorem next_release (a : OrderArena) (h : Handle) : (a.release h).next = a.next := by
  funext t
  simp [next]

/-- It keeps the predecessors. -/
@[simp] theorem prev_release (a : OrderArena) (h : Handle) : (a.release h).prev = a.prev := by
  funext t
  simp [prev]

/-- It keeps the data of the other slots. -/
theorem data_release_of_ne (a : OrderArena) {h : Handle} {t : Nat} (ht : t ≠ h.index) : (a.release h).data t = a.data t := by
  unfold release
  split
  · simp [data, orderAt, ht]
  · rfl

end OrderArena

/-! ## Encodings -/

namespace ReprAux

/-- The bit of the sell side adds `2 ^ 31` to a level. -/
theorem encode_sell {i : Nat} (hi : i < 2 ^ 31) : i ||| 0x80000000 = i + 2 ^ 31 := by
  have := Nat.two_pow_add_eq_or_of_lt hi 1
  rw [Nat.mul_one] at this
  rw [Nat.or_comm, show 0x80000000 = 2 ^ 31 from rfl, ← this, Nat.add_comm]

/-- The mask of the level takes the rest modulo `2 ^ 31`. -/
theorem and_levelMask (x : Nat) : x &&& 0x7fffffff = x % 2 ^ 31 := Nat.and_two_pow_sub_one_eq_mod x 31

/-- The level is decoded. -/
theorem decodeLevel_encode {i : Nat} (hi : i < 2 ^ 31) (side : Side) : decodeLevel (encodeLevelSide i side) = i := by
  cases side with
  | buy => rw [decodeLevel, kOrderLevelMask, and_levelMask, encodeLevelSide, Nat.mod_eq_of_lt hi]
  | sell => rw [decodeLevel, kOrderLevelMask, and_levelMask, encodeLevelSide, kOrderSideMask, encode_sell hi]; omega

/-- The side is decoded. -/
theorem decodeSide_encode {i : Nat} (hi : i < 2 ^ 31) (side : Side) : decodeSide (encodeLevelSide i side) = side := by
  cases side with
  | buy =>
    have : i &&& 0x80000000 = 0 := by
      rw [show 0x80000000 = 2 ^ 31 from rfl, Nat.and_two_pow, Nat.testBit_lt_two_pow hi]
      rfl
    rw [decodeSide, encodeLevelSide, kOrderSideMask, if_pos this]
  | sell =>
    have : (i + 2 ^ 31) &&& 0x80000000 ≠ 0 := by
      rw [show 0x80000000 = 2 ^ 31 from rfl, Nat.and_two_pow, Nat.add_comm, Nat.testBit_two_pow_add_eq, Nat.testBit_lt_two_pow hi]
      decide
    rw [decodeSide, encodeLevelSide, kOrderSideMask, encode_sell hi, if_neg this]

end ReprAux

open ReprAux

/-! ## The relation -/

/-- The links of one level of a book. -/
abbrev OrderBook.links (b : OrderBook) (side : Side) (i : Nat) : Links :=
  ⟨b.arena.next, b.arena.prev, (b.levels side i).headIndex, (b.levels side i).tailIndex⟩

/-- The links of the dormant stops. -/
abbrev OrderBook.stopLinks (b : OrderBook) : Links := ⟨b.stopNextIndices, b.stopPrevIndices, b.stopHead, b.stopTail⟩

/-- The book holds an entry in its slot. -/
structure EntryAt (gh : Prop) (b : OrderBook) (side : Side) (i : Nat) (e : Entry) : Prop where
  id : (b.arena.orderAt e.slot).id = e.id
  remaining : (b.arena.orderAt e.slot).remaining = e.remaining
  encoded : (b.arena.orderAt e.slot).encodedLevelSide = encodeLevelSide i side
  flags : (b.arena.orderAt e.slot).reservedFlags = 0
  trader : b.traderIds e.slot = e.trader
  display : b.displayQuantities e.slot = e.display
  displayed : b.displayedRemaining e.slot = e.displayed
  noTrigger : b.stopTriggerPrices e.slot = 0
  noLimit : b.stopLimitPrices e.slot = 0
  noPrev : b.stopPrevIndices e.slot = 0
  noNext : b.stopNextIndices e.slot = 0
  serial : gh → (b.arena.slots e.slot).serial = e.serial

/-- The flags of a dormant stop. -/
def Dormant.flags (d : Dormant) : Nat := kOrderFlagDormantStop ||| (if d.limit.isSome then 0 else kOrderFlagStopMarket)

/-- The book holds a dormant stop in its slot. -/
structure DormantAt (gh : Prop) (b : OrderBook) (d : Dormant) : Prop where
  id : (b.arena.orderAt d.slot).id = d.id
  remaining : (b.arena.orderAt d.slot).remaining = d.remaining
  encoded : (b.arena.orderAt d.slot).encodedLevelSide = encodeLevelSide 0 d.side
  flags : (b.arena.orderAt d.slot).reservedFlags = d.flags
  trader : b.traderIds d.slot = 0
  display : b.displayQuantities d.slot = 0
  displayed : b.displayedRemaining d.slot = 0
  trigger : b.stopTriggerPrices d.slot = d.trigger
  limit : b.stopLimitPrices d.slot = d.limit.getD 0
  noPrev : (b.arena.orderAt d.slot).prevIndex = kInvalidIndex
  noNext : (b.arena.orderAt d.slot).nextIndex = kInvalidIndex
  serial : gh → (b.arena.slots d.slot).serial = d.serial

/-- The arena keeps its slots as the ladder says. -/
structure ArenaRepr (gh : Prop) (cfg : BookConfig) (a : OrderArena) (L : Ladder) : Prop where
  capacity : a.capacity = cfg.maxOrders
  live : ∀ s, s < cfg.maxOrders → ((a.slots s).live = true ↔ L.place s ≠ .free)
  generation : ∀ s, s < cfg.maxOrders → (a.slots s).generation = generationOf (L.releases s)
  freeNext : ∀ s, s < cfg.maxOrders → (a.slots s).freeNext = L.freeNext s
  freeHead : a.freeHead = L.free.head?.getD kInvalidIndex
  size : a.size + L.free.length = cfg.maxOrders
  accepted : gh → a.accepted = L.accepted
  releases : gh → ∀ s, s < cfg.maxOrders → (a.slots s).releases = L.releases s

/-- The levels are the queues. -/
structure QueuesRepr (cfg : BookConfig) (b : OrderBook) (L : Ladder) : Prop where
  links : ∀ side i, Links.Holds kInvalidIndex (b.links side i) ((L.queue side i).map Entry.slot)
  count : ∀ side i, (b.levels side i).orderCount = (L.queue side i).length
  aggregate : ∀ side i, (b.levels side i).aggregateQuantity = L.levelQuantity side i
  occupancy : ∀ side, (b.occupancy side).Holds cfg.domain.tickCount fun i => L.queue side i ≠ []

/-- A book represents a ladder. -/
structure Rep (gh : Prop) (cfg : BookConfig) (b : OrderBook) (L : Ladder) : Prop where
  wf : L.Wf cfg
  cfg_eq : b.cfg = cfg
  arena : ArenaRepr gh cfg b.arena L
  queues : QueuesRepr cfg b L
  entries : ∀ side i e, e ∈ L.queue side i → EntryAt gh b side i e
  stops : Links.Holds kInvalidIndex b.stopLinks (L.stops.map Dormant.slot)
  stopCount : b.dormantStopCount = L.stops.length
  dormants : ∀ d ∈ L.stops, DormantAt gh b d
  heldSerial : gh → ∀ d, L.held = some d → (b.arena.slots d.slot).serial = d.serial
  lastPrice : b.lastExecutionPrice = L.lastPrice
  tradingState : b.tradingState = L.tradingState
  activations : b.stopActivations = L.activations
  epochs : ∀ s, s < cfg.maxOrders → b.tradeReportEpochs s ≤ b.tradeReportEpoch
  marks : ∀ s, s < cfg.maxOrders → b.visitMarks s ≤ b.visitEpoch

/-! ## Frames -/

/-- Two books agree on the data of a slot, its links apart. -/
structure SameSlot (b b' : OrderBook) (s : Nat) : Prop where
  data : b'.arena.data s = b.arena.data s
  trader : b'.traderIds s = b.traderIds s
  display : b'.displayQuantities s = b.displayQuantities s
  displayed : b'.displayedRemaining s = b.displayedRemaining s
  trigger : b'.stopTriggerPrices s = b.stopTriggerPrices s
  limit : b'.stopLimitPrices s = b.stopLimitPrices s

section Frames

variable {gh : Prop} {cfg : BookConfig} {b b' : OrderBook} {L L' : Ladder}

/-- An entry is still at its slot in a book that agrees on it. -/
theorem EntryAt.congr {side : Side} {i : Nat} {e : Entry} (h : EntryAt gh b side i e) (hs : SameSlot b b' e.slot)
    (hp : b'.stopPrevIndices e.slot = b.stopPrevIndices e.slot) (hn : b'.stopNextIndices e.slot = b.stopNextIndices e.slot) :
    EntryAt gh b' side i e where
  id := (congrArg (fun d => d.order.id) hs.data).trans h.id
  remaining := (congrArg (fun d => d.order.remaining) hs.data).trans h.remaining
  encoded := (congrArg (fun d => d.order.encodedLevelSide) hs.data).trans h.encoded
  flags := (congrArg (fun d => d.order.reservedFlags) hs.data).trans h.flags
  trader := hs.trader.trans h.trader
  display := hs.display.trans h.display
  displayed := hs.displayed.trans h.displayed
  noTrigger := hs.trigger.trans h.noTrigger
  noLimit := hs.limit.trans h.noLimit
  noPrev := hp.trans h.noPrev
  noNext := hn.trans h.noNext
  serial hg := (congrArg (fun d => d.serial) hs.data).trans (h.serial hg)

/-- So is a stop. -/
theorem DormantAt.congr {d : Dormant} (h : DormantAt gh b d) (hs : SameSlot b b' d.slot)
    (hp : b'.arena.prev d.slot = b.arena.prev d.slot) (hn : b'.arena.next d.slot = b.arena.next d.slot) :
    DormantAt gh b' d where
  id := (congrArg (fun d => d.order.id) hs.data).trans h.id
  remaining := (congrArg (fun d => d.order.remaining) hs.data).trans h.remaining
  encoded := (congrArg (fun d => d.order.encodedLevelSide) hs.data).trans h.encoded
  flags := (congrArg (fun d => d.order.reservedFlags) hs.data).trans h.flags
  trader := hs.trader.trans h.trader
  display := hs.display.trans h.display
  displayed := hs.displayed.trans h.displayed
  trigger := hs.trigger.trans h.trigger
  limit := hs.limit.trans h.limit
  noPrev := hp.trans h.noPrev
  noNext := hn.trans h.noNext
  serial hg := (congrArg (fun d => d.serial) hs.data).trans (h.serial hg)

/-- An arena with the same slots but for orders represents the same places. -/
theorem ArenaRepr.of_data {a a' : OrderArena} (h : ArenaRepr gh cfg a L) (hcap : a'.capacity = a.capacity)
    (hd : ∀ s, (a'.slots s).shell = (a.slots s).shell) (hf : a'.freeHead = a.freeHead)
    (hsz : a'.size = a.size) (hac : a'.accepted = a.accepted) (hp : ∀ s, L'.place s = .free ↔ L.place s = .free)
    (hr : L'.releases = L.releases) (hn : L'.freeNext = L.freeNext) (hfr : L'.free = L.free) (hla : L'.accepted = L.accepted) : ArenaRepr gh cfg a' L' where
  capacity := hcap.trans h.capacity
  live s hs := by
    have e := congrArg Slot.live (hd s)
    rw [Ne, hp, ← Ne, ← h.live s hs, show (a'.slots s).live = (a.slots s).live from e]
  generation s hs := by
    rw [hr, ← h.generation s hs]
    have e := congrArg Slot.generation (hd s)
    exact e
  freeNext s hs := by
    rw [hn, ← h.freeNext s hs]
    have e := congrArg Slot.freeNext (hd s)
    exact e
  freeHead := by rw [hf, hfr, h.freeHead]
  size := by rw [hsz, hfr, h.size]
  accepted hg := by rw [hac, hla, h.accepted hg]
  releases hg s hs := by
    rw [hr, ← h.releases hg s hs]
    have e := congrArg Slot.releases (hd s)
    exact e

end Frames

end MatchingEngine

import MatchingEngine.Lemmas.Decide
import MatchingEngine.Snapshot

/-!
# What a snapshot says

The fields that `encode` writes are apart, so each is read back: the header and the slots that `decode` reads from an encoded engine are
those of the engine. And what `decode` has accepted it has read, field by field, into the engine it returns.
-/

namespace MatchingEngine

open Buffer Function

/-! ## The fields of an encoded engine -/

/-- The fields of `encode`, but for the checksum. -/
def snapshotFields (engine : SequencedEngine) (point : SnapshotPoint) (size : Nat) : List Field :=
  snapshotHeaderFields engine point size ++ (List.range engine.orderBook.arena.capacity).flatMap (snapshotSlotFields engine.orderBook)

/-- Where the fields of the header are, and how wide they are. -/
def headerPlaces : List (Nat × Nat) :=
  [(0, 1), (1, 1), (2, 1), (3, 1), (4, 1), (5, 1), (6, 1), (7, 1), (8, 4), (12, 4), (16, 4), (20, 4), (24, 8), (32, 8), (40, 4), (44, 4),
    (48, 4), (52, 4), (56, 4), (60, 4), (64, 8), (72, 8), (80, 8), (88, 8), (100, 8), (108, 4), (112, 4), (116, 4), (120, 4)]

/-- Where the fields of a slot are, from its beginning on, and how wide they are. -/
def slotPlaces (live : Bool) : List (Nat × Nat) :=
  [(0, 4), (4, 4), (8, 1)] ++
  if live then
    [(12, 8), (20, 8), (28, 4), (32, 4), (36, 4), (40, 4), (48, 8), (56, 8), (64, 8), (72, 8), (80, 8), (88, 4), (92, 4)]
  else []

section Layout

variable {engine : SequencedEngine} {point : SnapshotPoint} {size index : Nat} {book : OrderBook} {f g : Field}

/-- The bytes before the checksum are the fields on zeros. -/
theorem snapshotContent_eq : snapshotContent engine point size = Buffer.zeros.writeFields (snapshotFields engine point size) := by
  rw [snapshotContent, foldl_writeFields, snapshotFields, writeFields_append]

/-- The places of the header fields. -/
theorem snapshotHeaderFields_places : (snapshotHeaderFields engine point size).map (fun f => (f.offset, f.width)) = headerPlaces := rfl

/-- The places of the fields of a slot. -/
theorem snapshotSlotFields_places : (snapshotSlotFields book index).map (fun f => (f.offset, f.width)) =
    (slotPlaces (book.arena.slots index).live).map fun p => (snapshotSlotOffset index + p.1, p.2) := by
  unfold snapshotSlotFields slotPlaces
  dsimp only
  split
  · rfl
  · rfl

/-- A field of the header ends before the first slot, and is not the checksum. -/
theorem headerField_place (hf : f ∈ snapshotHeaderFields engine point size) :
    f.offset + f.width ≤ kSnapshotHeaderSize ∧ (f.offset + f.width ≤ kChecksumOffset ∨ kChecksumOffset + 4 ≤ f.offset) := by
  have hmem := List.mem_map_of_mem (f := fun f : Field => (f.offset, f.width)) hf
  rw [snapshotHeaderFields_places] at hmem
  have hall : ∀ p ∈ headerPlaces, p.1 + p.2 ≤ kSnapshotHeaderSize ∧ (p.1 + p.2 ≤ kChecksumOffset ∨ kChecksumOffset + 4 ≤ p.1) := by decide
  exact hall _ hmem

/-- A field of a slot stands at its place in the slot. -/
theorem slotField_place_mem (hf : f ∈ snapshotSlotFields book index) :
    ∃ p ∈ slotPlaces (book.arena.slots index).live, f.offset = snapshotSlotOffset index + p.1 ∧ f.width = p.2 := by
  have hmem := List.mem_map_of_mem (f := fun f : Field => (f.offset, f.width)) hf
  rw [snapshotSlotFields_places] at hmem
  obtain ⟨p, hp, he⟩ := List.mem_map.mp hmem
  rw [Prod.mk.injEq] at he
  exact ⟨p, hp, he.1.symm, he.2.symm⟩

/-- A field of a slot is inside the slot. -/
theorem slotField_place (hf : f ∈ snapshotSlotFields book index) :
    snapshotSlotOffset index ≤ f.offset ∧ f.offset + f.width ≤ snapshotSlotOffset index + kSnapshotSlotSize := by
  obtain ⟨p, hp, hoffset, hwidth⟩ := slotField_place_mem hf
  have hall : ∀ live, ∀ p ∈ slotPlaces live, p.1 + p.2 ≤ kSnapshotSlotSize := by decide
  have := hall _ p hp
  omega

/-- The fields of the header do not overlap. -/
theorem snapshotHeaderFields_apart : (snapshotHeaderFields engine point size).Pairwise Field.Apart := by
  refine apart_of_ordered ?_
  rw [snapshotHeaderFields_places]
  decide

/-- The fields of a slot do not overlap. -/
theorem snapshotSlotFields_apart : (snapshotSlotFields book index).Pairwise Field.Apart := by
  refine apart_of_ordered ?_
  rw [snapshotSlotFields_places, List.pairwise_map]
  have hall : ∀ live, (slotPlaces live).Pairwise fun p q => p.1 + p.2 ≤ q.1 := by decide
  exact (hall _).imp fun h => by omega

/-- A slot ends before the next one begins. -/
theorem snapshotSlotOffset_le {j : Nat} (h : index < j) : snapshotSlotOffset index + kSnapshotSlotSize ≤ snapshotSlotOffset j := by
  have := Nat.mul_le_mul_right kSnapshotSlotSize h
  unfold snapshotSlotOffset
  rw [Nat.succ_mul] at this
  omega

/-- The fields of an encoded engine are apart. -/
theorem snapshotFields_apart : (snapshotFields engine point size).Pairwise Field.Apart := by
  refine List.pairwise_append.mpr ⟨snapshotHeaderFields_apart, List.pairwise_flatMap.mpr ⟨fun i _ => snapshotSlotFields_apart, ?_⟩, ?_⟩
  · refine List.pairwise_lt_range.imp fun {i j} hij f hf g hg => .inl ?_
    have h1 := slotField_place hf
    have h2 := slotField_place hg
    have h3 := snapshotSlotOffset_le hij
    omega
  · intro f hf g hg
    obtain ⟨i, -, hg⟩ := List.mem_flatMap.mp hg
    have h1 := headerField_place hf
    have h2 := slotField_place hg
    refine .inl ?_
    unfold snapshotSlotOffset at h2
    omega

end Layout

/-! ## Read back -/

/-- A signed word is read back. -/
theorem toSigned64_toUnsigned64 {value : Int} (hl : -2 ^ 63 ≤ value) (hu : value < 2 ^ 63) : toSigned64 (toUnsigned64 value) = value := by
  unfold toSigned64 toUnsigned64
  omega

theorem toUnsigned64_lt (value : Int) : toUnsigned64 value < 256 ^ 8 := by
  unfold toUnsigned64
  omega

/-- An unsigned word is read back. -/
theorem toUnsigned64_toSigned64 {value : Nat} (h : value < 2 ^ 64) : toUnsigned64 (toSigned64 value) = value := by
  unfold toSigned64 toUnsigned64
  omega

/-- Eight bytes are a signed 64-bit number. -/
theorem toSigned64_range {value : Nat} (h : value < 2 ^ 64) : -2 ^ 63 ≤ toSigned64 value ∧ toSigned64 value < 2 ^ 63 := by
  unfold toSigned64
  omega

/-- A price that a signed word can hold. -/
def Fits64 (value : Int) : Prop := -2 ^ 63 ≤ value ∧ value < 2 ^ 63

/-- What stands in a live slot fits its fields. -/
structure OrderBook.SlotFits (book : OrderBook) (index : Nat) : Prop where
  id : (book.arena.orderAt index).id < 2 ^ 64
  remaining : (book.arena.orderAt index).remaining < 2 ^ 64
  prevIndex : (book.arena.orderAt index).prevIndex < 2 ^ 32
  nextIndex : (book.arena.orderAt index).nextIndex < 2 ^ 32
  encodedLevelSide : (book.arena.orderAt index).encodedLevelSide < 2 ^ 32
  reservedFlags : (book.arena.orderAt index).reservedFlags < 2 ^ 32
  traderId : book.traderIds index < 2 ^ 64
  displayQuantity : book.displayQuantities index < 2 ^ 64
  displayedRemaining : book.displayedRemaining index < 2 ^ 64
  stopTriggerPrice : Fits64 (book.stopTriggerPrices index)
  stopLimitPrice : Fits64 (book.stopLimitPrices index)
  stopPrevIndex : book.stopPrevIndices index < 2 ^ 32
  stopNextIndex : book.stopNextIndices index < 2 ^ 32

/-- What `encode` writes fits its fields. -/
structure OrderBook.Fits (book : OrderBook) : Prop where
  capacity : book.arena.capacity ≤ kMaximumSnapshotSlots
  size : book.arena.size < 2 ^ 32
  freeHead : book.arena.freeHead < 2 ^ 32
  lastPrice : ∀ price, book.lastExecutionPrice = some price → Fits64 price
  generation : ∀ index < book.arena.capacity, (book.arena.slots index).generation < 2 ^ 32
  freeNext : ∀ index < book.arena.capacity, (book.arena.slots index).freeNext < 2 ^ 32
  live : ∀ index < book.arena.capacity, (book.arena.slots index).live = true → book.SlotFits index

/-- The header of an engine at a point. -/
def SequencedEngine.header (engine : SequencedEngine) (point : SnapshotPoint) : SnapshotHeader where
  version := kSnapshotFormatVersion
  selfTradePolicy := engine.orderBook.cfg.selfTradePolicy.raw
  allocationMode := engine.orderBook.cfg.allocationMode.raw
  proRataMinimum := engine.orderBook.cfg.proRataMinimum
  tradingState := engine.orderBook.tradingState.raw
  minimum := engine.orderBook.cfg.domain.minimum
  tickCount := engine.orderBook.cfg.domain.tickCount
  maxQuantity := engine.orderBook.cfg.maxOrderQuantity
  capacity := engine.orderBook.arena.capacity
  liveCount := engine.orderBook.arena.size
  freeHead := engine.orderBook.arena.freeHead
  exhausted := if engine.sequenceExhausted then 1 else 0
  nextSequence := engine.nextSequence
  lastTime := engine.lastLogicalTime
  point
  lastExecutionPrice := engine.orderBook.lastExecutionPrice

/-- The record of a slot of a book. -/
def OrderBook.slotRecord (book : OrderBook) (index : Nat) : SlotRecord :=
  let slot := book.arena.slots index
  if slot.live then
    { generation := slot.generation
      freeNext := slot.freeNext
      live := 1
      order := slot.order
      traderId := book.traderIds index
      displayQuantity := book.displayQuantities index
      displayedRemaining := book.displayedRemaining index
      stopTriggerPrice := book.stopTriggerPrices index
      stopLimitPrice := book.stopLimitPrices index
      stopPrevIndex := book.stopPrevIndices index
      stopNextIndex := book.stopNextIndices index }
  else ⟨slot.generation, slot.freeNext, 0, ⟨0, 0, 0, 0, 0, 0⟩, 0, 0, 0, 0, 0, 0, 0⟩

section ReadBack

variable {engine : SequencedEngine} {point : SnapshotPoint} {index : Nat}

/-- What is written without the checksum is read from the encoded bytes. -/
theorem snapshotBytes_at {i : Nat} (hi : i < snapshotSize engine.orderBook.arena.capacity) (hsum : i < kChecksumOffset ∨ kChecksumOffset + 4 ≤ i) :
    ofList (snapshotBytes engine point) i = snapshotContent engine point (snapshotSize engine.orderBook.arena.capacity) i := by
  unfold snapshotBytes
  dsimp only
  rw [ofList_slice hi, writeU32_of_not_mem hsum]

theorem snapshotBytes_length : (snapshotBytes engine point).length = snapshotSize engine.orderBook.arena.capacity := slice_length _ _ _

/-- Each field is read back. -/
theorem snapshotBytes_readLE {f : Field} (hf : f ∈ snapshotFields engine point (snapshotSize engine.orderBook.arena.capacity))
    (hfits : f.value < 256 ^ f.width) : (ofList (snapshotBytes engine point)).readLE f.offset f.width = f.value := by
  have hplace : f.offset + f.width ≤ snapshotSize engine.orderBook.arena.capacity ∧
      (f.offset + f.width ≤ kChecksumOffset ∨ kChecksumOffset + 4 ≤ f.offset) := by
    rcases List.mem_append.mp hf with hf | hf
    · have h1 := headerField_place hf
      exact ⟨Nat.le_trans h1.1 (Nat.le_add_right _ _), h1.2⟩
    · obtain ⟨i, hi, hf⟩ := List.mem_flatMap.mp hf
      have h1 := slotField_place hf
      have h2 := Nat.mul_le_mul_right kSnapshotSlotSize (List.mem_range.mp hi)
      unfold snapshotSlotOffset kSnapshotHeaderSize kSnapshotSlotSize at h1
      unfold snapshotSize kChecksumOffset kSnapshotHeaderSize
      unfold kSnapshotSlotSize at h2 ⊢
      omega
  have hcontent : (ofList (snapshotBytes engine point)).readLE f.offset f.width =
      (snapshotContent engine point (snapshotSize engine.orderBook.arena.capacity)).readLE f.offset f.width :=
    readLE_congr fun i hi => snapshotBytes_at (by omega) (by omega)
  rw [hcontent, snapshotContent_eq, readLE_writeFields snapshotFields_apart hf, Nat.mod_eq_of_lt hfits]

/-- A byte of no field is zero. -/
theorem snapshotBytes_zero {i : Nat} (hi : i < snapshotSize engine.orderBook.arena.capacity)
    (hsum : i < kChecksumOffset ∨ kChecksumOffset + 4 ≤ i)
    (h : ∀ f ∈ snapshotFields engine point (snapshotSize engine.orderBook.arena.capacity), ¬f.Covers i) :
    ofList (snapshotBytes engine point) i = 0 := by
  rw [snapshotBytes_at hi hsum, snapshotContent_eq, writeFields_of_not_covered h]
  rfl

/-- A field of the header is a field. -/
theorem headerField_mem {size : Nat} {f : Field} (hf : f ∈ snapshotHeaderFields engine point size) : f ∈ snapshotFields engine point size :=
  List.mem_append_left _ hf

/-- A field of a slot is a field. -/
theorem slotField_mem {size : Nat} {f : Field} (hi : index < engine.orderBook.arena.capacity)
    (hf : f ∈ snapshotSlotFields engine.orderBook index) : f ∈ snapshotFields engine point size :=
  List.mem_append_right _ (List.mem_flatMap.mpr ⟨index, List.mem_range.mpr hi, hf⟩)

/-- The size of an image is a 32-bit number. -/
theorem snapshotSize_lt {capacity : Nat} (h : capacity ≤ kMaximumSnapshotSlots) : snapshotSize capacity < 2 ^ 32 := by
  have : capacity * kSnapshotSlotSize ≤ kMaximumSnapshotSlots * kSnapshotSlotSize := Nat.mul_le_mul_right _ h
  unfold snapshotSize kSnapshotHeaderSize
  unfold kMaximumSnapshotSlots kSnapshotSlotSize at this
  unfold kSnapshotSlotSize
  omega

/-- The byte of the policy is one that is accepted. -/
theorem SelfTradePolicy.raw_le (policy : SelfTradePolicy) : policy.raw ≤ 1 := by cases policy <;> decide

/-- The byte of the allocation mode is one that is accepted. -/
theorem AllocationMode.raw_le (mode : AllocationMode) : mode.raw ≤ 1 := by cases mode <;> decide

/-- The byte of the trading state is one that is accepted. -/
theorem TradingState.raw_le (state : TradingState) : state.raw ≤ 1 := by cases state <;> decide

/-- The pro rata minimum is a 32-bit number. -/
theorem BookConfig.proRataMinimum_lt (cfg : BookConfig) : cfg.proRataMinimum < 2 ^ 32 := by
  cases hm : cfg.allocationMode with
  | fifo =>
    rw [cfg.fifo_minimum hm]
    decide
  | thresholdProRata =>
    have h1 := (cfg.proRata_minimum hm).2
    have h2 := cfg.maxOrderQuantity_lt
    omega

/-- The lowest price is a signed 64-bit number. -/
theorem PriceDomain.minimum_fits (d : PriceDomain) : Fits64 d.minimum := by
  have h1 := d.minimum_ge
  have h2 := d.maximum_le
  have h3 := d.tickCount_pos
  exact ⟨h1, by omega⟩

/-- The header that `decode` reads is that of the engine. -/
theorem read_header (hfits : engine.orderBook.Fits) : SnapshotHeader.read (ofList (snapshotBytes engine point)) = engine.header point := by
  have hread : ∀ offset width value, (⟨offset, width, value⟩ : Field) ∈ snapshotHeaderFields engine point
      (snapshotSize engine.orderBook.arena.capacity) → value < 256 ^ width →
      (ofList (snapshotBytes engine point)).readLE offset width = value := fun offset width value hf hlt =>
    snapshotBytes_readLE (f := ⟨offset, width, value⟩) (headerField_mem hf) hlt
  have hword : ∀ offset (value : UInt64), (⟨offset, 8, value.toNat⟩ : Field) ∈ snapshotHeaderFields engine point
      (snapshotSize engine.orderBook.arena.capacity) → (ofList (snapshotBytes engine point)).readU64 offset = value := fun offset value hf => by
    rw [readU64, hread offset 8 _ hf value.toNat_lt, UInt64.ofNat_toNat]
  have hcap := hfits.capacity
  have hmax : kMaximumSnapshotSlots < 2 ^ 32 := by decide
  have hsize := hfits.size
  have hfree := hfits.freeHead
  have hticks := engine.orderBook.cfg.domain.tickCount_lt
  have hquantity := engine.orderBook.cfg.maxOrderQuantity_lt
  have hpolicy := engine.orderBook.cfg.selfTradePolicy.raw_le
  have hmode := engine.orderBook.cfg.allocationMode.raw_le
  have hstate := engine.orderBook.tradingState.raw_le
  have hmin := engine.orderBook.cfg.proRataMinimum_lt
  have hdomain := engine.orderBook.cfg.domain.minimum_fits
  have hversion := hread 8 4 kSnapshotFormatVersion (by simp [snapshotHeaderFields]) (by decide)
  have hprice : (if 4 ≤ kSnapshotFormatVersion ∧ (ofList (snapshotBytes engine point)).readLE 108 4 = 1 then
      some (toSigned64 ((ofList (snapshotBytes engine point)).readLE 100 8)) else none) = engine.orderBook.lastExecutionPrice := by
    rw [hread 108 4 (if engine.orderBook.lastExecutionPrice.isSome then 1 else 0) (by simp [snapshotHeaderFields]) (by split <;> decide),
      hread 100 8 (toUnsigned64 (engine.orderBook.lastExecutionPrice.getD 0)) (by simp [snapshotHeaderFields]) (toUnsigned64_lt _)]
    cases hlast : engine.orderBook.lastExecutionPrice with
    | none => rfl
    | some price =>
      have := hfits.lastPrice price hlast
      simp [toSigned64_toUnsigned64 this.1 this.2, kSnapshotFormatVersion]
  unfold SnapshotHeader.read SequencedEngine.header
  dsimp only
  rw [hversion, hread 20 4 engine.orderBook.cfg.selfTradePolicy.raw (by simp [snapshotHeaderFields]) (by omega),
    hread 112 4 engine.orderBook.cfg.allocationMode.raw (by simp [snapshotHeaderFields]) (by omega),
    hread 116 4 engine.orderBook.cfg.proRataMinimum (by simp [snapshotHeaderFields]) (by omega),
    hread 120 4 engine.orderBook.tradingState.raw (by simp [snapshotHeaderFields]) (by omega),
    hread 32 8 (toUnsigned64 engine.orderBook.cfg.domain.minimum) (by simp [snapshotHeaderFields]) (toUnsigned64_lt _),
    hread 40 4 engine.orderBook.cfg.domain.tickCount (by simp [snapshotHeaderFields]) (by omega),
    hread 44 4 engine.orderBook.cfg.maxOrderQuantity (by simp [snapshotHeaderFields]) (by omega),
    hread 48 4 engine.orderBook.arena.capacity (by simp [snapshotHeaderFields]) (by omega),
    hread 52 4 engine.orderBook.arena.size (by simp [snapshotHeaderFields]) (by omega),
    hread 56 4 engine.orderBook.arena.freeHead (by simp [snapshotHeaderFields]) (by omega),
    hread 60 4 (if engine.sequenceExhausted then 1 else 0) (by simp [snapshotHeaderFields]) (by split <;> decide),
    hword 64 engine.nextSequence (by simp [snapshotHeaderFields]), hword 72 engine.lastLogicalTime (by simp [snapshotHeaderFields]),
    hword 80 point.sequence (by simp [snapshotHeaderFields]), hword 88 point.logicalTime (by simp [snapshotHeaderFields]),
    toSigned64_toUnsigned64 hdomain.1 hdomain.2]
  rw [hprice]
  rfl

/-- A byte of a slot that none of its fields covers is zero. -/
theorem slotByte_zero (hi : index < engine.orderBook.arena.capacity) {p : Nat} (hp : p < kSnapshotSlotSize)
    (h : ∀ f ∈ snapshotSlotFields engine.orderBook index, ¬f.Covers (snapshotSlotOffset index + p)) :
    ofList (snapshotBytes engine point) (snapshotSlotOffset index + p) = 0 := by
  have hmul := Nat.mul_le_mul_right kSnapshotSlotSize (Nat.succ_le_of_lt hi)
  rw [Nat.succ_mul] at hmul
  have hstart : kSnapshotHeaderSize ≤ snapshotSlotOffset index := Nat.le_add_right _ _
  refine snapshotBytes_zero ?_ (Or.inr ?_) fun f hf hcov => ?_
  · unfold snapshotSize snapshotSlotOffset
    omega
  · unfold kSnapshotHeaderSize at hstart
    unfold kChecksumOffset
    omega
  · unfold Field.Covers at hcov
    rcases List.mem_append.mp hf with hf | hf
    · have h1 := headerField_place hf
      omega
    · obtain ⟨j, -, hf⟩ := List.mem_flatMap.mp hf
      have h1 := slotField_place hf
      rcases Nat.lt_trichotomy j index with hj | rfl | hj
      · have h2 := snapshotSlotOffset_le hj
        omega
      · exact h f hf hcov
      · have h2 := snapshotSlotOffset_le hj
        omega

/-- No field of a slot covers its reserved bytes, nor the order of a dead slot. -/
theorem slotField_covers {book : OrderBook} {p : Nat} (hlt : p < kSnapshotSlotSize)
    (hp : 9 ≤ p ∧ p < 12 ∨ 44 ≤ p ∧ p < 48 ∨ (book.arena.slots index).live = false ∧ 9 ≤ p) :
    ∀ f ∈ snapshotSlotFields book index, ¬f.Covers (snapshotSlotOffset index + p) := by
  have hall : ∀ live, ∀ p < kSnapshotSlotSize, (9 ≤ p ∧ p < 12 ∨ 44 ≤ p ∧ p < 48 ∨ live = false ∧ 9 ≤ p) →
      ∀ q ∈ slotPlaces live, ¬(q.1 ≤ p ∧ p < q.1 + q.2) := by decide +kernel
  intro f hf hcov
  obtain ⟨q, hq, hoffset, hwidth⟩ := slotField_place_mem hf
  refine hall _ p hlt hp q hq ?_
  unfold Field.Covers at hcov
  omega

/-- Every other byte of a slot is in a field. -/
theorem slotField_covered {book : OrderBook} {p : Nat} (hlt : p < kSnapshotSlotSize) :
    (∃ f ∈ snapshotSlotFields book index, f.Covers (snapshotSlotOffset index + p)) ∨
      (9 ≤ p ∧ p < 12 ∨ (book.arena.slots index).live = true ∧ 44 ≤ p ∧ p < 48 ∨ (book.arena.slots index).live = false ∧ 12 ≤ p) := by
  have hall : ∀ live, ∀ p < kSnapshotSlotSize, (∃ q ∈ slotPlaces live, q.1 ≤ p ∧ p < q.1 + q.2) ∨
      (9 ≤ p ∧ p < 12 ∨ live = true ∧ 44 ≤ p ∧ p < 48 ∨ live = false ∧ 12 ≤ p) := by decide +kernel
  refine (hall _ p hlt).imp_left ?_
  rintro ⟨q, hq, h1, h2⟩
  have hm : (snapshotSlotOffset index + q.1, q.2) ∈ (snapshotSlotFields book index).map fun f => (f.offset, f.width) := by
    rw [snapshotSlotFields_places]
    exact List.mem_map.mpr ⟨q, hq, rfl⟩
  obtain ⟨f, hf, he⟩ := List.mem_map.mp hm
  rw [Prod.mk.injEq] at he
  refine ⟨f, hf, ?_⟩
  unfold Field.Covers
  omega

/-- Every byte of the header is in a field or in the checksum. -/
theorem headerField_covered {size p : Nat} (hp : p < kSnapshotHeaderSize) :
    (∃ f ∈ snapshotHeaderFields engine point size, f.Covers p) ∨ (kChecksumOffset ≤ p ∧ p < kChecksumOffset + 4) := by
  have hall : ∀ p < kSnapshotHeaderSize, (∃ q ∈ headerPlaces, q.1 ≤ p ∧ p < q.1 + q.2) ∨
      (kChecksumOffset ≤ p ∧ p < kChecksumOffset + 4) := by decide +kernel
  refine (hall p hp).imp_left ?_
  rintro ⟨q, hq, h1, h2⟩
  rw [← @snapshotHeaderFields_places engine point size] at hq
  obtain ⟨f, hf, rfl⟩ := List.mem_map.mp hq
  exact ⟨f, hf, h1, h2⟩

/-- The record that `decode` reads is that of the slot. -/
theorem read_slot (hfits : engine.orderBook.Fits) (hi : index < engine.orderBook.arena.capacity) :
    SlotRecord.read kSnapshotFormatVersion (ofList (snapshotBytes engine point)) (snapshotSlotOffset index) =
      engine.orderBook.slotRecord index := by
  have hread : ∀ offset width value, (⟨snapshotSlotOffset index + offset, width, value⟩ : Field) ∈ snapshotSlotFields engine.orderBook index →
      value < 256 ^ width → (ofList (snapshotBytes engine point)).readLE (snapshotSlotOffset index + offset) width = value :=
    fun offset width value hf hlt => snapshotBytes_readLE (f := ⟨_, width, value⟩) (slotField_mem hi hf) hlt
  have hgen := hread 0 4 (engine.orderBook.arena.slots index).generation (by simp [snapshotSlotFields])
    (by have := hfits.generation index hi; omega)
  have hnext := hread 4 4 (engine.orderBook.arena.slots index).freeNext (by simp [snapshotSlotFields])
    (by have := hfits.freeNext index hi; omega)
  have hlive := hread 8 1 (if (engine.orderBook.arena.slots index).live then 1 else 0) (by simp [snapshotSlotFields]) (by split <;> decide)
  rw [Nat.add_zero] at hgen
  unfold SlotRecord.read OrderBook.slotRecord
  dsimp only
  rw [hgen, hnext, hlive]
  by_cases hl : (engine.orderBook.arena.slots index).live = true
  · have hs := hfits.live index hi hl
    rw [if_pos hl, if_pos hl,
      hread 12 8 (engine.orderBook.arena.slots index).order.id (by simp [snapshotSlotFields, hl]) hs.id,
      hread 20 8 (engine.orderBook.arena.slots index).order.remaining (by simp [snapshotSlotFields, hl]) hs.remaining,
      hread 28 4 (engine.orderBook.arena.slots index).order.prevIndex (by simp [snapshotSlotFields, hl]) hs.prevIndex,
      hread 32 4 (engine.orderBook.arena.slots index).order.nextIndex (by simp [snapshotSlotFields, hl]) hs.nextIndex,
      hread 36 4 (engine.orderBook.arena.slots index).order.encodedLevelSide (by simp [snapshotSlotFields, hl]) hs.encodedLevelSide,
      hread 40 4 (engine.orderBook.arena.slots index).order.reservedFlags (by simp [snapshotSlotFields, hl]) hs.reservedFlags,
      hread 48 8 (engine.orderBook.traderIds index) (by simp [snapshotSlotFields, hl]) hs.traderId,
      hread 56 8 (engine.orderBook.displayQuantities index) (by simp [snapshotSlotFields, hl]) hs.displayQuantity,
      hread 64 8 (engine.orderBook.displayedRemaining index) (by simp [snapshotSlotFields, hl]) hs.displayedRemaining,
      hread 72 8 (toUnsigned64 (engine.orderBook.stopTriggerPrices index)) (by simp [snapshotSlotFields, hl]) (toUnsigned64_lt _),
      hread 80 8 (toUnsigned64 (engine.orderBook.stopLimitPrices index)) (by simp [snapshotSlotFields, hl]) (toUnsigned64_lt _),
      hread 88 4 (engine.orderBook.stopPrevIndices index) (by simp [snapshotSlotFields, hl]) hs.stopPrevIndex,
      hread 92 4 (engine.orderBook.stopNextIndices index) (by simp [snapshotSlotFields, hl]) hs.stopNextIndex,
      toSigned64_toUnsigned64 hs.stopTriggerPrice.1 hs.stopTriggerPrice.2, toSigned64_toUnsigned64 hs.stopLimitPrice.1 hs.stopLimitPrice.2]
    rfl
  · have hdead : (engine.orderBook.arena.slots index).live = false := Bool.eq_false_iff.mpr hl
    have hzero : ∀ offset width, 12 ≤ offset → offset + width ≤ kSnapshotSlotSize →
        (ofList (snapshotBytes engine point)).readLE (snapshotSlotOffset index + offset) width = 0 := fun offset width h1 h2 =>
      readLE_eq_zero fun i hlt => by
        rw [Nat.add_assoc]
        have hlt : offset + i < kSnapshotSlotSize := by omega
        exact slotByte_zero hi hlt (slotField_covers hlt (.inr (.inr ⟨hdead, by omega⟩)))
    rw [if_neg hl, if_neg hl, hzero 12 8 (by decide) (by decide), hzero 20 8 (by decide) (by decide), hzero 28 4 (by decide) (by decide),
      hzero 32 4 (by decide) (by decide), hzero 36 4 (by decide) (by decide), hzero 40 4 (by decide) (by decide),
      hzero 48 8 (by decide) (by decide), hzero 56 8 (by decide) (by decide), hzero 64 8 (by decide) (by decide),
      hzero 72 8 (by decide) (by decide), hzero 80 8 (by decide) (by decide), hzero 88 4 (by decide) (by decide),
      hzero 92 4 (by decide) (by decide)]
    rfl

/-- The checksum does not depend on its own bytes. -/
theorem snapshotCrc_congr {b c : Buffer} {size : Nat}
    (h : ∀ i < size, i < kChecksumOffset ∨ kChecksumOffset + 4 ≤ i → b i = c i) : snapshotCrc b size = snapshotCrc c size := by
  unfold snapshotCrc
  refine congrArg (~~~·) (List.foldl_ext _ _ _ fun state i hi => ?_)
  by_cases hsum : kChecksumOffset ≤ i ∧ i < kChecksumOffset + 4
  · rw [if_pos hsum, if_pos hsum]
  · rw [if_neg hsum, if_neg hsum, h i (List.mem_range.mp hi) (by omega)]

/-- The checksum that is written is that of the bytes. -/
theorem snapshotBytes_checksum : snapshotCrc (ofList (snapshotBytes engine point)) (snapshotSize engine.orderBook.arena.capacity) =
    (ofList (snapshotBytes engine point)).readU32 kChecksumOffset := by
  have hread : (ofList (snapshotBytes engine point)).readU32 kChecksumOffset =
      snapshotCrc (snapshotContent engine point (snapshotSize engine.orderBook.arena.capacity)) (snapshotSize engine.orderBook.arena.capacity) := by
    unfold snapshotBytes
    dsimp only
    refine (readU32_congr fun i hi => ofList_slice ?_).trans (readU32_writeU32_same _ _ _)
    unfold snapshotSize kChecksumOffset kSnapshotHeaderSize
    omega
  rw [hread]
  exact snapshotCrc_congr fun i hi hsum => snapshotBytes_at hi hsum

/-- The image begins with the magic. -/
theorem snapshotBytes_magic : (ofList (snapshotBytes engine point)).slice 0 8 = kMagic := by
  have hbyte : ∀ i byte, (⟨i, 1, byte.toNat⟩ : Field) ∈ kMagic.mapIdx (fun index byte => (⟨index, 1, byte.toNat⟩ : Field)) →
      ofList (snapshotBytes engine point) i = byte := by
    intro i byte hm
    have hf : (⟨i, 1, byte.toNat⟩ : Field) ∈ snapshotHeaderFields engine point (snapshotSize engine.orderBook.arena.capacity) :=
      List.mem_append_left _ hm
    have := snapshotBytes_readLE (headerField_mem hf) byte.toNat_lt
    simp only [readLE, Nat.pow_zero, Nat.mul_one, Nat.zero_add, Nat.add_zero] at this
    exact UInt8.toNat_inj.mp this
  have hall : (ofList (snapshotBytes engine point)).slice 0 8 = [0, 1, 2, 3, 4, 5, 6, 7].map (ofList (snapshotBytes engine point)) := by
    simp [slice, List.range_succ]
  rw [hall]
  simp [kMagic, hbyte 0 77 (by decide), hbyte 1 69 (by decide), hbyte 2 83 (by decide), hbyte 3 78 (by decide), hbyte 4 65 (by decide),
    hbyte 5 80 (by decide), hbyte 6 52 (by decide), hbyte 7 0 (by decide)]

end ReadBack

end MatchingEngine

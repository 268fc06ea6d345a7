import MatchingEngine.Lemmas.Check
import MatchingEngine.Lemmas.Snapshot
import MatchingEngine.Lib.Rounds

/-!
# What the loop over the slots restores

`decode` goes through the slots in their order and rebuilds the levels, the bitmaps and the ends of the lists from each order as it comes.
`Restored` says what it has rebuilt after some of the slots; it is kept by every round (`Restored.round`).
-/

namespace MatchingEngine

open Buffer Comp Function

/-- The record of the slot `index` of a snapshot. -/
def SnapshotHeader.record (h : SnapshotHeader) (b : Buffer) (index : Nat) : SlotRecord := SlotRecord.read h.version b (h.slotOffset index)

namespace SlotRecord

/-- The slot holds an order that rests on a level. -/
def rests (side : Side) (level : Nat) (s : SlotRecord) : Bool :=
  s.live = 1 && !s.order.dormant && decide (s.order.side = side) && decide (s.order.level = level)

/-- The slot holds a dormant stop. -/
def sleeps (s : SlotRecord) : Bool := s.live = 1 && s.order.dormant

end SlotRecord

/-! ## One slot -/

namespace OrderBook

variable (book : OrderBook) (index : Nat) (s : SlotRecord)

/-- The book with a stop restored. -/
def withStop : OrderBook :=
  { book.restoreFields index s with
    stopHead := if s.stopPrevIndex = kInvalidIndex then index else book.stopHead
    stopTail := if s.stopNextIndex = kInvalidIndex then index else book.stopTail
    dormantStopCount := book.dormantStopCount + 1 }

/-- The level of a restored order, with the order added. -/
def restoredLevel : PriceLevel :=
  let priceLevel := book.level s.order.side s.order.level
  { headIndex := if s.order.prevIndex = kInvalidIndex then index else priceLevel.headIndex
    tailIndex := if s.order.nextIndex = kInvalidIndex then index else priceLevel.tailIndex
    aggregateQuantity := priceLevel.aggregateQuantity + s.order.remaining
    orderCount := priceLevel.orderCount + 1 }

/-- The book with an order restored. -/
def withResting : OrderBook :=
  ((book.restoreFields index s).setLevel s.order.side s.order.level (book.restoredLevel index s)).setOccupancy s.order.side
    ((book.occupancy s.order.side).set s.order.level)

variable {book : OrderBook} {index : Nat} {s : SlotRecord} {h : SnapshotHeader} {book' : OrderBook}

/-- When a live slot is restored, and to what. -/
theorem restoreLive_eq_ok : book.restoreLive index s h = .ok book' ↔
    (s.order.dormant = true ∧ s.invalidStop h = false ∧ (s.stopPrevIndex = kInvalidIndex → book.stopHead = kInvalidIndex) ∧
      (s.stopNextIndex = kInvalidIndex → book.stopTail = kInvalidIndex) ∧ book' = book.withStop index s) ∨
    (s.order.dormant = false ∧ s.invalidResting h = false ∧
      (book.level s.order.side s.order.level).aggregateQuantity ≤ 2 ^ 64 - 1 - s.order.remaining ∧
      (s.order.prevIndex = kInvalidIndex → (book.level s.order.side s.order.level).headIndex = kInvalidIndex) ∧
      (s.order.nextIndex = kInvalidIndex → (book.level s.order.side s.order.level).tailIndex = kInvalidIndex) ∧
      book' = book.withResting index s) := by
  have hlevel : ∀ side i, (book.restoreFields index s).level side i = book.level side i := fun _ _ => rfl
  have hhead : (book.restoreFields index s).stopHead = book.stopHead := rfl
  have htail : (book.restoreFields index s).stopTail = book.stopTail := rfl
  unfold restoreLive
  dsimp only
  by_cases hd : s.order.dormant = true
  · rw [if_pos hd]
    simp only [hd, true_and, Bool.true_eq_false, false_and, or_false]
    by_cases hv : s.invalidStop h = true
    · rw [if_pos hv]
      simp [hv]
    · rw [if_neg hv, restoreStop, hhead, htail]
      simp only [Bool.eq_false_iff.mpr hv, true_and]
      by_cases h1 : s.stopPrevIndex = kInvalidIndex ∧ book.stopHead ≠ kInvalidIndex
      · rw [if_pos h1]
        exact ⟨fun h => (by cases h), fun h => absurd (h.1 h1.1) h1.2⟩
      · rw [if_neg h1]
        by_cases h2 : s.stopNextIndex = kInvalidIndex ∧ book.stopTail ≠ kInvalidIndex
        · rw [if_pos h2]
          exact ⟨fun h => (by cases h), fun h => absurd (h.2.1 h2.1) h2.2⟩
        · rw [if_neg h2, Except.ok.injEq]
          exact ⟨fun h => ⟨fun h' => not_not.mp fun hn => h1 ⟨h', hn⟩, fun h' => not_not.mp fun hn => h2 ⟨h', hn⟩, h.symm⟩, fun h => h.2.2.symm⟩
  · rw [if_neg hd]
    simp only [hd, Bool.false_eq_true, false_and, false_or, true_and]
    by_cases hv : s.invalidResting h = true
    · rw [if_pos hv]
      simp [hv]
    · rw [if_neg hv, restoreResting, hlevel]
      simp only [Bool.eq_false_iff.mpr hv, true_and]
      by_cases h0 : 2 ^ 64 - 1 - s.order.remaining < (book.level s.order.side s.order.level).aggregateQuantity
      · rw [if_pos h0]
        exact ⟨fun h => (by cases h), fun h => absurd h0 (Nat.not_lt.mpr h.1)⟩
      · rw [if_neg h0]
        by_cases h1 : s.order.prevIndex = kInvalidIndex ∧ (book.level s.order.side s.order.level).headIndex ≠ kInvalidIndex
        · rw [if_pos h1]
          exact ⟨fun h => (by cases h), fun h => absurd (h.2.1 h1.1) h1.2⟩
        · rw [if_neg h1]
          by_cases h2 : s.order.nextIndex = kInvalidIndex ∧ (book.level s.order.side s.order.level).tailIndex ≠ kInvalidIndex
          · rw [if_pos h2]
            exact ⟨fun h => (by cases h), fun h => absurd (h.2.2.1 h2.1) h2.2⟩
          · rw [if_neg h2, Except.ok.injEq]
            exact ⟨fun h => ⟨Nat.le_of_not_lt h0, fun h' => not_not.mp fun hn => h1 ⟨h', hn⟩, fun h' => not_not.mp fun hn => h2 ⟨h', hn⟩, h.symm⟩,
              fun h => h.2.2.2.symm⟩

end OrderBook

section Slot

variable {h : SnapshotHeader} {b : Buffer} {st st' : Nat × OrderBook} {index : Nat}

/-- When a slot is restored, and to what. -/
theorem restoreSlot_eq_ok : restoreSlot h b st index = .ok st' ↔
    (h.record b index).live ≤ 1 ∧ b.allZero (h.slotOffset index + 9) 3 = true ∧ (h.record b index).generation ≠ 0 ∧
      (((h.record b index).live = 0 ∧ b.allZero (h.slotOffset index + 12) (h.slotSize - 12) = true ∧
          st' = (st.1, st.2.restoreDead index (h.record b index))) ∨
        ((h.record b index).live = 1 ∧ st'.1 = st.1 + 1 ∧ st.2.restoreLive index (h.record b index) h = .ok st'.2)) := by
  unfold restoreSlot
  dsimp only
  rw [show SlotRecord.read h.version b (h.slotOffset index) = h.record b index from rfl]
  generalize h.record b index = s
  by_cases h1 : 1 < s.live ∨ (!b.allZero (h.slotOffset index + 9) 3) = true
  · rw [if_pos h1]
    refine ⟨fun h => (by cases h), fun h => ?_⟩
    rcases h1 with h1 | h1
    · exact absurd h.1 (Nat.not_le.mpr h1)
    · rw [h.2.1] at h1
      cases h1
  · rw [if_neg h1]
    rw [not_or, Nat.not_lt, Bool.not_eq_true', Bool.not_eq_false] at h1
    by_cases h2 : s.generation = 0
    · rw [if_pos h2]
      exact ⟨fun h => (by cases h), fun h => absurd h2 h.2.2.1⟩
    · rw [if_neg h2]
      simp only [h1, h2, ne_eq, not_false_eq_true, true_and]
      by_cases h3 : s.live = 0
      · rw [if_pos h3]
        simp only [h3, true_and, Nat.zero_ne_one, false_and, or_false]
        cases hz : b.allZero (h.slotOffset index + 12) (h.slotSize - 12) with
        | false => simp
        | true =>
          rw [if_neg (by simp), Except.ok.injEq]
          exact ⟨fun h => ⟨rfl, h.symm⟩, fun h => h.2.symm⟩
      · have hlive : s.live = 1 := by omega
        rw [if_neg h3]
        simp only [hlive, Nat.one_ne_zero, false_and, false_or, true_and]
        cases hr : st.2.restoreLive index s h with
        | error error => exact ⟨fun h => (by cases h), fun h => (by cases h.2)⟩
        | ok book =>
          rw [Except.map, Except.ok.injEq, Except.ok.injEq]
          constructor
          · rintro rfl
            exact ⟨rfl, rfl⟩
          · rintro ⟨h1, rfl⟩
            exact Prod.ext h1.symm rfl

end Slot

/-! ## The record of a slot -/

/-- The record of a dead slot. -/
def SlotRecord.dead (generation freeNext : Nat) : SlotRecord := ⟨generation, freeNext, 0, ⟨0, 0, 0, 0, 0, 0⟩, 0, 0, 0, 0, 0, 0, 0⟩

/-- A dead slot that is let through has no order. -/
theorem SnapshotHeader.record_dead {h : SnapshotHeader} {b : Buffer} {index : Nat} (hlive : (h.record b index).live = 0)
    (hzero : b.allZero (h.slotOffset index + 12) (h.slotSize - 12) = true) :
    h.record b index = .dead (h.record b index).generation (h.record b index).freeNext := by
  have hread : ∀ offset width, 12 ≤ offset → offset + width ≤ h.slotSize → b.readLE (h.slotOffset index + offset) width = 0 :=
    fun offset width h1 h2 => readLE_eq_zero fun i hi => by
      have := allZero_iff.mp hzero (offset + i - 12) (by omega)
      rwa [show h.slotOffset index + 12 + (offset + i - 12) = h.slotOffset index + offset + i by omega] at this
  have hsize : 48 ≤ h.slotSize ∧ (h.version ≠ 1 → 56 ≤ h.slotSize) ∧ (¬h.version < 3 → 72 ≤ h.slotSize) ∧ (¬h.version < 4 → 96 ≤ h.slotSize) := by
    unfold SnapshotHeader.slotSize kSnapshotSlotSize
    split_ifs <;> omega
  have htrader : (if h.version = 1 then 0 else b.readLE (h.slotOffset index + 48) 8) = 0 := by
    split
    · rfl
    · exact hread 48 8 (by decide) (hsize.2.1 ‹_›)
  have hdisplay : ∀ offset, 12 ≤ offset → offset + 8 ≤ 72 → (if h.version < 3 then 0 else b.readLE (h.slotOffset index + offset) 8) = 0 := by
    intro offset h1 h2
    split
    · rfl
    · exact hread offset 8 h1 (Nat.le_trans h2 (hsize.2.2.1 ‹_›))
  have hprice : ∀ offset, 12 ≤ offset → offset + 8 ≤ 96 →
      (if h.version < 4 then 0 else toSigned64 (b.readLE (h.slotOffset index + offset) 8)) = 0 := by
    intro offset h1 h2
    split
    · rfl
    · rw [hread offset 8 h1 (Nat.le_trans h2 (hsize.2.2.2 ‹_›))]
      rfl
  have hlink : ∀ offset, 12 ≤ offset → offset + 4 ≤ 96 → (if h.version < 4 then 0 else b.readLE (h.slotOffset index + offset) 4) = 0 := by
    intro offset h1 h2
    split
    · rfl
    · exact hread offset 4 h1 (Nat.le_trans h2 (hsize.2.2.2 ‹_›))
  unfold record SlotRecord.read at hlive ⊢
  unfold SlotRecord.dead
  dsimp only at hlive ⊢
  rw [hlive, hread 20 8 (by decide) (by omega), htrader, hdisplay 56 (by decide) (by decide), hdisplay 64 (by decide) (by decide),
    hprice 72 (by decide) (by decide), hprice 80 (by decide) (by decide), hlink 88 (by decide) (by decide), hlink 92 (by decide) (by decide),
    hread 12 8 (by decide) (by omega), hread 28 4 (by decide) (by omega), hread 32 4 (by decide) (by omega),
    hread 36 4 (by decide) (by omega), hread 40 4 (by decide) (by omega)]

namespace OrderBook

variable {book : OrderBook} {index i : Nat} {s : SlotRecord}

/-- The records once a dead slot is restored. -/
theorem slotRecord_restoreDead (hlive : s.live = 0) :
    (book.restoreDead index s).slotRecord i = if i = index then .dead s.generation s.freeNext else book.slotRecord i := by
  by_cases hi : i = index
  · subst hi
    simp [slotRecord, restoreDead, restoreMeta, setArena, hlive, SlotRecord.dead]
  · simp [slotRecord, restoreDead, restoreMeta, setArena, hi]

/-- The record of a slot that is restored is that of the snapshot. -/
theorem slotRecord_restoreFields (hlive : s.live = 1) :
    (book.restoreFields index s).slotRecord i = if i = index then s else book.slotRecord i := by
  by_cases hi : i = index
  · subst hi
    cases s
    cases hlive
    simp [slotRecord, restoreFields, restoreMeta, setArena]
  · simp [slotRecord, restoreFields, restoreMeta, setArena, hi]

end OrderBook

/-! ## The loop -/

section Loop

variable (records : Nat → SlotRecord)

/-- The slots below `k` that rest on a level. -/
def restingBelow (k : Nat) (side : Side) (i : Nat) : List Nat := (List.range k).filter fun s => (records s).rests side i

/-- The slots below `k` that hold a dormant stop. -/
def sleepingBelow (k : Nat) : List Nat := (List.range k).filter fun s => (records s).sleeps

/-- The live slots below `k`. -/
def liveBelow (k : Nat) : List Nat := (List.range k).filter fun s => (records s).live = 1

variable {records} {k s i : Nat} {side : Side}

theorem filter_range_succ (p : Nat → Bool) : (List.range (k + 1)).filter p = if p k then (List.range k).filter p ++ [k] else (List.range k).filter p := by
  rw [List.range_succ, List.filter_append]
  by_cases hp : p k = true
  · simp [hp]
  · simp [hp]

/-- The orders of a level among the first slots. -/
theorem mem_restingBelow : s ∈ restingBelow records k side i ↔ s < k ∧ (records s).rests side i = true := by
  rw [restingBelow, List.mem_filter, List.mem_range]

/-- The stops among the first slots. -/
theorem mem_sleepingBelow : s ∈ sleepingBelow records k ↔ s < k ∧ (records s).sleeps = true := by
  rw [sleepingBelow, List.mem_filter, List.mem_range]

/-- What the loop does not touch. -/
structure OrderBook.SameSettings (b b' : OrderBook) : Prop where
  cfg : b'.cfg = b.cfg
  capacity : b'.arena.capacity = b.arena.capacity
  size : b'.arena.size = b.arena.size
  freeHead : b'.arena.freeHead = b.arena.freeHead
  lastPrice : b'.lastExecutionPrice = b.lastExecutionPrice
  tradingState : b'.tradingState = b.tradingState
  activations : b'.stopActivations = b.stopActivations
  reportEpochs : b'.tradeReportEpochs = b.tradeReportEpochs
  reportEpoch : b'.tradeReportEpoch = b.tradeReportEpoch
  marks : b'.visitMarks = b.visitMarks
  epoch : b'.visitEpoch = b.visitEpoch

/-- What the loop has restored of the slots below `k`. -/
structure Restored (records : Nat → SlotRecord) (start : OrderBook) (k : Nat) (st : Nat × OrderBook) : Prop where
  settings : start.SameSettings st.2
  observed : st.1 = (liveBelow records k).length
  slots : ∀ s < k, st.2.slotRecord s = records s
  count : ∀ side i, (st.2.level side i).orderCount = (restingBelow records k side i).length
  aggregate : ∀ side i, (st.2.level side i).aggregateQuantity = ((restingBelow records k side i).map fun s => (records s).order.remaining).sum
  bounded : ∀ side i, (st.2.level side i).aggregateQuantity < 2 ^ 64
  head : ∀ side i, Links.End kInvalidIndex (fun s => (records s).order.prevIndex) (restingBelow records k side i) (st.2.level side i).headIndex
  tail : ∀ side i, Links.End kInvalidIndex (fun s => (records s).order.nextIndex) (restingBelow records k side i) (st.2.level side i).tailIndex
  occupancy : ∀ side, (st.2.occupancy side).Holds st.2.cfg.domain.tickCount fun i => restingBelow records k side i ≠ []
  stopCount : st.2.dormantStopCount = (sleepingBelow records k).length
  stopHead : Links.End kInvalidIndex (fun s => (records s).stopPrevIndex) (sleepingBelow records k) st.2.stopHead
  stopTail : Links.End kInvalidIndex (fun s => (records s).stopNextIndex) (sleepingBelow records k) st.2.stopTail

/-- A slot that holds no order is gone through. -/
theorem Restored.dead {start : OrderBook} {st : Nat × OrderBook} (h : Restored records start k st) (hlive : (records k).live = 0)
    (hdead : records k = .dead (records k).generation (records k).freeNext) :
    Restored records start (k + 1) (st.1, st.2.restoreDead k (records k)) := by
  have hrest : ∀ side i, restingBelow records (k + 1) side i = restingBelow records k side i := fun side i => by
    rw [restingBelow, filter_range_succ, if_neg (by simp [SlotRecord.rests, hlive]), restingBelow]
  have hsleep : sleepingBelow records (k + 1) = sleepingBelow records k := by
    rw [sleepingBelow, filter_range_succ, if_neg (by simp [SlotRecord.sleeps, hlive]), sleepingBelow]
  have hcount : liveBelow records (k + 1) = liveBelow records k := by
    rw [liveBelow, filter_range_succ, if_neg (by simp [hlive]), liveBelow]
  exact
    { settings := ⟨h.1.1, h.1.2, h.1.3, h.1.4, h.1.5, h.1.6, h.1.7, h.1.8, h.1.9, h.1.10, h.1.11⟩
      observed := by rw [hcount]; exact h.observed
      slots := fun s hs => by
        rw [OrderBook.slotRecord_restoreDead hlive]
        split
        · rename_i he
          rw [he, ← hdead]
        · exact h.slots s (by omega)
      count := fun side i => by rw [hrest]; exact h.count side i
      aggregate := fun side i => by rw [hrest]; exact h.aggregate side i
      bounded := h.bounded
      head := fun side i => by rw [hrest]; exact h.head side i
      tail := fun side i => by rw [hrest]; exact h.tail side i
      occupancy := fun side => by simp only [hrest]; exact h.occupancy side
      stopCount := by rw [hsleep]; exact h.stopCount
      stopHead := by rw [hsleep]; exact h.stopHead
      stopTail := by rw [hsleep]; exact h.stopTail }

/-- The invalid index is no order. -/
theorem restingBelow_notMem (hk : k < kInvalidIndex) : kInvalidIndex ∉ restingBelow records k side i :=
  fun hm => absurd (mem_restingBelow.mp hm).1 (by omega)

theorem sleepingBelow_notMem (hk : k < kInvalidIndex) : kInvalidIndex ∉ sleepingBelow records k :=
  fun hm => absurd (mem_sleepingBelow.mp hm).1 (by omega)

/-- A dormant stop is restored. -/
theorem Restored.stop {start : OrderBook} {st : Nat × OrderBook} (h : Restored records start k st) (hk : k < kInvalidIndex)
    (hlive : (records k).live = 1) (hd : (records k).order.dormant = true)
    (hfirst : (records k).stopPrevIndex = kInvalidIndex → st.2.stopHead = kInvalidIndex)
    (hlast : (records k).stopNextIndex = kInvalidIndex → st.2.stopTail = kInvalidIndex) :
    Restored records start (k + 1) (st.1 + 1, st.2.withStop k (records k)) := by
  have hrest : ∀ side i, restingBelow records (k + 1) side i = restingBelow records k side i := fun side i => by
    rw [restingBelow, filter_range_succ, if_neg (by simp [SlotRecord.rests, hd]), restingBelow]
  have hsleep : sleepingBelow records (k + 1) = sleepingBelow records k ++ [k] := by
    rw [sleepingBelow, filter_range_succ, if_pos (by simp [SlotRecord.sleeps, hlive, hd]), sleepingBelow]
  have hcount : liveBelow records (k + 1) = liveBelow records k ++ [k] := by
    rw [liveBelow, filter_range_succ, if_pos (by simp [hlive]), liveBelow]
  have hnot : k ∉ sleepingBelow records k := fun hm => Nat.lt_irrefl k (mem_sleepingBelow.mp hm).1
  exact
    { settings := ⟨h.1.1, h.1.2, h.1.3, h.1.4, h.1.5, h.1.6, h.1.7, h.1.8, h.1.9, h.1.10, h.1.11⟩
      observed := by rw [hcount, List.length_append, ← h.observed]; rfl
      slots := fun s hs => by
        refine (OrderBook.slotRecord_restoreFields hlive).trans ?_
        split
        · rename_i he
          rw [he]
        · exact h.slots s (by omega)
      count := fun side i => by rw [hrest]; exact h.count side i
      aggregate := fun side i => by rw [hrest]; exact h.aggregate side i
      bounded := h.bounded
      head := fun side i => by rw [hrest]; exact h.head side i
      tail := fun side i => by rw [hrest]; exact h.tail side i
      occupancy := fun side => by simp only [hrest]; exact h.occupancy side
      stopCount := by rw [hsleep, List.length_append, ← h.stopCount]; rfl
      stopHead := by rw [hsleep]; exact h.stopHead.snoc hnot (sleepingBelow_notMem hk) hfirst
      stopTail := by rw [hsleep]; exact h.stopTail.snoc hnot (sleepingBelow_notMem hk) hlast }

/-- A resting order is restored. A level either is that of the order, or has the orders it had. -/
theorem Restored.resting {start : OrderBook} {st : Nat × OrderBook} (h : Restored records start k st) (hk : k < kInvalidIndex)
    (hlive : (records k).live = 1) (hd : (records k).order.dormant = false) (hlevel : (records k).order.level < st.2.cfg.domain.tickCount)
    (hremaining : (records k).order.remaining < 2 ^ 64)
    (hsum : (st.2.level (records k).order.side (records k).order.level).aggregateQuantity ≤ 2 ^ 64 - 1 - (records k).order.remaining)
    (hfirst : (records k).order.prevIndex = kInvalidIndex →
      (st.2.level (records k).order.side (records k).order.level).headIndex = kInvalidIndex)
    (hlast : (records k).order.nextIndex = kInvalidIndex →
      (st.2.level (records k).order.side (records k).order.level).tailIndex = kInvalidIndex) :
    Restored records start (k + 1) (st.1 + 1, st.2.withResting k (records k)) := by
  have hsleep : sleepingBelow records (k + 1) = sleepingBelow records k := by
    rw [sleepingBelow, filter_range_succ, if_neg (by simp [SlotRecord.sleeps, hd]), sleepingBelow]
  have hcount : liveBelow records (k + 1) = liveBelow records k ++ [k] := by
    rw [liveBelow, filter_range_succ, if_pos (by simp [hlive]), liveBelow]
  have hcase : ∀ side i,
      (side = (records k).order.side ∧ i = (records k).order.level ∧
        restingBelow records (k + 1) side i = restingBelow records k side i ++ [k] ∧
        (st.2.withResting k (records k)).level side i = st.2.restoredLevel k (records k)) ∨
      (¬(side = (records k).order.side ∧ i = (records k).order.level) ∧
        restingBelow records (k + 1) side i = restingBelow records k side i ∧
        (st.2.withResting k (records k)).level side i = st.2.level side i) := by
    intro side i
    have hlevels : (st.2.withResting k (records k)).level side i =
        update st.2.levels (records k).order.side
          (update (st.2.levels (records k).order.side) (records k).order.level (st.2.restoredLevel k (records k))) side i := rfl
    by_cases hs : side = (records k).order.side
    · subst hs
      by_cases hi : i = (records k).order.level
      · subst hi
        refine .inl ⟨rfl, rfl, ?_, by rw [hlevels, update_self, update_self]⟩
        rw [restingBelow, filter_range_succ, if_pos (by simp [SlotRecord.rests, hlive, hd]), restingBelow]
      · refine .inr ⟨fun he => hi he.2, ?_, by rw [hlevels, update_self, update_of_ne hi]; rfl⟩
        rw [restingBelow, filter_range_succ, if_neg (by simp [SlotRecord.rests, Ne.symm hi]), restingBelow]
    · refine .inr ⟨fun he => hs he.1, ?_, by rw [hlevels, update_of_ne hs]; rfl⟩
      rw [restingBelow, filter_range_succ, if_neg (by simp [SlotRecord.rests, Ne.symm hs]), restingBelow]
  have hnot : ∀ side i, k ∉ restingBelow records k side i := fun side i hm => Nat.lt_irrefl k (mem_restingBelow.mp hm).1
  exact
    { settings := ⟨h.1.1, h.1.2, h.1.3, h.1.4, h.1.5, h.1.6, h.1.7, h.1.8, h.1.9, h.1.10, h.1.11⟩
      observed := by rw [hcount, List.length_append, ← h.observed]; rfl
      slots := fun s hs => by
        refine (OrderBook.slotRecord_restoreFields hlive).trans ?_
        split
        · rename_i he
          rw [he]
        · exact h.slots s (by omega)
      count := fun side i => by
        rcases hcase side i with ⟨rfl, rfl, hl, hb⟩ | ⟨-, hl, hb⟩
        · rw [hl, hb, List.length_append, ← h.count]
          rfl
        · rw [hl, hb, h.count]
      aggregate := fun side i => by
        rcases hcase side i with ⟨rfl, rfl, hl, hb⟩ | ⟨-, hl, hb⟩
        · rw [hl, hb, List.map_append, List.sum_append, ← h.aggregate]
          simp [OrderBook.restoredLevel]
        · rw [hl, hb, h.aggregate]
      bounded := fun side i => by
        rcases hcase side i with ⟨rfl, rfl, -, hb⟩ | ⟨-, -, hb⟩
        · rw [hb]
          unfold OrderBook.restoredLevel
          dsimp only
          omega
        · rw [hb]
          exact h.bounded side i
      head := fun side i => by
        rcases hcase side i with ⟨rfl, rfl, hl, hb⟩ | ⟨-, hl, hb⟩
        · rw [hl, hb]
          exact (h.head _ _).snoc (hnot _ _) (restingBelow_notMem hk) hfirst
        · rw [hl, hb]
          exact h.head side i
      tail := fun side i => by
        rcases hcase side i with ⟨rfl, rfl, hl, hb⟩ | ⟨-, hl, hb⟩
        · rw [hl, hb]
          exact (h.tail _ _).snoc (hnot _ _) (restingBelow_notMem hk) hlast
        · rw [hl, hb]
          exact h.tail side i
      occupancy := fun side => by
        have hocc : (st.2.withResting k (records k)).occupancy side =
            update st.2.occupancy (records k).order.side ((st.2.occupancy (records k).order.side).set (records k).order.level) side := rfl
        rw [hocc]
        by_cases hs : side = (records k).order.side
        · subst hs
          rw [update_self]
          refine ((h.occupancy _).set hlevel).congr fun i _ => ?_
          rcases hcase (records k).order.side i with ⟨-, rfl, hl, -⟩ | ⟨hne, hl, -⟩
          · simp [hl]
          · rw [hl]
            exact ⟨fun he => he.resolve_left fun he => hne ⟨rfl, he⟩, .inr⟩
        · rw [update_of_ne hs]
          refine (h.occupancy side).congr fun i _ => ?_
          rcases hcase side i with ⟨he, -, -, -⟩ | ⟨-, hl, -⟩
          · exact absurd he hs
          · rw [hl]
      stopCount := by rw [hsleep]; exact h.stopCount
      stopHead := by rw [hsleep]; exact h.stopHead
      stopTail := by rw [hsleep]; exact h.stopTail }

/-- A resting record that passes has a level and a quantity. -/
theorem SlotRecord.level_lt {h : SnapshotHeader} {s : SlotRecord} (hs : s.invalidResting h = false) :
    s.order.level < h.tickCount ∧ 0 < s.order.remaining ∧ s.order.remaining ≤ h.maxQuantity := by
  simp only [SlotRecord.invalidResting, decide_eq_false_iff_not, not_or] at hs
  omega

/-- A round keeps what the loop has restored. -/
theorem Restored.round {h : SnapshotHeader} {b : Buffer} {start : OrderBook} {st st' : Nat × OrderBook} (hr : Restored (h.record b) start k st)
    (hk : k < kInvalidIndex) (hticks : h.tickCount = start.cfg.domain.tickCount) (hstep : restoreSlot h b st k = .ok st') :
    Restored (h.record b) start (k + 1) st' := by
  obtain ⟨-, -, -, ⟨hlive, hzero, rfl⟩ | ⟨hlive, hcount, hok⟩⟩ := restoreSlot_eq_ok.mp hstep
  · exact hr.dead hlive (SnapshotHeader.record_dead hlive hzero)
  · have hst : st' = (st.1 + 1, st'.2) := Prod.ext hcount rfl
    rw [hst]
    obtain ⟨hd, -, hfirst, hlast, hbook⟩ | ⟨hd, hvalid, hsum, hfirst, hlast, hbook⟩ := OrderBook.restoreLive_eq_ok.mp hok
    · rw [hbook]
      exact hr.stop hk hlive hd hfirst hlast
    · rw [hbook]
      have hlevel := (SlotRecord.level_lt hvalid).1
      rw [hticks, ← hr.settings.cfg] at hlevel
      exact hr.resting hk hlive hd hlevel (readLE_lt _ _ 8) hsum hfirst hlast

end Loop

/-! ## What is accepted -/

/-- What `decode` has checked of a header it lets through, but for its form. -/
structure SnapshotHeader.Sane (h : SnapshotHeader) : Prop where
  capacity : h.capacity ≤ kMaximumSnapshotSlots
  ticks_pos : 0 < h.tickCount
  ticks_le : h.tickCount ≤ kMaximumPriceLevels
  liveCount : h.liveCount ≤ h.capacity
  configuration : h.badConfiguration = false
  sequence : h.badSequenceState = false

/-- What `decode` has checked of the form of a header. -/
structure SnapshotHeader.Formed (h : SnapshotHeader) (b : Buffer) (size : Nat) : Prop where
  magic : b.slice 0 8 = kMagic
  version_pos : 1 ≤ h.version
  version_le : h.version ≤ kSnapshotFormatVersion
  malformed : h.malformed b = false
  length : size = h.expected
  declared : b.readLE 24 8 = h.expected
  checksum : snapshotCrc b size = b.readU32 kChecksumOffset

/-- The header is let through exactly if it is well formed and sane. -/
theorem SnapshotHeader.fault_eq_none {h : SnapshotHeader} {b : Buffer} {size : Nat} : h.fault b size = none ↔ h.Formed b size ∧ h.Sane := by
  have hheader : kLegacySnapshotHeaderSize ≤ h.headerSize := by
    unfold headerSize kLegacySnapshotHeaderSize kSnapshotHeaderSize
    split_ifs <;> decide
  have hheader' : h.headerSize ≤ kSnapshotHeaderSize := by
    unfold headerSize kLegacySnapshotHeaderSize kSnapshotHeaderSize
    split_ifs <;> decide
  have hslot : 0 < h.slotSize ∧ h.slotSize ≤ kSnapshotSlotSize := by
    unfold slotSize kSnapshotSlotSize
    split_ifs <;> decide
  simp only [fault, OrderBook.ite_some_eq_none, not_or, Nat.not_lt, not_not, and_true, Bool.not_eq_true]
  constructor
  · rintro ⟨-, hmagic, hversion, -, hform, hcap, hsize, hcrc, hticks, hlive, hconf, hseq⟩
    exact ⟨⟨hmagic, hversion.1, hversion.2, hform, hsize.1, hsize.2, hcrc⟩,
      ⟨hcap.1, Nat.pos_of_ne_zero hticks.1, hticks.2, hlive, hconf, hseq⟩⟩
  · rintro ⟨hf, hs⟩
    have hexpected : h.headerSize ≤ h.expected := Nat.le_add_right _ _
    refine ⟨?_, hf.magic, ⟨hf.version_pos, hf.version_le⟩, ?_, hf.malformed, ⟨hs.capacity, ?_⟩, ⟨hf.length, hf.declared⟩, hf.checksum,
      ⟨Nat.pos_iff_ne_zero.mp hs.ticks_pos, hs.ticks_le⟩, hs.liveCount, hs.configuration, hs.sequence⟩
    · rw [hf.length]
      omega
    · rw [hf.length]
      exact hexpected
    · rw [Nat.le_div_iff_mul_le hslot.1]
      have h1 := Nat.mul_le_mul hs.capacity hslot.2
      unfold kMaximumSnapshotSlots kSnapshotSlotSize at h1
      unfold kSnapshotHeaderSize at hheader'
      omega

/-- The engine before the slots are read, and the book that was constructed for it. -/
theorem SnapshotHeader.engine_eq_some {h : SnapshotHeader} {engine : SequencedEngine} (he : h.engine = some engine) :
    ∃ cfg book, OrderBook.create cfg (.ofRaw h.tradingState) = some book ∧ cfg.domain.minimum = h.minimum ∧ cfg.domain.tickCount = h.tickCount ∧
      cfg.maxOrders = h.capacity ∧ cfg.maxOrderQuantity = h.maxQuantity ∧ cfg.selfTradePolicy = .ofRaw h.selfTradePolicy ∧
      cfg.allocationMode = .ofRaw h.allocationMode ∧ cfg.proRataMinimum = checkedProRataMinimum (.ofRaw h.allocationMode) h.proRataMinimum ∧
      engine = ⟨{ book with lastExecutionPrice := h.lastExecutionPrice, arena := { book.arena with size := h.liveCount, freeHead := h.freeHead } },
        h.capacity, h.nextSequence, h.lastTime, h.exhausted = 1⟩ := by
  simp only [SnapshotHeader.engine, bind, Option.bind_eq_some_iff, Option.some.injEq] at he
  obtain ⟨domain, hdomain, cfg, hcfg, e, hcreate, rfl⟩ := he
  unfold PriceDomain.checked at hdomain
  split at hdomain
  · cases hdomain
    unfold BookConfig.checked at hcfg
    split at hcfg
    · split at hcfg
      · split at hcfg
        · split at hcfg
          · cases hcfg
            unfold SequencedEngine.create at hcreate
            split at hcreate
            · cases hcreate
            · obtain ⟨book, hbook, rfl⟩ := Option.map_eq_some_iff.mp hcreate
              exact ⟨_, book, hbook, rfl, rfl, rfl, rfl, rfl, rfl, rfl, rfl⟩
          · cases hcfg
        · cases hcfg
      · cases hcfg
    · cases hcfg
  · cases hdomain

/-- The last checks of a decode are of the free list and of the whole book. -/
theorem concludeDecode_returns {h : SnapshotHeader} {engine : SequencedEngine} {book : OrderBook} {s : DecodedSnapshot} :
    (concludeDecode h engine book).Returns (.ok s) ↔ (freeListIntact book.arena h.liveCount).Returns true ∧
      ∃ result book', book.checkInvariants.Returns (result, book') ∧ result.violation = .none ∧
        s = ⟨{ engine with orderBook := book' }, h.point⟩ := by
  unfold concludeDecode
  rw [returns_bind]
  constructor
  · rintro ⟨intact, hintact, hrest⟩
    cases intact with
    | false =>
      rw [if_pos (by decide), returns_pure] at hrest
      cases hrest
    | true =>
      rw [if_neg (by decide), returns_bind] at hrest
      obtain ⟨⟨result, book'⟩, hcheck, hrest⟩ := hrest
      dsimp only at hrest
      by_cases hv : result.violation ≠ .none
      · rw [if_pos hv, returns_pure] at hrest
        cases hrest
      · rw [if_neg hv, returns_pure, Except.ok.injEq] at hrest
        exact ⟨hintact, result, book', hcheck, not_not.mp hv, hrest.symm⟩
  · rintro ⟨hintact, result, book', hcheck, hv, rfl⟩
    refine ⟨true, hintact, ?_⟩
    rw [if_neg (by decide), returns_bind]
    refine ⟨(result, book'), hcheck, ?_⟩
    dsimp only
    rw [if_neg (not_not.mpr hv), returns_pure]

/-- What `decode` returns for bytes it accepts. -/
theorem decodeSnapshot_returns {bytes : List UInt8} {s : DecodedSnapshot} {h : SnapshotHeader} (hh : SnapshotHeader.read (ofList bytes) = h) :
    (decodeSnapshot bytes).Returns (.ok s) ↔ h.fault (ofList bytes) bytes.length = none ∧ ∃ engine book, h.engine = some engine ∧
      restoreSlots h (ofList bytes) engine.orderBook = .ok book ∧ (concludeDecode h engine book).Returns (.ok s) := by
  unfold decodeSnapshot
  dsimp only
  rw [hh]
  cases hf : h.fault (ofList bytes) bytes.length with
  | some error =>
    refine ⟨fun hr => ?_, fun hr => (by cases hr.1)⟩
    cases (returns_pure _ _).mp hr
  | none =>
    cases he : h.engine with
    | none =>
      refine ⟨fun hr => ?_, fun ⟨_, _, _, he, _⟩ => (by cases he)⟩
      cases (returns_pure _ _).mp hr
    | some engine =>
      dsimp only
      cases hs : restoreSlots h (ofList bytes) engine.orderBook with
      | error error =>
        refine ⟨fun hr => ?_, ?_⟩
        · cases (returns_pure _ _).mp hr
        · rintro ⟨-, engine', book, he', hbook, -⟩
          cases he'
          rw [hs] at hbook
          cases hbook
      | ok book =>
        refine ⟨fun hr => ⟨rfl, engine, book, rfl, hs, hr⟩, ?_⟩
        rintro ⟨-, engine', book', he', hbook, hr⟩
        cases he'
        rw [hs] at hbook
        cases hbook
        exact hr

/-- What the loop over the slots and the count of the live ones end with. -/
theorem restoreSlots_eq_ok {h : SnapshotHeader} {b : Buffer} {start book : OrderBook} : restoreSlots h b start = .ok book ↔
    (List.range h.capacity).foldlM (restoreSlot h b) (0, start) = .ok (h.liveCount, book) := by
  unfold restoreSlots
  cases hf : (List.range h.capacity).foldlM (restoreSlot h b) (0, start) with
  | error error => exact ⟨fun hr => (by cases hr), fun hr => (by cases hr)⟩
  | ok st =>
    obtain ⟨observed, book'⟩ := st
    show (if observed ≠ h.liveCount then Except.error SnapshotError.liveCountMismatch else Except.ok book') = .ok book ↔ _
    rw [Except.ok.injEq, Prod.mk.injEq]
    by_cases ho : observed = h.liveCount
    · rw [if_neg (not_not.mpr ho), Except.ok.injEq]
      exact ⟨fun hr => ⟨ho, hr⟩, fun hr => hr.2⟩
    · rw [if_pos ho]
      exact ⟨fun hr => (by cases hr), fun hr => absurd hr.1 ho⟩

/-- Before the loop nothing is restored. -/
theorem SnapshotHeader.restored_start {h : SnapshotHeader} {engine : SequencedEngine} (he : h.engine = some engine) (records : Nat → SlotRecord) :
    Restored records engine.orderBook 0 (0, engine.orderBook) := by
  obtain ⟨cfg, book, hbook, -, -, -, -, -, -, -, rfl⟩ := engine_eq_some he
  obtain ⟨bitmap, hbitmap, hholds⟩ := HierarchicalBitmap.create_holds cfg.domain.tickCount_pos (Nat.lt_of_le_of_lt cfg.ticks_le (by decide))
  rw [OrderBook.create, hbitmap] at hbook
  cases hbook
  have hnone : ∀ side i, restingBelow records 0 side i = [] := fun _ _ => rfl
  have hend : ∀ link, Links.End kInvalidIndex link [] kInvalidIndex := fun _ => .inl ⟨rfl, fun _ hx => (by cases hx)⟩
  exact
    { settings := ⟨rfl, rfl, rfl, rfl, rfl, rfl, rfl, rfl, rfl, rfl, rfl⟩
      observed := rfl
      slots := fun s hs => absurd hs (Nat.not_lt_zero s)
      count := fun _ _ => rfl
      aggregate := fun _ _ => rfl
      bounded := fun _ _ => Nat.two_pow_pos 64
      head := fun _ _ => hend _
      tail := fun _ _ => hend _
      occupancy := fun side => hholds.congr fun i _ => by simp [hnone]
      stopCount := rfl
      stopHead := hend _
      stopTail := hend _ }

section Accepted

variable {h : SnapshotHeader} {b : Buffer} {engine : SequencedEngine} {book : OrderBook}

/-- All slots are restored in the end. -/
theorem restored_of_ok (hs : h.Sane) (he : h.engine = some engine) (hok : restoreSlots h b engine.orderBook = .ok book) :
    Restored (h.record b) engine.orderBook h.capacity (h.liveCount, book) := by
  have hticks : h.tickCount = engine.orderBook.cfg.domain.tickCount := by
    obtain ⟨cfg, book, hbook, -, hticks, -, -, -, -, -, rfl⟩ := SnapshotHeader.engine_eq_some he
    obtain ⟨bitmap, -, rfl⟩ := Option.map_eq_some_iff.mp hbook
    exact hticks.symm
  refine Rounds.ends (SnapshotHeader.restored_start he _) (fun k hk st st' hr hstep => hr.round ?_ hticks hstep) (restoreSlots_eq_ok.mp hok)
  have hmax : kMaximumSnapshotSlots < kInvalidIndex := by decide
  have := hs.capacity
  omega

/-- A restored book can be checked. -/
theorem typed_of_ok (hs : h.Sane) (he : h.engine = some engine) (hok : restoreSlots h b engine.orderBook = .ok book) : book.Typed := by
  have hr := restored_of_ok hs he hok
  have ht : engine.orderBook.Typed := by
    obtain ⟨cfg, book, hbook, -, -, -, -, -, -, -, rfl⟩ := SnapshotHeader.engine_eq_some he
    obtain ⟨bitmap, hbitmap, rfl⟩ := Option.map_eq_some_iff.mp hbook
    exact
      { capacity := cfg.maxOrders_lt
        shape := fun side => ((SnapshotHeader.restored_start he (h.record b)).occupancy side).shape
        bits := fun side => ((SnapshotHeader.restored_start he (h.record b)).occupancy side).bits
        aggregate := fun _ _ _ => Nat.two_pow_pos 64
        marks := fun _ _ => Nat.le_refl _ }
  exact
    { capacity := hr.settings.capacity ▸ ht.capacity
      shape := fun side => (hr.occupancy side).shape
      bits := fun side => (hr.occupancy side).bits
      aggregate := fun side i _ => hr.bounded side i
      marks := fun s hlt => by
        rw [hr.settings.marks, hr.settings.epoch]
        exact ht.marks s (hr.settings.capacity ▸ hlt) }

theorem OrderBook.slotRecord_generation (book : OrderBook) (i : Nat) : (book.slotRecord i).generation = (book.arena.slots i).generation := by
  unfold slotRecord
  dsimp only
  split <;> rfl

/-- The free link of a record. -/
theorem OrderBook.slotRecord_freeNext (book : OrderBook) (i : Nat) : (book.slotRecord i).freeNext = (book.arena.slots i).freeNext := by
  unfold slotRecord
  dsimp only
  split <;> rfl

/-- A record tells whether its slot is live. -/
theorem OrderBook.slotRecord_live (book : OrderBook) (i : Nat) : (book.slotRecord i).live = if (book.arena.slots i).live then 1 else 0 := by
  unfold slotRecord
  dsimp only
  split <;> rfl

/-- What was read fits the fields it was read from. -/
theorem SlotRecord.read_fits {version : Nat} {b : Buffer} {offset : Nat} {book : OrderBook} {i : Nat} (hlive : (book.arena.slots i).live = true)
    (heq : book.slotRecord i = SlotRecord.read version b offset) : book.SlotFits i := by
  unfold OrderBook.slotRecord SlotRecord.read at heq
  dsimp only at heq
  rw [if_pos hlive, SlotRecord.mk.injEq] at heq
  obtain ⟨-, -, -, horder, htrader, hdisplay, hdisplayed, htrigger, hlimit, hprev, hnext⟩ := heq
  have hzero : Fits64 0 := ⟨by decide, by decide⟩
  have h8 : ∀ offset, b.readLE offset 8 < 2 ^ 64 := fun offset => readLE_lt b offset 8
  have h4 : ∀ offset, b.readLE offset 4 < 2 ^ 32 := fun offset => readLE_lt b offset 4
  refine ⟨?_, ?_, ?_, ?_, ?_, ?_, ?_, ?_, ?_, ?_, ?_, ?_, ?_⟩
  · exact (congrArg Order.id horder).trans_lt (h8 _)
  · exact (congrArg Order.remaining horder).trans_lt (h8 _)
  · exact (congrArg Order.prevIndex horder).trans_lt (h4 _)
  · exact (congrArg Order.nextIndex horder).trans_lt (h4 _)
  · exact (congrArg Order.encodedLevelSide horder).trans_lt (h4 _)
  · exact (congrArg Order.reservedFlags horder).trans_lt (h4 _)
  · rw [htrader]
    split
    · decide
    · exact h8 _
  · rw [hdisplay]
    split
    · exact h8 _
    · exact h8 _
  · rw [hdisplayed]
    split
    · exact h8 _
    · exact h8 _
  · rw [htrigger]
    split
    · exact hzero
    · exact toSigned64_range (h8 _)
  · rw [hlimit]
    split
    · exact hzero
    · exact toSigned64_range (h8 _)
  · rw [hprev]
    split
    · decide
    · exact h4 _
  · rw [hnext]
    split
    · decide
    · exact h4 _

/-- An accepted policy has its own byte. -/
theorem SelfTradePolicy.raw_ofRaw {raw : Nat} (h : raw ≤ 1) : (SelfTradePolicy.ofRaw raw).raw = raw := by
  obtain rfl | rfl : raw = 0 ∨ raw = 1 := by omega
  · rfl
  · rfl

/-- An accepted allocation mode has its own byte. -/
theorem AllocationMode.raw_ofRaw {raw : Nat} (h : raw ≤ 1) : (AllocationMode.ofRaw raw).raw = raw := by
  obtain rfl | rfl : raw = 0 ∨ raw = 1 := by omega
  · rfl
  · rfl

/-- An accepted trading state has its own byte. -/
theorem TradingState.raw_ofRaw {raw : Nat} (h : raw ≤ 1) : (TradingState.ofRaw raw).raw = raw := by
  obtain rfl | rfl : raw = 0 ∨ raw = 1 := by omega
  · rfl
  · rfl

/-- The bytes of an accepted header are in range. -/
theorem SnapshotHeader.Formed.raw_le {size : Nat} (hf : h.Formed b size) : h.selfTradePolicy ≤ 1 ∧ h.allocationMode ≤ 1 ∧ h.tradingState ≤ 1 := by
  have hm := hf.malformed
  have hv := hf.version_pos
  simp only [SnapshotHeader.malformed, decide_eq_false_iff_not, not_or] at hm
  omega

/-- What is stored in a book is what its header said. -/
theorem Restored.settings_eq (hr : Restored (h.record b) engine.orderBook h.capacity (h.liveCount, book)) (he : h.engine = some engine) :
    book.cfg.domain.minimum = h.minimum ∧ book.cfg.domain.tickCount = h.tickCount ∧ book.cfg.maxOrders = h.capacity ∧
      book.cfg.maxOrderQuantity = h.maxQuantity ∧ book.cfg.selfTradePolicy = .ofRaw h.selfTradePolicy ∧
      book.cfg.allocationMode = .ofRaw h.allocationMode ∧ book.arena.capacity = h.capacity ∧ book.arena.size = h.liveCount ∧
      book.arena.freeHead = h.freeHead ∧ book.lastExecutionPrice = h.lastExecutionPrice ∧ book.tradingState = .ofRaw h.tradingState ∧
      book.cfg.proRataMinimum = checkedProRataMinimum (.ofRaw h.allocationMode) h.proRataMinimum ∧ book.stopActivations = [] := by
  obtain ⟨h1, h2, h3, h4, h5, h6, h7, -, -, -, -⟩ := hr.settings
  dsimp only at h1 h2 h3 h4 h5 h6 h7
  obtain ⟨cfg, fresh, hfresh, c1, c2, c3, c4, c5, c6, c7, rfl⟩ := SnapshotHeader.engine_eq_some he
  obtain ⟨bitmap, -, rfl⟩ := Option.map_eq_some_iff.mp hfresh
  rw [h1, h2, h3, h4, h5, h6, h7]
  exact ⟨c1, c2, c3, c4, c5, c6, c3, rfl, rfl, rfl, rfl, c7, rfl⟩

/-- The header of what was accepted is the one it was read from, in the newest version. -/
theorem header_of_ok {size : Nat} (hf : h.Formed b size) (hs : h.Sane) (he : h.engine = some engine)
    (hok : restoreSlots h b engine.orderBook = .ok book) :
    SequencedEngine.header { engine with orderBook := book } h.point = { h with version := kSnapshotFormatVersion } := by
  obtain ⟨hpolicy, hmode, hstate⟩ := hf.raw_le
  obtain ⟨s1, s2, -, s4, s5, s6, s7, s8, s9, s10, s11, s12, -⟩ := (restored_of_ok hs he hok).settings_eq he
  have hexhausted : h.exhausted ≤ 1 := by
    have := hs.sequence
    simp only [SnapshotHeader.badSequenceState, decide_eq_false_iff_not, not_or, Nat.not_lt] at this
    exact this.2.1
  have hminimum : checkedProRataMinimum (.ofRaw h.allocationMode) h.proRataMinimum = h.proRataMinimum := by
    have := hs.configuration
    simp only [SnapshotHeader.badConfiguration, decide_eq_false_iff_not, not_or, not_and, not_not] at this
    obtain hm | hm : h.allocationMode = 0 ∨ h.allocationMode = 1 := by omega
    · rw [hm, this.2.1 hm]
      rfl
    · rw [hm]
      rfl
  have hengine : engine.sequenceExhausted = decide (h.exhausted = 1) ∧ engine.nextSequence = h.nextSequence ∧ engine.lastLogicalTime = h.lastTime := by
    obtain ⟨cfg, fresh, -, -, -, -, -, -, -, -, rfl⟩ := SnapshotHeader.engine_eq_some he
    exact ⟨rfl, rfl, rfl⟩
  unfold SequencedEngine.header
  dsimp only
  rw [s1, s2, s4, s5, s6, s7, s8, s9, s10, s11, s12, hminimum, hengine.1, hengine.2.1, hengine.2.2, SelfTradePolicy.raw_ofRaw hpolicy,
    AllocationMode.raw_ofRaw hmode, TradingState.raw_ofRaw hstate]
  obtain hx | hx : h.exhausted = 0 ∨ h.exhausted = 1 := by omega
  · simp [hx]
  · simp [hx]

/-- What was accepted fits the fields of the newest version. -/
theorem fits_of_ok (hh : SnapshotHeader.read b = h) (hs : h.Sane) (he : h.engine = some engine)
    (hok : restoreSlots h b engine.orderBook = .ok book) : book.Fits := by
  have hr := restored_of_ok hs he hok
  obtain ⟨-, -, -, -, -, -, s7, s8, s9, s10, -, -, -⟩ := hr.settings_eq he
  have hslot : ∀ i < book.arena.capacity, book.slotRecord i = h.record b i := fun i hi => hr.slots i (s7 ▸ hi)
  have hmax : kMaximumSnapshotSlots < 2 ^ 32 := by decide
  exact
    { capacity := s7 ▸ hs.capacity
      size := by
        have h1 := hs.capacity
        have h2 := hs.liveCount
        omega
      freeHead := by
        rw [s9, ← hh]
        exact readLE_lt b 56 4
      lastPrice := fun price hprice => by
        rw [s10, ← hh] at hprice
        unfold SnapshotHeader.read at hprice
        dsimp only at hprice
        split at hprice
        · cases hprice
          exact toSigned64_range (readLE_lt b 100 8)
        · cases hprice
      generation := fun i hi => by
        rw [← book.slotRecord_generation, hslot i hi]
        exact readLE_lt b _ 4
      freeNext := fun i hi => by
        rw [← book.slotRecord_freeNext, hslot i hi]
        exact readLE_lt b _ 4
      live := fun i hi hlive => SlotRecord.read_fits hlive (hslot i hi) }

end Accepted

/-! ## What is encoded -/

/-- The header of an encoded engine is well formed. -/
theorem SequencedEngine.header_formed {engine : SequencedEngine} {point : SnapshotPoint} (hfits : engine.orderBook.Fits) :
    (engine.header point).Formed (ofList (snapshotBytes engine point)) (snapshotBytes engine point).length := by
  have hread : ∀ offset width value, (⟨offset, width, value⟩ : Field) ∈ snapshotHeaderFields engine point
      (snapshotSize engine.orderBook.arena.capacity) → value < 256 ^ width →
      (ofList (snapshotBytes engine point)).readLE offset width = value := fun offset width value hf hlt =>
    snapshotBytes_readLE (f := ⟨offset, width, value⟩) (headerField_mem hf) hlt
  have hexpected : (engine.header point).expected = snapshotSize engine.orderBook.arena.capacity := rfl
  have hsize := snapshotSize_lt hfits.capacity
  have hflag := hread 108 4 (if engine.orderBook.lastExecutionPrice.isSome then 1 else 0) (by simp [snapshotHeaderFields]) (by split <;> decide)
  have hprice := hread 100 8 (toUnsigned64 (engine.orderBook.lastExecutionPrice.getD 0)) (by simp [snapshotHeaderFields]) (toUnsigned64_lt _)
  have hlast : ¬(1 < (ofList (snapshotBytes engine point)).readLE 108 4 ∨
      ((ofList (snapshotBytes engine point)).readLE 108 4 = 0 ∧ (ofList (snapshotBytes engine point)).readLE 100 8 ≠ 0)) := by
    rw [hflag, hprice]
    cases engine.orderBook.lastExecutionPrice with
    | none => simp [toUnsigned64]
    | some price => simp
  exact
    { magic := snapshotBytes_magic
      version_pos := (by decide : 1 ≤ kSnapshotFormatVersion)
      version_le := Nat.le_refl _
      malformed := by
        simp only [SnapshotHeader.malformed, decide_eq_false_iff_not, not_or]
        refine ⟨not_not.mpr ?_, not_not.mpr ?_, fun hv => ?_, fun hv => ?_, fun hv => ?_, fun hv => hlast hv.2, ?_, ?_⟩
        · exact hread 12 4 kSnapshotHeaderSize (by simp [snapshotHeaderFields]) (by decide)
        · exact hread 16 4 kSnapshotSlotSize (by simp [snapshotHeaderFields]) (by decide)
        · exact absurd hv.1 (by decide : kSnapshotFormatVersion ≠ 1)
        · exact absurd hv.2 (Nat.not_lt.mpr engine.orderBook.cfg.selfTradePolicy.raw_le)
        · exact absurd hv.1 (by decide : ¬kSnapshotFormatVersion < 4)
        · exact Nat.not_lt.mpr engine.orderBook.cfg.allocationMode.raw_le
        · exact Nat.not_lt.mpr engine.orderBook.tradingState.raw_le
      length := by rw [hexpected, snapshotBytes_length]
      declared := by
        rw [hexpected]
        exact hread 24 8 _ (by simp [snapshotHeaderFields]) (by omega)
      checksum := by
        rw [snapshotBytes_length]
        exact snapshotBytes_checksum }

/-- What a slot of an encoded engine is read as. -/
theorem SequencedEngine.header_record {engine : SequencedEngine} {point : SnapshotPoint} {i : Nat} (hfits : engine.orderBook.Fits)
    (hi : i < engine.orderBook.arena.capacity) :
    (engine.header point).record (ofList (snapshotBytes engine point)) i = engine.orderBook.slotRecord i := read_slot hfits hi

/-- The bytes of a slot of an encoded engine that hold no field are zero. -/
theorem SequencedEngine.header_allZero {engine : SequencedEngine} {point : SnapshotPoint} {i : Nat} (hi : i < engine.orderBook.arena.capacity) :
    (ofList (snapshotBytes engine point)).allZero ((engine.header point).slotOffset i + 9) 3 = true ∧
      ((engine.orderBook.arena.slots i).live = false →
        (ofList (snapshotBytes engine point)).allZero ((engine.header point).slotOffset i + 12) ((engine.header point).slotSize - 12) = true) := by
  have hoffset : (engine.header point).slotOffset i = snapshotSlotOffset i := rfl
  have hslot : (engine.header point).slotSize = kSnapshotSlotSize := rfl
  rw [hoffset, hslot]
  refine ⟨allZero_iff.mpr fun p hp => ?_, fun hdead => allZero_iff.mpr fun p hp => ?_⟩
  · have hlt : 9 + p < kSnapshotSlotSize := by
      unfold kSnapshotSlotSize
      omega
    rw [Nat.add_assoc]
    exact slotByte_zero hi hlt (slotField_covers hlt (.inl ⟨by omega, by omega⟩))
  · have hlt : 12 + p < kSnapshotSlotSize := by omega
    rw [Nat.add_assoc]
    exact slotByte_zero hi hlt (slotField_covers hlt (.inr (.inr ⟨hdead, by omega⟩)))

section Newest

variable {h : SnapshotHeader} {b : Buffer} {s : SlotRecord}

/-- A stop that passes in its version passes in the newest. -/
theorem SlotRecord.invalidStop_newest (hs : s.invalidStop h = false) : s.invalidStop { h with version := kSnapshotFormatVersion } = false := by
  simp only [SlotRecord.invalidStop, decide_eq_false_iff_not, not_or] at hs ⊢
  exact ⟨by decide, hs.2⟩

/-- What an old version does not store is as the newest wants it. -/
theorem SlotRecord.invalidResting_newest {version : Nat} {offset : Nat} (hversion : h.version = version)
    (hs : (SlotRecord.read version b offset).invalidResting h = false) :
    (SlotRecord.read version b offset).invalidResting { h with version := kSnapshotFormatVersion } = false := by
  have hold : version < 4 → (SlotRecord.read version b offset).stopTriggerPrice = 0 ∧ (SlotRecord.read version b offset).stopLimitPrice = 0 ∧
      (SlotRecord.read version b offset).stopPrevIndex = 0 ∧ (SlotRecord.read version b offset).stopNextIndex = 0 := by
    intro hlt
    simp only [SlotRecord.read, if_pos hlt, and_self]
  generalize SlotRecord.read version b offset = s at hs hold
  unfold SlotRecord.invalidResting at hs ⊢
  rw [decide_eq_false_iff_not] at hs ⊢
  simp only [not_or, hversion] at hs ⊢
  refine ⟨hs.1, hs.2.1, hs.2.2.1, hs.2.2.2.1, hs.2.2.2.2.1, hs.2.2.2.2.2.1, hs.2.2.2.2.2.2.1, hs.2.2.2.2.2.2.2.1, ?_, hs.2.2.2.2.2.2.2.2.2⟩
  have hstop := hs.2.2.2.2.2.2.2.2.1
  rintro ⟨-, hne⟩
  by_cases hlt : version < 4
  · have := hold hlt
    omega
  · exact hstop ⟨by omega, hne⟩

end Newest

end MatchingEngine

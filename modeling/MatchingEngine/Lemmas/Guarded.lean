import MatchingEngine.Guarded
import MatchingEngine.Lemmas.Decide

/-!
# The guards of the check never fail

Every access that `check_invariants` makes to an order, a mark or another array of the arena's length lies inside the arena: the check
with its accesses guarded does what the check does, on any book.
-/

namespace MatchingEngine

open Comp

namespace OrderBook

variable {b : OrderBook} {side : Side} {i epoch : Nat} {p : Progress}

/-- A read at a slot of the arena is allowed. -/
theorem readAt_of_lt {α : Type} {elements : Nat → α} {index : Nat} (h : index < b.arena.capacity) :
    b.readAt elements index = some (elements index) := if_pos h

/-- So is the read of its order. -/
theorem readOrder_of_lt {index : Nat} (h : index < b.arena.capacity) : b.readOrder index = some (b.arena.orderAt index) := by
  rw [readOrder, readAt_of_lt h]
  rfl

/-- So is the write of its mark. -/
theorem writeMark_of_lt {index : Nat} (h : index < b.arena.capacity) : b.writeMark epoch index p = some (p.visit epoch index) := if_pos h

/-- Whether an index is live is asked of any index. -/
@[simp] theorem readLive_eq (index : Nat) : b.readLive index = some (b.arena.isLiveIndex index) := by
  unfold readLive OrderArena.isLiveIndex
  by_cases h : index < b.arena.capacity
  · rw [if_pos h, readAt_of_lt h]
    simp [h]
  · rw [if_neg h]
    simp [h]

/-- The checks of a level read nothing else. -/
theorem guardedLevelFault_eq (priceLevel : PriceLevel) : b.guardedLevelFault priceLevel = some (b.levelFault priceLevel) := by
  unfold guardedLevelFault levelFault
  by_cases hhead : priceLevel.headIndex < b.arena.capacity
  · by_cases htail : priceLevel.tailIndex < b.arena.capacity
    · simp only [readLive_eq, Option.bind_eq_bind, Option.bind_some, readOrder_of_lt hhead, readOrder_of_lt htail, Option.pure_def,
        ite_not, apply_ite some]
    · simp only [readLive_eq, Option.bind_eq_bind, Option.bind_some, readOrder_of_lt hhead, Nat.le_of_not_lt htail, if_true,
        Option.pure_def, apply_ite some]
  · simp only [Nat.le_of_not_lt hhead, if_true, apply_ite some]

/-- The checks of an order read its own slot, which is known to be one by then. -/
theorem guardedOrderFault_eq (marks : Nat → Nat) (current previous walked : Nat) :
    b.guardedOrderFault side i epoch marks current previous walked = some (b.orderFault side i epoch marks current previous walked) := by
  unfold guardedOrderFault orderFault
  by_cases hlt : current < b.arena.capacity
  · simp only [readLive_eq, Option.bind_eq_bind, Option.bind_some, readAt_of_lt hlt, readOrder_of_lt hlt, Option.pure_def, apply_ite some]
  · simp only [Nat.le_of_not_lt hlt, if_true]

/-- The check of the successor reads it only where it is a slot. -/
theorem guardedNextFault_eq {current : Nat} (h : current < b.arena.capacity) :
    b.guardedNextFault current = some (b.nextFault current) := by
  unfold guardedNextFault nextFault
  simp only [readLive_eq, Option.bind_eq_bind, Option.bind_some, readOrder_of_lt h]
  by_cases hlt : (b.arena.orderAt current).nextIndex < b.arena.capacity
  · simp only [readOrder_of_lt hlt, Option.bind_some, Option.pure_def, apply_ite some]
  · simp only [Nat.le_of_not_lt hlt, if_true, Option.pure_def, apply_ite some]

/-- One round of the walk along a level. -/
theorem guardedWalkRound_eq (w : Walk) : b.guardedWalkRound side i epoch w = some (b.walkRound side i epoch w) := by
  unfold guardedWalkRound walkRound
  dsimp only
  split
  · rfl
  simp only [guardedOrderFault_eq, Option.bind_eq_bind, Option.bind_some]
  cases hf : b.orderFault side i epoch w.progress.marks w.current w.previous w.walkedQuantity with
  | some violation => rfl
  | none =>
    have hlt := OrderArena.lt_of_isLiveIndex (orderFault_eq_none.mp hf).1.live
    simp only [writeMark_of_lt hlt, guardedNextFault_eq hlt, readOrder_of_lt hlt, Option.bind_some]
    cases b.nextFault w.current with
    | some fault => rfl
    | none => rfl

/-- A loop whose guards never fail is the loop without them. -/
theorem guardedLoop_eq {σ ρ : Type} {guarded : σ → Option (Turn σ ρ)} {round : σ → Turn σ ρ} (h : ∀ s, guarded s = some (round s)) (s : σ) :
    guardedLoop guarded s = OptionT.lift (Comp.loop (fun s => pure (round s)) s) := by
  refine loop_map id some (fun s => ?_) s
  rw [id, h s, map_pure]
  cases round s with
  | done r => rfl
  | next s' => rfl

/-- The walk along a level, by its rounds. -/
theorem guardedWalkLevel_eq (w : Walk) : b.guardedWalkLevel side i epoch w = OptionT.lift (b.walkLevel side i epoch w) := by
  rw [guardedWalkLevel, walkLevel_eq]
  exact guardedLoop_eq guardedWalkRound_eq w

/-- The check of a level. -/
theorem guardedCheckLevel_eq : b.guardedCheckLevel side i epoch p = OptionT.lift (b.checkLevel side i epoch p) := by
  unfold guardedCheckLevel checkLevel
  dsimp only
  split
  · rfl
  split
  · split
    · rfl
    · rfl
  simp only [guardedLevelFault_eq]
  cases b.levelFault (b.level side i) with
  | some fault => rfl
  | none =>
    dsimp only
    rw [guardedWalkLevel_eq, OptionT.lift_bind]
    refine bind_congr fun r => ?_
    repeat' split
    all_goals rfl

/-- The checks of a side, by induction on the levels left. -/
theorem guardedCheckSideInvariants_eq {count : Nat} :
    b.guardedCheckSideInvariants side epoch count i p = OptionT.lift (b.checkSideInvariants side epoch count i p) := by
  induction count generalizing i p with
  | zero => rfl
  | succ count ih =>
    rw [guardedCheckSideInvariants, checkSideInvariants, guardedCheckLevel_eq, OptionT.lift_bind]
    refine bind_congr fun r => ?_
    dsimp only
    split
    · rfl
    · exact ih

/-- One round of the walk along the stops. -/
theorem guardedStopRound_eq (st : Nat × Nat × Progress) : b.guardedStopRound epoch st = some (b.stopRound epoch st) := by
  obtain ⟨stop, previous, p⟩ := st
  unfold guardedStopRound stopRound
  dsimp only
  split
  · rfl
  by_cases hlt : stop < b.arena.capacity
  · rw [if_neg (Nat.not_le.mpr hlt)]
    simp only [readLive_eq, Option.bind_eq_bind, Option.bind_some, readAt_of_lt hlt, readOrder_of_lt hlt, writeMark_of_lt hlt]
    cases hlive : b.arena.isLiveIndex stop with
    | false => simp
    | true =>
      by_cases hmark : p.marks stop = epoch
      · simp [hmark]
      · by_cases hprev : b.stopPrevIndices stop = previous
        · simp only [hmark, hprev, Nat.not_le.mpr hlt, Bool.not_true, Bool.false_eq_true, if_false, ne_eq, not_true, or_false]
          split
          · rfl
          · rfl
        · simp [hmark, hprev, hlt]
  · rw [if_pos (Nat.not_lt.mp hlt), if_pos (Or.inl (Nat.not_lt.mp hlt))]

/-- The walk along the stops, by its rounds. -/
theorem guardedCheckStops_eq : b.guardedCheckStops epoch p = OptionT.lift (b.checkStops epoch p) := by
  rw [guardedCheckStops, checkStops_eq]
  exact guardedLoop_eq guardedStopRound_eq _

/-- The pass over the slots, by induction on the slots left. -/
theorem guardedCheckSlots_eq {count index : Nat} (h : index + count ≤ b.arena.capacity) :
    b.guardedCheckSlots epoch p count index = some (b.checkSlots epoch p count index) := by
  induction count generalizing index with
  | zero => rfl
  | succ count ih =>
    have hlt : index < b.arena.capacity := by omega
    rw [guardedCheckSlots, checkSlots]
    simp only [readLive_eq, Option.bind_eq_bind, Option.bind_some, readAt_of_lt hlt, readOrder_of_lt hlt,
      ih (show index + 1 + count ≤ b.arena.capacity by omega)]
    repeat' split
    all_goals rfl

/-- The whole check makes no read or write outside the arena. -/
theorem guardedCheckGraph_eq : b.guardedCheckGraph = OptionT.lift b.checkGraph := by
  unfold guardedCheckGraph checkGraph
  dsimp only
  rw [guardedCheckStops_eq, OptionT.lift_bind]
  refine bind_congr fun ⟨result, lastStop, p⟩ => ?_
  cases result with
  | some result => rfl
  | none =>
    dsimp only
    split
    · rfl
    split
    · rfl
    rw [guardedCheckSideInvariants_eq, OptionT.lift_bind]
    refine bind_congr fun ⟨result, p⟩ => ?_
    cases result with
    | some result => rfl
    | none =>
      dsimp only
      rw [guardedCheckSideInvariants_eq, OptionT.lift_bind]
      refine bind_congr fun ⟨result, p⟩ => ?_
      cases result with
      | some result => rfl
      | none =>
        dsimp only
        rw [guardedCheckSlots_eq (Nat.le_of_eq (Nat.zero_add _))]
        cases b.checkSlots b.visitEpoch p b.arena.capacity 0 with
        | some result => rfl
        | none => rfl

/-- The check with its accesses guarded does what the check does, on any book. -/
theorem guardedCheckInvariants_eq (b : OrderBook) : b.guardedCheckInvariants = OptionT.lift b.checkInvariants := by
  rw [guardedCheckInvariants, checkInvariants_eq]
  split
  · rfl
  split
  · rfl
  · exact guardedCheckGraph_eq

end OrderBook

end MatchingEngine

import MatchingEngine.Lemmas.Guarded

/-!
# The invariant check decides validity

Whatever the orders, links, levels and bitmap words of a book are, `check_invariants` returns, stays inside the arena, and finds nothing
exactly if the book is a valid graph.
-/

namespace MatchingEngine

open Comp

namespace OrderBook

/-- A new book is typed. -/
theorem Typed.create {cfg : BookConfig} {state : TradingState} {b : OrderBook} (h : OrderBook.create cfg state = some b) : b.Typed := by
  obtain ⟨bm, hbm, hholds⟩ := HierarchicalBitmap.create_holds cfg.domain.tickCount_pos (Nat.lt_of_le_of_lt cfg.ticks_le (by decide))
  rw [OrderBook.create, hbm] at h
  cases h
  exact ⟨cfg.maxOrders_lt, fun _ => hholds.shape, fun _ => hholds.bits, fun _ _ _ => Nat.two_pow_pos 64, fun _ _ => Nat.le_refl _⟩

/-- A check leaves a typed book typed. -/
theorem Typed.checkInvariants {b b' : OrderBook} {result : InvariantResult} (ht : b.Typed)
    (h : b.checkInvariants.Returns (result, b')) : b'.Typed := by
  obtain ⟨m, e, rfl, hm⟩ := checkInvariants_marked (Nat.le_refl _) ht.marks h
  exact ht.withMarks hm

end OrderBook

/-- On any contents `check_invariants` returns, with no access outside the arena, and finds nothing exactly if the book is the graph of
some lists; and the book it leaves can be checked again. -/
theorem checkInvariants_decides (b : OrderBook) (ht : b.Typed) :
    ∃ result b', b.checkInvariants.Returns (result, b') ∧ b.guardedCheckInvariants.run.Returns (some (result, b')) ∧ b'.Typed ∧
      (result.violation = .none ↔ b.Valid) := by
  obtain ⟨⟨result, b'⟩, hr⟩ := b.checkInvariants_terminates
  refine ⟨result, b', hr, ?_, ht.checkInvariants hr, fun hv => OrderBook.checkInvariants_sound ht hr hv, ?_⟩
  · rw [OrderBook.guardedCheckInvariants_eq, OptionT.run_lift, returns_bind]
    exact ⟨_, hr, (returns_pure _ _).mpr rfl⟩
  · rintro ⟨stops, queues, hg⟩
    obtain ⟨b'', hr'⟩ := hg.checkInvariants ht
    cases hr.unique hr'
    rfl

/-- A book with three live orders, the first two linked to each other, on every level of both sides. -/
def OrderBook.knotted (b : OrderBook) : OrderBook :=
  { b with
    arena :=
      { b.arena with
        slots := fun index =>
          { order := ⟨1, 5, if index = 1 then 0 else kInvalidIndex, if index = 0 then 1 else if index = 1 then 0 else kInvalidIndex, 0, 0⟩
            generation := 1
            freeNext := kInvalidIndex
            live := true
            releases := 0
            serial := 0 }
        size := 3 }
    levels := fun _ _ => ⟨0, 2, 15, 3⟩
    displayQuantities := fun _ => 5
    displayedRemaining := fun _ => 5 }

/-- The check of such a book. -/
theorem checkInvariants_decides_knotted : ∃ b, OrderBook.create (BookConfig.small 4 (by decide) .cancelTaker) .continuous = some b ∧
    ∃ result b', b.knotted.checkInvariants.Returns (result, b') ∧ b.knotted.guardedCheckInvariants.run.Returns (some (result, b')) ∧
      b'.Typed ∧ (result.violation = .none ↔ b.knotted.Valid) := by
  have hsome : (OrderBook.create (BookConfig.small 4 (by decide) .cancelTaker) .continuous).isSome = true := by decide +kernel
  obtain ⟨b, hb⟩ := Option.isSome_iff_exists.mp hsome
  have ht := OrderBook.Typed.create hb
  exact ⟨b, hb, checkInvariants_decides b.knotted ⟨ht.capacity, ht.shape, ht.bits, fun _ _ _ => (by decide : 15 < 2 ^ 64), ht.marks⟩⟩

end MatchingEngine

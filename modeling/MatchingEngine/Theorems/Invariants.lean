import MatchingEngine.Lemmas.Population

/-!
# The invariants of a reachable book

Under FIFO allocation `check_invariants` finds nothing in any reachable book, and the book has the invariants it checks.
-/

namespace MatchingEngine

open Comp

/-- What a sound book is: its live orders are within bounds, each level's aggregate is the sum of its orders, the live slots are those
of the queues and of the stop list, each once, and in continuous trading the best bid is below the best ask. -/
structure OrderBook.Sound (b : OrderBook) : Prop where
  accepted : ∃ result b', b.checkInvariants.Returns (result, b') ∧ result.violation = .none
  remaining : ∀ s, b.arena.isLiveIndex s = true → 0 < (b.arena.orderAt s).remaining ∧ (b.arena.orderAt s).remaining ≤ b.cfg.maxOrderQuantity
  displayed : ∀ s, b.arena.isLiveIndex s = true → (b.arena.orderAt s).dormant = false →
    0 < b.displayedRemaining s ∧ b.displayedRemaining s ≤ min (b.displayQuantities s) (b.arena.orderAt s).remaining
  aggregate : ∀ side i, (b.level side i).aggregateQuantity = ((b.levelSlots side i).map fun s => (b.arena.orderAt s).remaining).sum
  disjoint : b.reachableSlots.Nodup
  live : ∀ s, s ∈ b.reachableSlots ↔ b.arena.isLiveIndex s = true
  uncrossed : b.tradingState = .continuous → ∀ bid ask, b.bestBid = some bid → b.bestAsk = some ask → bid < ask

/-- A book that represents a bounded and uncrossed ladder is sound. -/
theorem Rep.sound {gh : Prop} {cfg : BookConfig} {b : OrderBook} {L : Ladder} (h : Rep gh cfg b L) (hnone : L.held = none)
    (hb : L.Bounded cfg) (hu : L.tradingState = .continuous → L.Uncrossed) : b.Sound := by
  have hlive : ∀ s, b.arena.isLiveIndex s = true → s < cfg.maxOrders ∧ L.place s ≠ .free := by
    intro s hs
    have hlt : s < cfg.maxOrders := by
      rw [OrderArena.isLiveIndex, Bool.and_eq_true, decide_eq_true_eq, h.arena.capacity] at hs
      exact hs.1
    exact ⟨hlt, (h.isLiveIndex hlt).mp hs⟩
  have horder : ∀ s, b.arena.isLiveIndex s = true →
      (∃ side i e, e ∈ L.queue side i ∧ e.slot = s) ∨ ∃ d ∈ L.stops, d.slot = s := by
    intro s hs
    have hmem := (h.wf.mem_liveSlots hnone).mpr (hlive s hs)
    rw [Ladder.liveSlots, List.append_assoc, List.mem_append] at hmem
    rcases hmem with hmem | hmem
    · obtain ⟨d, hd, rfl⟩ := List.mem_map.mp hmem
      exact Or.inr ⟨d, hd, rfl⟩
    · left
      rcases List.mem_append.mp hmem with hmem | hmem
      all_goals
        obtain ⟨i, -, hi⟩ := List.mem_flatMap.mp hmem
        obtain ⟨e, he, rfl⟩ := List.mem_map.mp hi
        exact ⟨_, i, e, he, rfl⟩
  refine ⟨?_, fun s hs => ?_, fun s hs hd => ?_, fun side i => ?_, ?_, fun s => ?_, fun hts bid ask hbid hask => ?_⟩
  · obtain ⟨b', hr, -⟩ := h.checkInvariants hnone (hb.total_lt h.wf) hu
    exact ⟨_, b', hr, rfl⟩
  · rw [h.cfg_eq]
    rcases horder s hs with ⟨side, i, e, he, rfl⟩ | ⟨d, hd, rfl⟩
    · rw [(h.entries side i e he).remaining]
      exact ⟨Nat.lt_of_lt_of_le e.displayed_pos e.displayed_le_remaining, hb.entry he⟩
    · rw [(h.dormants d hd).remaining]
      exact ⟨d.remaining_pos, hb.stop hd⟩
  · rcases horder s hs with ⟨side, i, e, he, rfl⟩ | ⟨d, hd', rfl⟩
    · have hat := h.entries side i e he
      rw [hat.displayed, hat.display, hat.remaining]
      exact ⟨e.displayed_pos, Nat.le_min.mpr ⟨e.displayed_le, e.displayed_le_remaining⟩⟩
    · rw [Order.dormant, (h.dormants d hd').flags, Dormant.flags] at hd
      cases d.limit <;> simp [kOrderFlagDormantStop, kOrderFlagStopMarket] at hd
  · have hagg := h.queues.aggregate side i
    rw [OrderBook.level, hagg, Ladder.levelQuantity, Nat.mod_eq_of_lt (hb.total_lt h.wf side i), Ladder.total, h.levelSlots,
      List.map_map]
    exact congrArg List.sum (List.map_congr_left fun e he => (h.entries side i e he).remaining.symm)
  · rw [h.reachableSlots]
    exact h.wf.liveSlots_nodup
  · rw [h.reachableSlots, h.wf.mem_liveSlots hnone]
    refine ⟨fun hs => (h.isLiveIndex hs.1).mpr hs.2, hlive s⟩
  · rw [OrderBook.bestBid, h.bestIndex, h.cfg_eq, Option.bind_eq_some_iff] at hbid
    rw [OrderBook.bestAsk, h.bestIndex, h.cfg_eq, Option.bind_eq_some_iff] at hask
    obtain ⟨i, hi, hbid⟩ := hbid
    obtain ⟨j, hj, hask⟩ := hask
    have := hu (h.tradingState ▸ hts) i j (Ladder.best_eq_some hi).2.1 (Ladder.best_eq_some hj).2.1
    rw [(cfg.domain.priceAt_eq_some.mp hbid).2, (cfg.domain.priceAt_eq_some.mp hask).2]
    omega

/-- Every book reachable under FIFO allocation, by any calls that return and in either trading state, is sound. -/
theorem run_sound {cfg : BookConfig} {state : TradingState} {calls : List (Op × Outcome)} {b : OrderBook}
    (hfifo : cfg.allocationMode = .fifo) (h : OrderBook.Run cfg state calls b) : b.Sound := by
  obtain ⟨L, hrun, hrepr, hnone⟩ := h.ladder
  exact hrepr.sound hnone (hrun.bounded hfifo) (hrun.uncrossed hfifo)

/-- A run of three calls that trade, and the sound book it ends in. -/
theorem run_sound_three_calls : ∃ calls b,
    OrderBook.execute (BookConfig.small 4 (by decide) .cancelTaker) .continuous 20
      [.submitLimit 1 7 0 101 5 0 4, .submitIceberg 2 8 1 101 9 2 4, .submitStop 3 1 100 4 4] = some (calls, b) ∧
    calls.length = 3 ∧ b.Sound := by
  have hsome : (OrderBook.execute (BookConfig.small 4 (by decide) .cancelTaker) .continuous 20
      [.submitLimit 1 7 0 101 5 0 4, .submitIceberg 2 8 1 101 9 2 4, .submitStop 3 1 100 4 4]).any
        (fun r => r.1.length = 3) = true := by decide +kernel
  rw [Option.any_eq_true] at hsome
  obtain ⟨⟨calls, b⟩, h, hlen⟩ := hsome
  exact ⟨calls, b, h, by simpa using hlen, run_sound rfl (OrderBook.Run.of_execute h)⟩

end MatchingEngine

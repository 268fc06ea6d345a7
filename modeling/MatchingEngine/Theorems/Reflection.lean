import MatchingEngine.Lemmas.Population
import MatchingEngine.Lemmas.Reflection

/-!
# Continuous trading is symmetric

Every run of a book in continuous trading has a mirror image: the reflected calls give the reflected outcomes, call by call, and leave the
reflected book. It holds under every allocation mode and self-trade policy.
-/

namespace MatchingEngine

open Comp

namespace Ladder

variable {cfg : BookConfig} {state : TradingState} {L L' : Ladder} {op : Op} {out : Outcome} {calls : List (Op × Outcome)}

/-! ## Runs in the mirror -/

/-- Continuous trading goes on. -/
theorem Effect.continuous (hw : L.Wf cfg) (hnone : L.held = none) (hstate : L.tradingState = .continuous) (h : Effect cfg L op out L') :
    L'.tradingState = .continuous := by
  cases h with
  | refused _ _ hsame =>
    rcases hsame with rfl | rfl
    · exact hstate
    · exact hstate
  | entered ha hm hr hc =>
    have hs := ha.sound hw hnone
    have hw2 := hr.wf (hm.wf hs.wf) hs.level
    have hnone2 : _ = none := hr.held.trans ((hm.kept hs.wf).held.trans hs.held)
    rw [cascade_tradingState hw2 hnone2 hc, hr.tradingState, (hm.kept hs.wf).tradingState, ha.tradingState hw, hstate]
  | lost _ _ hq _ _ _ _ _ => exact (hw.reset.removed hq).1.trans hstate
  | slept _ _ _ _ _ _ hrest _ =>
    obtain ⟨free, -, rfl⟩ := (restStop_slept hrest).room
    exact hstate
  | fired _ _ _ _ hcont _ hrest _ hact hc =>
    have hsl := restStop_slept hrest
    obtain ⟨hw1, hnone1⟩ := hsl.wf hw.reset hnone
    rw [← List.append_nil L.stops] at hact
    obtain ⟨free, -, rfl⟩ := hsl.room
    obtain ⟨-, -, -, hw2, hnone2⟩ := hact.wf hw1 hnone1 rfl
    rw [cascade_tradingState hw2 hnone2 hc, hact.tradingState hw1 hnone1 rfl]
    exact hstate
  | cancelMissed _ => exact hstate
  | cancelled hloc =>
    obtain ⟨l, r, hq, -⟩ := resolve_resting hloc
    exact (hw.removed hq).1.trans hstate
  | cancelledStop hloc =>
    obtain ⟨l, r, hs, -⟩ := resolve_dormant hloc
    rw [removeStop_eq hs (hw.stop_ne_of_split hs).1]
    exact hstate
  | amendRefused _ => exact hstate
  | amended hloc _ _ _ => exact hstate
  | amendedStop hloc _ _ _ => exact hstate
  | uncrossRefused _ => exact hstate
  | opened hauction _ => cases hauction.symm.trans hstate
  | uncrossed hauction _ _ _ => cases hauction.symm.trans hstate

theorem Run.continuous (h : Run cfg .continuous calls L) : L.tradingState = .continuous :=
  h.invariant (I := fun _ L => L.tradingState = .continuous) rfl fun _ _ _ _ _ hw hnone hstate heffect => heffect.continuous hw hnone hstate

theorem Run.reflect (h : Run cfg .continuous calls L) : Run cfg .continuous (calls.map (reflectCall cfg.domain)) (L.reflect cfg.domain) := by
  induction h with
  | create => exact .create
  | @apply calls L L' op out before returned ih =>
    rw [List.map_append]
    refine .apply ih ?_
    rw [L.apply_reflect before.continuous, map_eq_pure_bind, returns_bind]
    exact ⟨_, returned, (returns_pure _ _).mpr rfl⟩

/-- The calls decide a run. -/
theorem Run.unique {calls' : List (Op × Outcome)} (h : Run cfg state calls L) (h' : Run cfg state calls' L')
    (hops : calls'.map Prod.fst = calls.map Prod.fst) : calls' = calls ∧ L' = L := by
  induction h generalizing calls' L' with
  | create =>
    cases h' with
    | create => exact ⟨rfl, rfl⟩
    | apply _ _ => simp at hops
  | apply _ hr ih =>
    cases h' with
    | create => simp at hops
    | apply hbefore hr' =>
      rw [List.map_append, List.map_append] at hops
      obtain ⟨hfirst, hlast⟩ := List.append_inj' hops rfl
      obtain ⟨rfl, rfl⟩ := ih hbefore hfirst
      cases hlast
      cases hr.unique hr'
      exact ⟨rfl, rfl⟩

end Ladder

/-! ## Books in the mirror -/

section Books

variable {cfg : BookConfig} {b b' : OrderBook} {L : Ladder} {gh gh' : Prop}

/-- What a handle shows in the mirror. -/
theorem Rep.orderInfo_reflect (h : Rep gh cfg b L) (hnone : L.held = none) (handle : Handle) :
    (L.reflect cfg.domain).orderInfo cfg handle = (L.orderInfo cfg handle).map (OrderInfo.reflect cfg.domain (b.placeholder handle)) := by
  rw [Ladder.orderInfo, Ladder.orderInfo, L.reflect_resolve]
  rcases h.resolve hnone handle with ⟨-, h2⟩ | ⟨side, i, l, e, r, h2, hq, hh, -⟩ | ⟨l, d, r, h2, hs, hh, -⟩
  · rw [h2]
    rfl
  · have he : e ∈ L.queue side i := by rw [hq]; simp
    have hplaceholder : b.placeholder handle = false := by
      rw [OrderBook.placeholder, hh]
      exact congrArg (· && _) (h.entry_dormant he)
    rw [h2, hplaceholder]
    simp only [Option.map_some, Ladder.Located.reflect, OrderInfo.reflect, cfg.domain.reflect_price (h.wf.level_lt he), Bool.false_eq_true,
      if_false]
  · have hd : d ∈ L.stops := by rw [hs]; simp
    have hplaceholder : b.placeholder handle = d.limit.isNone := by
      rw [OrderBook.placeholder, hh]
      show ((b.arena.orderAt d.slot).dormant && (b.arena.orderAt d.slot).stopMarket) = d.limit.isNone
      rw [h.stop_dormant hd, Bool.true_and, Order.stopMarket, (h.dormants d hd).flags, Dormant.flags]
      cases d.limit <;> simp [kOrderFlagDormantStop, kOrderFlagStopMarket]
    rw [h2, hplaceholder]
    cases hlimit : d.limit <;> simp [Ladder.Located.reflect, Dormant.reflect, OrderInfo.reflect, hlimit]

/-- Books that represent a ladder and its reflection are reflections of each other. -/
theorem Rep.mirrors (h : Rep gh cfg b L) (h' : Rep gh' cfg b' (L.reflect cfg.domain)) (hnone : L.held = none) : b.Mirrors b' := by
  have hnone' : (L.reflect cfg.domain).held = none := by
    rw [Ladder.reflect, hnone]
    rfl
  have hbest (best : Option Nat) : (best.map cfg.domain.reflectLevel).bind cfg.domain.priceAt =
      (best.bind cfg.domain.priceAt).map cfg.domain.reflect := by
    cases best with
    | none => rfl
    | some i => exact cfg.domain.priceAt_reflectLevel i
  refine ⟨?_, ?_, ?_, ?_, ?_, ?_, ?_, ?_, ?_, ?_, ?_⟩
  · exact h'.tradingState.trans h.tradingState.symm
  · rw [h'.lastPrice, h.lastPrice, h.cfg_eq]
    rfl
  · exact h'.activations.trans h.activations.symm
  · rw [h'.bestBid, h.bestAsk, h.cfg_eq, Ladder.bestBid, Ladder.bestAsk, L.reflect_best, hbest]
    rfl
  · rw [h'.bestAsk, h.bestBid, h.cfg_eq, Ladder.bestBid, Ladder.bestAsk, L.reflect_best, hbest]
    rfl
  · intro side price
    rw [h'.levelInfo, h.levelInfo, h.cfg_eq, Ladder.levelInfo, Ladder.levelInfo, Side.ofRaw_reflectRaw, cfg.domain.indexOf_reflect]
    cases Side.ofRaw side with
    | none => rfl
    | some side =>
      cases cfg.domain.indexOf price with
      | none => rfl
      | some i =>
        dsimp only [Option.map_some]
        rw [L.reflect_levelQuantity, L.reflect_queue, Side.opposite_opposite]
  · intro side i
    rw [h'.levelSlots, h.levelSlots, h.cfg_eq, L.reflect_queue, Side.opposite_opposite]
  · intro side i s hs
    rw [h.levelSlots] at hs
    obtain ⟨e, he, rfl⟩ := List.mem_map.mp hs
    have he' : e ∈ (L.reflect cfg.domain).queue side.opposite (cfg.domain.reflectLevel i) := by
      rw [L.reflect_queue, Side.opposite_opposite]
      exact he
    have hat := h.entries side i e he
    have hat' := h'.entries _ _ e he'
    exact ⟨hat'.id.trans hat.id.symm, hat'.remaining.trans hat.remaining.symm, hat'.trader.trans hat.trader.symm,
      hat'.display.trans hat.display.symm, hat'.displayed.trans hat.displayed.symm⟩
  · rw [h'.stopSlots, h.stopSlots]
    exact List.map_map
  · intro s hs
    rw [h.stopSlots] at hs
    obtain ⟨d, hd, rfl⟩ := List.mem_map.mp hs
    have hat' := h'.dormants _ (List.mem_map_of_mem hd)
    rw [h.cfg_eq, (h.dormants d hd).trigger]
    exact hat'.trigger
  · intro handle
    rw [h'.orderInfo hnone', h.orderInfo hnone, h.cfg_eq]
    exact h.orderInfo_reflect hnone handle

end Books

/-- The mirror image of a run: the reflected calls have a run, and every run of them gives the reflected outcomes and the reflected book. -/
theorem run_reflects {cfg : BookConfig} {calls : List (Op × Outcome)} {b : OrderBook} (h : OrderBook.Run cfg .continuous calls b) :
    (∃ b', OrderBook.Run cfg .continuous (calls.map (reflectCall cfg.domain)) b') ∧
    ∀ calls' b', OrderBook.Run cfg .continuous calls' b' → calls'.map Prod.fst = calls.map (fun call => call.1.reflect cfg.domain) →
      calls' = calls.map (reflectCall cfg.domain) ∧ b.Mirrors b' := by
  obtain ⟨L, hL, hrep, hnone⟩ := h.ladder
  have hL' := hL.reflect
  refine ⟨?_, ?_⟩
  · obtain ⟨b', hb', -⟩ := hL'.book
    exact ⟨b', hb'⟩
  · intro calls' b' hb' hops
    obtain ⟨L', hrun, hrep', hnone'⟩ := hb'.ladder
    obtain ⟨rfl, rfl⟩ := hL'.unique hrun (by rw [hops, List.map_map]; rfl)
    exact ⟨rfl, hrep.mirrors hrep' hnone⟩

/-- A market stop waits, an ask at its trigger rests, and a bid takes part of the ask and sets off the stop. -/
def askTaken : List Op := [.submitStop 1 0 103 2 4, .submitLimit 2 7 1 103 5 0 4, .submitLimit 3 8 0 103 1 0 4]

/-- The mirror image of such a run. -/
theorem run_reflects_askTaken : ∃ calls b b', OrderBook.Run (BookConfig.small 4 (by decide) .none) .continuous calls b ∧
    calls.map Prod.fst = askTaken ∧
    OrderBook.Run (BookConfig.small 4 (by decide) .none) .continuous (calls.map (reflectCall (BookConfig.small 4 (by decide) .none).domain)) b' ∧
    b.Mirrors b' := by
  have hsome : (OrderBook.execute (BookConfig.small 4 (by decide) .none) .continuous 20 askTaken).any (fun r => r.1.map Prod.fst = askTaken) =
      true := by decide +kernel
  rw [Option.any_eq_true] at hsome
  obtain ⟨⟨calls, b⟩, h, hops⟩ := hsome
  obtain ⟨⟨b', hb'⟩, hall⟩ := run_reflects (OrderBook.Run.of_execute h)
  exact ⟨calls, b, b', OrderBook.Run.of_execute h, of_decide_eq_true hops, hb', (hall _ _ hb' (by rw [List.map_map]; rfl)).2⟩

end MatchingEngine

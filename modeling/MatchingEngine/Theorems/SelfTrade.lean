import MatchingEngine.Lemmas.Traders

/-!
# Self-trade prevention

Under `cancel_taker` no trade has the same trader on both sides, in continuous trading or in the opening uncross, as long as no order of
a trader is replaced: `replace` resubmits the order under the anonymous id 0, and from then on nothing keeps it from trading with its
trader's other orders.
-/

namespace MatchingEngine

open Comp

/-- A labelling that gives every accepted order the trader it was submitted under. -/
def OwnedBy (owner : Nat → Nat) (calls : List (Op × Outcome)) : Prop :=
  ∀ call ∈ calls, ¬call.2.reply.Rejects → ∀ order ∈ OrderBook.submittedTrader call.1, owner order.1 = order.2

instance (owner : Nat → Nat) (calls : List (Op × Outcome)) : Decidable (OwnedBy owner calls) :=
  inferInstanceAs (Decidable (∀ call ∈ calls, _))

/-- A replace that passes its own checks, with room for the reports, of an order that has a trader. -/
def OrderBook.Disowns (b : OrderBook) : Op → Prop
  | .replace handle newPrice newQuantity tradesSize =>
    b.preflightReplace handle newPrice newQuantity = .none ∧ b.requiredTradeCapacity ≤ tradesSize ∧ b.traderIds handle.index ≠ 0
  | _ => False

/-- The checks of a replace pass for every resting order, valid quantity and price of the domain. -/
theorem Rep.preflightReplace_eq_none {gh : Prop} {cfg : BookConfig} {b : OrderBook} {L : Ladder} (h : Rep gh cfg b L)
    (hnone : L.held = none) {handle : Handle} {side : Side} {i quantity : Nat} {price : Int} {e : Entry}
    (hloc : L.resolve cfg handle = some (.resting side i e)) (hpos : 0 < quantity) (hle : quantity ≤ cfg.maxOrderQuantity)
    (hprice : (cfg.domain.indexOf price).isSome) :
    b.preflightReplace handle price quantity = .none ∧ b.traderIds handle.index = e.trader := by
  rcases h.resolve hnone handle with ⟨-, h2⟩ | ⟨side', j, l, e', r, h2, hq, hh, h1⟩ | ⟨l, d, r, h2, hs, hh, h1⟩
  · rw [hloc] at h2
    cases h2
  · rw [hloc, Option.some.injEq, Ladder.Located.resting.injEq] at h2
    obtain ⟨rfl, rfl, rfl⟩ := h2
    have he : e ∈ L.queue side i := by rw [hq]; simp
    have hindex : handle.index = e.slot := by rw [hh]; rfl
    have hpre : cfg.preflight side.raw quantity = .ok side := by
      unfold BookConfig.preflight
      rw [Side.ofRaw_raw]
      dsimp only
      rw [if_neg (by omega), if_neg (by omega)]
    refine ⟨?_, by rw [hindex, (h.entries side i e he).trader]⟩
    unfold OrderBook.preflightReplace OrderBook.preflight
    rw [h1]
    simp only [h.entry_dormant he, Bool.false_eq_true, if_false, h.entry_side he, h.cfg_eq, hpre, hprice, if_true]
  · rw [hloc] at h2
    cases h2

theorem Rep.replaces_anonymous {gh : Prop} {cfg : BookConfig} {b : OrderBook} {L : Ladder} (h : Rep gh cfg b L)
    (hnone : L.held = none) {op : Op} (hok : ¬b.Disowns op) : L.Replaces cfg op fun e => e.trader = 0 := by
  rintro handle price quantity size rfl hsize hpos hle hprice side i e hloc
  obtain ⟨hpre, htrader⟩ := h.preflightReplace_eq_none hnone hloc hpos hle hprice
  by_contra hne
  refine hok ⟨hpre, ?_, by rw [htrader]; exact hne⟩
  rw [OrderBook.requiredTradeCapacity, h.arena.capacity]
  exact hsize

/-- In every run under `cancel_taker` and FIFO allocation, from either trading state, in which no replace that passes its checks is of
an order that has a trader: no trade has orders of the same trader on both sides. -/
theorem self_trade_prevented {cfg : BookConfig} {state : TradingState} {calls : List (Op × Outcome)} {b : OrderBook}
    {owner : Nat → Nat} (hfifo : cfg.allocationMode = .fifo) (hpolicy : cfg.selfTradePolicy = .cancelTaker)
    (h : OrderBook.RunIn (fun b op => ¬b.Disowns op) cfg state calls b) (howned : OwnedBy owner calls) :
    ∀ call ∈ calls, ∀ trade ∈ call.2.trades, owner trade.buyId ≠ owner trade.sellId := by
  obtain ⟨L, hrun, -, -⟩ := h.ladder (fun L op => L.Replaces cfg op fun e => e.trader = 0)
    fun _ _ _ hrepr hnone hok => hrepr.replaces_anonymous hnone hok
  have key := hrun.invariant
    (I := fun calls L => OwnedBy owner calls → L.Apart ∧ L.Owned owner ∧ ∀ call ∈ calls, Ladder.Fair owner call.2.trades)
    (fun _ => ⟨fun _ _ _ _ hx => absurd hx List.not_mem_nil, ⟨nofun, nofun, nofun⟩, nofun⟩) ?_ howned
  · exact key.2.2
  · intro calls L op out L' hrun hi hok he howned
    obtain ⟨ha, ho, hf⟩ := hi fun call hcall => howned call (List.mem_append_left _ hcall)
    have hl : ¬out.reply.Rejects → Ladder.Labelled cfg owner L op := fun hacc =>
      { submits := fun id trader hsub => howned (op, out) (by simp) hacc (id, trader) hsub
        replaces := by
          intro handle price quantity size hop hsize hpos hle hprice side i e hloc
          obtain ⟨l, r, hq, -⟩ := Ladder.resolve_resting hloc
          rw [← ho.entry (e := e) (i := i) (by rw [hq]; simp)]
          exact hok handle price quantity size hop hsize hpos hle hprice side i e hloc }
    obtain ⟨hfair, ho'⟩ := he.fair hfifo hpolicy hrun.wf hrun.held ha ho hl
    refine ⟨he.apart hrun.wf hrun.held hpolicy ha, ho', fun call hcall => ?_⟩
    rcases List.mem_append.mp hcall with hcall | hcall
    · exact hf call hcall
    · rw [List.mem_singleton.mp hcall]
      exact hfair

/-- The labelling of the runs below: order 3 is of trader 8, every other of trader 7. -/
def tradersOfRun (id : Nat) : Nat := if id = 3 then 8 else 7

/-- A bid of trader 7 is refused where it would meet its own ask, and a bid of trader 8 trades there. -/
theorem self_trade_prevented_two_traders : ∃ calls b,
    OrderBook.execute (BookConfig.small 4 (by decide) .cancelTaker) .continuous 20
      [.submitLimit 1 7 1 103 5 0 4, .submitLimit 2 7 0 103 5 0 4, .submitLimit 3 8 0 103 5 0 4] = some (calls, b) ∧
    calls.map (fun call => call.2.trades) = [[], [], [⟨3, 1, 103, 5⟩]] ∧
    ∀ call ∈ calls, ∀ trade ∈ call.2.trades, tradersOfRun trade.buyId ≠ tradersOfRun trade.sellId := by
  have hsome : (OrderBook.execute (BookConfig.small 4 (by decide) .cancelTaker) .continuous 20
      [.submitLimit 1 7 1 103 5 0 4, .submitLimit 2 7 0 103 5 0 4, .submitLimit 3 8 0 103 5 0 4]).any (fun r =>
        r.1.map (fun call => call.2.trades) = [[], [], [⟨3, 1, 103, 5⟩]] && OwnedBy tradersOfRun r.1) = true := by decide +kernel
  rw [Option.any_eq_true] at hsome
  obtain ⟨⟨calls, b⟩, h, hb⟩ := hsome
  rw [Bool.and_eq_true, decide_eq_true_eq, decide_eq_true_eq] at hb
  have hrun := OrderBook.RunIn.of_execute (fun b op => ¬b.Disowns op) (fun b op hop => by
    simp only [List.mem_cons, List.not_mem_nil, or_false] at hop
    rcases hop with rfl | rfl | rfl <;> exact id) h
  exact ⟨calls, b, h, hb.1, self_trade_prevented rfl rfl hrun hb.2⟩

/-- An ask of trader 7 at 103 is replaced at 102, and the bid of the same trader at 102 trades with it. -/
theorem self_trade_after_replace : ∃ calls b,
    OrderBook.Run (BookConfig.small 4 (by decide) .cancelTaker) .continuous calls b ∧ OwnedBy tradersOfRun calls ∧
    ∃ call ∈ calls, ∃ trade ∈ call.2.trades, tradersOfRun trade.buyId = 7 ∧ tradersOfRun trade.sellId = 7 := by
  have hsome : (OrderBook.execute (BookConfig.small 4 (by decide) .cancelTaker) .continuous 20
      [.submitLimit 1 7 1 103 5 0 4, .replace ⟨0, 1⟩ 102 5 4, .submitLimit 2 7 0 102 5 0 4]).any (fun r =>
        OwnedBy tradersOfRun r.1 && decide (∃ call ∈ r.1, ∃ trade ∈ call.2.trades, tradersOfRun trade.buyId = 7 ∧
          tradersOfRun trade.sellId = 7)) = true := by decide +kernel
  rw [Option.any_eq_true] at hsome
  obtain ⟨⟨calls, b⟩, h, hb⟩ := hsome
  rw [Bool.and_eq_true, decide_eq_true_eq, decide_eq_true_eq] at hb
  exact ⟨calls, b, OrderBook.Run.of_execute h, hb.1, hb.2⟩

end MatchingEngine

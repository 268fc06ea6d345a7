import MatchingEngine.Lemmas.Takers
import MatchingEngine.Theorems.Handles
import MatchingEngine.Theorems.Opening
import MatchingEngine.Theorems.Rejections

/-!
# Fill or kill

The walk of `can_fully_fill` over the levels and the matching of the order it lets through are two algorithms. Under FIFO allocation and
no self-trade policy they agree: the order is accepted exactly when the orders in its reach hold its quantity, hidden quantity included,
and then it takes just that.
-/

namespace MatchingEngine

open Comp Finset

namespace OrderBook

/-- What the orders of the other side have left, in all, at the prices at which an order with this limit may trade. -/
def crossingQuantity (b : OrderBook) (side : Side) (limit : Nat) : Nat :=
  ∑ i ∈ (range b.cfg.domain.tickCount).filter (fun i => crosses side i limit = true), b.restingAt side.opposite i

/-- One round of the loop of `can_fully_fill`: its state is the level it has got to and `available`. -/
def canFullyFillRound (b : OrderBook) (side : Side) (limitIndex quantity : Nat) (st : Option Nat × Nat) :
    Comp (Turn (Option Nat × Nat) Bool) :=
  match st.1 with
  | none => pure (.done false)
  | some makerLevel =>
    if crosses side makerLevel limitIndex then
      let levelQuantity := (b.level side.opposite makerLevel).aggregateQuantity
      let needed := sub64 quantity st.2
      let available := add64 st.2 (min levelQuantity needed)
      if available = quantity then pure (.done true)
      else pure (.next (b.nextLevel side.opposite makerLevel, available))
    else pure (.done false)

theorem canFullyFill_eq (b : OrderBook) (side : Side) (limitIndex quantity : Nat) :
    b.canFullyFill side limitIndex quantity =
      Comp.loop (b.canFullyFillRound side limitIndex quantity) (b.bestIndex side.opposite, 0) := rfl

/-- The running sum of the walk is exact and stays within the quantity it looks for, whatever the levels say. -/
theorem canFullyFill_sum (b : OrderBook) (side : Side) (limitIndex quantity : Nat) (hlt : quantity < 2 ^ 64) {st : Option Nat × Nat}
    (h : Rounds (b.canFullyFillRound side limitIndex quantity) (b.bestIndex side.opposite, 0) st) :
    st.2 ≤ quantity ∧ sub64 quantity st.2 = quantity - st.2 ∧
      ∀ levelQuantity, add64 st.2 (min levelQuantity (quantity - st.2)) = st.2 + min levelQuantity (quantity - st.2) ∧
        st.2 + min levelQuantity (quantity - st.2) ≤ quantity := by
  have hle : st.2 ≤ quantity := by
    refine h.invariant (I := fun st => st.2 ≤ quantity) (fun st st' hst hn => ?_) (Nat.zero_le _)
    have hsub : sub64 quantity st.2 = quantity - st.2 := sub64_eq hst hlt
    have hadd : ∀ x, add64 st.2 (min x (quantity - st.2)) = st.2 + min x (quantity - st.2) := fun x => add64_eq (by omega)
    unfold canFullyFillRound at hn
    split at hn
    · simp at hn
    · split at hn
      · dsimp only at hn
        rw [hsub, hadd] at hn
        split at hn
        · simp at hn
        · rw [returns_pure, Turn.next.injEq] at hn
          rw [← hn]
          dsimp only
          omega
      · simp at hn
  exact ⟨hle, sub64_eq hle hlt, fun x => ⟨add64_eq (by omega), by omega⟩⟩

end OrderBook

variable {cfg : BookConfig} {b : OrderBook} {L : Ladder}

theorem Rep.crossingQuantity {gh : Prop} (h : Rep gh cfg b L) (side : Side) (limit : Nat) :
    b.crossingQuantity side limit = L.available cfg side limit := by
  rw [OrderBook.crossingQuantity, Ladder.available, h.cfg_eq]
  exact sum_congr rfl fun i _ => h.restingAt _ _

/-- A fill at a crossing level is reported at a price within the limit. -/
theorem Taker.report_price {t : Taker} {f : Fill} {price : Int} {i : Nat} (hprice : cfg.domain.indexOf price = some i)
    (hcross : crosses t.side f.level i = true) :
    (t.report cfg f = makeTrade t.side t.id f.makerId (t.report cfg f).price f.quantity) ∧ (t.report cfg f).quantity = f.quantity ∧
      match t.side with
      | .buy => (t.report cfg f).price ≤ price
      | .sell => price ≤ (t.report cfg f).price := by
  have heq := (cfg.domain.indexOf_eq_some.mp hprice).2
  unfold Taker.report
  cases hs : t.side with
  | buy =>
    rw [hs, crosses, decide_eq_true_iff] at hcross
    refine ⟨rfl, rfl, ?_⟩
    simp only [makeTrade]
    omega
  | sell =>
    rw [hs, crosses, decide_eq_true_iff] at hcross
    refine ⟨rfl, rfl, ?_⟩
    simp only [makeTrade]
    omega

/-- What an accepted fill-or-kill order reports: it has executed all of its quantity, with reports that come before those of the stops
it triggers, at prices no worse than its limit, and nothing of it rests. -/
structure FullyFilled (id quantity : Nat) (side : Side) (price : Int) (result : SubmitResult) (trades : List Trade) : Prop where
  result : result = ⟨.none, quantity, 0, trades.length, kInvalidHandle⟩
  trades : ∃ own later, trades = own ++ later ∧ (own.map Trade.quantity).sum = quantity ∧ ∀ trade ∈ own,
    (∃ makerId, trade = makeTrade side id makerId trade.price trade.quantity) ∧
      match side with
      | .buy => trade.price ≤ price
      | .sell => price ≤ trade.price

/-- A fill-or-kill order on the ladder: it is refused, and then its quantity is not available, or it takes all of its quantity. -/
theorem Ladder.submitLimit_fok {L' : Ladder} (hfifo : cfg.allocationMode = .fifo) (hpolicy : cfg.selfTradePolicy = .none) (hw : L.Wf cfg)
    (hnone : L.held = none) (hb : L.Bounded cfg) (hcont : L.tradingState = .continuous) {id trader quantity size i : Nat} {raw : UInt8}
    {price : Int} {side : Side} (hside : Side.ofRaw raw = some side) (hprice : cfg.domain.indexOf price = some i) (hpos : 0 < quantity)
    (hle : quantity ≤ cfg.maxOrderQuantity) {result : SubmitResult} {trades : List Trade}
    (h : (L.submitLimit cfg id trader raw price quantity TimeInForce.fok.raw size).Returns (result, trades, L')) :
    (result.rejectReason ≠ .none ∧ (cfg.maxOrders ≤ size → L.available cfg side i < quantity)) ∨
      (quantity ≤ L.available cfg side i ∧ FullyFilled id quantity side price result trades ∧ L'.accepted = L.accepted) := by
  have hlt := BookConfig.quantity_lt hle
  have hfill : L.reset.canFill cfg side i quantity = true ↔ quantity ≤ L.available cfg side i :=
    canFill_iff (L := L.reset) fun side j => hb.total_lt hw side j
  rcases submitLimit_returns h with ⟨reason, hne, rfl, -, -, hwhy⟩ | ⟨side', i', tif, -, hp, -, hent⟩
  · refine Or.inl ⟨hne, fun hsize => ?_⟩
    by_contra hav
    have hp : Passed cfg L.reset raw price quantity TimeInForce.fok.raw side i .fok :=
      { named := hside, pos := hpos, le := hle, level := hprice, time := TimeInForce.ofRaw_raw _
        state := fun hts => by
          rw [show L.reset.tradingState = L.tradingState from rfl, hcont] at hts
          cases hts
        fillable := fun _ => hfill.mpr (Nat.not_lt.mp hav), room := nofun }
    obtain ⟨-, hpol, -⟩ := hwhy side i .fok hsize hp
    rw [hpolicy] at hpol
    cases hpol
  · have hs : side' = side := Option.some.inj (hp.named.symm.trans hside)
    have hi : i' = i := Option.some.inj (hp.level.symm.trans hprice)
    have ht : tif = .fok := by
      have := hp.time
      rw [TimeInForce.ofRaw_raw, Option.some.injEq] at this
      exact this.symm
    subst hs hi ht
    have hav := hfill.mp (hp.fillable rfl)
    obtain ⟨w, handle, L1, hm, hr, hcas, rfl⟩ := enter_returns hent
    have hrun : (Sweep.run cfg ⟨id, trader, side', some i'⟩ ⟨L.reset, quantity, []⟩).Returns w := by
      rcases hm with ⟨-, hrun⟩ | ⟨hts, -⟩
      · exact hrun
      · exact absurd hcont hts
    obtain ⟨htook, hsum⟩ := Sweep.run_fills hfifo rfl hlt hw.reset hrun
    have htaken := htook.taken
    have hsum' : (w.fills.map Fill.quantity).sum = quantity := hsum.trans (Nat.min_eq_left hav)
    have hrem : w.remaining = 0 := by omega
    have hrest : handle = kInvalidHandle ∧ L1 = w.ladder := by
      rcases hr with ⟨hf, -, -⟩ | ⟨-, h1, h2⟩
      · cases hf
      · exact ⟨h1, h2⟩
    obtain ⟨rfl, rfl⟩ := hrest
    have hkept := Sweep.run_kept hw.reset hrun
    obtain ⟨hacc, later, hlater⟩ := cascade_appends (Sweep.run_wf hw.reset hrun) (hkept.held.trans hnone) hcas
    refine Or.inr ⟨hav, ⟨?_, _, later, hlater, ?_, fun trade htrade => ?_⟩, hacc.trans hkept.accepted⟩
    · rw [hrem, sub64_eq (Nat.zero_le _) hlt]
      rfl
    · exact (report_sum _ _).trans hsum'
    · obtain ⟨f, hf, rfl⟩ := List.mem_map.mp htrade
      obtain ⟨heq, hquantity, hprice'⟩ := Taker.report_price (t := ⟨id, trader, side', some i'⟩) hprice (htook.levels f hf).2
      exact ⟨⟨f.makerId, by rw [hquantity]; exact heq⟩, hprice'⟩

/-- In every reachable book in continuous trading, under FIFO allocation and no self-trade policy, a fill-or-kill limit order of a valid
side, price and quantity is accepted exactly when the orders it may trade with hold its quantity; accepted, it executes all of it within
its limit and leaves no order, and rejected, it leaves the book as it was. The walk that decides it never wraps, whatever a book's levels
say. -/
theorem fok_fills_or_kills {cfg : BookConfig} {state : TradingState} {calls : List (Op × Outcome)} {b : OrderBook}
    (run : OrderBook.Run cfg state calls b) (hfifo : cfg.allocationMode = .fifo) (hpolicy : cfg.selfTradePolicy = .none)
    (hcont : b.tradingState = .continuous) (id trader : Nat) (raw : UInt8) {side : Side} (hside : Side.ofRaw raw = some side) (price : Int)
    {i : Nat} (hprice : cfg.domain.indexOf price = some i) (quantity : Nat) (hpos : 0 < quantity)
    (hle : quantity ≤ cfg.maxOrderQuantity) (tradesSize : Nat) :
    (∃ result trades b', (b.submitLimit id trader raw price quantity TimeInForce.fok.raw tradesSize).Returns (result, trades, b') ∧
      (b.requiredTradeCapacity ≤ tradesSize → (result.rejectReason = .none ↔ quantity ≤ b.crossingQuantity side i)) ∧
      (result.rejectReason = .none → FullyFilled id quantity side price result trades ∧ ∀ n, b'.LiveOrder n → b.LiveOrder n) ∧
      (result.rejectReason ≠ .none → trades = [] ∧ b' = b.resetStopActivations)) ∧
    ∀ (c : OrderBook) (taker : Side) (limit sought : Nat), sought < 2 ^ 64 →
      c.canFullyFill taker limit sought =
        Comp.loop (c.canFullyFillRound taker limit sought) (c.bestIndex taker.opposite, 0) ∧
      ∀ st, Rounds (c.canFullyFillRound taker limit sought) (c.bestIndex taker.opposite, 0) st →
        st.2 ≤ sought ∧ sub64 sought st.2 = sought - st.2 ∧
          ∀ levelQuantity, add64 st.2 (min levelQuantity (sought - st.2)) = st.2 + min levelQuantity (sought - st.2) ∧
            st.2 + min levelQuantity (sought - st.2) ≤ sought := by
  refine ⟨?_, fun c taker limit sought hlt => ⟨c.canFullyFill_eq _ _ _, fun st hst => c.canFullyFill_sum _ _ _ hlt hst⟩⟩
  obtain ⟨L, hrun, hrepr, hnone⟩ := run.ladder
  have hw := hrepr.wf
  have hcap : b.requiredTradeCapacity = cfg.maxOrders := hrepr.arena.capacity
  obtain ⟨⟨result, trades, L'⟩, hret⟩ :=
    Ladder.submitLimit_terminates hfifo hpolicy hw hnone id trader raw price quantity TimeInForce.fok.raw tradesSize
  obtain ⟨⟨result', trades', b'⟩, hbook, h1, h2, hrepr', hnone'⟩ := (hrepr.submitLimit hnone _ _ _ _ _ _ _).2 _ hret
  obtain rfl : result' = result := h1
  obtain rfl : trades' = trades := h2
  have hcases := Ladder.submitLimit_fok hfifo hpolicy hw hnone (hrun.bounded hfifo) (hrepr.tradingState.symm.trans hcont) hside hprice
    hpos hle hret
  refine ⟨result', trades', b', hbook, fun hsize => ?_, fun haccepted => ?_, fun hrejected => ?_⟩
  · rw [hrepr.crossingQuantity]
    rcases hcases with ⟨hne, hshort⟩ | ⟨hav, hfilled, -⟩
    · have := hshort (hcap ▸ hsize)
      exact ⟨fun hacc => absurd hacc hne, fun hge => by omega⟩
    · rw [hfilled.result]
      exact ⟨fun _ => hav, fun _ => rfl⟩
  · rcases hcases with ⟨hne, -⟩ | ⟨-, hfilled, hacc⟩
    · exact absurd haccepted hne
    · refine ⟨hfilled, fun n hn => ?_⟩
      obtain ⟨s, k, ht⟩ := (hrepr'.liveOrder_iff hnone').mp hn
      rw [hrepr.liveOrder_iff hnone]
      have heff : Ladder.Effect cfg L (.submitLimit id trader raw price quantity TimeInForce.fok.raw tradesSize)
          ⟨.submit result', trades'⟩ L' := Ladder.apply_effect hw ((returns_bind _ _ _).mpr ⟨_, hret, (returns_pure _ _).mpr rfl⟩)
      have hchanges := heff.changes hw hnone
      have hlt := (hchanges.numbered hrun.numbered).lt ht
      rcases hchanges.evolves.back ht with ⟨ht', -⟩ | hge
      · exact ⟨s, k, ht'⟩
      · omega
  · exact OrderBook.leaves_submitLimit _ _ _ _ _ _ _ _ _ _ _ hbook hrejected

/-- An iceberg of 10 that shows 2, with an ask of 1 behind it, and an ask of 5 out of reach. -/
def hiddenAsks : List Op := [.submitIceberg 1 7 1 103 10 2 4, .submitLimit 2 8 1 103 1 0 4, .submitLimit 3 8 1 105 5 0 4]

/-- A fill-or-kill order for all that is in reach, hidden quantity included, is filled. -/
theorem fok_fills_or_kills_hidden : ∃ calls b, OrderBook.Run (BookConfig.small 4 (by decide) .none) .continuous calls b ∧
    ∃ trades b', (b.submitLimit 4 9 0 103 11 TimeInForce.fok.raw 4).Returns (⟨.none, 11, 0, trades.length, kInvalidHandle⟩, trades, b') := by
  have hsome : (OrderBook.execute (BookConfig.small 4 (by decide) .none) .continuous 20 hiddenAsks).any
      (fun r => decide (r.2.tradingState = .continuous ∧ r.2.requiredTradeCapacity ≤ 4 ∧ r.2.crossingQuantity .buy 3 = 11)) = true := by
    decide +kernel
  rw [Option.any_eq_true] at hsome
  obtain ⟨⟨calls, b⟩, h, hb⟩ := hsome
  obtain ⟨hcont, hcap, hquantity⟩ := of_decide_eq_true hb
  obtain ⟨⟨result, trades, b', hret, hiff, hfilled, -⟩, -⟩ := fok_fills_or_kills (OrderBook.Run.of_execute h) rfl rfl hcont 4 9 0
    rfl 103 (i := 3) (by decide) 11 (by decide) (by decide) 4
  have hok := (hiff hcap).mpr (Nat.le_of_eq hquantity.symm)
  obtain ⟨hresult, -⟩ := (hfilled hok).1
  exact ⟨calls, b, OrderBook.Run.of_execute h, trades, b', hresult ▸ hret⟩

end MatchingEngine

import MatchingEngine.Lemmas.Line

/-!
# The opening uncross

What `uncross_opening_auction` does to a reachable book, against the definition of the auction over all levels of the domain and all
resting orders.
-/

namespace MatchingEngine

open Comp Finset

/-- The quantity resting at a level. -/
def OrderBook.restingAt (b : OrderBook) (side : Side) (i : Nat) : Nat :=
  ((b.levelSlots side i).map fun s => (b.arena.orderAt s).remaining).sum

/-- What the bids at or above a level ask for. -/
def OrderBook.demand (b : OrderBook) (i : Nat) : Nat := ∑ j ∈ Ico i b.cfg.domain.tickCount, b.restingAt .buy j

/-- What the asks at or below a level offer. -/
def OrderBook.supply (b : OrderBook) (i : Nat) : Nat := ∑ j ∈ Ico 0 (i + 1), b.restingAt .sell j

section

variable {gh : Prop} {cfg : BookConfig} {b : OrderBook} {L : Ladder}

theorem Rep.restingAt (h : Rep gh cfg b L) (side : Side) (i : Nat) : b.restingAt side i = L.total side i := by
  rw [OrderBook.restingAt, Ladder.total, h.levelSlots, List.map_map]
  exact congrArg List.sum (List.map_congr_left fun e he => (h.entries side i e he).remaining)

theorem Rep.demand (h : Rep gh cfg b L) : b.demand = L.demand cfg := by
  funext i
  rw [OrderBook.demand, Ladder.demand, h.cfg_eq]
  exact sum_congr rfl fun j _ => h.restingAt .buy j

theorem Rep.supply (h : Rep gh cfg b L) : b.supply = L.supply := by
  funext i
  rw [OrderBook.supply, Ladder.supply]
  exact sum_congr rfl fun j _ => h.restingAt .sell j

/-- A level has orders if its queue has. -/
theorem Rep.levelSlots_ne_nil (h : Rep gh cfg b L) (side : Side) (i : Nat) : b.levelSlots side i ≠ [] ↔ L.queue side i ≠ [] := by
  rw [h.levelSlots]
  simp

end

namespace Ladder

variable {cfg : BookConfig} {L L' : Ladder} {result : AuctionResult} {trades : List Trade}

/-- The clearing price of an uncross, where there is one, and what was executed. -/
theorem Opened.clearing (hw : L.Wf cfg) (ho : L.Opening cfg) (h : Opened cfg L result trades L') :
    result.error = .none ∧
    (result.clearingPrice.isSome ↔ ∃ i j, j ≤ i ∧ L.queue .buy i ≠ [] ∧ L.queue .sell j ≠ []) ∧
    ∀ price, result.clearingPrice = some price → ∃ bid ask c, L.best cfg .buy = some bid ∧ L.best cfg .sell = some ask ∧
      cfg.domain.priceAt c = some price ∧ (∀ j, j ≠ c → Preferred (L.demand cfg) L.supply (ask + (bid - ask) / 2) c j) ∧
      result.executedQuantity = executableAt (L.demand cfg) L.supply c := by
  rw [hw.crossed_iff]
  have hb := ho.bounded.demand_lt hw
  have hs := ho.bounded.supply_lt hw
  cases h with
  | nothing hidle =>
    refine ⟨rfl, ⟨nofun, ?_⟩, nofun⟩
    rintro ⟨bid, ask, hbid, hask, hle⟩
    obtain ⟨c, hchose, -, -, hpos, -⟩ := clearing_preferred hb hs hbid hask hle
    rw [hchose.level, hchose.executable] at hidle
    rcases hidle with hidle | hidle
    · cases hidle
    · omega
  | @executed i remaining trades L1 hlevel hexec hloop =>
    obtain ⟨bid, ask, hbid, hask, hle⟩ : ∃ bid ask, L.best cfg .buy = some bid ∧ L.best cfg .sell = some ask ∧ ask ≤ bid := by
      by_contra hno
      have := (clearing_none hw fun bid ask hbid hask => by
        by_contra hlt
        exact hno ⟨bid, ask, hbid, hask, by omega⟩).1
      rw [this] at hexec
      exact hexec rfl
    obtain ⟨c, hchose, -, hcb, -, hpref⟩ := clearing_preferred hb hs hbid hask hle
    have hci : i = c := by
      rw [hchose.level, Option.some.injEq] at hlevel
      exact hlevel.symm
    subst hci
    have hw1 : { L with tradingState := .continuous }.Wf cfg := hw.of_slots (fun _ _ => rfl) rfl rfl rfl rfl rfl
    have hc := ho.bounded.clears hw
    have hc1 : Clears cfg { L with tradingState := .continuous } (L.clearing cfg) := ⟨hc.max, hc.eq, hc.none⟩
    obtain ⟨rfl, -⟩ := auction_uncrossed hw1 hc1 hlevel hloop
    refine ⟨rfl, ⟨fun _ => ⟨bid, ask, hbid, hask, hle⟩, fun _ => rfl⟩, fun price hprice => ?_⟩
    rw [← Option.some.inj hprice]
    exact ⟨bid, ask, i, hbid, hask, cfg.domain.priceAt_of_lt (by have := best_lt hbid; omega), hpref, hchose.executable⟩

end Ladder

/-- In every reachable opening auction the uncross reports a clearing price exactly when some bid is at or above some ask, and this price
is the one the definition over all levels of the domain prefers; it executes all that may trade there. With a span that is too small
for any number of trades it does nothing. -/
theorem uncross_price {cfg : BookConfig} {state : TradingState} {calls : List (Op × Outcome)} {b : OrderBook}
    (run : OrderBook.Run cfg state calls b) (hts : b.tradingState = .openingAuction) (tradesSize : Nat) :
    ∃ result trades b', (b.uncrossOpeningAuction tradesSize).Returns (result, trades, b') ∧
      (tradesSize < b.requiredTradeCapacity → result = ⟨.insufficientTradeCapacity, none, 0, 0⟩ ∧ b' = b) ∧
      (b.requiredTradeCapacity ≤ tradesSize →
        result.error = .none ∧
        (result.clearingPrice.isSome ↔ ∃ i j, j ≤ i ∧ b.levelSlots .buy i ≠ [] ∧ b.levelSlots .sell j ≠ []) ∧
        ∀ price, result.clearingPrice = some price → ∃ bid ask c, b.bestIndex .buy = some bid ∧ b.bestIndex .sell = some ask ∧
          cfg.domain.priceAt c = some price ∧
          (∀ j, j < cfg.domain.tickCount → j ≠ c → Preferred b.demand b.supply (ask + (bid - ask) / 2) c j) ∧
          result.executedQuantity = executableAt b.demand b.supply c ∧
          ∀ j, j < cfg.domain.tickCount → executableAt b.demand b.supply j ≤ result.executedQuantity) := by
  obtain ⟨L, hrun, hrepr, hnone⟩ := run.ladder
  have hcap : b.requiredTradeCapacity = cfg.maxOrders := hrepr.arena.capacity
  have htsL : L.tradingState = .openingAuction := hrepr.tradingState.symm.trans hts
  rcases Nat.lt_or_ge tradesSize b.requiredTradeCapacity with hshort | hsize
  · refine ⟨⟨.insufficientTradeCapacity, none, 0, 0⟩, [], b, ?_, fun _ => ⟨rfl, rfl⟩, fun h => absurd hshort (Nat.not_lt.mpr h)⟩
    rw [OrderBook.uncrossOpeningAuction, if_neg (fun h => h hts), if_pos hshort]
    exact (returns_pure _ _).mpr rfl
  · obtain ⟨result, trades, L', hret, hopened⟩ := Ladder.uncross_opened htsL (hcap ▸ hsize)
    obtain ⟨⟨result', trades', b'⟩, hret', hr, -⟩ := (hrepr.uncrossOpeningAuction hnone tradesSize).2 _ hret
    obtain rfl : result' = result := hr
    refine ⟨result', trades', b', hret', fun h => absurd hsize (Nat.not_le.mpr h), fun _ => ?_⟩
    obtain ⟨herror, hiff, hprice⟩ := hopened.clearing hrepr.wf (hrun.opening htsL)
    refine ⟨herror, ?_, fun price hp => ?_⟩
    · rw [hiff]
      simp only [hrepr.levelSlots_ne_nil]
    · obtain ⟨bid, ask, c, hbid, hask, hc, hpref, hexec⟩ := hprice price hp
      rw [hrepr.bestIndex, hrepr.bestIndex, hrepr.demand, hrepr.supply]
      refine ⟨bid, ask, c, hbid, hask, hc, fun j _ hj => hpref j hj, hexec, fun j _ => ?_⟩
      rw [hexec]
      by_cases hj : j = c
      · rw [hj]
      · have := hpref j hj
        unfold Preferred at this
        omega

/-- An auction with two bids and an ask that cross. -/
def crossedOrders : List Op := [.submitLimit 1 7 0 103 5 0 4, .submitLimit 2 8 1 101 6 0 4, .submitLimit 3 9 0 103 2 0 4]

/-- A run to a crossed book before the uncross. -/
theorem crossedOrders_run : ∃ calls b, OrderBook.Run (BookConfig.small 4 (by decide) .none) .openingAuction calls b ∧
    b.tradingState = .openingAuction ∧ b.requiredTradeCapacity = 4 ∧ b.levelSlots .buy 3 = [0, 2] ∧ b.levelSlots .sell 1 = [1] := by
  have hsome : (OrderBook.execute (BookConfig.small 4 (by decide) .none) .openingAuction 20 crossedOrders).any
      (fun r => decide (r.2.tradingState = .openingAuction ∧ r.2.requiredTradeCapacity = 4 ∧ r.2.levelSlots .buy 3 = [0, 2] ∧
        r.2.levelSlots .sell 1 = [1])) = true := by decide +kernel
  rw [Option.any_eq_true] at hsome
  obtain ⟨⟨calls, b⟩, h, hb⟩ := hsome
  exact ⟨calls, b, OrderBook.Run.of_execute h, of_decide_eq_true hb⟩

/-- The uncross of the three orders reports a price. -/
theorem uncross_price_crossed : ∃ calls b, OrderBook.Run (BookConfig.small 4 (by decide) .none) .openingAuction calls b ∧
    ∃ result trades b', (b.uncrossOpeningAuction 4).Returns (result, trades, b') ∧ result.clearingPrice.isSome = true := by
  obtain ⟨calls, b, run, hts, hcap, hbids, hasks⟩ := crossedOrders_run
  obtain ⟨result, trades, b', hret, -, h⟩ := uncross_price run hts 4
  refine ⟨calls, b, run, result, trades, b', hret, (h (Nat.le_of_eq hcap)).2.1.mpr ⟨3, 1, by decide, ?_, ?_⟩⟩
  · rw [hbids]
    decide
  · rw [hasks]
    decide

/-! ## The executions -/

/-- The slots of a side in the order of their priority: best price first, then by arrival. -/
def OrderBook.line (b : OrderBook) (side : Side) : List Nat := (Ladder.scanOrder b.cfg.domain.tickCount side).flatMap (b.levelSlots side)

/-- An order that is still there after `n` of it were executed: it has `n` less left and to display, and is otherwise as it was. -/
structure OrderBook.Reduced (b b' : OrderBook) (s n : Nat) : Prop where
  id : (b'.arena.orderAt s).id = (b.arena.orderAt s).id
  level : (b'.arena.orderAt s).encodedLevelSide = (b.arena.orderAt s).encodedLevelSide
  remaining : (b'.arena.orderAt s).remaining = (b.arena.orderAt s).remaining - n
  trader : b'.traderIds s = b.traderIds s
  display : b'.displayQuantities s = b.displayQuantities s
  displayed : b'.displayedRemaining s = b.displayedRemaining s - n
  handle : b'.arena.handleAt s = b.arena.handleAt s

/-- What the uncross of a crossed book does at a level: its trades are executions at one price between bids at or above the level and
asks at or below it, each after every order with priority over it was filled; they add up to the most that any level could execute, and
there are fewer of them than orders. The orders that are not filled stay in their places, and the book is uncrossed. -/
structure OrderBook.Uncrosses (b : OrderBook) (level : Nat) (price : Int) (crosses : List Cross) (trades : List Trade) (b' : OrderBook) :
    Prop where
  reported : trades = crosses.map fun x => ⟨(b.arena.orderAt x.bid).id, (b.arena.orderAt x.ask).id, price, x.quantity⟩
  pos : ∀ x ∈ crosses, 0 < x.quantity
  bids : ∀ x ∈ crosses, ∃ i, level ≤ i ∧ x.bid ∈ b.levelSlots .buy i
  asks : ∀ x ∈ crosses, ∃ i, i ≤ level ∧ x.ask ∈ b.levelSlots .sell i
  bids_first : ∀ pre x post, crosses = pre ++ x :: post → ∀ s, [s, x.bid].Sublist (b.line .buy) →
    takenFrom pre s = (b.arena.orderAt s).remaining
  asks_first : ∀ pre x post, crosses = pre ++ x :: post → ∀ s, [s, x.ask].Sublist (b.line .sell) →
    takenFrom pre s = (b.arena.orderAt s).remaining
  sum : (crosses.map Cross.quantity).sum = executableAt b.demand b.supply level
  max : ∀ j, executableAt b.demand b.supply j ≤ executableAt b.demand b.supply level
  fewer : trades.length < b.arena.size
  room : b.arena.size ≤ b.requiredTradeCapacity
  queues : ∀ side i, b'.levelSlots side i = (b.levelSlots side i).filter fun s => takenFrom crosses s < (b.arena.orderAt s).remaining
  orders : ∀ side i, ∀ s ∈ b'.levelSlots side i, b.Reduced b' s (takenFrom crosses s)
  state : b'.tradingState = .continuous
  uncrossed : ∀ bid ask, b'.bestBid = some bid → b'.bestAsk = some ask → bid < ask

section

variable {gh : Prop} {cfg : BookConfig} {b b' : OrderBook} {L L' : Ladder}

theorem Rep.line (h : Rep gh cfg b L) (side : Side) : b.line side = (L.line cfg side).map Entry.slot := by
  rw [OrderBook.line, Ladder.line, List.map_flatMap, h.cfg_eq]
  exact congrArg (fun f => List.flatMap f _) (funext (h.levelSlots side))

/-- The orders of the arena are the stops and those in line. -/
theorem Rep.arena_size (h : Rep gh cfg b L) (hnone : L.held = none) :
    b.arena.size = L.stops.length + (L.line cfg .buy).length + (L.line cfg .sell).length := by
  have hperm := (h.wf.liveSlots_perm hnone).length_eq
  have hsize := h.arena.size
  have hline : ∀ side, ((L.line cfg side).map Entry.slot).length = (L.sideSlots cfg side).length := fun side =>
    (Ladder.line_slots_perm L side).length_eq
  have hbuy := hline .buy
  have hsell := hline .sell
  rw [List.length_map] at hbuy hsell
  rw [List.length_append, List.length_range, Ladder.liveSlots, List.length_append, List.length_append, List.length_map] at hperm
  omega

/-- The order of a slot that is in a queue. -/
theorem Rep.mem_levelSlots (h : Rep gh cfg b L) {side : Side} {i s : Nat} :
    s ∈ b.levelSlots side i ↔ ∃ e ∈ L.queue side i, e.slot = s := by
  rw [h.levelSlots, List.mem_map]

/-- The uncross of a book whose ladder was uncrossed. -/
theorem Ladder.Progressed.uncrosses {level : Nat} {price : Int} {trades : List Trade} {crosses : List Cross} (h : Rep gh cfg b L)
    (hnone : L.held = none) (ho : L.Opening cfg) (h' : Rep gh cfg b' L') (hpos : 0 < executableAt (L.demand cfg) L.supply level)
    (hmax : ∀ j, executableAt (L.demand cfg) L.supply j ≤ executableAt (L.demand cfg) L.supply level) (hts : L'.tradingState = .continuous)
    (hu : L'.Uncrossed)
    (hp : Progressed cfg level (executableAt (L.demand cfg) L.supply level) price (fun s => (b.arena.orderAt s).id) L L' 0 trades crosses) :
    b.Uncrosses level price crosses trades b' := by
  have hfirst : ∀ side pre x post, crosses = pre ++ x :: post → ∀ s, [s, x.slot side].Sublist (b.line side) →
      takenFrom pre s = (b.arena.orderAt s).remaining := by
    intro side pre x post hsplit s hsub
    rw [h.line] at hsub
    obtain ⟨l, hl, hmap⟩ := List.sublist_map_iff.mp hsub
    obtain ⟨e, e', rfl⟩ := List.length_eq_two.mp (by simpa using (congrArg List.length hmap).symm : l.length = 2)
    rw [List.map_cons, List.map_singleton, List.cons.injEq, List.singleton_inj] at hmap
    obtain ⟨i, he⟩ := (mem_line h.wf).mp (hl.subset (List.mem_cons_self ..))
    rw [hmap.1, (h.entries side i e he).remaining]
    exact hp.crossed.first side pre x post hsplit e e' hl hmap.2.symm
  have htraded : ∀ side, ∀ x ∈ crosses, ∃ i, reaches side i level ∧ x.slot side ∈ b.levelSlots side i := by
    intro side x hx
    obtain ⟨i, e, hi, he, hslot⟩ := hp.crossed.traded side x hx
    exact ⟨i, hi, h.mem_levelSlots.mpr ⟨e, he, hslot⟩⟩
  refine
    { reported := hp.trades, pos := hp.crossed.pos, bids := htraded .buy, asks := htraded .sell, bids_first := hfirst .buy,
      asks_first := hfirst .sell, sum := ?_, max := ?_, fewer := ?_, room := ?_, queues := fun side i => ?_, orders := fun side i s hs => ?_,
      state := h'.tradingState.trans hts, uncrossed := fun bid ask hbid hask => ?_ }
  · rw [h.demand, h.supply]
    exact hp.sum
  · rw [h.demand, h.supply]
    exact hmax
  · have hne : crosses ≠ [] := fun hc => by
      have := hp.sum
      rw [hc] at this
      exact absurd this (by simp; omega)
    have := hp.fewer hne
    rw [h.arena_size hnone, hp.trades, List.length_map]
    omega
  · have := h.arena.size
    have hcap : b.requiredTradeCapacity = cfg.maxOrders := h.arena.capacity
    omega
  · rw [h'.levelSlots, h.levelSlots, hp.crossed.queue, leftOf_slots, List.filter_map]
    · refine congrArg (List.map Entry.slot) (List.filter_congr fun e he => ?_)
      rw [Function.comp_apply, (h.entries side i e he).remaining]
    · exact fun e he => (ho.entry he).1
  · obtain ⟨e', he', rfl⟩ := h'.mem_levelSlots.mp hs
    have hmem := he'
    rw [hp.crossed.queue] at hmem
    obtain ⟨e, he, hleft⟩ := List.mem_filterMap.mp hmem
    obtain ⟨-, hslot, hid, htrader, -, hdisplay, hremaining, hdisplayed⟩ := Entry.left_eq_some.mp hleft
    have hat := h.entries side i e he
    have hat' := h'.entries side i e' he'
    obtain ⟨hlt, hplace⟩ := h'.wf.place_of_mem he'
    refine ⟨?_, ?_, ?_, ?_, ?_, ?_, ?_⟩
    · rw [hat'.id, hid, hslot, hat.id]
    · rw [hat'.encoded, hslot, hat.encoded]
    · rw [hat'.remaining, hremaining, hslot, hat.remaining]
    · rw [hat'.trader, htrader, hslot, hat.trader]
    · rw [hat'.display, hdisplay, hslot, hat.display]
    · rw [hat'.displayed, hdisplayed, hslot, hat.displayed]
    · rw [OrderArena.handleAt, OrderArena.handleAt, h'.arena.generation _ hlt, h.arena.generation _ hlt,
        hp.releases _ (by rw [hplace]; rintro ⟨⟩)]
  · rw [OrderBook.bestBid, h'.bestIndex, h'.cfg_eq, Option.bind_eq_some_iff] at hbid
    rw [OrderBook.bestAsk, h'.bestIndex, h'.cfg_eq, Option.bind_eq_some_iff] at hask
    obtain ⟨i, hi, hbid⟩ := hbid
    obtain ⟨j, hj, hask⟩ := hask
    have := hu i j (Ladder.best_eq_some hi).2.1 (Ladder.best_eq_some hj).2.1
    rw [(cfg.domain.priceAt_eq_some.mp hbid).2, (cfg.domain.priceAt_eq_some.mp hask).2]
    omega

end

/-- A reachable opening auction that is crossed is uncrossed at its clearing price, and a second uncross is rejected and changes
nothing. -/
theorem uncross_executes {cfg : BookConfig} {state : TradingState} {calls : List (Op × Outcome)} {b : OrderBook}
    (run : OrderBook.Run cfg state calls b) (hts : b.tradingState = .openingAuction)
    (hcrossed : ∃ i j, j ≤ i ∧ b.levelSlots .buy i ≠ [] ∧ b.levelSlots .sell j ≠ []) {tradesSize : Nat}
    (hsize : b.requiredTradeCapacity ≤ tradesSize) :
    ∃ result trades b' level price crosses, (b.uncrossOpeningAuction tradesSize).Returns (result, trades, b') ∧
      cfg.domain.priceAt level = some price ∧
      result = ⟨.none, some price, executableAt b.demand b.supply level, trades.length⟩ ∧
      b.Uncrosses level price crosses trades b' ∧
      ∀ size, (b'.uncrossOpeningAuction size).Returns (⟨.notOpeningAuction, none, 0, 0⟩, [], b') := by
  obtain ⟨L, hrun, hrepr, hnone⟩ := run.ladder
  have hw := hrepr.wf
  have hcap : b.requiredTradeCapacity = cfg.maxOrders := hrepr.arena.capacity
  have htsL : L.tradingState = .openingAuction := hrepr.tradingState.symm.trans hts
  have ho := hrun.opening htsL
  simp only [hrepr.levelSlots_ne_nil] at hcrossed
  obtain ⟨bid, ask, hbid, hask, hle⟩ := hw.crossed_iff.mp hcrossed
  obtain ⟨c, hchose, -, hcb, hpos, hpref⟩ := Ladder.clearing_preferred (ho.bounded.demand_lt hw) (ho.bounded.supply_lt hw) hbid hask hle
  have hmax : ∀ j, executableAt (L.demand cfg) L.supply j ≤ executableAt (L.demand cfg) L.supply c := fun j => by
    by_cases hj : j = c
    · rw [hj]
    · have := hpref j hj
      unfold Preferred at this
      omega
  obtain ⟨result, trades, L', hret, hopened⟩ := Ladder.uncross_opened htsL (hcap ▸ hsize)
  obtain ⟨⟨result', trades', b'⟩, hret', hr, htr, hrepr', hnone'⟩ := (hrepr.uncrossOpeningAuction hnone tradesSize).2 _ hret
  obtain rfl : result' = result := hr
  obtain rfl : trades' = trades := htr
  have hrepr' : Rep True cfg b' L' := hrepr'
  cases hopened with
  | nothing hidle =>
    rw [hchose.level, hchose.executable] at hidle
    rcases hidle with hidle | hidle
    · cases hidle
    · omega
  | @executed i remaining _ L1 hlevel hexec hloop =>
    obtain rfl : c = i := by
      rw [hchose.level, Option.some.injEq] at hlevel
      exact hlevel
    have hw1 : { L with tradingState := .continuous }.Wf cfg := hw.of_slots (fun _ _ => rfl) rfl rfl rfl rfl rfl
    have hc := ho.bounded.clears hw
    have hc1 : Ladder.Clears cfg { L with tradingState := .continuous } (L.clearing cfg) := ⟨hc.max, hc.eq, hc.none⟩
    obtain ⟨rfl, hu⟩ := Ladder.auction_uncrossed hw1 hc1 hlevel hloop
    have htsL' : L1.tradingState = .continuous := (Ladder.auction_kept hw1 hloop).tradingState
    have ho1 : { L with tradingState := .continuous }.Opening cfg := ⟨ho.entry, ho.stop, ho.held⟩
    obtain ⟨crosses, hp⟩ : ∃ crosses, Ladder.Progressed cfg c (L.clearing cfg).executable _ (fun s => (b.arena.orderAt s).id) _ _ _ _
        crosses := Ladder.auction_crosses hw1 ho1 (fun side j e he => (hrepr.entries side j e he).id) hloop
    rw [hchose.executable] at hp
    have hp' : Ladder.Progressed cfg c (executableAt (L.demand cfg) L.supply c) (cfg.domain.minimum + c) (fun s => (b.arena.orderAt s).id)
        L { L1 with lastPrice := some (cfg.domain.minimum + c) } 0 trades' crosses :=
      ⟨⟨hp.crossed.queue, hp.crossed.le, hp.crossed.pos, hp.crossed.traded, hp.crossed.first⟩, hp.trades, hp.sum, hp.filled, hp.fewer,
        hp.releases⟩
    have hdone := hp'.uncrosses hrepr hnone ho hrepr' hpos hmax htsL' hu
    refine ⟨_, _, b', c, _, crosses, hret', cfg.domain.priceAt_of_lt (by have := Ladder.best_lt hbid; omega), ?_, hdone, fun size => ?_⟩
    · rw [hchose.executable, hrepr.demand, hrepr.supply]
      rfl
    · rw [OrderBook.uncrossOpeningAuction, if_pos (by rw [hdone.state]; nofun)]
      exact (returns_pure _ _).mpr rfl

/-- The uncross of the three orders. -/
theorem uncross_executes_crossed : ∃ calls b, OrderBook.Run (BookConfig.small 4 (by decide) .none) .openingAuction calls b ∧
    ∃ result trades b' level price crosses, (b.uncrossOpeningAuction 4).Returns (result, trades, b') ∧
      b.Uncrosses level price crosses trades b' := by
  obtain ⟨calls, b, run, hts, hcap, hbids, hasks⟩ := crossedOrders_run
  obtain ⟨result, trades, b', level, price, crosses, hret, -, -, h, -⟩ := uncross_executes run hts
    ⟨3, 1, by decide, by rw [hbids]; decide, by rw [hasks]; decide⟩ (Nat.le_of_eq hcap)
  exact ⟨calls, b, run, result, trades, b', level, price, crosses, hret, h⟩

end MatchingEngine

import MatchingEngine.Lemmas.Codecs
import MatchingEngine.MbpPublisher
import MatchingEngine.Theorems.Invariants

/-!
# What the frames of the best levels say

A frame of `publish_best` says what rests at the best level of the book's side: the book's cached aggregate and count are those of the
queue there, and they fit the fields of the frame.
-/

namespace MatchingEngine

open Ladder

theorem MbpPublisher.message_canonical (event : EngineEvent) (side : Side) (price : Option Int) (level : Option LevelInfo) :
    (message event side.raw price level).Canonical := by
  refine ⟨.levelUpdate, rfl, ?_⟩
  cases side <;> rfl

/-- What a message says of a level of the book. -/
structure MarketDataMessage.Tells (m : MarketDataMessage) (b : OrderBook) (side : Side) (i : Nat) : Prop where
  price : m.price.toInt = b.cfg.domain.minimum + i
  quantity : m.quantity.toNat = ((b.levelSlots side i).map fun s => (b.arena.orderAt s).remaining).sum
  orderCount : m.orderCount.toNat = (b.levelSlots side i).length

/-- What a book that represents a bounded ladder shows at a level tells of it. -/
theorem Rep.tells {gh : Prop} {cfg : BookConfig} {b : OrderBook} {L : Ladder} (h : Rep gh cfg b L) (hb : L.Bounded cfg) (event : EngineEvent)
    {side : Side} {i : Nat} (hi : i < cfg.domain.tickCount) :
    (MbpPublisher.message event side.raw (some (cfg.domain.minimum + i))
      (some ⟨L.levelQuantity side i, (L.queue side i).length⟩)).Tells b side i := by
  have htotal := hb.total_lt h.wf side i
  have hlen := length_le_of_nodup (h.wf.queue_nodup side i) fun s hs => ((h.wf.queue_iff side i s).mp hs).1
  rw [List.length_map] at hlen
  have hsum : L.total side i = ((b.levelSlots side i).map fun s => (b.arena.orderAt s).remaining).sum := by
    rw [h.levelSlots, List.map_map]
    exact congrArg List.sum (List.map_congr_left fun e he => (h.entries side i e he).remaining.symm)
  have hmin := cfg.domain.minimum_ge
  have hmax := cfg.domain.maximum_le
  refine ⟨?_, ?_, ?_⟩
  · rw [h.cfg_eq]
    show (Int64.ofInt (cfg.domain.minimum + i)).toInt = _
    rw [Int64.toInt_ofInt_of_le (by omega) (by omega)]
  · rw [← hsum]
    show (UInt64.ofNat (L.total side i % 2 ^ 64)).toNat = _
    rw [Nat.mod_eq_of_lt htotal, UInt64.toNat_ofNat', Nat.mod_eq_of_lt htotal]
  · rw [h.levelSlots, List.length_map]
    show (UInt32.ofNat (L.queue side i).length).toNat = _
    have := cfg.maxOrders_lt
    rw [UInt32.toNat_ofNat', Nat.mod_eq_of_lt (by omega)]

/-- In every reachable FIFO book `publish_best` publishes, into a span of the frame's size, a frame that is decoded to the level of the
book's best price: its price, the sum of what remains of the orders that rest there, and their number. It says zeros exactly where no order
rests on the side. -/
theorem mbp_tells_best {cfg : BookConfig} {state : TradingState} {calls : List (Op × Outcome)} {b : OrderBook}
    (hfifo : cfg.allocationMode = .fifo) (h : OrderBook.Run cfg state calls b) (event : EngineEvent) (side : Side) (output : Buffer) :
    ∃ publisher frame m, MbpPublisher.publishBest event b side.raw output kEncodedMarketDataFrameSize = (.published, publisher, frame) ∧
      decodeMarketDataFrame frame kEncodedMarketDataFrameSize = .ok m ∧ m.sequence = event.commandSequence ∧ m.side = side.raw ∧
      ((∀ i, b.levelSlots side i = []) → m.price = 0 ∧ m.quantity = 0 ∧ m.orderCount = 0) ∧
      ∀ i, b.levelSlots side i ≠ [] → (∀ j, b.levelSlots side j ≠ [] → ¬betterLevel side j i) → m.Tells b side i := by
  obtain ⟨L, hrun, hrepr, hnone⟩ := h.ladder
  have hb := hrun.bounded hfifo
  have hempty : ∀ i, b.levelSlots side i = [] ↔ L.queue side i = [] := fun i => by rw [hrepr.levelSlots, List.map_eq_nil_iff]
  have hprice : (if side.raw = Side.buy.raw then b.bestBid else b.bestAsk) = (L.best cfg side).bind cfg.domain.priceAt := by
    cases side with
    | buy => exact hrepr.bestBid
    | sell => exact hrepr.bestAsk
  have hpublish : ∀ price level, (if side.raw = Side.buy.raw then b.bestBid else b.bestAsk) = price →
      price.bind (b.levelInfo side.raw) = level →
      MbpPublisher.publishBest event b side.raw output kEncodedMarketDataFrameSize =
        (.published, {}, (MbpPublisher.message event side.raw price level).write) := fun price level h1 h2 => by
    unfold MbpPublisher.publishBest
    rw [h1]
    dsimp only
    rw [h2, encodeMarketDataFrame_eq (MbpPublisher.message_canonical event side price level)]
    rfl
  cases hbest : L.best cfg side with
  | none =>
    have hnil : ∀ i, L.queue side i = [] := fun i => by
      by_cases hi : i < cfg.domain.tickCount
      · exact best_eq_none.mp hbest i hi
      · exact hrepr.wf.range side i (Nat.not_lt.mp hi)
    rw [hbest] at hprice
    refine ⟨_, _, _, hpublish none none hprice rfl, decodeMarketDataFrame_write (MbpPublisher.message_canonical event side none none), rfl, rfl,
      fun _ => ⟨rfl, rfl, rfl⟩, fun i hne => absurd ((hempty i).mpr (hnil i)) hne⟩
  | some best =>
    obtain ⟨hlt, hne, hworse⟩ := best_eq_some hbest
    have hat : cfg.domain.priceAt best = some (cfg.domain.minimum + best) := cfg.domain.priceAt_eq_some.mpr ⟨hlt, rfl⟩
    have hindex : cfg.domain.indexOf (cfg.domain.minimum + best) = some best := cfg.domain.indexOf_eq_some.mpr ⟨hlt, rfl⟩
    have hlevel : (some (cfg.domain.minimum + (best : Int))).bind (b.levelInfo side.raw) =
        some ⟨L.levelQuantity side best, (L.queue side best).length⟩ := by
      rw [Option.bind_some, hrepr.levelInfo, Ladder.levelInfo, Side.ofRaw_raw, hindex]
    rw [hbest, Option.bind_some, hat] at hprice
    refine ⟨_, _, _, hpublish _ _ hprice hlevel, decodeMarketDataFrame_write (MbpPublisher.message_canonical event side _ _), rfl, rfl,
      fun hnil => absurd ((hempty best).mp (hnil best)) hne, fun i hi hfirst => ?_⟩
    have hsame : i = best := by
      have h1 := hfirst best (mt (hempty best).mp hne)
      have h2 := hworse i (hrepr.wf.queue_lt (mt (hempty i).mpr hi)) (mt (hempty i).mpr hi)
      cases side with
      | buy =>
        simp only [betterLevel] at h1 h2
        omega
      | sell =>
        simp only [betterLevel] at h1 h2
        omega
    rw [hsame]
    exact hrepr.tells hb event hlt

/-- The best ask after an iceberg was sold into. -/
theorem mbp_tells_best_iceberg : ∃ calls b,
    OrderBook.execute (BookConfig.small 4 (by decide) .cancelTaker) .continuous 20
      [.submitLimit 1 7 0 101 5 0 4, .submitIceberg 2 8 1 101 9 2 4, .submitStop 3 1 100 4 4] = some (calls, b) ∧
    ∃ publisher frame m, MbpPublisher.publishBest {} b Side.sell.raw Buffer.zeros kEncodedMarketDataFrameSize = (.published, publisher, frame) ∧
      decodeMarketDataFrame frame kEncodedMarketDataFrameSize = .ok m ∧
      ∀ i, b.levelSlots .sell i ≠ [] → (∀ j, b.levelSlots .sell j ≠ [] → ¬betterLevel .sell j i) → m.Tells b .sell i := by
  have hsome : (OrderBook.execute (BookConfig.small 4 (by decide) .cancelTaker) .continuous 20
      [.submitLimit 1 7 0 101 5 0 4, .submitIceberg 2 8 1 101 9 2 4, .submitStop 3 1 100 4 4]).isSome = true := by decide +kernel
  obtain ⟨⟨calls, b⟩, h⟩ := Option.isSome_iff_exists.mp hsome
  obtain ⟨publisher, frame, m, hpublish, hdecode, -, -, -, htells⟩ := mbp_tells_best rfl (OrderBook.Run.of_execute h) {} .sell Buffer.zeros
  exact ⟨calls, b, h, publisher, frame, m, hpublish, hdecode, htells⟩

end MatchingEngine

import MatchingEngine.Lemmas.ProRata
import MatchingEngine.Lemmas.Runs

/-!
# Pro-rata allocation

`match_level_threshold_pro_rata` walks the queue it changes: an iceberg whose slice is used up shows its next one at the tail, and the
pass takes a share of that slice too, without a look at what the taker has left. What the level does is what it is meant to do exactly
where no maker is met with a share a second time.
-/

namespace MatchingEngine

open Comp

namespace OrderBook

variable (b : OrderBook)

/-- What the loops read of the order in a slot. -/
def makerAt (s : Nat) : Maker := ⟨(b.arena.orderAt s).remaining, b.displayQuantities s, b.displayedRemaining s⟩

/-- The makers at a level, in the order of their queue. -/
def makers (side : Side) (i : Nat) : List Maker := (b.levelSlots side i).map b.makerAt

/-- What the order of a slot has left at a level. -/
def leftAt (side : Side) (i s : Nat) : Nat := if s ∈ b.levelSlots side i then (b.arena.orderAt s).remaining else 0

/-- The levels a taker can reach, best first. -/
def reached (takerSide : Side) (limitIndex : Option Nat) : List Nat :=
  let occupied := (Ladder.scanOrder b.cfg.domain.tickCount takerSide.opposite).filter fun i =>
    !(b.levelSlots takerSide.opposite i).isEmpty
  occupied.takeWhile fun i => !limitIndex.any fun limit => !crosses takerSide i limit

end OrderBook

namespace Execution

variable (x : Execution) (takerId takerTraderId : Nat) (takerSide : Side) (levelIndex : Nat)

/-- `match_level_threshold_pro_rata` up to its call of `match_level_fifo`. -/
def proRataPart : Comp Execution := do
  let (totalDisplayed, endIndex) ← x.displayedTotal takerTraderId (x.book.level takerSide.opposite levelIndex).headIndex
  if totalDisplayed = 0 then pure x else x.proRataPass takerId takerSide levelIndex totalDisplayed endIndex

/-- The shares come first, and FIFO takes the rest. -/
theorem matchLevelThresholdProRata_eq :
    x.matchLevelThresholdProRata takerId takerTraderId takerSide levelIndex =
      x.proRataPart takerId takerTraderId takerSide levelIndex >>= fun x =>
        x.matchLevelFifo takerId takerTraderId takerSide levelIndex := by
  unfold matchLevelThresholdProRata proRataPart
  rw [bind_assoc]
  refine congrArg (_ >>= ·) (funext fun r => ?_)
  dsimp only
  split <;> rfl

/-- What a level is meant to do with a taker: the pass takes from each maker present at most once its share by what it displays at the
start, FIFO follows, and nothing is taken that the taker does not lose. In the end the level has lost the taker's quantity or all it
had, whichever is less, and so has the taker. -/
structure SharesOut (x₁ x' : Execution) : Prop where
  pass : (x.proRataPart takerId takerTraderId takerSide levelIndex).Returns x₁
  residue : (x₁.matchLevelFifo takerId takerTraderId takerSide levelIndex).Returns x'
  level : (x.matchLevelThresholdProRata takerId takerTraderId takerSide levelIndex).Returns x'
  once : ∀ s ∈ x.book.levelSlots takerSide.opposite levelIndex,
    x₁.book.leftAt takerSide.opposite levelIndex s = x.book.leftAt takerSide.opposite levelIndex s ∨
    x₁.book.leftAt takerSide.opposite levelIndex s + Maker.fairShare x.book.cfg.proRataMinimum
        (x.book.makers takerSide.opposite levelIndex) x.remaining (x.book.displayedRemaining s) =
      x.book.leftAt takerSide.opposite levelIndex s
  kept : x₁.remaining + Maker.total (x.book.makers takerSide.opposite levelIndex) =
    x.remaining + Maker.total (x₁.book.makers takerSide.opposite levelIndex)
  unfilled : x'.remaining + min x.remaining (Maker.total (x.book.makers takerSide.opposite levelIndex)) = x.remaining
  executed : Maker.total (x'.book.makers takerSide.opposite levelIndex) +
      min x.remaining (Maker.total (x.book.makers takerSide.opposite levelIndex)) =
    Maker.total (x.book.makers takerSide.opposite levelIndex)

end Execution

section

variable {gh : Prop} {cfg : BookConfig} {b : OrderBook} {L : Ladder}

theorem Rep.makers (h : Rep gh cfg b L) (side : Side) (i : Nat) : b.makers side i = L.makers side i := by
  rw [OrderBook.makers, Ladder.makers, h.levelSlots, List.map_map]
  refine List.map_congr_left fun e he => ?_
  have hat := h.entries side i e he
  show Maker.mk _ _ _ = Maker.mk _ _ _
  rw [hat.remaining, hat.display, hat.displayed]

/-- What is left of an order. -/
theorem Rep.leftAt (h : Rep gh cfg b L) (side : Side) (i s : Nat) :
    b.leftAt side i s = MatchingEngine.leftAt (L.queue side i) s := by
  unfold OrderBook.leftAt
  rw [h.levelSlots]
  split
  · rename_i hs
    obtain ⟨e, he, rfl⟩ := List.mem_map.mp hs
    rw [leftAt_of_mem (h.wf.queue_nodup side i) he, (h.entries side i e he).remaining]
  · rename_i hs
    exact (leftAt_of_not_mem hs).symm

theorem Rep.reached (h : Rep gh cfg b L) (t : Taker) : b.reached t.side t.limit = Sweep.reached cfg t L := by
  unfold OrderBook.reached Sweep.reached Ladder.occupied
  rw [h.cfg_eq]
  refine congrArg (List.takeWhile _) (List.filter_congr fun i _ => ?_)
  rw [h.levelSlots, List.isEmpty_map]

/-- The part before the residue, on the book and on the ladder. -/
theorem ExecRel.proRataPart {t : Taker} {prev : List Trade} {x : Execution} {w : Sweep} {i : Nat} (h : ExecRel gh cfg t prev x w) :
    Sim (ExecRel gh cfg t prev) (x.proRataPart t.id t.trader t.side i) (w.proRataPart cfg t i) := by
  unfold Execution.proRataPart Sweep.proRataPart
  refine Sim.bind_left (h.repr.displayedTotal (t := t) (i := i) rfl) ?_
  dsimp only
  split
  · exact Sim.pure h
  · refine h.proRataPass fun s hs => ?_
    obtain ⟨e, he, rfl⟩ := Option.map_eq_some_iff.mp hs
    exact Rep.slot_ne_invalid (h.repr.entry_lt (List.mem_of_find?_eq_some he))

/-- A level of a book does what it is meant to do exactly when its makers are shared out once. -/
theorem ExecRel.sharesOut_iff {t : Taker} {prev : List Trade} {x : Execution} {w : Sweep} {i : Nat} (h : ExecRel gh cfg t prev x w)
    (hmode : cfg.allocationMode = .thresholdProRata) (hpolicy : cfg.selfTradePolicy = .none) (hrem : w.remaining < 2 ^ 64) :
    (∃ x₁ x', x.SharesOut t.id t.trader t.side i x₁ x') ↔
      Maker.SharedOnce cfg.proRataMinimum (x.book.makers t.side.opposite i) x.remaining := by
  obtain ⟨w₁, w', hpart, hfifo, -, -, -, hpass, h1, h2⟩ := Sweep.level_pass (t := t) (i := i) hmode hpolicy h.repr.wf hrem
  obtain ⟨x₁, hx₁, hrel₁⟩ := (h.proRataPart (i := i)).2 _ hpart
  obtain ⟨x', hx', hrel'⟩ := (hrel₁.matchLevelFifo (i := i)).2 _ hfifo
  have hiff := hpass.fair_iff (Maker.share_le _ _ _) (h.repr.wf.queue_nodup _ _)
    (Maker.fairShare_le cfg.proRataMinimum (w.ladder.makers t.side.opposite i) w.remaining) hrem
  have htotal : ∀ {y : Execution} {v : Sweep}, ExecRel gh cfg t prev y v →
      Maker.total (y.book.makers t.side.opposite i) = v.ladder.total t.side.opposite i := fun hy => by
    rw [hy.repr.makers, Sweep.total_makers]
  rw [h.repr.makers, h.remaining]
  refine Iff.trans ?_ hiff
  constructor
  · rintro ⟨y₁, y', hs⟩
    obtain rfl := hs.pass.unique hx₁
    refine ⟨?_, fun e he => ?_⟩
    · have := hs.kept
      rwa [htotal h, htotal hrel₁, hrel₁.remaining, h.remaining] at this
    · have hmem : e.slot ∈ x.book.levelSlots t.side.opposite i := by
        rw [h.repr.levelSlots]
        exact List.mem_map_of_mem he
      have := hs.once e.slot hmem
      rwa [hrel₁.repr.leftAt, h.repr.leftAt, leftAt_of_mem (h.repr.wf.queue_nodup _ _) he, h.repr.makers, h.repr.cfg_eq, h.remaining,
        (h.repr.entries _ i e he).displayed] at this
  · rintro ⟨hall, hmakers⟩
    have hkept : w₁.remaining + w.ladder.total t.side.opposite i = w.remaining + w₁.ladder.total t.side.opposite i := hall
    refine ⟨x₁, x', hx₁, hx', ?_, fun s hs => ?_, ?_, ?_, ?_⟩
    · rw [Execution.matchLevelThresholdProRata_eq]
      exact (returns_bind _ _ _).mpr ⟨x₁, hx₁, hx'⟩
    · rw [h.repr.levelSlots] at hs
      obtain ⟨e, he, rfl⟩ := List.mem_map.mp hs
      have := hmakers e he
      rwa [hrel₁.repr.leftAt, h.repr.leftAt, leftAt_of_mem (h.repr.wf.queue_nodup _ _) he, h.repr.makers, h.repr.cfg_eq, h.remaining,
        (h.repr.entries _ i e he).displayed]
    · rwa [htotal h, htotal hrel₁, hrel₁.remaining, h.remaining]
    · rw [htotal h, hrel'.remaining, h.remaining]
      omega
    · rw [htotal h, htotal hrel', h.remaining]
      omega

end

/-- At every level of every reachable pro-rata book without a self-trade policy, and for every quantity, the level does what it is
meant to do exactly when the shares of the first few makers are all of the quantity, or all shares are less and no replenished maker
that is met again has a share in its next slice. A taker that finds this at every level it gets to executes all it can and is left with
the rest of its quantity. -/
theorem pro_rata_shares_out_iff {cfg : BookConfig} {state : TradingState} {calls : List (Op × Outcome)} {b : OrderBook}
    (run : OrderBook.Run cfg state calls b) (hmode : cfg.allocationMode = .thresholdProRata) (hpolicy : cfg.selfTradePolicy = .none) :
    (∀ takerId takerTraderId takerSide levelIndex quantity, quantity < 2 ^ 64 →
      ((∃ x₁ x', Execution.SharesOut ⟨b.advanceReportEpoch, quantity, []⟩ takerId takerTraderId takerSide levelIndex x₁ x') ↔
        Maker.SharedOnce cfg.proRataMinimum (b.makers takerSide.opposite levelIndex) quantity)) ∧
    ∀ takerId takerTraderId takerSide limitIndex quantity trades, quantity < 2 ^ 64 →
      Maker.SharedReach cfg.proRataMinimum (b.makers takerSide.opposite) (b.reached takerSide limitIndex) quantity →
      ∃ x, (Execution.matchTaker ⟨b, quantity, trades⟩ takerId takerTraderId takerSide limitIndex).Returns x ∧
        sub64 quantity x.remaining =
          min quantity ((b.reached takerSide limitIndex).map fun i => Maker.total (b.makers takerSide.opposite i)).sum ∧
        sub64 quantity x.remaining + x.remaining = quantity := by
  obtain ⟨L, -, hrepr, -⟩ := run.ladder
  refine ⟨fun takerId takerTraderId takerSide levelIndex quantity hq => ?_,
    fun takerId takerTraderId takerSide limitIndex quantity trades hq hshared => ?_⟩
  · have hrel : ExecRel True cfg ⟨takerId, takerTraderId, takerSide, none⟩ [] ⟨b.advanceReportEpoch, quantity, []⟩ ⟨L, quantity, []⟩ :=
      hrepr.advanceReportEpoch quantity
    have := hrel.sharesOut_iff (i := levelIndex) hmode hpolicy hq
    rw [hrel.repr.makers, ← hrepr.makers] at this
    exact this
  · have hmakers : b.makers takerSide.opposite = L.makers takerSide.opposite := funext (hrepr.makers _)
    rw [hmakers, hrepr.reached ⟨takerId, takerTraderId, takerSide, limitIndex⟩] at hshared
    obtain ⟨w, hrun, hall⟩ := Sweep.run_takes (t := ⟨takerId, takerTraderId, takerSide, limitIndex⟩) (w := ⟨L, quantity, []⟩) hmode
      hpolicy rfl hrepr.wf hq hshared
    have hsim : Sim (ExecRel True cfg ⟨takerId, takerTraderId, takerSide, limitIndex⟩ trades)
        (Execution.matchTaker ⟨b, quantity, trades⟩ takerId takerTraderId takerSide limitIndex) _ := hrepr.matchTaker quantity
    obtain ⟨x, hx, hrel⟩ := hsim.2 _ hrun
    have hrem : x.remaining = w.remaining := hrel.remaining
    have hle : x.remaining ≤ quantity := by
      rw [hrem]
      exact Nat.le.intro hall
    refine ⟨x, hx, ?_, ?_⟩
    · rw [hmakers, hrepr.reached ⟨takerId, takerTraderId, takerSide, limitIndex⟩, sub64_eq hle hq, hrem]
      simp only [Sweep.total_makers]
      exact (Nat.eq_sub_of_add_eq' hall).symm
    · rw [sub64_eq hle hq]
      omega

namespace Maker

/-- While the displayed total fits 64 bits, the shares of the makers are exact. -/
theorem share_eq_fairShare {minimum q : Nat} {queue : List Maker} (hq : q < 2 ^ 64) (hfits : displayedTotal queue < 2 ^ 64)
    {m : Maker} (hm : m ∈ queue) : share minimum queue q m.displayed = fairShare minimum queue q m.displayed := by
  have hle : m.displayed ≤ displayedTotal queue := by
    obtain ⟨l, r, rfl⟩ := List.append_of_mem hm
    simp only [displayedTotal, List.map_append, List.map_cons, List.sum_append, List.sum_cons]
    omega
  have hdiv : m.displayed * q / displayedTotal queue ≤ q := Nat.div_le_of_le_mul (Nat.mul_le_mul_right q hle)
  unfold share fairShare Execution.proRataShare
  rw [Nat.mod_eq_of_lt hfits, Nat.mod_eq_of_lt (Nat.lt_of_le_of_lt hdiv hq)]

/-- So there the condition is about the shares alone: those of the first few makers are all of the quantity, or all of them are less and
no replenished maker that is met again has a share in its next slice. -/
theorem sharedOnce_iff_of_fits {minimum q : Nat} {queue : List Maker} (hq : q < 2 ^ 64) (hfits : displayedTotal queue < 2 ^ 64) :
    SharedOnce minimum queue q ↔
      (∃ k, k < queue.length + 1 ∧ ((queue.take k).map fun m => share minimum queue q m.displayed).sum = q) ∨
      ((queue.map fun m => share minimum queue q m.displayed).sum < q ∧
        ((∃ m ∈ queue.dropLast, m.Replenishes (share minimum queue q)) →
          ∀ m ∈ queue, m.Replenishes (share minimum queue q) → share minimum queue q m.nextSlice = 0)) := by
  have hexact : ∀ m ∈ queue, share minimum queue q m.displayed = 0 ∨
      share minimum queue q m.displayed = fairShare minimum queue q m.displayed := fun m hm => Or.inr (share_eq_fairShare hq hfits hm)
  constructor
  · rintro (⟨k, hk, hsum, -⟩ | ⟨hsum, -, hnext⟩)
    · exact Or.inl ⟨k, hk, hsum⟩
    · exact Or.inr ⟨hsum, hnext⟩
  · rintro (⟨k, hk, hsum⟩ | ⟨hsum, hnext⟩)
    · exact Or.inl ⟨k, hk, hsum, fun m hm => hexact m (List.mem_of_mem_take hm)⟩
    · exact Or.inr ⟨hsum, hexact, hnext⟩

end Maker

/-- A pro-rata book of eight ticks from 100 on, without a self-trade policy. -/
def BookConfig.smallProRata : BookConfig :=
  { BookConfig.small 4 (by decide) .none with
    allocationMode := .thresholdProRata
    proRataMinimum := 1
    fifo_minimum := nofun
    proRata_minimum := fun _ => by decide }

/-- An iceberg of 10 that shows 2, and an ask of 1 behind it. -/
def icebergAhead : List Op := [.submitIceberg 1 7 1 103 10 2 4, .submitLimit 2 8 1 103 1 0 4]

/-- A run to an iceberg ahead of a limit order. -/
theorem icebergAhead_run : ∃ calls b, OrderBook.execute BookConfig.smallProRata .continuous 20 icebergAhead = some (calls, b) ∧
    b.makers .sell 3 = [⟨10, 2, 2⟩, ⟨1, 1, 1⟩] ∧ b.reached .buy none = [3] := by
  have hsome : (OrderBook.execute BookConfig.smallProRata .continuous 20 icebergAhead).any (fun r =>
      decide (r.2.makers .sell 3 = [⟨10, 2, 2⟩, ⟨1, 1, 1⟩] ∧ r.2.reached .buy none = [3])) = true := by decide +kernel
  rw [Option.any_eq_true] at hsome
  obtain ⟨⟨calls, b⟩, h, hb⟩ := hsome
  exact ⟨calls, b, h, of_decide_eq_true hb⟩

/-- A taker of 2 gets 1 of the iceberg in the pass and 1 more in the residue. -/
theorem pro_rata_shares_out_part : ∃ calls b, OrderBook.Run BookConfig.smallProRata .continuous calls b ∧
    (∃ x₁ x', Execution.SharesOut ⟨b.advanceReportEpoch, 2, []⟩ 3 0 .buy 3 x₁ x') ∧
    ∃ x, (Execution.matchTaker ⟨b, 2, []⟩ 3 0 .buy none).Returns x ∧ sub64 2 x.remaining = 2 ∧
      sub64 2 x.remaining + x.remaining = 2 := by
  obtain ⟨calls, b, h, hmakers, hreached⟩ := icebergAhead_run
  have hrun := OrderBook.Run.of_execute h
  have hmakers' : b.makers Side.buy.opposite 3 = [⟨10, 2, 2⟩, ⟨1, 1, 1⟩] := hmakers
  obtain ⟨hlevel, htaker⟩ := pro_rata_shares_out_iff hrun rfl rfl
  refine ⟨calls, b, hrun, (hlevel 3 0 .buy 3 2 (by decide)).mpr (by rw [hmakers']; decide), ?_⟩
  obtain ⟨x, hret, hexec, hall⟩ := htaker 3 0 .buy none 2 [] (by decide) (by
    rw [hreached]
    refine ⟨by rw [hmakers']; decide, fun hlt => ?_⟩
    rw [hmakers'] at hlt
    exact absurd hlt (by decide))
  rw [hreached] at hexec
  exact ⟨x, hret, hexec.trans (by simp only [List.map_cons, List.map_nil, hmakers']; decide), hall⟩

/-- A taker of 4 gets 2 of the iceberg, 1 of the ask behind it and 2 of the iceberg's next slice, with 1 left to take; its quantity
wraps around, and the residue takes all the level has. -/
theorem pro_rata_takes_twice : ∃ calls b, OrderBook.Run BookConfig.smallProRata .continuous calls b ∧
    (¬∃ x₁ x', Execution.SharesOut ⟨b.advanceReportEpoch, 4, []⟩ 3 0 .buy 3 x₁ x') ∧
    ∃ b', (b.apply (.submitMarket 3 0 4 4)).Returns
      (⟨.submit ⟨.none, 11, 2 ^ 64 - 7, 2, kInvalidHandle⟩, [⟨3, 1, 103, 10⟩, ⟨3, 2, 103, 1⟩]⟩, b') := by
  have hsome : (OrderBook.execute BookConfig.smallProRata .continuous 20 icebergAhead).any (fun r =>
      decide (r.2.makers .sell 3 = [⟨10, 2, 2⟩, ⟨1, 1, 1⟩]) && ((r.2.apply (.submitMarket 3 0 4 4)).run 20).any fun r =>
        decide (r.1 = ⟨.submit ⟨.none, 11, 2 ^ 64 - 7, 2, kInvalidHandle⟩, [⟨3, 1, 103, 10⟩, ⟨3, 2, 103, 1⟩]⟩)) = true := by
    decide +kernel
  rw [Option.any_eq_true] at hsome
  obtain ⟨⟨calls, b⟩, h, hb⟩ := hsome
  rw [Bool.and_eq_true, decide_eq_true_eq, Option.any_eq_true] at hb
  obtain ⟨hmakers, ⟨out, b'⟩, happly, hout⟩ := hb
  have hmakers' : b.makers Side.buy.opposite 3 = [⟨10, 2, 2⟩, ⟨1, 1, 1⟩] := hmakers
  have hrun := OrderBook.Run.of_execute h
  obtain ⟨L, -, hrepr, -⟩ := hrun.ladder
  have hrel : ExecRel True _ ⟨3, 0, .buy, none⟩ [] ⟨b.advanceReportEpoch, 4, []⟩ ⟨L, 4, []⟩ := hrepr.advanceReportEpoch 4
  refine ⟨calls, b, hrun, fun hs => ?_, b', 20, happly.trans (congrArg (fun o => some (o, b')) (of_decide_eq_true hout))⟩
  have hlt : 4 < 2 ^ 64 := by decide
  have honce := (hrel.sharesOut_iff (i := 3) rfl rfl hlt).mp hs
  rw [hrel.repr.makers, ← hrepr.makers, hmakers'] at honce
  exact absurd (show Maker.SharedOnce 1 [⟨10, 2, 2⟩, ⟨1, 1, 1⟩] 4 from honce) (by decide)

end MatchingEngine

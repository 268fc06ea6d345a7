import MatchingEngine.Lemmas.Check
import MatchingEngine.Lemmas.Effects

/-!
# Runs

Every run of a book is a run of the ladder with the same outcomes, and the other way round. What every effect of an operation keeps
holds after every run (`Ladder.Run.invariant`).
-/

namespace MatchingEngine

open Comp

/-- A ladder and the operations that led to it. -/
inductive Ladder.Run (cfg : BookConfig) (state : TradingState) : List (Op × Outcome) → Ladder → Prop where
  | create : Run cfg state [] (Ladder.create cfg state)
  | apply {calls : List (Op × Outcome)} {L L' : Ladder} {op : Op} {out : Outcome} (before : Run cfg state calls L)
      (returned : (L.apply cfg op).Returns (out, L')) : Run cfg state (calls ++ [(op, out)]) L'

variable {cfg : BookConfig} {state : TradingState} {calls : List (Op × Outcome)} {b : OrderBook} {L : Ladder}

/-- A run of a book is a run of the ladder it represents. -/
theorem OrderBook.Run.ladder (h : OrderBook.Run cfg state calls b) :
    ∃ L, Ladder.Run cfg state calls L ∧ Rep True cfg b L ∧ L.held = none := by
  induction h with
  | create hc => exact ⟨_, .create, repr_create hc, rfl⟩
  | apply _ hr ih =>
    obtain ⟨L, hrun, hrepr, hnone⟩ := ih
    obtain ⟨⟨out, L'⟩, hL, rfl, hrepr', hnone'⟩ := (hrepr.apply hnone _).1 _ hr
    exact ⟨L', .apply hrun hL, hrepr', hnone'⟩
  | check _ hr ih =>
    obtain ⟨L, hrun, hrepr, hnone⟩ := ih
    exact ⟨L, hrun, hrepr.of_checkInvariants hr, hnone⟩

/-- A run of the ladder is the run of a book that represents it. -/
theorem Ladder.Run.book (h : Ladder.Run cfg state calls L) :
    ∃ b, OrderBook.Run cfg state calls b ∧ Rep True cfg b L ∧ L.held = none := by
  induction h with
  | create =>
    obtain ⟨b, hb⟩ := create_isSome cfg state
    exact ⟨b, .create hb, repr_create hb, rfl⟩
  | apply _ hr ih =>
    obtain ⟨b, hrun, hrepr, hnone⟩ := ih
    obtain ⟨⟨out, b'⟩, hb, rfl, hrepr', hnone'⟩ := (hrepr.apply hnone _).2 _ hr
    exact ⟨b', .apply hrun hb, hrepr', hnone'⟩

/-- A ladder and operations that led to it, each of which met a condition. -/
inductive Ladder.RunIn (ok : Ladder → Op → Prop) (cfg : BookConfig) (state : TradingState) : List (Op × Outcome) → Ladder → Prop where
  | create : RunIn ok cfg state [] (Ladder.create cfg state)
  | apply {calls : List (Op × Outcome)} {L L' : Ladder} {op : Op} {out : Outcome} (before : RunIn ok cfg state calls L)
      (meets : ok L op) (returned : (L.apply cfg op).Returns (out, L')) : RunIn ok cfg state (calls ++ [(op, out)]) L'

/-- A conditional run of a book is a conditional run of its ladder, when the condition on the book gives the one on the ladder. -/
theorem OrderBook.RunIn.ladder {ok : OrderBook → Op → Prop} (ok' : Ladder → Op → Prop)
    (hok : ∀ b L op, Rep True cfg b L → L.held = none → ok b op → ok' L op) (h : OrderBook.RunIn ok cfg state calls b) :
    ∃ L, Ladder.RunIn ok' cfg state calls L ∧ Rep True cfg b L ∧ L.held = none := by
  induction h with
  | create hc => exact ⟨_, .create, repr_create hc, rfl⟩
  | apply _ hmeets hr ih =>
    obtain ⟨L, hrun, hrepr, hnone⟩ := ih
    obtain ⟨⟨out, L'⟩, hL, rfl, hrepr', hnone'⟩ := (hrepr.apply hnone _).1 _ hr
    exact ⟨L', .apply hrun (hok _ _ _ hrepr hnone hmeets) hL, hrepr', hnone'⟩
  | check _ hr ih =>
    obtain ⟨L, hrun, hrepr, hnone⟩ := ih
    exact ⟨L, hrun, hrepr.of_checkInvariants hr, hnone⟩

/-! ## Queries -/

section Queries

variable {gh : Prop} (h : Rep gh cfg b L)

include h

theorem Rep.bestBid : b.bestBid = L.bestBid cfg := by
  rw [OrderBook.bestBid, h.bestIndex, h.cfg_eq, Ladder.bestBid]

theorem Rep.bestAsk : b.bestAsk = L.bestAsk cfg := by
  rw [OrderBook.bestAsk, h.bestIndex, h.cfg_eq, Ladder.bestAsk]

/-- What is said of a level. -/
theorem Rep.levelInfo (side : UInt8) (price : Int) : b.levelInfo side price = L.levelInfo cfg side price := by
  unfold OrderBook.levelInfo Ladder.levelInfo OrderBook.level
  rw [h.cfg_eq]
  cases Side.ofRaw side with
  | none => rfl
  | some side =>
    cases cfg.domain.indexOf price with
    | none => rfl
    | some i => simp only [h.queues.aggregate, h.queues.count]

/-- What is said of an order. -/
theorem Rep.orderInfo (hnone : L.held = none) (handle : Handle) : b.orderInfo handle = L.orderInfo cfg handle := by
  unfold OrderBook.orderInfo Ladder.orderInfo
  rcases h.resolve hnone handle with ⟨h1, h2⟩ | ⟨side, i, l, e, r, h2, hq, hh, h1⟩ | ⟨l, d, r, h2, hs, hh, h1⟩
  · rw [h1, h2]
  · have he : e ∈ L.queue side i := by rw [hq]; simp
    rw [h1, h2]
    simp only [h.entry_dormant he, Bool.false_eq_true, if_false, h.entry_side he, h.entry_level he, h.cfg_eq,
      cfg.domain.priceAt_of_lt (h.wf.level_lt he), (h.entries side i e he).id, (h.entries side i e he).remaining]
  · have hd : d ∈ L.stops := by rw [hs]; simp
    have hindex : handle.index = d.slot := by rw [hh]; rfl
    have hat := h.dormants d hd
    rw [h1, h2]
    simp only [h.stop_dormant hd, if_true, hindex, hat.id, hat.remaining, hat.limit, Order.side, hat.encoded, Order.stopMarket, hat.flags,
      ReprAux.decodeSide_encode (i := 0) (by decide)]
    have hprice : (if decide (d.flags &&& kOrderFlagStopMarket ≠ 0) = true then 0 else d.limit.getD 0) = d.limit.getD 0 := by
      unfold Dormant.flags
      cases d.limit <;> simp [kOrderFlagDormantStop, kOrderFlagStopMarket]
    rw [hprice]

end Queries

namespace Ladder.Run

/-- Every reachable ladder is well formed. -/
theorem wf (h : Ladder.Run cfg state calls L) : L.Wf cfg := let ⟨_, _, hrepr, _⟩ := h.book; hrepr.wf

/-- No reachable ladder holds a stop between the calls. -/
theorem held (h : Ladder.Run cfg state calls L) : L.held = none := let ⟨_, _, _, hnone⟩ := h.book; hnone

/-- The invariant rule of runs: what every effect keeps holds after every run. -/
theorem invariant {I : List (Op × Outcome) → Ladder → Prop} (init : I [] (Ladder.create cfg state))
    (step : ∀ calls L op out L', L.Wf cfg → L.held = none → I calls L → Effect cfg L op out L' → I (calls ++ [(op, out)]) L')
    (h : Ladder.Run cfg state calls L) : I calls L := by
  induction h with
  | create => exact init
  | apply hrun hr ih => exact step _ _ _ _ _ hrun.wf hrun.held ih (apply_effect hrun.wf hr)

end Ladder.Run

namespace Ladder.RunIn

variable {ok : Ladder → Op → Prop}

/-- A run of such calls is a run. -/
theorem run (h : Ladder.RunIn ok cfg state calls L) : Ladder.Run cfg state calls L := by
  induction h with
  | create => exact .create
  | apply _ _ hr ih => exact .apply ih hr

/-- The invariant rule of conditional runs. -/
theorem invariant {I : List (Op × Outcome) → Ladder → Prop} (init : I [] (Ladder.create cfg state))
    (step : ∀ calls L op out L', Ladder.Run cfg state calls L → I calls L → ok L op → Effect cfg L op out L' →
      I (calls ++ [(op, out)]) L') (h : Ladder.RunIn ok cfg state calls L) : I calls L := by
  induction h with
  | create => exact init
  | apply hrun hmeets hr ih => exact step _ _ _ _ _ hrun.run ih hmeets (apply_effect hrun.run.wf hr)

end Ladder.RunIn

end MatchingEngine

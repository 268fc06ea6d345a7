import MatchingEngine.Lemmas.Steps
import MatchingEngine.Lemmas.Sweep

/-!
# The book's searches

The read-only loops of the book return, and return what the ladder says: the quantity in reach of a limit, the trader of an order in
reach, the displayed total of a level, the first triggered stop.
-/

namespace MatchingEngine

open Comp

/-- A round of `can_fully_fill`: the level to visit, and the quantity found so far. -/
def OrderBook.fillRound (b : OrderBook) (side : Side) (limit quantity : Nat) (st : Option Nat × Nat) :
    Comp (Turn (Option Nat × Nat) Bool) :=
  match st.1 with
  | none => pure (.done false)
  | some makerLevel =>
    if crosses side makerLevel limit then
      let levelQuantity := (b.level side.opposite makerLevel).aggregateQuantity
      let needed := sub64 quantity st.2
      let available := add64 st.2 (min levelQuantity needed)
      if available = quantity then pure (.done true) else pure (.next (b.nextLevel side.opposite makerLevel, available))
    else pure (.done false)

/-- A round of `would_self_trade`. -/
def OrderBook.traderRound (b : OrderBook) (trader : Nat) (side : Side) (limit : Nat) (makerLevel : Option Nat) :
    Comp (Turn (Option Nat) Bool) :=
  match makerLevel with
  | none => pure (.done false)
  | some makerLevel =>
    if crosses side makerLevel limit then do
      let found ← b.levelHasTrader trader (b.level side.opposite makerLevel).headIndex
      if found then pure (.done true) else pure (.next (b.nextLevel side.opposite makerLevel))
    else pure (.done false)

namespace Rep

variable {gh : Prop} {cfg : BookConfig} {b : OrderBook} {L : Ladder} (h : Rep gh cfg b L)

include h

theorem next_of_split {side : Side} {i : Nat} {l r : List Entry} {e : Entry} (hq : L.queue side i = l ++ e :: r) :
    (b.arena.orderAt e.slot).nextIndex = (r.head?.map Entry.slot).getD kInvalidIndex := by
  have := (h.links_holds hq).next_mid
  rwa [List.head?_map] at this

theorem stop_next_of_split {l r : List Dormant} {d : Dormant} (hs : L.stops = l ++ d :: r) :
    b.stopNextIndices d.slot = (r.head?.map Dormant.slot).getD kInvalidIndex := by
  have hl := h.stops
  rw [hs, List.map_append, List.map_cons] at hl
  have := hl.next_mid
  rwa [List.head?_map] at this

/-- The slot of a stop is in the arena. -/
theorem stop_lt {d : Dormant} (hd : d ∈ L.stops) : d.slot < cfg.maxOrders := (h.wf.place_of_stop hd).1

/-- `can_fully_fill`. By induction on the levels still to visit, a suffix of the occupied ones. -/
theorem canFullyFill {side : Side} {limit quantity : Nat} (hpos : 0 < quantity) (hlt : quantity < 2 ^ 64) :
    (b.canFullyFill side limit quantity).Returns (L.canFill cfg side limit quantity) := by
  have key : ∀ rest pre available, L.occupied cfg side.opposite = pre ++ rest → available < quantity →
      (Comp.loop (b.fillRound side limit quantity) (rest.head?, available)).Returns
        (decide (quantity ≤ available + ((rest.takeWhile fun i => crosses side i limit).map (L.levelQuantity side.opposite)).sum)) := by
    intro rest
    induction rest with
    | nil =>
      intro pre available _ hav
      rw [returns_loop]
      left
      have : ¬quantity ≤ available := by omega
      simp [OrderBook.fillRound, this]
    | cons i rest ih =>
      intro pre available ho hav
      rw [returns_loop]
      by_cases hc : crosses side i limit = true
      · have hagg : (b.level side.opposite i).aggregateQuantity = L.levelQuantity side.opposite i := h.queues.aggregate _ _
        have hlq : L.levelQuantity side.opposite i < 2 ^ 64 := Nat.mod_lt _ (by decide)
        have hneed : sub64 quantity available = quantity - available := sub64_eq (by omega) hlt
        have hadd : add64 available (min (L.levelQuantity side.opposite i) (quantity - available)) =
            available + min (L.levelQuantity side.opposite i) (quantity - available) := add64_eq (by omega)
        simp only [OrderBook.fillRound, List.head?_cons, hc, if_true, hagg, hneed, hadd, List.takeWhile_cons, List.map_cons, List.sum_cons]
        by_cases henough : available + min (L.levelQuantity side.opposite i) (quantity - available) = quantity
        · left
          rw [if_pos henough, returns_pure, Turn.done.injEq, eq_comm, decide_eq_true_iff]
          omega
        · right
          rw [if_neg henough]
          refine ⟨_, (returns_pure _ _).mpr rfl, ?_⟩
          rw [h.nextLevel ho]
          have := ih (pre ++ [i]) (available + min (L.levelQuantity side.opposite i) (quantity - available))
            (by rw [ho]; simp) (by omega)
          rw [Nat.min_eq_left (by omega)] at this ⊢
          rwa [Nat.add_assoc] at this
      · left
        have : ¬quantity ≤ available := by omega
        simp [OrderBook.fillRound, hc, this]
  have := key (L.occupied cfg side.opposite) [] 0 rfl hpos
  rw [Nat.zero_add] at this
  rw [OrderBook.canFullyFill, h.bestIndex]
  exact this

/-- The scan of one level for a trader, from any order of its queue on. -/
theorem levelHasTrader {side : Side} {i : Nat} (trader : Nat) :
    ∀ (r l : List Entry), L.queue side i = l ++ r →
      (b.levelHasTrader trader ((r.head?.map Entry.slot).getD kInvalidIndex)).Returns (r.any fun e => e.trader = trader) := by
  intro r
  induction r with
  | nil =>
    intro l _
    rw [OrderBook.levelHasTrader, returns_loop]
    left
    simp
  | cons e r ih =>
    intro l hq
    have he : e ∈ L.queue side i := by rw [hq]; simp
    rw [OrderBook.levelHasTrader, returns_loop]
    simp only [List.head?_cons, Option.map_some, Option.getD_some, (h.entries side i e he).trader]
    rw [if_neg (slot_ne_invalid (h.entry_lt he))]
    by_cases ht : e.trader = trader
    · left
      simp [ht]
    · right
      rw [if_neg ht]
      refine ⟨_, (returns_pure _ _).mpr rfl, ?_⟩
      have := ih (l ++ [e]) (by rw [hq]; simp)
      rw [h.next_of_split hq]
      simpa [ht, OrderBook.levelHasTrader] using this

/-- `would_self_trade`. -/
theorem wouldSelfTrade {trader limit : Nat} {side : Side} :
    (b.wouldSelfTrade trader side limit).Returns (L.meetsTrader cfg trader side limit) := by
  have key : ∀ rest pre, L.occupied cfg side.opposite = pre ++ rest →
      (Comp.loop (b.traderRound trader side limit) rest.head?).Returns
        ((rest.takeWhile fun i => crosses side i limit).any fun i => (L.queue side.opposite i).any fun e => e.trader = trader) := by
    intro rest
    induction rest with
    | nil =>
      intro pre _
      rw [returns_loop]
      left
      simp [OrderBook.traderRound]
    | cons i rest ih =>
      intro pre ho
      rw [returns_loop]
      by_cases hc : crosses side i limit = true
      · have hfound := h.levelHasTrader trader (L.queue side.opposite i) [] rfl
        rw [← h.headIndex] at hfound
        simp only [OrderBook.traderRound, List.head?_cons, hc, if_true, List.takeWhile_cons, List.any_cons, returns_bind]
        cases hany : (L.queue side.opposite i).any fun e => e.trader = trader with
        | true =>
          left
          refine ⟨true, hany ▸ hfound, ?_⟩
          simp
        | false =>
          right
          refine ⟨_, ⟨false, hany ▸ hfound, (returns_pure _ _).mpr rfl⟩, ?_⟩
          rw [h.nextLevel ho, Bool.false_or]
          exact ih (pre ++ [i]) (by rw [ho]; simp)
      · left
        simp [OrderBook.traderRound, hc]
  have := key (L.occupied cfg side.opposite) [] rfl
  rw [OrderBook.wouldSelfTrade, h.bestIndex]
  exact this

/-- The search of `trigger_stops`. -/
theorem findTriggered :
    b.findTriggered.Returns
      (((L.splitStop fun d => L.triggered d.side d.trigger).map fun p => p.1.slot).getD kInvalidIndex) := by
  have key : ∀ r l, L.stops = l ++ r → (∀ d ∈ l, L.triggered d.side d.trigger = false) →
      (Comp.loop
        (fun index =>
          if index = kInvalidIndex then pure (.done index)
          else if b.stopIsTriggered (b.arena.orderAt index).side (b.stopTriggerPrices index) then pure (.done index)
          else pure (.next (b.stopNextIndices index)))
        ((r.head?.map Dormant.slot).getD kInvalidIndex)).Returns
        (((L.splitStop fun d => L.triggered d.side d.trigger).map fun p => p.1.slot).getD kInvalidIndex) := by
    intro r
    induction r with
    | nil =>
      intro l hs hl
      rw [returns_loop]
      left
      rw [Ladder.splitStop_eq_none.mpr (by rw [hs, List.append_nil]; exact hl)]
      simp
    | cons d r ih =>
      intro l hs hl
      have hd : d ∈ L.stops := by rw [hs]; simp
      rw [returns_loop]
      simp only [List.head?_cons, Option.map_some, Option.getD_some, h.stop_side hd, (h.dormants d hd).trigger, h.stopIsTriggered]
      rw [if_neg (slot_ne_invalid (h.stop_lt hd))]
      by_cases ht : L.triggered d.side d.trigger = true
      · left
        rw [if_pos ht, Ladder.splitStop_eq hs hl ht]
        simp
      · right
        rw [if_neg ht]
        refine ⟨_, (returns_pure _ _).mpr rfl, ?_⟩
        rw [h.stop_next_of_split hs]
        have := ih (l ++ [d]) (by rw [hs]; simp) (fun x hx => ?_)
        · simpa only [h.stopIsTriggered] using this
        rcases List.mem_append.mp hx with hx | hx
        · exact hl x hx
        · rw [List.mem_singleton.mp hx]
          simpa using ht
  have hhead := h.stops.head
  rw [List.head?_map] at hhead
  have := key L.stops [] rfl (by simp)
  rw [OrderBook.findTriggered, show b.stopHead = _ from hhead]
  exact this

/-- The first loop of `match_level_threshold_pro_rata`. -/
theorem displayedTotal {t : Taker} {i : Nat} {x : Execution} (hx : x.book = b) :
    (x.displayedTotal t.trader (b.level t.side.opposite i).headIndex).Returns
      ((((L.queue t.side.opposite i).takeWhile fun e => !Sweep.blocks cfg t e).map Entry.displayed).sum % 2 ^ 64,
        (((L.queue t.side.opposite i).find? fun e => Sweep.blocks cfg t e).map Entry.slot).getD kInvalidIndex) := by
  have key : ∀ (r l : List Entry) (sum : Nat), L.queue t.side.opposite i = l ++ r →
      (Comp.loop
        (fun (st : Nat × Nat) =>
          if st.1 = kInvalidIndex then pure (.done (st.2, kInvalidIndex))
          else if b.cfg.selfTradePolicy = .cancelTaker ∧ b.traderIds st.1 = t.trader then pure (.done (st.2, st.1))
          else pure (.next ((b.arena.orderAt st.1).nextIndex, add64 st.2 (b.displayedRemaining st.1))))
        ((r.head?.map Entry.slot).getD kInvalidIndex, sum % 2 ^ 64)).Returns
        ((sum + ((r.takeWhile fun e => !Sweep.blocks cfg t e).map Entry.displayed).sum) % 2 ^ 64,
          ((r.find? fun e => Sweep.blocks cfg t e).map Entry.slot).getD kInvalidIndex) := by
    intro r
    induction r with
    | nil =>
      intro l sum _
      rw [returns_loop]
      left
      simp
    | cons e r ih =>
      intro l sum hq
      have he : e ∈ L.queue t.side.opposite i := by rw [hq]; simp
      rw [returns_loop]
      simp only [List.head?_cons, Option.map_some, Option.getD_some, h.cfg_eq, (h.entries _ i e he).trader,
        (h.entries _ i e he).displayed]
      rw [if_neg (slot_ne_invalid (h.entry_lt he))]
      by_cases hb : cfg.selfTradePolicy = .cancelTaker ∧ e.trader = t.trader
      · left
        have hblock : Sweep.blocks cfg t e = true := by simpa [Sweep.blocks] using hb
        rw [if_pos hb]
        simp [hblock]
      · right
        have hblock : Sweep.blocks cfg t e = false := by simpa [Sweep.blocks] using hb
        rw [if_neg hb]
        refine ⟨_, (returns_pure _ _).mpr rfl, ?_⟩
        have := ih (l ++ [e]) (sum + e.displayed) (by rw [hq]; simp)
        rw [h.next_of_split hq, add64_mod]
        simpa [hblock, Nat.add_assoc, h.cfg_eq] using this
  have := key (L.queue t.side.opposite i) [] 0 rfl
  rw [Execution.displayedTotal, h.headIndex, hx]
  simpa using this

end Rep

end MatchingEngine

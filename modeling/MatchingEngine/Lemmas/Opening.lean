import MatchingEngine.Lemmas.Population

/-!
# The opening auction

Before the uncross of an opening auction no order has matched and nothing hides: every resting order is a plain one within the configured
maximum, and no stop is dormant. The uncross then takes the orders of each side from the front of one line, best price first and then by
arrival.
-/

namespace MatchingEngine

open Comp Function

namespace Ladder

variable {cfg : BookConfig} {L L' L₀ : Ladder} {op : Op}

/-! ## Before the uncross -/

/-- The orders of an opening auction: they display all they have left, which is within the maximum, and there are no stops. -/
abbrev Opening (cfg : BookConfig) (L : Ladder) : Prop :=
  All (fun _ _ e => e.displayed = e.remaining ∧ e.remaining ≤ cfg.maxOrderQuantity) (fun _ => False) L

/-- A ladder before its opening is bounded. -/
theorem Opening.bounded (h : L.Opening cfg) : L.Bounded cfg := ⟨fun he => (h.entry he).2, fun hd => (h.stop hd).elim, fun hd => (h.held hd).elim⟩

/-- What an operation that admits no order keeps of the orders. -/
theorem closed_opening (L : Ladder) (handle : Handle) :
    Closed cfg L (.cancel handle) (fun _ _ e => e.displayed = e.remaining ∧ e.remaining ≤ cfg.maxOrderQuantity) (fun _ => False) where
  shrink h hs := ⟨hs.shown h.1, Nat.le_trans hs.remaining h.2⟩
  enter ha := nomatch ha
  settle h := h.elim
  sleep h := nomatch h
  less h := h.elim

theorem Opening.remove (hw : L.Wf cfg) (h : L.Opening cfg) {side : Side} {j : Nat} {l r : List Entry} {e : Entry}
    (hq : L.queue side j = l ++ e :: r) : (L.remove side j e.slot).Opening cfg :=
  Change.all (closed_opening L kInvalidHandle) hw h (.remove hq)

theorem Opening.admitted (hw : L.Wf cfg) (h : L.Opening cfg) {L0 : Ladder} {t : Taker} {i quantity : Nat} {rests : Bool}
    {display : Nat → Nat} (ha : Admitted cfg L op L0 t i quantity rests display) : L0.Opening cfg := by
  have hreset : L.reset.Opening cfg := ⟨h.entry, h.stop, h.held⟩
  cases ha with
  | limit => exact hreset
  | postOnly => exact hreset
  | iceberg => exact hreset
  | market => exact hreset
  | replace _ _ hq _ _ =>
    have hremoved := hreset.remove hw.reset hq
    exact ⟨hremoved.entry, hremoved.stop, hremoved.held⟩

/-- An order that rests without having matched. -/
theorem Opening.rest (h : L.Opening cfg) {id trader i quantity : Nat} {side : Side} (hle : quantity ≤ cfg.maxOrderQuantity) :
    (L.rest id trader side i quantity quantity).2.Opening cfg := by
  unfold Ladder.rest
  split
  · exact h
  · split
    · refine ⟨fun {side' j x} hx => ?_, h.stop, h.held⟩
      dsimp only at hx
      rw [setQueue_queue] at hx
      split at hx
      · rcases List.mem_append.mp hx with hx | hx
        · exact h.entry hx
        · rw [List.mem_singleton] at hx
          rw [hx]
          exact ⟨rfl, hle⟩
      · exact h.entry hx
    · exact h

/-- Without stops a cascade does nothing. -/
theorem cascade_none {trades trades' : List Trade} (hs : ∀ d, d ∉ L.stops) (h : (L.cascade cfg trades).Returns (trades', L')) :
    trades' = trades ∧ L' = L := by
  have hnone : (L.splitStop fun d => L.triggered d.side d.trigger) = none := splitStop_eq_none.mpr fun d hd => absurd hd (hs d)
  have hdone : (L.cascade cfg trades).Returns (trades, L) := by
    rw [cascade, returns_loop]
    left
    dsimp only
    rw [hnone]
    exact (returns_pure _ _).mpr rfl
  have := h.unique hdone
  exact Prod.mk.injEq .. ▸ this

/-- An operation after which the auction is still to open keeps its orders so. -/
theorem Effect.keeps_opening {out : Outcome} (hw : L.Wf cfg) (hnone : L.held = none)
    (ho : L.tradingState = .openingAuction → L.Opening cfg) (h : Effect cfg L op out L') :
    L'.tradingState = .openingAuction → L'.Opening cfg := by
  intro hts
  cases h with
  | refused _ _ hsame =>
    rcases hsame with rfl | rfl
    · exact ho hts
    · have := ho hts
      exact ⟨this.entry, this.stop, this.held⟩
  | @entered _ L0 L1 _ t i quantity rests display w handle trades ha hm hr hc =>
    have hs := ha.sound hw hnone
    have hw1 := hm.wf hs.wf
    have hw2 := hr.wf hw1 hs.level
    have hnone2 : _ = none := hr.held.trans ((hm.kept hs.wf).held.trans hs.held)
    have hts0 : L.tradingState = .openingAuction := by
      rw [← hts, cascade_tradingState hw2 hnone2 hc, hr.tradingState, (hm.kept hs.wf).tradingState, ha.tradingState hw]
    have h0 := (ho hts0).admitted hw ha
    have hw' : w = ⟨L0, quantity, []⟩ := by
      rcases hm with ⟨hcont, -⟩ | ⟨-, hw'⟩
      · rw [ha.tradingState hw, hts0] at hcont
        cases hcont
      · exact hw'
    subst hw'
    have h1 : L1.Opening cfg := by
      rcases hr with ⟨hrests, -, hr⟩ | ⟨-, -, rfl⟩
      · have hdisplay : display quantity = quantity := by
          cases ha with
          | limit => rfl
          | postOnly => rfl
          | iceberg _ _ hcont _ _ _ =>
            rw [hts0] at hcont
            cases hcont
          | market => rfl
          | replace => rfl
        have hL : L1 = _ := congrArg Prod.snd hr
        rw [hL]
        dsimp only
        rw [hdisplay]
        exact h0.rest hs.le
      · exact h0
    obtain ⟨-, rfl⟩ := cascade_none (fun d hd => (h1.stop hd).elim) hc
    exact h1
  | lost _ _ hq _ _ _ _ _ =>
    obtain ⟨hstate, -⟩ := hw.reset.removed hq
    have hL := ho (hstate.symm.trans hts)
    have hreset : L.reset.Opening cfg := ⟨hL.entry, hL.stop, hL.held⟩
    have hremoved := hreset.remove hw.reset hq
    exact ⟨hremoved.entry, hremoved.stop, hremoved.held⟩
  | slept _ _ _ _ hcont _ hrest _ =>
    obtain ⟨free, -, rfl⟩ := (restStop_slept hrest).room
    have hcont' : L.tradingState = .openingAuction := hts
    rw [hcont] at hcont'
    cases hcont'
  | fired _ _ _ _ hcont _ hrest _ hact hc =>
    have hsl := restStop_slept hrest
    obtain ⟨hw1, hnone1⟩ := hsl.wf hw.reset hnone
    rw [← List.append_nil L.stops] at hact
    obtain ⟨free, -, rfl⟩ := hsl.room
    obtain ⟨-, -, -, hw2, hnone2⟩ := hact.wf hw1 hnone1 rfl
    have hkept := (cascade_tradingState hw2 hnone2 hc).trans (hact.tradingState hw1 hnone1 rfl)
    have hcont' : L.tradingState = .openingAuction := hkept.symm.trans hts
    rw [hcont] at hcont'
    cases hcont'
  | cancelMissed _ => exact ho hts
  | cancelled hloc =>
    obtain ⟨l, r, hq, -⟩ := resolve_resting hloc
    obtain ⟨hstate, -⟩ := hw.removed hq
    exact (ho (hstate.symm.trans hts)).remove hw hq
  | @cancelledStop _ d hloc =>
    obtain ⟨l, r, hs, -⟩ := resolve_dormant hloc
    rw [removeStop_eq hs (hw.stop_ne_of_split hs).1] at hts
    have hd : d ∈ L.stops := by rw [hs]; simp
    exact ((ho hts).stop hd).elim
  | amendRefused _ => exact ho hts
  | @amended _ n i side e hloc hpos hle _ =>
    obtain ⟨l, r, hq, -⟩ := resolve_resting hloc
    have hstate : (L.amendEntry side i e.slot n).tradingState = L.tradingState := by
      rw [amendEntry_eq hw hq]
      rfl
    exact Change.all (closed_opening L kInvalidHandle) hw (ho (hstate.symm.trans hts)) (.amend hq hpos hle)
  | @amendedStop _ _ d hloc _ _ _ =>
    obtain ⟨l, r, hs, -⟩ := resolve_dormant hloc
    rw [amendStop_eq hw hs] at hts
    have hd : d ∈ L.stops := by rw [hs]; simp
    exact ((ho hts).stop hd).elim
  | uncrossRefused _ => exact ho hts
  | opened _ _ => cases hts
  | uncrossed _ _ _ hloop =>
    have hw1 : { L with tradingState := .continuous }.Wf cfg := hw.of_slots (fun _ _ => rfl) rfl rfl rfl rfl rfl
    have hkept : _ = TradingState.continuous := (auction_kept hw1 hloop).tradingState
    have hts : _ = TradingState.openingAuction := hts
    rw [hkept] at hts
    cases hts

/-- As long as the auction is to open, its orders are plain and within the maximum. -/
theorem Run.opening {state : TradingState} {calls : List (Op × Outcome)} (h : Ladder.Run cfg state calls L)
    (hts : L.tradingState = .openingAuction) : L.Opening cfg :=
  h.invariant (I := fun _ L => L.tradingState = .openingAuction → L.Opening cfg) (fun _ => ⟨nofun, nofun, nofun⟩)
    (fun _ _ _ _ _ hw hnone hi he => he.keeps_opening hw hnone hi) hts

/-! ## The uncross -/

section Uncross

variable {size : Nat} {result : AuctionResult} {trades : List Trade}

/-- The loop of the uncross returns: every round executes something. -/
theorem auction_terminates (clearing : Nat) (price : Int) (st : Ladder × Nat × List Trade) : (auction cfg clearing price st).Terminates := by
  refine Comp.loop_terminates (fun _ => True) (fun st => st.2.1) ?_ st trivial
  rintro ⟨L, remaining, trades⟩ -
  dsimp only
  split
  · split
    · rename_i hgo
      split
      · rename_i b rb a ra hqb hqa
        have hpos : 0 < min remaining (min b.displayed a.displayed) :=
          Nat.lt_min.mpr ⟨Nat.pos_of_ne_zero hgo.1, Nat.lt_min.mpr ⟨b.displayed_pos, a.displayed_pos⟩⟩
        exact .inr ⟨_, (returns_pure _ _).mpr rfl, trivial, Nat.sub_lt (Nat.pos_of_ne_zero hgo.1) hpos⟩
      · exact .inl ⟨_, (returns_pure _ _).mpr rfl⟩
    · exact .inl ⟨_, (returns_pure _ _).mpr rfl⟩
  · exact .inl ⟨_, (returns_pure _ _).mpr rfl⟩

/-- What the uncross of an opening auction can return: nothing was executable, or the loop has run. -/
inductive Opened (cfg : BookConfig) (L : Ladder) : AuctionResult → List Trade → Ladder → Prop where
  | nothing (idle : (L.clearing cfg).level = none ∨ (L.clearing cfg).executable = 0) :
      Opened cfg L ⟨.none, none, 0, 0⟩ [] { L with tradingState := .continuous }
  | executed {i remaining : Nat} {trades : List Trade} {L1 : Ladder} (level : (L.clearing cfg).level = some i)
      (executable : (L.clearing cfg).executable ≠ 0)
      (loop : (auction cfg i (cfg.domain.minimum + i) ({ L with tradingState := .continuous }, (L.clearing cfg).executable, [])).Returns
        (L1, remaining, trades)) :
      Opened cfg L ⟨.none, some (cfg.domain.minimum + i), (L.clearing cfg).executable - remaining, trades.length⟩ trades
        { L1 with lastPrice := some (cfg.domain.minimum + i) }

theorem uncross_opened (hts : L.tradingState = .openingAuction) (hsize : cfg.maxOrders ≤ size) :
    ∃ result trades L', (L.uncrossOpeningAuction cfg size).Returns (result, trades, L') ∧ Opened cfg L result trades L' := by
  unfold uncrossOpeningAuction
  rw [if_neg (fun h => h hts), if_neg (Nat.not_lt.mpr hsize)]
  dsimp only
  cases hlevel : (L.clearing cfg).level with
  | none => exact ⟨_, _, _, (returns_pure _ _).mpr rfl, .nothing (.inl hlevel)⟩
  | some i =>
    dsimp only
    by_cases hzero : (L.clearing cfg).executable = 0
    · rw [if_pos hzero]
      exact ⟨_, _, _, (returns_pure _ _).mpr rfl, .nothing (.inr hzero)⟩
    · rw [if_neg hzero]
      obtain ⟨⟨L1, remaining, trades⟩, hloop⟩ : (auction cfg i (cfg.domain.minimum + i)
        ({ L with tradingState := .continuous }, (L.clearing cfg).executable, [])).Terminates := auction_terminates _ _ _
      exact ⟨_, _, _, (returns_bind _ _ _).mpr ⟨_, hloop, (returns_pure _ _).mpr rfl⟩, .executed hlevel hzero hloop⟩

/-- The bids and asks cross exactly when the best ones do. -/
theorem Wf.crossed_iff (hw : L.Wf cfg) : (∃ i j, j ≤ i ∧ L.queue .buy i ≠ [] ∧ L.queue .sell j ≠ []) ↔
    ∃ bid ask, L.best cfg .buy = some bid ∧ L.best cfg .sell = some ask ∧ ask ≤ bid := by
  constructor
  · rintro ⟨i, j, hji, hi, hj⟩
    obtain ⟨bid, hbid⟩ := hw.best_isSome hi
    obtain ⟨ask, hask⟩ := hw.best_isSome hj
    have h1 := hw.not_better hbid hi
    have h2 := hw.not_better hask hj
    simp only [betterLevel] at h1 h2
    exact ⟨bid, ask, hbid, hask, by omega⟩
  · rintro ⟨bid, ask, hbid, hask, hle⟩
    exact ⟨bid, ask, hle, (best_eq_some hbid).2.1, (best_eq_some hask).2.1⟩

end Uncross

end Ladder

end MatchingEngine

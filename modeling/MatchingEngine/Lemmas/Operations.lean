import MatchingEngine.Lemmas.Refine

/-!
# The public operations refine those of the ladder

Each public operation, called on a book and on the ladder it represents, returns on both or on neither, with the same outcome, and leaves
a book that represents the ladder: `Rep.apply`.
-/

namespace MatchingEngine

open Comp Function

/-- What passes has a side and a quantity in range. -/
theorem BookConfig.preflight_ok {cfg : BookConfig} {raw : UInt8} {quantity : Nat} {side : Side}
    (h : cfg.preflight raw quantity = .ok side) : Side.ofRaw raw = some side ∧ 0 < quantity ∧ quantity ≤ cfg.maxOrderQuantity := by
  unfold preflight at h
  split at h
  · cases h
  · rename_i s hs
    split at h
    · cases h
    · split at h
      · cases h
      · cases h
        exact ⟨hs, by omega, by omega⟩

/-- The reasons `preflight` gives. -/
theorem BookConfig.preflight_reason {cfg : BookConfig} {raw : UInt8} {quantity : Nat} {reason : RejectReason}
    (h : cfg.preflight raw quantity = .error reason) : reason ≠ .none ∧ reason ≠ .priceOutOfDomain := by
  unfold preflight at h
  split at h
  · cases h
    exact ⟨nofun, nofun⟩
  · split at h
    · cases h
      exact ⟨nofun, nofun⟩
    · split at h
      · cases h
        exact ⟨nofun, nofun⟩
      · cases h

/-- A quantity in range is a 64-bit number. -/
theorem BookConfig.quantity_lt {cfg : BookConfig} {quantity : Nat} (h : quantity ≤ cfg.maxOrderQuantity) : quantity < 2 ^ 64 := by
  have := cfg.maxOrderQuantity_lt
  omega

/-! ## Checks -/

section Checks

variable {gh : Prop} {cfg : BookConfig} {b : OrderBook} {L : Ladder}

/-- What a limit order that passed its checks is known to be. -/
structure Ladder.Passed (cfg : BookConfig) (L : Ladder) (raw : UInt8) (price : Int) (quantity : Nat) (rawTime : UInt8) (side : Side)
    (i : Nat) (tif : TimeInForce) : Prop where
  named : Side.ofRaw raw = some side
  pos : 0 < quantity
  le : quantity ≤ cfg.maxOrderQuantity
  level : cfg.domain.indexOf price = some i
  time : TimeInForce.ofRaw rawTime = some tif
  state : L.tradingState = .openingAuction → tif = .gtc
  fillable : tif = .fok → L.canFill cfg side i quantity = true
  room : tif = .gtc → L.free ≠ [] ∨ L.tradingState = .continuous ∧ L.crossing cfg side i = true

theorem Ladder.preflightLimit_ok {raw rawTime : UInt8} {price : Int} {quantity i : Nat} {side : Side} {tif : TimeInForce}
    (h : L.preflightLimit cfg raw price quantity rawTime = .ok (side, i, tif)) :
    Passed cfg L raw price quantity rawTime side i tif := by
  unfold preflightLimit at h
  split at h
  · cases h
  · rename_i tif' htif
    split at h
    · cases h
    · rename_i side' hpre
      obtain ⟨hside, hpos, hle⟩ := BookConfig.preflight_ok hpre
      split at h
      · cases h
      · rename_i i' hi
        split at h
        · cases h
        · rename_i hstate
          split at h
          · cases h
          · rename_i hfok
            split at h
            · cases h
            · rename_i hroom
              cases h
              refine ⟨hside, hpos, hle, hi, htif, fun ha => ?_, fun hf => ?_, fun hg => ?_⟩
              · by_contra hne
                exact hstate ⟨ha, hne⟩
              · by_contra hne
                exact hfok ⟨hf, by simpa using hne⟩
              · by_cases hfree : L.free = []
                · right
                  constructor
                  · cases hts : L.tradingState with
                    | continuous => rfl
                    | openingAuction => exact absurd ⟨hg, hfree, Or.inl hts⟩ hroom
                  · by_contra hne
                    exact hroom ⟨hg, hfree, Or.inr (by simpa using hne)⟩
                · exact Or.inl hfree

/-- One that does not has a reason. -/
theorem Ladder.preflightLimit_error {raw rawTime : UInt8} {price : Int} {quantity : Nat} {reason : RejectReason}
    (h : L.preflightLimit cfg raw price quantity rawTime = .error reason) : reason ≠ .none := by
  unfold preflightLimit at h
  split at h
  · cases h
    exact nofun
  · split at h
    · rename_i hpre
      cases h
      exact (BookConfig.preflight_reason hpre).1
    · split at h
      · cases h
        exact nofun
      · split at h
        · cases h
          exact nofun
        · split at h
          · cases h
            exact nofun
          · split at h
            · cases h
              exact nofun
            · cases h

/-- A stop that passes has a quantity in range and a free slot. -/
theorem Ladder.preflightStop_ok {raw : UInt8} {limit : Option Int} {quantity : Nat} {side : Side}
    (h : L.preflightStop cfg raw limit quantity = .ok side) : (0 < quantity ∧ quantity ≤ cfg.maxOrderQuantity) ∧ L.free ≠ [] := by
  unfold preflightStop at h
  split at h
  · cases h
  · split at h
    · cases h
    · rename_i side' hpre
      split at h
      · cases h
      · split at h
        · cases h
        · rename_i hf
          exact ⟨(BookConfig.preflight_ok hpre).2, hf⟩

/-- A stop that passes has a side, a continuous market and a limit in the domain. -/
theorem Ladder.preflightStop_facts {raw : UInt8} {limit : Option Int} {quantity : Nat} {side : Side}
    (h : L.preflightStop cfg raw limit quantity = .ok side) :
    Side.ofRaw raw = some side ∧ L.tradingState = .continuous ∧ ∀ price, limit = some price → (cfg.domain.indexOf price).isSome := by
  unfold preflightStop at h
  split at h
  · cases h
  · rename_i hts
    split at h
    · cases h
    · rename_i side' hpre
      split at h
      · cases h
      · rename_i hlim
        split at h
        · cases h
        · cases h
          refine ⟨(BookConfig.preflight_ok hpre).1, ?_, fun price hp => ?_⟩
          · cases hs : L.tradingState with
            | continuous => rfl
            | openingAuction => exact absurd hs hts
          · rw [hp] at hlim
            simpa [Option.isSome_iff_ne_none] using hlim

/-- One that does not has a reason. -/
theorem Ladder.preflightStop_error {raw : UInt8} {limit : Option Int} {quantity : Nat} {reason : RejectReason}
    (h : L.preflightStop cfg raw limit quantity = .error reason) : reason ≠ .none := by
  unfold preflightStop at h
  split at h
  · cases h
    exact nofun
  · split at h
    · rename_i hpre
      cases h
      exact (BookConfig.preflight_reason hpre).1
    · split at h
      · cases h
        exact nofun
      · split at h
        · cases h
          exact nofun
        · cases h

variable (h : Rep gh cfg b L)

include h

/-- `preflight_limit`. -/
theorem Rep.preflightLimit (side : UInt8) (price : Int) (quantity : Nat) (timeInForce : UInt8) :
    (b.preflightLimit side price quantity timeInForce).Returns (L.preflightLimit cfg side price quantity timeInForce) := by
  unfold OrderBook.preflightLimit Ladder.preflightLimit OrderBook.preflight
  rw [h.cfg_eq]
  cases TimeInForce.ofRaw timeInForce with
  | none => exact (returns_pure _ _).mpr rfl
  | some tif =>
    dsimp only
    cases hpre : cfg.preflight side quantity with
    | error reason => exact (returns_pure _ _).mpr rfl
    | ok side =>
      obtain ⟨-, hpos, hle⟩ := BookConfig.preflight_ok hpre
      dsimp only
      cases cfg.domain.indexOf price with
      | none => exact (returns_pure _ _).mpr rfl
      | some i =>
        dsimp only
        rw [h.tradingState]
        split
        · exact (returns_pure _ _).mpr rfl
        · have hroom : (tif = .gtc ∧ b.arena.size = b.arena.capacity ∧
              (L.tradingState = .openingAuction ∨ ¬b.hasCrossingOrder side i = true)) ↔
              tif = .gtc ∧ L.free = [] ∧ (L.tradingState = .openingAuction ∨ ¬L.crossing cfg side i = true) := by
            rw [h.arenaFull, h.hasCrossingOrder]
          have hlast : (if tif = .gtc ∧ b.arena.size = b.arena.capacity ∧
              (L.tradingState = .openingAuction ∨ ¬b.hasCrossingOrder side i = true) then
                (pure (.error .orderCapacityExhausted) : Comp (Except RejectReason (Side × Nat × TimeInForce)))
              else pure (.ok (side, i, tif))).Returns
              (if tif = .gtc ∧ L.free = [] ∧ (L.tradingState = .openingAuction ∨ ¬L.crossing cfg side i = true) then
                .error .orderCapacityExhausted
              else .ok (side, i, tif)) := by
            by_cases hc : tif = .gtc ∧ L.free = [] ∧ (L.tradingState = .openingAuction ∨ ¬L.crossing cfg side i = true)
            · rw [if_pos (hroom.mpr hc), if_pos hc, returns_pure]
            · rw [if_neg (fun hc' => hc (hroom.mp hc')), if_neg hc, returns_pure]
          by_cases hfok : tif = .fok
          · rw [if_pos hfok, returns_bind]
            refine ⟨_, h.canFullyFill hpos (BookConfig.quantity_lt hle), ?_⟩
            cases hfill : L.canFill cfg side i quantity with
            | false => simp [hfok]
            | true => simp [hfok]
          · rw [if_neg hfok, returns_bind]
            refine ⟨true, (returns_pure _ _).mpr rfl, ?_⟩
            rw [if_neg (fun hc : tif = .fok ∧ _ => hfok hc.1)]
            exact hlast

/-- `preflight_post_only`. -/
theorem Rep.preflightPostOnly (side : UInt8) (price : Int) (quantity : Nat) :
    b.preflightPostOnly side price quantity = L.preflightPostOnly cfg side price quantity := by
  have hfull := h.arenaFull
  unfold OrderBook.preflightPostOnly Ladder.preflightPostOnly OrderBook.preflight
  simp only [h.hasCrossingOrder, hfull]
  rewrite [h.cfg_eq, h.tradingState]
  rfl

/-- `preflight_stop`. -/
theorem Rep.preflightStop (side : UInt8) (limit : Option Int) (quantity : Nat) :
    b.preflightStop side limit quantity = L.preflightStop cfg side limit quantity := by
  have hfull := h.arenaFull
  unfold OrderBook.preflightStop Ladder.preflightStop OrderBook.preflight
  simp only [hfull]
  rewrite [h.cfg_eq, h.tradingState]
  rfl

end Checks

/-! ## Submissions -/

section Submissions

variable {gh : Prop} {cfg : BookConfig} {b : OrderBook} {L : Ladder}

theorem Rep.reset (h : Rep gh cfg b L) : Rep gh cfg b.resetStopActivations L.reset := h.setActivations []

theorem Ladder.rest_held {id trader i remaining display : Nat} {side : Side} (hnone : L.held = none) :
    (L.rest id trader side i remaining display).2.held = none := by
  unfold Ladder.rest
  split
  · exact hnone
  · split
    · exact hnone
    · exact hnone

/-- A submission that was refused on both sides. -/
theorem Rep.refuse (h : Rep gh cfg b L) (hnone : L.held = none) (reason : RejectReason) (quantity : Nat) :
    Sim (Concluded gh cfg) (pure (rejected reason quantity, [], b)) (L.refuse reason quantity) :=
  Sim.pure ⟨rfl, rfl, h, hnone⟩

/-- What a submission does with the remainder of its taker. -/
theorem Rep.settleTaker (h : Rep gh cfg b L) (hnone : L.held = none) (t : Taker) (rests : Prop) [Decidable rests]
    (display : Nat) {i quantity remaining : Nat} {trades : List Trade} (hi : i < cfg.domain.tickCount) (hlt : remaining < 2 ^ 64)
    (hdisplay : remaining ≠ 0 → 0 < display ∧ display ≤ remaining) (hfree : rests → remaining ≠ 0 → L.free ≠ []) :
    Sim (Concluded gh cfg)
      ((if rests ∧ remaining ≠ 0 then b.rest t.id t.trader t.side i remaining display else (kInvalidHandle, b)).2.concludeSubmission
        quantity remaining (if rests ∧ remaining ≠ 0 then b.rest t.id t.trader t.side i remaining display else (kInvalidHandle, b)).1
        trades)
      ((if rests ∧ remaining ≠ 0 then L.rest t.id t.trader t.side i remaining display else (kInvalidHandle, L)).2.conclude cfg
        quantity remaining (if rests ∧ remaining ≠ 0 then L.rest t.id t.trader t.side i remaining display else (kInvalidHandle, L)).1
        trades) := by
  by_cases hr : rests ∧ remaining ≠ 0
  · rw [if_pos hr, if_pos hr]
    obtain ⟨h1, h2⟩ := h.rest hnone (hfree hr.1 hr.2) hi ⟨hdisplay hr.2, hlt⟩
    rw [h1]
    exact h2.concludeSubmission (Ladder.rest_held hnone) _ _ _
  · rw [if_neg hr, if_neg hr]
    exact h.concludeSubmission hnone _ _ _

/-- A taker matches, and what is left of it settles. -/
theorem Rep.matchAndSettle (h : Rep gh cfg b L) (hnone : L.held = none) (t : Taker) (rests : Prop) [Decidable rests]
    (display : Nat → Nat) {i quantity : Nat} (hi : i < cfg.domain.tickCount) (hlim : t.limit = some i) (hlt : quantity < 2 ^ 64)
    (hdisplay : ∀ r, r ≠ 0 → 0 < display r ∧ display r ≤ r)
    (hroom : rests → L.free ≠ [] ∨ L.crossing cfg t.side i = true) :
    Sim (Concluded gh cfg)
      (do
        let x ← Execution.matchTaker ⟨b, quantity, []⟩ t.id t.trader t.side t.limit
        (if rests ∧ x.remaining ≠ 0 then x.book.rest t.id t.trader t.side i x.remaining (display x.remaining)
          else (kInvalidHandle, x.book)).2.concludeSubmission quantity x.remaining
          (if rests ∧ x.remaining ≠ 0 then x.book.rest t.id t.trader t.side i x.remaining (display x.remaining)
          else (kInvalidHandle, x.book)).1 x.trades)
      (do
        let w ← Sweep.run cfg t ⟨L, quantity, []⟩
        (if rests ∧ w.remaining ≠ 0 then w.ladder.rest t.id t.trader t.side i w.remaining (display w.remaining)
          else (kInvalidHandle, w.ladder)).2.conclude cfg quantity w.remaining
          (if rests ∧ w.remaining ≠ 0 then w.ladder.rest t.id t.trader t.side i w.remaining (display w.remaining)
          else (kInvalidHandle, w.ladder)).1 (w.fills.map (t.report cfg))) := by
  refine Sim.bind (h.matchTaker quantity).returned ?_
  rintro x w ⟨hrel, -, hrun⟩
  have htrades : x.trades = w.fills.map (t.report cfg) := hrel.trades
  rw [hrel.remaining, htrades]
  exact hrel.repr.settleTaker ((Sweep.run_kept h.wf hrun).held.trans hnone) t rests (display w.remaining) hi (Sweep.run_remaining_lt h.wf hlt hrun) (hdisplay _)
    fun hrest hrem => Sweep.run_frees h.wf hlim (hroom hrest) hrun hrem

/-- The self-trade check of a limit or iceberg order, and what follows it. -/
theorem Rep.selfTradeCheck (h : Rep gh cfg b L) (hnone : L.held = none) {t : Taker} {i quantity : Nat} {rests : Bool}
    {display : Nat → Nat} {f : Comp (SubmitResult × List Trade × OrderBook)}
    (hf : Sim (Concluded gh cfg) f (L.enter cfg t i quantity rests display)) :
    Sim (Concluded gh cfg)
      (if cfg.selfTradePolicy = .cancelTaker then do
        let selfTrade ← b.wouldSelfTrade t.trader t.side i
        if selfTrade = true then pure (rejected .selfTradePrevented quantity, [], b) else f
      else do
        let selfTrade ← pure false
        if selfTrade = true then pure (rejected .selfTradePrevented quantity, [], b) else f)
      (L.enterChecked cfg t i quantity rests display) := by
  unfold Ladder.enterChecked
  by_cases hpol : cfg.selfTradePolicy = .cancelTaker
  · rw [if_pos hpol]
    refine Sim.bind_left h.wouldSelfTrade ?_
    by_cases hm : L.meetsTrader cfg t.trader t.side i = true
    · rw [if_pos hm, if_pos ⟨hpol, hm⟩]
      exact h.refuse hnone _ _
    · rw [if_neg hm, if_neg (fun hc => hm hc.2)]
      exact hf
  · rw [if_neg hpol, if_neg (fun hc => hpol hc.1)]
    exact Sim.bind_left ((returns_pure _ _).mpr rfl) hf

/-- `submit_limit`. -/
theorem Rep.submitLimit (h : Rep gh cfg b L) (hnone : L.held = none) (id trader : Nat) (side : UInt8) (price : Int) (quantity : Nat)
    (timeInForce : UInt8) (tradesSize : Nat) :
    Sim (Concluded gh cfg) (b.submitLimit id trader side price quantity timeInForce tradesSize)
      (L.submitLimit cfg id trader side price quantity timeInForce tradesSize) := by
  have h := h.reset
  have hnone : L.reset.held = none := hnone
  have hcap : b.resetStopActivations.requiredTradeCapacity = cfg.maxOrders := h.arena.capacity
  unfold OrderBook.submitLimit Ladder.submitLimit OrderBook.preflight
  dsimp only
  rw [hcap, h.cfg_eq]
  split
  · exact h.refuse hnone _ _
  · cases cfg.preflight side quantity with
    | error reason => exact h.refuse hnone _ _
    | ok _ =>
      dsimp only
      split
      · exact h.refuse hnone _ _
      · refine Sim.bind_left (h.preflightLimit side price quantity timeInForce) ?_
        cases hpre : L.reset.preflightLimit cfg side price quantity timeInForce with
        | error reason => exact h.refuse hnone _ _
        | ok p =>
          obtain ⟨side, i, tif⟩ := p
          have hp := Ladder.preflightLimit_ok hpre
          have hi := (cfg.domain.indexOf_eq_some.mp hp.level).1
          have hlt := BookConfig.quantity_lt hp.le
          dsimp only
          refine h.selfTradeCheck hnone (t := ⟨id, trader, side, some i⟩) ?_
          unfold Ladder.enter
          simp only [h.tradingState, decide_eq_true_eq]
          by_cases hts : L.reset.tradingState = .continuous
          · rw [if_pos hts, if_pos hts]
            refine h.matchAndSettle hnone ⟨id, trader, side, some i⟩ (tif = .gtc) (fun r => r) hi rfl hlt
              (fun r hr => ⟨Nat.pos_of_ne_zero hr, Nat.le_refl _⟩) (fun hg => ?_)
            rcases hp.room hg with hf | ⟨-, hc⟩
            · exact Or.inl hf
            · exact Or.inr hc
          · rw [if_neg hts, if_neg hts]
            refine Sim.bind (Sim.pure (R := fun x w => x = ⟨b.resetStopActivations, quantity, []⟩ ∧ w = ⟨L.reset, quantity, []⟩)
              ⟨rfl, rfl⟩) ?_
            rintro x w ⟨rfl, rfl⟩
            refine h.settleTaker hnone ⟨id, trader, side, some i⟩ (tif = .gtc) quantity hi hlt
              (fun hr => ⟨Nat.pos_of_ne_zero hr, Nat.le_refl _⟩) (fun hg _ => ?_)
            rcases hp.room hg with hf | ⟨hc, -⟩
            · exact hf
            · exact absurd hc hts

/-- `submit_post_only`. -/
theorem Rep.submitPostOnly (h : Rep gh cfg b L) (hnone : L.held = none) (id : Nat) (side : UInt8) (price : Int)
    (quantity tradesSize : Nat) :
    Sim (Concluded gh cfg) (b.submitPostOnly id side price quantity tradesSize) (L.submitPostOnly cfg id side price quantity tradesSize) := by
  have hcap : b.requiredTradeCapacity = cfg.maxOrders := h.arena.capacity
  unfold OrderBook.submitPostOnly Ladder.submitPostOnly
  rw [hcap, h.preflightPostOnly]
  split
  · exact h.refuse hnone _ _
  · cases L.preflightPostOnly cfg side price quantity with
    | none => exact h.submitLimit hnone _ _ _ _ _ _ _
    | _ => exact h.refuse hnone _ _

/-- `submit_iceberg`. -/
theorem Rep.submitIceberg (h : Rep gh cfg b L) (hnone : L.held = none) (id trader : Nat) (side : UInt8) (price : Int)
    (quantity displayQuantity tradesSize : Nat) :
    Sim (Concluded gh cfg) (b.submitIceberg id trader side price quantity displayQuantity tradesSize)
      (L.submitIceberg cfg id trader side price quantity displayQuantity tradesSize) := by
  have h := h.reset
  have hnone : L.reset.held = none := hnone
  have hcap : b.resetStopActivations.requiredTradeCapacity = cfg.maxOrders := h.arena.capacity
  unfold OrderBook.submitIceberg Ladder.submitIceberg OrderBook.preflight
  dsimp only
  rw [hcap, h.cfg_eq, h.tradingState]
  split
  · exact h.refuse hnone _ _
  · rename_i hts
    split
    · exact h.refuse hnone _ _
    · rename_i hdisp
      cases cfg.preflight side quantity with
      | error reason => exact h.refuse hnone _ _
      | ok _ =>
        dsimp only
        split
        · exact h.refuse hnone _ _
        · refine Sim.bind_left (h.preflightLimit side price quantity _) ?_
          cases hpre : L.reset.preflightLimit cfg side price quantity TimeInForce.gtc.raw with
          | error reason => exact h.refuse hnone _ _
          | ok p =>
            obtain ⟨side, i, tif⟩ := p
            have hp := Ladder.preflightLimit_ok hpre
            have hi := (cfg.domain.indexOf_eq_some.mp hp.level).1
            have hcont : L.reset.tradingState = .continuous := by
              cases hs : L.reset.tradingState with
              | continuous => rfl
              | openingAuction => exact absurd hs hts
            have hgtc : tif = .gtc := by
              have := hp.time
              rw [TimeInForce.ofRaw_raw, Option.some.injEq] at this
              exact this.symm
            dsimp only
            refine h.selfTradeCheck hnone (t := ⟨id, trader, side, some i⟩) ?_
            unfold Ladder.enter
            simp only [if_pos hcont]
            have := h.matchAndSettle hnone ⟨id, trader, side, some i⟩ True (min displayQuantity)
              hi rfl (BookConfig.quantity_lt hp.le)
              (fun r hr => ⟨Nat.lt_min.mpr ⟨by omega, Nat.pos_of_ne_zero hr⟩, Nat.min_le_right _ _⟩)
              (fun _ => by
                rcases hp.room hgtc with hf | ⟨-, hc⟩
                · exact Or.inl hf
                · exact Or.inr hc)
            simpa only [true_and, ite_not] using this

/-- `submit_market`. -/
theorem Rep.submitMarket (h : Rep gh cfg b L) (hnone : L.held = none) (id : Nat) (side : UInt8) (quantity tradesSize : Nat) :
    Sim (Concluded gh cfg) (b.submitMarket id side quantity tradesSize) (L.submitMarket cfg id side quantity tradesSize) := by
  have h := h.reset
  have hnone : L.reset.held = none := hnone
  have hcap : b.resetStopActivations.requiredTradeCapacity = cfg.maxOrders := h.arena.capacity
  unfold OrderBook.submitMarket Ladder.submitMarket OrderBook.preflightMarket OrderBook.preflight
  dsimp only
  rw [hcap, h.cfg_eq, h.tradingState]
  by_cases hts : L.reset.tradingState = .openingAuction
  · rw [if_pos hts, if_pos hts]
    exact h.refuse hnone _ _
  · rw [if_neg hts, if_neg hts]
    cases cfg.preflight side quantity with
    | error reason => exact h.refuse hnone _ _
    | ok side =>
      dsimp only
      split
      · exact h.refuse hnone _ _
      · refine Sim.bind (h.matchTaker (t := ⟨id, 0, side, none⟩) quantity).returned ?_
        rintro x w ⟨hrel, -, hrun⟩
        have htrades : x.trades = w.fills.map (Taker.report cfg ⟨id, 0, side, none⟩) := hrel.trades
        rw [hrel.remaining, htrades]
        exact hrel.repr.concludeSubmission ((Sweep.run_kept h.wf hrun).held.trans hnone) _ _ _

/-- `submit_stop` and `submit_stop_limit`. -/
theorem Rep.submitStopOrder (h : Rep gh cfg b L) (hnone : L.held = none) (id : Nat) (side : UInt8) (trigger : Int)
    (limit : Option Int) (quantity tradesSize : Nat) :
    Sim (Concluded gh cfg) (b.submitStopOrder id side trigger limit quantity tradesSize)
      (L.submitStopOrder cfg id side trigger limit quantity tradesSize) := by
  have h := h.reset
  have hnone : L.reset.held = none := hnone
  have hcap : b.resetStopActivations.requiredTradeCapacity = cfg.maxOrders := h.arena.capacity
  unfold OrderBook.submitStopOrder Ladder.submitStopOrder
  dsimp only
  rw [hcap, h.preflightStop]
  cases hpre : L.reset.preflightStop cfg side limit quantity with
  | error reason => exact h.refuse hnone _ _
  | ok side' =>
    dsimp only
    split
    · exact h.refuse hnone _ _
    · obtain ⟨hq, hfree⟩ := Ladder.preflightStop_ok hpre
      obtain ⟨d, L', hrest, hstops, hheld, hhandle, hsame, hrepr⟩ := h.restStop hnone
        hfree ⟨hq.1, BookConfig.quantity_lt hq.2⟩
      rw [hrest, hhandle]
      dsimp only
      rw [hrepr.stopIsTriggered]
      split
      · rw [← hsame]
        have hact := hrepr.activateStop hheld [] (d := d) hstops
        rw [List.append_nil] at hact
        refine Sim.bind hact ?_
        rintro ⟨r, trades, b1⟩ ⟨r', trades', L1⟩ ⟨hr, htr, hrepr1, hheld1⟩
        dsimp only at hr htr hrepr1 hheld1 ⊢
        rw [List.nil_append] at htr
        subst htr
        refine Sim.bind (hrepr1.triggerStops hheld1) ?_
        rintro ⟨trades1, b2⟩ ⟨trades1', L2⟩ ⟨htr, hrepr2, hheld2⟩
        dsimp only at htr hrepr2 hheld2 ⊢
        subst htr
        exact Sim.pure ⟨by rw [hr], rfl, hrepr2, hheld2⟩
      · exact Sim.pure ⟨rfl, rfl, hrepr, hheld⟩

end Submissions

/-! ## Cancel, amend and replace -/

section Changes

variable {gh : Prop} {cfg : BookConfig} {b : OrderBook} {L : Ladder}

theorem Entry.amend_eq {e : Entry} {n : Nat} (hpos : 0 < n) (hle : n ≤ e.remaining) :
    (e.amend n).slot = e.slot ∧ (e.amend n).id = e.id ∧ (e.amend n).trader = e.trader ∧ (e.amend n).display = e.display ∧
      (e.amend n).serial = e.serial ∧ (e.amend n).remaining = n ∧ (e.amend n).displayed = min e.displayed n := by
  unfold Entry.amend
  rw [dif_pos ⟨hpos, hle⟩]
  exact ⟨rfl, rfl, rfl, rfl, rfl, rfl, rfl⟩

theorem Entry.amend_slot (e : Entry) (n : Nat) : (e.amend n).slot = e.slot := by
  unfold Entry.amend
  split <;> rfl

/-- Amending an entry to what it has left changes nothing. -/
theorem Entry.amend_id (e : Entry) (n : Nat) : (e.amend n).id = e.id := by
  unfold Entry.amend
  split <;> rfl

/-- Amending an entry to what it has left changes nothing. -/
theorem Entry.amend_self (e : Entry) : e.amend e.remaining = e := by
  have hpos : 0 < e.remaining := Nat.lt_of_lt_of_le e.displayed_pos e.displayed_le_remaining
  obtain ⟨h1, h2, h3, h4, h5, h6, h7⟩ := Entry.amend_eq hpos (Nat.le_refl _)
  exact Entry.ext_data h1 h2 h3 h6 h4 (h7.trans (Nat.min_eq_left e.displayed_le_remaining)) h5

theorem Dormant.amend_eq {d : Dormant} {n : Nat} (hpos : 0 < n) (hle : n ≤ d.remaining) :
    (d.amend n).slot = d.slot ∧ (d.amend n).id = d.id ∧ (d.amend n).side = d.side ∧ (d.amend n).trigger = d.trigger ∧
      (d.amend n).limit = d.limit ∧ (d.amend n).serial = d.serial ∧ (d.amend n).remaining = n := by
  unfold Dormant.amend
  rw [dif_pos ⟨hpos, hle⟩]
  exact ⟨rfl, rfl, rfl, rfl, rfl, rfl, rfl⟩

theorem Dormant.amend_self (d : Dormant) : d.amend d.remaining = d := by
  unfold Dormant.amend
  rw [dif_pos ⟨d.remaining_pos, Nat.le_refl _⟩]

/-- An amendment of an order found in its queue. -/
theorem Ladder.amendEntry_eq (hw : L.Wf cfg) {side : Side} {i n : Nat} {l r : List Entry} {e : Entry}
    (hq : L.queue side i = l ++ e :: r) : L.amendEntry side i e.slot n = L.setQueue side i (l ++ e.amend n :: r) := by
  obtain ⟨hl, hr⟩ := hw.slot_ne_of_split hq
  unfold Ladder.amendEntry
  rw [hq, List.map_append, List.map_cons, if_pos rfl]
  have h1 : l.map (fun x => if x.slot = e.slot then x.amend n else x) = l := by
    rw [List.map_congr_left (g := id) fun x hx => by simp [hl x hx], List.map_id]
  have h2 : r.map (fun x => if x.slot = e.slot then x.amend n else x) = r := by
    rw [List.map_congr_left (g := id) fun x hx => by simp [hr x hx], List.map_id]
  rw [h1, h2]

theorem Ladder.amendStop_eq (hw : L.Wf cfg) {n : Nat} {l r : List Dormant} {d : Dormant} (hs : L.stops = l ++ d :: r) :
    L.amendStop d.slot n = { L with stops := l ++ d.amend n :: r } := by
  obtain ⟨hl, hr⟩ := hw.stop_ne_of_split hs
  unfold Ladder.amendStop
  rw [hs, List.map_append, List.map_cons, if_pos rfl]
  have h1 : l.map (fun x => if x.slot = d.slot then x.amend n else x) = l := by
    rw [List.map_congr_left (g := id) fun x hx => by simp [hl x hx], List.map_id]
  have h2 : r.map (fun x => if x.slot = d.slot then x.amend n else x) = r := by
    rw [List.map_congr_left (g := id) fun x hx => by simp [hr x hx], List.map_id]
  rw [h1, h2]

/-- `unlink` of an order a handle denotes. -/
theorem Rep.remove (h : Rep gh cfg b L) {side : Side} {i : Nat} {l r : List Entry} {e : Entry}
    (hq : L.queue side i = l ++ e :: r) :
    Rep gh cfg (b.unlink (b.arena.handleAt e.slot) e.remaining) (L.remove side i e.slot) ∧ (L.remove side i e.slot).held = L.held := by
  rw [Ladder.remove_eq hq (h.wf.slot_ne_of_split hq).1]
  exact ⟨h.unlink hq, rfl⟩

/-- `cancel`. -/
theorem Rep.cancel (h : Rep gh cfg b L) (hnone : L.held = none) (handle : Handle) :
    (b.cancel handle).1 = (L.cancel cfg handle).1 ∧ Rep gh cfg (b.cancel handle).2 (L.cancel cfg handle).2 ∧
      (L.cancel cfg handle).2.held = none := by
  unfold OrderBook.cancel Ladder.cancel
  rcases h.resolve hnone handle with ⟨h1, h2⟩ | ⟨side, i, l, e, r, h2, hq, hh, h1⟩ | ⟨l, d, r, h2, hs, hh, h1⟩
  · rw [h1, h2]
    exact ⟨rfl, h, hnone⟩
  · have he : e ∈ L.queue side i := by rw [hq]; simp
    have hat := h.entries side i e he
    obtain ⟨hr, hheld⟩ := h.remove hq
    rw [h1, h2]
    simp only [hat.id, hat.remaining, h.entry_dormant he, Bool.false_eq_true, if_false, hh]
    exact ⟨trivial, hr, hheld.trans hnone⟩
  · have hd : d ∈ L.stops := by rw [hs]; simp
    have hat := h.dormants d hd
    rw [h1, h2]
    simp only [hat.id, hat.remaining, h.stop_dormant hd, if_true, hh]
    refine ⟨trivial, h.unlinkStop hnone hs, ?_⟩
    rw [Ladder.removeStop_eq hs (h.wf.stop_ne_of_split hs).1]
    exact hnone

/-- `amend_quantity`. -/
theorem Rep.amendQuantity (h : Rep gh cfg b L) (hnone : L.held = none) (handle : Handle) (newRemaining : Nat) :
    (b.amendQuantity handle newRemaining).1 = (L.amendQuantity cfg handle newRemaining).1 ∧
      Rep gh cfg (b.amendQuantity handle newRemaining).2 (L.amendQuantity cfg handle newRemaining).2 ∧
      (L.amendQuantity cfg handle newRemaining).2.held = none := by
  unfold OrderBook.amendQuantity Ladder.amendQuantity
  rcases h.resolve hnone handle with ⟨h1, h2⟩ | ⟨side, i, l, e, r, h2, hq, hh, h1⟩ | ⟨l, d, r, h2, hs, hh, h1⟩
  · rw [h1, h2]
    exact ⟨rfl, h, hnone⟩
  · have he : e ∈ L.queue side i := by rw [hq]; simp
    have hat := h.entries side i e he
    have hindex : handle.index = e.slot := by rw [hh]; rfl
    rw [h1, h2]
    simp only [hat.id, hat.remaining, h.cfg_eq, Ladder.amendReason, hindex, h.entry_dormant he, Bool.false_eq_true, if_false,
      hat.displayed, h.entry_side he, h.entry_level he]
    by_cases hz : newRemaining = 0
    · simp only [if_pos hz]
      exact ⟨trivial, h, hnone⟩
    · simp only [if_neg hz]
      by_cases hmax : cfg.maxOrderQuantity < newRemaining
      · simp only [if_pos hmax]
        exact ⟨trivial, h, hnone⟩
      · simp only [if_neg hmax]
        by_cases hinc : e.remaining < newRemaining
        · simp only [if_pos hinc]
          exact ⟨trivial, h, hnone⟩
        · simp only [if_neg hinc, if_true]
          rw [Ladder.amendEntry_eq h.wf hq]
          by_cases hsame : newRemaining = e.remaining
          · rw [if_pos hsame, hsame, Entry.amend_self, ← hq, Ladder.setQueue_self]
            exact ⟨rfl, h, hnone⟩
          · rw [if_neg hsame]
            obtain ⟨hslot, hid, htr, hdis, hser, hrem, hdisp⟩ := Entry.amend_eq (e := e) (n := newRemaining) (by omega) (by omega)
            have hdiff : sub64 e.remaining newRemaining = e.remaining - newRemaining := sub64_eq (by omega) e.remaining_lt
            have hagg : (b.level side i).aggregateQuantity = ((l ++ e :: r).map Entry.remaining).sum % 2 ^ 64 := by
              rw [← hq]
              exact h.queues.aggregate side i
            have := h.retouch hq (sub64 (b.level side i).aggregateQuantity (sub64 e.remaining newRemaining)) hslot hid htr hdis hser
             
              (by rw [hagg, hdiff]; exact StepsAux.aggregate_sub (by omega) (by omega))
            simp only [hrem, hdisp, hat.id] at this
            exact ⟨rfl, this, hnone⟩
  · have hd : d ∈ L.stops := by rw [hs]; simp
    have hat := h.dormants d hd
    have hindex : handle.index = d.slot := by rw [hh]; rfl
    rw [h1, h2]
    simp only [hat.id, hat.remaining, h.cfg_eq, Ladder.amendReason, hindex, h.stop_dormant hd, if_true]
    by_cases hz : newRemaining = 0
    · simp only [if_pos hz]
      exact ⟨trivial, h, hnone⟩
    · simp only [if_neg hz]
      by_cases hmax : cfg.maxOrderQuantity < newRemaining
      · simp only [if_pos hmax]
        exact ⟨trivial, h, hnone⟩
      · simp only [if_neg hmax]
        by_cases hinc : d.remaining < newRemaining
        · simp only [if_pos hinc]
          exact ⟨trivial, h, hnone⟩
        · simp only [if_neg hinc, if_true]
          rw [Ladder.amendStop_eq h.wf hs]
          by_cases hsame : newRemaining = d.remaining
          · rw [if_pos hsame, hsame, Dormant.amend_self, ← hs]
            exact ⟨rfl, h, hnone⟩
          · rw [if_neg hsame]
            obtain ⟨hslot, hid, hside, htrig, hlim, hser, hrem⟩ :=
              Dormant.amend_eq (d := d) (n := newRemaining) (by omega) (by omega)
            have := h.amendStop hs hslot hid hside htrig hlim hser
            simp only [hrem, hat.id] at this
            exact ⟨rfl, this, hnone⟩

/-- `replace`. -/
theorem Rep.replace (h : Rep gh cfg b L) (hnone : L.held = none) (handle : Handle) (newPrice : Int) (newQuantity tradesSize : Nat) :
    Sim (Concluded gh cfg) (b.replace handle newPrice newQuantity tradesSize) (L.replace cfg handle newPrice newQuantity tradesSize) := by
  have h := h.reset
  have hnone : L.reset.held = none := hnone
  have hcap : b.resetStopActivations.requiredTradeCapacity = cfg.maxOrders := h.arena.capacity
  unfold OrderBook.replace Ladder.replace OrderBook.preflightReplace OrderBook.preflight
  dsimp only
  rw [hcap, h.cfg_eq]
  rcases h.resolve hnone handle with ⟨h1, h2⟩ | ⟨side, i, l, e, r, h2, hq, hh, h1⟩ | ⟨l, d, r, h2, hs, hh, h1⟩
  · rw [h1, h2, if_pos ⟨by rintro ⟨⟩, by rintro ⟨⟩⟩]
    exact h.refuse hnone _ _
  · have he : e ∈ L.reset.queue side i := by rw [hq]; simp
    have hat := h.entries side i e he
    have hindex : handle.index = e.slot := by rw [hh]; rfl
    rw [h1, h2]
    simp only [h.entry_dormant he, Bool.false_eq_true, if_false, h.entry_side he, hindex]
    cases hpre : cfg.preflight side.raw newQuantity with
    | error reason =>
      dsimp only
      rw [if_pos (BookConfig.preflight_reason hpre)]
      exact h.refuse hnone _ _
    | ok _ =>
      dsimp only
      cases hi : cfg.domain.indexOf newPrice with
      | none =>
        simp only [Option.isSome_none, Bool.false_eq_true, if_false, Option.isNone_none, if_true]
        rw [if_neg (fun hc => hc.2 rfl)]
        split
        · exact h.refuse hnone _ _
        · rw [if_pos (by rintro ⟨⟩)]
          exact h.refuse hnone _ _
      | some i' =>
        simp only [Option.isSome_some, if_true, Option.isNone_some, Bool.false_eq_true, if_false]
        rw [if_neg (fun hc => hc.1 rfl)]
        split
        · exact h.refuse hnone _ _
        · rw [if_neg (fun hc => hc rfl)]
          obtain ⟨hr, hheld⟩ := h.remove hq
          rw [hat.id, hat.remaining, hh]
          exact hr.submitLimit (hheld.trans hnone) _ _ _ _ _ _ _
  · have hd : d ∈ L.reset.stops := by rw [hs]; simp
    rw [h1, h2]
    simp only [h.stop_dormant hd, if_true]
    rw [if_pos ⟨by rintro ⟨⟩, by rintro ⟨⟩⟩]
    exact h.refuse hnone _ _

end Changes

/-! ## The opening uncross -/

section Auction

variable {gh : Prop} {cfg : BookConfig} {b : OrderBook} {L : Ladder}

/-- The scan chooses one of the levels it visits, or keeps the choice it starts from. -/
theorem scanClearing_level {bids asks : Nat → Nat} {reference : Nat} :
    ∀ {count level eligibleBids eligibleAsks : Nat} {best : Clearing} {i : Nat},
      (scanClearing bids asks reference count level eligibleBids eligibleAsks best).level = some i →
      best.level = some i ∨ level ≤ i ∧ i < level + count := by
  intro count
  induction count with
  | zero =>
    intro level eb ea best i h
    exact Or.inl h
  | succ count ih =>
    intro level eb ea best i h
    rw [scanClearing] at h
    rcases ih h with hb | hb
    · rcases ite_eq_or_eq (betterClearing reference level _ _ best = true) ⟨some level, _, _⟩ best with he | he
      · rw [he, Option.some.injEq] at hb
        exact Or.inr ⟨by omega, by omega⟩
      · rw [he] at hb
        exact Or.inl hb
    · exact Or.inr ⟨by omega, by omega⟩

/-- The executable quantity of a choice is a `std::uint64_t`. -/
theorem scanClearing_executable_lt {bids asks : Nat → Nat} {reference : Nat} :
    ∀ {count level eligibleBids eligibleAsks : Nat} {best : Clearing}, best.executable < 2 ^ 64 →
      (scanClearing bids asks reference count level eligibleBids eligibleAsks best).executable < 2 ^ 64 := by
  intro count
  induction count with
  | zero =>
    intro level eb ea best h
    exact h
  | succ count ih =>
    intro level eb ea best h
    rw [scanClearing]
    apply ih
    rcases ite_eq_or_eq (betterClearing reference level _ _ best = true) ⟨some level, _, _⟩ best with he | he
    · rw [he]
      exact Nat.lt_of_le_of_lt (Nat.min_le_right _ _) (add64_lt _ _)
    · rw [he]
      exact h

/-- The executable quantity is a 64-bit number. -/
theorem chooseClearing_executable_lt (bids asks : Nat → Nat) (bid ask : Option Nat) :
    (chooseClearing bids asks bid ask).executable < 2 ^ 64 := by
  unfold chooseClearing
  split
  · split
    · exact scanClearing_executable_lt (by decide)
    · exact (by decide : 0 < 2 ^ 64)
  · exact (by decide : 0 < 2 ^ 64)

/-- The clearing level lies between the best levels. -/
theorem chooseClearing_level {bids asks : Nat → Nat} {bid ask : Option Nat} {i : Nat}
    (h : (chooseClearing bids asks bid ask).level = some i) : ∃ x y, bid = some x ∧ ask = some y ∧ y ≤ i ∧ i ≤ x := by
  unfold chooseClearing at h
  split at h
  · rename_i x y
    split at h
    · rename_i hle
      rcases scanClearing_level h with h | h
      · cases h
      · exact ⟨x, y, rfl, rfl, h.1, by omega⟩
    · cases h
  · cases h

/-- The best level is in the domain. -/
theorem Ladder.best_lt {side : Side} {i : Nat} (h : L.best cfg side = some i) : i < cfg.domain.tickCount :=
  (mem_occupied.mp (List.mem_of_head? h)).1

theorem Ladder.best_queue {side : Side} {i : Nat} (h : L.best cfg side = some i) : ∃ e r, L.queue side i = e :: r :=
  List.exists_cons_of_ne_nil (mem_occupied.mp (List.mem_of_head? h)).2

/-- A ladder in another trading state. -/
theorem Rep.setTradingState (h : Rep gh cfg b L) (tradingState : TradingState) :
    Rep gh cfg { b with tradingState } { L with tradingState } where
  wf := h.wf.of_slots (fun _ _ => rfl) rfl rfl rfl rfl rfl
  cfg_eq := h.cfg_eq
  arena := ⟨h.arena.capacity, h.arena.live, h.arena.generation, h.arena.freeNext, h.arena.freeHead, h.arena.size, h.arena.accepted,
    h.arena.releases⟩
  queues := ⟨h.queues.links, h.queues.count, h.queues.aggregate, h.queues.occupancy⟩
  entries side i e hm := (h.entries side i e hm).congr ⟨rfl, rfl, rfl, rfl, rfl, rfl⟩ rfl rfl
  stops := h.stops
  stopCount := h.stopCount
  dormants d hd := (h.dormants d hd).congr ⟨rfl, rfl, rfl, rfl, rfl, rfl⟩ rfl rfl
  heldSerial := h.heldSerial
  lastPrice := h.lastPrice
  tradingState := rfl
  activations := h.activations
  epochs := h.epochs
  marks := h.marks

/-- The uncross on a book goes with the uncross of the ladder. -/
structure AuctionRel (gh : Prop) (cfg : BookConfig) (total : Nat) (x : Execution) (s : Ladder × Nat × List Trade) : Prop where
  repr : Rep gh cfg x.book s.1
  held : s.1.held = none
  remaining : x.remaining = s.2.1
  le : s.2.1 ≤ total
  trades : x.trades = s.2.2

/-- The loop of `uncross_opening_auction`. -/
theorem AuctionRel.auctionLoop {clearingLevel total : Nat} {clearingPrice : Int} {x : Execution} {s : Ladder × Nat × List Trade}
    (h : AuctionRel gh cfg total x s) (htotal : total < 2 ^ 64) :
    Sim (AuctionRel gh cfg total) (OrderBook.auctionLoop clearingLevel clearingPrice x)
      (Ladder.auction cfg clearingLevel clearingPrice s) := by
  refine Sim.loop (R := AuctionRel gh cfg total) ?_ h
  rintro x ⟨L, remaining, trades⟩ h
  obtain ⟨hrepr, hheld, hrem, hlt, htrades⟩ := h
  dsimp only at hrepr hheld hrem hlt htrades ⊢
  have hdone : AuctionRel gh cfg total x (L, remaining, trades) := ⟨hrepr, hheld, hrem, hlt, htrades⟩
  rw [hrepr.bestIndex, hrepr.bestIndex]
  cases hbid : L.best cfg .buy with
  | none => exact Sim.pure (.done hdone)
  | some bid =>
    cases hask : L.best cfg .sell with
    | none => exact Sim.pure (.done hdone)
    | some ask =>
      dsimp only
      rw [hrem]
      split
      · obtain ⟨eb, rb, hqb⟩ := Ladder.best_queue hbid
        obtain ⟨ea, ra, hqa⟩ := Ladder.best_queue hask
        have heb : eb ∈ L.queue .buy bid := by rw [hqb]; simp
        have hea : ea ∈ L.queue .sell ask := by rw [hqa]; simp
        have hhb : (x.book.level .buy bid).headIndex = eb.slot := by rw [hrepr.headIndex, hqb]; rfl
        have hha : (x.book.level .sell ask).headIndex = ea.slot := by rw [hrepr.headIndex, hqa]; rfl
        rw [hqb, hqa]
        simp only [hhb, hha, (hrepr.entries _ _ eb heb).displayed, (hrepr.entries _ _ ea hea).displayed,
          OrderBook.executeAuctionMatch, (hrepr.entries _ _ eb heb).id, (hrepr.entries _ _ ea hea).id]
        have hfb := Ladder.fill_filled (L := L) (q := min remaining (min eb.displayed ea.displayed)) (l := []) hqb (by simp)
          (by omega)
        have hqa' : (L.fill .buy bid eb.slot (min remaining (min eb.displayed ea.displayed))).queue .sell ask = ea :: ra := by
          rw [← hqa]
          rcases hfb.cases with ⟨e', (⟨hq, -⟩ | ⟨hq, -⟩), -⟩ | ⟨hq, -⟩
          · rw [hq, Ladder.setQueue_queue, if_neg (fun hc => nomatch hc.1)]
          · rw [hq, Ladder.setQueue_queue, if_neg (fun hc => nomatch hc.1)]
          · rw [hq, Ladder.setQueue_queue, if_neg (fun hc => nomatch hc.1)]
        have h1 := hrepr.auctionReduce (q := min remaining (min eb.displayed ea.displayed)) (l := []) hqb (by omega)
        have h2 := h1.auctionReduce (q := min remaining (min eb.displayed ea.displayed)) (l := []) hqa' (by omega)
        have hfa := Ladder.fill_filled (q := min remaining (min eb.displayed ea.displayed)) (l := []) hqa' (by simp) (by omega)
        refine Sim.pure (.next ⟨h2, ?_, ?_, ?_, ?_⟩)
        · exact hfa.held.trans (hfb.held.trans hheld)
        · exact sub64_eq (by omega) (by omega)
        · dsimp only
          omega
        · rw [htrades]
      · exact Sim.pure (.done hdone)

/-- `uncross_opening_auction`. -/
theorem Rep.uncrossOpeningAuction (h : Rep gh cfg b L) (hnone : L.held = none) (tradesSize : Nat) :
    Sim (fun r r' => r.1 = r'.1 ∧ r.2.1 = r'.2.1 ∧ Rep gh cfg r.2.2 r'.2.2 ∧ r'.2.2.held = none)
      (b.uncrossOpeningAuction tradesSize) (L.uncrossOpeningAuction cfg tradesSize) := by
  have hcap : b.requiredTradeCapacity = cfg.maxOrders := h.arena.capacity
  have hbids : (fun i => (b.level .buy i).aggregateQuantity) = L.levelQuantity .buy := funext fun i => h.queues.aggregate .buy i
  have hasks : (fun i => (b.level .sell i).aggregateQuantity) = L.levelQuantity .sell := funext fun i => h.queues.aggregate .sell i
  unfold OrderBook.uncrossOpeningAuction Ladder.uncrossOpeningAuction
  rw [hcap, h.tradingState, hbids, hasks, h.bestIndex, h.bestIndex]
  split
  · exact Sim.pure ⟨rfl, rfl, h, hnone⟩
  · split
    · exact Sim.pure ⟨rfl, rfl, h, hnone⟩
    · have h' := h.setTradingState .continuous
      have hclear : chooseClearing (L.levelQuantity .buy) (L.levelQuantity .sell) (L.best cfg .buy) (L.best cfg .sell) = L.clearing cfg :=
        rfl
      rw [hclear]
      dsimp only
      cases hlev : (L.clearing cfg).level with
      | none => exact Sim.pure ⟨rfl, rfl, h', hnone⟩
      | some i =>
        obtain ⟨bid, ask, hbid, hask, hle, hge⟩ := chooseClearing_level hlev
        have hi : i < cfg.domain.tickCount := Nat.lt_of_le_of_lt hge (Ladder.best_lt hbid)
        have hprice : b.cfg.domain.priceAt i = some (cfg.domain.minimum + i) := by
          rw [h.cfg_eq]
          exact cfg.domain.priceAt_of_lt hi
        simp only [Option.bind_some, hprice, Option.map_some]
        have hlt : (L.clearing cfg).executable < 2 ^ 64 := chooseClearing_executable_lt _ _ _ _
        split
        · exact Sim.pure ⟨rfl, rfl, h', hnone⟩
        · have hrel : AuctionRel gh cfg (L.clearing cfg).executable
              ⟨{ b with tradingState := .continuous }, (L.clearing cfg).executable, []⟩
              ({ L with tradingState := .continuous }, (L.clearing cfg).executable, []) := ⟨h', hnone, rfl, Nat.le_refl _, rfl⟩
          refine Sim.bind (hrel.auctionLoop hlt) ?_
          rintro x ⟨L', remaining, trades⟩ ⟨hrepr, hheld, hrem, hle, htr⟩
          dsimp only at hrepr hheld hrem hle htr ⊢
          subst htr
          have hset := hrepr.setReports (some (cfg.domain.minimum + i)) x.book.tradeReportEpochs x.book.tradeReportIndices
            x.book.tradeReportEpoch hrepr.epochs
          refine Sim.pure ⟨?_, rfl, hset, hheld⟩
          rw [hrem, sub64_eq hle hlt]

end Auction

/-! ## One operation, and a new book -/

section Apply

variable {gh : Prop} {cfg : BookConfig} {b : OrderBook} {L : Ladder}

/-- What an operation leaves on both sides: the same outcome, and a book that represents the ladder. -/
def Refined (gh : Prop) (cfg : BookConfig) (r : Outcome × OrderBook) (r' : Outcome × Ladder) : Prop :=
  r.1 = r'.1 ∧ Rep gh cfg r.2 r'.2 ∧ r'.2.held = none

theorem Concluded.submitted {r : SubmitResult × List Trade × OrderBook} {r' : SubmitResult × List Trade × Ladder}
    (h : Concluded gh cfg r r') : Refined gh cfg (MatchingEngine.submitted r) (MatchingEngine.submitted r') := by
  obtain ⟨h1, h2, h3, h4⟩ := h
  exact ⟨by rw [MatchingEngine.submitted, MatchingEngine.submitted, h1, h2], h3, h4⟩

/-- Every public operation refines the ladder's. -/
theorem Rep.apply (h : Rep gh cfg b L) (hnone : L.held = none) (op : Op) :
    Sim (Refined gh cfg) (b.apply op) (L.apply cfg op) := by
  cases op with
  | submitLimit id trader side price quantity tif size =>
    exact Sim.bind (h.submitLimit hnone id trader side price quantity tif size) fun _ _ hr => Sim.pure hr.submitted
  | submitPostOnly id side price quantity size =>
    exact Sim.bind (h.submitPostOnly hnone id side price quantity size) fun _ _ hr => Sim.pure hr.submitted
  | submitIceberg id trader side price quantity display size =>
    exact Sim.bind (h.submitIceberg hnone id trader side price quantity display size) fun _ _ hr => Sim.pure hr.submitted
  | submitMarket id side quantity size =>
    exact Sim.bind (h.submitMarket hnone id side quantity size) fun _ _ hr => Sim.pure hr.submitted
  | submitStop id side trigger quantity size =>
    exact Sim.bind (h.submitStopOrder hnone id side trigger none quantity size) fun _ _ hr => Sim.pure hr.submitted
  | submitStopLimit id side trigger limit quantity size =>
    exact Sim.bind (h.submitStopOrder hnone id side trigger (some limit) quantity size) fun _ _ hr => Sim.pure hr.submitted
  | cancel handle =>
    obtain ⟨h1, h2, h3⟩ := h.cancel hnone handle
    exact Sim.pure ⟨congrArg (fun r => Outcome.mk (.cancel r) []) h1, h2, h3⟩
  | amendQuantity handle n =>
    obtain ⟨h1, h2, h3⟩ := h.amendQuantity hnone handle n
    exact Sim.pure ⟨congrArg (fun r => Outcome.mk (.amend r) []) h1, h2, h3⟩
  | replace handle price quantity size =>
    exact Sim.bind (h.replace hnone handle price quantity size) fun _ _ hr => Sim.pure hr.submitted
  | uncrossOpeningAuction size =>
    refine Sim.bind (h.uncrossOpeningAuction hnone size) ?_
    rintro ⟨r, trades, b'⟩ ⟨r', trades', L'⟩ ⟨h1, h2, h3, h4⟩
    dsimp only at h1 h2 h3 h4
    exact Sim.pure ⟨by rw [h1, h2], h3, h4⟩

/-- A new book represents the new ladder. -/
theorem repr_create {state : TradingState} (h : OrderBook.create cfg state = some b) : Rep gh cfg b (Ladder.create cfg state) := by
  obtain ⟨bitmap, hbitmap, rfl⟩ := Option.map_eq_some_iff.mp h
  have hnil : ∀ {next prev : Nat → Nat}, Links.Holds kInvalidIndex ⟨next, prev, kInvalidIndex, kInvalidIndex⟩ [] := Links.holds_nil rfl rfl
  refine
    { wf := Ladder.Wf.create cfg state
      cfg_eq := rfl
      arena := ⟨rfl, fun s _ => ?_, fun s _ => rfl, fun s _ => rfl, ?_, ?_, fun _ => rfl, fun _ s _ => rfl⟩
      queues := ⟨fun side i => hnil, fun side i => rfl, fun side i => rfl, fun side => ?_⟩
      entries := fun side i e he => nomatch he
      stops := hnil
      stopCount := rfl
      dormants := fun d hd => nomatch hd
      heldSerial := fun _ d hd => nomatch hd
      lastPrice := rfl
      tradingState := rfl
      activations := rfl
      epochs := fun s _ => Nat.le_refl _
      marks := fun s _ => Nat.le_refl _ }
  · simp [OrderArena.create, Ladder.create]
  · simp only [OrderArena.create, Ladder.create, List.head?_range]
    split <;> rfl
  · simp [OrderArena.create, Ladder.create]
  · obtain ⟨bm, hbm, hholds⟩ := HierarchicalBitmap.create_holds cfg.domain.tickCount_pos cfg.domain.tickCount_lt
    rw [hbitmap, Option.some.injEq] at hbm
    rw [hbm]
    exact hholds.congr fun j _ => by simp [Ladder.create]

/-- The constructor never throws on a checked configuration. -/
theorem create_isSome (cfg : BookConfig) (state : TradingState) : ∃ b, OrderBook.create cfg state = some b := by
  obtain ⟨bm, hbm, -⟩ := HierarchicalBitmap.create_holds cfg.domain.tickCount_pos cfg.domain.tickCount_lt
  exact ⟨_, by rw [OrderBook.create, hbm]; rfl⟩

end Apply

end MatchingEngine

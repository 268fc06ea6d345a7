import MatchingEngine.Lemmas.Operations

/-!
# What one operation does to the ladder

`Ladder.Effect` lists everything an operation that returns can have done, with what its checks have established, and
`Ladder.apply_effect` is the inversion of `Ladder.apply`. Invariants over runs are case analyses over it.
-/

namespace MatchingEngine

open Comp Function

/-! ## Activations -/

namespace Ladder

variable {cfg : BookConfig} {L L' : Ladder}

/-- A stop is activated: its taker has matched, and what is left of it has settled. -/
structure Activated (cfg : BookConfig) (L : Ladder) (d : Dormant) (others : List Dormant) (w : Sweep) (result : SubmitResult)
    (L' : Ladder) : Prop where
  run : (Sweep.run cfg (d.taker cfg) ⟨L.hold d others, d.remaining, []⟩).Returns w
  result : result = ⟨.none, sub64 d.remaining w.remaining, w.remaining, 0,
    (w.ladder.finish (L.handleAt d.slot) d (d.taker cfg).limit w.remaining).1⟩
  ladder : L' = { (w.ladder.finish (L.handleAt d.slot) d (d.taker cfg).limit w.remaining).2 with
    activations := (w.ladder.finish (L.handleAt d.slot) d (d.taker cfg).limit w.remaining).2.activations ++
      [⟨d.id, sub64 d.remaining w.remaining, w.remaining,
        (w.ladder.finish (L.handleAt d.slot) d (d.taker cfg).limit w.remaining).1⟩] }

/-- What an activation returns: the stop has been a taker, and what is left of it rests or is dropped. -/
theorem activate_returns {d : Dormant} {others : List Dormant} {result : SubmitResult} {trades : List Trade} :
    (L.activate cfg d others).Returns (result, trades, L') ↔
      ∃ w, Activated cfg L d others w result L' ∧ trades = w.fills.map ((d.taker cfg).report cfg) := by
  unfold activate
  simp only [returns_bind, returns_pure, Prod.mk.injEq]
  constructor
  · rintro ⟨w, hw, h1, h2, h3⟩
    exact ⟨w, ⟨hw, h1.symm, h3.symm⟩, h2.symm⟩
  · rintro ⟨w, ⟨hw, h1, h3⟩, h2⟩
    exact ⟨w, hw, h1.symm, h2.symm, h3.symm⟩

/-- The list of activations has no part in the form of a ladder. -/
theorem Wf.activations (h : L.Wf cfg) (a : List StopActivation) : { L with activations := a }.Wf cfg :=
  h.of_slots (fun _ _ => rfl) rfl rfl rfl rfl rfl

/-- The limit of an activated stop is a level of the domain. -/
theorem taker_limit_lt {d : Dormant} {i : Nat} (h : (d.taker cfg).limit = some i) : i < cfg.domain.tickCount := by
  obtain ⟨price, -, hp⟩ := Option.bind_eq_some_iff.mp h
  exact (cfg.domain.indexOf_eq_some.mp hp).1

/-- An activation keeps a ladder well formed; the stop is held until it ends. -/
theorem Activated.wf (hw : L.Wf cfg) (hnone : L.held = none) {d : Dormant} {sl sr : List Dormant} (hs : L.stops = sl ++ d :: sr)
    {w : Sweep} {result : SubmitResult} (h : Activated cfg L d (sl ++ sr) w result L') :
    w.ladder.Wf cfg ∧ w.ladder.held = some d ∧ w.remaining < 2 ^ 64 ∧ L'.Wf cfg ∧ L'.held = none := by
  have hhold := hw.hold hs hnone
  have hwf := Sweep.run_wf hhold h.run
  have hheld : w.ladder.held = some d := (Sweep.run_kept hhold h.run).held
  have hlt := Sweep.run_remaining_lt hhold d.remaining_lt h.run
  refine ⟨hwf, hheld, hlt, ?_, ?_⟩
  · rw [h.ladder]
    refine Wf.activations ?_ _
    unfold finish
    split
    · rename_i i hi
      split
      · exact hwf.settle hheld (taker_limit_lt hi)
      · exact hwf.dropHeld hheld
    · exact hwf.dropHeld hheld
  · rw [h.ladder]
    exact finish_held hlt

/-- The invariant rule of a cascade: what every activation keeps holds at its end, where no stop is triggered. -/
theorem cascade_invariant {J : List Trade → Ladder → Prop}
    (step : ∀ trades L d sl sr w result L', L.Wf cfg → L.held = none → J trades L → L.stops = sl ++ d :: sr →
      (∀ x ∈ sl, L.triggered x.side x.trigger = false) → L.triggered d.side d.trigger = true →
      Activated cfg L d (sl ++ sr) w result L' → J (trades ++ w.fills.map ((d.taker cfg).report cfg)) L')
    {trades trades' : List Trade} (hw : L.Wf cfg) (hnone : L.held = none) (hj : J trades L)
    (h : (L.cascade cfg trades).Returns (trades', L')) :
    J trades' L' ∧ L'.Wf cfg ∧ L'.held = none ∧ ∀ d ∈ L'.stops, L'.triggered d.side d.trigger = false := by
  refine Comp.loop_invariant (I := fun st => J st.1 st.2 ∧ st.2.Wf cfg ∧ st.2.held = none)
    (Q := fun st => J st.1 st.2 ∧ st.2.Wf cfg ∧ st.2.held = none ∧ ∀ d ∈ st.2.stops, st.2.triggered d.side d.trigger = false)
    ?_ ?_ ⟨hj, hw, hnone⟩ h
  · rintro ⟨trades, L⟩ ⟨trades', L'⟩ ⟨hj, hw, hnone⟩ hb
    dsimp only at hj hw hnone hb ⊢
    cases hsplit : L.splitStop fun d => L.triggered d.side d.trigger with
    | none => simp [hsplit] at hb
    | some p =>
      obtain ⟨d, others⟩ := p
      obtain ⟨sl, sr, hs, rfl, hl, hd⟩ := of_splitStop hsplit
      rw [hsplit] at hb
      simp only [returns_bind] at hb
      obtain ⟨⟨result, tr, L1⟩, hact, hpure⟩ := hb
      rw [returns_pure, Turn.next.injEq, Prod.mk.injEq] at hpure
      obtain ⟨w, hact', rfl⟩ := activate_returns.mp hact
      obtain ⟨rfl, rfl⟩ := hpure
      obtain ⟨-, -, -, h1, h2⟩ := hact'.wf hw hnone hs
      exact ⟨step trades L d sl sr w result L1 hw hnone hj hs hl hd hact', h1, h2⟩
  · rintro ⟨trades, L⟩ ⟨trades', L'⟩ ⟨hj, hw, hnone⟩ hb
    dsimp only at hj hw hnone hb ⊢
    cases hsplit : L.splitStop fun d => L.triggered d.side d.trigger with
    | none =>
      rw [hsplit] at hb
      simp only [returns_pure, Turn.done.injEq, Prod.mk.injEq] at hb
      obtain ⟨rfl, rfl⟩ := hb
      exact ⟨hj, hw, hnone, splitStop_eq_none.mp hsplit⟩
    | some p =>
      rw [hsplit] at hb
      simp only [returns_bind, returns_pure, reduceCtorEq, and_false, exists_false] at hb

/-! ## Effects -/

/-- The arguments of an operation that submits a stop: its id, side, trigger price, limit price, quantity and span size. -/
def stopArguments : Op → Option (Nat × UInt8 × Int × Option Int × Nat × Nat)
  | .submitStop id side trigger quantity size => some (id, side, trigger, none, quantity, size)
  | .submitStopLimit id side trigger limit quantity size => some (id, side, trigger, some limit, quantity, size)
  | _ => none

/-- The quantity an operation submits. -/
def submittedQuantity : Op → Option Nat
  | .submitLimit _ _ _ _ quantity _ _ => some quantity
  | .submitPostOnly _ _ _ quantity _ => some quantity
  | .submitIceberg _ _ _ _ quantity _ _ => some quantity
  | .submitMarket _ _ quantity _ => some quantity
  | .submitStop _ _ _ quantity _ => some quantity
  | .submitStopLimit _ _ _ _ quantity _ => some quantity
  | .replace _ _ quantity _ => some quantity
  | _ => none

/-- The orders that enter the book as takers, with what their checks have established: the ladder they meet, the taker, its level and
quantity, whether and how its remainder may rest. -/
inductive Admitted (cfg : BookConfig) (L : Ladder) : Op → Ladder → Taker → Nat → Nat → Bool → (Nat → Nat) → Prop where
  | limit {id trader quantity size i : Nat} {raw rawTime : UInt8} {price : Int} {side : Side} {tif : TimeInForce}
      (size_le : cfg.maxOrders ≤ size) (passed : Passed cfg L.reset raw price quantity rawTime side i tif)
      (clear : cfg.selfTradePolicy = .cancelTaker → L.meetsTrader cfg trader side i = false) :
      Admitted cfg L (.submitLimit id trader raw price quantity rawTime size) L.reset ⟨id, trader, side, some i⟩ i quantity
        (tif = .gtc) fun remaining => remaining
  | postOnly {id quantity size i : Nat} {raw : UInt8} {price : Int} {side : Side} (size_le : cfg.maxOrders ≤ size)
      (passed : Passed cfg L.reset raw price quantity TimeInForce.gtc.raw side i .gtc) (passive : L.crossing cfg side i = false)
      (clear : cfg.selfTradePolicy = .cancelTaker → L.meetsTrader cfg 0 side i = false) :
      Admitted cfg L (.submitPostOnly id raw price quantity size) L.reset ⟨id, 0, side, some i⟩ i quantity true fun remaining => remaining
  | iceberg {id trader quantity display size i : Nat} {raw : UInt8} {price : Int} {side : Side} (size_le : cfg.maxOrders ≤ size)
      (passed : Passed cfg L.reset raw price quantity TimeInForce.gtc.raw side i .gtc) (state : L.tradingState = .continuous)
      (display_pos : 0 < display) (display_le : display ≤ quantity)
      (clear : cfg.selfTradePolicy = .cancelTaker → L.meetsTrader cfg trader side i = false) :
      Admitted cfg L (.submitIceberg id trader raw price quantity display size) L.reset ⟨id, trader, side, some i⟩ i quantity true
        (min display)
  | market {id quantity size : Nat} {raw : UInt8} {side : Side} (size_le : cfg.maxOrders ≤ size) (state : L.tradingState = .continuous)
      (named : Side.ofRaw raw = some side) (pos : 0 < quantity) (le : quantity ≤ cfg.maxOrderQuantity) :
      Admitted cfg L (.submitMarket id raw quantity size) L.reset ⟨id, 0, side, none⟩ 0 quantity false fun remaining => remaining
  | replace {handle : Handle} {quantity size i j : Nat} {price : Int} {side : Side} {l r : List Entry} {e : Entry}
      (size_le : cfg.maxOrders ≤ size) (located : L.resolve cfg handle = some (.resting side j e))
      (split : L.queue side j = l ++ e :: r)
      (passed : Passed cfg (L.reset.remove side j e.slot).reset side.raw price quantity TimeInForce.gtc.raw side i .gtc)
      (clear : cfg.selfTradePolicy = .cancelTaker → L.meetsTrader cfg 0 side i = false) :
      Admitted cfg L (.replace handle price quantity size) (L.reset.remove side j e.slot).reset ⟨e.id, 0, side, some i⟩ i quantity true
        fun remaining => remaining

/-- A taker has matched, which it does in continuous trading only. -/
def Matched (cfg : BookConfig) (L : Ladder) (t : Taker) (quantity : Nat) (w : Sweep) : Prop :=
  L.tradingState = .continuous ∧ (Sweep.run cfg t ⟨L, quantity, []⟩).Returns w ∨
    L.tradingState ≠ .continuous ∧ w = ⟨L, quantity, []⟩

/-- What is left of a taker has rested, or does not rest. -/
def Rested (w : Sweep) (t : Taker) (i : Nat) (rests : Bool) (display : Nat → Nat) (handle : Handle) (L : Ladder) : Prop :=
  rests = true ∧ w.remaining ≠ 0 ∧ (handle, L) = w.ladder.rest t.id t.trader t.side i w.remaining (display w.remaining) ∨
    ¬(rests = true ∧ w.remaining ≠ 0) ∧ handle = kInvalidHandle ∧ L = w.ladder

/-- Everything an operation can have done. -/
inductive Effect (cfg : BookConfig) (L : Ladder) : Op → Outcome → Ladder → Prop where
  | refused {op : Op} {reason : RejectReason} {quantity : Nat} {L' : Ladder}
      (submits : submittedQuantity op = some quantity) (ne : reason ≠ .none) (same : L' = L ∨ L' = L.reset) :
      Effect cfg L op ⟨.submit (rejected reason quantity), []⟩ L'
  | entered {op : Op} {L0 L1 L' : Ladder} {t : Taker} {i quantity : Nat} {rests : Bool} {display : Nat → Nat} {w : Sweep}
      {handle : Handle} {trades : List Trade} (admitted : Admitted cfg L op L0 t i quantity rests display)
      (matched : Matched cfg L0 t quantity w) (rested : Rested w t i rests display handle L1)
      (cascaded : (L1.cascade cfg (w.fills.map (t.report cfg))).Returns (trades, L')) :
      Effect cfg L op ⟨.submit ⟨.none, sub64 quantity w.remaining, w.remaining, trades.length, handle⟩, trades⟩ L'
  | lost {handle : Handle} {quantity size i j : Nat} {price : Int} {side : Side} {l r : List Entry} {e : Entry}
      (size_le : cfg.maxOrders ≤ size) (located : L.resolve cfg handle = some (.resting side j e))
      (split : L.queue side j = l ++ e :: r) (pos : 0 < quantity) (le : quantity ≤ cfg.maxOrderQuantity)
      (level : cfg.domain.indexOf price = some i) (policy : cfg.selfTradePolicy = .cancelTaker)
      (meets : L.meetsTrader cfg 0 side i = true) :
      Effect cfg L (.replace handle price quantity size) ⟨.submit (rejected .selfTradePrevented quantity), []⟩
        (L.reset.remove side j e.slot).reset
  | slept {op : Op} {id quantity size : Nat} {raw : UInt8} {side : Side} {trigger : Int} {limit : Option Int} {d : Dormant} {L' : Ladder}
      (submits : stopArguments op = some (id, raw, trigger, limit, quantity, size)) (named : Side.ofRaw raw = some side)
      (pos : 0 < quantity) (le : quantity ≤ cfg.maxOrderQuantity) (state : L.tradingState = .continuous)
      (limited : ∀ price, limit = some price → (cfg.domain.indexOf price).isSome)
      (rested : L.reset.restStop id side trigger limit quantity = some (d, L')) (quiet : L'.triggered side trigger = false) :
      Effect cfg L op ⟨.submit ⟨.none, 0, quantity, 0, L.handleAt d.slot⟩, []⟩ L'
  | fired {op : Op} {id quantity size : Nat} {raw : UInt8} {side : Side} {trigger : Int} {limit : Option Int} {d : Dormant}
      {L1 L2 L' : Ladder} {w : Sweep} {result : SubmitResult} {trades : List Trade}
      (submits : stopArguments op = some (id, raw, trigger, limit, quantity, size)) (named : Side.ofRaw raw = some side)
      (pos : 0 < quantity) (le : quantity ≤ cfg.maxOrderQuantity)
      (state : L.tradingState = .continuous) (limited : ∀ price, limit = some price → (cfg.domain.indexOf price).isSome)
      (rested : L.reset.restStop id side trigger limit quantity = some (d, L1)) (hit : L1.triggered side trigger = true)
      (activated : Activated cfg L1 d L.stops w result L2)
      (cascaded : (L2.cascade cfg (w.fills.map ((d.taker cfg).report cfg))).Returns (trades, L')) :
      Effect cfg L op ⟨.submit { result with tradeCount := trades.length }, trades⟩ L'
  | cancelMissed {handle : Handle} (located : L.resolve cfg handle = none) :
      Effect cfg L (.cancel handle) ⟨.cancel ⟨.invalidHandle, 0, 0⟩, []⟩ L
  | cancelled {handle : Handle} {side : Side} {i : Nat} {e : Entry} (located : L.resolve cfg handle = some (.resting side i e)) :
      Effect cfg L (.cancel handle) ⟨.cancel ⟨.none, e.id, e.remaining⟩, []⟩ (L.remove side i e.slot)
  | cancelledStop {handle : Handle} {d : Dormant} (located : L.resolve cfg handle = some (.dormant d)) :
      Effect cfg L (.cancel handle) ⟨.cancel ⟨.none, d.id, d.remaining⟩, []⟩ (L.removeStop d.slot)
  | amendRefused {handle : Handle} {n : Nat} {r : AmendResult} (ne : r.rejectReason ≠ .none) :
      Effect cfg L (.amendQuantity handle n) ⟨.amend r, []⟩ L
  | amended {handle : Handle} {n i : Nat} {side : Side} {e : Entry} (located : L.resolve cfg handle = some (.resting side i e))
      (pos : 0 < n) (le : n ≤ e.remaining) (max : n ≤ cfg.maxOrderQuantity) :
      Effect cfg L (.amendQuantity handle n) ⟨.amend ⟨.none, e.id, e.remaining, n, handle⟩, []⟩ (L.amendEntry side i e.slot n)
  | amendedStop {handle : Handle} {n : Nat} {d : Dormant} (located : L.resolve cfg handle = some (.dormant d))
      (pos : 0 < n) (le : n ≤ d.remaining) (max : n ≤ cfg.maxOrderQuantity) :
      Effect cfg L (.amendQuantity handle n) ⟨.amend ⟨.none, d.id, d.remaining, n, handle⟩, []⟩ (L.amendStop d.slot n)
  | uncrossRefused {size : Nat} {error : AuctionError} (ne : error ≠ .none) :
      Effect cfg L (.uncrossOpeningAuction size) ⟨.auction ⟨error, none, 0, 0⟩, []⟩ L
  | opened {size : Nat} (state : L.tradingState = .openingAuction)
      (nothing : (L.clearing cfg).level = none ∨ (L.clearing cfg).executable = 0) :
      Effect cfg L (.uncrossOpeningAuction size) ⟨.auction ⟨.none, none, 0, 0⟩, []⟩ { L with tradingState := .continuous }
  | uncrossed {size i remaining : Nat} {trades : List Trade} {L1 : Ladder} (state : L.tradingState = .openingAuction)
      (level : (L.clearing cfg).level = some i) (executable : (L.clearing cfg).executable ≠ 0)
      (loop : (auction cfg i (cfg.domain.minimum + i) ({ L with tradingState := .continuous }, (L.clearing cfg).executable, [])).Returns
        (L1, remaining, trades)) :
      Effect cfg L (.uncrossOpeningAuction size)
        ⟨.auction ⟨.none, some (cfg.domain.minimum + i), (L.clearing cfg).executable - remaining, trades.length⟩, trades⟩
        { L1 with lastPrice := some (cfg.domain.minimum + i) }

/-! ## Inversion -/

section Inversion

variable {result : SubmitResult} {trades : List Trade}

/-- A refusal returns at once and leaves the ladder. -/
theorem refuse_returns {reason : RejectReason} {quantity : Nat} :
    (L.refuse reason quantity).Returns (result, trades, L') ↔ rejected reason quantity = result ∧ [] = trades ∧ L = L' := by
  rw [refuse, returns_pure, Prod.mk.injEq, Prod.mk.injEq]

/-- The end of a submission is the cascade of the stops it has triggered. -/
theorem conclude_returns {quantity remaining : Nat} {handle : Handle} {before : List Trade} :
    (L.conclude cfg quantity remaining handle before).Returns (result, trades, L') ↔
      (L.cascade cfg before).Returns (trades, L') ∧ result = ⟨.none, sub64 quantity remaining, remaining, trades.length, handle⟩ := by
  unfold conclude
  simp only [returns_bind, returns_pure, Prod.mk.injEq, Prod.exists]
  constructor
  · rintro ⟨tr, L1, h, rfl, rfl, rfl⟩
    exact ⟨h, rfl⟩
  · rintro ⟨h, rfl⟩
    exact ⟨trades, L', h, rfl, rfl, rfl⟩

/-- An order that enters. -/
theorem enter_returns {t : Taker} {i quantity : Nat} {rests : Bool} {display : Nat → Nat}
    (h : (L.enter cfg t i quantity rests display).Returns (result, trades, L')) :
    ∃ w handle L1, Matched cfg L t quantity w ∧ Rested w t i rests display handle L1 ∧
      (L1.cascade cfg (w.fills.map (t.report cfg))).Returns (trades, L') ∧
      result = ⟨.none, sub64 quantity w.remaining, w.remaining, trades.length, handle⟩ := by
  have key : ∀ w, ((if rests = true ∧ w.remaining ≠ 0 then w.ladder.rest t.id t.trader t.side i w.remaining (display w.remaining)
      else (kInvalidHandle, w.ladder)).2.conclude cfg quantity w.remaining
      (if rests = true ∧ w.remaining ≠ 0 then w.ladder.rest t.id t.trader t.side i w.remaining (display w.remaining)
      else (kInvalidHandle, w.ladder)).1 (w.fills.map (t.report cfg))).Returns (result, trades, L') → Matched cfg L t quantity w →
      ∃ w handle L1, Matched cfg L t quantity w ∧ Rested w t i rests display handle L1 ∧
        (L1.cascade cfg (w.fills.map (t.report cfg))).Returns (trades, L') ∧
        result = ⟨.none, sub64 quantity w.remaining, w.remaining, trades.length, handle⟩ := by
    intro w hc hm
    obtain ⟨h1, h2⟩ := conclude_returns.mp hc
    refine ⟨w, _, _, hm, ?_, h1, h2⟩
    by_cases hr : rests = true ∧ w.remaining ≠ 0
    · rw [if_pos hr]
      exact Or.inl ⟨hr.1, hr.2, rfl⟩
    · rw [if_neg hr]
      exact Or.inr ⟨hr, rfl, rfl⟩
  unfold enter at h
  dsimp only at h
  split at h
  · rename_i hts
    obtain ⟨w, hw, h⟩ := (returns_bind _ _ _).mp h
    exact key w h (Or.inl ⟨hts, hw⟩)
  · rename_i hts
    obtain ⟨w, hw, h⟩ := (returns_bind _ _ _).mp h
    rw [returns_pure] at hw
    exact key w h (Or.inr ⟨hts, hw.symm⟩)

/-- The checks of a limit order include those of every submission. -/
theorem Passed.preflight {quantity i : Nat} {raw rawTime : UInt8} {price : Int} {side : Side} {tif : TimeInForce}
    (h : Passed cfg L raw price quantity rawTime side i tif) : cfg.preflight raw quantity = .ok side := by
  have h1 := h.pos
  have h2 := h.le
  unfold BookConfig.preflight
  rw [h.named]
  dsimp only
  rw [if_neg (by omega), if_neg (by omega)]

/-- The checks of a limit order have found its side, level and time in force. -/
theorem Passed.preflightLimit {quantity i : Nat} {raw rawTime : UInt8} {price : Int} {side : Side} {tif : TimeInForce}
    (h : Passed cfg L raw price quantity rawTime side i tif) : L.preflightLimit cfg raw price quantity rawTime = .ok (side, i, tif) := by
  unfold Ladder.preflightLimit
  rw [h.time, h.preflight, h.level]
  dsimp only
  rw [if_neg (fun hc => hc.2 (h.state hc.1)), if_neg (fun hc => hc.2 (h.fillable hc.1)), if_neg]
  rintro ⟨hg, hf, hc⟩
  rcases h.room hg with hr | ⟨hr1, hr2⟩
  · exact hr hf
  · rcases hc with hc | hc
    · rw [hr1] at hc
      cases hc
    · exact hc hr2

/-- A limit order is refused, or it enters. -/
theorem submitLimit_returns {id trader quantity size : Nat} {raw rawTime : UInt8} {price : Int}
    (h : (L.submitLimit cfg id trader raw price quantity rawTime size).Returns (result, trades, L')) :
    (∃ reason, reason ≠ .none ∧ result = rejected reason quantity ∧ trades = [] ∧ L' = L.reset ∧
      (∀ side i tif, cfg.maxOrders ≤ size → Passed cfg L.reset raw price quantity rawTime side i tif →
        reason = .selfTradePrevented ∧ cfg.selfTradePolicy = .cancelTaker ∧ L.meetsTrader cfg trader side i = true)) ∨
    ∃ side i tif, cfg.maxOrders ≤ size ∧ Passed cfg L.reset raw price quantity rawTime side i tif ∧
      (cfg.selfTradePolicy = .cancelTaker → L.meetsTrader cfg trader side i = false) ∧
      (L.reset.enter cfg ⟨id, trader, side, some i⟩ i quantity (tif = .gtc) fun remaining => remaining).Returns (result, trades, L') := by
  unfold submitLimit at h
  dsimp only at h
  split at h
  · rename_i htif
    obtain ⟨rfl, rfl, rfl⟩ := refuse_returns.mp h
    refine Or.inl ⟨.invalidTimeInForce, nofun, rfl, rfl, rfl, fun side i tif _ hp => ?_⟩
    rw [hp.time] at htif
    cases htif
  · split at h
    · rename_i reason hpre
      obtain ⟨rfl, rfl, rfl⟩ := refuse_returns.mp h
      refine Or.inl ⟨_, (BookConfig.preflight_reason hpre).1, rfl, rfl, rfl, fun side i tif _ hp => ?_⟩
      rw [hp.preflight] at hpre
      cases hpre
    · split at h
      · rename_i hsize
        obtain ⟨rfl, rfl, rfl⟩ := refuse_returns.mp h
        exact Or.inl ⟨.insufficientTradeCapacity, nofun, rfl, rfl, rfl, fun side i tif hle _ => absurd hle (by omega)⟩
      · rename_i hsize
        split at h
        · rename_i reason hpre
          obtain ⟨rfl, rfl, rfl⟩ := refuse_returns.mp h
          refine Or.inl ⟨_, preflightLimit_error hpre, rfl, rfl, rfl, fun side i tif _ hp => ?_⟩
          rw [hp.preflightLimit] at hpre
          cases hpre
        · rename_i side i tif hpre
          have hp := preflightLimit_ok hpre
          unfold enterChecked at h
          split at h
          · rename_i hself
            obtain ⟨rfl, rfl, rfl⟩ := refuse_returns.mp h
            refine Or.inl ⟨.selfTradePrevented, nofun, rfl, rfl, rfl, fun side' i' tif' _ hp' => ?_⟩
            have he := hp'.preflightLimit
            rw [hpre, Except.ok.injEq, Prod.mk.injEq, Prod.mk.injEq] at he
            obtain ⟨rfl, rfl, rfl⟩ := he
            exact ⟨rfl, hself⟩
          · rename_i hself
            refine Or.inr ⟨side, i, tif, by omega, hp, fun hpol => ?_, h⟩
            by_contra hm
            have hm' : L.meetsTrader cfg trader side i = true := by simpa using hm
            exact hself ⟨hpol, hm'⟩

/-- The order of a handle, in its queue. -/
theorem resolve_resting {handle : Handle} {side : Side} {i : Nat} {e : Entry}
    (h : L.resolve cfg handle = some (.resting side i e)) :
    ∃ l r, L.queue side i = l ++ e :: r ∧ handle = L.handleAt e.slot ∧ e.slot < cfg.maxOrders := by
  unfold resolve at h
  split at h
  · rename_i hok
    cases hp : L.place handle.index with
    | resting side' i' =>
      rw [hp] at h
      obtain ⟨e', he', heq⟩ := Option.map_eq_some_iff.mp h
      cases heq
      obtain ⟨l, r, hq⟩ := List.append_of_mem (List.mem_of_find?_eq_some he')
      have hs : e.slot = handle.index := by simpa using List.find?_some he'
      refine ⟨l, r, hq, ?_, hs ▸ hok.1⟩
      rw [handleAt, hs, ← hok.2]
    | dormant =>
      rw [hp] at h
      obtain ⟨d, -, heq⟩ := Option.map_eq_some_iff.mp h
      cases heq
    | free => rw [hp] at h; cases h
    | held => rw [hp] at h; cases h
  · cases h

/-- The stop of a handle, in the list. -/
theorem resolve_dormant {handle : Handle} {d : Dormant} (h : L.resolve cfg handle = some (.dormant d)) :
    ∃ l r, L.stops = l ++ d :: r ∧ handle = L.handleAt d.slot ∧ d.slot < cfg.maxOrders := by
  unfold resolve at h
  split at h
  · rename_i hok
    cases hp : L.place handle.index with
    | dormant =>
      rw [hp] at h
      obtain ⟨d', hd', heq⟩ := Option.map_eq_some_iff.mp h
      cases heq
      obtain ⟨l, r, hq⟩ := List.append_of_mem (List.mem_of_find?_eq_some hd')
      have hs : d.slot = handle.index := by simpa using List.find?_some hd'
      refine ⟨l, r, hq, ?_, hs ▸ hok.1⟩
      rw [handleAt, hs, ← hok.2]
    | resting side' i' =>
      rw [hp] at h
      obtain ⟨e, -, heq⟩ := Option.map_eq_some_iff.mp h
      cases heq
    | free => rw [hp] at h; cases h
    | held => rw [hp] at h; cases h
  · cases h

/-- A post-only order that passes its checks passes those of a limit order and does not cross. -/
theorem preflightPostOnly_none {raw : UInt8} {price : Int} {quantity : Nat} (h : L.preflightPostOnly cfg raw price quantity = .none) :
    ∃ side i, Passed cfg L raw price quantity TimeInForce.gtc.raw side i .gtc ∧ L.crossing cfg side i = false := by
  unfold preflightPostOnly at h
  split at h
  · cases h
  · rename_i hts
    split at h
    · rename_i reason hpre
      exact absurd h (BookConfig.preflight_reason hpre).1
    · rename_i side hpre
      obtain ⟨h1, h2, h3⟩ := BookConfig.preflight_ok hpre
      split at h
      · cases h
      · rename_i i hi
        split at h
        · cases h
        · rename_i hc
          split at h
          · cases h
          · rename_i hf
            exact ⟨side, i, ⟨h1, h2, h3, hi, TimeInForce.ofRaw_raw _, fun _ => rfl, nofun, fun _ => Or.inl hf⟩, by simpa using hc⟩

/-- A replacement passes the checks of a limit order once the old order is out: its slot is free. -/
theorem Passed.of_remove (hw : L.Wf cfg) {side : Side} {j i quantity : Nat} {l r : List Entry} {e : Entry} {price : Int}
    (hq : L.queue side j = l ++ e :: r) (hpos : 0 < quantity) (hle : quantity ≤ cfg.maxOrderQuantity)
    (hi : cfg.domain.indexOf price = some i) :
    Passed cfg (L.reset.remove side j e.slot).reset side.raw price quantity TimeInForce.gtc.raw side i .gtc := by
  refine ⟨Side.ofRaw_raw _, hpos, hle, hi, TimeInForce.ofRaw_raw _, fun _ => rfl, nofun, fun _ => Or.inl ?_⟩
  rw [remove_eq (L := L.reset) hq (hw.slot_ne_of_split hq).1]
  exact nofun

/-- A removal leaves the other side as it was. -/
theorem meetsTrader_remove (hw : L.Wf cfg) {side : Side} {j : Nat} {l r : List Entry} {e : Entry}
    (hq : L.queue side j = l ++ e :: r) (trader i : Nat) :
    (L.remove side j e.slot).meetsTrader cfg trader side i = L.meetsTrader cfg trader side i := by
  have hother : ∀ k, (L.remove side j e.slot).queue side.opposite k = L.queue side.opposite k := by
    intro k
    rw [remove_eq hq (hw.slot_ne_of_split hq).1]
    change (L.setQueue side j (l ++ r)).queue side.opposite k = _
    rw [setQueue_queue, if_neg (fun hc => Side.opposite_ne side hc.1)]
  simp only [meetsTrader, reach, occupied, hother]

/-- `submit_post_only`. -/
theorem submitPostOnly_effect {id quantity size : Nat} {raw : UInt8} {price : Int}
    (h : (L.submitPostOnly cfg id raw price quantity size).Returns (result, trades, L')) :
    Effect cfg L (.submitPostOnly id raw price quantity size) ⟨.submit result, trades⟩ L' := by
  unfold submitPostOnly at h
  split at h
  · obtain ⟨rfl, rfl, rfl⟩ := refuse_returns.mp h
    exact .refused rfl nofun (Or.inl rfl)
  · rename_i hsize
    cases hpre : L.preflightPostOnly cfg raw price quantity with
    | none =>
      rw [hpre] at h
      obtain ⟨side, i, hp, hpass⟩ := preflightPostOnly_none hpre
      have hp' : Passed cfg L.reset raw price quantity TimeInForce.gtc.raw side i .gtc :=
        ⟨hp.named, hp.pos, hp.le, hp.level, hp.time, hp.state, hp.fillable, hp.room⟩
      rcases submitLimit_returns h with ⟨reason, hne, rfl, rfl, rfl, -⟩ | ⟨side', i', tif, hsz, hp2, hclear, hent⟩
      · exact .refused rfl hne (Or.inr rfl)
      · have he := hp'.preflightLimit
        rw [hp2.preflightLimit, Except.ok.injEq, Prod.mk.injEq, Prod.mk.injEq] at he
        obtain ⟨rfl, rfl, rfl⟩ := he
        obtain ⟨w, handle, L1, hm, hr, hc, rfl⟩ := enter_returns hent
        exact .entered (.postOnly hsz hp' hpass hclear) hm hr hc
    | _ =>
      rw [hpre] at h
      obtain ⟨rfl, rfl, rfl⟩ := refuse_returns.mp h
      exact .refused rfl nofun (Or.inl rfl)

/-- `submit_iceberg`. -/
theorem submitIceberg_effect {id trader quantity display size : Nat} {raw : UInt8} {price : Int}
    (h : (L.submitIceberg cfg id trader raw price quantity display size).Returns (result, trades, L')) :
    Effect cfg L (.submitIceberg id trader raw price quantity display size) ⟨.submit result, trades⟩ L' := by
  unfold submitIceberg at h
  dsimp only at h
  split at h
  · obtain ⟨rfl, rfl, rfl⟩ := refuse_returns.mp h
    exact .refused rfl nofun (Or.inr rfl)
  · rename_i hts
    have hcont : L.tradingState = .continuous := by
      cases hs : L.tradingState with
      | continuous => rfl
      | openingAuction => exact absurd hs hts
    split at h
    · obtain ⟨rfl, rfl, rfl⟩ := refuse_returns.mp h
      exact .refused rfl nofun (Or.inr rfl)
    · rename_i hdisp
      split at h
      · rename_i reason hpre
        obtain ⟨rfl, rfl, rfl⟩ := refuse_returns.mp h
        exact .refused rfl (BookConfig.preflight_reason hpre).1 (Or.inr rfl)
      · split at h
        · obtain ⟨rfl, rfl, rfl⟩ := refuse_returns.mp h
          exact .refused rfl nofun (Or.inr rfl)
        · rename_i hsize
          split at h
          · rename_i reason hpre
            obtain ⟨rfl, rfl, rfl⟩ := refuse_returns.mp h
            exact .refused rfl (preflightLimit_error hpre) (Or.inr rfl)
          · rename_i side i tif hpre
            have hp := preflightLimit_ok hpre
            have hgtc : tif = .gtc := by
              have := hp.time
              rw [TimeInForce.ofRaw_raw, Option.some.injEq] at this
              exact this.symm
            subst hgtc
            unfold enterChecked at h
            split at h
            · obtain ⟨rfl, rfl, rfl⟩ := refuse_returns.mp h
              exact .refused rfl nofun (Or.inr rfl)
            · rename_i hself
              obtain ⟨w, handle, L1, hm, hr, hc, rfl⟩ := enter_returns h
              refine .entered (.iceberg (by omega) hp hcont (by omega) (by omega) fun hpol => ?_) hm hr hc
              by_contra hmt
              have hmt' : L.meetsTrader cfg trader side i = true := by simpa using hmt
              exact hself ⟨hpol, hmt'⟩

/-- `submit_market`. -/
theorem submitMarket_effect {id quantity size : Nat} {raw : UInt8}
    (h : (L.submitMarket cfg id raw quantity size).Returns (result, trades, L')) :
    Effect cfg L (.submitMarket id raw quantity size) ⟨.submit result, trades⟩ L' := by
  unfold submitMarket at h
  dsimp only at h
  split at h
  · obtain ⟨rfl, rfl, rfl⟩ := refuse_returns.mp h
    exact .refused rfl nofun (Or.inr rfl)
  · rename_i hts
    have hcont : L.tradingState = .continuous := by
      cases hs : L.tradingState with
      | continuous => rfl
      | openingAuction => exact absurd hs hts
    split at h
    · rename_i reason hpre
      obtain ⟨rfl, rfl, rfl⟩ := refuse_returns.mp h
      exact .refused rfl (BookConfig.preflight_reason hpre).1 (Or.inr rfl)
    · rename_i side hpre
      obtain ⟨h1, h2, h3⟩ := BookConfig.preflight_ok hpre
      split at h
      · obtain ⟨rfl, rfl, rfl⟩ := refuse_returns.mp h
        exact .refused rfl nofun (Or.inr rfl)
      · rename_i hsize
        obtain ⟨w, hw, hc⟩ := (returns_bind _ _ _).mp h
        obtain ⟨hcas, rfl⟩ := conclude_returns.mp hc
        exact .entered (.market (by omega) hcont h1 h2 h3) (Or.inl ⟨hcont, hw⟩)
          (Or.inr ⟨fun hf => Bool.false_ne_true hf.1, rfl, rfl⟩) hcas

/-- The submissions of a stop. -/
theorem submitStopOrder_effect {op : Op} {id quantity size : Nat} {raw : UInt8} {trigger : Int} {limit : Option Int}
    (hop : stopArguments op = some (id, raw, trigger, limit, quantity, size)) (hq : submittedQuantity op = some quantity)
    (h : (L.submitStopOrder cfg id raw trigger limit quantity size).Returns (result, trades, L')) :
    Effect cfg L op ⟨.submit result, trades⟩ L' := by
  unfold submitStopOrder at h
  dsimp only at h
  cases hpre : L.reset.preflightStop cfg raw limit quantity with
  | error reason =>
    rw [hpre] at h
    obtain ⟨rfl, rfl, rfl⟩ := refuse_returns.mp h
    exact .refused hq (preflightStop_error hpre) (Or.inr rfl)
  | ok side =>
    rw [hpre] at h
    obtain ⟨⟨hpos, hle⟩, hfree⟩ := preflightStop_ok hpre
    obtain ⟨hnamed, hcont, hlimited⟩ := preflightStop_facts hpre
    dsimp only at h
    split at h
    · obtain ⟨rfl, rfl, rfl⟩ := refuse_returns.mp h
      exact .refused hq nofun (Or.inr rfl)
    · obtain ⟨s, free, hf⟩ := List.exists_cons_of_ne_nil hfree
      have hrest := restStop_eq (L := L.reset) id side trigger limit hf
        ⟨hpos, BookConfig.quantity_lt hle⟩
      rw [hrest] at h
      dsimp only at h
      split at h
      · rename_i htrig
        obtain ⟨⟨r1, tr1, L2⟩, hact, h⟩ := (returns_bind _ _ _).mp h
        obtain ⟨⟨tr2, L3⟩, hcas, h⟩ := (returns_bind _ _ _).mp h
        rw [returns_pure, Prod.mk.injEq, Prod.mk.injEq] at h
        obtain ⟨rfl, rfl, rfl⟩ := h
        obtain ⟨w, hact', rfl⟩ := activate_returns.mp hact
        exact .fired hop hnamed hpos hle hcont hlimited hrest htrig hact' hcas
      · rename_i htrig
        rw [returns_pure, Prod.mk.injEq, Prod.mk.injEq] at h
        obtain ⟨rfl, rfl, rfl⟩ := h
        exact Effect.slept (L := L) hop hnamed hpos hle hcont hlimited hrest (by simpa using htrig)

/-- `replace`: it is refused, or it removes the order and submits another one. -/
theorem replace_effect (hw : L.Wf cfg) {handle : Handle} {price : Int} {quantity size : Nat}
    (h : (L.replace cfg handle price quantity size).Returns (result, trades, L')) :
    Effect cfg L (.replace handle price quantity size) ⟨.submit result, trades⟩ L' := by
  have hres : L.reset.resolve cfg handle = L.resolve cfg handle := rfl
  unfold replace at h
  dsimp only at h
  rw [hres] at h
  cases hloc : L.resolve cfg handle with
  | none =>
    rw [hloc] at h
    obtain ⟨rfl, rfl, rfl⟩ := refuse_returns.mp h
    exact .refused rfl nofun (Or.inr rfl)
  | some x =>
    rw [hloc] at h
    cases x with
    | dormant d =>
      obtain ⟨rfl, rfl, rfl⟩ := refuse_returns.mp h
      exact .refused rfl nofun (Or.inr rfl)
    | resting side j e =>
      obtain ⟨l, r, hq, -, -⟩ := resolve_resting hloc
      have hmeets : ∀ i, (L.reset.remove side j e.slot).meetsTrader cfg 0 side i = L.meetsTrader cfg 0 side i := fun i =>
        meetsTrader_remove (hw.activations []) (L := L.reset) hq 0 i
      dsimp only at h
      split at h
      · rename_i reason hpre
        obtain ⟨rfl, rfl, rfl⟩ := refuse_returns.mp h
        exact .refused rfl (BookConfig.preflight_reason hpre).1 (Or.inr rfl)
      · rename_i side' hpre
        obtain ⟨h1, h2, h3⟩ := BookConfig.preflight_ok hpre
        rw [Side.ofRaw_raw, Option.some.injEq] at h1
        subst h1
        split at h
        · obtain ⟨rfl, rfl, rfl⟩ := refuse_returns.mp h
          exact .refused rfl nofun (Or.inr rfl)
        · rename_i hsize
          split at h
          · obtain ⟨rfl, rfl, rfl⟩ := refuse_returns.mp h
            exact .refused rfl nofun (Or.inr rfl)
          · rename_i hlevel
            obtain ⟨i, hi⟩ := Option.isSome_iff_exists.mp (by simpa [Option.isSome_iff_ne_none] using hlevel :
              (cfg.domain.indexOf price).isSome = true)
            have hp := Passed.of_remove hw hq h2 h3 hi
            rcases submitLimit_returns h with ⟨reason, hne, rfl, rfl, rfl, hwhy⟩ | ⟨side', i', tif, hsz, hp2, hclear, hent⟩
            · obtain ⟨rfl, hpol, hm⟩ := hwhy side i .gtc (by omega) hp
              rw [hmeets] at hm
              exact .lost (by omega) hloc hq h2 h3 hi hpol hm
            · have he := hp.preflightLimit
              rw [hp2.preflightLimit, Except.ok.injEq, Prod.mk.injEq, Prod.mk.injEq] at he
              obtain ⟨rfl, rfl, rfl⟩ := he
              obtain ⟨w, handle', L1, hm, hr, hc, rfl⟩ := enter_returns hent
              rw [hmeets] at hclear
              exact .entered (.replace hsz hloc hq hp hclear) hm hr hc

/-- `cancel`. -/
theorem cancel_effect (handle : Handle) : Effect cfg L (.cancel handle) ⟨.cancel (L.cancel cfg handle).1, []⟩ (L.cancel cfg handle).2 := by
  unfold cancel
  cases hloc : L.resolve cfg handle with
  | none => exact .cancelMissed hloc
  | some x =>
    cases x with
    | resting side i e => exact .cancelled hloc
    | dormant d => exact .cancelledStop hloc

/-- An amendment that is accepted lowers a quantity to a positive one. -/
theorem amendReason_none {previous n : Nat} (h : amendReason cfg previous n = .none) :
    0 < n ∧ n ≤ previous ∧ n ≤ cfg.maxOrderQuantity := by
  unfold amendReason at h
  split at h
  · cases h
  · split at h
    · cases h
    · split at h
      · cases h
      · omega

/-- `amend_quantity`. -/
theorem amend_effect (handle : Handle) (n : Nat) :
    Effect cfg L (.amendQuantity handle n) ⟨.amend (L.amendQuantity cfg handle n).1, []⟩ (L.amendQuantity cfg handle n).2 := by
  unfold amendQuantity
  cases hloc : L.resolve cfg handle with
  | none => exact .amendRefused nofun
  | some x =>
    cases x with
    | resting side i e =>
      dsimp only
      split
      · rename_i hr
        obtain ⟨h1, h2, h3⟩ := amendReason_none hr
        rw [hr]
        exact .amended hloc h1 h2 h3
      · rename_i hr
        exact .amendRefused hr
    | dormant d =>
      dsimp only
      split
      · rename_i hr
        obtain ⟨h1, h2, h3⟩ := amendReason_none hr
        rw [hr]
        exact .amendedStop hloc h1 h2 h3
      · rename_i hr
        exact .amendRefused hr

/-- `uncross_opening_auction`. -/
theorem uncross_effect {size : Nat} {r : AuctionResult} (h : (L.uncrossOpeningAuction cfg size).Returns (r, trades, L')) :
    Effect cfg L (.uncrossOpeningAuction size) ⟨.auction r, trades⟩ L' := by
  unfold uncrossOpeningAuction at h
  split at h
  · rw [returns_pure, Prod.mk.injEq, Prod.mk.injEq] at h
    obtain ⟨rfl, rfl, rfl⟩ := h
    exact .uncrossRefused nofun
  · rename_i hts
    have hauction : L.tradingState = .openingAuction := by
      by_contra hne
      exact hts hne
    split at h
    · rw [returns_pure, Prod.mk.injEq, Prod.mk.injEq] at h
      obtain ⟨rfl, rfl, rfl⟩ := h
      exact .uncrossRefused nofun
    · dsimp only at h
      cases hlev : (L.clearing cfg).level with
      | none =>
        rw [hlev] at h
        rw [returns_pure, Prod.mk.injEq, Prod.mk.injEq] at h
        obtain ⟨rfl, rfl, rfl⟩ := h
        exact .opened hauction (Or.inl hlev)
      | some i =>
        rw [hlev] at h
        dsimp only at h
        split at h
        · rename_i hz
          rw [returns_pure, Prod.mk.injEq, Prod.mk.injEq] at h
          obtain ⟨rfl, rfl, rfl⟩ := h
          exact .opened hauction (Or.inr hz)
        · rename_i hz
          obtain ⟨⟨L1, remaining, tr⟩, hloop, h⟩ := (returns_bind _ _ _).mp h
          rw [returns_pure, Prod.mk.injEq, Prod.mk.injEq] at h
          obtain ⟨rfl, rfl, rfl⟩ := h
          exact .uncrossed hauction hlev hz hloop

/-- Inversion of one operation. -/
theorem apply_effect (hw : L.Wf cfg) {op : Op} {out : Outcome} (h : (L.apply cfg op).Returns (out, L')) : Effect cfg L op out L' := by
  have hsub : ∀ {c : Comp (SubmitResult × List Trade × Ladder)}, (do return submitted (← c)).Returns (out, L') →
      ∃ result trades, c.Returns (result, trades, L') ∧ out = ⟨.submit result, trades⟩ := by
    intro c h
    obtain ⟨⟨r, tr, L1⟩, hc, h⟩ := (returns_bind _ _ _).mp h
    rw [returns_pure, submitted, Prod.mk.injEq] at h
    obtain ⟨rfl, rfl⟩ := h
    exact ⟨r, tr, hc, rfl⟩
  cases op with
  | submitLimit id trader raw price quantity rawTime size =>
    obtain ⟨result, trades, hc, rfl⟩ := hsub h
    rcases submitLimit_returns hc with ⟨reason, hne, rfl, rfl, rfl, -⟩ | ⟨side, i, tif, hsz, hp, hclear, hent⟩
    · exact .refused rfl hne (Or.inr rfl)
    · obtain ⟨w, handle, L1, hm, hr, hcas, rfl⟩ := enter_returns hent
      exact .entered (.limit hsz hp hclear) hm hr hcas
  | submitPostOnly id raw price quantity size =>
    obtain ⟨result, trades, hc, rfl⟩ := hsub h
    exact submitPostOnly_effect hc
  | submitIceberg id trader raw price quantity display size =>
    obtain ⟨result, trades, hc, rfl⟩ := hsub h
    exact submitIceberg_effect hc
  | submitMarket id raw quantity size =>
    obtain ⟨result, trades, hc, rfl⟩ := hsub h
    exact submitMarket_effect hc
  | submitStop id raw trigger quantity size =>
    obtain ⟨result, trades, hc, rfl⟩ := hsub h
    exact submitStopOrder_effect rfl rfl hc
  | submitStopLimit id raw trigger limit quantity size =>
    obtain ⟨result, trades, hc, rfl⟩ := hsub h
    exact submitStopOrder_effect rfl rfl hc
  | cancel handle =>
    have h' : (⟨.cancel (L.cancel cfg handle).1, []⟩, (L.cancel cfg handle).2) = (out, L') := (returns_pure _ _).mp h
    rw [Prod.mk.injEq] at h'
    rw [← h'.1, ← h'.2]
    exact cancel_effect handle
  | amendQuantity handle n =>
    have h' : (⟨.amend (L.amendQuantity cfg handle n).1, []⟩, (L.amendQuantity cfg handle n).2) = (out, L') := (returns_pure _ _).mp h
    rw [Prod.mk.injEq] at h'
    rw [← h'.1, ← h'.2]
    exact amend_effect handle n
  | replace handle price quantity size =>
    obtain ⟨result, trades, hc, rfl⟩ := hsub h
    exact replace_effect hw hc
  | uncrossOpeningAuction size =>
    obtain ⟨⟨r, tr, L1⟩, hc, h⟩ := (returns_bind _ _ _).mp h
    rw [returns_pure, Prod.mk.injEq] at h
    obtain ⟨rfl, rfl⟩ := h
    exact uncross_effect hc

end Inversion

end Ladder

end MatchingEngine

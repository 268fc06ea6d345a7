import MatchingEngine.Lemmas.Runs

/-!
# Rejected operations

An operation that returns a reject reason or an error leaves the book as it was, with one exception: a `replace` that passes its own
checks takes the old order out before it resubmits, and under `cancel_taker` the resubmission, which carries the trader id 0, can still
be rejected by the self-trade check.
-/

namespace MatchingEngine

open Comp

namespace OrderBook

/-- The same book, but for the activations of the last submission. -/
def Same (b b' : OrderBook) : Prop := b'.resetStopActivations = b.resetStopActivations

/-- A replace that passes its own checks, of an order whose new price would meet an order with trader id 0 under `cancel_taker`. -/
def Loses (b : OrderBook) : Op → Prop
  | .replace handle newPrice newQuantity tradesSize =>
    b.preflightReplace handle newPrice newQuantity = .none ∧ b.requiredTradeCapacity ≤ tradesSize ∧
      b.cfg.selfTradePolicy = .cancelTaker ∧
      ∃ i, b.cfg.domain.indexOf newPrice = some i ∧ (b.wouldSelfTrade 0 (b.arena.orderAt handle.index).side i).Returns true
  | _ => False

/-! ## What a rejection leaves of the book -/

/-- A submission that writes no report when it is rejected, and then leaves this book. -/
def Leaves (b : OrderBook) (c : Comp (SubmitResult × List Trade × OrderBook)) : Prop :=
  ∀ result trades b', c.Returns (result, trades, b') → result.rejectReason ≠ .none → trades = [] ∧ b' = b

section Leaves

variable {b : OrderBook}

theorem leaves_rejected (reason : RejectReason) (quantity : Nat) : Leaves b (pure (rejected reason quantity, [], b)) := by
  intro result trades b' h _
  rw [returns_pure, Prod.mk.injEq, Prod.mk.injEq] at h
  exact ⟨h.2.1.symm, h.2.2.symm⟩

/-- What comes before does not matter. -/
theorem Leaves.bind {α : Type} {c : Comp α} {f : α → Comp (SubmitResult × List Trade × OrderBook)} (h : ∀ a, Leaves b (f a)) :
    Leaves b (c >>= f) := by
  intro result trades b' hr
  obtain ⟨a, -, ha⟩ := (returns_bind _ _ _).mp hr
  exact h a result trades b' ha

/-- A submission that gets to its end is not rejected. -/
theorem leaves_concludeSubmission (b1 : OrderBook) (quantity remaining : Nat) (handle : Handle) (before : List Trade) :
    Leaves b (b1.concludeSubmission quantity remaining handle before) := by
  intro result trades b' h hr
  obtain ⟨⟨trades1, b2⟩, -, h⟩ := (returns_bind _ _ _).mp h
  rw [returns_pure, Prod.mk.injEq] at h
  exact absurd (by rw [← h.1]) hr

/-- A rejected limit order leaves the book. -/
theorem leaves_submitLimit (b : OrderBook) (id trader : Nat) (side : UInt8) (price : Int) (quantity : Nat) (tif : UInt8) (size : Nat) :
    Leaves b.resetStopActivations (b.submitLimit id trader side price quantity tif size) := by
  unfold submitLimit
  dsimp only
  split
  · exact leaves_rejected _ _
  · split
    · exact leaves_rejected _ _
    · split
      · exact leaves_rejected _ _
      · refine Leaves.bind fun pre => ?_
        split
        · exact leaves_rejected _ _
        · split
          all_goals
            refine Leaves.bind fun selfTrade => ?_
            split
            · exact leaves_rejected _ _
            · split
              all_goals exact Leaves.bind fun x => leaves_concludeSubmission _ _ _ _ _

theorem leaves_submitIceberg (b : OrderBook) (id trader : Nat) (side : UInt8) (price : Int) (quantity display size : Nat) :
    Leaves b.resetStopActivations (b.submitIceberg id trader side price quantity display size) := by
  unfold submitIceberg
  dsimp only
  split
  · exact leaves_rejected _ _
  · split
    · exact leaves_rejected _ _
    · split
      · exact leaves_rejected _ _
      · split
        · exact leaves_rejected _ _
        · refine Leaves.bind fun pre => ?_
          split
          · exact leaves_rejected _ _
          · split
            all_goals
              refine Leaves.bind fun selfTrade => ?_
              split
              · exact leaves_rejected _ _
              · exact Leaves.bind fun x => leaves_concludeSubmission _ _ _ _ _

/-- A rejected market order leaves the book. -/
theorem leaves_submitMarket (b : OrderBook) (id : Nat) (side : UInt8) (quantity size : Nat) :
    Leaves b.resetStopActivations (b.submitMarket id side quantity size) := by
  unfold submitMarket
  dsimp only
  split
  · exact leaves_rejected _ _
  · split
    · exact leaves_rejected _ _
    · exact Leaves.bind fun x => leaves_concludeSubmission _ _ _ _ _

/-- An activation is never a rejection. -/
theorem activateStop_reason {b b' : OrderBook} {handle : Handle} {before trades : List Trade} {result : SubmitResult}
    (h : (b.activateStop handle before).Returns (result, trades, b')) : result.rejectReason = .none := by
  obtain ⟨x, -, h⟩ := (returns_bind _ _ _).mp h
  rw [returns_pure, Prod.mk.injEq] at h
  rw [← h.1]
  rfl

/-- A rejected stop leaves the book. -/
theorem leaves_submitStopOrder (b : OrderBook) (id : Nat) (side : UInt8) (trigger : Int) (limit : Option Int) (quantity size : Nat) :
    Leaves b.resetStopActivations (b.submitStopOrder id side trigger limit quantity size) := by
  unfold submitStopOrder
  dsimp only
  split
  · exact leaves_rejected _ _
  · split
    · exact leaves_rejected _ _
    · split
      · intro result trades b' h hr
        obtain ⟨⟨result1, trades1, b1⟩, h1, h⟩ := (returns_bind _ _ _).mp h
        obtain ⟨⟨trades2, b2⟩, -, h⟩ := (returns_bind _ _ _).mp h
        rw [returns_pure, Prod.mk.injEq] at h
        have hreason : result.rejectReason = result1.rejectReason := by rw [← h.1]
        exact absurd (hreason.trans (activateStop_reason h1)) hr
      · intro result trades b' h hr
        rw [returns_pure, Prod.mk.injEq] at h
        exact absurd (by rw [← h.1]) hr

/-- What a rejected submission leaves, as an operation. -/
theorem Leaves.submitted {c : Comp (SubmitResult × List Trade × OrderBook)} {b' : OrderBook} {out : Outcome} (h : Leaves b c)
    (hret : (do return submitted (← c)).Returns (out, b')) (hr : out.reply.Rejects) : out.trades = [] ∧ b' = b := by
  obtain ⟨⟨result, trades, b1⟩, h1, h2⟩ := (returns_bind _ _ _).mp hret
  rw [returns_pure, MatchingEngine.submitted, Prod.mk.injEq] at h2
  obtain ⟨rfl, rfl⟩ := h2
  exact h result trades b1 h1 hr

/-- A rejected replace leaves the book, or it has taken the old order out. -/
theorem replace_rejects {b' : OrderBook} {out : Outcome} {handle : Handle} {price : Int} {quantity size : Nat}
    (h : (do return MatchingEngine.submitted (← b.replace handle price quantity size)).Returns (out, b')) (hr : out.reply.Rejects) :
    out.trades = [] ∧ (b' = b.resetStopActivations ∨ b.preflightReplace handle price quantity = .none ∧ b.requiredTradeCapacity ≤ size ∧
      b' = (b.resetStopActivations.unlink handle (b.arena.orderAt handle.index).remaining).resetStopActivations) := by
  have hreset : out.trades = [] ∧ b' = b.resetStopActivations → out.trades = [] ∧ (b' = b.resetStopActivations ∨
      b.preflightReplace handle price quantity = .none ∧ b.requiredTradeCapacity ≤ size ∧
        b' = (b.resetStopActivations.unlink handle (b.arena.orderAt handle.index).remaining).resetStopActivations) :=
    fun hs => ⟨hs.1, Or.inl hs.2⟩
  unfold replace at h
  dsimp only at h
  split at h
  · exact hreset ((leaves_rejected _ _).submitted h hr)
  · split at h
    · exact hreset ((leaves_rejected _ _).submitted h hr)
    · rename_i hsize
      split at h
      · exact hreset ((leaves_rejected _ _).submitted h hr)
      · rename_i hnone
        obtain ⟨htrades, hb'⟩ := (leaves_submitLimit _ _ _ _ _ _ _ _).submitted h hr
        exact ⟨htrades, Or.inr ⟨not_not.mp hnone, Nat.not_lt.mp hsize, hb'⟩⟩

end Leaves

/-- A replace that passed its own checks has taken the old order out. -/
def TakenOut (b b' : OrderBook) (op : Op) : Prop :=
  ∃ handle price quantity size, op = .replace handle price quantity size ∧ b.preflightReplace handle price quantity = .none ∧
    b.requiredTradeCapacity ≤ size ∧
    b' = (b.resetStopActivations.unlink handle (b.arena.orderAt handle.index).remaining).resetStopActivations

/-- A rejected operation leaves the book as it was, unless it is a replace that passed its own checks. -/
theorem apply_rejects {b b' : OrderBook} {op : Op} {out : Outcome} (h : (b.apply op).Returns (out, b')) (hr : out.reply.Rejects) :
    out.trades = [] ∧ (b.Same b' ∨ b.TakenOut b' op) := by
  have hreset : out.trades = [] ∧ b' = b.resetStopActivations → out.trades = [] ∧ (b.Same b' ∨ b.TakenOut b' op) := fun hs =>
    ⟨hs.1, Or.inl (by rw [hs.2]; rfl)⟩
  have hsame : out.trades = [] ∧ b' = b → out.trades = [] ∧ (b.Same b' ∨ b.TakenOut b' op) := fun hs =>
    ⟨hs.1, Or.inl (by rw [hs.2]; rfl)⟩
  cases op with
  | submitLimit id trader side price quantity tif size => exact hreset ((leaves_submitLimit _ _ _ _ _ _ _ _).submitted h hr)
  | submitPostOnly id side price quantity size =>
    change (do return submitted (← b.submitPostOnly id side price quantity size)).Returns (out, b') at h
    unfold submitPostOnly at h
    split at h
    · exact hsame ((leaves_rejected _ _).submitted h hr)
    · split at h
      · exact hreset ((leaves_submitLimit _ _ _ _ _ _ _ _).submitted h hr)
      · exact hsame ((leaves_rejected _ _).submitted h hr)
  | submitIceberg id trader side price quantity display size => exact hreset ((leaves_submitIceberg _ _ _ _ _ _ _ _).submitted h hr)
  | submitMarket id side quantity size => exact hreset ((leaves_submitMarket _ _ _ _ _).submitted h hr)
  | submitStop id side trigger quantity size => exact hreset ((leaves_submitStopOrder _ _ _ _ _ _ _).submitted h hr)
  | submitStopLimit id side trigger limit quantity size => exact hreset ((leaves_submitStopOrder _ _ _ _ _ _ _).submitted h hr)
  | cancel handle =>
    change (pure (⟨.cancel (b.cancel handle).1, []⟩, (b.cancel handle).2) : Comp (Outcome × OrderBook)).Returns (out, b') at h
    rw [returns_pure, Prod.mk.injEq] at h
    obtain ⟨rfl, rfl⟩ := h
    refine hsame ⟨rfl, ?_⟩
    change (b.cancel handle).1.rejectReason ≠ .none at hr
    unfold cancel at hr ⊢
    split
    · rfl
    · rename_i order horder
      rw [horder] at hr
      exact absurd rfl hr
  | amendQuantity handle n =>
    change (pure (⟨.amend (b.amendQuantity handle n).1, []⟩, (b.amendQuantity handle n).2) : Comp (Outcome × OrderBook)).Returns
      (out, b') at h
    rw [returns_pure, Prod.mk.injEq] at h
    obtain ⟨rfl, rfl⟩ := h
    refine hsame ⟨rfl, ?_⟩
    change (b.amendQuantity handle n).1.rejectReason ≠ .none at hr
    unfold amendQuantity at hr ⊢
    dsimp only at hr ⊢
    repeat' split
    any_goals rfl
    all_goals simp_all
  | replace handle price quantity size =>
    obtain ⟨htrades, hb' | ⟨hnone, hsize, hb'⟩⟩ := replace_rejects h hr
    · exact hreset ⟨htrades, hb'⟩
    · exact ⟨htrades, Or.inr ⟨handle, price, quantity, size, rfl, hnone, hsize, hb'⟩⟩
  | uncrossOpeningAuction size =>
    obtain ⟨⟨r, tr, b1⟩, h1, h⟩ := (returns_bind _ _ _).mp h
    rw [returns_pure, Prod.mk.injEq] at h
    obtain ⟨rfl, rfl⟩ := h
    change r.error ≠ .none at hr
    unfold uncrossOpeningAuction at h1
    dsimp only at h1
    have hpure : ∀ {x : AuctionResult × List Trade × OrderBook}, (pure x : Comp _).Returns (r, tr, b1) → x = (r, tr, b1) :=
      (returns_pure _ _).mp
    split at h1
    · have := hpure h1
      cases this
      exact hsame ⟨rfl, rfl⟩
    · split at h1
      · have := hpure h1
        cases this
        exact hsame ⟨rfl, rfl⟩
      · split at h1
        · have := hpure h1
          cases this
          exact absurd rfl hr
        · split at h1
          · have := hpure h1
            cases this
            exact absurd rfl hr
          · obtain ⟨x, -, h1⟩ := (returns_bind _ _ _).mp h1
            have := hpure h1
            cases this
            exact absurd rfl hr

end OrderBook

/-! ## When the old order is lost -/

section Lost

variable {gh : Prop} {cfg : BookConfig} {b b' : OrderBook} {L L' : Ladder}

/-- A replace that meets an order with trader id 0 is refused after the old order was removed. -/
theorem Ladder.replace_lost (hw : L.Wf cfg) {handle : Handle} {quantity size i j : Nat} {price : Int} {side : Side} {e : Entry}
    (hloc : L.resolve cfg handle = some (.resting side j e)) (hpre : cfg.preflight side.raw quantity = .ok side)
    (hsize : cfg.maxOrders ≤ size) (hi : cfg.domain.indexOf price = some i) (hpolicy : cfg.selfTradePolicy = .cancelTaker)
    (hmeets : L.meetsTrader cfg 0 side i = true) :
    (L.apply cfg (.replace handle price quantity size)).Returns
      (⟨.submit (rejected .selfTradePrevented quantity), []⟩, (L.reset.remove side j e.slot).reset) := by
  obtain ⟨l, r, hq, -, -⟩ := resolve_resting hloc
  obtain ⟨-, hpos, hle⟩ := BookConfig.preflight_ok hpre
  have hp := Passed.of_remove hw hq hpos hle hi
  have hmeets' : (L.reset.remove side j e.slot).reset.meetsTrader cfg 0 side i = true := by
    rw [← hmeets]
    exact meetsTrader_remove (hw.activations []) (L := L.reset) hq 0 i
  refine (returns_bind _ _ _).mpr ⟨(rejected .selfTradePrevented quantity, [], (L.reset.remove side j e.slot).reset), ?_, ?_⟩
  · unfold replace
    dsimp only
    rw [show L.reset.resolve cfg handle = some (.resting side j e) from hloc]
    dsimp only
    rw [hpre]
    dsimp only
    rw [if_neg (by omega), if_neg (by rw [hi]; exact nofun)]
    unfold submitLimit
    dsimp only
    rw [if_neg (by rw [TimeInForce.ofRaw_raw]; exact nofun), hpre]
    dsimp only
    rw [if_neg (by omega), hp.preflightLimit]
    dsimp only
    unfold enterChecked
    rw [if_pos ⟨hpolicy, hmeets'⟩]
    exact refuse_returns.mpr ⟨rfl, rfl, rfl⟩
  · exact (returns_pure _ _).mpr rfl

/-- The handle of a replace that passes its checks is that of a resting order. -/
theorem Rep.preflightReplace_none (h : Rep gh cfg b L) (hnone : L.held = none) {handle : Handle} {price : Int} {quantity : Nat}
    (hpre : b.preflightReplace handle price quantity = .none) :
    ∃ side j e i, L.resolve cfg handle = some (.resting side j e) ∧ e.slot = handle.index ∧
      (b.arena.orderAt handle.index).side = side ∧ cfg.preflight side.raw quantity = .ok side ∧ cfg.domain.indexOf price = some i := by
  unfold OrderBook.preflightReplace OrderBook.preflight at hpre
  rcases h.resolve hnone handle with ⟨h1, h2⟩ | ⟨side, j, l, e, r, h2, hq, hh, h1⟩ | ⟨l, d, r, h2, hs, hh, h1⟩
  · rw [h1] at hpre
    cases hpre
  · have he : e ∈ L.queue side j := by rw [hq]; simp
    have hindex : handle.index = e.slot := by rw [hh]; rfl
    rw [h1] at hpre
    simp only [h.entry_dormant he, Bool.false_eq_true, if_false, h.entry_side he, h.cfg_eq] at hpre
    split at hpre
    · rename_i reason hreason
      exact absurd hpre (BookConfig.preflight_reason hreason).1
    · rename_i side' hok
      have hs : side' = side := by simpa using (BookConfig.preflight_ok hok).1.symm
      split at hpre
      · rename_i hsome
        obtain ⟨i, hi⟩ := Option.isSome_iff_exists.mp hsome
        exact ⟨side, j, e, i, h2, hindex.symm, by rw [hindex, h.entry_side he], by rw [hok, hs], hi⟩
      · cases hpre
  · have hd : d ∈ L.stops := by rw [hs]; simp
    rw [h1] at hpre
    simp only [h.stop_dormant hd, if_true] at hpre
    cases hpre

/-- A handle that is resolved has a live slot. -/
theorem Rep.live_of_resolve (h : Rep gh cfg b L) {handle : Handle} {side : Side} {j : Nat} {e : Entry}
    (hloc : L.resolve cfg handle = some (.resting side j e)) : (b.arena.slots e.slot).live = true := by
  obtain ⟨l, r, hq, -, hlt⟩ := Ladder.resolve_resting hloc
  rw [h.arena.live _ hlt, (h.wf.place_of_mem (e := e) (by rw [hq]; simp)).2]
  exact nofun

/-- A removed order's slot is dead. -/
theorem Rep.dead_of_remove (h : Rep gh cfg b' L') (hw : L.Wf cfg) {side : Side} {j : Nat} {l r : List Entry} {e : Entry}
    (hq : L.queue side j = l ++ e :: r) (hL : L'.place = (L.remove side j e.slot).place) : (b'.arena.slots e.slot).live = false := by
  have hlt := (hw.place_of_mem (e := e) (by rw [hq]; simp)).1
  rw [← Bool.not_eq_true, h.arena.live _ hlt, not_not, hL, Ladder.remove_eq hq (hw.slot_ne_of_split hq).1]
  exact Function.update_self _ _ _

end Lost

/-- On every reachable book, whatever the configuration: an operation leaves the book and the trade buffer as they were whenever it is
rejected, exactly if it is not a replace that passes its own checks, with room for the reports, of an order whose new price would meet
an order with trader id 0 under `cancel_taker`. Such a replace returns, rejected, with the order's slot dead. -/
theorem rejected_same_iff {cfg : BookConfig} {state : TradingState} {calls : List (Op × Outcome)} {b : OrderBook}
    (h : OrderBook.Run cfg state calls b) (op : Op) :
    (∀ out b', (b.apply op).Returns (out, b') → out.reply.Rejects → b.Same b' ∧ out.trades = []) ↔ ¬b.Loses op := by
  obtain ⟨L, hrun, hrepr, hnone⟩ := h.ladder
  constructor
  · intro hall hlose
    cases op with
    | replace handle price quantity size =>
      obtain ⟨hpre, hsize, hpolicy, i, hi, hmeets⟩ := hlose
      obtain ⟨side, j, e, i', hloc, hslot, hside, hpf, hi'⟩ := hrepr.preflightReplace_none hnone hpre
      rw [hrepr.cfg_eq] at hpolicy hi
      rw [hi, Option.some.injEq] at hi'
      subst hi'
      rw [hside] at hmeets
      have hsize' : cfg.maxOrders ≤ size := by rw [← hrepr.arena.capacity]; exact hsize
      have hret := Ladder.replace_lost hrun.wf hloc hpf hsize' hi hpolicy (hrepr.wouldSelfTrade.unique hmeets)
      obtain ⟨⟨out, b'⟩, hb', hout, hrepr', -⟩ := (hrepr.apply hnone _).2 _ hret
      dsimp only at hout hrepr'
      obtain ⟨hsame, -⟩ := hall out b' hb' (by rw [hout]; exact nofun)
      obtain ⟨l, r, hq, -, -⟩ := Ladder.resolve_resting hloc
      have hdead := hrepr'.dead_of_remove (L := L.reset) (hrun.wf.activations []) hq rfl
      have hlive := hrepr.live_of_resolve hloc
      have harena : b'.resetStopActivations.arena = b.resetStopActivations.arena := congrArg OrderBook.arena hsame
      rw [show b'.arena = b.arena from harena, hlive] at hdead
      cases hdead
    | _ => exact hlose
  · intro hkeep out b' hb' hrej
    obtain ⟨htrades, hsame | ⟨handle, price, quantity, size, rfl, hpre, hsize, hout⟩⟩ := OrderBook.apply_rejects hb' hrej
    · exact ⟨hsame, htrades⟩
    · exfalso
      obtain ⟨side, j, e, i, hloc, hslot, hside, hpf, hi⟩ := hrepr.preflightReplace_none hnone hpre
      have hlive := hrepr.live_of_resolve hloc
      obtain ⟨⟨out', L'⟩, hL', rfl, hrepr', -⟩ := (hrepr.apply hnone _).1 _ hb'
      obtain ⟨l, r, hq, -, hlt⟩ := Ladder.resolve_resting hloc
      have hat := hrepr.entries side j e (by rw [hq]; simp)
      obtain ⟨hremoved, -⟩ := hrepr.reset.remove (L := L.reset) hq
      have hhandle : handle = b.arena.handleAt e.slot := by
        rw [OrderArena.handleAt, hrepr.arena.generation _ hlt]
        exact (Ladder.resolve_resting hloc).elim fun _ h => h.elim fun _ h => h.2.1
      have hdead : (b'.arena.slots e.slot).live = false := by
        have := hremoved.dead_of_remove (L := L.reset) (hrun.wf.activations []) hq rfl
        rw [hout, ← hslot, hat.remaining, hhandle]
        exact this
      cases Ladder.apply_effect hrun.wf hL' with
      | refused _ _ hsame =>
        have hplace : L'.place = L.place := by rcases hsame with rfl | rfl <;> rfl
        have : (b'.arena.slots e.slot).live = true := by
          rw [hrepr'.arena.live _ hlt, hplace]
          exact (hrepr.arena.live _ hlt).mp hlive
        rw [hdead] at this
        cases this
      | entered _ _ _ _ => exact hrej rfl
      | lost _ hloc' _ _ _ hi' hpolicy hmeets =>
        rw [hloc, Option.some.injEq, Ladder.Located.resting.injEq] at hloc'
        rw [← hloc'.1] at hmeets
        refine hkeep ⟨hpre, hsize, by rw [hrepr.cfg_eq]; exact hpolicy, _, by rw [hrepr.cfg_eq]; exact hi', ?_⟩
        rw [hside, ← hmeets]
        exact hrepr.wouldSelfTrade
      | slept hsub _ _ _ _ _ _ _ => cases hsub
      | fired hsub _ _ _ _ _ _ _ _ _ => cases hsub

/-- A post-only order rests anonymously at 101, a bid of trader 7 rests at 100: its replacement at 101 is rejected, and the bid is
gone. -/
def lostReplace : List Op := [.submitPostOnly 1 1 101 5 4, .submitLimit 2 7 0 100 5 0 4]

/-- The rejected replacement leaves another book: the original order is no longer live. -/
theorem rejected_replace_loses_order : ∃ calls b out b',
    OrderBook.execute (BookConfig.small 4 (by decide) .cancelTaker) .continuous 20 lostReplace = some (calls, b) ∧
    (b.apply (.replace ⟨1, 1⟩ 101 5 4)).Returns (out, b') ∧ out.reply = .submit (rejected .selfTradePrevented 5) ∧
    b.orderInfo ⟨1, 1⟩ = some ⟨2, .buy, 100, 5⟩ ∧ b'.orderInfo ⟨1, 1⟩ = none ∧ ¬b.Same b' := by
  have hsome : (OrderBook.execute (BookConfig.small 4 (by decide) .cancelTaker) .continuous 20 lostReplace).any (fun r =>
      r.2.orderInfo ⟨1, 1⟩ = some ⟨2, .buy, 100, 5⟩ && ((r.2.apply (.replace ⟨1, 1⟩ 101 5 4)).run 20).any fun r' =>
        r'.1.reply = .submit (rejected .selfTradePrevented 5) && r'.2.orderInfo ⟨1, 1⟩ = none) = true := by decide +kernel
  rw [Option.any_eq_true] at hsome
  obtain ⟨⟨calls, b⟩, h, hb⟩ := hsome
  rw [Bool.and_eq_true, Option.any_eq_true, decide_eq_true_eq] at hb
  obtain ⟨hinfo, ⟨out, b'⟩, hrun, hb'⟩ := hb
  rw [Bool.and_eq_true, decide_eq_true_eq, decide_eq_true_eq] at hb'
  refine ⟨calls, b, out, b', h, ⟨20, hrun⟩, hb'.1, hinfo, hb'.2, fun hsame => ?_⟩
  have hsame' : b'.resetStopActivations.orderInfo ⟨1, 1⟩ = b.resetStopActivations.orderInfo ⟨1, 1⟩ := by rw [hsame]
  change b'.orderInfo ⟨1, 1⟩ = b.orderInfo ⟨1, 1⟩ at hsame'
  rw [hinfo, hb'.2] at hsame'
  cases hsame'

/-- On the book of `rejected_replace_loses_order` a cancel meets the condition. -/
theorem rejected_same_iff_cancel : ∃ calls b,
    OrderBook.execute (BookConfig.small 4 (by decide) .cancelTaker) .continuous 20 lostReplace = some (calls, b) ∧
    ∀ out b', (b.apply (.cancel ⟨3, 1⟩)).Returns (out, b') → out.reply.Rejects → b.Same b' ∧ out.trades = [] := by
  have hsome : (OrderBook.execute (BookConfig.small 4 (by decide) .cancelTaker) .continuous 20 lostReplace).isSome = true := by
    decide +kernel
  obtain ⟨⟨calls, b⟩, h⟩ := Option.isSome_iff_exists.mp hsome
  exact ⟨calls, b, h, (rejected_same_iff (OrderBook.Run.of_execute h) _).mpr id⟩

end MatchingEngine

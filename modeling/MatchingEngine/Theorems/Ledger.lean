import MatchingEngine.Lemmas.Accounts
import MatchingEngine.Theorems.Results

/-!
# Quantity is conserved

Over every run of a FIFO book without a self-trade policy, whatever was accepted has traded, twice for its two sides, has left the book on
one of the accounts of the ledger, or is still in it. Order by order, what is left is what the order was last given less the reports that
name it since.
-/

namespace MatchingEngine

open Comp Function Ladder

/-! ## The accounts -/

theorem tradesWeight_one (trades : List Trade) : tradesWeight (fun _ => 1) trades = 2 * (trades.map Trade.quantity).sum := by
  induction trades with
  | nil => rfl
  | cons t trades ih =>
    rw [tradesWeight, List.map_cons, List.sum_cons, List.map_cons, List.sum_cons, Nat.mul_add, ← ih]
    rfl

/-- Reports that name two orders each count once for an order they name. -/
theorem tradesWeight_unitOf {trades : List Trade} (h : ∀ t ∈ trades, t.buyId ≠ t.sellId) (x : Nat) :
    tradesWeight (unitOf x) trades = reportedQuantity x trades := by
  induction trades with
  | nil => rfl
  | cons t trades ih =>
    have hne := h t List.mem_cons_self
    have ih := ih fun t' ht' => h t' (List.mem_cons_of_mem _ ht')
    unfold reportedQuantity tradesWeight at ih ⊢
    rw [List.map_cons, List.sum_cons, ih, List.filter_cons]
    by_cases hb : t.buyId = x
    · have hs : t.sellId ≠ x := fun hs => hne (hb.trans hs.symm)
      rw [if_pos (decide_eq_true (Or.inl hb)), List.map_cons, List.sum_cons, unitOf_of_ne hs, hb, unitOf_self, Nat.add_zero, Nat.one_mul]
    · by_cases hs : t.sellId = x
      · rw [if_pos (decide_eq_true (Or.inr hs)), List.map_cons, List.sum_cons, unitOf_of_ne hb, hs, unitOf_self, Nat.zero_add, Nat.one_mul]
      · have hnot : ¬decide (t.buyId = x ∨ t.sellId = x) = true := by simp [hb, hs]
        rw [if_neg hnot, unitOf_of_ne hb, unitOf_of_ne hs, Nat.zero_mul, Nat.zero_add]

theorem lostWeight_one (activations : List StopActivation) :
    lostWeight (fun _ => 1) activations = (activations.map StopActivation.lost).sum := by
  simp [lostWeight]

/-- The ids of the new orders of a run. -/
def newIds (calls : List (Op × Outcome)) : List Nat := calls.filterMap fun call => call.1.newId

theorem newIds_append (calls : List (Op × Outcome)) (op : Op) (out : Outcome) :
    newIds (calls ++ [(op, out)]) = newIds calls ++ op.newId.toList := by
  rw [newIds, List.filterMap_append, newIds]
  cases h : op.newId with
  | none => simp [h]
  | some id => simp [h]

/-- The ledger agrees with the ladder. -/
structure Ledger.Agrees (cfg : BookConfig) (calls : List (Op × Outcome)) (ledger : Ledger) (L : Ladder) : Prop where
  total : ledger.accepted = 2 * ledger.traded + ledger.canceled + ledger.reduced + ledger.replaced + ledger.unfilled +
    L.weigh cfg (perUnit fun _ => 1)
  known : ∀ x, x ∉ newIds calls → L.weigh cfg (ofId x) = 0
  sole : (newIds calls).Nodup → L.Sole cfg
  orders : (newIds calls).Nodup → ∀ x, L.weigh cfg (ofId x) = 0 ∨
    L.weigh cfg (perUnit (unitOf x)) + ledger.reported x = ledger.quantity x

namespace Ledger.Agrees

variable {cfg : BookConfig} {calls : List (Op × Outcome)} {ledger : Ledger} {L L' : Ladder} {op : Op} {out : Outcome}

theorem create (state : TradingState) : Agrees cfg [] .empty (Ladder.create cfg state) := by
  have hzero : ∀ f, (Ladder.create cfg state).weigh cfg f = 0 := fun f => by
    simp [weigh, Ladder.create]
  exact ⟨by rw [hzero]; rfl, fun x _ => hzero _, fun _ x => by rw [hzero]; exact Nat.zero_le 1, fun _ x => Or.inl (hzero _)⟩

/-- Distinct ids were distinct before the last call, and its id is none of them. -/
theorem nodup_of_append (h : (newIds (calls ++ [(op, out)])).Nodup) :
    (newIds calls).Nodup ∧ ∀ id, op.newId = some id → id ∉ newIds calls := by
  rw [newIds_append, List.nodup_append] at h
  refine ⟨h.1, fun id hid hmem => ?_⟩
  exact h.2.2 id hmem id (by rw [hid]; exact List.mem_singleton.mpr rfl) rfl

/-- A call that moves nothing. -/
theorem quiet (h : Agrees cfg calls ledger L) (hsame : ∀ f, L'.weigh cfg f = L.weigh cfg f) :
    Agrees cfg (calls ++ [(op, out)]) ledger L' := by
  have hknown : ∀ x, x ∉ newIds (calls ++ [(op, out)]) → x ∉ newIds calls := fun x hx hmem => by
    rw [newIds_append] at hx
    exact hx (List.mem_append_left _ hmem)
  refine ⟨by rw [hsame]; exact h.total, fun x hx => by rw [hsame]; exact h.known x (hknown x hx), fun hn x => ?_, fun hn x => ?_⟩
  · rw [hsame]
    exact h.sole (nodup_of_append hn).1 x
  · rw [hsame, hsame]
    exact h.orders (nodup_of_append hn).1 x

/-- A call that takes an order out of the book. -/
theorem cancel (h : Agrees cfg calls ledger L) {id remaining : Nat} (hpos : 0 < remaining)
    (hgone : ∀ f : Nat → Nat → Nat, L'.weigh cfg f + f id remaining = L.weigh cfg f) :
    Agrees cfg (calls ++ [(op, out)]) { ledger with canceled := ledger.canceled + remaining } L' := by
  refine ⟨?_, fun x hx => ?_, fun hn x => ?_, fun hn x => ?_⟩
  · have h1 := h.total
    have h2 := hgone (perUnit fun _ => 1)
    simp only [perUnit, Nat.one_mul] at h1 h2 ⊢
    omega
  · have h1 := hgone (ofId x)
    rw [h.known x fun hmem => hx (by rw [newIds_append]; exact List.mem_append_left _ hmem)] at h1
    omega
  · have h1 := hgone (ofId x)
    have h2 := h.sole (nodup_of_append hn).1 x
    omega
  · have h1 := hgone (ofId x)
    have h2 := h.sole (nodup_of_append hn).1 x
    by_cases hid : id = x
    · rw [hid, ofId_self hpos] at h1
      exact Or.inl (by omega)
    · have h3 := hgone (perUnit (unitOf x))
      rw [perUnit, unitOf_of_ne hid, Nat.zero_mul, Nat.add_zero] at h3
      rw [ofId_of_ne hid, Nat.add_zero] at h1
      rw [h1, h3]
      exact h.orders (nodup_of_append hn).1 x

/-- A call that amends an order to less. -/
theorem amend (h : Agrees cfg calls ledger L) {id remaining n : Nat} (hpos : 0 < n) (hle : n ≤ remaining)
    (hleft : (newIds calls).Nodup → L.weigh cfg (perUnit (unitOf id)) = remaining)
    (hless : ∀ f : Nat → Nat → Nat, L'.weigh cfg f + f id remaining = L.weigh cfg f + f id n) :
    Agrees cfg (calls ++ [(op, out)]) { ledger.allot id n with reduced := ledger.reduced + (remaining - n) } L' := by
  have hcount : ∀ x, L'.weigh cfg (ofId x) = L.weigh cfg (ofId x) := fun x => by
    have h1 := hless (ofId x)
    have h2 : ofId x id remaining = ofId x id n := by
      simp only [ofId]
      rw [if_congr (and_congr_right fun _ => iff_of_true (by omega : 0 < remaining) hpos) rfl rfl]
    omega
  refine ⟨?_, fun x hx => ?_, fun hn x => ?_, fun hn x => ?_⟩
  · have h1 := h.total
    have h2 := hless (perUnit fun _ => 1)
    simp only [perUnit, Nat.one_mul, allot] at h1 h2 ⊢
    omega
  · rw [hcount]
    exact h.known x fun hmem => hx (by rw [newIds_append]; exact List.mem_append_left _ hmem)
  · rw [hcount]
    exact h.sole (nodup_of_append hn).1 x
  · have h1 := hless (perUnit (unitOf x))
    by_cases hid : id = x
    · subst hid
      have h2 := hleft (nodup_of_append hn).1
      have h3 : ∀ r, perUnit (unitOf id) id r = r := fun r => by rw [perUnit, unitOf_self, Nat.one_mul]
      rw [h3, h3] at h1
      right
      simp only [allot, update_self]
      omega
    · rw [perUnit, unitOf_of_ne hid, Nat.zero_mul, perUnit, unitOf_of_ne hid, Nat.zero_mul, Nat.add_zero, Nat.add_zero] at h1
      rw [hcount, h1]
      simp only [allot, update_of_ne (Ne.symm hid)]
      exact h.orders (nodup_of_append hn).1 x

/-- An uncross. -/
theorem uncross (h : Agrees cfg calls ledger L) {trades : List Trade}
    (hweight : ∀ c, L'.weigh cfg (perUnit c) + tradesWeight c trades = L.weigh cfg (perUnit c))
    (hcount : ∀ x, L'.weigh cfg (ofId x) ≤ L.weigh cfg (ofId x))
    (hdistinct : L.Sole cfg → ∀ trade ∈ trades, trade.buyId ≠ trade.sellId) :
    Agrees cfg (calls ++ [(op, out)]) (ledger.trade trades) L' := by
  refine ⟨?_, fun x hx => ?_, fun hn x => Nat.le_trans (hcount x) (h.sole (nodup_of_append hn).1 x), fun hn x => ?_⟩
  · have h1 := h.total
    have h2 := hweight fun _ => 1
    rw [tradesWeight_one] at h2
    simp only [trade]
    omega
  · have h1 := hcount x
    rw [h.known x fun hmem => hx (by rw [newIds_append]; exact List.mem_append_left _ hmem)] at h1
    omega
  · obtain ⟨hn, -⟩ := nodup_of_append hn
    have h1 := hweight (unitOf x)
    have h2 := hcount x
    rw [tradesWeight_unitOf (hdistinct (h.sole hn))] at h1
    rcases h.orders hn x with hx | hx
    · exact Or.inl (by omega)
    · right
      simp only [trade]
      omega

/-- An accepted submission. The order is new to the ladder it meets. -/
theorem enter (h : Agrees cfg calls ledger L) {b b' : OrderBook} {r : SubmitResult} {trades : List Trade} {quantity replaced own : Nat}
    {L₀ : Ladder} (he : Enters cfg L L' trades (b.submittedId op) quantity replaced own L₀)
    (hnew : op.newId = some (b.submittedId op) ∨ 0 < replaced)
    (hquantity : submittedQuantity op = some quantity) (hreplaced : b.replacedQuantity op = replaced) (hok : r.rejectReason = .none)
    (hown : (if op.submitsStop then 0 else r.lost) = own) (hacts : b'.stopActivations = L'.activations) :
    Agrees cfg (calls ++ [(op, ⟨.submit r, trades⟩)]) (ledger.record b op ⟨.submit r, trades⟩ b') L' := by
  have hrecord : ledger.record b op ⟨.submit r, trades⟩ b' =
      { (ledger.allot (b.submittedId op) quantity).trade trades with
        accepted := ledger.accepted + quantity
        replaced := ledger.replaced + replaced
        unfilled := ledger.unfilled + own + (L'.activations.map StopActivation.lost).sum } := by
    unfold record
    dsimp only
    rw [if_pos hok, hquantity, hreplaced, hown, hacts]
    rfl
  generalize hid : b.submittedId op = id at *
  have hfresh : (newIds (calls ++ [(op, ⟨.submit r, trades⟩)])).Nodup → L₀.Sole cfg ∧ L₀.weigh cfg (ofId id) = 0 := fun hn => by
    obtain ⟨hn, hnot⟩ := nodup_of_append hn
    have hsole := h.sole hn
    refine ⟨fun x => ?_, ?_⟩
    · have h1 := he.before (ofId x) (ofId_zero x)
      have h2 := hsole x
      omega
    · have h1 := he.before (ofId id) (ofId_zero id)
      rcases hnew with hnew | hpos
      · have h2 := h.known id (hnot id hnew)
        omega
      · have h2 := hsole id
        rw [ofId_self hpos] at h1
        omega
  have hunits : ∀ r, perUnit (unitOf id) id r = r := fun r => by rw [perUnit, unitOf_self, Nat.one_mul]
  rw [hrecord]
  refine ⟨?_, fun x hx => ?_, fun hn x => ?_, fun hn x => ?_⟩
  · have h1 := h.total
    have h2 := he.weight fun _ => 1
    have h3 := he.before (perUnit fun _ => 1) perUnit_zero
    rw [tradesWeight_one, lostWeight_one, Nat.one_mul, Nat.one_mul] at h2
    simp only [perUnit, Nat.one_mul] at h3 h1
    simp only [trade, allot]
    omega
  · have hx' : x ∉ newIds calls := fun hmem => hx (by rw [newIds_append]; exact List.mem_append_left _ hmem)
    have h1 := he.count x
    have h2 := he.before (ofId x) (ofId_zero x)
    have h3 := h.known x hx'
    have hne : id ≠ x := fun heq => by
      rcases hnew with hnew | hpos
      · exact hx (by rw [newIds_append, hnew]; exact List.mem_append_right _ (List.mem_singleton.mpr heq.symm))
      · rw [heq, ofId_self hpos] at h2
        omega
    rw [ofId_of_ne hne] at h1
    omega
  · obtain ⟨hsole, hzero⟩ := hfresh hn
    have h1 := he.count x
    have h2 := hsole x
    by_cases heq : id = x
    · rw [heq] at hzero
      rw [heq, ofId_self Nat.one_pos] at h1
      omega
    · rw [ofId_of_ne heq] at h1
      omega
  · obtain ⟨hsole, hzero⟩ := hfresh hn
    have h1 := he.weight (unitOf x)
    rw [tradesWeight_unitOf (he.distinct hsole hzero)] at h1
    by_cases heq : id = x
    · subst heq
      refine (he.settled hsole hzero id).imp_right fun hleft => ?_
      obtain ⟨hlost, hleft⟩ := hleft
      rw [hlost, hleft rfl, weigh_unit_eq_zero hzero, unitOf_self] at h1
      simp only [trade, allot, update_self]
      omega
    · have h2 := he.before (perUnit (unitOf x)) perUnit_zero
      rw [perUnit, unitOf_of_ne heq, Nat.zero_mul, Nat.add_zero] at h2
      rw [unitOf_of_ne heq, Nat.zero_mul, Nat.zero_mul] at h1
      rcases h.orders (nodup_of_append hn).1 x with hx | hx
      · have h3 := he.before (ofId x) (ofId_zero x)
        have h4 := he.count x
        rw [ofId_of_ne heq] at h3 h4
        exact Or.inl (by omega)
      · refine (he.settled hsole hzero x).imp_right fun hlost => ?_
        obtain ⟨hlost, -⟩ := hlost
        rw [hlost] at h1
        simp only [trade, allot, update_of_ne (Ne.symm heq)]
        omega

end Ledger.Agrees

/-! ## One call -/

section Calls

variable {cfg : BookConfig} {calls : List (Op × Outcome)} {ledger : Ledger} {b b' : OrderBook} {L L' : Ladder} {op : Op} {out : Outcome}

/-- The ledger agrees after a call, and the call balances. -/
theorem Ledger.Agrees.effect (hfifo : cfg.allocationMode = .fifo) (hpolicy : cfg.selfTradePolicy = .none) (hrepr : Rep True cfg b L)
    (hrepr' : Rep True cfg b' L') (hnone : L.held = none) (h : Agrees cfg calls ledger L) (he : Effect cfg L op out L') :
    Agrees cfg (calls ++ [(op, out)]) (ledger.record b op out b') L' ∧ OrderBook.Balances op out b' := by
  have hw := hrepr.wf
  have hmax := cfg.maxOrderQuantity_lt
  cases he with
  | @refused _ reason quantity _ hsub hne hsame =>
    have hweigh : ∀ f, L'.weigh cfg f = L.weigh cfg f := fun f => by
      rcases hsame with rfl | rfl
      · rfl
      · rfl
    refine ⟨?_, ⟨fun q r hq hr => ?_, ?_⟩⟩
    · unfold record
      dsimp only
      rw [if_neg (show (rejected reason quantity).rejectReason ≠ .none from hne)]
      exact h.quiet hweigh
    · cases hr
      rw [hsub, Option.some.injEq] at hq
      rw [← hq]
      exact Nat.zero_add _
    · have hacc : Outcome.accepted ⟨.submit (rejected reason quantity), []⟩ = false := decide_eq_false hne
      rw [OrderBook.othersActivated, hacc]
      rfl
  | @entered _ L0 L1 _ t i quantity rests display w handle trades ha hm hr hc =>
    have hs := ha.sound hw hnone
    have hle := hs.le
    obtain ⟨hstop, hquantity, hreset, hnew, hbefore⟩ := hrepr.admitted ha
    have hid := hrepr.submittedId ha
    obtain ⟨henters, hrem, hsum⟩ := enters_of_matched hfifo hs.wf hs.held hreset (by omega) hs.level hbefore hm hr hc
    rw [← hid] at henters hnew
    have hexec : sub64 quantity w.remaining = quantity - w.remaining := sub64_eq hrem (by omega)
    refine ⟨h.enter henters hnew hquantity rfl rfl ?_ hrepr'.activations, ⟨fun q r hq hr => ?_, ?_⟩⟩
    · rw [hstop]
      rfl
    · cases hr
      rw [hquantity, Option.some.injEq] at hq
      rw [hexec]
      dsimp only
      omega
    · rw [hsum, OrderBook.othersActivated, hstop, hrepr'.activations]
      exact congrArg (· + _) hexec.symm
  | lost _ _ _ _ _ _ hpol _ =>
    rw [hpolicy] at hpol
    cases hpol
  | @slept _ id quantity _ _ _ _ _ d _ hsub _ _ _ _ _ hrest _ =>
    obtain ⟨hstop, hnew, hquantity, hid, hrep⟩ := submitsStop_of_arguments (b := b) hsub
    have hsl := restStop_slept hrest
    have henters : Enters cfg L _ [] _ _ 0 0 L.reset := hsl.enters
    rw [← hid] at henters hnew
    have hacts : b'.stopActivations = [] := by
      rw [hrepr'.activations]
      obtain ⟨free, -, rfl⟩ := hsl.room
      rfl
    refine ⟨h.enter henters (Or.inl hnew) hquantity hrep rfl (by rw [hstop]; rfl) hrepr'.activations, ⟨fun q r hq hr => ?_, ?_⟩⟩
    · cases hr
      rw [hquantity, Option.some.injEq] at hq
      exact (Nat.zero_add _).trans hq
    · rw [OrderBook.othersActivated, hstop, hacts]
      rfl
  | @fired _ id quantity _ _ _ _ _ d L1 L2 _ w result trades hsub _ _ _ _ _ hrest _ hact hc =>
    obtain ⟨hstop, hnew, hquantity, hid, hrep⟩ := submitsStop_of_arguments (b := b) hsub
    obtain ⟨henters, hparts, hsum⟩ := (restStop_slept hrest).enters_of_activated hfifo hw hnone hact hc
    rw [← hid] at henters hnew
    have hok : result.rejectReason = .none := by rw [hact.result]
    refine ⟨h.enter henters (Or.inl hnew) hquantity hrep hok (by rw [hstop]; rfl) hrepr'.activations, ⟨fun q r hq hr => ?_, ?_⟩⟩
    · cases hr
      rw [hquantity, Option.some.injEq] at hq
      exact hparts.trans hq
    · have hacc : Outcome.accepted ⟨.submit { result with tradeCount := trades.length }, trades⟩ = true := decide_eq_true hok
      rw [hsum, OrderBook.othersActivated, hacc, hstop, hrepr'.activations]
      rfl
  | cancelMissed _ => exact ⟨h.quiet fun _ => rfl, ⟨fun _ _ hq => (by cases hq), rfl⟩⟩
  | @cancelled handle side i e hloc =>
    obtain ⟨l, r, hq, -, -⟩ := resolve_resting hloc
    exact ⟨h.cancel (Nat.lt_of_lt_of_le e.displayed_pos e.displayed_le_remaining) fun f => weigh_remove hw hq,
      ⟨fun _ _ hq => (by cases hq), rfl⟩⟩
  | @cancelledStop handle d hloc =>
    obtain ⟨l, r, hs, -, -⟩ := resolve_dormant hloc
    exact ⟨h.cancel d.remaining_pos fun f => weigh_removeStop hw hs, ⟨fun _ _ hq => (by cases hq), rfl⟩⟩
  | @amendRefused handle n r hne =>
    refine ⟨?_, ⟨fun _ _ hq => (by cases hq), rfl⟩⟩
    unfold record
    dsimp only
    rw [if_neg hne]
    exact h.quiet fun _ => rfl
  | @amended handle n i side e hloc hpos hle _ =>
    obtain ⟨l, r, hq, -, -⟩ := resolve_resting hloc
    have he : e ∈ L.queue side i := by rw [hq]; simp
    exact ⟨h.amend hpos hle (fun hn => weigh_unit_of_mem hw (h.sole hn e.id) he) fun f => weigh_amendEntry hw hq hpos hle,
      ⟨fun _ _ hq => (by cases hq), rfl⟩⟩
  | @amendedStop handle n d hloc hpos hle _ =>
    obtain ⟨l, r, hs, -, -⟩ := resolve_dormant hloc
    have hd : d ∈ L.stops := by rw [hs]; simp
    exact ⟨h.amend hpos hle (fun hn => weigh_unit_of_stop hw (h.sole hn d.id) hd) fun f => weigh_amendStop hw hs hpos hle,
      ⟨fun _ _ hq => (by cases hq), rfl⟩⟩
  | uncrossRefused _ =>
    exact ⟨(h.uncross (fun _ => rfl) (fun _ => Nat.le_refl _) fun _ => nofun : Agrees cfg _ (ledger.trade []) _), ⟨fun _ _ hq => (by cases hq), rfl⟩⟩
  | opened _ _ =>
    have hopen : ∀ op out, Agrees cfg (calls ++ [(op, out)]) (ledger.trade []) { L with tradingState := .continuous } := fun _ _ =>
      h.uncross (fun _ => rfl) (fun _ => Nat.le_refl _) fun _ => nofun
    exact ⟨hopen _ _, ⟨fun _ _ hq => (by cases hq), rfl⟩⟩
  | @uncrossed size i remaining trades L1 _ _ _ hloop =>
    have hw1 : { L with tradingState := .continuous }.Wf cfg := hw.of_slots (fun _ _ => rfl) rfl rfl rfl rfl rfl
    obtain ⟨hweight, hcount, hdistinct, hsum⟩ := auction_weighs hw1 hloop
    refine ⟨h.uncross hweight hcount hdistinct, ⟨fun _ _ hq => (by cases hq), ?_⟩⟩
    change (trades.map Trade.quantity).sum = (L.clearing cfg).executable - remaining + 0
    omega

end Calls

/-! ## Runs -/

section Runs

variable {cfg : BookConfig} {b : OrderBook} {L : Ladder}

/-- The open quantity of a book is that of its ladder. -/
theorem Rep.openQuantity {gh : Prop} (h : Rep gh cfg b L) (hnone : L.held = none) :
    b.openQuantity = L.weigh cfg (perUnit fun _ => 1) := by
  rw [← h.sum_liveSlots hnone]
  simp only [perUnit, Nat.one_mul, OrderBook.openQuantity]

/-- The ledger of a run agrees with the ladder the book represents. -/
theorem OrderBook.Recorded.agrees {state : TradingState} {calls : List (Op × Outcome)} {ledger : Ledger}
    (hfifo : cfg.allocationMode = .fifo) (hpolicy : cfg.selfTradePolicy = .none) (h : OrderBook.Recorded cfg state calls ledger b) :
    ∃ L, Rep True cfg b L ∧ L.held = none ∧ ledger.Agrees cfg calls L := by
  induction h with
  | create hc => exact ⟨_, repr_create hc, rfl, .create state⟩
  | apply _ hr ih =>
    obtain ⟨L, hrepr, hnone, hagrees⟩ := ih
    obtain ⟨⟨out, L'⟩, hL, rfl, hrepr', hnone'⟩ := (hrepr.apply hnone _).1 _ hr
    exact ⟨L', hrepr', hnone', (hagrees.effect hfifo hpolicy hrepr hrepr' hnone (apply_effect hrepr.wf hL)).1⟩
  | check _ hr ih =>
    obtain ⟨L, hrepr, hnone, hagrees⟩ := ih
    exact ⟨L, hrepr.of_checkInvariants hr, hnone, hagrees⟩

end Runs

/-- Quantity is conserved over every run of a FIFO book without a self-trade policy, from either trading state. What was accepted is twice
what was traded, what was cancelled, reduced, replaced or left unfilled, and what is open. When no two orders were submitted with one id,
every order has left what it was last given less the reports that name it since. Every further call splits a submitted quantity into
executed and unfilled, and reports what its order and the stops it activated have executed. -/
theorem quantity_conserved {cfg : BookConfig} {state : TradingState} {calls : List (Op × Outcome)} {ledger : Ledger} {b : OrderBook}
    (recorded : OrderBook.Recorded cfg state calls ledger b) (hfifo : cfg.allocationMode = .fifo)
    (hpolicy : cfg.selfTradePolicy = .none) :
    ledger.accepted = 2 * ledger.traded + ledger.canceled + ledger.reduced + ledger.replaced + ledger.unfilled + b.openQuantity ∧
      ((newIds calls).Nodup → ∀ handle info, b.orderInfo handle = some info →
        info.remaining + ledger.reported info.id = ledger.quantity info.id) ∧
      ∀ op out b', (b.apply op).Returns (out, b') → OrderBook.Balances op out b' := by
  obtain ⟨L, hrepr, hnone, hagrees⟩ := recorded.agrees hfifo hpolicy
  refine ⟨?_, fun hn handle info hinfo => ?_, fun op out b' hret => ?_⟩
  · rw [hrepr.openQuantity hnone]
    exact hagrees.total
  · rw [hrepr.orderInfo hnone] at hinfo
    unfold Ladder.orderInfo at hinfo
    split at hinfo
    · cases hinfo
    · rename_i side i e hloc
      obtain ⟨l, r, hq, -, -⟩ := resolve_resting hloc
      have he : e ∈ L.queue side i := by rw [hq]; simp
      have hlive := weigh_ge (f := ofId e.id) hrepr.wf he
      rw [ofId_self (Nat.lt_of_lt_of_le e.displayed_pos e.displayed_le_remaining)] at hlive
      cases hinfo
      rw [← weigh_unit_of_mem hrepr.wf (hagrees.sole hn e.id) he]
      exact (hagrees.orders hn e.id).resolve_left (by omega)
    · rename_i d hloc
      obtain ⟨l, r, hs, -, -⟩ := resolve_dormant hloc
      have hd : d ∈ L.stops := by rw [hs]; simp
      have hlive := weigh_removeStop (f := ofId d.id) hrepr.wf hs
      rw [ofId_self d.remaining_pos] at hlive
      cases hinfo
      rw [← weigh_unit_of_stop hrepr.wf (hagrees.sole hn d.id) hd]
      exact (hagrees.orders hn d.id).resolve_left (by omega)
  · obtain ⟨⟨out, L'⟩, hL, rfl, hrepr', -⟩ := (hrepr.apply hnone op).1 _ hret
    exact (hagrees.effect hfifo hpolicy hrepr hrepr' hnone (apply_effect hrepr.wf hL)).2

/-- A sell stop, a bid, and an ask that takes part of the bid and triggers the stop, which takes another part. -/
def stopTakesBid : List Op := [.submitStop 1 1 101 2 4, .submitLimit 2 7 0 101 10 0 4, .submitLimit 3 8 1 101 5 0 4]

theorem quantity_conserved_stop : ∃ calls ledger b, OrderBook.Recorded (BookConfig.small 4 (by decide) .none) .continuous calls ledger b ∧
    (newIds calls).Nodup ∧ b.openQuantity = 3 ∧
    ledger.accepted = 2 * ledger.traded + ledger.canceled + ledger.reduced + ledger.replaced + ledger.unfilled + 3 := by
  have hsome : (OrderBook.execute (BookConfig.small 4 (by decide) .none) .continuous 20 stopTakesBid).any (fun r =>
      decide (newIds r.1).Nodup && decide (r.2.openQuantity = 3)) = true := by decide +kernel
  rw [Option.any_eq_true] at hsome
  obtain ⟨⟨calls, b⟩, h, hb⟩ := hsome
  rw [Bool.and_eq_true, decide_eq_true_eq, decide_eq_true_eq] at hb
  obtain ⟨ledger, hrec⟩ := (OrderBook.Run.of_execute h).recorded
  refine ⟨calls, ledger, b, hrec, hb.1, hb.2, ?_⟩
  rw [← hb.2]
  exact (quantity_conserved hrec rfl rfl).1

end MatchingEngine

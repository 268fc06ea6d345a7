import MatchingEngine.Lemmas.Population

/-!
# The traders of the orders

Under `cancel_taker` no order ever waits against an order of the same trader that its price allows it to meet (`Ladder.Apart`), in
either trading state. As long as every order carries the trader it was accepted under, no report has the same trader on both sides.
-/

namespace MatchingEngine

open Comp

namespace Ladder

variable {cfg : BookConfig} {L₀ L L' L'' : Ladder} {op : Op}

/-! ## Orders that only get less -/

/-- Every order of `L'` was in `L`, at the same level, with at least as much left. -/
def Thins (L L' : Ladder) : Prop := ∀ ⦃side i x⦄, x ∈ L'.queue side i → ∃ e ∈ L.queue side i, Entry.Shrinks e x

/-- An entry is one of its own remains. -/
theorem Entry.shrinks_refl (e : Entry) : e.Shrinks e := ⟨rfl, rfl, rfl, rfl, rfl, Nat.le_refl _, id⟩

theorem Thins.refl (L : Ladder) : Thins L L := fun _ _ x hx => ⟨x, hx, Entry.shrinks_refl x⟩

theorem Thins.trans (h : Thins L L') (h' : Thins L' L'') : Thins L L'' := by
  intro side i x hx
  obtain ⟨y, hy, hyx⟩ := h' hx
  obtain ⟨e, he, hey⟩ := h hy
  exact ⟨e, he, hyx.slot.trans hey.slot, hyx.id.trans hey.id, hyx.trader.trans hey.trader, hyx.serial.trans hey.serial,
    hyx.display.trans hey.display, Nat.le_trans hyx.remaining hey.remaining, fun hs => hyx.shown (hey.shown hs)⟩

theorem Filled.thins {side : Side} {i q : Nat} {l r : List Entry} {e : Entry} (h : Filled L L' side i l r e q)
    (hq : L.queue side i = l ++ e :: r) : Thins L L' := by
  intro side' j x hx
  rcases h.mem hq hx with hx | ⟨rfl, rfl, hs⟩
  · exact ⟨x, hx, Entry.shrinks_refl x⟩
  · exact ⟨e, by rw [hq]; simp, hs⟩

/-- A removal only takes an order away. -/
theorem Wf.thins_remove (h : L.Wf cfg) {side : Side} {j : Nat} {l r : List Entry} {e : Entry} (hq : L.queue side j = l ++ e :: r) :
    Thins L (L.remove side j e.slot) := by
  rw [remove_eq hq (h.slot_ne_of_split hq).1]
  intro side' k x hx
  change x ∈ (L.setQueue side j (l ++ r)).queue side' k at hx
  refine ⟨x, ?_, Entry.shrinks_refl x⟩
  rw [setQueue_queue] at hx
  split at hx
  · rename_i hc
    rw [hc.1, hc.2, hq]
    simp only [List.mem_append, List.mem_cons] at hx ⊢
    tauto
  · exact hx

theorem Wf.thins_amend (h : L.Wf cfg) {side : Side} {j n : Nat} {l r : List Entry} {e : Entry} (hq : L.queue side j = l ++ e :: r)
    (hpos : 0 < n) (hle : n ≤ e.remaining) : Thins L (L.amendEntry side j e.slot n) := by
  rw [amendEntry_eq h hq]
  intro side' k x hx
  rw [setQueue_queue] at hx
  split at hx
  · rename_i hc
    rw [hc.1, hc.2, hq]
    rw [List.mem_append, List.mem_cons] at hx
    rcases hx with hx | rfl | hx
    · exact ⟨x, by simp [hx], Entry.shrinks_refl x⟩
    · exact ⟨e, by simp, Entry.shrinks_amend hpos hle⟩
    · exact ⟨x, by simp [hx], Entry.shrinks_refl x⟩
  · exact ⟨x, hx, Entry.shrinks_refl x⟩

/-- Letting an order in thins the ladder. -/
theorem Admitted.thins (hw : L₀.Wf cfg) {L0 : Ladder} {t : Taker} {i quantity : Nat} {rests : Bool} {display : Nat → Nat}
    (h : Admitted cfg L₀ op L0 t i quantity rests display) : Thins L₀ L0 := by
  cases h with
  | limit _ _ _ => exact Thins.refl L₀
  | postOnly _ _ _ _ => exact Thins.refl L₀
  | iceberg _ _ _ _ _ _ => exact Thins.refl L₀
  | market _ _ _ _ _ => exact Thins.refl L₀
  | replace _ _ hq _ _ => exact (hw.reset.thins_remove hq : Thins L₀.reset _)

end Ladder

open Ladder

theorem Sweep.run_thins {cfg : BookConfig} {t : Taker} {w w' : Sweep} (hw : w.ladder.Wf cfg) (h : (w.run cfg t).Returns w') :
    Thins w.ladder w'.ladder := by
  refine (Sweep.run_invariant (I := fun w' => Thins w.ladder w'.ladder) ?_ hw (Thins.refl _) h).2.1
  intro w' i e q hw' hi hs
  obtain ⟨l, r, hq, -, hf⟩ := hs.filled hw'
  exact Thins.trans hi (hf.thins hq)

namespace Ladder

variable {cfg : BookConfig} {L₀ L L' : Ladder} {op : Op}

/-! ## Orders of the same trader -/

/-- No two orders of the same trader are priced to meet. -/
def Apart (L : Ladder) : Prop :=
  ∀ ⦃i j x y⦄, x ∈ L.queue .buy i → y ∈ L.queue .sell j → j ≤ i → x.trader ≠ y.trader

/-- Said of either side. -/
theorem apart_iff (side : Side) : L.Apart ↔
    ∀ ⦃i j x y⦄, x ∈ L.queue side i → y ∈ L.queue side.opposite j → crosses side j i = true → x.trader ≠ y.trader := by
  cases side with
  | buy =>
    refine ⟨fun h i j x y hx hy hc => h hx hy (by simpa [crosses] using hc), fun h i j x y hx hy hc => h hx hy ?_⟩
    simpa [crosses] using hc
  | sell =>
    refine ⟨fun h i j x y hx hy hc => (h hy hx (by simpa [crosses] using hc)).symm, fun h i j x y hx hy hc => (h hy hx ?_).symm⟩
    simpa [crosses] using hc

/-- In a thinner ladder the traders are still apart. -/
theorem Apart.thins (h : L.Apart) (ht : Thins L L') : L'.Apart := by
  intro i j x y hx hy hc
  obtain ⟨a, ha, hax⟩ := ht hx
  obtain ⟨b, hb, hby⟩ := ht hy
  rw [hax.trader, hby.trader]
  exact h ha hb hc

/-- An order rests apart from its trader's other orders when none of those it could meet is its trader's. -/
theorem Apart.push (h : L.Apart) {side : Side} {i : Nat} {e : Entry}
    (hqueue : L'.queue = (L.setQueue side i (L.queue side i ++ [e])).queue)
    (hclear : ∀ {j y}, y ∈ L.queue side.opposite j → crosses side j i = true → y.trader ≠ e.trader) : L'.Apart := by
  rw [apart_iff side] at h ⊢
  intro k j x y hx hy hc
  rw [hqueue, setQueue_queue, if_neg fun hn => side.opposite_ne hn.1] at hy
  rw [hqueue, setQueue_queue] at hx
  split at hx
  · rename_i hk
    rw [hk.2] at hc
    rcases List.mem_append.mp hx with hx | hx
    · exact h hx hy hc
    · rw [List.mem_singleton.mp hx]
      exact (hclear hy hc).symm
  · exact h hx hy hc

/-- What the self-trade check has established. -/
theorem trader_ne_of_meetsTrader (hw : L.Wf cfg) {trader i j : Nat} {side : Side} {y : Entry}
    (h : L.meetsTrader cfg trader side i = false) (hy : y ∈ L.queue side.opposite j) (hc : crosses side j i = true) :
    y.trader ≠ trader := by
  intro heq
  rw [← Bool.not_eq_true] at h
  refine h (List.any_eq_true.mpr ⟨j, mem_reach.mpr ⟨⟨hw.level_lt hy, ?_⟩, hc⟩, List.any_eq_true.mpr ⟨y, hy, by simpa using heq⟩⟩)
  exact List.ne_nil_of_mem hy

theorem Activated.apart (hw : L.Wf cfg) (hnone : L.held = none) {d : Dormant} {sl sr : List Dormant}
    (hs : L.stops = sl ++ d :: sr) {w : Sweep} {result : SubmitResult} (ha : L.Apart)
    (h : Activated cfg L d (sl ++ sr) w result L') : L'.Apart := by
  have hhold := hw.hold hs hnone
  have ha' : (L.hold d (sl ++ sr)).Apart := ha
  have hrun : w.ladder.Apart := ha'.thins (Sweep.run_thins (w := ⟨L.hold d (sl ++ sr), d.remaining, []⟩) hhold h.run)
  obtain ⟨-, -, hlt, -, -⟩ := h.wf hw hnone hs
  rw [h.ladder]
  unfold finish
  cases hlim : (d.taker cfg).limit with
  | none => exact hrun
  | some i =>
    dsimp only
    by_cases hrem : w.remaining = 0
    · rw [if_neg (fun hc => hc hrem)]
      exact hrun
    · rw [if_pos hrem]
      unfold settle
      rw [dif_pos ⟨by omega, hlt⟩]
      refine hrun.push rfl fun {j y} hy hc => ?_
      have hno : crosses d.side j i = false :=
        Sweep.run_clear hhold h.run hrem hlim (List.ne_nil_of_mem hy)
      rw [hno] at hc
      cases hc

theorem cascade_apart {trades trades' : List Trade} (hw : L.Wf cfg) (hnone : L.held = none) (ha : L.Apart)
    (h : (L.cascade cfg trades).Returns (trades', L')) : L'.Apart :=
  (cascade_invariant (J := fun _ L => L.Apart)
    (fun _ _ _ _ _ _ _ _ hw hnone ha hs _ _ hact => hact.apart hw hnone hs ha) hw hnone ha h).1

section Entering

variable {L0 L1 : Ladder} {t : Taker} {i quantity : Nat} {rests : Bool} {display : Nat → Nat} {w : Sweep} {handle : Handle}

/-- An order that may rest has passed the self-trade check. -/
theorem Admitted.clear_of_rests (hw : L₀.Wf cfg) (hpolicy : cfg.selfTradePolicy = .cancelTaker)
    (h : Admitted cfg L₀ op L0 t i quantity rests display) (hrests : rests = true) {j : Nat} {y : Entry}
    (hy : y ∈ L₀.queue t.side.opposite j) (hc : crosses t.side j i = true) : y.trader ≠ t.trader := by
  cases h with
  | limit _ _ hclear => exact trader_ne_of_meetsTrader hw (hclear hpolicy) hy hc
  | postOnly _ _ _ hclear => exact trader_ne_of_meetsTrader hw (hclear hpolicy) hy hc
  | iceberg _ _ _ _ _ hclear => exact trader_ne_of_meetsTrader hw (hclear hpolicy) hy hc
  | market _ _ _ _ _ => cases hrests
  | replace _ _ _ _ hclear => exact trader_ne_of_meetsTrader hw (hclear hpolicy) hy hc

/-- The matching of an order thins the ladder. -/
theorem Matched.thins (hw : L0.Wf cfg) (h : Matched cfg L0 t quantity w) : Thins L0 w.ladder := by
  rcases h with ⟨-, h⟩ | ⟨-, rfl⟩
  · exact Sweep.run_thins hw h
  · exact Thins.refl _

/-- An order that enters rests apart from its trader's other orders. -/
theorem Rested.apart (hw : L₀.Wf cfg) (hnone : L₀.held = none) (hpolicy : cfg.selfTradePolicy = .cancelTaker) (ha : L₀.Apart)
    (hadm : Admitted cfg L₀ op L0 t i quantity rests display) (hm : Matched cfg L0 t quantity w)
    (h : Rested w t i rests display handle L1) : L1.Apart := by
  have hs := hadm.sound hw hnone
  have hthin : Thins L₀ w.ladder := Thins.trans (hadm.thins hw) (hm.thins hs.wf)
  have hrun := ha.thins hthin
  rcases h with ⟨hrests, -, h⟩ | ⟨-, -, rfl⟩
  · have hL : L1 = _ := congrArg Prod.snd h
    rw [hL]
    unfold rest
    split
    · exact hrun
    · split
      · refine hrun.push rfl fun {j y} hy hc => ?_
        obtain ⟨e, he, hey⟩ := hthin hy
        rw [hey.trader]
        exact hadm.clear_of_rests hw hpolicy hrests he hc
      · exact hrun
  · exact hrun

end Entering

theorem auction_thins {clearing remaining remaining' : Nat} {price : Int} {trades trades' : List Trade} (hw : L.Wf cfg)
    (h : (auction cfg clearing price (L, remaining, trades)).Returns (L', remaining', trades')) : Thins L L' :=
  (auction_invariant (I := fun L' _ _ => Thins L L')
    (fun _ _ _ _ _ _ _ _ _ _ _ _ _ hi hs =>
      Thins.trans (Thins.trans hi (hs.bidFilled.thins (l := []) hs.bids)) (hs.askFilled.thins (l := []) hs.asks_mid))
    hw (Thins.refl L) h).2.1

/-- Under `cancel_taker` every operation keeps the orders of a trader apart. -/
theorem Effect.apart {out : Outcome} (hw : L.Wf cfg) (hnone : L.held = none) (hpolicy : cfg.selfTradePolicy = .cancelTaker)
    (ha : L.Apart) (h : Effect cfg L op out L') : L'.Apart := by
  cases h with
  | refused _ _ hsame =>
    rcases hsame with rfl | rfl
    · exact ha
    · exact ha
  | entered hadm hm hr hc =>
    have hs := hadm.sound hw hnone
    have hw1 := hr.wf (hm.wf hs.wf) hs.level
    have hnone1 : _ = none := hr.held.trans ((hm.kept hs.wf).held.trans hs.held)
    exact cascade_apart hw1 hnone1 (hr.apart hw hnone hpolicy ha hadm hm) hc
  | lost _ _ hq _ _ _ _ _ =>
    have ha' : L.reset.Apart := ha
    exact ha'.thins (hw.reset.thins_remove hq)
  | slept _ _ _ _ _ _ hrest _ =>
    obtain ⟨free, -, rfl⟩ := (restStop_slept hrest).room
    exact ha
  | fired _ _ _ _ _ _ hrest _ hact hc =>
    have hsl := restStop_slept hrest
    obtain ⟨hw1, hnone1⟩ := hsl.wf hw.reset hnone
    rw [← List.append_nil L.stops] at hact
    obtain ⟨free, -, rfl⟩ := hsl.room
    obtain ⟨-, -, -, hw2, hnone2⟩ := hact.wf hw1 hnone1 rfl
    exact cascade_apart hw2 hnone2 (hact.apart hw1 hnone1 rfl ha) hc
  | cancelMissed _ => exact ha
  | cancelled hloc =>
    obtain ⟨l, r, hq, -⟩ := resolve_resting hloc
    exact ha.thins (hw.thins_remove hq)
  | cancelledStop hloc =>
    obtain ⟨l, r, hs, -⟩ := resolve_dormant hloc
    rw [removeStop_eq hs (hw.stop_ne_of_split hs).1]
    exact ha
  | amendRefused _ => exact ha
  | amended hloc hpos hle _ =>
    obtain ⟨l, r, hq, -⟩ := resolve_resting hloc
    exact ha.thins (hw.thins_amend hq hpos hle)
  | amendedStop hloc _ _ _ =>
    obtain ⟨l, r, hs, -⟩ := resolve_dormant hloc
    rw [amendStop_eq hw hs]
    exact ha
  | uncrossRefused _ => exact ha
  | opened _ _ => exact ha
  | uncrossed _ _ _ hloop =>
    have hw1 : { L with tradingState := .continuous }.Wf cfg := hw.of_slots (fun _ _ => rfl) rfl rfl rfl rfl rfl
    have ha1 : { L with tradingState := .continuous }.Apart := ha
    have hdone := ha1.thins (auction_thins hw1 hloop)
    exact hdone

/-! ## Orders that carry the trader they were accepted under -/

/-- Every order carries its owner's id; a stop, which has no trader, belongs to the anonymous 0. -/
abbrev Owned (owner : Nat → Nat) (L : Ladder) : Prop := All (fun _ _ e => e.trader = owner e.id) (fun d => owner d.id = 0) L

/-- The reports never have the same owner on both sides. -/
def Fair (owner : Nat → Nat) (trades : List Trade) : Prop := ∀ trade ∈ trades, owner trade.buyId ≠ owner trade.sellId

/-- An accepted replace is of an order with the property. -/
def Replaces (cfg : BookConfig) (L : Ladder) (op : Op) (P : Entry → Prop) : Prop :=
  ∀ handle price quantity size, op = .replace handle price quantity size → cfg.maxOrders ≤ size → 0 < quantity →
    quantity ≤ cfg.maxOrderQuantity → (cfg.domain.indexOf price).isSome → ∀ side i e, L.resolve cfg handle = some (.resting side i e) → P e

/-- What an operation submits is labelled with its owner, and what it replaces is anonymous. -/
structure Labelled (cfg : BookConfig) (owner : Nat → Nat) (L : Ladder) (op : Op) : Prop where
  submits : ∀ id trader, OrderBook.submittedTrader op = some (id, trader) → owner id = trader
  replaces : Replaces cfg L op fun e => owner e.id = 0

variable {owner : Nat → Nat}

theorem Fair.append {a b : List Trade} (ha : Fair owner a) (hb : Fair owner b) : Fair owner (a ++ b) := fun trade ht =>
  (List.mem_append.mp ht).elim (ha trade) (hb trade)

/-- The taker an operation sends carries its owner's id. -/
theorem Admitted.trader_eq {L0 : Ladder} {t : Taker} {i quantity : Nat} {rests : Bool} {display : Nat → Nat}
    (hl : Labelled cfg owner L₀ op) (h : Admitted cfg L₀ op L0 t i quantity rests display) : t.trader = owner t.id := by
  cases h with
  | limit _ _ _ => exact (hl.submits _ _ rfl).symm
  | postOnly _ _ _ _ => exact (hl.submits _ _ rfl).symm
  | iceberg _ _ _ _ _ _ => exact (hl.submits _ _ rfl).symm
  | market _ _ _ _ _ => exact (hl.submits _ _ rfl).symm
  | replace hsize hloc _ hp _ =>
    exact (hl.replaces _ _ _ _ rfl hsize hp.pos hp.le (by rw [hp.level]; rfl) _ _ _ hloc).symm

/-- The orders of a labelled operation keep their owners. -/
theorem closed_owned (hl : Labelled cfg owner L₀ op) :
    Closed cfg L₀ op (fun _ _ e => e.trader = owner e.id) (fun d => owner d.id = 0) where
  shrink h hs := by rw [hs.trader, hs.id, h]
  enter ha he _ := by rw [he.trader, he.id, ha.trader_eq hl]
  settle h _ hs _ := by rw [hs.trader, hs.id, h]
  sleep hsub _ _ _ hs := by
    rw [hs.id]
    cases op with
    | submitStop => cases hsub; exact hl.submits _ _ rfl
    | submitStopLimit => cases hsub; exact hl.submits _ _ rfl
    | _ => cases hsub
  less h hs := by rw [hs.id, h]

end Ladder

/-- A taker's fills are of makers it met: each was met now or before. -/
theorem mem_recordFill {fills : List Fill} {e : Entry} {i q : Nat} {f : Fill} (h : f ∈ recordFill fills e i q) :
    f.makerId = e.id ∨ ∃ f' ∈ fills, f'.makerId = f.makerId := by
  unfold recordFill at h
  split at h
  · obtain ⟨f', hf', rfl⟩ := List.mem_map.mp h
    right
    refine ⟨f', hf', ?_⟩
    split <;> rfl
  · rcases List.mem_append.mp h with h | h
    · exact Or.inr ⟨f, h, rfl⟩
    · rw [List.mem_singleton.mp h]
      exact Or.inl rfl

section Trading

variable {cfg : BookConfig} {L₀ L L' : Ladder} {op : Op} {owner : Nat → Nat} (hfifo : cfg.allocationMode = .fifo)
  (hpolicy : cfg.selfTradePolicy = .cancelTaker) (hl : Labelled cfg owner L₀ op)

include hfifo hpolicy hl

/-- A taker that carries its owner's id trades with other owners only. -/
theorem Sweep.run_fair {t : Taker} {w : Sweep} {quantity : Nat} (hw : L.Wf cfg) (ho : L.Owned owner) (ht : t.trader = owner t.id)
    (h : (Sweep.run cfg t ⟨L, quantity, []⟩).Returns w) : Fair owner (w.fills.map (t.report cfg)) := by
  have key := (Sweep.run_invariant (I := fun w => w.ladder.Owned owner ∧ ∀ f ∈ w.fills, owner f.makerId ≠ t.trader) ?_ hw
    ⟨ho, fun _ hf => absurd hf List.not_mem_nil⟩ h).2.1.2
  · intro trade htrade
    obtain ⟨f, hf, rfl⟩ := List.mem_map.mp htrade
    have hne := key f hf
    rw [ht] at hne
    unfold Taker.report makeTrade
    split
    · exact hne.symm
    · exact hne
  · intro w i e q hw' hi hs
    refine ⟨(hs.change hw').all (closed_owned hl) hw' hi.1, fun f hf => ?_⟩
    rcases mem_recordFill hf with hid | ⟨f', hf', hid⟩
    · have hblock := hs.unblocked hfifo
      rw [Sweep.blocks, decide_eq_false_iff_not, not_and] at hblock
      rw [hid, ← hi.1.entry hs.mem]
      exact hblock hpolicy
    · rw [← hid]
      exact hi.2 f' hf'

theorem Ladder.Activated.fair (hw : L.Wf cfg) (hnone : L.held = none) {d : Dormant} {sl sr : List Dormant}
    (hs : L.stops = sl ++ d :: sr) {w : Sweep} {result : SubmitResult} (ho : L.Owned owner)
    (h : Activated cfg L d (sl ++ sr) w result L') : Fair owner (w.fills.map ((d.taker cfg).report cfg)) ∧ L'.Owned owner := by
  refine ⟨?_, (h.changes hw hnone hs).invariant (fun _ _ hw ha hc => hc.all (closed_owned hl) hw ha) ho⟩
  have hhold : (L.hold d (sl ++ sr)).Owned owner := (Change.hold hs hnone).all (closed_owned hl) hw ho
  have hd : owner d.id = 0 := ho.stop (by rw [hs]; simp)
  exact Sweep.run_fair hfifo hpolicy hl (hw.hold hs hnone) hhold hd.symm h.run

theorem Ladder.cascade_fair {trades trades' : List Trade} (hw : L.Wf cfg) (hnone : L.held = none) (ho : L.Owned owner)
    (hf : Fair owner trades) (h : (L.cascade cfg trades).Returns (trades', L')) : Fair owner trades' := by
  refine (cascade_invariant (J := fun trades L => Fair owner trades ∧ L.Owned owner) ?_ hw hnone ⟨hf, ho⟩ h).1.1
  intro trades L d sl sr w result L' hw hnone hj hs _ _ hact
  obtain ⟨h1, h2⟩ := hact.fair hfifo hpolicy hl hw hnone hs hj.2
  exact ⟨hj.1.append h1, h2⟩

omit hl in
theorem Ladder.Effect.fair {out : Outcome} (hw : L.Wf cfg) (hnone : L.held = none) (ha : L.Apart) (ho : L.Owned owner)
    (hl : ¬out.reply.Rejects → Labelled cfg owner L op) (h : Effect cfg L op out L') : Fair owner out.trades ∧ L'.Owned owner := by
  have hall : Labelled cfg owner L op → ∀ {L1}, Changes cfg L op L L1 → L1.Owned owner := fun hl _ hc =>
    hc.invariant (fun _ _ hw ha hc => hc.all (closed_owned hl) hw ha) ho
  have hch := h.changes hw hnone
  cases h with
  | refused _ _ hsame =>
    refine ⟨nofun, ?_⟩
    rcases hsame with rfl | rfl
    · exact ho
    · exact ⟨ho.entry, ho.stop, ho.held⟩
  | entered hadm hm hr hc =>
    have hl := hl fun hn => hn rfl
    have hs := hadm.sound hw hnone
    have hw1 := hr.wf (hm.wf hs.wf) hs.level
    have hnone1 : _ = none := hr.held.trans ((hm.kept hs.wf).held.trans hs.held)
    have ho1 := hall hl ((hs.changes.trans (hm.changes hs.wf)).trans (hr.changes hw hnone hadm hm))
    refine ⟨cascade_fair hfifo hpolicy hl hw1 hnone1 ho1 ?_ hc, hall hl hch⟩
    rcases hm with ⟨-, hm⟩ | ⟨-, rfl⟩
    · exact Sweep.run_fair hfifo hpolicy hl hs.wf (hall hl hs.changes) (hadm.trader_eq hl) hm
    · exact nofun
  | lost _ _ hq _ _ _ _ _ =>
    have hthin := hw.reset.thins_remove hq
    rw [remove_eq (L := L.reset) hq (hw.reset.slot_ne_of_split hq).1] at hthin ⊢
    refine ⟨nofun, fun {side i x} hx => ?_, ho.stop, ho.held⟩
    obtain ⟨y, hy, hyx⟩ := hthin hx
    rw [hyx.trader, hyx.id]
    exact ho.entry hy
  | slept _ _ _ _ _ _ _ _ => exact ⟨nofun, hall (hl fun hn => hn rfl) hch⟩
  | fired hsub hnamed hpos hle _ hlim hrest _ hact hc =>
    have hl : Labelled cfg owner L op := hl fun hn => hn (by rw [hact.result])
    have hsl := restStop_slept hrest
    obtain ⟨hw1, hnone1⟩ := hsl.wf hw.reset hnone
    have ho1 := hall hl ((Changes.single hw .of_reset).tail hw.reset (.sleep hsub hnamed hpos hle hlim hrest))
    rw [← List.append_nil L.stops] at hact
    obtain ⟨free, -, rfl⟩ := hsl.room
    obtain ⟨-, -, -, hw2, hnone2⟩ := hact.wf hw1 hnone1 rfl
    obtain ⟨hf, ho2⟩ := hact.fair hfifo hpolicy hl hw1 hnone1 rfl ho1
    exact ⟨cascade_fair hfifo hpolicy hl hw2 hnone2 ho2 hf hc, hall hl hch⟩
  | cancelMissed _ => exact ⟨nofun, ho⟩
  | cancelled _ => exact ⟨nofun, hall ⟨nofun, nofun⟩ hch⟩
  | cancelledStop _ => exact ⟨nofun, hall ⟨nofun, nofun⟩ hch⟩
  | amendRefused _ => exact ⟨nofun, ho⟩
  | amended _ _ _ _ => exact ⟨nofun, hall ⟨nofun, nofun⟩ hch⟩
  | amendedStop _ _ _ _ => exact ⟨nofun, hall ⟨nofun, nofun⟩ hch⟩
  | uncrossRefused _ => exact ⟨nofun, ho⟩
  | opened _ _ => exact ⟨nofun, hall ⟨nofun, nofun⟩ hch⟩
  | uncrossed _ _ _ hloop =>
    refine ⟨?_, hall ⟨nofun, nofun⟩ hch⟩
    have hw1 : { L with tradingState := .continuous }.Wf cfg := hw.of_slots (fun _ _ => rfl) rfl rfl rfl rfl rfl
    refine (auction_invariant (I := fun L1 _ trades => Thins L L1 ∧ Fair owner trades) ?_ hw1
      ⟨Thins.refl L, fun _ ht => absurd ht List.not_mem_nil⟩ hloop).2.1.2
    intro L1 M L2 remaining trades q bid ask b a rb ra hw1 hi hs
    refine ⟨Thins.trans (Thins.trans hi.1 (hs.bidFilled.thins (l := []) hs.bids)) (hs.askFilled.thins (l := []) hs.asks_mid),
      hi.2.append fun trade htrade => ?_⟩
    rw [List.mem_singleton.mp htrade]
    obtain ⟨b', hb', hbb⟩ := hi.1 (i := bid) (x := b) (by rw [hs.bids]; simp)
    obtain ⟨a', ha', haa⟩ := hi.1 (i := ask) (x := a) (by rw [hs.asks]; simp)
    have hle := hs.bid_ge
    have hge := hs.ask_le
    dsimp only
    rw [hbb.id, haa.id, ← ho.entry hb', ← ho.entry ha']
    exact ha hb' ha' (by omega)

end Trading

end MatchingEngine

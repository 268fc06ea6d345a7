import Mathlib.Algebra.BigOperators.Group.Finset.Basic
import MatchingEngine.Lemmas.Handles
import MatchingEngine.Lemmas.Opening
import MatchingEngine.Lemmas.ProRata

/-!
# Takers under FIFO allocation

Under FIFO allocation and no self-trade policy every execution takes something, so a taker's run returns, and so do a cascade, which
takes a stop out of the list with every activation, and every operation. A taker with a limit takes all that the levels within its limit
hold, as long as it has something left (`Sweep.run_fills`), and its fills add up to what it takes.
-/

namespace MatchingEngine

open Comp Function Finset

variable {cfg : BookConfig}

/-! ## Every run returns -/

namespace Sweep

variable {t : Taker} {w w' : Sweep} {i : Nat}

/-- A level of orders leaves a taker with less. -/
theorem fifo_progress (hpolicy : cfg.selfTradePolicy = .none) (hw : w.ladder.Wf cfg) (hrem : w.remaining < 2 ^ 64)
    (hne : w.ladder.queue t.side.opposite i ≠ []) (hbusy : w.remaining ≠ 0) :
    ∃ w', (w.fifo cfg t i).Returns w' ∧ w'.ladder.Wf cfg ∧ w'.remaining < w.remaining := by
  obtain ⟨w', hret, hat, htook, -⟩ := fifo_takes (t := t) (i := i) hpolicy hw hrem
  have htotal : 0 < w.ladder.total t.side.opposite i := by
    obtain ⟨e, r, hq⟩ := List.exists_cons_of_ne_nil hne
    have := e.displayed_pos
    have := e.displayed_le_remaining
    rw [Ladder.total, hq, List.map_cons, List.sum_cons]
    omega
  exact ⟨w', hret, hat.wf, by omega⟩

/-- A taker's run returns. -/
theorem run_terminates (hfifo : cfg.allocationMode = .fifo) (hpolicy : cfg.selfTradePolicy = .none) (hw : w.ladder.Wf cfg)
    (hrem : w.remaining < 2 ^ 64) : (w.run cfg t).Terminates := by
  refine Comp.loop_terminates (fun w => w.ladder.Wf cfg ∧ w.remaining < 2 ^ 64) (fun w => w.remaining) ?_ w ⟨hw, hrem⟩
  rintro w ⟨hw, hrem⟩
  unfold round
  split
  · exact .inl ⟨_, (returns_pure _ _).mpr rfl⟩
  · rename_i hbusy
    split
    · exact .inl ⟨_, (returns_pure _ _).mpr rfl⟩
    · rename_i i hbest
      split
      · exact .inl ⟨_, (returns_pure _ _).mpr rfl⟩
      · obtain ⟨w', hret, hw', hlt⟩ := fifo_progress (t := t) hpolicy hw hrem (Ladder.best_eq_some hbest).2.1 hbusy
        refine .inr ⟨w', (returns_bind _ _ _).mpr ⟨w', ?_, (returns_pure _ _).mpr rfl⟩, ⟨hw', by omega⟩, hlt⟩
        unfold level
        rw [hfifo]
        exact hret

end Sweep

namespace Ladder

variable {L L' : Ladder}

theorem activate_terminates (hfifo : cfg.allocationMode = .fifo) (hpolicy : cfg.selfTradePolicy = .none) (hw : L.Wf cfg)
    (hnone : L.held = none) {d : Dormant} {sl sr : List Dormant} (hs : L.stops = sl ++ d :: sr) :
    (L.activate cfg d (sl ++ sr)).Terminates :=
  (Sweep.run_terminates hfifo hpolicy (hw.hold hs hnone) d.remaining_lt).bind fun _ _ => terminates_pure _

/-- A cascade returns: every activation takes its stop out of the list. -/
theorem cascade_terminates (hfifo : cfg.allocationMode = .fifo) (hpolicy : cfg.selfTradePolicy = .none) (hw : L.Wf cfg)
    (hnone : L.held = none) (trades : List Trade) : (L.cascade cfg trades).Terminates := by
  refine Comp.loop_terminates (fun st => st.2.Wf cfg ∧ st.2.held = none) (fun st => st.2.stops.length) ?_ (trades, L) ⟨hw, hnone⟩
  rintro ⟨trades, L⟩ ⟨hw, hnone⟩
  dsimp only at hw hnone ⊢
  cases hsplit : L.splitStop fun d => L.triggered d.side d.trigger with
  | none => exact .inl ⟨_, (returns_pure _ _).mpr rfl⟩
  | some p =>
    obtain ⟨d, others⟩ := p
    obtain ⟨sl, sr, hs, rfl, -, -⟩ := of_splitStop hsplit
    obtain ⟨⟨result, tr, L1⟩, hret⟩ := activate_terminates hfifo hpolicy hw hnone hs
    obtain ⟨w, hact, rfl⟩ := activate_returns.mp hret
    obtain ⟨-, -, -, hw1, hnone1⟩ := hact.wf hw hnone hs
    refine .inr ⟨_, (returns_bind _ _ _).mpr ⟨_, hret, (returns_pure _ _).mpr rfl⟩, ⟨hw1, hnone1⟩, ?_⟩
    rw [(hact.stops hw hnone hs).1, hs, List.length_append, List.length_append, List.length_cons]
    omega

theorem Activated.accepted (hw : L.Wf cfg) (hnone : L.held = none) {d : Dormant} {sl sr : List Dormant} (hs : L.stops = sl ++ d :: sr)
    {w : Sweep} {result : SubmitResult} (h : Activated cfg L d (sl ++ sr) w result L') : L'.accepted = L.accepted := by
  have hk := (Sweep.run_kept (hw.hold hs hnone) h.run).accepted
  rw [h.ladder]
  unfold finish settle dropHeld
  split
  · split
    · split <;> exact hk
    · exact hk
  · exact hk

/-- A cascade admits no order, and its reports come after those so far. -/
theorem cascade_appends {trades trades' : List Trade} (hw : L.Wf cfg) (hnone : L.held = none)
    (h : (L.cascade cfg trades).Returns (trades', L')) : L'.accepted = L.accepted ∧ ∃ later, trades' = trades ++ later :=
  (cascade_invariant (J := fun trades' L' => L'.accepted = L.accepted ∧ ∃ later, trades' = trades ++ later)
    (fun _ _ _ _ _ _ _ _ hw hnone hj hs _ _ hact =>
      ⟨(hact.accepted hw hnone hs).trans hj.1, by
        obtain ⟨-, later, rfl⟩ := hj
        exact ⟨_, List.append_assoc _ _ _⟩⟩)
    hw hnone ⟨rfl, [], (List.append_nil _).symm⟩ h).1

section Operations

variable (hfifo : cfg.allocationMode = .fifo) (hpolicy : cfg.selfTradePolicy = .none)

include hfifo hpolicy

/-- The conclusion of an order ends. -/
theorem conclude_terminates (hw : L.Wf cfg) (hnone : L.held = none) (quantity remaining : Nat) (handle : Handle) (trades : List Trade) :
    (L.conclude cfg quantity remaining handle trades).Terminates :=
  (cascade_terminates hfifo hpolicy hw hnone trades).bind fun _ _ => terminates_pure _

theorem enter_terminates (hw : L.Wf cfg) (hnone : L.held = none) {t : Taker} {i quantity : Nat} {rests : Bool} {display : Nat → Nat}
    (hi : rests = true → i < cfg.domain.tickCount) (hlt : quantity < 2 ^ 64) : (L.enter cfg t i quantity rests display).Terminates := by
  unfold enter
  have hsettle : ∀ w, Matched cfg L t quantity w →
      ((if rests = true ∧ w.remaining ≠ 0 then w.ladder.rest t.id t.trader t.side i w.remaining (display w.remaining)
        else (kInvalidHandle, w.ladder)).2.conclude cfg quantity w.remaining
        (if rests = true ∧ w.remaining ≠ 0 then w.ladder.rest t.id t.trader t.side i w.remaining (display w.remaining)
        else (kInvalidHandle, w.ladder)).1 (w.fills.map (t.report cfg))).Terminates := by
    intro w hm
    have hw1 := hm.wf hw
    have hnone1 : w.ladder.held = none := (hm.kept hw).held.trans hnone
    split
    · rename_i hr
      exact conclude_terminates hfifo hpolicy (hw1.rest (hi hr.1)) (rest_held hnone1) _ _ _ _
    · exact conclude_terminates hfifo hpolicy hw1 hnone1 _ _ _ _
  split
  · rename_i hts
    exact (Sweep.run_terminates hfifo hpolicy hw hlt).bind fun w hret => hsettle w (Or.inl ⟨hts, hret⟩)
  · rename_i hts
    exact (terminates_pure _).bind fun w hret => hsettle w (Or.inr ⟨hts, ((returns_pure _ _).mp hret).symm⟩)

/-- An order that is checked for room before it enters ends. -/
theorem enterChecked_terminates (hw : L.Wf cfg) (hnone : L.held = none) {t : Taker} {i quantity : Nat} {rests : Bool}
    {display : Nat → Nat} (hi : rests = true → i < cfg.domain.tickCount) (hlt : quantity < 2 ^ 64) :
    (L.enterChecked cfg t i quantity rests display).Terminates := by
  unfold enterChecked
  split
  · exact terminates_pure _
  · exact enter_terminates hfifo hpolicy hw hnone hi hlt

theorem submitLimit_terminates (hw : L.Wf cfg) (hnone : L.held = none) (id trader : Nat) (raw : UInt8) (price : Int) (quantity : Nat)
    (rawTime : UInt8) (size : Nat) : (L.submitLimit cfg id trader raw price quantity rawTime size).Terminates := by
  unfold submitLimit
  dsimp only
  split
  · exact terminates_pure _
  · split
    · exact terminates_pure _
    · split
      · exact terminates_pure _
      · split
        · exact terminates_pure _
        · rename_i hpre
          have hp := preflightLimit_ok hpre
          exact enterChecked_terminates hfifo hpolicy hw.reset hnone (fun _ => hp.lt) (BookConfig.quantity_lt hp.le)

theorem submitStopOrder_terminates (hw : L.Wf cfg) (hnone : L.held = none) (id : Nat) (raw : UInt8) (trigger : Int)
    (limit : Option Int) (quantity size : Nat) : (L.submitStopOrder cfg id raw trigger limit quantity size).Terminates := by
  unfold submitStopOrder
  dsimp only
  split
  · exact terminates_pure _
  · split
    · exact terminates_pure _
    · split
      · exact terminates_pure _
      · rename_i d L1 hrest
        split
        · have hsl := restStop_slept hrest
          obtain ⟨hw1, hnone1⟩ := hsl.wf hw.reset hnone
          have hs : L1.stops = L.stops ++ d :: [] := by
            obtain ⟨free, -, rfl⟩ := hsl.room
            rfl
          have hact := activate_terminates hfifo hpolicy hw1 hnone1 hs
          rw [List.append_nil] at hact
          refine hact.bind ?_
          rintro ⟨result, tr, L2⟩ hret
          rw [← List.append_nil L.stops] at hret
          obtain ⟨w, hact, rfl⟩ := activate_returns.mp hret
          obtain ⟨-, -, -, hw2, hnone2⟩ := hact.wf hw1 hnone1 hs
          exact (cascade_terminates hfifo hpolicy hw2 hnone2 _).bind fun _ _ => terminates_pure _
        · exact terminates_pure _

/-- Every operation returns. -/
theorem apply_terminates (hw : L.Wf cfg) (hnone : L.held = none) (op : Op) : (L.apply cfg op).Terminates := by
  have hlimit := submitLimit_terminates hfifo hpolicy hw hnone
  cases op with
  | submitLimit => exact (hlimit _ _ _ _ _ _ _).bind fun _ _ => terminates_pure _
  | submitPostOnly id raw price quantity size =>
    refine Terminates.bind ?_ fun _ _ => terminates_pure _
    unfold submitPostOnly
    split
    · exact terminates_pure _
    · split
      · exact hlimit _ _ _ _ _ _ _
      · exact terminates_pure _
  | submitIceberg id trader raw price quantity display size =>
    refine Terminates.bind ?_ fun _ _ => terminates_pure _
    unfold submitIceberg
    dsimp only
    split
    · exact terminates_pure _
    · split
      · exact terminates_pure _
      · split
        · exact terminates_pure _
        · split
          · exact terminates_pure _
          · split
            · exact terminates_pure _
            · rename_i hpre
              have hp := preflightLimit_ok hpre
              exact enterChecked_terminates hfifo hpolicy hw.reset hnone (fun _ => hp.lt) (BookConfig.quantity_lt hp.le)
  | submitMarket id raw quantity size =>
    refine Terminates.bind ?_ fun _ _ => terminates_pure _
    unfold submitMarket
    dsimp only
    split
    · exact terminates_pure _
    · split
      · exact terminates_pure _
      · rename_i side hpre
        split
        · exact terminates_pure _
        · have hlt := BookConfig.quantity_lt (BookConfig.preflight_ok hpre).2.2
          refine (Sweep.run_terminates hfifo hpolicy hw.reset hlt).bind fun w hret => ?_
          exact conclude_terminates hfifo hpolicy (Sweep.run_wf hw.reset hret) ((Sweep.run_kept hw.reset hret).held.trans hnone) _ _ _ _
  | submitStop =>
    exact (submitStopOrder_terminates hfifo hpolicy hw hnone _ _ _ _ _ _).bind fun _ _ => terminates_pure _
  | submitStopLimit =>
    exact (submitStopOrder_terminates hfifo hpolicy hw hnone _ _ _ _ _ _).bind fun _ _ => terminates_pure _
  | cancel => exact terminates_pure _
  | amendQuantity => exact terminates_pure _
  | replace handle price quantity size =>
    refine Terminates.bind ?_ fun _ _ => terminates_pure _
    unfold replace
    dsimp only
    split
    · rename_i side i e hloc
      split
      · exact terminates_pure _
      · split
        · exact terminates_pure _
        · split
          · exact terminates_pure _
          · obtain ⟨l, r, hq, -⟩ := resolve_resting hloc
            obtain ⟨hw1, hnone1⟩ := hw.reset.remove hq
            exact submitLimit_terminates hfifo hpolicy hw1 (hnone1.trans hnone) _ _ _ _ _ _ _
    · exact terminates_pure _
  | uncrossOpeningAuction size =>
    refine Terminates.bind ?_ fun _ _ => terminates_pure _
    unfold uncrossOpeningAuction
    split
    · exact terminates_pure _
    · split
      · exact terminates_pure _
      · dsimp only
        split
        · exact terminates_pure _
        · split
          · exact terminates_pure _
          · exact (auction_terminates _ _ _).bind fun _ _ => terminates_pure _

end Operations

end Ladder

/-! ## What is in reach -/

namespace Ladder

variable {L L' : Ladder} {side : Side} {limit : Nat}

/-- What the other side holds at the levels a taker of `side` may reach with its limit. -/
def available (cfg : BookConfig) (L : Ladder) (side : Side) (limit : Nat) : Nat :=
  ∑ i ∈ (range cfg.domain.tickCount).filter (fun i => crosses side i limit = true), L.total side.opposite i

/-- The occupied levels in reach hold all that is available. -/
theorem available_eq_reach : L.available cfg side limit = ((L.reach cfg side limit).map (L.total side.opposite)).sum := by
  have hpair : (L.reach cfg side limit).Pairwise (betterLevel side.opposite) :=
    (@occupied_pairwise cfg L side.opposite).sublist (List.takeWhile_sublist _)
  have hnodup : (L.reach cfg side limit).Nodup := hpair.imp fun hb => fun heq => betterLevel_irrefl _ _ (heq ▸ hb)
  rw [← List.sum_toFinset _ hnodup]
  refine (sum_subset (fun i hi => ?_) fun i hi hnot => ?_).symm
  · obtain ⟨⟨hlt, -⟩, hcross⟩ := mem_reach.mp (List.mem_toFinset.mp hi)
    exact mem_filter.mpr ⟨mem_range.mpr hlt, hcross⟩
  · obtain ⟨hlt, hcross⟩ := mem_filter.mp hi
    rw [total_eq_zero]
    by_contra hne
    exact hnot (List.mem_toFinset.mpr (mem_reach.mpr ⟨⟨mem_range.mp hlt, hne⟩, hcross⟩))

/-- The check of a fill-or-kill order compares its quantity with what is available. -/
theorem canFill_iff (hlt : ∀ side i, L.total side i < 2 ^ 64) {quantity : Nat} :
    L.canFill cfg side limit quantity = true ↔ quantity ≤ L.available cfg side limit := by
  have hsame : (L.reach cfg side limit).map (L.levelQuantity side.opposite) = (L.reach cfg side limit).map (L.total side.opposite) :=
    List.map_congr_left fun i _ => Nat.mod_eq_of_lt (hlt _ _)
  rw [canFill, hsame, ← available_eq_reach, decide_eq_true_iff]

/-- A fill at a level in reach takes its quantity from what is available. -/
theorem Filled.available_add {i q : Nat} {l r : List Entry} {e : Entry} (h : Filled L L' side.opposite i l r e q)
    (hq : L.queue side.opposite i = l ++ e :: r) (hi : i < cfg.domain.tickCount) (hcross : crosses side i limit = true) :
    L'.available cfg side limit + q = L.available cfg side limit := by
  have hmem : i ∈ (range cfg.domain.tickCount).filter fun i => crosses side i limit = true := mem_filter.mpr ⟨mem_range.mpr hi, hcross⟩
  have hothers : ∀ j ∈ ((range cfg.domain.tickCount).filter fun i => crosses side i limit = true).erase i,
      L'.total side.opposite j = L.total side.opposite j := fun j hj => h.total_of_ne fun hc => (mem_erase.mp hj).1 hc.2
  rw [available, available, ← add_sum_erase _ _ hmem, ← add_sum_erase _ (fun i => L.total side.opposite i) hmem,
    sum_congr rfl hothers, ← h.total_add hq, Nat.add_right_comm]

end Ladder

/-! ## What a taker takes -/

/-- A fill that grows, or a new one: no maker has two. -/
theorem recordFill_slots (fills : List Fill) (e : Entry) (i q : Nat) (h : (fills.map Fill.slot).Nodup) :
    ((recordFill fills e i q).map Fill.slot).Nodup := by
  unfold recordFill
  split
  · have hsame : (fills.map fun f => if f.slot = e.slot then { f with quantity := add64 f.quantity q } else f).map Fill.slot =
        fills.map Fill.slot := by
      rw [List.map_map]
      refine List.map_congr_left fun f _ => ?_
      simp only [comp_apply]
      split <;> rfl
    rwa [hsame]
  · rename_i hnew
    rw [List.map_append, List.map_cons, List.map_nil, List.nodup_append]
    refine ⟨h, by simp, fun s hs s' hs' heq => hnew ?_⟩
    rw [List.mem_singleton] at hs'
    obtain ⟨f, hf, rfl⟩ := List.mem_map.mp hs
    exact List.any_eq_true.mpr ⟨f, hf, by simpa using heq.trans hs'⟩

/-- One more execution adds its quantity to the fills. The one fill of its maker grows, and the others stay. -/
theorem recordFill_sum {fills : List Fill} {e : Entry} {i q : Nat} (h : (fills.map Fill.slot).Nodup)
    (hlt : (fills.map Fill.quantity).sum + q < 2 ^ 64) :
    ((recordFill fills e i q).map Fill.quantity).sum = (fills.map Fill.quantity).sum + q := by
  unfold recordFill
  split
  · rename_i hany
    obtain ⟨f, hf, hslot⟩ := List.any_eq_true.mp hany
    have hslot : f.slot = e.slot := by simpa using hslot
    obtain ⟨l, r, rfl⟩ := List.append_of_mem hf
    rw [List.map_append, List.map_cons, List.nodup_append, List.nodup_cons] at h
    have hkeep : ∀ g : Fill, g.slot ≠ f.slot → (if g.slot = e.slot then { g with quantity := add64 g.quantity q } else g) = g :=
      fun g hg => if_neg fun heq => hg (heq.trans hslot.symm)
    have hl : l.map (fun g => if g.slot = e.slot then { g with quantity := add64 g.quantity q } else g) = l :=
      (List.map_congr_left fun g hg => hkeep g (h.2.2 _ (List.mem_map_of_mem hg) _ List.mem_cons_self)).trans (List.map_id l)
    have hr : r.map (fun g => if g.slot = e.slot then { g with quantity := add64 g.quantity q } else g) = r :=
      (List.map_congr_left fun g hg => hkeep g fun heq => h.2.1.1 (heq ▸ List.mem_map_of_mem hg)).trans (List.map_id r)
    simp only [List.map_append, List.map_cons, List.sum_append, List.sum_cons] at hlt
    have hadd : add64 f.quantity q = f.quantity + q := add64_eq (by omega)
    simp only [List.map_append, List.map_cons, hl, hr, if_pos hslot, hadd, List.sum_append, List.sum_cons]
    omega
  · simp

/-- The levels of the fills are those of the executions. -/
theorem recordFill_level {fills : List Fill} {e : Entry} {i q : Nat} {f : Fill} (h : f ∈ recordFill fills e i q) :
    f.level = i ∨ ∃ f' ∈ fills, f'.level = f.level := by
  unfold recordFill at h
  split at h
  · obtain ⟨f', hf', rfl⟩ := List.mem_map.mp h
    refine Or.inr ⟨f', hf', ?_⟩
    split <;> rfl
  · rcases List.mem_append.mp h with h | h
    · exact Or.inr ⟨f, h, rfl⟩
    · rw [List.mem_singleton.mp h]
      exact Or.inl rfl

/-- The reports of a taker say the quantities of its fills. -/
theorem report_sum (t : Taker) (fills : List Fill) :
    ((fills.map (t.report cfg)).map Trade.quantity).sum = (fills.map Fill.quantity).sum := by
  rw [List.map_map]
  refine congrArg List.sum (List.map_congr_left fun f _ => ?_)
  rw [Function.comp_apply, Taker.report]
  unfold makeTrade
  split <;> rfl

namespace Sweep

variable {t : Taker} {L : Ladder} {w : Sweep} {quantity limit : Nat}

/-- What a taker has taken so far: its fills, of one maker each, are what it asked for less what it has left. -/
structure Spent (quantity : Nat) (w : Sweep) : Prop where
  slots : (w.fills.map Fill.slot).Nodup
  taken : (w.fills.map Fill.quantity).sum + w.remaining = quantity

theorem Spent.exec (hfifo : cfg.allocationMode = .fifo) (hlt : quantity < 2 ^ 64) (h : Spent quantity w) {i q : Nat} {e : Entry}
    (hs : Step cfg t w i e q) :
    Spent quantity (w.exec cfg t i e q) ∧
      ((w.exec cfg t i e q).fills.map Fill.quantity).sum = (w.fills.map Fill.quantity).sum + q := by
  have hq : q = min w.remaining e.displayed := hs.whole hfifo
  have htaken := h.taken
  have hrem : (w.exec cfg t i e q).remaining = w.remaining - q := sub64_eq (by omega) (by omega)
  have hsum : ((w.exec cfg t i e q).fills.map Fill.quantity).sum = (w.fills.map Fill.quantity).sum + q :=
    recordFill_sum h.slots (by omega)
  exact ⟨⟨recordFill_slots _ _ _ _ h.slots, by omega⟩, hsum⟩

/-- Under FIFO allocation the fills of a taker and what it has left add up to its quantity. -/
theorem run_spent (hfifo : cfg.allocationMode = .fifo) (hlt : quantity < 2 ^ 64) (hw : L.Wf cfg)
    (h : (Sweep.run cfg t ⟨L, quantity, []⟩).Returns w) : Spent quantity w :=
  (run_invariant (I := Spent quantity) (w := ⟨L, quantity, []⟩) (fun _ _ _ _ _ hspent hs => (hspent.exec hfifo hlt hs).1) hw
    ⟨List.nodup_nil, Nat.zero_add _⟩ h).2.1

/-- What a taker with a limit has taken so far: its fills, at levels in its limit, are also what has gone from the levels in reach. -/
structure Took (cfg : BookConfig) (t : Taker) (L : Ladder) (quantity limit : Nat) (w : Sweep) : Prop extends Spent quantity w where
  gone : w.ladder.available cfg t.side limit + (w.fills.map Fill.quantity).sum = L.available cfg t.side limit
  levels : ∀ f ∈ w.fills, f.level < cfg.domain.tickCount ∧ crosses t.side f.level limit = true

/-- One execution takes from what is available within the limit. -/
theorem Took.exec (hfifo : cfg.allocationMode = .fifo) (hlimit : t.limit = some limit) (hlt : quantity < 2 ^ 64) (hw : w.ladder.Wf cfg)
    (h : Took cfg t L quantity limit w) {i q : Nat} {e : Entry} (hs : Step cfg t w i e q) :
    Took cfg t L quantity limit (w.exec cfg t i e q) := by
  obtain ⟨hspent, hsum⟩ := h.toSpent.exec hfifo hlt hs
  have hi : i < cfg.domain.tickCount := hw.level_lt hs.mem
  have hcross := hs.inLimit limit hlimit
  obtain ⟨l, r, hqueue, -, hf⟩ := hs.filled hw
  have hgone := @Ladder.Filled.available_add cfg _ _ _ _ _ _ _ _ _ hf hqueue hi hcross
  refine ⟨hspent, ?_, fun f hf' => ?_⟩
  · have := h.gone
    rw [hsum]
    omega
  · rcases recordFill_level hf' with hl | ⟨f', hf', hl⟩
    · rw [hl]
      exact ⟨hi, hcross⟩
    · rw [← hl]
      exact h.levels f' hf'

/-- Under FIFO allocation a taker with a limit takes all that is available to it, as long as it has something left: with something
left at the end, every level in reach has been emptied. -/
theorem run_fills (hfifo : cfg.allocationMode = .fifo) (hlimit : t.limit = some limit) (hlt : quantity < 2 ^ 64) (hw : L.Wf cfg)
    (h : (Sweep.run cfg t ⟨L, quantity, []⟩).Returns w) :
    Took cfg t L quantity limit w ∧ (w.fills.map Fill.quantity).sum = min quantity (L.available cfg t.side limit) := by
  obtain ⟨hw', htook, -⟩ := run_invariant (I := Took cfg t L quantity limit) (w := ⟨L, quantity, []⟩)
    (fun _ _ _ _ hw htook hs => htook.exec hfifo hlimit hlt hw hs) hw
    ⟨⟨List.nodup_nil, Nat.zero_add _⟩, Nat.add_zero _, nofun⟩ h
  refine ⟨htook, ?_⟩
  have htaken := htook.taken
  have hgone := htook.gone
  by_cases hrem : w.remaining = 0
  · omega
  · have hzero : w.ladder.available cfg t.side limit = 0 := by
      refine sum_eq_zero fun i hi => ?_
      obtain ⟨-, hcross⟩ := mem_filter.mp hi
      rw [Ladder.total_eq_zero]
      by_contra hne
      rw [run_clear hw h hrem hlimit hne] at hcross
      cases hcross
    omega

end Sweep

end MatchingEngine

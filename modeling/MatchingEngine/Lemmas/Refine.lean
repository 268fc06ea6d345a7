import MatchingEngine.Lemmas.Reads

/-!
# The book refines the ladder

Matching, the activation of stops and the opening uncross, run on a book and on the ladder it represents, return together; every public
operation then gives the same outcome on both and leaves a book that represents the ladder (`Rep.apply`).
-/

namespace MatchingEngine

open Comp Function

/-! ## Reports -/

/-- Two books with the same report bookkeeping. -/
structure SameReports (b b' : OrderBook) : Prop where
  epochs : b'.tradeReportEpochs = b.tradeReportEpochs
  epoch : b'.tradeReportEpoch = b.tradeReportEpoch
  indices : b'.tradeReportIndices = b.tradeReportIndices

theorem sameReports_unlink (b : OrderBook) (handle : Handle) (q : Nat) : SameReports b (b.unlink handle q) := by
  unfold OrderBook.unlink
  dsimp only
  split <;> exact ⟨rfl, rfl, rfl⟩

/-- Moving to the tail leaves the reports. -/
theorem sameReports_moveToTail (b : OrderBook) (s : Nat) : SameReports b (b.moveToTail s) := by
  unfold OrderBook.moveToTail
  dsimp only
  split <;> exact ⟨rfl, rfl, rfl⟩

theorem sameReports_reduceMaker (b : OrderBook) (side : Side) (i s q : Nat) : SameReports b (b.reduceMaker side i s q) := by
  unfold OrderBook.reduceMaker
  dsimp only
  split
  · have := sameReports_unlink ((b.setLevel side i { b.level side i with
      aggregateQuantity := sub64 (b.level side i).aggregateQuantity q }).setDisplayed s (sub64 (b.displayedRemaining s) q))
      (b.arena.handleAt s) 0
    exact ⟨this.1, this.2, this.3⟩
  · split
    · exact ⟨(sameReports_moveToTail _ s).1, (sameReports_moveToTail _ s).2, (sameReports_moveToTail _ s).3⟩
    · exact ⟨rfl, rfl, rfl⟩

/-- A book with other reports and another last price. -/
theorem Rep.setReports {gh : Prop} {cfg : BookConfig} {b : OrderBook} {L : Ladder} (h : Rep gh cfg b L) (price : Option Int)
    (epochs indices : Nat → Nat) (epoch : Nat) (he : ∀ s, s < cfg.maxOrders → epochs s ≤ epoch) :
    Rep gh cfg
      { b with
        tradeReportEpochs := epochs
        tradeReportIndices := indices
        tradeReportEpoch := epoch
        lastExecutionPrice := price }
      { L with lastPrice := price } where
  wf := h.wf.setLastPrice price
  cfg_eq := h.cfg_eq
  arena := ⟨h.arena.capacity, h.arena.live, h.arena.generation, h.arena.freeNext, h.arena.freeHead, h.arena.size, h.arena.accepted,
    h.arena.releases⟩
  queues := ⟨h.queues.links, h.queues.count, h.queues.aggregate, h.queues.occupancy⟩
  entries side i e hm := (h.entries side i e hm).congr ⟨rfl, rfl, rfl, rfl, rfl, rfl⟩ rfl rfl
  stops := h.stops
  stopCount := h.stopCount
  dormants d hd := (h.dormants d hd).congr ⟨rfl, rfl, rfl, rfl, rfl, rfl⟩ rfl rfl
  heldSerial := h.heldSerial
  lastPrice := rfl
  tradingState := h.tradingState
  activations := h.activations
  epochs := he
  marks := h.marks

theorem Rep.setEpochs {gh : Prop} {cfg : BookConfig} {b : OrderBook} {L : Ladder} (h : Rep gh cfg b L) {epochs : Nat → Nat}
    {epoch : Nat} (he : ∀ s, s < cfg.maxOrders → epochs s ≤ epoch) :
    Rep gh cfg { b with tradeReportEpochs := epochs, tradeReportEpoch := epoch } L := by
  have := h.setReports b.lastExecutionPrice epochs b.tradeReportIndices epoch he
  refine Eq.mp (congrArg (Rep gh cfg _) ?_) this
  rw [h.lastPrice]

/-- A fill leaves the last price, whatever it is. -/
theorem Ladder.fill_lastPrice {cfg : BookConfig} {L : Ladder} (hw : L.Wf cfg) {side : Side} {i q : Nat} {e : Entry}
    (he : e ∈ L.queue side i) (price : Option Int) :
    { L with lastPrice := price }.fill side i e.slot q = { L.fill side i e.slot q with lastPrice := price } := by
  obtain ⟨l, r, hq⟩ := List.append_of_mem he
  have hne := (hw.slot_ne_of_split hq).1
  rw [fill_eq hq hne, fill_eq (L := { L with lastPrice := price }) hq hne]
  cases e.after q <;> rfl

/-! ## Executions -/

/-- An execution on the book goes with a sweep of the ladder: the reports of this taker follow those written before it. -/
structure ExecRel (gh : Prop) (cfg : BookConfig) (t : Taker) (prev : List Trade) (x : Execution) (w : Sweep) : Prop where
  repr : Rep gh cfg x.book w.ladder
  remaining : x.remaining = w.remaining
  trades : x.trades = prev ++ w.fills.map (t.report cfg)
  reported : ∀ s, s < cfg.maxOrders → (x.book.tradeReportEpochs s = x.book.tradeReportEpoch ↔ s ∈ w.fills.map Fill.slot)
  indices : ∀ k f, w.fills[k]? = some f → x.book.tradeReportIndices f.slot = prev.length + k
  nodup : (w.fills.map Fill.slot).Nodup

namespace RefineAux

/-- Growing the fill of one slot is growing one report. -/
theorem report_modify {cfg : BookConfig} {t : Taker} {fills : List Fill} {s q k : Nat} {f : Fill}
    (hn : (fills.map Fill.slot).Nodup) (hk : fills[k]? = some f) (hf : f.slot = s) :
    (fills.map (t.report cfg)).modify k (fun tr => { tr with quantity := add64 tr.quantity q }) =
      (fills.map fun f => if f.slot = s then { f with quantity := add64 f.quantity q } else f).map (t.report cfg) := by
  apply List.ext_getElem?
  intro j
  simp only [List.getElem?_modify, List.getElem?_map]
  cases hj : fills[j]? with
  | none => simp
  | some g =>
    have hsame : k = j ↔ g.slot = s := by
      constructor
      · rintro rfl
        rw [hk, Option.some.injEq] at hj
        rw [← hj]
        exact hf
      · intro hgs
        have hkl := (List.getElem?_eq_some_iff.mp hk).1
        have h1 : (fills.map Fill.slot)[k]? = (fills.map Fill.slot)[j]? := by simp [hk, hj, hf, hgs]
        exact (List.getElem?_inj (by simpa using hkl) hn).mp h1
    by_cases hgs : g.slot = s
    · simp only [Option.map_some, Option.map_eq_map, hsame, hgs, if_true, Taker.report]
      cases t.side <;> rfl
    · simp [hsame, hgs]

end RefineAux

open RefineAux

section Matching

variable {gh : Prop} {cfg : BookConfig} {t : Taker} {prev : List Trade} {x : Execution} {w : Sweep} {i q : Nat}

/-- `execute_match`: the maker's report for this taker grows, or the maker gets its first one. -/
theorem ExecRel.executeMatch (h : ExecRel gh cfg t prev x w) {l r : List Entry} {e : Entry}
    (hq : w.ladder.queue t.side.opposite i = l ++ e :: r) (hle : q ≤ e.displayed) :
    ExecRel gh cfg t prev (x.executeMatch t.id t.side i e.slot q) (w.exec cfg t i e q) := by
  have he : e ∈ w.ladder.queue t.side.opposite i := by rw [hq]; simp
  have hi := h.repr.wf.level_lt he
  have hlt := h.repr.entry_lt he
  have hprice : x.book.cfg.domain.priceAt i = some (cfg.domain.minimum + i) := by
    rw [h.repr.cfg_eq]
    exact cfg.domain.priceAt_of_lt hi
  have hid := (h.repr.entries _ i e he).id
  have hepochs := h.repr.epochs
  have hfill := Ladder.fill_lastPrice h.repr.wf (q := q) he (some (cfg.domain.minimum + i))
  have hreported := h.reported e.slot hlt
  unfold Execution.executeMatch Sweep.exec recordFill
  simp only [hprice]
  by_cases hrep : x.book.tradeReportEpochs e.slot = x.book.tradeReportEpoch
  · obtain ⟨f, hf, hfs⟩ := List.mem_map.mp (hreported.mp hrep)
    obtain ⟨k, hk⟩ := List.mem_iff_getElem?.mp hf
    have hany : (w.fills.any fun f => f.slot = e.slot) = true := List.any_eq_true.mpr ⟨f, hf, by simpa using hfs⟩
    have hslots : (w.fills.map fun f => if f.slot = e.slot then { f with quantity := add64 f.quantity q } else f).map Fill.slot =
        w.fills.map Fill.slot := by
      rw [List.map_map]
      refine List.map_congr_left fun g _ => ?_
      simp only [comp_apply]
      split <;> rfl
    have hrepr := (h.repr.setReports (some (cfg.domain.minimum + i)) x.book.tradeReportEpochs x.book.tradeReportIndices
      x.book.tradeReportEpoch hepochs).reduceMaker hq hle
    have hsame := sameReports_reduceMaker { x.book with lastExecutionPrice := some (cfg.domain.minimum + i) } t.side.opposite i
      e.slot q
    simp only [OrderBook.report, if_pos hrep, hany, if_true]
    refine ⟨hfill ▸ hrepr, by rw [h.remaining], ?_, fun s hs => ?_, fun j g hg => ?_, ?_⟩
    · have hidx := h.indices k f hk
      rw [hfs] at hidx
      rw [h.trades, hidx, ← report_modify h.nodup hk hfs]
      exact List.modifyTailIdx_add _ k prev _
    · rw [hslots, hsame.epochs, hsame.epoch]
      exact h.reported s hs
    · rw [hsame.indices]
      rw [List.getElem?_map] at hg
      obtain ⟨g', hg', rfl⟩ := Option.map_eq_some_iff.mp hg
      have := h.indices j g' hg'
      split
      · exact this
      · exact this
    · rw [hslots]
      exact h.nodup
  · have hnot : e.slot ∉ w.fills.map Fill.slot := fun hm => hrep (hreported.mpr hm)
    have hany : (w.fills.any fun f => f.slot = e.slot) = false := by
      rw [List.any_eq_false]
      intro f hf hfs
      exact hnot (List.mem_map.mpr ⟨f, hf, by simpa using hfs⟩)
    have hrepr := (h.repr.setReports (some (cfg.domain.minimum + i))
      (update x.book.tradeReportEpochs e.slot x.book.tradeReportEpoch)
      (update x.book.tradeReportIndices e.slot x.trades.length) x.book.tradeReportEpoch
      (fun s hs => by
        rw [update_apply]
        split
        · exact Nat.le_refl _
        · exact hepochs s hs)).reduceMaker hq hle
    have hsame := sameReports_reduceMaker
      { x.book with
        tradeReportEpochs := update x.book.tradeReportEpochs e.slot x.book.tradeReportEpoch
        tradeReportIndices := update x.book.tradeReportIndices e.slot x.trades.length
        lastExecutionPrice := some (cfg.domain.minimum + i) } t.side.opposite i e.slot q
    simp only [OrderBook.report, if_neg hrep, hany, Bool.false_eq_true, if_false, hid]
    refine ⟨hfill ▸ hrepr, by rw [h.remaining], ?_, fun s hs => ?_, fun j g hg => ?_, ?_⟩
    · simp [h.trades, Taker.report]
    · rw [hsame.epochs, hsame.epoch, List.map_append, List.mem_append]
      change update x.book.tradeReportEpochs e.slot x.book.tradeReportEpoch s = x.book.tradeReportEpoch ↔ _
      rw [update_apply]
      by_cases hse : s = e.slot
      · simp [hse]
      · simp [hse, ← h.reported s hs]
    · rw [hsame.indices]
      change update x.book.tradeReportIndices e.slot x.trades.length g.slot = _
      rw [update_apply]
      rcases Nat.lt_or_ge j w.fills.length with hj | hj
      · rw [List.getElem?_append_left hj] at hg
        have hgs : g.slot ≠ e.slot := fun hgs => hnot (hgs ▸ List.mem_map_of_mem (List.mem_of_getElem? hg))
        rw [if_neg hgs]
        exact h.indices j g hg
      · rw [List.getElem?_append_right hj, List.getElem?_singleton] at hg
        split at hg
        · cases hg
          rw [if_pos rfl, h.trades, List.length_append, List.length_map]
          omega
        · cases hg
    · rw [List.map_append, List.nodup_append]
      refine ⟨h.nodup, by simp, fun a ha c hc hac => hnot ?_⟩
      rw [hac, List.mem_singleton.mp hc] at ha
      exact ha

theorem ExecRel.headIndex (h : ExecRel gh cfg t prev x w) {e : Entry} {r : List Entry} {side : Side}
    (hq : w.ladder.queue side i = e :: r) : (x.book.level side i).headIndex = e.slot := by
  rw [h.repr.headIndex, hq]
  rfl

theorem ExecRel.blocks (h : ExecRel gh cfg t prev x w) {e : Entry} {side : Side} (he : e ∈ w.ladder.queue side i) :
    (x.book.cfg.selfTradePolicy = .cancelTaker ∧ x.book.traderIds e.slot = t.trader) ↔ Sweep.blocks cfg t e = true := by
  rw [h.repr.cfg_eq, (h.repr.entries side i e he).trader]
  simp [Sweep.blocks]

/-- `match_level_fifo`. -/
theorem ExecRel.matchLevelFifo (h : ExecRel gh cfg t prev x w) :
    Sim (ExecRel gh cfg t prev) (x.matchLevelFifo t.id t.trader t.side i) (w.fifo cfg t i) := by
  refine Sim.loop (R := ExecRel gh cfg t prev) (fun x w h => ?_) h
  cases hq : w.ladder.queue t.side.opposite i with
  | nil =>
    have hhead : (x.book.level t.side.opposite i).headIndex = kInvalidIndex := by rw [h.repr.headIndex, hq]; rfl
    simp only [hhead, or_true, if_true]
    exact Sim.pure (.done h)
  | cons e r =>
    have he : e ∈ w.ladder.queue t.side.opposite i := by rw [hq]; simp
    have hne : e.slot ≠ kInvalidIndex := Rep.slot_ne_invalid (h.repr.entry_lt he)
    simp only [h.headIndex hq, hne, or_false, h.remaining]
    by_cases hz : w.remaining = 0
    · rw [if_pos hz, if_pos hz]
      exact Sim.pure (.done h)
    · rw [if_neg hz, if_neg hz]
      by_cases hb : Sweep.blocks cfg t e = true
      · rw [if_pos ((h.blocks he).mpr hb), if_pos hb]
        exact Sim.pure (.done h)
      · rw [if_neg (fun hc => hb ((h.blocks he).mp hc)), if_neg hb, (h.repr.entries _ i e he).displayed]
        exact Sim.pure (.next (h.executeMatch (l := []) hq (Nat.min_le_right _ _)))

/-- The entries behind the one that is executed stay in the queue. -/
theorem Sweep.mem_exec (hw : w.ladder.Wf cfg) {l r : List Entry} {e : Entry} (hq : w.ladder.queue t.side.opposite i = l ++ e :: r)
    (hle : q ≤ e.displayed) {y : Entry} (hy : y ∈ r) : y ∈ (w.exec cfg t i e q).ladder.queue t.side.opposite i := by
  have hf := Ladder.fill_filled hq (hw.slot_ne_of_split hq).1 hle
  change y ∈ (w.ladder.fill t.side.opposite i e.slot q).queue t.side.opposite i
  rcases hf.cases with ⟨e', (⟨hqueue, -⟩ | ⟨hqueue, -⟩), -⟩ | ⟨hqueue, -⟩
  · rw [hqueue, Ladder.setQueue_queue, if_pos ⟨rfl, rfl⟩]
    simp [hy]
  · rw [hqueue, Ladder.setQueue_queue, if_pos ⟨rfl, rfl⟩]
    simp [hy]
  · rw [hqueue, Ladder.setQueue_queue, if_pos ⟨rfl, rfl⟩]
    simp [hy]

theorem Sweep.nextSlot_eq {queue l r : List Entry} {e : Entry} (hq : queue = l ++ e :: r) (hl : ∀ y ∈ l, y.slot ≠ e.slot) :
    Sweep.nextSlot queue e.slot = r.head?.map Entry.slot := by
  unfold Sweep.nextSlot
  rw [hq, LadderAux.span_eq (fun y hy => by simpa using hl y hy) (by simp)]

/-- The pass of `match_level_threshold_pro_rata`. -/
theorem ExecRel.proRataPass (h : ExecRel gh cfg t prev x w) {total : Nat} {stop : Option Nat}
    (hstop : ∀ s, stop = some s → s ≠ kInvalidIndex) :
    Sim (ExecRel gh cfg t prev) (x.proRataPass t.id t.side i total (stop.getD kInvalidIndex)) (w.proRata cfg t i total stop) := by
  unfold Execution.proRataPass Sweep.proRata
  rw [h.remaining]
  refine Sim.loop
    (R := fun st st' => ExecRel gh cfg t prev st.2 st'.2 ∧ st.1 = st'.1.getD kInvalidIndex ∧
      ∀ s, st'.1 = some s → s ∈ (st'.2.ladder.queue t.side.opposite i).map Entry.slot) ?_ ?_
  · rintro ⟨index, x⟩ ⟨cursor, w'⟩ ⟨h, hindex, hmem⟩
    dsimp only at h hindex hmem ⊢
    cases cursor with
    | none =>
      have hinv : index = kInvalidIndex := hindex
      rw [if_pos (Or.inr (Or.inl hinv))]
      exact Sim.pure (.done h)
    | some s =>
      have hs : index = s := hindex
      subst hs
      obtain ⟨e, he, hes⟩ := List.mem_map.mp (hmem index rfl)
      subst hes
      obtain ⟨l, r, hq⟩ := List.append_of_mem he
      have hne : e.slot ≠ kInvalidIndex := Rep.slot_ne_invalid (h.repr.entry_lt he)
      have hstop' : e.slot = stop.getD kInvalidIndex ↔ stop = some e.slot := by
        cases stop with
        | none => simp [hne]
        | some s => simp [eq_comm]
      by_cases hgo : stop = some e.slot ∨ w'.remaining = 0
      · have hgo' : e.slot = stop.getD kInvalidIndex ∨ e.slot = kInvalidIndex ∨ x.remaining = 0 := by
          rw [hstop', h.remaining]
          rcases hgo with hgo | hgo
          · exact Or.inl hgo
          · exact Or.inr (Or.inr hgo)
        dsimp only
        rw [if_pos hgo', if_pos hgo]
        exact Sim.pure (.done h)
      · have hgo' : ¬(e.slot = stop.getD kInvalidIndex ∨ e.slot = kInvalidIndex ∨ x.remaining = 0) := by
          rw [hstop', h.remaining]
          rintro (hc | hc | hc)
          · exact hgo (Or.inl hc)
          · exact hne hc
          · exact hgo (Or.inr hc)
        have hfind := h.repr.wf.find_entry hq
        have hnext := Sweep.nextSlot_eq hq (h.repr.wf.slot_ne_of_split hq).1
        have hrest : ∀ s, r.head?.map Entry.slot = some s → ∃ y ∈ r, y.slot = s := by
          intro s hs
          obtain ⟨y, hy, rfl⟩ := Option.map_eq_some_iff.mp hs
          exact ⟨y, List.mem_of_head? hy, rfl⟩
        dsimp only
        rw [if_neg hgo', if_neg hgo]
        simp only [hfind, hnext, h.repr.next_of_split hq, h.repr.cfg_eq, (h.repr.entries _ i e he).displayed]
        split
        · refine Sim.pure (.next ⟨h, rfl, fun s hs => ?_⟩)
          obtain ⟨y, hy, rfl⟩ := hrest s hs
          refine List.mem_map_of_mem ?_
          rw [hq]
          simp [hy]
        · have hle := Execution.proRataShare_le cfg.proRataMinimum e.displayed w.remaining total
          refine Sim.pure (.next ⟨h.executeMatch hq hle, rfl, fun s hs => ?_⟩)
          obtain ⟨y, hy, rfl⟩ := hrest s hs
          exact List.mem_map_of_mem (Sweep.mem_exec h.repr.wf hq hle hy)
  · refine ⟨h, h.repr.headIndex _ _, fun s hs => ?_⟩
    obtain ⟨y, hy, rfl⟩ := Option.map_eq_some_iff.mp hs
    exact List.mem_map_of_mem (List.mem_of_head? hy)

/-- `match_level`. -/
theorem ExecRel.matchLevel (h : ExecRel gh cfg t prev x w) :
    Sim (ExecRel gh cfg t prev) (x.matchLevel t.id t.trader t.side i) (w.level cfg t i) := by
  unfold Execution.matchLevel Sweep.level
  rw [h.repr.cfg_eq]
  cases cfg.allocationMode with
  | fifo => exact h.matchLevelFifo
  | thresholdProRata =>
    refine Sim.bind_left (h.repr.displayedTotal (t := t) (i := i) rfl) ?_
    dsimp only
    split
    · exact Sim.bind (Sim.pure h) fun _ _ h => h.matchLevelFifo
    · refine Sim.bind (h.proRataPass (fun s hs => ?_)) fun _ _ h => h.matchLevelFifo
      obtain ⟨e, he, rfl⟩ := Option.map_eq_some_iff.mp hs
      exact Rep.slot_ne_invalid (h.repr.entry_lt (List.mem_of_find?_eq_some he))

/-- The loop of `match`. -/
theorem ExecRel.matchLoop (h : ExecRel gh cfg t prev x w) :
    Sim (ExecRel gh cfg t prev) (Comp.loop (fun x => x.matchRound t.id t.trader t.side t.limit) x) (w.run cfg t) := by
  refine Sim.loop (R := ExecRel gh cfg t prev) (fun x w h => ?_) h
  unfold Execution.matchRound Sweep.round
  rw [h.remaining, h.repr.bestIndex]
  by_cases hz : w.remaining = 0
  · rw [if_pos hz, if_pos hz]
    exact Sim.pure (.done h)
  · rw [if_neg hz, if_neg hz]
    cases w.ladder.best cfg t.side.opposite with
    | none => exact Sim.pure (.done h)
    | some i =>
      dsimp only
      split
      · exact Sim.pure (.done h)
      · exact Sim.bind h.matchLevel fun _ _ h => Sim.pure (.next h)

/-- The head of `match`: a taker that has no reports yet, on a book with the reports of earlier takers. -/
theorem Rep.advanceReportEpoch {b : OrderBook} {L : Ladder} (h : Rep gh cfg b L) (quantity : Nat) :
    ExecRel gh cfg t prev ⟨b.advanceReportEpoch, quantity, prev⟩ ⟨L, quantity, []⟩ := by
  have hcap := h.arena.capacity
  unfold OrderBook.advanceReportEpoch
  split
  · refine ⟨h.setEpochs fun s hs => ?_, rfl, by simp, fun s hs => ?_, by simp, by simp⟩
    · rw [hcap, if_pos hs]
      exact Nat.zero_le _
    · simp [hcap, hs]
  · refine ⟨h.setEpochs fun s hs => Nat.le_succ_of_le (h.epochs s hs), rfl, by simp, fun s hs => ?_, by simp, by simp⟩
    have := h.epochs s hs
    simp
    omega

/-- `match`: a taker on a book with the reports of earlier takers, and on the ladder. -/
theorem Rep.matchTaker {b : OrderBook} {L : Ladder} (h : Rep gh cfg b L) (quantity : Nat) :
    Sim (ExecRel gh cfg t prev) (Execution.matchTaker ⟨b, quantity, prev⟩ t.id t.trader t.side t.limit)
      (Sweep.run cfg t ⟨L, quantity, []⟩) :=
  (h.advanceReportEpoch quantity).matchLoop

end Matching

/-! ## Stops -/

section Stops

variable {gh : Prop} {cfg : BookConfig} {b : OrderBook} {L : Ladder} {prev : List Trade}

/-- A book and a ladder with other activations. -/
theorem Rep.setActivations (h : Rep gh cfg b L) (activations : List StopActivation) :
    Rep gh cfg { b with stopActivations := activations } { L with activations } where
  wf := h.wf.of_slots (fun _ _ => rfl) rfl rfl rfl rfl rfl
  cfg_eq := h.cfg_eq
  arena := ⟨h.arena.capacity, h.arena.live, h.arena.generation, h.arena.freeNext, h.arena.freeHead, h.arena.size, h.arena.accepted,
    h.arena.releases⟩
  queues := ⟨h.queues.links, h.queues.count, h.queues.aggregate, h.queues.occupancy⟩
  entries side i e hm := (h.entries side i e hm).congr ⟨rfl, rfl, rfl, rfl, rfl, rfl⟩ rfl rfl
  stops := h.stops
  stopCount := h.stopCount
  dormants d hd := (h.dormants d hd).congr ⟨rfl, rfl, rfl, rfl, rfl, rfl⟩ rfl rfl
  heldSerial := h.heldSerial
  lastPrice := h.lastPrice
  tradingState := h.tradingState
  activations := rfl
  epochs := h.epochs
  marks := h.marks

/-- The end of a submission or an activation on both sides: the same result, the reports of the ladder after those before, and a book
that represents the ladder. -/
def Concluded (gh : Prop) (cfg : BookConfig) (r : SubmitResult × List Trade × OrderBook) (r' : SubmitResult × List Trade × Ladder) : Prop :=
  r.1 = r'.1 ∧ r.2.1 = r'.2.1 ∧ Rep gh cfg r.2.2 r'.2.2 ∧ r'.2.2.held = none

/-- An activation that finishes holds no stop. -/
theorem Ladder.finish_held {handle : Handle} {d : Dormant} {limit : Option Nat} {remaining : Nat} (hlt : remaining < 2 ^ 64) :
    (L.finish handle d limit remaining).2.held = none := by
  unfold Ladder.finish
  split
  · split
    · rename_i hne
      rw [Ladder.settle, dif_pos ⟨Nat.pos_of_ne_zero hne, hlt⟩]
    · rfl
  · rfl

/-- What `activate_stop` does after its taker has matched. -/
theorem Rep.finishActivation (h : Rep gh cfg b L) {d : Dormant} (hd : L.held = some d) {handle : Handle}
    (hhandle : handle = L.handleAt d.slot) {stop : Order} (hid : stop.id = d.id) (hside : stop.side = d.side)
    (hrem : stop.remaining = d.remaining) {limit : Option Nat} (hlim : ∀ i, limit = some i → i < cfg.domain.tickCount) {remaining : Nat}
    (hlt : remaining < 2 ^ 64) :
    (b.finishActivation handle stop limit remaining).1 =
        ⟨.none, sub64 d.remaining remaining, remaining, 0, (L.finish handle d limit remaining).1⟩ ∧
      Rep gh cfg (b.finishActivation handle stop limit remaining).2
        { (L.finish handle d limit remaining).2 with
          activations := (L.finish handle d limit remaining).2.activations ++
            [⟨d.id, sub64 d.remaining remaining, remaining, (L.finish handle d limit remaining).1⟩] } := by
  have hslot := (h.wf.place_of_held hd).1
  have hhandle' : handle = b.arena.handleAt d.slot := by rw [hhandle, h.handleAt hslot]
  have hdrop : Rep gh cfg (b.setArena (b.arena.release handle)) (L.dropHeld d) := by
    rw [hhandle']
    exact h.dropHeld hd
  unfold OrderBook.finishActivation Ladder.finish
  rw [hid, hside, hrem]
  have hact : ∀ {b' : OrderBook} {L' : Ladder} (a : StopActivation), Rep gh cfg b' L' →
      Rep gh cfg { b' with stopActivations := b'.stopActivations ++ [a] } { L' with activations := L'.activations ++ [a] } := by
    intro b' L' a h'
    have := h'.setActivations (b'.stopActivations ++ [a])
    rwa [show b'.stopActivations = L'.activations from h'.activations] at this ⊢
  cases limit with
  | none => exact ⟨rfl, hact _ hdrop⟩
  | some i =>
    dsimp only
    by_cases hz : remaining ≠ 0
    · rw [if_pos hz, if_pos hz]
      exact ⟨rfl, hact _ (h.restExisting hd (hlim i rfl) ⟨Nat.pos_of_ne_zero hz, hlt⟩ (by rw [hhandle]; rfl))⟩
    · rw [if_neg hz, if_neg hz]
      exact ⟨rfl, hact _ hdrop⟩

/-- `activate_stop`. -/
theorem Rep.activateStop (h : Rep gh cfg b L) (hnone : L.held = none) (prev : List Trade) {sl sr : List Dormant} {d : Dormant}
    (hs : L.stops = sl ++ d :: sr) :
    Sim
      (fun r r' => r.1 = { r'.1 with tradeCount := r.2.1.length } ∧ r.2.1 = prev ++ r'.2.1 ∧ Rep gh cfg r.2.2 r'.2.2 ∧
        r'.2.2.held = none)
      (b.activateStop (L.handleAt d.slot) prev) (L.activate cfg d (sl ++ sr)) := by
  have hd : d ∈ L.stops := by rw [hs]; simp
  have hat := h.dormants d hd
  have hlimit : (if (b.arena.orderAt d.slot).stopMarket then none else b.cfg.domain.indexOf (b.stopLimitPrices d.slot)) =
      (d.taker cfg).limit := by
    rw [h.stop_market hd, hat.limit, h.cfg_eq, Dormant.taker]
    cases d.limit <;> rfl
  have hhold := h.detachStop hnone hs
  unfold OrderBook.activateStop Ladder.activate
  have hindex : (L.handleAt d.slot).index = d.slot := rfl
  simp only [hindex, hlimit]
  rw [hat.id, hat.remaining, h.stop_side hd]
  refine Sim.bind (hhold.matchTaker (t := d.taker cfg) d.remaining).returned ?_
  rintro x w ⟨hrel, -, hrun⟩
  have hkept := Sweep.run_kept hhold.wf hrun
  have hheld : w.ladder.held = some d := hkept.held
  have hplace : (L.hold d (sl ++ sr)).place d.slot = .held := by simp [Ladder.hold]
  have hhandle : L.handleAt d.slot = w.ladder.handleAt d.slot := by
    have := (hkept.outside d.slot (by rw [hplace]; rintro _ _ ⟨⟩)).2
    simp only [Ladder.handleAt, this]
    rfl
  have hlt := Sweep.run_remaining_lt hhold.wf d.remaining_lt hrun
  have hlim : ∀ i, (d.taker cfg).limit = some i → i < cfg.domain.tickCount := by
    intro i hi
    obtain ⟨price, -, hp⟩ := Option.bind_eq_some_iff.mp hi
    exact (cfg.domain.indexOf_eq_some.mp hp).1
  obtain ⟨h1, h2⟩ := hrel.repr.finishActivation hheld hhandle hat.id (h.stop_side hd) hat.remaining hlim hlt
  rw [hrel.remaining]
  refine Sim.pure ⟨by rw [h1], hrel.trades, h2, Ladder.finish_held hlt⟩

/-- `trigger_stops`. -/
theorem Rep.triggerStops (h : Rep gh cfg b L) (hnone : L.held = none) :
    Sim (fun r r' => r.1 = r'.1 ∧ Rep gh cfg r.2 r'.2 ∧ r'.2.held = none) (b.triggerStops prev) (L.cascade cfg prev) := by
  refine Sim.loop (R := fun r r' => r.1 = r'.1 ∧ Rep gh cfg r.2 r'.2 ∧ r'.2.held = none) ?_ ⟨rfl, h, hnone⟩
  rintro ⟨trades, b⟩ ⟨trades', L⟩ ⟨htr, h, hnone⟩
  dsimp only at htr h hnone ⊢
  subst htr
  refine Sim.bind_left h.findTriggered ?_
  cases hsplit : L.splitStop fun d => L.triggered d.side d.trigger with
  | none =>
    simp only [Option.map_none, Option.getD_none, if_true]
    exact Sim.pure (.done ⟨rfl, h, hnone⟩)
  | some p =>
    obtain ⟨d, others⟩ := p
    obtain ⟨sl, sr, hs, rfl, -, -⟩ := Ladder.of_splitStop hsplit
    have hlt := h.stop_lt (d := d) (by rw [hs]; simp)
    simp only [Option.map_some, Option.getD_some]
    rw [if_neg (Rep.slot_ne_invalid hlt), h.handleAt hlt]
    refine Sim.bind (h.activateStop hnone trades hs) ?_
    rintro ⟨r, trades1, b1⟩ ⟨r', trades1', L1⟩ ⟨-, htr, hr, hn⟩
    exact Sim.pure (.next ⟨htr, hr, hn⟩)

/-- The end of a submission. -/
theorem Rep.concludeSubmission (h : Rep gh cfg b L) (hnone : L.held = none) (quantity remaining : Nat) (handle : Handle) :
    Sim (Concluded gh cfg) (b.concludeSubmission quantity remaining handle prev) (L.conclude cfg quantity remaining handle prev) := by
  refine Sim.bind (h.triggerStops hnone) ?_
  rintro ⟨trades, b'⟩ ⟨trades', L'⟩ ⟨htr, hr, hn⟩
  dsimp only at htr hr hn
  subst htr
  exact Sim.pure ⟨rfl, rfl, hr, hn⟩

end Stops

end MatchingEngine

import MatchingEngine.Lemmas.Ladder

/-!
# What a taker does to the ladder

A taker's run is a sequence of executions. `Sweep.Step` says what holds of one execution, and `Sweep.run_invariant` is the one induction
over the rounds and levels of a run: what every execution keeps holds of the result.
-/

namespace MatchingEngine

open Function

namespace Ladder

variable {cfg : BookConfig} {L : Ladder}

/-- The ladder after an execution, but for its last price. -/
structure Filled (L L' : Ladder) (side : Side) (i : Nat) (l r : List Entry) (e : Entry) (q : Nat) : Prop where
  stops : L'.stops = L.stops
  held : L'.held = L.held
  accepted : L'.accepted = L.accepted
  tradingState : L'.tradingState = L.tradingState
  activations : L'.activations = L.activations
  cases : (∃ e', (L'.queue = (L.setQueue side i (l ++ e' :: r)).queue ∧ q < e.displayed ∧ e'.displayed = e.displayed - q ∨
        L'.queue = (L.setQueue side i (l ++ r ++ [e'])).queue ∧ q = e.displayed ∧ e'.displayed = min e.display (e.remaining - q)) ∧
      q < e.remaining ∧ (L'.free = L.free ∧ L'.place = L.place ∧ L'.releases = L.releases ∧ L'.freeNext = L.freeNext) ∧
      e'.slot = e.slot ∧ e'.id = e.id ∧ e'.trader = e.trader ∧ e'.serial = e.serial ∧ e'.display = e.display ∧
      e'.remaining = e.remaining - q) ∨
    (L'.queue = (L.setQueue side i (l ++ r)).queue ∧ q = e.displayed ∧ q = e.remaining ∧ L'.free = e.slot :: L.free ∧
      L'.place = update L.place e.slot .free ∧ L'.releases = update L.releases e.slot (L.releases e.slot + 1))

/-- What an execution of at most the displayed slice does. -/
theorem fill_filled {side : Side} {i q : Nat} {l r : List Entry} {e : Entry} (hq : L.queue side i = l ++ e :: r)
    (hl : ∀ x ∈ l, x.slot ≠ e.slot) (hle : q ≤ e.displayed) : Filled L (L.fill side i e.slot q) side i l r e q := by
  have hdr := e.displayed_le_remaining
  rw [fill_eq hq hl]
  rcases e.after_cases hle with ⟨e', ha, hlt, hslot, hid, htr, hser, hdis, hrem, hdisp⟩ |
    ⟨e', ha, hqe, hlt, hslot, hid, htr, hser, hdis, hrem, hdisp⟩ | ⟨ha, hqe, hqr⟩
  · rw [ha]
    exact ⟨rfl, rfl, rfl, rfl, rfl, Or.inl ⟨e', Or.inl ⟨rfl, hlt, hdisp⟩, by omega, ⟨rfl, rfl, rfl, rfl⟩, hslot, hid, htr, hser, hdis, hrem⟩⟩
  · rw [ha]
    exact ⟨rfl, rfl, rfl, rfl, rfl, Or.inl ⟨e', Or.inr ⟨rfl, hqe, hdisp⟩, hlt, ⟨rfl, rfl, rfl, rfl⟩, hslot, hid, htr, hser, hdis, hrem⟩⟩
  · rw [ha]
    exact ⟨rfl, rfl, rfl, rfl, rfl, Or.inr ⟨rfl, hqe, hqr, rfl, rfl, rfl⟩⟩

section Filled

variable {L' : Ladder} {side : Side} {i q : Nat} {l r : List Entry} {e : Entry}

/-- A fill changes the queue of its entry only. -/
theorem Filled.queue_of_ne (h : Filled L L' side i l r e q) {side' : Side} {j : Nat} (hne : ¬(side' = side ∧ j = i)) :
    L'.queue side' j = L.queue side' j := by
  rcases h.cases with ⟨e', ⟨hqueue, -⟩ | ⟨hqueue, -⟩, -⟩ | ⟨hqueue, -⟩
  · rw [hqueue, setQueue_queue, if_neg hne]
  · rw [hqueue, setQueue_queue, if_neg hne]
  · rw [hqueue, setQueue_queue, if_neg hne]

/-- The queue of a filled entry. -/
theorem Filled.queue_eq (h : Filled L L' side i l r e q) :
    L'.queue side i = l ++ r ∧ q = e.remaining ∨ ∃ e', e'.remaining = e.remaining - q ∧ q < e.remaining ∧ e'.slot = e.slot ∧
      (L'.queue side i = l ++ e' :: r ∨ L'.queue side i = l ++ r ++ [e']) := by
  rcases h.cases with ⟨e', hqueue, hlt, -, hslot, -, -, -, -, hrem⟩ | ⟨hqueue, -, hrem, -⟩
  · right
    refine ⟨e', hrem, hlt, hslot, ?_⟩
    rcases hqueue with ⟨hqueue, -⟩ | ⟨hqueue, -⟩
    · left
      rw [hqueue, setQueue_queue, if_pos ⟨rfl, rfl⟩]
    · right
      rw [hqueue, setQueue_queue, if_pos ⟨rfl, rfl⟩]
  · left
    rw [hqueue, setQueue_queue, if_pos ⟨rfl, rfl⟩]
    exact ⟨rfl, hrem⟩

/-- A fill takes its quantity from its level. -/
theorem Filled.total_add (h : Filled L L' side i l r e q) (hq : L.queue side i = l ++ e :: r) :
    L'.total side i + q = L.total side i := by
  simp only [total, hq]
  rcases h.queue_eq with ⟨hqueue, hrem⟩ | ⟨e', hrem, hlt, -, hqueue | hqueue⟩
  · simp only [hqueue, List.map_append, List.map_cons, List.sum_append, List.sum_cons]
    omega
  · simp only [hqueue, List.map_append, List.map_cons, List.sum_append, List.sum_cons]
    omega
  · simp only [hqueue, List.map_append, List.map_cons, List.map_nil, List.sum_append, List.sum_cons, List.sum_nil]
    omega

/-- The other levels keep their totals. -/
theorem Filled.total_of_ne (h : Filled L L' side i l r e q) {side' : Side} {j : Nat} (hne : ¬(side' = side ∧ j = i)) :
    L'.total side' j = L.total side' j := by
  rw [total, total, h.queue_of_ne hne]

/-- A fill fills no queue that was empty. -/
theorem Filled.queue_ne_nil (h : Filled L L' side i l r e q) (hq : L.queue side i = l ++ e :: r) {side' : Side} {j : Nat}
    (hne : L'.queue side' j ≠ []) : L.queue side' j ≠ [] := by
  by_cases hc : side' = side ∧ j = i
  · rw [hc.1, hc.2, hq]
    simp
  · rwa [h.queue_of_ne hc] at hne

end Filled

/-- The ladder with another last price keeps its slots where they are. -/
theorem Wf.setLastPrice (h : L.Wf cfg) (price : Option Int) : { L with lastPrice := price }.Wf cfg :=
  h.of_slots (fun _ _ => rfl) rfl rfl rfl rfl rfl

end Ladder

/-- A share is at most what is displayed. -/
theorem Execution.proRataShare_le (minimum displayed quantity totalDisplayed : Nat) :
    Execution.proRataShare minimum displayed quantity totalDisplayed ≤ displayed := by
  unfold Execution.proRataShare
  dsimp only
  split
  · exact Nat.zero_le _
  · exact Nat.min_le_right _ _

namespace Sweep

variable (cfg : BookConfig) (t : Taker)

/-- One execution of a taker's run: `q` of the entry `e` at level `i`, the best of its side, within the taker's limit and the displayed
slice. Under FIFO allocation the entry is the first of its queue and the quantity all that both sides allow. -/
structure Step (w : Sweep) (i : Nat) (e : Entry) (q : Nat) : Prop where
  mem : e ∈ w.ladder.queue t.side.opposite i
  pos : 0 < q
  le : q ≤ e.displayed
  busy : w.remaining ≠ 0
  inLimit : ∀ limit, t.limit = some limit → crosses t.side i limit = true
  top : ∀ j, betterLevel t.side.opposite j i → w.ladder.queue t.side.opposite j = []
  first : cfg.allocationMode = .fifo → (w.ladder.queue t.side.opposite i).head? = some e
  whole : cfg.allocationMode = .fifo → q = min w.remaining e.displayed
  unblocked : cfg.allocationMode = .fifo → blocks cfg t e = false

/-- When a taker's run ends: nothing is left, or no level is in its limit. -/
def Ended (w : Sweep) : Prop :=
  w.remaining = 0 ∨
    ∀ i, w.ladder.best cfg t.side.opposite = some i → ∃ limit, t.limit = some limit ∧ crosses t.side i limit = false

variable {cfg t} {w w' : Sweep} {i : Nat} {I : Sweep → Prop}

/-- What one execution leaves of the ladder. -/
theorem Step.filled (hw : w.ladder.Wf cfg) {e : Entry} {q : Nat} (h : Step cfg t w i e q) :
    ∃ l r, w.ladder.queue t.side.opposite i = l ++ e :: r ∧ (cfg.allocationMode = .fifo → l = []) ∧
      Ladder.Filled w.ladder (w.exec cfg t i e q).ladder t.side.opposite i l r e q := by
  obtain ⟨l, r, hq⟩ := List.append_of_mem h.mem
  have hne := hw.slot_ne_of_split hq
  have hf := Ladder.fill_filled hq hne.1 h.le
  refine ⟨l, r, hq, fun hfifo => ?_, ⟨hf.stops, hf.held, hf.accepted, hf.tradingState, hf.activations, hf.cases⟩⟩
  have hhead := h.first hfifo
  cases l with
  | nil => rfl
  | cons x l =>
    rw [hq, List.cons_append, List.head?_cons, Option.some.injEq] at hhead
    exact absurd (congrArg Entry.slot hhead) (hne.1 x (by simp))

theorem Step.wf (hw : w.ladder.Wf cfg) {e : Entry} {q : Nat} (h : Step cfg t w i e q) : (w.exec cfg t i e q).ladder.Wf cfg := by
  obtain ⟨l, r, hq⟩ := List.append_of_mem h.mem
  exact (hw.fill hq h.le).setLastPrice _

/-- The levels that are better than the one a taker is at stay empty. -/
theorem Step.stays_top (hw : w.ladder.Wf cfg) {e : Entry} {q : Nat} (h : Step cfg t w i e q) (j : Nat)
    (hj : betterLevel t.side.opposite j i) : (w.exec cfg t i e q).ladder.queue t.side.opposite j = [] := by
  obtain ⟨l, r, -, -, hf⟩ := h.filled hw
  rw [hf.queue_of_ne fun hc => betterLevel_irrefl _ _ (hc.2 ▸ hj)]
  exact h.top j hj

section Rules

variable (hstep : ∀ w i e q, w.ladder.Wf cfg → I w → Step cfg t w i e q → I (w.exec cfg t i e q))

include hstep

/-- What an execution keeps is kept by the matching of a level under FIFO. -/
theorem fifo_invariant (hlim : ∀ limit, t.limit = some limit → crosses t.side i limit = true)
    (htop : ∀ j, betterLevel t.side.opposite j i → w.ladder.queue t.side.opposite j = []) (hw : w.ladder.Wf cfg ∧ I w)
    (h : (w.fifo cfg t i).Returns w') : w'.ladder.Wf cfg ∧ I w' := by
  refine Comp.loop_invariant
    (I := fun w => (w.ladder.Wf cfg ∧ I w) ∧ ∀ j, betterLevel t.side.opposite j i → w.ladder.queue t.side.opposite j = [])
    (Q := fun w => w.ladder.Wf cfg ∧ I w) ?_ ?_ ⟨hw, htop⟩ h
  · rintro w w' ⟨hw, htop⟩ hb
    split at hb
    · simp at hb
    · rename_i e r hq
      split at hb
      · simp at hb
      · rename_i hrem
        split at hb
        · simp at hb
        · rename_i hblock
          rw [Comp.returns_pure, Turn.next.injEq] at hb
          have hs : Step cfg t w i e (min w.remaining e.displayed) :=
            { mem := by rw [hq]; simp
              pos := Nat.lt_min.mpr ⟨Nat.pos_of_ne_zero hrem, e.displayed_pos⟩
              le := Nat.min_le_right _ _
              busy := hrem
              inLimit := hlim
              top := htop
              first := fun _ => by rw [hq]; rfl
              whole := fun _ => rfl
              unblocked := fun _ => by simpa using hblock }
          rw [← hb]
          exact ⟨⟨hs.wf hw.1, hstep w i e _ hw.1 hw.2 hs⟩, hs.stays_top hw.1⟩
  · rintro w r ⟨hw, -⟩ hb
    have : w = r := by
      split at hb
      · simpa using hb
      · split at hb
        · simpa using hb
        · split at hb
          · simpa using hb
          · simp at hb
    rw [← this]
    exact hw

/-- What an execution keeps is kept by the matching of a level under pro rata. -/
theorem proRata_invariant (hmode : cfg.allocationMode = .thresholdProRata)
    (hlim : ∀ limit, t.limit = some limit → crosses t.side i limit = true)
    (htop : ∀ j, betterLevel t.side.opposite j i → w.ladder.queue t.side.opposite j = []) {total : Nat} {stop : Option Nat}
    (hw : w.ladder.Wf cfg ∧ I w) (h : (w.proRata cfg t i total stop).Returns w') :
    (w'.ladder.Wf cfg ∧ I w') ∧ ∀ j, betterLevel t.side.opposite j i → w'.ladder.queue t.side.opposite j = [] := by
  refine Comp.loop_invariant
    (I := fun st => (st.2.ladder.Wf cfg ∧ I st.2) ∧
      ∀ j, betterLevel t.side.opposite j i → st.2.ladder.queue t.side.opposite j = [])
    (Q := fun w => (w.ladder.Wf cfg ∧ I w) ∧ ∀ j, betterLevel t.side.opposite j i → w.ladder.queue t.side.opposite j = [])
    ?_ ?_ ⟨hw, htop⟩ h
  · rintro ⟨cursor, w⟩ ⟨cursor', w'⟩ ⟨hw, htop⟩ hb
    dsimp only at hw htop hb ⊢
    split at hb
    · simp at hb
    · rename_i slot
      split at hb
      · simp at hb
      · rename_i hgo
        split at hb
        · simp at hb
        · rename_i e hfind
          split at hb
          · rw [Comp.returns_pure, Turn.next.injEq, Prod.mk.injEq] at hb
            rw [← hb.2]
            exact ⟨hw, htop⟩
          · rename_i hq
            rw [Comp.returns_pure, Turn.next.injEq, Prod.mk.injEq] at hb
            have hne : cfg.allocationMode ≠ .fifo := by rw [hmode]; exact nofun
            have hs : Step cfg t w i e _ :=
              { mem := List.mem_of_find?_eq_some hfind
                pos := Nat.pos_of_ne_zero hq
                le := Execution.proRataShare_le _ _ _ _
                busy := fun hz => hgo (Or.inr hz)
                inLimit := hlim
                top := htop
                first := fun hf => absurd hf hne
                whole := fun hf => absurd hf hne
                unblocked := fun hf => absurd hf hne }
            rw [← hb.2]
            exact ⟨⟨hs.wf hw.1, hstep w i e _ hw.1 hw.2 hs⟩, hs.stays_top hw.1⟩
  · rintro ⟨cursor, w⟩ r hw hb
    dsimp only at hw hb ⊢
    have : w = r := by
      split at hb
      · simpa using hb
      · split at hb
        · simpa using hb
        · split at hb
          · simpa using hb
          · split at hb <;> simp at hb
    rw [← this]
    exact hw

/-- What an execution keeps is kept by the matching of a level. -/
theorem level_invariant (hlim : ∀ limit, t.limit = some limit → crosses t.side i limit = true)
    (htop : ∀ j, betterLevel t.side.opposite j i → w.ladder.queue t.side.opposite j = []) (hw : w.ladder.Wf cfg ∧ I w)
    (h : (w.level cfg t i).Returns w') : w'.ladder.Wf cfg ∧ I w' := by
  unfold level at h
  split at h
  · exact fifo_invariant hstep hlim htop hw h
  · rename_i hmode
    dsimp only at h
    split at h
    · obtain ⟨w1, h1, h2⟩ := (Comp.returns_bind _ _ _).mp h
      rw [Comp.returns_pure] at h1
      exact fifo_invariant hstep hlim (h1 ▸ htop) (h1 ▸ hw) h2
    · obtain ⟨w1, h1, h2⟩ := (Comp.returns_bind _ _ _).mp h
      obtain ⟨hw1, htop1⟩ := proRata_invariant hstep hmode hlim htop hw h1
      exact fifo_invariant hstep hlim htop1 hw1 h2

/-- The invariant rule of a taker's run. -/
theorem run_invariant (hw : w.ladder.Wf cfg) (hi : I w) (h : (w.run cfg t).Returns w') :
    w'.ladder.Wf cfg ∧ I w' ∧ Ended cfg t w' := by
  have hnext : ∀ w w' : Sweep, w.ladder.Wf cfg ∧ I w → (w.round cfg t).Returns (.next w') → w'.ladder.Wf cfg ∧ I w' := by
    intro w w' hw hb
    unfold round at hb
    split at hb
    · simp at hb
    · split at hb
      · simp at hb
      · rename_i i hbest
        split at hb
        · simp at hb
        · rename_i hany
          obtain ⟨w1, h1, h2⟩ := (Comp.returns_bind _ _ _).mp hb
          rw [Comp.returns_pure, Turn.next.injEq] at h2
          refine h2 ▸ level_invariant hstep (fun limit hlimit => ?_) (fun j hj => ?_) hw h1
          · rw [hlimit] at hany
            simpa using hany
          · by_contra hne
            exact (Ladder.best_eq_some hbest).2.2 j (hw.1.queue_lt hne) hne hj
  refine Comp.loop_invariant (I := fun w => w.ladder.Wf cfg ∧ I w) (Q := fun w => w.ladder.Wf cfg ∧ I w ∧ Ended cfg t w) hnext
    (fun w r hw hb => ?_) ⟨hw, hi⟩ h
  unfold round at hb
  split at hb
  · rename_i hrem
    rw [Comp.returns_pure, Turn.done.injEq] at hb
    exact hb ▸ ⟨hw.1, hw.2, Or.inl hrem⟩
  · split at hb
    · rename_i hbest
      rw [Comp.returns_pure, Turn.done.injEq] at hb
      refine hb ▸ ⟨hw.1, hw.2, Or.inr fun i hi => ?_⟩
      rw [hbest] at hi
      cases hi
    · rename_i j hbest
      split at hb
      · rename_i hany
        rw [Comp.returns_pure, Turn.done.injEq] at hb
        refine hb ▸ ⟨hw.1, hw.2, Or.inr fun i hi => ?_⟩
        rw [hbest, Option.some.injEq] at hi
        rw [Option.any_eq_true] at hany
        obtain ⟨limit, hl, hc⟩ := hany
        exact ⟨limit, hl, by rw [← hi]; simpa using hc⟩
      · obtain ⟨w1, h1, h2⟩ := (Comp.returns_bind _ _ _).mp hb
        simp at h2

end Rules

end Sweep

/-! ## What a run leaves alone -/

/-- What executions leave alone: the stops, and every slot that is not at rest. While no slot becomes free, no level is emptied. -/
structure Ladder.Kept (L L' : Ladder) : Prop where
  stops : L'.stops = L.stops
  held : L'.held = L.held
  accepted : L'.accepted = L.accepted
  tradingState : L'.tradingState = L.tradingState
  activations : L'.activations = L.activations
  outside : ∀ s, (∀ side i, L.place s ≠ .resting side i) → L'.place s = L.place s ∧ L'.releases s = L.releases s
  free_grows : L.free ≠ [] → L'.free ≠ []
  emptied : L'.free ≠ [] ∨ ∀ side i, L'.queue side i = [] ↔ L.queue side i = []

namespace Ladder

variable {cfg : BookConfig} {L L' L'' : Ladder}

theorem Kept.refl (L : Ladder) : Kept L L :=
  ⟨rfl, rfl, rfl, rfl, rfl, fun _ _ => ⟨rfl, rfl⟩, id, Or.inr fun _ _ => Iff.rfl⟩

theorem Kept.trans (h : Kept L L') (h' : Kept L' L'') : Kept L L'' where
  stops := h'.stops.trans h.stops
  held := h'.held.trans h.held
  accepted := h'.accepted.trans h.accepted
  tradingState := h'.tradingState.trans h.tradingState
  activations := h'.activations.trans h.activations
  outside s hs := by
    obtain ⟨h1, h2⟩ := h.outside s hs
    obtain ⟨h3, h4⟩ := h'.outside s (by rw [h1]; exact hs)
    exact ⟨h3.trans h1, h4.trans h2⟩
  free_grows := fun hf => h'.free_grows (h.free_grows hf)
  emptied := by
    rcases h.emptied with he | he
    · exact Or.inl (h'.free_grows he)
    · rcases h'.emptied with he' | he'
      · exact Or.inl he'
      · exact Or.inr fun side i => (he' side i).trans (he side i)

/-- A fill keeps the rest of the ladder. -/
theorem Filled.kept {side : Side} {i q : Nat} {l r : List Entry} {e : Entry} (hw : L.Wf cfg) (hq : L.queue side i = l ++ e :: r)
    (h : Filled L L' side i l r e q) : Kept L L' := by
  refine ⟨h.stops, h.held, h.accepted, h.tradingState, h.activations, fun s hs => ?_, fun hf => ?_, ?_⟩
  · rcases h.cases with ⟨e', -, -, ⟨-, hp, hr, -⟩, -⟩ | ⟨-, -, -, -, hp, hr⟩
    · rw [hp, hr]
      exact ⟨rfl, rfl⟩
    · have hse : s ≠ e.slot := fun hse => hs side i (hse ▸ (hw.place_of_mem (e := e) (by rw [hq]; simp)).2)
      rw [hp, hr, update_of_ne hse, update_of_ne hse]
      exact ⟨rfl, rfl⟩
  · rcases h.cases with ⟨e', -, -, ⟨hfr, -⟩, -⟩ | ⟨-, -, -, hfr, -⟩
    · rw [hfr]
      exact hf
    · rw [hfr]
      exact nofun
  · rcases h.cases with ⟨e', hqueue, -⟩ | ⟨-, -, -, hfr, -⟩
    · right
      intro side' i'
      have : L'.queue side' i' = L.queue side' i' ∨ L'.queue side' i' ≠ [] ∧ L.queue side' i' ≠ [] := by
        rcases hqueue with ⟨hqueue, -⟩ | ⟨hqueue, -⟩
        · rw [hqueue, setQueue_queue]
          split
          · rename_i hc
            right
            rw [hc.1, hc.2, hq]
            simp
          · exact Or.inl rfl
        · rw [hqueue, setQueue_queue]
          split
          · rename_i hc
            right
            rw [hc.1, hc.2, hq]
            simp
          · exact Or.inl rfl
      rcases this with h1 | ⟨h1, h2⟩
      · rw [h1]
      · exact iff_of_false h1 h2
    · left
      rw [hfr]
      exact nofun

/-- The levels in use are the same when the same queues are empty. -/
theorem best_congr (h : ∀ side i, L'.queue side i = [] ↔ L.queue side i = []) (side : Side) : L'.best cfg side = L.best cfg side := by
  have : ∀ i, (L'.queue side i).isEmpty = (L.queue side i).isEmpty := fun i => by
    rw [Bool.eq_iff_iff, List.isEmpty_iff, List.isEmpty_iff, h side i]
  simp only [best, occupied, this]

end Ladder

namespace Sweep

variable {cfg : BookConfig} {t : Taker} {w w' : Sweep}

/-- A taker keeps the rest of the ladder. -/
theorem run_kept (hw : w.ladder.Wf cfg) (h : (w.run cfg t).Returns w') : w.ladder.Kept w'.ladder := by
  refine (run_invariant (I := fun w' => w.ladder.Kept w'.ladder) ?_ hw (Ladder.Kept.refl _) h).2.1
  intro w' i e q hw' hk hs
  obtain ⟨l, r, hq, -, hf⟩ := hs.filled hw'
  exact hk.trans (hf.kept hw' hq)

theorem run_wf (hw : w.ladder.Wf cfg) (h : (w.run cfg t).Returns w') : w'.ladder.Wf cfg :=
  (run_invariant (I := fun _ => True) (fun _ _ _ _ _ _ _ => trivial) hw trivial h).1

theorem run_ended (hw : w.ladder.Wf cfg) (h : (w.run cfg t).Returns w') : Ended cfg t w' :=
  (run_invariant (I := fun _ => True) (fun _ _ _ _ _ _ _ => trivial) hw trivial h).2.2

/-- What remains is a 64-bit number. -/
theorem run_remaining_lt (hw : w.ladder.Wf cfg) (hlt : w.remaining < 2 ^ 64) (h : (w.run cfg t).Returns w') : w'.remaining < 2 ^ 64 :=
  (run_invariant (I := fun w => w.remaining < 2 ^ 64) (fun _ _ _ _ _ _ _ => sub64_lt _ _) hw hlt h).2.1

/-- A taker that met a level in its limit and still has something left has emptied it, so a slot is free. -/
theorem run_frees {limit : Nat} (hw : w.ladder.Wf cfg) (hlim : t.limit = some limit)
    (hcross : w.ladder.free ≠ [] ∨ w.ladder.crossing cfg t.side limit = true) (h : (w.run cfg t).Returns w') (hrem : w'.remaining ≠ 0) :
    w'.ladder.free ≠ [] := by
  have hk := run_kept hw h
  rcases hcross with hf | hcross
  · exact hk.free_grows hf
  · rcases hk.emptied with he | he
    · exact he
    · rcases run_ended hw h with hz | hend
      · exact absurd hz hrem
      · unfold Ladder.crossing at hcross
        cases hb : w.ladder.best cfg t.side.opposite with
        | none => simp [hb] at hcross
        | some i =>
          rw [← Ladder.best_congr he] at hb
          obtain ⟨limit', hl, hc⟩ := hend i hb
          rw [hlim, Option.some.injEq] at hl
          rw [Ladder.best_congr he] at hb
          rw [hb, hl] at hcross
          exact absurd hcross (by simp [hc])

end Sweep

end MatchingEngine

import MatchingEngine.Lemmas.Pass
import MatchingEngine.Lemmas.Refine

/-!
# Pro-rata levels

A level under pro-rata allocation and no self-trade policy is a `Pass` over its queue and then FIFO, which takes all it can
(`Sweep.level_pass`). Where the pass gives every maker one share at most, the level takes all it can, and so does a taker that finds
the levels it gets to like that (`Sweep.run_takes`).
-/

namespace MatchingEngine

open Comp Function

/-! ## One level of the ladder -/

/-- The makers at a level of a ladder. -/
def Ladder.makers (L : Ladder) (side : Side) (i : Nat) : List Maker := (L.queue side i).map Entry.maker

namespace Sweep

variable {cfg : BookConfig} {t : Taker} {w : Sweep} {i : Nat}

/-- What matching at one level leaves alone: the ladder stays well-formed, and every other queue as it is. -/
structure AtLevel (cfg : BookConfig) (t : Taker) (i : Nat) (w w' : Sweep) : Prop where
  wf : w'.ladder.Wf cfg
  others : ∀ side j, ¬(side = t.side.opposite ∧ j = i) → w'.ladder.queue side j = w.ladder.queue side j

theorem AtLevel.refl (hw : w.ladder.Wf cfg) : AtLevel cfg t i w w := ⟨hw, fun _ _ _ => rfl⟩

theorem AtLevel.trans {w₁ w₂ : Sweep} (h : AtLevel cfg t i w w₁) (h' : AtLevel cfg t i w₁ w₂) : AtLevel cfg t i w w₂ :=
  ⟨h'.wf, fun side j hne => (h'.others side j hne).trans (h.others side j hne)⟩

theorem AtLevel.exec {l r : List Entry} {e : Entry} {q : Nat} (hw : w.ladder.Wf cfg)
    (hq : w.ladder.queue t.side.opposite i = l ++ e :: r) (hle : q ≤ e.displayed) : AtLevel cfg t i w (w.exec cfg t i e q) :=
  ⟨(hw.fill hq hle).setLastPrice _, fun _ _ hne => (Ladder.fill_filled hq (hw.slot_ne_of_split hq).1 hle).queue_of_ne hne⟩

/-- The queue after an execution of an entry's share. -/
theorem queue_exec {share : Nat → Nat} {l r : List Entry} {e : Entry} (hw : w.ladder.Wf cfg)
    (hq : w.ladder.queue t.side.opposite i = l ++ e :: r) (hne : share e.displayed ≠ 0) :
    (w.exec cfg t i e (share e.displayed)).ladder.queue t.side.opposite i =
      l ++ (e.visited share).1 ++ (r ++ (e.visited share).2) := by
  have hset : ∀ Q, (w.ladder.setQueue t.side.opposite i Q).queue t.side.opposite i = Q := fun Q => by
    rw [Ladder.setQueue_queue, if_pos ⟨rfl, rfl⟩]
  show (w.ladder.fill t.side.opposite i e.slot (share e.displayed)).queue t.side.opposite i = _
  rw [Ladder.fill_eq hq (hw.slot_ne_of_split hq).1, Entry.visited, if_neg hne]
  cases e.after (share e.displayed) with
  | part e' =>
    rw [hset]
    simp
  | replenished e' =>
    rw [hset]
    simp
  | filled => exact (hset _).trans (by simp)

/-- One round of the pro-rata pass, for a taker that no entry stops. -/
def proRataRound (cfg : BookConfig) (t : Taker) (i quantity totalDisplayed : Nat) (st : Option Nat × Sweep) :
    Comp (Turn (Option Nat × Sweep) Sweep) :=
  match st.1 with
  | none => pure (.done st.2)
  | some slot =>
    if none = some slot ∨ st.2.remaining = 0 then pure (.done st.2)
    else
      match (st.2.ladder.queue t.side.opposite i).find? fun e => e.slot = slot with
      | none => pure (.done st.2)
      | some e =>
        let next := nextSlot (st.2.ladder.queue t.side.opposite i) slot
        let q := Execution.proRataShare cfg.proRataMinimum e.displayed quantity totalDisplayed
        if q = 0 then pure (.next (next, st.2)) else pure (.next (next, st.2.exec cfg t i e q))

/-- A visit of the pass. -/
theorem proRataRound_visit {share : Nat → Nat} {quantity total : Nat}
    (hshare : ∀ d, share d = Execution.proRataShare cfg.proRataMinimum d quantity total) (hw : w.ladder.Wf cfg) {V R : List Entry}
    {e : Entry} (hq : w.ladder.queue t.side.opposite i = V ++ e :: R) (hrem : w.remaining < 2 ^ 64) (hne : w.remaining ≠ 0) :
    ∃ w', (proRataRound cfg t i quantity total (some e.slot, w)).Returns (.next (R.head?.map Entry.slot, w')) ∧
      AtLevel cfg t i w w' ∧ w'.ladder.queue t.side.opposite i = V ++ (e.visited share).1 ++ (R ++ (e.visited share).2) ∧
      w'.remaining = sub64 w.remaining (share e.displayed) := by
  have hle : share e.displayed ≤ e.displayed := hshare e.displayed ▸ Execution.proRataShare_le _ _ _ _
  have hstop : ¬(none = some e.slot ∨ w.remaining = 0) := by
    rintro (h | h)
    · cases h
    · exact hne h
  simp only [proRataRound, if_neg hstop, hw.find_entry hq, nextSlot_eq hq (hw.slot_ne_of_split hq).1, ← hshare]
  by_cases hz : share e.displayed = 0
  · rw [if_pos hz]
    refine ⟨w, (returns_pure _ _).mpr rfl, AtLevel.refl hw, ?_, by rw [hz, sub64_eq (Nat.zero_le _) hrem]; rfl⟩
    rw [hq, Entry.visited_of_zero hz]
    simp
  · rw [if_neg hz]
    exact ⟨_, (returns_pure _ _).mpr rfl, AtLevel.exec hw hq hle, queue_exec hw hq hz, rfl⟩

/-- The pass on the ladder is the pass over its queue. By induction on what the makers ahead have left, which every visit lessens. -/
theorem proRata_pass (share : Nat → Nat) {total : Nat}
    (hshare : ∀ d, share d = Execution.proRataShare cfg.proRataMinimum d w.remaining total) (hw : w.ladder.Wf cfg)
    (hrem : w.remaining < 2 ^ 64) :
    ∃ w', (w.proRata cfg t i total none).Returns w' ∧ AtLevel cfg t i w w' ∧
      Pass share [] (w.ladder.queue t.side.opposite i) w.remaining (w'.ladder.queue t.side.opposite i) w'.remaining := by
  have hle : ∀ d, share d ≤ d := fun d => hshare d ▸ Execution.proRataShare_le _ _ _ _
  have key : ∀ n (V R : List Entry) (v : Sweep), totalOf R ≤ n → v.ladder.Wf cfg → v.remaining < 2 ^ 64 →
      v.ladder.queue t.side.opposite i = V ++ R →
      ∃ w', (Comp.loop (proRataRound cfg t i w.remaining total) (R.head?.map Entry.slot, v)).Returns w' ∧ AtLevel cfg t i v w' ∧
        Pass share V R v.remaining (w'.ladder.queue t.side.opposite i) w'.remaining := by
    intro n
    induction n with
    | zero =>
      intro V R v hn hv _ hq
      cases R with
      | nil =>
        refine ⟨v, (returns_loop _ _ _).mpr (Or.inl ((returns_pure _ _).mpr rfl)), AtLevel.refl hv, ?_⟩
        rw [hq]
        exact .stop (Or.inl rfl)
      | cons e R =>
        have := e.displayed_pos
        have := e.displayed_le_remaining
        rw [totalOf_cons] at hn
        omega
    | succ n ih =>
      intro V R v hn hv hlt hq
      cases R with
      | nil =>
        refine ⟨v, (returns_loop _ _ _).mpr (Or.inl ((returns_pure _ _).mpr rfl)), AtLevel.refl hv, ?_⟩
        rw [hq]
        exact .stop (Or.inl rfl)
      | cons e R =>
        have hpos := e.displayed_pos
        have hdr := e.displayed_le_remaining
        rw [totalOf_cons] at hn
        by_cases hz : v.remaining = 0
        · refine ⟨v, (returns_loop _ _ _).mpr (Or.inl ?_), AtLevel.refl hv, ?_⟩
          · simp only [proRataRound, List.head?_cons, Option.map_some, if_pos (Or.inr hz)]
            exact (returns_pure _ _).mpr rfl
          · rw [hq]
            exact .stop (Or.inr hz)
        · obtain ⟨v', hret, hat, hq', hr'⟩ := proRataRound_visit hshare hv hq hlt hz
          by_cases hlast : R = []
          · subst hlast
            refine ⟨v', (returns_loop _ _ _).mpr (Or.inr ⟨_, hret, ?_⟩), hat, ?_⟩
            · exact (returns_loop _ _ _).mpr (Or.inl ((returns_pure _ _).mpr rfl))
            · rw [hq', hr', List.nil_append]
              exact .last hz
          · have hhead : R.head?.map Entry.slot = (R ++ (e.visited share).2).head?.map Entry.slot := by
              rw [List.head?_append_of_ne_nil _ hlast]
            have hlt' := e.moved_lt hle
            rw [hhead] at hret
            obtain ⟨w', hloop, hat', hpass⟩ := ih (V ++ (e.visited share).1) (R ++ (e.visited share).2) v'
              (by rw [totalOf_append]; omega) hat.wf (hr' ▸ sub64_lt _ _) hq'
            rw [hr'] at hpass
            exact ⟨w', (returns_loop _ _ _).mpr (Or.inr ⟨_, hret, hloop⟩), hat.trans hat', .visit hz hlast hpass⟩
  exact key _ [] _ w (Nat.le_refl _) hw hrem rfl

/-- Under no self-trade policy, FIFO takes all it can from a level. By induction on what the level has left. -/
theorem fifo_takes (hpolicy : cfg.selfTradePolicy = .none) (hw : w.ladder.Wf cfg) (hrem : w.remaining < 2 ^ 64) :
    ∃ w', (w.fifo cfg t i).Returns w' ∧ AtLevel cfg t i w w' ∧
      w'.remaining + min w.remaining (w.ladder.total t.side.opposite i) = w.remaining ∧
      w'.ladder.total t.side.opposite i + min w.remaining (w.ladder.total t.side.opposite i) = w.ladder.total t.side.opposite i := by
  have hblocks : ∀ e, blocks cfg t e = false := fun e => by simp [blocks, hpolicy]
  have key : ∀ n (v : Sweep), v.ladder.total t.side.opposite i ≤ n → v.ladder.Wf cfg → v.remaining < 2 ^ 64 →
      ∃ w', (v.fifo cfg t i).Returns w' ∧ AtLevel cfg t i v w' ∧
        w'.remaining + min v.remaining (v.ladder.total t.side.opposite i) = v.remaining ∧
        w'.ladder.total t.side.opposite i + min v.remaining (v.ladder.total t.side.opposite i) =
          v.ladder.total t.side.opposite i := by
    intro n
    induction n with
    | zero =>
      intro v hn hv hlt
      cases hq : v.ladder.queue t.side.opposite i with
      | nil =>
        refine ⟨v, (returns_loop _ _ _).mpr (Or.inl ?_), AtLevel.refl hv, by omega, by omega⟩
        rw [hq]
        exact (returns_pure _ _).mpr rfl
      | cons e r =>
        have := e.displayed_pos
        have := e.displayed_le_remaining
        rw [Ladder.total, hq, List.map_cons, List.sum_cons] at hn
        omega
    | succ n ih =>
      intro v hn hv hlt
      cases hq : v.ladder.queue t.side.opposite i with
      | nil =>
        have htot : v.ladder.total t.side.opposite i = 0 := by rw [Ladder.total, hq]; rfl
        refine ⟨v, (returns_loop _ _ _).mpr (Or.inl ?_), AtLevel.refl hv, by omega, by omega⟩
        rw [hq]
        exact (returns_pure _ _).mpr rfl
      | cons e r =>
        by_cases hz : v.remaining = 0
        · refine ⟨v, (returns_loop _ _ _).mpr (Or.inl ?_), AtLevel.refl hv, by omega, by omega⟩
          rw [hq]
          dsimp only
          rw [if_pos hz]
          exact (returns_pure _ _).mpr rfl
        · have hpos := e.displayed_pos
          have hle : min v.remaining e.displayed ≤ e.displayed := Nat.min_le_right _ _
          have hat : AtLevel cfg t i v (v.exec cfg t i e (min v.remaining e.displayed)) := AtLevel.exec (l := []) hv hq hle
          have htot : (v.exec cfg t i e (min v.remaining e.displayed)).ladder.total t.side.opposite i + min v.remaining e.displayed =
              v.ladder.total t.side.opposite i := by
            have hfilled := Ladder.fill_filled (l := []) hq (by simp) hle
            exact hfilled.total_add hq
          have hsub : (v.exec cfg t i e (min v.remaining e.displayed)).remaining = v.remaining - min v.remaining e.displayed :=
            sub64_eq (Nat.min_le_left _ _) hlt
          obtain ⟨w', hret, hat', h1, h2⟩ := ih _ (by omega) hat.wf (by omega)
          refine ⟨w', (returns_loop _ _ _).mpr (Or.inr ⟨_, ?_, hret⟩), hat.trans hat', by omega, by omega⟩
          rw [hq]
          dsimp only
          rw [if_neg hz, hblocks, if_neg Bool.false_ne_true]
          exact (returns_pure _ _).mpr rfl
  exact key _ w (Nat.le_refl _) hw hrem

/-- The part of a level before its FIFO residue. -/
def proRataPart (cfg : BookConfig) (t : Taker) (w : Sweep) (i : Nat) : Comp Sweep :=
  let q := w.ladder.queue t.side.opposite i
  let totalDisplayed := ((q.takeWhile fun e => !blocks cfg t e).map Entry.displayed).sum % 2 ^ 64
  let stop := (q.find? fun e => blocks cfg t e).map Entry.slot
  if totalDisplayed = 0 then pure w else w.proRata cfg t i totalDisplayed stop

/-- Under pro rata a level is shared out first. -/
theorem level_eq (hmode : cfg.allocationMode = .thresholdProRata) :
    w.level cfg t i = w.proRataPart cfg t i >>= fun w => w.fifo cfg t i := by
  unfold level proRataPart
  rw [hmode]
  dsimp only
  split <;> rfl

/-- A level under pro-rata allocation and no self-trade policy: the pass over its queue, then the residue. -/
theorem level_pass (hmode : cfg.allocationMode = .thresholdProRata) (hpolicy : cfg.selfTradePolicy = .none) (hw : w.ladder.Wf cfg)
    (hrem : w.remaining < 2 ^ 64) :
    ∃ w₁ w', (w.proRataPart cfg t i).Returns w₁ ∧ (w₁.fifo cfg t i).Returns w' ∧ (w.level cfg t i).Returns w' ∧
      AtLevel cfg t i w w₁ ∧ AtLevel cfg t i w w' ∧
      Pass (Maker.share cfg.proRataMinimum (w.ladder.makers t.side.opposite i) w.remaining) [] (w.ladder.queue t.side.opposite i)
        w.remaining (w₁.ladder.queue t.side.opposite i) w₁.remaining ∧
      w'.remaining + min w₁.remaining (w₁.ladder.total t.side.opposite i) = w₁.remaining ∧
      w'.ladder.total t.side.opposite i + min w₁.remaining (w₁.ladder.total t.side.opposite i) =
        w₁.ladder.total t.side.opposite i := by
  have hblocks : ∀ e, blocks cfg t e = false := fun e => by simp [blocks, hpolicy]
  have htotal : ((w.ladder.queue t.side.opposite i).takeWhile fun e => !blocks cfg t e).map Entry.displayed =
      (w.ladder.makers t.side.opposite i).map Maker.displayed := by
    rw [List.takeWhile_eq_self_iff.mpr fun e _ => by simp [hblocks], Ladder.makers, List.map_map]
    rfl
  have hstop : ((w.ladder.queue t.side.opposite i).find? fun e => blocks cfg t e) = none :=
    List.find?_eq_none.mpr fun e _ => by simp [hblocks]
  obtain ⟨w₁, hpart, hat, hpass⟩ : ∃ w₁, (w.proRataPart cfg t i).Returns w₁ ∧ AtLevel cfg t i w w₁ ∧
      Pass (Maker.share cfg.proRataMinimum (w.ladder.makers t.side.opposite i) w.remaining) [] (w.ladder.queue t.side.opposite i)
        w.remaining (w₁.ladder.queue t.side.opposite i) w₁.remaining := by
    unfold proRataPart
    dsimp only
    rw [htotal, hstop]
    by_cases hz : Maker.displayedTotal (w.ladder.makers t.side.opposite i) % 2 ^ 64 = 0
    · refine ⟨w, ?_, AtLevel.refl hw, Pass.of_zero hrem fun e _ => ?_⟩
      · rw [Maker.displayedTotal] at hz
        rw [if_pos hz]
        exact (returns_pure _ _).mpr rfl
      · unfold Maker.share Execution.proRataShare
        rw [hz]
        simp
    · obtain ⟨w₁, hret, hat, hpass⟩ := proRata_pass (t := t) (i := i)
        (Maker.share cfg.proRataMinimum (w.ladder.makers t.side.opposite i) w.remaining) (fun _ => rfl) hw hrem
      refine ⟨w₁, ?_, hat, hpass⟩
      rw [Maker.displayedTotal] at hz hret
      rw [if_neg hz]
      exact hret
  obtain ⟨hlt, -⟩ := hpass.conserves (Maker.share_le _ _ _) hrem
  obtain ⟨w', hfifo, hat', h1, h2⟩ := fifo_takes (t := t) (i := i) hpolicy hat.wf hlt
  refine ⟨w₁, w', hpart, hfifo, ?_, hat, hat.trans hat', hpass, h1, h2⟩
  rw [level_eq hmode]
  exact (returns_bind _ _ _).mpr ⟨w₁, hpart, hfifo⟩

/-- The makers of a level have its total. -/
theorem total_makers (L : Ladder) (side : Side) (j : Nat) : Maker.total (L.makers side j) = L.total side j := by
  rw [Maker.total, Ladder.makers, List.map_map]
  rfl

/-- A level with the condition takes all it can from the taker. -/
theorem level_takes (hmode : cfg.allocationMode = .thresholdProRata) (hpolicy : cfg.selfTradePolicy = .none) (hw : w.ladder.Wf cfg)
    (hrem : w.remaining < 2 ^ 64) (honce : Maker.SharedOnce cfg.proRataMinimum (w.ladder.makers t.side.opposite i) w.remaining) :
    ∃ w', (w.level cfg t i).Returns w' ∧ AtLevel cfg t i w w' ∧
      w'.remaining + min w.remaining (w.ladder.total t.side.opposite i) = w.remaining ∧
      w'.ladder.total t.side.opposite i + min w.remaining (w.ladder.total t.side.opposite i) = w.ladder.total t.side.opposite i := by
  obtain ⟨w₁, w', -, -, hret, -, hat, hpass, h1, h2⟩ := level_pass (t := t) (i := i) hmode hpolicy hw hrem
  obtain ⟨hall, -⟩ := (hpass.fair_iff (Maker.share_le _ _ _) (hw.queue_nodup _ _) (Maker.fairShare_le _ _ _) hrem).mpr honce
  have htot : w₁.remaining + w.ladder.total t.side.opposite i = w.remaining + w₁.ladder.total t.side.opposite i := hall
  exact ⟨w', hret, hat, by omega, by omega⟩

/-- The levels a taker can reach, best first. -/
def reached (cfg : BookConfig) (t : Taker) (L : Ladder) : List Nat :=
  (L.occupied cfg t.side.opposite).takeWhile fun i => !t.limit.any fun limit => !crosses t.side i limit

/-- The levels in reach once the first of them is empty. -/
theorem reached_tail {L L' : Ladder} {levels : List Nat} (hreach : reached cfg t L = i :: levels)
    (hempty : L'.queue t.side.opposite i = []) (hsame : ∀ j, j ≠ i → L'.queue t.side.opposite j = L.queue t.side.opposite j) :
    reached cfg t L' = levels := by
  have hpair : (L.occupied cfg t.side.opposite).Pairwise _ := Ladder.occupied_pairwise t.side.opposite
  obtain ⟨rest, hocc⟩ : ∃ rest, L.occupied cfg t.side.opposite = i :: rest := by
    unfold reached at hreach
    cases hocc : L.occupied cfg t.side.opposite with
    | nil => simp [hocc] at hreach
    | cons j rest =>
      rw [hocc, List.takeWhile_cons] at hreach
      split at hreach
      · exact ⟨rest, by rw [(List.cons.inj hreach).1]⟩
      · cases hreach
  rw [hocc, List.pairwise_cons] at hpair
  have hrest : L'.occupied cfg t.side.opposite = rest := by
    have hfilter : L'.occupied cfg t.side.opposite = (L.occupied cfg t.side.opposite).filter fun j => j ≠ i := by
      unfold Ladder.occupied
      rw [List.filter_filter]
      refine List.filter_congr fun j _ => ?_
      by_cases hj : j = i
      · simp [hj, hempty]
      · simp [hj, hsame j hj]
    rw [hfilter, hocc, List.filter_cons, if_neg (by simp), List.filter_eq_self]
    intro j hj
    have hne : j ≠ i := fun heq => betterLevel_irrefl t.side.opposite i (heq ▸ hpair.1 j hj)
    simpa using hne
  unfold reached at hreach ⊢
  rw [hocc, List.takeWhile_cons] at hreach
  rw [hrest]
  split at hreach
  · exact (List.cons.inj hreach).2
  · cases hreach

/-- The best level in reach is the best level. -/
theorem best_of_reached {L : Ladder} {levels : List Nat} (hreach : reached cfg t L = i :: levels) :
    L.best cfg t.side.opposite = some i ∧ (t.limit.any fun limit => !crosses t.side i limit) = false := by
  unfold reached at hreach
  unfold Ladder.best
  cases hocc : L.occupied cfg t.side.opposite with
  | nil => simp [hocc] at hreach
  | cons j rest =>
    rw [hocc, List.takeWhile_cons] at hreach
    split at hreach
    · rename_i hlim
      obtain ⟨rfl, -⟩ := List.cons.inj hreach
      exact ⟨rfl, by simpa using hlim⟩
    · cases hreach

/-- No level in reach: the round is the last. -/
theorem round_of_reached_nil (hreach : reached cfg t w.ladder = []) : (w.round cfg t).Returns (.done w) := by
  unfold round
  split
  · exact (returns_pure _ _).mpr rfl
  · unfold reached at hreach
    unfold Ladder.best
    cases hocc : w.ladder.occupied cfg t.side.opposite with
    | nil => exact (returns_pure _ _).mpr rfl
    | cons j rest =>
      rw [hocc, List.takeWhile_cons] at hreach
      split at hreach
      · cases hreach
      · rename_i hlim
        dsimp only [List.head?_cons]
        rw [if_pos (by simpa using hlim)]
        exact (returns_pure _ _).mpr rfl

/-- A taker that meets the condition at every level it gets to takes all it can, and no more than it asks for: where it has
something left the level is used up, and it goes on to the next. -/
theorem run_takes (hmode : cfg.allocationMode = .thresholdProRata) (hpolicy : cfg.selfTradePolicy = .none) {levels : List Nat}
    (hreach : reached cfg t w.ladder = levels) (hw : w.ladder.Wf cfg) (hrem : w.remaining < 2 ^ 64)
    (hshared : Maker.SharedReach cfg.proRataMinimum (w.ladder.makers t.side.opposite) levels w.remaining) :
    ∃ w', (w.run cfg t).Returns w' ∧
      w'.remaining + min w.remaining (levels.map (w.ladder.total t.side.opposite)).sum = w.remaining := by
  have hidle : ∀ v : Sweep, v.remaining = 0 → (v.run cfg t).Returns v := fun v hz =>
    (returns_loop _ _ _).mpr (Or.inl (by rw [round, if_pos hz]; exact (returns_pure _ _).mpr rfl))
  induction levels generalizing w with
  | nil => exact ⟨w, (returns_loop _ _ _).mpr (Or.inl (round_of_reached_nil hreach)), by simp⟩
  | cons i levels ih =>
    by_cases hz : w.remaining = 0
    · exact ⟨w, hidle w hz, by rw [hz]; simp⟩
    · obtain ⟨hbest, hlim⟩ := best_of_reached hreach
      obtain ⟨honce, hnext⟩ := hshared
      obtain ⟨w₁, hret, hat, h1, h2⟩ := level_takes (t := t) (i := i) hmode hpolicy hw hrem honce
      have hround : (w.round cfg t).Returns (.next w₁) := by
        unfold round
        rw [if_neg hz, hbest]
        dsimp only
        rw [hlim, if_neg Bool.false_ne_true]
        exact (returns_bind _ _ _).mpr ⟨w₁, hret, (returns_pure _ _).mpr rfl⟩
      rw [List.map_cons, List.sum_cons]
      rcases Nat.lt_or_ge (w.ladder.total t.side.opposite i) w.remaining with hlt | hge
      · have hzero : w₁.ladder.total t.side.opposite i = 0 := by omega
        have hempty : w₁.ladder.queue t.side.opposite i = [] := by
          rw [Ladder.total] at hzero
          cases hq : w₁.ladder.queue t.side.opposite i with
          | nil => rfl
          | cons e r =>
            have := e.displayed_pos
            have := e.displayed_le_remaining
            rw [hq, List.map_cons, List.sum_cons] at hzero
            omega
        have hsame : ∀ j, j ≠ i → w₁.ladder.queue t.side.opposite j = w.ladder.queue t.side.opposite j := fun j hj =>
          hat.others _ j fun h => hj h.2
        have hreach₁ := reached_tail hreach hempty hsame
        have hnot : i ∉ levels := by
          rw [← hreach₁]
          intro hi
          have := (Ladder.mem_occupied.mp ((List.takeWhile_sublist _).subset hi)).2
          exact this hempty
        have htotals : levels.map (w₁.ladder.total t.side.opposite) = levels.map (w.ladder.total t.side.opposite) := by
          refine List.map_congr_left fun j hj => ?_
          rw [Ladder.total, Ladder.total, hsame j fun h => hnot (h ▸ hj)]
        rw [total_makers] at hnext
        have hshared₁ := hnext hlt
        have hmakers : ∀ j ∈ levels, w.ladder.makers t.side.opposite j = w₁.ladder.makers t.side.opposite j := fun j hj => by
          rw [Ladder.makers, Ladder.makers, hsame j fun h => hnot (h ▸ hj)]
        rw [show w.remaining - w.ladder.total t.side.opposite i = w₁.remaining by omega,
          Maker.sharedReach_congr hmakers] at hshared₁
        obtain ⟨w', hrun, hall⟩ := ih hreach₁ hat.wf (by omega) hshared₁
        refine ⟨w', (returns_loop _ _ _).mpr (Or.inr ⟨w₁, hround, hrun⟩), ?_⟩
        rw [htotals] at hall
        omega
      · have hdone : w₁.remaining = 0 := by omega
        exact ⟨w₁, (returns_loop _ _ _).mpr (Or.inr ⟨w₁, hround, hidle w₁ hdone⟩), by omega⟩

end Sweep

end MatchingEngine

import MatchingEngine.Lemmas.Takers

/-!
# What is ahead of a resting order

Under FIFO allocation a taker takes all that is ahead of an order before it takes of the order itself. Every execution lowers what is ahead
by its quantity, until the order is the first of the best level; so a taker comes to the order exactly if it wants more than was ahead.
-/

namespace MatchingEngine

open Comp Finset Function

namespace Ladder

variable {cfg : BookConfig} {L L' : Ladder} {side : Side} {i : Nat}

theorem crosses_opposite_iff {j : Nat} : crosses side.opposite j i = true ∧ j ≠ i ↔ betterLevel side j i := by
  cases side <;> simp only [Side.opposite, crosses, betterLevel, decide_eq_true_eq] <;> omega

/-- What a taker takes before it comes to an entry: all of the better levels, and the displayed slices ahead of it in its queue. -/
def ahead (cfg : BookConfig) (L : Ladder) (side : Side) (i : Nat) (before : List Entry) : Nat :=
  ∑ j ∈ (range cfg.domain.tickCount).filter (fun j => crosses side.opposite j i = true ∧ j ≠ i), L.total side j +
    (before.map Entry.displayed).sum

/-- What is ahead in two ladders with the same better levels differs as the two queues do. -/
theorem ahead_add (cfg : BookConfig) (before before' : List Entry) (h : ∀ j, betterLevel side j i → L'.total side j = L.total side j) :
    L'.ahead cfg side i before' + (before.map Entry.displayed).sum = L.ahead cfg side i before + (before'.map Entry.displayed).sum := by
  have hsum : ∑ j ∈ (range cfg.domain.tickCount).filter (fun j => crosses side.opposite j i = true ∧ j ≠ i), L'.total side j =
      ∑ j ∈ (range cfg.domain.tickCount).filter (fun j => crosses side.opposite j i = true ∧ j ≠ i), L.total side j :=
    sum_congr rfl fun j hj => h j (crosses_opposite_iff.mp (mem_filter.mp hj).2)
  rw [ahead, ahead, hsum]
  omega

/-- What is left in a slot is less than this, or nothing is. -/
structure Below (L : Ladder) (s k : Nat) : Prop where
  resting : ∀ side i, ∀ e ∈ L.queue side i, e.slot = s → e.remaining < k
  dormant : ∀ d ∈ L.stops, d.slot ≠ s
  held : ∀ d, L.held = some d → d.slot ≠ s

/-! ## Fills -/

section Filled

variable {l r : List Entry} {e : Entry} {q : Nat}

/-- The entries after a fill: those before but for the filled one, and what is left of it. -/
theorem Filled.mem_slot (hw : L.Wf cfg) (hq : L.queue side i = l ++ e :: r) (h : Filled L L' side i l r e q) {side' : Side} {j : Nat} {y : Entry}
    (hy : y ∈ L'.queue side' j) : y ∈ L.queue side' j ∧ y.slot ≠ e.slot ∨ y.slot = e.slot ∧ y.remaining = e.remaining - q := by
  have hne := hw.slot_ne_of_split hq
  have hkeep : y ∈ l ++ r → y ∈ L.queue side i ∧ y.slot ≠ e.slot := by
    intro hy
    rw [hq]
    rcases List.mem_append.mp hy with hy | hy
    · exact ⟨List.mem_append_left _ hy, hne.1 y hy⟩
    · exact ⟨List.mem_append_right _ (List.mem_cons_of_mem _ hy), hne.2 y hy⟩
  by_cases hc : side' = side ∧ j = i
  · obtain ⟨rfl, rfl⟩ := hc
    rcases h.queue_eq with ⟨hqueue, -⟩ | ⟨e', hrem, -, hslot, hqueue | hqueue⟩
    · exact Or.inl (hkeep (hqueue ▸ hy))
    · rw [hqueue] at hy
      rcases List.mem_append.mp hy with hy | hy
      · exact Or.inl (hkeep (List.mem_append_left _ hy))
      · rcases List.mem_cons.mp hy with rfl | hy
        · exact Or.inr ⟨hslot, hrem⟩
        · exact Or.inl (hkeep (List.mem_append_right _ hy))
    · rw [hqueue] at hy
      rcases List.mem_append.mp hy with hy | hy
      · exact Or.inl (hkeep hy)
      · rw [List.mem_singleton.mp hy]
        exact Or.inr ⟨hslot, hrem⟩
  · rw [h.queue_of_ne hc] at hy
    refine Or.inl ⟨hy, fun heq => hc ?_⟩
    have h1 := (hw.place_of_mem hy).2
    have h2 := (hw.place_of_mem (show e ∈ L.queue side i by rw [hq]; simp)).2
    rw [heq, h2] at h1
    cases h1
    exact ⟨rfl, rfl⟩

/-- Less is left of an entry that has been filled. -/
theorem Filled.below (hw : L.Wf cfg) (hq : L.queue side i = l ++ e :: r) (hpos : 0 < q) (h : Filled L L' side i l r e q) :
    L'.Below e.slot e.remaining := by
  have hplace := (hw.place_of_mem (e := e) (by rw [hq]; simp)).2
  refine ⟨fun side' j y hy heq => ?_, fun d hd heq => ?_, fun d hd heq => ?_⟩
  · rcases h.mem_slot hw hq hy with ⟨-, hne⟩ | ⟨-, hrem⟩
    · exact absurd heq hne
    · have := e.displayed_pos
      have := e.displayed_le_remaining
      omega
  · have := (hw.place_of_stop (h.stops ▸ hd)).2
    rw [heq, hplace] at this
    cases this
  · have := (hw.place_of_held (h.held ▸ hd)).2
    rw [heq, hplace] at this
    cases this

theorem Below.filled {s k : Nat} (hb : L.Below s k) (hw : L.Wf cfg) (hq : L.queue side i = l ++ e :: r) (h : Filled L L' side i l r e q) :
    L'.Below s k := by
  refine ⟨fun side' j y hy heq => ?_, fun d hd => hb.dormant d (h.stops ▸ hd), fun d hd => hb.held d (h.held ▸ hd)⟩
  rcases h.mem_slot hw hq hy with ⟨hy, -⟩ | ⟨hslot, hrem⟩
  · exact hb.resting _ _ y hy heq
  · have := hb.resting side i e (by rw [hq]; simp) (hslot.symm.trans heq)
    omega

/-- A fill takes its quantity from any levels that have its own among them. -/
theorem Filled.sum_add (h : Filled L L' side i l r e q) (hq : L.queue side i = l ++ e :: r) {levels : Finset Nat} (hi : i ∈ levels) :
    ∑ j ∈ levels, L'.total side j + q = ∑ j ∈ levels, L.total side j := by
  have hothers : ∀ j ∈ levels.erase i, L'.total side j = L.total side j :=
    fun j hj => h.total_of_ne fun hc => (mem_erase.mp hj).1 hc.2
  rw [← add_sum_erase _ _ hi, ← add_sum_erase _ (fun j => L.total side j) hi, sum_congr rfl hothers, ← h.total_add hq, Nat.add_right_comm]

end Filled

end Ladder

/-! ## Takers -/

namespace Sweep

open Ladder

variable {cfg : BookConfig} {t : Taker} {L : Ladder} {w : Sweep} {i j q quantity : Nat} {l r : List Entry} {e x : Entry}

/-- One execution, for an entry that has not been reached: it is the entry's, and then nothing was ahead, or what is ahead falls by its
quantity. -/
theorem Step.ahead (hfifo : cfg.allocationMode = .fifo) (hw : w.ladder.Wf cfg) (hs : Step cfg t w j x q)
    (hq : w.ladder.queue t.side.opposite i = l ++ e :: r) :
    (j = i ∧ x = e ∧ w.ladder.ahead cfg t.side.opposite i l = 0) ∨
      ∃ l' r', (w.exec cfg t j x q).ladder.queue t.side.opposite i = l' ++ e :: r' ∧
        (w.exec cfg t j x q).ladder.ahead cfg t.side.opposite i l' + q = w.ladder.ahead cfg t.side.opposite i l := by
  obtain ⟨l0, r0, hq0, hnil, hf⟩ := hs.filled hw
  obtain rfl := hnil hfifo
  by_cases hj : j = i
  · subst hj
    have hsame : ∀ k, betterLevel t.side.opposite k j →
        (w.exec cfg t j x q).ladder.total t.side.opposite k = w.ladder.total t.side.opposite k :=
      fun k hk => hf.total_of_ne fun hc => betterLevel_irrefl _ _ (hc.2 ▸ hk)
    rw [hq, List.nil_append] at hq0
    cases l with
    | nil =>
      obtain ⟨rfl, rfl⟩ := List.cons.inj hq0
      refine Or.inl ⟨rfl, rfl, ?_⟩
      rw [Ladder.ahead, List.map_nil, List.sum_nil, Nat.add_zero]
      refine sum_eq_zero fun k hk => ?_
      rw [Ladder.total, hs.top k (crosses_opposite_iff.mp (mem_filter.mp hk).2)]
      rfl
    | cons y l =>
      obtain ⟨rfl, rfl⟩ := List.cons.inj hq0
      refine Or.inr ?_
      rcases hf.cases with ⟨e', ⟨hqueue, hlt, hdisplayed⟩ | ⟨hqueue, rfl, -⟩, -⟩ | ⟨hqueue, rfl, -⟩
      · refine ⟨e' :: l, r, by rw [hqueue, setQueue_queue, if_pos ⟨rfl, rfl⟩]; rfl, ?_⟩
        have hahead := ahead_add cfg (y :: l) (e' :: l) hsame
        simp only [List.map_cons, List.sum_cons] at hahead
        omega
      · refine ⟨l, r ++ [e'], by rw [hqueue, setQueue_queue, if_pos ⟨rfl, rfl⟩]; simp, ?_⟩
        have hahead := ahead_add cfg (y :: l) l hsame
        simp only [List.map_cons, List.sum_cons] at hahead
        omega
      · refine ⟨l, r, by rw [hqueue, setQueue_queue, if_pos ⟨rfl, rfl⟩]; rfl, ?_⟩
        have hahead := ahead_add cfg (y :: l) l hsame
        simp only [List.map_cons, List.sum_cons] at hahead
        omega
  · have hbetter : betterLevel t.side.opposite j i := by
      have hnot : ¬betterLevel t.side.opposite i j := fun hb => by
        have := hs.top i hb
        rw [hq] at this
        simp at this
      cases hside : t.side <;> rw [hside] at hnot <;> simp only [Side.opposite, betterLevel] at hnot ⊢ <;> omega
    have hmem : j ∈ (range cfg.domain.tickCount).filter (fun k => crosses t.side.opposite.opposite k i = true ∧ k ≠ i) :=
      mem_filter.mpr ⟨mem_range.mpr (hw.level_lt hs.mem), crosses_opposite_iff.mpr hbetter⟩
    refine Or.inr ⟨l, r, by rw [hf.queue_of_ne fun hc => hj hc.2.symm, hq], ?_⟩
    rw [Ladder.ahead, Ladder.ahead, Nat.add_right_comm, hf.sum_add hq0 hmem]

/-- A taker wants more than is ahead of an entry, and its limit lets it come there. -/
def Comes (cfg : BookConfig) (t : Taker) (L : Ladder) (quantity i : Nat) (before : List Entry) : Prop :=
  (∀ limit, t.limit = some limit → crosses t.side i limit = true) ∧ L.ahead cfg t.side.opposite i before < quantity

/-- How far a taker has got on its way to an entry: it has not come to it yet, or it has taken of it. -/
def Approaches (cfg : BookConfig) (t : Taker) (L : Ladder) (quantity i : Nat) (before : List Entry) (e : Entry) (w : Sweep) : Prop :=
  w.remaining ≤ quantity ∧
    ((∃ l r, w.ladder.queue t.side.opposite i = l ++ e :: r ∧
        w.ladder.ahead cfg t.side.opposite i l + quantity = L.ahead cfg t.side.opposite i before + w.remaining) ∨
      Comes cfg t L quantity i before ∧ w.ladder.Below e.slot e.remaining)

theorem Approaches.exec (hfifo : cfg.allocationMode = .fifo) (hlt : quantity < 2 ^ 64) (hw : w.ladder.Wf cfg)
    (h : Approaches cfg t L quantity i l e w) (hs : Step cfg t w j x q) : Approaches cfg t L quantity i l e (w.exec cfg t j x q) := by
  obtain ⟨hle, h⟩ := h
  have hq : q = min w.remaining x.displayed := hs.whole hfifo
  have hrem : (w.exec cfg t j x q).remaining = w.remaining - q := sub64_eq (by omega) (by omega)
  obtain ⟨l0, r0, hq0, -, hf⟩ := hs.filled hw
  refine ⟨by omega, ?_⟩
  rcases h with ⟨l', r', hqueue, hahead⟩ | ⟨hcomes, hbelow⟩
  · rcases hs.ahead hfifo hw hqueue with ⟨rfl, rfl, hzero⟩ | ⟨l'', r'', hqueue', hahead'⟩
    · have hbusy := hs.busy
      exact Or.inr ⟨⟨hs.inLimit, by omega⟩, hf.below hw hq0 hs.pos⟩
    · exact Or.inl ⟨l'', r'', hqueue', by omega⟩
  · exact Or.inr ⟨hcomes, hbelow.filled hw hq0 hf⟩

/-- Under FIFO allocation and no self-trade policy a taker comes to an entry exactly if it wants more than is ahead of it. A taker that has
something left has emptied every level in its limit. -/
theorem run_comes (hfifo : cfg.allocationMode = .fifo) (hlt : quantity < 2 ^ 64) (hw : L.Wf cfg)
    (hq : L.queue t.side.opposite i = l ++ e :: r) (h : (Sweep.run cfg t ⟨L, quantity, []⟩).Returns w) :
    ¬Comes cfg t L quantity i l ∧ (∃ l' r', w.ladder.queue t.side.opposite i = l' ++ e :: r') ∨
      Comes cfg t L quantity i l ∧ w.ladder.Below e.slot e.remaining := by
  obtain ⟨hw', ⟨-, happ⟩, hend⟩ := run_invariant (I := Approaches cfg t L quantity i l e) (w := ⟨L, quantity, []⟩)
    (fun _ _ _ _ hw happ hs => happ.exec hfifo hlt hw hs) hw ⟨Nat.le_refl _, Or.inl ⟨l, r, hq, rfl⟩⟩ h
  rcases happ with ⟨l', r', hqueue, hahead⟩ | hcame
  · refine Or.inl ⟨fun ⟨hlimit, hshort⟩ => ?_, l', r', hqueue⟩
    have hrem : w.remaining ≠ 0 := by omega
    have hne : w.ladder.queue t.side.opposite i ≠ [] := by rw [hqueue]; simp
    obtain ⟨best, hbest⟩ := hw'.best_isSome hne
    obtain ⟨limit, hl, -⟩ := hend.resolve_left hrem best hbest
    have hnot := run_clear hw h hrem hl hne
    rw [hlimit limit hl] at hnot
    cases hnot
  · exact Or.inr hcame

end Sweep

/-! ## Activations -/

namespace Ladder

variable {cfg : BookConfig} {L L' : Ladder} {side : Side} {i : Nat} {l r : List Entry} {e : Entry} {d : Dormant} {sl sr : List Dormant}
  {w : Sweep} {result : SubmitResult}

/-- A stop that is activated comes to an entry of the other side. -/
def StopComes (cfg : BookConfig) (L : Ladder) (d : Dormant) (side : Side) (i : Nat) (before : List Entry) : Prop :=
  d.side = side.opposite ∧ (∀ limit, (d.taker cfg).limit = some limit → crosses d.side i limit = true) ∧
    L.ahead cfg side i before < d.remaining

/-- The rest of a stop's taker leaves the entries where they are. -/
theorem finish_mem (handle : Handle) (limit : Option Nat) (remaining : Nat) (hq : L.queue side i = l ++ e :: r) :
    ∃ l' r', (L.finish handle d limit remaining).2.queue side i = l' ++ e :: r' := by
  unfold finish settle dropHeld
  split
  · split
    · split
      · dsimp only
        rw [setQueue_queue]
        split
        · rename_i hc
          obtain ⟨rfl, rfl⟩ := hc
          exact ⟨l, r ++ [_], by rw [hq, List.append_assoc, List.cons_append]⟩
        · exact ⟨l, r, hq⟩
      · exact ⟨l, r, hq⟩
    · exact ⟨l, r, hq⟩
  · exact ⟨l, r, hq⟩

/-- The rest of a stop's taker puts nothing into another slot. -/
theorem Below.finish {s k : Nat} (hb : L.Below s k) (handle : Handle) (limit : Option Nat) (remaining : Nat) (hne : d.slot ≠ s) :
    (L.finish handle d limit remaining).2.Below s k := by
  have hdrop : (L.dropHeld d).Below s k := ⟨hb.resting, hb.dormant, by rintro _ ⟨⟩⟩
  unfold Ladder.finish
  split
  · split
    · unfold Ladder.settle
      split
      · refine ⟨fun side' j' y hy heq => ?_, hb.dormant, by rintro _ ⟨⟩⟩
        dsimp only at hy
        rw [setQueue_queue] at hy
        split at hy
        · rename_i hc
          obtain ⟨rfl, rfl⟩ := hc
          rcases List.mem_append.mp hy with hy | hy
          · exact hb.resting _ _ y hy heq
          · rw [List.mem_singleton.mp hy] at heq
            exact absurd heq hne
        · exact hb.resting _ _ y hy heq
      · exact hb
    · exact hdrop
  · exact hdrop

/-- What is left in a slot only falls when a stop is activated. -/
theorem Activated.keeps_below (hw : L.Wf cfg) (hnone : L.held = none) (hs : L.stops = sl ++ d :: sr)
    (h : Activated cfg L d (sl ++ sr) w result L') {s k : Nat} (hb : L.Below s k) : L'.Below s k := by
  have hne : d.slot ≠ s := hb.dormant d (by rw [hs]; simp)
  have hhold : (L.hold d (sl ++ sr)).Below s k := by
    refine ⟨hb.resting, fun x hx => hb.dormant x ?_, fun x hx => ?_⟩
    · rw [hs]
      rcases List.mem_append.mp hx with hx | hx
      · exact List.mem_append_left _ hx
      · exact List.mem_append_right _ (List.mem_cons_of_mem _ hx)
    · obtain rfl : d = x := Option.some.inj hx
      exact hne
  obtain ⟨-, hrun, -⟩ := Sweep.run_invariant (I := fun w => w.ladder.Below s k)
    (fun w i e q hw hb hs => by
      obtain ⟨l, r, hq, -, hf⟩ := hs.filled hw
      exact hb.filled hw hq hf) (hw.hold hs hnone) hhold h.run
  have hend := hrun.finish (L.handleAt d.slot) (d.taker cfg).limit w.remaining hne
  rw [h.ladder]
  exact ⟨hend.resting, hend.dormant, hend.held⟩

/-- An activation under FIFO allocation leaves an entry as it is, or comes to it, and then less of it is left. -/
theorem Activated.comes (hfifo : cfg.allocationMode = .fifo) (hw : L.Wf cfg) (hnone : L.held = none) (hs : L.stops = sl ++ d :: sr)
    (h : Activated cfg L d (sl ++ sr) w result L') (hq : L.queue side i = l ++ e :: r) :
    ¬StopComes cfg L d side i l ∧ (∃ l' r', L'.queue side i = l' ++ e :: r') ∨
      StopComes cfg L d side i l ∧ L'.Below e.slot e.remaining := by
  have hhold := hw.hold hs hnone
  have hkeep : (∃ l' r', w.ladder.queue side i = l' ++ e :: r') → ∃ l' r', L'.queue side i = l' ++ e :: r' := by
    rintro ⟨l', r', hq'⟩
    rw [h.ladder]
    exact finish_mem _ _ _ hq'
  by_cases hside : d.side = side.opposite
  · have hopp : side = (d.taker cfg).side.opposite := by
      rw [Dormant.taker, hside]
      cases side <;> rfl
    subst hopp
    rcases Sweep.run_comes hfifo d.remaining_lt hhold (show (L.hold d (sl ++ sr)).queue _ i = l ++ e :: r from hq) h.run with
      ⟨hnot, hqueue⟩ | ⟨hcomes, hbelow⟩
    · exact Or.inl ⟨fun hc => hnot ⟨hc.2.1, hc.2.2⟩, hkeep hqueue⟩
    · refine Or.inr ⟨⟨hside, hcomes.1, hcomes.2⟩, ?_⟩
      have hheld := (Sweep.run_kept hhold h.run).held
      have hend := hbelow.finish (L.handleAt d.slot) (d.taker cfg).limit w.remaining (hbelow.held d hheld)
      rw [h.ladder]
      exact ⟨hend.resting, hend.dormant, hend.held⟩
  · refine Or.inl ⟨fun hc => hside hc.1, hkeep ⟨l, r, ?_⟩⟩
    have hown : side = (d.taker cfg).side := by
      change side = d.side
      cases side <;> cases hd : d.side <;> first | rfl | exact absurd hd hside
    rw [hown, (Sweep.run_sides hhold h.run).1, ← hown]
    exact hq

end Ladder

end MatchingEngine

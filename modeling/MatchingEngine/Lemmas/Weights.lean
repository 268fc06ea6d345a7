import MatchingEngine.Ledger
import MatchingEngine.Lemmas.Handles
import MatchingEngine.Lemmas.Takers

/-!
# Weights

The sum of a weight over all orders of a ladder, where an order weighs by its id and by what it has left, and what each change of the
ladder does to it. With what is left as the weight this is the open quantity, with the indicator of an id it is what one order has left
or how often there is an order of the id.
-/

namespace MatchingEngine

open Comp Function Finset

namespace Ladder

/-- The weight of a queue. -/
def queueWeight (f : Nat → Nat → Nat) (q : List Entry) : Nat := (q.map fun e => f e.id e.remaining).sum

/-- The weight of a list of stops. -/
def stopsWeight (f : Nat → Nat → Nat) (stops : List Dormant) : Nat := (stops.map fun d => f d.id d.remaining).sum

/-- The weight of all orders. -/
def weigh (cfg : BookConfig) (L : Ladder) (f : Nat → Nat → Nat) : Nat :=
  ∑ i ∈ range cfg.domain.tickCount, queueWeight f (L.queue .buy i) + ∑ i ∈ range cfg.domain.tickCount, queueWeight f (L.queue .sell i) +
    stopsWeight f L.stops + stopsWeight f L.held.toList

variable {cfg : BookConfig} {L L' : Ladder} {f : Nat → Nat → Nat}

@[simp] theorem queueWeight_nil : queueWeight f [] = 0 := rfl

/-- A queue weighs its head and what is behind it. -/
@[simp] theorem queueWeight_cons (e : Entry) (q : List Entry) : queueWeight f (e :: q) = f e.id e.remaining + queueWeight f q := rfl

@[simp] theorem queueWeight_append (q q' : List Entry) : queueWeight f (q ++ q') = queueWeight f q + queueWeight f q' := by
  simp [queueWeight]

@[simp] theorem stopsWeight_nil : stopsWeight f [] = 0 := rfl

/-- Stops weigh the first and those behind it. -/
@[simp] theorem stopsWeight_cons (d : Dormant) (stops : List Dormant) :
    stopsWeight f (d :: stops) = f d.id d.remaining + stopsWeight f stops := rfl

@[simp] theorem stopsWeight_append (stops stops' : List Dormant) :
    stopsWeight f (stops ++ stops') = stopsWeight f stops + stopsWeight f stops' := by
  simp [stopsWeight]

/-- A ladder weighs its queues, its stops and the stop it holds. -/
theorem weigh_congr (hqueue : L'.queue = L.queue) (hstops : L'.stops = L.stops) (hheld : L'.held = L.held) :
    L'.weigh cfg f = L.weigh cfg f := by
  simp only [weigh, hqueue, hstops, hheld]

/-- A sum in which one term changes. -/
theorem sum_change {g g' : Nat → Nat} {n i : Nat} (hi : i < n) (hne : ∀ j, j ≠ i → g' j = g j) :
    ∑ j ∈ range n, g' j + g i = ∑ j ∈ range n, g j + g' i := by
  have hmem : i ∈ range n := mem_range.mpr hi
  have hothers : ∑ j ∈ (range n).erase i, g' j = ∑ j ∈ (range n).erase i, g j :=
    sum_congr rfl fun j hj => hne j (mem_erase.mp hj).1
  rw [← add_sum_erase _ g' hmem, ← add_sum_erase _ g hmem, hothers]
  omega

/-- A level gets another queue, and the stops change. -/
theorem weigh_level {side : Side} {i : Nat} {q : List Entry} (hi : i < cfg.domain.tickCount)
    (hqueue : L'.queue = (L.setQueue side i q).queue) :
    L'.weigh cfg f + queueWeight f (L.queue side i) + stopsWeight f L.stops + stopsWeight f L.held.toList =
      L.weigh cfg f + queueWeight f q + stopsWeight f L'.stops + stopsWeight f L'.held.toList := by
  have hat : queueWeight f (L'.queue side i) = queueWeight f q := by rw [hqueue, setQueue_queue, if_pos ⟨rfl, rfl⟩]
  have hsame : ∀ j, j ≠ i → queueWeight f (L'.queue side j) = queueWeight f (L.queue side j) := fun j hj => by
    rw [hqueue, setQueue_queue, if_neg fun hc => hj hc.2]
  have hother : ∀ j, queueWeight f (L'.queue side.opposite j) = queueWeight f (L.queue side.opposite j) := fun j => by
    rw [hqueue, setQueue_queue, if_neg fun hc => Side.opposite_ne side hc.1]
  have hsum := sum_change hi hsame
  have hsum' := sum_congr (rfl : range cfg.domain.tickCount = _) fun j _ => hother j
  unfold weigh
  cases side with
  | buy =>
    simp only [Side.opposite] at hsum'
    omega
  | sell =>
    simp only [Side.opposite] at hsum'
    omega

/-- A fill takes its quantity from its entry. -/
theorem Filled.weigh_add {side : Side} {i q : Nat} {l r : List Entry} {e : Entry} (h : Filled L L' side i l r e q) (hw : L.Wf cfg)
    (hq : L.queue side i = l ++ e :: r) (hzero : ∀ id, f id 0 = 0) :
    L'.weigh cfg f + f e.id e.remaining = L.weigh cfg f + f e.id (e.remaining - q) := by
  have hi : i < cfg.domain.tickCount := hw.queue_lt (by rw [hq]; simp : L.queue side i ≠ [])
  rcases h.cases with ⟨e', hqueue, hlt, -, hslot, hid, -, -, -, hrem⟩ | ⟨hqueue, -, hrem, -⟩
  · rcases hqueue with ⟨hqueue, -⟩ | ⟨hqueue, -⟩
    · have := weigh_level (f := f) hi hqueue
      simp only [hq, h.stops, h.held, queueWeight_append, queueWeight_cons, hid, hrem] at this
      omega
    · have := weigh_level (f := f) hi hqueue
      simp only [hq, h.stops, h.held, queueWeight_append, queueWeight_cons, queueWeight_nil, hid, hrem] at this
      omega
  · have := weigh_level (f := f) hi hqueue
    simp only [hq, h.stops, h.held, queueWeight_append, queueWeight_cons] at this
    rw [hrem, Nat.sub_self, hzero]
    omega

/-- A removal takes an entry away. -/
theorem weigh_remove {side : Side} {i : Nat} {l r : List Entry} {e : Entry} (hw : L.Wf cfg) (hq : L.queue side i = l ++ e :: r) :
    (L.remove side i e.slot).weigh cfg f + f e.id e.remaining = L.weigh cfg f := by
  have hi : i < cfg.domain.tickCount := hw.queue_lt (by rw [hq]; simp : L.queue side i ≠ [])
  rw [remove_eq hq (hw.slot_ne_of_split hq).1]
  have := @weigh_level cfg L ((L.setQueue side i (l ++ r)).release e.slot) f side i (l ++ r) hi rfl
  simp only [hq, release, setQueue, queueWeight_append, queueWeight_cons] at this ⊢
  omega

/-- An amendment of an entry. -/
theorem weigh_amendEntry {side : Side} {i n : Nat} {l r : List Entry} {e : Entry} (hw : L.Wf cfg) (hq : L.queue side i = l ++ e :: r)
    (hpos : 0 < n) (hle : n ≤ e.remaining) :
    (L.amendEntry side i e.slot n).weigh cfg f + f e.id e.remaining = L.weigh cfg f + f e.id n := by
  have hi : i < cfg.domain.tickCount := hw.queue_lt (by rw [hq]; simp : L.queue side i ≠ [])
  obtain ⟨hl, hr⟩ := hw.slot_ne_of_split hq
  have hkeep : ∀ l : List Entry, (∀ x ∈ l, x.slot ≠ e.slot) → (l.map fun x => if x.slot = e.slot then x.amend n else x) = l := fun l hl =>
    (List.map_congr_left fun x hx => if_neg (hl x hx)).trans (List.map_id l)
  have hqueue : (L.amendEntry side i e.slot n).queue = (L.setQueue side i (l ++ e.amend n :: r)).queue := by
    unfold amendEntry
    rw [hq, List.map_append, List.map_cons, hkeep l hl, hkeep r hr, if_pos rfl]
  have := weigh_level (f := f) hi hqueue
  obtain ⟨-, hid, -, -, -, hrem, -⟩ := Entry.amend_eq hpos hle
  simp only [hq, amendEntry, setQueue, queueWeight_append, queueWeight_cons, hid, hrem] at this ⊢
  omega

/-- A stop leaves the list. -/
theorem weigh_removeStop {l r : List Dormant} {d : Dormant} (hw : L.Wf cfg) (hs : L.stops = l ++ d :: r) :
    (L.removeStop d.slot).weigh cfg f + f d.id d.remaining = L.weigh cfg f := by
  rw [removeStop_eq hs (hw.stop_ne_of_split hs).1]
  simp only [weigh, release, hs, stopsWeight_append, stopsWeight_cons]
  omega

/-- An amendment of a stop. -/
theorem weigh_amendStop {n : Nat} {l r : List Dormant} {d : Dormant} (hw : L.Wf cfg) (hs : L.stops = l ++ d :: r)
    (hpos : 0 < n) (hle : n ≤ d.remaining) :
    (L.amendStop d.slot n).weigh cfg f + f d.id d.remaining = L.weigh cfg f + f d.id n := by
  obtain ⟨hl, hr⟩ := hw.stop_ne_of_split hs
  have hkeep : ∀ l : List Dormant, (∀ x ∈ l, x.slot ≠ d.slot) → (l.map fun x => if x.slot = d.slot then x.amend n else x) = l := fun l hl =>
    (List.map_congr_left fun x hx => if_neg (hl x hx)).trans (List.map_id l)
  obtain ⟨-, hid, -, -, -, -, hrem⟩ := Dormant.amend_eq hpos hle
  unfold amendStop
  rw [hs, List.map_append, List.map_cons, hkeep l hl, hkeep r hr, if_pos rfl]
  simp only [weigh, hs, stopsWeight_append, stopsWeight_cons, hid, hrem]
  omega

/-- A stop that is held still weighs. -/
theorem weigh_hold {l r : List Dormant} {d : Dormant} (hs : L.stops = l ++ d :: r) (hnone : L.held = none) :
    (L.hold d (l ++ r)).weigh cfg f = L.weigh cfg f := by
  simp only [weigh, hold, hs, hnone, Option.toList, stopsWeight_append, stopsWeight_cons, stopsWeight_nil]
  omega

/-- The held stop's remainder rests. -/
theorem weigh_settle {d : Dormant} {i remaining : Nat} (hheld : L.held = some d) (hi : i < cfg.domain.tickCount)
    (h : 0 < remaining ∧ remaining < 2 ^ 64) :
    (L.settle d i remaining).weigh cfg f + f d.id d.remaining = L.weigh cfg f + f d.id remaining := by
  unfold settle
  rw [dif_pos h]
  have := fun (e : Entry) (M : Ladder) (hM : M.queue = (L.setQueue d.side i (L.queue d.side i ++ [e])).queue) =>
    weigh_level (f := f) hi hM
  generalize hM : Ladder.mk _ _ _ _ _ _ _ _ _ _ _ = M
  have := this _ M (by rw [← hM])
  rw [← hM] at this ⊢
  simp only [setQueue, hheld, Option.toList, queueWeight_append, queueWeight_cons, queueWeight_nil, stopsWeight_cons, stopsWeight_nil] at this ⊢
  omega

/-- The held stop is dropped. -/
theorem weigh_dropHeld {d : Dormant} (hheld : L.held = some d) :
    (L.dropHeld d).weigh cfg f + f d.id d.remaining = L.weigh cfg f := by
  simp only [weigh, dropHeld, release, hheld, Option.toList, stopsWeight_cons, stopsWeight_nil]
  omega

/-- A stop falls asleep. -/
theorem Slept.weigh {id quantity : Nat} {side : Side} {trigger : Int} {limit : Option Int} {d : Dormant}
    (h : Slept L L' id side trigger limit quantity d) : L'.weigh cfg f = L.weigh cfg f + f id quantity := by
  obtain ⟨free, -, rfl⟩ := h.room
  simp only [Ladder.weigh, stopsWeight_append, stopsWeight_cons, stopsWeight_nil, h.id, h.remaining]
  omega

/-! ## Linear weights -/

/-- Each order counts for what it has left, `c` of its id for each unit. -/
def perUnit (c : Nat → Nat) (id remaining : Nat) : Nat := c id * remaining

/-- The weight of fills, by their makers. -/
def fillsWeight (c : Nat → Nat) (fills : List Fill) : Nat := (fills.map fun f => c f.makerId * f.quantity).sum

/-- The weight of reports: each counts for the orders on both sides. -/
def tradesWeight (c : Nat → Nat) (trades : List Trade) : Nat := (trades.map fun t => (c t.buyId + c t.sellId) * t.quantity).sum

/-- The weight of what activations left and did not rest. -/
def lostWeight (c : Nat → Nat) (activations : List StopActivation) : Nat := (activations.map fun a => c a.orderId * a.lost).sum

variable {c : Nat → Nat}

@[simp] theorem tradesWeight_nil : tradesWeight c [] = 0 := rfl

@[simp] theorem tradesWeight_append (trades trades' : List Trade) :
    tradesWeight c (trades ++ trades') = tradesWeight c trades + tradesWeight c trades' := by
  simp [tradesWeight]

/-- Without an activation nothing is lost. -/
@[simp] theorem lostWeight_nil : lostWeight c [] = 0 := rfl

@[simp] theorem lostWeight_append (activations activations' : List StopActivation) :
    lostWeight c (activations ++ activations') = lostWeight c activations + lostWeight c activations' := by
  simp [lostWeight]

@[simp] theorem lostWeight_singleton (a : StopActivation) : lostWeight c [a] = c a.orderId * a.lost := by
  simp [lostWeight]

@[simp] theorem perUnit_zero (id : Nat) : perUnit c id 0 = 0 := Nat.mul_zero _

/-- The reports of a taker count for the taker and for its makers. -/
theorem tradesWeight_reports (t : Taker) (fills : List Fill) :
    tradesWeight c (fills.map (t.report cfg)) = c t.id * (fills.map Fill.quantity).sum + fillsWeight c fills := by
  induction fills with
  | nil => rfl
  | cons f fills ih =>
    have hone : (c (t.report cfg f).buyId + c (t.report cfg f).sellId) * (t.report cfg f).quantity =
        c t.id * f.quantity + c f.makerId * f.quantity := by
      unfold Taker.report makeTrade
      split
      · exact Nat.add_mul _ _ _
      · rw [Nat.add_comm]
        exact Nat.add_mul _ _ _
    have hcons : tradesWeight c ((f :: fills).map (t.report cfg)) =
        (c (t.report cfg f).buyId + c (t.report cfg f).sellId) * (t.report cfg f).quantity + tradesWeight c (fills.map (t.report cfg)) := rfl
    rw [hcons, hone, ih, List.map_cons, List.sum_cons, Nat.mul_add]
    simp only [fillsWeight, List.map_cons, List.sum_cons]
    omega

/-- One more execution grows the fill of its maker, which is the only one, or is a new fill. -/
theorem recordFill_cases {fills : List Fill} {e : Entry} (i q : Nat) (h : (fills.map Fill.slot).Nodup) :
    (∃ l f r, fills = l ++ f :: r ∧ f.slot = e.slot ∧
      recordFill fills e i q = l ++ { f with quantity := add64 f.quantity q } :: r) ∨
    recordFill fills e i q = fills ++ [⟨e.slot, e.id, i, q⟩] := by
  unfold recordFill
  split
  · rename_i hany
    obtain ⟨f, hf, hslot⟩ := List.any_eq_true.mp hany
    have hslot : f.slot = e.slot := by simpa using hslot
    obtain ⟨l, r, rfl⟩ := List.append_of_mem hf
    rw [List.map_append, List.map_cons, List.nodup_append, List.nodup_cons] at h
    have hkeep : ∀ g : Fill, g.slot ≠ f.slot → (if g.slot = e.slot then { g with quantity := add64 g.quantity q } else g) = g :=
      fun g hg => if_neg fun heq => hg (heq.trans hslot.symm)
    have hl : l.map (fun g => if g.slot = e.slot then { g with quantity := add64 g.quantity q } else g) = l :=
      (List.map_congr_left fun g hg => hkeep g (h.2.2 _ (List.mem_map_of_mem hg) _ List.mem_cons_self)).trans (List.map_id l)
    have hr : r.map (fun g => if g.slot = e.slot then { g with quantity := add64 g.quantity q } else g) = r :=
      (List.map_congr_left fun g hg => hkeep g fun heq => h.2.1.1 (heq ▸ List.mem_map_of_mem hg)).trans (List.map_id r)
    refine Or.inl ⟨l, f, r, rfl, hslot, ?_⟩
    rw [List.map_append, List.map_cons, hl, hr, if_pos hslot]
  · exact Or.inr rfl

/-- One more execution counts for its maker. -/
theorem fillsWeight_recordFill {fills : List Fill} {e : Entry} {i q : Nat} (h : (fills.map Fill.slot).Nodup)
    (hlt : (fills.map Fill.quantity).sum + q < 2 ^ 64) (hid : ∀ f ∈ fills, f.slot = e.slot → f.makerId = e.id) :
    fillsWeight c (recordFill fills e i q) = fillsWeight c fills + c e.id * q := by
  rcases recordFill_cases i q h with ⟨l, f, r, rfl, hslot, hrec⟩ | hrec
  · have hmaker : f.makerId = e.id := hid f (by simp) hslot
    simp only [List.map_append, List.map_cons, List.sum_append, List.sum_cons] at hlt
    have hadd : add64 f.quantity q = f.quantity + q := add64_eq (by omega)
    rw [hrec]
    simp only [fillsWeight, List.map_append, List.map_cons, hadd, List.sum_append, List.sum_cons, hmaker, Nat.mul_add]
    omega
  · rw [hrec]
    simp [fillsWeight]

end Ladder

/-! ## Takers -/

namespace Ladder

variable {cfg : BookConfig} {L L' : Ladder}

/-- Two entries of one slot are one. -/
theorem Wf.entry_eq (hw : L.Wf cfg) {side side' : Side} {i i' : Nat} {e e' : Entry} (he : e ∈ L.queue side i) (he' : e' ∈ L.queue side' i')
    (hslot : e'.slot = e.slot) : e' = e := by
  have hp := (hw.place_of_mem he').2
  rw [hslot, (hw.place_of_mem he).2] at hp
  cases hp
  obtain ⟨l, r, hq⟩ := List.append_of_mem he
  have hne := hw.slot_ne_of_split hq
  rw [hq, List.mem_append, List.mem_cons] at he'
  rcases he' with hl | rfl | hr
  · exact absurd hslot (hne.1 e' hl)
  · rfl
  · exact absurd hslot (hne.2 e' hr)

end Ladder

namespace Sweep

open Ladder

variable {cfg : BookConfig} {t : Taker} {L : Ladder} {w : Sweep} {quantity : Nat} {c : Nat → Nat}

/-- A taker on its way: its fills count for what has gone from the makers. -/
structure Weighs (cfg : BookConfig) (c : Nat → Nat) (L : Ladder) (quantity : Nat) (w : Sweep) : Prop extends Spent quantity w where
  makers : ∀ f ∈ w.fills, ∀ side i, ∀ e ∈ w.ladder.queue side i, e.slot = f.slot → f.makerId = e.id
  weight : w.ladder.weigh cfg (perUnit c) + fillsWeight c w.fills = L.weigh cfg (perUnit c)

/-- One execution: an entry after it is one from before, or the executed one with less left. -/
theorem Weighs.exec (hfifo : cfg.allocationMode = .fifo) (hlt : quantity < 2 ^ 64) (hw : w.ladder.Wf cfg)
    (h : Weighs cfg c L quantity w) {i q : Nat} {e : Entry} (hs : Step cfg t w i e q) : Weighs cfg c L quantity (w.exec cfg t i e q) := by
  obtain ⟨hspent, hsum⟩ := h.toSpent.exec hfifo hlt hs
  obtain ⟨l, r, hqueue, -, hf⟩ := hs.filled hw
  have htaken := h.taken
  have hq : q = min w.remaining e.displayed := hs.whole hfifo
  have hdisp := e.displayed_le_remaining
  have hmaker : ∀ f ∈ w.fills, f.slot = e.slot → f.makerId = e.id := fun f hm heq => h.makers f hm _ _ e hs.mem heq.symm
  refine ⟨hspent, fun f hm side' i' x hx hslot => ?_, ?_⟩
  · have hx' : ∃ side'' i'', ∃ x' ∈ w.ladder.queue side'' i'', x'.slot = x.slot ∧ x'.id = x.id := by
      rcases hf.mem hqueue hx with hx | ⟨rfl, rfl, hshrink⟩
      · exact ⟨_, _, x, hx, rfl, rfl⟩
      · exact ⟨_, _, e, hs.mem, hshrink.slot.symm, hshrink.id.symm⟩
    obtain ⟨side'', i'', x', hx', hslot', hid'⟩ := hx'
    rw [← hid']
    rw [← hslot'] at hslot
    rcases recordFill_cases (e := e) i q h.slots with ⟨fl, g, fr, hfills, -, hrec⟩ | hrec
    · rw [show (w.exec cfg t i e q).fills = _ from hrec] at hm
      have hold : ∃ g' ∈ w.fills, g'.slot = f.slot ∧ g'.makerId = f.makerId := by
        rcases List.mem_append.mp hm with hm | hm
        · exact ⟨f, by rw [hfills]; exact List.mem_append_left _ hm, rfl, rfl⟩
        · rcases List.mem_cons.mp hm with rfl | hm
          · exact ⟨g, by rw [hfills]; simp, rfl, rfl⟩
          · exact ⟨f, by rw [hfills]; exact List.mem_append_right _ (List.mem_cons_of_mem _ hm), rfl, rfl⟩
      obtain ⟨g', hg', hs', hm'⟩ := hold
      rw [← hm']
      exact h.makers g' hg' _ _ x' hx' (hslot.trans hs'.symm)
    · rw [show (w.exec cfg t i e q).fills = _ from hrec] at hm
      rcases List.mem_append.mp hm with hm | hm
      · exact h.makers f hm _ _ x' hx' hslot
      · rw [List.mem_singleton] at hm
        subst hm
        rw [hw.entry_eq hs.mem hx' hslot]
  · have hweigh := hf.weigh_add (f := perUnit c) hw hqueue perUnit_zero
    have hfills : fillsWeight c (w.exec cfg t i e q).fills = fillsWeight c w.fills + c e.id * q :=
      fillsWeight_recordFill h.slots (by omega) hmaker
    have hsplit : perUnit c e.id e.remaining = perUnit c e.id (e.remaining - q) + c e.id * q := by
      rw [perUnit, perUnit, ← Nat.mul_add, Nat.sub_add_cancel (by omega)]
    have := h.weight
    omega

/-- What a taker takes from the ladder is what its reports say of the makers, and what it asked for is what they say of itself and what
it has left. -/
theorem run_weighs (hfifo : cfg.allocationMode = .fifo) (hlt : quantity < 2 ^ 64) (hw : L.Wf cfg)
    (h : (Sweep.run cfg t ⟨L, quantity, []⟩).Returns w) :
    w.ladder.weigh cfg (perUnit c) + tradesWeight c (w.fills.map (t.report cfg)) + c t.id * w.remaining =
      L.weigh cfg (perUnit c) + c t.id * quantity := by
  have hk := (run_invariant (I := Weighs cfg c L quantity) (w := ⟨L, quantity, []⟩)
    (fun _ _ _ _ hw hi hs => hi.exec hfifo hlt hw hs) hw ⟨⟨List.nodup_nil, Nat.zero_add _⟩, nofun, Nat.add_zero _⟩ h).2.1
  have hsplit : c t.id * quantity = c t.id * (w.fills.map Fill.quantity).sum + c t.id * w.remaining := by
    rw [← Nat.mul_add, hk.taken]
  have := hk.weight
  rw [tradesWeight_reports]
  omega

/-- A weight that grows with what an order has left does not grow as a taker matches. -/
theorem run_weigh_le {f : Nat → Nat → Nat} (hzero : ∀ id, f id 0 = 0) (hmono : ∀ id r r', r ≤ r' → f id r ≤ f id r') {w' : Sweep}
    (hw : w.ladder.Wf cfg) (h : (w.run cfg t).Returns w') : w'.ladder.weigh cfg f ≤ w.ladder.weigh cfg f := by
  refine (run_invariant (I := fun w' => w'.ladder.weigh cfg f ≤ w.ladder.weigh cfg f) ?_ hw (Nat.le_refl _) h).2.1
  intro w' i e q hw' hle hs
  obtain ⟨l, r, hqueue, -, hf⟩ := hs.filled hw'
  have := hf.weigh_add hw' hqueue hzero
  have := hmono e.id (e.remaining - q) e.remaining (Nat.sub_le _ _)
  omega

end Sweep

end MatchingEngine

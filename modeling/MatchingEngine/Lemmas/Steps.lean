import MatchingEngine.Lemmas.Moves

/-!
# The book's private operations move the ladder

Executions, resting, the stop list and handles: each private operation of the book that changes its state, put together from the
primitives, and the move of the ladder it performs.
-/

namespace MatchingEngine

open Function

/-! ## Executions -/

namespace StepsAux

/-- The sum of a queue with one entry changed. -/
theorem sum_split (l r : List Entry) (e : Entry) :
    ((l ++ e :: r).map Entry.remaining).sum = (l.map Entry.remaining).sum + e.remaining + (r.map Entry.remaining).sum := by
  simp only [List.map_append, List.map_cons, List.sum_append, List.sum_cons]
  omega

/-- The aggregate of a level with `q` taken from one of its entries. -/
theorem aggregate_sub {l r : List Entry} {e e' : Entry} {q : Nat} (hle : q ≤ e.remaining) (hrem : e'.remaining = e.remaining - q) :
    sub64 (((l ++ e :: r).map Entry.remaining).sum % 2 ^ 64) q = ((l ++ e' :: r).map Entry.remaining).sum % 2 ^ 64 := by
  rw [sum_split, sum_split, sub64_mod (by omega), hrem]
  congr 1
  omega

end StepsAux

open StepsAux

section Executions

variable {gh : Prop} {cfg : BookConfig} {b : OrderBook} {L : Ladder} {side : Side} {i q : Nat} {l r : List Entry} {e : Entry}

/-- `reduce` of the opening uncross, for an execution of at most the displayed slice. -/
theorem Rep.auctionReduce (h : Rep gh cfg b L) (hq : L.queue side i = l ++ e :: r) (hle : q ≤ e.displayed) :
    Rep gh cfg (b.auctionReduce q e.slot) (L.fill side i e.slot q) := by
  have he : e ∈ L.queue side i := by rw [hq]; simp
  have hat := h.entries side i e he
  have hdr := e.displayed_le_remaining
  have hlt := e.remaining_lt
  have hagg : (b.level side i).aggregateQuantity = ((l ++ e :: r).map Entry.remaining).sum % 2 ^ 64 := by
    rw [← hq]
    exact h.queues.aggregate side i
  rw [Ladder.fill_eq hq (h.wf.slot_ne_of_split hq).1]
  unfold OrderBook.auctionReduce
  simp only [hat.displayed, hat.remaining, hat.display, h.entry_side he, h.entry_level he,
    sub64_eq (a := e.displayed) (b := q) hle (by omega), sub64_eq (a := e.remaining) (b := q) (by omega) hlt]
  rcases e.after_cases hle with ⟨e', ha, hlt', hslot, hid, htr, hser, hdis, hrem, hdisp⟩ |
    ⟨e', ha, hqe, hlt', hslot, hid, htr, hser, hdis, hrem, hdisp⟩ | ⟨ha, hqe, hqr⟩
  · rw [ha, if_neg (by omega), if_neg (by omega)]
    have := h.retouch hq (sub64 (b.level side i).aggregateQuantity q) hslot hid htr hdis hser
      (by rw [hagg]; exact aggregate_sub (by omega) hrem)
    rw [hrem, hdisp] at this
    exact this
  · rw [ha, if_neg (by omega), if_pos (by omega)]
    have := h.retouch hq (sub64 (b.level side i).aggregateQuantity q) hslot hid htr hdis hser
      (by rw [hagg]; exact aggregate_sub (by omega) hrem)
    have hqueue : (L.setQueue side i (l ++ e' :: r)).queue side i = l ++ e' :: r := by simp
    have := this.moveToTail hqueue
    rw [Ladder.setQueue_setQueue, hslot, hrem, hdisp] at this
    refine Eq.mp ?_ this
    simp only [OrderBook.setDisplayed, OrderBook.setLevel, OrderBook.setArena, update_idem]
  · rw [ha, if_pos (by omega), hqr]
    exact h.unlink hq

/-- `unlink` of an order whose quantity was taken from its level before. -/
theorem OrderBook.unlink_zero (b : OrderBook) {s v : Nat} (hs : (b.arena.orderAt s).side = side)
    (hl : (b.arena.orderAt s).level = i) :
    ((b.setLevel side i { b.level side i with aggregateQuantity := sub64 (b.level side i).aggregateQuantity q }).setDisplayed s
        v).unlink (b.arena.handleAt s) 0 =
      (b.unlink (b.arena.handleAt s) q).setDisplayed s v := by
  have hzero : sub64 (sub64 (b.level side i).aggregateQuantity q) 0 = sub64 (b.level side i).aggregateQuantity q :=
    (sub64_eq (Nat.zero_le _) (sub64_lt _ _)).trans (Nat.sub_zero _)
  have hlevel : ((b.setLevel side i
      { b.level side i with aggregateQuantity := sub64 (b.level side i).aggregateQuantity q }).setDisplayed s v).level side i =
      { b.level side i with aggregateQuantity := sub64 (b.level side i).aggregateQuantity q } := by
    simp [OrderBook.level, OrderBook.setDisplayed, OrderBook.setLevel]
  obtain ⟨b', hb'⟩ : ∃ b', b' = (b.setLevel side i
      { b.level side i with aggregateQuantity := sub64 (b.level side i).aggregateQuantity q }).setDisplayed s v := ⟨_, rfl⟩
  rw [← hb'] at hlevel ⊢
  have harena : b'.arena = b.arena := by rw [hb']; rfl
  have hocc : b'.occupancy = b.occupancy := by rw [hb']; rfl
  have hset : ∀ p, b'.setLevel side i p = (b.setLevel side i p).setDisplayed s v := fun p => by
    rw [hb']
    simp [OrderBook.setDisplayed, OrderBook.setLevel]
  have hpast : ∀ x y, (b'.level side i).linkPast x y 0 = (b.level side i).linkPast x y q := fun x y => by
    simp only [hlevel, PriceLevel.linkPast, hzero]
  simp only [OrderBook.unlink, OrderArena.handleAt, harena, hocc, hs, hl, hpast, hset]
  split <;> rfl

/-- The maker part of an execution is `reduce` of the opening uncross, but for the displayed slice of a slot it gives back. -/
theorem OrderBook.reduceMaker_eq (b : OrderBook) {s : Nat} (hs : (b.arena.orderAt s).side = side)
    (hl : (b.arena.orderAt s).level = i) (hle : q ≤ (b.arena.orderAt s).remaining) (hlt : (b.arena.orderAt s).remaining < 2 ^ 64) :
    b.reduceMaker side i s q =
      if q = (b.arena.orderAt s).remaining then
        (b.auctionReduce q s).setDisplayed s (sub64 (b.displayedRemaining s) q)
      else b.auctionReduce q s := by
  have hsub := sub64_eq hle hlt
  by_cases hq : q = (b.arena.orderAt s).remaining
  · rw [if_pos hq]
    simp only [reduceMaker, auctionReduce]
    rw [if_pos hq, if_pos (show sub64 (b.arena.orderAt s).remaining q = 0 by omega)]
    exact b.unlink_zero hs hl
  · rw [if_neg hq]
    simp only [reduceMaker, auctionReduce, hs, hl]
    rw [if_neg hq, if_neg (show ¬sub64 (b.arena.orderAt s).remaining q = 0 by omega)]
    by_cases hd : sub64 (b.displayedRemaining s) q = 0
    · rw [if_pos hd, if_pos hd]
      rfl
    · rw [if_neg hd, if_neg hd]
      rfl

/-- The maker part of an execution of at most the displayed slice. -/
theorem Rep.reduceMaker (h : Rep gh cfg b L) (hq : L.queue side i = l ++ e :: r) (hle : q ≤ e.displayed) :
    Rep gh cfg (b.reduceMaker side i e.slot q) (L.fill side i e.slot q) := by
  have he : e ∈ L.queue side i := by rw [hq]; simp
  have hrem := (h.entries side i e he).remaining
  have hdr := e.displayed_le_remaining
  have hred := h.auctionReduce hq hle
  rw [b.reduceMaker_eq (h.entry_side he) (h.entry_level he) (by omega) (by rw [hrem]; exact e.remaining_lt), hrem]
  split
  · rename_i hqr
    have ha : e.after q = .filled := by rw [Entry.after, dif_neg (by omega), dif_neg (by omega)]
    refine hred.setDisplayed_free ?_ _
    rw [Ladder.fill_eq hq (h.wf.slot_ne_of_split hq).1, ha]
    simp [Ladder.release]
  · exact hred

end Executions

/-! ## Resting and the stop list -/

section Resting

variable {gh : Prop} {cfg : BookConfig} {b : OrderBook} {L : Ladder} {side : Side} {i : Nat}

theorem Ladder.rest_eq {id trader remaining display s : Nat} {free : List Nat} (hf : L.free = s :: free)
    (hd : (0 < display ∧ display ≤ remaining) ∧ remaining < 2 ^ 64) :
    L.rest id trader side i remaining display =
      (L.handleAt s,
        { L.setQueue side i (L.queue side i ++
            [⟨s, id, trader, remaining, display, display, L.accepted, hd.1.1, Nat.le_refl _, hd.1.2, hd.2⟩]) with
          free
          place := update L.place s (.resting side i)
          accepted := L.accepted + 1 }) := by
  unfold Ladder.rest
  split
  · rename_i hn
    rw [hf] at hn
    cases hn
  · rename_i s' free' hs
    obtain ⟨rfl, rfl⟩ := List.cons_eq_cons.mp (hf.symm.trans hs)
    rw [dif_pos hd]

/-- `rest`, while a slot is free. -/
theorem Rep.rest (h : Rep gh cfg b L) (hnone : L.held = none) {id trader remaining display : Nat} (hf : L.free ≠ [])
    (hi : i < cfg.domain.tickCount) (hd : (0 < display ∧ display ≤ remaining) ∧ remaining < 2 ^ 64) :
    (b.rest id trader side i remaining display).1 = (L.rest id trader side i remaining display).1 ∧
      Rep gh cfg (b.rest id trader side i remaining display).2 (L.rest id trader side i remaining display).2 := by
  obtain ⟨s, free, hf⟩ := List.exists_cons_of_ne_nil hf
  have hpos : 0 < remaining := Nat.lt_of_lt_of_le hd.1.1 hd.1.2
  obtain ⟨hacq, hrepr, horder⟩ := h.acquire hnone hf (b.restingOrder id side i remaining)
    (d := ⟨s, id, side, 0, none, remaining, L.accepted, hpos, hd.2⟩) rfl rfl
  have hlink := hrepr.link side (i := i)
    (e := ⟨s, id, trader, remaining, display, display, L.accepted, hd.1.1, Nat.le_refl _, hd.1.2, hd.2⟩) rfl hi rfl rfl rfl
  have hself : (b.arena.acquire (b.restingOrder id side i remaining)).2.setOrder s (b.restingOrder id side i remaining) =
      (b.arena.acquire (b.restingOrder id side i remaining)).2 := by
    have := OrderArena.setOrder_self (b.arena.acquire (b.restingOrder id side i remaining)).2 s
    rwa [horder] at this
  rw [Ladder.rest_eq hf hd]
  simp only [OrderBook.rest, hacq]
  refine ⟨trivial, ?_⟩
  have hbook : ((b.setArena (b.arena.acquire (b.restingOrder id side i remaining)).2).setArena
      ((b.setArena (b.arena.acquire (b.restingOrder id side i remaining)).2).arena.setOrder s
        ((b.setArena (b.arena.acquire (b.restingOrder id side i remaining)).2).restingOrder id side i remaining))) =
      b.setArena (b.arena.acquire (b.restingOrder id side i remaining)).2 := congrArg b.setArena hself
  dsimp only at hlink
  rw [hbook] at hlink
  refine Eq.mp (congrArg (Rep gh cfg _) ?_) hlink
  simp [Ladder.setQueue, hnone]

/-- `rest_existing` of the held stop's remainder. -/
theorem Rep.restExisting (h : Rep gh cfg b L) {d : Dormant} (hd : L.held = some d) {remaining : Nat} {handle : Handle}
    (hi : i < cfg.domain.tickCount) (hrem : 0 < remaining ∧ remaining < 2 ^ 64) (hindex : handle.index = d.slot) :
    Rep gh cfg (b.restExisting handle d.id 0 d.side i remaining remaining) (L.settle d i remaining) := by
  have hlink := h.link d.side (i := i)
    (e := ⟨d.slot, d.id, 0, remaining, remaining, remaining, d.serial, hrem.1, Nat.le_refl _, Nat.le_refl _, hrem.2⟩) hd hi rfl rfl rfl
  rw [Ladder.settle, dif_pos hrem, OrderBook.restExisting, hindex]
  exact hlink

theorem Ladder.restStop_eq (id : Nat) (side : Side) (trigger : Int) (limit : Option Int) {quantity s : Nat} {free : List Nat}
    (hf : L.free = s :: free)
    (hq : 0 < quantity ∧ quantity < 2 ^ 64) :
    L.restStop id side trigger limit quantity =
      some (⟨s, id, side, trigger, limit, quantity, L.accepted, hq.1, hq.2⟩,
        { L with
          stops := L.stops ++ [⟨s, id, side, trigger, limit, quantity, L.accepted, hq.1, hq.2⟩]
          free
          place := update L.place s .dormant
          accepted := L.accepted + 1 }) := by
  unfold Ladder.restStop
  split
  · rename_i hn
    rw [hf] at hn
    cases hn
  · rename_i s' free' hs
    obtain ⟨rfl, rfl⟩ := List.cons_eq_cons.mp (hf.symm.trans hs)
    rw [dif_pos hq]

/-- `rest_stop`, while a slot is free. -/
theorem Rep.restStop (h : Rep gh cfg b L) (hnone : L.held = none) {id quantity : Nat} {trigger : Int} {limit : Option Int}
    (hf : L.free ≠ []) (hq : 0 < quantity ∧ quantity < 2 ^ 64) :
    ∃ d L', L.restStop id side trigger limit quantity = some (d, L') ∧ L'.stops = L.stops ++ [d] ∧ L'.held = none ∧
      (b.restStop id side trigger limit quantity).1 = L.handleAt d.slot ∧ L'.handleAt d.slot = L.handleAt d.slot ∧
      Rep gh cfg (b.restStop id side trigger limit quantity).2 L' := by
  obtain ⟨s, free, hf⟩ := List.exists_cons_of_ne_nil hf
  refine ⟨_, _, Ladder.restStop_eq _ _ _ _ hf hq, rfl, hnone, ?_⟩
  obtain ⟨hacq, hrepr, horder⟩ := h.acquire hnone hf
    { id
      remaining := quantity
      prevIndex := kInvalidIndex
      nextIndex := kInvalidIndex
      encodedLevelSide := encodeLevelSide 0 side
      reservedFlags := kOrderFlagDormantStop ||| (if limit.isSome then 0 else kOrderFlagStopMarket) }
    (d := ⟨s, id, side, trigger, limit, quantity, L.accepted, hq.1, hq.2⟩) rfl rfl
  have hsleep := hrepr.sleep rfl (by simp only [OrderBook.setArena, horder]) (by simp only [OrderBook.setArena, horder])
    (by simp only [OrderBook.setArena, horder]) (by simp only [OrderBook.setArena, horder, Dormant.flags])
    (by simp only [OrderBook.setArena, horder]) (by simp only [OrderBook.setArena, horder])
  simp only [OrderBook.restStop, hacq]
  refine ⟨trivial, rfl, ?_⟩
  refine Eq.mp (congrArg (Rep gh cfg _) ?_) hsleep
  simp [hnone]

/-- `unlink_stop`. -/
theorem Rep.unlinkStop (h : Rep gh cfg b L) (hnone : L.held = none) {sl sr : List Dormant} {d : Dormant}
    (hs : L.stops = sl ++ d :: sr) : Rep gh cfg (b.unlinkStop (b.arena.handleAt d.slot)) (L.removeStop d.slot) := by
  have hdrop := (h.detachStop hnone hs).dropHeld rfl
  rw [Ladder.removeStop_eq hs (h.wf.stop_ne_of_split hs).1]
  refine Eq.mp (congrArg (Rep gh cfg _) ?_) hdrop
  simp [Ladder.dropHeld, Ladder.hold, Ladder.release, hnone]

end Resting

/-! ## Handles -/

section Handles

variable {gh : Prop} {cfg : BookConfig} {b : OrderBook} {L : Ladder}

theorem Rep.isLiveHandle (h : Rep gh cfg b L) (handle : Handle) :
    b.arena.isLiveHandle handle = true ↔
      (handle.index < cfg.maxOrders ∧ handle.generation = generationOf (L.releases handle.index)) ∧
        L.place handle.index ≠ .free := by
  unfold OrderArena.isLiveHandle
  simp only [Bool.and_eq_true, decide_eq_true_eq, ne_eq, h.arena.capacity]
  constructor
  · rintro ⟨⟨⟨-, hlt⟩, hlive⟩, hgen⟩
    exact ⟨⟨hlt, hgen ▸ h.arena.generation _ hlt⟩, (h.arena.live _ hlt).mp hlive⟩
  · rintro ⟨⟨hlt, hgen⟩, hp⟩
    have hg : (b.arena.slots handle.index).generation = handle.generation := (h.arena.generation _ hlt).trans hgen.symm
    exact ⟨⟨⟨hg ▸ h.generation_ne_zero hlt, hlt⟩, (h.arena.live _ hlt).mpr hp⟩, hg⟩

theorem Ladder.Wf.find_entry (h : L.Wf cfg) {side : Side} {i : Nat} {l r : List Entry} {e : Entry}
    (hq : L.queue side i = l ++ e :: r) : (L.queue side i).find? (fun x => x.slot = e.slot) = some e := by
  rw [hq, List.find?_append, List.find?_eq_none.mpr, List.find?_cons_of_pos (by simp)]
  · rfl
  · intro x hx
    simpa using (h.slot_ne_of_split hq).1 x hx

theorem Ladder.Wf.find_stop (h : L.Wf cfg) {l r : List Dormant} {d : Dormant} (hs : L.stops = l ++ d :: r) :
    L.stops.find? (fun x => x.slot = d.slot) = some d := by
  rw [hs, List.find?_append, List.find?_eq_none.mpr, List.find?_cons_of_pos (by simp)]
  · rfl
  · intro x hx
    simpa using (h.stop_ne_of_split hs).1 x hx

/-- A handle denotes an order of the book exactly when it denotes one of the ladder, and the same one. -/
theorem Rep.resolve (h : Rep gh cfg b L) (hnone : L.held = none) (handle : Handle) :
    (b.arena.resolve handle = none ∧ L.resolve cfg handle = none) ∨
    (∃ side i l e r, L.resolve cfg handle = some (.resting side i e) ∧ L.queue side i = l ++ e :: r ∧
      handle = b.arena.handleAt e.slot ∧ b.arena.resolve handle = some (b.arena.orderAt e.slot)) ∨
    (∃ l d r, L.resolve cfg handle = some (.dormant d) ∧ L.stops = l ++ d :: r ∧
      handle = b.arena.handleAt d.slot ∧ b.arena.resolve handle = some (b.arena.orderAt d.slot)) := by
  have hiff := h.isLiveHandle handle
  unfold OrderArena.resolve Ladder.resolve
  by_cases hok : handle.index < cfg.maxOrders ∧ handle.generation = generationOf (L.releases handle.index)
  · rw [if_pos (c := handle.index < cfg.maxOrders ∧ handle.generation = generationOf (L.releases handle.index)) hok]
    have hhandle : handle = b.arena.handleAt handle.index := by
      rw [OrderArena.handleAt, h.arena.generation _ hok.1, ← hok.2]
    cases hp : L.place handle.index with
    | free =>
      rw [if_neg (fun hl => (hiff.mp hl).2 hp)]
      exact Or.inl ⟨rfl, rfl⟩
    | held =>
      have := (h.wf.held_iff handle.index).mpr ⟨hok.1, hp⟩
      rw [hnone] at this
      cases this
    | resting side i =>
      obtain ⟨l, e, r, hq, he⟩ := h.wf.entry_of_place hok.1 hp
      rw [if_pos (hiff.mpr ⟨hok, by rw [hp]; rintro ⟨⟩⟩)]
      refine Or.inr (Or.inl ⟨side, i, l, e, r, ?_, hq, he ▸ hhandle, by rw [he]⟩)
      have hfind := h.wf.find_entry hq
      rw [he] at hfind
      simp only [hfind, Option.map_some]
    | dormant =>
      obtain ⟨l, d, r, hq, hd⟩ := h.wf.stop_of_place hok.1 hp
      rw [if_pos (hiff.mpr ⟨hok, by rw [hp]; rintro ⟨⟩⟩)]
      refine Or.inr (Or.inr ⟨l, d, r, ?_, hq, hd ▸ hhandle, by rw [hd]⟩)
      have hfind := h.wf.find_stop hq
      rw [hd] at hfind
      simp only [hfind, Option.map_some]
  · rw [if_neg (c := handle.index < cfg.maxOrders ∧ handle.generation = generationOf (L.releases handle.index)) hok,
      if_neg (fun hl => hok (hiff.mp hl).1)]
    exact Or.inl ⟨rfl, rfl⟩

end Handles

end MatchingEngine

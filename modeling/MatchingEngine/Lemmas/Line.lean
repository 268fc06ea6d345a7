import MatchingEngine.Lemmas.Opening

/-!
# The lines of the opening auction

The orders of a side stand in one line, best price first and then by arrival. The uncross executes the first bid of one line against the
first ask of the other, so after any number of executions each line is what they have left of it: the orders at its front are filled, one
order may be filled in part, and the others are as they were.
-/

namespace MatchingEngine

open Comp Function

/-! ## What executions leave of an order -/

/-- One execution of the uncross, between the slots of a bid and an ask. -/
structure Cross where
  bid : Nat
  ask : Nat
  quantity : Nat
  deriving DecidableEq

/-- The slot of one side of an execution. -/
def Cross.slot (x : Cross) : Side → Nat
  | .buy => x.bid
  | .sell => x.ask

/-- Whether an order at level `i` may trade at the clearing level. -/
def reaches (side : Side) (i clearing : Nat) : Prop :=
  match side with
  | .buy => clearing ≤ i
  | .sell => i ≤ clearing

/-- What executions have taken from a slot. -/
def takenFrom (crosses : List Cross) (s : Nat) : Nat :=
  (crosses.map fun x => if x.bid = s ∨ x.ask = s then x.quantity else 0).sum

/-- What is taken from an order by one execution more. -/
theorem takenFrom_concat (crosses : List Cross) (x : Cross) (s : Nat) :
    takenFrom (crosses ++ [x]) s = takenFrom crosses s + if x.bid = s ∨ x.ask = s then x.quantity else 0 := by
  simp [takenFrom]

/-- What is left of an order without a hidden part after `n` of it were executed. -/
def Entry.left (e : Entry) (n : Nat) : Option Entry :=
  match e.after n with
  | .part e' => some e'
  | _ => none

namespace Entry

/-- What is left of an order. -/
theorem left_eq_some {e e' : Entry} {n : Nat} : e.left n = some e' ↔
    n < e.displayed ∧ e'.slot = e.slot ∧ e'.id = e.id ∧ e'.trader = e.trader ∧ e'.serial = e.serial ∧ e'.display = e.display ∧
      e'.remaining = e.remaining - n ∧ e'.displayed = e.displayed - n := by
  constructor
  · intro h
    rw [left, after] at h
    by_cases hlt : n < e.displayed
    · rw [dif_pos hlt] at h
      obtain rfl := Option.some.inj h
      exact ⟨hlt, rfl, rfl, rfl, rfl, rfl, rfl, rfl⟩
    · rw [dif_neg hlt] at h
      split at h
      · rename_i heq
        split at heq <;> cases heq
      · cases h
  · rintro ⟨hlt, h1, h2, h3, h4, h5, h6, h7⟩
    rw [left, after, dif_pos hlt]
    exact congrArg some (ext_data h1.symm h2.symm h3.symm h6.symm h5.symm h7.symm h4.symm)

/-- Nothing is left of an order that is executed whole. -/
theorem left_eq_none {e : Entry} {n : Nat} : e.left n = none ↔ e.displayed ≤ n := by
  constructor
  · intro h
    by_contra hlt
    rw [left, after, dif_pos (Nat.not_le.mp hlt)] at h
    cases h
  · intro h
    rw [Option.eq_none_iff_forall_ne_some]
    intro e' he
    have := (left_eq_some.mp he).1
    omega

/-- All of it is left before the first execution. -/
theorem left_zero (e : Entry) : e.left 0 = some e :=
  left_eq_some.mpr ⟨e.displayed_pos, rfl, rfl, rfl, rfl, rfl, rfl, rfl⟩

/-- Two executions leave what they leave together. -/
theorem left_left {e e' : Entry} {n : Nat} (h : e.left n = some e') (q : Nat) : e'.left q = e.left (n + q) := by
  obtain ⟨hlt, h1, h2, h3, h4, h5, h6, h7⟩ := left_eq_some.mp h
  cases hl : e'.left q with
  | none =>
    rw [left_eq_none] at hl
    rw [eq_comm, left_eq_none]
    omega
  | some e'' =>
    obtain ⟨hlt', k1, k2, k3, k4, k5, k6, k7⟩ := left_eq_some.mp hl
    exact (left_eq_some.mpr ⟨by omega, k1.trans h1, k2.trans h2, k3.trans h3, k4.trans h4, k5.trans h5, by omega, by omega⟩).symm

end Entry

/-! ## A list after one more execution -/

/-- What executions have left of the orders of a list. -/
def leftOf (taken : Nat → Nat) (entries : List Entry) : List Entry := entries.filterMap fun e => e.left (taken e.slot)

/-- What is left of a queue depends on its own orders. -/
theorem leftOf_congr {taken taken' : Nat → Nat} {entries : List Entry} (h : ∀ e ∈ entries, taken' e.slot = taken e.slot) :
    leftOf taken' entries = leftOf taken entries :=
  List.filterMap_congr fun e he => by rw [h e he]

/-- What is left of the levels, one after the other. -/
theorem leftOf_flatMap (taken : Nat → Nat) (levels : List Nat) (queue : Nat → List Entry) :
    leftOf taken (levels.flatMap queue) = levels.flatMap fun i => leftOf taken (queue i) := List.filterMap_flatMap

/-- The slots of what is left of orders that hide nothing. -/
theorem leftOf_slots {taken : Nat → Nat} {entries : List Entry} (plain : ∀ e ∈ entries, e.displayed = e.remaining) :
    (leftOf taken entries).map Entry.slot = (entries.filter fun e => taken e.slot < e.remaining).map Entry.slot := by
  induction entries with
  | nil => rfl
  | cons e entries ih =>
    have hrest := ih fun x hx => plain x (List.mem_cons_of_mem _ hx)
    have hplain := plain e (List.mem_cons_self ..)
    rw [leftOf] at hrest
    rw [leftOf, List.filterMap_cons, List.filter_cons]
    cases hleft : e.left (taken e.slot) with
    | none =>
      have := Entry.left_eq_none.mp hleft
      rw [if_neg (by simp; omega)]
      exact hrest
    | some e' =>
      obtain ⟨hlt, hslot, -⟩ := Entry.left_eq_some.mp hleft
      rw [if_pos (by simp; omega), List.map_cons, List.map_cons, hslot, hrest]

/-- The first order that is left, and the orders before it, of which nothing is left. -/
theorem leftOf_eq_cons {taken : Nat → Nat} {entries rest : List Entry} {b : Entry} (h : leftOf taken entries = b :: rest) :
    ∃ l e r, entries = l ++ e :: r ∧ (∀ x ∈ l, x.left (taken x.slot) = none) ∧ e.left (taken e.slot) = some b ∧ leftOf taken r = rest := by
  obtain ⟨l, e, r, hsplit, hl, he, hr⟩ := List.filterMap_eq_cons_iff.mp h
  exact ⟨l, e, r, hsplit, hl, he, hr⟩

/-- One more execution of `q` against the first order that is left. -/
theorem leftOf_step {taken taken' : Nat → Nat} {entries rest : List Entry} {b : Entry} {q : Nat} (nodup : (entries.map Entry.slot).Nodup)
    (h : leftOf taken entries = b :: rest) (htaken : taken' b.slot = taken b.slot + q)
    (hothers : ∀ e ∈ entries, e.slot ≠ b.slot → taken' e.slot = taken e.slot) : leftOf taken' entries = (b.left q).toList ++ rest := by
  obtain ⟨l, e, r, rfl, hl, he, hr⟩ := leftOf_eq_cons h
  have hslot : b.slot = e.slot := (Entry.left_eq_some.mp he).2.1
  rw [List.map_append, List.map_cons, List.nodup_append, List.nodup_cons] at nodup
  obtain ⟨-, ⟨hr', -⟩, hl'⟩ := nodup
  have hbefore : leftOf taken' l = [] := by
    refine List.filterMap_eq_nil_iff.mpr fun x hx => ?_
    have hne : x.slot ≠ b.slot := by
      rw [hslot]
      exact hl' x.slot (List.mem_map_of_mem hx) e.slot (by simp)
    rw [hothers x (by simp [hx]) hne]
    exact hl x hx
  have hafter : leftOf taken' r = rest := by
    rw [← hr]
    refine leftOf_congr fun x hx => hothers x (by simp [hx]) fun hc => hr' ?_
    rw [← hslot, ← hc]
    exact List.mem_map_of_mem hx
  have hfirst : e.left (taken' e.slot) = b.left q := by
    rw [Entry.left_left he, ← hslot, htaken]
  rw [leftOf, List.filterMap_append, List.filterMap_cons, hfirst]
  rw [leftOf] at hbefore hafter
  rw [hbefore, hafter]
  cases b.left q <;> rfl

namespace Ladder

variable {cfg : BookConfig} {L L' L₀ M : Ladder} {side : Side} {i q : Nat}

/-! ## Lines -/

/-- The orders of a side in the order of their priority: best price first, then by arrival. -/
def line (cfg : BookConfig) (L : Ladder) (side : Side) : List Entry := (scanOrder cfg.domain.tickCount side).flatMap (L.queue side)

/-- In line are the orders of the side. -/
theorem mem_line (hw : L.Wf cfg) {e : Entry} : e ∈ L.line cfg side ↔ ∃ i, e ∈ L.queue side i := by
  rw [line, List.mem_flatMap]
  constructor
  · rintro ⟨i, -, he⟩
    exact ⟨i, he⟩
  · rintro ⟨i, he⟩
    exact ⟨i, (mem_scanOrder _ _ _).mpr (hw.level_lt he), he⟩

/-- They are in line once each. -/
theorem line_slots_perm (L : Ladder) (side : Side) : ((L.line cfg side).map Entry.slot).Perm (L.sideSlots cfg side) := by
  rw [line, List.map_flatMap, sideSlots, ← List.range_eq_range']
  cases side with
  | buy => exact (List.reverse_perm _).flatMap_right _
  | sell => exact List.Perm.refl _

/-- No slot is twice in line. -/
theorem Wf.line_nodup (hw : L.Wf cfg) (side : Side) : ((L.line cfg side).map Entry.slot).Nodup :=
  (line_slots_perm L side).nodup_iff.mpr (hw.sideSlots_nodup side)

/-- The first level that is not empty is the front of the line. -/
theorem flatMap_of_head {α : Type} {queue : Nat → List α} {levels : List Nat}
    (h : (levels.filter fun i => !(queue i).isEmpty).head? = some i) : ∃ rest, levels.flatMap queue = queue i ++ rest := by
  induction levels with
  | nil => cases h
  | cons j levels ih =>
    rw [List.flatMap_cons]
    by_cases hj : queue j = []
    · rw [List.filter_cons_of_neg (by simp [hj])] at h
      rw [hj]
      exact ih h
    · rw [List.filter_cons_of_pos (by simp [hj]), List.head?_cons, Option.some.injEq] at h
      rw [h]
      exact ⟨_, rfl⟩

/-- The first order at the best level is the first of the line. -/
theorem line_eq_cons {b : Entry} {rb : List Entry} (hbest : L.best cfg side = some i) (hq : L.queue side i = b :: rb) :
    ∃ rest, L.line cfg side = b :: rest := by
  obtain ⟨rest, hrest⟩ := flatMap_of_head hbest
  exact ⟨rb ++ rest, by rw [line, hrest, hq]; rfl⟩

/-- A fill of the first order of a level that hides nothing. -/
theorem Filled.queue_left {e : Entry} {r : List Entry} (h : Filled L L' side i [] r e q) (plain : e.displayed = e.remaining) :
    L'.queue side i = (e.left q).toList ++ r := by
  rcases h.cases with ⟨e', hqueue, hlt, -, hslot, hid, htr, hser, hdis, hrem⟩ | ⟨hqueue, hqe, -⟩
  · rcases hqueue with ⟨hqueue, hlt', hd⟩ | ⟨-, hqe, -⟩
    · rw [hqueue, setQueue_queue, if_pos ⟨rfl, rfl⟩, Entry.left_eq_some.mpr ⟨hlt', hslot, hid, htr, hser, hdis, hrem, hd⟩]
      rfl
    · omega
  · rw [hqueue, setQueue_queue, if_pos ⟨rfl, rfl⟩, Entry.left_eq_none.mpr (by omega)]
    rfl

/-- A slot that is in use after a fill was in use before, and was not released between. -/
theorem Filled.kept_slot {l r : List Entry} {e : Entry} (h : Filled L L' side i l r e q) {s : Nat} (hs : L'.place s ≠ .free) :
    L'.place s = L.place s ∧ L'.releases s = L.releases s := by
  rcases h.cases with ⟨e', -, -, ⟨-, hplace, hreleases, -⟩, -⟩ | ⟨-, -, -, -, hplace, hreleases⟩
  · rw [hplace, hreleases]
    exact ⟨rfl, rfl⟩
  · have hne : s ≠ e.slot := fun hc => hs (by rw [hplace, hc, update_self])
    rw [hplace, hreleases, update_of_ne hne, update_of_ne hne]
    exact ⟨rfl, rfl⟩

/-! ## The executions so far -/

/-- The orders of a ladder `L₀` after executions at a clearing level: what is left of each queue, which orders have traded, and that each
of them traded only after every order before it in its line was filled. -/
structure Crossed (cfg : BookConfig) (clearing : Nat) (L₀ L : Ladder) (crosses : List Cross) : Prop where
  queue : ∀ side i, L.queue side i = leftOf (takenFrom crosses) (L₀.queue side i)
  le : ∀ side i e, e ∈ L₀.queue side i → takenFrom crosses e.slot ≤ e.remaining
  pos : ∀ x ∈ crosses, 0 < x.quantity
  traded : ∀ side, ∀ x ∈ crosses, ∃ i e, reaches side i clearing ∧ e ∈ L₀.queue side i ∧ e.slot = x.slot side
  first : ∀ side pre x post, crosses = pre ++ x :: post → ∀ e e', [e, e'].Sublist (L₀.line cfg side) → e'.slot = x.slot side →
    takenFrom pre e.slot = e.remaining

/-- One side of an execution: the first order of the best level is filled, the other levels stay. -/
structure Executes (cfg : BookConfig) (clearing : Nat) (L L' : Ladder) (x : Cross) (side : Side) (i : Nat) (e : Entry) (rest : List Entry) :
    Prop where
  best : L.best cfg side = some i
  reaches : reaches side i clearing
  queue : L.queue side i = e :: rest
  slot : x.slot side = e.slot
  le : x.quantity ≤ e.displayed
  filled : e.displayed = e.remaining → L'.queue side i = (e.left x.quantity).toList ++ rest
  others : ∀ j, j ≠ i → L'.queue side j = L.queue side j

/-- One execution takes from the front order of each side. -/
theorem AuctionStep.executes {clearing remaining bid ask : Nat} {b a : Entry} {rb ra : List Entry}
    (h : AuctionStep cfg clearing L M L' remaining q bid ask b a rb ra) (side : Side) :
    ∃ i e rest, Executes cfg clearing L L' ⟨b.slot, a.slot, q⟩ side i e rest := by
  have hqb : q ≤ b.displayed := by have := h.eq; omega
  have hqa : q ≤ a.displayed := by have := h.eq; omega
  have hbuys : ∀ j, L'.queue .buy j = M.queue .buy j := fun j => h.askFilled.queue_of_ne fun hc => nomatch hc.1
  have hsells : ∀ j, M.queue .sell j = L.queue .sell j := fun j => h.bidFilled.queue_of_ne fun hc => nomatch hc.1
  cases side with
  | buy =>
    refine ⟨bid, b, rb, h.bestBid, h.bid_ge, h.bids, rfl, hqb, fun plain => ?_, fun j hj => ?_⟩
    · rw [hbuys]
      exact h.bidFilled.queue_left plain
    · rw [hbuys]
      exact h.bidFilled.queue_of_ne fun hc => hj hc.2
  | sell =>
    refine ⟨ask, a, ra, h.bestAsk, h.ask_le, h.asks, rfl, hqa, h.askFilled.queue_left, fun j hj => ?_⟩
    rw [← hsells]
    exact h.askFilled.queue_of_ne fun hc => hj hc.2

namespace Crossed

variable {clearing : Nat} {crosses : List Cross}

theorem nil : Crossed cfg clearing L₀ L₀ [] where
  queue side i := by
    have hleft : (fun e : Entry => e.left (takenFrom [] e.slot)) = some := funext Entry.left_zero
    rw [leftOf, hleft, List.filterMap_some]
  le _ _ _ _ := Nat.zero_le _
  pos := nofun
  traded := nofun
  first side pre x post h := absurd h (by simp)

/-- In line is what is left. -/
theorem line (h : Crossed cfg clearing L₀ L crosses) (side : Side) :
    L.line cfg side = leftOf (takenFrom crosses) (L₀.line cfg side) := by
  rw [Ladder.line, Ladder.line, leftOf_flatMap]
  exact congrArg (fun f => List.flatMap f _) (funext (h.queue side))

/-- The orders before the first order of a line are filled. -/
theorem filled_before (h : Crossed cfg clearing L₀ L crosses) (hw : L₀.Wf cfg) (ho : L₀.Opening cfg) {b : Entry} {rest : List Entry}
    (hline : L.line cfg side = b :: rest) {e e' : Entry} (hsub : [e, e'].Sublist (L₀.line cfg side)) (hslot : e'.slot = b.slot) :
    takenFrom crosses e.slot = e.remaining := by
  rw [h.line] at hline
  obtain ⟨l, x, r, hsplit, hl, hx, -⟩ := leftOf_eq_cons hline
  have hnodup := hw.line_nodup side
  obtain rfl : e' = x :=
    List.inj_on_of_nodup_map hnodup (hsub.subset (by simp)) (by rw [hsplit]; simp) (hslot.trans (Entry.left_eq_some.mp hx).2.1)
  have hel : e ∈ l := by
    have hnd : (l ++ e' :: r).Nodup := hsplit ▸ List.Nodup.of_map _ hnodup
    rw [hsplit] at hsub
    obtain ⟨l1, l2, hl12, h1, h2⟩ := List.sublist_append_iff.mp hsub
    cases l1 with
    | nil =>
      rw [List.nil_append] at hl12
      subst hl12
      rw [List.nodup_append, List.nodup_cons] at hnd
      cases h2 with
      | cons _ h2 => exact absurd (h2.subset (by simp)) hnd.2.1.1
      | cons_cons _ h2 => exact absurd (h2.subset (by simp)) hnd.2.1.1
    | cons y l1 =>
      rw [List.cons_append, List.cons.injEq] at hl12
      rw [hl12.1]
      exact h1.subset (by simp)
  have hshown := Entry.left_eq_none.mp (hl e hel)
  obtain ⟨j, hj⟩ := (mem_line hw).mp (hsub.subset (List.mem_cons_self ..))
  have hplain := (ho.entry hj).1
  have := h.le side j e hj
  omega

/-- The order of `L₀` of which the first order of a level is left. -/
theorem front (h : Crossed cfg clearing L₀ L crosses) (ho : L₀.Opening cfg) {b : Entry} {rb : List Entry}
    (hq : L.queue side i = b :: rb) : ∃ e ∈ L₀.queue side i, e.slot = b.slot ∧ e.id = b.id ∧ b.displayed = b.remaining ∧
      b.remaining = e.remaining - takenFrom crosses e.slot := by
  rw [h.queue] at hq
  obtain ⟨l, e, r, hsplit, -, he, -⟩ := leftOf_eq_cons hq
  have hmem : e ∈ L₀.queue side i := by rw [hsplit]; simp
  obtain ⟨-, h1, h2, -, -, -, h6, h7⟩ := Entry.left_eq_some.mp he
  have hplain := (ho.entry hmem).1
  exact ⟨e, hmem, h1.symm, h2.symm, by omega, h6⟩

/-- What an execution takes from an order of a side: the other side's order is in another slot. -/
theorem taken_concat (h : Crossed cfg clearing L₀ L crosses) (hw : L₀.Wf cfg) (ho : L₀.Opening cfg) {x : Cross}
    (hx : ∀ side, ∃ i e rest, Executes cfg clearing L L' x side i e rest) {j : Nat} {e : Entry} (he : e ∈ L₀.queue side j) :
    takenFrom (crosses ++ [x]) e.slot = takenFrom crosses e.slot + if x.slot side = e.slot then x.quantity else 0 := by
  have hother : ∀ side', x.slot side' = e.slot → side' = side := by
    intro side' hslot
    obtain ⟨i, e', rest, hx'⟩ := hx side'
    obtain ⟨e₀, he₀, hs₀, -⟩ := h.front ho hx'.queue
    have h1 := (hw.place_of_mem he).2
    rw [← hslot, hx'.slot, ← hs₀, (hw.place_of_mem he₀).2] at h1
    cases h1
    rfl
  have hiff : x.bid = e.slot ∨ x.ask = e.slot ↔ x.slot side = e.slot := by
    cases side with
    | buy => exact or_iff_left fun hc => nomatch hother .sell hc
    | sell => exact or_iff_right fun hc => nomatch hother .buy hc
  rw [takenFrom_concat, if_congr hiff rfl rfl]

/-- One more execution, between the first orders of the best levels. -/
theorem step (h : Crossed cfg clearing L₀ L crosses) (hw : L₀.Wf cfg) (ho : L₀.Opening cfg) {x : Cross} (hpos : 0 < x.quantity)
    (hx : ∀ side, ∃ i e rest, Executes cfg clearing L L' x side i e rest) : Crossed cfg clearing L₀ L' (crosses ++ [x]) where
  queue side j := by
    obtain ⟨i, b, rest, hb⟩ := hx side
    obtain ⟨e, he, hslot, -, hplain, -⟩ := h.front ho hb.queue
    by_cases hj : j = i
    · subst hj
      rw [hb.filled hplain]
      refine (leftOf_step (hw.queue_nodup side j) ((h.queue side j).symm.trans hb.queue) ?_ fun y hy hne => ?_).symm
      · rw [← hslot, h.taken_concat hw ho hx he, if_pos (hb.slot.trans hslot.symm)]
      · rw [h.taken_concat hw ho hx hy, if_neg (fun hc => hne (hc.symm.trans hb.slot)), Nat.add_zero]
    · rw [hb.others j hj, h.queue]
      refine (leftOf_congr fun y hy => ?_).symm
      rw [h.taken_concat hw ho hx hy, if_neg fun hc => ?_, Nat.add_zero]
      have h1 := (hw.place_of_mem hy).2
      rw [← hc, hb.slot, ← hslot, (hw.place_of_mem he).2] at h1
      cases h1
      exact hj rfl
  le side j y hy := by
    obtain ⟨i, b, rest, hb⟩ := hx side
    obtain ⟨e, he, hslot, -, hplain, hrem⟩ := h.front ho hb.queue
    have hle := h.le side j y hy
    rw [h.taken_concat hw ho hx hy]
    split
    · rename_i hc
      have hsame : y.slot = e.slot := (hc.symm.trans hb.slot).trans hslot.symm
      obtain rfl : y = e := List.inj_on_of_nodup_map (hw.line_nodup side) ((mem_line hw).mpr ⟨j, hy⟩) ((mem_line hw).mpr ⟨i, he⟩) hsame
      have := hb.le
      omega
    · exact hle
  pos y hy := by
    rcases List.mem_append.mp hy with hy | hy
    · exact h.pos y hy
    · rwa [List.mem_singleton.mp hy]
  traded side y hy := by
    rcases List.mem_append.mp hy with hy | hy
    · exact h.traded side y hy
    · obtain ⟨i, b, rest, hb⟩ := hx side
      obtain ⟨e, he, hslot, -⟩ := h.front ho hb.queue
      rw [List.mem_singleton.mp hy]
      exact ⟨i, e, hb.reaches, he, hslot.trans hb.slot.symm⟩
  first side pre y post hsplit e e' hsub hslot := by
    rcases List.eq_nil_or_concat post with rfl | ⟨post, z, rfl⟩
    · obtain ⟨rfl, hy⟩ := List.append_inj' hsplit rfl
      obtain ⟨i, b, rest, hb⟩ := hx side
      obtain ⟨rest', hline⟩ := line_eq_cons hb.best hb.queue
      rw [← List.singleton_inj.mp hy, hb.slot] at hslot
      exact h.filled_before hw ho hline hsub hslot
    · rw [List.concat_eq_append, ← List.cons_append, ← List.append_assoc] at hsplit
      exact h.first side pre y post (List.append_inj' hsplit rfl).1 e e' hsub hslot

/-- The line of a side after one more execution. -/
theorem line_step (h : Crossed cfg clearing L₀ L crosses) (hw : L₀.Wf cfg) (ho : L₀.Opening cfg) {x : Cross} (hpos : 0 < x.quantity)
    (hx : ∀ side, ∃ i e rest, Executes cfg clearing L L' x side i e rest) {b : Entry} {rest : List Entry}
    (hb : Executes cfg clearing L L' x side i b rest) :
    ∃ behind, L.line cfg side = b :: behind ∧ L'.line cfg side = (b.left x.quantity).toList ++ behind := by
  obtain ⟨behind, hline⟩ := line_eq_cons hb.best hb.queue
  obtain ⟨e, he, hslot, -⟩ := h.front ho hb.queue
  refine ⟨behind, hline, ?_⟩
  rw [(h.step hw ho hpos hx).line]
  refine leftOf_step (hw.line_nodup side) ((h.line side).symm.trans hline) ?_ fun y hy hne => ?_
  · rw [← hslot, h.taken_concat hw ho hx he, if_pos (hb.slot.trans hslot.symm)]
  · obtain ⟨j, hj⟩ := (mem_line hw).mp hy
    rw [h.taken_concat hw ho hx hj, if_neg (fun hc => hne (hc.symm.trans hb.slot)), Nat.add_zero]

end Crossed

/-! ## The loop -/

/-- Where the loop of the uncross stands: its trades are executions, they add up to what was executed, and as long as something is left to
execute each of them has filled an order. -/
structure Progressed (cfg : BookConfig) (clearing executable : Nat) (price : Int) (idOf : Nat → Nat) (L₀ L : Ladder) (remaining : Nat)
    (trades : List Trade) (crosses : List Cross) : Prop where
  crossed : Crossed cfg clearing L₀ L crosses
  trades : trades = crosses.map fun x => ⟨idOf x.bid, idOf x.ask, price, x.quantity⟩
  sum : (crosses.map Cross.quantity).sum + remaining = executable
  filled : remaining ≠ 0 → crosses.length + (L.line cfg .buy).length + (L.line cfg .sell).length ≤
    (L₀.line cfg .buy).length + (L₀.line cfg .sell).length
  fewer : crosses ≠ [] → crosses.length < (L₀.line cfg .buy).length + (L₀.line cfg .sell).length
  releases : ∀ s, L.place s ≠ .free → L.releases s = L₀.releases s

/-- One execution of an uncross. If something is left, its quantity is all of the smaller order, which is filled. -/
theorem Progressed.step {clearing executable remaining bid ask : Nat} {price : Int} {idOf : Nat → Nat} {trades : List Trade}
    {crosses : List Cross} {b a : Entry} {rb ra : List Entry} (hw : L₀.Wf cfg) (ho : L₀.Opening cfg)
    (hid : ∀ side i e, e ∈ L₀.queue side i → idOf e.slot = e.id)
    (h : Progressed cfg clearing executable price idOf L₀ L remaining trades crosses)
    (hs : AuctionStep cfg clearing L M L' remaining q bid ask b a rb ra) :
    Progressed cfg clearing executable price idOf L₀ L' (remaining - q) (trades ++ [⟨b.id, a.id, price, q⟩])
      (crosses ++ [⟨b.slot, a.slot, q⟩]) := by
  have hexec := hs.executes
  have hids : ∀ side, ∀ i e rest, L.queue side i = e :: rest → idOf e.slot = e.id := by
    intro side i e rest hq
    obtain ⟨e₀, he₀, hslot, hid₀, -⟩ := h.crossed.front ho hq
    rw [← hslot, hid side i e₀ he₀, hid₀]
  obtain ⟨i, e, rest, hb⟩ := hexec .buy
  obtain ⟨j, e', rest', ha⟩ := hexec .sell
  obtain rfl : e = b := by
    obtain rfl : bid = i := Option.some.inj (hs.bestBid.symm.trans hb.best)
    exact (List.cons.inj (hb.queue.symm.trans hs.bids)).1
  obtain rfl : e' = a := by
    obtain rfl : ask = j := Option.some.inj (hs.bestAsk.symm.trans ha.best)
    exact (List.cons.inj (ha.queue.symm.trans hs.asks)).1
  obtain ⟨bids, hbids, hbids'⟩ := h.crossed.line_step hw ho hs.pos hexec hb
  obtain ⟨asks, hasks, hasks'⟩ := h.crossed.line_step hw ho hs.pos hexec ha
  have hq := hs.eq
  have hpos := hs.pos
  have hfilled := h.filled (by omega)
  rw [hbids, hasks, List.length_cons, List.length_cons] at hfilled
  refine ⟨h.crossed.step hw ho hs.pos hexec, ?_, ?_, fun hmore => ?_, fun _ => ?_, fun s hplace => ?_⟩
  · rw [List.map_append, h.trades, List.map_singleton, hids .buy bid e rb hs.bids, hids .sell ask e' ra hs.asks]
  · rw [List.map_append, List.sum_append, List.map_singleton, List.sum_singleton]
    have := h.sum
    show _ + q + (remaining - q) = executable
    omega
  · have hone : (e.left q).toList.length + (e'.left q).toList.length ≤ 1 := by
      rcases Nat.le_total e.displayed e'.displayed with hle | hle
      · rw [Entry.left_eq_none.mpr (show e.displayed ≤ q by omega)]
        cases e'.left q <;> simp
      · rw [Entry.left_eq_none.mpr (show e'.displayed ≤ q by omega)]
        cases e.left q <;> simp
    rw [hbids', hasks', List.length_append, List.length_append, List.length_append, List.length_singleton]
    dsimp only
    omega
  · rw [List.length_append, List.length_singleton]
    omega
  · obtain ⟨hplace1, hreleases1⟩ := hs.askFilled.kept_slot hplace
    obtain ⟨hplace2, hreleases2⟩ := hs.bidFilled.kept_slot (hplace1 ▸ hplace)
    rw [hreleases1, hreleases2]
    exact h.releases s (hplace2 ▸ hplace1 ▸ hplace)

/-- The trades of the uncross. -/
theorem auction_crosses {clearing executable remaining : Nat} {price : Int} {idOf : Nat → Nat} {trades : List Trade} (hw : L.Wf cfg)
    (ho : L.Opening cfg) (hid : ∀ side i e, e ∈ L.queue side i → idOf e.slot = e.id)
    (h : (auction cfg clearing price (L, executable, [])).Returns (L', remaining, trades)) :
    ∃ crosses, Progressed cfg clearing executable price idOf L L' remaining trades crosses := by
  refine (auction_invariant (I := fun L' remaining trades => ∃ crosses,
    Progressed cfg clearing executable price idOf L L' remaining trades crosses) ?_ hw ?_ h).2.1
  · rintro L1 M L2 remaining trades q bid ask b a rb ra - ⟨crosses, hp⟩ hs
    exact ⟨_, hp.step hw ho hid hs⟩
  · exact ⟨[], .nil, rfl, Nat.zero_add _, fun _ => by simp, fun h => absurd rfl h, fun _ _ => rfl⟩

end Ladder

end MatchingEngine

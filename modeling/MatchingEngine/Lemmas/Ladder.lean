import MatchingEngine.Ladder
import Mathlib.Data.List.Nodup
import Mathlib.Data.List.Perm.Subperm
import Mathlib.Data.List.TakeDrop
import Mathlib.Data.List.TakeWhile

/-!
# The ladder's own facts

How the lists of a ladder split at a slot, which levels are occupied and in what order, and the invariant `Ladder.Wf`: every slot is
in exactly the place the ladder says, once, and the free slots are chained in their order. Every move of the ladder keeps it.
-/

namespace MatchingEngine

open Function

namespace LadderAux

/-- A list splits at its first element without `p`. -/
theorem span_eq {α : Type} {p : α → Bool} {l r : List α} {a : α} (hl : ∀ x ∈ l, p x = true) (ha : p a = false) :
    (l ++ a :: r).span p = (l, a :: r) := by
  rw [List.span_eq_takeWhile_dropWhile, List.takeWhile_append_of_pos hl, List.dropWhile_append_of_pos hl,
    List.takeWhile_cons_of_neg (by simp [ha]), List.dropWhile_cons_of_neg (by simp [ha]), List.append_nil]

/-- What splitting a list says about it. -/
theorem of_span {α : Type} {p : α → Bool} {q l r : List α} {a : α} (h : q.span p = (l, a :: r)) :
    q = l ++ a :: r ∧ (∀ x ∈ l, p x = true) ∧ p a = false := by
  rw [List.span_eq_takeWhile_dropWhile, Prod.mk.injEq] at h
  refine ⟨by rw [← h.1, ← h.2, List.takeWhile_append_dropWhile], fun x hx => ?_, ?_⟩
  · rw [← h.1] at hx
    exact List.mem_takeWhile_imp hx
  · have hd := List.head_dropWhile_not p (l := q) (by rw [h.2]; simp)
    simpa only [h.2, List.head_cons] using hd

/-- A list that splits with nothing on the right has the property throughout. -/
theorem of_span_nil {α : Type} {p : α → Bool} {q l : List α} (h : q.span p = (l, [])) : ∀ x ∈ q, p x = true := by
  rw [List.span_eq_takeWhile_dropWhile, Prod.mk.injEq] at h
  intro x hx
  have hq : q = l := by rw [← List.takeWhile_append_dropWhile (p := p) (l := q), h.1, h.2, List.append_nil]
  rw [hq, ← h.1] at hx
  exact List.mem_takeWhile_imp hx

/-- The successor of an element of a sorted list is the least element above it. -/
theorem sorted_next {lt : Nat → Nat → Prop} (irrefl : ∀ a, ¬lt a a) (trans : ∀ a b c, lt a b → lt b c → lt a c)
    {pre post : List Nat} {i : Nat} (hs : (pre ++ i :: post).Pairwise lt) {o : Option Nat}
    (hnone : o = none → ∀ j ∈ pre ++ i :: post, ¬lt i j)
    (hsome : ∀ r, o = some r → r ∈ pre ++ i :: post ∧ lt i r ∧ ∀ j ∈ pre ++ i :: post, lt i j → ¬lt j r) : post.head? = o := by
  rw [List.pairwise_append, List.pairwise_cons] at hs
  obtain ⟨-, ⟨hi, hpost⟩, hpre⟩ := hs
  cases o with
  | none =>
    cases post with
    | nil => rfl
    | cons j post => exact absurd (hi j (by simp)) (hnone rfl j (by simp))
  | some r =>
    obtain ⟨hr, hir, hleast⟩ := hsome r rfl
    have hrpost : r ∈ post := by
      rcases List.mem_append.mp hr with hr | hr
      · exact absurd (trans _ _ _ hir (hpre r hr i (by simp))) (irrefl i)
      · rcases List.mem_cons.mp hr with rfl | hr
        · exact absurd hir (irrefl r)
        · exact hr
    cases post with
    | nil => cases hrpost
    | cons j post =>
      rcases List.mem_cons.mp hrpost with rfl | hr'
      · rfl
      · exact absurd ((List.pairwise_cons.mp hpost).1 r hr') (hleast j (by simp) (hi j (by simp)))

/-- The head of a sorted list is its least element. -/
theorem sorted_head {lt : Nat → Nat → Prop} {l : List Nat} (hs : l.Pairwise lt) {o : Option Nat}
    (hnone : o = none → l = []) (hsome : ∀ r, o = some r → r ∈ l ∧ ∀ j ∈ l, ¬lt j r) : l.head? = o := by
  cases o with
  | none => rw [hnone rfl, List.head?_nil]
  | some r =>
    obtain ⟨hr, hleast⟩ := hsome r rfl
    cases l with
    | nil => cases hr
    | cons j l =>
      rcases List.mem_cons.mp hr with rfl | hr
      · rfl
      · exact absurd ((List.pairwise_cons.mp hs).1 r hr) (hleast j (by simp))

end LadderAux

open LadderAux

/-! ## Levels in order -/

/-- `a` is a better level than `b`. -/
def betterLevel (side : Side) (a b : Nat) : Prop :=
  match side with
  | .buy => b < a
  | .sell => a < b

/-- No level is better than itself. -/
theorem betterLevel_irrefl (side : Side) (a : Nat) : ¬betterLevel side a a := by
  cases side <;> simp [betterLevel]

theorem betterLevel_trans (side : Side) (a b c : Nat) : betterLevel side a b → betterLevel side b c → betterLevel side a c := by
  cases side <;> simp only [betterLevel] <;> omega

/-- Crossing is kept by better levels. -/
theorem crosses_of_better {side : Side} {a b limit : Nat} (h : betterLevel side.opposite a b) (hb : crosses side b limit = true) :
    crosses side a limit = true := by
  cases side <;> simp only [crosses, betterLevel, Side.opposite, decide_eq_true_eq] at * <;> omega

namespace Ladder

variable {cfg : BookConfig} {L : Ladder}

/-- A side is scanned from its best level on. -/
theorem scanOrder_pairwise (n : Nat) (side : Side) : (scanOrder n side).Pairwise (betterLevel side) := by
  cases side with
  | buy =>
    rw [scanOrder, List.pairwise_reverse]
    exact List.pairwise_lt_range
  | sell => exact List.pairwise_lt_range

theorem mem_scanOrder (n : Nat) (side : Side) (i : Nat) : i ∈ scanOrder n side ↔ i < n := by
  cases side <;> simp [scanOrder]

/-- The occupied levels come from the best one on. -/
theorem occupied_pairwise (side : Side) : (L.occupied cfg side).Pairwise (betterLevel side) :=
  (scanOrder_pairwise _ side).sublist List.filter_sublist

/-- The occupied levels are those with a queue. -/
theorem mem_occupied {side : Side} {i : Nat} : i ∈ L.occupied cfg side ↔ i < cfg.domain.tickCount ∧ L.queue side i ≠ [] := by
  simp [occupied, mem_scanOrder]

/-- A side without a best level is empty. -/
theorem best_eq_none {side : Side} : L.best cfg side = none ↔ ∀ i, i < cfg.domain.tickCount → L.queue side i = [] := by
  rw [best, List.head?_eq_none_iff, List.eq_nil_iff_forall_not_mem]
  simp only [mem_occupied, not_and, not_not]

/-- The best level is occupied and no occupied level is better. -/
theorem best_eq_some {side : Side} {i : Nat} (h : L.best cfg side = some i) :
    i < cfg.domain.tickCount ∧ L.queue side i ≠ [] ∧
      ∀ j, j < cfg.domain.tickCount → L.queue side j ≠ [] → ¬betterLevel side j i := by
  obtain ⟨post, hp⟩ := List.head?_eq_some_iff.mp h
  have hi : i ∈ L.occupied cfg side := by simp [hp]
  refine ⟨(mem_occupied.mp hi).1, (mem_occupied.mp hi).2, fun j hj hq hb => ?_⟩
  have hs : (L.occupied cfg side).Pairwise (betterLevel side) := occupied_pairwise side
  have hjm : j ∈ L.occupied cfg side := mem_occupied.mpr ⟨hj, hq⟩
  rw [hp] at hs hjm
  rcases List.mem_cons.mp hjm with rfl | hjm
  · exact betterLevel_irrefl side j hb
  · exact betterLevel_irrefl side i (betterLevel_trans side i j i ((List.pairwise_cons.mp hs).1 j hjm) hb)

/-- The levels in reach are the occupied ones that cross. -/
theorem mem_reach {side : Side} {limit i : Nat} :
    i ∈ L.reach cfg side limit ↔
      (i < cfg.domain.tickCount ∧ L.queue side.opposite i ≠ []) ∧ crosses side i limit = true := by
  rw [← mem_occupied, reach]
  constructor
  · intro h
    exact ⟨(List.takeWhile_sublist _).mem h, List.mem_takeWhile_imp (p := fun i => crosses side i limit) h⟩
  · rintro ⟨hi, hc⟩
    have hs : (L.occupied cfg side.opposite).Pairwise (betterLevel side.opposite) := occupied_pairwise side.opposite
    generalize L.occupied cfg side.opposite = l at hi hs
    induction l with
    | nil => cases hi
    | cons j l ih =>
      rw [List.pairwise_cons] at hs
      rcases List.mem_cons.mp hi with rfl | hi
      · simp [hc]
      · have hj : crosses side j limit = true := crosses_of_better (hs.1 i hi) hc
        rw [List.takeWhile_cons_of_pos (p := fun i => crosses side i limit) hj]
        exact List.mem_cons_of_mem _ (ih hi hs.2)

/-- No bid is at or above an ask. -/
def Uncrossed (L : Ladder) : Prop := ∀ bid ask, L.queue .buy bid ≠ [] → L.queue .sell ask ≠ [] → bid < ask

/-- In an uncrossed ladder no order of one side crosses one of the other. -/
theorem uncrossed_iff (side : Side) :
    L.Uncrossed ↔ ∀ i j, L.queue side i ≠ [] → L.queue side.opposite j ≠ [] → crosses side j i = false := by
  cases side with
  | buy =>
    simp only [Uncrossed, crosses, Side.opposite, decide_eq_false_iff_not, Nat.not_le]
  | sell =>
    simp only [Uncrossed, crosses, Side.opposite, decide_eq_false_iff_not, Nat.not_le]
    exact ⟨fun h i j hi hj => h j i hj hi, fun h i j hi hj => h j i hj hi⟩

/-! ## Queues after a move -/

/-- The queues once one is put in place. -/
@[simp] theorem setQueue_queue (L : Ladder) (side : Side) (i : Nat) (q : List Entry) (side' : Side) (i' : Nat) :
    (L.setQueue side i q).queue side' i' = if side' = side ∧ i' = i then q else L.queue side' i' := by
  simp only [setQueue, update_apply]
  by_cases hs : side' = side
  · subst hs
    simp only [if_true, true_and, update_apply]
  · simp [hs]

/-- A queue that is put where it is. -/
theorem setQueue_self (L : Ladder) (side : Side) (i : Nat) : L.setQueue side i (L.queue side i) = L := by
  simp [setQueue]

theorem setQueue_setQueue (L : Ladder) (side : Side) (i : Nat) (q q' : List Entry) :
    (L.setQueue side i q).setQueue side i q' = L.setQueue side i q' := by
  simp [setQueue]

/-- A fill at an entry found in its queue. -/
theorem fill_eq {side : Side} {i q : Nat} {l r : List Entry} {e : Entry} (hq : L.queue side i = l ++ e :: r)
    (hl : ∀ x ∈ l, x.slot ≠ e.slot) :
    L.fill side i e.slot q =
      match e.after q with
      | .part e' => L.setQueue side i (l ++ e' :: r)
      | .replenished e' => L.setQueue side i (l ++ r ++ [e'])
      | .filled => (L.setQueue side i (l ++ r)).release e.slot := by
  unfold fill
  rewrite [hq, span_eq (fun x hx => by simpa using hl x hx) (by simp)]
  rfl

/-- A removal at an entry found in its queue. -/
theorem remove_eq {side : Side} {i : Nat} {l r : List Entry} {e : Entry} (hq : L.queue side i = l ++ e :: r)
    (hl : ∀ x ∈ l, x.slot ≠ e.slot) : L.remove side i e.slot = (L.setQueue side i (l ++ r)).release e.slot := by
  unfold remove
  rw [hq, span_eq (fun x hx => by simpa using hl x hx) (by simp)]

/-- The search for a stop finds the first one. -/
theorem splitStop_eq {p : Dormant → Bool} {l r : List Dormant} {d : Dormant} (hs : L.stops = l ++ d :: r)
    (hl : ∀ x ∈ l, p x = false) (hd : p d = true) : L.splitStop p = some (d, l ++ r) := by
  unfold splitStop
  rw [hs, span_eq (fun x hx => by simp [hl x hx]) (by simp [hd])]

/-- The stop a search finds, in its place. -/
theorem of_splitStop {p : Dormant → Bool} {d : Dormant} {others : List Dormant} (h : L.splitStop p = some (d, others)) :
    ∃ l r, L.stops = l ++ d :: r ∧ others = l ++ r ∧ (∀ x ∈ l, p x = false) ∧ p d = true := by
  unfold splitStop at h
  split at h
  · cases h
  · rename_i l d' r hs
    obtain ⟨hq, hl, hd⟩ := of_span hs
    cases h
    exact ⟨l, r, hq, rfl, fun x hx => by simpa using hl x hx, by simpa using hd⟩

/-- The search for a stop fails if there is none. -/
theorem splitStop_eq_none {p : Dormant → Bool} : L.splitStop p = none ↔ ∀ d ∈ L.stops, p d = false := by
  unfold splitStop
  constructor
  · intro h
    split at h
    · rename_i l hs
      intro d hd
      simpa using of_span_nil hs d hd
    · cases h
  · intro h
    split
    · rfl
    · rename_i l d r hs
      obtain ⟨hq, hl, hd⟩ := of_span hs
      have := h d (by simp [hq])
      simp [this] at hd

theorem removeStop_eq {l r : List Dormant} {d : Dormant} (hs : L.stops = l ++ d :: r) (hl : ∀ x ∈ l, x.slot ≠ d.slot) :
    L.removeStop d.slot = { L with stops := l ++ r }.release d.slot := by
  unfold removeStop
  rw [splitStop_eq hs (fun x hx => by simpa using hl x hx) (by simp)]

end Ladder

/-! ## What an execution leaves of an entry -/

namespace Entry

/-- An execution of at most the displayed slice, case by case. -/
theorem after_cases (e : Entry) {q : Nat} (hq : q ≤ e.displayed) :
    (∃ e', e.after q = .part e' ∧ q < e.displayed ∧ e'.slot = e.slot ∧ e'.id = e.id ∧ e'.trader = e.trader ∧
      e'.serial = e.serial ∧ e'.display = e.display ∧ e'.remaining = e.remaining - q ∧ e'.displayed = e.displayed - q) ∨
    (∃ e', e.after q = .replenished e' ∧ q = e.displayed ∧ q < e.remaining ∧ e'.slot = e.slot ∧ e'.id = e.id ∧
      e'.trader = e.trader ∧ e'.serial = e.serial ∧ e'.display = e.display ∧ e'.remaining = e.remaining - q ∧
      e'.displayed = min e.display (e.remaining - q)) ∨
    (e.after q = .filled ∧ q = e.displayed ∧ q = e.remaining) := by
  have hle := e.displayed_le_remaining
  unfold after
  by_cases h : q < e.displayed
  · rw [dif_pos h]
    exact Or.inl ⟨_, rfl, h, rfl, rfl, rfl, rfl, rfl, rfl, rfl⟩
  · have hqe : q = e.displayed := Nat.le_antisymm hq (Nat.not_lt.mp h)
    rw [dif_neg h]
    by_cases h' : e.displayed < e.remaining
    · rw [dif_pos h']
      subst hqe
      exact Or.inr (Or.inl ⟨_, rfl, rfl, h', rfl, rfl, rfl, rfl, rfl, rfl, rfl⟩)
    · rw [dif_neg h']
      exact Or.inr (Or.inr ⟨rfl, hqe, by omega⟩)

theorem ext_data {e e' : Entry} (h1 : e.slot = e'.slot) (h2 : e.id = e'.id) (h3 : e.trader = e'.trader)
    (h4 : e.remaining = e'.remaining) (h5 : e.display = e'.display) (h6 : e.displayed = e'.displayed)
    (h7 : e.serial = e'.serial) : e = e' := by
  cases e
  cases e'
  simp_all

end Entry

/-! ## The invariant -/

/-- Every slot is in exactly the place the ladder says, once; the free slots are chained in their order; no level outside the domain
holds an order. -/
structure Ladder.Wf (cfg : BookConfig) (L : Ladder) : Prop where
  queue_iff : ∀ side i s, s ∈ (L.queue side i).map Entry.slot ↔ s < cfg.maxOrders ∧ L.place s = .resting side i
  stop_iff : ∀ s, s ∈ L.stops.map Dormant.slot ↔ s < cfg.maxOrders ∧ L.place s = .dormant
  held_iff : ∀ s, L.held.map Dormant.slot = some s ↔ s < cfg.maxOrders ∧ L.place s = .held
  free_iff : ∀ s, s ∈ L.free ↔ s < cfg.maxOrders ∧ L.place s = .free
  queue_nodup : ∀ side i, ((L.queue side i).map Entry.slot).Nodup
  stops_nodup : (L.stops.map Dormant.slot).Nodup
  free_nodup : L.free.Nodup
  chain : ∀ l s r, L.free = l ++ s :: r → L.freeNext s = r.head?.getD kInvalidIndex
  range : ∀ side i, cfg.domain.tickCount ≤ i → L.queue side i = []

namespace Ladder

variable {cfg : BookConfig} {L : Ladder}

namespace Wf

section Places

variable (h : L.Wf cfg)

include h

/-- The place of a resting order. -/
theorem place_of_mem {side : Side} {i : Nat} {e : Entry} (he : e ∈ L.queue side i) :
    e.slot < cfg.maxOrders ∧ L.place e.slot = .resting side i :=
  (h.queue_iff side i e.slot).mp (List.mem_map_of_mem he)

theorem place_of_stop {d : Dormant} (hd : d ∈ L.stops) : d.slot < cfg.maxOrders ∧ L.place d.slot = .dormant :=
  (h.stop_iff d.slot).mp (List.mem_map_of_mem hd)

/-- The place of the stop that is held. -/
theorem place_of_held {d : Dormant} (hd : L.held = some d) : d.slot < cfg.maxOrders ∧ L.place d.slot = .held :=
  (h.held_iff d.slot).mp (by rw [hd]; rfl)

/-- The place of a free slot. -/
theorem place_of_free {s : Nat} (hs : s ∈ L.free) : s < cfg.maxOrders ∧ L.place s = .free := (h.free_iff s).mp hs

/-- Orders rest at the levels of the domain. -/
theorem level_lt {side : Side} {i : Nat} {e : Entry} (he : e ∈ L.queue side i) : i < cfg.domain.tickCount := by
  by_contra hge
  rw [h.range side i (Nat.not_lt.mp hge)] at he
  cases he

/-- The entries left of one in its queue have other slots, and so have those right of it. -/
theorem queue_lt {side : Side} {i : Nat} (hne : L.queue side i ≠ []) : i < cfg.domain.tickCount := by
  by_contra hge
  exact hne (h.range side i (by omega))

/-- No occupied level is better than the best. -/
theorem not_better {side : Side} {i j : Nat} (hbest : L.best cfg side = some j) (hne : L.queue side i ≠ []) : ¬betterLevel side i j :=
  (best_eq_some hbest).2.2 i (h.queue_lt hne) hne

/-- There is a best level as soon as one is occupied. -/
theorem best_isSome {side : Side} {i : Nat} (hne : L.queue side i ≠ []) : ∃ j, L.best cfg side = some j := by
  cases hb : L.best cfg side with
  | none => exact absurd (best_eq_none.mp hb i (h.queue_lt hne)) hne
  | some j => exact ⟨j, rfl⟩

/-- The other orders of a queue have other slots. -/
theorem slot_ne_of_split {side : Side} {i : Nat} {l r : List Entry} {e : Entry} (hq : L.queue side i = l ++ e :: r) :
    (∀ x ∈ l, x.slot ≠ e.slot) ∧ ∀ x ∈ r, x.slot ≠ e.slot := by
  have hn := h.queue_nodup side i
  rw [hq, List.map_append, List.map_cons, List.nodup_append, List.nodup_cons] at hn
  refine ⟨fun x hx => hn.2.2 _ (List.mem_map_of_mem hx) _ (by simp), fun x hx he => hn.2.1.1 ?_⟩
  rw [← he]
  exact List.mem_map_of_mem hx

/-- The other stops have other slots. -/
theorem stop_ne_of_split {l r : List Dormant} {d : Dormant} (hs : L.stops = l ++ d :: r) :
    (∀ x ∈ l, x.slot ≠ d.slot) ∧ ∀ x ∈ r, x.slot ≠ d.slot := by
  have hn := h.stops_nodup
  rw [hs, List.map_append, List.map_cons, List.nodup_append, List.nodup_cons] at hn
  refine ⟨fun x hx => hn.2.2 _ (List.mem_map_of_mem hx) _ (by simp), fun x hx he => hn.2.1.1 ?_⟩
  rw [← he]
  exact List.mem_map_of_mem hx

/-- A slot at rest has its entry. -/
theorem entry_of_place {side : Side} {i s : Nat} (hs : s < cfg.maxOrders) (hp : L.place s = .resting side i) :
    ∃ l e r, L.queue side i = l ++ e :: r ∧ e.slot = s := by
  obtain ⟨e, he, hes⟩ := List.mem_map.mp ((h.queue_iff side i s).mpr ⟨hs, hp⟩)
  obtain ⟨l, r, hq⟩ := List.append_of_mem he
  exact ⟨l, e, r, hq, hes⟩

/-- A dormant slot has its stop. -/
theorem stop_of_place {s : Nat} (hs : s < cfg.maxOrders) (hp : L.place s = .dormant) :
    ∃ l d r, L.stops = l ++ d :: r ∧ d.slot = s := by
  obtain ⟨d, hd, hds⟩ := List.mem_map.mp ((h.stop_iff s).mpr ⟨hs, hp⟩)
  obtain ⟨l, r, hq⟩ := List.append_of_mem hd
  exact ⟨l, d, r, hq, hds⟩

/-- The free slots are fewer than all when some slot is not free. -/
theorem free_length_lt {s : Nat} (hs : s < cfg.maxOrders) (hp : L.place s ≠ .free) : L.free.length < cfg.maxOrders := by
  have hnodup : (s :: L.free).Nodup := List.nodup_cons.mpr ⟨fun hm => hp (h.place_of_free hm).2, h.free_nodup⟩
  have hsub : s :: L.free ⊆ List.range cfg.maxOrders := by
    intro t ht
    rcases List.mem_cons.mp ht with rfl | ht
    · exact List.mem_range.mpr hs
    · exact List.mem_range.mpr (h.place_of_free ht).1
  have hle := (List.subperm_of_subset hnodup hsub).length_le
  rw [List.length_cons, List.length_range] at hle
  omega

end Places

section Moves

variable (h : L.Wf cfg)

include h

/-- A queue with the same slots, in any order. -/
theorem setQueue {side : Side} {i : Nat} {q : List Entry} (hp : (q.map Entry.slot).Perm ((L.queue side i).map Entry.slot)) :
    (L.setQueue side i q).Wf cfg where
  queue_iff side' i' s := by
    rw [setQueue_queue]
    split
    · rename_i he
      obtain ⟨rfl, rfl⟩ := he
      rw [hp.mem_iff]
      exact h.queue_iff side' i' s
    · exact h.queue_iff side' i' s
  stop_iff := h.stop_iff
  held_iff := h.held_iff
  free_iff := h.free_iff
  queue_nodup side' i' := by
    rw [setQueue_queue]
    split
    · exact hp.nodup_iff.mpr (h.queue_nodup side i)
    · exact h.queue_nodup side' i'
  stops_nodup := h.stops_nodup
  free_nodup := h.free_nodup
  chain := h.chain
  range side' i' hi := by
    rw [setQueue_queue]
    split
    · rename_i he
      obtain ⟨rfl, rfl⟩ := he
      rw [h.range side' i' hi, List.map_nil, List.perm_nil, List.map_eq_nil_iff] at hp
      exact hp
    · exact h.range side' i' hi

omit h in
/-- Giving back a slot that is in no list keeps the places right. -/
theorem release {s : Nat} (hs : s < cfg.maxOrders)
    (hq : ∀ side i t, t ∈ (L.queue side i).map Entry.slot ↔ t ≠ s ∧ t < cfg.maxOrders ∧ L.place t = .resting side i)
    (hst : ∀ t, t ∈ L.stops.map Dormant.slot ↔ t ≠ s ∧ t < cfg.maxOrders ∧ L.place t = .dormant)
    (hh : ∀ t, L.held.map Dormant.slot = some t ↔ t ≠ s ∧ t < cfg.maxOrders ∧ L.place t = .held)
    (hf : ∀ t, t ∈ L.free ↔ t ≠ s ∧ t < cfg.maxOrders ∧ L.place t = .free)
    (hqn : ∀ side i, ((L.queue side i).map Entry.slot).Nodup) (hsn : (L.stops.map Dormant.slot).Nodup) (hfn : L.free.Nodup)
    (hc : ∀ l s r, L.free = l ++ s :: r → L.freeNext s = r.head?.getD kInvalidIndex)
    (hr : ∀ side i, cfg.domain.tickCount ≤ i → L.queue side i = []) : (L.release s).Wf cfg where
  queue_iff side i t := by
    by_cases hts : t = s
    · simp [Ladder.release, hts, hq]
    · simp [Ladder.release, hts, hq]
  stop_iff t := by
    by_cases hts : t = s
    · simp [Ladder.release, hts, hst]
    · simp [Ladder.release, hts, hst]
  held_iff t := by
    by_cases hts : t = s
    · simp [Ladder.release, hts, hh]
    · simp [Ladder.release, hts, hh]
  free_iff t := by
    by_cases hts : t = s
    · simp [Ladder.release, hts, hs]
    · simp [Ladder.release, hts, hf]
  queue_nodup := hqn
  stops_nodup := hsn
  free_nodup := by
    simp only [Ladder.release, List.nodup_cons]
    exact ⟨fun hm => ((hf s).mp hm).1 rfl, hfn⟩
  chain l t r he := by
    simp only [Ladder.release] at he ⊢
    cases l with
    | nil =>
      obtain ⟨rfl, rfl⟩ := List.cons_eq_cons.mp he
      rw [update_self]
    | cons x l =>
      have he' : L.free = l ++ t :: r := (List.cons_eq_cons.mp he).2
      rw [update_of_ne, hc l t r he']
      exact ((hf t).mp (by simp [he'])).1
  range := hr

/-- An entry leaves its queue and its slot is given back. -/
theorem take {side : Side} {i : Nat} {l r : List Entry} {e : Entry} (hq : L.queue side i = l ++ e :: r) :
    ((L.setQueue side i (l ++ r)).release e.slot).Wf cfg := by
  obtain ⟨hlt, hp⟩ := h.place_of_mem (e := e) (by rw [hq]; simp)
  have hne : ∀ t, L.place t ≠ .resting side i → t ≠ e.slot := fun t ht he => ht (he ▸ hp)
  refine release hlt ?_ ?_ ?_ ?_ ?_ h.stops_nodup h.free_nodup h.chain ?_
  · intro side' i' t
    rw [setQueue_queue]
    split
    · rename_i he
      obtain ⟨rfl, rfl⟩ := he
      have hn := h.queue_nodup side' i'
      have hiff := h.queue_iff side' i' t
      rw [hq] at hn hiff
      simp only [List.map_append, List.map_cons, List.mem_append, List.mem_cons, List.nodup_append, List.nodup_cons] at hn hiff ⊢
      change _ ↔ t ≠ e.slot ∧ t < cfg.maxOrders ∧ L.place t = .resting side' i'
      rw [← hiff]
      constructor
      · rintro (ht | ht)
        · exact ⟨fun he => hn.2.2 t ht e.slot (by simp) he, Or.inl ht⟩
        · exact ⟨fun he => hn.2.1.1 (he ▸ ht), Or.inr (Or.inr ht)⟩
      · rintro ⟨hte, ht | ht | ht⟩
        · exact Or.inl ht
        · exact absurd ht hte
        · exact Or.inr ht
    · rename_i he
      rw [h.queue_iff side' i' t]
      refine ⟨fun ht => ⟨fun hte => he ?_, ht⟩, And.right⟩
      rw [hte, hp] at ht
      cases ht.2
      exact ⟨rfl, rfl⟩
  · intro t
    refine (h.stop_iff t).trans ⟨fun ht => ⟨hne t (by rw [ht.2]; exact nofun), ht⟩, And.right⟩
  · intro t
    refine (h.held_iff t).trans ⟨fun ht => ⟨hne t (by rw [ht.2]; exact nofun), ht⟩, And.right⟩
  · intro t
    refine (h.free_iff t).trans ⟨fun ht => ⟨hne t (by rw [ht.2]; exact nofun), ht⟩, And.right⟩
  · intro side' i'
    rw [setQueue_queue]
    split
    · have hn := h.queue_nodup side i
      rw [hq] at hn
      exact hn.sublist (List.Sublist.map _ (List.Sublist.append (List.Sublist.refl l) (List.sublist_cons_self e r)))
    · exact h.queue_nodup side' i'
  · intro side' i' hi
    rw [setQueue_queue]
    split
    · rename_i he
      obtain ⟨rfl, rfl⟩ := he
      have := h.range side' i' hi
      rw [hq] at this
      simp at this
    · exact h.range side' i' hi

/-- An execution against an entry. -/
theorem fill {side : Side} {i q : Nat} {l r : List Entry} {e : Entry} (hq : L.queue side i = l ++ e :: r)
    (hle : q ≤ e.displayed) : (L.fill side i e.slot q).Wf cfg := by
  rw [fill_eq hq (h.slot_ne_of_split hq).1]
  rcases e.after_cases hle with ⟨e', ha, -, hs, -⟩ | ⟨e', ha, -, -, hs, -⟩ | ⟨ha, -⟩
  · rw [ha]
    refine h.setQueue ?_
    rw [hq]
    simp [hs]
  · rw [ha]
    refine h.setQueue ?_
    rw [hq]
    simp only [List.map_append, List.map_cons, List.map_nil, hs, List.append_assoc]
    exact List.Perm.append_left _ (List.perm_append_singleton _ _)
  · rw [ha]
    exact h.take hq

/-- Other data in the entries of a queue or in the stops: the slots are what they were. -/
theorem of_slots {L' : Ladder} (hq : ∀ side i, (L'.queue side i).map Entry.slot = (L.queue side i).map Entry.slot)
    (hs : L'.stops.map Dormant.slot = L.stops.map Dormant.slot) (hh : L'.held.map Dormant.slot = L.held.map Dormant.slot)
    (hf : L'.free = L.free) (hp : L'.place = L.place) (hn : L'.freeNext = L.freeNext) : L'.Wf cfg where
  queue_iff side i t := by rw [hq, hp]; exact h.queue_iff side i t
  stop_iff t := by rw [hs, hp]; exact h.stop_iff t
  held_iff t := by rw [hh, hp]; exact h.held_iff t
  free_iff t := by rw [hf, hp]; exact h.free_iff t
  queue_nodup side i := by rw [hq]; exact h.queue_nodup side i
  stops_nodup := by rw [hs]; exact h.stops_nodup
  free_nodup := by rw [hf]; exact h.free_nodup
  chain := by rw [hf, hn]; exact h.chain
  range side i hi := by
    have := hq side i
    rw [h.range side i hi, List.map_nil, List.map_eq_nil_iff] at this
    exact this

/-- The held stop's slot is given back. -/
theorem dropHeld {d : Dormant} (hd : L.held = some d) : (L.dropHeld d).Wf cfg := by
  obtain ⟨hlt, hp⟩ := h.place_of_held hd
  have hne : ∀ t, L.place t ≠ .held → t ≠ d.slot := fun t ht he => ht (he ▸ hp)
  refine release (L := { L with held := none }) hlt ?_ ?_ ?_ ?_ h.queue_nodup h.stops_nodup h.free_nodup h.chain h.range
  · intro side i t
    refine (h.queue_iff side i t).trans ⟨fun ht => ⟨hne t (by rw [ht.2]; exact nofun), ht⟩, And.right⟩
  · intro t
    refine (h.stop_iff t).trans ⟨fun ht => ⟨hne t (by rw [ht.2]; exact nofun), ht⟩, And.right⟩
  · intro t
    have := h.held_iff t
    rw [hd, Option.map_some, Option.some.injEq] at this
    simp only [Option.map_none, reduceCtorEq, false_iff, not_and]
    exact fun hts hlt hpl => hts (this.mpr ⟨hlt, hpl⟩).symm
  · intro t
    refine (h.free_iff t).trans ⟨fun ht => ⟨hne t (by rw [ht.2]; exact nofun), ht⟩, And.right⟩

/-- A stop is taken out of the list to be activated. -/
theorem hold {l r : List Dormant} {d : Dormant} (hs : L.stops = l ++ d :: r) (hnone : L.held = none) :
    (L.hold d (l ++ r)).Wf cfg := by
  obtain ⟨hlt, hp⟩ := h.place_of_stop (d := d) (by rw [hs]; simp)
  have hne : ∀ t, L.place t ≠ .dormant → t ≠ d.slot := fun t ht he => ht (he ▸ hp)
  have hn := h.stops_nodup
  rw [hs] at hn
  have hplace : ∀ t p, p ≠ .held → p ≠ .dormant → ((L.hold d (l ++ r)).place t = p ↔ L.place t = p) := by
    intro t p h1 h2
    simp only [Ladder.hold, update_apply]
    split
    · rename_i he
      rw [he, hp]
      exact iff_of_false (Ne.symm h1) (Ne.symm h2)
    · rfl
  constructor
  · intro side i t
    rw [hplace t (.resting side i) nofun nofun]
    exact h.queue_iff side i t
  · intro t
    have hiff := h.stop_iff t
    rw [hs] at hiff
    simp only [Ladder.hold, update_apply, List.map_append, List.map_cons, List.mem_append, List.mem_cons, List.nodup_append,
      List.nodup_cons] at hn hiff ⊢
    by_cases hts : t = d.slot
    · simp only [hts, if_true, reduceCtorEq, and_false, iff_false, not_or]
      exact ⟨fun ht => hn.2.2 _ ht d.slot (by simp) rfl, hn.2.1.1⟩
    · rw [if_neg hts, ← hiff]
      simp [hts]
  · intro t
    simp only [Ladder.hold, update_apply, Option.map_some, Option.some.injEq]
    by_cases hts : t = d.slot
    · simp [hts, hlt]
    · have := h.held_iff t
      rw [hnone] at this
      rw [if_neg hts, ← this]
      simp [Ne.symm hts]
  · intro t
    rw [hplace t .free nofun nofun]
    exact h.free_iff t
  · exact h.queue_nodup
  · exact hn.sublist (List.Sublist.map _ (List.Sublist.append (List.Sublist.refl l) (List.sublist_cons_self d r)))
  · exact h.free_nodup
  · exact h.chain
  · exact h.range

/-- A slot in no queue becomes the tail of one. -/
theorem push {L' : Ladder} {side : Side} {i : Nat} {e : Entry} (hi : i < cfg.domain.tickCount) (hlt : e.slot < cfg.maxOrders)
    (hout : ∀ side i, L.place e.slot ≠ .resting side i)
    (hqueue : L'.queue = (L.setQueue side i (L.queue side i ++ [e])).queue)
    (hplace : L'.place = update L.place e.slot (.resting side i)) (hs : L'.stops = L.stops)
    (hst : L.place e.slot ≠ .dormant) (hheld : ∀ t, L'.held.map Dormant.slot = some t ↔ t ≠ e.slot ∧ t < cfg.maxOrders ∧ L.place t = .held)
    (hfree : ∀ t, t ∈ L'.free ↔ t ≠ e.slot ∧ t < cfg.maxOrders ∧ L.place t = .free) (hfn : L'.free.Nodup)
    (hc : ∀ l s r, L'.free = l ++ s :: r → L'.freeNext s = r.head?.getD kInvalidIndex) : L'.Wf cfg := by
  have hp : ∀ t p, (∀ side i, p ≠ .resting side i) → (L'.place t = p ↔ t ≠ e.slot ∧ L.place t = p) := by
    intro t p h1
    rw [hplace, update_apply]
    split
    · rename_i he
      exact iff_of_false (Ne.symm (h1 side i)) (fun hn => hn.1 he)
    · rename_i he
      simp [he]
  constructor
  · intro side' i' t
    rw [hqueue, setQueue_queue, hplace, update_apply]
    have hiff := h.queue_iff side' i' t
    by_cases hsame : side' = side ∧ i' = i
    · obtain ⟨rfl, rfl⟩ := hsame
      rw [if_pos ⟨rfl, rfl⟩, List.map_append, List.mem_append, hiff, List.map_singleton, List.mem_singleton]
      by_cases hte : t = e.slot
      · simp [hte, hlt]
      · simp [hte]
    · rw [if_neg hsame, hiff]
      by_cases hte : t = e.slot
      · subst hte
        rw [if_pos rfl]
        refine iff_of_false (fun ht => hout side' i' ht.2) (fun ht => hsame ?_)
        cases ht.2
        exact ⟨rfl, rfl⟩
      · rw [if_neg hte]
  · intro t
    rw [hs, h.stop_iff t, hp t .dormant (fun _ _ => nofun)]
    refine ⟨fun ht => ⟨ht.1, fun he => hst (he ▸ ht.2), ht.2⟩, fun ht => ⟨ht.1, ht.2.2⟩⟩
  · intro t
    rw [hheld, hp t .held (fun _ _ => nofun)]
    exact and_left_comm
  · intro t
    rw [hfree, hp t .free (fun _ _ => nofun)]
    exact and_left_comm
  · intro side' i'
    rw [hqueue, setQueue_queue]
    split
    · rename_i he
      rw [List.map_append, List.map_singleton, List.nodup_append]
      refine ⟨h.queue_nodup side i, by simp, fun x hx y hy hxy => ?_⟩
      rw [List.mem_singleton] at hy
      rw [hxy, hy] at hx
      exact hout side i ((h.queue_iff side i e.slot).mp hx).2
    · exact h.queue_nodup side' i'
  · rw [hs]
    exact h.stops_nodup
  · exact hfn
  · exact hc
  · intro side' i' hi'
    rw [hqueue, setQueue_queue, if_neg (by omega), h.range side' i' hi']

/-- The free list without its head. -/
theorem free_tail {s : Nat} {free : List Nat} (hf : L.free = s :: free) :
    (s < cfg.maxOrders ∧ L.place s = .free) ∧ (∀ t, t ∈ free ↔ t ≠ s ∧ t < cfg.maxOrders ∧ L.place t = .free) ∧ free.Nodup ∧
      (∀ l t r, free = l ++ t :: r → L.freeNext t = r.head?.getD kInvalidIndex) ∧
      L.freeNext s = free.head?.getD kInvalidIndex := by
  have hn := h.free_nodup
  rw [hf, List.nodup_cons] at hn
  refine ⟨h.place_of_free (by simp [hf]), fun t => ?_, hn.2, fun l t r he => h.chain (s :: l) t r (by rw [hf, he]; rfl),
    h.chain [] s free (by rw [hf]; rfl)⟩
  rw [← h.free_iff t, hf, List.mem_cons]
  constructor
  · intro ht
    exact ⟨fun he => hn.1 (he ▸ ht), Or.inr ht⟩
  · rintro ⟨hts, ht | ht⟩
    · exact absurd ht hts
    · exact ht

/-- The first free slot is taken, and held. -/
theorem acquire {s : Nat} {free : List Nat} (hf : L.free = s :: free) (hnone : L.held = none) {d : Dormant} (hd : d.slot = s) :
    { L with free, held := some d, place := update L.place s .held, accepted := L.accepted + 1 }.Wf cfg := by
  obtain ⟨⟨hlt, hp⟩, hfree, hn, hc, -⟩ := h.free_tail hf
  have hplace : ∀ t p, p ≠ .held → p ≠ .free → (update L.place s .held t = p ↔ L.place t = p) := by
    intro t p h1 h2
    rw [update_apply]
    split
    · rename_i he
      rw [he, hp]
      exact iff_of_false (Ne.symm h1) (Ne.symm h2)
    · rfl
  constructor
  · intro side i t
    dsimp only
    rw [hplace t (.resting side i) nofun nofun]
    exact h.queue_iff side i t
  · intro t
    dsimp only
    rw [hplace t .dormant nofun nofun]
    exact h.stop_iff t
  · intro t
    simp only [Option.map_some, Option.some.injEq, hd, update_apply]
    by_cases hts : t = s
    · simp [hts, hlt]
    · have := h.held_iff t
      rw [hnone] at this
      rw [if_neg hts, ← this]
      simp [Ne.symm hts]
  · intro t
    simp only [hfree, update_apply]
    by_cases hts : t = s
    · simp [hts]
    · simp [hts]
  · exact h.queue_nodup
  · exact h.stops_nodup
  · exact hn
  · exact hc
  · exact h.range

/-- The held stop joins the dormant ones. -/
theorem sleep {d : Dormant} (hd : L.held = some d) :
    { L with stops := L.stops ++ [d], held := none, place := update L.place d.slot .dormant }.Wf cfg := by
  obtain ⟨hlt, hp⟩ := h.place_of_held hd
  have hplace : ∀ t p, p ≠ .held → p ≠ .dormant → (update L.place d.slot .dormant t = p ↔ L.place t = p) := by
    intro t p h1 h2
    rw [update_apply]
    split
    · rename_i he
      rw [he, hp]
      exact iff_of_false (Ne.symm h2) (Ne.symm h1)
    · rfl
  constructor
  · intro side i t
    dsimp only
    rw [hplace t (.resting side i) nofun nofun]
    exact h.queue_iff side i t
  · intro t
    simp only [List.map_append, List.map_singleton, List.mem_append, List.mem_singleton, update_apply, h.stop_iff t]
    by_cases hts : t = d.slot
    · simp [hts, hlt]
    · simp [hts]
  · intro t
    have := h.held_iff t
    rw [hd, Option.map_some, Option.some.injEq] at this
    simp only [Option.map_none, reduceCtorEq, update_apply, false_iff, not_and]
    intro hl
    by_cases hts : t = d.slot
    · simp [hts]
    · rw [if_neg hts]
      exact fun hpl => hts (this.mpr ⟨hl, hpl⟩).symm
  · intro t
    dsimp only
    rw [hplace t .free nofun nofun]
    exact h.free_iff t
  · exact h.queue_nodup
  · simp only [List.map_append, List.map_singleton, List.nodup_append]
    refine ⟨h.stops_nodup, by simp, fun x hx y hy hxy => ?_⟩
    rw [List.mem_singleton] at hy
    rw [hxy, hy] at hx
    have := ((h.stop_iff d.slot).mp hx).2
    rw [hp] at this
    cases this
  · exact h.free_nodup
  · exact h.chain
  · exact h.range

/-- A new order rests. -/
theorem rest {id trader : Nat} {side : Side} {i remaining display : Nat} (hi : i < cfg.domain.tickCount) :
    (L.rest id trader side i remaining display).2.Wf cfg := by
  unfold Ladder.rest
  split
  · exact h
  · rename_i s free hf
    split
    · obtain ⟨⟨hlt, hp⟩, hfree, hn, hc, -⟩ := h.free_tail hf
      refine h.push (i := i) (e := ⟨s, id, trader, remaining, display, display, L.accepted, _, _, _, _⟩) hi hlt
        ?_ rfl rfl rfl ?_ ?_ hfree hn hc
      · rw [hp]
        exact nofun
      · rw [hp]
        exact nofun
      · intro t
        refine (h.held_iff t).trans ⟨fun ht => ⟨fun he => ?_, ht⟩, And.right⟩
        rw [show t = s from he, hp] at ht
        cases ht.2
    · exact h

/-- The held stop's remainder rests. -/
theorem settle {d : Dormant} {i remaining : Nat} (hd : L.held = some d) (hi : i < cfg.domain.tickCount) :
    (L.settle d i remaining).Wf cfg := by
  unfold Ladder.settle
  split
  · obtain ⟨hlt, hp⟩ := h.place_of_held hd
    refine h.push (i := i) (e := ⟨d.slot, d.id, 0, remaining, remaining, remaining, d.serial, _, _, _, _⟩) hi hlt
      ?_ rfl rfl rfl ?_ ?_ ?_ h.free_nodup h.chain
    · rw [hp]
      exact nofun
    · rw [hp]
      exact nofun
    · intro t
      have := h.held_iff t
      rw [hd, Option.map_some, Option.some.injEq] at this
      simp only [Option.map_none, reduceCtorEq, false_iff, not_and]
      exact fun hts hlt hpl => hts (this.mpr ⟨hlt, hpl⟩).symm
    · intro t
      refine (h.free_iff t).trans ⟨fun ht => ⟨fun he => ?_, ht⟩, And.right⟩
      rw [show t = d.slot from he, hp] at ht
      cases ht.2
  · exact h

end Moves

/-- The ladder of a new book. -/
theorem create (cfg : BookConfig) (state : TradingState) : (Ladder.create cfg state).Wf cfg where
  queue_iff side i s := by simp [Ladder.create]
  stop_iff s := by simp [Ladder.create]
  held_iff s := by simp [Ladder.create]
  free_iff s := by simp [Ladder.create]
  queue_nodup side i := by simp [Ladder.create]
  stops_nodup := by simp [Ladder.create]
  free_nodup := List.nodup_range
  chain l s r he := by
    simp only [Ladder.create] at he ⊢
    have hlen := congrArg List.length he
    simp only [List.length_range, List.length_append, List.length_cons] at hlen
    have hs : s = l.length := by
      have := congrArg (fun x => x[l.length]?) he
      simpa [List.getElem?_append_right, show l.length < cfg.maxOrders by omega] using this.symm
    cases r with
    | nil =>
      rw [if_pos (by simp at hlen; omega)]
      rfl
    | cons y r =>
      have hy : y = l.length + 1 := by
        have := congrArg (fun x => x[l.length + 1]?) he
        simpa [List.getElem?_append_right, show l.length + 1 < cfg.maxOrders by simp at hlen; omega] using this.symm
      rw [if_neg (by simp at hlen; omega), hs, hy]
      rfl
  range side i _ := rfl

end Wf

end Ladder

end MatchingEngine

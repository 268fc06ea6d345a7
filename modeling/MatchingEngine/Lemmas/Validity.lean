import MatchingEngine.Lemmas.Repr
import MatchingEngine.Lemmas.Visits
import Mathlib.Data.Finset.Card
import Mathlib.Data.Finset.Range

/-!
# When the orders of a book form a valid graph

What `check_invariants` decides, said without walking: there are lists, one for each level and one for the dormant stops, that the links
spell, whose orders are as orders there must be, that carry the counts and sums the book keeps, and that together hold every live order
once.
-/

namespace MatchingEngine

open Function

/-- A live index is one of the arena's. -/
theorem OrderArena.lt_of_isLiveIndex {a : OrderArena} {s : Nat} (h : a.isLiveIndex s = true) : s < a.capacity := by
  rw [isLiveIndex, Bool.and_eq_true, decide_eq_true_eq] at h
  exact h.1

namespace OrderBook

/-- What an order that rests on a level is like. -/
structure RestsAt (b : OrderBook) (side : Side) (i s : Nat) : Prop where
  live : b.arena.isLiveIndex s = true
  side : (b.arena.orderAt s).side = side
  level : (b.arena.orderAt s).level = i
  remaining : 0 < (b.arena.orderAt s).remaining
  flags : (b.arena.orderAt s).reservedFlags = 0
  displayed_pos : 0 < b.displayedRemaining s
  displayed_le : b.displayedRemaining s ≤ min (b.displayQuantities s) (b.arena.orderAt s).remaining

/-- What a dormant stop is like: it has the dormant flag, and no other than the market flag. -/
structure SleepsAt (b : OrderBook) (s : Nat) : Prop where
  live : b.arena.isLiveIndex s = true
  dormant : (b.arena.orderAt s).dormant = true
  flags : (b.arena.orderAt s).reservedFlags &&& (2 ^ 32 - 1 - (kOrderFlagDormantStop ||| kOrderFlagStopMarket)) = 0
  remaining : 0 < (b.arena.orderAt s).remaining

/-- The quantities left of the orders in these slots, summed. -/
def quantity (b : OrderBook) (xs : List Nat) : Nat := (xs.map fun s => (b.arena.orderAt s).remaining).sum

/-- A level is the list `xs`; an empty one has neither head nor tail nor aggregate. -/
structure LevelHolds (b : OrderBook) (side : Side) (i : Nat) (xs : List Nat) : Prop where
  links : Links.Holds kInvalidIndex (b.links side i) xs
  orders : ∀ s ∈ xs, b.RestsAt side i s
  count : (b.level side i).orderCount = xs.length
  aggregate : (b.level side i).aggregateQuantity = b.quantity xs

/-- The stop list is the list `xs`. -/
structure StopsHold (b : OrderBook) (xs : List Nat) : Prop where
  links : Links.Holds kInvalidIndex b.stopLinks xs
  orders : ∀ s ∈ xs, b.SleepsAt s
  count : b.dormantStopCount = xs.length

/-- The slots in a stop list and in queues, one after another. -/
def slotsOf (b : OrderBook) (stops : List Nat) (queues : Side → Nat → List Nat) : List Nat :=
  stops ++ (List.range b.cfg.domain.tickCount).flatMap (queues .buy) ++ (List.range b.cfg.domain.tickCount).flatMap (queues .sell)

/-- The book is the graph of a stop list and of queues: they hold every live order exactly once, as many as the arena counts; the bitmaps
are consistent and mark the queues that are not empty; and in continuous trading no bid reaches an ask. -/
structure Graph (b : OrderBook) (stops : List Nat) (queues : Side → Nat → List Nat) : Prop where
  sleeping : b.StopsHold stops
  levels : ∀ side i, i < b.cfg.domain.tickCount → b.LevelHolds side i (queues side i)
  live : (b.slotsOf stops queues).Perm b.arena.liveSlots
  size : b.arena.size = (b.slotsOf stops queues).length
  bitmaps : ∀ side, (b.occupancy side).Consistent
  occupancy : ∀ side i, i < b.cfg.domain.tickCount → ((b.occupancy side).bitAt 0 i = true ↔ queues side i ≠ [])
  uncrossed : b.tradingState = .continuous → ∀ bid ask, bid < b.cfg.domain.tickCount → ask < b.cfg.domain.tickCount →
    queues .buy bid ≠ [] → queues .sell ask ≠ [] → bid < ask

/-- The book is the graph of some lists. -/
def Valid (b : OrderBook) : Prop := ∃ stops queues, b.Graph stops queues

/-- What holds of a book whatever stands in its orders, links, levels and bitmap words: the bitmaps have the layout that their constructor
gave them, an aggregate is a `std::uint64_t`, an index is a `std::uint32_t`, and no mark, which the checks alone write, is beyond the
visit epoch. -/
structure Typed (b : OrderBook) : Prop where
  capacity : b.arena.capacity < 2 ^ 32
  shape : ∀ side, (b.occupancy side).Shape
  bits : ∀ side, (b.occupancy side).bitCount = b.cfg.domain.tickCount
  aggregate : ∀ side i, i < b.cfg.domain.tickCount → (b.level side i).aggregateQuantity < 2 ^ 64
  marks : ∀ s, s < b.arena.capacity → b.visitMarks s ≤ b.visitEpoch

end OrderBook

/-! ## Visiting a list -/

namespace Progress

/-- The orders of a list are marked and counted. -/
def visitAll (p : Progress) (epoch : Nat) (xs : List Nat) : Progress := xs.foldl (fun p s => p.visit epoch s) p

/-- The orders of a list are distinct and not marked yet. -/
def Fresh (p : Progress) (epoch : Nat) (xs : List Nat) : Prop := xs.Nodup ∧ ∀ s ∈ xs, p.marks s ≠ epoch

/-- How many slots are not marked. -/
def unmarked (p : Progress) (n epoch : Nat) : Nat := ((Finset.range n).filter fun s => p.marks s ≠ epoch).card

variable {p : Progress} {epoch s : Nat} {xs ys : List Nat}

/-- Marking a slot leaves one slot less to mark. -/
theorem unmarked_visit {n : Nat} (hs : s < n) (hm : p.marks s ≠ epoch) : (p.visit epoch s).unmarked n epoch < p.unmarked n epoch := by
  refine Finset.card_lt_card ((Finset.ssubset_iff_of_subset fun t ht => ?_).mpr ⟨s, ?_, ?_⟩)
  · rw [Finset.mem_filter] at ht ⊢
    refine ⟨ht.1, fun h => ht.2 ?_⟩
    simp only [visit, update_apply]
    split
    · rfl
    · exact h
  · exact Finset.mem_filter.mpr ⟨Finset.mem_range.mpr hs, hm⟩
  · exact fun h => (Finset.mem_filter.mp h).2 (by simp only [visit, update_self])

/-- Without slots nothing is visited. -/
@[simp] theorem visitAll_nil : p.visitAll epoch [] = p := rfl

/-- The slots are visited in their order. -/
theorem visitAll_cons : p.visitAll epoch (s :: xs) = (p.visit epoch s).visitAll epoch xs := rfl

/-- Two lists are visited one after the other. -/
theorem visitAll_append : p.visitAll epoch (xs ++ ys) = (p.visitAll epoch xs).visitAll epoch ys := List.foldl_append

/-- Every visit is counted. -/
theorem reachable_visitAll : (p.visitAll epoch xs).reachable = p.reachable + xs.length := by
  induction xs generalizing p with
  | nil => rfl
  | cons s xs ih =>
    rw [visitAll_cons, ih, List.length_cons]
    exact Nat.add_right_comm p.reachable 1 xs.length

/-- The slots visited bear the mark of the epoch, and the others keep theirs. -/
theorem marks_visitAll (t : Nat) : (p.visitAll epoch xs).marks t = if t ∈ xs then epoch else p.marks t := by
  induction xs generalizing p with
  | nil => rfl
  | cons s xs ih =>
    rw [visitAll_cons, ih]
    by_cases hx : t ∈ xs
    · rw [if_pos hx, if_pos (List.mem_cons_of_mem _ hx)]
    · simp only [visit, update_apply, List.mem_cons, hx, or_false, if_false]

/-- Visits keep the marks within the epoch. -/
theorem Within.visitAll {n : Nat} (h : p.Within n epoch) (xs : List Nat) : (p.visitAll epoch xs).Within n epoch := by
  intro s hs
  rw [marks_visitAll]
  split
  · exact Nat.le_refl _
  · exact h s hs

/-- No slots are fresh. -/
theorem fresh_nil : p.Fresh epoch [] := ⟨List.nodup_nil, fun _ hs => absurd hs List.not_mem_nil⟩

/-- Two lists are fresh if the second still is after the visits to the first. -/
theorem fresh_append : p.Fresh epoch (xs ++ ys) ↔ p.Fresh epoch xs ∧ (p.visitAll epoch xs).Fresh epoch ys := by
  unfold Fresh
  simp only [List.nodup_append, marks_visitAll]
  constructor
  · rintro ⟨⟨hx, hy, hxy⟩, hm⟩
    refine ⟨⟨hx, fun s hs => hm s (List.mem_append_left _ hs)⟩, hy, fun s hs => ?_⟩
    rw [if_neg fun hsx => hxy s hsx s hs rfl]
    exact hm s (List.mem_append_right _ hs)
  · rintro ⟨⟨hx, hmx⟩, hy, hmy⟩
    have hout : ∀ s ∈ ys, s ∉ xs := fun s hs hsx => hmy s hs (if_pos hsx)
    refine ⟨⟨hx, hy, fun s hs t ht hst => hout t ht (hst ▸ hs)⟩, fun s hs => ?_⟩
    rcases List.mem_append.mp hs with hs | hs
    · exact hmx s hs
    · have := hmy s hs
      rwa [if_neg (hout s hs)] at this

/-- A slot and a list are fresh if the list still is after the visit to the slot. -/
theorem fresh_cons : p.Fresh epoch (s :: xs) ↔ p.marks s ≠ epoch ∧ (p.visit epoch s).Fresh epoch xs := by
  have h := @fresh_append p epoch [s] xs
  rw [List.singleton_append] at h
  rw [h]
  exact and_congr_left fun _ => ⟨fun h => h.2 s List.mem_cons_self, fun h => ⟨List.nodup_singleton s, by simpa using h⟩⟩

end Progress

end MatchingEngine

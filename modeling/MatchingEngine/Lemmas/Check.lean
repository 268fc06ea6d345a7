import MatchingEngine.Lemmas.Decide
import MatchingEngine.Lemmas.Operations

/-!
# The invariant check accepts a book that represents a ladder

A book that represents a ladder whose level sums are `std::uint64_t` values and which is not crossed in continuous trading is the graph of
the ladder's stops and queues, so `check_invariants` returns and reports no violation.
-/

namespace MatchingEngine

open Comp Function

namespace Rep

variable {gh : Prop} {cfg : BookConfig} {b : OrderBook} {L : Ladder} (h : Rep gh cfg b L)

include h

/-- The live slots are those that are not free. -/
theorem isLiveIndex {s : Nat} (hs : s < cfg.maxOrders) : b.arena.isLiveIndex s = true ↔ L.place s ≠ .free := by
  simp [OrderArena.isLiveIndex, h.arena.capacity, hs, h.arena.live s hs]

/-- A book with other visit marks. -/
theorem setMarks {marks : Nat → Nat} {epoch : Nat} (hle : ∀ s, s < cfg.maxOrders → marks s ≤ epoch) :
    Rep gh cfg { b with visitMarks := marks, visitEpoch := epoch } L where
  wf := h.wf
  cfg_eq := h.cfg_eq
  arena := h.arena
  queues := ⟨h.queues.links, h.queues.count, h.queues.aggregate, h.queues.occupancy⟩
  entries side i e hm := (h.entries side i e hm).congr ⟨rfl, rfl, rfl, rfl, rfl, rfl⟩ rfl rfl
  stops := h.stops
  stopCount := h.stopCount
  dormants d hd := (h.dormants d hd).congr ⟨rfl, rfl, rfl, rfl, rfl, rfl⟩ rfl rfl
  heldSerial := h.heldSerial
  lastPrice := h.lastPrice
  tradingState := h.tradingState
  activations := h.activations
  epochs := h.epochs
  marks := hle

end Rep

/-! ## All slots are visited -/

namespace Ladder

variable {cfg : BookConfig} {L : Ladder}

/-- The slots of a side, level by level. -/
def sideSlots (cfg : BookConfig) (L : Ladder) (side : Side) : List Nat :=
  (List.range' 0 cfg.domain.tickCount).flatMap fun j => (L.queue side j).map Entry.slot

/-- The slots in use: those of the dormant stops, the bids and the asks. -/
def liveSlots (cfg : BookConfig) (L : Ladder) : List Nat := L.stops.map Dormant.slot ++ L.sideSlots cfg .buy ++ L.sideSlots cfg .sell

namespace Wf

variable (h : L.Wf cfg)

include h

/-- The slots of a side are those of the orders that rest on it. -/
theorem mem_sideSlots {side : Side} {s : Nat} : s ∈ L.sideSlots cfg side ↔ s < cfg.maxOrders ∧ ∃ i, L.place s = .resting side i := by
  simp only [sideSlots, List.mem_flatMap, List.mem_range'_1]
  constructor
  · rintro ⟨i, -, hi⟩
    obtain ⟨h1, h2⟩ := (h.queue_iff side i s).mp hi
    exact ⟨h1, i, h2⟩
  · rintro ⟨h1, i, h2⟩
    have hm := (h.queue_iff side i s).mpr ⟨h1, h2⟩
    obtain ⟨e, he, -⟩ := List.mem_map.mp hm
    exact ⟨i, ⟨Nat.zero_le _, by have := h.level_lt he; omega⟩, hm⟩

/-- No slot is twice on a side. -/
theorem sideSlots_nodup (side : Side) : (L.sideSlots cfg side).Nodup := by
  rw [sideSlots, List.nodup_flatMap]
  refine ⟨fun i _ => h.queue_nodup side i, ?_⟩
  refine (List.nodup_range' (s := 0) (n := cfg.domain.tickCount)).imp fun {i j} hne s hi hj => ?_
  have h1 := ((h.queue_iff side i s).mp hi).2
  rw [((h.queue_iff side j s).mp hj).2] at h1
  cases h1
  exact hne rfl

/-- Outside an activation, a slot is in use exactly when it is not free. -/
theorem mem_liveSlots (hnone : L.held = none) {s : Nat} : s ∈ L.liveSlots cfg ↔ s < cfg.maxOrders ∧ L.place s ≠ .free := by
  simp only [liveSlots, List.mem_append, h.stop_iff, h.mem_sideSlots]
  constructor
  · rintro ((⟨hs, hp⟩ | ⟨hs, i, hp⟩) | ⟨hs, i, hp⟩)
    · exact ⟨hs, by rw [hp]; exact nofun⟩
    · exact ⟨hs, by rw [hp]; exact nofun⟩
    · exact ⟨hs, by rw [hp]; exact nofun⟩
  · rintro ⟨hs, hp⟩
    cases hplace : L.place s with
    | free => exact absurd hplace hp
    | held =>
      have := (h.held_iff s).mpr ⟨hs, hplace⟩
      rw [hnone] at this
      cases this
    | dormant => exact Or.inl (Or.inl ⟨hs, rfl⟩)
    | resting side i =>
      cases side with
      | buy => exact Or.inl (Or.inr ⟨hs, i, rfl⟩)
      | sell => exact Or.inr ⟨hs, i, rfl⟩

theorem liveSlots_nodup : (L.liveSlots cfg).Nodup := by
  have h1 : (L.stops.map Dormant.slot ++ L.sideSlots cfg .buy).Nodup := by
    refine List.nodup_append.mpr ⟨h.stops_nodup, h.sideSlots_nodup .buy, fun s hs t ht hst => ?_⟩
    subst hst
    obtain ⟨-, i, hp⟩ := h.mem_sideSlots.mp ht
    rw [((h.stop_iff s).mp hs).2] at hp
    cases hp
  refine List.nodup_append.mpr ⟨h1, h.sideSlots_nodup .sell, fun s hs t ht hst => ?_⟩
  subst hst
  obtain ⟨-, i, hp⟩ := h.mem_sideSlots.mp ht
  rcases List.mem_append.mp hs with hs | hs
  · rw [((h.stop_iff s).mp hs).2] at hp
    cases hp
  · obtain ⟨-, j, hp'⟩ := h.mem_sideSlots.mp hs
    rw [hp'] at hp
    cases hp

/-- The slots in use and the free slots are all slots, each once. -/
theorem liveSlots_perm (hnone : L.held = none) : (L.liveSlots cfg ++ L.free).Perm (List.range cfg.maxOrders) := by
  have hn : (L.liveSlots cfg ++ L.free).Nodup := by
    refine List.nodup_append.mpr ⟨h.liveSlots_nodup, h.free_nodup, fun s hs t ht hst => ?_⟩
    subst hst
    exact ((h.mem_liveSlots hnone).mp hs).2 (h.place_of_free ht).2
  refine (List.perm_ext_iff_of_nodup hn List.nodup_range).mpr fun s => ?_
  rw [List.mem_append, h.mem_liveSlots hnone, h.free_iff, List.mem_range]
  constructor
  · rintro (hs | hs)
    · exact hs.1
    · exact hs.1
  · intro hs
    by_cases hp : L.place s = .free
    · exact Or.inr ⟨hs, hp⟩
    · exact Or.inl ⟨hs, hp⟩

end Wf

end Ladder

/-! ## The slots a book reaches -/

section Slots

variable {gh : Prop} {cfg : BookConfig} {b : OrderBook} {L : Ladder}

/-- A list of different numbers below `n` has at most `n` of them. -/
theorem length_le_of_nodup {xs : List Nat} {n : Nat} (hn : xs.Nodup) (hlt : ∀ x ∈ xs, x < n) : xs.length ≤ n := by
  have := hn.subperm fun x hx => List.mem_range.mpr (hlt x hx)
  simpa using this.length_le

/-- The slots of a level are those of its queue. -/
theorem Rep.levelSlots (h : Rep gh cfg b L) (side : Side) (i : Nat) : b.levelSlots side i = (L.queue side i).map Entry.slot := by
  have hlen := length_le_of_nodup (h.wf.queue_nodup side i) fun s hs => ((h.wf.queue_iff side i s).mp hs).1
  rw [← h.arena.capacity] at hlen
  exact (h.queues.links side i).walk hlen

/-- The stop list spells the stops. -/
theorem Rep.stopSlots (h : Rep gh cfg b L) : b.stopSlots = L.stops.map Dormant.slot := by
  have hlen := length_le_of_nodup h.wf.stops_nodup fun s hs => ((h.wf.stop_iff s).mp hs).1
  rw [← h.arena.capacity] at hlen
  exact h.stops.walk hlen

/-- What can be reached is what is live. -/
theorem Rep.reachableSlots (h : Rep gh cfg b L) : b.reachableSlots = L.liveSlots cfg := by
  have hside : ∀ side, (List.range b.cfg.domain.tickCount).flatMap (b.levelSlots side) = L.sideSlots cfg side := by
    intro side
    rw [h.cfg_eq, Ladder.sideSlots, ← List.range_eq_range', funext (h.levelSlots side)]
  rw [OrderBook.reachableSlots, h.stopSlots, hside, hside, Ladder.liveSlots]

end Slots

/-! ## The graph of a ladder -/

namespace Rep

variable {gh : Prop} {cfg : BookConfig} {b : OrderBook} {L : Ladder} (h : Rep gh cfg b L)

include h

/-- A resting order passes the checks of its level. -/
theorem restsAt {side : Side} {i : Nat} {e : Entry} (he : e ∈ L.queue side i) : b.RestsAt side i e.slot := by
  have hat := h.entries side i e he
  have hpos := e.displayed_pos
  have hle := e.displayed_le_remaining
  refine ⟨(h.isLiveIndex (h.entry_lt he)).mpr ?_, h.entry_side he, h.entry_level he, ?_, hat.flags, ?_, ?_⟩
  · rw [(h.wf.place_of_mem he).2]
    exact nofun
  · rw [hat.remaining]
    omega
  · rwa [hat.displayed]
  · rw [hat.displayed, hat.display, hat.remaining]
    exact Nat.le_min.mpr ⟨e.displayed_le, hle⟩

/-- A stop passes the checks of the stop list. -/
theorem sleepsAt {d : Dormant} (hd : d ∈ L.stops) : b.SleepsAt d.slot := by
  have hat := h.dormants d hd
  refine ⟨(h.isLiveIndex (h.stop_lt hd)).mpr ?_, h.stop_dormant hd, ?_, ?_⟩
  · rw [(h.wf.place_of_stop hd).2]
    exact nofun
  · rw [hat.flags, Dormant.flags]
    cases d.limit.isSome <;> decide
  · rw [hat.remaining]
    exact d.remaining_pos

theorem levelHolds {side : Side} {i : Nat} (hsum : L.total side i < 2 ^ 64) :
    b.LevelHolds side i ((L.queue side i).map Entry.slot) where
  links := h.queues.links side i
  orders s hs := by
    obtain ⟨e, he, rfl⟩ := List.mem_map.mp hs
    exact h.restsAt he
  count := by
    rw [List.length_map]
    exact h.queues.count side i
  aggregate := by
    have hagg : (b.level side i).aggregateQuantity = L.levelQuantity side i := h.queues.aggregate side i
    rw [hagg, Ladder.levelQuantity, Nat.mod_eq_of_lt hsum, Ladder.total, OrderBook.quantity, List.map_map]
    exact congrArg List.sum (List.map_congr_left fun e he => (h.entries side i e he).remaining.symm)

/-- The stop list holds the stops. -/
theorem stopsHold : b.StopsHold (L.stops.map Dormant.slot) where
  links := h.stops
  orders s hs := by
    obtain ⟨d, hd, rfl⟩ := List.mem_map.mp hs
    exact h.sleepsAt hd
  count := by rw [h.stopCount, List.length_map]

theorem slotsOf : b.slotsOf (L.stops.map Dormant.slot) (fun side i => (L.queue side i).map Entry.slot) = L.liveSlots cfg := by
  rw [OrderBook.slotsOf, h.cfg_eq, List.range_eq_range']
  rfl

/-- A book that represents a ladder is the graph of its stops and its queues. -/
theorem graph (hnone : L.held = none) (hsum : ∀ side i, L.total side i < 2 ^ 64)
    (huncrossed : L.tradingState = .continuous → L.Uncrossed) :
    b.Graph (L.stops.map Dormant.slot) fun side i => (L.queue side i).map Entry.slot where
  sleeping := h.stopsHold
  levels side i _ := h.levelHolds (hsum side i)
  live := by
    rw [h.slotsOf]
    refine (List.perm_ext_iff_of_nodup h.wf.liveSlots_nodup (List.nodup_range.filter _)).mpr fun s => ?_
    rw [← OrderArena.liveSlots, OrderBook.mem_liveSlots, h.wf.mem_liveSlots hnone]
    refine ⟨fun hs => (h.isLiveIndex hs.1).mpr hs.2, fun hs => ?_⟩
    have hlt : s < cfg.maxOrders := h.arena.capacity ▸ OrderArena.lt_of_isLiveIndex hs
    exact ⟨hlt, (h.isLiveIndex hlt).mp hs⟩
  size := by
    have hperm := (h.wf.liveSlots_perm hnone).length_eq
    have hsize := h.arena.size
    rw [List.length_append, List.length_range] at hperm
    rw [h.slotsOf]
    omega
  bitmaps side := (h.queues.occupancy side).consistent
  occupancy side i hi := by
    rw [(h.queues.occupancy side).base i (h.cfg_eq ▸ hi)]
    exact not_congr List.map_eq_nil_iff.symm
  uncrossed hts bid ask _ _ hb ha :=
    huncrossed (h.tradingState ▸ hts) bid ask (mt List.map_eq_nil_iff.mpr hb) (mt List.map_eq_nil_iff.mpr ha)

/-- The fields are of their types. -/
theorem typed : b.Typed where
  capacity := by
    rw [h.arena.capacity]
    exact cfg.maxOrders_lt
  shape side := (h.queues.occupancy side).shape
  bits side := by rw [(h.queues.occupancy side).bits, h.cfg_eq]
  aggregate side i _ := by
    have hagg : (b.level side i).aggregateQuantity = L.levelQuantity side i := h.queues.aggregate side i
    rw [hagg]
    exact Nat.mod_lt _ (Nat.two_pow_pos 64)
  marks s hs := h.marks s (h.arena.capacity ▸ hs)

end Rep

/-! ## Whatever it finds -/

/-- `check_invariants` changes nothing but its own marks, whatever it reports. -/
theorem Rep.of_checkInvariants {gh : Prop} {cfg : BookConfig} {b b' : OrderBook} {L : Ladder} {result : InvariantResult}
    (h : Rep gh cfg b L) (hr : b.checkInvariants.Returns (result, b')) : Rep gh cfg b' L := by
  obtain ⟨m, e, rfl, hle⟩ := OrderBook.checkInvariants_marked (Nat.le_of_eq h.arena.capacity.symm) h.marks hr
  exact h.setMarks hle

/-- `check_invariants` accepts a book that represents a ladder. -/
theorem Rep.checkInvariants {gh : Prop} {cfg : BookConfig} {b : OrderBook} {L : Ladder} (h : Rep gh cfg b L) (hnone : L.held = none)
    (hsum : ∀ side i, L.total side i < 2 ^ 64) (huncrossed : L.tradingState = .continuous → L.Uncrossed) :
    ∃ b', b.checkInvariants.Returns (invariantHolds (L.liveSlots cfg).length, b') ∧ Rep gh cfg b' L := by
  obtain ⟨b', hr⟩ := (h.graph hnone hsum huncrossed).checkInvariants h.typed
  rw [h.slotsOf] at hr
  exact ⟨b', hr, h.of_checkInvariants hr⟩

end MatchingEngine

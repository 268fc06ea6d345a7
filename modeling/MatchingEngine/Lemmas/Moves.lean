import MatchingEngine.Lemmas.Repr

/-!
# The book's primitives move the ladder

Reading: the best and next levels, the head of a queue, the order of a handle. Writing: each primitive of the book takes a book that
represents a ladder to one that represents the ladder after the corresponding move.
-/

namespace MatchingEngine

open Function HierarchicalBitmap

/-! ## Reading -/

namespace Rep

variable {gh : Prop} {cfg : BookConfig} {b : OrderBook} {L : Ladder}

/-- No slot has the invalid index. -/
theorem slot_ne_invalid {cfg : BookConfig} {s : Nat} (hs : s < cfg.maxOrders) : s ≠ kInvalidIndex := by
  have := cfg.maxOrders_lt
  simp only [kInvalidIndex]
  omega

theorem level_lt_pow {cfg : BookConfig} {i : Nat} (hi : i < cfg.domain.tickCount) : i < 2 ^ 31 := by
  have := cfg.ticks_le
  simp only [kMaximumPriceLevels] at this
  omega

section

variable (h : Rep gh cfg b L)

include h

theorem bestIndex (side : Side) : b.bestIndex side = L.best cfg side := by
  have hn := cfg.domain.tickCount_pos
  have hocc := h.queues.occupancy side
  symm
  cases side with
  | buy =>
    have hs := hocc.lastSet
    refine LadderAux.sorted_head (Ladder.occupied_pairwise .buy) (fun ho => ?_) (fun r ho => ?_)
    · rw [OrderBook.bestIndex] at ho
      rw [ho] at hs
      refine List.eq_nil_iff_forall_not_mem.mpr fun j hj => ?_
      obtain ⟨hj, hq⟩ := Ladder.mem_occupied.mp hj
      exact hs j (by omega) hq
    · rw [OrderBook.bestIndex] at ho
      rw [ho] at hs
      obtain ⟨h1, h2, h3⟩ := hs
      refine ⟨Ladder.mem_occupied.mpr ⟨by omega, h2⟩, fun j hj hb => ?_⟩
      obtain ⟨hj, hq⟩ := Ladder.mem_occupied.mp hj
      exact h3 j hb (by omega) hq
  | sell =>
    have hs := hocc.firstSet
    refine LadderAux.sorted_head (Ladder.occupied_pairwise .sell) (fun ho => ?_) (fun r ho => ?_)
    · rw [OrderBook.bestIndex] at ho
      rw [ho] at hs
      refine List.eq_nil_iff_forall_not_mem.mpr fun j hj => ?_
      obtain ⟨hj, hq⟩ := Ladder.mem_occupied.mp hj
      exact hs j (Nat.zero_le j) hj hq
    · rw [OrderBook.bestIndex] at ho
      rw [ho] at hs
      obtain ⟨-, h1, h2, h3⟩ := hs
      refine ⟨Ladder.mem_occupied.mpr ⟨h1, h2⟩, fun j hj hb => ?_⟩
      obtain ⟨hj, hq⟩ := Ladder.mem_occupied.mp hj
      exact h3 j (Nat.zero_le j) hb hq

/-- `next_level` steps along the occupied levels. -/
theorem nextLevel {side : Side} {pre post : List Nat} {i : Nat} (ho : L.occupied cfg side = pre ++ i :: post) :
    b.nextLevel side i = post.head? := by
  have hocc := h.queues.occupancy side
  have hpw : (L.occupied cfg side).Pairwise (betterLevel side) := Ladder.occupied_pairwise side
  have hi : i < cfg.domain.tickCount := (Ladder.mem_occupied.mp (by rw [ho]; simp : i ∈ L.occupied cfg side)).1
  have hmem : ∀ j, j ∈ pre ++ i :: post ↔ j < cfg.domain.tickCount ∧ L.queue side j ≠ [] := fun j => by
    rw [← ho]
    exact Ladder.mem_occupied
  rw [ho] at hpw
  symm
  cases side with
  | buy =>
    refine LadderAux.sorted_next (betterLevel_irrefl .buy) (betterLevel_trans .buy) hpw (fun hnone j hj hb => ?_) (fun r hr => ?_)
    · rw [OrderBook.nextLevel] at hnone
      have hb' : j < i := hb
      rw [if_neg (by omega)] at hnone
      have hs := hocc.previousSet (i := i - 1) (by omega)
      rw [hnone] at hs
      exact hs j (by omega) ((hmem j).mp hj).2
    · simp only [OrderBook.nextLevel] at hr
      split at hr
      · cases hr
      · have hs := hocc.previousSet (i := i - 1) (by omega)
        rw [hr] at hs
        obtain ⟨h1, h2, h3⟩ := hs
        refine ⟨(hmem r).mpr ⟨by omega, h2⟩, show r < i by omega, fun j hj hij hjr => ?_⟩
        have hij' : j < i := hij
        exact h3 j hjr (by omega) ((hmem j).mp hj).2
  | sell =>
    refine LadderAux.sorted_next (betterLevel_irrefl .sell) (betterLevel_trans .sell) hpw (fun hnone j hj hb => ?_) (fun r hr => ?_)
    · rw [OrderBook.nextLevel, h.cfg_eq] at hnone
      have hb' : i < j := hb
      obtain ⟨hj, hq⟩ := (hmem j).mp hj
      rw [if_neg (by omega)] at hnone
      have hs := hocc.nextSet (i := i + 1) (by omega)
      rw [hnone] at hs
      exact hs j (by omega) hj hq
    · simp only [OrderBook.nextLevel, h.cfg_eq] at hr
      split at hr
      · cases hr
      · have hs := hocc.nextSet (i := i + 1) (by omega)
        rw [hr] at hs
        obtain ⟨h1, h2, h3, h4⟩ := hs
        refine ⟨(hmem r).mpr ⟨h2, h3⟩, show i < r by omega, fun j hj hij hjr => ?_⟩
        have hij' : i < j := hij
        exact h4 j (by omega) hjr ((hmem j).mp hj).2

/-- Whether an order would meet the other side. -/
theorem hasCrossingOrder (side : Side) (limit : Nat) : b.hasCrossingOrder side limit = L.crossing cfg side limit := by
  rewrite [OrderBook.hasCrossingOrder, Ladder.crossing, h.bestIndex]
  rfl

theorem stopIsTriggered (side : Side) (trigger : Int) : b.stopIsTriggered side trigger = L.triggered side trigger := by
  rewrite [OrderBook.stopIsTriggered, Ladder.triggered, h.lastPrice]
  rfl

/-- The arena is full if no slot is free. -/
theorem arenaFull : b.arena.size = b.arena.capacity ↔ L.free = [] := by
  have hs := h.arena.size
  rw [h.arena.capacity, ← List.length_eq_zero_iff]
  omega

theorem headIndex (side : Side) (i : Nat) :
    (b.level side i).headIndex = ((L.queue side i).head?.map Entry.slot).getD kInvalidIndex := by
  have := (h.queues.links side i).head
  rwa [List.head?_map] at this

/-- The side of a resting order. -/
theorem entry_side {side : Side} {i : Nat} {e : Entry} (he : e ∈ L.queue side i) : (b.arena.orderAt e.slot).side = side := by
  rw [Order.side, (h.entries side i e he).encoded, ReprAux.decodeSide_encode (level_lt_pow (h.wf.level_lt he))]

/-- The level of a resting order. -/
theorem entry_level {side : Side} {i : Nat} {e : Entry} (he : e ∈ L.queue side i) : (b.arena.orderAt e.slot).level = i := by
  rw [Order.level, (h.entries side i e he).encoded, ReprAux.decodeLevel_encode (level_lt_pow (h.wf.level_lt he))]

/-- A resting order is not dormant. -/
theorem entry_dormant {side : Side} {i : Nat} {e : Entry} (he : e ∈ L.queue side i) : (b.arena.orderAt e.slot).dormant = false := by
  simp [Order.dormant, (h.entries side i e he).flags]

theorem stop_side {d : Dormant} (hd : d ∈ L.stops) : (b.arena.orderAt d.slot).side = d.side := by
  rw [Order.side, (h.dormants d hd).encoded, ReprAux.decodeSide_encode (by decide)]

theorem stop_dormant {d : Dormant} (hd : d ∈ L.stops) : (b.arena.orderAt d.slot).dormant = true := by
  rw [Order.dormant, (h.dormants d hd).flags, Dormant.flags]
  cases d.limit <;> simp [kOrderFlagDormantStop, kOrderFlagStopMarket]

/-- A market stop has no limit. -/
theorem stop_market {d : Dormant} (hd : d ∈ L.stops) : (b.arena.orderAt d.slot).stopMarket = d.limit.isNone := by
  rw [Order.stopMarket, (h.dormants d hd).flags, Dormant.flags]
  cases d.limit <;> simp [kOrderFlagDormantStop, kOrderFlagStopMarket]

theorem handleAt {s : Nat} (hs : s < cfg.maxOrders) : b.arena.handleAt s = L.handleAt s := by
  rw [OrderArena.handleAt, Ladder.handleAt, h.arena.generation s hs]

/-- The slot of an order is in the arena. -/
theorem entry_lt {side : Side} {i : Nat} {e : Entry} (he : e ∈ L.queue side i) : e.slot < cfg.maxOrders :=
  (h.wf.place_of_mem he).1

theorem generation_ne_zero {s : Nat} (hs : s < cfg.maxOrders) : (b.arena.slots s).generation ≠ 0 := by
  rw [h.arena.generation s hs]
  exact Nat.succ_ne_zero _

/-- `release` of a slot that is not free. -/
theorem release {s : Nat} (hs : s < cfg.maxOrders) (hp : L.place s ≠ .free) :
    b.arena.release (b.arena.handleAt s) =
      { b.arena with
        slots := update b.arena.slots s
          { b.arena.slots s with
            live := false
            generation := nextGeneration (b.arena.slots s).generation
            freeNext := b.arena.freeHead
            releases := (b.arena.slots s).releases + 1 }
        freeHead := s
        size := b.arena.size - 1 } :=
  OrderArena.release_of_live (by rw [h.arena.capacity]; exact hs) ((h.arena.live s hs).mpr hp) (h.generation_ne_zero hs)

end

end Rep

/-! ## Giving slots back -/

/-- The generation after one release more. -/
theorem generationOf_succ (r : Nat) : nextGeneration (generationOf r) = generationOf (r + 1) := by
  unfold nextGeneration generationOf
  split <;> omega

/-- A slot that is not free is released. -/
theorem ArenaRepr.release {gh : Prop} {cfg : BookConfig} {a : OrderArena} {L L' : Ladder} (h : ArenaRepr gh cfg a L) {s : Nat}
    (hs : s < cfg.maxOrders) (hp : L.place s ≠ .free) (hw : L.Wf cfg) (hplace : L'.place = update L.place s .free)
    (hfree : L'.free = s :: L.free) (hnext : L'.freeNext = update L.freeNext s (L.free.head?.getD kInvalidIndex))
    (hrel : L'.releases = update L.releases s (L.releases s + 1)) (hacc : L'.accepted = L.accepted) :
    ArenaRepr gh cfg (a.release (a.handleAt s)) L' := by
  have hgen := h.generation s hs
  rw [OrderArena.release_of_live (by rw [h.capacity]; exact hs) ((h.live s hs).mpr hp)
    (by rw [hgen]; exact Nat.succ_ne_zero _)]
  have hsize := h.size
  have hlt := hw.free_length_lt hs hp
  refine ⟨h.capacity, fun t ht => ?_, fun t ht => ?_, fun t ht => ?_, ?_, ?_, fun hg => ?_, fun hg t ht => ?_⟩
  · by_cases hts : t = s
    · simp [hts, hplace]
    · simp [hts, hplace, h.live t ht]
  · by_cases hts : t = s
    · simp [hts, hrel, hgen, generationOf_succ]
    · simp [hts, hrel, h.generation t ht]
  · by_cases hts : t = s
    · simp [hts, hnext, h.freeHead]
    · simp [hts, hnext, h.freeNext t ht]
  · simp [hfree]
  · simp only [hfree, List.length_cons]
    omega
  · simp [hacc, h.accepted hg]
  · by_cases hts : t = s
    · simp [hts, hrel, h.releases hg s hs]
    · simp [hts, hrel, h.releases hg t ht]

/-! ## Queues -/

/-- One queue is relinked and the others are left alone. -/
theorem QueuesRepr.relink {cfg : BookConfig} {b b' : OrderBook} {L L' : Ladder} (h : QueuesRepr cfg b L) (hw : L.Wf cfg)
    {side : Side} {i : Nat} {q : List Entry} (hL' : L'.queue = (L.setQueue side i q).queue)
    (hl : Links.Holds kInvalidIndex (b'.links side i) (q.map Entry.slot))
    (hframe : ∀ s, s ∉ (L.queue side i).map Entry.slot → s ∉ q.map Entry.slot →
      b'.arena.next s = b.arena.next s ∧ b'.arena.prev s = b.arena.prev s)
    (hnew : ∀ s ∈ q.map Entry.slot, s ∈ (L.queue side i).map Entry.slot ∨ ∀ side i, L.place s ≠ .resting side i)
    (hlev : ∀ side' i', ¬(side' = side ∧ i' = i) → b'.levels side' i' = b.levels side' i')
    (hcount : (b'.levels side i).orderCount = q.length)
    (hagg : (b'.levels side i).aggregateQuantity = (q.map Entry.remaining).sum % 2 ^ 64)
    (hocc : ∀ side', (b'.occupancy side').Holds cfg.domain.tickCount fun i' => L'.queue side' i' ≠ []) :
    QueuesRepr cfg b' L' where
  links side' i' := by
    rw [hL', Ladder.setQueue_queue]
    by_cases hsame : side' = side ∧ i' = i
    · obtain ⟨rfl, rfl⟩ := hsame
      rw [if_pos ⟨rfl, rfl⟩]
      exact hl
    · rw [if_neg hsame]
      have hout : ∀ s ∈ (L.queue side' i').map Entry.slot, s ∉ (L.queue side i).map Entry.slot ∧ s ∉ q.map Entry.slot := by
        intro s hs
        have hp := ((hw.queue_iff side' i' s).mp hs).2
        have hq : s ∉ (L.queue side i).map Entry.slot := fun hm => by
          have := ((hw.queue_iff side i s).mp hm).2
          rw [hp] at this
          cases this
          exact hsame ⟨rfl, rfl⟩
        refine ⟨hq, fun hm => ?_⟩
        rcases hnew s hm with hm | hm
        · exact hq hm
        · exact hm side' i' hp
      refine (h.links side' i').congr ?_ ?_ (fun s hs => ?_) (fun s hs => ?_)
      · simp only [hlev side' i' hsame]
      · simp only [hlev side' i' hsame]
      · exact (hframe s (hout s hs).1 (hout s hs).2).1
      · exact (hframe s (hout s hs).1 (hout s hs).2).2
  count side' i' := by
    rw [hL', Ladder.setQueue_queue]
    by_cases hsame : side' = side ∧ i' = i
    · obtain ⟨rfl, rfl⟩ := hsame
      rw [if_pos ⟨rfl, rfl⟩, hcount]
    · rw [if_neg hsame, hlev side' i' hsame, h.count side' i']
  aggregate side' i' := by
    rw [Ladder.levelQuantity, Ladder.total, hL', Ladder.setQueue_queue]
    by_cases hsame : side' = side ∧ i' = i
    · obtain ⟨rfl, rfl⟩ := hsame
      rw [if_pos ⟨rfl, rfl⟩, hagg]
    · rw [if_neg hsame, hlev side' i' hsame, h.aggregate side' i']
      rfl
  occupancy := hocc

/-- A write to one level, seen at every level. -/
@[simp] theorem OrderBook.setLevel_levels (b : OrderBook) (side : Side) (i : Nat) (v : PriceLevel) (side' : Side) (i' : Nat) :
    (b.setLevel side i v).levels side' i' = if side' = side ∧ i' = i then v else b.levels side' i' := by
  simp only [OrderBook.setLevel, update_apply]
  by_cases hs : side' = side
  · subst hs
    simp only [if_true, true_and, update_apply]
  · simp [hs]

/-- The same levels are occupied when the queue that changes is empty no more and no less than before. -/
theorem Rep.occupancy_same {gh : Prop} {cfg : BookConfig} {b : OrderBook} {L : Ladder} (h : Rep gh cfg b L) {side : Side} {i : Nat}
    {q : List Entry} (hq : q ≠ [] ↔ L.queue side i ≠ []) (side' : Side) :
    (b.occupancy side').Holds cfg.domain.tickCount fun i' => (L.setQueue side i q).queue side' i' ≠ [] := by
  refine (h.queues.occupancy side').congr fun j _ => ?_
  rw [Ladder.setQueue_queue]
  split
  · rename_i he
    obtain ⟨rfl, rfl⟩ := he
    exact hq.symm
  · rfl

section Primitives

variable {gh : Prop} {cfg : BookConfig} {b b' : OrderBook} {L L' : Ladder} {side : Side} {i : Nat} {l r : List Entry} {e : Entry}

/-- The dormant stops' slots are in no queue. -/
theorem Rep.stop_notMem (h : Rep gh cfg b L) {d : Dormant} (hd : d ∈ L.stops) (side : Side) (i : Nat) :
    d.slot ∉ (L.queue side i).map Entry.slot := by
  intro hm
  have h1 := ((h.wf.queue_iff side i d.slot).mp hm).2
  rw [(h.wf.place_of_stop hd).2] at h1
  cases h1

/-- The entries of another queue have other slots. -/
theorem Rep.other_notMem (h : Rep gh cfg b L) {side' : Side} {i' : Nat} (hne : ¬(side' = side ∧ i' = i)) {e : Entry}
    (he : e ∈ L.queue side' i') : e.slot ∉ (L.queue side i).map Entry.slot := by
  intro hm
  have h1 := ((h.wf.queue_iff side i e.slot).mp hm).2
  rw [(h.wf.place_of_mem he).2] at h1
  cases h1
  exact hne ⟨rfl, rfl⟩

/-- What an operation on a queue leaves alone in the book. -/
structure OnlyQueues (b b' : OrderBook) : Prop where
  cfg : b'.cfg = b.cfg
  stopHead : b'.stopHead = b.stopHead
  stopTail : b'.stopTail = b.stopTail
  stopCount : b'.dormantStopCount = b.dormantStopCount
  lastPrice : b'.lastExecutionPrice = b.lastExecutionPrice
  tradingState : b'.tradingState = b.tradingState
  activations : b'.stopActivations = b.stopActivations
  epochs : b'.tradeReportEpochs = b.tradeReportEpochs
  epoch : b'.tradeReportEpoch = b.tradeReportEpoch
  marks : b'.visitMarks = b.visitMarks
  visit : b'.visitEpoch = b.visitEpoch

/-- What an operation on a queue leaves alone in the ladder. -/
structure OnlyQueue (L L' : Ladder) (side : Side) (i : Nat) (q : List Entry) : Prop where
  queue : L'.queue = (L.setQueue side i q).queue
  stops : L'.stops = L.stops
  lastPrice : L'.lastPrice = L.lastPrice
  tradingState : L'.tradingState = L.tradingState
  activations : L'.activations = L.activations

/-- A queue that is put in place changes nothing else. -/
theorem onlyQueue_setQueue (L : Ladder) (side : Side) (i : Nat) (q : List Entry) : OnlyQueue L (L.setQueue side i q) side i q :=
  ⟨rfl, rfl, rfl, rfl, rfl⟩

/-- One queue changes to `q`: the book represents the changed ladder when the links, the cached values and the entries of that one
queue are right and no other slot is touched. -/
theorem Rep.requeue (h : Rep gh cfg b L) {q : List Entry} {p : PriceLevel} (hb : OnlyQueues b b') (hL : OnlyQueue L L' side i q) (hwf : L'.Wf cfg)
    (harena : ArenaRepr gh cfg b'.arena L')
    (hnew : ∀ s ∈ q.map Entry.slot, s ∈ (L.queue side i).map Entry.slot ∨ L.place s = .held)
    (hslots : ∀ s, s ∉ (L.queue side i).map Entry.slot → s ∉ q.map Entry.slot →
      SameSlot b b' s ∧ (b'.arena.next s = b.arena.next s ∧ b'.arena.prev s = b.arena.prev s) ∧
        b'.stopNextIndices s = b.stopNextIndices s ∧ b'.stopPrevIndices s = b.stopPrevIndices s)
    (hlinks : Links.Holds kInvalidIndex ⟨b'.arena.next, b'.arena.prev, p.headIndex, p.tailIndex⟩ (q.map Entry.slot))
    (hlev : ∀ side' i', b'.levels side' i' = if side' = side ∧ i' = i then p else b.levels side' i')
    (hcount : p.orderCount = q.length) (hagg : p.aggregateQuantity = (q.map Entry.remaining).sum % 2 ^ 64)
    (hocc : ∀ side', (b'.occupancy side').Holds cfg.domain.tickCount fun i' => (L.setQueue side i q).queue side' i' ≠ [])
    (hentries : ∀ e ∈ q, EntryAt gh b' side i e)
    (hheld : gh → ∀ d, L'.held = some d → (b'.arena.slots d.slot).serial = d.serial) : Rep gh cfg b' L' := by
  have hout : ∀ s, s ∉ (L.queue side i).map Entry.slot → L.place s ≠ .held → s ∉ q.map Entry.slot := by
    intro s h1 h2 hm
    rcases hnew s hm with hm | hm
    · exact h1 hm
    · exact h2 hm
  have hstopOut : ∀ d ∈ L.stops, d.slot ∉ q.map Entry.slot := fun d hd =>
    hout _ (h.stop_notMem hd side i) (by rw [(h.wf.place_of_stop hd).2]; exact nofun)
  have hslot : ∀ d ∈ L.stops, _ := fun d hd => hslots d.slot (h.stop_notMem hd side i) (hstopOut d hd)
  refine
    { wf := hwf
      cfg_eq := hb.cfg.trans h.cfg_eq
      arena := harena
      queues := ?_
      entries := fun side' i' e' he' => ?_
      stops := ?_
      stopCount := by rw [hb.stopCount, hL.stops, h.stopCount]
      dormants := fun d hd => ?_
      heldSerial := hheld
      lastPrice := by rw [hb.lastPrice, hL.lastPrice, h.lastPrice]
      tradingState := by rw [hb.tradingState, hL.tradingState, h.tradingState]
      activations := by rw [hb.activations, hL.activations, h.activations]
      epochs := by rw [hb.epochs, hb.epoch]; exact h.epochs
      marks := by rw [hb.marks, hb.visit]; exact h.marks }
  · have hp : b'.levels side i = p := by rw [hlev, if_pos ⟨rfl, rfl⟩]
    refine h.queues.relink h.wf hL.queue (by rw [OrderBook.links, hp]; exact hlinks) (fun s h1 h2 => (hslots s h1 h2).2.1)
      (fun s hs => ?_) (fun side' i' hne => by rw [hlev, if_neg hne]) (by rw [hp]; exact hcount) (by rw [hp]; exact hagg)
      (by rw [hL.queue]; exact hocc)
    rcases hnew s hs with hs | hs
    · exact Or.inl hs
    · exact Or.inr fun _ _ => by rw [hs]; exact nofun
  · rw [hL.queue, Ladder.setQueue_queue] at he'
    split at he'
    · rename_i hc
      obtain ⟨rfl, rfl⟩ := hc
      exact hentries e' he'
    · rename_i hc
      have hn := h.other_notMem hc he'
      have hn' := hout _ hn (by rw [(h.wf.place_of_mem he').2]; exact nofun)
      obtain ⟨h1, -, h2, h3⟩ := hslots _ hn hn'
      exact (h.entries side' i' e' he').congr h1 h3 h2
  · rw [hL.stops]
    refine h.stops.congr hb.stopHead hb.stopTail (fun s hs => ?_) (fun s hs => ?_)
    · obtain ⟨d, hd, rfl⟩ := List.mem_map.mp hs
      exact (hslot d hd).2.2.1
    · obtain ⟨d, hd, rfl⟩ := List.mem_map.mp hs
      exact (hslot d hd).2.2.2
  · rw [hL.stops] at hd
    obtain ⟨h1, ⟨h2, h3⟩, -⟩ := hslot d hd
    exact (h.dormants d hd).congr h1 h3 h2

/-- The links of a level spell its queue. -/
theorem Rep.links_holds (h : Rep gh cfg b L) (hq : L.queue side i = l ++ e :: r) :
    Links.Holds kInvalidIndex (b.links side i) (l.map Entry.slot ++ e.slot :: r.map Entry.slot) := by
  have := h.queues.links side i
  rwa [hq, List.map_append, List.map_cons] at this

/-- The links after `move_to_tail`. -/
theorem OrderBook.links_moveToTail (b : OrderBook) (side : Side) (i s : Nat) (htail : ¬(b.level side i).tailIndex = s) :
    (⟨(b.arena.moveToTail (b.arena.prev s) (b.arena.next s) (b.level side i).tailIndex s).next,
        (b.arena.moveToTail (b.arena.prev s) (b.arena.next s) (b.level side i).tailIndex s).prev,
        ((b.level side i).moveToTail (b.arena.prev s) (b.arena.next s) s).headIndex, s⟩ : Links) =
      (b.links side i).moveToTail kInvalidIndex s := by
  have htail' : ¬(b.links side i).tail = s := htail
  rw [Links.moveToTail, if_neg htail']
  simp only [OrderArena.moveToTail, OrderArena.next_setNext, OrderArena.next_setPrev, OrderArena.prev_setNext,
    OrderArena.prev_setPrev, PriceLevel.moveToTail, OrderBook.level]
  by_cases hp : b.arena.prev s = kInvalidIndex
  · simp [hp]
  · simp [hp]

/-- `move_to_tail`, where the last order stays in its place. -/
theorem Rep.moveToTail (h : Rep gh cfg b L) (hq : L.queue side i = l ++ e :: r) :
    Rep gh cfg (b.moveToTail e.slot) (L.setQueue side i (l ++ r ++ [e])) := by
  have he : e ∈ L.queue side i := by rw [hq]; simp
  have hlinks := h.links_holds hq
  have hs := h.entry_side he
  have hl := h.entry_level he
  by_cases htail : (b.level side i).tailIndex = e.slot
  · have hr : r = [] := by
      by_contra hne
      have ht := hlinks.tail
      rw [show (b.links side i).tail = e.slot from htail] at ht
      obtain ⟨x, r, rfl⟩ := List.exists_cons_of_ne_nil hne
      have hm : e.slot ∈ (x :: r).map Entry.slot := by
        rw [ht, List.map_cons]
        exact Links.last_cons_mem _ _ _ _
      exact (hlinks.right_notMem hm).1 rfl
    subst hr
    have : b.moveToTail e.slot = b := by
      simp only [OrderBook.moveToTail, hs, hl, if_pos htail]
    rw [this, List.append_nil, ← hq, Ladder.setQueue_self]
    exact h
  · have hbook : b.moveToTail e.slot =
        (b.setLevel side i ((b.level side i).moveToTail (b.arena.prev e.slot) (b.arena.next e.slot) e.slot)).setArena
          (b.arena.moveToTail (b.arena.prev e.slot) (b.arena.next e.slot) (b.level side i).tailIndex e.slot) := by
      simp only [OrderBook.moveToTail, hs, hl, if_neg htail]
      rfl
    have hsame := b.arena.sameButLinks_moveToTail (b.arena.prev e.slot) (b.arena.next e.slot) (b.level side i).tailIndex e.slot
    have hlinks' := b.links_moveToTail side i e.slot htail
    have hperm : (l ++ r ++ [e]).Perm (L.queue side i) := by
      rw [hq, List.append_assoc]
      exact List.Perm.append_left l (List.perm_append_singleton e r)
    rw [hbook]
    generalize b.arena.moveToTail (b.arena.prev e.slot) (b.arena.next e.slot) (b.level side i).tailIndex e.slot = a at hsame hlinks' ⊢
    have hslot : ∀ s, SameSlot b ((b.setLevel side i
        ((b.level side i).moveToTail (b.arena.prev e.slot) (b.arena.next e.slot) e.slot)).setArena a) s :=
      fun s => ⟨hsame.data s, rfl, rfl, rfl, rfl, rfl⟩
    refine h.requeue (i := i) ⟨rfl, rfl, rfl, rfl, rfl, rfl, rfl, rfl, rfl, rfl, rfl⟩ (onlyQueue_setQueue L side i _)
      (h.wf.setQueue (hperm.map _))
      (h.arena.of_data hsame.capacity (fun s => ?_) hsame.freeHead hsame.size hsame.accepted (fun _ => Iff.rfl) rfl
        rfl rfl rfl)
      (fun s hs => Or.inl ((hperm.map _).mem_iff.mp hs)) (fun s h1 _ => ⟨hslot s, ?_, rfl, rfl⟩) ?_
      (OrderBook.setLevel_levels b side i _) ?_ ?_ (h.occupancy_same (by simp [hq])) (fun e' he' => ?_) (fun hg d hd => ?_)
    · have := congrArg Slot.shell (hsame.data s)
      exact this
    · rw [hq, List.map_append, List.map_cons] at h1
      have := hlinks.moveToTail_frame h1
      rwa [← hlinks'] at this
    · have hmove := hlinks.moveToTail
      rw [← hlinks'] at hmove
      rw [List.map_append, List.map_append, List.map_singleton]
      exact hmove
    · exact (h.queues.count side i).trans hperm.length_eq.symm
    · rw [(hperm.map _).sum_nat]
      exact h.queues.aggregate side i
    · exact (h.entries side i e' (hperm.mem_iff.mp he')).congr (hslot _) rfl rfl
    · exact (congrArg (fun d => d.serial) (hsame.data d.slot)).trans (h.heldSerial hg d hd)

/-- An entry's quantities change in its place: the order, its level's aggregate and its displayed slice are written. -/
theorem Rep.retouch (h : Rep gh cfg b L) (hq : L.queue side i = l ++ e :: r) {e' : Entry} (aggregate : Nat)
    (hslot : e'.slot = e.slot) (hid : e'.id = e.id) (htrader : e'.trader = e.trader) (hdisplay : e'.display = e.display)
    (hserial : e'.serial = e.serial) (hagg : aggregate = ((l ++ e' :: r).map Entry.remaining).sum % 2 ^ 64) :
    Rep gh cfg
      (((b.setArena (b.arena.setOrder e.slot { b.arena.orderAt e.slot with remaining := e'.remaining })).setLevel side i
        { b.level side i with aggregateQuantity := aggregate }).setDisplayed e.slot e'.displayed)
      (L.setQueue side i (l ++ e' :: r)) := by
  have he : e ∈ L.queue side i := by rw [hq]; simp
  obtain ⟨hltl, hltr⟩ := h.wf.slot_ne_of_split hq
  have hslots : (l ++ e' :: r).map Entry.slot = (L.queue side i).map Entry.slot := by simp [hq, hslot]
  have hnext : (b.arena.setOrder e.slot { b.arena.orderAt e.slot with remaining := e'.remaining }).next = b.arena.next := by
    rw [OrderArena.next_setOrder]
    exact update_eq_self _ _
  have hprev : (b.arena.setOrder e.slot { b.arena.orderAt e.slot with remaining := e'.remaining }).prev = b.arena.prev := by
    rw [OrderArena.prev_setOrder]
    exact update_eq_self _ _
  have hdata : ∀ s, s ≠ e.slot →
      SameSlot b (((b.setArena (b.arena.setOrder e.slot { b.arena.orderAt e.slot with remaining := e'.remaining })).setLevel side i
        { b.level side i with aggregateQuantity := aggregate }).setDisplayed e.slot e'.displayed) s := fun s hs =>
    ⟨by simp [OrderBook.setDisplayed, OrderBook.setLevel, OrderBook.setArena, OrderArena.data_setOrder, hs], rfl, rfl,
      update_of_ne hs _ _, rfl, rfl⟩
  refine h.requeue (i := i) ⟨rfl, rfl, rfl, rfl, rfl, rfl, rfl, rfl, rfl, rfl, rfl⟩ (onlyQueue_setQueue L side i _)
    (h.wf.setQueue (by rw [hslots]))
    (h.arena.of_data rfl (fun s => ?_) rfl rfl rfl (fun _ => Iff.rfl) rfl rfl rfl rfl)
    (fun s hs => Or.inl (hslots ▸ hs)) (fun s h1 _ => ⟨hdata s fun hse => ?_, ⟨congrFun hnext s, congrFun hprev s⟩, rfl, rfl⟩) ?_
    (OrderBook.setLevel_levels _ side i _) ?_ hagg (h.occupancy_same (by simp [hq])) (fun x hx => ?_) (fun hg d hd => ?_)
  · change ((b.arena.setOrder e.slot _).slots s).shell = _
    simp only [OrderArena.setOrder, update_apply]
    split
    · rename_i hse
      rw [hse]
      rfl
    · rfl
  · rw [hse] at h1
    exact h1 (List.mem_map_of_mem he)
  · rw [hslots]
    exact (h.queues.links side i).congr rfl rfl (fun s _ => congrFun hnext s) (fun s _ => congrFun hprev s)
  · rw [← List.length_map (f := Entry.slot), hslots, List.length_map]
    exact h.queues.count side i
  · rcases List.mem_append.mp hx with hx | hx
    · exact (h.entries side i x (by rw [hq]; simp [hx])).congr (hdata _ (hltl x hx)) rfl rfl
    · rcases List.mem_cons.mp hx with rfl | hx
      · have hold := h.entries side i e he
        constructor <;>
          simp only [OrderBook.setDisplayed, OrderBook.setLevel, OrderBook.setArena, OrderArena.orderAt_setOrder, hslot, hid, htrader,
            hdisplay, hserial, if_true, update_self]
        · exact hold.id
        · exact hold.encoded
        · exact hold.flags
        · exact hold.trader
        · exact hold.display
        · exact hold.noTrigger
        · exact hold.noLimit
        · exact hold.noPrev
        · exact hold.noNext
        · simpa [OrderArena.setOrder] using hold.serial
      · exact (h.entries side i x (by rw [hq]; simp [hx])).congr (hdata _ (hltr x hx)) rfl rfl
  · have hne : d.slot ≠ e.slot := fun hde => by
      have h1 := (h.wf.place_of_held hd).2
      rw [hde, (h.wf.place_of_mem he).2] at h1
      cases h1
    exact (congrArg (fun d => d.serial) (hdata _ hne).data).trans (h.heldSerial hg d hd)

/-- The links after `unlink`. -/
theorem OrderBook.links_unlink (b : OrderBook) (side : Side) (i s q : Nat) :
    (⟨(b.arena.linkPast (b.arena.prev s) (b.arena.next s)).next, (b.arena.linkPast (b.arena.prev s) (b.arena.next s)).prev,
        ((b.level side i).linkPast (b.arena.prev s) (b.arena.next s) q).headIndex,
        ((b.level side i).linkPast (b.arena.prev s) (b.arena.next s) q).tailIndex⟩ : Links) =
      (b.links side i).remove kInvalidIndex s := by
  simp only [Links.remove, OrderArena.linkPast, PriceLevel.linkPast, OrderBook.level]
  by_cases hp : b.arena.prev s = kInvalidIndex <;> by_cases hn : b.arena.next s = kInvalidIndex <;> simp [hp, hn]

/-- `unlink` with the whole remaining quantity: the entry leaves its queue and its slot is given back. The write to the occupancy bitmap,
where there is one, touches nothing else. -/
theorem Rep.unlink (h : Rep gh cfg b L) (hq : L.queue side i = l ++ e :: r) :
    Rep gh cfg (b.unlink (b.arena.handleAt e.slot) e.remaining) ((L.setQueue side i (l ++ r)).release e.slot) := by
  have he : e ∈ L.queue side i := by rw [hq]; simp
  have hlt := h.entry_lt he
  have hplace := (h.wf.place_of_mem he).2
  obtain ⟨hltl, hltr⟩ := h.wf.slot_ne_of_split hq
  have hlinks := h.links_holds hq
  have hlinks' := b.links_unlink side i e.slot e.remaining
  have hsame := b.arena.sameButLinks_linkPast (b.arena.prev e.slot) (b.arena.next e.slot)
  obtain ⟨p, hp⟩ : ∃ p, p = (b.level side i).linkPast (b.arena.prev e.slot) (b.arena.next e.slot) e.remaining := ⟨_, rfl⟩
  have hcount : p.orderCount = (l ++ r).length := by
    have := h.queues.count side i
    rw [hq] at this
    rw [hp]
    simp only [PriceLevel.linkPast, OrderBook.level, this, List.length_append, List.length_cons]
    omega
  have hbook : b.unlink (b.arena.handleAt e.slot) e.remaining =
      (if p.orderCount = 0 then (b.setLevel side i p).setOccupancy side ((b.occupancy side).clear i)
        else b.setLevel side i p).setArena
          ((b.arena.linkPast (b.arena.prev e.slot) (b.arena.next e.slot)).release (b.arena.handleAt e.slot)) := by
    unfold OrderBook.unlink
    simp only [OrderArena.handleAt, h.entry_side he, h.entry_level he]
    rw [hp]
    rfl
  obtain ⟨a, ha⟩ : ∃ a, a = b.arena.linkPast (b.arena.prev e.slot) (b.arena.next e.slot) := ⟨_, rfl⟩
  rw [← ha] at hsame hbook
  rw [← hp, ← ha] at hlinks'
  have hhandle : b.arena.handleAt e.slot = a.handleAt e.slot := by
    have := congrArg Slot.generation (hsame.data e.slot)
    simp only [OrderArena.handleAt, Handle.mk.injEq, true_and]
    exact this.symm
  rw [hbook]
  obtain ⟨b0, hb0⟩ : ∃ b0, b0 = if p.orderCount = 0 then (b.setLevel side i p).setOccupancy side ((b.occupancy side).clear i)
    else b.setLevel side i p := ⟨_, rfl⟩
  rw [← hb0]
  have hb0' : OnlyQueues b b0 ∧ (∀ side' i', b0.levels side' i' = if side' = side ∧ i' = i then p else b.levels side' i') ∧
      b0.traderIds = b.traderIds ∧ b0.displayQuantities = b.displayQuantities ∧ b0.displayedRemaining = b.displayedRemaining ∧
      b0.stopTriggerPrices = b.stopTriggerPrices ∧ b0.stopLimitPrices = b.stopLimitPrices ∧
      b0.stopNextIndices = b.stopNextIndices ∧ b0.stopPrevIndices = b.stopPrevIndices := by
    rw [hb0]
    split
    · exact ⟨⟨rfl, rfl, rfl, rfl, rfl, rfl, rfl, rfl, rfl, rfl, rfl⟩, OrderBook.setLevel_levels b side i p, rfl, rfl, rfl, rfl, rfl, rfl, rfl⟩
    · exact ⟨⟨rfl, rfl, rfl, rfl, rfl, rfl, rfl, rfl, rfl, rfl, rfl⟩, OrderBook.setLevel_levels b side i p, rfl, rfl, rfl, rfl, rfl, rfl, rfl⟩
  obtain ⟨honly, hlev, e1, e2, e3, e4, e5, e6, e7⟩ := hb0'
  have hslot : ∀ s, s ≠ e.slot → SameSlot b (b0.setArena (a.release (b.arena.handleAt e.slot))) s := fun s hs =>
    ⟨(a.data_release_of_ne hs).trans (hsame.data s), congrFun e1 s, congrFun e2 s, congrFun e3 s, congrFun e4 s, congrFun e5 s⟩
  refine h.requeue (i := i) (p := p) ⟨honly.1, honly.2, honly.3, honly.4, honly.5, honly.6, honly.7, honly.8, honly.9, honly.10,
      honly.11⟩
    ⟨rfl, rfl, rfl, rfl, rfl⟩ (h.wf.take hq) ?_ (fun s hs => Or.inl ?_)
    (fun s h1 _ => ⟨hslot s ?_, ?_, congrFun e6 s, congrFun e7 s⟩) ?_ hlev hcount ?_ (fun side' => ?_) (fun x hx => ?_)
    (fun hg d hd => ?_)
  · have harena : ArenaRepr gh cfg a L :=
      h.arena.of_data hsame.capacity (fun s => by have := congrArg Slot.shell (hsame.data s); exact this) hsame.freeHead hsame.size
        hsame.accepted (fun _ => Iff.rfl) rfl rfl rfl rfl
    rw [hhandle]
    exact harena.release hlt (by rw [hplace]; rintro ⟨⟩) h.wf rfl rfl rfl rfl rfl
  · rw [hq]
    rw [List.map_append] at hs
    rw [List.map_append, List.map_cons]
    rcases List.mem_append.mp hs with hs | hs
    · exact List.mem_append_left _ hs
    · exact List.mem_append_right _ (List.mem_cons_of_mem _ hs)
  · rintro rfl
    exact h1 (List.mem_map_of_mem he)
  · have hs : s ∉ l.map Entry.slot ++ r.map Entry.slot := fun hm => h1 (by
      rw [hq, List.map_append, List.map_cons]
      rcases List.mem_append.mp hm with hm | hm
      · exact List.mem_append_left _ hm
      · exact List.mem_append_right _ (List.mem_cons_of_mem _ hm))
    have := hlinks.remove_frame hs
    rw [← hlinks'] at this
    simpa [OrderBook.setArena] using this
  · have hrem := hlinks.remove
    rw [← hlinks'] at hrem
    rw [List.map_append]
    simpa [OrderBook.setArena] using hrem
  · rw [hp]
    simp only [PriceLevel.linkPast, OrderBook.level]
    rw [h.queues.aggregate, Ladder.levelQuantity, Ladder.total, hq, sub64_mod]
    · congr 1
      simp only [List.map_append, List.map_cons, List.sum_append, List.sum_cons]
      omega
    · simp only [List.map_append, List.map_cons, List.sum_append, List.sum_cons]
      omega
  · have hi : i < cfg.domain.tickCount := h.wf.level_lt he
    change (b0.occupancy side').Holds _ _
    rw [hb0]
    by_cases hz : p.orderCount = 0
    · have hnil : l ++ r = [] := by rwa [hcount, List.length_eq_zero_iff] at hz
      rw [if_pos hz, hnil]
      simp only [OrderBook.setOccupancy, update_apply]
      split
      · rename_i hs
        subst hs
        refine ((h.queues.occupancy side').clear hi).congr fun j _ => ?_
        rw [Ladder.setQueue_queue]
        by_cases hj : j = i <;> simp [hj]
      · rename_i hs
        refine (h.queues.occupancy side').congr fun j _ => ?_
        rw [Ladder.setQueue_queue, if_neg (fun hc => hs hc.1)]
    · rw [if_neg hz]
      refine h.occupancy_same ?_ side'
      have : l ++ r ≠ [] := fun hn => hz (by rw [hcount, hn]; rfl)
      simp [hq, this]
  · rcases List.mem_append.mp hx with hx | hx
    · exact (h.entries side i x (by rw [hq]; simp [hx])).congr (hslot _ (hltl x hx)) (congrFun e7 _) (congrFun e6 _)
    · exact (h.entries side i x (by rw [hq]; simp [hx])).congr (hslot _ (hltr x hx)) (congrFun e7 _) (congrFun e6 _)
  · have hne : d.slot ≠ e.slot := fun hde => by
      have h1 := (h.wf.place_of_held hd).2
      rw [hde, hplace] at h1
      cases h1
    exact (congrArg (fun d => d.serial) (hslot _ hne).data).trans (h.heldSerial hg d hd)

/-- The links after an order is added at the tail of its level. -/
theorem OrderBook.links_pushBack (b : OrderBook) (side : Side) (i s remaining : Nat) {o : Order}
    (hp : o.prevIndex = (b.level side i).tailIndex) (hn : o.nextIndex = kInvalidIndex) {a : OrderArena}
    (ha : a = if (b.level side i).tailIndex = kInvalidIndex then b.arena.setOrder s o
      else (b.arena.setOrder s o).setNext (b.level side i).tailIndex s) :
    (⟨a.next, a.prev, ((b.level side i).pushBack s remaining).headIndex, s⟩ : Links) =
      (b.links side i).pushBack kInvalidIndex s := by
  rw [ha]
  simp only [Links.pushBack, PriceLevel.pushBack, OrderBook.level] at hp ⊢
  by_cases ht : (b.levels side i).tailIndex = kInvalidIndex
  · simp [ht, OrderArena.next_setOrder, OrderArena.prev_setOrder, hp, hn]
  · simp [ht, OrderArena.next_setOrder, OrderArena.prev_setOrder, hp, hn]

/-- The held slot becomes the tail of a level: what `rest` and `rest_existing` do once the slot is theirs. -/
theorem Rep.link (h : Rep gh cfg b L) (side : Side) {d : Dormant} (hd : L.held = some d) (hi : i < cfg.domain.tickCount) (hslot : e.slot = d.slot)
    (hserial : e.serial = d.serial) (hdisplayed : e.displayed = e.display) :
    Rep gh cfg
      ((b.setArena (b.arena.setOrder e.slot (b.restingOrder e.id side i e.remaining))).linkResting e.slot e.trader side i e.remaining
        e.display)
      { L.setQueue side i (L.queue side i ++ [e]) with held := none, place := update L.place e.slot (.resting side i) } := by
  obtain ⟨hlt, hplace⟩ := h.wf.place_of_held hd
  rw [← hslot] at hlt hplace
  have hfresh : ∀ side i, e.slot ∉ (L.queue side i).map Entry.slot := fun side i hm => by
    have := ((h.wf.queue_iff side i e.slot).mp hm).2
    rw [hplace] at this
    cases this
  obtain ⟨a, ha⟩ : ∃ a, a = if (b.level side i).tailIndex = kInvalidIndex then
      b.arena.setOrder e.slot (b.restingOrder e.id side i e.remaining)
    else (b.arena.setOrder e.slot (b.restingOrder e.id side i e.remaining)).setNext (b.level side i).tailIndex e.slot := ⟨_, rfl⟩
  have hlinks' := b.links_pushBack side i e.slot e.remaining (o := b.restingOrder e.id side i e.remaining) rfl rfl ha
  have hlinks := h.queues.links side i
  have hdata : ∀ s, a.data s = (b.arena.setOrder e.slot (b.restingOrder e.id side i e.remaining)).data s := fun s => by
    rw [ha]
    split
    · rfl
    · exact OrderArena.data_setNext _ _ _ _
  have hmeta : a.capacity = b.arena.capacity ∧ a.freeHead = b.arena.freeHead ∧ a.size = b.arena.size ∧
      a.accepted = b.arena.accepted := by
    rw [ha]
    split <;> exact ⟨rfl, rfl, rfl, rfl⟩
  have hbook : (b.setArena (b.arena.setOrder e.slot (b.restingOrder e.id side i e.remaining))).linkResting e.slot e.trader side i
        e.remaining e.display =
      ((if (b.level side i).tailIndex = kInvalidIndex then
          ((b.setResting e.slot e.trader e.display).setLevel side i ((b.level side i).pushBack e.slot e.remaining)).setOccupancy side
            ((b.occupancy side).set i)
        else (b.setResting e.slot e.trader e.display).setLevel side i
          ((b.level side i).pushBack e.slot e.remaining))).setArena a := by
    rw [ha]
    unfold OrderBook.linkResting
    by_cases ht : (b.level side i).tailIndex = kInvalidIndex
    · have ht' : ((b.setArena (b.arena.setOrder e.slot (b.restingOrder e.id side i e.remaining))).level side i).tailIndex =
          kInvalidIndex := ht
      simp only [if_pos ht, if_pos ht']
      rfl
    · have ht' : ¬((b.setArena (b.arena.setOrder e.slot (b.restingOrder e.id side i e.remaining))).level side i).tailIndex =
          kInvalidIndex := ht
      simp only [if_neg ht, if_neg ht']
      rfl
  rw [hbook]
  obtain ⟨b0, hb0⟩ : ∃ b0, b0 = if (b.level side i).tailIndex = kInvalidIndex then
      ((b.setResting e.slot e.trader e.display).setLevel side i ((b.level side i).pushBack e.slot e.remaining)).setOccupancy side
        ((b.occupancy side).set i)
    else (b.setResting e.slot e.trader e.display).setLevel side i ((b.level side i).pushBack e.slot e.remaining) := ⟨_, rfl⟩
  rw [← hb0]
  have hb0' : OnlyQueues b b0 ∧
      (∀ side' i', b0.levels side' i' =
        if side' = side ∧ i' = i then (b.level side i).pushBack e.slot e.remaining else b.levels side' i') ∧
      b0.traderIds = update b.traderIds e.slot e.trader ∧ b0.displayQuantities = update b.displayQuantities e.slot e.display ∧
      b0.displayedRemaining = update b.displayedRemaining e.slot e.display ∧
      b0.stopTriggerPrices = update b.stopTriggerPrices e.slot 0 ∧ b0.stopLimitPrices = update b.stopLimitPrices e.slot 0 ∧
      b0.stopNextIndices = update b.stopNextIndices e.slot 0 ∧ b0.stopPrevIndices = update b.stopPrevIndices e.slot 0 := by
    rw [hb0]
    split
    · exact ⟨⟨rfl, rfl, rfl, rfl, rfl, rfl, rfl, rfl, rfl, rfl, rfl⟩, OrderBook.setLevel_levels _ side i _, rfl, rfl, rfl, rfl, rfl, rfl, rfl⟩
    · exact ⟨⟨rfl, rfl, rfl, rfl, rfl, rfl, rfl, rfl, rfl, rfl, rfl⟩, OrderBook.setLevel_levels _ side i _, rfl, rfl, rfl, rfl, rfl, rfl, rfl⟩
  obtain ⟨honly, hlev, e1, e2, e3, e4, e5, e6, e7⟩ := hb0'
  have hsame : ∀ s, s ≠ e.slot → SameSlot b (b0.setArena a) s := fun s hs =>
    ⟨(hdata s).trans (by rw [OrderArena.data_setOrder, if_neg hs]), (congrFun e1 s).trans (update_of_ne hs _ _),
      (congrFun e2 s).trans (update_of_ne hs _ _), (congrFun e3 s).trans (update_of_ne hs _ _),
      (congrFun e4 s).trans (update_of_ne hs _ _), (congrFun e5 s).trans (update_of_ne hs _ _)⟩
  have hstop : ∀ s, s ≠ e.slot → b0.stopNextIndices s = b.stopNextIndices s ∧ b0.stopPrevIndices s = b.stopPrevIndices s :=
    fun s hs => ⟨(congrFun e6 s).trans (update_of_ne hs _ _), (congrFun e7 s).trans (update_of_ne hs _ _)⟩
  have hmap : (L.queue side i ++ [e]).map Entry.slot = (L.queue side i).map Entry.slot ++ [e.slot] := by simp
  refine h.requeue (i := i) (q := L.queue side i ++ [e]) (p := (b.level side i).pushBack e.slot e.remaining)
    ⟨honly.1, honly.2, honly.3, honly.4, honly.5, honly.6, honly.7, honly.8, honly.9, honly.10,
      honly.11⟩ ⟨rfl, rfl, rfl, rfl, rfl⟩ ?_ ?_ (fun s hs => ?_)
    (fun s h1 h2 => ⟨hsame s ?_, ?_, hstop s ?_⟩) ?_ hlev ?_ ?_ (fun side' => ?_) (fun x hx => ?_) (fun hg d' hd' => ?_)
  · refine h.wf.push (i := i) (e := e) hi hlt (fun _ _ => by rw [hplace]; exact nofun) rfl rfl rfl
      (by rw [hplace]; exact nofun) (fun t => ?_) (fun t => ?_) h.wf.free_nodup h.wf.chain
    · have := h.wf.held_iff t
      rw [hd, Option.map_some, Option.some.injEq, ← hslot] at this
      simp only [Option.map_none, reduceCtorEq, false_iff, not_and]
      exact fun hts hl hpl => hts (this.mpr ⟨hl, hpl⟩).symm
    · refine (h.wf.free_iff t).trans ⟨fun ht => ⟨fun hte => ?_, ht⟩, And.right⟩
      rw [hte, hplace] at ht
      cases ht.2
  · refine h.arena.of_data hmeta.1 (fun s => ?_) hmeta.2.1 hmeta.2.2.1 hmeta.2.2.2 (fun s => ?_) rfl rfl rfl rfl
    · have h1 := congrArg Slot.shell (hdata s)
      have h2 : ((b.arena.setOrder e.slot (b.restingOrder e.id side i e.remaining)).data s).shell = (b.arena.slots s).shell := by
        rw [OrderArena.data_setOrder]
        split <;> rfl
      exact h1.trans h2
    · by_cases hs : s = e.slot
      · simp [hs, hplace]
      · simp [hs]
  · rw [hmap] at hs
    rcases List.mem_append.mp hs with hs | hs
    · exact Or.inl hs
    · rw [List.mem_singleton.mp hs]
      exact Or.inr hplace
  · rintro rfl
    exact h2 (by rw [hmap]; simp)
  · have hse : s ≠ e.slot := fun hse => h2 (by rw [hmap, hse]; simp)
    have := hlinks.pushBack_frame (a := e.slot) h1 hse
    rwa [← hlinks'] at this
  · rintro rfl
    exact h2 (by rw [hmap]; simp)
  · have hpush := hlinks.pushBack (hfresh side i) (Rep.slot_ne_invalid hlt)
    rw [← hlinks'] at hpush
    rw [hmap]
    exact hpush
  · have := h.queues.count side i
    simp only [PriceLevel.pushBack, OrderBook.level, this, List.length_append, List.length_singleton]
  · simp only [PriceLevel.pushBack, OrderBook.level]
    rw [h.queues.aggregate, Ladder.levelQuantity, Ladder.total, add64_mod]
    simp
  · change (b0.occupancy side').Holds _ _
    rw [hb0]
    have htail := hlinks.tail_eq_nil
    rw [List.map_eq_nil_iff] at htail
    by_cases ht : (b.level side i).tailIndex = kInvalidIndex
    · rw [if_pos ht]
      simp only [OrderBook.setOccupancy, update_apply]
      split
      · rename_i hs
        subst hs
        refine ((h.queues.occupancy side').set hi).congr fun j _ => ?_
        rw [Ladder.setQueue_queue]
        by_cases hj : j = i <;> simp [hj]
      · rename_i hs
        refine (h.queues.occupancy side').congr fun j _ => ?_
        rw [Ladder.setQueue_queue, if_neg (fun hc => hs hc.1)]
    · rw [if_neg ht]
      refine h.occupancy_same ?_ side'
      have hne : L.queue side i ≠ [] := fun hn => ht (htail.mpr hn)
      simp [hne]
  · rcases List.mem_append.mp hx with hx | hx
    · have hne : x.slot ≠ e.slot := fun hxe => hfresh side i (hxe ▸ List.mem_map_of_mem hx)
      exact (h.entries side i x hx).congr (hsame _ hne) (hstop _ hne).2 (hstop _ hne).1
    · rw [List.mem_singleton.mp hx]
      have hd1 := hdata e.slot
      rw [OrderArena.data_setOrder, if_pos rfl] at hd1
      constructor
      · exact congrArg (fun d => d.order.id) hd1
      · exact congrArg (fun d => d.order.remaining) hd1
      · exact congrArg (fun d => d.order.encodedLevelSide) hd1
      · exact congrArg (fun d => d.order.reservedFlags) hd1
      · exact (congrFun e1 e.slot).trans (update_self _ _ _)
      · exact (congrFun e2 e.slot).trans (update_self _ _ _)
      · exact (congrFun e3 e.slot).trans ((update_self _ _ _).trans hdisplayed.symm)
      · exact (congrFun e4 e.slot).trans (update_self _ _ _)
      · exact (congrFun e5 e.slot).trans (update_self _ _ _)
      · exact (congrFun e7 e.slot).trans (update_self _ _ _)
      · exact (congrFun e6 e.slot).trans (update_self _ _ _)
      · intro hg
        have := h.heldSerial hg d hd
        rw [hserial, ← this, ← hslot]
        exact congrArg (fun d => d.serial) hd1
  · cases hd'

/-! ## Slots in no list -/

/-- Only a slot that is in no queue and no stop is touched, and it stays out of them. -/
theorem Rep.reslot (h : Rep gh cfg b L) {s : Nat} (hs : L.place s = .free ∨ L.place s = .held) (hb : OnlyQueues b b')
    (hlev : b'.levels = b.levels) (hocc : b'.occupancy = b.occupancy) (hqueue : L'.queue = L.queue) (hstops : L'.stops = L.stops)
    (hprice : L'.lastPrice = L.lastPrice) (hstate : L'.tradingState = L.tradingState) (hact : L'.activations = L.activations)
    (hwf : L'.Wf cfg) (harena : ArenaRepr gh cfg b'.arena L')
    (hslots : ∀ t, t ≠ s → SameSlot b b' t ∧ (b'.arena.next t = b.arena.next t ∧ b'.arena.prev t = b.arena.prev t) ∧
      b'.stopNextIndices t = b.stopNextIndices t ∧ b'.stopPrevIndices t = b.stopPrevIndices t)
    (hheld : gh → ∀ d, L'.held = some d → (b'.arena.slots d.slot).serial = d.serial) : Rep gh cfg b' L' := by
  have hne : ∀ t p, L.place t = p → p ≠ .free → p ≠ .held → t ≠ s := by
    rintro t p hp h1 h2 rfl
    rcases hs with hs | hs
    · exact h1 (hp.symm.trans hs)
    · exact h2 (hp.symm.trans hs)
  have hentry : ∀ side i, ∀ t ∈ (L.queue side i).map Entry.slot, t ≠ s := fun side i t ht =>
    hne t _ ((h.wf.queue_iff side i t).mp ht).2 nofun nofun
  have hstop : ∀ t ∈ L.stops.map Dormant.slot, t ≠ s := fun t ht => hne t _ ((h.wf.stop_iff t).mp ht).2 nofun nofun
  refine
    { wf := hwf
      cfg_eq := hb.cfg.trans h.cfg_eq
      arena := harena
      queues := ⟨fun side i => ?_, fun side i => ?_, fun side i => ?_, fun side => ?_⟩
      entries := fun side i e he => ?_
      stops := ?_
      stopCount := by rw [hb.stopCount, hstops, h.stopCount]
      dormants := fun d hd => ?_
      heldSerial := hheld
      lastPrice := by rw [hb.lastPrice, hprice, h.lastPrice]
      tradingState := by rw [hb.tradingState, hstate, h.tradingState]
      activations := by rw [hb.activations, hact, h.activations]
      epochs := by rw [hb.epochs, hb.epoch]; exact h.epochs
      marks := by rw [hb.marks, hb.visit]; exact h.marks }
  · rw [hqueue, OrderBook.links, hlev]
    exact (h.queues.links side i).congr rfl rfl (fun t ht => (hslots t (hentry side i t ht)).2.1.1)
      (fun t ht => (hslots t (hentry side i t ht)).2.1.2)
  · rw [hqueue, hlev]
    exact h.queues.count side i
  · rw [Ladder.levelQuantity, Ladder.total, hqueue, hlev]
    exact h.queues.aggregate side i
  · rw [hqueue, hocc]
    exact h.queues.occupancy side
  · rw [hqueue] at he
    obtain ⟨h1, -, h2, h3⟩ := hslots e.slot (hentry side i _ (List.mem_map_of_mem he))
    exact (h.entries side i e he).congr h1 h3 h2
  · rw [hstops]
    exact h.stops.congr hb.stopHead hb.stopTail (fun t ht => (hslots t (hstop t ht)).2.2.1) (fun t ht => (hslots t (hstop t ht)).2.2.2)
  · rw [hstops] at hd
    obtain ⟨h1, ⟨h2, h3⟩, -⟩ := hslots d.slot (hstop _ (List.mem_map_of_mem hd))
    exact (h.dormants d hd).congr h1 h3 h2

/-- `acquire`: the first free slot is taken, and held. -/
theorem Rep.acquire (h : Rep gh cfg b L) (hnone : L.held = none) {s : Nat} {free : List Nat} (hf : L.free = s :: free) (o : Order)
    {d : Dormant} (hd : d.slot = s) (hserial : d.serial = L.accepted) :
    (b.arena.acquire o).1 = L.handleAt s ∧
      Rep gh cfg (b.setArena (b.arena.acquire o).2)
        { L with free, held := some d, place := update L.place s .held, accepted := L.accepted + 1 } ∧
      (b.arena.acquire o).2.orderAt s = o := by
  obtain ⟨⟨hlt, hp⟩, -, -, -, hnext⟩ := h.wf.free_tail hf
  have hhead : b.arena.freeHead = s := by rw [h.arena.freeHead, hf]; rfl
  have hne : ¬b.arena.freeHead = kInvalidIndex := by rw [hhead]; exact Rep.slot_ne_invalid hlt
  have hacq : b.arena.acquire o = (b.arena.handleAt s,
      { b.arena with
        freeHead := (b.arena.slots s).freeNext
        slots := update b.arena.slots s { b.arena.slots s with order := o, live := true, serial := b.arena.accepted }
        size := b.arena.size + 1
        accepted := b.arena.accepted + 1 }) := by
    rw [OrderArena.acquire, if_neg hne, hhead]
  rw [hacq]
  refine ⟨h.handleAt hlt, ?_, by simp [OrderArena.orderAt]⟩
  refine h.reslot (s := s) (Or.inl hp) ⟨rfl, rfl, rfl, rfl, rfl, rfl, rfl, rfl, rfl, rfl, rfl⟩ rfl rfl rfl rfl rfl rfl rfl
    (h.wf.acquire hf hnone hd) ?_ (fun t ht => ⟨⟨?_, rfl, rfl, rfl, rfl, rfl⟩, ⟨?_, ?_⟩, rfl, rfl⟩) (fun hg d' hd' => ?_)
  · have hsize := h.arena.size
    rw [hf, List.length_cons] at hsize
    refine ⟨h.arena.capacity, fun t ht => ?_, fun t ht => ?_, fun t ht => ?_, ?_, ?_, fun hg => ?_, fun hg t ht => ?_⟩
    · by_cases hts : t = s
      · simp [OrderBook.setArena, hts]
      · simp [OrderBook.setArena, hts, h.arena.live t ht]
    · by_cases hts : t = s
      · simp [OrderBook.setArena, hts, h.arena.generation s hlt]
      · simp [OrderBook.setArena, hts, h.arena.generation t ht]
    · by_cases hts : t = s
      · simp [OrderBook.setArena, hts, h.arena.freeNext s hlt]
      · simp [OrderBook.setArena, hts, h.arena.freeNext t ht]
    · change (b.arena.slots s).freeNext = _
      rw [h.arena.freeNext s hlt, hnext]
    · change b.arena.size + 1 + free.length = _
      omega
    · change b.arena.accepted + 1 = _
      rw [h.arena.accepted hg]
    · by_cases hts : t = s
      · simp [OrderBook.setArena, hts, h.arena.releases hg s hlt]
      · simp [OrderBook.setArena, hts, h.arena.releases hg t ht]
  · simp [OrderBook.setArena, OrderArena.data, OrderArena.orderAt, ht]
  · simp [OrderBook.setArena, OrderArena.next, OrderArena.orderAt, ht]
  · simp [OrderBook.setArena, OrderArena.prev, OrderArena.orderAt, ht]
  · cases hd'
    rw [hd, hserial, ← h.arena.accepted hg]
    simp [OrderBook.setArena]

/-- The held slot is released. -/
theorem Rep.dropHeld (h : Rep gh cfg b L) {d : Dormant} (hd : L.held = some d) :
    Rep gh cfg (b.setArena (b.arena.release (b.arena.handleAt d.slot))) (L.dropHeld d) := by
  obtain ⟨hlt, hp⟩ := h.wf.place_of_held hd
  refine h.reslot (s := d.slot) (Or.inr hp) ⟨rfl, rfl, rfl, rfl, rfl, rfl, rfl, rfl, rfl, rfl, rfl⟩ rfl rfl rfl rfl rfl rfl rfl
    (h.wf.dropHeld hd) (h.arena.release hlt (by rw [hp]; exact nofun) h.wf rfl rfl rfl rfl rfl)
    (fun t ht => ⟨⟨b.arena.data_release_of_ne ht, rfl, rfl, rfl, rfl, rfl⟩, ⟨?_, ?_⟩, rfl, rfl⟩) (fun _ d' hd' => ?_)
  · simp [OrderBook.setArena]
  · simp [OrderBook.setArena]
  · cases hd'

/-- The displayed slice of a free slot does not matter. -/
theorem Rep.setDisplayed_free (h : Rep gh cfg b L) {s : Nat} (hp : L.place s = .free) (v : Nat) :
    Rep gh cfg (b.setDisplayed s v) L :=
  h.reslot (s := s) (Or.inl hp) ⟨rfl, rfl, rfl, rfl, rfl, rfl, rfl, rfl, rfl, rfl, rfl⟩ rfl rfl rfl rfl rfl rfl rfl h.wf h.arena
    (fun _ ht => ⟨⟨rfl, rfl, rfl, update_of_ne ht _ _, rfl, rfl⟩, ⟨rfl, rfl⟩, rfl, rfl⟩) h.heldSerial

/-! ## The stop list -/

/-- `detach_stop`: the stop is taken out of the list, and held. -/
theorem Rep.detachStop (h : Rep gh cfg b L) (hnone : L.held = none) {sl sr : List Dormant} {d : Dormant}
    (hs : L.stops = sl ++ d :: sr) : Rep gh cfg (b.detachStop d.slot) (L.hold d (sl ++ sr)) := by
  have hd : d ∈ L.stops := by rw [hs]; simp
  have hp := (h.wf.place_of_stop hd).2
  have hlinks := h.stops
  rw [hs, List.map_append, List.map_cons] at hlinks
  obtain ⟨hltl, hltr⟩ := h.wf.stop_ne_of_split hs
  have hlinks' : (b.detachStop d.slot).stopLinks = b.stopLinks.remove kInvalidIndex d.slot := by
    simp only [OrderBook.detachStop, Links.remove]
  have hframe : ∀ side i, ∀ e ∈ L.queue side i, (b.detachStop d.slot).stopNextIndices e.slot = b.stopNextIndices e.slot ∧
      (b.detachStop d.slot).stopPrevIndices e.slot = b.stopPrevIndices e.slot := by
    intro side i e he
    have hout : e.slot ∉ sl.map Dormant.slot ++ sr.map Dormant.slot := by
      intro hm
      have hm' : e.slot ∈ L.stops.map Dormant.slot := by
        rw [hs, List.map_append, List.map_cons]
        rcases List.mem_append.mp hm with hm | hm
        · exact List.mem_append_left _ hm
        · exact List.mem_append_right _ (List.mem_cons_of_mem _ hm)
      have h1 := ((h.wf.stop_iff e.slot).mp hm').2
      rw [(h.wf.place_of_mem he).2] at h1
      cases h1
    have := hlinks.remove_frame hout
    rwa [← hlinks'] at this
  have hsub : ∀ x ∈ sl ++ sr, x ∈ L.stops := fun x hx => by
    rw [hs]
    rcases List.mem_append.mp hx with hx | hx
    · exact List.mem_append_left _ hx
    · exact List.mem_append_right _ (List.mem_cons_of_mem _ hx)
  refine
    { wf := h.wf.hold hs hnone
      cfg_eq := h.cfg_eq
      arena := h.arena.of_data rfl (fun _ => rfl) rfl rfl rfl (fun s => ?_) rfl rfl rfl rfl
      queues := ⟨h.queues.links, h.queues.count, h.queues.aggregate, h.queues.occupancy⟩
      entries := fun side i e he => (h.entries side i e he).congr ⟨rfl, rfl, rfl, rfl, rfl, rfl⟩ (hframe side i e he).2
        (hframe side i e he).1
      stops := ?_
      stopCount := ?_
      dormants := fun x hx => (h.dormants x (hsub x hx)).congr ⟨rfl, rfl, rfl, rfl, rfl, rfl⟩ rfl rfl
      heldSerial := fun hg x hx => ?_
      lastPrice := h.lastPrice
      tradingState := h.tradingState
      activations := h.activations
      epochs := h.epochs
      marks := h.marks }
  · simp only [Ladder.hold, update_apply]
    split
    · rename_i he
      rw [he, hp]
      simp
    · rfl
  · have := hlinks.remove
    rw [← hlinks'] at this
    simp only [Ladder.hold, List.map_append]
    exact this
  · have := h.stopCount
    rw [hs] at this
    simp only [OrderBook.detachStop, Ladder.hold, this, List.length_append, List.length_cons]
    omega
  · cases hx
    exact (h.dormants d hd).serial hg

/-- The held slot becomes the tail of the dormant stops: what `rest_stop` does once the slot is its own. -/
theorem Rep.sleep (h : Rep gh cfg b L) {d : Dormant} (hd : L.held = some d) (hid : (b.arena.orderAt d.slot).id = d.id)
    (hrem : (b.arena.orderAt d.slot).remaining = d.remaining)
    (henc : (b.arena.orderAt d.slot).encodedLevelSide = encodeLevelSide 0 d.side)
    (hflags : (b.arena.orderAt d.slot).reservedFlags = d.flags) (hprev : (b.arena.orderAt d.slot).prevIndex = kInvalidIndex)
    (hnext : (b.arena.orderAt d.slot).nextIndex = kInvalidIndex) :
    Rep gh cfg (b.linkStop d.slot d.trigger d.limit)
      { L with stops := L.stops ++ [d], held := none, place := update L.place d.slot .dormant } := by
  obtain ⟨hlt, hp⟩ := h.wf.place_of_held hd
  have hout : d.slot ∉ L.stops.map Dormant.slot := fun hm => by
    have := ((h.wf.stop_iff d.slot).mp hm).2
    rw [hp] at this
    cases this
  have hlinks' : (b.linkStop d.slot d.trigger d.limit).stopLinks = b.stopLinks.pushBack kInvalidIndex d.slot := by
    simp only [OrderBook.linkStop, Links.pushBack]
  have hsame : ∀ s, s ≠ d.slot → SameSlot b (b.linkStop d.slot d.trigger d.limit) s := fun s hs =>
    ⟨rfl, update_of_ne hs _ _, update_of_ne hs _ _, update_of_ne hs _ _, update_of_ne hs _ _, update_of_ne hs _ _⟩
  have hframe : ∀ s, s ≠ d.slot → s ∉ L.stops.map Dormant.slot →
      (b.linkStop d.slot d.trigger d.limit).stopNextIndices s = b.stopNextIndices s ∧
        (b.linkStop d.slot d.trigger d.limit).stopPrevIndices s = b.stopPrevIndices s := by
    intro s hs hm
    have := h.stops.pushBack_frame (a := d.slot) hm hs
    rwa [← hlinks'] at this
  refine
    { wf := h.wf.sleep hd
      cfg_eq := h.cfg_eq
      arena := h.arena.of_data rfl (fun _ => rfl) rfl rfl rfl (fun s => ?_) rfl rfl rfl rfl
      queues := ⟨h.queues.links, h.queues.count, h.queues.aggregate, h.queues.occupancy⟩
      entries := fun side i e he => ?_
      stops := ?_
      stopCount := ?_
      dormants := fun x hx => ?_
      heldSerial := by rintro _ _ ⟨⟩
      lastPrice := h.lastPrice
      tradingState := h.tradingState
      activations := h.activations
      epochs := h.epochs
      marks := h.marks }
  · by_cases hs : s = d.slot
    · simp [hs, hp]
    · simp [hs]
  · have hpe := (h.wf.place_of_mem he).2
    have hne : e.slot ≠ d.slot := fun hed => by
      rw [hed, hp] at hpe
      cases hpe
    have hnot : e.slot ∉ L.stops.map Dormant.slot := fun hm => by
      have := ((h.wf.stop_iff e.slot).mp hm).2
      rw [hpe] at this
      cases this
    exact (h.entries side i e he).congr (hsame _ hne) (hframe _ hne hnot).2 (hframe _ hne hnot).1
  · have := h.stops.pushBack hout (Rep.slot_ne_invalid hlt)
    rw [hlinks', List.map_append, List.map_singleton]
    exact this
  · simp [OrderBook.linkStop, h.stopCount]
  · rcases List.mem_append.mp hx with hx | hx
    · have hne : x.slot ≠ d.slot := fun hxd => hout (hxd ▸ List.mem_map_of_mem hx)
      exact (h.dormants x hx).congr (hsame _ hne) rfl rfl
    · rw [List.mem_singleton.mp hx]
      exact ⟨hid, hrem, henc, hflags, update_self _ _ _, update_self _ _ _, update_self _ _ _, update_self _ _ _,
        update_self _ _ _, hprev, hnext, fun hg => h.heldSerial hg d hd⟩

/-- A stop's quantity changes in its place. -/
theorem Rep.amendStop (h : Rep gh cfg b L) {sl sr : List Dormant} {d d' : Dormant} (hs : L.stops = sl ++ d :: sr)
    (hslot : d'.slot = d.slot) (hid : d'.id = d.id) (hside : d'.side = d.side) (htrigger : d'.trigger = d.trigger)
    (hlimit : d'.limit = d.limit) (hserial : d'.serial = d.serial) :
    Rep gh cfg (b.setArena (b.arena.setOrder d.slot { b.arena.orderAt d.slot with remaining := d'.remaining }))
      { L with stops := sl ++ d' :: sr } := by
  have hd : d ∈ L.stops := by rw [hs]; simp
  obtain ⟨hltl, hltr⟩ := h.wf.stop_ne_of_split hs
  have hslots : (sl ++ d' :: sr).map Dormant.slot = L.stops.map Dormant.slot := by simp [hs, hslot]
  have hnext : (b.arena.setOrder d.slot { b.arena.orderAt d.slot with remaining := d'.remaining }).next = b.arena.next := by
    rw [OrderArena.next_setOrder]
    exact update_eq_self _ _
  have hprev : (b.arena.setOrder d.slot { b.arena.orderAt d.slot with remaining := d'.remaining }).prev = b.arena.prev := by
    rw [OrderArena.prev_setOrder]
    exact update_eq_self _ _
  have hdata : ∀ s, s ≠ d.slot →
      SameSlot b (b.setArena (b.arena.setOrder d.slot { b.arena.orderAt d.slot with remaining := d'.remaining })) s := fun s hse =>
    ⟨by simp [OrderBook.setArena, OrderArena.data_setOrder, hse], rfl, rfl, rfl, rfl, rfl⟩
  have hshell : ∀ s, ((b.arena.setOrder d.slot { b.arena.orderAt d.slot with remaining := d'.remaining }).slots s).shell =
      (b.arena.slots s).shell := by
    intro s
    simp only [OrderArena.setOrder, update_apply]
    split
    · rename_i hse
      rw [hse]
      rfl
    · rfl
  refine
    { wf := h.wf.of_slots (fun _ _ => rfl) hslots rfl rfl rfl rfl
      cfg_eq := h.cfg_eq
      arena := h.arena.of_data rfl hshell rfl rfl rfl (fun _ => Iff.rfl) rfl rfl rfl rfl
      queues := ⟨fun side i => ?_, h.queues.count, h.queues.aggregate, h.queues.occupancy⟩
      entries := fun side i e he => (h.entries side i e he).congr (hdata _ ?_) rfl rfl
      stops := ?_
      stopCount := ?_
      dormants := fun x hx => ?_
      heldSerial := fun hg x hx => ?_
      lastPrice := h.lastPrice
      tradingState := h.tradingState
      activations := h.activations
      epochs := h.epochs
      marks := h.marks }
  · exact (h.queues.links side i).congr rfl rfl (fun s _ => congrFun hnext s) (fun s _ => congrFun hprev s)
  · intro hed
    have h1 := (h.wf.place_of_mem he).2
    rw [hed, (h.wf.place_of_stop hd).2] at h1
    cases h1
  · rw [hslots]
    exact h.stops
  · rw [← List.length_map (f := Dormant.slot), hslots, List.length_map]
    exact h.stopCount
  · rcases List.mem_append.mp hx with hx | hx
    · exact (h.dormants x (by rw [hs]; simp [hx])).congr (hdata _ (hltl x hx)) (congrFun hprev _) (congrFun hnext _)
    · rcases List.mem_cons.mp hx with rfl | hx
      · have hold := h.dormants d hd
        constructor <;>
          simp only [OrderBook.setArena, OrderArena.orderAt_setOrder, hslot, hid, hside, htrigger, hlimit, hserial, if_true,
            Dormant.flags]
        · exact hold.id
        · exact hold.encoded
        · exact hold.flags
        · exact hold.trader
        · exact hold.display
        · exact hold.displayed
        · exact hold.trigger
        · exact hold.limit
        · exact hold.noPrev
        · exact hold.noNext
        · simpa [OrderArena.setOrder] using hold.serial
      · exact (h.dormants x (by rw [hs]; simp [hx])).congr (hdata _ (hltr x hx)) (congrFun hprev _) (congrFun hnext _)
  · have := congrArg Slot.serial (hshell x.slot)
    exact this.trans (h.heldSerial hg x hx)

end Primitives

end MatchingEngine

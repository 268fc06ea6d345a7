import MatchingEngine.Lemmas.Runs
import MatchingEngine.Lemmas.Takers
import MatchingEngine.Reflection

/-!
# The ladder in the mirror

Every operation on the reflected ladder is the reflection of the operation (`Ladder.apply_reflect`), in continuous trading. The reflections
are involutions, and each part of an operation, from the best level to the cascade, commutes with them.
-/

namespace MatchingEngine

open Function Comp

/-! ## Prices, levels and sides -/

/-- Predicates that agree on a list take the same part of it. -/
theorem takeWhile_congr {α : Type} {p q : α → Bool} {xs : List α} (h : ∀ x ∈ xs, p x = q x) : xs.takeWhile p = xs.takeWhile q := by
  induction xs with
  | nil => rfl
  | cons x xs ih =>
    rw [List.takeWhile_cons, List.takeWhile_cons, h x List.mem_cons_self, ih fun y hy => h y (List.mem_cons_of_mem x hy)]

/-- The byte of the mirrored side names the other side, and an invalid byte stays invalid. -/
theorem Side.ofRaw_reflectRaw (raw : UInt8) : Side.ofRaw (Side.reflectRaw raw) = (Side.ofRaw raw).map Side.opposite := by
  unfold Side.ofRaw Side.reflectRaw
  by_cases h0 : raw = 0
  · subst h0
    rfl
  · by_cases h1 : raw = 1
    · subst h1
      rfl
    · simp [h0, h1]

/-- The byte of a side is mirrored to the byte of the other. -/
@[simp] theorem Side.reflectRaw_raw (side : Side) : Side.reflectRaw side.raw = side.opposite.raw := by
  cases side <;> rfl

namespace PriceDomain

variable (d : PriceDomain) {i j : Nat}

/-- A price is mirrored back. -/
@[simp] theorem reflect_reflect (price : Int) : d.reflect (d.reflect price) = price := by
  unfold reflect
  omega

/-- A level is in the domain if its mirror is. -/
theorem reflectLevel_lt_iff : d.reflectLevel i < d.tickCount ↔ i < d.tickCount := by
  unfold reflectLevel
  split
  · omega
  · exact Iff.rfl

/-- A level is mirrored back. -/
@[simp] theorem reflectLevel_reflectLevel (i : Nat) : d.reflectLevel (d.reflectLevel i) = i := by
  unfold reflectLevel
  split
  · rename_i h
    rw [if_pos (by omega)]
    omega
  · rfl

/-- Different levels have different mirrors. -/
theorem reflectLevel_inj : d.reflectLevel i = d.reflectLevel j ↔ i = j := by
  constructor
  · intro h
    rw [← d.reflectLevel_reflectLevel i, h, reflectLevel_reflectLevel]
  · rintro rfl
    rfl

/-- The price of a reflected level. -/
theorem reflect_price (h : i < d.tickCount) : d.reflect (d.minimum + i) = d.minimum + d.reflectLevel i := by
  unfold reflect reflectLevel maximum
  rw [if_pos h]
  omega

/-- The level of a mirrored price is the mirrored level. -/
theorem indexOf_reflect (price : Int) : d.indexOf (d.reflect price) = (d.indexOf price).map d.reflectLevel := by
  have hreflect (p : Int) (i : Nat) (h : d.indexOf p = some i) : d.indexOf (d.reflect p) = some (d.reflectLevel i) := by
    rw [indexOf_eq_some] at h ⊢
    exact ⟨d.reflectLevel_lt_iff.mpr h.1, by rw [h.2, d.reflect_price h.1]⟩
  cases h : d.indexOf price with
  | some i => exact hreflect price i h
  | none =>
    cases h' : d.indexOf (d.reflect price) with
    | none => rfl
    | some i =>
      have := hreflect _ i h'
      rw [reflect_reflect, h] at this
      cases this

/-- The price of a mirrored level is the mirrored price. -/
theorem priceAt_reflectLevel (i : Nat) : d.priceAt (d.reflectLevel i) = (d.priceAt i).map d.reflect := by
  unfold priceAt
  by_cases h : i < d.tickCount
  · rw [if_pos h, if_pos (d.reflectLevel_lt_iff.mpr h), Option.map_some, d.reflect_price h]
  · rw [if_neg h, if_neg (mt d.reflectLevel_lt_iff.mp h), Option.map_none]

/-- In the mirror the other side crosses. -/
theorem crosses_reflect (side : Side) (hi : i < d.tickCount) (hj : j < d.tickCount) :
    crosses side.opposite (d.reflectLevel i) (d.reflectLevel j) = crosses side i j := by
  unfold reflectLevel
  rw [if_pos hi, if_pos hj]
  cases side <;> simp only [crosses, Side.opposite, decide_eq_decide] <;> omega

/-- The levels of a side, best first, are those of the other side in the mirror. -/
theorem scanOrder_reflect (side : Side) :
    Ladder.scanOrder d.tickCount side.opposite = (Ladder.scanOrder d.tickCount side).map d.reflectLevel := by
  have hrange : (List.range d.tickCount).reverse = (List.range d.tickCount).map d.reflectLevel := by
    refine List.ext_getElem (by simp) ?_
    intro i h1 h2
    rw [List.length_map, List.length_range] at h2
    simp [reflectLevel, h2]
  cases side with
  | buy =>
    show List.range d.tickCount = (List.range d.tickCount).reverse.map d.reflectLevel
    rw [hrange, List.map_map]
    conv_lhs => rw [← List.map_id (List.range d.tickCount)]
    exact List.map_congr_left fun i _ => (d.reflectLevel_reflectLevel i).symm
  | sell => exact hrange

end PriceDomain

/-- The report of a mirrored taker at the mirrored price is the mirrored report. -/
theorem Trade.reflect_makeTrade (d : PriceDomain) (side : Side) (takerId makerId quantity : Nat) (price : Int) :
    makeTrade side.opposite takerId makerId (d.reflect price) quantity = (makeTrade side takerId makerId price quantity).reflect d := by
  cases side <;> rfl

variable {cfg : BookConfig}

/-- The report of a fill in the mirror. -/
theorem Taker.report_reflect (t : Taker) {f : Fill} (h : f.level < cfg.domain.tickCount) :
    (t.reflect cfg.domain).report cfg (f.reflect cfg.domain) = (t.report cfg f).reflect cfg.domain := by
  rw [Taker.report, Taker.report, ← Trade.reflect_makeTrade, cfg.domain.reflect_price h]
  rfl

namespace Ladder

variable (L : Ladder) {side : Side} {i : Nat}

/-! ## Reading -/

/-- The queues change sides. -/
@[simp] theorem reflect_queue (side : Side) (i : Nat) : (L.reflect cfg.domain).queue side (cfg.domain.reflectLevel i) = L.queue side.opposite i := by
  simp [reflect]

/-- The trading state has no mirror. -/
@[simp] theorem reflect_tradingState : (L.reflect cfg.domain).tradingState = L.tradingState := rfl

/-- Nor have the handles. -/
@[simp] theorem reflect_handleAt (slot : Nat) : (L.reflect cfg.domain).handleAt slot = L.handleAt slot := rfl

/-- The occupied levels are those of the other side, in the same order of preference. -/
theorem reflect_occupied (side : Side) :
    (L.reflect cfg.domain).occupied cfg side = (L.occupied cfg side.opposite).map cfg.domain.reflectLevel := by
  have hscan := cfg.domain.scanOrder_reflect side.opposite
  rw [Side.opposite_opposite] at hscan
  rw [occupied, occupied, hscan, List.filter_map]
  congr 1
  exact List.filter_congr fun i _ => by simp

/-- The best level is the best one of the other side. -/
theorem reflect_best (side : Side) : (L.reflect cfg.domain).best cfg side = (L.best cfg side.opposite).map cfg.domain.reflectLevel := by
  rw [best, best, reflect_occupied, List.head?_map]

/-- A taker reaches the mirrors of the levels it reached. -/
theorem reflect_reach (side : Side) (h : i < cfg.domain.tickCount) :
    (L.reflect cfg.domain).reach cfg side.opposite (cfg.domain.reflectLevel i) = (L.reach cfg side i).map cfg.domain.reflectLevel := by
  have hlt : ∀ j ∈ L.occupied cfg side.opposite, j < cfg.domain.tickCount := by
    intro j hj
    exact (mem_scanOrder _ _ _).mp (List.mem_filter.mp hj).1
  rw [reach, reach, reflect_occupied, Side.opposite_opposite, List.takeWhile_map]
  exact congrArg _ (takeWhile_congr fun j hj => cfg.domain.crosses_reflect side (hlt j hj) h)

/-- The levels have the same quantities. -/
theorem reflect_levelQuantity (side : Side) (i : Nat) :
    (L.reflect cfg.domain).levelQuantity side (cfg.domain.reflectLevel i) = L.levelQuantity side.opposite i := by
  rw [levelQuantity, levelQuantity, total, total, reflect_queue]

/-- As much can be filled. -/
theorem reflect_canFill (side : Side) (h : i < cfg.domain.tickCount) (quantity : Nat) :
    (L.reflect cfg.domain).canFill cfg side.opposite (cfg.domain.reflectLevel i) quantity = L.canFill cfg side i quantity := by
  have hsum : (L.reflect cfg.domain).levelQuantity side.opposite.opposite ∘ cfg.domain.reflectLevel = L.levelQuantity side.opposite := by
    funext j
    rw [Side.opposite_opposite]
    exact L.reflect_levelQuantity side j
  rw [canFill, canFill, reflect_reach L side h, List.map_map, hsum]

/-- A taker meets the orders of the same traders. -/
theorem reflect_meetsTrader (trader : Nat) (side : Side) (h : i < cfg.domain.tickCount) :
    (L.reflect cfg.domain).meetsTrader cfg trader side.opposite (cfg.domain.reflectLevel i) = L.meetsTrader cfg trader side i := by
  rw [meetsTrader, meetsTrader, reflect_reach L side h, List.any_map]
  congr 1
  funext j
  simp

/-- An order crosses if its mirror does. -/
theorem reflect_crossing (side : Side) (h : i < cfg.domain.tickCount) :
    (L.reflect cfg.domain).crossing cfg side.opposite (cfg.domain.reflectLevel i) = L.crossing cfg side i := by
  rw [crossing, crossing, reflect_best, Side.opposite_opposite]
  cases hbest : L.best cfg side.opposite with
  | none => rfl
  | some best => exact cfg.domain.crosses_reflect side (best_lt hbest) h

/-- A stop is triggered if its mirror is. -/
theorem reflect_triggered (side : Side) (trigger : Int) :
    (L.reflect cfg.domain).triggered side.opposite (cfg.domain.reflect trigger) = L.triggered side trigger := by
  have hlast : (L.reflect cfg.domain).lastPrice = L.lastPrice.map cfg.domain.reflect := rfl
  rw [triggered, triggered, hlast]
  cases L.lastPrice with
  | none => rfl
  | some last =>
    have hle (p q : Int) : cfg.domain.reflect p ≤ cfg.domain.reflect q ↔ q ≤ p := by
      unfold PriceDomain.reflect
      omega
    cases side with
    | buy => exact decide_eq_decide.mpr (hle last trigger)
    | sell => exact decide_eq_decide.mpr (hle trigger last)

/-! ## Moves -/

/-- The mirrored queue is written. -/
theorem reflect_setQueue (side : Side) (i : Nat) (q : List Entry) :
    (L.reflect cfg.domain).setQueue side.opposite (cfg.domain.reflectLevel i) q = (L.setQueue side i q).reflect cfg.domain := by
  have hqueue : ((L.reflect cfg.domain).setQueue side.opposite (cfg.domain.reflectLevel i) q).queue =
      ((L.setQueue side i q).reflect cfg.domain).queue := by
    funext side' j
    have hside : side' = side.opposite ↔ side'.opposite = side := by
      cases side <;> cases side' <;> simp [Side.opposite]
    have hlevel : j = cfg.domain.reflectLevel i ↔ cfg.domain.reflectLevel j = i := by
      rw [← cfg.domain.reflectLevel_inj, PriceDomain.reflectLevel_reflectLevel]
    simp [reflect, setQueue_queue, hside, hlevel]
  exact congrArg (fun queue => { L.reflect cfg.domain with queue }) hqueue

/-- The places after a move of one slot. -/
theorem reflect_update (d : PriceDomain) (place : Nat → Place) (slot : Nat) (p : Place) :
    (fun s => (update place slot p s).reflect d) = update (fun s => (place s).reflect d) slot (p.reflect d) :=
  comp_update (Place.reflect d) place slot p

/-- The same slot is released. -/
theorem reflect_release (slot : Nat) : (L.reflect cfg.domain).release slot = (L.release slot).reflect cfg.domain := by
  simp only [release, reflect, reflect_update]
  rfl

variable (cfg) in
/-- The same entry is filled, at the mirrored level. -/
theorem reflect_fill (side : Side) (i slot q : Nat) :
    (L.reflect cfg.domain).fill side.opposite (cfg.domain.reflectLevel i) slot q = (L.fill side i slot q).reflect cfg.domain := by
  unfold fill
  rw [reflect_queue, Side.opposite_opposite]
  split
  · rfl
  · split
    · exact L.reflect_setQueue side i _
    · exact L.reflect_setQueue side i _
    · rw [← reflect_release, ← reflect_setQueue]

/-- The same entry is removed. -/
theorem reflect_remove (side : Side) (i slot : Nat) :
    (L.reflect cfg.domain).remove side.opposite (cfg.domain.reflectLevel i) slot = (L.remove side i slot).reflect cfg.domain := by
  unfold remove
  rw [reflect_queue, Side.opposite_opposite]
  split
  · rfl
  · rw [← reflect_release, ← reflect_setQueue]

variable (cfg) in
/-- The order rests in the same slot, at the mirrored level. -/
theorem reflect_rest (id trader : Nat) (side : Side) (i remaining display : Nat) :
    (L.reflect cfg.domain).rest id trader side.opposite (cfg.domain.reflectLevel i) remaining display =
      ((L.rest id trader side i remaining display).1, (L.rest id trader side i remaining display).2.reflect cfg.domain) := by
  unfold rest
  rw [show (L.reflect cfg.domain).free = L.free from rfl]
  cases L.free with
  | nil => rfl
  | cons slot free =>
    dsimp only
    split
    · rw [reflect_queue, Side.opposite_opposite, reflect_setQueue]
      simp only [reflect, reflect_update]
      rfl
    · rfl

/-- The mirror image of a stop that was placed, with the ladder after it. -/
theorem reflect_restStop (id : Nat) (side : Side) (trigger : Int) (limit : Option Int) (quantity : Nat) :
    (L.reflect cfg.domain).restStop id side.opposite (cfg.domain.reflect trigger) (limit.map cfg.domain.reflect) quantity =
      (L.restStop id side trigger limit quantity).map (Prod.map (Dormant.reflect cfg.domain) (reflect cfg.domain)) := by
  unfold restStop
  rw [show (L.reflect cfg.domain).free = L.free from rfl]
  cases L.free with
  | nil => rfl
  | cons slot free =>
    dsimp only
    split
    · simp only [Option.map_some, Prod.map_apply, reflect, reflect_update, List.map_append, List.map_cons, List.map_nil]
      rfl
    · rfl

variable (cfg) in
/-- The same stop is found. -/
theorem reflect_splitStop (p p' : Dormant → Bool) (h : ∀ d, p' (d.reflect cfg.domain) = p d) :
    (L.reflect cfg.domain).splitStop p' = (L.splitStop p).map (Prod.map (Dormant.reflect cfg.domain) (List.map (Dormant.reflect cfg.domain))) := by
  have hspan : (L.reflect cfg.domain).stops.span (fun d => !p' d) =
      Prod.map (List.map (Dormant.reflect cfg.domain)) (List.map (Dormant.reflect cfg.domain)) (L.stops.span fun d => !p d) := by
    have hp : (fun d => !p' d) ∘ Dormant.reflect cfg.domain = fun d => !p d := by
      funext d
      simp [h]
    have hstops : (L.reflect cfg.domain).stops = L.stops.map (Dormant.reflect cfg.domain) := rfl
    rw [List.span_eq_takeWhile_dropWhile, List.span_eq_takeWhile_dropWhile, hstops, List.takeWhile_map, List.dropWhile_map, hp]
    rfl
  unfold splitStop
  rw [hspan]
  rcases L.stops.span fun d => !p d with ⟨l, r⟩
  cases r with
  | nil => rfl
  | cons d r => simp

/-- The same stop is removed. -/
theorem reflect_removeStop (slot : Nat) : (L.reflect cfg.domain).removeStop slot = (L.removeStop slot).reflect cfg.domain := by
  unfold removeStop
  rw [L.reflect_splitStop cfg (fun d => d.slot = slot) (fun d => d.slot = slot) fun d => rfl]
  cases L.splitStop fun d => d.slot = slot with
  | none => rfl
  | some found => exact reflect_release { L with stops := found.2 } slot

/-- The same stop is held. -/
theorem reflect_hold (d : Dormant) (others : List Dormant) :
    (L.reflect cfg.domain).hold (d.reflect cfg.domain) (others.map (Dormant.reflect cfg.domain)) = (L.hold d others).reflect cfg.domain := by
  simp only [hold, reflect, reflect_update]
  rfl

/-- It rests in the same slot. -/
theorem reflect_settle (d : Dormant) (i remaining : Nat) :
    (L.reflect cfg.domain).settle (d.reflect cfg.domain) (cfg.domain.reflectLevel i) remaining = (L.settle d i remaining).reflect cfg.domain := by
  have hside : (d.reflect cfg.domain).side = d.side.opposite := rfl
  unfold settle
  split
  · dsimp only
    rw [hside, reflect_queue, Side.opposite_opposite, reflect_setQueue]
    simp only [reflect, reflect_update]
    rfl
  · rfl

/-- It is dropped from the same slot. -/
theorem reflect_dropHeld (d : Dormant) : (L.reflect cfg.domain).dropHeld (d.reflect cfg.domain) = (L.dropHeld d).reflect cfg.domain :=
  reflect_release { L with held := none } d.slot

end Ladder

/-! ## Takers -/

namespace Sweep

variable {t : Taker} (w : Sweep) {i : Nat}

/-- The fills of a taker are recorded in the mirror. -/
theorem reflect_recordFill (d : PriceDomain) (fills : List Fill) (e : Entry) (i q : Nat) :
    recordFill (fills.map (Fill.reflect d)) e (d.reflectLevel i) q = (recordFill fills e i q).map (Fill.reflect d) := by
  have hany : (fills.map (Fill.reflect d)).any (fun f => f.slot = e.slot) = fills.any fun f => f.slot = e.slot := List.any_map
  unfold recordFill
  rw [hany]
  split
  · rw [List.map_map, List.map_map]
    refine List.map_congr_left fun f _ => ?_
    by_cases hf : f.slot = e.slot
    · simp [Fill.reflect, hf]
    · simp [Fill.reflect, hf]
  · rw [List.map_append]
    rfl

/-- One execution in the mirror. -/
theorem reflect_exec (h : i < cfg.domain.tickCount) (e : Entry) (q : Nat) :
    (w.reflect cfg.domain).exec cfg (t.reflect cfg.domain) (cfg.domain.reflectLevel i) e q = (w.exec cfg t i e q).reflect cfg.domain := by
  have hfill := w.ladder.reflect_fill cfg t.side.opposite i e.slot q
  have hprice : some (cfg.domain.minimum + (cfg.domain.reflectLevel i : Nat)) =
      (some (cfg.domain.minimum + (i : Int))).map cfg.domain.reflect := by
    rw [Option.map_some, cfg.domain.reflect_price h]
  unfold exec
  simp only [reflect, reflect_recordFill, Taker.reflect]
  rw [hprice, hfill]
  rfl

/-- The queues change sides. -/
@[simp] theorem reflect_queue (i : Nat) :
    (w.reflect cfg.domain).ladder.queue (t.reflect cfg.domain).side.opposite (cfg.domain.reflectLevel i) =
      w.ladder.queue t.side.opposite i := by
  rw [show (t.reflect cfg.domain).side = t.side.opposite from rfl, Side.opposite_opposite]
  exact w.ladder.reflect_queue t.side i

/-- The FIFO loop in the mirror, by induction on its rounds. -/
theorem reflect_fifo (h : i < cfg.domain.tickCount) :
    (w.reflect cfg.domain).fifo cfg (t.reflect cfg.domain) (cfg.domain.reflectLevel i) = reflect cfg.domain <$> w.fifo cfg t i := by
  refine loop_map (reflect cfg.domain) (reflect cfg.domain) ?_ w
  intro w
  rw [reflect_queue]
  cases w.ladder.queue t.side.opposite i with
  | nil => rfl
  | cons e rest =>
    have hremaining : (w.reflect cfg.domain).remaining = w.remaining := rfl
    have hblocks : blocks cfg (t.reflect cfg.domain) e = blocks cfg t e := rfl
    simp only [hremaining, hblocks, w.reflect_exec h]
    split
    · rfl
    · split <;> rfl

/-- The pro-rata pass in the mirror, by induction on its rounds. -/
theorem reflect_proRata (h : i < cfg.domain.tickCount) (totalDisplayed : Nat) (stop : Option Nat) :
    (w.reflect cfg.domain).proRata cfg (t.reflect cfg.domain) (cfg.domain.reflectLevel i) totalDisplayed stop =
      reflect cfg.domain <$> w.proRata cfg t i totalDisplayed stop := by
  have hremaining (w : Sweep) : (w.reflect cfg.domain).remaining = w.remaining := rfl
  unfold proRata
  rw [reflect_queue, hremaining]
  refine loop_map (Prod.map id (reflect cfg.domain)) (reflect cfg.domain) ?_ (_, w)
  rintro ⟨cursor, w⟩
  cases cursor with
  | none => rfl
  | some slot =>
    simp only [Prod.map_apply, id_eq, hremaining, reflect_queue]
    split
    · rfl
    · cases (w.ladder.queue t.side.opposite i).find? fun e => e.slot = slot with
      | none => rfl
      | some e =>
        simp only [w.reflect_exec h]
        split <;> rfl

/-- A level in the mirror, under either allocation mode. -/
theorem reflect_level (h : i < cfg.domain.tickCount) :
    (w.reflect cfg.domain).level cfg (t.reflect cfg.domain) (cfg.domain.reflectLevel i) = reflect cfg.domain <$> w.level cfg t i := by
  unfold level
  cases cfg.allocationMode with
  | fifo => exact w.reflect_fifo h
  | thresholdProRata =>
    have hblocks : blocks cfg (t.reflect cfg.domain) = blocks cfg t := rfl
    simp only [reflect_queue, hblocks]
    split
    · exact w.reflect_fifo h
    · rw [w.reflect_proRata h, bind_map_left, map_bind]
      exact bind_congr fun w => w.reflect_fifo h

/-- One round of a taker in the mirror. -/
theorem reflect_round (hlimit : ∀ limit ∈ t.limit, limit < cfg.domain.tickCount) :
    (w.reflect cfg.domain).round cfg (t.reflect cfg.domain) =
      Turn.map (reflect cfg.domain) (reflect cfg.domain) <$> w.round cfg t := by
  have hbest : (w.reflect cfg.domain).ladder.best cfg (t.reflect cfg.domain).side.opposite =
      (w.ladder.best cfg t.side.opposite).map cfg.domain.reflectLevel := by
    rw [show (t.reflect cfg.domain).side = t.side.opposite from rfl, Side.opposite_opposite]
    exact w.ladder.reflect_best t.side
  have hremaining : (w.reflect cfg.domain).remaining = w.remaining := rfl
  unfold round
  rw [hbest, hremaining]
  split
  · rfl
  · cases hb : w.ladder.best cfg t.side.opposite with
    | none => rfl
    | some i =>
      have hi := Ladder.best_lt hb
      have hcross : ((t.reflect cfg.domain).limit.any fun limit => !crosses (t.reflect cfg.domain).side (cfg.domain.reflectLevel i) limit) =
          t.limit.any fun limit => !crosses t.side i limit := by
        show ((t.limit.map cfg.domain.reflectLevel).any fun limit => !crosses t.side.opposite (cfg.domain.reflectLevel i) limit) = _
        cases hl : t.limit with
        | none => rfl
        | some limit => exact congrArg (!·) (cfg.domain.crosses_reflect t.side hi (hlimit limit hl))
      simp only [Option.map_some, hcross]
      split
      · rfl
      · rw [w.reflect_level hi, bind_map_left, map_bind]
        rfl

variable (cfg) in
/-- A whole taker in the mirror. -/
theorem reflect_run (hlimit : ∀ limit ∈ t.limit, limit < cfg.domain.tickCount) :
    (w.reflect cfg.domain).run cfg (t.reflect cfg.domain) = reflect cfg.domain <$> w.run cfg t :=
  loop_map (reflect cfg.domain) (reflect cfg.domain) (fun w => w.reflect_round hlimit) w

/-! ## The reports of a taker -/

/-- Every fill of a sweep is at a level of the domain. -/
def InDomain (cfg : BookConfig) (w : Sweep) : Prop := ∀ f ∈ w.fills, f.level < cfg.domain.tickCount

variable {w w' : Sweep}

/-- An execution at a level of the domain records its fill there. -/
theorem InDomain.exec (hw : w.InDomain cfg) (h : i < cfg.domain.tickCount) (e : Entry) (q : Nat) : (w.exec cfg t i e q).InDomain cfg := by
  intro f hf
  rcases recordFill_level hf with hf | ⟨f', hf', hlevel⟩
  · rw [hf]
    exact h
  · rw [← hlevel]
    exact hw f' hf'

/-- The FIFO loop keeps the fills in the domain. -/
theorem InDomain.fifo (hw : w.InDomain cfg) (h : i < cfg.domain.tickCount) (hr : (w.fifo cfg t i).Returns w') : w'.InDomain cfg := by
  refine loop_invariant (I := InDomain cfg) ?_ ?_ hw hr
  · intro w w' hw hb
    split at hb
    · simp at hb
    · split at hb
      · simp at hb
      · split at hb
        · simp at hb
        · rw [returns_pure, Turn.next.injEq] at hb
          rw [← hb]
          exact hw.exec h _ _
  · intro w w' hw hb
    have : w = w' := by
      split at hb
      · simpa using hb
      · split at hb
        · simpa using hb
        · split at hb
          · simpa using hb
          · simp at hb
    rw [← this]
    exact hw

/-- So does the pro-rata pass. -/
theorem InDomain.proRata (hw : w.InDomain cfg) (h : i < cfg.domain.tickCount) {totalDisplayed : Nat} {stop : Option Nat}
    (hr : (w.proRata cfg t i totalDisplayed stop).Returns w') : w'.InDomain cfg := by
  refine loop_invariant (I := fun st => st.2.InDomain cfg) ?_ ?_ hw hr
  · rintro ⟨cursor, w⟩ ⟨cursor', w'⟩ hw hb
    dsimp only at hw hb ⊢
    split at hb
    · simp at hb
    · split at hb
      · simp at hb
      · split at hb
        · simp at hb
        · split at hb
          · rw [returns_pure, Turn.next.injEq, Prod.mk.injEq] at hb
            rw [← hb.2]
            exact hw
          · rw [returns_pure, Turn.next.injEq, Prod.mk.injEq] at hb
            rw [← hb.2]
            exact hw.exec h _ _
  · rintro ⟨cursor, w⟩ w' hw hb
    dsimp only at hw hb
    have : w = w' := by
      split at hb
      · simpa using hb
      · split at hb
        · simpa using hb
        · split at hb
          · simpa using hb
          · split at hb <;> simp at hb
    rw [← this]
    exact hw

/-- So does a taker. -/
theorem InDomain.run (hw : w.InDomain cfg) (hr : (w.run cfg t).Returns w') : w'.InDomain cfg := by
  refine loop_invariant (I := InDomain cfg) ?_ ?_ hw hr
  · intro w w' hw hb
    unfold round at hb
    split at hb
    · simp at hb
    · split at hb
      · simp at hb
      · rename_i i hbest
        have hi := Ladder.best_lt hbest
        split at hb
        · simp at hb
        · obtain ⟨w1, h1, h2⟩ := (returns_bind _ _ _).mp hb
          rw [returns_pure, Turn.next.injEq] at h2
          rw [← h2]
          unfold level at h1
          split at h1
          · exact hw.fifo hi h1
          · dsimp only at h1
            split at h1
            · obtain ⟨w2, h3, h4⟩ := (returns_bind _ _ _).mp h1
              rw [returns_pure] at h3
              exact InDomain.fifo (h3 ▸ hw) hi h4
            · obtain ⟨w2, h3, h4⟩ := (returns_bind _ _ _).mp h1
              exact (hw.proRata hi h3).fifo hi h4
  · intro w w' hw hb
    have : w = w' := by
      unfold round at hb
      split at hb
      · simpa using hb
      · split at hb
        · simpa using hb
        · split at hb
          · simpa using hb
          · obtain ⟨w1, h1, h2⟩ := (returns_bind _ _ _).mp hb
            simp at h2
    rw [← this]
    exact hw

/-- The reports of a run in the mirror. -/
theorem reports_reflect {L : Ladder} {quantity : Nat} (hr : (Sweep.run cfg t ⟨L, quantity, []⟩).Returns w) :
    (w.reflect cfg.domain).fills.map ((t.reflect cfg.domain).report cfg) = (w.fills.map (t.report cfg)).map (Trade.reflect cfg.domain) := by
  have hw : w.InDomain cfg := InDomain.run (by intro f hf; cases hf) hr
  rw [Sweep.reflect, List.map_map, List.map_map]
  exact List.map_congr_left fun f hf => t.report_reflect (hw f hf)

end Sweep

/-! ## Activations -/

/-- What a submission gives, in the mirror. -/
def reflectResult (d : PriceDomain) (r : SubmitResult × List Trade × Ladder) : SubmitResult × List Trade × Ladder :=
  (r.1, r.2.1.map (Trade.reflect d), r.2.2.reflect d)

namespace Ladder

variable (L : Ladder)

/-- An activated stop is the mirrored taker. -/
theorem reflect_taker (d : Dormant) : (d.reflect cfg.domain).taker cfg = (d.taker cfg).reflect cfg.domain := by
  have hlimit : (d.limit.map cfg.domain.reflect).bind cfg.domain.indexOf =
      (d.limit.bind cfg.domain.indexOf).map cfg.domain.reflectLevel := by
    cases d.limit with
    | none => rfl
    | some price => exact cfg.domain.indexOf_reflect price
  unfold Dormant.taker Taker.reflect
  rw [show (d.reflect cfg.domain).limit = d.limit.map cfg.domain.reflect from rfl, hlimit]
  rfl

/-- The end of its activation in the mirror. -/
theorem reflect_finish (handle : Handle) (d : Dormant) (limit : Option Nat) (remaining : Nat) :
    (L.reflect cfg.domain).finish handle (d.reflect cfg.domain) (limit.map cfg.domain.reflectLevel) remaining =
      ((L.finish handle d limit remaining).1, (L.finish handle d limit remaining).2.reflect cfg.domain) := by
  unfold finish
  cases limit with
  | none => exact Prod.ext rfl (L.reflect_dropHeld d)
  | some i =>
    dsimp only [Option.map_some]
    split
    · exact Prod.ext rfl (L.reflect_settle d i remaining)
    · exact Prod.ext rfl (L.reflect_dropHeld d)

/-- Its activation in the mirror. -/
theorem reflect_activate (d : Dormant) (others : List Dormant) :
    (L.reflect cfg.domain).activate cfg (d.reflect cfg.domain) (others.map (Dormant.reflect cfg.domain)) =
      reflectResult cfg.domain <$> L.activate cfg d others := by
  have hlimit : ∀ limit ∈ (d.taker cfg).limit, limit < cfg.domain.tickCount := by
    intro limit hl
    exact taker_limit_lt hl
  have hrun := (⟨L.hold d others, d.remaining, []⟩ : Sweep).reflect_run cfg hlimit
  have hstart : (⟨L.hold d others, d.remaining, []⟩ : Sweep).reflect cfg.domain =
      ⟨(L.reflect cfg.domain).hold (d.reflect cfg.domain) (others.map (Dormant.reflect cfg.domain)), d.remaining, []⟩ := by
    rw [reflect_hold]
    rfl
  rw [hstart] at hrun
  unfold activate
  rw [reflect_taker]
  dsimp only
  rw [show (d.reflect cfg.domain).remaining = d.remaining from rfl, hrun, bind_map_left, map_bind]
  refine bind_congr_returns fun w hw => ?_
  have hfinish : (w.reflect cfg.domain).ladder.finish ((L.reflect cfg.domain).handleAt (d.reflect cfg.domain).slot) (d.reflect cfg.domain)
      ((d.taker cfg).reflect cfg.domain).limit (w.reflect cfg.domain).remaining =
        ((w.ladder.finish (L.handleAt d.slot) d (d.taker cfg).limit w.remaining).1,
          (w.ladder.finish (L.handleAt d.slot) d (d.taker cfg).limit w.remaining).2.reflect cfg.domain) :=
    w.ladder.reflect_finish _ d _ _
  rw [Sweep.reports_reflect hw, hfinish]
  rfl

/-- The cascade in the mirror, by induction on the stops left. -/
theorem reflect_cascade (trades : List Trade) :
    (L.reflect cfg.domain).cascade cfg (trades.map (Trade.reflect cfg.domain)) =
      Prod.map (List.map (Trade.reflect cfg.domain)) (reflect cfg.domain) <$> L.cascade cfg trades := by
  refine loop_map (Prod.map (List.map (Trade.reflect cfg.domain)) (reflect cfg.domain))
    (Prod.map (List.map (Trade.reflect cfg.domain)) (reflect cfg.domain)) ?_ (trades, L)
  rintro ⟨trades, L⟩
  have hsplit := L.reflect_splitStop cfg (fun d => L.triggered d.side d.trigger)
    (fun d => (L.reflect cfg.domain).triggered d.side d.trigger) fun d => L.reflect_triggered d.side d.trigger
  dsimp only [Prod.map_apply]
  rw [hsplit]
  cases L.splitStop fun d => L.triggered d.side d.trigger with
  | none => rfl
  | some found =>
    obtain ⟨d, others⟩ := found
    dsimp only [Option.map_some, Prod.map_apply]
    rw [reflect_activate, bind_map_left, map_bind]
    refine bind_congr fun r => ?_
    rw [map_pure]
    simp [reflectResult, Turn.map]

/-! ## Operations -/

/-- The end of a submission in the mirror. -/
theorem reflect_conclude (quantity remaining : Nat) (handle : Handle) (trades : List Trade) :
    (L.reflect cfg.domain).conclude cfg quantity remaining handle (trades.map (Trade.reflect cfg.domain)) =
      reflectResult cfg.domain <$> L.conclude cfg quantity remaining handle trades := by
  unfold conclude
  rw [reflect_cascade, bind_map_left, map_bind]
  refine bind_congr fun r => ?_
  rw [map_pure]
  simp [reflectResult]

/-- The end of an entry, once the taker has its reports. -/
theorem reflect_settled (t : Taker) (i quantity : Nat) (rests : Bool) (display : Nat → Nat) (w : Sweep) (trades : List Trade) :
    (let r := if rests ∧ w.remaining ≠ 0 then
        (w.reflect cfg.domain).ladder.rest t.id t.trader (t.reflect cfg.domain).side (cfg.domain.reflectLevel i) w.remaining (display w.remaining)
      else (kInvalidHandle, (w.reflect cfg.domain).ladder)
    r.2.conclude cfg quantity w.remaining r.1 (trades.map (Trade.reflect cfg.domain))) =
      reflectResult cfg.domain <$>
        (let r := if rests ∧ w.remaining ≠ 0 then w.ladder.rest t.id t.trader t.side i w.remaining (display w.remaining)
          else (kInvalidHandle, w.ladder)
        r.2.conclude cfg quantity w.remaining r.1 trades) := by
  have hrest := w.ladder.reflect_rest cfg t.id t.trader t.side i w.remaining (display w.remaining)
  dsimp only
  split
  · rw [show (w.reflect cfg.domain).ladder = w.ladder.reflect cfg.domain from rfl, show (t.reflect cfg.domain).side = t.side.opposite from rfl,
      hrest]
    exact reflect_conclude _ _ _ _ _
  · exact reflect_conclude _ _ _ _ _

/-- An order that enters a level, in the mirror. -/
theorem reflect_enter {t : Taker} {i : Nat} (hlimit : t.limit = some i) (h : i < cfg.domain.tickCount) (quantity : Nat) (rests : Bool)
    (display : Nat → Nat) :
    (L.reflect cfg.domain).enter cfg (t.reflect cfg.domain) (cfg.domain.reflectLevel i) quantity rests display =
      reflectResult cfg.domain <$> L.enter cfg t i quantity rests display := by
  have hlt : ∀ limit ∈ t.limit, limit < cfg.domain.tickCount := by
    intro limit hl
    rw [hlimit] at hl
    cases hl
    exact h
  unfold enter
  rw [reflect_tradingState]
  split
  · have hrun := (⟨L, quantity, []⟩ : Sweep).reflect_run cfg hlt
    rw [show (⟨L, quantity, []⟩ : Sweep).reflect cfg.domain = ⟨L.reflect cfg.domain, quantity, []⟩ from rfl] at hrun
    rw [hrun, bind_map_left, map_bind]
    refine bind_congr_returns fun w hw => ?_
    rw [Sweep.reports_reflect hw]
    exact reflect_settled t i quantity rests display w _
  · exact @reflect_settled cfg t i quantity rests display ⟨L, quantity, []⟩ []

/-- So where it is checked against self-trades first. -/
theorem reflect_enterChecked {t : Taker} {i : Nat} (hlimit : t.limit = some i) (h : i < cfg.domain.tickCount) (quantity : Nat) (rests : Bool)
    (display : Nat → Nat) :
    (L.reflect cfg.domain).enterChecked cfg (t.reflect cfg.domain) (cfg.domain.reflectLevel i) quantity rests display =
      reflectResult cfg.domain <$> L.enterChecked cfg t i quantity rests display := by
  have hmeets : (L.reflect cfg.domain).meetsTrader cfg (t.reflect cfg.domain).trader (t.reflect cfg.domain).side (cfg.domain.reflectLevel i) =
      L.meetsTrader cfg t.trader t.side i := L.reflect_meetsTrader t.trader t.side h
  unfold enterChecked
  rw [hmeets]
  split
  · rfl
  · exact L.reflect_enter hlimit h quantity rests display

/-- The checks of side and quantity find the other side. -/
theorem preflight_reflect (side : UInt8) (quantity : Nat) :
    cfg.preflight (Side.reflectRaw side) quantity = (cfg.preflight side quantity).map Side.opposite := by
  unfold BookConfig.preflight
  rw [Side.ofRaw_reflectRaw]
  cases Side.ofRaw side with
  | none => rfl
  | some side =>
    dsimp only [Option.map_some]
    split
    · rfl
    · split <;> rfl

/-- The checks of a limit order find the mirrored level. -/
theorem reflect_preflightLimit (side : UInt8) (price : Int) (quantity : Nat) (timeInForce : UInt8) :
    (L.reflect cfg.domain).preflightLimit cfg (Side.reflectRaw side) (cfg.domain.reflect price) quantity timeInForce =
      (L.preflightLimit cfg side price quantity timeInForce).map
        (Prod.map Side.opposite (Prod.map cfg.domain.reflectLevel id)) := by
  unfold preflightLimit
  rw [preflight_reflect, cfg.domain.indexOf_reflect]
  cases TimeInForce.ofRaw timeInForce with
  | none => rfl
  | some timeInForce =>
    cases cfg.preflight side quantity with
    | error reason => rfl
    | ok side =>
      cases hi : cfg.domain.indexOf price with
      | none => rfl
      | some i =>
        have hlt := (cfg.domain.indexOf_eq_some.mp hi).1
        dsimp only [Option.map_some, Except.map]
        rw [reflect_canFill L side hlt, reflect_crossing L side hlt, reflect_tradingState, show (L.reflect cfg.domain).free = L.free from rfl]
        split
        · rfl
        · split
          · rfl
          · split <;> rfl

/-- The checks of a post-only order in the mirror. -/
theorem reflect_preflightPostOnly (side : UInt8) (price : Int) (quantity : Nat) :
    (L.reflect cfg.domain).preflightPostOnly cfg (Side.reflectRaw side) (cfg.domain.reflect price) quantity =
      L.preflightPostOnly cfg side price quantity := by
  unfold preflightPostOnly
  rw [preflight_reflect, cfg.domain.indexOf_reflect, reflect_tradingState]
  split
  · rfl
  · cases cfg.preflight side quantity with
    | error reason => rfl
    | ok side =>
      cases hi : cfg.domain.indexOf price with
      | none => rfl
      | some i =>
        dsimp only [Option.map_some, Except.map]
        rw [reflect_crossing L side (cfg.domain.indexOf_eq_some.mp hi).1, show (L.reflect cfg.domain).free = L.free from rfl]

/-- The checks of a stop in the mirror. -/
theorem reflect_preflightStop (side : UInt8) (limit : Option Int) (quantity : Nat) :
    (L.reflect cfg.domain).preflightStop cfg (Side.reflectRaw side) (limit.map cfg.domain.reflect) quantity =
      (L.preflightStop cfg side limit quantity).map Side.opposite := by
  have hany : ((limit.map cfg.domain.reflect).any fun price => (cfg.domain.indexOf price).isNone) =
      limit.any fun price => (cfg.domain.indexOf price).isNone := by
    cases limit with
    | none => rfl
    | some price =>
      simp only [Option.map_some, Option.any_some, cfg.domain.indexOf_reflect, Option.isNone_map]
  unfold preflightStop
  rw [preflight_reflect, reflect_tradingState, hany, show (L.reflect cfg.domain).free = L.free from rfl]
  split
  · rfl
  · cases cfg.preflight side quantity with
    | error reason => rfl
    | ok side =>
      dsimp only [Except.map]
      split
      · rfl
      · split <;> rfl

/-- The list of activations is reset. -/
theorem reflect_reset : (L.reflect cfg.domain).reset = L.reset.reflect cfg.domain := rfl

/-- `submit_limit` in the mirror. -/
theorem reflect_submitLimit (id trader : Nat) (side : UInt8) (price : Int) (quantity : Nat) (timeInForce : UInt8) (tradesSize : Nat) :
    (L.reflect cfg.domain).submitLimit cfg id trader (Side.reflectRaw side) (cfg.domain.reflect price) quantity timeInForce tradesSize =
      reflectResult cfg.domain <$> L.submitLimit cfg id trader side price quantity timeInForce tradesSize := by
  unfold submitLimit
  dsimp only
  rw [reflect_reset, preflight_reflect, reflect_preflightLimit]
  split
  · rfl
  · cases cfg.preflight side quantity with
    | error reason => rfl
    | ok _ =>
      dsimp only [Except.map]
      split
      · rfl
      · cases hp : L.reset.preflightLimit cfg side price quantity timeInForce with
        | error reason => rfl
        | ok checked =>
          obtain ⟨side, i, timeInForce⟩ := checked
          have hlt := (cfg.domain.indexOf_eq_some.mp (preflightLimit_ok hp).level).1
          exact L.reset.reflect_enterChecked (t := ⟨id, trader, side, some i⟩) rfl hlt quantity _ _

/-- `submit_post_only` in the mirror. -/
theorem reflect_submitPostOnly (id : Nat) (side : UInt8) (price : Int) (quantity tradesSize : Nat) :
    (L.reflect cfg.domain).submitPostOnly cfg id (Side.reflectRaw side) (cfg.domain.reflect price) quantity tradesSize =
      reflectResult cfg.domain <$> L.submitPostOnly cfg id side price quantity tradesSize := by
  unfold submitPostOnly
  rw [reflect_preflightPostOnly, reflect_submitLimit]
  split
  · rfl
  · cases L.preflightPostOnly cfg side price quantity <;> rfl

/-- `submit_iceberg` in the mirror. -/
theorem reflect_submitIceberg (id trader : Nat) (side : UInt8) (price : Int) (quantity displayQuantity tradesSize : Nat) :
    (L.reflect cfg.domain).submitIceberg cfg id trader (Side.reflectRaw side) (cfg.domain.reflect price) quantity displayQuantity tradesSize =
      reflectResult cfg.domain <$> L.submitIceberg cfg id trader side price quantity displayQuantity tradesSize := by
  unfold submitIceberg
  dsimp only
  rw [reflect_reset, preflight_reflect, reflect_preflightLimit, reflect_tradingState]
  split
  · rfl
  · split
    · rfl
    · cases cfg.preflight side quantity with
      | error reason => rfl
      | ok _ =>
        dsimp only [Except.map]
        split
        · rfl
        · cases hp : L.reset.preflightLimit cfg side price quantity TimeInForce.gtc.raw with
          | error reason => rfl
          | ok checked =>
            obtain ⟨side, i, timeInForce⟩ := checked
            have hlt := (cfg.domain.indexOf_eq_some.mp (preflightLimit_ok hp).level).1
            exact L.reset.reflect_enterChecked (t := ⟨id, trader, side, some i⟩) rfl hlt quantity _ _

/-- `submit_market` in the mirror. -/
theorem reflect_submitMarket (id : Nat) (side : UInt8) (quantity tradesSize : Nat) :
    (L.reflect cfg.domain).submitMarket cfg id (Side.reflectRaw side) quantity tradesSize =
      reflectResult cfg.domain <$> L.submitMarket cfg id side quantity tradesSize := by
  unfold submitMarket
  dsimp only
  rw [reflect_reset, preflight_reflect, reflect_tradingState]
  split
  · rfl
  · cases cfg.preflight side quantity with
    | error reason => rfl
    | ok side =>
      dsimp only [Except.map]
      split
      · rfl
      · have hrun := (⟨L.reset, quantity, []⟩ : Sweep).reflect_run cfg (t := ⟨id, 0, side, none⟩) (by intro limit hl; cases hl)
        rw [show (⟨L.reset, quantity, []⟩ : Sweep).reflect cfg.domain = ⟨L.reset.reflect cfg.domain, quantity, []⟩ from rfl,
          show (⟨id, 0, side, none⟩ : Taker).reflect cfg.domain = ⟨id, 0, side.opposite, none⟩ from rfl] at hrun
        rw [hrun, bind_map_left, map_bind]
        refine bind_congr_returns fun w hw => ?_
        have hreports := Sweep.reports_reflect hw
        rw [show (⟨id, 0, side, none⟩ : Taker).reflect cfg.domain = ⟨id, 0, side.opposite, none⟩ from rfl] at hreports
        rw [hreports]
        exact w.ladder.reflect_conclude quantity w.remaining kInvalidHandle _

variable (cfg) in
/-- The submissions of a stop in the mirror. -/
theorem reflect_submitStopOrder (id : Nat) (side : UInt8) (trigger : Int) (limit : Option Int) (quantity tradesSize : Nat) :
    (L.reflect cfg.domain).submitStopOrder cfg id (Side.reflectRaw side) (cfg.domain.reflect trigger) (limit.map cfg.domain.reflect) quantity
        tradesSize =
      reflectResult cfg.domain <$> L.submitStopOrder cfg id side trigger limit quantity tradesSize := by
  unfold submitStopOrder
  dsimp only
  rw [reflect_reset, reflect_preflightStop]
  cases L.reset.preflightStop cfg side limit quantity with
  | error reason => rfl
  | ok side =>
    dsimp only [Except.map]
    split
    · rfl
    · rw [reflect_restStop]
      cases L.reset.restStop id side trigger limit quantity with
      | none => rfl
      | some placed =>
        obtain ⟨d, L'⟩ := placed
        dsimp only [Option.map_some, Prod.map_apply]
        rw [reflect_triggered]
        split
        · rw [show (L.reset.reflect cfg.domain).stops = L.reset.stops.map (Dormant.reflect cfg.domain) from rfl, reflect_activate,
            bind_map_left, map_bind]
          refine bind_congr fun r => ?_
          dsimp only [reflectResult]
          rw [reflect_cascade, bind_map_left, map_bind]
          refine bind_congr fun r => ?_
          rw [map_pure]
          simp [reflectResult]
        · rfl

/-- The order of a handle in the mirror. -/
def Located.reflect (d : PriceDomain) : Located → Located
  | .resting side i e => .resting side.opposite (d.reflectLevel i) e
  | .dormant stop => .dormant (stop.reflect d)

/-- A handle finds the mirror of what it found. -/
theorem reflect_resolve (handle : Handle) : (L.reflect cfg.domain).resolve cfg handle = (L.resolve cfg handle).map (Located.reflect cfg.domain) := by
  unfold resolve
  rw [show (L.reflect cfg.domain).place handle.index = (L.place handle.index).reflect cfg.domain from rfl,
    show (L.reflect cfg.domain).releases = L.releases from rfl]
  split
  · cases L.place handle.index with
    | free => rfl
    | held => rfl
    | resting side i =>
      dsimp only [Place.reflect]
      rw [reflect_queue, Side.opposite_opposite, Option.map_map]
      rfl
    | dormant =>
      dsimp only [Place.reflect]
      rw [show (L.reflect cfg.domain).stops = L.stops.map (Dormant.reflect cfg.domain) from rfl, List.find?_map, Option.map_map, Option.map_map]
      rfl
  · rfl

/-- `cancel` in the mirror. -/
theorem reflect_cancel (handle : Handle) :
    (L.reflect cfg.domain).cancel cfg handle = Prod.map id (reflect cfg.domain) (L.cancel cfg handle) := by
  unfold cancel
  rw [reflect_resolve]
  cases L.resolve cfg handle with
  | none => rfl
  | some located =>
    cases located with
    | resting side i e => exact Prod.ext rfl (L.reflect_remove side i e.slot)
    | dormant d => exact Prod.ext rfl (L.reflect_removeStop d.slot)

/-- The same entry is amended. -/
theorem reflect_amendEntry (side : Side) (i slot newRemaining : Nat) :
    (L.reflect cfg.domain).amendEntry side.opposite (cfg.domain.reflectLevel i) slot newRemaining =
      (L.amendEntry side i slot newRemaining).reflect cfg.domain := by
  unfold amendEntry
  rw [reflect_queue, Side.opposite_opposite, reflect_setQueue]

/-- An amended stop is mirrored as such. -/
theorem Dormant.reflect_amend (domain : PriceDomain) (d : Dormant) (newRemaining : Nat) :
    (d.reflect domain).amend newRemaining = (d.amend newRemaining).reflect domain := by
  unfold Dormant.amend
  by_cases h : 0 < newRemaining ∧ newRemaining ≤ d.remaining
  · rw [dif_pos h]
    exact dif_pos h
  · rw [dif_neg h]
    exact dif_neg h

/-- The same stop is amended. -/
theorem reflect_amendStop (slot newRemaining : Nat) :
    (L.reflect cfg.domain).amendStop slot newRemaining = (L.amendStop slot newRemaining).reflect cfg.domain := by
  have hstops : (L.stops.map (Dormant.reflect cfg.domain)).map (fun d => if d.slot = slot then d.amend newRemaining else d) =
      (L.stops.map fun d => if d.slot = slot then d.amend newRemaining else d).map (Dormant.reflect cfg.domain) := by
    rw [List.map_map, List.map_map]
    refine List.map_congr_left fun d _ => ?_
    simp only [Function.comp_apply, Dormant.reflect_amend, apply_ite (Dormant.reflect cfg.domain)]
    rfl
  exact congrArg (fun stops => { L.reflect cfg.domain with stops }) hstops

/-- `amend_quantity` in the mirror. -/
theorem reflect_amendQuantity (handle : Handle) (newRemaining : Nat) :
    (L.reflect cfg.domain).amendQuantity cfg handle newRemaining = Prod.map id (reflect cfg.domain) (L.amendQuantity cfg handle newRemaining) := by
  unfold amendQuantity
  rw [reflect_resolve]
  cases L.resolve cfg handle with
  | none => rfl
  | some located =>
    cases located with
    | resting side i e =>
      refine Prod.ext rfl ?_
      dsimp only [Option.map_some, Located.reflect, Prod.map_apply]
      rw [reflect_amendEntry]
      split <;> rfl
    | dormant d =>
      refine Prod.ext rfl ?_
      dsimp only [Option.map_some, Located.reflect, Prod.map_apply]
      rw [reflect_amendStop, show (d.reflect cfg.domain).slot = d.slot from rfl, show (d.reflect cfg.domain).remaining = d.remaining from rfl]
      split <;> rfl

/-- `replace` in the mirror. -/
theorem reflect_replace (handle : Handle) (newPrice : Int) (newQuantity tradesSize : Nat) :
    (L.reflect cfg.domain).replace cfg handle (cfg.domain.reflect newPrice) newQuantity tradesSize =
      reflectResult cfg.domain <$> L.replace cfg handle newPrice newQuantity tradesSize := by
  unfold replace
  dsimp only
  rw [reflect_reset, reflect_resolve]
  cases L.reset.resolve cfg handle with
  | none => rfl
  | some located =>
    cases located with
    | dormant d => rfl
    | resting side i e =>
      dsimp only [Option.map_some, Located.reflect]
      rw [← Side.reflectRaw_raw, preflight_reflect, cfg.domain.indexOf_reflect, Option.isNone_map]
      cases cfg.preflight side.raw newQuantity with
      | error reason => rfl
      | ok _ =>
        dsimp only [Except.map]
        split
        · rfl
        · split
          · rfl
          · rw [reflect_remove, reflect_submitLimit]

/-- One operation in the mirror, in continuous trading. -/
theorem apply_reflect (hstate : L.tradingState = .continuous) (op : Op) :
    (L.reflect cfg.domain).apply cfg (op.reflect cfg.domain) =
      Prod.map (Outcome.reflect cfg.domain) (reflect cfg.domain) <$> L.apply cfg op := by
  have hsubmitted (c : Comp (SubmitResult × List Trade × Ladder)) :
      (do return submitted (← reflectResult cfg.domain <$> c)) =
        Prod.map (Outcome.reflect cfg.domain) (reflect cfg.domain) <$> (do return submitted (← c)) := by
    rw [bind_map_left, map_bind]
    exact bind_congr fun r => (map_pure _ _).symm
  cases op with
  | submitLimit id traderId side price quantity timeInForce tradesSize =>
    simp only [apply, Op.reflect, reflect_submitLimit]
    exact hsubmitted _
  | submitPostOnly id side price quantity tradesSize =>
    simp only [apply, Op.reflect, reflect_submitPostOnly]
    exact hsubmitted _
  | submitIceberg id traderId side price quantity displayQuantity tradesSize =>
    simp only [apply, Op.reflect, reflect_submitIceberg]
    exact hsubmitted _
  | submitMarket id side quantity tradesSize =>
    simp only [apply, Op.reflect, reflect_submitMarket]
    exact hsubmitted _
  | submitStop id side triggerPrice quantity tradesSize =>
    have hstop := L.reflect_submitStopOrder cfg id side triggerPrice none quantity tradesSize
    simp only [apply, Op.reflect]
    rw [← hsubmitted, ← hstop]
    rfl
  | submitStopLimit id side triggerPrice limitPrice quantity tradesSize =>
    have hstop := L.reflect_submitStopOrder cfg id side triggerPrice (some limitPrice) quantity tradesSize
    simp only [apply, Op.reflect]
    rw [← hsubmitted, ← hstop]
    rfl
  | cancel handle =>
    simp only [apply, Op.reflect, reflect_cancel, map_pure]
    rfl
  | amendQuantity handle newRemaining =>
    simp only [apply, Op.reflect, reflect_amendQuantity, map_pure]
    rfl
  | replace handle newPrice newQuantity tradesSize =>
    simp only [apply, Op.reflect, reflect_replace]
    exact hsubmitted _
  | uncrossOpeningAuction tradesSize =>
    have hne : L.tradingState ≠ .openingAuction := by
      rw [hstate]
      decide
    simp only [apply, Op.reflect, uncrossOpeningAuction, reflect_tradingState, if_pos hne]
    rfl

end Ladder

end MatchingEngine

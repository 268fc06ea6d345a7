import MatchingEngine.Lemmas.Changes
import Mathlib.Algebra.BigOperators.Ring.Finset

/-!
# The orders of a ladder

`Ladder.All P Q`: every resting order has `P` and every stop has `Q`. `Ladder.Change.all` says what `P` and `Q` must be closed under to
be kept by every change. From it: no order has more left than the configured maximum, so no sum of quantities wraps; and in continuous
trading no bid is at or above an ask.
-/

namespace MatchingEngine

open Comp Function

/-- All slots full of the largest orders hold less than a `std::uint64_t` can. -/
theorem BookConfig.quantities_lt (cfg : BookConfig) : cfg.maxOrders * cfg.maxOrderQuantity < 2 ^ 64 := by
  have h1 := cfg.maxOrders_lt
  have h2 := cfg.maxOrderQuantity_lt
  calc cfg.maxOrders * cfg.maxOrderQuantity ≤ 2 ^ 32 * cfg.maxOrderQuantity := Nat.mul_le_mul_right _ (by omega)
    _ < 2 ^ 32 * 2 ^ 32 := Nat.mul_lt_mul_of_pos_left h2 (by decide)
    _ = 2 ^ 64 := by decide

/-! ## What becomes of an order -/

/-- The same order with less left; an order that hides nothing still hides nothing. -/
structure Entry.Shrinks (e e' : Entry) : Prop where
  slot : e'.slot = e.slot
  id : e'.id = e.id
  trader : e'.trader = e.trader
  serial : e'.serial = e.serial
  display : e'.display = e.display
  remaining : e'.remaining ≤ e.remaining
  shown : e.displayed = e.remaining → e'.displayed = e'.remaining

/-- What a held stop becomes when its remainder rests. -/
structure Dormant.Settles (d : Dormant) (e : Entry) : Prop where
  slot : e.slot = d.slot
  id : e.id = d.id
  trader : e.trader = 0
  serial : e.serial = d.serial
  display : e.display = e.remaining
  displayed : e.displayed = e.remaining

/-- The same stop with less left. -/
structure Dormant.Shrinks (d d' : Dormant) : Prop where
  slot : d'.slot = d.slot
  id : d'.id = d.id
  side : d'.side = d.side
  trigger : d'.trigger = d.trigger
  limit : d'.limit = d.limit
  serial : d'.serial = d.serial
  remaining : d'.remaining ≤ d.remaining

/-- An amended order is one of its own remains. -/
theorem Entry.shrinks_amend {e : Entry} {n : Nat} (hpos : 0 < n) (hle : n ≤ e.remaining) : e.Shrinks (e.amend n) := by
  obtain ⟨h1, h2, h3, h4, h5, h6, h7⟩ := Entry.amend_eq hpos hle
  exact ⟨h1, h2, h3, h5, h4, by omega, by omega⟩

theorem Dormant.shrinks_amend {d : Dormant} {n : Nat} (hpos : 0 < n) (hle : n ≤ d.remaining) : d.Shrinks (d.amend n) := by
  obtain ⟨h1, h2, h3, h4, h5, h6, h7⟩ := Dormant.amend_eq hpos hle
  exact ⟨h1, h2, h3, h4, h5, h6, by omega⟩

namespace Ladder

variable {cfg : BookConfig} {L₀ L L' : Ladder} {op : Op}

/-- The queues after a fill: the entry is gone, or it has less left and may be at the tail. -/
theorem Filled.mem {side side' : Side} {i j q : Nat} {l r : List Entry} {e x : Entry} (h : Filled L L' side i l r e q)
    (hq : L.queue side i = l ++ e :: r) (hx : x ∈ L'.queue side' j) :
    x ∈ L.queue side' j ∨ side' = side ∧ j = i ∧ e.Shrinks x := by
  by_cases hc : side' = side ∧ j = i
  · obtain ⟨rfl, rfl⟩ := hc
    have hlr : x ∈ l ++ r → x ∈ L.queue side' j := fun hx => by
      rw [hq]
      rcases List.mem_append.mp hx with hx | hx
      · exact List.mem_append_left _ hx
      · exact List.mem_append_right _ (List.mem_cons_of_mem _ hx)
    rcases h.cases with ⟨e', hqueue, hlt, -, hslot, hid, htr, hser, hdis, hrem⟩ | ⟨hqueue, -⟩
    · have hshown : e.displayed = e.remaining → e'.displayed = e'.remaining := by
        rcases hqueue with ⟨-, hlt', hd⟩ | ⟨-, hqe, hd⟩
        · omega
        · omega
      have hs : e.Shrinks e' := ⟨hslot, hid, htr, hser, hdis, by omega, hshown⟩
      have hmem : x = e' ∨ x ∈ l ++ r := by
        rcases hqueue with ⟨hqueue, -⟩ | ⟨hqueue, -⟩
        · rw [hqueue, setQueue_queue, if_pos ⟨rfl, rfl⟩] at hx
          simp only [List.mem_append, List.mem_cons] at hx ⊢
          tauto
        · rw [hqueue, setQueue_queue, if_pos ⟨rfl, rfl⟩] at hx
          simp only [List.mem_append, List.mem_cons, List.not_mem_nil, or_false] at hx ⊢
          tauto
      rcases hmem with rfl | hmem
      · exact Or.inr ⟨rfl, rfl, hs⟩
      · exact Or.inl (hlr hmem)
    · rw [hqueue, setQueue_queue, if_pos ⟨rfl, rfl⟩] at hx
      exact Or.inl (hlr hx)
  · rw [h.queue_of_ne hc] at hx
    exact Or.inl hx

/-- Every resting order has `P`, every stop has `Q`. -/
structure All (P : Side → Nat → Entry → Prop) (Q : Dormant → Prop) (L : Ladder) : Prop where
  entry : ∀ {side i e}, e ∈ L.queue side i → P side i e
  stop : ∀ {d}, d ∈ L.stops → Q d
  held : ∀ {d}, L.held = some d → Q d

/-- What a property of the orders must be closed under. -/
structure Closed (cfg : BookConfig) (L₀ : Ladder) (op : Op) (P : Side → Nat → Entry → Prop) (Q : Dormant → Prop) : Prop where
  shrink : ∀ {side i e e'}, P side i e → Entry.Shrinks e e' → P side i e'
  enter : ∀ {L L0 t i quantity display e}, Admitted cfg L₀ op L0 t i quantity true display → Entry.Enters L t display e →
    (cfg.allocationMode = .fifo → e.remaining ≤ quantity) → P t.side i e
  settle : ∀ {d i e}, Q d → (d.taker cfg).limit = some i → Dormant.Settles d e →
    (cfg.allocationMode = .fifo → e.remaining ≤ d.remaining) → P d.side i e
  sleep : ∀ {L L' id raw side trigger limit quantity size d}, stopArguments op = some (id, raw, trigger, limit, quantity, size) →
    Side.ofRaw raw = some side → quantity ≤ cfg.maxOrderQuantity → (∀ price, limit = some price → (cfg.domain.indexOf price).isSome) →
    Slept L L' id side trigger limit quantity d → Q d
  less : ∀ {d d'}, Q d → Dormant.Shrinks d d' → Q d'

/-- A change keeps what is closed. -/
theorem Change.all {P : Side → Nat → Entry → Prop} {Q : Dormant → Prop} (hcl : Closed cfg L₀ op P Q) (hw : L.Wf cfg) (ha : All P Q L)
    (h : Change cfg L₀ op L L') : All P Q L' := by
  cases h with
  | mark hq hs hh _ _ _ _ =>
    exact ⟨fun he => ha.entry (hq ▸ he), fun hd => ha.stop (hs ▸ hd), fun hd => ha.held (hh ▸ hd)⟩
  | fill hq _ hle hf =>
    refine ⟨fun hx => ?_, fun hd => ha.stop (hf.stops ▸ hd), fun hd => ha.held (hf.held ▸ hd)⟩
    rcases hf.mem hq hx with hx | ⟨rfl, rfl, hs⟩
    · exact ha.entry hx
    · exact hcl.shrink (ha.entry (by rw [hq]; simp)) hs
  | @rest L0 t i quantity rests display e free hadm hrests hent hle hlt hfree =>
    refine ⟨fun {side j x} hx => ?_, ha.stop, ha.held⟩
    dsimp only at hx
    rw [setQueue_queue] at hx
    split at hx
    · rename_i hc
      rcases List.mem_append.mp hx with hx | hx
      · rw [hc.1, hc.2]
        exact ha.entry hx
      · rw [List.mem_singleton] at hx
        rw [hc.1, hc.2, hx]
        subst hrests
        exact hcl.enter hadm hent hle
    · exact ha.entry hx
  | sleep hsub hnamed _ hle hlim hrest =>
    have hs := restStop_slept hrest
    have hnew := hcl.sleep hsub hnamed hle hlim hs
    obtain ⟨free, -, rfl⟩ := hs.room
    refine ⟨ha.entry, fun hd => ?_, ha.held⟩
    rcases List.mem_append.mp hd with hd | hd
    · exact ha.stop hd
    · rw [List.mem_singleton] at hd
      exact hd ▸ hnew
  | hold hs _ =>
    refine ⟨ha.entry, fun hd => ha.stop ?_, fun hd => ?_⟩
    · rw [hs]
      rcases List.mem_append.mp hd with hd | hd
      · exact List.mem_append_left _ hd
      · exact List.mem_append_right _ (List.mem_cons_of_mem _ hd)
    · cases hd
      exact ha.stop (by rw [hs]; simp)
  | settle hheld hlim hpos hlt hle =>
    unfold Ladder.settle
    rw [dif_pos ⟨hpos, hlt⟩]
    refine ⟨fun {side j x} hx => ?_, ha.stop, by rintro _ ⟨⟩⟩
    dsimp only at hx
    rw [setQueue_queue] at hx
    split at hx
    · rename_i hc
      rcases List.mem_append.mp hx with hx | hx
      · rw [hc.1, hc.2]
        exact ha.entry hx
      · rw [List.mem_singleton] at hx
        rw [hc.1, hc.2, hx]
        exact hcl.settle (ha.held hheld) hlim ⟨rfl, rfl, rfl, rfl, rfl, rfl⟩ hle
    · exact ha.entry hx
  | drop _ => exact ⟨ha.entry, ha.stop, by rintro _ ⟨⟩⟩
  | @remove side i l r e hq =>
    rw [remove_eq hq (hw.slot_ne_of_split hq).1]
    refine ⟨fun {side' j x} hx => ?_, ha.stop, ha.held⟩
    change x ∈ (L.setQueue side i (l ++ r)).queue side' j at hx
    rw [setQueue_queue] at hx
    split at hx
    · rename_i hc
      rw [hc.1, hc.2]
      refine ha.entry ?_
      rw [hq]
      rcases List.mem_append.mp hx with hx | hx
      · exact List.mem_append_left _ hx
      · exact List.mem_append_right _ (List.mem_cons_of_mem _ hx)
    · exact ha.entry hx
  | removeStop hs =>
    rw [removeStop_eq hs (hw.stop_ne_of_split hs).1]
    refine ⟨ha.entry, fun hd => ha.stop ?_, ha.held⟩
    rw [hs]
    rcases List.mem_append.mp hd with hd | hd
    · exact List.mem_append_left _ hd
    · exact List.mem_append_right _ (List.mem_cons_of_mem _ hd)
  | @amend side i n l r e hq hpos hle =>
    rw [amendEntry_eq hw hq]
    refine ⟨fun {side' j x} hx => ?_, ha.stop, ha.held⟩
    rw [setQueue_queue] at hx
    split at hx
    · rename_i hc
      rw [hc.1, hc.2]
      have hold : ∀ y ∈ l ++ e :: r, P side i y := fun y hy => ha.entry (hq ▸ hy)
      rcases List.mem_append.mp hx with hx | hx
      · exact hold x (List.mem_append_left _ hx)
      · rcases List.mem_cons.mp hx with rfl | hx
        · exact hcl.shrink (hold e (by simp)) (Entry.shrinks_amend hpos hle)
        · exact hold x (List.mem_append_right _ (List.mem_cons_of_mem _ hx))
    · exact ha.entry hx
  | @amendStop n l r d hs hpos hle =>
    rw [amendStop_eq hw hs]
    refine ⟨ha.entry, fun {x} hx => ?_, ha.held⟩
    have hold : ∀ y ∈ l ++ d :: r, Q y := fun y hy => ha.stop (hs ▸ hy)
    rcases List.mem_append.mp hx with hx | hx
    · exact hold x (List.mem_append_left _ hx)
    · rcases List.mem_cons.mp hx with rfl | hx
      · exact hcl.less (hold d (by simp)) (Dormant.shrinks_amend hpos hle)
      · exact hold x (List.mem_append_right _ (List.mem_cons_of_mem _ hx))

/-- What is closed under every change holds of every order after every run. -/
theorem Run.all {P : Side → Nat → Entry → Prop} {Q : Dormant → Prop} {state : TradingState} {calls : List (Op × Outcome)}
    (hcl : ∀ L₀ op, Closed cfg L₀ op P Q) (h : Ladder.Run cfg state calls L) : All P Q L :=
  h.invariant_of_changes ⟨nofun, nofun, nofun⟩ fun L₀ op _ _ hw ha hc => hc.all (hcl L₀ op) hw ha

/-! ## Quantities -/

/-- No order has more left than the configured maximum. -/
abbrev Bounded (cfg : BookConfig) (L : Ladder) : Prop :=
  All (fun _ _ e => e.remaining ≤ cfg.maxOrderQuantity) (fun d => d.remaining ≤ cfg.maxOrderQuantity) L

/-- An order that is let in asks for at most the maximum quantity. -/
theorem Admitted.quantity_le {L0 : Ladder} {t : Taker} {i quantity : Nat} {rests : Bool} {display : Nat → Nat}
    (h : Admitted cfg L₀ op L0 t i quantity rests display) : quantity ≤ cfg.maxOrderQuantity := by
  cases h with
  | limit _ hp _ => exact hp.le
  | postOnly _ hp _ _ => exact hp.le
  | iceberg _ hp _ _ _ _ => exact hp.le
  | market _ _ _ _ hle => exact hle
  | replace _ _ _ hp _ => exact hp.le

/-- No operation makes an order of more than the maximum quantity. -/
theorem closed_bounded (hfifo : cfg.allocationMode = .fifo) (L₀ : Ladder) (op : Op) :
    Closed cfg L₀ op (fun _ _ e => e.remaining ≤ cfg.maxOrderQuantity) (fun d => d.remaining ≤ cfg.maxOrderQuantity) where
  shrink h hs := Nat.le_trans hs.remaining h
  enter ha _ hle := Nat.le_trans (hle hfifo) ha.quantity_le
  settle h _ _ hle := Nat.le_trans (hle hfifo) h
  sleep _ _ hle _ hs := hs.remaining ▸ hle
  less h hs := Nat.le_trans hs.remaining h

/-- Under FIFO allocation no order ever has more left than the maximum. -/
theorem Run.bounded {state : TradingState} {calls : List (Op × Outcome)} (hfifo : cfg.allocationMode = .fifo)
    (h : Ladder.Run cfg state calls L) : L.Bounded cfg :=
  h.all (closed_bounded hfifo)

/-- The orders of the levels are those of all levels together. -/
theorem sum_range_length {α : Type} (f : Nat → List α) (n : Nat) :
    ∑ i ∈ Finset.range n, (f i).length = ((List.range' 0 n).flatMap f).length := by
  induction n with
  | zero => rfl
  | succ n ih =>
    rw [Finset.sum_range_succ, ih, List.range'_concat, List.flatMap_append, List.length_append]
    simp

/-- The orders of a side have at most the maximum for each slot. -/
theorem Bounded.sum_le (hb : L.Bounded cfg) (hw : L.Wf cfg) (side : Side) (n : Nat) :
    ∑ i ∈ Finset.range n, L.total side i ≤ cfg.maxOrders * cfg.maxOrderQuantity := by
  have hcut : ∑ i ∈ Finset.range n, L.total side i ≤ ∑ i ∈ Finset.range cfg.domain.tickCount, L.total side i := by
    rcases Nat.le_total n cfg.domain.tickCount with hn | hn
    · exact Finset.sum_le_sum_of_subset (Finset.range_subset_range.mpr hn)
    · refine Nat.le_of_eq (Finset.sum_subset (Finset.range_subset_range.mpr hn) fun i _ hi => ?_).symm
      rw [Finset.mem_range, Nat.not_lt] at hi
      exact total_eq_zero.mpr (hw.range side i hi)
  have hlevel : ∀ i, L.total side i ≤ ((L.queue side i).map Entry.slot).length * cfg.maxOrderQuantity := by
    intro i
    rw [List.length_map, ← List.length_map Entry.remaining, total]
    refine List.sum_le_card_nsmul _ _ fun x hx => ?_
    obtain ⟨e, he, rfl⟩ := List.mem_map.mp hx
    exact hb.entry he
  have hslots : (L.sideSlots cfg side).length ≤ cfg.maxOrders :=
    length_le_of_nodup (hw.sideSlots_nodup side) fun s hs => (hw.mem_sideSlots.mp hs).1
  calc ∑ i ∈ Finset.range n, L.total side i
      ≤ ∑ i ∈ Finset.range cfg.domain.tickCount, L.total side i := hcut
    _ ≤ ∑ i ∈ Finset.range cfg.domain.tickCount, ((L.queue side i).map Entry.slot).length * cfg.maxOrderQuantity :=
      Finset.sum_le_sum fun i _ => hlevel i
    _ = (L.sideSlots cfg side).length * cfg.maxOrderQuantity := by
      rw [← Finset.sum_mul, sum_range_length fun i => (L.queue side i).map Entry.slot]
      rfl
    _ ≤ cfg.maxOrders * cfg.maxOrderQuantity := Nat.mul_le_mul_right _ hslots

/-- The total of a level is a 64-bit number. -/
theorem Bounded.total_lt (hb : L.Bounded cfg) (hw : L.Wf cfg) (side : Side) (i : Nat) : L.total side i < 2 ^ 64 := by
  have h1 := hb.sum_le hw side (i + 1)
  rw [Finset.sum_range_succ] at h1
  have h2 := cfg.quantities_lt
  omega

theorem Bounded.demand_lt (hb : L.Bounded cfg) (hw : L.Wf cfg) : L.demand cfg 0 < 2 ^ 64 := by
  rw [demand, ← Finset.range_eq_Ico]
  exact Nat.lt_of_le_of_lt (hb.sum_le hw .buy _) cfg.quantities_lt

theorem Bounded.supply_lt (hb : L.Bounded cfg) (hw : L.Wf cfg) (i : Nat) : L.supply i < 2 ^ 64 := by
  rw [supply, ← Finset.range_eq_Ico]
  exact Nat.lt_of_le_of_lt (hb.sum_le hw .sell _) cfg.quantities_lt

theorem Bounded.clears (hb : L.Bounded cfg) (hw : L.Wf cfg) : Clears cfg L (L.clearing cfg) :=
  clearing_clears hw (hb.demand_lt hw) (hb.supply_lt hw)

end Ladder

/-! ## The best bid and the best ask -/

open Ladder

namespace Sweep

variable {cfg : BookConfig} {t : Taker} {w w' : Sweep}

/-- A taker leaves its own side alone and occupies no level of the other. -/
theorem run_sides (hw : w.ladder.Wf cfg) (h : (w.run cfg t).Returns w') :
    (∀ i, w'.ladder.queue t.side i = w.ladder.queue t.side i) ∧
      ∀ i, w'.ladder.queue t.side.opposite i ≠ [] → w.ladder.queue t.side.opposite i ≠ [] := by
  refine (run_invariant (I := fun w' => (∀ i, w'.ladder.queue t.side i = w.ladder.queue t.side i) ∧
    ∀ i, w'.ladder.queue t.side.opposite i ≠ [] → w.ladder.queue t.side.opposite i ≠ []) ?_ hw ⟨fun _ => rfl, fun _ => id⟩ h).2.1
  intro w' i e q hw' hi hs
  obtain ⟨l, r, hq, -, hf⟩ := hs.filled hw'
  refine ⟨fun j => ?_, fun j hj => hi.2 j (hf.queue_ne_nil hq hj)⟩
  rw [hf.queue_of_ne fun hc => t.side.opposite_ne hc.1.symm]
  exact hi.1 j

/-- A taker with something left has met every level its limit allows. -/
theorem run_clear (hw : w.ladder.Wf cfg) (h : (w.run cfg t).Returns w') (hrem : w'.remaining ≠ 0) {limit j : Nat}
    (hlimit : t.limit = some limit) (hj : w'.ladder.queue t.side.opposite j ≠ []) : crosses t.side j limit = false := by
  obtain ⟨hw', -, hend⟩ := run_invariant (I := fun _ => True) (fun _ _ _ _ _ _ _ => trivial) hw trivial h
  rcases hend with hz | hend
  · exact absurd hz hrem
  · obtain ⟨best, hbest⟩ := hw'.best_isSome hj
    obtain ⟨limit', hl, hc⟩ := hend best hbest
    rw [hlimit, Option.some.injEq] at hl
    subst hl
    by_contra hcross
    rw [Bool.not_eq_false] at hcross
    have hnb := hw'.not_better hbest hj
    have : best = j ∨ betterLevel t.side.opposite best j := by
      cases hs : t.side.opposite <;> simp only [betterLevel, hs] at hnb ⊢ <;> omega
    rcases this with rfl | hb
    · rw [hcross] at hc
      cases hc
    · rw [crosses_of_better hb hcross] at hc
      cases hc

end Sweep

namespace Ladder

variable {cfg : BookConfig} {L₀ L L' : Ladder} {op : Op}

/-- With fewer levels occupied, the ladder is still uncrossed. -/
theorem Uncrossed.mono (h : L.Uncrossed) (hsub : ∀ side i, L'.queue side i ≠ [] → L.queue side i ≠ []) : L'.Uncrossed :=
  fun bid ask hbid hask => h bid ask (hsub .buy bid hbid) (hsub .sell ask hask)

/-- An order rests without crossing when the other side is clear. -/
theorem Uncrossed.push (h : L.Uncrossed) {side : Side} {i : Nat} {e : Entry}
    (hqueue : L'.queue = (L.setQueue side i (L.queue side i ++ [e])).queue)
    (hclear : ∀ j, L.queue side.opposite j ≠ [] → crosses side j i = false) : L'.Uncrossed := by
  rw [uncrossed_iff side] at h ⊢
  intro i' j hi hj
  rw [hqueue, setQueue_queue, if_neg fun hc => side.opposite_ne hc.1] at hj
  rw [hqueue, setQueue_queue] at hi
  split at hi
  · rename_i hc
    rw [hc.2]
    exact hclear j hj
  · exact h i' j hi hj

/-- A taker keeps the ladder uncrossed. -/
theorem Uncrossed.run {t : Taker} {w w' : Sweep} (h : w.ladder.Uncrossed) (hw : w.ladder.Wf cfg) (hr : (w.run cfg t).Returns w') :
    w'.ladder.Uncrossed := by
  obtain ⟨h1, h2⟩ := Sweep.run_sides hw hr
  rw [uncrossed_iff t.side] at h ⊢
  exact fun i j hi hj => h i j (h1 i ▸ hi) (h2 j hj)

/-- An activation leaves no bid at or above an ask. -/
theorem Activated.uncrossed (hw : L.Wf cfg) (hnone : L.held = none) {d : Dormant} {sl sr : List Dormant}
    (hs : L.stops = sl ++ d :: sr) {w : Sweep} {result : SubmitResult} (hu : L.Uncrossed)
    (h : Activated cfg L d (sl ++ sr) w result L') : L'.Uncrossed := by
  have hhold := hw.hold hs hnone
  have hu' : (L.hold d (sl ++ sr)).Uncrossed := hu
  have hrun := hu'.run (w := ⟨L.hold d (sl ++ sr), d.remaining, []⟩) hhold h.run
  obtain ⟨-, -, hlt, -, -⟩ := h.wf hw hnone hs
  rw [h.ladder]
  unfold finish
  cases hlim : (d.taker cfg).limit with
  | none => exact hrun
  | some i =>
    dsimp only
    by_cases hrem : w.remaining = 0
    · rw [if_neg (fun hc => hc hrem)]
      exact hrun
    · rw [if_pos hrem]
      unfold settle
      rw [dif_pos ⟨by omega, hlt⟩]
      exact hrun.push rfl fun j hj => Sweep.run_clear hhold h.run hrem hlim hj

theorem cascade_uncrossed {trades trades' : List Trade} (hw : L.Wf cfg) (hnone : L.held = none) (hu : L.Uncrossed)
    (h : (L.cascade cfg trades).Returns (trades', L')) : L'.Uncrossed :=
  (cascade_invariant (J := fun _ L => L.Uncrossed)
    (fun _ _ _ _ _ _ _ _ hw hnone hu hs _ _ hact => hact.uncrossed hw hnone hs hu) hw hnone hu h).1

/-- An activation leaves the trading state. -/
theorem Activated.tradingState (hw : L.Wf cfg) (hnone : L.held = none) {d : Dormant} {sl sr : List Dormant}
    (hs : L.stops = sl ++ d :: sr) {w : Sweep} {result : SubmitResult} (h : Activated cfg L d (sl ++ sr) w result L') :
    L'.tradingState = L.tradingState := by
  have hk := (Sweep.run_kept (hw.hold hs hnone) h.run).tradingState
  rw [h.ladder]
  unfold finish settle dropHeld
  split
  · split
    · split <;> exact hk
    · exact hk
  · exact hk

theorem cascade_tradingState {trades trades' : List Trade} (hw : L.Wf cfg) (hnone : L.held = none)
    (h : (L.cascade cfg trades).Returns (trades', L')) : L'.tradingState = L.tradingState :=
  (cascade_invariant (J := fun _ L' => L'.tradingState = L.tradingState)
    (fun _ _ _ _ _ _ _ _ hw hnone hj hs _ _ hact => (hact.tradingState hw hnone hs).trans hj) hw hnone rfl h).1

section Entering

variable {L0 L1 : Ladder} {t : Taker} {i quantity : Nat} {rests : Bool} {display : Nat → Nat} {w : Sweep} {handle : Handle}

theorem Rested.tradingState (h : Rested w t i rests display handle L1) : L1.tradingState = w.ladder.tradingState := by
  rcases h with ⟨-, -, h⟩ | ⟨-, -, rfl⟩
  · have hL : L1 = _ := congrArg Prod.snd h
    rw [hL]
    unfold rest
    split
    · rfl
    · split <;> rfl
  · rfl

/-- A removal occupies no level and leaves the trading state. -/
theorem Wf.removed (h : L.Wf cfg) {side : Side} {j : Nat} {l r : List Entry} {e : Entry} (hq : L.queue side j = l ++ e :: r) :
    (L.remove side j e.slot).tradingState = L.tradingState ∧
      ∀ side' k, (L.remove side j e.slot).queue side' k ≠ [] → L.queue side' k ≠ [] := by
  rw [remove_eq hq (h.slot_ne_of_split hq).1]
  refine ⟨rfl, fun side' k hk => ?_⟩
  change (L.setQueue side j (l ++ r)).queue side' k ≠ [] at hk
  rw [setQueue_queue] at hk
  split at hk
  · rename_i hc
    rw [hc.1, hc.2, hq]
    simp
  · exact hk

/-- The ladder an order meets has no other levels in use than the ladder it was submitted to. -/
theorem Admitted.queue_ne_nil (hw : L₀.Wf cfg) (h : Admitted cfg L₀ op L0 t i quantity rests display) {side : Side} {j : Nat}
    (hj : L0.queue side j ≠ []) : L₀.queue side j ≠ [] := by
  cases h with
  | limit _ _ _ => exact hj
  | postOnly _ _ _ _ => exact hj
  | iceberg _ _ _ _ _ _ => exact hj
  | market _ _ _ _ _ => exact hj
  | replace _ _ hq _ _ => exact (hw.reset.removed hq).2 _ _ hj

/-- Letting an order in leaves the trading state. -/
theorem Admitted.tradingState (hw : L₀.Wf cfg) (h : Admitted cfg L₀ op L0 t i quantity rests display) :
    L0.tradingState = L₀.tradingState := by
  cases h with
  | limit _ _ _ => rfl
  | postOnly _ _ _ _ => rfl
  | iceberg _ _ _ _ _ _ => rfl
  | market _ _ _ _ _ => rfl
  | replace _ _ hq _ _ => exact (hw.reset.removed hq).1

/-- An order that may rest has the limit of its level. -/
theorem Admitted.limit_of_rests (h : Admitted cfg L₀ op L0 t i quantity rests display) (hrests : rests = true) : t.limit = some i := by
  cases h with
  | limit _ _ _ => rfl
  | postOnly _ _ _ _ => rfl
  | iceberg _ _ _ _ _ _ => rfl
  | market _ _ _ _ _ => cases hrests
  | replace _ _ _ _ _ => rfl

/-- An order that enters in continuous trading keeps the ladder uncrossed. -/
theorem Rested.uncrossed (hw : L0.Wf cfg) (hu : L0.Uncrossed) (hlim : rests = true → t.limit = some i)
    (hr : (Sweep.run cfg t ⟨L0, quantity, []⟩).Returns w) (h : Rested w t i rests display handle L1) : L1.Uncrossed := by
  have hrun : w.ladder.Uncrossed := hu.run (w := ⟨L0, quantity, []⟩) hw hr
  rcases h with ⟨hrests, hrem, h⟩ | ⟨-, -, rfl⟩
  · have hL : L1 = _ := congrArg Prod.snd h
    rw [hL]
    unfold rest
    split
    · exact hrun
    · split
      · exact hrun.push rfl fun j hj => Sweep.run_clear (w := ⟨L0, quantity, []⟩) hw hr hrem (hlim hrests) hj
      · exact hrun
  · exact hrun

end Entering

/-- In continuous trading every operation keeps the ladder uncrossed, and the opening uncross leaves it so. -/
theorem Effect.keeps_uncrossed {out : Outcome} (hw : L.Wf cfg) (hnone : L.held = none) (hb : L.Bounded cfg)
    (hu : L.tradingState = .continuous → L.Uncrossed) (h : Effect cfg L op out L') : L'.tradingState = .continuous → L'.Uncrossed := by
  intro hts
  cases h with
  | refused _ _ hsame =>
    rcases hsame with rfl | rfl
    · exact hu hts
    · exact hu hts
  | entered ha hm hr hc =>
    have hs := ha.sound hw hnone
    have hw1 := hm.wf hs.wf
    have hw2 := hr.wf hw1 hs.level
    have hnone2 : _ = none := hr.held.trans ((hm.kept hs.wf).held.trans hs.held)
    have hts0 : L.tradingState = .continuous := by
      rw [← hts, cascade_tradingState hw2 hnone2 hc, hr.tradingState, (hm.kept hs.wf).tradingState, ha.tradingState hw]
    refine cascade_uncrossed hw2 hnone2 ?_ hc
    rcases hm with ⟨-, hm⟩ | ⟨hne, -⟩
    · exact hr.uncrossed hs.wf ((hu hts0).mono fun _ _ => ha.queue_ne_nil hw) ha.limit_of_rests hm
    · exact absurd ((ha.tradingState hw).trans hts0) hne
  | lost _ _ hq _ _ _ _ _ =>
    obtain ⟨hstate, hsub⟩ := hw.reset.removed hq
    have hu' : L.reset.Uncrossed := hu (hstate.symm.trans hts)
    exact hu'.mono hsub
  | slept _ _ _ _ _ _ hrest _ =>
    obtain ⟨free, -, rfl⟩ := (restStop_slept hrest).room
    exact hu hts
  | fired _ _ _ _ hcont _ hrest _ hact hc =>
    have hsl := restStop_slept hrest
    obtain ⟨hw1, hnone1⟩ := hsl.wf hw.reset hnone
    rw [← List.append_nil L.stops] at hact
    obtain ⟨free, -, rfl⟩ := hsl.room
    obtain ⟨-, -, -, hw2, hnone2⟩ := hact.wf hw1 hnone1 rfl
    exact cascade_uncrossed hw2 hnone2 (hact.uncrossed hw1 hnone1 rfl (hu hcont)) hc
  | cancelMissed _ => exact hu hts
  | cancelled hloc =>
    obtain ⟨l, r, hq, -⟩ := resolve_resting hloc
    obtain ⟨hstate, hsub⟩ := hw.removed hq
    exact (hu (hstate.symm.trans hts)).mono hsub
  | cancelledStop hloc =>
    obtain ⟨l, r, hs, -⟩ := resolve_dormant hloc
    rw [removeStop_eq hs (hw.stop_ne_of_split hs).1] at hts ⊢
    exact hu hts
  | amendRefused _ => exact hu hts
  | @amended _ _ i side e hloc _ _ _ =>
    obtain ⟨l, r, hq, -⟩ := resolve_resting hloc
    rw [amendEntry_eq hw hq] at hts ⊢
    refine (hu hts).mono fun side' j hj => ?_
    rw [setQueue_queue] at hj
    split at hj
    · rename_i hc
      rw [hc.1, hc.2, hq]
      simp
    · exact hj
  | amendedStop hloc _ _ _ =>
    obtain ⟨l, r, hs, -⟩ := resolve_dormant hloc
    rw [amendStop_eq hw hs] at hts ⊢
    exact hu hts
  | uncrossRefused _ => exact hu hts
  | opened _ hz =>
    have hc := hb.clears hw
    have hun : L.Uncrossed := hc.uncrossed hw (hz.elim hc.none id)
    exact hun
  | uncrossed _ hlevel _ hloop =>
    have hw1 : { L with tradingState := .continuous }.Wf cfg := hw.of_slots (fun _ _ => rfl) rfl rfl rfl rfl rfl
    have hc := hb.clears hw
    have hc1 : Clears cfg { L with tradingState := .continuous } (L.clearing cfg) := ⟨hc.max, hc.eq, hc.none⟩
    exact (auction_uncrossed hw1 hc1 hlevel hloop).2

/-- After every run under FIFO allocation, in continuous trading no bid is at or above an ask. -/
theorem Run.uncrossed {state : TradingState} {calls : List (Op × Outcome)} (hfifo : cfg.allocationMode = .fifo)
    (h : Ladder.Run cfg state calls L) : L.tradingState = .continuous → L.Uncrossed := by
  refine (h.invariant (I := fun _ L => L.Bounded cfg ∧ (L.tradingState = .continuous → L.Uncrossed))
    ⟨⟨nofun, nofun, nofun⟩, fun _ _ _ hbid _ => absurd rfl hbid⟩ ?_).2
  intro _ L op _ _ hw hnone hi he
  exact ⟨(he.changes hw hnone).invariant (fun _ _ hw ha hc => hc.all (closed_bounded hfifo L op) hw ha) hi.1,
    he.keeps_uncrossed hw hnone hi.1 hi.2⟩

end Ladder

end MatchingEngine

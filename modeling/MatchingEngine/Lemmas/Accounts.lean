import MatchingEngine.Lemmas.Weights

/-!
# Accounts

What a taker, an activation and a cascade move: the weights before and after, the reports written, what activations have executed and
lost, and how many orders of one id there are. `Ladder.Flows` composes, so a cascade is one induction over its activations.
-/

namespace MatchingEngine

open Comp Function

namespace Ladder

/-- Counts the orders of an id. -/
def ofId (x id remaining : Nat) : Nat := if id = x ∧ 0 < remaining then 1 else 0

/-- Counts the units of an id. -/
def unitOf (x id : Nat) : Nat := if id = x then 1 else 0

/-- No two orders have the same id. -/
def Sole (cfg : BookConfig) (L : Ladder) : Prop := ∀ x, L.weigh cfg (ofId x) ≤ 1

variable {cfg : BookConfig} {L L' L'' : Ladder} {f : Nat → Nat → Nat} {c : Nat → Nat}

/-- What has nothing left does not count. -/
@[simp] theorem ofId_zero (x id : Nat) : ofId x id 0 = 0 := by simp [ofId]

/-- With more left it counts at least as much. -/
theorem ofId_mono (x id r r' : Nat) (h : r ≤ r') : ofId x id r ≤ ofId x id r' := by
  unfold ofId
  split
  · rename_i hr
    rw [if_pos ⟨hr.1, Nat.lt_of_lt_of_le hr.2 h⟩]
  · exact Nat.zero_le _

/-- An order of the id counts once. -/
theorem ofId_self {x r : Nat} (h : 0 < r) : ofId x x r = 1 := if_pos ⟨rfl, h⟩

/-- One of another id does not. -/
theorem ofId_of_ne {x id : Nat} (h : id ≠ x) (r : Nat) : ofId x id r = 0 := if_neg fun hc => h hc.1

theorem unitOf_self (x : Nat) : unitOf x x = 1 := if_pos rfl

theorem unitOf_of_ne {x id : Nat} (h : id ≠ x) : unitOf x id = 0 := if_neg h

/-- An order is part of the whole, and so are it and the held stop. -/
theorem weigh_ge {side : Side} {i : Nat} {e : Entry} (hw : L.Wf cfg) (he : e ∈ L.queue side i) :
    f e.id e.remaining + stopsWeight f L.held.toList ≤ L.weigh cfg f := by
  obtain ⟨l, r, hq⟩ := List.append_of_mem he
  have h1 := weigh_remove (f := f) hw hq
  have h2 : (L.remove side i e.slot).held = L.held := (hw.remove hq).2
  have h3 : stopsWeight f L.held.toList ≤ (L.remove side i e.slot).weigh cfg f := by
    rw [← h2]
    exact Nat.le_add_left _ _
  omega

/-- Where there is no order of an id, none of its units are left. -/
theorem weigh_unit_eq_zero {x : Nat} (h : L.weigh cfg (ofId x) = 0) : L.weigh cfg (perUnit (unitOf x)) = 0 := by
  have hqueue : ∀ side i, queueWeight (ofId x) (L.queue side i) = 0 → queueWeight (perUnit (unitOf x)) (L.queue side i) = 0 := by
    intro side i
    induction L.queue side i with
    | nil => exact fun _ => rfl
    | cons e q ih =>
      intro hz
      rw [queueWeight_cons, Nat.add_eq_zero_iff] at hz
      have hne : e.id ≠ x := fun heq => by
        have := ofId_self (x := x) (Nat.lt_of_lt_of_le e.displayed_pos e.displayed_le_remaining)
        rw [heq] at hz
        omega
      rw [queueWeight_cons, ih hz.2, perUnit, unitOf_of_ne hne, Nat.zero_mul]
  have hstops : ∀ stops : List Dormant, stopsWeight (ofId x) stops = 0 → stopsWeight (perUnit (unitOf x)) stops = 0 := by
    intro stops
    induction stops with
    | nil => exact fun _ => rfl
    | cons d stops ih =>
      intro hz
      rw [stopsWeight_cons, Nat.add_eq_zero_iff] at hz
      have hne : d.id ≠ x := fun heq => by
        have := ofId_self (x := x) d.remaining_pos
        rw [heq] at hz
        omega
      rw [stopsWeight_cons, ih hz.2, perUnit, unitOf_of_ne hne, Nat.zero_mul]
  simp only [weigh, Nat.add_eq_zero_iff, Finset.sum_eq_zero_iff] at h ⊢
  obtain ⟨⟨⟨h1, h2⟩, h3⟩, h4⟩ := h
  exact ⟨⟨⟨fun i hi => hqueue .buy i (h1 i hi), fun i hi => hqueue .sell i (h2 i hi)⟩, hstops _ h3⟩, hstops _ h4⟩

/-- What is left of the only order of an id. -/
theorem weigh_unit_of_mem {side : Side} {i : Nat} {e : Entry} (hw : L.Wf cfg) (hsole : L.weigh cfg (ofId e.id) ≤ 1)
    (he : e ∈ L.queue side i) : L.weigh cfg (perUnit (unitOf e.id)) = e.remaining := by
  obtain ⟨l, r, hq⟩ := List.append_of_mem he
  have h1 := weigh_remove (f := ofId e.id) hw hq
  have h2 := weigh_remove (f := perUnit (unitOf e.id)) hw hq
  rw [ofId_self (Nat.lt_of_lt_of_le e.displayed_pos e.displayed_le_remaining)] at h1
  rw [weigh_unit_eq_zero (by omega), perUnit, unitOf_self] at h2
  omega

/-- A stop that is alone with its id is all of its weight. -/
theorem weigh_unit_of_stop {d : Dormant} (hw : L.Wf cfg) (hsole : L.weigh cfg (ofId d.id) ≤ 1) (hd : d ∈ L.stops) :
    L.weigh cfg (perUnit (unitOf d.id)) = d.remaining := by
  obtain ⟨l, r, hs⟩ := List.append_of_mem hd
  have h1 := weigh_removeStop (f := ofId d.id) hw hs
  have h2 := weigh_removeStop (f := perUnit (unitOf d.id)) hw hs
  rw [ofId_self d.remaining_pos] at h1
  rw [weigh_unit_eq_zero (by omega), perUnit, unitOf_self] at h2
  omega

end Ladder

/-! ## Takers -/

open Ladder

/-- No order of an id rests. -/
def Ladder.Without (L : Ladder) (x : Nat) : Prop := ∀ side i, ∀ e ∈ L.queue side i, e.id ≠ x

namespace Sweep

variable {cfg : BookConfig} {t : Taker} {L : Ladder} {w w' : Sweep} {quantity : Nat}

/-- A taker that meets no order of an id has no fill of one. -/
theorem run_without {x : Nat} (hw : w.ladder.Wf cfg) (hwithout : w.ladder.Without x) (hfills : ∀ f ∈ w.fills, f.makerId ≠ x)
    (h : (w.run cfg t).Returns w') : ∀ f ∈ w'.fills, f.makerId ≠ x := by
  refine (run_invariant (I := fun w => w.ladder.Without x ∧ ∀ f ∈ w.fills, f.makerId ≠ x) ?_ hw ⟨hwithout, hfills⟩ h).2.1.2
  intro w i e q hw hi hs
  obtain ⟨l, r, hqueue, -, hf⟩ := hs.filled hw
  refine ⟨fun side' j y hy => ?_, fun f hm => ?_⟩
  · rcases hf.mem hqueue hy with hy | ⟨-, -, hshrink⟩
    · exact hi.1 _ _ y hy
    · rw [hshrink.id]
      exact hi.1 _ _ e hs.mem
  · unfold exec recordFill at hm
    dsimp only at hm
    split at hm
    · obtain ⟨g, hg, rfl⟩ := List.mem_map.mp hm
      have := hi.2 g hg
      split <;> exact this
    · rcases List.mem_append.mp hm with hm | hm
      · exact hi.2 f hm
      · rw [List.mem_singleton.mp hm]
        exact hi.1 _ _ e hs.mem

/-- A report names two orders when the maker is not the taker. -/
theorem reports_ne (hne : ∀ f ∈ w.fills, f.makerId ≠ t.id) : ∀ trade ∈ w.fills.map (t.report cfg), trade.buyId ≠ trade.sellId := by
  intro trade htrade
  obtain ⟨f, hf, rfl⟩ := List.mem_map.mp htrade
  have := hne f hf
  unfold Taker.report makeTrade
  split
  · exact this.symm
  · exact this

end Sweep

namespace Ladder

variable {cfg : BookConfig} {L L' L'' : Ladder} {trades trades' trades'' : List Trade}

/-! ## Activations -/

/-- What activations move, from a ladder and the reports so far to another. -/
structure Flows (cfg : BookConfig) (trades : List Trade) (L : Ladder) (trades' : List Trade) (L' : Ladder) : Prop where
  weight : ∀ c, L'.weigh cfg (perUnit c) + tradesWeight c trades' + lostWeight c L'.activations =
    L.weigh cfg (perUnit c) + tradesWeight c trades + lostWeight c L.activations
  executed : ∃ activations, L'.activations = L.activations ++ activations ∧ (trades'.map Trade.quantity).sum =
    (trades.map Trade.quantity).sum + (activations.map StopActivation.executedQuantity).sum
  count : ∀ x, L'.weigh cfg (ofId x) ≤ L.weigh cfg (ofId x)
  distinct : L.Sole cfg → (∀ trade ∈ trades, trade.buyId ≠ trade.sellId) → ∀ trade ∈ trades', trade.buyId ≠ trade.sellId
  settled : L.Sole cfg → ∀ x, L.weigh cfg (ofId x) = 0 ∨ lostWeight (unitOf x) L.activations = 0 →
    L'.weigh cfg (ofId x) = 0 ∨ lostWeight (unitOf x) L'.activations = 0

namespace Flows

theorem refl : Flows cfg trades L trades L where
  weight _ := rfl
  executed := ⟨[], (List.append_nil _).symm, rfl⟩
  count _ := Nat.le_refl _
  distinct _ h := h
  settled _ _ h := h

theorem sole (h : Flows cfg trades L trades' L') (hsole : L.Sole cfg) : L'.Sole cfg := fun x => Nat.le_trans (h.count x) (hsole x)

theorem trans (h : Flows cfg trades L trades' L') (h' : Flows cfg trades' L' trades'' L'') : Flows cfg trades L trades'' L'' where
  weight c := (h'.weight c).trans (h.weight c)
  executed := by
    obtain ⟨a, ha, hsum⟩ := h.executed
    obtain ⟨a', ha', hsum'⟩ := h'.executed
    refine ⟨a ++ a', by rw [ha', ha, List.append_assoc], ?_⟩
    rw [hsum', hsum, List.map_append, List.sum_append, Nat.add_assoc]
  count x := Nat.le_trans (h'.count x) (h.count x)
  distinct hsole ht := h'.distinct (h.sole hsole) (h.distinct hsole ht)
  settled hsole x hx := h'.settled (h.sole hsole) x (h.settled hsole x hx)

end Flows

/-- What becomes of a held stop: its remainder rests, or it is lost. -/
theorem finish_weigh {d : Dormant} {handle : Handle} {limit : Option Nat} {remaining : Nat} (hheld : L.held = some d)
    (hne : handle ≠ kInvalidHandle) (hlim : ∀ i, limit = some i → i < cfg.domain.tickCount) (hlt : remaining < 2 ^ 64) :
    (L.finish handle d limit remaining).2.activations = L.activations ∧
    ((L.finish handle d limit remaining).1 ≠ kInvalidHandle ∧
        (∀ f, (L.finish handle d limit remaining).2.weigh cfg f + f d.id d.remaining = L.weigh cfg f + f d.id remaining) ∨
      (L.finish handle d limit remaining).1 = kInvalidHandle ∧
        ∀ f, (L.finish handle d limit remaining).2.weigh cfg f + f d.id d.remaining = L.weigh cfg f) := by
  have hdrop : (L.dropHeld d).activations = L.activations ∧ ∀ f, (L.dropHeld d).weigh cfg f + f d.id d.remaining = L.weigh cfg f :=
    ⟨rfl, fun f => weigh_dropHeld hheld⟩
  unfold finish
  split
  · rename_i i
    split
    · rename_i hrem
      refine ⟨?_, Or.inl ⟨hne, fun f => weigh_settle hheld (hlim i rfl) ⟨Nat.pos_of_ne_zero hrem, hlt⟩⟩⟩
      unfold settle
      split <;> rfl
    · exact ⟨hdrop.1, Or.inr ⟨rfl, hdrop.2⟩⟩
  · exact ⟨hdrop.1, Or.inr ⟨rfl, hdrop.2⟩⟩

/-- What one activation moves. -/
theorem Activated.flows (hfifo : cfg.allocationMode = .fifo) (hw : L.Wf cfg) (hnone : L.held = none) {d : Dormant} {sl sr : List Dormant}
    (hs : L.stops = sl ++ d :: sr) {w : Sweep} {result : SubmitResult} (h : Activated cfg L d (sl ++ sr) w result L') :
    Flows cfg trades L (trades ++ w.fills.map ((d.taker cfg).report cfg)) L' := by
  have hhold := hw.hold hs hnone
  obtain ⟨hwf, hheld, hlt, -, -⟩ := h.wf hw hnone hs
  have hspent := Sweep.run_spent hfifo d.remaining_lt hhold h.run
  have htaken := hspent.taken
  have hdlt := d.remaining_lt
  have hexec : sub64 d.remaining w.remaining = (w.fills.map Fill.quantity).sum := by
    rw [sub64_eq (by omega) hdlt]
    omega
  have hkeep : w.ladder.activations = L.activations := (Sweep.run_kept hhold h.run).activations
  have hcount : ∀ x, w.ladder.weigh cfg (ofId x) ≤ L.weigh cfg (ofId x) := fun x =>
    (Sweep.run_weigh_le (ofId_zero x) (ofId_mono x) hhold h.run).trans (weigh_hold hs hnone).le
  obtain ⟨hacts, hfinish⟩ := @finish_weigh cfg w.ladder d _ (d.taker cfg).limit w.remaining hheld (handleAt_ne L d.slot)
    (fun i hi => taker_limit_lt hi) hlt
  obtain ⟨a, ha⟩ : ∃ a : StopActivation, a = ⟨d.id, sub64 d.remaining w.remaining, w.remaining,
    (w.ladder.finish (L.handleAt d.slot) d (d.taker cfg).limit w.remaining).1⟩ := ⟨_, rfl⟩
  have hactivations : L'.activations = L.activations ++ [a] := by
    rw [h.ladder, ha, ← hkeep, ← hacts]
  have hweigh : ∀ f, L'.weigh cfg f = (w.ladder.finish (L.handleAt d.slot) d (d.taker cfg).limit w.remaining).2.weigh cfg f := fun f => by
    rw [h.ladder]
    exact weigh_congr rfl rfl rfl
  have hlost : a.lost = if a.restingHandle = kInvalidHandle then w.remaining else 0 := by rw [ha]; rfl
  have hrest : a.restingHandle = (w.ladder.finish (L.handleAt d.slot) d (d.taker cfg).limit w.remaining).1 := by rw [ha]
  have horder : a.orderId = d.id := by rw [ha]
  refine ⟨fun c => ?_, ⟨[a], hactivations, ?_⟩, fun x => ?_, fun hsole ht => ?_, fun hsole x hx => ?_⟩
  · have hrun := Sweep.run_weighs (c := c) hfifo d.remaining_lt hhold h.run
    have hh : (L.hold d (sl ++ sr)).weigh cfg (perUnit c) = L.weigh cfg (perUnit c) := weigh_hold hs hnone
    have hid : (d.taker cfg).id = d.id := rfl
    rw [hh, hid] at hrun
    rw [hweigh, hactivations, tradesWeight_append, lostWeight_append, lostWeight_singleton, hlost, horder, hrest]
    rcases hfinish with ⟨hhandle, hf⟩ | ⟨hhandle, hf⟩
    · have := hf (perUnit c)
      rw [if_neg hhandle]
      simp only [perUnit] at this hrun ⊢
      omega
    · have := hf (perUnit c)
      rw [if_pos hhandle]
      simp only [perUnit] at this hrun ⊢
      omega
  · rw [List.map_append, List.sum_append, report_sum, ← hexec, ha]
    simp
  · rw [hweigh]
    have h1 := hcount x
    have h2 := ofId_mono x d.id w.remaining d.remaining (by omega)
    rcases hfinish with ⟨-, hf⟩ | ⟨-, hf⟩
    · have := hf (ofId x)
      omega
    · have := hf (ofId x)
      omega
  · have hwithout : (L.hold d (sl ++ sr)).Without d.id := fun side i e he heq => by
      have h1 := weigh_ge (f := ofId d.id) hhold he
      have h2 : (L.hold d (sl ++ sr)).weigh cfg (ofId d.id) = L.weigh cfg (ofId d.id) := weigh_hold hs hnone
      have h3 := hsole d.id
      have h4 : stopsWeight (ofId d.id) (L.hold d (sl ++ sr)).held.toList = 1 := ofId_self d.remaining_pos
      have h5 : ofId d.id e.id e.remaining = 1 := by
        rw [heq]
        exact ofId_self (Nat.lt_of_lt_of_le e.displayed_pos e.displayed_le_remaining)
      omega
    intro trade htrade
    rcases List.mem_append.mp htrade with htrade | htrade
    · exact ht trade htrade
    · exact Sweep.reports_ne (t := d.taker cfg) (Sweep.run_without hhold hwithout (fun _ hf => by cases hf) h.run) trade htrade
  · rw [hweigh, hactivations, lostWeight_append, lostWeight_singleton, hlost, horder, hrest]
    have h1 := hcount x
    rcases hfinish with ⟨hhandle, hf⟩ | ⟨hhandle, hf⟩
    · rw [if_neg hhandle, Nat.mul_zero, Nat.add_zero]
      refine hx.imp (fun hz => ?_) id
      have h2 := hf (ofId x)
      have h3 := ofId_mono x d.id w.remaining d.remaining (by omega)
      omega
    · rw [if_pos hhandle]
      by_cases hid : d.id = x
      · left
        have h2 := hf (ofId x)
        have h3 := hsole x
        rw [hid, ofId_self d.remaining_pos] at h2
        omega
      · rw [unitOf_of_ne hid, Nat.zero_mul, Nat.add_zero]
        refine hx.imp (fun hz => ?_) id
        have h2 := hf (ofId x)
        omega

/-- What a cascade moves. -/
theorem cascade_flows (hfifo : cfg.allocationMode = .fifo) (hw : L.Wf cfg) (hnone : L.held = none)
    (h : (L.cascade cfg trades).Returns (trades', L')) : Flows cfg trades L trades' L' := by
  refine (cascade_invariant (J := fun trades' L' => Flows cfg trades L trades' L') ?_ hw hnone .refl h).1
  intro trades1 L1 d sl sr w result L2 hw1 hnone1 hj hs _ _ hact
  exact hj.trans (hact.flows hfifo hw1 hnone1 hs)

/-! ## Submissions -/

/-- What an accepted submission moves: an order `id` enters with a quantity, in the place of an order with `replaced` left. What it leaves
and does not rest is `own`. `L₀` is the ladder it meets. -/
structure Enters (cfg : BookConfig) (L L' : Ladder) (trades : List Trade) (id quantity replaced own : Nat) (L₀ : Ladder) : Prop where
  before : ∀ f : Nat → Nat → Nat, (∀ id, f id 0 = 0) → L₀.weigh cfg f + f id replaced = L.weigh cfg f
  weight : ∀ c, L'.weigh cfg (perUnit c) + tradesWeight c trades + c id * own + lostWeight c L'.activations =
    L₀.weigh cfg (perUnit c) + c id * quantity
  count : ∀ x, L'.weigh cfg (ofId x) ≤ L₀.weigh cfg (ofId x) + ofId x id 1
  distinct : L₀.Sole cfg → L₀.weigh cfg (ofId id) = 0 → ∀ trade ∈ trades, trade.buyId ≠ trade.sellId
  settled : L₀.Sole cfg → L₀.weigh cfg (ofId id) = 0 → ∀ x, L'.weigh cfg (ofId x) = 0 ∨
    lostWeight (unitOf x) L'.activations = 0 ∧ (x = id → own = 0)

section Entering

variable {L0 L1 : Ladder} {t : Taker} {i quantity : Nat} {rests : Bool} {display : Nat → Nat} {w : Sweep} {handle : Handle}

/-- What an order takes as it matches. -/
theorem Matched.weighs (hfifo : cfg.allocationMode = .fifo) (hlt : quantity < 2 ^ 64) (hw : L0.Wf cfg)
    (h : Matched cfg L0 t quantity w) (c : Nat → Nat) :
    w.ladder.weigh cfg (perUnit c) + tradesWeight c (w.fills.map (t.report cfg)) + c t.id * w.remaining =
      L0.weigh cfg (perUnit c) + c t.id * quantity := by
  rcases h with ⟨-, h⟩ | ⟨-, rfl⟩
  · exact Sweep.run_weighs hfifo hlt hw h
  · exact congrArg (· + c t.id * quantity) (Nat.add_zero _)

/-- A matched order has spent what it has taken. -/
theorem Matched.spent (hfifo : cfg.allocationMode = .fifo) (hlt : quantity < 2 ^ 64) (hw : L0.Wf cfg)
    (h : Matched cfg L0 t quantity w) : Sweep.Spent quantity w := by
  rcases h with ⟨-, h⟩ | ⟨-, rfl⟩
  · exact Sweep.run_spent hfifo hlt hw h
  · exact ⟨List.nodup_nil, Nat.zero_add _⟩

/-- A matched order leaves no more orders of an id. -/
theorem Matched.count (hw : L0.Wf cfg) (h : Matched cfg L0 t quantity w) (x : Nat) :
    w.ladder.weigh cfg (ofId x) ≤ L0.weigh cfg (ofId x) := by
  rcases h with ⟨-, h⟩ | ⟨-, rfl⟩
  · exact Sweep.run_weigh_le (ofId_zero x) (ofId_mono x) hw h
  · exact Nat.le_refl _

/-- An order whose id is new meets no order of its id. -/
theorem Matched.distinct (hw : L0.Wf cfg) (h : Matched cfg L0 t quantity w) (hfresh : L0.weigh cfg (ofId t.id) = 0) :
    ∀ trade ∈ w.fills.map (t.report cfg), trade.buyId ≠ trade.sellId := by
  have hwithout : L0.Without t.id := fun side i e he heq => by
    have h1 := weigh_ge (f := ofId t.id) hw he
    rw [heq, ofId_self (Nat.lt_of_lt_of_le e.displayed_pos e.displayed_le_remaining)] at h1
    omega
  rcases h with ⟨-, h⟩ | ⟨-, rfl⟩
  · exact Sweep.reports_ne (Sweep.run_without hw hwithout (fun _ hf => by cases hf) h)
  · exact fun _ htrade => by cases htrade

/-- An order that comes to rest weighs what it has left, or it is lost. -/
theorem Rested.weighs (hi : rests = true → i < cfg.domain.tickCount)
    (h : Rested w t i rests display handle L1) : L1.activations = w.ladder.activations ∧
    ((∀ f, L1.weigh cfg f = w.ladder.weigh cfg f + f t.id w.remaining) ∧ handle ≠ kInvalidHandle ∨
      (∀ f, L1.weigh cfg f = w.ladder.weigh cfg f) ∧ handle = kInvalidHandle) := by
  rcases h with ⟨hr, -, h⟩ | ⟨-, rfl, rfl⟩
  · unfold rest at h
    split at h
    · rw [Prod.mk.injEq] at h
      obtain ⟨rfl, rfl⟩ := h
      exact ⟨rfl, Or.inr ⟨fun _ => rfl, rfl⟩⟩
    · split at h
      · rw [Prod.mk.injEq] at h
        obtain ⟨rfl, hL⟩ := h
        refine ⟨by rw [hL]; rfl, Or.inl ⟨fun f => ?_, handleAt_ne _ _⟩⟩
        rw [hL]
        have hlevel := fun (e : Entry) (M : Ladder) (hM : M.queue = (w.ladder.setQueue t.side i (w.ladder.queue t.side i ++ [e])).queue) =>
          weigh_level (f := f) (hi hr) hM
        generalize hM : Ladder.mk _ _ _ _ _ _ _ _ _ _ _ = M
        have := hlevel _ M (by rw [← hM])
        rw [← hM] at this ⊢
        simp only [setQueue, queueWeight_append, queueWeight_cons, queueWeight_nil] at this ⊢
        omega
      · rw [Prod.mk.injEq] at h
        obtain ⟨rfl, rfl⟩ := h
        exact ⟨rfl, Or.inr ⟨fun _ => rfl, rfl⟩⟩
  · exact ⟨rfl, Or.inr ⟨fun _ => rfl, rfl⟩⟩

/-- What an order moves that enters `L0`, with the activations that follow. -/
theorem enters_of_matched (hfifo : cfg.allocationMode = .fifo) (hw : L0.Wf cfg) (hnone : L0.held = none) (hreset : L0.activations = [])
    (hlt : quantity < 2 ^ 64) (hi : rests = true → i < cfg.domain.tickCount) {replaced : Nat}
    (hbefore : ∀ f : Nat → Nat → Nat, (∀ id, f id 0 = 0) → L0.weigh cfg f + f t.id replaced = L.weigh cfg f)
    (hm : Matched cfg L0 t quantity w) (hr : Rested w t i rests display handle L1)
    (hc : (L1.cascade cfg (w.fills.map (t.report cfg))).Returns (trades, L')) :
    Enters cfg L L' trades t.id quantity replaced (if handle = kInvalidHandle then w.remaining else 0) L0 ∧
      w.remaining ≤ quantity ∧
      (trades.map Trade.quantity).sum = quantity - w.remaining + (L'.activations.map StopActivation.executedQuantity).sum := by
  have hw1 := hm.wf hw
  have hw2 := hr.wf hw1 hi
  have hnone2 : L1.held = none := hr.held.trans ((hm.kept hw).held.trans hnone)
  have hflows := cascade_flows hfifo hw2 hnone2 hc
  have hspent := hm.spent hfifo hlt hw
  have htaken := hspent.taken
  have hcount := hm.count hw
  obtain ⟨hkeep, hrest⟩ := hr.weighs hi
  have hempty : L1.activations = [] := by rw [hkeep, (hm.kept hw).activations, hreset]
  have hcount1 : ∀ x, L1.weigh cfg (ofId x) ≤ L0.weigh cfg (ofId x) + ofId x t.id 1 := fun x => by
    have h1 := hcount x
    rcases hrest with ⟨hf, -⟩ | ⟨hf, -⟩
    · have h2 : ofId x t.id w.remaining ≤ ofId x t.id 1 := by
        unfold ofId
        split
        · rename_i hid
          rw [if_pos ⟨hid.1, Nat.one_pos⟩]
        · exact Nat.zero_le _
      have := hf (ofId x)
      omega
    · have := hf (ofId x)
      omega
  have hsole : L0.Sole cfg → L0.weigh cfg (ofId t.id) = 0 → L1.Sole cfg := fun hs hfresh x => by
    have h1 := hcount1 x
    have h2 := hs x
    by_cases hid : t.id = x
    · rw [hid] at hfresh
      rw [hid, ofId_self Nat.one_pos] at h1
      omega
    · rw [ofId_of_ne hid] at h1
      omega
  refine ⟨⟨hbefore, fun c => ?_, fun x => Nat.le_trans (hflows.count x) (hcount1 x), fun hs hfresh => ?_, fun hs hfresh x => ?_⟩, by omega, ?_⟩
  · have h1 := hflows.weight c
    have h2 := hm.weighs hfifo hlt hw c
    rw [hempty, lostWeight_nil] at h1
    rcases hrest with ⟨hf, hhandle⟩ | ⟨hf, hhandle⟩
    · have := hf (perUnit c)
      rw [if_neg hhandle]
      simp only [perUnit] at this h1 h2 ⊢
      omega
    · have := hf (perUnit c)
      rw [if_pos hhandle]
      omega
  · exact hflows.distinct (hsole hs hfresh) (hm.distinct hw hfresh)
  · by_cases hgone : L1.weigh cfg (ofId x) = 0
    · have := hflows.count x
      exact Or.inl (by omega)
    · refine (hflows.settled (hsole hs hfresh) x (Or.inr (by rw [hempty, lostWeight_nil]))).imp_right fun hlost => ⟨hlost, fun hid => ?_⟩
      rcases hrest with ⟨-, hhandle⟩ | ⟨hf, -⟩
      · exact if_neg hhandle
      · rw [hf, hid] at hgone
        have := hcount t.id
        omega
  · obtain ⟨acts, hacts, hsum⟩ := hflows.executed
    rw [hempty, List.nil_append] at hacts
    rw [hsum, report_sum, hacts]
    omega

end Entering

section Stops

variable {id quantity : Nat} {side : Side} {trigger : Int} {limit : Option Int} {d : Dormant} {L1 L2 : Ladder}

/-- What a stop moves that falls asleep. -/
theorem Slept.enters (h : Slept L.reset L' id side trigger limit quantity d) : Enters cfg L L' [] id quantity 0 0 L.reset := by
  have hacts : L'.activations = [] := by
    obtain ⟨free, -, rfl⟩ := h.room
    rfl
  refine ⟨fun f hzero => by rw [hzero]; rfl, fun c => ?_, fun x => ?_, fun _ _ => nofun, fun _ _ x => ?_⟩
  · rw [h.weigh, hacts]
    rfl
  · rw [h.weigh]
    refine Nat.add_le_add_left ?_ _
    unfold ofId
    split
    · rename_i hid
      rw [if_pos ⟨hid.1, Nat.one_pos⟩]
    · exact Nat.zero_le _
  · rw [hacts]
    exact Or.inr ⟨rfl, fun _ => rfl⟩

/-- What a stop moves that is triggered as it is submitted, with the activations that follow. -/
theorem Slept.enters_of_activated (hfifo : cfg.allocationMode = .fifo) (hw : L.Wf cfg) (hnone : L.held = none)
    (h : Slept L.reset L1 id side trigger limit quantity d) {w : Sweep} {result : SubmitResult} (hact : Activated cfg L1 d L.stops w result L2)
    (hc : (L2.cascade cfg (w.fills.map ((d.taker cfg).report cfg))).Returns (trades, L')) :
    Enters cfg L L' trades id quantity 0 0 L.reset ∧ result.executedQuantity + result.unfilledQuantity = quantity ∧
      (trades.map Trade.quantity).sum =
        result.executedQuantity + (L'.activations.tail.map StopActivation.executedQuantity).sum := by
  obtain ⟨hw1, hnone1⟩ := h.wf hw.reset hnone
  have henters : Enters cfg L L1 [] id quantity 0 0 L.reset := h.enters
  have hempty : L1.activations = [] := by
    obtain ⟨free, -, rfl⟩ := h.room
    rfl
  have hs : L1.stops = L.stops ++ d :: [] := by
    obtain ⟨free, -, rfl⟩ := h.room
    rfl
  rw [← List.append_nil L.stops] at hact
  obtain ⟨-, -, hlt, hw2, hnone2⟩ := hact.wf hw1 hnone1 hs
  have hfirst : Flows cfg [] L1 ([] ++ w.fills.map ((d.taker cfg).report cfg)) L2 := hact.flows hfifo hw1 hnone1 hs
  rw [List.nil_append] at hfirst
  have hflows := hfirst.trans (cascade_flows hfifo hw2 hnone2 hc)
  have hspent := Sweep.run_spent hfifo d.remaining_lt (hw1.hold hs hnone1) hact.run
  have htaken := hspent.taken
  have hdlt := d.remaining_lt
  have hrem := h.remaining
  have hexec : result.executedQuantity = quantity - w.remaining ∧ result.unfilledQuantity = w.remaining := by
    rw [hact.result]
    exact ⟨by rw [← hrem]; exact sub64_eq (by omega) hdlt, rfl⟩
  have hsole : L.reset.Sole cfg → L.reset.weigh cfg (ofId id) = 0 → L1.Sole cfg := fun hs hfresh x => by
    have h1 := henters.count x
    have h2 := hs x
    by_cases hid : id = x
    · rw [hid] at hfresh
      rw [hid, ofId_self Nat.one_pos] at h1
      omega
    · rw [ofId_of_ne hid] at h1
      omega
  refine ⟨⟨henters.before, fun c => ?_, fun x => Nat.le_trans (hflows.count x) (henters.count x), fun hs hfresh => ?_, fun hs hfresh x => ?_⟩,
    by omega, ?_⟩
  · have h1 := hflows.weight c
    have h2 := henters.weight c
    rw [hempty, lostWeight_nil, tradesWeight_nil] at h1
    rw [hempty, lostWeight_nil, tradesWeight_nil] at h2
    omega
  · exact hflows.distinct (hsole hs hfresh) nofun
  · exact (hflows.settled (hsole hs hfresh) x (Or.inr (by rw [hempty, lostWeight_nil]))).imp_right fun hlost => ⟨hlost, fun _ => rfl⟩
  · obtain ⟨a, ha, hsum⟩ := hfirst.executed
    obtain ⟨a', ha', hsum'⟩ := (cascade_flows hfifo hw2 hnone2 hc).executed
    have hone : ∃ own, L2.activations = [own] := by
      rw [hact.ladder]
      have hkeep : w.ladder.activations = [] := ((Sweep.run_kept (hw1.hold hs hnone1) hact.run).activations).trans hempty
      have hfin := (@finish_weigh cfg w.ladder d (L1.handleAt d.slot) (d.taker cfg).limit w.remaining
        (Sweep.run_kept (hw1.hold hs hnone1) hact.run).held (handleAt_ne L1 d.slot) (fun i hi => taker_limit_lt hi) hlt).1
      exact ⟨_, by rw [hfin, hkeep]; rfl⟩
    obtain ⟨own, hown⟩ := hone
    rw [hsum', ha', hown, List.singleton_append, List.tail_cons, report_sum]
    omega

end Stops

/-! ## The uncross -/

/-- What the uncross moves. -/
theorem auction_weighs {clearing remaining remaining' : Nat} {price : Int} {trades : List Trade} (hw : L.Wf cfg)
    (h : (auction cfg clearing price (L, remaining, [])).Returns (L', remaining', trades)) :
    (∀ c, L'.weigh cfg (perUnit c) + tradesWeight c trades = L.weigh cfg (perUnit c)) ∧
      (∀ x, L'.weigh cfg (ofId x) ≤ L.weigh cfg (ofId x)) ∧
      (L.Sole cfg → ∀ trade ∈ trades, trade.buyId ≠ trade.sellId) ∧ (trades.map Trade.quantity).sum + remaining' = remaining := by
  refine (auction_invariant (I := fun L' remaining' trades =>
    (∀ c, L'.weigh cfg (perUnit c) + tradesWeight c trades = L.weigh cfg (perUnit c)) ∧
      (∀ x, L'.weigh cfg (ofId x) ≤ L.weigh cfg (ofId x)) ∧
      (L.Sole cfg → ∀ trade ∈ trades, trade.buyId ≠ trade.sellId) ∧ (trades.map Trade.quantity).sum + remaining' = remaining)
    ?_ hw ⟨fun _ => rfl, fun _ => Nat.le_refl _, fun _ _ htrade => (by cases htrade), Nat.zero_add _⟩ h).2.1
  rintro L1 M L2 rem trades q bid ask b a rb ra hw1 ⟨hweight, hcount, hdistinct, hsum⟩ hs
  have heq := hs.eq
  have hb := b.displayed_le_remaining
  have ha := a.displayed_le_remaining
  refine ⟨fun c => ?_, fun x => ?_, fun hsole trade htrade => ?_, ?_⟩
  · have h1 := hs.bidFilled.weigh_add (f := perUnit c) hw1 hs.bids perUnit_zero
    have h2 := hs.askFilled.weigh_add (f := perUnit c) hs.mid_wf hs.asks_mid perUnit_zero
    have hsplit : ∀ e : Entry, q ≤ e.remaining → perUnit c e.id e.remaining = perUnit c e.id (e.remaining - q) + c e.id * q := fun e hle => by
      rw [perUnit, perUnit, ← Nat.mul_add, Nat.sub_add_cancel hle]
    have h3 := hsplit b (by omega)
    have h4 := hsplit a (by omega)
    have h5 := hweight c
    have h6 : tradesWeight c [⟨b.id, a.id, price, q⟩] = c b.id * q + c a.id * q := Nat.add_mul _ _ _
    rw [tradesWeight_append, h6]
    omega
  · have h1 := hs.bidFilled.weigh_add (f := ofId x) hw1 hs.bids (ofId_zero x)
    have h2 := hs.askFilled.weigh_add (f := ofId x) hs.mid_wf hs.asks_mid (ofId_zero x)
    have h3 := ofId_mono x b.id (b.remaining - q) b.remaining (Nat.sub_le _ _)
    have h4 := ofId_mono x a.id (a.remaining - q) a.remaining (Nat.sub_le _ _)
    have h5 := hcount x
    omega
  · rcases List.mem_append.mp htrade with htrade | htrade
    · exact hdistinct hsole trade htrade
    · rw [List.mem_singleton.mp htrade]
      intro heq
      dsimp only at heq
      have hq : L1.queue .buy bid = [] ++ b :: rb := hs.bids
      have h1 := weigh_remove (f := ofId b.id) hw1 hq
      have hask : a ∈ (L1.remove .buy bid b.slot).queue .sell ask := by
        rw [remove_eq hq (hw1.slot_ne_of_split hq).1]
        change a ∈ (L1.setQueue .buy bid ([] ++ rb)).queue .sell ask
        rw [setQueue_queue, if_neg (by rintro ⟨⟨⟩, -⟩), hs.asks]
        exact List.mem_cons_self
      have h2 := weigh_ge (f := ofId b.id) (hw1.remove hq).1 hask
      have h3 := hsole b.id
      have h4 := hcount b.id
      rw [ofId_self (Nat.lt_of_lt_of_le b.displayed_pos hb)] at h1
      rw [← heq, ofId_self (Nat.lt_of_lt_of_le a.displayed_pos ha)] at h2
      omega
  · rw [List.map_append, List.sum_append]
    simp only [List.map_cons, List.map_nil, List.sum_cons, List.sum_nil]
    omega

end Ladder

end MatchingEngine

import MatchingEngine.Activations
import MatchingEngine.Lemmas.Check
import MatchingEngine.Lemmas.Handles
import MatchingEngine.Lemmas.Opening
import MatchingEngine.Lemmas.Takers

/-!
# The course of a call on the ladder

Between calls no dormant stop is triggered, and the dormant stops are listed in the order of their submission, so the first triggered stop
of the list is the one submitted earliest. `Rep.course` follows a call on the book and on the ladder together: what an accepted submission
has left when it starts to look for triggered stops, and every activation after that.
-/

namespace MatchingEngine

open Comp Function

namespace Ladder

variable {cfg : BookConfig} {L₀ L L' : Ladder} {op : Op}

/-! ## The dormant stops -/

/-- No dormant stop is triggered. -/
def Quiet (L : Ladder) : Prop := ∀ d ∈ L.stops, L.triggered d.side d.trigger = false

/-- The dormant stops are listed in the order of their submission. -/
def StopsInOrder (L : Ladder) : Prop := L.stops.Pairwise fun d d' => d.serial < d'.serial

theorem triggered_congr (h : L'.lastPrice = L.lastPrice) (side : Side) (trigger : Int) :
    L'.triggered side trigger = L.triggered side trigger := by
  rw [triggered, triggered, h]

theorem Numbered.stop_lt (hn : L.Numbered) {d : Dormant} (hd : d ∈ L.stops) : d.serial < L.accepted :=
  @Numbered.lt L hn d.slot d.serial d.id (Or.inr (Or.inl (List.mem_map.mpr ⟨d, hd, rfl⟩)))

/-- An order that comes, goes or changes keeps the stops in the order of their submission. -/
theorem Change.stopsInOrder (hw : L.Wf cfg) (hn : L.Numbered) (ho : L.StopsInOrder) (h : Change cfg L₀ op L L') : L'.StopsInOrder := by
  unfold StopsInOrder at ho ⊢
  have htake : ∀ {l r : List Dormant} {d : Dormant}, L.stops = l ++ d :: r → (l ++ r).Pairwise fun d d' => d.serial < d'.serial := by
    intro l r d hs
    rw [hs] at ho
    exact ho.sublist (List.Sublist.append (List.Sublist.refl l) (List.sublist_cons_self d r))
  cases h with
  | mark _ hstops => rwa [hstops]
  | fill _ _ _ hf => rwa [hf.stops]
  | rest => exact ho
  | sleep _ _ _ _ _ hrest =>
    have hsl := restStop_slept hrest
    obtain ⟨free, -, rfl⟩ := hsl.room
    refine List.pairwise_append.mpr ⟨ho, List.pairwise_singleton _ _, fun x hx y hy => ?_⟩
    rw [List.mem_singleton] at hy
    rw [hy, hsl.serial]
    exact hn.stop_lt hx
  | hold hs => exact htake hs
  | settle =>
    unfold Ladder.settle
    split
    · exact ho
    · exact ho
  | drop => exact ho
  | remove hq =>
    rw [remove_eq hq (hw.slot_ne_of_split hq).1]
    exact ho
  | removeStop hs =>
    rw [removeStop_eq hs (hw.stop_ne_of_split hs).1]
    exact htake hs
  | amend hq =>
    rw [amendEntry_eq hw hq]
    exact ho
  | @amendStop n l r d hs hpos hle =>
    obtain ⟨-, -, -, -, -, hser, -⟩ := Dormant.amend_eq hpos hle
    rw [amendStop_eq hw hs]
    rw [hs] at ho
    have hsame : (l ++ d.amend n :: r).map Dormant.serial = (l ++ d :: r).map Dormant.serial := by simp [hser]
    exact List.pairwise_map.mp (hsame ▸ List.pairwise_map.mpr ho)

theorem Changes.stopsInOrder (hn : L.Numbered) (ho : L.StopsInOrder) (h : Changes cfg L₀ op L L') : L'.StopsInOrder :=
  (h.invariant (I := fun L => L.Numbered ∧ L.StopsInOrder)
    (fun _ _ hw hi hc => ⟨(hc.moved hw).numbered hi.1, hc.stopsInOrder hw hi.1 hi.2⟩) ⟨hn, ho⟩).2

theorem Run.stopsInOrder {state : TradingState} {calls : List (Op × Outcome)} (h : Ladder.Run cfg state calls L) : L.StopsInOrder :=
  (h.invariant (I := fun _ L => L.Numbered ∧ L.StopsInOrder)
    ⟨(show Run cfg state [] (Ladder.create cfg state) from .create).numbered, List.Pairwise.nil⟩
    fun _ _ _ _ _ hw hnone hi he =>
      ⟨(he.changes hw hnone).numbered hi.1, (he.changes hw hnone).stopsInOrder hi.1 hi.2⟩).2

/-- An operation leaves no triggered stop behind. -/
theorem Effect.quiet {out : Outcome} (hw : L.Wf cfg) (hnone : L.held = none) (ho : L.tradingState = .openingAuction → L.Opening cfg)
    (hq : L.Quiet) (h : Effect cfg L op out L') : L'.Quiet := by
  have hkeep : (∀ d' ∈ L'.stops, ∃ d ∈ L.stops, d'.side = d.side ∧ d'.trigger = d.trigger) → L'.lastPrice = L.lastPrice → L'.Quiet := by
    intro hstops hlast d' hd'
    obtain ⟨d, hd, hside, htrigger⟩ := hstops d' hd'
    rw [triggered_congr hlast, hside, htrigger]
    exact hq d hd
  cases h with
  | refused _ _ hsame =>
    rcases hsame with rfl | rfl
    · exact hq
    · exact hq
  | entered ha hm hr hc =>
    have hs := ha.sound hw hnone
    have hw1 := hm.wf hs.wf
    exact (cascade_invariant (J := fun _ _ => True) (fun _ _ _ _ _ _ _ _ _ _ _ _ _ _ _ => trivial) (hr.wf hw1 hs.level)
      (hr.held.trans ((hm.kept hs.wf).held.trans hs.held)) trivial hc).2.2.2
  | lost _ _ hqueue _ _ _ _ _ =>
    refine hkeep (fun d hd => ⟨d, ?_, rfl, rfl⟩) ?_
    · rw [remove_eq (L := L.reset) hqueue (hw.slot_ne_of_split hqueue).1] at hd
      exact hd
    · rw [remove_eq (L := L.reset) hqueue (hw.slot_ne_of_split hqueue).1]
      rfl
  | slept _ _ _ _ _ _ hrest hquiet =>
    have hsl := restStop_slept hrest
    obtain ⟨free, -, rfl⟩ := hsl.room
    intro d hd
    rcases List.mem_append.mp hd with hd | hd
    · exact hq d hd
    · rw [List.mem_singleton.mp hd, hsl.side, hsl.trigger]
      exact hquiet
  | fired _ _ _ _ _ _ hrest _ hact hc =>
    have hsl := restStop_slept hrest
    obtain ⟨hw1, hnone1⟩ := hsl.wf hw.reset hnone
    rw [← List.append_nil L.stops] at hact
    obtain ⟨free, -, rfl⟩ := hsl.room
    obtain ⟨-, -, -, hw2, hnone2⟩ := hact.wf hw1 hnone1 rfl
    exact (cascade_invariant (J := fun _ _ => True) (fun _ _ _ _ _ _ _ _ _ _ _ _ _ _ _ => trivial) hw2 hnone2 trivial hc).2.2.2
  | cancelMissed _ => exact hq
  | cancelled hloc =>
    obtain ⟨l, r, hqueue, -⟩ := resolve_resting hloc
    refine hkeep (fun d hd => ⟨d, ?_, rfl, rfl⟩) ?_
    · rw [remove_eq hqueue (hw.slot_ne_of_split hqueue).1] at hd
      exact hd
    · rw [remove_eq hqueue (hw.slot_ne_of_split hqueue).1]
      rfl
  | @cancelledStop _ d hloc =>
    obtain ⟨l, r, hs, -⟩ := resolve_dormant hloc
    rw [removeStop_eq hs (hw.stop_ne_of_split hs).1] at hkeep ⊢
    refine hkeep (fun x hx => ⟨x, ?_, rfl, rfl⟩) rfl
    rw [hs]
    rcases List.mem_append.mp hx with hx | hx
    · exact List.mem_append_left _ hx
    · exact List.mem_append_right _ (List.mem_cons_of_mem _ hx)
  | amendRefused _ => exact hq
  | amended hloc _ _ _ =>
    obtain ⟨l, r, hqueue, -⟩ := resolve_resting hloc
    rw [amendEntry_eq hw hqueue] at hkeep ⊢
    exact hkeep (fun d hd => ⟨d, hd, rfl, rfl⟩) rfl
  | @amendedStop _ n d hloc hpos hle _ =>
    obtain ⟨l, r, hs, -⟩ := resolve_dormant hloc
    obtain ⟨-, -, hside, htrigger, -, -, -⟩ := Dormant.amend_eq hpos hle
    rw [amendStop_eq hw hs] at hkeep ⊢
    refine hkeep (fun x hx => ?_) rfl
    have hd : d ∈ L.stops := by rw [hs]; simp
    rcases List.mem_append.mp hx with hx | hx
    · exact ⟨x, by rw [hs]; exact List.mem_append_left _ hx, rfl, rfl⟩
    · rcases List.mem_cons.mp hx with rfl | hx
      · exact ⟨d, hd, hside, htrigger⟩
      · exact ⟨x, by rw [hs]; exact List.mem_append_right _ (List.mem_cons_of_mem _ hx), rfl, rfl⟩
  | uncrossRefused _ => exact hq
  | opened _ _ => exact hq
  | uncrossed hts _ _ hloop =>
    have hw1 : { L with tradingState := .continuous }.Wf cfg := hw.of_slots (fun _ _ => rfl) rfl rfl rfl rfl rfl
    intro d hd
    have hd' : d ∈ L.stops := by rwa [← (auction_kept hw1 hloop).stops]
    exact ((ho hts).stop hd').elim

/-- Between calls no stop is triggered. -/
theorem Run.quiet {state : TradingState} {calls : List (Op × Outcome)} (h : Ladder.Run cfg state calls L) : L.Quiet :=
  (h.invariant (I := fun _ L => (L.tradingState = .openingAuction → L.Opening cfg) ∧ L.Quiet)
    ⟨fun _ => ⟨nofun, nofun, nofun⟩, nofun⟩
    fun _ _ _ _ _ hw hnone hi he => ⟨he.keeps_opening hw hnone hi.1, he.quiet hw hnone hi.1 hi.2⟩).2

end Ladder

/-! ## The cascade on the book -/

section Books

variable {cfg : BookConfig} {b b' : OrderBook} {L L' : Ladder} {trades trades' : List Trade} {picks : List OrderBook.Pick}

theorem Rep.stopTriggered {gh : Prop} (h : Rep gh cfg b L) {d : Dormant} (hd : d ∈ L.stops) :
    b.stopTriggered d.slot = L.triggered d.side d.trigger := by
  rw [OrderBook.stopTriggered, h.stop_side hd, (h.dormants d hd).trigger, h.stopIsTriggered]

theorem Rep.serialAt_stop (h : Rep True cfg b L) {d : Dormant} (hd : d ∈ L.stops) : b.serialAt d.slot = d.serial :=
  (h.dormants d hd).serial trivial

/-- The course of a cascade on the book and on the ladder. -/
inductive Traced (cfg : BookConfig) :
    OrderBook → Ladder → List Trade → List OrderBook.Pick → List Trade → OrderBook → Ladder → Prop where
  | finished {b : OrderBook} {L : Ladder} {trades : List Trade} (repr : Rep True cfg b L) (held : L.held = none) (quiet : L.Quiet) :
      Traced cfg b L trades [] trades b L
  | pick {b b1 b' : OrderBook} {L L1 L' : Ladder} {trades trades1 trades' : List Trade} {d : Dormant} {sl sr : List Dormant} {w : Sweep}
      {result : SubmitResult} {picks : List OrderBook.Pick} (repr : Rep True cfg b L) (held : L.held = none)
      (stops : L.stops = sl ++ d :: sr) (first : ∀ x ∈ sl, L.triggered x.side x.trigger = false)
      (hit : L.triggered d.side d.trigger = true) (active : Ladder.Activated cfg L d (sl ++ sr) w result L1)
      (returns : (b.activateStop (b.arena.handleAt d.slot) trades).Returns ({ result with tradeCount := trades1.length }, trades1, b1))
      (rest : Traced cfg b1 L1 trades1 picks trades' b' L') :
      Traced cfg b L trades (⟨b, d.slot, { result with tradeCount := trades1.length }⟩ :: picks) trades' b' L'

/-- An activation on the book is one on the ladder. -/
theorem Rep.activates {gh : Prop} (h : Rep gh cfg b L) (hnone : L.held = none) {d : Dormant} {sl sr : List Dormant}
    (hs : L.stops = sl ++ d :: sr) {result : SubmitResult}
    (hret : (b.activateStop (b.arena.handleAt d.slot) trades).Returns (result, trades', b')) :
    ∃ w r L', Ladder.Activated cfg L d (sl ++ sr) w r L' ∧ result = { r with tradeCount := trades'.length } ∧
      trades' = trades ++ w.fills.map ((d.taker cfg).report cfg) ∧ Rep gh cfg b' L' ∧ L'.held = none := by
  rw [h.handleAt (h.stop_lt (by rw [hs]; simp))] at hret
  obtain ⟨⟨r, fills, L'⟩, hact, hr, htrades, hrepr, hheld⟩ := (h.activateStop hnone trades hs).1 _ hret
  obtain ⟨w, hactive, rfl⟩ := Ladder.activate_returns.mp hact
  exact ⟨w, r, L', hactive, hr, htrades, hrepr, hheld⟩

/-- One round of `trigger_stops`: no stop is triggered, or the first triggered one is activated. -/
theorem Rep.triggerRound {gh : Prop} (h : Rep gh cfg b L) {turn : Turn (List Trade × OrderBook) (List Trade × OrderBook)}
    (hb : (do
      let index ← b.findTriggered
      if index = kInvalidIndex then pure (Turn.done (trades, b))
      else
        let (_, trades, b) ← b.activateStop (b.arena.handleAt index) trades
        pure (Turn.next (trades, b))).Returns turn) :
    (L.Quiet ∧ turn = .done (trades, b)) ∨ ∃ d sl sr result trades1 b1, L.stops = sl ++ d :: sr ∧
      (∀ x ∈ sl, L.triggered x.side x.trigger = false) ∧ L.triggered d.side d.trigger = true ∧
      (b.activateStop (b.arena.handleAt d.slot) trades).Returns (result, trades1, b1) ∧ turn = .next (trades1, b1) := by
  obtain ⟨index, hindex, hb⟩ := (returns_bind _ _ _).mp hb
  have := hindex.unique h.findTriggered
  subst this
  cases hsplit : L.splitStop fun d => L.triggered d.side d.trigger with
  | none =>
    rw [hsplit, Option.map_none, Option.getD_none, if_pos rfl, returns_pure] at hb
    exact Or.inl ⟨Ladder.splitStop_eq_none.mp hsplit, hb.symm⟩
  | some p =>
    obtain ⟨d, others⟩ := p
    obtain ⟨sl, sr, hs, rfl, hl, hd⟩ := Ladder.of_splitStop hsplit
    rw [hsplit] at hb
    simp only [Option.map_some, Option.getD_some] at hb
    rw [if_neg (Rep.slot_ne_invalid (h.stop_lt (by rw [hs]; simp)))] at hb
    obtain ⟨⟨result, trades1, b1⟩, hact, hb⟩ := (returns_bind _ _ _).mp hb
    exact Or.inr ⟨d, sl, sr, result, trades1, b1, hs, hl, hd, hact, ((returns_pure _ _).mp hb).symm⟩

/-- A ladder on which no stop is triggered ends its cascade. -/
theorem Ladder.Quiet.cascade (h : L.Quiet) : (L.cascade cfg trades).Returns (trades, L) := by
  refine (returns_loop _ _ _).mpr (Or.inl ?_)
  dsimp only
  rw [Ladder.splitStop_eq_none.mpr h]
  exact (returns_pure _ _).mpr rfl

/-- What `trigger_stops` does on the book, it does on the ladder, activation by activation. -/
theorem Rep.traced (h : Rep True cfg b L) (hnone : L.held = none) (hret : (b.triggerStops trades).Returns (trades', b')) :
    ∃ picks L', Traced cfg b L trades picks trades' b' L' ∧ (L.cascade cfg trades).Returns (trades', L') := by
  refine Comp.loop_induct
    (P := fun st r => ∀ L, Rep True cfg st.2 L → L.held = none →
      ∃ picks L', Traced cfg st.2 L st.1 picks r.1 r.2 L' ∧ (L.cascade cfg st.1).Returns (r.1, L'))
    ?_ ?_ hret L h hnone
  · rintro ⟨trades, b⟩ r hb L h hnone
    rcases h.triggerRound hb with ⟨hquiet, hturn⟩ | ⟨_, _, _, _, _, _, -, -, -, -, hturn⟩
    · rw [Turn.done.injEq] at hturn
      subst hturn
      exact ⟨[], L, .finished h hnone hquiet, hquiet.cascade⟩
    · cases hturn
  · rintro ⟨trades, b⟩ st ⟨trades', b'⟩ hb _ ih L h hnone
    rcases h.triggerRound hb with ⟨-, hturn⟩ | ⟨d, sl, sr, result, trades1, b1, hs, hl, hd, hact, hturn⟩
    · cases hturn
    · rw [Turn.next.injEq] at hturn
      subst hturn
      dsimp only at hb h ih ⊢
      obtain ⟨w, r, L1, hactive, rfl, htrades, hrepr1, hnone1⟩ := h.activates hnone hs hact
      obtain ⟨picks, L', htraced, hcas⟩ := ih L1 hrepr1 hnone1
      refine ⟨_, L', .pick h hnone hs hl hd hactive hact htraced, (returns_loop _ _ _).mpr (Or.inr ⟨_, ?_, hcas⟩)⟩
      dsimp only
      rw [Ladder.splitStop_eq hs hl hd]
      refine (returns_bind _ _ _).mpr ⟨_, Ladder.activate_returns.mpr ⟨w, hactive, rfl⟩, ?_⟩
      rw [htrades]
      exact (returns_pure _ _).mpr rfl

/-- Where the course of a cascade ends. -/
theorem Traced.ends (h : Traced cfg b L trades picks trades' b' L') : Rep True cfg b' L' ∧ L'.held = none ∧ L'.Quiet := by
  induction h with
  | finished hrepr hnone hquiet => exact ⟨hrepr, hnone, hquiet⟩
  | pick _ _ _ _ _ _ _ _ ih => exact ih

/-- A cascade admits no order. -/
theorem Traced.accepted (h : Traced cfg b L trades picks trades' b' L') : L'.accepted = L.accepted := by
  induction h with
  | finished => rfl
  | pick hrepr hnone hs _ _ hactive _ _ ih => exact ih.trans (hactive.accepted hrepr.wf hnone hs)

theorem Traced.changes {L₀ : Ladder} {op : Op} (h : Traced cfg b L trades picks trades' b' L') : Ladder.Changes cfg L₀ op L L' := by
  induction h with
  | finished => exact .refl
  | pick hrepr hnone hs _ _ hactive _ _ ih => exact (hactive.changes hrepr.wf hnone hs).trans ih

theorem Traced.starts (h : Traced cfg b L trades picks trades' b' L') : Rep True cfg b L ∧ L.held = none := by
  cases h with
  | finished hrepr hnone _ => exact ⟨hrepr, hnone⟩
  | pick hrepr hnone _ _ _ _ _ _ => exact ⟨hrepr, hnone⟩

/-- The first triggered stop of the list is the one that was submitted earliest. -/
theorem Traced.activates (hn : L.Numbered) (ho : L.StopsInOrder) (h : Traced cfg b L trades picks trades' b' L') :
    b.Activates trades picks trades' b' := by
  induction h with
  | finished hrepr _ hquiet =>
    refine .finished fun s hs => ?_
    rw [hrepr.stopSlots] at hs
    obtain ⟨d, hd, rfl⟩ := List.mem_map.mp hs
    rw [hrepr.stopTriggered hd]
    exact hquiet d hd
  | @pick b b1 b' L L1 L' trades trades1 trades' d sl sr w result picks hrepr hnone hs hfirst hhit hactive hreturns _ ih =>
    have hd : d ∈ L.stops := by rw [hs]; simp
    have hc : Ladder.Changes cfg L (.cancel kInvalidHandle) L L1 := hactive.changes hrepr.wf hnone hs
    refine .pick ?_ ?_ (fun x hx htrig => ?_) hreturns (ih (hc.numbered hn) (hc.stopsInOrder hn ho))
    · rw [hrepr.stopSlots]
      exact List.mem_map_of_mem hd
    · rw [hrepr.stopTriggered hd]
      exact hhit
    · rw [hrepr.stopSlots] at hx
      obtain ⟨y, hy, rfl⟩ := List.mem_map.mp hx
      rw [hrepr.stopTriggered hy] at htrig
      rw [hrepr.serialAt_stop hd, hrepr.serialAt_stop hy]
      unfold Ladder.StopsInOrder at ho
      rw [hs] at hy ho
      rcases List.mem_append.mp hy with hy | hy
      · rw [hfirst y hy] at htrig
        cases htrig
      · rcases List.mem_cons.mp hy with rfl | hy
        · exact Nat.le_refl _
        · exact Nat.le_of_lt ((List.pairwise_cons.mp (List.pairwise_append.mp ho).2.1).1 y hy)

/-- What a stop that is activated leaves in the list of activations. -/
theorem Ladder.Activated.activations (hw : L.Wf cfg) (hnone : L.held = none) {d : Dormant} {sl sr : List Dormant}
    (hs : L.stops = sl ++ d :: sr) {w : Sweep} {result : SubmitResult} (h : Ladder.Activated cfg L d (sl ++ sr) w result L') :
    L'.activations = L.activations ++ [⟨d.id, result.executedQuantity, result.unfilledQuantity, result.restingHandle⟩] := by
  have hk := Sweep.run_kept (hw.hold hs hnone) h.run
  rw [h.ladder, h.result]
  dsimp only
  rw [(Ladder.finish_lists _ _ _ _ _).2, hk.activations]
  rfl

/-- The activations of a cascade are listed in their order. -/
theorem Traced.activations (h : Traced cfg b L trades picks trades' b' L') :
    L'.activations = L.activations ++ picks.map OrderBook.Pick.activation := by
  induction h with
  | finished => exact (List.append_nil _).symm
  | @pick b b1 b' L L1 L' trades trades1 trades' d sl sr w result picks hrepr hnone hs _ _ hactive _ _ ih =>
    have hd : d ∈ L.stops := by rw [hs]; simp
    rw [ih, hactive.activations hrepr.wf hnone hs, List.append_assoc, List.map_cons, List.singleton_append,
      ← (hrepr.dormants d hd).id]
    rfl

/-- Every stop that is activated was dormant, and it is dormant no more. -/
theorem Traced.serials (h : Traced cfg b L trades picks trades' b' L') :
    (picks.map OrderBook.Pick.serial ++ L'.stops.map Dormant.serial).Perm (L.stops.map Dormant.serial) := by
  induction h with
  | finished => exact List.Perm.refl _
  | @pick b b1 b' L L1 L' trades trades1 trades' d sl sr w result picks hrepr hnone hs _ _ hactive _ _ ih =>
    have hd : d ∈ L.stops := by rw [hs]; simp
    rw [List.map_cons, OrderBook.Pick.serial, hrepr.serialAt_stop hd, hs, List.map_append, List.map_cons, List.cons_append]
    rw [(hactive.stops hrepr.wf hnone hs).1, List.map_append] at ih
    exact (ih.cons _).trans List.perm_middle.symm

/-- No stop is activated twice, and none that was not dormant. -/
theorem Traced.nodup (ho : L.StopsInOrder) (h : Traced cfg b L trades picks trades' b' L') :
    (picks.map OrderBook.Pick.serial).Nodup ∧ picks.length ≤ L.stops.length := by
  have hperm := h.serials
  have hnodup : (L.stops.map Dormant.serial).Nodup := List.pairwise_map.mpr (ho.imp fun hlt => Nat.ne_of_lt hlt)
  refine ⟨(List.nodup_append.mp (hperm.nodup_iff.mpr hnodup)).1, ?_⟩
  have hlen := hperm.length_eq
  simp only [List.length_append, List.length_map] at hlen
  omega

/-- Under FIFO allocation what an activation reports adds up to what it executed. -/
theorem Traced.executes (hfifo : cfg.allocationMode = .fifo) (h : Traced cfg b L trades picks trades' b' L') :
    ∀ p ∈ picks, p.Executes := by
  induction h with
  | finished => exact fun p hp => absurd hp List.not_mem_nil
  | @pick b b1 b' L L1 L' trades trades1 trades' d sl sr w result picks hrepr hnone hs _ _ hactive hreturns _ ih =>
    refine List.forall_mem_cons.mpr ⟨?_, ih⟩
    have hd : d ∈ L.stops := by rw [hs]; simp
    have hspent := Sweep.run_spent hfifo d.remaining_lt (hrepr.wf.hold hs hnone) hactive.run
    have htaken := hspent.taken
    have hsub : sub64 d.remaining w.remaining = d.remaining - w.remaining := sub64_eq (by omega) d.remaining_lt
    obtain ⟨⟨result1, trades2, b2⟩, hret, -, htr, -, -⟩ :=
      (hrepr.activateStop hnone trades hs).2 _ (Ladder.activate_returns.mpr ⟨w, hactive, rfl⟩)
    rw [← hrepr.handleAt (hrepr.stop_lt hd)] at hret
    cases hret.unique hreturns
    dsimp only at htr
    subst htr
    refine ⟨⟨trades, _, _, hreturns, ?_⟩, ?_⟩
    · rw [hactive.result, hsub, report_sum]
      dsimp only
      omega
    · rw [OrderBook.Pick.order, (hrepr.dormants d hd).remaining, hactive.result, hsub]
      dsimp only
      omega

end Books

/-! ## What a call does before its cascade -/

namespace Ladder

variable {cfg : BookConfig} {L L0 L1 : Ladder} {op : Op} {t : Taker} {i quantity : Nat} {rests : Bool} {display : Nat → Nat} {w : Sweep}

/-- An order that may rest has room, or a level to take from. -/
theorem Admitted.room (h : Admitted cfg L op L0 t i quantity rests display) (hrests : rests = true) :
    L0.free ≠ [] ∨ L0.tradingState = .continuous ∧ L0.crossing cfg t.side i = true := by
  cases h with
  | limit _ hp _ => exact hp.room (by simpa using hrests)
  | postOnly _ hp _ _ => exact hp.room rfl
  | iceberg _ hp _ _ _ _ => exact hp.room rfl
  | market => cases hrests
  | replace _ _ _ hp _ => exact hp.room rfl

/-- There is a slot for what is left of an order that may rest. -/
theorem Admitted.frees (h : Admitted cfg L op L0 t i quantity rests display) (hw : L0.Wf cfg) (hm : Matched cfg L0 t quantity w)
    (hrests : rests = true) (hrem : w.remaining ≠ 0) : w.ladder.free ≠ [] := by
  have hroom := h.room hrests
  rcases hm with ⟨-, hrun⟩ | ⟨hts, rfl⟩
  · exact Sweep.run_frees hw (h.limit_of_rests hrests) (hroom.imp id And.right) hrun hrem
  · exact hroom.resolve_right fun hc => hts hc.1

/-- What an accepted submission has done on the ladder when it starts to look for triggered stops. -/
inductive Stage (cfg : BookConfig) (L : Ladder) (op : Op) : SubmitResult → List Trade → Ladder → Prop where
  | entered {L0 L1 : Ladder} {t : Taker} {i quantity : Nat} {rests : Bool} {display : Nat → Nat} {w : Sweep} {handle : Handle}
      (admitted : Admitted cfg L op L0 t i quantity rests display) (matched : Matched cfg L0 t quantity w)
      (rested : Rested w t i rests display handle L1) :
      Stage cfg L op ⟨.none, sub64 quantity w.remaining, w.remaining, 0, handle⟩ (w.fills.map (t.report cfg)) L1
  | stop {id quantity size : Nat} {raw : UInt8} {side : Side} {trigger : Int} {limit : Option Int} {d : Dormant} {L1 : Ladder}
      (submits : stopArguments op = some (id, raw, trigger, limit, quantity, size)) (named : Side.ofRaw raw = some side)
      (pos : 0 < quantity) (le : quantity ≤ cfg.maxOrderQuantity) (limited : ∀ price, limit = some price → (cfg.domain.indexOf price).isSome)
      (rested : L.reset.restStop id side trigger limit quantity = some (d, L1)) :
      Stage cfg L op ⟨.none, 0, quantity, 0, L.handleAt d.slot⟩ [] L1

end Ladder

section Books

variable {gh : Prop} {cfg : BookConfig} {b b' : OrderBook} {L L0 L1 : Ladder} {op : Op} {t : Taker} {i quantity : Nat} {rests : Bool}
  {display : Nat → Nat} {w : Sweep} {handle : Handle} {trades : List Trade}

open Ladder

/-- An order that enters on the ladder enters on the book. -/
theorem Rep.entered {b0 : OrderBook} (h : Rep gh cfg b0 L0) (hw : L.Wf cfg) (hnone : L.held = none)
    (ha : Admitted cfg L op L0 t i quantity rests display) (hm : Matched cfg L0 t quantity w)
    (hr : Rested w t i rests display handle L1) :
    ∃ x b₁, b0.Entered t i quantity rests display x handle b₁ ∧ x.remaining = w.remaining ∧
      x.trades = w.fills.map (t.report cfg) ∧ Rep gh cfg b₁ L1 := by
  have hs := ha.sound hw hnone
  have hlt := BookConfig.quantity_lt hs.le
  obtain ⟨x, hmatched, hrem, htrades, hrepr⟩ : ∃ x : Execution, (b0.tradingState = .continuous ∧
      (Execution.matchTaker ⟨b0, quantity, []⟩ t.id t.trader t.side t.limit).Returns x ∨
      b0.tradingState ≠ .continuous ∧ x = ⟨b0, quantity, []⟩) ∧ x.remaining = w.remaining ∧
      x.trades = w.fills.map (t.report cfg) ∧ Rep gh cfg x.book w.ladder := by
    rcases hm with ⟨hts, hrun⟩ | ⟨hts, rfl⟩
    · obtain ⟨x, hx, hrel⟩ := (@Rep.matchTaker gh cfg t [] _ _ h quantity).2 _ hrun
      exact ⟨x, Or.inl ⟨h.tradingState.trans hts, hx⟩, hrel.remaining, hrel.trades, hrel.repr⟩
    · exact ⟨⟨b0, quantity, []⟩, Or.inr ⟨fun hc => hts (h.tradingState.symm.trans hc), rfl⟩, rfl, rfl, h⟩
  rcases hr with ⟨hrests, hne, hr⟩ | ⟨hnot, rfl, rfl⟩
  · have hfree := ha.frees hs.wf hm hrests hne
    obtain ⟨h1, h2⟩ := @Rep.rest _ _ _ _ t.side _ hrepr ((hm.kept hs.wf).held.trans hs.held) t.id t.trader _ _ hfree (hs.level hrests)
      ⟨hs.display _ (Nat.pos_of_ne_zero hne), hm.remaining_lt hs.wf hlt⟩
    rw [Prod.mk.injEq] at hr
    refine ⟨x, _, ⟨hmatched, Or.inl ⟨⟨hrests, hrem ▸ hne⟩, ?_⟩⟩, hrem, htrades, hr.2 ▸ h2⟩
    rw [hrem, hr.1, ← h1]
  · exact ⟨x, x.book, ⟨hmatched, Or.inr ⟨hrem ▸ hnot, rfl, rfl⟩⟩, hrem, htrades, hrepr⟩

theorem OrderBook.concludeSubmission_returns {remaining : Nat} {before : List Trade}
    (h : (b.triggerStops before).Returns (trades, b')) :
    (b.concludeSubmission quantity remaining handle before).Returns
      (⟨.none, sub64 quantity remaining, remaining, trades.length, handle⟩, trades, b') :=
  (returns_bind _ _ _).mpr ⟨_, h, (returns_pure _ _).mpr rfl⟩

/-- The matching of an order that enters, in a submission that goes on with what it leaves. -/
theorem OrderBook.Entered.matches {b₁ : OrderBook} {x : Execution} (h : b.Entered t i quantity rests display x handle b₁)
    {f : Execution → Comp (SubmitResult × List Trade × OrderBook)} {r : SubmitResult × List Trade × OrderBook} (hf : (f x).Returns r) :
    (if b.tradingState = TradingState.continuous then
        Execution.matchTaker ⟨b, quantity, []⟩ t.id t.trader t.side t.limit >>= f
      else pure (⟨b, quantity, []⟩ : Execution) >>= f).Returns r := by
  rcases h.matched with ⟨hts, hx⟩ | ⟨hts, rfl⟩
  · rw [if_pos hts]
    exact (returns_bind _ _ _).mpr ⟨x, hx, hf⟩
  · rw [if_neg hts]
    exact (returns_bind _ _ _).mpr ⟨_, (returns_pure _ _).mpr rfl, hf⟩

/-- The end of a submission whose order has entered. -/
theorem OrderBook.Entered.concludes {b₁ : OrderBook} {x : Execution} (h : b.Entered t i quantity rests display x handle b₁)
    (hc : (b₁.triggerStops x.trades).Returns (trades, b')) :
    ((if rests = true ∧ x.remaining ≠ 0 then x.book.rest t.id t.trader t.side i x.remaining (display x.remaining)
        else (kInvalidHandle, x.book)).2.concludeSubmission quantity x.remaining
      (if rests = true ∧ x.remaining ≠ 0 then x.book.rest t.id t.trader t.side i x.remaining (display x.remaining)
        else (kInvalidHandle, x.book)).1 x.trades).Returns
      (⟨.none, sub64 quantity x.remaining, x.remaining, trades.length, handle⟩, trades, b') := by
  rcases h.rested with ⟨hr, heq⟩ | ⟨hr, rfl, rfl⟩
  · rw [if_pos hr, ← heq]
    exact concludeSubmission_returns hc
  · rw [if_neg hr]
    exact concludeSubmission_returns hc

/-- An order that passes the checks of `submit_limit` and enters ends its submission with the stops it triggers. -/
theorem Rep.submitLimit_entered (h : Rep gh cfg b L) {id trader size : Nat} {raw rawTime : UInt8} {price : Int}
    {side : Side} {tif : TimeInForce} (hsize : cfg.maxOrders ≤ size) (hp : Passed cfg L.reset raw price quantity rawTime side i tif)
    (hclear : cfg.selfTradePolicy = .cancelTaker → L.meetsTrader cfg trader side i = false) {x : Execution} {b₁ : OrderBook}
    (he : b.resetStopActivations.Entered ⟨id, trader, side, some i⟩ i quantity (tif = .gtc) (fun r => r) x handle b₁)
    (hc : (b₁.triggerStops x.trades).Returns (trades, b')) :
    (b.submitLimit id trader raw price quantity rawTime size).Returns
      (⟨.none, sub64 quantity x.remaining, x.remaining, trades.length, handle⟩, trades, b') := by
  have h := h.reset
  have hcap : b.resetStopActivations.requiredTradeCapacity = cfg.maxOrders := h.arena.capacity
  have hpre := h.preflightLimit raw price quantity rawTime
  rw [hp.preflightLimit] at hpre
  have hconclude := he.concludes hc
  unfold OrderBook.submitLimit OrderBook.preflight
  dsimp only
  rw [hcap, h.cfg_eq, hp.preflight, hp.time, if_neg (by simp), if_neg (by omega)]
  refine (returns_bind _ _ _).mpr ⟨_, hpre, ?_⟩
  dsimp only
  split
  · rename_i hpolicy
    have hself := @Rep.wouldSelfTrade _ _ _ _ h trader i side
    rw [show L.reset.meetsTrader cfg trader side i = false from hclear hpolicy] at hself
    refine (returns_bind _ _ _).mpr ⟨_, hself, ?_⟩
    rw [if_neg Bool.false_ne_true]
    refine he.matches ?_
    simpa only [decide_eq_true_eq] using hconclude
  · refine (returns_bind _ _ _).mpr ⟨_, (returns_pure _ _).mpr rfl, ?_⟩
    rw [if_neg Bool.false_ne_true]
    refine he.matches ?_
    simpa only [decide_eq_true_eq] using hconclude

/-- The same for `submit_iceberg`. -/
theorem Rep.submitIceberg_entered (h : Rep gh cfg b L) {id trader size displayQuantity : Nat} {raw : UInt8} {price : Int} {side : Side}
    (hsize : cfg.maxOrders ≤ size) (hp : Passed cfg L.reset raw price quantity TimeInForce.gtc.raw side i .gtc)
    (hstate : L.tradingState = .continuous) (hpos : 0 < displayQuantity) (hle : displayQuantity ≤ quantity)
    (hclear : cfg.selfTradePolicy = .cancelTaker → L.meetsTrader cfg trader side i = false) {x : Execution} {b₁ : OrderBook}
    (he : b.resetStopActivations.Entered ⟨id, trader, side, some i⟩ i quantity true (min displayQuantity) x handle b₁)
    (hc : (b₁.triggerStops x.trades).Returns (trades, b')) :
    (b.submitIceberg id trader raw price quantity displayQuantity size).Returns
      (⟨.none, sub64 quantity x.remaining, x.remaining, trades.length, handle⟩, trades, b') := by
  have h := h.reset
  have hcap : b.resetStopActivations.requiredTradeCapacity = cfg.maxOrders := h.arena.capacity
  have hpre := h.preflightLimit raw price quantity TimeInForce.gtc.raw
  rw [hp.preflightLimit] at hpre
  have hconclude := he.concludes hc
  have hts : b.resetStopActivations.tradingState = .continuous := h.tradingState.trans hstate
  have hx : (Execution.matchTaker ⟨b.resetStopActivations, quantity, []⟩ id trader side (some i)).Returns x :=
    (he.matched.resolve_right fun hc => hc.1 hts).2
  unfold OrderBook.submitIceberg OrderBook.preflight
  dsimp only
  rw [hcap, h.cfg_eq, hp.preflight, if_neg (by rw [hts]; exact nofun), if_neg (by omega)]
  dsimp only
  rw [if_neg (by omega)]
  refine (returns_bind _ _ _).mpr ⟨_, hpre, ?_⟩
  dsimp only
  split
  · rename_i hpolicy
    have hself := @Rep.wouldSelfTrade _ _ _ _ h trader i side
    rw [show L.reset.meetsTrader cfg trader side i = false from hclear hpolicy] at hself
    refine (returns_bind _ _ _).mpr ⟨_, hself, ?_⟩
    rw [if_neg Bool.false_ne_true]
    refine (returns_bind _ _ _).mpr ⟨x, hx, ?_⟩
    simpa only [true_and, ite_not] using hconclude
  · refine (returns_bind _ _ _).mpr ⟨_, (returns_pure _ _).mpr rfl, ?_⟩
    rw [if_neg Bool.false_ne_true]
    refine (returns_bind _ _ _).mpr ⟨x, hx, ?_⟩
    simpa only [true_and, ite_not] using hconclude

/-- The same for `submit_market`. -/
theorem Rep.submitMarket_entered (h : Rep gh cfg b L) {id size : Nat} {raw : UInt8} {side : Side} (hsize : cfg.maxOrders ≤ size)
    (hstate : L.tradingState = .continuous) (hnamed : Side.ofRaw raw = some side) (hpos : 0 < quantity)
    (hle : quantity ≤ cfg.maxOrderQuantity) {x : Execution} {b₁ : OrderBook}
    (he : b.resetStopActivations.Entered ⟨id, 0, side, none⟩ 0 quantity false (fun r => r) x handle b₁)
    (hc : (b₁.triggerStops x.trades).Returns (trades, b')) :
    (b.submitMarket id raw quantity size).Returns
      (⟨.none, sub64 quantity x.remaining, x.remaining, trades.length, handle⟩, trades, b') := by
  have h := h.reset
  have hcap : b.resetStopActivations.requiredTradeCapacity = cfg.maxOrders := h.arena.capacity
  have hconclude := he.concludes hc
  have hts : b.resetStopActivations.tradingState = .continuous := h.tradingState.trans hstate
  have hx : (Execution.matchTaker ⟨b.resetStopActivations, quantity, []⟩ id 0 side none).Returns x :=
    (he.matched.resolve_right fun hc => hc.1 hts).2
  have hpre : cfg.preflight raw quantity = .ok side := by
    unfold BookConfig.preflight
    rw [hnamed]
    dsimp only
    rw [if_neg (by omega), if_neg (by omega)]
  unfold OrderBook.submitMarket OrderBook.preflightMarket OrderBook.preflight
  dsimp only
  rw [hcap, h.cfg_eq, hpre, if_neg (by rw [hts]; exact nofun)]
  dsimp only
  rw [if_neg (by omega)]
  refine (returns_bind _ _ _).mpr ⟨x, hx, ?_⟩
  simpa only [Bool.false_eq_true, false_and, if_false] using hconclude

/-- The handle of a resting order is that of its slot. -/
theorem Rep.resolved (h : Rep gh cfg b L) (hnone : L.held = none) {replaced : Handle} {side : Side} {j : Nat} {e : Entry}
    (hloc : L.resolve cfg replaced = some (.resting side j e)) :
    replaced = b.arena.handleAt e.slot ∧ b.arena.resolve replaced = some (b.arena.orderAt e.slot) := by
  rcases h.resolve hnone replaced with ⟨-, h2⟩ | ⟨side', i', l', e', r', h2, -, hh, h1⟩ | ⟨l', d, r', h2, -, -, -⟩
  · rw [hloc] at h2
    cases h2
  · rw [hloc] at h2
    cases h2
    exact ⟨hh, h1⟩
  · rw [hloc] at h2
    cases h2

/-- The same for `replace`, which takes the old order out first. -/
theorem Rep.replace_entered (h : Rep gh cfg b L) (hnone : L.held = none) {replaced : Handle} {size j : Nat} {price : Int} {side : Side}
    {e : Entry} {l r : List Entry} (hsize : cfg.maxOrders ≤ size) (hloc : L.resolve cfg replaced = some (.resting side j e))
    (hq : L.queue side j = l ++ e :: r)
    (hp : Passed cfg (L.reset.remove side j e.slot).reset side.raw price quantity TimeInForce.gtc.raw side i .gtc)
    (hclear : cfg.selfTradePolicy = .cancelTaker → L.meetsTrader cfg 0 side i = false) {x : Execution} {b₁ : OrderBook}
    (he : (b.resetStopActivations.unlink replaced e.remaining).resetStopActivations.Entered ⟨e.id, 0, side, some i⟩ i quantity true
      (fun r => r) x handle b₁)
    (hc : (b₁.triggerStops x.trades).Returns (trades, b')) :
    (b.replace replaced price quantity size).Returns
      (⟨.none, sub64 quantity x.remaining, x.remaining, trades.length, handle⟩, trades, b') := by
  have h := h.reset
  have hcap : b.resetStopActivations.requiredTradeCapacity = cfg.maxOrders := h.arena.capacity
  have hmem : e ∈ L.reset.queue side j := by
    rw [show L.reset.queue side j = l ++ e :: r from hq]
    simp
  have hat := h.entries side j e hmem
  obtain ⟨hhandle, horder⟩ := h.resolved hnone (L := L.reset) hloc
  have hindex : replaced.index = e.slot := by rw [hhandle]; rfl
  obtain ⟨hr, -⟩ := h.remove (show L.reset.queue side j = l ++ e :: r from hq)
  rw [← hhandle] at hr
  have hreplace : b.resetStopActivations.preflightReplace replaced price quantity = .none := by
    unfold OrderBook.preflightReplace OrderBook.preflight
    rw [horder]
    simp only [h.entry_dormant hmem, Bool.false_eq_true, if_false, h.entry_side hmem, h.cfg_eq, hp.preflight, hp.level,
      Option.isSome_some, if_true]
  have hmeets : (L.reset.remove side j e.slot).meetsTrader cfg 0 side i = L.meetsTrader cfg 0 side i :=
    meetsTrader_remove h.wf (L := L.reset) hq 0 i
  have hlimit := hr.submitLimit_entered hsize hp (fun hpol => hmeets.trans (hclear hpol)) he hc
  unfold OrderBook.replace
  dsimp only
  rw [hcap, hreplace, if_neg (fun hne => hne.1 rfl), if_neg (by omega), if_neg (fun hne => hne rfl), hindex, hat.id, hat.remaining,
    h.entry_side hmem]
  exact hlimit

/-- A post-only order that is accepted has passed its checks. -/
theorem Ladder.submitPostOnly_passive {L' : Ladder} {id size : Nat} {raw : UInt8} {price : Int} {result : SubmitResult}
    (h : (L.submitPostOnly cfg id raw price quantity size).Returns (result, trades, L')) (hok : result.rejectReason = .none) :
    cfg.maxOrders ≤ size ∧ L.preflightPostOnly cfg raw price quantity = .none := by
  unfold submitPostOnly at h
  split at h
  · obtain ⟨rfl, -, -⟩ := refuse_returns.mp h
    cases hok
  · rename_i hsize
    refine ⟨by omega, ?_⟩
    cases hpre : L.preflightPostOnly cfg raw price quantity with
    | none => rfl
    | _ =>
      rw [hpre] at h
      obtain ⟨rfl, -, -⟩ := refuse_returns.mp h
      cases hok

/-- The stage of an order that has entered, on the book. -/
theorem Rep.entered_stage (h : Rep gh cfg b L) (hnone : L.held = none) (ha : Admitted cfg L op L0 t i quantity rests display)
    (hm : Matched cfg L0 t quantity w) (hr : Rested w t i rests display handle L1)
    (hpassive : ∀ id raw price quantity size, op = .submitPostOnly id raw price quantity size →
      L.preflightPostOnly cfg raw price quantity = .none) :
    ∃ b₁, b.Stage op ⟨.none, sub64 quantity w.remaining, w.remaining, 0, handle⟩ (w.fills.map (t.report cfg)) b₁ ∧ Rep gh cfg b₁ L1 ∧
      ∀ trades b', (b₁.triggerStops (w.fills.map (t.report cfg))).Returns (trades, b') →
        (b.apply op).Returns
          (⟨.submit ⟨.none, sub64 quantity w.remaining, w.remaining, trades.length, handle⟩, trades⟩, b') := by
  have hw := h.wf
  have happly : ∀ {c : Comp (SubmitResult × List Trade × OrderBook)} {r : SubmitResult} {trades : List Trade} {b' : OrderBook},
      c.Returns (r, trades, b') → (do return submitted (← c)).Returns (⟨.submit r, trades⟩, b') := fun hc =>
    (returns_bind _ _ _).mpr ⟨_, hc, (returns_pure _ _).mpr rfl⟩
  cases ha' : ha with
  | limit hsize hp hclear =>
    obtain ⟨x, b₁, he, hrem, htrades, hrepr⟩ := h.reset.entered hw hnone ha hm hr
    rw [← hrem, ← htrades]
    refine ⟨b₁, .limit hp.named (h.cfg_eq ▸ hp.level) hp.time he, hrepr, fun trades b' hc => happly ?_⟩
    exact h.submitLimit_entered hsize hp hclear he hc
  | postOnly hsize hp hpass hclear =>
    obtain ⟨x, b₁, he, hrem, htrades, hrepr⟩ := h.reset.entered hw hnone ha hm hr
    rw [← hrem, ← htrades]
    refine ⟨b₁, .postOnly hp.named (h.cfg_eq ▸ hp.level) he, hrepr, fun trades b' hc => happly ?_⟩
    have hcap : b.requiredTradeCapacity = cfg.maxOrders := h.arena.capacity
    unfold OrderBook.submitPostOnly
    rw [hcap, if_neg (by omega), h.preflightPostOnly, hpassive _ _ _ _ _ rfl]
    exact h.submitLimit_entered hsize hp hclear he hc
  | iceberg hsize hp hstate hpos hle hclear =>
    obtain ⟨x, b₁, he, hrem, htrades, hrepr⟩ := h.reset.entered hw hnone ha hm hr
    rw [← hrem, ← htrades]
    refine ⟨b₁, .iceberg hp.named (h.cfg_eq ▸ hp.level) he, hrepr, fun trades b' hc => happly ?_⟩
    exact h.submitIceberg_entered hsize hp hstate hpos hle hclear he hc
  | market hsize hstate hnamed hpos hle =>
    obtain ⟨x, b₁, he, hrem, htrades, hrepr⟩ := h.reset.entered hw hnone ha hm hr
    rw [← hrem, ← htrades]
    refine ⟨b₁, .market hnamed he, hrepr, fun trades b' hc => happly ?_⟩
    exact h.submitMarket_entered hsize hstate hnamed hpos hle he hc
  | @replace replaced quantity size i j price side l r e hsize hloc hq hp hclear =>
    have hq' : L.reset.queue side j = l ++ e :: r := hq
    have hmem : e ∈ L.queue side j := by rw [hq]; simp
    obtain ⟨hhandle, -⟩ := h.reset.resolved hnone hloc
    obtain ⟨-, horder⟩ := h.resolved hnone hloc
    obtain ⟨hremoved, -⟩ := h.reset.remove hq'
    rw [← hhandle] at hremoved
    obtain ⟨x, b₁, he, hrem, htrades, hrepr⟩ := hremoved.reset.entered hw hnone ha hm hr
    rw [← hrem, ← htrades]
    have hat := h.entries side j e hmem
    refine ⟨b₁, .replace horder (h.cfg_eq ▸ hp.level) ?_, hrepr, fun trades b' hc =>
      happly (h.replace_entered hnone hsize hloc hq hp hclear he hc)⟩
    rw [hat.id, hat.remaining, h.entry_side hmem]
    exact he

/-- A stop that is accepted has passed its checks. -/
theorem Ladder.submitStopOrder_passed {L' : Ladder} {id size : Nat} {raw : UInt8} {trigger : Int} {limit : Option Int}
    {result : SubmitResult} (h : (L.submitStopOrder cfg id raw trigger limit quantity size).Returns (result, trades, L'))
    (hok : result.rejectReason = .none) : cfg.maxOrders ≤ size ∧ ∃ side, L.reset.preflightStop cfg raw limit quantity = .ok side := by
  unfold submitStopOrder at h
  dsimp only at h
  cases hpre : L.reset.preflightStop cfg raw limit quantity with
  | error reason =>
    rw [hpre] at h
    obtain ⟨rfl, -, -⟩ := refuse_returns.mp h
    exact absurd hok (preflightStop_error hpre)
  | ok side =>
    rw [hpre] at h
    dsimp only at h
    split at h
    · obtain ⟨rfl, -, -⟩ := refuse_returns.mp h
      cases hok
    · exact ⟨by omega, side, rfl⟩

theorem Ladder.preflightStop_side {raw : UInt8} {limit : Option Int} {side side' : Side} (hnamed : Side.ofRaw raw = some side)
    (h : L.preflightStop cfg raw limit quantity = .ok side') : side = side' :=
  Option.some.inj (hnamed.symm.trans (preflightStop_facts h).1)

/-- A stop that has been put among the dormant ones on the ladder has been put there on the book, and then it sleeps or is activated. -/
theorem Rep.stop_rested (h : Rep gh cfg b L) (hnone : L.held = none) {id size : Nat} {raw : UInt8} {side : Side} {trigger : Int}
    {limit : Option Int} {d : Dormant} (hsize : cfg.maxOrders ≤ size) (hpre : L.reset.preflightStop cfg raw limit quantity = .ok side)
    (hrest : L.reset.restStop id side trigger limit quantity = some (d, L1)) :
    ∃ b₁, (L.handleAt d.slot, b₁) = b.resetStopActivations.restStop id side trigger limit quantity ∧ Rep gh cfg b₁ L1 ∧
      L1.held = none ∧ L1.stops = L.stops ++ [d] ∧ L.handleAt d.slot = b₁.arena.handleAt d.slot ∧
      (L1.triggered side trigger = false →
        (b.submitStopOrder id raw trigger limit quantity size).Returns (⟨.none, 0, quantity, 0, L.handleAt d.slot⟩, [], b₁)) ∧
      ∀ result trades1 b2 trades b', L1.triggered side trigger = true →
        (b₁.activateStop (b₁.arena.handleAt d.slot) []).Returns (result, trades1, b2) →
        (b2.triggerStops trades1).Returns (trades, b') →
        (b.submitStopOrder id raw trigger limit quantity size).Returns ({ result with tradeCount := trades.length }, trades, b') := by
  have h := h.reset
  have hnone : L.reset.held = none := hnone
  obtain ⟨⟨hpos, hle⟩, hfree⟩ := preflightStop_ok hpre
  obtain ⟨d', L1', hrest', hstops, hheld, hhandle, hsame, hrepr⟩ := @Rep.restStop _ _ _ _ side h hnone id _ trigger limit hfree
    ⟨hpos, BookConfig.quantity_lt hle⟩
  rw [hrest, Option.some.injEq, Prod.mk.injEq] at hrest'
  obtain ⟨rfl, rfl⟩ := hrest'
  have hcap : b.resetStopActivations.requiredTradeCapacity = cfg.maxOrders := h.arena.capacity
  have hslot : d.slot < cfg.maxOrders := hrepr.stop_lt (by rw [hstops]; simp)
  have hat : L.handleAt d.slot = (b.resetStopActivations.restStop id side trigger limit quantity).2.arena.handleAt d.slot := by
    rw [hrepr.handleAt hslot]
    exact hsame.symm
  have hhandle : (b.resetStopActivations.restStop id side trigger limit quantity).1 = L.handleAt d.slot := hhandle
  refine ⟨_, by rw [← hhandle], hrepr, hheld, hstops, hat, fun hquiet => ?_, fun result trades1 b2 trades b' hhit hact hcas => ?_⟩
  · unfold OrderBook.submitStopOrder
    dsimp only
    rw [hcap, h.preflightStop, hpre]
    dsimp only
    rw [if_neg (by omega), hrepr.stopIsTriggered, hquiet, if_neg Bool.false_ne_true, hhandle]
    exact (returns_pure _ _).mpr rfl
  · unfold OrderBook.submitStopOrder
    dsimp only
    rw [hcap, h.preflightStop, hpre]
    dsimp only
    rw [if_neg (by omega), hrepr.stopIsTriggered, hhit, if_pos rfl, hhandle, hat]
    exact (returns_bind _ _ _).mpr ⟨_, hact, (returns_bind _ _ _).mpr ⟨_, hcas, (returns_pure _ _).mpr rfl⟩⟩

end Books

/-! ## The course of a call -/

/-- The course of an accepted submission on both sides: its own order up to the search for triggered stops, and the activations. It
returns what its order came to, or what its stop came to when that is activated at once. -/
structure Course (cfg : BookConfig) (b : OrderBook) (L : Ladder) (op : Op) (out : Outcome) (picks : List OrderBook.Pick)
    (b' : OrderBook) (L' : Ladder) (result : SubmitResult) (trades : List Trade) (b₁ : OrderBook) (L₁ : Ladder) : Prop where
  stage : b.Stage op result trades b₁
  stage' : L.Stage cfg op result trades L₁
  traced : Traced cfg b₁ L₁ trades picks out.trades b' L'
  reply : ((Ladder.stopArguments op).isSome = true → picks = []) ∧ out.reply = .submit { result with tradeCount := out.trades.length } ∨
    ∃ p rest, picks = p :: rest ∧ p.serial = L.accepted ∧ p.slot = result.restingHandle.index ∧ (Ladder.stopArguments op).isSome = true ∧
      out.reply = .submit { p.result with tradeCount := out.trades.length }

section Course

variable {cfg : BookConfig} {b b' : OrderBook} {L : Ladder} {op : Op} {out : Outcome}

open Ladder

/-- What is left when a submission starts to look for triggered stops. -/
theorem Ladder.Stage.kept {result : SubmitResult} {trades : List Trade} {L1 : Ladder} (hw : L.Wf cfg) (hnone : L.held = none)
    (h : L.Stage cfg op result trades L1) : Changes cfg L op L L1 ∧ L1.Wf cfg ∧ L1.held = none := by
  cases h with
  | entered ha hm hr =>
    have hs := ha.sound hw hnone
    have hw1 := hm.wf hs.wf
    exact ⟨(hs.changes.trans (hm.changes hs.wf)).trans (hr.changes hw hnone ha hm), hr.wf hw1 hs.level,
      hr.held.trans ((hm.kept hs.wf).held.trans hs.held)⟩
  | stop hsub hnamed hpos hle hlimited hrest =>
    obtain ⟨hw1, hnone1⟩ := (restStop_slept hrest).wf hw.reset hnone
    exact ⟨(Changes.single hw .of_reset).trans (.single hw.reset (.sleep hsub hnamed hpos hle hlimited hrest)), hw1, hnone1⟩

theorem Ladder.Admitted.no_stop {L0 : Ladder} {t : Taker} {i quantity : Nat} {rests : Bool} {display : Nat → Nat}
    (h : Admitted cfg L op L0 t i quantity rests display) : ¬(stopArguments op).isSome = true := by
  cases h <;> exact Bool.false_ne_true

/-- A submission starts its list of activations anew, and puts at most one stop among the dormant ones. -/
theorem Ladder.Stage.lists {result : SubmitResult} {trades : List Trade} {L1 : Ladder} (hw : L.Wf cfg) (hnone : L.held = none)
    (h : L.Stage cfg op result trades L1) : L1.activations = [] ∧ L1.stops.length ≤ L.stops.length + 1 := by
  cases h with
  | entered ha hm hr =>
    obtain ⟨-, hstops0, hact0⟩ := ha.accepted hw
    obtain ⟨hstops1, hact1, -⟩ := hr.lists
    have hk := hm.kept (ha.sound hw hnone).wf
    rw [hact1, hk.activations, hact0, hstops1, hk.stops, hstops0]
    exact ⟨rfl, Nat.le_succ _⟩
  | stop _ _ _ _ _ hrest =>
    obtain ⟨free, -, rfl⟩ := (restStop_slept hrest).room
    exact ⟨rfl, by simp [reset]⟩

/-- A stop on the book, as an operation. -/
theorem apply_stop {id quantity size : Nat} {raw : UInt8} {trigger : Int} {limit : Option Int}
    (hsub : stopArguments op = some (id, raw, trigger, limit, quantity, size)) :
    b.apply op = (do return submitted (← b.submitStopOrder id raw trigger limit quantity size)) ∧
      L.apply cfg op = (do return submitted (← L.submitStopOrder cfg id raw trigger limit quantity size)) ∧
      ∀ side handle b₁, Side.ofRaw raw = some side → (handle, b₁) = b.resetStopActivations.restStop id side trigger limit quantity →
        b.Stage op ⟨.none, 0, quantity, 0, handle⟩ [] b₁ := by
  cases op with
  | submitStop =>
    cases hsub
    exact ⟨rfl, rfl, fun side handle b₁ hside hrest => .stop hside hrest⟩
  | submitStopLimit =>
    cases hsub
    exact ⟨rfl, rfl, fun side handle b₁ hside hrest => .stopLimit hside hrest⟩
  | _ => cases hsub

/-- Every call on a book runs its course on the ladder. -/
theorem Rep.course (h : Rep True cfg b L) (hnone : L.held = none) (hq : L.Quiet) (hret : (b.apply op).Returns (out, b')) :
    ∃ L', Effect cfg L op out L' ∧ Rep True cfg b' L' ∧ L'.held = none ∧
      (out.accepted = true → ∃ picks result trades b₁ L₁, Course cfg b L op out picks b' L' result trades b₁ L₁) := by
  obtain ⟨⟨out', L'⟩, hretL, rfl, hrepr', hnone'⟩ := (h.apply hnone op).1 _ hret
  have hretL : (L.apply cfg op).Returns (out, L') := hretL
  have heff := apply_effect h.wf hretL
  refine ⟨L', heff, hrepr', hnone', fun hacc => ?_⟩
  have hsubmitted : ∀ {c : Comp (SubmitResult × List Trade × Ladder)}, (do return submitted (← c)).Returns (out, L') →
      ∃ result trades, c.Returns (result, trades, L') ∧ result.rejectReason = .none := by
    intro c hc
    obtain ⟨⟨result, trades, L1⟩, hc', heq⟩ := (returns_bind _ _ _).mp hc
    rw [returns_pure, submitted, Prod.mk.injEq] at heq
    obtain ⟨rfl, rfl⟩ := heq
    exact ⟨result, trades, hc', of_decide_eq_true hacc⟩
  have hsubmit : ∀ {c : Comp (SubmitResult × List Trade × OrderBook)} {r : SubmitResult} {trades : List Trade} {b' : OrderBook},
      c.Returns (r, trades, b') → (do return submitted (← c)).Returns (⟨.submit r, trades⟩, b') := fun hc =>
    (returns_bind _ _ _).mpr ⟨_, hc, (returns_pure _ _).mpr rfl⟩
  cases heff with
  | refused _ hne _ => exact absurd (of_decide_eq_true hacc) hne
  | @entered _ L0 L1 _ t i quantity rests display w handle trades ha hm hr hc =>
    have hpassive : ∀ id raw price quantity size, op = .submitPostOnly id raw price quantity size →
        L.preflightPostOnly cfg raw price quantity = .none := by
      rintro id raw price quantity size rfl
      obtain ⟨result, trades, hret, hok⟩ := hsubmitted hretL
      exact (submitPostOnly_passive hret hok).2
    obtain ⟨b₁, hstage, hrepr1, hforward⟩ := h.entered_stage hnone ha hm hr hpassive
    have hstage' : L.Stage cfg op _ _ L1 := .entered ha hm hr
    obtain ⟨-, -, hnone1⟩ := hstage'.kept h.wf hnone
    obtain ⟨⟨trades1, b2⟩, hcas, rfl, -⟩ := (hrepr1.triggerStops hnone1).2 _ hc
    cases hret.unique (hforward _ _ hcas)
    obtain ⟨picks, L'', htraced, hcas'⟩ := hrepr1.traced hnone1 hcas
    cases hcas'.unique hc
    exact ⟨picks, _, _, b₁, L1, hstage, hstage', htraced, Or.inl ⟨fun hstop => absurd hstop ha.no_stop, rfl⟩⟩
  | lost => cases hacc
  | @slept _ id quantity size raw side trigger limit d _ hsub hnamed hpos hle hstate hlimited hrest hquiet =>
    obtain ⟨happly, happlyL, hbook⟩ := @apply_stop cfg b L _ _ _ _ _ _ _ hsub
    rw [happlyL] at hretL
    obtain ⟨result, trades, hretS, hok⟩ := hsubmitted hretL
    obtain ⟨hsize, side', hpre⟩ := submitStopOrder_passed hretS hok
    obtain rfl := preflightStop_side hnamed hpre
    obtain ⟨b₁, hbrest, hrepr1, hnone1, hstops, -, hsleeps, -⟩ := @Rep.stop_rested _ _ _ _ _ _ h hnone _ _ raw _ _ _ _ hsize hpre hrest
    cases hret.unique (happly ▸ hsubmit (hsleeps hquiet))
    have hsl := restStop_slept hrest
    refine ⟨[], _, _, b', L', hbook side _ b' hnamed hbrest, .stop hsub hnamed hpos hle hlimited hrest,
      .finished hrepr1 hnone1 fun x hx => ?_, Or.inl ⟨fun _ => rfl, rfl⟩⟩
    have hlast : L'.lastPrice = L.lastPrice := by
      obtain ⟨free, -, rfl⟩ := hsl.room
      rfl
    rw [hstops] at hx
    rcases List.mem_append.mp hx with hx | hx
    · rw [triggered_congr hlast]
      exact hq x hx
    · rw [List.mem_singleton.mp hx, hsl.side, hsl.trigger]
      exact hquiet
  | @fired _ id quantity size raw side trigger limit d L1 L2 _ w result trades hsub hnamed hpos hle hstate hlimited hrest hhit hact hc =>
    obtain ⟨happly, happlyL, hbook⟩ := @apply_stop cfg b L _ _ _ _ _ _ _ hsub
    rw [happlyL] at hretL
    obtain ⟨result', trades', hretS, hok⟩ := hsubmitted hretL
    obtain ⟨hsize, side', hpre⟩ := submitStopOrder_passed hretS hok
    obtain rfl := preflightStop_side hnamed hpre
    obtain ⟨b₁, hbrest, hrepr1, hnone1, hstops, hhandle, -, hfires⟩ := @Rep.stop_rested _ _ _ _ _ _ h hnone _ _ raw _ _ _ _ hsize hpre hrest
    have hsl := restStop_slept hrest
    have hat := hrepr1.handleAt (hrepr1.stop_lt (d := d) (by rw [hstops]; simp))
    have hact' : Activated cfg L1 d (L.stops ++ []) w result L2 := by rwa [List.append_nil]
    obtain ⟨⟨result1, trades1, b2⟩, hactB, hres, htr, hrepr2, hnone2⟩ :=
      (hrepr1.activateStop hnone1 [] hstops).2 _ (activate_returns.mpr ⟨w, hact', rfl⟩)
    rw [← hat] at hactB
    dsimp only at hres htr hrepr2 hnone2
    rw [List.nil_append] at htr
    subst hres htr
    obtain ⟨⟨trades2, b3⟩, hcas, rfl, -⟩ := (hrepr2.triggerStops hnone2).2 _ hc
    cases hret.unique (happly ▸ hsubmit (hfires _ _ _ _ _ hhit hactB hcas))
    obtain ⟨picks, L'', htraced, hcas'⟩ := hrepr2.traced hnone2 hcas
    cases hcas'.unique hc
    have hlast : L1.lastPrice = L.lastPrice := by
      obtain ⟨free, -, rfl⟩ := hsl.room
      rfl
    refine ⟨_, _, _, b₁, L1, hbook side _ b₁ hnamed hbrest, .stop hsub hnamed hpos hle hlimited hrest,
      .pick hrepr1 hnone1 hstops (fun x hx => ?_) (by rw [hsl.side, hsl.trigger]; exact hhit) hact' hactB htraced,
      Or.inr ⟨_, _, rfl, ?_, rfl, by rw [hsub]; rfl, rfl⟩⟩
    · rw [triggered_congr hlast]
      exact hq x hx
    · exact (hrepr1.serialAt_stop (by rw [hstops]; simp)).trans hsl.serial
  | _ => cases hacc

end Course

end MatchingEngine

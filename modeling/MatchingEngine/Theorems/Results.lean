import MatchingEngine.Lemmas.Cascade
import MatchingEngine.Lemmas.Priority
import MatchingEngine.Theorems.Handles
import MatchingEngine.Theorems.Opening

/-!
# What a result says when its call is over

A submission notes what its order has come to before it looks for triggered stops, and so does every activation. A later activation of the
same call may come to an order that the call has just put to rest; nothing else makes a result untrue.
-/

namespace MatchingEngine

open Comp Finset

namespace OrderBook

/-- What a taker takes before it comes to the order in this slot: all of the better levels, and the displayed slices ahead of it in its
queue. -/
def ahead (b : OrderBook) (s : Nat) : Nat :=
  let order := b.arena.orderAt s
  ∑ j ∈ (range b.cfg.domain.tickCount).filter (fun j => crosses order.side.opposite j order.level = true ∧ j ≠ order.level),
      b.restingAt order.side j +
    (((b.levelSlots order.side order.level).takeWhile fun x => x ≠ s).map b.displayedRemaining).sum

/-- The stop of this activation comes to the order at rest in a slot: they are of two sides, the limit of the stop, if it has one, reaches
the order's level, and the stop wants more than is ahead. -/
def Pick.Comes (p : Pick) (s : Nat) : Prop :=
  let order := p.book.arena.orderAt s
  p.book.arena.isLiveIndex s = true ∧ order.dormant = false ∧ p.order.side = order.side.opposite ∧
    (p.order.stopMarket = false → ∀ limit, p.book.cfg.domain.indexOf (p.book.stopLimitPrices p.slot) = some limit →
      crosses p.order.side order.level limit = true) ∧
    p.book.ahead s < p.order.remaining

/-- What a result says of its order, once the later activations of the call are over. Of an order that came to rest all is left, unless an
activation has come to it: then there is less, or nothing. Any other order is not live. -/
structure Follows (b : OrderBook) (later : List Pick) (serial id : Nat) (result : SubmitResult) : Prop where
  rests : result.restingHandle ≠ kInvalidHandle → (∀ p ∈ later, ¬p.Comes result.restingHandle.index) →
    ∃ info, b.orderInfo result.restingHandle = some info ∧ info.id = id ∧ info.remaining = result.unfilledQuantity ∧
      b.serialAt result.restingHandle.index = serial
  reached : result.restingHandle ≠ kInvalidHandle → (∃ p ∈ later, p.Comes result.restingHandle.index) →
    ∀ info, b.orderInfo result.restingHandle = some info → info.remaining < result.unfilledQuantity
  gone : result.restingHandle = kInvalidHandle → ¬b.LiveOrder serial

end OrderBook

open OrderBook Ladder

variable {cfg : BookConfig} {b b' : OrderBook} {L L' : Ladder} {trades trades' : List Trade} {picks : List Pick} {side : Side} {i : Nat}
  {l r : List Entry} {e : Entry} {d : Dormant} {sl sr : List Dormant} {w : Sweep} {result : SubmitResult}

/-! ## Orders in the way of an activation -/

/-- What is ahead of an order. -/
theorem Rep.ahead {gh : Prop} (h : Rep gh cfg b L) (hq : L.queue side i = l ++ e :: r) : b.ahead e.slot = L.ahead cfg side i l := by
  have he : e ∈ L.queue side i := by rw [hq]; simp
  have hbefore : ((L.queue side i).map Entry.slot).takeWhile (fun x => x ≠ e.slot) = l.map Entry.slot := by
    rw [hq, List.map_append, List.map_cons, List.takeWhile_append_of_pos, List.takeWhile_cons_of_neg (by simp), List.append_nil]
    intro s hs
    obtain ⟨x, hx, rfl⟩ := List.mem_map.mp hs
    simpa using (h.wf.slot_ne_of_split hq).1 x hx
  have hdisplayed : (l.map Entry.slot).map b.displayedRemaining = l.map Entry.displayed := by
    rw [List.map_map]
    exact List.map_congr_left fun x hx => (h.entries side i x (by rw [hq]; exact List.mem_append_left _ hx)).displayed
  unfold OrderBook.ahead Ladder.ahead
  dsimp only
  rw [h.entry_side he, h.entry_level he, h.cfg_eq, h.levelSlots, hbefore, hdisplayed]
  exact congrArg (· + _) (sum_congr rfl fun j _ => h.restingAt _ _)

/-- An activation on the book comes to an order exactly if the one on the ladder does. -/
theorem Rep.comes {gh : Prop} (h : Rep gh cfg b L) (hd : d ∈ L.stops) (hq : L.queue side i = l ++ e :: r) (result : SubmitResult) :
    Pick.Comes ⟨b, d.slot, result⟩ e.slot ↔ L.StopComes cfg d side i l := by
  have he : e ∈ L.queue side i := by rw [hq]; simp
  have hat := h.dormants d hd
  have hlive : b.arena.isLiveIndex e.slot = true :=
    (h.isLiveIndex (h.wf.place_of_mem he).1).mpr (by rw [(h.wf.place_of_mem he).2]; rintro ⟨⟩)
  have hlimit : ((b.arena.orderAt d.slot).stopMarket = false → ∀ limit, b.cfg.domain.indexOf (b.stopLimitPrices d.slot) = some limit →
      crosses d.side i limit = true) ↔ ∀ limit, (d.taker cfg).limit = some limit → crosses d.side i limit = true := by
    rw [h.stop_market hd, hat.limit, h.cfg_eq, Dormant.taker]
    cases d.limit with
    | none => exact ⟨fun _ _ hl => absurd hl (by rintro ⟨⟩), fun _ hm => absurd hm (by rintro ⟨⟩)⟩
    | some price => exact ⟨fun hc => hc rfl, fun hc _ => hc⟩
  unfold Pick.Comes Pick.order StopComes
  dsimp only
  rw [h.entry_dormant he, h.entry_side he, h.entry_level he, h.stop_side hd, h.ahead hq, hat.remaining, hlimit]
  constructor
  · rintro ⟨_, _, h1, h2, h3⟩
    exact ⟨h1, h2, h3⟩
  · rintro ⟨h1, h2, h3⟩
    exact ⟨hlive, rfl, h1, h2, h3⟩

/-- What is below the new serials stays below. -/
theorem Traced.keeps_below (h : Traced cfg b L trades picks trades' b' L') {s k : Nat} (hb : L.Below s k) : L'.Below s k := by
  induction h with
  | finished => exact hb
  | pick hrepr hnone hs _ _ hactive _ _ ih => exact ih (hactive.keeps_below hrepr.wf hnone hs hb)

/-- An order at rest stays as it is through a cascade, or an activation comes to it, and then less of it is left. -/
theorem Traced.comes (hfifo : cfg.allocationMode = .fifo) (h : Traced cfg b L trades picks trades' b' L')
    (hq : L.queue side i = l ++ e :: r) :
    (∀ p ∈ picks, ¬p.Comes e.slot) ∧ (∃ l' r', L'.queue side i = l' ++ e :: r') ∨
      (∃ p ∈ picks, p.Comes e.slot) ∧ L'.Below e.slot e.remaining := by
  induction h generalizing l r with
  | finished => exact Or.inl ⟨fun p hp => absurd hp List.not_mem_nil, l, r, hq⟩
  | @pick b b1 b' L L1 L' trades trades1 trades' d sl sr w result picks hrepr hnone hs _ _ hactive _ hrest ih =>
    have hd : d ∈ L.stops := by rw [hs]; simp
    have hcomes := hrepr.comes hd hq { result with tradeCount := trades1.length }
    rcases hactive.comes hfifo hrepr.wf hnone hs hq with ⟨hnot, l1, r1, hq1⟩ | ⟨hcame, hbelow⟩
    · rcases ih hq1 with ⟨hnone', hkept⟩ | ⟨⟨p, hp, hcame⟩, hbelow⟩
      · exact Or.inl ⟨List.forall_mem_cons.mpr ⟨fun hc => hnot (hcomes.mp hc), hnone'⟩, hkept⟩
      · exact Or.inr ⟨⟨p, List.mem_cons_of_mem _ hp, hcame⟩, hbelow⟩
    · exact Or.inr ⟨⟨_, List.mem_cons_self, hcomes.mpr hcame⟩, hrest.keeps_below hbelow⟩

/-! ## What a rested order comes to -/

/-- The handle of a resting order finds it. -/
theorem Ladder.resolve_handleAt (hw : L.Wf cfg) (hq : L.queue side i = l ++ e :: r) :
    L.resolve cfg (L.handleAt e.slot) = some (.resting side i e) := by
  obtain ⟨hlt, hplace⟩ := hw.place_of_mem (show e ∈ L.queue side i by rw [hq]; simp)
  rw [Ladder.resolve, if_pos ⟨hlt, rfl⟩]
  simp only [Ladder.handleAt, hplace]
  exact congrArg (Option.map (Located.resting side i)) (hw.find_entry hq)

/-- The handle of a stop finds it. -/
theorem Ladder.resolve_handleAt_stop (hw : L.Wf cfg) (hs : L.stops = sl ++ d :: sr) :
    L.resolve cfg (L.handleAt d.slot) = some (.dormant d) := by
  obtain ⟨hlt, hplace⟩ := hw.place_of_stop (show d ∈ L.stops by rw [hs]; simp)
  rw [Ladder.resolve, if_pos ⟨hlt, rfl⟩]
  simp only [Ladder.handleAt, hplace]
  exact congrArg (Option.map Located.dormant) (hw.find_stop hs)

/-- Less is shown of an order of which less is left. -/
theorem Ladder.Below.orderInfo {handle : Handle} {k : Nat} (h : L.Below handle.index k) {info : OrderInfo}
    (hinfo : L.orderInfo cfg handle = some info) : info.remaining < k := by
  unfold Ladder.orderInfo at hinfo
  split at hinfo
  · cases hinfo
  · rename_i side i e hloc
    obtain ⟨l, r, hq, hhandle, -⟩ := resolve_resting hloc
    obtain rfl := Option.some.inj hinfo
    exact h.resting side i e (by rw [hq]; simp) (by rw [hhandle]; rfl)
  · rename_i d hloc
    obtain ⟨sl, sr, hs, hhandle, -⟩ := resolve_dormant hloc
    exact absurd (by rw [hhandle]; rfl) (h.dormant d (by rw [hs]; simp))

/-- The result of an order that has come to rest before a cascade. -/
theorem Traced.rested (hfifo : cfg.allocationMode = .fifo) (hn : L.Numbered) (h : Traced cfg b L trades picks trades' b' L')
    (hq : L.queue side i = l ++ e :: r) (hhandle : result.restingHandle = L.handleAt e.slot) (hleft : result.unfilledQuantity = e.remaining) :
    b'.Follows picks e.serial e.id result := by
  obtain ⟨hrepr', hnone', -⟩ := h.ends
  have hchanges : Changes cfg L (.cancel kInvalidHandle) L L' := h.changes
  have hindex : result.restingHandle.index = e.slot := by rw [hhandle]; rfl
  refine ⟨fun _ hnot => ?_, fun _ hcame info hinfo => ?_, fun hinv => absurd (hhandle.symm.trans hinv) (L.handleAt_ne _)⟩
  · rcases h.comes hfifo hq with ⟨-, l', r', hq'⟩ | ⟨⟨p, hp, hc⟩, -⟩
    · have he' : e ∈ L'.queue side i := by rw [hq']; simp
      have ht : L.Tenant e.slot e.serial e.id := Or.inl ⟨side, i, List.mem_map.mpr ⟨e, by rw [hq]; simp, rfl⟩⟩
      have ht' : L'.Tenant e.slot e.serial e.id := Or.inl ⟨side, i, List.mem_map.mpr ⟨e, he', rfl⟩⟩
      have hsame : L.handleAt e.slot = L'.handleAt e.slot := by
        rcases hchanges.evolves.back ht' with ⟨-, hr⟩ | hle
        · rw [Ladder.handleAt, Ladder.handleAt, hr]
        · have := hn.lt ht
          omega
      refine ⟨⟨e.id, side, cfg.domain.minimum + i, e.remaining⟩, ?_, rfl, hleft.symm, ?_⟩
      · rw [hrepr'.orderInfo hnone', hhandle, hsame, Ladder.orderInfo, resolve_handleAt hrepr'.wf hq']
      · rw [OrderBook.serialAt, hindex]
        exact (hrepr'.entries side i e he').serial trivial
    · exact absurd (hindex ▸ hc) (hnot p hp)
  · rcases h.comes hfifo hq with ⟨hnot, -⟩ | ⟨-, hbelow⟩
    · obtain ⟨p, hp, hc⟩ := hcame
      exact absurd (hindex ▸ hc) (hnot p hp)
    · rw [hrepr'.orderInfo hnone'] at hinfo
      rw [hleft]
      exact Ladder.Below.orderInfo (hindex ▸ hbelow) hinfo

/-- The result of an order of which nothing is left, before a cascade. -/
theorem Traced.vanished (hn : L.Numbered) (h : Traced cfg b L trades picks trades' b' L') {n id : Nat} (hdead : ∀ s id, ¬L.Tenant s n id)
    (hinv : result.restingHandle = kInvalidHandle) : b'.Follows picks n id result := by
  obtain ⟨hrepr', hnone', -⟩ := h.ends
  have hchanges : Changes cfg L (.cancel kInvalidHandle) L L' := h.changes
  refine ⟨fun hne => absurd hinv hne, fun hne => absurd hinv hne, fun _ hlive => ?_⟩
  obtain ⟨s, id', ht'⟩ := (hrepr'.liveOrder_iff hnone').mp hlive
  rcases hchanges.evolves.back ht' with ⟨ht, -⟩ | hle
  · exact hdead s id' ht
  · have := (hchanges.numbered hn).lt ht'
    rw [h.accepted] at this
    omega

/-- What settles is last in its queue. -/
theorem Ladder.settle_queue (L : Ladder) (d : Dormant) (i : Nat) {remaining : Nat} (h : 0 < remaining ∧ remaining < 2 ^ 64) :
    ∃ e : Entry, (L.settle d i remaining).queue d.side i = L.queue d.side i ++ [e] ∧ e.slot = d.slot ∧ e.id = d.id ∧
      e.serial = d.serial ∧ e.remaining = remaining := by
  unfold settle
  rw [dif_pos h]
  refine ⟨⟨d.slot, d.id, 0, remaining, remaining, remaining, d.serial, h.1, Nat.le_refl _, Nat.le_refl _, h.2⟩, ?_, rfl, rfl, rfl, rfl⟩
  dsimp only
  rw [setQueue_queue, if_pos ⟨rfl, rfl⟩]

/-- What is left of an activated stop rests in its slot, under its handle; or its slot is free. An order that keeps its slot keeps the
handle of the slot. -/
theorem Ladder.Activated.outcome (hw : L.Wf cfg) (hnone : L.held = none) (hn : L.Numbered) (hs : L.stops = sl ++ d :: sr)
    (h : Activated cfg L d (sl ++ sr) w result L') :
    result.restingHandle = kInvalidHandle ∧ (∀ s id, ¬L'.Tenant s d.serial id) ∨
      ∃ i l e, L'.queue d.side i = l ++ [e] ∧ e.id = d.id ∧ e.serial = d.serial ∧ result.unfilledQuantity = e.remaining ∧
        result.restingHandle = L'.handleAt e.slot := by
  obtain ⟨hwf, hheld, hlt, hw', -⟩ := h.wf hw hnone hs
  have hev := (h.changes hw hnone hs : Changes cfg L (.cancel kInvalidHandle) L L').evolves
  have ht : L.Tenant d.slot d.serial d.id := Or.inr (Or.inl (List.mem_map.mpr ⟨d, by rw [hs]; simp, rfl⟩))
  have hdead : L'.place d.slot = .free → ∀ s id, ¬L'.Tenant s d.serial id := by
    intro hfree s id ht'
    rcases hev.back ht' with ⟨ht'', -⟩ | hle
    · rw [hn.inj ht'' ht] at ht'
      exact (ht'.place hw').2 hfree
    · have := hn.lt ht
      omega
  have hresult := h.result
  have hladder := h.ladder
  unfold finish at hresult hladder
  cases hlimit : (d.taker cfg).limit with
  | none =>
    rw [hlimit] at hresult hladder
    exact Or.inl ⟨by rw [hresult], hdead (by rw [hladder]; exact Function.update_self _ _ _)⟩
  | some i =>
    rw [hlimit] at hresult hladder
    dsimp only at hresult hladder
    by_cases hrem : w.remaining ≠ 0
    · rw [if_pos hrem] at hresult hladder
      obtain ⟨e, hqueue, hslot, hid, hserial, hleft⟩ := w.ladder.settle_queue d i ⟨Nat.pos_of_ne_zero hrem, hlt⟩
      have hqueue : L'.queue d.side i = w.ladder.queue d.side i ++ [e] := by rw [hladder, ← hqueue]
      refine Or.inr ⟨i, _, e, hqueue, hid, hserial, by rw [hresult, hleft], ?_⟩
      have ht' : L'.Tenant d.slot d.serial d.id :=
        Or.inl ⟨d.side, i, List.mem_map.mpr ⟨e, by rw [hqueue]; simp, by rw [Entry.key, hslot, hserial, hid]⟩⟩
      rcases hev.back ht' with ⟨-, hr⟩ | hle
      · rw [hresult, hslot, Ladder.handleAt, Ladder.handleAt, hr]
      · have := hn.lt ht
        omega
    · rw [if_neg hrem] at hresult hladder
      exact Or.inl ⟨by rw [hresult], hdead (by rw [hladder]; exact Function.update_self _ _ _)⟩

/-- The results of a cascade. -/
theorem Traced.follows (hfifo : cfg.allocationMode = .fifo) (hn : L.Numbered) (h : Traced cfg b L trades picks trades' b' L') :
    ∀ before p later, picks = before ++ p :: later → b'.Follows later p.serial p.order.id p.result := by
  induction h with
  | finished =>
    intro before p later heq
    simp at heq
  | @pick b b1 b' L L1 L' trades trades1 trades' d sl sr w result picks hrepr hnone hs _ _ hactive _ hrest ih =>
    have hd : d ∈ L.stops := by rw [hs]; simp
    have hn1 : L1.Numbered := (hactive.changes hrepr.wf hnone hs : Changes cfg L (.cancel kInvalidHandle) L L1).numbered hn
    intro before p later heq
    cases before with
    | nil =>
      obtain ⟨rfl, rfl⟩ := List.cons.inj heq
      rw [Pick.serial, hrepr.serialAt_stop hd, Pick.order, (hrepr.dormants d hd).id]
      rcases hactive.outcome hrepr.wf hnone hn hs with ⟨hinv, hdead⟩ | ⟨i, l, e, hq, hid, hserial, hleft, hhandle⟩
      · exact hrest.vanished hn1 hdead hinv
      · rw [← hid, ← hserial]
        exact hrest.rested hfifo hn1 hq hhandle hleft
    | cons x before =>
      exact ih hn1 before p later (List.cons.inj heq).2

/-! ## What a submission returns -/

/-- What is left of a taker has come to rest, under the handle of its slot; or no order has been admitted. -/
theorem Ladder.Rested.outcome {t : Taker} {rests : Bool} {display : Nat → Nat} {handle : Handle}
    (h : Rested w t i rests display handle L') :
    handle = kInvalidHandle ∧ L'.accepted = w.ladder.accepted ∨
      ∃ l e, L'.queue t.side i = l ++ [e] ∧ e.id = t.id ∧ e.serial = w.ladder.accepted ∧ e.remaining = w.remaining ∧
        handle = L'.handleAt e.slot := by
  rcases h with ⟨-, -, h⟩ | ⟨-, rfl, rfl⟩
  · unfold Ladder.rest at h
    split at h
    · rw [Prod.mk.injEq] at h
      exact Or.inl ⟨h.1, by rw [h.2]⟩
    · rename_i slot free hfree
      split at h
      · rename_i hok
        rw [Prod.mk.injEq] at h
        obtain ⟨rfl, rfl⟩ := h
        refine Or.inr ⟨w.ladder.queue t.side i, ⟨slot, t.id, t.trader, w.remaining, display w.remaining, display w.remaining, w.ladder.accepted, hok.1.1,
          Nat.le_refl _, hok.1.2, hok.2⟩, ?_, rfl, rfl, rfl, rfl⟩
        dsimp only
        rw [setQueue_queue, if_pos ⟨rfl, rfl⟩]
      · rw [Prod.mk.injEq] at h
        exact Or.inl ⟨h.1, by rw [h.2]⟩
  · exact Or.inl ⟨rfl, rfl⟩

theorem Traced.of_nil (h : Traced cfg b L trades [] trades' b' L') : b' = b ∧ L' = L := by
  cases h with
  | finished => exact ⟨rfl, rfl⟩

/-- The first activation of a cascade: it does not come to its own slot. -/
theorem Traced.head {p : Pick} (h : Traced cfg b L trades (p :: picks) trades' b' L') :
    ∃ d ∈ L.stops, p.serial = d.serial ∧ p.order.id = d.id ∧
      (p.result.restingHandle ≠ kInvalidHandle → ¬p.Comes p.result.restingHandle.index) := by
  cases h with
  | @pick _ _ _ _ _ _ _ _ _ d sl sr w result _ hrepr hnone hs _ _ hactive _ _ =>
    have hd : d ∈ L.stops := by rw [hs]; simp
    refine ⟨d, hd, hrepr.serialAt_stop hd, (hrepr.dormants d hd).id, fun hne hcomes => ?_⟩
    obtain ⟨-, a, -, -, ha, hhandle⟩ := hactive.stops hrepr.wf hnone hs
    rw [ha] at hhandle
    have hindex : result.restingHandle.index = d.slot := by rw [hhandle.resolve_right hne]; rfl
    have hdormant : (b.arena.orderAt result.restingHandle.index).dormant = false := hcomes.2.1
    rw [hindex, hrepr.stop_dormant hd] at hdormant
    cases hdormant

/-- A stop that sleeps is last, and keeps its handle. -/
theorem Ladder.Slept.keeps {id quantity : Nat} {trigger : Int} {limit : Option Int} (h : Slept L.reset L' id side trigger limit quantity d) :
    L'.stops = L.stops ++ d :: [] ∧ L'.handleAt d.slot = L.handleAt d.slot := by
  obtain ⟨free, -, rfl⟩ := h.room
  exact ⟨rfl, rfl⟩

/-- A stop is submitted under its own id. -/
theorem submittedId_of_stop {op : Op} {id quantity size : Nat} {raw : UInt8} {trigger : Int} {limit : Option Int}
    (h : stopArguments op = some (id, raw, trigger, limit, quantity, size)) : b.submittedId op = id := by
  cases op with
  | submitStop _ _ _ _ _ =>
    cases h
    rfl
  | submitStopLimit _ _ _ _ _ _ =>
    cases h
    rfl
  | _ => cases h

/-- What a call returns of its own order, and its course. Of the stops behind a call, only the new one has the serial number of the call. -/
theorem Course.follows {op : Op} {out : Outcome} {staged : SubmitResult} {b₁ : OrderBook} {L₁ : Ladder} (h : Rep True cfg b L)
    (hnone : L.held = none) (hfifo : cfg.allocationMode = .fifo) (hn : L.Numbered)
    (hc : Course cfg b L op out picks b' L' staged trades b₁ L₁) (hreply : out.reply = .submit result) :
    b'.Follows picks b.arena.accepted (b.submittedId op) result := by
  obtain ⟨hchanges, hw₁, hnone₁⟩ := hc.stage'.kept h.wf hnone
  have hn₁ := hchanges.numbered hn
  rw [h.arena.accepted trivial]
  rcases hc.reply with ⟨hstop, hout⟩ | ⟨p, rest, rfl, hserial, hslot, hstop, hout⟩
  · rw [hreply] at hout
    obtain rfl := Reply.submit.inj hout
    cases hc.stage' with
    | entered ha hm hr =>
      have hk := hm.kept (ha.sound h.wf hnone).wf
      rw [h.submittedId ha]
      rcases hr.outcome with ⟨hinv, hacc⟩ | ⟨l, e, hq, hid, hser, hleft, hhandle⟩
      · refine hc.traced.vanished hn₁ (fun s id ht => ?_) hinv
        have := hn₁.lt ht
        rw [hacc, hk.accepted, (ha.accepted h.wf).1] at this
        exact Nat.lt_irrefl _ this
      · rw [hk.accepted, (ha.accepted h.wf).1] at hser
        rw [← hid, ← hser]
        exact hc.traced.rested hfifo hn₁ hq hhandle hleft.symm
    | @stop _ _ _ _ _ _ _ d _ hsub _ _ _ _ hrest =>
      obtain rfl := hstop (by rw [hsub]; rfl)
      obtain ⟨hrepr₁, -, -⟩ := hc.traced.ends
      obtain ⟨rfl, rfl⟩ := hc.traced.of_nil
      have hsl := restStop_slept hrest
      obtain ⟨hs, hsame⟩ := hsl.keeps
      have hd : d ∈ L'.stops := by rw [hs]; simp
      have hinfo : b'.orderInfo (L.handleAt d.slot) = some ⟨d.id, d.side, d.limit.getD 0, d.remaining⟩ := by
        rw [← hsame, hrepr₁.orderInfo hnone₁, Ladder.orderInfo, resolve_handleAt_stop hrepr₁.wf hs]
      exact ⟨fun _ _ => ⟨_, hinfo, hsl.id.trans (submittedId_of_stop hsub).symm, hsl.remaining,
          ((hrepr₁.dormants d hd).serial trivial).trans hsl.serial⟩,
        fun _ hcame => absurd hcame (by simp), fun hinv => absurd hinv (L.handleAt_ne _)⟩
  · rw [hreply] at hout
    obtain rfl := Reply.submit.inj hout
    have hrest := hc.traced.follows hfifo hn₁ [] p rest rfl
    obtain ⟨d, hd, hser, hid, hself⟩ := hc.traced.head
    rw [hserial] at hrest
    have hown : p.order.id = b.submittedId op := by
      cases hc.stage' with
      | entered ha _ _ => exact absurd hstop ha.no_stop
      | stop hsub _ _ _ _ hslept =>
        have hsl := restStop_slept hslept
        rw [hsl.keeps.1] at hd
        rcases List.mem_append.mp hd with hd | hd
        · have := hn.stop_lt hd
          omega
        · rw [hid, List.mem_singleton.mp hd, hsl.id, submittedId_of_stop hsub]
    rw [hown] at hrest
    refine ⟨fun hne hnot => hrest.rests hne fun x hx => hnot x (List.mem_cons_of_mem _ hx), fun hne hcame => ?_, hrest.gone⟩
    obtain ⟨x, hx, hcomes⟩ := hcame
    rcases List.mem_cons.mp hx with rfl | hx
    · exact absurd hcomes (hself hne)
    · exact hrest.reached hne ⟨x, hx, hcomes⟩

/-- A sell stop that waits for 101, and an ask of 5 there. -/
def stopBelowAsk : List Op := [.submitStop 1 1 101 2 4, .submitLimit 2 7 1 101 5 0 4]

/-- A bid of 10 takes the ask and rests with 5 unfilled, as its result says. The stop that it triggers takes 2 of it, and the book shows 3
left when the call is over. -/
theorem cascade_takes_from_rested : ∃ calls b, OrderBook.Run (BookConfig.small 4 (by decide) .none) .continuous calls b ∧
    ∃ out b' result, (b.apply (.submitLimit 3 8 0 101 10 0 4)).Returns (out, b') ∧ out.reply = .submit result ∧
      result.rejectReason = .none ∧ result.restingHandle ≠ kInvalidHandle ∧ result.unfilledQuantity = 5 ∧
      b'.orderInfo result.restingHandle = some ⟨3, .buy, 101, 3⟩ ∧
      ¬∃ info, b'.orderInfo result.restingHandle = some info ∧ info.remaining = result.unfilledQuantity := by
  have hsome : (OrderBook.execute (BookConfig.small 4 (by decide) .none) .continuous 20 stopBelowAsk).any (fun r =>
      ((r.2.apply (.submitLimit 3 8 0 101 10 0 4)).run 20).any fun r' => r'.1.reply = .submit ⟨.none, 5, 5, 2, ⟨1, 2⟩⟩ &&
        r'.2.orderInfo ⟨1, 2⟩ = some ⟨3, .buy, 101, 3⟩) = true := by decide +kernel
  rw [Option.any_eq_true] at hsome
  obtain ⟨⟨calls, b⟩, h, hb⟩ := hsome
  rw [Option.any_eq_true] at hb
  obtain ⟨⟨out, b'⟩, hret, hb⟩ := hb
  rw [Bool.and_eq_true, decide_eq_true_eq, decide_eq_true_eq] at hb
  refine ⟨calls, b, OrderBook.Run.of_execute h, out, b', _, ⟨20, hret⟩, hb.1, rfl, by decide, rfl, hb.2, fun ⟨info, hinfo, hrem⟩ => ?_⟩
  obtain rfl := Option.some.inj (hb.2.symm.trans hinfo)
  cases hrem

/-- On every reachable book under FIFO allocation, an accepted submission and the activations that follow it: what is returned of the
submission, and of each activation, is so when the call is over, unless a later activation of the call comes to the order it put to
rest; of an order that is not at rest, none is live. -/
theorem results_follow {cfg : BookConfig} {state : TradingState} {calls : List (Op × Outcome)} {b : OrderBook}
    (run : OrderBook.Run cfg state calls b) (hfifo : cfg.allocationMode = .fifo) {op : Op} {out : Outcome} {b' : OrderBook}
    (hret : (b.apply op).Returns (out, b')) {result : SubmitResult} (hreply : out.reply = .submit result)
    (hok : result.rejectReason = .none) :
    ∃ picks, b.Cascades op out picks b' ∧ b'.stopActivations = picks.map Pick.activation ∧
      b'.Follows picks b.arena.accepted (b.submittedId op) result ∧
      ∀ before p later, picks = before ++ p :: later → b'.Follows later p.serial p.order.id p.result := by
  obtain ⟨L, hrun, hrepr, hnone⟩ := run.ladder
  have hacc : out.accepted = true := by
    rw [Outcome.accepted, hreply]
    exact decide_eq_true hok
  obtain ⟨L', -, hrepr', -, hcourse⟩ := hrepr.course hnone hrun.quiet hret
  obtain ⟨picks, staged, trades, b₁, L₁, hc⟩ := hcourse hacc
  obtain ⟨hchanges, -, -⟩ := hc.stage'.kept hrepr.wf hnone
  have hn₁ := hchanges.numbered hrun.numbered
  refine ⟨picks, ⟨fun _ => ⟨staged, trades, b₁, hc.stage, hc.traced.activates hn₁ (hchanges.stopsInOrder hrun.numbered hrun.stopsInOrder)⟩,
    fun h => absurd (hacc.symm.trans h) nofun⟩, ?_, hc.follows hrepr hnone hfifo hrun.numbered hreply, hc.traced.follows hfifo hn₁⟩
  rw [hrepr'.activations, hc.traced.activations, (hc.stage'.lists hrepr.wf hnone).1, List.nil_append]

/-- Of the bid that the stop has come to, less is left than its result says. -/
theorem results_follow_reached : ∃ calls b, OrderBook.Run (BookConfig.small 4 (by decide) .none) .continuous calls b ∧
    ∃ out b' picks, (b.apply (.submitLimit 3 8 0 101 10 0 4)).Returns (out, b') ∧ b.Cascades (.submitLimit 3 8 0 101 10 0 4) out picks b' ∧
      picks.map Pick.activation = [⟨1, 2, 0, kInvalidHandle⟩] ∧ b'.Follows picks 2 3 ⟨.none, 5, 5, 2, ⟨1, 2⟩⟩ := by
  have hsome : (OrderBook.execute (BookConfig.small 4 (by decide) .none) .continuous 20 stopBelowAsk).any (fun r =>
      r.2.arena.accepted = 2 && ((r.2.apply (.submitLimit 3 8 0 101 10 0 4)).run 20).any fun r' =>
        r'.1.reply = .submit ⟨.none, 5, 5, 2, ⟨1, 2⟩⟩ && r'.2.stopActivations = [⟨1, 2, 0, kInvalidHandle⟩]) = true := by decide +kernel
  rw [Option.any_eq_true] at hsome
  obtain ⟨⟨calls, b⟩, h, hb⟩ := hsome
  rw [Bool.and_eq_true, Option.any_eq_true, decide_eq_true_eq] at hb
  obtain ⟨haccepted, ⟨out, b'⟩, hret, hb⟩ := hb
  rw [Bool.and_eq_true, decide_eq_true_eq, decide_eq_true_eq] at hb
  obtain ⟨picks, hcas, hact, hfollows, -⟩ := results_follow (OrderBook.Run.of_execute h) rfl ⟨20, hret⟩ hb.1 rfl
  rw [haccepted] at hfollows
  exact ⟨calls, b, OrderBook.Run.of_execute h, out, b', picks, ⟨20, hret⟩, hcas, hact.symm.trans hb.2, hfollows⟩

end MatchingEngine

import MatchingEngine.Lemmas.Accounts

/-!
# How orders end

A slot that is released has lost its tenant for good, so an order has ended once the slot of its handle was released. The slot of a stop
is released by its activation unless that reports the handle of the stop.
-/

namespace MatchingEngine

open Comp Function

namespace Ladder

variable {cfg : BookConfig} {L L' L'' : Ladder} {op : Op} {out : Outcome}

/-! ## Released slots -/

/-- An order has ended once the slot of its handle was released. -/
theorem Tracks.gone {handle : Handle} {n id : Nat} (hn : L.Numbered) (h : L.Tracks cfg handle n id) (he : Evolves L L')
    (hr : L.releases handle.index < L'.releases handle.index) : ∀ s id', ¬L'.Tenant s n id' := by
  obtain ⟨hlt, -, h⟩ := h
  intro s id' ht'
  rcases he.back ht' with ⟨ht, hsame⟩ | hle
  · rcases h with ⟨ht₀, -⟩ | ⟨hgone, -⟩
    · rw [hn.inj ht ht₀] at hsame
      omega
    · exact hgone s id' ht
  · omega

/-- A release counts. -/
theorem lt_released (releases : Nat → Nat) (slot : Nat) : releases slot < update releases slot (releases slot + 1) slot := by
  rw [update_self]
  exact Nat.lt_succ_self _

/-- A cancellation that succeeds releases the slot of its handle. -/
theorem Effect.cancel_released (hw : L.Wf cfg) {handle : Handle} {r : CancelResult} {trades : List Trade}
    (h : Effect cfg L (.cancel handle) ⟨.cancel r, trades⟩ L') (hok : r.rejectReason = .none) :
    L.releases handle.index < L'.releases handle.index := by
  cases h with
  | cancelMissed hloc => cases hok
  | cancelled hloc =>
    obtain ⟨l, r, hq, rfl, -⟩ := resolve_resting hloc
    rw [remove_eq hq (hw.slot_ne_of_split hq).1]
    exact lt_released _ _
  | cancelledStop hloc =>
    obtain ⟨l, r, hs, rfl, -⟩ := resolve_dormant hloc
    rw [removeStop_eq hs (hw.stop_ne_of_split hs).1]
    exact lt_released _ _

/-- A replacement that succeeds releases the slot of the order it replaces. -/
theorem Effect.replace_released (hw : L.Wf cfg) (hnone : L.held = none) {handle : Handle} {price : Int} {quantity size : Nat}
    {r : SubmitResult} {trades : List Trade} (h : Effect cfg L (.replace handle price quantity size) ⟨.submit r, trades⟩ L')
    (hok : r.rejectReason = .none) : L.releases handle.index < L'.releases handle.index := by
  cases h with
  | refused _ hne _ => exact absurd hok hne
  | lost _ _ _ _ _ _ _ _ => cases hok
  | slept hsub _ _ _ _ _ _ _ => cases hsub
  | fired hsub _ _ _ _ _ _ _ _ _ => cases hsub
  | @entered _ L0 L1 _ t i _ rests display w _ _ ha hm hr hc =>
    have hs := ha.sound hw hnone
    have hw1 := hm.wf hs.wf
    have hnone2 : _ = none := hr.held.trans ((hm.kept hs.wf).held.trans hs.held)
    have hafter : Changes cfg L (.replace handle price quantity size) L0 L' :=
      ((hm.changes hs.wf).trans (hr.changes hw hnone ha hm)).trans (cascade_changes (hr.wf hw1 hs.level) hnone2 hc)
    have hle := hafter.evolves.releases handle.index
    cases ha with
    | replace _ hloc hq _ _ =>
      obtain ⟨-, -, -, rfl, -⟩ := resolve_resting hloc
      rw [remove_eq (L := L.reset) hq (hw.slot_ne_of_split hq).1] at hle
      exact Nat.lt_of_lt_of_le (lt_released L.releases _) hle

/-! ## Activated stops -/

/-- A stop that stays keeps its slot. -/
theorem Evolves.stop_releases (hn : L.Numbered) (he : Evolves L L') {d : Dormant} (hd : d ∈ L.stops) (hd' : d ∈ L'.stops) :
    L'.releases d.slot = L.releases d.slot := by
  have ht : L.Tenant d.slot d.serial d.id := Or.inr (Or.inl (List.mem_map.mpr ⟨d, hd, rfl⟩))
  have ht' : L'.Tenant d.slot d.serial d.id := Or.inr (Or.inl (List.mem_map.mpr ⟨d, hd', rfl⟩))
  rcases he.back ht' with ⟨-, hr⟩ | hle
  · exact hr
  · exact absurd (hn.lt ht) (Nat.not_lt.mpr hle)

/-- What becomes of the rest of a stop's taker: it rests under the handle of the stop, or the slot of the stop is released. -/
theorem finish_told (L : Ladder) {handle : Handle} (hne : handle ≠ kInvalidHandle) (d : Dormant) (limit : Option Nat) (remaining : Nat) :
    (L.finish handle d limit remaining).2.accepted = L.accepted ∧
      ((L.finish handle d limit remaining).1 = kInvalidHandle → L.releases d.slot < (L.finish handle d limit remaining).2.releases d.slot) := by
  have hdrop : L.releases d.slot < (L.dropHeld d).releases d.slot := lt_released _ _
  unfold finish
  split
  · split
    · refine ⟨?_, fun h => absurd h hne⟩
      unfold settle
      split <;> rfl
    · exact ⟨rfl, fun _ => hdrop⟩
  · exact ⟨rfl, fun _ => hdrop⟩

/-- What activations tell of the stops: no order is accepted; a stop that does not stay dormant rests under its handle, which is reported,
or its slot is released; and of every activation without a resting handle the slot is released. -/
structure Told (L L' : Ladder) : Prop where
  accepted : L'.accepted = L.accepted
  stays : ∀ d ∈ L'.stops, d ∈ L.stops ∧ L'.releases d.slot = L.releases d.slot
  releases : ∀ s, L.releases s ≤ L'.releases s
  fate : ∀ d ∈ L.stops, d ∈ L'.stops ∨ (∃ a ∈ L'.activations, a.restingHandle = L.handleAt d.slot) ∨
    L.releases d.slot < L'.releases d.slot
  listed : ∀ a ∈ L.activations, a ∈ L'.activations
  unrested : ∀ a ∈ L'.activations, a.restingHandle = kInvalidHandle →
    a ∈ L.activations ∨ ∃ d ∈ L.stops, d.id = a.orderId ∧ L.releases d.slot < L'.releases d.slot

theorem Told.refl (L : Ladder) : Told L L :=
  ⟨rfl, fun _ hd => ⟨hd, rfl⟩, fun _ => Nat.le_refl _, fun _ hd => Or.inl hd, fun _ ha => ha, fun _ ha _ => Or.inl ha⟩

theorem Told.trans (h : Told L L') (h' : Told L' L'') : Told L L'' where
  accepted := h'.accepted.trans h.accepted
  stays d hd := by
    obtain ⟨hd', hr'⟩ := h'.stays d hd
    obtain ⟨hd, hr⟩ := h.stays d hd'
    exact ⟨hd, hr'.trans hr⟩
  releases s := Nat.le_trans (h.releases s) (h'.releases s)
  fate d hd := by
    rcases h.fate d hd with hd' | ⟨a, ha, hhandle⟩ | hlt
    · have hsame := (h.stays d hd').2
      rcases h'.fate d hd' with hd'' | ⟨a, ha, hhandle⟩ | hlt
      · exact Or.inl hd''
      · exact Or.inr (Or.inl ⟨a, ha, by rw [hhandle, handleAt, handleAt, hsame]⟩)
      · exact Or.inr (Or.inr (hsame ▸ hlt))
    · exact Or.inr (Or.inl ⟨a, h'.listed a ha, hhandle⟩)
    · exact Or.inr (Or.inr (Nat.lt_of_lt_of_le hlt (h'.releases _)))
  listed a ha := h'.listed a (h.listed a ha)
  unrested a ha hinv := by
    rcases h'.unrested a ha hinv with ha | ⟨d, hd, hid, hlt⟩
    · refine (h.unrested a ha hinv).imp_right ?_
      rintro ⟨d, hd, hid, hlt⟩
      exact ⟨d, hd, hid, Nat.lt_of_lt_of_le hlt (h'.releases _)⟩
    · obtain ⟨hd, hsame⟩ := h.stays d hd
      exact Or.inr ⟨d, hd, hid, hsame ▸ hlt⟩

/-- An activation without a resting handle releases the slot of its stop. -/
theorem Activated.released (hw : L.Wf cfg) (hnone : L.held = none) {d : Dormant} {sl sr : List Dormant} (hs : L.stops = sl ++ d :: sr)
    {w : Sweep} {result : SubmitResult} (h : Activated cfg L d (sl ++ sr) w result L') (hinv : result.restingHandle = kInvalidHandle) :
    L.releases d.slot < L'.releases d.slot := by
  have hhold : Changes cfg L (.cancel kInvalidHandle) L w.ladder :=
    (Changes.single hw (.hold hs hnone)).trans (Sweep.run_changes (hw.hold hs hnone) h.run)
  obtain ⟨-, hdrop⟩ := finish_told w.ladder (handleAt_ne L d.slot) d (d.taker cfg).limit w.remaining
  rw [h.result] at hinv
  rw [h.ladder]
  exact Nat.lt_of_le_of_lt (hhold.evolves.releases d.slot) (hdrop hinv)

/-- What one activation tells. -/
theorem Activated.told (hw : L.Wf cfg) (hnone : L.held = none) (hn : L.Numbered) {d : Dormant} {sl sr : List Dormant}
    (hs : L.stops = sl ++ d :: sr) {w : Sweep} {result : SubmitResult} (h : Activated cfg L d (sl ++ sr) w result L') : Told L L' := by
  have hc : Changes cfg L (.cancel kInvalidHandle) L L' := h.changes hw hnone hs
  have he := hc.evolves
  have hk := Sweep.run_kept (hw.hold hs hnone) h.run
  obtain ⟨hacc, -⟩ := finish_told w.ladder (handleAt_ne L d.slot) d (d.taker cfg).limit w.remaining
  obtain ⟨hstops, a, hacts, hid, hresult, hhandle⟩ := h.stops hw hnone hs
  have hreleased : a.restingHandle = kInvalidHandle → L.releases d.slot < L'.releases d.slot := fun hinv =>
    h.released hw hnone hs (hresult ▸ hinv)
  have hothers : ∀ x ∈ sl ++ sr, x ∈ L.stops := fun x hx => by
    rw [hs]
    exact (List.mem_append.mp hx).elim (List.mem_append_left _) fun hx => List.mem_append_right _ (List.mem_cons_of_mem _ hx)
  refine ⟨?_, fun x hx => ?_, he.releases, fun x hx => ?_, fun x hx => ?_, fun x hx hinv => ?_⟩
  · rw [h.ladder]
    exact hacc.trans hk.accepted
  · rw [hstops] at hx
    exact ⟨hothers x hx, he.stop_releases hn (hothers x hx) (hstops ▸ hx)⟩
  · rw [hs] at hx
    rcases List.mem_append.mp hx with hx | hx
    · exact Or.inl (by rw [hstops]; exact List.mem_append_left _ hx)
    · rcases List.mem_cons.mp hx with rfl | hx
      · rcases hhandle with hh | hh
        · exact Or.inr (Or.inl ⟨a, by rw [hacts]; simp, hh⟩)
        · exact Or.inr (Or.inr (hreleased hh))
      · exact Or.inl (by rw [hstops]; exact List.mem_append_right _ hx)
  · rw [hacts]
    exact List.mem_append_left _ hx
  · rw [hacts] at hx
    rcases List.mem_append.mp hx with hx | hx
    · exact Or.inl hx
    · obtain rfl := List.mem_singleton.mp hx
      exact Or.inr ⟨d, by rw [hs]; simp, hid.symm, hreleased hinv⟩

/-- What a cascade tells. -/
theorem cascade_told {trades trades' : List Trade} (hw : L.Wf cfg) (hnone : L.held = none) (hn : L.Numbered)
    (h : (L.cascade cfg trades).Returns (trades', L')) : Told L L' := by
  refine (cascade_invariant (J := fun _ L' => L'.Numbered ∧ Told L L') ?_ hw hnone ⟨hn, Told.refl L⟩ h).1.2
  intro trades1 L1 d sl sr w result L2 hw1 hnone1 hj hs _ _ hact
  have hc : Changes cfg L (.cancel kInvalidHandle) L1 L2 := hact.changes hw1 hnone1 hs
  exact ⟨hc.numbered hj.1, hj.2.trans (hact.told hw1 hnone1 hj.1 hs)⟩

/-! ## Calls -/

/-- How far an accepted submission has come when its activations begin, and what they tell: its stop, if it is one, has been put to sleep,
and no order was accepted but its own, which returns a handle or is gone. -/
structure Began (cfg : BookConfig) (L : Ladder) (op : Op) (out : Outcome) (L₁ L' : Ladder) : Prop where
  numbered : L₁.Numbered
  evolves : Evolves L L₁
  activations : L₁.activations = []
  told : Told L₁ L'
  after : Evolves L₁ L'
  stops : ∀ d ∈ L₁.stops, d ∈ L.stops ∨ (stopArguments op).isSome = true ∧ d.id = L.submittedId cfg op ∧
    L₁.Tracks cfg (L₁.handleAt d.slot) L.accepted d.id
  kept : ∀ d ∈ L.stops, d ∈ L₁.stops
  accepted : L₁.accepted = L.accepted ∨ L₁.accepted = L.accepted + 1 ∧ ∃ r trades, out = ⟨.submit r, trades⟩ ∧
    (r.restingHandle ≠ kInvalidHandle ∨ ∀ s id, ¬L'.Tenant s L.accepted id)

/-- A stop that was put to sleep is the only one that is new, and it is the one submitted. -/
theorem Slept.stops {L₁ : Ladder} {id quantity size : Nat} {raw : UInt8} {side : Side} {trigger : Int} {limit : Option Int} {d : Dormant}
    (hw : L.Wf cfg) (hsub : stopArguments op = some (id, raw, trigger, limit, quantity, size))
    (h : Slept L.reset L₁ id side trigger limit quantity d) :
    (∀ x ∈ L.stops, x ∈ L₁.stops) ∧ ∀ x ∈ L₁.stops, x ∈ L.stops ∨ (stopArguments op).isSome = true ∧ x.id = L.submittedId cfg op ∧
      L₁.Tracks cfg (L₁.handleAt x.slot) L.accepted x.id := by
  have htracks := h.tracks hw.reset
  have hid := h.id
  obtain ⟨free, -, rfl⟩ := h.room
  refine ⟨fun x hx => List.mem_append_left _ hx, fun x hx => (List.mem_append.mp hx).imp_right fun hx => ?_⟩
  rw [List.mem_singleton.mp hx, submittedId_of_stop hsub, hid]
  exact ⟨by rw [hsub]; rfl, rfl, htracks⟩

/-- An accepted submission comes to its activations. -/
theorem Effect.began (hw : L.Wf cfg) (hnone : L.held = none) (hn : L.Numbered) (h : Effect cfg L op out L') (hok : out.accepted = true) :
    ∃ L₁, Began cfg L op out L₁ L' := by
  cases h with
  | refused _ hne _ => exact absurd (of_decide_eq_true hok) hne
  | lost _ _ _ _ _ _ _ _ => cases hok
  | @entered _ L0 L1 _ t i quantity rests display w handle trades ha hm hr hc =>
    have hs := ha.sound hw hnone
    have hw1 := hm.wf hs.wf
    have hnone2 : L1.held = none := hr.held.trans ((hm.kept hs.wf).held.trans hs.held)
    have hch : Changes cfg L op L L1 := (hs.changes.trans (hm.changes hs.wf)).trans (hr.changes hw hnone ha hm)
    have hcas : Changes cfg L op L1 L' := cascade_changes (hr.wf hw1 hs.level) hnone2 hc
    have hk := hm.kept hs.wf
    obtain ⟨hacc0, hstops0, hacts0⟩ := ha.accepted hw
    obtain ⟨hstops1, hacts1, hacc1⟩ := hr.lists
    have hstops : L1.stops = L.stops := hstops1.trans (hk.stops.trans hstops0)
    refine ⟨L1, hch.numbered hn, hch.evolves, hacts1.trans (hk.activations.trans hacts0),
      cascade_told (hr.wf hw1 hs.level) hnone2 (hch.numbered hn) hc, hcas.evolves, fun d hd => Or.inl (hstops ▸ hd),
      fun d hd => hstops ▸ hd, ?_⟩
    rw [hk.accepted, hacc0] at hacc1
    exact hacc1.imp And.right fun hacc => ⟨hacc.2, _, _, rfl, Or.inl hacc.1⟩
  | @slept _ id quantity _ _ _ _ _ d _ hsub _ _ _ _ _ hrest _ =>
    have hsl := restStop_slept hrest
    have hsleep : Changes cfg L op L L' := (Changes.single hw .of_reset).tail hw.reset (.sleep hsub ‹_› ‹_› ‹_› ‹_› hrest)
    obtain ⟨hkept, hstops⟩ := hsl.stops hw hsub
    obtain ⟨free, -, rfl⟩ := hsl.room
    exact ⟨_, hsleep.numbered hn, hsleep.evolves, rfl, Told.refl _, Evolves.refl _, hstops, hkept,
      Or.inr ⟨rfl, _, _, rfl, Or.inl (handleAt_ne _ _)⟩⟩
  | @fired _ id quantity _ _ _ _ _ d L1 L2 _ w result trades hsub _ _ _ _ _ hrest _ hact hc =>
    have hsl := restStop_slept hrest
    obtain ⟨hw1, hnone1⟩ := hsl.wf hw.reset hnone
    have hsleep : Changes cfg L op L L1 := (Changes.single hw .of_reset).tail hw.reset (.sleep hsub ‹_› ‹_› ‹_› ‹_› hrest)
    have hn1 := hsleep.numbered hn
    obtain ⟨hkept, hstops⟩ := hsl.stops hw hsub
    have htracks := hsl.tracks hw.reset
    rw [← List.append_nil L.stops] at hact
    obtain ⟨free, -, rfl⟩ := hsl.room
    obtain ⟨-, -, -, hw2, hnone2⟩ := hact.wf hw1 hnone1 rfl
    have hact' : Changes cfg L op _ L2 := hact.changes hw1 hnone1 rfl
    have hfirst := hact.told hw1 hnone1 hn1 rfl
    have hcas := cascade_told hw2 hnone2 (hact'.numbered hn1) hc
    have hafter : Changes cfg L op _ L' := hact'.trans (cascade_changes hw2 hnone2 hc)
    refine ⟨_, hn1, hsleep.evolves, rfl, hfirst.trans hcas, hafter.evolves, hstops, hkept, Or.inr ⟨rfl, _, _, rfl, ?_⟩⟩
    by_cases hinv : result.restingHandle = kInvalidHandle
    · exact Or.inr (htracks.gone hn1 hafter.evolves (Nat.lt_of_lt_of_le (hact.released hw1 hnone1 rfl hinv) (hcas.releases _)))
    · exact Or.inl hinv
  | _ => cases hok

/-- A call in which no order enters: which orders it leaves. -/
structure Unentered (cfg : BookConfig) (L : Ladder) (op : Op) (out : Outcome) (L' : Ladder) : Prop where
  accepted : L'.accepted = L.accepted
  stops : ∀ d ∈ L.stops, d.key ∈ L'.stops.map Dormant.key ∨ L.releases d.slot < L'.releases d.slot
  weight : ∀ c, L'.weigh cfg (perUnit c) + tradesWeight c out.trades ≤ L.weigh cfg (perUnit c)
  released : (∀ c, L'.weigh cfg (perUnit c) + tradesWeight c out.trades = L.weigh cfg (perUnit c)) ∨
    ∀ s, L.releases s = L'.releases s ∨ op = .cancel (L.handleAt s) ∨
      ∃ price quantity size, op = .replace (L.handleAt s) price quantity size

/-- A call that changes neither the orders nor their slots. -/
theorem Unentered.of_same (hacc : L'.accepted = L.accepted) (hqueue : L'.queue = L.queue) (hstops : L'.stops = L.stops)
    (hheld : L'.held = L.held) (hrel : L'.releases = L.releases) (hout : out.trades = []) : Unentered cfg L op out L' where
  accepted := hacc
  stops d hd := Or.inl (List.mem_map_of_mem (hstops ▸ hd))
  weight c := by rw [hout, weigh_congr hqueue hstops hheld, tradesWeight_nil, Nat.add_zero]
  released := Or.inr fun s => Or.inl (by rw [hrel])

/-- A call that releases one slot, of an order at rest. -/
theorem Unentered.of_remove (hw : L.Wf cfg) {side : Side} {i : Nat} {l r : List Entry} {e : Entry} (hq : L.queue side i = l ++ e :: r)
    (hop : op = .cancel (L.handleAt e.slot) ∨ ∃ price quantity size, op = .replace (L.handleAt e.slot) price quantity size)
    (hout : out.trades = []) : Unentered cfg L op out (L.remove side i e.slot) := by
  have heq := remove_eq hq (hw.slot_ne_of_split hq).1
  refine ⟨by rw [heq]; rfl, fun d hd => Or.inl (List.mem_map_of_mem (by rw [heq]; exact hd)), fun c => ?_, Or.inr fun s => ?_⟩
  · have := weigh_remove (f := perUnit c) hw hq
    rw [hout, tradesWeight_nil]
    omega
  · by_cases hs : s = e.slot
    · exact Or.inr (hs ▸ hop)
    · left
      rw [heq]
      exact (update_of_ne hs _ _).symm

/-- A call that releases one slot, of a stop. -/
theorem Unentered.of_removeStop (hw : L.Wf cfg) {l r : List Dormant} {d : Dormant} (hs : L.stops = l ++ d :: r)
    (hop : op = .cancel (L.handleAt d.slot)) (hout : out.trades = []) : Unentered cfg L op out (L.removeStop d.slot) := by
  have heq := removeStop_eq hs (hw.stop_ne_of_split hs).1
  refine ⟨by rw [heq]; rfl, fun x hx => ?_, fun c => ?_, Or.inr fun s => ?_⟩
  · rw [heq]
    by_cases hslot : x.slot = d.slot
    · exact Or.inr (hslot ▸ lt_released _ _)
    · exact Or.inl ((stopKeys_take hw hs).mpr ⟨hslot, List.mem_map_of_mem hx⟩)
  · have := weigh_removeStop (f := perUnit c) hw hs
    rw [hout, tradesWeight_nil]
    omega
  · by_cases hslot : s = d.slot
    · exact Or.inr (Or.inl (hslot ▸ hop))
    · left
      rw [heq]
      exact (update_of_ne hslot _ _).symm

/-- A call that amends one order at rest. -/
theorem Unentered.of_amendEntry (hw : L.Wf cfg) {side : Side} {i n : Nat} {l r : List Entry} {e : Entry} (hq : L.queue side i = l ++ e :: r)
    (hpos : 0 < n) (hle : n ≤ e.remaining) (hout : out.trades = []) : Unentered cfg L op out (L.amendEntry side i e.slot n) := by
  refine ⟨rfl, fun d hd => Or.inl (List.mem_map_of_mem hd), fun c => ?_, Or.inr fun s => Or.inl rfl⟩
  have h1 := weigh_amendEntry (f := perUnit c) hw hq hpos hle
  have h2 := Nat.mul_le_mul_left (c e.id) hle
  simp only [perUnit, hout, tradesWeight_nil] at h1 ⊢
  omega

/-- A call that amends one stop. -/
theorem Unentered.of_amendStop (hw : L.Wf cfg) {n : Nat} {l r : List Dormant} {d : Dormant} (hs : L.stops = l ++ d :: r)
    (hpos : 0 < n) (hle : n ≤ d.remaining) (hout : out.trades = []) : Unentered cfg L op out (L.amendStop d.slot n) := by
  obtain ⟨hslot, hid, -, -, -, hser, -⟩ := Dormant.amend_eq hpos hle
  have hkey : (d.amend n).key = d.key := by rw [Dormant.key, Dormant.key, hslot, hser, hid]
  refine ⟨rfl, fun x hx => Or.inl ?_, fun c => ?_, Or.inr fun s => Or.inl rfl⟩
  · rw [amendStop_eq hw hs]
    dsimp only
    rw [List.map_append, List.map_cons, hkey, ← List.map_cons, ← List.map_append, ← hs]
    exact List.mem_map_of_mem hx
  · have h1 := weigh_amendStop (f := perUnit c) hw hs hpos hle
    have h2 := Nat.mul_le_mul_left (c d.id) hle
    simp only [perUnit, hout, tradesWeight_nil] at h1 ⊢
    omega

/-- No order enters in a call that is not an accepted submission. -/
theorem Effect.unentered (hw : L.Wf cfg) (h : Effect cfg L op out L') (hok : out.accepted ≠ true) : Unentered cfg L op out L' := by
  cases h with
  | refused _ _ hL =>
    rcases hL with rfl | rfl
    · exact .of_same rfl rfl rfl rfl rfl rfl
    · exact .of_same rfl rfl rfl rfl rfl rfl
  | entered _ _ _ _ => exact absurd rfl hok
  | slept _ _ _ _ _ _ _ _ => exact absurd rfl hok
  | fired _ _ _ _ _ _ _ _ hact _ => exact absurd (by rw [hact.result]; rfl) hok
  | @lost handle quantity size i j price side l r e _ hloc hq _ _ _ _ _ =>
    obtain ⟨-, -, -, rfl, -⟩ := resolve_resting hloc
    have hrem : Unentered cfg L.reset (.replace (L.handleAt e.slot) price quantity size)
        ⟨.submit (rejected .selfTradePrevented quantity), []⟩ (L.reset.remove side j e.slot) :=
      .of_remove (hw.activations []) hq (Or.inr ⟨_, _, _, rfl⟩) rfl
    exact ⟨hrem.accepted, hrem.stops, hrem.weight, hrem.released⟩
  | cancelMissed _ => exact .of_same rfl rfl rfl rfl rfl rfl
  | cancelled hloc =>
    obtain ⟨l, r, hq, rfl, -⟩ := resolve_resting hloc
    exact .of_remove hw hq (Or.inl rfl) rfl
  | cancelledStop hloc =>
    obtain ⟨l, r, hs, rfl, -⟩ := resolve_dormant hloc
    exact .of_removeStop hw hs rfl rfl
  | amendRefused _ => exact .of_same rfl rfl rfl rfl rfl rfl
  | amended hloc hpos hle _ =>
    obtain ⟨l, r, hq, -, -⟩ := resolve_resting hloc
    exact .of_amendEntry hw hq hpos hle rfl
  | amendedStop hloc hpos hle _ =>
    obtain ⟨l, r, hs, -, -⟩ := resolve_dormant hloc
    exact .of_amendStop hw hs hpos hle rfl
  | uncrossRefused _ => exact .of_same rfl rfl rfl rfl rfl rfl
  | opened _ _ => exact .of_same rfl rfl rfl rfl rfl rfl
  | uncrossed _ _ _ hloop =>
    have hw1 : { L with tradingState := .continuous }.Wf cfg := hw.of_slots (fun _ _ => rfl) rfl rfl rfl rfl rfl
    have hk := auction_kept hw1 hloop
    obtain ⟨hweight, -⟩ := auction_weighs hw1 hloop
    exact ⟨hk.accepted, fun d hd => Or.inl (List.mem_map_of_mem (hk.stops.symm ▸ hd)), fun c => (hweight c).le, Or.inl hweight⟩

/-- A stop that does not stay dormant rests under its handle, which is reported, or its slot was released. -/
theorem Effect.fate (hw : L.Wf cfg) (hnone : L.held = none) (hn : L.Numbered) (h : Effect cfg L op out L') {d : Dormant} (hd : d ∈ L.stops) :
    d.key ∈ L'.stops.map Dormant.key ∨ (∃ a ∈ L'.activations, a.restingHandle = L.handleAt d.slot) ∨
      L.releases d.slot < L'.releases d.slot := by
  by_cases hok : out.accepted = true
  · obtain ⟨L₁, hb⟩ := h.began hw hnone hn hok
    have hsame := hb.evolves.stop_releases hn hd (hb.kept d hd)
    have hfate := hb.told.fate d (hb.kept d hd)
    rw [handleAt, hsame] at hfate
    exact hfate.imp_left List.mem_map_of_mem
  · exact ((h.unentered hw hok).stops d hd).imp_right Or.inr

/-- Of every activation without a resting handle the slot of the stop was released, or the stop is the one submitted, and is gone. -/
theorem Effect.unrested (hw : L.Wf cfg) (hnone : L.held = none) (hn : L.Numbered) (h : Effect cfg L op out L') (hok : out.accepted = true)
    {a : StopActivation} (ha : a ∈ L'.activations) (hinv : a.restingHandle = kInvalidHandle) :
    (∃ d ∈ L.stops, d.id = a.orderId ∧ L.releases d.slot < L'.releases d.slot) ∨
      (stopArguments op).isSome = true ∧ L.submittedId cfg op = a.orderId ∧ ∀ s id, ¬L'.Tenant s L.accepted id := by
  obtain ⟨L₁, hb⟩ := h.began hw hnone hn hok
  rcases hb.told.unrested a ha hinv with ha | ⟨d, hd, hid, hlt⟩
  · rw [hb.activations] at ha
    cases ha
  · rcases hb.stops d hd with hd₀ | ⟨hstop, hid', htracks⟩
    · rw [hb.evolves.stop_releases hn hd₀ hd] at hlt
      exact Or.inl ⟨d, hd₀, hid, hlt⟩
    · exact Or.inr ⟨hstop, hid'.symm.trans hid, htracks.gone hb.numbered hb.after hlt⟩

/-- An order that is live after a call was live before, or the call returned a handle for it. -/
theorem Effect.born (hw : L.Wf cfg) (hnone : L.held = none) (hn : L.Numbered) (h : Effect cfg L op out L') {s n id : Nat}
    (ht : L'.Tenant s n id) :
    L.Tenant s n id ∨ n = L.accepted ∧ ∃ r trades, out = ⟨.submit r, trades⟩ ∧ r.restingHandle ≠ kInvalidHandle := by
  have hch := h.changes hw hnone
  have hlt := (hch.numbered hn).lt ht
  rcases hch.evolves.back ht with ⟨ht₀, -⟩ | hle
  · exact Or.inl ht₀
  by_cases hok : out.accepted = true
  · obtain ⟨L₁, hb⟩ := h.began hw hnone hn hok
    have hacc := hb.told.accepted
    rcases hb.accepted with hacc₁ | ⟨hacc₁, r, trades, hout, hne | hgone⟩
    · omega
    · exact Or.inr ⟨by omega, r, trades, hout, hne⟩
    · obtain rfl : n = L.accepted := by omega
      exact absurd ht (hgone s id)
  · have hacc := (h.unentered hw hok).accepted
    omega

/-! ## What the orders of an id have left -/

theorem queueWeight_unit_eq_zero {x : Nat} {q : List Entry} (h : ∀ e ∈ q, e.id ≠ x) : queueWeight (perUnit (unitOf x)) q = 0 := by
  rw [queueWeight, List.sum_eq_zero_iff]
  rintro _ hm
  obtain ⟨e, he, rfl⟩ := List.mem_map.mp hm
  rw [perUnit, unitOf_of_ne (h e he), Nat.zero_mul]

theorem stopsWeight_unit_eq_zero {x : Nat} {stops : List Dormant} (h : ∀ d ∈ stops, d.id ≠ x) :
    stopsWeight (perUnit (unitOf x)) stops = 0 := by
  rw [stopsWeight, List.sum_eq_zero_iff]
  rintro _ hm
  obtain ⟨d, hd, rfl⟩ := List.mem_map.mp hm
  rw [perUnit, unitOf_of_ne (h d hd), Nat.zero_mul]

/-- Where an id has something left, an order has it. -/
theorem exists_tenant {x : Nat} (h : L.weigh cfg (perUnit (unitOf x)) ≠ 0) : ∃ s n, L.Tenant s n x := by
  by_contra hnone
  have hnot : ∀ s n, ¬L.Tenant s n x := fun s n ht => hnone ⟨s, n, ht⟩
  have hqueue : ∀ side i, queueWeight (perUnit (unitOf x)) (L.queue side i) = 0 := fun side i =>
    queueWeight_unit_eq_zero fun e he hid => hnot e.slot e.serial (Or.inl ⟨side, i, List.mem_map.mpr ⟨e, he, by rw [← hid]; rfl⟩⟩)
  have hstops : stopsWeight (perUnit (unitOf x)) L.stops = 0 :=
    stopsWeight_unit_eq_zero fun d hd hid => hnot d.slot d.serial (Or.inr (Or.inl (List.mem_map.mpr ⟨d, hd, by rw [← hid]; rfl⟩)))
  have hheld : stopsWeight (perUnit (unitOf x)) L.held.toList = 0 :=
    stopsWeight_unit_eq_zero fun d hd hid => hnot d.slot d.serial
      (Or.inr (Or.inr (by rw [Option.mem_toList.mp hd, ← hid]; rfl)))
  refine h ?_
  simp only [weigh, hqueue, hstops, hheld, Finset.sum_const_zero, Nat.add_zero]

/-- An order has something left. -/
theorem Tenant.weigh_pos (hw : L.Wf cfg) {s n x : Nat} (h : L.Tenant s n x) : 0 < L.weigh cfg (perUnit (unitOf x)) := by
  rcases h with ⟨side, i, hk⟩ | hk | hk
  · obtain ⟨e, he, heq⟩ := List.mem_map.mp hk
    obtain rfl : e.id = x := congrArg (fun k => k.2.2) heq
    obtain ⟨l, r, hq⟩ := List.append_of_mem he
    have h1 := weigh_remove (f := perUnit (unitOf e.id)) hw hq
    have h2 := Nat.lt_of_lt_of_le e.displayed_pos e.displayed_le_remaining
    rw [perUnit, unitOf_self, Nat.one_mul] at h1
    omega
  · obtain ⟨d, hd, heq⟩ := List.mem_map.mp hk
    obtain rfl : d.id = x := congrArg (fun k => k.2.2) heq
    obtain ⟨l, r, hs⟩ := List.append_of_mem hd
    have h1 := weigh_removeStop (f := perUnit (unitOf d.id)) hw hs
    have h2 := d.remaining_pos
    rw [perUnit, unitOf_self, Nat.one_mul] at h1
    omega
  · obtain ⟨d, hd, heq⟩ := Option.map_eq_some_iff.mp hk
    obtain rfl : d.id = x := congrArg (fun k => k.2.2) heq
    have h1 : _ + perUnit (unitOf d.id) d.id d.remaining = L.weigh cfg (perUnit (unitOf d.id)) := weigh_dropHeld hd
    have h2 := d.remaining_pos
    rw [perUnit, unitOf_self, Nat.one_mul] at h1
    omega

/-- Activations that leave nothing of an id. -/
theorem lostWeight_unit_eq_zero {x : Nat} {activations : List StopActivation}
    (h : ∀ a ∈ activations, a.orderId = x → a.restingHandle ≠ kInvalidHandle) : lostWeight (unitOf x) activations = 0 := by
  rw [lostWeight, List.sum_eq_zero_iff]
  rintro _ hm
  obtain ⟨a, ha, rfl⟩ := List.mem_map.mp hm
  by_cases hid : a.orderId = x
  · rw [StopActivation.lost, if_neg (h a ha hid), Nat.mul_zero]
  · rw [unitOf_of_ne hid, Nat.zero_mul]

end Ladder

/-! ## On the book -/

section Books

open Ladder

variable {cfg : BookConfig} {b : OrderBook} {L L' : Ladder} {op : Op} {out : Outcome}

/-- The two sides agree on the id of the order that enters. -/
theorem Rep.submittedId (h : Rep True cfg b L) {L0 : Ladder} {t : Taker} {i quantity : Nat} {rests : Bool} {display : Nat → Nat}
    (ha : Ladder.Admitted cfg L op L0 t i quantity rests display) : b.submittedId op = t.id := by
  cases ha with
  | @replace handle _ _ _ j _ side _ _ e _ hloc _ _ _ =>
    obtain ⟨l, r, hq, hhandle, -⟩ := Ladder.resolve_resting hloc
    rw [OrderBook.submittedId, hhandle]
    exact (h.entries side j e (by rw [hq]; simp)).id
  | _ => rfl

theorem submitsStop_of_arguments {id quantity size : Nat} {raw : UInt8} {trigger : Int} {limit : Option Int}
    (h : stopArguments op = some (id, raw, trigger, limit, quantity, size)) :
    op.submitsStop = true ∧ op.newId = some id ∧ submittedQuantity op = some quantity ∧ b.submittedId op = id ∧ b.replacedQuantity op = 0 := by
  refine ⟨by rw [Op.submitsStop, h]; rfl, ?_⟩
  cases op with
  | submitStop _ _ _ _ _ =>
    cases h
    exact ⟨rfl, rfl, rfl, rfl⟩
  | submitStopLimit _ _ _ _ _ _ =>
    cases h
    exact ⟨rfl, rfl, rfl, rfl⟩
  | _ => cases h

/-- The order that enters, and the one it replaces. -/
theorem Rep.admitted (h : Rep True cfg b L) {L0 : Ladder} {t : Taker} {i quantity : Nat} {rests : Bool} {display : Nat → Nat}
    (ha : Admitted cfg L op L0 t i quantity rests display) :
    op.submitsStop = false ∧ submittedQuantity op = some quantity ∧ L0.activations = [] ∧
      (op.newId = some t.id ∨ 0 < b.replacedQuantity op) ∧
      ∀ f : Nat → Nat → Nat, (∀ id, f id 0 = 0) → L0.weigh cfg f + f t.id (b.replacedQuantity op) = L.weigh cfg f := by
  have hreset : ∀ {id : Nat} (f : Nat → Nat → Nat), (∀ id, f id 0 = 0) → L.reset.weigh cfg f + f id 0 = L.weigh cfg f := fun f hzero => by
    rw [hzero]
    rfl
  cases ha with
  | limit _ _ _ => exact ⟨rfl, rfl, rfl, Or.inl rfl, hreset⟩
  | postOnly _ _ _ _ => exact ⟨rfl, rfl, rfl, Or.inl rfl, hreset⟩
  | iceberg _ _ _ _ _ _ => exact ⟨rfl, rfl, rfl, Or.inl rfl, hreset⟩
  | market _ _ _ _ _ => exact ⟨rfl, rfl, rfl, Or.inl rfl, hreset⟩
  | @replace handle _ size _ j price side l r e _ hloc hq _ _ =>
    obtain ⟨-, -, -, hhandle, -⟩ := resolve_resting hloc
    have hrem : b.replacedQuantity (.replace handle price quantity size) = e.remaining := by
      rw [OrderBook.replacedQuantity, hhandle]
      exact (h.entries side j e (by rw [hq]; simp)).remaining
    refine ⟨rfl, rfl, rfl, Or.inr ?_, fun f _ => ?_⟩
    · rw [hrem]
      exact Nat.lt_of_lt_of_le e.displayed_pos e.displayed_le_remaining
    · rw [hrem]
      have := weigh_remove (f := f) h.wf.reset (L := L.reset) hq
      exact this

/-- What an accepted submission moves, in terms of the book it was made on. -/
theorem Rep.enters (hfifo : cfg.allocationMode = .fifo) (h : Rep True cfg b L) (hnone : L.held = none) (he : Effect cfg L op out L')
    (hok : out.accepted = true) : ∃ L₀ quantity own, submittedQuantity op = some quantity ∧
      Enters cfg L L' out.trades (b.submittedId op) quantity (b.replacedQuantity op) own L₀ := by
  have hw := h.wf
  have hmax := cfg.maxOrderQuantity_lt
  cases he with
  | refused _ hne _ => exact absurd (of_decide_eq_true hok) hne
  | @entered _ L0 L1 _ t i quantity rests display w handle trades ha hm hr hc =>
    have hs := ha.sound hw hnone
    have hle := hs.le
    obtain ⟨-, hquantity, hreset, -, hbefore⟩ := h.admitted ha
    obtain ⟨henters, -, -⟩ := enters_of_matched hfifo hs.wf hs.held hreset (by omega) hs.level hbefore hm hr hc
    rw [← h.submittedId ha] at henters
    exact ⟨L0, quantity, _, hquantity, henters⟩
  | @slept _ id quantity _ _ _ _ _ d _ hsub _ _ _ _ _ hrest _ =>
    obtain ⟨-, -, hquantity, hid, hrep⟩ := submitsStop_of_arguments (b := b) hsub
    have henters : Enters cfg L L' [] id quantity 0 0 L.reset := (restStop_slept hrest).enters
    exact ⟨_, quantity, 0, hquantity, by rw [hid, hrep]; exact henters⟩
  | @fired _ id quantity _ _ _ _ _ d L1 L2 _ w result trades hsub _ _ _ _ _ hrest _ hact hc =>
    obtain ⟨-, -, hquantity, hid, hrep⟩ := submitsStop_of_arguments (b := b) hsub
    obtain ⟨henters, -, -⟩ := (restStop_slept hrest).enters_of_activated hfifo hw hnone hact hc
    exact ⟨_, quantity, 0, hquantity, by rw [hid, hrep]; exact henters⟩
  | _ => cases hok

/-- A weight of a side, level by level. -/
theorem sum_sideSlots {f : Nat → Nat → Nat} {g : Nat → Nat} {side : Side} (hg : ∀ i, ∀ e ∈ L.queue side i, g e.slot = f e.id e.remaining) :
    ((L.sideSlots cfg side).map g).sum = ∑ i ∈ Finset.range cfg.domain.tickCount, queueWeight f (L.queue side i) := by
  have hlevel : ∀ i, (((L.queue side i).map Entry.slot).map g).sum = queueWeight f (L.queue side i) := fun i => by
    rw [List.map_map, queueWeight]
    exact congrArg List.sum (List.map_congr_left fun e he => hg i e he)
  unfold sideSlots
  rw [← List.range_eq_range']
  induction cfg.domain.tickCount with
  | zero => rfl
  | succ n ih =>
    rw [List.range_succ, List.flatMap_append, List.map_append, List.sum_append, ih, Finset.sum_range_succ, ← hlevel n]
    simp

/-- The live slots of a book are those of its ladder. -/
theorem Rep.liveSlots_perm {gh : Prop} (h : Rep gh cfg b L) (hnone : L.held = none) : b.arena.liveSlots.Perm (L.liveSlots cfg) := by
  refine (List.perm_ext_iff_of_nodup (List.nodup_range.filter _) h.wf.liveSlots_nodup).mpr fun s => ?_
  rw [List.mem_filter, List.mem_range, h.wf.mem_liveSlots hnone, h.arena.capacity]
  exact and_congr_right fun hs => h.arena.live s hs

/-- A weight of the live orders of a book is that of its ladder. -/
theorem Rep.sum_liveSlots {gh : Prop} (h : Rep gh cfg b L) (hnone : L.held = none) (f : Nat → Nat → Nat) :
    (b.arena.liveSlots.map fun s => f (b.arena.orderAt s).id (b.arena.orderAt s).remaining).sum = L.weigh cfg f := by
  have hside : ∀ side, _ := fun side =>
    @sum_sideSlots cfg L f (fun s => f (b.arena.orderAt s).id (b.arena.orderAt s).remaining) side fun i e he => by
      rw [(h.entries side i e he).id, (h.entries side i e he).remaining]
  have hstops : ((L.stops.map Dormant.slot).map fun s => f (b.arena.orderAt s).id (b.arena.orderAt s).remaining).sum =
      stopsWeight f L.stops := by
    rw [List.map_map, stopsWeight]
    refine congrArg List.sum (List.map_congr_left fun d hd => ?_)
    rw [comp_apply, (h.dormants d hd).id, (h.dormants d hd).remaining]
  rw [((h.liveSlots_perm hnone).map _).sum_eq, liveSlots, List.map_append, List.map_append, List.sum_append, List.sum_append, hstops,
    hside .buy, hside .sell, weigh, hnone, Option.toList, stopsWeight_nil]
  omega

end Books

end MatchingEngine

import MatchingEngine.Lemmas.Engine
import MatchingEngine.Lemmas.Gateway
import MatchingEngine.Lemmas.Handles
import MatchingEngine.Lemmas.Opening

/-!
# Which handle belongs to which order

A ladder shows an order id under a handle when an order with this id rests in the handle's slot (`Ladder.Shows`). What a message does
to the orders shown, and what its events do to the adapter's tables, is brought together in `Tables`.
-/

namespace MatchingEngine

open Comp Function

/-! ## The orders shown -/

namespace Ladder

/-- An order with this id rests in the slot of this handle. -/
def Shows (L : Ladder) (id : Nat) (handle : Handle) : Prop := ∃ side i, ∃ e ∈ L.queue side i, e.id = id ∧ L.handleAt e.slot = handle

/-- A ladder without stops, now or in the last operation. -/
structure Plain (L : Ladder) : Prop where
  stops : L.stops = []
  activations : L.activations = []

variable {cfg : BookConfig} {L L' : Ladder} {id : Nat} {handle : Handle}

theorem Shows.congr (hq : L'.queue = L.queue) (hr : L'.releases = L.releases) : L'.Shows id handle ↔ L.Shows id handle := by
  unfold Shows handleAt
  rw [hq, hr]

/-- An execution shows no order that was not shown. -/
theorem Filled.shows {side : Side} {i q : Nat} {l r : List Entry} {e : Entry} (hw' : L'.Wf cfg) (hq : L.queue side i = l ++ e :: r)
    (h : Filled L L' side i l r e q) (hs : L'.Shows id handle) : L.Shows id handle := by
  obtain ⟨side', j, x, hx, hid, hhandle⟩ := hs
  have hrel : L'.releases x.slot = L.releases x.slot := by
    rcases h.cases with ⟨-, -, -, ⟨-, -, hrel, -⟩, -⟩ | ⟨-, -, -, -, hplace, hrel⟩
    · rw [hrel]
    · have hp := (hw'.place_of_mem hx).2
      have hne : x.slot ≠ e.slot := fun heq => by
        rw [hplace, heq, update_self] at hp
        cases hp
      rw [hrel, update_of_ne hne]
  unfold handleAt at hhandle
  rw [hrel] at hhandle
  rcases h.mem hq hx with hx | ⟨rfl, rfl, hshrinks⟩
  · exact ⟨side', j, x, hx, hid, hhandle⟩
  · exact ⟨side', j, e, by rw [hq]; simp, hshrinks.id ▸ hid, by rw [handleAt, ← hshrinks.slot]; exact hhandle⟩

/-- A taker shows no order that was not shown. -/
theorem Matched.shows {L0 : Ladder} {t : Taker} {quantity : Nat} {w : Sweep} (hw : L0.Wf cfg) (h : Matched cfg L0 t quantity w)
    (hs : w.ladder.Shows id handle) : L0.Shows id handle := by
  rcases h with ⟨-, h⟩ | ⟨-, rfl⟩
  · refine (Sweep.run_invariant (I := fun v => v.ladder.Shows id handle → L0.Shows id handle) ?_ hw (fun h => h) h).2.1 hs
    intro v i e q hv hi hstep hs
    obtain ⟨l, r, hq, -, hf⟩ := hstep.filled hv
    exact hi (hf.shows (hstep.wf hv) hq hs)
  · exact hs

/-- What an order that comes to rest does to the orders shown. -/
theorem rest_shows {id trader : Nat} {side : Side} {i remaining display : Nat} (hw : L.Wf cfg) (hp : L.Plain)
    (h : (handle, L') = L.rest id trader side i remaining display) :
    L'.Plain ∧ (handle = kInvalidHandle ∧ L' = L ∨
      handle.index < cfg.maxOrders ∧ L'.Shows id handle ∧ ∀ {id' h}, L'.Shows id' h → L.Shows id' h ∨ id' = id ∧ h = handle) := by
  unfold rest at h
  split at h
  · rw [Prod.mk.injEq] at h
    obtain ⟨rfl, rfl⟩ := h
    exact ⟨hp, Or.inl ⟨rfl, rfl⟩⟩
  · rename_i slot free hfree
    split at h
    · obtain ⟨e, rfl, hid, hqueue, hrel, hstops, hact, rfl⟩ : ∃ e : Entry, e.slot = slot ∧ e.id = id ∧
          L'.queue = (L.setQueue side i (L.queue side i ++ [e])).queue ∧ L'.releases = L.releases ∧ L'.stops = L.stops ∧
          L'.activations = L.activations ∧ handle = L.handleAt slot := by
        dsimp only at h
        rw [Prod.mk.injEq] at h
        obtain ⟨rfl, rfl⟩ := h
        exact ⟨_, rfl, rfl, rfl, rfl, rfl, rfl, rfl⟩
      have hhandle : ∀ s, L'.handleAt s = L.handleAt s := fun s => by rw [handleAt, handleAt, hrel]
      refine ⟨⟨hstops.trans hp.stops, hact.trans hp.activations⟩,
        Or.inr ⟨(hw.place_of_free (s := e.slot) (by rw [hfree]; simp)).1, ?_, ?_⟩⟩
      · refine ⟨side, i, e, ?_, hid, hhandle _⟩
        rw [hqueue, setQueue_queue, if_pos ⟨rfl, rfl⟩]
        exact List.mem_append_right _ (List.mem_singleton.mpr rfl)
      · rintro id' h' ⟨side', j, x, hx, hxid, rfl⟩
        rw [hhandle]
        rw [hqueue, setQueue_queue] at hx
        split at hx
        · rename_i hj
          obtain ⟨rfl, rfl⟩ := hj
          rcases List.mem_append.mp hx with hx | hx
          · exact Or.inl ⟨side', j, x, hx, hxid, rfl⟩
          · rw [List.mem_singleton.mp hx] at hxid ⊢
            exact Or.inr ⟨hxid.symm.trans hid, rfl⟩
        · exact Or.inl ⟨side', j, x, hx, hxid, rfl⟩
    · rw [Prod.mk.injEq] at h
      obtain ⟨rfl, rfl⟩ := h
      exact ⟨hp, Or.inl ⟨rfl, rfl⟩⟩

/-- What a limit order does to the orders shown: none is added, or the order itself under the handle returned. -/
theorem Effect.limit_shows {trader quantity size : Nat} {raw rawTime : UInt8} {price : Int} {result : SubmitResult}
    {trades : List Trade} (hw : L.Wf cfg) (hnone : L.held = none) (hp : L.Plain)
    (h : Effect cfg L (.submitLimit id trader raw price quantity rawTime size) ⟨.submit result, trades⟩ L') :
    L'.Plain ∧ (result.restingHandle = kInvalidHandle ∧ (∀ {id h}, L'.Shows id h → L.Shows id h) ∨
      result.restingHandle.index < cfg.maxOrders ∧ L'.Shows id result.restingHandle ∧
        ∀ {id' h}, L'.Shows id' h → L.Shows id' h ∨ id' = id ∧ h = result.restingHandle) := by
  cases h with
  | refused _ _ hsame =>
    rcases hsame with rfl | rfl
    · exact ⟨hp, Or.inl ⟨rfl, fun h => h⟩⟩
    · exact ⟨⟨hp.stops, rfl⟩, Or.inl ⟨rfl, fun h => h⟩⟩
  | slept hsub _ _ _ _ _ _ _ => cases hsub
  | fired hsub _ _ _ _ _ _ _ _ _ => cases hsub
  | @entered _ L0 L1 _ t i quantity rests display w handle trades ha hm hr hc =>
    have hs := ha.sound hw hnone
    have hkept := hm.kept hs.wf
    have hw1 := hm.wf hs.wf
    have hacc := ha.accepted hw
    have hid : t.id = id := ha.id_eq
    have hL0 : ∀ {id h}, L0.Shows id h → L.Shows id h := by
      cases ha with
      | limit _ _ _ => exact fun h => h
    have hplain : w.ladder.Plain := ⟨hkept.stops.trans (hacc.2.1.trans hp.stops), hkept.activations.trans hacc.2.2⟩
    have hshows : ∀ {id h}, w.ladder.Shows id h → L.Shows id h := fun h => hL0 (hm.shows hs.wf h)
    have hlast : L1.Plain → L' = L1 := fun h1 => (cascade_none (fun d hd => by rw [h1.stops] at hd; cases hd) hc).2
    dsimp only
    rcases hr with ⟨-, -, hr⟩ | ⟨-, rfl, rfl⟩
    · obtain ⟨h1, hcases⟩ := rest_shows hw1 hplain hr
      rw [hlast h1]
      refine ⟨h1, ?_⟩
      rcases hcases with ⟨rfl, rfl⟩ | ⟨hlt, hnew, hback⟩
      · exact Or.inl ⟨rfl, hshows⟩
      · refine Or.inr ⟨hlt, hid ▸ hnew, fun h => ?_⟩
        rcases hback h with h | ⟨rfl, rfl⟩
        · exact Or.inl (hshows h)
        · exact Or.inr ⟨hid, rfl⟩
    · rw [hlast hplain]
      exact ⟨hplain, Or.inl ⟨rfl, hshows⟩⟩

/-- What a cancel does to the orders shown: its handle's order is shown no longer, or the handle has none. -/
theorem Effect.cancel_shows {result : CancelResult} {trades : List Trade} (hw : L.Wf cfg) (hp : L.Plain)
    (h : Effect cfg L (.cancel handle) ⟨.cancel result, trades⟩ L') :
    L'.Plain ∧ (result.rejectReason ≠ .none ∧ L' = L ∨
      result.rejectReason = .none ∧ L.Shows result.orderId handle ∧ ∀ {id h}, L'.Shows id h ↔ L.Shows id h ∧ h ≠ handle) := by
  cases h with
  | cancelMissed _ => exact ⟨hp, Or.inl ⟨nofun, rfl⟩⟩
  | cancelledStop hloc =>
    obtain ⟨l, r, hs, -, -⟩ := resolve_dormant hloc
    rw [hp.stops] at hs
    cases l <;> cases hs
  | @cancelled _ side i e hloc =>
    obtain ⟨l, r, hq, rfl, -⟩ := resolve_resting hloc
    have hremove := remove_eq hq (hw.slot_ne_of_split hq).1
    have hw' : (L.remove side i e.slot).Wf cfg := by
      rw [hremove]
      exact hw.take hq
    rw [hremove] at hw' ⊢
    refine ⟨⟨hp.stops, hp.activations⟩, Or.inr ⟨rfl, ⟨side, i, e, by rw [hq]; simp, rfl, rfl⟩, fun {id h} => ⟨?_, ?_⟩⟩⟩
    · rintro ⟨side', j, x, hx, hid, rfl⟩
      have hp' := (hw'.place_of_mem hx).2
      have hne : x.slot ≠ e.slot := fun heq => by
        rw [heq] at hp'
        dsimp only [release] at hp'
        rw [update_self] at hp'
        cases hp'
      have hsame : ((L.setQueue side i (l ++ r)).release e.slot).handleAt x.slot = L.handleAt x.slot := by
        dsimp only [release, handleAt]
        rw [update_of_ne hne]
        rfl
      rw [hsame]
      refine ⟨⟨side', j, x, ?_, hid, rfl⟩, fun h => hne (congrArg Handle.index h)⟩
      dsimp only [release] at hx
      rw [setQueue_queue] at hx
      split at hx
      · rename_i hj
        rw [hj.1, hj.2, hq]
        rcases List.mem_append.mp hx with hx | hx
        · exact List.mem_append_left _ hx
        · exact List.mem_append_right _ (List.mem_cons_of_mem _ hx)
      · exact hx
    · rintro ⟨⟨side', j, x, hx, hid, rfl⟩, hne⟩
      have hslot : x.slot ≠ e.slot := fun heq => hne (by rw [heq])
      refine ⟨side', j, x, ?_, hid, ?_⟩
      · dsimp only [release]
        rw [setQueue_queue]
        split
        · rename_i hj
          rw [hj.1, hj.2, hq] at hx
          rcases List.mem_append.mp hx with hx | hx
          · exact List.mem_append_left _ hx
          · rcases List.mem_cons.mp hx with rfl | hx
            · exact absurd rfl hslot
            · exact List.mem_append_right _ hx
        · exact hx
      · dsimp only [release, handleAt]
        rw [update_of_ne hslot]
        rfl

/-- An amendment changes no order shown. -/
theorem Effect.amend_shows {n : Nat} {out : Outcome} (hp : L.Plain) (h : Effect cfg L (.amendQuantity handle n) out L') :
    L'.Plain ∧ ∀ {id h}, L'.Shows id h ↔ L.Shows id h := by
  cases h with
  | refused hsub _ _ => cases hsub
  | entered ha _ _ _ => cases ha
  | slept hsub _ _ _ _ _ _ _ => cases hsub
  | fired hsub _ _ _ _ _ _ _ _ _ => cases hsub
  | amendRefused _ => exact ⟨hp, Iff.rfl⟩
  | amendedStop hloc _ _ _ =>
    obtain ⟨l, r, hs, -, -⟩ := resolve_dormant hloc
    rw [hp.stops] at hs
    cases l <;> cases hs
  | @amended _ _ i side e hloc _ _ _ =>
    refine ⟨⟨hp.stops, hp.activations⟩, fun {id h} => ⟨?_, ?_⟩⟩
    · rintro ⟨side', j, x, hx, hid, rfl⟩
      unfold amendEntry at hx
      rw [setQueue_queue] at hx
      split at hx
      · rename_i hj
        obtain ⟨y, hy, rfl⟩ := List.mem_map.mp hx
        have hsame : (if y.slot = e.slot then y.amend n else y).slot = y.slot ∧
            (if y.slot = e.slot then y.amend n else y).id = y.id := by
          split
          · exact ⟨Entry.amend_slot y n, Entry.amend_id y n⟩
          · exact ⟨rfl, rfl⟩
        exact ⟨side', j, y, by rw [hj.1, hj.2]; exact hy, hsame.2 ▸ hid, by rw [hsame.1]; rfl⟩
      · exact ⟨side', j, x, hx, hid, rfl⟩
    · rintro ⟨side', j, x, hx, hid, rfl⟩
      have hsame : (if x.slot = e.slot then x.amend n else x).slot = x.slot ∧
          (if x.slot = e.slot then x.amend n else x).id = x.id := by
        split
        · exact ⟨Entry.amend_slot x n, Entry.amend_id x n⟩
        · exact ⟨rfl, rfl⟩
      by_cases hj : side' = side ∧ j = i
      · obtain ⟨rfl, rfl⟩ := hj
        refine ⟨side', j, if x.slot = e.slot then x.amend n else x, ?_, hsame.2.trans hid, by rw [hsame.1]; rfl⟩
        unfold amendEntry
        rw [setQueue_queue, if_pos ⟨rfl, rfl⟩]
        exact List.mem_map_of_mem hx
      · refine ⟨side', j, x, ?_, hid, rfl⟩
        unfold amendEntry
        rwa [setQueue_queue, if_neg hj]

/-- A handle shows one order. -/
theorem Shows.id_unique {id' : Nat} (hw : L.Wf cfg) (h : L.Shows id handle) (h' : L.Shows id' handle) : id = id' := by
  obtain ⟨side, i, e, he, rfl, rfl⟩ := h
  obtain ⟨side', j, x, hx, rfl, hh⟩ := h'
  have hslot : x.slot = e.slot := congrArg Handle.index hh
  obtain ⟨-, hp⟩ := hw.place_of_mem he
  obtain ⟨-, hp'⟩ := hw.place_of_mem hx
  rw [hslot, hp, Place.resting.injEq] at hp'
  obtain ⟨rfl, rfl⟩ := hp'
  obtain ⟨l, r, hq⟩ := List.append_of_mem he
  rw [hq] at hx
  rcases List.mem_append.mp hx with hx | hx
  · exact absurd hslot ((hw.slot_ne_of_split hq).1 x hx)
  · rcases List.mem_cons.mp hx with rfl | hx
    · rfl
    · exact absurd hslot ((hw.slot_ne_of_split hq).2 x hx)

end Ladder

/-! ## The tables -/

/-- The tables of an adapter, where the orders shown are `shows` and the ids in `filled` are of orders that are gone: both hold exactly
the ids of these, each once, and the recorded handle of an order shown is its own. -/
structure Tables (shows : Nat → Handle → Prop) (filled : List Nat) (a : MarketDataAdapter) : Prop where
  active_nodup : a.gateway.activeOrderIds.Nodup
  handles_nodup : (a.handles.map ActiveOrder.id).Nodup
  same : ∀ id, id ∈ a.gateway.activeOrderIds ↔ id ∈ a.handles.map ActiveOrder.id
  ids : ∀ id, id ∈ a.handles.map ActiveOrder.id ↔ (∃ h, shows id h) ∨ id ∈ filled
  filled_nodup : filled.Nodup
  apart : ∀ id ∈ filled, ∀ h, ¬shows id h
  recorded : ∀ id h, shows id h → ⟨id, h⟩ ∈ a.handles

namespace Tables

variable {shows shows' : Nat → Handle → Prop} {filled gone : List Nat} {a a' : MarketDataAdapter} {id : Nat} {handle : Handle}

/-- Only the two tables count, and the orders shown. -/
theorem congr (h : Tables shows filled a) (hg : a'.gateway.activeOrderIds = a.gateway.activeOrderIds) (hh : a'.handles = a.handles)
    (hs : ∀ id h, shows' id h ↔ shows id h) : Tables shows' filled a' := by
  have : shows' = shows := funext fun id => funext fun h => propext (hs id h)
  subst this
  exact ⟨hg ▸ h.active_nodup, hh ▸ h.handles_nodup, by rw [hg, hh]; exact h.same, by rw [hh]; exact h.ids, h.filled_nodup, h.apart,
    by rw [hh]; exact h.recorded⟩

/-- An order has one handle. -/
theorem handle_unique (h : Tables shows filled a) {handle' : Handle} (hs : shows id handle) (hs' : shows id handle') :
    handle = handle' := by
  have := List.inj_on_of_nodup_map h.handles_nodup (h.recorded _ _ hs) (h.recorded _ _ hs') rfl
  exact congrArg ActiveOrder.handle this

/-- Orders that are gone without an event of their own stay in the tables. -/
theorem fewer (h : Tables shows filled a) (hsub : ∀ id h, shows' id h → shows id h) (hn : gone.Nodup)
    (hgone : ∀ id, id ∈ gone ↔ (∃ h, shows id h) ∧ ∀ h, ¬shows' id h) : Tables shows' (filled ++ gone) a where
  active_nodup := h.active_nodup
  handles_nodup := h.handles_nodup
  same := h.same
  ids id := by
    rw [h.ids, List.mem_append, hgone]
    constructor
    · rintro (⟨hd, hs⟩ | hf)
      · by_cases hs' : ∃ h, shows' id h
        · exact Or.inl hs'
        · exact Or.inr (Or.inr ⟨⟨hd, hs⟩, fun h hsh => hs' ⟨h, hsh⟩⟩)
      · exact Or.inr (Or.inl hf)
    · rintro (⟨hd, hs⟩ | hf | ⟨hs, -⟩)
      · exact Or.inl ⟨hd, hsub _ _ hs⟩
      · exact Or.inr hf
      · exact Or.inl hs
  filled_nodup := by
    refine List.nodup_append.mpr ⟨h.filled_nodup, hn, fun x hx y hy hxy => ?_⟩
    obtain ⟨⟨hd, hs⟩, -⟩ := (hgone y).mp hy
    exact h.apart x hx hd (hxy ▸ hs)
  apart id hid hd hs := by
    rcases List.mem_append.mp hid with hf | hg
    · exact h.apart id hf hd (hsub _ _ hs)
    · exact ((hgone id).mp hg).2 hd hs
  recorded id hd hs := h.recorded id hd (hsub _ _ hs)

/-- A new order is entered in both tables. -/
theorem add (h : Tables shows filled a) (hnew : id ∉ a.gateway.activeOrderIds)
    (hg : a'.gateway.activeOrderIds = a.gateway.activeOrderIds ++ [id]) (hh : a'.handles = a.handles ++ [⟨id, handle⟩])
    (hs : ∀ id' h, shows' id' h ↔ shows id' h ∨ id' = id ∧ h = handle) : Tables shows' filled a' where
  active_nodup := by
    rw [hg]
    exact List.nodup_append.mpr ⟨h.active_nodup, by simp, fun x hx y hy hxy => hnew (List.mem_singleton.mp hy ▸ hxy ▸ hx)⟩
  handles_nodup := by
    rw [hh, List.map_append]
    refine List.nodup_append.mpr ⟨h.handles_nodup, by simp, fun x hx y hy hxy => hnew ?_⟩
    have hid : y = id := List.mem_singleton.mp hy
    rw [h.same, ← hid, ← hxy]
    exact hx
  same id' := by
    rw [hg, hh, List.map_append, List.mem_append, List.mem_append, h.same]
    rfl
  ids id' := by
    rw [hh, List.map_append, List.mem_append, h.ids]
    simp only [hs, List.map_cons, List.map_nil, List.mem_singleton]
    constructor
    · rintro ((⟨hd, hs⟩ | hf) | rfl)
      · exact Or.inl ⟨hd, Or.inl hs⟩
      · exact Or.inr hf
      · exact Or.inl ⟨handle, Or.inr ⟨rfl, rfl⟩⟩
    · rintro (⟨hd, hs | ⟨rfl, -⟩⟩ | hf)
      · exact Or.inl (Or.inl ⟨hd, hs⟩)
      · exact Or.inr rfl
      · exact Or.inl (Or.inr hf)
  filled_nodup := h.filled_nodup
  apart id' hf hd hsh := by
    rcases (hs id' hd).mp hsh with hsh | ⟨rfl, -⟩
    · exact h.apart id' hf hd hsh
    · exact hnew ((h.same _).mpr ((h.ids _).mpr (Or.inr hf)))
  recorded id' hd hsh := by
    rw [hh]
    rcases (hs id' hd).mp hsh with hsh | ⟨rfl, rfl⟩
    · exact List.mem_append_left _ (h.recorded _ _ hsh)
    · exact List.mem_append_right _ (List.mem_singleton.mpr rfl)

/-- An order that is shown no longer is taken out of both tables. -/
theorem remove (h : Tables shows filled a) (hshown : shows id handle) (hunique : ∀ id', shows id' handle → id' = id)
    (hg : a'.gateway.activeOrderIds = swapRemove (fun active => active = id) a.gateway.activeOrderIds)
    (hh : a'.handles = swapRemove (fun active => active.id = id) a.handles)
    (hs : ∀ id' h, shows' id' h ↔ shows id' h ∧ h ≠ handle) : Tables shows' filled a' := by
  have hactive : ∀ id', id' ∈ a'.gateway.activeOrderIds ↔ id' ∈ a.gateway.activeOrderIds ∧ id' ≠ id := fun id' => by
    rw [hg]
    exact mem_swapRemove_key (f := fun id => id) (by simpa using h.active_nodup)
  have hhandles : ∀ x, x ∈ a'.handles ↔ x ∈ a.handles ∧ x.id ≠ id := fun x => by
    rw [hh]
    exact mem_swapRemove_key h.handles_nodup
  have hids : ∀ id', id' ∈ a'.handles.map ActiveOrder.id ↔ id' ∈ a.handles.map ActiveOrder.id ∧ id' ≠ id := fun id' => by
    simp only [List.mem_map, hhandles]
    constructor
    · rintro ⟨x, ⟨hx, hne⟩, rfl⟩
      exact ⟨⟨x, hx, rfl⟩, hne⟩
    · rintro ⟨⟨x, hx, rfl⟩, hne⟩
      exact ⟨x, ⟨hx, hne⟩, rfl⟩
  refine ⟨?_, ?_, fun id' => ?_, fun id' => ?_, h.filled_nodup, fun id' hf hd hsh => ?_, fun id' hd hsh => ?_⟩
  · rw [hg]
    have := nodup_map_swapRemove (p := fun active => active = id) (f := fun id : Nat => id) (by simpa using h.active_nodup)
    simpa using this
  · rw [hh]
    exact nodup_map_swapRemove h.handles_nodup
  · rw [hactive, hids, h.same]
  · rw [hids, h.ids]
    constructor
    · rintro ⟨⟨hd, hsh⟩ | hf, hne⟩
      · exact Or.inl ⟨hd, (hs _ _).mpr ⟨hsh, fun heq => hne (hunique id' (heq ▸ hsh))⟩⟩
      · exact Or.inr hf
    · rintro (⟨hd, hsh⟩ | hf)
      · obtain ⟨hsh, hne⟩ := (hs _ _).mp hsh
        exact ⟨Or.inl ⟨hd, hsh⟩, fun heq => hne (h.handle_unique (heq ▸ hsh) hshown)⟩
      · exact ⟨Or.inr hf, fun heq => h.apart id' hf handle (heq ▸ hshown)⟩
  · exact h.apart id' hf hd ((hs _ _).mp hsh).1
  · obtain ⟨hsh, hne⟩ := (hs _ _).mp hsh
    exact (hhandles _).mpr ⟨h.recorded _ _ hsh, fun heq => hne (h.handle_unique (heq ▸ hsh) hshown)⟩

end Tables

end MatchingEngine

import MatchingEngine.Lemmas.Line
import MatchingEngine.Lemmas.MarketData
import MatchingEngine.Lemmas.Runs

/-!
# What a message does

The steps of the replay of a feed: the command the adapter makes of a message, what its events do to the tables, and what both come to
for the orders of the book (`Follows.step`).
-/

namespace MatchingEngine

open Comp

/-! ## The adapter -/

namespace MarketDataAdapter

/-- The command an adapter makes of a message, and the tables it leaves. -/
inductive Adapted (a : MarketDataAdapter) (m : MarketDataMessage) : CommandPayload → MarketDataAdapter → Prop where
  | add {a' : MarketDataAdapter} (type : MarketDataMessageType.ofRaw m.type = some .addOrder)
      (new : m.orderId.toNat ∉ a.gateway.activeOrderIds)
      (active : a'.gateway.activeOrderIds = a.gateway.activeOrderIds ++ [m.orderId.toNat]) (handles : a'.handles = a.handles) :
      Adapted a m (.submitLimit m.orderId m.side m.price m.quantity TimeInForce.gtc.raw) a'
  | delete {a' : MarketDataAdapter} {index generation : UInt32} (type : MarketDataMessageType.ofRaw m.type ≠ some .addOrder)
      (active : a'.gateway.activeOrderIds = a.gateway.activeOrderIds) (handles : a'.handles = a.handles) :
      Adapted a m (.cancel index generation) a'
  | replace {a' : MarketDataAdapter} {index generation : UInt32} (type : MarketDataMessageType.ofRaw m.type ≠ some .addOrder)
      (active : a'.gateway.activeOrderIds = a.gateway.activeOrderIds) (handles : a'.handles = a.handles) :
      Adapted a m (.amendQuantity index generation m.quantity) a'

variable {a a' : MarketDataAdapter} {m : MarketDataMessage} {payload : CommandPayload}

/-- A payload that is made is adapted from the message. -/
theorem payload_ok (h : a.payload m = (.ok payload, a')) : Adapted a m payload a' := by
  unfold MarketDataAdapter.payload at h
  cases htype : MarketDataMessageType.ofRaw m.type with
  | none =>
    rw [htype] at h
    cases (Prod.mk.injEq _ _ _ _ ▸ h).1
  | some type =>
    rw [htype] at h
    cases type with
    | addOrder =>
      rcases hvalidate : a.gateway.validate 0 m.orderId.toNat m.price m.quantity m.sequence with ⟨reason, g⟩
      rw [hvalidate] at h
      dsimp only at h
      split at h
      · cases (Prod.mk.injEq _ _ _ _ ▸ h).1
      · rename_i hnone
        rw [not_not.mp hnone] at hvalidate
        obtain ⟨hnew, hactive⟩ := GatewayValidator.validate_none hvalidate
        rw [Prod.mk.injEq, Except.ok.injEq] at h
        obtain ⟨rfl, rfl⟩ := h
        exact .add htype hnew hactive rfl
    | deleteOrder =>
      dsimp only at h
      split at h
      · cases (Prod.mk.injEq _ _ _ _ ▸ h).1
      · rw [Prod.mk.injEq, Except.ok.injEq] at h
        obtain ⟨rfl, rfl⟩ := h
        exact .delete (by rw [htype]; nofun) rfl rfl
    | replaceOrder =>
      dsimp only at h
      split at h
      · cases (Prod.mk.injEq _ _ _ _ ▸ h).1
      · rw [Prod.mk.injEq, Except.ok.injEq] at h
        obtain ⟨rfl, rfl⟩ := h
        exact .replace (by rw [htype]; nofun) rfl rfl
    | trade => cases (Prod.mk.injEq _ _ _ _ ▸ h).1
    | levelUpdate => cases (Prod.mk.injEq _ _ _ _ ▸ h).1

theorem adapt_ok {command : SequencedCommand} (h : a.adapt m = (.ok command, a')) : Adapted a m command.payload a' := by
  unfold adapt at h
  split at h
  · cases (Prod.mk.injEq _ _ _ _ ▸ h).1
  · rcases hpayload : a.payload m with ⟨outcome, b⟩
    rw [hpayload] at h
    cases outcome with
    | error error => cases (Prod.mk.injEq _ _ _ _ ▸ h).1
    | ok payload =>
      dsimp only at h
      cases hstamp : b.sequencer.stamp payload m.sequence with
      | error error =>
        rw [hstamp] at h
        cases (Prod.mk.injEq _ _ _ _ ▸ h).1
      | ok r =>
        obtain ⟨command', sequencer⟩ := r
        rw [hstamp] at h
        rw [Prod.mk.injEq, Except.ok.injEq] at h
        obtain ⟨rfl, rfl⟩ := h
        have hsame : command'.payload = payload := by
          unfold Sequencer.stamp at hstamp
          split at hstamp
          · cases hstamp
          split at hstamp
          · cases hstamp
          split at hstamp
          · cases hstamp
          rw [Except.ok.injEq, Prod.mk.injEq] at hstamp
          rw [← hstamp.1]
        rw [hsame]
        cases payload_ok hpayload with
        | add type new active handles => exact .add type new active handles
        | delete type active handles => exact .delete type active handles
        | replace type active handles => exact .replace type active handles

/-- What the first event of an order without a resting remainder does: the order is in neither table. -/
theorem record_gone (event : EngineEvent) (htype : event.type = .submitResult) (hindex : event.handle.index = kInvalidIndex)
    (hg : a'.gateway.activeOrderIds = a.gateway.activeOrderIds ++ [event.orderId]) (hh : a'.handles = a.handles)
    (hnew : event.orderId ∉ a.gateway.activeOrderIds) (hout : event.orderId ∉ a.handles.map ActiveOrder.id) :
    (a'.recordAppliedEvent event).gateway.activeOrderIds = a.gateway.activeOrderIds ∧
      (a'.recordAppliedEvent event).handles = a.handles := by
  unfold recordAppliedEvent
  rw [if_pos (Or.inl htype), if_pos hindex]
  dsimp only [forget, GatewayValidator.release]
  rw [hg, hh]
  refine ⟨swapRemove_concat (fun y hy => decide_eq_false fun h => hnew (h ▸ hy)) (by simp), swapRemove_of_forall_not fun x hx => ?_⟩
  exact decide_eq_false fun h => hout (h ▸ List.mem_map_of_mem hx)

/-- What the first event of an order with a resting remainder does: the order is added to the table of handles. -/
theorem record_resting (event : EngineEvent) (htype : event.type = .submitResult) (hindex : event.handle.index ≠ kInvalidIndex)
    (hout : event.orderId ∉ a.handles.map ActiveOrder.id) :
    (a.recordAppliedEvent event).gateway = a.gateway ∧
      (a.recordAppliedEvent event).handles = a.handles ++ [⟨event.orderId, event.handle⟩] := by
  have hidx : a.handles.findIdx? (fun active => decide (active.id = event.orderId)) = none :=
    List.findIdx?_eq_none_iff.mpr fun x hx => decide_eq_false fun h => hout (h ▸ List.mem_map_of_mem hx)
  unfold recordAppliedEvent
  rw [if_pos (Or.inl htype), if_neg hindex, remember, hidx]
  exact ⟨rfl, rfl⟩

/-- The events of trades and amendments, and those of cancels that were rejected, leave the adapter. -/
theorem record_ignored {event : EngineEvent} (hsubmit : event.type ≠ .submitResult) (hstop : event.type ≠ .stopTriggered)
    (h : event.type ≠ .cancelResult ∨ event.reason ≠ 0) : a.recordAppliedEvent event = a := by
  unfold recordAppliedEvent
  rw [if_neg (not_or.mpr ⟨hsubmit, hstop⟩), if_pos h]

/-- The event of a cancel takes the order it names out of both tables. -/
theorem record_cancelled {event : EngineEvent} (htype : event.type = .cancelResult) (hreason : event.reason = 0)
    (hin : event.orderId ∈ a.handles.map ActiveOrder.id) :
    (a.recordAppliedEvent event).gateway.activeOrderIds =
        swapRemove (fun active => decide (active = event.orderId)) a.gateway.activeOrderIds ∧
      (a.recordAppliedEvent event).handles = swapRemove (fun active => decide (active.id = event.orderId)) a.handles := by
  have hany : (a.handles.any fun active => decide (active.id = event.orderId)) = true := by
    obtain ⟨x, hx, hid⟩ := List.mem_map.mp hin
    exact List.any_eq_true.mpr ⟨x, hx, by simpa using hid⟩
  unfold recordAppliedEvent
  rw [if_neg (by rw [htype]; nofun), if_neg (by rw [htype, hreason]; nofun), if_pos hany]
  exact ⟨rfl, rfl⟩

theorem foldl_record_tradeEvents (sequence : UInt64) (trades : List Trade) :
    (tradeEvents sequence trades).foldl recordAppliedEvent a = a := by
  unfold tradeEvents
  rw [List.mapIdx_eq_zipIdx_map]
  generalize trades.zipIdx = l
  induction l with
  | nil => rfl
  | cons x l ih =>
    rw [List.map_cons, List.foldl_cons, record_ignored (by exact nofun) (by exact nofun) (Or.inl (by exact nofun))]
    exact ih

end MarketDataAdapter

/-! ## A message -/

/-- Recorded events are applied one by one. -/
theorem recordEvents_some {events : List EngineEvent} {a a' : MarketDataAdapter} {f f' : ReplayFingerprint}
    (h : recordEvents events a f = (some f', a')) : a' = events.foldl MarketDataAdapter.recordAppliedEvent a := by
  induction events generalizing a f with
  | nil =>
    rw [recordEvents, Prod.mk.injEq] at h
    exact h.2.symm
  | cons event events ih =>
    rw [recordEvents] at h
    split at h
    · cases (Prod.mk.injEq _ _ _ _ ▸ h).1
    · exact ih h

/-- A message that was processed: its command was applied, its events were recorded, and the book was checked. -/
theorem replayMessage_ok {eventsSize : Nat} {m : MarketDataMessage} {a a' : MarketDataAdapter} {engine engine' : SequencedEngine}
    {result result' : ReplayResult} (h : (replayMessage eventsSize m a engine result).Returns (.ok result', a', engine')) :
    ∃ command a₁ events trades e checked, a.adapt m = (.ok command, a₁) ∧
      (engine.apply command eventsSize).Returns (.applied, events, trades, e) ∧
      a' = events.foldl MarketDataAdapter.recordAppliedEvent a₁ ∧
      e.orderBook.checkInvariants.Returns (checked, engine'.orderBook) := by
  unfold replayMessage at h
  split at h
  · rw [returns_pure] at h
    cases (Prod.mk.injEq _ _ _ _ ▸ h).1
  · rename_i command a₁ hadapt
    obtain ⟨⟨status, events, trades, e⟩, happly, h⟩ := (returns_bind _ _ _).mp h
    dsimp only at h
    split at h
    · rw [returns_pure] at h
      cases (Prod.mk.injEq _ _ _ _ ▸ h).1
    · rename_i hstatus
      rw [not_not.mp hstatus] at happly
      split at h
      · rw [returns_pure] at h
        cases (Prod.mk.injEq _ _ _ _ ▸ h).1
      · rename_i fingerprint a₂ hrecord
        obtain ⟨⟨checked, book⟩, hcheck, h⟩ := (returns_bind _ _ _).mp h
        dsimp only at h
        split at h
        · rw [returns_pure] at h
          cases (Prod.mk.injEq _ _ _ _ ▸ h).1
        · rw [returns_pure, Prod.mk.injEq, Prod.mk.injEq] at h
          obtain ⟨-, rfl, rfl⟩ := h
          exact ⟨command, a₁, events, trades, e, checked, hadapt, happly, recordEvents_some hrecord, hcheck⟩

section

variable {cfg : BookConfig} {L L' : Ladder} {filled : List Nat} {a a₁ a' : MarketDataAdapter} {handle : Handle} {out : Outcome}

/-- A limit order is answered by a submit result. -/
theorem Ladder.Effect.limit_reply {id trader quantity size : Nat} {raw rawTime : UInt8} {price : Int}
    (h : Effect cfg L (.submitLimit id trader raw price quantity rawTime size) out L') :
    ∃ result trades, out = ⟨.submit result, trades⟩ := by
  cases h with
  | refused _ _ _ => exact ⟨_, _, rfl⟩
  | entered _ _ _ _ => exact ⟨_, _, rfl⟩
  | slept hsub _ _ _ _ _ _ _ => cases hsub
  | fired hsub _ _ _ _ _ _ _ _ _ => cases hsub

/-- A cancel is answered by a cancel result, and trades nothing. -/
theorem Ladder.Effect.cancel_reply (h : Effect cfg L (.cancel handle) out L') : ∃ result, out = ⟨.cancel result, []⟩ := by
  cases h with
  | refused hsub _ _ => cases hsub
  | entered ha _ _ _ => cases ha
  | slept hsub _ _ _ _ _ _ _ => cases hsub
  | fired hsub _ _ _ _ _ _ _ _ _ => cases hsub
  | cancelMissed _ => exact ⟨_, rfl⟩
  | cancelled _ => exact ⟨_, rfl⟩
  | cancelledStop _ => exact ⟨_, rfl⟩

/-- An amendment is answered by an amend result, and trades nothing. -/
theorem Ladder.Effect.amend_reply {n : Nat} (h : Effect cfg L (.amendQuantity handle n) out L') :
    ∃ result, out = ⟨.amend result, []⟩ := by
  cases h with
  | refused hsub _ _ => cases hsub
  | entered ha _ _ _ => cases ha
  | slept hsub _ _ _ _ _ _ _ => cases hsub
  | fired hsub _ _ _ _ _ _ _ _ _ => cases hsub
  | amendRefused _ => exact ⟨_, rfl⟩
  | amended _ _ _ _ => exact ⟨_, rfl⟩
  | amendedStop _ _ _ _ => exact ⟨_, rfl⟩

/-- Only a success has the byte zero. -/
theorem CancelReason.raw_eq_zero {reason : CancelReason} : reason.raw = 0 ↔ reason = .none := by
  cases reason <;> decide

/-- An order that was let through and has been submitted: the orders that are gone stay in the tables, and it is there if it rests. -/
theorem Tables.submitted {gone : List Nat} {id : Nat} {result : SubmitResult} {sequence : UInt64} {trades : List Trade}
    (h : Tables L.Shows filled a) (hnew : id ∉ a.gateway.activeOrderIds)
    (hg : a₁.gateway.activeOrderIds = a.gateway.activeOrderIds ++ [id]) (hh : a₁.handles = a.handles)
    (hshows : result.restingHandle = kInvalidHandle ∧ (∀ {id h}, L'.Shows id h → L.Shows id h) ∨
      result.restingHandle.index < cfg.maxOrders ∧ L'.Shows id result.restingHandle ∧
        ∀ {id' h}, L'.Shows id' h → L.Shows id' h ∨ id' = id ∧ h = result.restingHandle)
    (hn : gone.Nodup) (hgone : ∀ id, id ∈ gone ↔ (∃ h, L.Shows id h) ∧ ∀ h, ¬L'.Shows id h) :
    Tables L'.Shows (filled ++ gone)
      ((submitEvent sequence id result :: tradeEvents sequence trades).foldl MarketDataAdapter.recordAppliedEvent a₁) := by
  have hout : id ∉ a.handles.map ActiveOrder.id := mt (h.same id).mpr hnew
  rw [List.foldl_cons, MarketDataAdapter.foldl_record_tradeEvents]
  rcases hshows with ⟨hinvalid, hback⟩ | ⟨hlt, hin, hback⟩
  · obtain ⟨h1, h2⟩ := MarketDataAdapter.record_gone (submitEvent sequence id result) rfl
      (congrArg Handle.index hinvalid) hg hh hnew hout
    exact (h.fewer (fun _ _ => hback) hn hgone).congr h1 h2 fun _ _ => Iff.rfl
  · have hindex : result.restingHandle.index ≠ kInvalidIndex := by
      have := cfg.maxOrders_lt
      have : kInvalidIndex = 2 ^ 32 - 1 := rfl
      omega
    obtain ⟨h1, h2⟩ := MarketDataAdapter.record_resting (a := a₁) (submitEvent sequence id result) rfl hindex (hh ▸ hout)
    have hfresh : ∀ h', ¬L.Shows id h' := fun h' hs => hout ((h.ids id).mpr (Or.inl ⟨h', hs⟩))
    have hkept : Tables (fun id h => L.Shows id h ∧ L'.Shows id h) (filled ++ gone) a := by
      refine h.fewer (fun _ _ h => h.1) hn fun id' => (hgone id').trans (and_congr_right fun ⟨h', hs⟩ => ?_)
      refine ⟨fun hno h hs' => hno h hs'.2, fun hno h' hs' => ?_⟩
      rcases hback hs' with hs' | ⟨rfl, -⟩
      · exact hno h' ⟨hs', by assumption⟩
      · exact hfresh _ hs
    refine hkept.add hnew (by rw [h1]; exact hg) (by rw [h2, hh]; rfl) fun id' h' => ⟨fun hs => ?_, ?_⟩
    · exact (hback hs).imp (fun hb => ⟨hb, hs⟩) fun hb => hb
    · rintro (⟨-, hs⟩ | ⟨rfl, rfl⟩)
      · exact hs
      · exact hin

/-- A cancel: the order it names is in the tables no longer. -/
theorem Tables.cancelled {event : EngineEvent} {result : CancelResult} (hw : L.Wf cfg) (h : Tables L.Shows filled a)
    (hg : a₁.gateway.activeOrderIds = a.gateway.activeOrderIds) (hh : a₁.handles = a.handles) (htype : event.type = .cancelResult)
    (hid : event.orderId = result.orderId) (hreason : event.reason = result.rejectReason.raw)
    (hshows : result.rejectReason ≠ .none ∧ L' = L ∨
      result.rejectReason = .none ∧ L.Shows result.orderId handle ∧ ∀ {id h}, L'.Shows id h ↔ L.Shows id h ∧ h ≠ handle) :
    Tables L'.Shows filled (a₁.recordAppliedEvent event) := by
  rcases hshows with ⟨hne, rfl⟩ | ⟨hnone, hshown, hback⟩
  · rw [MarketDataAdapter.record_ignored (by rw [htype]; nofun) (by rw [htype]; nofun)
      (Or.inr (by rw [hreason, ne_eq, CancelReason.raw_eq_zero]; exact hne))]
    exact h.congr hg hh fun _ _ => Iff.rfl
  · have hin : event.orderId ∈ a₁.handles.map ActiveOrder.id := by
      rw [hh, hid, h.ids]
      exact Or.inl ⟨handle, hshown⟩
    obtain ⟨h1, h2⟩ := MarketDataAdapter.record_cancelled htype (by rw [hreason, CancelReason.raw_eq_zero]; exact hnone) hin
    rw [hg, hid] at h1
    rw [hh, hid] at h2
    exact h.remove hshown (fun id' hs => hs.id_unique hw hshown) h1 h2 fun _ _ => hback

end

/-! ## Runs of messages -/

/-- The orders a message has filled: those that rested before and no longer rest after the addition of another. -/
def MarketDataMessage.filledBy (m : MarketDataMessage) (before after : List Nat) : List Nat :=
  if MarketDataMessageType.ofRaw m.type = some .addOrder then before.filter fun id => id ∉ after else []

/-- The ids of the resting orders. -/
def Ladder.restingIds (cfg : BookConfig) (L : Ladder) : List Nat := (L.line cfg .buy ++ L.line cfg .sell).map Entry.id

/-- What holds between two messages of the adapter, the engine, the ladder its book stands for, and the ids of the orders filled. -/
structure Follows (cfg : BookConfig) (L : Ladder) (filled : List Nat) (a : MarketDataAdapter) (engine : SequencedEngine) : Prop where
  repr : Rep True cfg engine.orderBook L
  held : L.held = none
  plain : L.Plain
  tables : Tables L.Shows filled a

section

variable {cfg : BookConfig} {L L' : Ladder} {filled : List Nat} {a a' : MarketDataAdapter} {engine engine' : SequencedEngine}

/-- The resting ids are those of the orders that a handle shows. -/
theorem Ladder.mem_restingIds (hw : L.Wf cfg) {id : Nat} : id ∈ L.restingIds cfg ↔ ∃ h, L.Shows id h := by
  rw [restingIds, List.mem_map]
  constructor
  · rintro ⟨e, he, rfl⟩
    rcases List.mem_append.mp he with he | he
    all_goals
      obtain ⟨i, hi⟩ := (mem_line hw).mp he
      exact ⟨_, _, i, e, hi, rfl, rfl⟩
  · rintro ⟨h, side, i, e, he, rfl, -⟩
    refine ⟨e, List.mem_append.mpr ?_, rfl⟩
    cases side with
    | buy => exact Or.inl ((mem_line hw).mpr ⟨i, he⟩)
    | sell => exact Or.inr ((mem_line hw).mpr ⟨i, he⟩)

/-- Orders whose ids are kept in tables have different ids. -/
theorem Tables.restingIds_nodup (hw : L.Wf cfg) (h : Tables L.Shows filled a) : (L.restingIds cfg).Nodup := by
  have hslots : ((L.line cfg .buy ++ L.line cfg .sell).map Entry.slot).Nodup := by
    have hsub := hw.liveSlots_nodup
    rw [Ladder.liveSlots, List.append_assoc] at hsub
    rw [List.map_append]
    exact (((Ladder.line_slots_perm L .buy).append (Ladder.line_slots_perm L .sell)).nodup_iff).mpr (List.nodup_append.mp hsub).2.1
  have hmem : ∀ e ∈ L.line cfg .buy ++ L.line cfg .sell, L.Shows e.id (L.handleAt e.slot) := fun e he => by
    rcases List.mem_append.mp he with he | he
    all_goals
      obtain ⟨i, hi⟩ := (Ladder.mem_line hw).mp he
      exact ⟨_, i, e, hi, rfl, rfl⟩
  refine List.Nodup.map_on (fun x hx y hy hxy => ?_) hslots.of_map
  have := h.handle_unique (hmem x hx) (hxy ▸ hmem y hy)
  exact List.inj_on_of_nodup_map hslots hx hy (congrArg Handle.index this)

/-- The events of a limit order that has activated no stop. -/
theorem SequencedEngine.events_submitLimit {command : SequencedCommand} {result : SubmitResult} {trades : List Trade} {book : OrderBook}
    (h : book.stopActivations = []) :
    engine.events command .submitLimit ⟨.submit result, trades⟩ book =
      submitEvent command.sequence command.payload.orderId.toNat result :: tradeEvents command.sequence trades := by
  dsimp only [SequencedEngine.events, SequencedEngine.submitEvents]
  rw [h, List.mapIdx_nil, List.append_nil, if_neg (by exact nofun)]

/-- One message. -/
theorem Follows.step (h : Follows cfg L filled a engine) {eventsSize : Nat} {m : MarketDataMessage} {result result' : ReplayResult}
    (hm : (replayMessage eventsSize m a engine result).Returns (.ok result', a', engine')) :
    ∃ L', Follows cfg L' (filled ++ m.filledBy (L.restingIds cfg) (L'.restingIds cfg)) a' engine' := by
  obtain ⟨command, a₁, events, trades, e, checked, hadapt, happly, rfl, hcheck⟩ := replayMessage_ok hm
  obtain ⟨hne, -⟩ | ⟨-, -, tag, required, htag, -, -, hperform⟩ := SequencedEngine.returns_apply happly
  · exact absurd rfl hne
  obtain ⟨out, book, hout, rfl, -, rfl⟩ := SequencedEngine.returns_perform hperform
  obtain ⟨⟨out, L'⟩, hL, rfl, hrepr, hnone⟩ := (h.repr.apply h.held _).1 _ hout
  have hwf := h.repr.wf
  have heffect := Ladder.apply_effect hwf hL
  refine ⟨L', ?_⟩
  have hdone : ∀ {l : List Nat}, L'.Plain → l = m.filledBy (L.restingIds cfg) (L'.restingIds cfg) →
      Tables L'.Shows (filled ++ l) ((engine.events command tag out book).foldl MarketDataAdapter.recordAppliedEvent a₁) →
      Follows cfg L' (filled ++ m.filledBy (L.restingIds cfg) (L'.restingIds cfg))
        ((engine.events command tag out book).foldl MarketDataAdapter.recordAppliedEvent a₁) engine' := by
    rintro _ hplain rfl htables
    exact ⟨hrepr.of_checkInvariants hcheck, hnone, hplain, htables⟩
  obtain ⟨payload, sequence, time⟩ := command
  cases MarketDataAdapter.adapt_ok hadapt with
  | add type new active handles =>
    obtain rfl : tag = .submitLimit := by
      cases htag
      rfl
    obtain ⟨result, trades, rfl⟩ := heffect.limit_reply
    obtain ⟨hplain, hshows⟩ := heffect.limit_shows hwf h.held h.plain
    have hstops : book.stopActivations = [] := hrepr.activations.trans hplain.activations
    refine hdone hplain rfl ?_
    rw [SequencedEngine.events_submitLimit hstops, MarketDataMessage.filledBy, if_pos type]
    refine h.tables.submitted new active handles hshows ((h.tables.restingIds_nodup hwf).filter _) fun id => ?_
    rw [List.mem_filter, decide_eq_true_iff, Ladder.mem_restingIds hwf, Ladder.mem_restingIds hrepr.wf, not_exists]
  | delete type active handles =>
    obtain rfl : tag = .cancel := by
      cases htag
      rfl
    obtain ⟨result, rfl⟩ := heffect.cancel_reply
    obtain ⟨hplain, hshows⟩ := heffect.cancel_shows hwf h.plain
    refine hdone (l := []) hplain (by rw [MarketDataMessage.filledBy, if_neg type]) ?_
    rw [List.append_nil]
    dsimp only [SequencedEngine.events, List.foldl_cons, List.foldl_nil]
    exact h.tables.cancelled hwf active handles rfl rfl rfl hshows
  | replace type active handles =>
    obtain rfl : tag = .amendQuantity := by
      cases htag
      rfl
    obtain ⟨result, rfl⟩ := heffect.amend_reply
    obtain ⟨hplain, hshows⟩ := heffect.amend_shows h.plain
    refine hdone (l := []) hplain (by rw [MarketDataMessage.filledBy, if_neg type]) ?_
    rw [List.append_nil]
    exact h.tables.congr active handles fun _ _ => hshows

end

end MatchingEngine

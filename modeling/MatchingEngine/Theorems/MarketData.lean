import MatchingEngine.Lemmas.Messages
import MatchingEngine.Theorems.Opening

/-!
# The tables of a feed

The adapter's handles and the gateway's active ids follow the events of the commands. A limit order that fills a resting order has no
event of its own for it, so the order's id stays in both tables: they hold the ids of the resting orders and of those filled so far.
-/

namespace MatchingEngine

open Comp

/-- The ids of the orders resting in the book. -/
def OrderBook.restingIds (b : OrderBook) : List Nat := (b.line .buy ++ b.line .sell).map fun s => (b.arena.orderAt s).id

/-- The states messages lead to that are all processed, one after the other, with the ids of the orders they have filled. -/
inductive Fed (eventsSize : Nat) (fresh : MarketDataAdapter) (engine : SequencedEngine) :
    List MarketDataMessage → List Nat → MarketDataAdapter → SequencedEngine → ReplayResult → Prop where
  | start : Fed eventsSize fresh engine [] [] fresh engine .initial
  | message {messages : List MarketDataMessage} {filled : List Nat} {m : MarketDataMessage} {a a' : MarketDataAdapter}
      {e e' : SequencedEngine} {result result' : ReplayResult} (before : Fed eventsSize fresh engine messages filled a e result)
      (processed : (replayMessage eventsSize m a e result).Returns (.ok result', a', e')) :
      Fed eventsSize fresh engine (messages ++ [m]) (filled ++ m.filledBy e.orderBook.restingIds e'.orderBook.restingIds) a' e' result'

/-- The tables hold the ids of the resting orders and of those filled, each once, and the handle of a resting order is recorded under
its id. So another id can be added, and one of these cannot. -/
structure MarketDataAdapter.InStep (a : MarketDataAdapter) (b : OrderBook) (filled : List Nat) : Prop where
  nodup : (b.restingIds ++ filled).Nodup
  active : a.gateway.activeOrderIds.Perm (b.restingIds ++ filled)
  handles : (a.handles.map ActiveOrder.id).Perm (b.restingIds ++ filled)
  resolves : ∀ x ∈ a.handles, x.id ∈ b.restingIds → x.handle.index ∈ b.line .buy ++ b.line .sell ∧
    ∃ order, b.arena.resolve x.handle = some order ∧ order.id = x.id
  counted : a.gateway.activeOrderIds.length = b.restingIds.length + filled.length
  admits : ∀ lane id price quantity, id ≠ 0 → id ∉ b.restingIds → id ∉ filled →
    a.gateway.rejectReason lane id price quantity ≠ .duplicateOrderId
  refuses : ∀ lane id price quantity, lane < a.gateway.config.maxLanes → id ∈ b.restingIds ++ filled →
    a.gateway.rejectReason lane id price quantity = .duplicateOrderId

section

variable {cfg : BookConfig} {L : Ladder} {filled : List Nat} {a : MarketDataAdapter} {engine : SequencedEngine}

theorem Rep.restingIds {gh : Prop} {b : OrderBook} (h : Rep gh cfg b L) : b.restingIds = L.restingIds cfg := by
  rw [OrderBook.restingIds, Ladder.restingIds, h.line, h.line, ← List.map_append, List.map_map]
  refine List.map_congr_left fun e he => ?_
  rcases List.mem_append.mp he with he | he
  all_goals
    obtain ⟨i, hi⟩ := (Ladder.mem_line h.wf).mp he
    exact (h.entries _ i e hi).id

/-- An order that is shown: its handle resolves to it. -/
theorem Rep.resolve_shown {gh : Prop} {b : OrderBook} (h : Rep gh cfg b L) {id : Nat} {handle : Handle} (hs : L.Shows id handle) :
    handle.index ∈ b.line .buy ++ b.line .sell ∧ ∃ order, b.arena.resolve handle = some order ∧ order.id = id := by
  obtain ⟨side, i, e, he, rfl, rfl⟩ := hs
  obtain ⟨hlt, hp⟩ := h.wf.place_of_mem he
  have hlive : b.arena.isLiveHandle (L.handleAt e.slot) = true :=
    (h.isLiveHandle _).mpr ⟨⟨hlt, rfl⟩, fun hfree => by cases hp.symm.trans hfree⟩
  refine ⟨List.mem_append.mpr ?_, _, if_pos hlive, (h.entries side i e he).id⟩
  have hmem : e.slot ∈ b.line side := by
    rw [h.line]
    exact List.mem_map_of_mem ((Ladder.mem_line h.wf).mpr ⟨i, he⟩)
  cases side with
  | buy => exact Or.inl hmem
  | sell => exact Or.inr hmem

theorem Follows.inStep (h : Follows cfg L filled a engine) : a.InStep engine.orderBook filled := by
  have hids : engine.orderBook.restingIds = L.restingIds cfg := h.repr.restingIds
  have hshown : ∀ id, id ∈ engine.orderBook.restingIds ↔ ∃ handle, L.Shows id handle := fun id => by
    rw [hids]
    exact Ladder.mem_restingIds h.repr.wf
  have ht := h.tables
  have hnodup : (engine.orderBook.restingIds ++ filled).Nodup := by
    refine List.nodup_append.mpr ⟨hids ▸ ht.restingIds_nodup h.repr.wf, ht.filled_nodup, fun x hx y hy hxy => ?_⟩
    obtain ⟨handle, hs⟩ := (hshown x).mp hx
    exact ht.apart y hy handle (hxy ▸ hs)
  have hhandles : ∀ id, id ∈ a.handles.map ActiveOrder.id ↔ id ∈ engine.orderBook.restingIds ++ filled := fun id => by
    rw [ht.ids, List.mem_append, hshown]
  have hactive : ∀ id, id ∈ a.gateway.activeOrderIds ↔ id ∈ engine.orderBook.restingIds ++ filled := fun id =>
    (ht.same id).trans (hhandles id)
  have hperm := (List.perm_ext_iff_of_nodup ht.active_nodup hnodup).mpr hactive
  refine
    { nodup := hnodup
      active := hperm
      handles := (List.perm_ext_iff_of_nodup ht.handles_nodup hnodup).mpr hhandles
      resolves := fun x hx hid => ?_
      counted := by rw [hperm.length_eq, List.length_append]
      admits := fun lane id price quantity hne hrest hfilled => ?_
      refuses := fun lane id price quantity hlane hin => ?_ }
  · obtain ⟨handle, hs⟩ := (hshown x.id).mp hid
    have hsame : x = ⟨x.id, handle⟩ := List.inj_on_of_nodup_map ht.handles_nodup hx (ht.recorded _ _ hs) rfl
    rw [hsame]
    exact h.repr.resolve_shown hs
  · have hout : id ∉ a.gateway.activeOrderIds := fun hin => (List.mem_append.mp ((hactive id).mp hin)).elim hrest hfilled
    unfold GatewayValidator.rejectReason
    rw [if_neg hne, if_neg hout]
    repeat' split
    all_goals nofun
  · unfold GatewayValidator.rejectReason
    rw [if_neg (Nat.not_le.mpr hlane), if_pos ((hactive id).mpr hin), ite_self]

/-- A fresh adapter and an empty book. -/
theorem Follows.start {g : GatewayConfig} {nextSequence lastLogicalTime : UInt64} {state : TradingState}
    (h : SequencedEngine.create cfg nextSequence lastLogicalTime state = some engine) :
    Follows cfg (Ladder.create cfg state) [] (MarketDataAdapter.create (GatewayValidator.create g)) engine := by
  unfold SequencedEngine.create at h
  split at h
  · cases h
  · obtain ⟨book, hbook, rfl⟩ := Option.map_eq_some_iff.mp h
    have hnone : ∀ id handle, ¬(Ladder.create cfg state).Shows id handle := by
      rintro id handle ⟨side, i, e, he, -⟩
      cases he
    refine ⟨repr_create hbook, rfl, ⟨rfl, rfl⟩, ⟨List.nodup_nil, List.nodup_nil, fun id => Iff.rfl, fun id => ⟨nofun, ?_⟩, List.nodup_nil,
      nofun, fun id handle hs => absurd hs (hnone id handle)⟩⟩
    rintro (⟨handle, hs⟩ | hf)
    · exact absurd hs (hnone id handle)
    · cases hf

/-- Every state a feed leads to from a fresh adapter and an empty book. -/
theorem Fed.follows {eventsSize : Nat} {fresh : MarketDataAdapter} {start : SequencedEngine} {messages : List MarketDataMessage}
    {result : ReplayResult} (h : Fed eventsSize fresh start messages filled a engine result)
    (hstart : ∃ L, Follows cfg L [] fresh start) : ∃ L, Follows cfg L filled a engine := by
  induction h with
  | start => exact hstart
  | message _ processed ih =>
    obtain ⟨L, h⟩ := ih
    obtain ⟨L', h'⟩ := h.step processed
    rw [h.repr.restingIds, h'.repr.restingIds]
    exact ⟨L', h'⟩

/-- What the loop of a replay leads to when it succeeds. -/
theorem Fed.replay {eventsSize : Nat} {fresh a' : MarketDataAdapter} {start engine' : SequencedEngine} {messages : List MarketDataMessage}
    {input : List (Except MarketDataInputError MarketDataMessage)} {result result' : ReplayResult}
    (h : Fed eventsSize fresh start messages filled a engine result)
    (hr : (replayMessages eventsSize input a engine result).Returns (.ok result', a', engine')) :
    ∃ read filled', input = read.map .ok ∧ Fed eventsSize fresh start (messages ++ read) filled' a' engine' result' := by
  induction input generalizing messages filled a engine result with
  | nil =>
    rw [replayMessages, returns_pure, Prod.mk.injEq, Prod.mk.injEq, Except.ok.injEq] at hr
    obtain ⟨rfl, rfl, rfl⟩ := hr
    exact ⟨[], filled, rfl, by rwa [List.append_nil]⟩
  | cons item input ih =>
    cases item with
    | error error =>
      rw [replayMessages, returns_pure] at hr
      cases (Prod.mk.injEq _ _ _ _ ▸ hr).1
    | ok m =>
      rw [replayMessages, returns_bind] at hr
      obtain ⟨⟨outcome, a₁, e₁⟩, hstep, hr⟩ := hr
      cases outcome with
      | error error =>
        rw [returns_pure] at hr
        cases (Prod.mk.injEq _ _ _ _ ▸ hr).1
      | ok result₁ =>
        obtain ⟨read, filled', rfl, hfed⟩ := ih (h.message hstep) hr
        exact ⟨m :: read, filled', rfl, by rwa [List.append_assoc] at hfed⟩

end

/-- After every message processed from a fresh adapter and an empty book the adapter's handles and the gateway's active ids are in step
with the book, but for the orders filled by later ones; and a replay that succeeds leads to such a state. -/
theorem market_data_tables {cfg : BookConfig} {nextSequence lastLogicalTime : UInt64} {state : TradingState} {engine : SequencedEngine}
    (created : SequencedEngine.create cfg nextSequence lastLogicalTime state = some engine) (gateway : GatewayConfig) (eventsSize : Nat) :
    (∀ messages filled adapter engine' result,
      Fed eventsSize (MarketDataAdapter.create (GatewayValidator.create gateway)) engine messages filled adapter engine' result →
      adapter.InStep engine'.orderBook filled) ∧
    ∀ input result adapter engine',
      (replayMarketData input (MarketDataAdapter.create (GatewayValidator.create gateway)) engine eventsSize).Returns
        (.ok result, adapter, engine') →
      ∃ messages filled, input = messages.map .ok ∧
        Fed eventsSize (MarketDataAdapter.create (GatewayValidator.create gateway)) engine messages filled adapter engine' result := by
  refine ⟨fun messages filled adapter engine' result hfed => ?_, fun input result adapter engine' hr => ?_⟩
  · obtain ⟨L, hL⟩ := hfed.follows ⟨_, .start created⟩
    exact hL.inStep
  · unfold replayMarketData at hr
    split at hr
    · rw [returns_pure] at hr
      cases (Prod.mk.injEq _ _ _ _ ▸ hr).1
    · exact Fed.start.replay hr

/-! ## A feed that fills an order -/

/-- An ask of the id 1, and a bid of the id 2 that fills it. -/
def fillingFeed : List MarketDataMessage := [⟨1, 1, 0, 101, 2, 0, 0, 1, 1⟩, ⟨2, 2, 0, 101, 2, 0, 0, 1, 0⟩]

/-- The same, and an ask of the id 1 again. -/
def repeatingFeed : List MarketDataMessage := fillingFeed ++ [⟨3, 1, 0, 101, 2, 0, 0, 1, 1⟩]

theorem fillingFeed_run : ∃ engine result adapter engine',
    SequencedEngine.create (BookConfig.small 4 (by decide) .none) 1 0 .continuous = some engine ∧
    (replayMarketData (fillingFeed.map .ok) (MarketDataAdapter.create (GatewayValidator.create .small)) engine 9).Returns
      (.ok result, adapter, engine') ∧
    engine'.orderBook.restingIds = [] ∧ adapter.gateway.activeOrderIds = [1] ∧ adapter.handles.map ActiveOrder.id = [1] := by
  have hsome : ((SequencedEngine.create (BookConfig.small 4 (by decide) .none) 1 0 .continuous).bind fun engine =>
      ((replayMarketData (fillingFeed.map .ok) (MarketDataAdapter.create (GatewayValidator.create .small)) engine 9).run 20).map fun r =>
        (engine, r)).any (fun r => r.2.1.isOk ∧ r.2.2.2.orderBook.restingIds = [] ∧ r.2.2.1.gateway.activeOrderIds = [1] ∧
          r.2.2.1.handles.map ActiveOrder.id = [1]) = true := by decide +kernel
  rw [Option.any_eq_true] at hsome
  obtain ⟨⟨engine, outcome, adapter, engine'⟩, hrun, hstate⟩ := hsome
  obtain ⟨e, hcreate, hrun⟩ := Option.bind_eq_some_iff.mp hrun
  obtain ⟨r, hr, hpair⟩ := Option.map_eq_some_iff.mp hrun
  obtain ⟨rfl, rfl⟩ := Prod.mk.inj hpair
  obtain ⟨hok, hrest⟩ := of_decide_eq_true hstate
  cases outcome with
  | error _ => cases hok
  | ok result => exact ⟨e, result, adapter, engine', hcreate, ⟨20, hr⟩, hrest⟩

/-- Both tables keep the id of the order that was filled. -/
theorem market_data_tables_filled : ∃ engine messages filled adapter engine' result,
    SequencedEngine.create (BookConfig.small 4 (by decide) .none) 1 0 .continuous = some engine ∧
    Fed 9 (MarketDataAdapter.create (GatewayValidator.create .small)) engine messages filled adapter engine' result ∧
    adapter.InStep engine'.orderBook filled ∧ engine'.orderBook.restingIds = [] ∧ filled = [1] := by
  obtain ⟨engine, result, adapter, engine', hcreate, hr, hrest, hactive, -⟩ := fillingFeed_run
  obtain ⟨hsteps, hreplay⟩ := market_data_tables hcreate .small 9
  obtain ⟨messages, filled, -, hfed⟩ := hreplay _ _ _ _ hr
  have hstep := hsteps _ _ _ _ _ hfed
  refine ⟨engine, messages, filled, adapter, engine', result, hcreate, hfed, hstep, hrest, ?_⟩
  have hperm := hstep.active
  rw [hrest, hactive, List.nil_append] at hperm
  exact List.perm_singleton.mp hperm.symm

/-- The ask of the id 1 was filled and no order rests, but the id is in both tables and cannot be added again. -/
theorem market_data_keeps_filled : ∃ engine,
    SequencedEngine.create (BookConfig.small 4 (by decide) .none) 1 0 .continuous = some engine ∧
    (∃ result adapter engine',
      (replayMarketData (fillingFeed.map .ok) (MarketDataAdapter.create (GatewayValidator.create .small)) engine 9).Returns
        (.ok result, adapter, engine') ∧
      engine'.orderBook.restingIds = [] ∧ adapter.gateway.activeOrderIds = [1] ∧ adapter.handles.map ActiveOrder.id = [1]) ∧
    ∃ adapter engine',
      (replayMarketData (repeatingFeed.map .ok)
        (MarketDataAdapter.create (GatewayValidator.create .small)) engine 9).Returns (.error .adapter, adapter, engine') ∧
      engine'.orderBook.restingIds = [] ∧ adapter.lastGatewayRejectReason = .duplicateOrderId := by
  obtain ⟨engine, result, adapter, engine', hcreate, hrun⟩ := fillingFeed_run
  have hsome : (SequencedEngine.create (BookConfig.small 4 (by decide) .none) 1 0 .continuous).any (fun engine =>
      ((replayMarketData (repeatingFeed.map .ok)
        (MarketDataAdapter.create (GatewayValidator.create .small)) engine 9).run 20).any fun r =>
        decide (r.1 = .error .adapter ∧ r.2.2.orderBook.restingIds = [] ∧ r.2.1.lastGatewayRejectReason = .duplicateOrderId)) = true := by
    decide +kernel
  rw [hcreate, Option.any_some, Option.any_eq_true] at hsome
  obtain ⟨⟨outcome, a', e'⟩, hr, hstate⟩ := hsome
  obtain ⟨rfl, hrest⟩ := of_decide_eq_true hstate
  exact ⟨engine, hcreate, ⟨result, adapter, engine', hrun⟩, a', e', ⟨20, hr⟩, hrest⟩

end MatchingEngine

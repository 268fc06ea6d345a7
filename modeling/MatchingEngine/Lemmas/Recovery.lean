import MatchingEngine.Lemmas.Engine
import MatchingEngine.Lemmas.Population
import MatchingEngine.Lemmas.Replay

/-!
# The live engine and its replay

A live engine applies commands one after the other (`Applies`). An engine in the same state, but for the visit marks of its book,
answers each command the same, its events can be encoded, the span of events suffices, and its book passes the check: the replay of the
commands follows the live engine.
-/

namespace MatchingEngine

/-- The engine with other visit marks in its book. -/
def SequencedEngine.withMarks (marks : Nat → Nat) (epoch : Nat) (engine : SequencedEngine) : SequencedEngine :=
  { engine with orderBook := engine.orderBook.withMarks marks epoch }

/-- An engine in the state of another one, but for the visit marks of its book, which its own checks have left. -/
def SequencedEngine.SameState (engine engine' : SequencedEngine) : Prop :=
  ∃ marks epoch, (∀ s, s < engine'.orderBook.cfg.maxOrders → marks s ≤ epoch) ∧ engine = engine'.withMarks marks epoch

/-- A live engine applies commands one after the other, each within its trade buffer: the events of each, and the engine after all. -/
inductive Applies (eventsSize : Nat) : SequencedEngine → List SequencedCommand → List (List EngineEvent) → SequencedEngine → Prop where
  | nil {engine : SequencedEngine} : Applies eventsSize engine [] [] engine
  | cons {engine engine' engine'' : SequencedEngine} {command : SequencedCommand} {commands : List SequencedCommand}
      {events : List EngineEvent} {eventss : List (List EngineEvent)} {trades : List Trade}
      (applied : (engine.apply command eventsSize).Returns (.applied, events, trades, engine')) (fits : trades.length ≤ engine.tradeCapacity)
      (rest : Applies eventsSize engine' commands eventss engine'') :
      Applies eventsSize engine (command :: commands) (events :: eventss) engine''

/-- An engine whose book is reachable, with a place in its trade buffer for each order. -/
structure SequencedEngine.Reached (cfg : BookConfig) (state : TradingState) (engine : SequencedEngine) : Prop where
  run : ∃ calls, OrderBook.Run cfg state calls engine.orderBook
  buffer : engine.tradeCapacity = cfg.maxOrders

/-- The dormant stops of a book are at most its orders, and fewer while there is room for another order. -/
theorem Rep.dormantStopCount_le {gh : Prop} {cfg : BookConfig} {b : OrderBook} {L : Ladder} (h : Rep gh cfg b L) (hnone : L.held = none) :
    b.dormantStopCount ≤ cfg.maxOrders ∧ (b.arena.size ≠ b.arena.capacity → b.dormantStopCount < cfg.maxOrders) := by
  have hperm := (h.wf.liveSlots_perm hnone).length_eq
  have hsize := h.arena.size
  have hcapacity := h.arena.capacity
  rw [List.length_append, List.length_range, Ladder.liveSlots, List.length_append, List.length_append, List.length_map] at hperm
  rw [h.stopCount]
  omega

namespace SequencedEngine

variable {engine engine' : SequencedEngine} {command : SequencedCommand} {eventsSize eventsSize' : Nat} {events : List EngineEvent}
  {trades : List Trade} {marks : Nat → Nat} {epoch : Nat} {cfg : BookConfig} {state : TradingState}

/-! ## Other marks -/

theorem requiredEventCapacity_withMarks (payload : CommandPayload) (tag : CommandType) :
    (engine.withMarks marks epoch).requiredEventCapacity payload tag = engine.requiredEventCapacity payload tag := by
  cases tag <;> rfl

theorem events_withMarks (command : SequencedCommand) (tag : CommandType) (outcome : Outcome) (after : OrderBook) :
    (engine.withMarks marks epoch).events command tag outcome (after.withMarks marks epoch) = engine.events command tag outcome after := by
  unfold events
  cases outcome.reply <;> rfl

theorem perform_withMarks (command : SequencedCommand) (tag : CommandType) :
    (engine.withMarks marks epoch).perform command tag =
      Prod.map id (Prod.map id (withMarks marks epoch)) <$> engine.perform command tag := by
  unfold perform
  have hbook : (engine.withMarks marks epoch).orderBook = engine.orderBook.withMarks marks epoch := rfl
  rw [hbook, OrderBook.apply_withMarks, bind_map_left, map_bind]
  refine bind_congr fun r => ?_
  rw [map_pure]
  exact congrArg (fun events => pure (events, r.1.trades, _)) (events_withMarks command tag r.1 r.2)

/-- A command that is applied with one span of events is applied, with the same result, by an engine in the same state with any span
that suffices. -/
theorem apply_withMarks (h : (engine.apply command eventsSize).Returns (.applied, events, trades, engine'))
    (hsize : ∀ tag required, (engine.requiredEventCapacity command.payload tag).Returns required → required ≤ eventsSize') :
    ((engine.withMarks marks epoch).apply command eventsSize').Returns (.applied, events, trades, engine'.withMarks marks epoch) := by
  obtain ⟨hne, -⟩ | ⟨-, hok, tag, required, htag, hrequired, -, hperform⟩ := returns_apply h
  · exact absurd rfl hne
  · have hstatus : (engine.withMarks marks epoch).commandStatus command = .applied := hok
    unfold apply
    rw [if_neg (not_not.mpr hstatus), htag]
    simp only [Comp.returns_bind, requiredEventCapacity_withMarks]
    refine ⟨required, hrequired, ?_⟩
    rw [if_neg (Nat.not_lt.mpr (hsize tag required hrequired)), Comp.returns_bind]
    refine ⟨(events, trades, engine'.withMarks marks epoch), ?_, ?_⟩
    · rw [perform_withMarks, map_eq_pure_bind, Comp.returns_bind]
      exact ⟨_, hperform, (Comp.returns_pure _ _).mpr rfl⟩
    · exact (Comp.returns_pure _ _).mpr rfl

/-! ## Spans of events -/

/-- A reachable engine represents a ladder. -/
theorem Reached.ladder (h : engine.Reached cfg state) : ∃ L, Rep True cfg engine.orderBook L ∧ L.held = none := by
  obtain ⟨calls, hrun⟩ := h.run
  obtain ⟨L, -, hrepr, hnone⟩ := hrun.ladder
  exact ⟨L, hrepr, hnone⟩

/-- A reachable engine of a price-time book represents a ladder without violations. -/
theorem Reached.repr (h : engine.Reached cfg state) (hfifo : cfg.allocationMode = .fifo) :
    ∃ L, Rep True cfg engine.orderBook L ∧ L.held = none ∧ (∀ side i, L.total side i < 2 ^ 64) ∧
      (L.tradingState = .continuous → L.Uncrossed) := by
  obtain ⟨calls, hrun⟩ := h.run
  obtain ⟨L, hladder, hrepr, hnone⟩ := hrun.ladder
  exact ⟨L, hrepr, hnone, (hladder.bounded hfifo).total_lt hrepr.wf, hladder.uncrossed hfifo⟩

/-- A new engine is reachable. -/
theorem reached_create {nextSequence time : UInt64} (h : create cfg nextSequence time state = some engine) :
    engine.Reached cfg state ∧ engine.nextSequence = nextSequence ∧ engine.lastLogicalTime = time ∧ engine.sequenceExhausted = false := by
  unfold create at h
  split at h
  · cases h
  · obtain ⟨book, hbook, rfl⟩ := Option.map_eq_some_iff.mp h
    exact ⟨⟨⟨_, .create hbook⟩, rfl⟩, rfl, rfl, rfl⟩

theorem Reached.apply (h : engine.Reached cfg state) (ha : (engine.apply command eventsSize).Returns (.applied, events, trades, engine')) :
    engine'.Reached cfg state ∧ engine'.tradeCapacity = engine.tradeCapacity := by
  obtain ⟨hne, -⟩ | ⟨-, -, tag, required, -, -, -, hperform⟩ := returns_apply ha
  · exact absurd rfl hne
  · obtain ⟨outcome, book, hbook, -, -, rfl⟩ := returns_perform hperform
    obtain ⟨calls, hrun⟩ := h.run
    exact ⟨⟨⟨_, .apply hrun hbook⟩, h.buffer⟩, rfl⟩

/-- A reachable engine needs no more events for a command than `maximum_event_capacity`. -/
theorem Reached.required_le (h : engine.Reached cfg state) {payload : CommandPayload} {tag : CommandType} {required : Nat}
    (hr : (engine.requiredEventCapacity payload tag).Returns required) : required ≤ engine.maximumEventCapacity := by
  obtain ⟨L, hrepr, hnone⟩ := h.ladder
  obtain ⟨hle, hlt⟩ := hrepr.dormantStopCount_le hnone
  have hbuffer := h.buffer
  have hstop : ∀ limit, (engine.orderBook.preflightStop payload.side limit payload.quantity.toNat).isOk = true →
      engine.orderBook.dormantStopCount < cfg.maxOrders := by
    intro limit hok
    refine hlt fun hfull => ?_
    unfold OrderBook.preflightStop at hok
    repeat' split at hok
    all_goals cases hok
  unfold requiredEventCapacity at hr
  unfold maximumEventCapacity
  cases tag <;> simp only [Comp.returns_bind, Comp.returns_pure, matchingCapacity] at hr
  case submitLimit =>
    obtain ⟨checked, -, hr⟩ := hr
    split at hr <;> omega
  case submitIceberg =>
    obtain ⟨checked, -, hr⟩ := hr
    split at hr <;> omega
  case submitStop =>
    split at hr
    · have := hstop none ‹_›
      omega
    · omega
  case submitStopLimit =>
    split at hr
    · have := hstop (some payload.priceTicks.toInt) ‹_›
      omega
    · omega
  all_goals
    first | (split at hr <;> omega) | omega

/-! ## Fingerprints -/

/-- Every event of a command can be encoded. -/
theorem reserved_of_mem_events {tag : CommandType} {outcome : Outcome} {after : OrderBook} {event : EngineEvent}
    (h : event ∈ engine.events command tag outcome after) : event.reserved = 0 := by
  have htrades : ∀ trades, ∀ event ∈ tradeEvents command.sequence trades, event.reserved = 0 := by
    intro trades event hevent
    obtain ⟨index, hindex, rfl⟩ := List.mem_mapIdx.mp hevent
    rfl
  unfold events at h
  split at h
  · rcases List.mem_cons.mp h with rfl | h
    · rfl
    rcases List.mem_append.mp h with h | h
    · exact htrades _ _ h
    · obtain ⟨index, hindex, rfl⟩ := List.mem_mapIdx.mp h
      rfl
  · rw [List.mem_singleton.mp h]
  · rw [List.mem_singleton.mp h]
  · rcases List.mem_cons.mp h with rfl | h
    · rfl
    · exact htrades _ _ h

end SequencedEngine

theorem ReplayFingerprint.addAll_append (f : ReplayFingerprint) (events events' : List EngineEvent) :
    f.addAll (events ++ events') = (f.addAll events).bind fun f => f.addAll events' := List.foldlM_append

/-- Events that can be encoded have a fingerprint. -/
theorem ReplayFingerprint.exists_addAll {events : List EngineEvent} (h : ∀ event ∈ events, event.reserved = 0) (f : ReplayFingerprint) :
    ∃ f', f.addAll events = some f' := by
  induction events generalizing f with
  | nil => exact ⟨f, rfl⟩
  | cons event events ih =>
    have hadd : (f.add event).1 = .none := by
      unfold add encodeEngineEvent
      rw [if_neg (not_not.mpr (h event List.mem_cons_self))]
      rfl
    obtain ⟨f', hf'⟩ := ih (fun e he => h e (List.mem_cons_of_mem _ he)) (f.add event).2
    refine ⟨f', ?_⟩
    unfold addAll at hf' ⊢
    rw [List.foldlM_cons, if_pos hadd]
    exact hf'

/-! ## The replay follows the live engine -/

section

variable {live live' : SequencedEngine} {commands : List SequencedCommand} {eventss : List (List EngineEvent)} {size eventsSize : Nat}
  {cfg : BookConfig} {state : TradingState} {marks : Nat → Nat} {epoch : Nat}

/-- The result of a replay after commands with these events, if they can be encoded. -/
def ReplayResult.after (result : ReplayResult) (commands : List SequencedCommand) (fingerprint : ReplayFingerprint) : ReplayResult :=
  { commands.foldl (fun result command => result.count command.sequence) result with fingerprint }

/-- The counts of a result do not depend on its fingerprint. -/
theorem ReplayResult.after_setFingerprint (result : ReplayResult) (f f' : ReplayFingerprint) (commands : List SequencedCommand) :
    ({ result with fingerprint := f } : ReplayResult).after commands f' = result.after commands f' := by
  unfold after
  induction commands generalizing result f with
  | nil => rfl
  | cons c cs ih =>
    rw [List.foldl_cons, List.foldl_cons]
    exact ih (result.count c.sequence) f

/-- The replay of one command that a live engine has applied. -/
theorem replayCommand_follows {command : SequencedCommand} {events : List EngineEvent} {trades : List Trade}
    (hreached : live.Reached cfg state) (hfifo : cfg.allocationMode = .fifo)
    (h : (live.apply command size).Returns (.applied, events, trades, live')) (hsize : live.maximumEventCapacity ≤ eventsSize)
    (hmarks : ∀ s, s < cfg.maxOrders → marks s ≤ epoch) (result : ReplayResult) :
    ∃ fingerprint marks' epoch', result.fingerprint.addAll events = some fingerprint ∧ (∀ s, s < cfg.maxOrders → marks' s ≤ epoch') ∧
      (replayCommand eventsSize command (live.withMarks marks epoch) result).Returns
        (.ok { result.count command.sequence with fingerprint }, live'.withMarks marks' epoch') := by
  have hreserved : ∀ event ∈ events, event.reserved = 0 := by
    obtain ⟨hne, -⟩ | ⟨-, -, tag, required, -, -, -, hperform⟩ := SequencedEngine.returns_apply h
    · exact absurd rfl hne
    · obtain ⟨outcome, book, -, rfl, -, -⟩ := SequencedEngine.returns_perform hperform
      exact fun event => SequencedEngine.reserved_of_mem_events
  obtain ⟨fingerprint, hfingerprint⟩ := ReplayFingerprint.exists_addAll hreserved result.fingerprint
  obtain ⟨L, hrepr, hnone, htotal, huncrossed⟩ := (hreached.apply h).1.repr hfifo
  have hrepr' : Rep True cfg (live'.orderBook.withMarks marks epoch) L := hrepr.setMarks hmarks
  obtain ⟨book, hcheck, hbook⟩ := hrepr'.checkInvariants hnone htotal huncrossed
  obtain ⟨marks', epoch', rfl⟩ := OrderBook.checkInvariants_marks hcheck
  refine ⟨fingerprint, marks', epoch', hfingerprint, hbook.marks, ?_⟩
  have happly : ((live.withMarks marks epoch).apply command eventsSize).Returns
      (.applied, events, trades, live'.withMarks marks epoch) :=
    SequencedEngine.apply_withMarks h fun tag required hr => Nat.le_trans (hreached.required_le hr) hsize
  have hsequence : command.sequence = (live.withMarks marks epoch).nextSequence := (SequencedEngine.applied_sequence h).1
  unfold replayCommand
  rw [if_neg (not_not.mpr hsequence), Comp.returns_bind]
  refine ⟨_, happly, ?_⟩
  have hcount : (result.count command.sequence).fingerprint.addAll events = some fingerprint := hfingerprint
  simp only [ne_eq, not_true_eq_false, if_false, hcount, Comp.returns_bind]
  refine ⟨_, hcheck, ?_⟩
  simp only [invariantHolds, not_true_eq_false, if_false, Comp.returns_pure]
  rfl

/-- The replay of the commands that a live engine has applied. -/
theorem Applies.replay (h : Applies size live commands eventss live') (hreached : live.Reached cfg state)
    (hfifo : cfg.allocationMode = .fifo) (hsize : live.maximumEventCapacity ≤ eventsSize)
    (hmarks : ∀ s, s < cfg.maxOrders → marks s ≤ epoch) (result : ReplayResult) :
    ∃ fingerprint marks' epoch', result.fingerprint.addAll eventss.flatten = some fingerprint ∧
      (∀ s, s < cfg.maxOrders → marks' s ≤ epoch') ∧
      (replayCommands eventsSize commands (live.withMarks marks epoch) result).Returns
        (.ok (result.after commands fingerprint), live'.withMarks marks' epoch') := by
  induction h generalizing marks epoch result with
  | nil => exact ⟨result.fingerprint, marks, epoch, rfl, hmarks, (Comp.returns_pure _ _).mpr rfl⟩
  | cons applied fits rest ih =>
    obtain ⟨hreached', hcapacity⟩ := hreached.apply applied
    obtain ⟨f, marks', epoch', hf, hmarks', hstep⟩ := replayCommand_follows hreached hfifo applied hsize hmarks result
    obtain ⟨f', marks'', epoch'', hf', hmarks'', hrest⟩ := ih hreached'
      (by rw [SequencedEngine.maximumEventCapacity, hcapacity]; exact hsize) hmarks' { result.count _ with fingerprint := f }
    refine ⟨f', marks'', epoch'', ?_, hmarks'', ?_⟩
    · rw [List.flatten_cons, ReplayFingerprint.addAll_append, hf]
      exact hf'
    · rw [replayCommands, Comp.returns_bind]
      refine ⟨_, hstep, ?_⟩
      rw [ReplayResult.after_setFingerprint] at hrest
      exact hrest

/-- The counts of a result after a list of commands that is not too long. -/
theorem ReplayResult.after_initial {commands : List SequencedCommand} (h : commands.length < 2 ^ 64) (f : ReplayFingerprint) :
    ReplayResult.initial.after commands f =
      ⟨UInt64.ofNat commands.length, (commands.head?.map SequencedCommand.sequence).getD 0,
        (commands.getLast?.map SequencedCommand.sequence).getD 0, f⟩ := by
  induction commands using List.reverseRecOn with
  | nil => rfl
  | append_singleton cs c ih =>
    rw [List.length_append, List.length_singleton] at h
    have hcounts := ih (by omega)
    simp only [after, ReplayResult.mk.injEq] at hcounts ⊢
    obtain ⟨happlied, hfirst, hlast, -⟩ := hcounts
    rw [List.foldl_append, List.foldl_cons, List.foldl_nil, count]
    simp only
    rw [happlied, hfirst, List.getLast?_concat, List.length_append, List.length_singleton]
    refine ⟨?_, ?_, rfl, trivial⟩
    · rw [UInt64.ofNat_add]
      rfl
    · cases cs with
      | nil => rfl
      | cons d ds =>
        rw [if_neg]
        · rfl
        · intro hzero
          have := congrArg UInt64.toNat hzero
          rw [UInt64.toNat_ofNat_of_lt' (Nat.lt_of_succ_lt h)] at this
          exact Nat.succ_ne_zero _ this

/-- The engine after the first commands, and the rest of the run. -/
theorem Applies.split (h : Applies size live commands eventss live') (k : Nat) :
    ∃ middle, Applies size live (commands.take k) (eventss.take k) middle ∧ Applies size middle (commands.drop k) (eventss.drop k) live' := by
  induction h generalizing k with
  | nil => exact ⟨_, by rw [List.take_nil, List.take_nil]; exact .nil, by rw [List.drop_nil, List.drop_nil]; exact .nil⟩
  | cons applied fits rest ih =>
    cases k with
    | zero => exact ⟨_, .nil, .cons applied fits rest⟩
    | succ k =>
      obtain ⟨middle, hfirst, hrest⟩ := ih k
      exact ⟨middle, .cons applied fits hfirst, hrest⟩

/-- What a run of commands does to the numbers of the engine, and that its engines stay reachable. -/
theorem Applies.numbers (h : Applies size live commands eventss live') (hreached : live.Reached cfg state)
    (hexhausted : live.sequenceExhausted = false) (hbelow : ∀ c ∈ commands, c.sequence ≠ uint64Max) :
    live'.Reached cfg state ∧ live'.tradeCapacity = live.tradeCapacity ∧ live'.sequenceExhausted = false ∧
      live'.nextSequence = live.nextSequence + UInt64.ofNat commands.length ∧
      live'.lastLogicalTime = (commands.getLast?.map SequencedCommand.logicalTime).getD live.lastLogicalTime := by
  induction h with
  | nil => exact ⟨hreached, rfl, hexhausted, (UInt64.add_zero _).symm, rfl⟩
  | cons applied fits rest ih =>
    obtain ⟨hreached', hcapacity⟩ := hreached.apply applied
    have hne := hbelow _ List.mem_cons_self
    obtain ⟨hne', -⟩ | ⟨-, hok, tag, required, -, -, -, hperform⟩ := SequencedEngine.returns_apply applied
    · exact absurd rfl hne'
    obtain ⟨outcome, book, -, -, -, rfl⟩ := SequencedEngine.returns_perform hperform
    rw [(SequencedEngine.commandStatus_eq_applied hok).2.2.1] at hne
    have hafter : ∀ next : UInt64, next ≠ uint64Max → afterSequence next = (next + 1, false) := fun next hnext => if_neg hnext
    obtain ⟨h1, h2, h3, h4, h5⟩ := ih hreached' (by rw [hafter _ hne]) fun c hc => hbelow c (List.mem_cons_of_mem _ hc)
    refine ⟨h1, h2, h3, ?_, ?_⟩
    · rw [h4, hafter _ hne, List.length_cons, UInt64.ofNat_add, UInt64.add_assoc, UInt64.add_comm (UInt64.ofNat _) (UInt64.ofNat 1)]
      rfl
    · rw [h5]
      rename_i cs _ _ _
      cases cs with
      | nil => rfl
      | cons d ds =>
        rw [List.getLast?_cons_cons, List.getLast?_eq_some_getLast (List.cons_ne_nil d ds)]
        rfl

end

end MatchingEngine

import MatchingEngine.Theorems.Bbo
import MatchingEngine.Theorems.Pipeline

/-!
# What a stage shows of its book

The snapshot of a matching stage is written by the calls that make progress, and by nothing else: between calls it shows the best prices
of the book from the first of them on. Before it the snapshot is empty, also where the engine came with orders at rest.
-/

namespace MatchingEngine

open Seqlock

namespace BboSnapshot

/-! ## The snapshot between calls -/

/-- What a snapshot shows between calls. -/
structure Shows (snapshot : BboSnapshot) (state : BboState) : Prop where
  even : snapshot.version &&& 1 = 0
  shows : read.eval snapshot.registers = state

/-- A reader that is not disturbed reads what is shown. -/
theorem Shows.readNow {snapshot : BboSnapshot} {state : BboState} (h : snapshot.Shows state) {attempts : Nat} (pos : 0 < attempts) :
    snapshot.readNow attempts = some state := by
  obtain ⟨attempts, rfl⟩ := Nat.exists_eq_succ_of_ne_zero pos.ne'
  rw [BboSnapshot.readNow, if_neg (fun odd => odd h.even), if_pos rfl, h.shows]

/-- A new snapshot shows the empty state. -/
theorem shows_new : Shows {} .empty := ⟨rfl, rfl⟩

/-- An even sequence plus two is even. -/
theorem and_one_add_two {v : UInt64} (h : v &&& 1 = 0) : (v + 1 + 1) &&& 1 = 0 := by
  rw [← UInt64.ofNat_toNat (x := v)] at h
  have heven := and_one_eq_zero.mp h
  have hsum : v + 1 + 1 = UInt64.ofNat (v.toNat + 2) := by
    rw [UInt64.ofNat_add, UInt64.ofNat_toNat, UInt64.add_assoc]
    rfl
  rw [hsum, and_one_eq_zero, Nat.add_mod_right]
  exact heven

theorem Shows.publishNow {snapshot : BboSnapshot} {state : BboState} (h : snapshot.Shows state) (next : BboState) :
    (snapshot.publishNow next).Shows next :=
  ⟨and_one_add_two h.even, read_publish snapshot.registers next⟩

/-! ## The calls are runs of the lock -/

section

variable {ρ : Type} [DecidableEq ρ] {attempts : Nat} {es : List (Event BboState BboState ρ)} {s : State BboField.Value BboState ρ}

/-- A call of `publish` with no read between its steps is a run of the lock. -/
theorem run_publishNow (run : Run (protocol attempts) empty es s) (idle : s.writer = .idle) (state : BboState) :
    ∃ s', Run (protocol attempts) empty (es ++ [.publishes state]) s' ∧ s'.writer = .idle ∧ s'.readers = s.readers ∧
      (⟨s'.version, s'.registers⟩ : BboSnapshot) = publishNow ⟨s.version, s.registers⟩ state :=
  ⟨_, run.publish idle state, rfl, rfl, rfl⟩

/-- A call of `read` with no publish between its steps is a run of the lock. -/
theorem run_readNow (run : Run (protocol attempts) empty es s) {r : ρ} (idle : s.readers r = .idle) {state : BboState}
    (h : Shows ⟨s.version, s.registers⟩ state) (pos : 0 < attempts) :
    Run (protocol attempts) empty (es ++ [.starts r] ++ [.tries r] ++ [.returns r (readNow ⟨s.version, s.registers⟩ attempts)]) s := by
  rw [h.readNow pos, ← h.shows]
  exact run.read idle h.even pos

end

end BboSnapshot

/-! ## One call -/

namespace MatchingStage

variable {stage stage' : MatchingStage} {snapshot snapshot' : BboSnapshot} {status : MatchingStatus}
  {commands commands' : SpscQueue SequencedCommand} {events events' : SpscQueue EngineEvent}

/-- The call is `process_one`. -/
theorem processOne_of_publishing
    (returned : (stage.processOnePublishing snapshot commands events).Returns (status, stage', snapshot', commands', events')) :
    (stage.processOne commands events).Returns (status, stage', commands', events') := by
  unfold processOnePublishing at returned
  unfold processOne
  rcases hpeek : stage.peek commands with ⟨status | command, commands⟩ <;> rw [hpeek] at returned
  · cases (Comp.returns_pure _ _).mp returned
    exact (Comp.returns_pure _ _).mpr rfl
  obtain ⟨⟨answer, stage, events⟩, haccept, returned⟩ := (Comp.returns_bind _ _ _).mp returned
  refine (Comp.returns_bind _ _ _).mpr ⟨_, haccept, ?_⟩
  cases answer with
  | error status =>
    cases (Comp.returns_pure _ _).mp returned
    exact (Comp.returns_pure _ _).mpr rfl
  | ok required =>
    obtain ⟨⟨answer, stage⟩, happly, returned⟩ := (Comp.returns_bind _ _ _).mp returned
    refine (Comp.returns_bind _ _ _).mpr ⟨_, happly, ?_⟩
    cases answer with
    | error status =>
      cases (Comp.returns_pure _ _).mp returned
      exact (Comp.returns_pure _ _).mpr rfl
    | ok batch =>
      dsimp only at returned ⊢
      rcases hpublish : stage.publish batch events with ⟨_ | status, stage, events⟩ <;> rw [hpublish] at returned
      · cases (Comp.returns_pure _ _).mp returned
        exact (Comp.returns_pure _ _).mpr rfl
      · cases (Comp.returns_pure _ _).mp returned
        exact (Comp.returns_pure _ _).mpr rfl

/-- The checks of `process_one` on a command, before it is applied; `required` is how many events it may have. -/
structure Admits (stage : MatchingStage) (command : SequencedCommand) (events : SpscQueue EngineEvent) (required : Nat) : Prop where
  numbered : stage.engine.sequenceExhausted = false
  valid : validateCommandPayload command.payload = .none
  sequence : command.sequence = stage.engine.nextSequence
  time : stage.engine.lastLogicalTime ≤ command.logicalTime
  counted : (stage.engine.requiredEvents command.payload).Returns required
  possible : required ≠ 0 ∧ required ≤ stage.scratchCapacity ∧ required ≤ events.capacity
  space : required ≤ events.producerAvailable.1

/-- The stage is not poisoned, and a command waits that passes the checks. -/
def Takes (stage : MatchingStage) (commands : SpscQueue SequencedCommand) (events : SpscQueue EngineEvent) : Prop :=
  stage.poisoned = false ∧ ∃ command required, commands.tryPeek.1 = some command ∧ stage.Admits command events required

/-- A call goes on with the command that waits, or it makes no progress and takes nothing. -/
theorem peek_ok {command : SequencedCommand} (h : stage.peek commands = (.ok command, commands')) :
    stage.poisoned = false ∧ commands.tryPeek.1 = some command := by
  unfold peek at h
  split at h
  · cases h
  · rename_i hpoisoned
    split at h
    · cases h
    · rename_i hpeek
      cases h
      exact ⟨Bool.eq_false_of_not_eq_true hpoisoned, congrArg Prod.fst hpeek⟩

/-- A status at the first look is no progress, and nothing is taken. -/
theorem peek_error (h : stage.peek commands = (.error status, commands')) :
    status ≠ .progress ∧ ¬stage.Takes commands events := by
  unfold peek at h
  split at h
  · rename_i hpoisoned
    cases h
    exact ⟨nofun, fun takes => Bool.false_ne_true (takes.1.symm.trans hpoisoned)⟩
  · split at h
    · rename_i hpeek
      cases h
      refine ⟨nofun, fun ⟨_, command, _, waits, _⟩ => ?_⟩
      rw [hpeek] at waits
      cases waits
    · cases h

/-- A command passes the checks when they hold of it, and the call goes on from the same stage. -/
theorem Admits.accept {command : SequencedCommand} {required : Nat} (h : stage.Admits command events required) :
    (stage.accept command events).Returns (.ok required, stage, events.producerAvailable.2) := by
  have himpossible : ¬(required = 0 ∨ stage.scratchCapacity < required ∨ events.capacity < required) := by
    have := h.possible
    omega
  unfold MatchingStage.accept
  rw [h.numbered, if_neg Bool.false_ne_true, if_neg (not_not.mpr h.valid), if_neg (not_not.mpr h.sequence),
    if_neg (UInt64.not_lt.mpr h.time)]
  refine (Comp.returns_bind _ _ _).mpr ⟨required, h.counted, ?_⟩
  rw [if_neg himpossible, if_neg (Nat.not_lt.mpr h.space)]
  exact (Comp.returns_pure _ _).mpr rfl

theorem admits_of_accept {command : SequencedCommand} {required : Nat}
    (h : (stage.accept command events).Returns (.ok required, stage', events')) : stage.Admits command events required := by
  unfold MatchingStage.accept at h
  split at h
  · cases (Comp.returns_pure _ _).mp h
  rename_i hnumbered
  split at h
  · cases (Comp.returns_pure _ _).mp h
  rename_i hvalid
  split at h
  · cases (Comp.returns_pure _ _).mp h
  rename_i hsequence
  split at h
  · cases (Comp.returns_pure _ _).mp h
  rename_i htime
  obtain ⟨required', hrequired, h⟩ := (Comp.returns_bind _ _ _).mp h
  split at h
  · cases (Comp.returns_pure _ _).mp h
  rename_i hpossible
  split at h
  · cases (Comp.returns_pure _ _).mp h
  rename_i hspace
  cases (Comp.returns_pure _ _).mp h
  exact ⟨Bool.eq_false_of_not_eq_true hnumbered, not_not.mp hvalid, not_not.mp hsequence, UInt64.not_lt.mp htime, hrequired, by omega,
    Nat.not_lt.mp hspace⟩

/-- A refusal at the checks is no progress, and poisons or changes nothing. -/
theorem accept_error {command : SequencedCommand} (h : (stage.accept command events).Returns (.error status, stage', events')) :
    status ≠ .progress ∧ (stage'.poisoned = true ∨ stage' = stage) := by
  unfold accept at h
  split at h
  · cases (Comp.returns_pure _ _).mp h
    exact ⟨nofun, .inl rfl⟩
  split at h
  · cases (Comp.returns_pure _ _).mp h
    exact ⟨nofun, .inl rfl⟩
  split at h
  · cases (Comp.returns_pure _ _).mp h
    exact ⟨nofun, .inl rfl⟩
  split at h
  · cases (Comp.returns_pure _ _).mp h
    exact ⟨nofun, .inl rfl⟩
  obtain ⟨required, -, h⟩ := (Comp.returns_bind _ _ _).mp h
  split at h
  · cases (Comp.returns_pure _ _).mp h
    exact ⟨nofun, .inl rfl⟩
  split at h
  · cases (Comp.returns_pure _ _).mp h
    exact ⟨nofun, .inr rfl⟩
  · cases (Comp.returns_pure _ _).mp h

/-- A refusal of the engine is no progress. -/
theorem failure_ne_progress {answer : ApplyStatus} (h : failure answer = some status) : status ≠ .progress := by
  rintro rfl
  cases answer <;> cases h

/-- A command that could not be applied poisons. -/
theorem apply_error {command : SequencedCommand} {required : Nat} (h : (stage.apply command required).Returns (.error status, stage')) :
    status ≠ .progress ∧ stage'.poisoned = true := by
  unfold apply at h
  obtain ⟨⟨answer, batch, trades, engine⟩, -, h⟩ := (Comp.returns_bind _ _ _).mp h
  dsimp only at h
  split at h
  · rename_i hfailure
    cases (Comp.returns_pure _ _).mp h
    exact ⟨failure_ne_progress hfailure, rfl⟩
  · split at h
    · cases (Comp.returns_pure _ _).mp h
      exact ⟨nofun, rfl⟩
    · cases (Comp.returns_pure _ _).mp h

/-- One that is applied does not. -/
theorem apply_ok {command : SequencedCommand} {required : Nat} {batch : List EngineEvent}
    (h : (stage.apply command required).Returns (.ok batch, stage')) : stage'.poisoned = stage.poisoned := by
  unfold apply at h
  obtain ⟨⟨answer, events, trades, engine⟩, -, h⟩ := (Comp.returns_bind _ _ _).mp h
  dsimp only at h
  split at h
  · cases (Comp.returns_pure _ _).mp h
  · split at h
    · cases (Comp.returns_pure _ _).mp h
    · cases (Comp.returns_pure _ _).mp h
      rfl

/-- Events that could not be published poison. -/
theorem publish_error {batch : List EngineEvent} (h : stage.publish batch events = (some status, stage', events')) :
    status ≠ .progress ∧ stage'.poisoned = true := by
  unfold publish at h
  dsimp only at h
  split at h
  · cases h
  · cases h
    exact ⟨nofun, rfl⟩

/-- Published events are followed by the best prices. -/
theorem publish_ok {batch : List EngineEvent} (h : stage.publish batch events = (none, stage', events')) :
    stage' = { stage with bbo := stage.engine.orderBook.bboState } := by
  unfold publish at h
  dsimp only at h
  split at h
  · cases h
    rfl
  · cases h

/-- The release is progress, or poisons. -/
theorem release_cases (command : SequencedCommand) (commands : SpscQueue SequencedCommand) :
    ((stage.release command commands).1 = .progress ∧ (stage.release command commands).2.1 = stage) ∨
      ((stage.release command commands).1 ≠ .progress ∧ (stage.release command commands).2.1.poisoned = true) := by
  unfold release
  dsimp only
  split
  · exact .inl ⟨rfl, rfl⟩
  · exact .inr ⟨nofun, rfl⟩

/-- A call that makes progress has taken a command and publishes the book it leaves; any other call poisons the stage, or takes nothing and
leaves it as it was, with its snapshot. -/
theorem processOnePublishing_cases
    (returned : (stage.processOnePublishing snapshot commands events).Returns (status, stage', snapshot', commands', events')) :
    (status = .progress ∧ stage.Takes commands events ∧ stage'.poisoned = stage.poisoned ∧
        snapshot' = snapshot.publishNow stage'.engine.orderBook.bboState) ∨
      (status ≠ .progress ∧ (stage'.poisoned = true ∨ ¬stage.Takes commands events ∧ stage' = stage ∧ snapshot' = snapshot)) := by
  unfold processOnePublishing at returned
  rcases hpeek : stage.peek commands with ⟨answer | command, commands⟩ <;> rw [hpeek] at returned
  · cases (Comp.returns_pure _ _).mp returned
    obtain ⟨hstatus, htakes⟩ := peek_error hpeek
    exact .inr ⟨hstatus, .inr ⟨htakes, rfl, rfl⟩⟩
  obtain ⟨hlive, hwaits⟩ := peek_ok hpeek
  obtain ⟨⟨answer | required, accepted, events⟩, haccept, hrest⟩ := (Comp.returns_bind _ _ _).mp returned
  · cases (Comp.returns_pure _ _).mp hrest
    obtain ⟨hstatus, hstage⟩ := accept_error haccept
    refine .inr ⟨hstatus, hstage.imp_right fun h => ⟨?_, h, rfl⟩⟩
    rintro ⟨-, command', required, hwaits', hadmits⟩
    rw [hwaits, Option.some_inj] at hwaits'
    subst hwaits'
    cases hadmits.accept.unique haccept
  have htakes : stage.Takes _ _ := ⟨hlive, command, required, hwaits, admits_of_accept haccept⟩
  obtain ⟨rfl, -⟩ := accept_ok haccept
  obtain ⟨⟨answer | batch, applied⟩, happly, hrest⟩ := (Comp.returns_bind _ _ _).mp hrest
  · cases (Comp.returns_pure _ _).mp hrest
    obtain ⟨hstatus, hpoisoned⟩ := apply_error happly
    exact .inr ⟨hstatus, .inl hpoisoned⟩
  have happlied := apply_ok happly
  dsimp only at hrest
  rcases hpublish : applied.publish batch events with ⟨_ | answer, published, events⟩ <;> rw [hpublish] at hrest
  · obtain rfl := publish_ok hpublish
    have hrelease := @MatchingStage.release_cases { applied with bbo := applied.engine.orderBook.bboState } command commands
    cases (Comp.returns_pure _ _).mp hrest
    rcases hrelease with ⟨hstatus, hstage⟩ | ⟨hstatus, hpoisoned⟩
    · exact .inl ⟨hstatus, htakes, by rw [hstage]; exact happlied, by rw [hstage]⟩
    · exact .inr ⟨hstatus, .inl hpoisoned⟩
  · cases (Comp.returns_pure _ _).mp hrest
    obtain ⟨hstatus, hpoisoned⟩ := publish_error hpublish
    exact .inr ⟨hstatus, .inl hpoisoned⟩

end MatchingStage

/-! ## Every run -/

/-- What a call of `process_one` meets: the stage and the queues before it. -/
structure StageCall where
  stage : MatchingStage
  commands : SpscQueue SequencedCommand
  events : SpscQueue EngineEvent

/-- The call meets a command that it takes. -/
def StageCall.Takes (call : StageCall) : Prop := call.stage.Takes call.commands call.events

/-- A run of calls of `process_one`, with what each call meets and what it returns. -/
inductive StageCalls (stage₀ : MatchingStage) : List StageCall → List MatchingStatus → MatchingStage → BboSnapshot → Prop where
  | start : StageCalls stage₀ [] [] stage₀ {}
  | call {calls : List StageCall} {statuses : List MatchingStatus} {stage stage' : MatchingStage} {snapshot snapshot' : BboSnapshot}
      {status : MatchingStatus} {commands commands' : SpscQueue SequencedCommand} {events events' : SpscQueue EngineEvent}
      (before : StageCalls stage₀ calls statuses stage snapshot)
      (returned : (stage.processOnePublishing snapshot commands events).Returns (status, stage', snapshot', commands', events')) :
      StageCalls stage₀ (calls ++ [⟨stage, commands, events⟩]) (statuses ++ [status]) stage' snapshot'

section

variable {stage₀ stage : MatchingStage} {calls : List StageCall} {statuses : List MatchingStatus} {snapshot : BboSnapshot}

/-- The runs of a stage are these. -/
theorem stageRun_iff_stageCalls : StageRun stage₀ statuses stage snapshot ↔ ∃ calls, StageCalls stage₀ calls statuses stage snapshot := by
  constructor
  · intro run
    induction run with
    | start => exact ⟨[], .start⟩
    | call before returned ih =>
      obtain ⟨calls, hcalls⟩ := ih
      exact ⟨_, hcalls.call returned⟩
  · rintro ⟨calls, hcalls⟩
    induction hcalls with
    | start => exact .start
    | call before returned ih => exact ih.call returned

/-- What a stage that is not poisoned shows: the book after its last call that has taken a command, or nothing. -/
structure Published (stage₀ : MatchingStage) (calls : List StageCall) (statuses : List MatchingStatus) (stage : MatchingStage)
    (snapshot : BboSnapshot) : Prop where
  progress_iff : .progress ∈ statuses ↔ ∃ call ∈ calls, call.Takes
  progress : .progress ∈ statuses → snapshot.Shows stage.engine.orderBook.bboState
  quiet : .progress ∉ statuses → stage = stage₀ ∧ snapshot.Shows .empty

/-- It shows something. -/
theorem Published.shows (h : Published stage₀ calls statuses stage snapshot) : ∃ state, snapshot.Shows state := by
  by_cases hprogress : .progress ∈ statuses
  · exact ⟨_, h.progress hprogress⟩
  · exact ⟨_, (h.quiet hprogress).2⟩

/-- One more call keeps it. -/
theorem StageCalls.published (run : StageCalls stage₀ calls statuses stage snapshot) (healthy : stage.poisoned = false) :
    Published stage₀ calls statuses stage snapshot := by
  induction run with
  | start => exact ⟨by simp, fun h => absurd h List.not_mem_nil, fun _ => ⟨rfl, BboSnapshot.shows_new⟩⟩
  | @call calls statuses stage stage' snapshot snapshot' status commands commands' events events' before returned ih =>
    have hcalls : (∃ call ∈ calls ++ [⟨stage, commands, events⟩], call.Takes) ↔ (∃ call ∈ calls, call.Takes) ∨ stage.Takes commands events := by
      simp [or_and_right, exists_or, StageCall.Takes]
    have hmem : .progress ∈ statuses ++ [status] ↔ .progress ∈ statuses ∨ status = .progress := by
      rw [List.mem_append, List.mem_singleton, eq_comm]
    rcases MatchingStage.processOnePublishing_cases returned with ⟨hstatus, htakes, hpoisoned, rfl⟩ | ⟨hstatus, hpoisoned | ⟨htakes, rfl, rfl⟩⟩
    · obtain ⟨state, hshows⟩ := (ih (hpoisoned ▸ healthy)).shows
      exact ⟨iff_of_true (hmem.mpr (.inr hstatus)) (hcalls.mpr (.inr htakes)), fun _ => hshows.publishNow _,
        fun h => absurd (hmem.mpr (.inr hstatus)) h⟩
    · rw [healthy] at hpoisoned
      cases hpoisoned
    · obtain ⟨hiff, hprogress, hquiet⟩ := ih healthy
      rw [or_iff_left hstatus] at hmem
      rw [or_iff_left htakes] at hcalls
      exact ⟨hmem.trans (hiff.trans hcalls.symm), fun h => hprogress (hmem.mp h), fun h => hquiet (mt hmem.mpr h)⟩

/-- What a stage publishes of a book is nothing only where the book has no best price. -/
theorem OrderBook.bboState_eq_empty (b : OrderBook) : BboState.empty = b.bboState ↔ b.bestBid = none ∧ b.bestAsk = none := by
  constructor
  · intro h
    have hbid := congrArg BboState.bidPrice h
    have hask := congrArg BboState.askPrice h
    exact ⟨Option.map_eq_none_iff.mp hbid.symm, Option.map_eq_none_iff.mp hask.symm⟩
  · rintro ⟨hbid, hask⟩
    unfold OrderBook.bboState OrderBook.quantityAt
    rw [hbid, hask]
    rfl

/-- Between the calls of a stage over any engine that has not been poisoned, a read of its snapshot gives the best prices of the book and
the quantities there if and only if some call has met a command that passes the checks of the stage, or the engine came with a book that
has no best price. The calls that meet such a command are those that make progress. -/
theorem stage_shows_best_iff {engine : SequencedEngine} {events : SpscQueue EngineEvent}
    (created : MatchingStage.create engine events = some stage₀) (run : StageCalls stage₀ calls statuses stage snapshot)
    (healthy : stage.poisoned = false) :
    (snapshot.readNow kDefaultReaderRetries = some
        { bidPrice := stage.engine.orderBook.bestBid.map Int64.ofInt
          bidQuantity := stage.engine.orderBook.quantityAt .buy stage.engine.orderBook.bestBid
          askPrice := stage.engine.orderBook.bestAsk.map Int64.ofInt
          askQuantity := stage.engine.orderBook.quantityAt .sell stage.engine.orderBook.bestAsk } ↔
      (∃ call ∈ calls, call.Takes) ∨ (engine.orderBook.bestBid = none ∧ engine.orderBook.bestAsk = none)) ∧
    (.progress ∈ statuses ↔ ∃ call ∈ calls, call.Takes) := by
  have hpublished := run.published healthy
  have hengine : stage₀.engine = engine := by
    unfold MatchingStage.create at created
    split at created
    · cases created
    · cases created
      rfl
  refine ⟨?_, hpublished.progress_iff⟩
  show snapshot.readNow kDefaultReaderRetries = some stage.engine.orderBook.bboState ↔ _
  rw [← hpublished.progress_iff]
  by_cases hprogress : .progress ∈ statuses
  · rw [(hpublished.progress hprogress).readNow (by decide)]
    exact iff_of_true rfl (.inl hprogress)
  · obtain ⟨rfl, hshows⟩ := hpublished.quiet hprogress
    rw [hshows.readNow (by decide), Option.some_inj, hengine, OrderBook.bboState_eq_empty, or_iff_right hprogress]

end

/-- A stage over a fresh engine takes an order, and shows it. -/
theorem stage_shows_best_iff_order : ∃ engine commands events stage₀ stage snapshot,
    MatchingStage.create engine events = some stage₀ ∧ StageCalls stage₀ [⟨stage₀, commands, events⟩] [.progress] stage snapshot ∧
      snapshot.readNow kDefaultReaderRetries = some ⟨none, 0, some 102, 5⟩ := by
  let command : SequencedCommand := ⟨.submitLimit 1 1 102 5 0, 1, 5⟩
  let commands : SpscQueue SequencedCommand := (SpscQueue.emptyAt 1 (fun _ => command) 0 (by decide) (by decide)).tryPushBatch [command] |>.2
  let events : SpscQueue EngineEvent := .emptyAt 5 (fun _ => {}) 0 (by decide) (by decide)
  have hsome : ((SequencedEngine.create (BookConfig.small 2 (by decide) .none) 1 0 .continuous).bind fun engine =>
      (MatchingStage.create engine events).bind fun stage₀ =>
        ((stage₀.processOnePublishing {} commands events).run 20).map fun answer => (engine, stage₀, answer)).any
      (fun r => r.2.2.1 = .progress ∧ r.2.2.2.1.poisoned = false ∧ r.2.2.2.1.engine.orderBook.bboState = ⟨none, 0, some 102, 5⟩) = true := by
    decide +kernel
  rw [Option.any_eq_true] at hsome
  obtain ⟨⟨engine, stage₀, status, stage, snapshot, commands', events'⟩, hrun, hshown⟩ := hsome
  obtain ⟨engine', hcreate, hrun⟩ := Option.bind_eq_some_iff.mp hrun
  obtain ⟨stage', hstage, hrun⟩ := Option.bind_eq_some_iff.mp hrun
  obtain ⟨answer, hanswer, hpair⟩ := Option.map_eq_some_iff.mp hrun
  cases hpair
  obtain ⟨hstatus, hhealthy, hbest⟩ := of_decide_eq_true hshown
  obtain rfl : status = .progress := hstatus
  have run : StageCalls stage₀ [⟨stage₀, commands, events⟩] [.progress] stage snapshot := StageCalls.start.call ⟨20, hanswer⟩
  refine ⟨engine, commands, events, stage₀, stage, snapshot, hstage, run, ?_⟩
  rw [← hbest]
  obtain ⟨hshows, hprogress⟩ := stage_shows_best_iff hstage run hhealthy
  exact hshows.mpr (.inl (hprogress.mp (List.mem_singleton_self _)))

/-- A stage over an engine that has taken an order before it: the book has a best price, and a read of the snapshot gives nothing. -/
theorem restored_stage_shows_nothing : ∃ fresh engine events batch trades stage,
    SequencedEngine.create (BookConfig.small 2 (by decide) .none) 1 0 .continuous = some fresh ∧
      (fresh.apply ⟨.submitLimit 1 1 102 5 0, 1, 5⟩ 5).Returns (.applied, batch, trades, engine) ∧
      MatchingStage.create engine events = some stage ∧ StageCalls stage [] [] stage {} ∧ stage.poisoned = false ∧
      stage.engine.orderBook.bboState = ⟨none, 0, some 102, 5⟩ ∧
      ({} : BboSnapshot).readNow kDefaultReaderRetries = some ⟨none, 0, none, 0⟩ := by
  let events : SpscQueue EngineEvent := .emptyAt 5 (fun _ => {}) 0 (by decide) (by decide)
  have hsome : ((SequencedEngine.create (BookConfig.small 2 (by decide) .none) 1 0 .continuous).bind fun fresh =>
      ((fresh.apply ⟨.submitLimit 1 1 102 5 0, 1, 5⟩ 5).run 20).bind fun answer =>
        (MatchingStage.create answer.2.2.2 events).map fun stage => (fresh, answer, stage)).any
      (fun r => r.2.1.1 = .applied ∧ r.2.2.poisoned = false ∧ r.2.2.engine.orderBook.bboState = ⟨none, 0, some 102, 5⟩) = true := by
    decide +kernel
  rw [Option.any_eq_true] at hsome
  obtain ⟨⟨fresh, ⟨status, batch, trades, engine⟩, stage⟩, hrun, hshown⟩ := hsome
  obtain ⟨fresh', hcreate, hrun⟩ := Option.bind_eq_some_iff.mp hrun
  obtain ⟨answer, hanswer, hrun⟩ := Option.bind_eq_some_iff.mp hrun
  obtain ⟨stage', hstage, hpair⟩ := Option.map_eq_some_iff.mp hrun
  cases hpair
  obtain ⟨hstatus, hhealthy, hbest⟩ := of_decide_eq_true hshown
  obtain rfl : status = .applied := hstatus
  exact ⟨fresh, engine, events, batch, trades, stage, hcreate, ⟨20, hanswer⟩, hstage, .start, hhealthy, hbest, rfl⟩

end MatchingEngine

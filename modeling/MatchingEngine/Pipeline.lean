import MatchingEngine.Bbo
import MatchingEngine.Engine
import MatchingEngine.Journal
import MatchingEngine.Spsc

/-!
# The pipeline

`DurableIngressStage`, `MatchingStage` and `PublicationStage` of `pipeline.hpp` and `pipeline.cpp`, on the threads of which the commands
go from the ingress to the matching stage through one queue, and the events to the publication through another. A call is cut where its
thread meets another one, at the calls of the queues; `PipelineStep` interleaves the parts of the calls. The calls of the queues are not
cut any further here.
-/

namespace MatchingEngine

/-- `MmapJournal::writable`. -/
def MmapJournal.writable (j : MmapJournal) : Bool := j.descriptor && j.mapped && !j.writerPoisoned

inductive IngressStatus where
  | progress
  | invalidPayload
  | decreasingLogicalTime
  | sequenceExhausted
  | queueBackpressure
  | journalFull
  | persistenceFailure
  | commitIndeterminate
  | recoveryRequired
  | stoppedPoisoned
  deriving DecidableEq, Repr

inductive MatchingStatus where
  | progress
  | inputEmpty
  | outputBackpressure
  | invalidCommand
  | invalidSequence
  | decreasingLogicalTime
  | sequenceExhausted
  | impossibleEventCapacity
  | internalInvariantFailure
  | poisoned
  deriving DecidableEq, Repr

/-! ## Ingress -/

/-- `DurableIngressStage`, with the file of its journal. -/
structure DurableIngressStage where
  sequencer : Sequencer
  journal : MmapJournal
  file : Mapped
  lastJournalError : JournalError := .none
  recoveryRequired : Bool := false
  stopped : Bool := false

/-- The process that calls, and the outcomes of the synchronisations of a journal. -/
structure PersistCalls where
  pid : Nat
  data : MmapJournal.SyncCalls
  commit : MmapJournal.SyncCalls
  deriving DecidableEq, Repr

namespace DurableIngressStage

variable (stage : DurableIngressStage)

/-- `try_ingest` up to the question for space in the queue: the status it returns, if it does. -/
def accept (payload : CommandPayload) (logicalTime : UInt64) (producer : SpscQueue SequencedCommand) :
    Option IngressStatus × DurableIngressStage × SpscQueue SequencedCommand :=
  if stage.stopped then (some .stoppedPoisoned, stage, producer)
  else if stage.recoveryRequired || !stage.journal.writable then
    (some .recoveryRequired, { stage with recoveryRequired := true }, producer)
  else if validateCommandPayload payload ≠ .none then (some .invalidPayload, stage, producer)
  else if stage.sequencer.exhausted then (some .sequenceExhausted, stage, producer)
  else if logicalTime < stage.sequencer.lastLogicalTime then (some .decreasingLogicalTime, stage, producer)
  else if producer.producerAvailable.1 = 0 then (some .queueBackpressure, stage, producer.producerAvailable.2)
  else (none, stage, producer.producerAvailable.2)

/-- The part of `try_ingest` that stamps the payload and appends the command: the command to publish, or the status it returns. -/
def persist (payload : CommandPayload) (logicalTime : UInt64) (calls : PersistCalls) :
    Except IngressStatus SequencedCommand × DurableIngressStage :=
  if stage.journal.full then (.error .journalFull, stage)
  else
    match stage.sequencer.stamp payload logicalTime with
    | .error .invalidPayload => (.error .invalidPayload, stage)
    | .error .decreasingLogicalTime => (.error .decreasingLogicalTime, stage)
    | .error .sequenceExhausted => (.error .sequenceExhausted, stage)
    | .ok (command, sequencer) =>
      let appended := (stage.journal.append calls.pid command calls.data calls.commit).run stage.file
      let stage := { stage with
        sequencer, journal := appended.result.2, file := appended.final, lastJournalError := appended.result.1 }
      if stage.lastJournalError ≠ .none then
        (.error (if stage.lastJournalError = .commitIndeterminate then .commitIndeterminate else .persistenceFailure),
          { stage with recoveryRequired := true })
      else (.ok command, stage)

/-- The part of `try_ingest` that publishes the command. -/
def publish (command : SequencedCommand) (producer : SpscQueue SequencedCommand) :
    IngressStatus × DurableIngressStage × SpscQueue SequencedCommand :=
  let (pushed, producer) := producer.tryPushBatch [command]
  if pushed then (.progress, stage, producer) else (.stoppedPoisoned, { stage with stopped := true }, producer)

/-- `try_ingest`, with nothing between its parts. -/
def tryIngest (payload : CommandPayload) (logicalTime : UInt64) (calls : PersistCalls) (producer : SpscQueue SequencedCommand) :
    IngressStatus × DurableIngressStage × SpscQueue SequencedCommand :=
  match stage.accept payload logicalTime producer with
  | (some status, stage, producer) => (status, stage, producer)
  | (none, stage, producer) =>
    match stage.persist payload logicalTime calls with
    | (.error status, stage) => (status, stage, producer)
    | (.ok command, stage) => stage.publish command producer

end DurableIngressStage

/-! ## Matching -/

/-- `required_event_capacity`; a payload that names no command needs none. -/
def SequencedEngine.requiredEvents (e : SequencedEngine) (payload : CommandPayload) : Comp Nat :=
  match CommandType.ofRaw payload.tag with
  | none => pure 0
  | some tag => e.requiredEventCapacity payload tag

/-- The quantity at a best price. -/
def OrderBook.quantityAt (b : OrderBook) (side : Side) (price : Option Int) : UInt64 :=
  UInt64.ofNat ((price.bind (b.levelInfo side.raw)).elim 0 LevelInfo.aggregateQuantity)

/-- What `process_one` publishes of a book. -/
def OrderBook.bboState (b : OrderBook) : BboState where
  bidPrice := b.bestBid.map Int64.ofInt
  bidQuantity := b.quantityAt .buy b.bestBid
  askPrice := b.bestAsk.map Int64.ofInt
  askQuantity := b.quantityAt .sell b.bestAsk

/-- `sizeof(SequencedCommand)`. -/
def kSequencedCommandBytes : Nat := 56

/-- `sizeof(EngineEvent)`. -/
def kEngineEventBytes : Nat := 64

/-- `MatchingStage`; `bbo` is what its `BboSnapshot` shows. -/
structure MatchingStage where
  engine : SequencedEngine
  scratchCapacity : Nat
  bbo : BboState := .empty
  poisoned : Bool := false

namespace MatchingStage

/-- The constructor; `none` where it throws. -/
def create (engine : SequencedEngine) (events : SpscQueue EngineEvent) : Option MatchingStage :=
  if events.capacity < engine.maximumEventCapacity then none
  else some { engine, scratchCapacity := engine.maximumEventCapacity }

variable (stage : MatchingStage)

/-- `poison`. -/
def poison (status : MatchingStatus) : MatchingStatus × MatchingStage := (status, { stage with poisoned := true })

/-- `process_one` up to the command it takes: the command, or the status it returns. -/
def peek (commands : SpscQueue SequencedCommand) : Except MatchingStatus SequencedCommand × SpscQueue SequencedCommand :=
  if stage.poisoned then (.error .poisoned, commands)
  else
    match commands.tryPeek with
    | (none, commands) => (.error .inputEmpty, commands)
    | (some command, commands) => (.ok command, commands)

/-- The part of `process_one` that checks the command and the space for its events: the events it may have, or the status it returns. -/
def accept (command : SequencedCommand) (events : SpscQueue EngineEvent) :
    Comp (Except MatchingStatus Nat × MatchingStage × SpscQueue EngineEvent) :=
  let poisons (status : MatchingStatus) : Except MatchingStatus Nat × MatchingStage × SpscQueue EngineEvent :=
    (.error (stage.poison status).1, (stage.poison status).2, events)
  if stage.engine.sequenceExhausted then pure (poisons .sequenceExhausted)
  else if validateCommandPayload command.payload ≠ .none then pure (poisons .invalidCommand)
  else if command.sequence ≠ stage.engine.nextSequence then pure (poisons .invalidSequence)
  else if command.logicalTime < stage.engine.lastLogicalTime then pure (poisons .decreasingLogicalTime)
  else do
    let required ← stage.engine.requiredEvents command.payload
    if required = 0 ∨ stage.scratchCapacity < required ∨ events.capacity < required then return poisons .impossibleEventCapacity
    if events.producerAvailable.1 < required then return (.error .outputBackpressure, stage, events.producerAvailable.2)
    return (.ok required, stage, events.producerAvailable.2)

/-- The status for an application that failed. -/
def failure : ApplyStatus → Option MatchingStatus
  | .invalidCommand => some .invalidCommand
  | .invalidSequence => some .invalidSequence
  | .decreasingLogicalTime => some .decreasingLogicalTime
  | .sequenceExhausted => some .sequenceExhausted
  | .insufficientEventCapacity => some .impossibleEventCapacity
  | .applied => none

/-- The part of `process_one` that applies the command: its events, or the status it returns. -/
def apply (command : SequencedCommand) (required : Nat) : Comp (Except MatchingStatus (List EngineEvent) × MatchingStage) := do
  let (status, events, _, engine) ← stage.engine.apply command stage.scratchCapacity
  let stage := { stage with engine }
  match failure status with
  | some status => return (.error (stage.poison status).1, (stage.poison status).2)
  | none =>
    if events = [] ∨ required < events.length then
      return (.error (stage.poison .internalInvariantFailure).1, (stage.poison .internalInvariantFailure).2)
    return (.ok events, stage)

/-- The part of `process_one` that publishes the events: whether it goes on. -/
def publish (batch : List EngineEvent) (events : SpscQueue EngineEvent) : Option MatchingStatus × MatchingStage × SpscQueue EngineEvent :=
  let (pushed, events) := events.tryPushBatch batch
  if pushed then (none, { stage with bbo := stage.engine.orderBook.bboState }, events)
  else (some (stage.poison .internalInvariantFailure).1, (stage.poison .internalInvariantFailure).2, events)

/-- The part of `process_one` that releases the command. -/
def release (command : SequencedCommand) (commands : SpscQueue SequencedCommand) :
    MatchingStatus × MatchingStage × SpscQueue SequencedCommand :=
  let (released, commands) := commands.tryPop
  if released = some command then (.progress, stage, commands)
  else ((stage.poison .internalInvariantFailure).1, (stage.poison .internalInvariantFailure).2, commands)

/-- `process_one`, with nothing between its parts. -/
def processOne (commands : SpscQueue SequencedCommand) (events : SpscQueue EngineEvent) :
    Comp (MatchingStatus × MatchingStage × SpscQueue SequencedCommand × SpscQueue EngineEvent) :=
  match stage.peek commands with
  | (.error status, commands) => pure (status, stage, commands, events)
  | (.ok command, commands) => do
    match ← stage.accept command events with
    | (.error status, stage, events) => return (status, stage, commands, events)
    | (.ok required, stage, events) =>
      match ← stage.apply command required with
      | (.error status, stage) => return (status, stage, commands, events)
      | (.ok batch, stage) =>
        match stage.publish batch events with
        | (some status, stage, events) => return (status, stage, commands, events)
        | (none, stage, events) =>
          let (status, stage, commands) := stage.release command commands
          return (status, stage, commands, events)

/-- `process_one` with the snapshot it publishes to. -/
def processOnePublishing (snapshot : BboSnapshot) (commands : SpscQueue SequencedCommand) (events : SpscQueue EngineEvent) :
    Comp (MatchingStatus × MatchingStage × BboSnapshot × SpscQueue SequencedCommand × SpscQueue EngineEvent) :=
  match stage.peek commands with
  | (.error status, commands) => pure (status, stage, snapshot, commands, events)
  | (.ok command, commands) => do
    match ← stage.accept command events with
    | (.error status, stage, events) => return (status, stage, snapshot, commands, events)
    | (.ok required, stage, events) =>
      match ← stage.apply command required with
      | (.error status, stage) => return (status, stage, snapshot, commands, events)
      | (.ok batch, stage) =>
        match stage.publish batch events with
        | (some status, stage, events) => return (status, stage, snapshot, commands, events)
        | (none, stage, events) =>
          let snapshot := snapshot.publishNow stage.bbo
          let (status, stage, commands) := stage.release command commands
          return (status, stage, snapshot, commands, events)

end MatchingStage

/-- A run of calls of `process_one`, whatever the queues hold at each of them: what they have returned, and the stage and the snapshot
after them. -/
inductive StageRun (stage₀ : MatchingStage) : List MatchingStatus → MatchingStage → BboSnapshot → Prop where
  | start : StageRun stage₀ [] stage₀ {}
  | call {statuses : List MatchingStatus} {stage stage' : MatchingStage} {snapshot snapshot' : BboSnapshot} {status : MatchingStatus}
      {commands commands' : SpscQueue SequencedCommand} {events events' : SpscQueue EngineEvent}
      (before : StageRun stage₀ statuses stage snapshot)
      (returned : (stage.processOnePublishing snapshot commands events).Returns (status, stage', snapshot', commands', events')) :
      StageRun stage₀ (statuses ++ [status]) stage' snapshot'

/-! ## Threads -/

/-- Where the ingress thread is in a call. -/
inductive IngressPhase where
  | idle
  /-- There is space for the command of a payload. -/
  | admitted (payload : CommandPayload) (logicalTime : UInt64)
  /-- The command is in the journal. -/
  | persisted (command : SequencedCommand)
  deriving DecidableEq, Repr

/-- Where the matching thread is in a call. -/
inductive MatchingPhase where
  | idle
  | peeked (command : SequencedCommand)
  /-- There is space for the events of the command. -/
  | admitted (command : SequencedCommand) (required : Nat)
  | applied (command : SequencedCommand) (batch : List EngineEvent)
  | published (command : SequencedCommand)
  deriving DecidableEq, Repr

/-- The stages and the queues between them. -/
structure Pipeline where
  ingress : DurableIngressStage
  ingressPhase : IngressPhase
  commands : SpscQueue SequencedCommand
  matching : MatchingStage
  matchingPhase : MatchingPhase
  events : SpscQueue EngineEvent

/-- What a step shows: a command that was appended, a command that was applied and its events, events that were published, an event that
was popped, and the statuses of the calls that have returned. -/
inductive PipelineLabel where
  | silent
  | journaled (command : SequencedCommand)
  | ingested (status : IngressStatus)
  | applied (command : SequencedCommand) (batch : List EngineEvent)
  | published (batch : List EngineEvent)
  | processed (status : MatchingStatus)
  | popped (event : Option EngineEvent)
  deriving DecidableEq

namespace Pipeline

/-- The stages between calls, as their constructors make them; `none` where one throws. -/
def create (sequencer : Sequencer) (journal : MmapJournal) (file : Mapped) (engine : SequencedEngine) (commands : SpscQueue SequencedCommand)
    (events : SpscQueue EngineEvent) : Option Pipeline :=
  (MatchingStage.create engine events).map fun matching => ⟨{ sequencer, journal, file }, .idle, commands, matching, .idle, events⟩

variable (s : Pipeline)

/-- The ingress thread starts a call. -/
def ingestAdmit (payload : CommandPayload) (logicalTime : UInt64) : PipelineLabel × Pipeline :=
  match s.ingress.accept payload logicalTime s.commands with
  | (some status, ingress, commands) => (.ingested status, { s with ingress, commands })
  | (none, ingress, commands) => (.silent, { s with ingress, commands, ingressPhase := .admitted payload logicalTime })

/-- The ingress thread stamps and appends. -/
def ingestPersist (payload : CommandPayload) (logicalTime : UInt64) (calls : PersistCalls) : PipelineLabel × Pipeline :=
  match s.ingress.persist payload logicalTime calls with
  | (.error status, ingress) => (.ingested status, { s with ingress, ingressPhase := .idle })
  | (.ok command, ingress) => (.journaled command, { s with ingress, ingressPhase := .persisted command })

/-- The ingress thread publishes the command. -/
def ingestPublish (command : SequencedCommand) : PipelineLabel × Pipeline :=
  let (status, ingress, commands) := s.ingress.publish command s.commands
  (.ingested status, { s with ingress, commands, ingressPhase := .idle })

/-- The matching thread starts a call. -/
def processPeek : PipelineLabel × Pipeline :=
  match s.matching.peek s.commands with
  | (.error status, commands) => (.processed status, { s with commands })
  | (.ok command, commands) => (.silent, { s with commands, matchingPhase := .peeked command })

/-- The matching thread checks the command. -/
def processAdmit (command : SequencedCommand) : Comp (PipelineLabel × Pipeline) := do
  match ← s.matching.accept command s.events with
  | (.error status, matching, events) => return (.processed status, { s with matching, events, matchingPhase := .idle })
  | (.ok required, matching, events) => return (.silent, { s with matching, events, matchingPhase := .admitted command required })

/-- The matching thread applies the command. -/
def processApply (command : SequencedCommand) (required : Nat) : Comp (PipelineLabel × Pipeline) := do
  match ← s.matching.apply command required with
  | (.error status, matching) => return (.processed status, { s with matching, matchingPhase := .idle })
  | (.ok batch, matching) =>
    return (.applied command batch, { s with matching, matchingPhase := .applied command batch })

/-- The matching thread publishes the events. -/
def processPublish (command : SequencedCommand) (batch : List EngineEvent) : PipelineLabel × Pipeline :=
  match s.matching.publish batch s.events with
  | (some status, matching, events) => (.processed status, { s with matching, events, matchingPhase := .idle })
  | (none, matching, events) => (.published batch, { s with matching, events, matchingPhase := .published command })

/-- The matching thread releases the command. -/
def processRelease (command : SequencedCommand) : PipelineLabel × Pipeline :=
  let (status, matching, commands) := s.matching.release command s.commands
  (.processed status, { s with matching, commands, matchingPhase := .idle })

/-- `PublicationStage::try_pop`; `drain` is a sequence of such calls. -/
def publicationPop : PipelineLabel × Pipeline :=
  let (event, events) := s.events.tryPop
  (.popped event, { s with events })

end Pipeline

/-- One step of one of the threads. -/
inductive PipelineStep : Pipeline → PipelineLabel × Pipeline → Prop where
  | ingestAdmit {s : Pipeline} (payload : CommandPayload) (logicalTime : UInt64) (idle : s.ingressPhase = .idle) :
      PipelineStep s (s.ingestAdmit payload logicalTime)
  | ingestPersist {s : Pipeline} {payload : CommandPayload} {logicalTime : UInt64} (calls : PersistCalls)
      (admitted : s.ingressPhase = .admitted payload logicalTime) : PipelineStep s (s.ingestPersist payload logicalTime calls)
  | ingestPublish {s : Pipeline} {command : SequencedCommand} (persisted : s.ingressPhase = .persisted command) :
      PipelineStep s (s.ingestPublish command)
  | processPeek {s : Pipeline} (idle : s.matchingPhase = .idle) : PipelineStep s s.processPeek
  | processAdmit {s : Pipeline} {command : SequencedCommand} {r : PipelineLabel × Pipeline} (peeked : s.matchingPhase = .peeked command)
      (returned : (s.processAdmit command).Returns r) : PipelineStep s r
  | processApply {s : Pipeline} {command : SequencedCommand} {required : Nat} {r : PipelineLabel × Pipeline}
      (admitted : s.matchingPhase = .admitted command required) (returned : (s.processApply command required).Returns r) : PipelineStep s r
  | processPublish {s : Pipeline} {command : SequencedCommand} {batch : List EngineEvent} (applied : s.matchingPhase = .applied command batch) :
      PipelineStep s (s.processPublish command batch)
  | processRelease {s : Pipeline} {command : SequencedCommand} (published : s.matchingPhase = .published command) :
      PipelineStep s (s.processRelease command)
  | publicationPop {s : Pipeline} : PipelineStep s s.publicationPop

/-- The application the matching thread is about to make has at most the events there is space for. -/
def Pipeline.FewEvents (s : Pipeline) : Prop :=
  ∀ command required, s.matchingPhase = .admitted command required → ∀ status events trades engine,
    (s.matching.engine.apply command s.matching.scratchCapacity).Returns (status, events, trades, engine) → events.length ≤ required

/-- A run of the threads, in any order of their steps: what the steps have shown, and the state they have reached. -/
inductive PipelineRun (s₀ : Pipeline) : List PipelineLabel → Pipeline → Prop where
  | start : PipelineRun s₀ [] s₀
  | step {labels : List PipelineLabel} {s : Pipeline} {r : PipelineLabel × Pipeline} (before : PipelineRun s₀ labels s) (few : s.FewEvents)
      (moves : PipelineStep s r) : PipelineRun s₀ (labels ++ [r.1]) r.2

/-- The commands that were appended. -/
def journaledCommands (labels : List PipelineLabel) : List SequencedCommand :=
  labels.filterMap fun label => match label with
    | .journaled command => some command
    | _ => none

/-- The commands that were applied, with their events. -/
def appliedBatches (labels : List PipelineLabel) : List (SequencedCommand × List EngineEvent) :=
  labels.filterMap fun label => match label with
    | .applied command batch => some (command, batch)
    | _ => none

/-- The events that were popped. -/
def poppedEvents (labels : List PipelineLabel) : List EngineEvent :=
  labels.filterMap fun label => match label with
    | .popped event => event
    | _ => none

/-- An engine applies commands one after the other: the events of each, and the engine after all. -/
inductive Answers (eventsSize : Nat) (e₀ : SequencedEngine) : List (SequencedCommand × List EngineEvent) → SequencedEngine → Prop where
  | nil : Answers eventsSize e₀ [] e₀
  | snoc {batches : List (SequencedCommand × List EngineEvent)} {e e' : SequencedEngine} {command : SequencedCommand}
      {batch : List EngineEvent} {trades : List Trade} (before : Answers eventsSize e₀ batches e)
      (applied : (e.apply command eventsSize).Returns (.applied, batch, trades, e')) :
      Answers eventsSize e₀ (batches ++ [(command, batch)]) e'

end MatchingEngine

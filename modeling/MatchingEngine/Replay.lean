import MatchingEngine.Engine
import MatchingEngine.Segments

/-!
# Replay

`replay_journal` and `replay_journal_segments` of `replay.cpp`, with the encoding of events and the fingerprint over it. A journal
comes with the bytes its mapping shows. The engine a replay leaves is part of its result, also when it fails.
-/

namespace MatchingEngine

/-! ## Events and their fingerprint -/

/-- `kEncodedEngineEventSize`. -/
def kEncodedEngineEventSize : Nat := 64

inductive EventCodecError where
  | none
  | invalidLength
  | invalidType
  | noncanonical
  deriving DecidableEq, Repr

/-- `encode_engine_event` into a span of `kEncodedEngineEventSize` bytes: the error, and the bytes. -/
def encodeEngineEvent (event : EngineEvent) : EventCodecError × Buffer :=
  if event.reserved ≠ 0 then (.noncanonical, Buffer.zeros)
  else
    (.none, ((((((((((Buffer.zeros.writeU64 0 event.commandSequence).writeU64 8 (UInt64.ofNat event.orderId)).writeU64 16
      (UInt64.ofNat event.secondaryOrderId)).writeU64 24 (Int64.ofInt event.price).toUInt64).writeU64 32
      (UInt64.ofNat event.quantity)).writeU64 40 (UInt64.ofNat event.secondaryQuantity)).writeU32 48
      (UInt32.ofNat event.handle.index)).writeU32 52 (UInt32.ofNat event.handle.generation)).writeU32 56
      (UInt32.ofNat event.eventIndex)).writeU8 60 (UInt8.ofNat event.type.ctorIdx)).writeU8 61 event.reason)

/-- `encode_engine_event` into a span of `size` bytes: the error, and the span. -/
def encodeEngineEventSpan (event : EngineEvent) (output : Buffer) (size : Nat) : EventCodecError × Buffer :=
  if size ≠ kEncodedEngineEventSize then (.invalidLength, output)
  else
    match encodeEngineEvent event with
    | (.none, bytes) => (.none, bytes)
    | (error, _) => (error, output)

/-- The event type a byte names: `valid_event_type` accepts exactly these bytes. -/
def EngineEventType.ofRaw (raw : UInt8) : Option EngineEventType :=
  if raw = 0 then some .submitResult
  else if raw = 1 then some .trade
  else if raw = 2 then some .cancelResult
  else if raw = 3 then some .amendResult
  else if raw = 4 then some .stopTriggered
  else if raw = 5 then some .auctionResult
  else none

/-- `decode_engine_event`. -/
def decodeEngineEvent (input : Buffer) (size : Nat) : Except EventCodecError EngineEvent :=
  if size ≠ kEncodedEngineEventSize then .error .invalidLength
  else
    match EngineEventType.ofRaw (input 60) with
    | none => .error .invalidType
    | some type =>
      if input 62 ≠ 0 ∨ input 63 ≠ 0 then .error .noncanonical
      else
        .ok
          { commandSequence := input.readU64 0
            orderId := (input.readU64 8).toNat
            secondaryOrderId := (input.readU64 16).toNat
            price := (Int64.ofUInt64 (input.readU64 24)).toInt
            quantity := (input.readU64 32).toNat
            secondaryQuantity := (input.readU64 40).toNat
            handle := ⟨(input.readU32 48).toNat, (input.readU32 52).toNat⟩
            eventIndex := (input.readU32 56).toNat
            type
            reason := input 61 }

structure ReplayFingerprint where
  crcState : UInt32
  eventCount : UInt64
  byteCount : UInt64
  deriving DecidableEq, Repr

namespace ReplayFingerprint

/-- A new fingerprint. -/
def initial : ReplayFingerprint := ⟨0xffffffff, 0, 0⟩

variable (f : ReplayFingerprint)

/-- `crc32c` of the events so far. -/
def crc32c : UInt32 := ~~~f.crcState

/-- `add`: an event that cannot be encoded leaves the fingerprint. -/
def add (event : EngineEvent) : EventCodecError × ReplayFingerprint :=
  let (error, bytes) := encodeEngineEvent event
  if error ≠ .none then (error, f)
  else (.none, ⟨(bytes.slice 0 kEncodedEngineEventSize).foldl crc32cByte f.crcState, f.eventCount + 1,
    f.byteCount + UInt64.ofNat kEncodedEngineEventSize⟩)

/-- The events of a command, one after the other; `none` when one cannot be encoded. -/
def addAll (events : List EngineEvent) : Option ReplayFingerprint :=
  events.foldlM (fun f event => if (f.add event).1 = .none then some (f.add event).2 else none) f

end ReplayFingerprint

structure ReplayResult where
  commandsApplied : UInt64
  firstSequence : UInt64
  lastSequence : UInt64
  fingerprint : ReplayFingerprint
  deriving DecidableEq, Repr

/-- A result before any command. -/
def ReplayResult.initial : ReplayResult := ⟨0, 0, 0, .initial⟩

/-- A result with one more command, but for its events. -/
def ReplayResult.count (result : ReplayResult) (sequence : UInt64) : ReplayResult where
  commandsApplied := result.commandsApplied + 1
  firstSequence := if result.commandsApplied = 0 then sequence else result.firstSequence
  lastSequence := sequence
  fingerprint := result.fingerprint

inductive ReplayError where
  | journal
  | engineStateMismatch
  | unverifiableBoundary
  | boundaryMissing
  | boundaryTimeMismatch
  | sequenceGap
  | apply
  | invariant
  deriving DecidableEq, Repr

/-- What a replay returns, and the engine it leaves. -/
abbrev Replayed := Except ReplayError ReplayResult × SequencedEngine

/-! ## The loops -/

/-- The body of both loops on one command: it is applied, its events are added, and the book is checked. -/
def replayCommand (eventsSize : Nat) (command : SequencedCommand) (engine : SequencedEngine) (result : ReplayResult) :
    Comp Replayed :=
  if command.sequence ≠ engine.nextSequence then pure (.error .sequenceGap, engine)
  else do
    let (status, events, _, engine) ← engine.apply command eventsSize
    if status ≠ .applied then return (.error .apply, engine)
    match (result.count command.sequence).fingerprint.addAll events with
    | none => return (.error .apply, engine)
    | some fingerprint =>
      let (checked, orderBook) ← engine.orderBook.checkInvariants
      let engine := { engine with orderBook }
      if checked.violation ≠ .none then return (.error .invariant, engine)
      return (.ok { result.count command.sequence with fingerprint }, engine)

/-- One round: the record is read, and passed over when its number is below `below`. -/
def replayRecord (eventsSize : Nat) (below : UInt64) (journal : MmapJournal) (mapping : Buffer) (index : Nat) (engine : SequencedEngine)
    (result : ReplayResult) : Comp Replayed :=
  match journal.read mapping index with
  | .error _ => pure (.error .journal, engine)
  | .ok command => if command.sequence < below then pure (.ok result, engine) else replayCommand eventsSize command engine result

/-- The records of a journal from `index` on. -/
def replayRecords (eventsSize : Nat) (below : UInt64) (journal : MmapJournal) (mapping : Buffer) :
    Nat → Nat → SequencedEngine → ReplayResult → Comp Replayed
  | 0, _, engine, result => pure (.ok result, engine)
  | remaining + 1, index, engine, result => do
    match ← replayRecord eventsSize below journal mapping index engine result with
    | (.error error, engine) => return (.error error, engine)
    | (.ok result, engine) => replayRecords eventsSize below journal mapping remaining (index + 1) engine result

/-- The records of the segments. -/
def replaySegments (eventsSize : Nat) (below : UInt64) : List Segment → SequencedEngine → ReplayResult → Comp Replayed
  | [], engine, result => pure (.ok result, engine)
  | segment :: segments, engine, result => do
    match ← replayRecords eventsSize below segment.journal segment.mapping segment.journal.size 0 engine result with
    | (.error error, engine) => return (.error error, engine)
    | (.ok result, engine) => replaySegments eventsSize below segments engine result

/-! ## One journal -/

section

variable (journal : MmapJournal) (mapping : Buffer) (engine : SequencedEngine) (snapshot time : UInt64)

/-- The checks of `replay_journal` on the engine and the snapshot's point. -/
def journalStateError : Option ReplayError :=
  let terminalPoint := snapshot = uint64Max
  if terminalPoint ∨ engine.sequenceExhausted then
    if terminalPoint ∧ engine.sequenceExhausted ∧ engine.nextSequence = uint64Max ∧ engine.lastLogicalTime = time then
      some .unverifiableBoundary
    else some .engineStateMismatch
  else if (snapshot = 0 ∧ time ≠ 0) ∨ engine.nextSequence ≠ snapshot + 1 ∨ engine.lastLogicalTime ≠ time then
    some .engineStateMismatch
  else none

/-- The checks of `replay_journal` on the record at the snapshot's point. -/
def journalBoundaryError : Option ReplayError :=
  let base := journal.baseSequence
  if snapshot ≠ 0 then
    if base ≤ snapshot ∧ snapshot < journal.nextSequence then
      match journal.read mapping (snapshot - base).toNat with
      | .error _ => some .journal
      | .ok boundary =>
        if boundary.sequence ≠ snapshot then some .boundaryMissing
        else if boundary.logicalTime ≠ time then some .boundaryTimeMismatch
        else none
    else if base ≠ snapshot + 1 then some .boundaryMissing
    else none
  else if base ≠ 1 then some .sequenceGap
  else none

/-- The checks of `replay_journal` on the first record after the snapshot's point. -/
def journalSuffixError : Option ReplayError :=
  let next := snapshot + 1
  if next < journal.baseSequence ∨ journal.nextSequence < next then some .sequenceGap
  else
    let firstIndex := (next - journal.baseSequence).toNat
    if firstIndex < journal.size then
      match journal.read mapping firstIndex with
      | .error _ => some .journal
      | .ok first => if first.sequence ≠ engine.nextSequence then some .sequenceGap else none
    else none

/-- The checks of `replay_journal` before its loop: the first that fails. -/
def journalError (eventsSize : Nat) : Option ReplayError :=
  journalStateError engine snapshot time <|>
    (if snapshot + 1 < journal.baseSequence then some .sequenceGap else none) <|>
    journalBoundaryError journal mapping snapshot time <|>
    journalSuffixError journal mapping engine snapshot <|>
    (if eventsSize < engine.maximumEventCapacity then some .apply else none)

/-- `replay_journal`. -/
def replayJournal (eventsSize : Nat) : Comp Replayed :=
  match journalError journal mapping engine snapshot time eventsSize with
  | some error => pure (.error error, engine)
  | none =>
    let firstIndex := (snapshot + 1 - journal.baseSequence).toNat
    replayRecords eventsSize 0 journal mapping (journal.size - firstIndex) firstIndex engine .initial

end

/-! ## Segments -/

section

variable (segments : List Segment) (engine : SequencedEngine) (snapshot time : UInt64)

/-- The checks of `replay_journal_segments` on the engine and the snapshot's point. -/
def segmentsStateError : Option ReplayError :=
  if snapshot = uint64Max ∨ engine.sequenceExhausted then some .unverifiableBoundary
  else if (snapshot = 0 ∧ time ≠ 0) ∨ engine.nextSequence ≠ snapshot + 1 ∨ engine.lastLogicalTime ≠ time ∨ segments.length = 0 then
    some .engineStateMismatch
  else none

/-- `read_sequence`. -/
def readSequence (sequence : UInt64) : List Segment → Except ReplayError SequencedCommand
  | [] => .error .boundaryMissing
  | segment :: segments =>
    if segment.journal.baseSequence ≤ sequence ∧ sequence < segment.journal.nextSequence then
      (segment.journal.read segment.mapping (sequence - segment.journal.baseSequence).toNat).mapError fun _ => .journal
    else readSequence sequence segments

/-- The checks of `replay_journal_segments` on the record at the snapshot's point. -/
def segmentsBoundaryError (firstBase : UInt64) : Option ReplayError :=
  if snapshot = 0 then if firstBase ≠ 1 then some .sequenceGap else none
  else if firstBase ≠ snapshot + 1 then
    match readSequence snapshot segments with
    | .error error => some error
    | .ok boundary => if boundary.logicalTime ≠ time then some .boundaryTimeMismatch else none
  else none

/-- The checks of `replay_journal_segments` on the segments, from the base of the first to the end of the last. -/
def segmentsRangeError (first last : MmapJournal) (eventsSize : Nat) : Option ReplayError :=
  (if snapshot + 1 < first.baseSequence then some .sequenceGap else none) <|>
    segmentsBoundaryError segments snapshot time first.baseSequence <|>
    (if snapshot + 1 < first.baseSequence ∨ last.nextSequence < snapshot + 1 then some .sequenceGap else none) <|>
    (if eventsSize < engine.maximumEventCapacity then some .apply else none)

/-- The checks of `replay_journal_segments` before its loop: the first that fails. -/
def segmentsError (eventsSize : Nat) : Option ReplayError :=
  segmentsStateError segments engine snapshot time <|>
    match segments.head?, segments.getLast? with
    | some first, some last => segmentsRangeError segments engine snapshot time first.journal last.journal eventsSize
    | _, _ => none

/-- `replay_journal_segments`. -/
def replayJournalSegments (eventsSize : Nat) : Comp Replayed :=
  match segmentsError segments engine snapshot time eventsSize with
  | some error => pure (.error error, engine)
  | none => replaySegments eventsSize (snapshot + 1) segments engine .initial

end

end MatchingEngine

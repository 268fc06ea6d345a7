import MatchingEngine.Command
import MatchingEngine.Lib.Interrupt
import MatchingEngine.Lib.Mapped

/-!
# The memory-mapped journal

`MmapJournal` of `journal.hpp` and `journal.cpp`: a file of a 64-byte header and 80-byte records, one command each. The bytes are
the state of a program (`Prog Mapped`), since they outlive the journal object; the object is passed along. A system call that can
fail is an argument that says whether it succeeded, and a step of a program is a store or a pair of `msync` and `fsync`.
-/

namespace MatchingEngine

/-! ## Format -/

/-- `kJournalFormatVersion`. -/
def kJournalFormatVersion : UInt32 := 2

/-- `kMaximumJournalCapacity`. -/
def kMaximumJournalCapacity : Nat := 1000000

/-- `kJournalHeaderSize`. -/
def kJournalHeaderSize : Nat := 64

/-- `kJournalRecordSize`. -/
def kJournalRecordSize : Nat := 80

/-- `kJournalBaseSequenceOffset`. -/
def kJournalBaseSequenceOffset : Nat := 28

/-- `kJournalHeaderReservedOffset`. -/
def kJournalHeaderReservedOffset : Nat := 36

/-- `kRecordCommitOffset`. -/
def kRecordCommitOffset : Nat := 0

/-- `kRecordSequenceOffset`. -/
def kRecordSequenceOffset : Nat := 4

/-- `kRecordLogicalTimeOffset`. -/
def kRecordLogicalTimeOffset : Nat := 12

/-- `kRecordPayloadLengthOffset`. -/
def kRecordPayloadLengthOffset : Nat := 20

/-- `kRecordPayloadOffset`. -/
def kRecordPayloadOffset : Nat := 24

/-- `kRecordCrcOffset`. -/
def kRecordCrcOffset : Nat := 60

/-- `kRecordReservedOffset`. -/
def kRecordReservedOffset : Nat := 64

/-- `kCommittedMarker`. -/
def kCommittedMarker : UInt32 := 0x54494d43

/-- `kMagic` of `journal.cpp`: the bytes of `MEJNL4A` and a zero. -/
def kJournalMagic : List UInt8 := [77, 69, 74, 78, 76, 52, 65, 0]

inductive JournalError where
  | none
  | invalidPath
  | invalidCapacity
  | invalidBaseSequence
  | alreadyExists
  | notFound
  | permissionDenied
  | symlink
  | notRegularFile
  | fileSizeOverflow
  | fileSizeMismatch
  | invalidHeader
  | unsupportedPlatform
  | mapFailed
  | ioError
  | locked
  | commitIndeterminate
  | writerPoisoned
  | wrongProcess
  | corruptRecord
  | full
  | invalidCommand
  | sequenceDiscontinuity
  | decreasingLogicalTime
  | outOfRange
  | closed
  deriving DecidableEq, Repr

/-- One byte of `crc32c`: eight rounds. -/
def crc32cByte (crc : UInt32) (byte : UInt8) : UInt32 :=
  (List.range 8).foldl (fun crc _ => (crc >>> 1) ^^^ (0x82f63b78 &&& (0 - (crc &&& 1)))) (crc ^^^ byte.toUInt32)

/-- `crc32c`. -/
def crc32c (bytes : List UInt8) : UInt32 := ~~~(bytes.foldl crc32cByte 0xffffffff)

/-- Where the record `index` starts. -/
def recordOffset (index : Nat) : Nat := kJournalHeaderSize + index * kJournalRecordSize

/-- `record_span`. -/
def recordSpan (mapping : Buffer) (index : Nat) : Buffer := mapping.view (recordOffset index)

/-- The commit marker of the record `index`. -/
def commitMarker (mapping : Buffer) (index : Nat) : UInt32 := (recordSpan mapping index).readU32 kRecordCommitOffset

/-- The commit markers of a file: each is stored as a whole. -/
def commitMarkers (capacity : Nat) : List (Nat × Nat) :=
  (List.range capacity).map fun index => (recordOffset index + kRecordCommitOffset, 4)

/-- `decode_record`. -/
def decodeRecord (record : Buffer) : Except JournalError SequencedCommand :=
  if record.readU32 kRecordCommitOffset ≠ kCommittedMarker then .error .corruptRecord
  else if record.readU32 kRecordPayloadLengthOffset ≠ UInt32.ofNat kEncodedCommandPayloadSize ∨
      !record.allZero kRecordReservedOffset (kJournalRecordSize - kRecordReservedOffset) then .error .corruptRecord
  else if crc32c (record.slice kRecordSequenceOffset (kRecordCrcOffset - kRecordSequenceOffset)) ≠
      record.readU32 kRecordCrcOffset then .error .corruptRecord
  else
    match decodeCommandPayload (record.view kRecordPayloadOffset) kEncodedCommandPayloadSize with
    | .error _ => .error .corruptRecord
    | .ok payload => .ok ⟨payload, record.readU64 kRecordSequenceOffset, record.readU64 kRecordLogicalTimeOffset⟩

/-! ## The object -/

/-- `MmapJournal`, without its mapping: `descriptor` and `mapped` say whether the file is open and mapped. -/
structure MmapJournal where
  descriptor : Bool
  mapped : Bool
  capacity : Nat
  baseSequence : UInt64
  size : Nat
  lastLogicalTime : UInt64
  ownerPid : Nat
  writerPoisoned : Bool
  deriving DecidableEq, Repr

/-- `checked_file_size`. -/
def checkedFileSize (capacity : Nat) : Option Nat :=
  if capacity = 0 ∨ kMaximumJournalCapacity < capacity then none else some (kJournalHeaderSize + capacity * kJournalRecordSize)

namespace MmapJournal

/-- The private constructor: a journal over an open and mapped file. -/
def attached (pid capacity : Nat) (baseSequence : UInt64) : MmapJournal := ⟨true, true, capacity, baseSequence, 0, 0, pid, false⟩

variable (j : MmapJournal)

/-- `full`. -/
def full : Bool := j.size = j.capacity

/-- `base_sequence_ + size_`: the sequence number of the next command. -/
def nextSequence : UInt64 := j.baseSequence + UInt64.ofNat j.size

/-! ## Creation -/

/-- The checks `create` makes before it touches the file system. -/
def createError (capacity : Nat) (baseSequence : UInt64) : JournalError :=
  if capacity = 0 ∨ kMaximumJournalCapacity < capacity then .invalidCapacity
  else if baseSequence = 0 ∨ uint64Max - baseSequence < UInt64.ofNat (capacity - 1) then .invalidBaseSequence
  else if (checkedFileSize capacity).isNone then .fileSizeOverflow
  else .none

/-- The bytes `create` writes: a header and zeros. -/
def createdBytes (capacity : Nat) (baseSequence : UInt64) : Buffer :=
  let magic : Buffer := fun i => kJournalMagic.getD i 0
  ((((magic.writeU32 8 kJournalFormatVersion).writeU32 12 (UInt32.ofNat kJournalHeaderSize)).writeU32 16
    (UInt32.ofNat kJournalRecordSize)).writeU64 20 (UInt64.ofNat capacity)).writeU64 kJournalBaseSequenceOffset baseSequence

/-! ## Recovery -/

/-- What `recover` does with a record whose marker is not zero: it is corrupt, or it is counted. -/
def recoverRecord (mapping : Buffer) (index : Nat) : JournalError × MmapJournal :=
  if commitMarker mapping index ≠ kCommittedMarker then (.corruptRecord, j)
  else
    match decodeRecord (recordSpan mapping index) with
    | .error _ => (.corruptRecord, j)
    | .ok decoded =>
      if decoded.sequence ≠ j.baseSequence + UInt64.ofNat index ∨ decoded.logicalTime < j.lastLogicalTime then (.corruptRecord, j)
      else (.none, { j with size := index + 1, lastLogicalTime := decoded.logicalTime })

/-- The loop of `recover` over the records from `index` on. -/
def recoverFrom (mapping : Buffer) (index : Nat) : Nat → MmapJournal → JournalError × MmapJournal
  | 0, j => (.none, j)
  | remaining + 1, j =>
    if commitMarker mapping index = 0 then
      -- Only the markers of the later records are looked at.
      if (List.range remaining).all fun k => commitMarker mapping (index + 1 + k) = 0 then (.none, j) else (.corruptRecord, j)
    else if (j.recoverRecord mapping index).1 ≠ .none then j.recoverRecord mapping index
    else recoverFrom mapping (index + 1) remaining (j.recoverRecord mapping index).2

/-- `recover`. -/
def recover (mapping : Buffer) : JournalError × MmapJournal :=
  recoverFrom mapping 0 j.capacity { j with size := 0, lastLogicalTime := 0 }

/-- `open` of a regular file of `fileSize` bytes that no other open writer owns, when every system call succeeds. -/
def openFile (pid : Nat) (bytes : Buffer) (fileSize : Nat) : Except JournalError MmapJournal :=
  if fileSize < kJournalHeaderSize then .error .invalidHeader
  else if bytes.slice 0 8 ≠ kJournalMagic then .error .invalidHeader
  else
    let version := bytes.readU32 8
    let reservedOffset := if version = 1 then 28 else kJournalHeaderReservedOffset
    if (version ≠ 1 ∧ version ≠ kJournalFormatVersion) ∨ bytes.readU32 12 ≠ UInt32.ofNat kJournalHeaderSize ∨
        bytes.readU32 16 ≠ UInt32.ofNat kJournalRecordSize ∨
        !bytes.allZero reservedOffset (kJournalHeaderSize - reservedOffset) then .error .invalidHeader
    else
      let capacity := bytes.readU64 20
      let baseSequence := if version = 1 then 1 else bytes.readU64 kJournalBaseSequenceOffset
      if baseSequence = 0 ∨ capacity = 0 ∨ uint64Max - baseSequence < capacity - 1 then .error .invalidHeader
      else
        match checkedFileSize capacity.toNat with
        | none => .error .invalidHeader
        | some size =>
          if fileSize ≠ size then .error .fileSizeMismatch
          else
            match (attached pid capacity.toNat baseSequence).recover bytes with
            | (.none, j) => .ok j
            | (error, _) => .error error

/-! ## Appending and reading -/

/-- A store into the record `index`. -/
def storeRecord (index : Nat) (f : Buffer → Buffer) : Prog Mapped Unit :=
  Prog.step (Mapped.write fun mapping => mapping.splice (f (recordSpan mapping index)) (recordOffset index) kJournalRecordSize)

/-- An `msync` and an `fsync`: both are called, and the file is synchronised when both succeed. -/
structure SyncCalls where
  msync : Bool
  fsync : Bool
  deriving DecidableEq, Repr

/-- Whether a synchronisation succeeds. -/
def SyncCalls.ok (calls : SyncCalls) : Bool := calls.msync && calls.fsync

/-- The checks `append` makes before it writes. -/
def appendError (pid : Nat) (command : SequencedCommand) : JournalError :=
  if pid ≠ j.ownerPid then .wrongProcess
  else if !j.mapped || !j.descriptor then .closed
  else if j.writerPoisoned then .writerPoisoned
  else if j.size = j.capacity then .full
  else if validateCommandPayload command.payload ≠ .none then .invalidCommand
  else if command.sequence ≠ j.nextSequence then .sequenceDiscontinuity
  else if command.logicalTime < j.lastLogicalTime then .decreasingLogicalTime
  else .none

/-- The record `append` writes before it publishes the marker, store by store. -/
def writeRecord (index : Nat) (command : SequencedCommand) : Prog Mapped CommandCodecError := do
  storeRecord index fun _ => Buffer.zeros
  storeRecord index fun record => record.writeU64 kRecordSequenceOffset command.sequence
  storeRecord index fun record => record.writeU64 kRecordLogicalTimeOffset command.logicalTime
  storeRecord index fun record => record.writeU32 kRecordPayloadLengthOffset (UInt32.ofNat kEncodedCommandPayloadSize)
  let record := recordSpan (← Prog.get).now index
  let (error, payload) := encodeCommandPayload command.payload (record.view kRecordPayloadOffset) kEncodedCommandPayloadSize
  if error ≠ .none then return error
  storeRecord index fun record => record.splice payload kRecordPayloadOffset kEncodedCommandPayloadSize
  storeRecord index fun record =>
    record.writeU32 kRecordCrcOffset (crc32c (record.slice kRecordSequenceOffset (kRecordCrcOffset - kRecordSequenceOffset)))
  return .none

/-- `append` by the process `pid`, with the outcomes of the synchronisations before and after the marker is published. -/
def append (pid : Nat) (command : SequencedCommand) (data commit : SyncCalls) : Prog Mapped (JournalError × MmapJournal) :=
  if j.appendError pid command ≠ .none then pure (j.appendError pid command, j)
  else do
    let error ← writeRecord j.size command
    if error ≠ .none then return (.invalidCommand, j)
    Prog.step (Mapped.sync data.ok)
    if !data.ok then return (.ioError, j)
    storeRecord j.size fun record => record.writeU32 kRecordCommitOffset kCommittedMarker
    Prog.step (Mapped.sync commit.ok)
    if !commit.ok then return (.commitIndeterminate, { j with writerPoisoned := true })
    return (.none, { j with size := j.size + 1, lastLogicalTime := command.logicalTime })

/-- `read`, of a journal whose mapping shows `mapping`. -/
def read (mapping : Buffer) (index : Nat) : Except JournalError SequencedCommand :=
  if !j.mapped then .error .closed
  else if j.size ≤ index then .error .outOfRange
  else decodeRecord (recordSpan mapping index)

/-! ## Closing -/

/-- The outcomes of the system calls of `close`. -/
structure CloseCalls where
  msync : Bool
  munmap : Bool
  fsync : Bool
  close : Bool
  deriving DecidableEq, Repr

/-- `close` by the process `pid`: a call that fails leaves its part open, so a journal can stay half closed. -/
def close (pid : Nat) (calls : CloseCalls) : Prog Mapped (JournalError × MmapJournal) :=
  if !j.mapped && !j.descriptor then pure (.none, j)
  else if pid ≠ j.ownerPid then
    let failed := (j.mapped && !calls.munmap) || (j.descriptor && !calls.close)
    pure (if failed then .ioError else .wrongProcess,
      { j with mapped := j.mapped && !calls.munmap, descriptor := j.descriptor && !calls.close })
  else do
    Prog.step (Mapped.sync (j.mapped && calls.msync && j.descriptor && calls.fsync))
    let failed := (j.mapped && (!calls.msync || !calls.munmap)) || (j.descriptor && (!calls.fsync || !calls.close))
    return (if failed then .ioError else .none,
      { j with mapped := j.mapped && !calls.munmap, descriptor := j.descriptor && !calls.close })

/-! ## Runs -/

/-- A call of `append`: the calling process, the command, and the outcomes of the synchronisations. -/
structure AppendCall where
  pid : Nat
  command : SequencedCommand
  data : SyncCalls
  commit : SyncCalls
  deriving DecidableEq, Repr

/-- The program of a call. -/
def AppendCall.on (call : AppendCall) (j : MmapJournal) : Prog Mapped (JournalError × MmapJournal) :=
  j.append call.pid call.command call.data call.commit

/-- The commands that were acknowledged, and the command that was published without being acknowledged. -/
structure Account where
  acknowledged : List SequencedCommand
  published : Option SequencedCommand
  deriving DecidableEq, Repr

/-- The account after `append` has returned. -/
def Account.after (a : Account) (command : SequencedCommand) : JournalError → Account
  | .none => { a with acknowledged := a.acknowledged ++ [command] }
  | .commitIndeterminate => { a with published := some command }
  | _ => a

/-- A journal created by the process `pid`, after calls of `append` that have returned, with the account of these calls. -/
inductive AppendRun (pid capacity : Nat) (base : UInt64) : Account → MmapJournal → Mapped → Prop where
  | create (checked : createError capacity base = .none) :
      AppendRun pid capacity base ⟨[], none⟩ (attached pid capacity base) (.settled (createdBytes capacity base))
  | append {a : Account} {j : MmapJournal} {m : Mapped} (before : AppendRun pid capacity base a j m) (call : AppendCall) :
      AppendRun pid capacity base (a.after call.command ((call.on j).run m).result.1) ((call.on j).run m).result.2
        ((call.on j).run m).final

/-- A journal opened on `image` recovers exactly the commands of a list. -/
def Recovers (capacity : Nat) (base : UInt64) (image : Buffer) (cs : List SequencedCommand) : Prop :=
  ∀ pid, ∃ j, (attached pid capacity base).recover image = (.none, j) ∧ j.size = cs.length ∧ j.writerPoisoned = false ∧
    ∀ i (h : i < cs.length), j.read image i = .ok cs[i]

end MmapJournal

end MatchingEngine

import MatchingEngine.Journal
import Mathlib.Logic.Function.Basic

/-!
# Rotating journals

`RotatingJournal` and `JournalSegmentSet` of `journal.hpp` and `journal.cpp`: a journal cut into segments, one file each, named after
the sequence number of its first command. The directory that holds the segments, the parent of the path prefix, is the state of the
programs; a name is the list of its characters. The order in which a directory is listed is not specified, so a listing is an
argument.

A creation is one step: either the file is there, complete and synchronised, or the creation failed and has removed its file again. A
crash inside `MmapJournal::create`, which may leave an empty or half-written file, is outside the model. The crashes considered are the
writer's: what a segment shows once nothing has it open stays.
-/

namespace MatchingEngine

open Function

/-- The name of a file in its directory. -/
abbrev Path := List Char

/-- A path prefix: `parent_path()` and `filename()`. -/
structure PathPrefix where
  parent : List Char
  name : Path
  deriving DecidableEq, Repr

/-- `path_prefix.empty()`. -/
def PathPrefix.isEmpty (p : PathPrefix) : Bool := p.parent = [] ∧ p.name = []

/-- A journal file: its content and its length. -/
structure JournalFile where
  content : Mapped
  size : Nat

/-- The directory of the segments. -/
abbrev Directory := Path → Option JournalFile

namespace Directory

variable (d : Directory)

/-- The directory with another content of the file at `path`. -/
def setContent (path : Path) (content : Mapped) : Directory := update d path ((d path).map fun file => { file with content })

/-- The content of the file at `path`. -/
def contentAt (path : Path) : Mapped := ((d path).map JournalFile.content).getD (.settled Buffer.zeros)

/-- A program on the file at `path`. -/
def onFile {α : Type} (path : Path) (p : Prog Mapped α) : Prog Directory α :=
  Prog.focus (fun d => d.contentAt path) (fun content d => d.setContent path content) p

/-- A listing of the directory: every file once, in any order. -/
structure Lists (listing : List Path) : Prop where
  nodup : listing.Nodup
  mem_iff : ∀ path, path ∈ listing ↔ (d path).isSome = true

/-- After a crash: every file holds something that may have survived of it. -/
structure CrashesTo (d' : Directory) : Prop where
  files : ∀ path file, d path = some file → ∃ image,
    file.content.Survives (commitMarkers ((file.size - kJournalHeaderSize) / kJournalRecordSize)) image ∧
      d' path = some { file with content := .settled image }
  absent : ∀ path, d path = none → d' path = none

end Directory

/-! ## Names -/

/-- The decimal digits of a number in a fixed width, with leading zeros. -/
def decimal : Nat → Nat → List Char
  | 0, _ => []
  | width + 1, n => decimal width (n / 10) ++ [Char.ofNat (48 + n % 10)]

/-- The number a digit stands for. -/
def digitValue (c : Char) : Option Nat := if 48 ≤ c.toNat ∧ c.toNat ≤ 57 then some (c.toNat - 48) else none

/-- The number a list of digits stands for. -/
def parseDecimal (digits : List Char) : Option Nat :=
  digits.foldlM (fun n c => (digitValue c).map fun digit => n * 10 + digit) 0

/-- The end of a segment's name. -/
def segmentSuffix : List Char := ['.', 'j', 'o', 'u', 'r', 'n', 'a', 'l']

/-- The name of the segment from `base` on. -/
def segmentName (stem : PathPrefix) (base : UInt64) : Path := stem.name ++ '.' :: decimal 20 base.toNat ++ segmentSuffix

/-- `RotatingJournal::segment_path`. -/
def segmentPath (stem : PathPrefix) (base : UInt64) : Except JournalError Path :=
  if stem.isEmpty ∨ base = 0 then .error .invalidPath else .ok (segmentName stem base)

inductive JournalSetError where
  | none
  | invalidPath
  | ioError
  | malformedSegmentName
  | noSegments
  | journalOpen
  | sequenceGap
  | sequenceOverlap
  | nonfinalPartialSegment
  deriving DecidableEq, Repr

/-- The base sequence a file name gives; `none` when the name is not that of a segment of `stem`. -/
def segmentBase (stem : PathPrefix) (name : Path) : Option (Except JournalSetError UInt64) :=
  if !(stem.name ++ ['.']).isPrefixOf name || !segmentSuffix.isSuffixOf name then none
  else
    let digitsSize := name.length - (stem.name.length + 1) - segmentSuffix.length
    if digitsSize ≠ 20 then some (.error .malformedSegmentName)
    else
      match parseDecimal ((name.drop (stem.name.length + 1)).take digitsSize) with
      | none => some (.error .malformedSegmentName)
      | some base => some (if base = 0 ∨ 2 ^ 64 ≤ base then .error .malformedSegmentName else .ok (UInt64.ofNat base))

/-! ## Opening the segments -/

/-- A segment that is open: its name, the journal, and the bytes its mapping shows. -/
structure Segment where
  path : Path
  journal : MmapJournal
  mapping : Buffer

namespace JournalSegmentSet

/-- The segments of a listing, by the base their names give. -/
def candidates (stem : PathPrefix) : List Path → Except JournalSetError (List (UInt64 × Path))
  | [] => .ok []
  | name :: names =>
    match segmentBase stem name with
    | none => candidates stem names
    | some (.error error) => .error error
    | some (.ok base) => (candidates stem names).map ((base, name) :: ·)

/-- How a segment follows the one before it. -/
def followError (previous : MmapJournal) (base : UInt64) : JournalSetError :=
  if !previous.full then .nonfinalPartialSegment
  else if base < previous.nextSequence then .sequenceOverlap
  else if previous.nextSequence < base then .sequenceGap
  else .none

/-- One round of the loop of `open`. -/
def openCandidate (pid : Nat) (d : Directory) (previous : Option MmapJournal) (base : UInt64) (path : Path) :
    Except JournalSetError Segment :=
  match d path with
  | none => .error .journalOpen
  | some file =>
    match MmapJournal.openFile pid file.content.now file.size with
    | .error _ => .error .journalOpen
    | .ok journal =>
      if journal.baseSequence ≠ base then .error .malformedSegmentName
      else
        let error := (previous.map fun previous => followError previous base).getD .none
        if error ≠ .none then .error error else .ok ⟨path, journal, file.content.now⟩

/-- The loop of `open` over the sorted candidates. -/
def openCandidates (pid : Nat) (d : Directory) : Option MmapJournal → List (UInt64 × Path) → Except JournalSetError (List Segment)
  | _, [] => .ok []
  | previous, candidate :: rest => do
    let segment ← openCandidate pid d previous candidate.1 candidate.2
    let segments ← openCandidates pid d (some segment.journal) rest
    return segment :: segments

/-- `JournalSegmentSet::open`, when no other writer owns a segment and every system call succeeds. -/
def openAll (pid : Nat) (stem : PathPrefix) (listing : List Path) (d : Directory) : Except JournalSetError (List Segment) :=
  if stem.isEmpty ∨ stem.name = [] ∨ stem.name = ['.'] ∨ stem.name = ['.', '.'] then .error .invalidPath
  else do
    let found ← candidates stem listing
    if found.isEmpty then .error .noSegments
    else openCandidates pid d none (found.mergeSort fun a b => a.1 ≤ b.1)

/-- `release_last`, when the closing of the other segments succeeds or not. -/
def releaseLast (segments : List Segment) (closes : Bool) : Except JournalSetError Segment :=
  match segments.getLast? with
  | none => .error .noSegments
  | some last => if !closes && segments.length ≠ 1 then .error .ioError else .ok last

end JournalSegmentSet

/-! ## The writer -/

/-- `RotatingJournal`: the active journal comes with the name of its file. -/
structure RotatingJournal where
  stem : PathPrefix
  segmentCapacity : Nat
  active : Option (Path × MmapJournal)
  segmentCount : Nat
  lastLogicalTime : UInt64
  deriving DecidableEq, Repr

/-- What may go wrong in the system calls of a creation. -/
inductive CreateFailure where
  | alreadyExists
  | notFound
  | permissionDenied
  | symlink
  | notRegularFile
  | mapFailed
  | ioError
  | locked
  deriving DecidableEq, Repr

/-- The error a failed system call is reported as. -/
def CreateFailure.error : CreateFailure → JournalError
  | .alreadyExists => .alreadyExists
  | .notFound => .notFound
  | .permissionDenied => .permissionDenied
  | .symlink => .symlink
  | .notRegularFile => .notRegularFile
  | .mapFailed => .mapFailed
  | .ioError => .ioError
  | .locked => .locked

/-- `MmapJournal::create` in a directory. `outcome` is what goes wrong, or `none`: a creation that fails has removed its file
again. -/
def MmapJournal.create (pid : Nat) (path : Path) (capacity : Nat) (base : UInt64) (outcome : Option CreateFailure) :
    Prog Directory (Except JournalError MmapJournal) :=
  if createError capacity base ≠ .none then pure (.error (createError capacity base))
  else do
    let d ← Prog.get
    if (d path).isSome then return .error .alreadyExists
    match outcome with
    | some failure => return .error failure.error
    | none =>
      Prog.step fun d =>
        update d path (some ⟨.settled (createdBytes capacity base), kJournalHeaderSize + capacity * kJournalRecordSize⟩)
      return .ok (attached pid capacity base)

namespace RotatingJournal

/-- The outcomes of the system calls of a rotation and of the append after it. -/
structure AppendCalls where
  close : MmapJournal.CloseCalls
  create : Option CreateFailure
  data : MmapJournal.SyncCalls
  commit : MmapJournal.SyncCalls
  deriving DecidableEq, Repr

/-- `RotatingJournal::create`. -/
def create (pid : Nat) (stem : PathPrefix) (segmentCapacity : Nat) (base : UInt64) (outcome : Option CreateFailure) :
    Prog Directory (Except JournalError RotatingJournal) :=
  match segmentPath stem base with
  | .error error => pure (.error error)
  | .ok path => do
    match ← MmapJournal.create pid path segmentCapacity base outcome with
    | .error error => return .error error
    | .ok journal => return .ok ⟨stem, segmentCapacity, some (path, journal), 1, 0⟩

/-- `RotatingJournal::resume`. -/
def resume (pid : Nat) (stem : PathPrefix) (listing : List Path) (closes : Bool) (d : Directory) :
    Except JournalSetError RotatingJournal := do
  let segments ← JournalSegmentSet.openAll pid stem listing d
  let last ← JournalSegmentSet.releaseLast segments closes
  return ⟨stem, last.journal.capacity, some (last.path, last.journal), segments.length, last.journal.lastLogicalTime⟩

variable (r : RotatingJournal)

/-- `close` of the file at `path`; once nothing has it open, what it shows stays. -/
def closeFile (pid : Nat) (path : Path) (journal : MmapJournal) (calls : MmapJournal.CloseCalls) :
    Prog Directory (JournalError × MmapJournal) := do
  let closed ← Directory.onFile path (journal.close pid calls)
  if !closed.2.mapped && !closed.2.descriptor then Directory.onFile path (Prog.step (Mapped.sync true))
  return closed

/-- `rotate`, from the active journal at `path`. -/
def rotate (pid : Nat) (path : Path) (journal : MmapJournal) (calls : AppendCalls) : Prog Directory (JournalError × RotatingJournal) := do
  let closed ← closeFile pid path journal calls.close
  let r' := { r with active := some (path, closed.2) }
  if closed.1 ≠ .none then return (closed.1, r')
  match segmentPath r.stem journal.nextSequence with
  | .error error => return (error, r')
  | .ok next =>
    match ← MmapJournal.create pid next r.segmentCapacity journal.nextSequence calls.create with
    | .error error => return (error, r')
    | .ok created => return (.none, { r with active := some (next, created), segmentCount := r.segmentCount + 1 })

/-- The checks `append` makes before it rotates or writes. -/
def appendError (journal : MmapJournal) (command : SequencedCommand) : JournalError :=
  if validateCommandPayload command.payload ≠ .none then .invalidCommand
  else if command.sequence ≠ journal.nextSequence then .sequenceDiscontinuity
  else if command.logicalTime < r.lastLogicalTime then .decreasingLogicalTime
  else .none

/-- The append to the active journal, once the segment has room. -/
def appendActive (pid : Nat) (command : SequencedCommand) (calls : AppendCalls) : Prog Directory (JournalError × RotatingJournal) :=
  match r.active with
  | none => pure (.closed, r)
  | some (path, journal) => do
    let appended ← Directory.onFile path (journal.append pid command calls.data calls.commit)
    let r' := { r with active := some (path, appended.2) }
    return (appended.1, if appended.1 = .none then { r' with lastLogicalTime := command.logicalTime } else r')

/-- `RotatingJournal::append`. -/
def append (pid : Nat) (command : SequencedCommand) (calls : AppendCalls) : Prog Directory (JournalError × RotatingJournal) :=
  match r.active with
  | none => pure (.closed, r)
  | some (path, journal) =>
    if r.appendError journal command ≠ .none then pure (r.appendError journal command, r)
    else if journal.full then do
      let rotated ← r.rotate pid path journal calls
      if rotated.1 ≠ .none then return rotated
      rotated.2.appendActive pid command calls
    else r.appendActive pid command calls

/-- `RotatingJournal::close`. -/
def close (pid : Nat) (calls : MmapJournal.CloseCalls) : Prog Directory (JournalError × RotatingJournal) :=
  match r.active with
  | none => pure (.none, r)
  | some (path, journal) => do
    let closed ← closeFile pid path journal calls
    return (closed.1, { r with active := if closed.1 = .none then none else some (path, closed.2) })

end RotatingJournal

end MatchingEngine

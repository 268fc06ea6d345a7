import MatchingEngine.Segments

/-!
# Compaction and histories of a journal

`compact_journal_segments` of `replay.cpp`, and the histories of the segments of one prefix: writers are created, append, close, crash
and resume, and compaction runs between them. A history keeps, for each writer, which commands it acknowledged and which it published
without acknowledging it.

A file that is removed is gone at once, for a crash as well, and the removals of a compaction stay in their order; the source asks the
directory to be synchronised only behind the last of them. A creation is one step here too: no history has a crash inside
`MmapJournal::create`.
-/

namespace MatchingEngine

open Function

inductive JournalCompactionError where
  | none
  | snapshot
  | journalSet
  | snapshotBeforeRetainedHistory
  | snapshotAheadOfJournal
  | ioError
  | commitIndeterminate
  deriving DecidableEq, Repr

/-- The outcomes of the system calls of a compaction; the obsolete segments are counted from 0. -/
structure CompactCalls where
  create : Option CreateFailure
  close : Nat → MmapJournal.CloseCalls
  unlink : Nat → Bool
  closeSuccessor : MmapJournal.CloseCalls
  openParent : Bool
  fsyncParent : Bool
  closeParent : Bool

/-- Every call succeeds. -/
def CompactCalls.succeed : CompactCalls :=
  ⟨none, fun _ => ⟨true, true, true, true⟩, fun _ => true, ⟨true, true, true, true⟩, true, true, true⟩

namespace Compaction

/-- The segments a snapshot up to before `snapshotNext` makes obsolete. -/
def obsolete (snapshotNext : UInt64) (segments : List Segment) : List Segment :=
  segments.takeWhile fun s => s.journal.size ≠ 0 ∧ s.journal.nextSequence ≤ snapshotNext

/-- The checks of a compaction against the snapshot: the first and the end of the retained history. -/
def boundsError (snapshotNext : UInt64) (first last : MmapJournal) : JournalCompactionError :=
  if snapshotNext < first.baseSequence then .snapshotBeforeRetainedHistory
  else if last.nextSequence < snapshotNext then .snapshotAheadOfJournal
  else .none

/-- The obsolete segments are closed and removed one after the other, from `index` on: whether every call succeeded. -/
def removeSegments (pid : Nat) (calls : CompactCalls) : List Segment → Nat → Prog Directory Bool
  | [], _ => pure true
  | segment :: rest, index => do
    let closed ← RotatingJournal.closeFile pid segment.path segment.journal (calls.close index)
    if closed.1 ≠ .none then return false
    if !calls.unlink index then return false
    Prog.step fun d => update d segment.path none
    removeSegments pid calls rest (index + 1)

/-- The empty successor, when every segment is obsolete: the name of its file and its journal. -/
def createSuccessor (pid : Nat) (stem : PathPrefix) (capacity : Nat) (snapshotNext : UInt64) (outcome : Option CreateFailure) :
    Prog Directory (Option (Path × MmapJournal)) :=
  match segmentPath stem snapshotNext with
  | .error _ => pure none
  | .ok path => do
    match ← MmapJournal.create pid path capacity snapshotNext outcome with
    | .error _ => return none
    | .ok journal => return some (path, journal)

/-- The closing of the successor, if there is one: whether it succeeds. -/
def closeSuccessor (pid : Nat) (calls : CompactCalls) : Option (Path × MmapJournal) → Prog Directory Bool
  | none => pure true
  | some (path, journal) => do
    let closed ← RotatingJournal.closeFile pid path journal calls.closeSuccessor
    return decide (closed.1 = .none)

/-- The end of a compaction, after the successor exists: removals, the closing of the successor, and the directory's `fsync`. -/
def finish (pid : Nat) (calls : CompactCalls) (obsolete : List Segment) (successor : Option (Path × MmapJournal)) :
    Prog Directory JournalCompactionError := do
  let removed ← removeSegments pid calls obsolete 0
  if !removed then return .ioError
  let closed ← closeSuccessor pid calls successor
  if !closed then return .ioError
  if !calls.openParent then return .commitIndeterminate
  return if calls.fsyncParent && calls.closeParent then .none else .commitIndeterminate

/-- A compaction over the open segments `first .. last`. -/
def compactSegments (pid : Nat) (stem : PathPrefix) (snapshotNext : UInt64) (segments : List Segment) (first last : MmapJournal)
    (calls : CompactCalls) : Prog Directory JournalCompactionError :=
  if boundsError snapshotNext first last ≠ .none then pure (boundsError snapshotNext first last)
  else if (obsolete snapshotNext segments).isEmpty then pure .none
  else if (obsolete snapshotNext segments).length = segments.length then do
    match ← createSuccessor pid stem last.capacity snapshotNext calls.create with
    | none => return .ioError
    | some successor => finish pid calls (obsolete snapshotNext segments) (some successor)
  else finish pid calls (obsolete snapshotNext segments) none

end Compaction

/-- `compact_journal_segments`; `snapshot` is the sequence number of the snapshot that was loaded, if it is valid. -/
def compactJournalSegments (pid : Nat) (stem : PathPrefix) (listing : List Path) (snapshot : Option UInt64) (calls : CompactCalls) :
    Prog Directory JournalCompactionError :=
  match snapshot with
  | none => pure .snapshot
  | some sequence =>
    if sequence = uint64Max then pure .snapshot
    else do
      let d ← Prog.get
      match JournalSegmentSet.openAll pid stem listing d with
      | .error _ => return .journalSet
      | .ok segments =>
        match segments.head?, segments.getLast? with
        | some first, some last =>
          Compaction.compactSegments pid stem (sequence + 1) segments first.journal last.journal calls
        | _, _ => return .journalSet

/-! ## Histories -/

/-- The files of a prefix and the writer on them, with the process that runs it. -/
structure System where
  directory : Directory
  writer : Option (Nat × RotatingJournal)

/-- Nobody has a segment open. -/
def System.Quiescent (s : System) : Prop := ∀ w ∈ s.writer, w.2.active = none

/-- Without a writer nobody has. -/
theorem System.Quiescent.of_none (d : Directory) : System.Quiescent ⟨d, none⟩ := nofun

/-- When the writers of a history may be created or resumed, and whether the segments may be compacted. -/
structure Rules where
  create : List MmapJournal.Account → System → Prop
  resume : List MmapJournal.Account → List Segment → Prop
  compact : Prop

/-- The command a writer leaves published when it crashes in the middle of appending `command`. -/
def MmapJournal.Account.interrupted (a : MmapJournal.Account) (command : SequencedCommand) : MmapJournal.Account :=
  { a with published := a.published <|> some command }

open MmapJournal in
/-- The histories of one prefix, under rules: the accounts of the writers so far, the last of them the present one's, and the files. A
crash comes at any step of an append or of a closing, or between two calls. -/
inductive History (rules : Rules) (stem : PathPrefix) : List Account → Account → System → Prop where
  | start {d : Directory} (empty : ∀ path, (d path).isSome → segmentBase stem path = none) :
      History rules stem [] ⟨[], none⟩ ⟨d, none⟩
  | create {past : List Account} {a : Account} {s : System} (before : History rules stem past a s) (quiet : s.Quiescent)
      (allowed : rules.create (past ++ [a]) s) (pid capacity : Nat) (base : UInt64) {r : RotatingJournal}
      (created : ((RotatingJournal.create pid stem capacity base none).run s.directory).result = .ok r) :
      History rules stem (past ++ [a]) ⟨[], none⟩
        ⟨((RotatingJournal.create pid stem capacity base none).run s.directory).final, some (pid, r)⟩
  | append {past : List Account} {a : Account} {d : Directory} {pid : Nat} {r : RotatingJournal}
      (before : History rules stem past a ⟨d, some (pid, r)⟩) (command : SequencedCommand) (calls : RotatingJournal.AppendCalls) :
      History rules stem past (a.after command ((r.append pid command calls).run d).result.1)
        ⟨((r.append pid command calls).run d).final, some (pid, ((r.append pid command calls).run d).result.2)⟩
  | crashAppending {past : List Account} {a : Account} {d t d' : Directory} {pid : Nat} {r : RotatingJournal}
      (before : History rules stem past a ⟨d, some (pid, r)⟩) (command : SequencedCommand) (calls : RotatingJournal.AppendCalls)
      (stopped : t ∈ (r.append pid command calls).stops d) (crashed : t.CrashesTo d') :
      History rules stem past (a.interrupted command) ⟨d', none⟩
  | close {past : List Account} {a : Account} {d : Directory} {pid : Nat} {r : RotatingJournal}
      (before : History rules stem past a ⟨d, some (pid, r)⟩) (calls : CloseCalls) :
      History rules stem past a ⟨((r.close pid calls).run d).final, some (pid, ((r.close pid calls).run d).result.2)⟩
  | crashClosing {past : List Account} {a : Account} {d t d' : Directory} {pid : Nat} {r : RotatingJournal}
      (before : History rules stem past a ⟨d, some (pid, r)⟩) (calls : CloseCalls) (stopped : t ∈ (r.close pid calls).stops d)
      (crashed : t.CrashesTo d') : History rules stem past a ⟨d', none⟩
  | resume {past : List Account} {a : Account} {s : System} (before : History rules stem past a s) (quiet : s.Quiescent) (pid : Nat)
      {listing : List Path} (listed : s.directory.Lists listing) {segments : List Segment}
      (opened : JournalSegmentSet.openAll pid stem listing s.directory = .ok segments)
      (allowed : rules.resume (past ++ [a]) segments) {r : RotatingJournal}
      (resumed : RotatingJournal.resume pid stem listing true s.directory = .ok r) :
      History rules stem (past ++ [a]) ⟨[], none⟩ ⟨s.directory, some (pid, r)⟩
  | compact {past : List Account} {a : Account} {s : System} {d : Directory} (before : History rules stem past a s)
      (quiet : s.Quiescent) (allowed : rules.compact) (pid : Nat) {listing : List Path} (listed : s.directory.Lists listing)
      (snapshot : Option UInt64) (calls : CompactCalls)
      (stopped : d ∈ (compactJournalSegments pid stem listing snapshot calls).stops s.directory) :
      History rules stem past a ⟨d, s.writer⟩

end MatchingEngine

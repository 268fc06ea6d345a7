import MatchingEngine.Segments
import MatchingEngine.Snapshot
import Mathlib.Data.List.DropRight

/-!
# Paths as texts

The rules on the text of a path of `snapshot.cpp` and `journal.cpp`: `parse_path`, `parse_journal_path`, `RotatingJournal::segment_path` and
what `JournalSegmentSet::open` asks of a prefix. A text is the list of its characters; `filename()` and `parent_path()` split it at its last
slash. The directories are the state of the programs, each under the text that names it.
-/

namespace MatchingEngine

open Function

/-- `parent_path()`: what comes before the last slash, without the slashes at its end. -/
def parentPath (text : List Char) : List Char :=
  let directory := text.rdropWhile (· ≠ '/')
  let stripped := directory.rdropWhile (· = '/')
  if directory ≠ [] ∧ stripped = [] then ['/'] else stripped

/-- A path prefix from its text. -/
def PathPrefix.ofText (text : List Char) : PathPrefix := ⟨parentPath text, text.rtakeWhile (· ≠ '/')⟩

/-- The directory that is opened: the parent, or the one of the process. -/
def PathPrefix.directory (stem : PathPrefix) : List Char := if stem.parent = [] then ['.'] else stem.parent

/-- `ParsedPath` and `JournalPath`. -/
structure ParsedPath where
  parent : List Char
  basename : Path
  deriving DecidableEq, Repr

/-- The checks `parse_path` and `parse_journal_path` share, and what both return. -/
def parsedPath (text : List Char) : Option ParsedPath :=
  let stem := PathPrefix.ofText text
  if text = [] ∨ text.getLast? = some '/' ∨ '\x00' ∈ text ∨ stem.name = [] ∨ stem.name = ['.'] ∨ stem.name = ['.', '.'] ∨
      '/' ∈ stem.name ∨ '\x00' ∈ stem.name then none
  else some ⟨stem.directory, stem.name⟩

/-- `parse_path` of `snapshot.cpp`. -/
def parsePath (text : List Char) : Except SnapshotError ParsedPath :=
  match parsedPath text with
  | none => .error .invalidPath
  | some parsed => .ok parsed

/-- `parse_journal_path`. -/
def parseJournalPath (text : List Char) : Except JournalError ParsedPath :=
  match parsedPath text with
  | none => .error .invalidPath
  | some parsed => .ok parsed

/-- The directories, each under the text that names it. -/
abbrev FileSystem := List Char → Directory

/-- `RotatingJournal::segment_path`, with its parent. -/
def segmentPathOf (text : List Char) (base : UInt64) : Except JournalError (List Char) :=
  if text = [] ∨ base = 0 then .error .invalidPath else .ok (text ++ ('.' :: decimal 20 base.toNat ++ segmentSuffix))

/-- `MmapJournal::create`, and the name of the file. -/
def MmapJournal.createAt (pid : Nat) (path : List Char) (capacity : Nat) (base : UInt64) (outcome : Option CreateFailure) (fs : FileSystem) :
    Except JournalError (Path × MmapJournal) × FileSystem :=
  if createError capacity base ≠ .none then (.error (createError capacity base), fs)
  else
    match parseJournalPath path with
    | .error error => (.error error, fs)
    | .ok parsed =>
      let ran := (MmapJournal.create pid parsed.basename capacity base outcome).run (fs parsed.parent)
      (ran.result.map fun journal => (parsed.basename, journal), update fs parsed.parent ran.final)

/-- `RotatingJournal::create`. -/
def RotatingJournal.createAt (pid : Nat) (text : List Char) (capacity : Nat) (base : UInt64) (outcome : Option CreateFailure)
    (fs : FileSystem) : Except JournalError RotatingJournal × FileSystem :=
  match segmentPathOf text base with
  | .error error => (.error error, fs)
  | .ok path =>
    let created := MmapJournal.createAt pid path capacity base outcome fs
    (created.1.map fun active => ⟨.ofText text, capacity, some active, 1, 0⟩, created.2)

/-- `JournalSegmentSet::open`. -/
def JournalSegmentSet.openAt (pid : Nat) (text : List Char) (listing : List Path) (fs : FileSystem) :
    Except JournalSetError (List Segment) :=
  openAll pid (.ofText text) listing (fs (PathPrefix.ofText text).directory)

end MatchingEngine

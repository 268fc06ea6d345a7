import MatchingEngine.Lib.Folder
import MatchingEngine.Paths

/-!
# Replacing a snapshot's file

`save_snapshot_atomic` of `snapshot.cpp`. The directory of the destination is the state of the program; what its system calls do is an
argument. A system call that fails has changed nothing, and the writer is the only one that changes the directory.
-/

namespace MatchingEngine

def kTempAttempts : Nat := 16

/-- The directory of a snapshot. -/
abbrev SnapshotFolder := Folder Path UInt8

/-- The values of `errno` that are told apart. -/
inductive Errno where
  | enoent
  | eacces
  | eperm
  | eloop
  | eexist
  | other
  deriving DecidableEq, Repr

/-- `errno_error`. -/
def errnoError : Errno → SnapshotError
  | .enoent => .notFound
  | .eacces => .permissionDenied
  | .eperm => .permissionDenied
  | .eloop => .symlink
  | _ => .ioError

/-- What a `write` returns: an error that is `EINTR` or is not, or the number of bytes it took. -/
inductive WriteCall where
  | interrupted
  | failed
  | wrote (count : Nat)
  deriving DecidableEq, Repr

/-- What the system calls of a save do, the attempts at a temporary file counted from 0. `counters` is what `temp_counter` gives, and the
call after the last of `writes` takes all that is left. -/
structure SaveCalls where
  pid : Nat
  openParent : Option Errno
  counters : Nat → UInt64
  openTemporary : Nat → Option Errno
  fchmod : Bool
  fstat : Bool
  writes : List WriteCall
  fsync : Bool
  rename : Bool
  fsyncParent : Bool
  unlink : Option Errno
  close : Bool
  closeParent : Bool

namespace SaveCalls

variable (calls : SaveCalls) (basename : Path)

/-- The name of the temporary file of an attempt. -/
def temporaryName (attempt : Nat) : Path :=
  basename ++ ['.', 't', 'm', 'p', '.'] ++ Nat.toDigits 10 calls.pid ++ ['.'] ++ Nat.toDigits 10 (calls.counters attempt).toNat

/-- The outcome of an attempt: `O_EXCL` refuses a name that is taken. -/
def attempted (f : SnapshotFolder) (attempt : Nat) : Option Errno :=
  if (f.shown (calls.temporaryName basename attempt)).isSome then some .eexist else calls.openTemporary attempt

/-- The loop over the temporary names, with `left` attempts from `attempt` on: the file it has created, or `errno`. -/
def createTemporary : (left attempt : Nat) → Prog SnapshotFolder (Except Errno Path)
  | 0, _ => pure (.error .eexist)
  | left + 1, attempt => do
    match calls.attempted basename (← Prog.get) attempt with
    | none =>
      Prog.step (Folder.create (calls.temporaryName basename attempt))
      return .ok (calls.temporaryName basename attempt)
    | some .eexist => createTemporary left (attempt + 1)
    | some errno => return .error errno

end SaveCalls

/-- `write_exact`. -/
def writeExact (name : Path) : List WriteCall → List UInt8 → Prog SnapshotFolder Bool
  | [], bytes => do
    Prog.step (Folder.append name bytes)
    return true
  | call :: calls, bytes =>
    if bytes = [] then pure true
    else
      match call with
      | .interrupted => writeExact name calls bytes
      | .failed => pure false
      | .wrote count =>
        if count = 0 then pure false
        else do
          Prog.step (Folder.append name (bytes.take count))
          writeExact name calls (bytes.drop count)

namespace SaveCalls

variable (calls : SaveCalls) (basename temporary : Path)

/-- The temporary file is written and synchronised, and renamed: whether every call succeeds. -/
def renameTemporary (bytes : List UInt8) : Prog SnapshotFolder Bool := do
  if !calls.fchmod || !calls.fstat then return false
  if !(← writeExact temporary calls.writes bytes) then return false
  if !calls.fsync then return false
  Prog.step (Folder.syncFile temporary)
  if !calls.rename then return false
  Prog.step (Folder.rename temporary basename)
  return true

/-- The result, as the calls after the rename, or the failure before it, leave it. -/
def result (renamed : Bool) : SnapshotError :=
  let result := if !renamed then .ioError else if !calls.fsyncParent then .commitIndeterminate else .none
  let result := if !renamed && calls.unlink ≠ none && calls.unlink ≠ some .enoent then .ioError else result
  let result := if !calls.close && result = .none then .ioError else result
  if !calls.closeParent && result = .none then if renamed then .commitIndeterminate else .ioError else result

/-- What is left to do: the directory is synchronised, or the temporary file is removed. -/
def finish (renamed : Bool) : Prog SnapshotFolder SnapshotError := do
  if renamed && calls.fsyncParent then Prog.step Folder.sync
  if !renamed && calls.unlink = none then Prog.step (Folder.remove temporary)
  return calls.result renamed

/-- `save_snapshot_atomic`, once the engine is encoded. -/
def save (path : List Char) (encoded : Except SnapshotError (List UInt8)) : Prog SnapshotFolder SnapshotError :=
  match encoded with
  | .error error => pure error
  | .ok bytes =>
    match parsePath path with
    | .error error => pure error
    | .ok parsed =>
      match calls.openParent with
      | some errno => pure (errnoError errno)
      | none => do
        match ← calls.createTemporary parsed.basename kTempAttempts 0 with
        | .error errno => return if errno = .eexist then .tempCollisionLimit else errnoError errno
        | .ok temporary => calls.finish temporary (← calls.renameTemporary parsed.basename temporary bytes)

end SaveCalls

/-- `save_snapshot_atomic`: the program on the directory, and the engine, in whose book the check has left its marks. -/
def saveSnapshotAtomic (path : List Char) (engine : SequencedEngine) (point : SnapshotPoint) (calls : SaveCalls) :
    Comp (Prog SnapshotFolder SnapshotError × SequencedEngine) := do
  let (encoded, engine) ← encodeSnapshot engine point
  return (calls.save path encoded, engine)

end MatchingEngine

import MatchingEngine.Command
import MatchingEngine.Spsc

/-!
# The merge of the lanes

`DeterministicLaneMerger` of `lane_merge.hpp`: the consumers of several queues, one for each lane. A call looks at the heads of all the
queues, in the order of the consumers, and pops the queue whose head it has selected.
-/

namespace MatchingEngine

structure LaneCommand where
  payload : CommandPayload
  logicalTime : UInt64
  laneId : UInt32
  laneSequence : UInt64
  deriving DecidableEq, Repr

namespace LaneCommand

/-- `less`. -/
def less (left right : LaneCommand) : Bool :=
  if left.logicalTime ≠ right.logicalTime then left.logicalTime < right.logicalTime
  else if left.laneId ≠ right.laneId then left.laneId < right.laneId
  else left.laneSequence < right.laneSequence

end LaneCommand

/-- The variables of the loop of `try_pop`. -/
structure LaneSelection where
  selected : Nat := 0
  found : Bool := false
  selectedCommand : LaneCommand

/-- `selected_command_` outlives a call. -/
structure DeterministicLaneMerger where
  consumers : List (SpscQueue LaneCommand)
  selectedCommand : LaneCommand

/-- A round of the loop of `try_pop`, with what `try_peek` has found. -/
def LaneSelection.consider (s : LaneSelection) (index : Nat) : Option LaneCommand → LaneSelection
  | none => s
  | some candidate =>
    if !s.found || candidate.less s.selectedCommand then { selected := index, found := true, selectedCommand := candidate } else s

namespace DeterministicLaneMerger

/-- The loop of `try_pop` over the consumers from `index` on. -/
def select (index : Nat) : List (SpscQueue LaneCommand) → LaneSelection → LaneSelection × List (SpscQueue LaneCommand)
  | [], s => (s, [])
  | consumer :: consumers, s =>
    let peeked := consumer.tryPeek
    let rest := select (index + 1) consumers (s.consider index peeked.1)
    (rest.1, peeked.2 :: rest.2)

variable (merger : DeterministicLaneMerger)

/-- `try_pop`. -/
def tryPop : Option LaneCommand × DeterministicLaneMerger :=
  let (s, consumers) := select 0 merger.consumers { selectedCommand := merger.selectedCommand }
  let merger := { consumers, selectedCommand := s.selectedCommand }
  if s.found then
    match consumers[s.selected]? with
    | none => (none, merger)
    | some consumer =>
      let (command, consumer) := consumer.tryPop
      (command, { merger with consumers := consumers.set s.selected consumer })
  else (none, merger)

end DeterministicLaneMerger

/-- The calls of `try_pop` until one of them returns false: what they have popped, and the merger after them. -/
inductive Drains : DeterministicLaneMerger → List LaneCommand → DeterministicLaneMerger → Prop where
  | done {merger merger' : DeterministicLaneMerger} (empty : merger.tryPop = (none, merger')) : Drains merger [] merger'
  | pop {merger merger' merger'' : DeterministicLaneMerger} {command : LaneCommand} {commands : List LaneCommand}
      (popped : merger.tryPop = (some command, merger')) (rest : Drains merger' commands merger'') :
      Drains merger (command :: commands) merger''

end MatchingEngine

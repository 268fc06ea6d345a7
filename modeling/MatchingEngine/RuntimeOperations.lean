import MatchingEngine.Pipeline

/-!
# The operations of a runtime

`RuntimeOperations` of `runtime_operations.cpp`: the state an operator reads of a process, fed with the statuses its threads return. The
report as a text is left out.
-/

namespace MatchingEngine

inductive RuntimeLifecycle where
  | starting
  | running
  | draining
  | stopped
  | failed
  deriving DecidableEq, Repr

inductive RuntimeHealth where
  | healthy
  | backpressured
  | capacityExhausted
  | recoveryRequired
  | corruption
  deriving DecidableEq, Repr

/-- The byte of a health, by which healths are compared. -/
def RuntimeHealth.raw : RuntimeHealth → Nat
  | .healthy => 0
  | .backpressured => 1
  | .capacityExhausted => 2
  | .recoveryRequired => 3
  | .corruption => 4

inductive PublicationStatus where
  | progress
  | inputEmpty
  deriving DecidableEq, Repr

/-- `increment`: a counter stays at its maximum. -/
def increment (value : UInt64) : UInt64 := if value ≠ uint64Max then value + 1 else value

/-- `RuntimeOperations`, which is its `RuntimeHealthSnapshot`. -/
structure RuntimeOperations where
  lifecycle : RuntimeLifecycle := .starting
  health : RuntimeHealth := .healthy
  acceptedCommands : UInt64 := 0
  matchedCommands : UInt64 := 0
  publishedEvents : UInt64 := 0
  backpressureEvents : UInt64 := 0
  capacityEvents : UInt64 := 0
  failureEvents : UInt64 := 0
  deriving DecidableEq, Repr

namespace RuntimeOperations

variable (r : RuntimeOperations)

/-- `start`. -/
def start : Bool × RuntimeOperations :=
  if r.lifecycle ≠ .starting then (false, r) else (true, { r with lifecycle := .running })

/-- `begin_shutdown`. -/
def beginShutdown : Bool × RuntimeOperations :=
  if r.lifecycle ≠ .running then (false, r) else (true, { r with lifecycle := .draining })

/-- `complete_shutdown`. -/
def completeShutdown (commandQueueEmpty eventQueueEmpty : Bool) : Bool × RuntimeOperations :=
  if r.lifecycle ≠ .draining ∨ !commandQueueEmpty ∨ !eventQueueEmpty then (false, r) else (true, { r with lifecycle := .stopped })

/-- `raise_health`. -/
def raiseHealth (health : RuntimeHealth) : RuntimeOperations := if r.health.raw < health.raw then { r with health } else r

/-- `fail`. -/
def fail (health : RuntimeHealth) : RuntimeOperations :=
  let r := r.raiseHealth health
  { r with failureEvents := increment r.failureEvents, lifecycle := .failed }

/-- A backpressure that is observed. -/
def observeBackpressure : RuntimeOperations :=
  let r := r.raiseHealth .backpressured
  { r with backpressureEvents := increment r.backpressureEvents }

/-- A capacity that is observed to be exhausted. -/
def observeCapacity : RuntimeOperations :=
  let r := r.raiseHealth .capacityExhausted
  { r with capacityEvents := increment r.capacityEvents }

/-- `observe`, of a status of the ingress. -/
def observeIngress : IngressStatus → RuntimeOperations
  | .progress => { r with acceptedCommands := increment r.acceptedCommands }
  | .queueBackpressure => r.observeBackpressure
  | .journalFull | .sequenceExhausted => r.observeCapacity
  | .persistenceFailure | .commitIndeterminate | .recoveryRequired => r.fail .recoveryRequired
  | .invalidPayload | .decreasingLogicalTime => { r with failureEvents := increment r.failureEvents }
  | .stoppedPoisoned => r.fail .corruption

/-- `observe`, of a status of the matching. -/
def observeMatching : MatchingStatus → RuntimeOperations
  | .progress => { r with matchedCommands := increment r.matchedCommands }
  | .inputEmpty => r
  | .outputBackpressure => r.observeBackpressure
  | .sequenceExhausted | .impossibleEventCapacity => r.observeCapacity
  | .invalidCommand | .invalidSequence | .decreasingLogicalTime | .internalInvariantFailure | .poisoned => r.fail .corruption

/-- `observe`, of a status of the publication. -/
def observePublication (status : PublicationStatus) : RuntimeOperations :=
  if status = .progress then { r with publishedEvents := increment r.publishedEvents } else r

/-- `accepts_ingress`. -/
def acceptsIngress : Bool := r.lifecycle = .running ∧ r.health ≠ .recoveryRequired ∧ r.health ≠ .corruption

end RuntimeOperations

/-- A call on the operations. -/
inductive RuntimeCall where
  | start
  | beginShutdown
  | completeShutdown (commandQueueEmpty eventQueueEmpty : Bool)
  | ingress (status : IngressStatus)
  | matching (status : MatchingStatus)
  | publication (status : PublicationStatus)
  deriving DecidableEq, Repr

/-- The operations after a call. -/
def RuntimeOperations.after (r : RuntimeOperations) : RuntimeCall → RuntimeOperations
  | .start => r.start.2
  | .beginShutdown => r.beginShutdown.2
  | .completeShutdown commandQueueEmpty eventQueueEmpty => (r.completeShutdown commandQueueEmpty eventQueueEmpty).2
  | .ingress status => r.observeIngress status
  | .matching status => r.observeMatching status
  | .publication status => r.observePublication status

/-- The operations after calls on new ones. -/
def RuntimeOperations.run (calls : List RuntimeCall) : RuntimeOperations := calls.foldl RuntimeOperations.after {}

end MatchingEngine

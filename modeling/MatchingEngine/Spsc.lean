import MatchingEngine.Lib.Fifo
import MatchingEngine.Types
import Mathlib.Logic.Function.Basic

/-!
# The single-producer single-consumer queue

`SpscQueue` of `spsc_queue.hpp`. The operations are cut where the two threads meet: the load and the store of a published counter, and
each access of a slot, are steps of their own, and everything between them is local to a thread. A call of the source is the sequence of
its steps (`tryPushBatch`, `tryPeek`, `tryPop`, `producerAvailable`), and `QueueStep` interleaves the steps of a producer and a consumer.
-/

namespace MatchingEngine

open Function

/-- `kMaximumSpscCapacity`. -/
def kMaximumSpscCapacity : Nat := 1000000

/-- `SpscQueue`, with the check of its constructor. -/
structure SpscQueue (α : Type) where
  capacity : Nat
  slots : Nat → α
  tail : UInt64
  cachedHead : UInt64
  publishedTail : UInt64
  head : UInt64
  cachedTail : UInt64
  publishedHead : UInt64
  capacity_pos : 0 < capacity
  capacity_le : capacity ≤ kMaximumSpscCapacity

namespace SpscQueue

variable {α : Type}

/-- An empty queue whose counters are at `index`: a new one is at zero, and `set_empty_index_for_testing` sets them. -/
def emptyAt (capacity : Nat) (slots : Nat → α) (index : UInt64) (capacity_pos : 0 < capacity) (capacity_le : capacity ≤ kMaximumSpscCapacity) :
    SpscQueue α where
  capacity
  slots
  tail := index
  cachedHead := index
  publishedTail := index
  head := index
  cachedTail := index
  publishedHead := index
  capacity_pos
  capacity_le

/-- The constructor, with `validate_capacity`, for elements of `elementSize` bytes that are `slots` at first; `none` where it throws. -/
def create (elementSize capacity : Nat) (slots : Nat → α) : Option (SpscQueue α) :=
  if h : capacity = 0 ∨ kMaximumSpscCapacity < capacity ∨ (2 ^ 64 - 1) / elementSize < capacity then none
  else some (emptyAt capacity slots 0 (by omega) (by omega))

variable (q : SpscQueue α)

/-! ## Steps of the producer -/

/-- `producer_.cached_head = consumer_.published_head.load(...)`. -/
def loadHead : SpscQueue α := { q with cachedHead := q.publishedHead }

/-- `capacity_ - (producer_.tail - producer_.cached_head)`. -/
def space : Nat := sub64 q.capacity (q.tail - q.cachedHead).toNat

/-- The slot of a counter. -/
def slotOf (counter : UInt64) : Nat := counter.toNat % q.capacity

/-- `slots_[(tail + index) % capacity_] = value`. -/
def writeSlot (index : Nat) (value : α) : SpscQueue α :=
  { q with slots := update q.slots (q.slotOf (q.tail + UInt64.ofNat index)) value }

/-- `producer_.tail = tail + count`, and the store of `published_tail`. -/
def publishTail (count : Nat) : SpscQueue α :=
  { q with tail := q.tail + UInt64.ofNat count, publishedTail := q.tail + UInt64.ofNat count }

/-! ## Steps of the consumer -/

/-- `consumer_.cached_tail = producer_.published_tail.load(...)`. -/
def loadTail : SpscQueue α := { q with cachedTail := q.publishedTail }

/-- `slots_[head % capacity_]`. -/
def readSlot : α := q.slots (q.slotOf q.head)

/-- `++consumer_.head`, and the store of `published_head`. -/
def publishHead : SpscQueue α := { q with head := q.head + 1, publishedHead := q.head + 1 }

/-! ## Calls -/

/-- `producer_available`. -/
def producerAvailable : Nat × SpscQueue α := (q.loadHead.space, q.loadHead)

/-- The slots of a batch, one after the other. -/
def writeBatch (values : List α) : SpscQueue α := values.zipIdx.foldl (fun q v => q.writeSlot v.2 v.1) q

/-- `try_push_batch`; `try_push` is a batch of one value. -/
def tryPushBatch (values : List α) : Bool × SpscQueue α :=
  if values = [] then (true, q)
  else if q.capacity < values.length then (false, q)
  else if q.loadHead.space < values.length then (false, q.loadHead)
  else (true, (q.loadHead.writeBatch values).publishTail values.length)

/-- `try_peek`. -/
def tryPeek : Option α × SpscQueue α :=
  let q := if q.head = q.cachedTail then q.loadTail else q
  if q.head = q.cachedTail then (none, q) else (some q.readSlot, q)

/-- `try_pop`. -/
def tryPop : Option α × SpscQueue α :=
  match q.tryPeek with
  | (none, q) => (none, q)
  | (some value, q) => (some value, q.publishHead)

end SpscQueue

/-! ## Two threads -/

/-- Where the producer is in a call. -/
inductive ProducerPhase (α : Type) where
  | idle
  /-- The space was checked, and the slots of the values before `index` are written. -/
  | writing (values : List α) (index : Nat)
  deriving DecidableEq, Repr

/-- Where the consumer is in a call. -/
inductive ConsumerPhase (α : Type) where
  | idle
  /-- A value is known to be there; `pop` tells `try_pop` from `try_peek`. -/
  | reading (pop : Bool)
  /-- The value was read, and its slot is not yet released. -/
  | releasing (value : α)
  deriving DecidableEq, Repr

/-- A queue and the two threads that use it. -/
structure QueueState (α : Type) where
  queue : SpscQueue α
  producer : ProducerPhase α
  consumer : ConsumerPhase α

/-- What a step shows: the batch for which the producer has found space, the event of a call that has returned, or nothing. -/
inductive QueueLabel (α : Type) where
  | begins (values : List α)
  | silent
  | shows (event : QueueEvent α)

/-- The event of a `try_pop` or a `try_peek` that has found nothing. -/
def emptyEvent {α : Type} (pop : Bool) : QueueEvent α := if pop then .popped none else .peeked none

/-- One step of one of the threads. -/
inductive QueueStep {α : Type} : QueueState α → QueueLabel α → QueueState α → Prop where
  | available {s : QueueState α} (idle : s.producer = .idle) :
      QueueStep s (.shows (.available s.queue.loadHead.space)) { s with queue := s.queue.loadHead }
  | pushNothing {s : QueueState α} (idle : s.producer = .idle) : QueueStep s (.shows (.pushed [] true)) s
  | pushTooMany {s : QueueState α} {values : List α} (idle : s.producer = .idle) (many : s.queue.capacity < values.length) :
      QueueStep s (.shows (.pushed values false)) s
  | pushRefused {s : QueueState α} {values : List α} (idle : s.producer = .idle) (some : values ≠ []) (few : values.length ≤ s.queue.capacity)
      (full : s.queue.loadHead.space < values.length) : QueueStep s (.shows (.pushed values false)) { s with queue := s.queue.loadHead }
  | pushLoad {s : QueueState α} {values : List α} (idle : s.producer = .idle) (some : values ≠ []) (few : values.length ≤ s.queue.capacity)
      (room : values.length ≤ s.queue.loadHead.space) :
      QueueStep s (.begins values) { s with queue := s.queue.loadHead, producer := .writing values 0 }
  | pushWrite {s : QueueState α} {values : List α} {index : Nat} (writing : s.producer = .writing values index) (more : index < values.length) :
      QueueStep s .silent { s with queue := s.queue.writeSlot index values[index], producer := .writing values (index + 1) }
  | pushPublish {s : QueueState α} {values : List α} (written : s.producer = .writing values values.length) :
      QueueStep s (.shows (.pushed values true)) { s with queue := s.queue.publishTail values.length, producer := .idle }
  | takeCached {s : QueueState α} (pop : Bool) (idle : s.consumer = .idle) (known : s.queue.head ≠ s.queue.cachedTail) :
      QueueStep s .silent { s with consumer := .reading pop }
  | takeLoad {s : QueueState α} (pop : Bool) (idle : s.consumer = .idle) (unknown : s.queue.head = s.queue.cachedTail)
      (found : s.queue.head ≠ s.queue.loadTail.cachedTail) : QueueStep s .silent { s with queue := s.queue.loadTail, consumer := .reading pop }
  | takeNone {s : QueueState α} (pop : Bool) (idle : s.consumer = .idle) (unknown : s.queue.head = s.queue.cachedTail)
      (empty : s.queue.head = s.queue.loadTail.cachedTail) : QueueStep s (.shows (emptyEvent pop)) { s with queue := s.queue.loadTail }
  | peekRead {s : QueueState α} (reading : s.consumer = .reading false) :
      QueueStep s (.shows (.peeked (some s.queue.readSlot))) { s with consumer := .idle }
  | popRead {s : QueueState α} (reading : s.consumer = .reading true) : QueueStep s .silent { s with consumer := .releasing s.queue.readSlot }
  | popPublish {s : QueueState α} {value : α} (releasing : s.consumer = .releasing value) :
      QueueStep s (.shows (.popped (some value))) { s with queue := s.queue.publishHead, consumer := .idle }

/-- The events of a label. -/
def QueueLabel.events {α : Type} : QueueLabel α → List (QueueEvent α)
  | .begins _ => []
  | .silent => []
  | .shows event => [event]

/-- A run from a queue between calls: its events, and the state it has reached. Each batch meets the condition `ok` on the queue before
its first slot is written. -/
inductive QueueRun {α : Type} (ok : SpscQueue α → List α → Prop) (q : SpscQueue α) : List (QueueEvent α) → QueueState α → Prop where
  | start : QueueRun ok q [] ⟨q, .idle, .idle⟩
  | step {es : List (QueueEvent α)} {s s' : QueueState α} {label : QueueLabel α} (before : QueueRun ok q es s)
      (moves : QueueStep s label s') (meets : ∀ values, label = .begins values → ok s.queue values) : QueueRun ok q (es ++ label.events) s'

/-- The counters of the values in the queue and of a batch behind them have slots of their own: the slots of 64-bit counters repeat with
the capacity when the capacity divides `2 ^ 64`, and otherwise as long as the counters do not run over the wrap, or are few. -/
def SpscQueue.Spares {α : Type} (q : SpscQueue α) (values : List α) : Prop :=
  let length := (q.tail - q.publishedHead).toNat + values.length
  2 ^ 64 % q.capacity = 0 ∨ q.publishedHead.toNat + length ≤ 2 ^ 64 ∨ length ≤ 2 ^ 64 % q.capacity

end MatchingEngine

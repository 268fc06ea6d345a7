import MatchingEngine.Lemmas.Sequencing
import MatchingEngine.Lemmas.Spsc
import MatchingEngine.Pipeline

/-!
# The flow of commands and events

What each step of the pipeline does to the commands on their way from the journal to the engine, and to the events on their way to the
publication. The commands that were appended are those the engine has released, those in the queue, and the one the ingress is about to
publish; the events of the applied commands are those that were popped, those in the queue, and the batch the matching stage is about to
publish (`Flow`).
-/

namespace MatchingEngine

/-! ## Calls of the queues -/

namespace SpscQueue

variable {α : Type} {q : SpscQueue α} {f values : List α} {n : Nat}

/-- A queue between calls, after `n` values were popped, holds the values `f`. -/
structure Contains (q : SpscQueue α) (n : Nat) (f : List α) : Prop where
  holds : QueueState.Holds ⟨q, .idle, .idle⟩ f
  popped : q.publishedHead.toNat = n

theorem Contains.length_le (h : q.Contains n f) : f.length ≤ q.capacity := h.holds.counts.length_le

/-- The values from the head of a queue to its tail. -/
def contents (q : SpscQueue α) : List α :=
  (List.range (q.tail - q.head).toNat).map fun j => q.slots (q.slotOf (q.head + UInt64.ofNat j))

theorem Contains.contents_eq (h : q.Contains n f) : q.contents = f := by
  have hlength : (q.tail - q.head).toNat = f.length := by rw [h.holds.counts.tail, distance _ h.holds.counts.length_lt]
  refine List.ext_getElem (by rw [contents, List.length_map, List.length_range, hlength]) fun j hj hj' => ?_
  have hstores := h.holds.stores
  rw [show (⟨q, .idle, .idle⟩ : QueueState α).producer.written = [] from rfl, List.append_nil] at hstores
  simpa [contents] using hstores j hj'

theorem contains_emptyAt {capacity : Nat} {slots : Nat → α} {pos : 0 < capacity} {le : capacity ≤ kMaximumSpscCapacity} :
    (emptyAt capacity slots 0 pos le).Contains 0 [] := ⟨emptyAt_holds, rfl⟩

/-- `producer_available` counts the free slots. -/
theorem Contains.producerAvailable (h : q.Contains n f) :
    q.producerAvailable.1 = q.capacity - f.length ∧ q.producerAvailable.2.Contains n f ∧ q.producerAvailable.2.capacity = q.capacity :=
  ⟨h.holds.counts.space, ⟨h.holds.loadHead, h.popped⟩, rfl⟩

theorem writeBatch_publishedHead (q : SpscQueue α) (values : List α) : (q.writeBatch values).publishedHead = q.publishedHead := by
  rw [writeBatch]
  generalize values.zipIdx = batch
  induction batch generalizing q with
  | nil => rfl
  | cons v batch ih => exact ih _

theorem tryPushBatch_publishedHead (q : SpscQueue α) (values : List α) : (q.tryPushBatch values).2.publishedHead = q.publishedHead := by
  rw [tryPushBatch]
  split
  · rfl
  split
  · rfl
  split
  · rfl
  · exact writeBatch_publishedHead _ _

/-- A batch for which there is space is pushed, as long as the counters have not wrapped. -/
theorem Contains.tryPushBatch (h : q.Contains n f) (room : f.length + values.length ≤ q.capacity)
    (few : n + (f.length + values.length) ≤ 2 ^ 64) :
    (q.tryPushBatch values).1 = true ∧ (q.tryPushBatch values).2.Contains n (f ++ values) ∧
      (q.tryPushBatch values).2.capacity = q.capacity := by
  have spares : q.Spares values := by
    refine .inr (.inl ?_)
    rw [h.holds.counts.tail, h.holds.counts.publishedHead, distance _ h.holds.counts.length_lt, ← h.holds.counts.publishedHead, h.popped]
    exact few
  obtain ⟨f', step, hholds, hcapacity⟩ := h.holds.call (QueueRun.start.tryPushBatch rfl spares)
  generalize hok : (q.tryPushBatch values).1 = ok at step
  cases step with
  | push => exact ⟨rfl, ⟨hholds, (tryPushBatch_publishedHead q values).symm ▸ h.popped⟩, hcapacity⟩
  | refuse full => omega

theorem tryPeek_publishedHead (q : SpscQueue α) : q.tryPeek.2.publishedHead = q.publishedHead ∧ q.tryPeek.2.head = q.head := by
  rw [tryPeek]
  repeat' split
  all_goals exact ⟨rfl, rfl⟩

/-- `try_peek` shows the first value. -/
theorem Contains.tryPeek (h : q.Contains n f) :
    q.tryPeek.1 = f.head? ∧ q.tryPeek.2.Contains n f ∧ q.tryPeek.2.capacity = q.capacity := by
  obtain ⟨f', step, hholds, hcapacity⟩ := h.holds.call (QueueRun.start.tryPeek rfl)
  generalize hvalue : q.tryPeek.1 = value at step
  cases step with
  | peek => exact ⟨rfl, ⟨hholds, (tryPeek_publishedHead q).1.symm ▸ h.popped⟩, hcapacity⟩

theorem tryPop_eq (q : SpscQueue α) : q.tryPop = (q.tryPeek.1, if q.tryPeek.1.isSome then q.tryPeek.2.publishHead else q.tryPeek.2) := by
  rw [tryPop]
  rcases q.tryPeek with ⟨_ | value, q'⟩ <;> rfl

/-- `try_pop` finds nothing in an empty queue. -/
theorem Contains.tryPop_nil (h : q.Contains n []) :
    q.tryPop.1 = none ∧ q.tryPop.2.Contains n [] ∧ q.tryPop.2.capacity = q.capacity := by
  obtain ⟨hnone, hcontains, hcapacity⟩ := h.tryPeek
  rw [tryPop_eq, hnone]
  exact ⟨rfl, hcontains, hcapacity⟩

/-- `try_pop` takes the first value. -/
theorem Contains.tryPop_cons {v : α} (h : q.Contains n (v :: f)) (few : n + 1 < 2 ^ 64) :
    q.tryPop.1 = some v ∧ q.tryPop.2.Contains (n + 1) f ∧ q.tryPop.2.capacity = q.capacity := by
  obtain ⟨hsome, -, -⟩ := h.tryPeek
  obtain ⟨f', step, hholds, hcapacity⟩ := h.holds.call (QueueRun.start.tryPop rfl)
  have hpopped : q.tryPop.2.publishedHead.toNat = n + 1 := by
    rw [tryPop_eq, hsome]
    show (q.tryPeek.2.head + 1).toNat = n + 1
    rw [(tryPeek_publishedHead q).2, ← h.holds.counts.publishedHead, UInt64.toNat_add, h.popped]
    exact Nat.mod_eq_of_lt few
  have hvalue : q.tryPop.1 = some v := by
    rw [tryPop_eq]
    exact hsome
  rw [hvalue] at step
  cases step with
  | pop => exact ⟨hvalue, ⟨hholds, hpopped⟩, hcapacity⟩

end SpscQueue

/-! ## Commands in their order -/

/-- The time of the last of the commands, `t₀` before the first. -/
def timeAfter (t₀ : UInt64) (commands : List SequencedCommand) : UInt64 := (commands.getLast?.map SequencedCommand.logicalTime).getD t₀

@[simp] theorem timeAfter_snoc (t₀ : UInt64) (commands : List SequencedCommand) (command : SequencedCommand) :
    timeAfter t₀ (commands ++ [command]) = command.logicalTime := by
  simp [timeAfter]

/-- Commands that an engine takes one after the other when it waits for the number `n₀` and its last time is `t₀`. -/
structure Numbered (n₀ : Nat) (t₀ : UInt64) (commands : List SequencedCommand) : Prop where
  valid : ∀ c ∈ commands, validateCommandPayload c.payload = .none
  number : ∀ i (h : i < commands.length), commands[i].sequence.toNat = n₀ + i
  time : ∀ i (h : i < commands.length), timeAfter t₀ (commands.take i) ≤ commands[i].logicalTime

theorem Numbered.nil (n₀ : Nat) (t₀ : UInt64) : Numbered n₀ t₀ [] :=
  ⟨fun _ h => absurd h List.not_mem_nil, fun _ h => absurd h (Nat.not_lt_zero _), fun _ h => absurd h (Nat.not_lt_zero _)⟩

theorem Numbered.snoc {n₀ : Nat} {t₀ : UInt64} {commands : List SequencedCommand} {command : SequencedCommand} (h : Numbered n₀ t₀ commands)
    (hvalid : validateCommandPayload command.payload = .none) (hnumber : command.sequence.toNat = n₀ + commands.length)
    (htime : timeAfter t₀ commands ≤ command.logicalTime) : Numbered n₀ t₀ (commands ++ [command]) where
  valid c hc := by
    rcases List.mem_append.mp hc with hc | hc
    · exact h.valid c hc
    · exact List.mem_singleton.mp hc ▸ hvalid
  number i hi := by
    rw [List.length_append, List.length_singleton] at hi
    by_cases hlt : i < commands.length
    · rw [List.getElem_append_left hlt]
      exact h.number i hlt
    · obtain rfl : i = commands.length := by omega
      rw [List.getElem_concat_length rfl]
      exact hnumber
  time i hi := by
    rw [List.length_append, List.length_singleton] at hi
    rw [List.take_append_of_le_length (by omega)]
    by_cases hlt : i < commands.length
    · rw [List.getElem_append_left hlt]
      exact h.time i hlt
    · obtain rfl : i = commands.length := by omega
      rw [List.getElem_concat_length rfl, List.take_length]
      exact htime

/-! ## The stages -/

/-- What the ingress has made of the commands it has appended: their records are in the file from the record `first` on, and the sequencer
goes on behind them unless the stage has failed. -/
structure Ingested (first n₀ : Nat) (t₀ : UInt64) (journaled : List SequencedCommand) (stage : DurableIngressStage) : Prop where
  sized : stage.journal.Sized
  size : stage.journal.size = first + journaled.length
  records : MmapJournal.Journaled first journaled stage.file
  numbered : Numbered n₀ t₀ journaled
  sequencer : stage.recoveryRequired = false → stage.sequencer.next = n₀ + journaled.length ∧
    stage.sequencer.lastLogicalTime = timeAfter t₀ journaled
  running : stage.stopped = false

/-- What the ingress thread has found in the middle of a call. -/
def IngressPhase.Allowed (stage : DurableIngressStage) (free : Nat) : IngressPhase → Prop
  | .idle => True
  | .admitted payload logicalTime => stage.recoveryRequired = false ∧ validateCommandPayload payload = .none ∧
      stage.sequencer.exhausted = false ∧ stage.sequencer.lastLogicalTime ≤ logicalTime ∧ 0 < free
  | .persisted _ => 0 < free

/-- Space that is freed does not matter. -/
theorem IngressPhase.Allowed.mono {stage : DurableIngressStage} {free free' : Nat} {phase : IngressPhase} (h : phase.Allowed stage free)
    (hle : free ≤ free') : phase.Allowed stage free' := by
  cases phase with
  | idle => trivial
  | admitted payload time => exact ⟨h.1, h.2.1, h.2.2.1, h.2.2.2.1, Nat.lt_of_lt_of_le h.2.2.2.2 hle⟩
  | persisted command => exact Nat.lt_of_lt_of_le h hle

/-- The command that is appended and not published. -/
def IngressPhase.unpublished : IngressPhase → List SequencedCommand
  | .persisted command => [command]
  | _ => []

/-- The start of a call: the stage has given up, or gives up, or stays as it is. -/
theorem DurableIngressStage.accept_cases (stage : DurableIngressStage) (payload : CommandPayload) (time : UInt64)
    (q : SpscQueue SequencedCommand) :
    ((stage.accept payload time q).1 = some .stoppedPoisoned ∧ stage.stopped = true ∧ (stage.accept payload time q).2.1 = stage) ∨
    ((stage.accept payload time q).1 = some .recoveryRequired ∧ (stage.accept payload time q).2.1 = { stage with recoveryRequired := true }) ∨
    (stage.stopped = false ∧ stage.recoveryRequired = false ∧ (stage.accept payload time q).2.1 = stage ∧
      ∀ status, (stage.accept payload time q).1 = some status → status = .invalidPayload ∨ status = .sequenceExhausted ∨
        status = .decreasingLogicalTime ∨ status = .queueBackpressure) := by
  by_cases hstopped : stage.stopped = true
  · rw [accept, if_pos hstopped]
    exact .inl ⟨rfl, hstopped, rfl⟩
  by_cases hrecovery : (stage.recoveryRequired || !stage.journal.writable) = true
  · rw [accept, if_neg hstopped, if_pos hrecovery]
    exact .inr (.inl ⟨rfl, rfl⟩)
  rw [accept, if_neg hstopped, if_neg hrecovery]
  simp only [Bool.or_eq_true, not_or, Bool.not_eq_true] at hrecovery
  refine .inr (.inr ⟨by simpa using hstopped, hrecovery.1, ?_⟩)
  split
  · exact ⟨rfl, by rintro _ ⟨⟩; exact .inl rfl⟩
  split
  · exact ⟨rfl, by rintro _ ⟨⟩; exact .inr (.inl rfl)⟩
  split
  · exact ⟨rfl, by rintro _ ⟨⟩; exact .inr (.inr (.inl rfl))⟩
  split
  · exact ⟨rfl, by rintro _ ⟨⟩; exact .inr (.inr (.inr rfl))⟩
  · exact ⟨rfl, nofun⟩

/-- Only a stage that gives up is changed by the start of a call. -/
theorem DurableIngressStage.accept_eq (stage : DurableIngressStage) (payload : CommandPayload) (time : UInt64) (q : SpscQueue SequencedCommand)
    (h : (stage.accept payload time q).1 ≠ some .recoveryRequired) : (stage.accept payload time q).2.1 = stage := by
  rcases stage.accept_cases payload time q with ⟨-, -, heq⟩ | ⟨hstatus, -⟩ | ⟨-, -, heq, -⟩
  · exact heq
  · exact absurd hstatus h
  · exact heq

namespace Ingested

variable {first n₀ : Nat} {t₀ : UInt64} {journaled : List SequencedCommand} {stage : DurableIngressStage} {payload : CommandPayload}
  {time : UInt64} {q : SpscQueue SequencedCommand} {n : Nat} {f : List SequencedCommand}

/-- The journal has a bound on its commands. -/
theorem length_le (h : Ingested first n₀ t₀ journaled stage) : journaled.length ≤ kMaximumJournalCapacity := by
  have hsize := h.size
  have hle := h.sized.size_le
  have hcapacity := h.sized.capacity_le
  omega

/-- A stage that gives up changes nothing else. -/
theorem give_up (h : Ingested first n₀ t₀ journaled stage) : Ingested first n₀ t₀ journaled { stage with recoveryRequired := true } :=
  ⟨h.sized, h.size, h.records, h.numbered, nofun, h.running⟩

/-- The start of a call. -/
theorem accept (h : Ingested first n₀ t₀ journaled stage) (hq : q.Contains n f) (payload : CommandPayload) (time : UInt64) :
    Ingested first n₀ t₀ journaled (stage.accept payload time q).2.1 ∧ (stage.accept payload time q).2.2.Contains n f ∧
      (stage.accept payload time q).2.2.capacity = q.capacity ∧
      ((stage.accept payload time q).1 = none →
        (IngressPhase.admitted payload time).Allowed (stage.accept payload time q).2.1 (q.capacity - f.length)) := by
  obtain ⟨hfree, hloaded, hcapacity⟩ := hq.producerAvailable
  unfold DurableIngressStage.accept
  split
  · exact ⟨h, hq, rfl, nofun⟩
  split
  · exact ⟨h.give_up, hq, rfl, nofun⟩
  rename_i hwritable
  split
  · exact ⟨h, hq, rfl, nofun⟩
  rename_i hvalid
  split
  · exact ⟨h, hq, rfl, nofun⟩
  rename_i hlive
  split
  · exact ⟨h, hq, rfl, nofun⟩
  rename_i htime
  split
  · exact ⟨h, hloaded, hcapacity, nofun⟩
  · rename_i hspace
    rw [hfree] at hspace
    refine ⟨h, hloaded, hcapacity, fun _ => ⟨?_, not_not.mp hvalid, by simpa using hlive, UInt64.not_lt.mp htime, Nat.pos_of_ne_zero hspace⟩⟩
    simp only [Bool.or_eq_true, not_or, Bool.not_eq_true] at hwritable
    exact hwritable.1

/-- The command is stamped and appended, or nothing is added to the commands. -/
theorem persist (h : Ingested first n₀ t₀ journaled stage) {free : Nat} (hallowed : (IngressPhase.admitted payload time).Allowed stage free)
    (calls : PersistCalls) :
    (∃ command, (stage.persist payload time calls).1 = .ok command ∧
      Ingested first n₀ t₀ (journaled ++ [command]) (stage.persist payload time calls).2) ∨
    (∃ status, (stage.persist payload time calls).1 = .error status ∧ Ingested first n₀ t₀ journaled (stage.persist payload time calls).2 ∧
      (status = .journalFull ∧ (stage.persist payload time calls).2 = stage ∨
        (status = .persistenceFailure ∨ status = .commitIndeterminate) ∧ (stage.persist payload time calls).2.recoveryRequired = true)) := by
  obtain ⟨hhealthy, hvalid, hlive, htime, -⟩ := hallowed
  obtain ⟨hnext, hlast⟩ := h.sequencer hhealthy
  by_cases hfull : stage.journal.full = true
  · rw [DurableIngressStage.persist, if_pos hfull]
    exact .inr ⟨_, rfl, h, .inl ⟨rfl, rfl⟩⟩
  obtain ⟨sequencer, hstamp⟩ := Sequencer.exists_stamp hvalid htime (nextNumber_lt_iff.mpr hlive)
  obtain ⟨-, -, -, -, hnext', htime'⟩ := Sequencer.stamp_ok hstamp
  generalize hcommand : (⟨payload, stage.sequencer.nextSequence, time⟩ : SequencedCommand) = command at hstamp
  have hkept := h.records.append h.size calls.pid command calls.data calls.commit
  rw [DurableIngressStage.persist, if_neg hfull, hstamp]
  dsimp only
  rcases MmapJournal.append_cases stage.journal calls.pid command calls.data calls.commit stage.file with
    ⟨hnone, hroom, hjournal⟩ | ⟨hfailed, poisoned, hjournal⟩
  · rw [if_neg (not_not.mpr hnone)]
    refine .inl ⟨command, rfl, ?_, ?_, hkept.2 hnone, h.numbered.snoc ?_ ?_ ?_, fun _ => ⟨?_, ?_⟩, h.running⟩
    · rw [hjournal]
      exact h.sized.append hroom _
    · rw [hjournal, List.length_append, ← Nat.add_assoc, ← h.size]
      rfl
    · rw [← hcommand]
      exact hvalid
    · rw [← hcommand, ← hnext, Sequencer.next_eq hlive]
    · rw [← hcommand, ← hlast]
      exact htime
    · rw [hnext', hnext, List.length_append]
      rfl
    · rw [htime', timeAfter_snoc, ← hcommand]
  · rw [if_pos hfailed]
    refine .inr ⟨_, rfl, ⟨?_, ?_, hkept.1, h.numbered, nofun, h.running⟩, .inr ⟨?_, rfl⟩⟩
    · rw [hjournal]
      exact ⟨h.sized.size_le, h.sized.capacity_le, h.sized.numbers⟩
    · rw [hjournal]
      exact h.size
    · split
      · exact .inr rfl
      · exact .inl rfl

end Ingested

/-- A command for which there is space is published. -/
theorem DurableIngressStage.publish_progress (stage : DurableIngressStage) (command : SequencedCommand) {q : SpscQueue SequencedCommand} {n : Nat}
    {f : List SequencedCommand} (hq : q.Contains n f) (hspace : 0 < q.capacity - f.length) (few : n + (f.length + 1) ≤ 2 ^ 64) :
    (stage.publish command q).1 = .progress ∧ (stage.publish command q).2.1 = stage ∧
      (stage.publish command q).2.2.Contains n (f ++ [command]) ∧ (stage.publish command q).2.2.capacity = q.capacity := by
  have hroom : f.length + [command].length ≤ q.capacity := by
    rw [List.length_singleton]
    omega
  obtain ⟨hpushed, hcontains, hcapacity⟩ := hq.tryPushBatch hroom few
  rw [publish]
  dsimp only
  rw [if_pos hpushed]
  exact ⟨rfl, rfl, hcontains, hcapacity⟩

namespace SequencedEngine

variable {e e' : SequencedEngine} {cfg : BookConfig} {state : TradingState}

/-- Every command has an event. -/
theorem events_ne_nil (e : SequencedEngine) (command : SequencedCommand) (tag : CommandType) (outcome : Outcome) (after : OrderBook) :
    e.events command tag outcome after ≠ [] := by
  unfold events
  split
  · exact List.cons_ne_nil _ _
  · exact List.cons_ne_nil _ _
  · exact List.cons_ne_nil _ _
  · exact List.cons_ne_nil _ _

/-- A command that replaces an order finds a place in the trade buffer. -/
theorem Reached.tradeCapacity_pos (h : e.Reached cfg state) {handle : Handle} {price : Int} {quantity : Nat}
    (hr : e.orderBook.preflightReplace handle price quantity = .none) : 0 < e.tradeCapacity := by
  obtain ⟨L, hrepr, -⟩ := h.ladder
  unfold OrderBook.preflightReplace at hr
  split at hr
  · cases hr
  · rename_i order hresolve
    unfold OrderArena.resolve at hresolve
    split at hresolve
    · rename_i hlive
      simp only [OrderArena.isLiveHandle, Bool.and_eq_true, decide_eq_true_eq] at hlive
      have hcapacity := hrepr.arena.capacity
      have hbuffer := h.buffer
      omega
    · cases hresolve

theorem Reached.required_pos (h : e.Reached cfg state) {payload : CommandPayload} {tag : CommandType} {required : Nat}
    (hr : (e.requiredEventCapacity payload tag).Returns required) : 0 < required := by
  unfold requiredEventCapacity at hr
  cases tag <;> simp only [Comp.returns_bind, Comp.returns_pure, matchingCapacity] at hr
  case replace =>
    split at hr
    · omega
    · rename_i hnone
      have := h.tradeCapacity_pos (not_not.mp hnone)
      omega
  case submitLimit =>
    obtain ⟨checked, -, hr⟩ := hr
    split at hr <;> omega
  case submitIceberg =>
    obtain ⟨checked, -, hr⟩ := hr
    split at hr <;> omega
  all_goals
    first | (split at hr <;> omega) | omega

end SequencedEngine

/-- What the matching stage has made of the commands it has applied. -/
structure Processed (size : Nat) (e₀ : SequencedEngine) (cfg : BookConfig) (state : TradingState) (n₀ : Nat) (t₀ : UInt64)
    (applied : List (SequencedCommand × List EngineEvent)) (stage : MatchingStage) : Prop where
  sound : stage.poisoned = false
  scratch : stage.scratchCapacity = size
  buffer : stage.engine.maximumEventCapacity = size
  reached : stage.engine.Reached cfg state
  answers : Answers size e₀ applied stage.engine
  next : stage.engine.next = n₀ + applied.length
  time : stage.engine.lastLogicalTime = timeAfter t₀ (applied.map Prod.fst)

/-- What the matching thread has found in the middle of a call. -/
def MatchingPhase.Allowed (free : Nat) : MatchingPhase → Prop
  | .admitted _ required => required ≤ free
  | .applied _ batch => batch.length ≤ free
  | _ => True

@[inherit_doc IngressPhase.Allowed.mono]
theorem MatchingPhase.Allowed.mono {free free' : Nat} {phase : MatchingPhase} (h : phase.Allowed free) (hle : free ≤ free') :
    phase.Allowed free' := by
  cases phase with
  | admitted command required => exact Nat.le_trans h hle
  | applied command batch => exact Nat.le_trans h hle
  | _ => trivial

/-- The command the matching thread has in its hands. -/
def MatchingPhase.command? : MatchingPhase → Option SequencedCommand
  | .idle => none
  | .peeked command => some command
  | .admitted command _ => some command
  | .applied command _ => some command
  | .published command => some command

/-- The command that is applied and not released. -/
def MatchingPhase.unreleased : MatchingPhase → List SequencedCommand
  | .applied command _ => [command]
  | .published command => [command]
  | _ => []

/-- The events that are not published. -/
def MatchingPhase.unpublished : MatchingPhase → List EngineEvent
  | .applied _ batch => batch
  | _ => []

namespace Processed

variable {size : Nat} {e₀ : SequencedEngine} {cfg : BookConfig} {state : TradingState} {n₀ : Nat} {t₀ : UInt64}
  {applied : List (SequencedCommand × List EngineEvent)} {stage : MatchingStage} {command : SequencedCommand}
  {journaled rest : List SequencedCommand} {q : SpscQueue EngineEvent} {n : Nat} {f : List EngineEvent}

/-- The next of the commands in their order is the one the engine waits for. -/
theorem commandStatus_eq (h : Processed size e₀ cfg state n₀ t₀ applied stage) (hnumbered : Numbered n₀ t₀ journaled)
    (hnext : journaled = applied.map Prod.fst ++ command :: rest) : stage.engine.commandStatus command = .applied := by
  have hlt : applied.length < journaled.length := by
    rw [hnext]
    simp
  have hget : journaled[applied.length] = command := by
    simp [hnext]
  have hnumber := hnumbered.number applied.length hlt
  have htime := hnumbered.time applied.length hlt
  have htake : journaled.take applied.length = applied.map Prod.fst := by
    rw [hnext, List.take_left' (List.length_map _)]
  rw [hget, htake] at htime
  rw [hget, ← h.next] at hnumber
  have hlive : stage.engine.sequenceExhausted = false := nextNumber_lt_iff.mp (hnumber.ge.trans_lt (UInt64.toNat_lt _))
  refine SequencedEngine.commandStatus_applied hlive (hnumbered.valid _ (hget ▸ List.getElem_mem hlt)) ?_ (h.time ▸ htime)
  refine UInt64.toNat_inj.mp ?_
  rw [hnumber, SequencedEngine.next_eq hlive]

/-- The check of a command the engine waits for: there is space for its events, or there is not. -/
theorem accept (h : Processed size e₀ cfg state n₀ t₀ applied stage) (hstatus : stage.engine.commandStatus command = .applied)
    (hq : q.Contains n f) (hsize : size ≤ q.capacity) {r : Except MatchingStatus Nat × MatchingStage × SpscQueue EngineEvent}
    (hr : (stage.accept command q).Returns r) :
    r.2.1 = stage ∧ r.2.2.Contains n f ∧ r.2.2.capacity = q.capacity ∧
      (r.1 = .error .outputBackpressure ∨ ∃ required, r.1 = .ok required ∧ required ≤ q.capacity - f.length) := by
  obtain ⟨hlive, hvalid, hsequence, htime⟩ := SequencedEngine.commandStatus_eq_applied hstatus
  obtain ⟨tag, htag⟩ := SequencedEngine.exists_tag hvalid
  obtain ⟨hfree, hloaded, hcapacity⟩ := hq.producerAvailable
  unfold MatchingStage.accept at hr
  rw [if_neg (by rw [hlive]; exact nofun), if_neg (not_not.mpr hvalid), if_neg (not_not.mpr hsequence),
    if_neg (UInt64.not_lt.mpr htime), Comp.returns_bind] at hr
  obtain ⟨required, hrequired, hr⟩ := hr
  unfold SequencedEngine.requiredEvents at hrequired
  rw [htag] at hrequired
  have hpos := h.reached.required_pos hrequired
  have hle := h.reached.required_le hrequired
  have hscratch := h.scratch
  have hbuffer := h.buffer
  rw [if_neg (by omega)] at hr
  split at hr
  · rw [Comp.returns_pure] at hr
    subst hr
    exact ⟨rfl, hloaded, hcapacity, .inl rfl⟩
  · rename_i hspace
    rw [Comp.returns_pure] at hr
    subst hr
    exact ⟨rfl, hloaded, hcapacity, .inr ⟨required, rfl, by omega⟩⟩

/-- A command the engine waits for is applied. -/
theorem apply (h : Processed size e₀ cfg state n₀ t₀ applied stage) (hstatus : stage.engine.commandStatus command = .applied) {required : Nat}
    (few : ∀ status events trades engine,
      (stage.engine.apply command stage.scratchCapacity).Returns (status, events, trades, engine) → events.length ≤ required)
    {r : Except MatchingStatus (List EngineEvent) × MatchingStage} (hr : (stage.apply command required).Returns r) :
    ∃ batch, r.1 = .ok batch ∧ batch.length ≤ required ∧ Processed size e₀ cfg state n₀ t₀ (applied ++ [(command, batch)]) r.2 := by
  unfold MatchingStage.apply at hr
  rw [Comp.returns_bind] at hr
  obtain ⟨⟨status, events, trades, engine⟩, happly, hr⟩ := hr
  have hlength := few _ _ _ _ happly
  have hsize : stage.engine.maximumEventCapacity ≤ stage.scratchCapacity := by
    rw [h.scratch, h.buffer]
  obtain ⟨rfl, tag, htag, hperform⟩ := (h.reached.apply_iff hstatus hsize).mp happly
  obtain ⟨hreached, hcapacity⟩ := h.reached.apply happly
  have hne : events ≠ [] := by
    obtain ⟨outcome, book, -, rfl, -, -⟩ := SequencedEngine.returns_perform hperform
    exact SequencedEngine.events_ne_nil _ _ _ _ _
  simp only [MatchingStage.failure] at hr
  rw [if_neg (by rw [not_or]; exact ⟨hne, Nat.not_lt.mpr hlength⟩), Comp.returns_pure] at hr
  subst hr
  have hlive := (SequencedEngine.commandStatus_eq_applied hstatus).1
  obtain ⟨outcome, book, -, -, -, hengine⟩ := SequencedEngine.returns_perform hperform
  refine ⟨events, rfl, hlength, h.sound, h.scratch, ?_, hreached, .snoc h.answers (h.scratch ▸ happly), ?_, ?_⟩
  · rw [← h.buffer]
    exact congrArg (fun capacity => capacity * 2 + 1) hcapacity
  · rw [hengine, List.length_append]
    show nextNumber _ _ = _
    rw [nextNumber_afterSequence, ← SequencedEngine.next_eq hlive, h.next]
    rfl
  · rw [hengine, List.map_append]
    exact (timeAfter_snoc _ _ _).symm

/-- A batch for which there is space is published. -/
theorem publish (h : Processed size e₀ cfg state n₀ t₀ applied stage) (hq : q.Contains n f) {batch : List EngineEvent}
    (hspace : batch.length ≤ q.capacity - f.length) (few : n + (f.length + batch.length) ≤ 2 ^ 64) :
    (stage.publish batch q).1 = none ∧ Processed size e₀ cfg state n₀ t₀ applied (stage.publish batch q).2.1 ∧
      (stage.publish batch q).2.2.Contains n (f ++ batch) ∧ (stage.publish batch q).2.2.capacity = q.capacity := by
  have hle := hq.length_le
  obtain ⟨hpushed, hcontains, hcapacity⟩ := hq.tryPushBatch (show f.length + batch.length ≤ q.capacity by omega) few
  rw [MatchingStage.publish]
  dsimp only
  rw [if_pos hpushed]
  exact ⟨rfl, ⟨h.sound, h.scratch, h.buffer, h.reached, h.answers, h.next, h.time⟩, hcontains, hcapacity⟩

end Processed

/-- The first of the commands in the queue is released. -/
theorem MatchingStage.release_progress (stage : MatchingStage) {command : SequencedCommand} {q : SpscQueue SequencedCommand} {n : Nat}
    {f : List SequencedCommand} (hq : q.Contains n (command :: f)) (few : n + 1 < 2 ^ 64) :
    (stage.release command q).1 = .progress ∧ (stage.release command q).2.1 = stage ∧
      (stage.release command q).2.2.Contains (n + 1) f ∧ (stage.release command q).2.2.capacity = q.capacity := by
  obtain ⟨hpopped, hcontains, hcapacity⟩ := hq.tryPop_cons few
  rw [release]
  dsimp only
  rw [if_pos hpopped]
  exact ⟨rfl, rfl, hcontains, hcapacity⟩

/-! ## The flow -/

/-- The commands and the events of a run, with those that are in the queues: the commands that were released and those that wait, and
the events that are pending. -/
structure Flow (s₀ : Pipeline) (cfg : BookConfig) (state : TradingState) (journaled : List SequencedCommand)
    (applied : List (SequencedCommand × List EngineEvent)) (popped : List EngineEvent) (s : Pipeline)
    (released waiting : List SequencedCommand) (pending : List EngineEvent) : Prop where
  ingested : Ingested s₀.ingress.journal.size s₀.ingress.sequencer.next s₀.ingress.sequencer.lastLogicalTime journaled s.ingress
  ingress : s.ingressPhase.Allowed s.ingress (s.commands.capacity - waiting.length)
  commands : s.commands.Contains released.length waiting
  journaled_eq : journaled = released ++ waiting ++ s.ingressPhase.unpublished
  applied_eq : applied.map Prod.fst = released ++ s.matchingPhase.unreleased
  inHand : ∀ command, s.matchingPhase.command? = some command → waiting.head? = some command
  processed : Processed s₀.matching.scratchCapacity s₀.matching.engine cfg state s₀.ingress.sequencer.next
    s₀.ingress.sequencer.lastLogicalTime applied s.matching
  fits : s₀.matching.scratchCapacity ≤ s.events.capacity
  matching : s.matchingPhase.Allowed (s.events.capacity - pending.length)
  events : s.events.Contains popped.length pending
  events_eq : (applied.map Prod.snd).flatten = popped ++ pending ++ s.matchingPhase.unpublished
  few : (applied.map Prod.snd).flatten.length ≤ applied.length * kMaximumSpscCapacity

/-- A step that shows nothing, or returns a status that asks the caller to try again or to change the call. -/
def PipelineLabel.Quiet : PipelineLabel → Prop
  | .silent => True
  | .ingested status =>
    status = .queueBackpressure ∨ status = .journalFull ∨ status = .invalidPayload ∨ status = .decreasingLogicalTime
  | .processed status => status = .outputBackpressure ∨ status = .inputEmpty
  | _ => False

/-- The stages are as they were, and the queues hold what they held. -/
def Pipeline.Unchanged (s s' : Pipeline) : Prop :=
  s'.ingress = s.ingress ∧ s'.matching = s.matching ∧ s'.commands.contents = s.commands.contents ∧ s'.events.contents = s.events.contents

namespace Flow

variable {s₀ s : Pipeline} {cfg : BookConfig} {state : TradingState} {journaled released waiting : List SequencedCommand}
  {applied : List (SequencedCommand × List EngineEvent)} {popped pending : List EngineEvent} {command : SequencedCommand}

/-- The commands of a run are few, and so are their events. -/
theorem bounds (h : Flow s₀ cfg state journaled applied popped s released waiting pending) :
    released.length + waiting.length + s.ingressPhase.unpublished.length ≤ kMaximumJournalCapacity ∧
      applied.length ≤ journaled.length ∧
      popped.length + (pending.length + s.matchingPhase.unpublished.length) ≤ kMaximumJournalCapacity * kMaximumSpscCapacity := by
  have hle := h.ingested.length_le
  have hjournaled := congrArg List.length h.journaled_eq
  have happlied := congrArg List.length h.applied_eq
  have hevents := congrArg List.length h.events_eq
  simp only [List.length_append, List.length_map] at hjournaled happlied hevents
  have hfew := h.few
  have hunreleased : s.matchingPhase.unreleased.length ≤ waiting.length := by
    cases hphase : s.matchingPhase with
    | applied c batch =>
      have := h.inHand c (by rw [hphase]; rfl)
      exact List.length_pos_of_mem (List.mem_of_mem_head? this)
    | published c =>
      have := h.inHand c (by rw [hphase]; rfl)
      exact List.length_pos_of_mem (List.mem_of_mem_head? this)
    | _ => exact Nat.zero_le _
  have hcount : applied.length ≤ kMaximumJournalCapacity := by omega
  have := Nat.mul_le_mul_right kMaximumSpscCapacity hcount
  omega

theorem contents_commands (h : Flow s₀ cfg state journaled applied popped s released waiting pending) {q : SpscQueue SequencedCommand} {n : Nat}
    (hq : q.Contains n waiting) : q.contents = s.commands.contents := hq.contents_eq.trans h.commands.contents_eq.symm

theorem contents_events (h : Flow s₀ cfg state journaled applied popped s released waiting pending) {q : SpscQueue EngineEvent} {n : Nat}
    (hq : q.Contains n pending) : q.contents = s.events.contents := hq.contents_eq.trans h.events.contents_eq.symm

/-- What a step does: the lists of the run grow by what it shows, a quiet step changes nothing, and the matching stage never fails. -/
structure Keeps (s₀ : Pipeline) (cfg : BookConfig) (state : TradingState) (journaled : List SequencedCommand)
    (applied : List (SequencedCommand × List EngineEvent)) (popped : List EngineEvent) (s : Pipeline) (r : PipelineLabel × Pipeline) :
    Prop where
  flow : ∃ released waiting pending, Flow s₀ cfg state (journaled ++ journaledCommands [r.1]) (applied ++ appliedBatches [r.1])
    (popped ++ poppedEvents [r.1]) r.2 released waiting pending
  quiet : r.1.Quiet → s.Unchanged r.2
  status : ∀ status, r.1 = .processed status → status = .progress ∨ status = .outputBackpressure ∨ status = .inputEmpty

theorem keeps {label : PipelineLabel} {s' : Pipeline} {journaled' : List SequencedCommand}
    {applied' : List (SequencedCommand × List EngineEvent)} {popped' : List EngineEvent}
    (h : Flow s₀ cfg state journaled' applied' popped' s' released waiting pending)
    (hj : journaled ++ journaledCommands [label] = journaled') (ha : applied ++ appliedBatches [label] = applied')
    (hp : popped ++ poppedEvents [label] = popped') (quiet : label.Quiet → s.Unchanged s')
    (status : ∀ status, label = .processed status → status = .progress ∨ status = .outputBackpressure ∨ status = .inputEmpty) :
    Keeps s₀ cfg state journaled applied popped s (label, s') := by
  refine ⟨⟨released, waiting, pending, ?_⟩, quiet, status⟩
  rwa [hj, ha, hp]

/-- A step that shows nothing of the lists. -/
theorem keeps_lists {label : PipelineLabel} {s' : Pipeline} (h : Flow s₀ cfg state journaled applied popped s' released waiting pending)
    (hj : journaledCommands [label] = []) (ha : appliedBatches [label] = []) (hp : poppedEvents [label] = [])
    (quiet : label.Quiet → s.Unchanged s')
    (status : ∀ status, label = .processed status → status = .progress ∨ status = .outputBackpressure ∨ status = .inputEmpty) :
    Keeps s₀ cfg state journaled applied popped s (label, s') :=
  keeps h (by rw [hj, List.append_nil]) (by rw [ha, List.append_nil]) (by rw [hp, List.append_nil]) quiet status

/-- The ingress starts a call. -/
theorem ingestAdmit (h : Flow s₀ cfg state journaled applied popped s released waiting pending) (idle : s.ingressPhase = .idle)
    (payload : CommandPayload) (time : UInt64) : Keeps s₀ cfg state journaled applied popped s (s.ingestAdmit payload time) := by
  obtain ⟨hingested, hcommands, hcapacity, hallowed⟩ := h.ingested.accept h.commands payload time
  have hstage := s.ingress.accept_eq payload time s.commands
  have hjournaled := h.journaled_eq
  unfold Pipeline.ingestAdmit
  split
  · rename_i status ingress commands haccept
    rw [haccept] at hingested hcommands hcapacity hstage
    refine keeps_lists ⟨hingested, ?_, hcommands, hjournaled, h.applied_eq, h.inHand, h.processed, h.fits, h.matching, h.events, h.events_eq,
      h.few⟩ rfl rfl rfl (fun hquiet => ⟨hstage ?_, rfl, h.contents_commands hcommands, rfl⟩) nofun
    · show s.ingressPhase.Allowed _ _
      rw [idle]
      trivial
    · rintro ⟨⟩
      rcases hquiet with hq | hq | hq | hq <;> cases hq
  · rename_i ingress commands haccept
    rw [haccept] at hingested hcommands hcapacity hallowed hstage
    refine keeps_lists ⟨hingested, ?_, hcommands, ?_, h.applied_eq, h.inHand, h.processed, h.fits, h.matching, h.events, h.events_eq,
      h.few⟩ rfl rfl rfl (fun _ => ⟨hstage nofun, rfl, h.contents_commands hcommands, rfl⟩) nofun
    · show IngressPhase.Allowed ingress (commands.capacity - waiting.length) _
      rw [hcapacity]
      exact hallowed rfl
    · rw [idle] at hjournaled
      exact hjournaled

/-- The ingress stamps and appends. -/
theorem ingestPersist (h : Flow s₀ cfg state journaled applied popped s released waiting pending) {payload : CommandPayload} {time : UInt64}
    (admitted : s.ingressPhase = .admitted payload time) (calls : PersistCalls) :
    Keeps s₀ cfg state journaled applied popped s (s.ingestPersist payload time calls) := by
  have hallowed := h.ingress
  have hjournaled := h.journaled_eq
  rw [admitted] at hallowed hjournaled
  unfold Pipeline.ingestPersist
  rcases h.ingested.persist hallowed calls with ⟨command, hok, hingested⟩ | ⟨status, herror, hingested, hcases⟩
  · rw [show s.ingress.persist payload time calls = (.ok command, (s.ingress.persist payload time calls).2) from Prod.ext hok rfl]
    refine keeps ⟨hingested, hallowed.2.2.2.2, h.commands, ?_, h.applied_eq, h.inHand, h.processed, h.fits, h.matching, h.events, h.events_eq,
      h.few⟩ rfl (List.append_nil _) (List.append_nil _) False.elim nofun
    rw [hjournaled]
    exact congrArg (· ++ [command]) (List.append_nil _)
  · rw [show s.ingress.persist payload time calls = (.error status, (s.ingress.persist payload time calls).2) from Prod.ext herror rfl]
    refine keeps_lists ⟨hingested, trivial, h.commands, hjournaled, h.applied_eq, h.inHand, h.processed, h.fits, h.matching, h.events,
      h.events_eq, h.few⟩ rfl rfl rfl (fun hquiet => ⟨?_, rfl, rfl, rfl⟩) nofun
    rcases hcases with ⟨-, hstage⟩ | ⟨rfl | rfl, -⟩
    · exact hstage
    · rcases hquiet with hq | hq | hq | hq <;> cases hq
    · rcases hquiet with hq | hq | hq | hq <;> cases hq

/-- The ingress publishes the command. -/
theorem ingestPublish (h : Flow s₀ cfg state journaled applied popped s released waiting pending)
    (persisted : s.ingressPhase = .persisted command) : Keeps s₀ cfg state journaled applied popped s (s.ingestPublish command) := by
  have hallowed := h.ingress
  have hjournaled := h.journaled_eq
  have hbounds := h.bounds.1
  rw [persisted] at hallowed hjournaled hbounds
  have hfew : released.length + (waiting.length + 1) ≤ 2 ^ 64 := by
    simp only [IngressPhase.unpublished, List.length_singleton, kMaximumJournalCapacity] at hbounds
    omega
  obtain ⟨hstatus, hstage, hcommands, hcapacity⟩ := s.ingress.publish_progress command h.commands hallowed hfew
  unfold Pipeline.ingestPublish
  generalize s.ingress.publish command s.commands = r at hstatus hstage hcommands hcapacity
  obtain ⟨status, ingress, commands⟩ := r
  obtain rfl : ingress = s.ingress := hstage
  obtain rfl : status = .progress := hstatus
  refine keeps_lists ⟨h.ingested, trivial, hcommands, ?_, h.applied_eq, fun c hc => ?_, h.processed, h.fits,
    h.matching, h.events, h.events_eq, h.few⟩ rfl rfl rfl ?_ (by intros; contradiction)
  · rw [hjournaled, ← List.append_assoc]
    exact (List.append_nil _).symm
  · rw [List.head?_append, h.inHand c hc]
    rfl
  · rintro (hq | hq | hq | hq) <;> cases hq

/-- The matching stage starts a call. -/
theorem processPeek (h : Flow s₀ cfg state journaled applied popped s released waiting pending) (idle : s.matchingPhase = .idle) :
    Keeps s₀ cfg state journaled applied popped s s.processPeek := by
  obtain ⟨hvalue, hcommands, hcapacity⟩ := h.commands.tryPeek
  have hingress := h.ingress
  have happlied := h.applied_eq
  have hevents := h.events_eq
  rw [← hcapacity] at hingress
  rw [idle] at happlied hevents
  unfold Pipeline.processPeek MatchingStage.peek
  rw [if_neg (by rw [h.processed.sound]; exact nofun)]
  generalize s.commands.tryPeek = r at hvalue hcommands hingress
  obtain ⟨value, commands⟩ := r
  cases value with
  | none =>
    refine keeps_lists ⟨h.ingested, hingress, hcommands, h.journaled_eq, h.applied_eq, h.inHand, h.processed, h.fits, h.matching, h.events,
      h.events_eq, h.few⟩ rfl rfl rfl (fun _ => ⟨rfl, rfl, h.contents_commands hcommands, rfl⟩) ?_
    rintro status ⟨⟩
    exact .inr (.inr rfl)
  | some command =>
    refine keeps_lists ⟨h.ingested, hingress, hcommands, h.journaled_eq, happlied, ?_, h.processed, h.fits, trivial, h.events, hevents, h.few⟩
      rfl rfl rfl (fun _ => ⟨rfl, rfl, h.contents_commands hcommands, rfl⟩) nofun
    rintro c ⟨⟩
    exact hvalue.symm

/-- The command in the hands of the matching stage is the next one, as long as it is not applied. -/
theorem commandStatus_eq (h : Flow s₀ cfg state journaled applied popped s released waiting pending)
    (hcommand : s.matchingPhase.command? = some command) (hunreleased : s.matchingPhase.unreleased = []) :
    s.matching.engine.commandStatus command = .applied := by
  obtain ⟨rest, rfl⟩ := List.head?_eq_some_iff.mp (h.inHand command hcommand)
  have happlied := h.applied_eq
  rw [hunreleased, List.append_nil] at happlied
  have hnext : journaled = applied.map Prod.fst ++ command :: (rest ++ s.ingressPhase.unpublished) := by
    rw [h.journaled_eq, happlied, List.append_assoc]
    rfl
  exact h.processed.commandStatus_eq h.ingested.numbered hnext

/-- The matching stage checks the command. -/
theorem processAdmit (h : Flow s₀ cfg state journaled applied popped s released waiting pending) (peeked : s.matchingPhase = .peeked command)
    {r : PipelineLabel × Pipeline} (returned : (s.processAdmit command).Returns r) : Keeps s₀ cfg state journaled applied popped s r := by
  have hstatus := h.commandStatus_eq (show s.matchingPhase.command? = some command by rw [peeked]; rfl) (by rw [peeked]; rfl)
  have happlied := h.applied_eq
  have hevents := h.events_eq
  have hinHand := h.inHand command (by rw [peeked]; rfl)
  rw [peeked] at happlied hevents
  unfold Pipeline.processAdmit at returned
  rw [Comp.returns_bind] at returned
  obtain ⟨⟨answer, matching, events⟩, haccept, returned⟩ := returned
  obtain ⟨hstage, hcontains, hcapacity, hanswer⟩ := h.processed.accept hstatus h.events h.fits haccept
  obtain rfl : matching = s.matching := hstage
  have hfits := h.fits
  rw [← hcapacity] at hfits
  rcases hanswer with hanswer | ⟨required, hanswer, hspace⟩
  · obtain rfl : answer = .error .outputBackpressure := hanswer
    rw [Comp.returns_pure] at returned
    subst returned
    refine keeps_lists ⟨h.ingested, h.ingress, h.commands, h.journaled_eq, happlied, nofun, h.processed, hfits, trivial, hcontains, hevents,
      h.few⟩ rfl rfl rfl (fun _ => ⟨rfl, rfl, rfl, h.contents_events hcontains⟩) ?_
    rintro status ⟨⟩
    exact .inr (.inl rfl)
  · obtain rfl : answer = .ok required := hanswer
    rw [Comp.returns_pure] at returned
    subst returned
    refine keeps_lists ⟨h.ingested, h.ingress, h.commands, h.journaled_eq, happlied, ?_, h.processed, hfits, ?_, hcontains, hevents, h.few⟩
      rfl rfl rfl (fun _ => ⟨rfl, rfl, rfl, h.contents_events hcontains⟩) nofun
    · rintro c ⟨⟩
      exact hinHand
    · rw [← hcapacity] at hspace
      exact hspace

/-- The matching stage applies the command. -/
theorem processApply (h : Flow s₀ cfg state journaled applied popped s released waiting pending) {required : Nat}
    (admitted : s.matchingPhase = .admitted command required) (few : s.FewEvents) {r : PipelineLabel × Pipeline}
    (returned : (s.processApply command required).Returns r) : Keeps s₀ cfg state journaled applied popped s r := by
  have hstatus := h.commandStatus_eq (show s.matchingPhase.command? = some command by rw [admitted]; rfl) (by rw [admitted]; rfl)
  have happlied := h.applied_eq
  have hevents := h.events_eq
  have hmatching := h.matching
  have hinHand := h.inHand command (by rw [admitted]; rfl)
  rw [admitted] at happlied hevents hmatching
  unfold Pipeline.processApply at returned
  rw [Comp.returns_bind] at returned
  obtain ⟨⟨answer, matching⟩, happly, returned⟩ := returned
  obtain ⟨batch, hanswer, hlength, hprocessed⟩ := h.processed.apply hstatus (few command required admitted) happly
  obtain rfl : answer = .ok batch := hanswer
  rw [Comp.returns_pure] at returned
  subst returned
  have hcapacity := s.events.capacity_le
  refine keeps ⟨h.ingested, h.ingress, h.commands, h.journaled_eq, ?_, ?_, hprocessed, h.fits, ?_, h.events, ?_, ?_⟩ (List.append_nil _) rfl
    (List.append_nil _) False.elim nofun
  · rw [List.map_append, happlied]
    exact congrArg (· ++ [command]) (List.append_nil _)
  · rintro c ⟨⟩
    exact hinHand
  · exact hlength.trans hmatching
  · rw [List.map_append, List.flatten_append, hevents]
    simp [MatchingPhase.unpublished]
  · have hfew := h.few
    have hmatching : required ≤ s.events.capacity - pending.length := hmatching
    rw [List.map_append, List.flatten_append, List.length_append, List.length_append]
    simp only [List.map_cons, List.map_nil, List.flatten_singleton, List.length_singleton, Nat.add_mul, Nat.one_mul]
    omega

/-- The matching stage publishes the events. -/
theorem processPublish (h : Flow s₀ cfg state journaled applied popped s released waiting pending) {batch : List EngineEvent}
    (hphase : s.matchingPhase = .applied command batch) : Keeps s₀ cfg state journaled applied popped s (s.processPublish command batch) := by
  have happlied := h.applied_eq
  have hevents := h.events_eq
  have hmatching := h.matching
  have hbounds := h.bounds.2.2
  have hinHand := h.inHand command (by rw [hphase]; rfl)
  rw [hphase] at happlied hevents hmatching hbounds
  have hfew : popped.length + (pending.length + batch.length) ≤ 2 ^ 64 := by
    simp only [MatchingPhase.unpublished, kMaximumJournalCapacity, kMaximumSpscCapacity] at hbounds
    omega
  obtain ⟨hnone, hprocessed, hcontains, hcapacity⟩ := h.processed.publish h.events hmatching hfew
  have hfits := h.fits
  rw [← hcapacity] at hfits
  unfold Pipeline.processPublish
  generalize s.matching.publish batch s.events = r at hnone hprocessed hcontains hfits
  obtain ⟨status, matching, events⟩ := r
  obtain rfl : status = none := hnone
  refine keeps_lists ⟨h.ingested, h.ingress, h.commands, h.journaled_eq, happlied, ?_, hprocessed, hfits, trivial, hcontains, ?_, h.few⟩ rfl rfl rfl
    False.elim (by intros; contradiction)
  · rintro c ⟨⟩
    exact hinHand
  · rw [hevents, ← List.append_assoc]
    exact (List.append_nil _).symm

/-- The matching stage releases the command. -/
theorem processRelease (h : Flow s₀ cfg state journaled applied popped s released waiting pending)
    (hphase : s.matchingPhase = .published command) : Keeps s₀ cfg state journaled applied popped s (s.processRelease command) := by
  have happlied := h.applied_eq
  have hevents := h.events_eq
  have hbounds := h.bounds.1
  rw [hphase] at happlied hevents
  obtain ⟨rest, rfl⟩ := List.head?_eq_some_iff.mp (h.inHand command (by rw [hphase]; rfl))
  have hfew : released.length + 1 < 2 ^ 64 := by
    simp only [kMaximumJournalCapacity] at hbounds
    omega
  obtain ⟨hstatus, hstage, hcommands, hcapacity⟩ := s.matching.release_progress h.commands hfew
  have hingress := h.ingress
  unfold Pipeline.processRelease
  generalize s.matching.release command s.commands = r at hstatus hstage hcommands hcapacity
  obtain ⟨status, matching, commands⟩ := r
  obtain rfl : matching = s.matching := hstage
  obtain rfl : status = .progress := hstatus
  have hreleased : commands.Contains (released ++ [command]).length rest := by
    rw [List.length_append]
    exact hcommands
  refine keeps_lists ⟨h.ingested, ?_, hreleased, ?_, ?_, by intros; contradiction, h.processed, h.fits, trivial, h.events, hevents, h.few⟩ rfl rfl rfl ?_ ?_
  · refine hingress.mono ?_
    rw [hcapacity, List.length_cons]
    exact Nat.sub_le_sub_left (Nat.le_succ _) _
  · rw [h.journaled_eq, List.append_assoc released [command]]
    rfl
  · rw [happlied]
    exact (List.append_nil _).symm
  · rintro (hq | hq) <;> cases hq
  · rintro status ⟨⟩
    exact .inl rfl

/-- An event is popped. -/
theorem publicationPop (h : Flow s₀ cfg state journaled applied popped s released waiting pending) :
    Keeps s₀ cfg state journaled applied popped s s.publicationPop := by
  have hbounds := h.bounds.2.2
  unfold Pipeline.publicationPop
  cases pending with
  | nil =>
    obtain ⟨hnone, hcontains, hcapacity⟩ := h.events.tryPop_nil
    have hfits := h.fits
    have hmatching := h.matching
    rw [← hcapacity] at hfits hmatching
    generalize s.events.tryPop = r at hnone hcontains hfits hmatching
    obtain ⟨event, events⟩ := r
    obtain rfl : event = none := hnone
    exact keeps_lists ⟨h.ingested, h.ingress, h.commands, h.journaled_eq, h.applied_eq, h.inHand, h.processed, hfits, hmatching, hcontains,
      h.events_eq, h.few⟩ rfl rfl rfl False.elim (by intros; contradiction)
  | cons v pending =>
    have hfew : popped.length + 1 < 2 ^ 64 := by
      simp only [List.length_cons, kMaximumJournalCapacity, kMaximumSpscCapacity] at hbounds
      omega
    obtain ⟨hsome, hcontains, hcapacity⟩ := h.events.tryPop_cons hfew
    have hfits := h.fits
    rw [← hcapacity] at hfits
    generalize s.events.tryPop = r at hsome hcontains hcapacity hfits
    obtain ⟨event, events⟩ := r
    obtain rfl : event = some v := hsome
    have hpopped : events.Contains (popped ++ [v]).length pending := by
      rw [List.length_append]
      exact hcontains
    refine keeps ⟨h.ingested, h.ingress, h.commands, h.journaled_eq, h.applied_eq, h.inHand, h.processed, hfits, ?_, hpopped, ?_, h.few⟩
      (List.append_nil _) (List.append_nil _) rfl False.elim (by intros; contradiction)
    · refine h.matching.mono ?_
      rw [hcapacity, List.length_cons]
      exact Nat.sub_le_sub_left (Nat.le_succ _) _
    · rw [h.events_eq, List.append_assoc popped [v]]
      rfl

/-- One step of one of the threads. -/
theorem step (h : Flow s₀ cfg state journaled applied popped s released waiting pending) (few : s.FewEvents) {r : PipelineLabel × Pipeline}
    (moves : PipelineStep s r) : Keeps s₀ cfg state journaled applied popped s r := by
  cases moves with
  | ingestAdmit payload time idle => exact h.ingestAdmit idle payload time
  | ingestPersist calls admitted => exact h.ingestPersist admitted calls
  | ingestPublish persisted => exact h.ingestPublish persisted
  | processPeek idle => exact h.processPeek idle
  | processAdmit peeked returned => exact h.processAdmit peeked returned
  | processApply admitted returned => exact h.processApply admitted few returned
  | processPublish hphase => exact h.processPublish hphase
  | processRelease hphase => exact h.processRelease hphase
  | publicationPop => exact h.publicationPop

end Flow

/-- A pipeline whose parts start in step, with new queues. -/
theorem Pipeline.create_flow {sequencer : Sequencer} {journal : MmapJournal} {file : Mapped} {engine : SequencedEngine}
    {commands : SpscQueue SequencedCommand} {events : SpscQueue EngineEvent} {s₀ : Pipeline} {cfg : BookConfig} {state : TradingState}
    (created : Pipeline.create sequencer journal file engine commands events = some s₀) (inStep : InStep sequencer journal engine)
    (sized : journal.Sized) (reached : engine.Reached cfg state) (hcommands : commands.Contains 0 []) (hevents : events.Contains 0 []) :
    Flow s₀ cfg state [] [] [] s₀ [] [] [] := by
  obtain ⟨matching, hmatching, rfl⟩ := Option.map_eq_some_iff.mp created
  unfold MatchingStage.create at hmatching
  split at hmatching
  · cases hmatching
  · rename_i hfits
    cases hmatching
    refine ⟨⟨sized, rfl, fun _ _ _ h => absurd h (Nat.not_lt_zero _), .nil _ _, fun _ => ⟨rfl, rfl⟩, rfl⟩, trivial, hcommands, rfl, rfl, nofun,
      ⟨rfl, rfl, rfl, reached, .nil, inStep.engine, inStep.engineTime⟩, Nat.not_lt.mp hfits, trivial, hevents, rfl, Nat.zero_le _⟩

/-- A run of the threads. -/
theorem PipelineRun.flow {s₀ s : Pipeline} {labels : List PipelineLabel} {cfg : BookConfig} {state : TradingState} (run : PipelineRun s₀ labels s)
    (start : Flow s₀ cfg state [] [] [] s₀ [] [] []) :
    ∃ released waiting pending, Flow s₀ cfg state (journaledCommands labels) (appliedBatches labels) (poppedEvents labels) s
      released waiting pending := by
  induction run with
  | start => exact ⟨[], [], [], start⟩
  | step before few moves ih =>
    obtain ⟨released, waiting, pending, hflow⟩ := ih
    rw [journaledCommands, appliedBatches, poppedEvents, List.filterMap_append, List.filterMap_append, List.filterMap_append]
    exact (hflow.step few moves).flow

/-- A step belongs to a call of the ingress, or leaves the ingress as it is. -/
theorem PipelineStep.ingress_cases {s : Pipeline} {r : PipelineLabel × Pipeline} (moves : PipelineStep s r) :
    (∃ payload time, s.ingressPhase = .idle ∧ r = s.ingestAdmit payload time) ∨
    (∃ payload time calls, s.ingressPhase = .admitted payload time ∧ r = s.ingestPersist payload time calls) ∨
    (∃ command, s.ingressPhase = .persisted command ∧ r = s.ingestPublish command) ∨
    (r.2.ingress = s.ingress ∧ r.2.ingressPhase = s.ingressPhase ∧ journaledCommands [r.1] = [] ∧ ∀ status, r.1 ≠ .ingested status) := by
  cases moves with
  | ingestAdmit payload time idle => exact .inl ⟨payload, time, idle, rfl⟩
  | ingestPersist calls admitted => exact .inr (.inl ⟨_, _, calls, admitted, rfl⟩)
  | ingestPublish persisted => exact .inr (.inr (.inl ⟨_, persisted, rfl⟩))
  | processPeek idle =>
    refine .inr (.inr (.inr ?_))
    unfold Pipeline.processPeek
    split <;> exact ⟨rfl, rfl, rfl, nofun⟩
  | processAdmit peeked returned =>
    refine .inr (.inr (.inr ?_))
    unfold Pipeline.processAdmit at returned
    rw [Comp.returns_bind] at returned
    obtain ⟨⟨_ | _, _, _⟩, -, returned⟩ := returned
    all_goals
      rw [Comp.returns_pure] at returned
      subst returned
      exact ⟨rfl, rfl, rfl, nofun⟩
  | processApply admitted returned =>
    refine .inr (.inr (.inr ?_))
    unfold Pipeline.processApply at returned
    rw [Comp.returns_bind] at returned
    obtain ⟨⟨_ | _, _⟩, -, returned⟩ := returned
    all_goals
      rw [Comp.returns_pure] at returned
      subst returned
      exact ⟨rfl, rfl, rfl, nofun⟩
  | processPublish hphase =>
    refine .inr (.inr (.inr ?_))
    unfold Pipeline.processPublish
    split <;> exact ⟨rfl, rfl, rfl, nofun⟩
  | processRelease hphase => exact .inr (.inr (.inr ⟨rfl, rfl, rfl, nofun⟩))
  | publicationPop => exact .inr (.inr (.inr ⟨rfl, rfl, rfl, nofun⟩))

end MatchingEngine

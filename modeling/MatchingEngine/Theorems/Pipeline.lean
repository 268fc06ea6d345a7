import MatchingEngine.Lemmas.Pipeline

/-!
# The pipeline loses, repeats and reorders nothing

Over every interleaving of the three threads, whatever the journal answers: the engine applies the commands of the journal in their order,
each once and only after it is on the device, and the events that are popped are those of the applications in their order.
-/

namespace MatchingEngine

/-! ## After a failure -/

/-- The statuses of a call that fails after it has stamped its payload. -/
def IngressStatus.Failed (status : IngressStatus) : Prop :=
  status = .persistenceFailure ∨ status = .commitIndeterminate ∨ status = .stoppedPoisoned

/-- The ingress is between calls and has given up. -/
def Pipeline.Halted (s : Pipeline) : Prop := s.ingressPhase = .idle ∧ (s.ingress.stopped = true ∨ s.ingress.recoveryRequired = true)

section

variable {s₀ s : Pipeline} {r : PipelineLabel × Pipeline} {labels : List PipelineLabel}

/-- A stage that fails to append gives up. -/
theorem DurableIngressStage.persist_failed (stage : DurableIngressStage) (payload : CommandPayload) (time : UInt64) (calls : PersistCalls)
    (status : IngressStatus) (h : (stage.persist payload time calls).1 = .error status) (hfailed : status.Failed) :
    (stage.persist payload time calls).2.recoveryRequired = true := by
  unfold persist at h ⊢
  by_cases hfull : stage.journal.full = true
  · rw [if_pos hfull] at h
    cases h
    rcases hfailed with h | h | h <;> cases h
  rw [if_neg hfull] at h ⊢
  rcases hstamp : stage.sequencer.stamp payload time with error | ⟨command, sequencer⟩
  · rw [hstamp] at h
    cases error <;> cases h <;> rcases hfailed with h | h | h <;> cases h
  · rw [hstamp] at h
    dsimp only at h ⊢
    split
    · rfl
    · rename_i hnone
      rw [if_neg hnone] at h
      cases h

/-- A call that fails halts the ingress. -/
theorem PipelineStep.halted (moves : PipelineStep s r) {status : IngressStatus} (hlabel : r.1 = .ingested status) (hfailed : status.Failed) :
    r.2.Halted := by
  rcases moves.ingress_cases with ⟨payload, time, idle, rfl⟩ | ⟨payload, time, calls, -, rfl⟩ | ⟨command, -, rfl⟩ | ⟨-, -, -, hnone⟩
  · unfold Pipeline.ingestAdmit at hlabel ⊢
    have hcases := s.ingress.accept_cases payload time s.commands
    rcases haccept : s.ingress.accept payload time s.commands with ⟨_ | status', ingress, commands⟩
    · rw [haccept] at hlabel
      cases hlabel
    · rw [haccept] at hcases hlabel
      cases hlabel
      rcases hcases with ⟨-, hstopped, heq⟩ | ⟨hstatus, -⟩ | ⟨-, -, -, hother⟩
      · obtain rfl : ingress = s.ingress := heq
        exact ⟨idle, .inl hstopped⟩
      · cases hstatus
        rcases hfailed with h | h | h <;> cases h
      · rcases hother status rfl with rfl | rfl | rfl | rfl <;> rcases hfailed with h | h | h <;> cases h
  · have hgave := s.ingress.persist_failed payload time calls status
    unfold Pipeline.ingestPersist at hlabel ⊢
    rcases hpersist : s.ingress.persist payload time calls with ⟨status' | command, ingress⟩
    · rw [hpersist] at hlabel hgave
      cases hlabel
      exact ⟨rfl, .inr (hgave rfl hfailed)⟩
    · rw [hpersist] at hlabel
      cases hlabel
  · unfold Pipeline.ingestPublish DurableIngressStage.publish at hlabel ⊢
    dsimp only at hlabel ⊢
    split
    · rename_i hpushed
      rw [if_pos hpushed] at hlabel
      cases hlabel
      rcases hfailed with h | h | h <;> cases h
    · exact ⟨rfl, .inl rfl⟩
  · exact absurd hlabel (hnone status)

/-- What has halted stays so. -/
theorem Pipeline.Halted.step (h : s.Halted) (moves : PipelineStep s r) :
    r.2.Halted ∧ journaledCommands [r.1] = [] ∧ ∀ status, r.1 = .ingested status → status = .recoveryRequired ∨ status = .stoppedPoisoned := by
  rcases moves.ingress_cases with ⟨payload, time, idle, rfl⟩ | ⟨payload, time, calls, hphase, -⟩ | ⟨command, hphase, -⟩ | ⟨hstage, hphase, hnone, hlabel⟩
  · unfold Pipeline.ingestAdmit
    have hcases := s.ingress.accept_cases payload time s.commands
    rcases haccept : s.ingress.accept payload time s.commands with ⟨status, ingress, commands⟩
    rw [haccept] at hcases
    rcases hcases with ⟨hstatus, hstopped, heq⟩ | ⟨hstatus, heq⟩ | ⟨hrunning, hhealthy, -, -⟩
    · obtain rfl : status = some .stoppedPoisoned := hstatus
      obtain rfl : ingress = s.ingress := heq
      exact ⟨⟨idle, .inl hstopped⟩, rfl, by rintro _ ⟨⟩; exact .inr rfl⟩
    · obtain rfl : status = some .recoveryRequired := hstatus
      obtain rfl : ingress = { s.ingress with recoveryRequired := true } := heq
      exact ⟨⟨idle, .inr rfl⟩, rfl, by rintro _ ⟨⟩; exact .inl rfl⟩
    · rcases h.2 with hgave | hgave
      · rw [hrunning] at hgave
        cases hgave
      · rw [hhealthy] at hgave
        cases hgave
  · rw [h.1] at hphase
    cases hphase
  · rw [h.1] at hphase
    cases hphase
  · exact ⟨⟨hphase.trans h.1, hstage ▸ h.2⟩, hnone, fun status hs => absurd hs (hlabel status)⟩

/-- After a call has failed nothing is appended, and every call is refused. -/
theorem PipelineRun.halted (run : PipelineRun s₀ labels s) :
    ∀ before status after, labels = before ++ .ingested status :: after → status.Failed →
      s.Halted ∧ journaledCommands after = [] ∧
        ∀ status', .ingested status' ∈ after → status' = .recoveryRequired ∨ status' = .stoppedPoisoned := by
  induction run with
  | start => exact fun before status after h => absurd h (by simp)
  | @step labels s r _ few moves ih =>
    intro before status after hlabels hfailed
    rcases List.eq_nil_or_concat' after with rfl | ⟨after, label, rfl⟩
    · have hlabel : r.1 = .ingested status := List.singleton_inj.mp (List.append_inj' hlabels rfl).2
      exact ⟨moves.halted hlabel hfailed, rfl, fun _ h => absurd h List.not_mem_nil⟩
    · rw [← List.cons_append, ← List.append_assoc] at hlabels
      obtain ⟨hbefore, hlabel⟩ := List.append_inj' hlabels rfl
      obtain rfl : r.1 = label := List.singleton_inj.mp hlabel
      obtain ⟨hhalted, hnone, hstatus⟩ := ih before status after hbefore hfailed
      obtain ⟨hhalted', hnone', hstatus'⟩ := hhalted.step moves
      refine ⟨hhalted', ?_, fun status' hmem => ?_⟩
      · rw [journaledCommands, List.filterMap_append]
        exact List.append_eq_nil_iff.mpr ⟨hnone, hnone'⟩
      · rcases List.mem_append.mp hmem with hmem | hmem
        · exact hstatus status' hmem
        · exact hstatus' status' (List.mem_singleton.mp hmem).symm

end

/-! ## The whole pipeline -/

section

variable {s₀ s : Pipeline} {labels : List PipelineLabel} {cfg : BookConfig} {state : TradingState}
  {journaled released waiting : List SequencedCommand} {applied : List (SequencedCommand × List EngineEvent)}
  {popped pending : List EngineEvent}

/-- The commands that were applied are the first of those that were appended. -/
theorem Flow.applied_prefix (h : Flow s₀ cfg state journaled applied popped s released waiting pending) :
    applied.map Prod.fst <+: journaled := by
  rw [h.applied_eq, h.journaled_eq, List.append_assoc, List.prefix_append_right_inj]
  have hinHand := h.inHand
  cases hphase : s.matchingPhase with
  | applied command batch =>
    obtain ⟨rest, rfl⟩ := List.head?_eq_some_iff.mp (hinHand command (by rw [hphase]; rfl))
    exact ⟨rest ++ _, rfl⟩
  | published command =>
    obtain ⟨rest, rfl⟩ := List.head?_eq_some_iff.mp (hinHand command (by rw [hphase]; rfl))
    exact ⟨rest ++ _, rfl⟩
  | _ => exact List.nil_prefix

/-- The statuses the matching stage has returned. -/
theorem PipelineRun.processed (run : PipelineRun s₀ labels s) (start : Flow s₀ cfg state [] [] [] s₀ [] [] []) :
    ∀ status, .processed status ∈ labels → status = .progress ∨ status = .outputBackpressure ∨ status = .inputEmpty := by
  induction run with
  | start => exact fun _ h => absurd h List.not_mem_nil
  | step before few moves ih =>
    intro status hmem
    obtain ⟨released, waiting, pending, hflow⟩ := before.flow start
    rcases List.mem_append.mp hmem with hmem | hmem
    · exact ih status hmem
    · exact (hflow.step few moves).status status (List.mem_singleton.mp hmem).symm

/-- In every run of a pipeline whose parts start in step: the commands that were applied are the first of those that were appended, each
once; what was appended has the numbers in their order and is found after a crash; the engine has made exactly these applications; what was
popped is the first of their events; and nothing that was appended or published is lost on its way. A step that shows nothing, or a
status of backpressure, of a full journal, of an empty queue or of a payload or time that is refused, changes nothing. After a call that
fails past its stamp nothing is ever appended, and the matching stage fails and skips nothing. -/
theorem pipeline_in_order {sequencer : Sequencer} {journal : MmapJournal} {file : Mapped} {engine : SequencedEngine}
    {commandCapacity eventCapacity : Nat} {commandSlots : Nat → SequencedCommand} {eventSlots : Nat → EngineEvent}
    {command_pos : 0 < commandCapacity} {command_le : commandCapacity ≤ kMaximumSpscCapacity} {event_pos : 0 < eventCapacity}
    {event_le : eventCapacity ≤ kMaximumSpscCapacity}
    (created : Pipeline.create sequencer journal file engine (.emptyAt commandCapacity commandSlots 0 command_pos command_le)
      (.emptyAt eventCapacity eventSlots 0 event_pos event_le) = some s₀)
    (inStep : InStep sequencer journal engine) (sized : journal.Sized) (reached : engine.Reached cfg state) (run : PipelineRun s₀ labels s) :
    (appliedBatches labels).map Prod.fst <+: journaledCommands labels ∧
    (∀ i (h : i < (journaledCommands labels).length), (journaledCommands labels)[i].sequence.toNat = sequencer.next + i ∧
      ∀ image, s.ingress.file.Survives (commitMarkers s.ingress.journal.capacity) image →
        decodeRecord (recordSpan image (journal.size + i)) = .ok (journaledCommands labels)[i]) ∧
    Answers engine.maximumEventCapacity engine (appliedBatches labels) s.matching.engine ∧
    poppedEvents labels <+: ((appliedBatches labels).map Prod.snd).flatten ∧
    ((∃ released, (appliedBatches labels).map Prod.fst = released ++ s.matchingPhase.unreleased ∧
        journaledCommands labels = released ++ s.commands.contents ++ s.ingressPhase.unpublished) ∧
      ((appliedBatches labels).map Prod.snd).flatten = poppedEvents labels ++ s.events.contents ++ s.matchingPhase.unpublished) ∧
    (s.FewEvents → ∀ r, PipelineStep s r → r.1.Quiet → s.Unchanged r.2) ∧
    (∀ before status after, labels = before ++ .ingested status :: after → status.Failed →
      journaledCommands after = [] ∧ ∀ status', .ingested status' ∈ after → status' = .recoveryRequired ∨ status' = .stoppedPoisoned) ∧
    s.matching.poisoned = false ∧
    ∀ status, .processed status ∈ labels → status = .progress ∨ status = .outputBackpressure ∨ status = .inputEmpty := by
  have start := Pipeline.create_flow created inStep sized reached SpscQueue.contains_emptyAt SpscQueue.contains_emptyAt
  obtain ⟨released, waiting, pending, hflow⟩ := run.flow start
  have hs₀ : s₀.ingress.sequencer = sequencer ∧ s₀.ingress.journal = journal ∧ s₀.matching.engine = engine ∧
      s₀.matching.scratchCapacity = engine.maximumEventCapacity := by
    obtain ⟨matching, hmatching, rfl⟩ := Option.map_eq_some_iff.mp created
    unfold MatchingStage.create at hmatching
    split at hmatching
    · cases hmatching
    · cases hmatching
      exact ⟨rfl, rfl, rfl, rfl⟩
  obtain ⟨rfl, rfl, rfl, hscratch⟩ := hs₀
  have hwaiting := hflow.commands.contents_eq
  have hpending := hflow.events.contents_eq
  refine ⟨hflow.applied_prefix, fun i hi => ⟨hflow.ingested.numbered.number i hi, fun image himage => ?_⟩, hscratch ▸ hflow.processed.answers, ?_,
    ⟨⟨released, hflow.applied_eq, hwaiting ▸ hflow.journaled_eq⟩, hpending ▸ hflow.events_eq⟩,
    fun few r moves hquiet => (hflow.step few moves).quiet hquiet, fun before status after hlabels hfailed => ?_, hflow.processed.sound,
    run.processed start⟩
  · exact hflow.ingested.records.survives hflow.ingested.numbered.valid himage i hi
  · rw [hflow.events_eq, List.append_assoc]
    exact List.prefix_append _ _
  · exact (run.halted before status after hlabels hfailed).2

end

/-! ## Calls without a pause -/

section

variable {s₀ s : Pipeline} {labels : List PipelineLabel}

/-- A call of `try_ingest` is a run of its parts. -/
theorem PipelineRun.tryIngest (run : PipelineRun s₀ labels s) (idle : s.ingressPhase = .idle) (few : s.FewEvents) (payload : CommandPayload)
    (time : UInt64) (calls : PersistCalls) :
    let r := s.ingress.tryIngest payload time calls s.commands
    ∃ shown, PipelineRun s₀ (labels ++ shown ++ [.ingested r.1]) { s with ingress := r.2.1, commands := r.2.2 } := by
  have haccept := run.step few (.ingestAdmit payload time idle)
  unfold DurableIngressStage.tryIngest
  unfold Pipeline.ingestAdmit at haccept
  rcases hadmitted : s.ingress.accept payload time s.commands with ⟨_ | status, ingress, commands⟩
  · rw [hadmitted] at haccept
    have hpersist := haccept.step few (.ingestPersist calls rfl)
    unfold Pipeline.ingestPersist at hpersist
    dsimp only at hpersist ⊢
    rcases hpersisted : ingress.persist payload time calls with ⟨status | command, ingress'⟩
    · rw [hpersisted] at hpersist
      rw [← idle] at hpersist
      exact ⟨[.silent], hpersist⟩
    · rw [hpersisted] at hpersist
      have hpublish := hpersist.step few (.ingestPublish rfl)
      unfold Pipeline.ingestPublish at hpublish
      rw [← idle] at hpublish
      refine ⟨[.silent, .journaled command], ?_⟩
      rw [List.append_cons labels]
      exact hpublish
  · rw [hadmitted] at haccept
    refine ⟨[], ?_⟩
    rw [List.append_nil]
    exact haccept

/-- A command that is admitted may have the events it requires. -/
theorem MatchingStage.accept_ok {stage stage' : MatchingStage} {command : SequencedCommand} {q q' : SpscQueue EngineEvent} {required : Nat}
    (h : (stage.accept command q).Returns (.ok required, stage', q')) :
    stage' = stage ∧ (stage.engine.requiredEvents command.payload).Returns required := by
  unfold accept at h
  split at h
  · cases (Comp.returns_pure _ _).mp h
  split at h
  · cases (Comp.returns_pure _ _).mp h
  split at h
  · cases (Comp.returns_pure _ _).mp h
  split at h
  · cases (Comp.returns_pure _ _).mp h
  rw [Comp.returns_bind] at h
  obtain ⟨required', hrequired, h⟩ := h
  split at h
  · cases (Comp.returns_pure _ _).mp h
  split at h
  · cases (Comp.returns_pure _ _).mp h
  · cases (Comp.returns_pure _ _).mp h
    exact ⟨rfl, hrequired⟩

/-- A call of `process_one` is a run of its parts. -/
theorem PipelineRun.processOne (run : PipelineRun s₀ labels s) (idle : s.matchingPhase = .idle)
    {r : MatchingStatus × MatchingStage × SpscQueue SequencedCommand × SpscQueue EngineEvent}
    (returned : (s.matching.processOne s.commands s.events).Returns r)
    (few : ∀ command required, s.commands.tryPeek.1 = some command → (s.matching.engine.requiredEvents command.payload).Returns required →
      ∀ status events trades engine,
        (s.matching.engine.apply command s.matching.scratchCapacity).Returns (status, events, trades, engine) → events.length ≤ required) :
    ∃ shown, PipelineRun s₀ (labels ++ shown ++ [.processed r.1]) { s with matching := r.2.1, commands := r.2.2.1, events := r.2.2.2 } := by
  have hfew : ∀ s' : Pipeline, (∀ command required, s'.matchingPhase ≠ .admitted command required) → s'.FewEvents :=
    fun s' h command required hphase => absurd hphase (h command required)
  have hpeek := run.step (hfew s (by rw [idle]; exact nofun)) (.processPeek idle)
  unfold MatchingStage.processOne at returned
  unfold Pipeline.processPeek at hpeek
  rcases hpeeked : s.matching.peek s.commands with ⟨status | command, commands⟩
  · rw [hpeeked] at hpeek returned
    rw [Comp.returns_pure] at returned
    subst returned
    refine ⟨[], ?_⟩
    rw [List.append_nil]
    exact hpeek
  have hcommand : s.commands.tryPeek.1 = some command := by
    unfold MatchingStage.peek at hpeeked
    split at hpeeked
    · cases hpeeked
    rcases hvalue : s.commands.tryPeek with ⟨_ | value, q⟩ <;> rw [hvalue] at hpeeked <;> cases hpeeked
    rfl
  rw [hpeeked] at hpeek returned
  rw [Comp.returns_bind] at returned
  obtain ⟨⟨answer, matching, events⟩, haccept, returned⟩ := returned
  have hadmitted r hr := hpeek.step (r := r) (hfew _ nofun) (.processAdmit rfl ((Comp.returns_bind _ _ _).mpr ⟨_, haccept, hr⟩))
  cases answer with
  | error status =>
    have hadmitted := hadmitted _ ((Comp.returns_pure _ _).mpr rfl)
    rw [Comp.returns_pure] at returned
    subst returned
    rw [← idle] at hadmitted
    exact ⟨[.silent], hadmitted⟩
  | ok required =>
  have hadmitted := hadmitted _ ((Comp.returns_pure _ _).mpr rfl)
  obtain ⟨rfl, hrequired⟩ := MatchingStage.accept_ok haccept
  rw [Comp.returns_bind] at returned
  obtain ⟨⟨answer, matching⟩, happly, returned⟩ := returned
  have happlied r hr := hadmitted.step (r := r) (by rintro _ _ ⟨⟩; exact few command required hcommand hrequired)
    (.processApply rfl ((Comp.returns_bind _ _ _).mpr ⟨_, happly, hr⟩))
  cases answer with
  | error status =>
    have happlied := happlied _ ((Comp.returns_pure _ _).mpr rfl)
    rw [Comp.returns_pure] at returned
    subst returned
    rw [← idle] at happlied
    refine ⟨[.silent, .silent], ?_⟩
    rw [List.append_cons labels]
    exact happlied
  | ok batch =>
  have hpublish := (happlied _ ((Comp.returns_pure _ _).mpr rfl)).step (hfew _ nofun) (.processPublish rfl)
  unfold Pipeline.processPublish at hpublish
  dsimp only at hpublish returned
  rcases hpublished : matching.publish batch events with ⟨_ | status, matching', events'⟩
  · rw [hpublished] at hpublish returned
    have hrelease := hpublish.step (hfew _ nofun) (.processRelease rfl)
    unfold Pipeline.processRelease at hrelease
    rw [Comp.returns_pure] at returned
    subst returned
    rw [← idle] at hrelease
    refine ⟨[.silent, .silent, .applied command batch, .published batch], ?_⟩
    rw [List.append_cons labels, List.append_cons (labels ++ _), List.append_cons (labels ++ _ ++ _)]
    exact hrelease
  · rw [hpublished] at hpublish returned
    rw [Comp.returns_pure] at returned
    subst returned
    rw [← idle] at hpublish
    refine ⟨[.silent, .silent, .applied command batch], ?_⟩
    rw [List.append_cons labels, List.append_cons (labels ++ _)]
    exact hpublish

end

/-! ## Schedules -/

/-- What one of the threads does next. -/
inductive PipelineTurn where
  | ingest (payload : CommandPayload) (logicalTime : UInt64)
  | persist (calls : PersistCalls)
  | publish
  | process
  | pop

namespace Pipeline

/-- The application the matching thread is about to make is evaluated within `fuel`, and has few events. -/
def hasFewEvents (fuel : Nat) (s : Pipeline) : Bool :=
  match s.matchingPhase with
  | .admitted command required =>
    ((s.matching.engine.apply command s.matching.scratchCapacity).run fuel).any fun r => decide (r.2.1.length ≤ required)
  | _ => true

/-- The step of a turn, if the thread is there. -/
def turn (fuel : Nat) (s : Pipeline) : PipelineTurn → Option (PipelineLabel × Pipeline)
  | .ingest payload logicalTime => if s.ingressPhase = .idle then some (s.ingestAdmit payload logicalTime) else none
  | .persist calls =>
    match s.ingressPhase with
    | .admitted payload logicalTime => some (s.ingestPersist payload logicalTime calls)
    | _ => none
  | .publish =>
    match s.ingressPhase with
    | .persisted command => some (s.ingestPublish command)
    | _ => none
  | .process =>
    match s.matchingPhase with
    | .idle => some s.processPeek
    | .peeked command => (s.processAdmit command).run fuel
    | .admitted command required => (s.processApply command required).run fuel
    | .applied command batch => some (s.processPublish command batch)
    | .published command => some (s.processRelease command)
  | .pop => some s.publicationPop

/-- The steps of a schedule: what they show, and the state after them. -/
def runSchedule (fuel : Nat) : List PipelineTurn → Pipeline → Option (List PipelineLabel × Pipeline)
  | [], s => some ([], s)
  | turn :: turns, s =>
    if s.hasFewEvents fuel then
      (s.turn fuel turn).bind fun r => (runSchedule fuel turns r.2).map fun rest => (r.1 :: rest.1, rest.2)
    else none

variable {fuel : Nat} {s s' : Pipeline}

/-- What is evaluated is what holds. -/
theorem fewEvents_of_hasFewEvents (h : s.hasFewEvents fuel = true) : s.FewEvents := by
  intro command required admitted status events trades engine happly
  rw [hasFewEvents, admitted, Option.any_eq_true] at h
  obtain ⟨r, hr, hfew⟩ := h
  cases happly.unique ⟨fuel, hr⟩
  exact of_decide_eq_true hfew

/-- A turn is a step. -/
theorem step_of_turn {turn : PipelineTurn} {r : PipelineLabel × Pipeline} (h : s.turn fuel turn = some r) : PipelineStep s r := by
  cases turn with
  | ingest payload logicalTime =>
    obtain ⟨idle, he⟩ := Option.ite_none_right_eq_some.mp h
    cases he
    exact .ingestAdmit payload logicalTime idle
  | persist calls =>
    rw [Pipeline.turn] at h
    split at h
    · rename_i admitted
      cases h
      exact .ingestPersist calls admitted
    · cases h
  | publish =>
    rw [Pipeline.turn] at h
    split at h
    · rename_i persisted
      cases h
      exact .ingestPublish persisted
    · cases h
  | process =>
    rw [Pipeline.turn] at h
    split at h
    · rename_i idle
      cases h
      exact .processPeek idle
    · rename_i peeked
      exact .processAdmit peeked ⟨fuel, h⟩
    · rename_i admitted
      exact .processApply admitted ⟨fuel, h⟩
    · rename_i applied
      cases h
      exact .processPublish applied
    · rename_i published
      cases h
      exact .processRelease published
  | pop =>
    cases h
    exact .publicationPop

/-- A schedule is a run. -/
theorem run_of_schedule {s₀ : Pipeline} {turns : List PipelineTurn} {labels shown : List PipelineLabel}
    (h : s.runSchedule fuel turns = some (shown, s')) (before : PipelineRun s₀ labels s) : PipelineRun s₀ (labels ++ shown) s' := by
  induction turns generalizing s labels shown with
  | nil =>
    cases h
    rw [List.append_nil]
    exact before
  | cons turn turns ih =>
    obtain ⟨hfew, h⟩ := Option.ite_none_right_eq_some.mp h
    obtain ⟨r, hturn, h⟩ := Option.bind_eq_some_iff.mp h
    obtain ⟨⟨rest, final⟩, hrest, hpair⟩ := Option.map_eq_some_iff.mp h
    cases hpair
    have hrun := ih hrest (before.step (fewEvents_of_hasFewEvents hfew) (step_of_turn hturn))
    rw [List.append_assoc] at hrun
    exact hrun

end Pipeline

/-- A sell order of five and a market order of three go through a queue of one command: the second waits until the first is released, and
the events are popped while the threads go on. -/
theorem pipeline_in_order_two_orders : ∃ s₀ labels s, PipelineRun s₀ labels s ∧ .ingested .queueBackpressure ∈ labels ∧
    .processed .inputEmpty ∈ labels ∧ (journaledCommands labels).map SequencedCommand.sequence = [1, 2] ∧
    (poppedEvents labels).length = 2 ∧ (appliedBatches labels).map Prod.fst <+: journaledCommands labels ∧
    poppedEvents labels <+: ((appliedBatches labels).map Prod.snd).flatten := by
  let commands : SpscQueue SequencedCommand := .emptyAt 1 (fun _ => ⟨.submitMarket 1 0 5, 1, 5⟩) 0 (by decide) (by decide)
  let events : SpscQueue EngineEvent := .emptyAt 5 (fun _ => {}) 0 (by decide) (by decide)
  let sequencer : Sequencer := ⟨1, 0, false⟩
  let journal := MmapJournal.attached 7 2 1
  let file := Mapped.settled (MmapJournal.createdBytes 2 1)
  let calls : PersistCalls := ⟨7, ⟨true, true⟩, ⟨true, true⟩⟩
  let sell : PipelineTurn := .ingest (.submitLimit 1 1 102 5 0) 10
  let buy : PipelineTurn := .ingest (.submitMarket 2 0 3) 12
  let turns : List PipelineTurn :=
    [sell, .process, .persist calls, .publish, buy, .process, .process, .process, .process, .pop, .process, buy, .process, .persist calls,
      .publish, .process, .process, .process, .process, .pop, .process]
  have hsome : ((SequencedEngine.create (BookConfig.small 2 (by decide) .none) 1 0 .continuous).bind fun live =>
      (Pipeline.create sequencer journal file live commands events).bind fun s₀ =>
        (s₀.runSchedule 30 turns).map fun r => (live, s₀, r)).any
      (fun r => .ingested .queueBackpressure ∈ r.2.2.1 ∧ .processed .inputEmpty ∈ r.2.2.1 ∧
        (journaledCommands r.2.2.1).map SequencedCommand.sequence = [1, 2] ∧ (poppedEvents r.2.2.1).length = 2) = true := by
    decide +kernel
  rw [Option.any_eq_true] at hsome
  obtain ⟨⟨live, s₀, labels, s⟩, hrun, hshown⟩ := hsome
  obtain ⟨live', hcreate, hrun⟩ := Option.bind_eq_some_iff.mp hrun
  obtain ⟨s₀', created, hrun⟩ := Option.bind_eq_some_iff.mp hrun
  obtain ⟨r, hschedule, hpair⟩ := Option.map_eq_some_iff.mp hrun
  cases hpair
  obtain ⟨hfull, hempty, hjournaled, hpopped⟩ := of_decide_eq_true hshown
  obtain ⟨hreached, hnext, htime, hfresh⟩ := SequencedEngine.reached_create hcreate
  have inStep : InStep sequencer journal live := by
    refine ⟨rfl, ?_, rfl, htime⟩
    rw [SequencedEngine.next, hnext, hfresh]
    rfl
  have run : PipelineRun s₀ labels s := Pipeline.run_of_schedule hschedule .start
  obtain ⟨happlied, -, -, hevents, -⟩ := pipeline_in_order created inStep (MmapJournal.attached_sized (by decide) 7).1 hreached run
  exact ⟨s₀, labels, s, run, hfull, hempty, hjournaled, hpopped, happlied, hevents⟩

end MatchingEngine

import MatchingEngine.RuntimeOperations
import MatchingEngine.Theorems.Stage

/-!
# What the operations of a runtime say of a process

The state of the operations is a function of the calls made on them, in no more detail than their counts, the worst of them, and the order
of a start and the two steps of a shutdown. So an operator that feeds them every status of the two stages learns of every failure: at once
from the ingress, and from the matching at the call after the one that poisons the stage at the latest.
-/

namespace MatchingEngine

/-! ## What a call says -/

namespace RuntimeCall

/-- How bad a call is. -/
def health : RuntimeCall → RuntimeHealth
  | .ingress .queueBackpressure | .matching .outputBackpressure => .backpressured
  | .ingress .journalFull | .ingress .sequenceExhausted | .matching .sequenceExhausted | .matching .impossibleEventCapacity =>
    .capacityExhausted
  | .ingress .persistenceFailure | .ingress .commitIndeterminate | .ingress .recoveryRequired => .recoveryRequired
  | .ingress .stoppedPoisoned | .matching .invalidCommand | .matching .invalidSequence | .matching .decreasingLogicalTime
  | .matching .internalInvariantFailure | .matching .poisoned => .corruption
  | _ => .healthy

/-- A call no runtime goes on after. -/
def Fatal (c : RuntimeCall) : Prop := RuntimeHealth.recoveryRequired.raw ≤ c.health.raw

instance (c : RuntimeCall) : Decidable c.Fatal := inferInstanceAs (Decidable (_ ≤ _))

/-- The status of the ingress a call is about. -/
def ingress? : RuntimeCall → Option IngressStatus
  | .ingress status => some status
  | _ => none

/-- The status of the matching a call is about. -/
def matching? : RuntimeCall → Option MatchingStatus
  | .matching status => some status
  | _ => none

end RuntimeCall

/-- The counters of the operations. -/
inductive RuntimeCounter where
  | accepted
  | matched
  | published
  | backpressure
  | capacity
  | failure
  deriving DecidableEq, Repr

/-- Whether a call is on a counter. A refused payload is a failure that is no worse than any other call. -/
def RuntimeCounter.counts : RuntimeCounter → RuntimeCall → Bool
  | .accepted, c => c = .ingress .progress
  | .matched, c => c = .matching .progress
  | .published, c => c = .publication .progress
  | .backpressure, c => c.health = .backpressured
  | .capacity, c => c.health = .capacityExhausted
  | .failure, c => c.Fatal ∨ c = .ingress .invalidPayload ∨ c = .ingress .decreasingLogicalTime

namespace RuntimeOperations

variable {r : RuntimeOperations} {c : RuntimeCall} {calls : List RuntimeCall}

/-- A counter of the operations. -/
def counter (r : RuntimeOperations) : RuntimeCounter → UInt64
  | .accepted => r.acceptedCommands
  | .matched => r.matchedCommands
  | .published => r.publishedEvents
  | .backpressure => r.backpressureEvents
  | .capacity => r.capacityEvents
  | .failure => r.failureEvents

theorem run_snoc (calls : List RuntimeCall) (c : RuntimeCall) : run (calls ++ [c]) = (run calls).after c := by
  rw [run, List.foldl_append]
  rfl

/-! ## Counters -/

@[simp] theorem counter_raiseHealth (k : RuntimeCounter) (health : RuntimeHealth) : (r.raiseHealth health).counter k = r.counter k := by
  unfold raiseHealth
  split <;> cases k <;> rfl

/-- A call moves the counters it is on, by one. -/
theorem counter_after (k : RuntimeCounter) : (r.after c).counter k = if k.counts c then increment (r.counter k) else r.counter k := by
  have hraise := fun h => @counter_raiseHealth r k h
  cases c with
  | start =>
    rw [after, start]
    split <;> cases k <;> rfl
  | beginShutdown =>
    rw [after, beginShutdown]
    split <;> cases k <;> rfl
  | completeShutdown commandQueueEmpty eventQueueEmpty =>
    rw [after, completeShutdown]
    split <;> cases k <;> rfl
  | ingress status =>
    cases status <;> cases k <;>
      first
      | rfl
      | exact hraise _
      | exact congrArg increment (hraise _)
  | matching status =>
    cases status <;> cases k <;>
      first
      | rfl
      | exact hraise _
      | exact congrArg increment (hraise _)
  | publication status =>
    cases status <;> cases k <;> rfl

/-- A counter that saturates counts one more. -/
theorem increment_toNat {v : UInt64} {n : Nat} (h : v.toNat = min n (2 ^ 64 - 1)) : (increment v).toNat = min (n + 1) (2 ^ 64 - 1) := by
  have hmax : v = uint64Max ↔ v.toNat = 2 ^ 64 - 1 := by
    rw [← UInt64.toNat_inj]
    rfl
  unfold increment
  split
  · rename_i hne
    rw [Ne, hmax] at hne
    rw [UInt64.toNat_add, show (1 : UInt64).toNat = 1 from rfl]
    omega
  · rename_i heq
    rw [not_not, hmax] at heq
    omega

/-- A counter is the number of the calls on it, up to its maximum. -/
theorem counter_run (k : RuntimeCounter) (calls : List RuntimeCall) :
    ((run calls).counter k).toNat = min (calls.countP k.counts) (2 ^ 64 - 1) := by
  induction calls using List.reverseRecOn with
  | nil => cases k <;> rfl
  | append_singleton calls c ih =>
    rw [run_snoc, counter_after, List.countP_append, List.countP_singleton]
    split
    · exact increment_toNat ih
    · exact ih

/-! ## Health -/

/-- The health is raised and never lowered. -/
theorem raiseHealth_health (health : RuntimeHealth) : (r.raiseHealth health).health.raw = max r.health.raw health.raw := by
  unfold raiseHealth
  split
  · rename_i hlt
    exact (max_eq_right hlt.le).symm
  · rename_i hle
    exact (max_eq_left (not_lt.mp hle)).symm

/-- A call raises the health to its own. -/
theorem health_after : (r.after c).health.raw = max r.health.raw c.health.raw := by
  have hzero : r.health.raw = max r.health.raw RuntimeHealth.healthy.raw := (max_eq_left (Nat.zero_le _)).symm
  cases c with
  | start =>
    rw [after, start]
    split <;> exact hzero
  | beginShutdown =>
    rw [after, beginShutdown]
    split <;> exact hzero
  | completeShutdown commandQueueEmpty eventQueueEmpty =>
    rw [after, completeShutdown]
    split <;> exact hzero
  | ingress status =>
    cases status <;>
      first
      | exact hzero
      | exact raiseHealth_health _
  | matching status =>
    cases status <;>
      first
      | exact hzero
      | exact raiseHealth_health _
  | publication status => cases status <;> exact hzero

/-- The health is the worst of the calls. -/
theorem health_run (calls : List RuntimeCall) : (run calls).health.raw = (calls.map fun c => c.health.raw).foldr max 0 := by
  induction calls using List.reverseRecOn with
  | nil => rfl
  | append_singleton calls c ih =>
    rw [run_snoc, health_after, ih, List.map_append, List.foldr_append]
    have hmax : ∀ (l : List Nat) (n : Nat), max (l.foldr max 0) n = l.foldr max n := fun l n => by
      induction l with
      | nil => exact Nat.zero_max n
      | cons m l ih => rw [List.foldr_cons, List.foldr_cons, max_assoc, ih]
    rw [hmax]
    exact congrArg (fun n => List.foldr max n _) (Nat.max_zero _).symm

/-! ## Lifecycle -/

/-- A fatal call fails the runtime. -/
theorem after_fatal (h : c.Fatal) : (r.after c).lifecycle = .failed := by
  cases c with
  | ingress status =>
    cases status <;>
      first
      | rfl
      | exact absurd h (by decide)
  | matching status =>
    cases status <;>
      first
      | rfl
      | exact absurd h (by decide)
  | publication status => cases status <;> exact absurd h (by decide)
  | start => exact absurd h (by decide)
  | beginShutdown => exact absurd h (by decide)
  | completeShutdown _ _ => exact absurd h (by decide : ¬RuntimeHealth.recoveryRequired.raw ≤ RuntimeHealth.healthy.raw)

theorem raiseHealth_lifecycle (health : RuntimeHealth) : (r.raiseHealth health).lifecycle = r.lifecycle := by
  unfold raiseHealth
  split <;> rfl

/-- A status that is not fatal leaves the lifecycle as it is. -/
theorem after_status (h : ¬c.Fatal) (hstart : c ≠ .start) (hbegin : c ≠ .beginShutdown) (hcomplete : c ≠ .completeShutdown true true) :
    (r.after c).lifecycle = r.lifecycle := by
  cases c with
  | start => exact absurd rfl hstart
  | beginShutdown => exact absurd rfl hbegin
  | completeShutdown commandQueueEmpty eventQueueEmpty =>
    rw [after, completeShutdown, if_pos]
    cases commandQueueEmpty
    · exact Or.inr (Or.inl rfl)
    cases eventQueueEmpty
    · exact Or.inr (Or.inr rfl)
    · exact absurd rfl hcomplete
  | ingress status =>
    cases status <;>
      first
      | rfl
      | exact raiseHealth_lifecycle _
      | exact absurd (by decide) h
  | matching status =>
    cases status <;>
      first
      | rfl
      | exact raiseHealth_lifecycle _
      | exact absurd (by decide) h
  | publication status => cases status <;> rfl

/-- A start runs what is starting. -/
theorem after_start : (r.after .start).lifecycle = if r.lifecycle = .starting then .running else r.lifecycle := by
  rw [after, start]
  by_cases h : r.lifecycle = .starting
  · rw [if_neg (not_not.mpr h), if_pos h]
  · rw [if_pos h, if_neg h]

/-- A shutdown drains what is running. -/
theorem after_beginShutdown : (r.after .beginShutdown).lifecycle = if r.lifecycle = .running then .draining else r.lifecycle := by
  rw [after, beginShutdown]
  by_cases h : r.lifecycle = .running
  · rw [if_neg (not_not.mpr h), if_pos h]
  · rw [if_pos h, if_neg h]

/-- A completed shutdown stops what is draining. -/
theorem after_completeShutdown :
    (r.after (.completeShutdown true true)).lifecycle = if r.lifecycle = .draining then .stopped else r.lifecycle := by
  rw [after, completeShutdown]
  by_cases h : r.lifecycle = .draining
  · rw [if_neg (by simp [h]), if_pos h]
  · rw [if_pos (Or.inl h), if_neg h]

/-- A runtime that has failed stays so. -/
theorem after_failed (h : r.lifecycle = .failed) : (r.after c).lifecycle = .failed := by
  by_cases hc : c.Fatal
  · exact after_fatal hc
  by_cases hstart : c = .start
  · rw [hstart, after_start, h]
    rfl
  by_cases hbegin : c = .beginShutdown
  · rw [hbegin, after_beginShutdown, h]
    rfl
  by_cases hcomplete : c = .completeShutdown true true
  · rw [hcomplete, after_completeShutdown, h]
    rfl
  · rw [after_status hc hstart hbegin hcomplete, h]

end RuntimeOperations

/-- A list with another item at its end has a sublist that ends in an item. -/
theorem concat_sublist_concat {α : Type} {xs l : List α} {x c : α} :
    (xs ++ [x]).Sublist (l ++ [c]) ↔ (xs ++ [x]).Sublist l ∨ x = c ∧ xs.Sublist l := by
  have hkeep : (x :: xs.reverse).Sublist l.reverse ↔ (xs ++ [x]).Sublist l := by
    rw [← List.reverse_concat', List.reverse_sublist]
  rw [← List.reverse_sublist, List.reverse_concat', List.reverse_concat', List.cons_sublist_cons', hkeep, List.reverse_sublist]

/-- Where calls lead: a fatal one anywhere, or how far a start, the beginning and the completion of a shutdown have come, in this order. -/
def lifecycleOf (calls : List RuntimeCall) : RuntimeLifecycle :=
  if ∃ c ∈ calls, c.Fatal then .failed
  else if [.start, .beginShutdown, .completeShutdown true true].Sublist calls then .stopped
  else if [.start, .beginShutdown].Sublist calls then .draining
  else if [.start].Sublist calls then .running
  else .starting

namespace RuntimeOperations

variable {r : RuntimeOperations} {c : RuntimeCall} {calls : List RuntimeCall}

/-- The state after a call is the one the calls have led to. A longer part of a shutdown has the shorter ones in it. -/
theorem lifecycle_after (h : r.lifecycle = lifecycleOf calls) : (r.after c).lifecycle = lifecycleOf (calls ++ [c]) := by
  have hfatal : (∃ c' ∈ calls ++ [c], c'.Fatal) ↔ (∃ c' ∈ calls, c'.Fatal) ∨ c.Fatal := by
    simp only [List.mem_append, List.mem_singleton, or_and_right, exists_or, exists_eq_left]
  have h1 : [RuntimeCall.start].Sublist (calls ++ [c]) ↔ [RuntimeCall.start].Sublist calls ∨ .start = c := by
    rw [← List.nil_append [RuntimeCall.start], concat_sublist_concat, and_iff_left (List.nil_sublist calls)]
  have h2 : [.start, .beginShutdown].Sublist (calls ++ [c]) ↔
      [.start, .beginShutdown].Sublist calls ∨ .beginShutdown = c ∧ [RuntimeCall.start].Sublist calls :=
    @concat_sublist_concat _ [RuntimeCall.start] calls RuntimeCall.beginShutdown c
  have h3 : [.start, .beginShutdown, .completeShutdown true true].Sublist (calls ++ [c]) ↔
      [.start, .beginShutdown, .completeShutdown true true].Sublist calls ∨
        .completeShutdown true true = c ∧ [RuntimeCall.start, .beginShutdown].Sublist calls :=
    @concat_sublist_concat _ [RuntimeCall.start, .beginShutdown] calls (RuntimeCall.completeShutdown true true) c
  have h32 : [.start, .beginShutdown, .completeShutdown true true].Sublist calls → [RuntimeCall.start, .beginShutdown].Sublist calls :=
    fun h => List.Sublist.trans (by decide) h
  have h21 : [.start, .beginShutdown].Sublist calls → [RuntimeCall.start].Sublist calls := fun h => List.Sublist.trans (by decide) h
  unfold lifecycleOf at h ⊢
  simp only [hfatal, h1, h2, h3]
  by_cases hc : c.Fatal
  · rw [after_fatal hc, if_pos (Or.inr hc)]
  by_cases hany : ∃ c' ∈ calls, c'.Fatal
  · rw [if_pos hany] at h
    rw [if_pos (Or.inl hany), after_failed h]
  rw [if_neg hany] at h
  rw [if_neg (not_or.mpr ⟨hany, hc⟩)]
  by_cases hstart : c = .start
  · subst hstart
    rw [after_start, h]
    by_cases hs : [RuntimeCall.start].Sublist calls
    · simp only [hs, true_or, if_true, reduceCtorEq, false_and, or_false]
      split_ifs <;> first | rfl | contradiction
    · simp only [hs, mt h21 hs, mt (h21 ∘ h32) hs, if_false, if_true, or_true, reduceCtorEq, false_and, or_false]
  by_cases hbegin : c = .beginShutdown
  · subst hbegin
    rw [after_beginShutdown, h]
    by_cases hb : [RuntimeCall.start, .beginShutdown].Sublist calls
    · simp only [hb, true_or, if_true, reduceCtorEq, false_and, or_false]
      split_ifs <;> first | rfl | contradiction
    · simp only [hb, mt h32 hb, if_false, true_and, false_or, or_false, reduceCtorEq, false_and]
      split_ifs <;> first | rfl | contradiction
  by_cases hcomplete : c = .completeShutdown true true
  · subst hcomplete
    rw [after_completeShutdown, h]
    simp only [true_and, or_false, reduceCtorEq, false_and]
    by_cases hd : [RuntimeCall.start, .beginShutdown, .completeShutdown true true].Sublist calls
    · simp only [hd, true_or, if_true, reduceCtorEq, if_false]
    · by_cases hb : [RuntimeCall.start, .beginShutdown].Sublist calls
      · simp only [hd, hb, false_or, if_true, if_false]
      · simp only [hd, hb, or_self, if_false]
        split_ifs <;> first | rfl | contradiction
  · rw [after_status hc hstart hbegin hcomplete, h]
    simp only [or_false, Ne.symm hstart, Ne.symm hbegin, Ne.symm hcomplete, false_and]

theorem lifecycle_run (calls : List RuntimeCall) : (run calls).lifecycle = lifecycleOf calls := by
  induction calls using List.reverseRecOn with
  | nil => rfl
  | append_singleton calls c ih => rw [run_snoc, lifecycle_after ih]

/-- The health is that of the worst call or worse. -/
theorem le_health (h : c ∈ calls) : c.health.raw ≤ (run calls).health.raw := by
  rw [health_run]
  induction calls with
  | nil => cases h
  | cons c' calls ih =>
    rw [List.map_cons, List.foldr_cons]
    rcases List.mem_cons.mp h with rfl | h
    · exact le_max_left _ _
    · exact (ih h).trans (le_max_right _ _)

/-- The runtime has failed exactly if a call was fatal. -/
theorem failed_iff : (run calls).lifecycle = .failed ↔ ∃ c ∈ calls, c.Fatal := by
  rw [lifecycle_run, lifecycleOf]
  split_ifs with hany
  all_goals simp [hany]

/-- A runtime that runs has the health of one, so its lifecycle alone says whether it takes commands. -/
theorem acceptsIngress_iff : (run calls).acceptsIngress = true ↔ (run calls).lifecycle = .running := by
  rw [acceptsIngress, decide_eq_true_iff]
  refine ⟨And.left, fun h => ⟨h, ?_⟩⟩
  have hnone : ¬∃ c ∈ calls, c.Fatal := fun hany => by
    rw [failed_iff.mpr hany] at h
    cases h
  have hlow : (run calls).health.raw < RuntimeHealth.recoveryRequired.raw := by
    rw [health_run]
    clear h
    induction calls with
    | nil => decide
    | cons c calls ih =>
      rw [List.map_cons, List.foldr_cons, max_lt_iff]
      exact ⟨not_le.mp fun hc => hnone ⟨c, List.mem_cons_self, hc⟩,
        ih fun ⟨c', hm, hc⟩ => hnone ⟨c', List.mem_cons_of_mem _ hm, hc⟩⟩
  exact ⟨fun h => by rw [h] at hlow; exact absurd hlow (by decide), fun h => by rw [h] at hlow; exact absurd hlow (by decide)⟩

end RuntimeOperations

/-- The operations after any calls: each counter is the number of the calls on it, up to its maximum; the health is the worst of the calls;
the lifecycle is where the calls lead; and commands are accepted from a start on, until a shutdown begins, where no call was fatal. -/
theorem runtime_operations_of_calls (calls : List RuntimeCall) :
    (∀ k, ((RuntimeOperations.run calls).counter k).toNat = min (calls.countP (RuntimeCounter.counts k)) (2 ^ 64 - 1)) ∧
    (RuntimeOperations.run calls).health.raw = (calls.map fun c => c.health.raw).foldr max 0 ∧
    (RuntimeOperations.run calls).lifecycle = lifecycleOf calls ∧
    ((RuntimeOperations.run calls).acceptsIngress = true ↔
      (∀ c ∈ calls, ¬c.Fatal) ∧ .start ∈ calls ∧ ¬[.start, .beginShutdown].Sublist calls) := by
  refine ⟨fun k => RuntimeOperations.counter_run k calls, RuntimeOperations.health_run calls, RuntimeOperations.lifecycle_run calls, ?_⟩
  rw [RuntimeOperations.acceptsIngress_iff, RuntimeOperations.lifecycle_run, lifecycleOf, ← List.singleton_sublist]
  have h32 : [.start, .beginShutdown, .completeShutdown true true].Sublist calls → [RuntimeCall.start, .beginShutdown].Sublist calls :=
    fun h => List.Sublist.trans (by decide) h
  have hall : (∀ c ∈ calls, ¬c.Fatal) ↔ ¬∃ c ∈ calls, c.Fatal := by
    push Not
    rfl
  rw [hall]
  constructor
  · intro h
    split_ifs at h with hany hd hb hs
    exact ⟨hany, hs, hb⟩
  · rintro ⟨hany, hs, hb⟩
    rw [if_neg hany, if_neg (mt h32 hb), if_neg hb, if_pos hs]

/-! ## The stages -/

/-- Whether a status of the matching says that the stage processes no command any more. -/
def MatchingStatus.poisons : MatchingStatus → Bool
  | .progress | .inputEmpty | .outputBackpressure => false
  | _ => true

namespace MatchingStage

variable {stage stage' : MatchingStage} {snapshot snapshot' : BboSnapshot} {commands commands' : SpscQueue SequencedCommand}
  {events events' : SpscQueue EngineEvent} {status : MatchingStatus}

/-- A status at the first look poisons as it says. -/
theorem peek_poisons (h : (stage.peek commands).1 = .error status) : stage.poisoned = (stage.poisoned || status.poisons) := by
  unfold peek at h
  split at h
  · rename_i hpoisoned
    rw [hpoisoned, Bool.true_or]
  · split at h
    · cases h
      rw [MatchingStatus.poisons, Bool.or_false]
    · cases h

/-- A status at the checks poisons as it says. -/
theorem accept_poisons {command : SequencedCommand} (h : (stage.accept command events).Returns (.error status, stage', events')) :
    stage'.poisoned = (stage.poisoned || status.poisons) := by
  unfold accept at h
  split at h
  · cases (Comp.returns_pure _ _).mp h
    exact (Bool.or_true _).symm
  split at h
  · cases (Comp.returns_pure _ _).mp h
    exact (Bool.or_true _).symm
  split at h
  · cases (Comp.returns_pure _ _).mp h
    exact (Bool.or_true _).symm
  split at h
  · cases (Comp.returns_pure _ _).mp h
    exact (Bool.or_true _).symm
  obtain ⟨required, -, h⟩ := (Comp.returns_bind _ _ _).mp h
  split at h
  · cases (Comp.returns_pure _ _).mp h
    exact (Bool.or_true _).symm
  split at h
  · cases (Comp.returns_pure _ _).mp h
    exact (Bool.or_false _).symm
  · cases (Comp.returns_pure _ _).mp h

theorem failure_poisons {answer : ApplyStatus} (h : failure answer = some status) : status.poisons = true := by
  cases answer <;> cases h <;> rfl

/-- A command that could not be applied poisons. -/
theorem apply_poisons {command : SequencedCommand} {required : Nat} (h : (stage.apply command required).Returns (.error status, stage')) :
    stage'.poisoned = true ∧ status.poisons = true := by
  refine ⟨(apply_error h).2, ?_⟩
  unfold apply at h
  obtain ⟨⟨answer, batch, trades, engine⟩, -, h⟩ := (Comp.returns_bind _ _ _).mp h
  dsimp only at h
  split at h
  · rename_i hfailure
    cases (Comp.returns_pure _ _).mp h
    exact failure_poisons hfailure
  · split at h
    · cases (Comp.returns_pure _ _).mp h
      rfl
    · cases (Comp.returns_pure _ _).mp h

/-- A command whose events could not be published poisons. -/
theorem publish_poisons {batch : List EngineEvent} (h : stage.publish batch events = (some status, stage', events')) :
    stage'.poisoned = true ∧ status.poisons = true := by
  refine ⟨(publish_error h).2, ?_⟩
  unfold publish at h
  dsimp only at h
  split at h
  · cases h
  · cases h
    rfl

/-- The release poisons as its status says. -/
theorem release_poisons (command : SequencedCommand) (commands : SpscQueue SequencedCommand) :
    (stage.release command commands).2.1.poisoned = (stage.poisoned || (stage.release command commands).1.poisons) := by
  unfold release
  dsimp only
  split
  · exact (Bool.or_false _).symm
  · exact (Bool.or_true _).symm

/-- A call poisons the stage exactly if its status says so, and a stage once poisoned says nothing else. -/
theorem processOnePublishing_poisons
    (returned : (stage.processOnePublishing snapshot commands events).Returns (status, stage', snapshot', commands', events')) :
    stage'.poisoned = (stage.poisoned || status.poisons) ∧ (stage.poisoned = true → status = .poisoned) := by
  constructor
  · unfold processOnePublishing at returned
    rcases hpeek : stage.peek commands with ⟨answer | command, commands⟩ <;> rw [hpeek] at returned
    · cases (Comp.returns_pure _ _).mp returned
      exact peek_poisons (congrArg Prod.fst hpeek)
    obtain ⟨⟨answer | required, accepted, events⟩, haccept, hrest⟩ := (Comp.returns_bind _ _ _).mp returned
    · cases (Comp.returns_pure _ _).mp hrest
      exact accept_poisons haccept
    obtain ⟨rfl, -⟩ := accept_ok haccept
    obtain ⟨⟨answer | batch, applied⟩, happly, hrest⟩ := (Comp.returns_bind _ _ _).mp hrest
    · cases (Comp.returns_pure _ _).mp hrest
      obtain ⟨hpoisoned, hstatus⟩ := apply_poisons happly
      rw [hpoisoned, hstatus, Bool.or_true]
    have happlied := apply_ok happly
    dsimp only at hrest
    rcases hpublish : applied.publish batch events with ⟨_ | answer, published, events⟩ <;> rw [hpublish] at hrest
    · obtain rfl := publish_ok hpublish
      have hrelease := @release_poisons { applied with bbo := applied.engine.orderBook.bboState } command commands
      cases (Comp.returns_pure _ _).mp hrest
      rw [hrelease]
      exact congrArg (· || _) happlied
    · cases (Comp.returns_pure _ _).mp hrest
      obtain ⟨hpoisoned, hstatus⟩ := publish_poisons hpublish
      rw [hpoisoned, hstatus, Bool.or_true]
  · intro hpoisoned
    have hpeek : stage.peek commands = (.error .poisoned, commands) := if_pos hpoisoned
    unfold processOnePublishing at returned
    rw [hpeek] at returned
    exact (congrArg Prod.fst ((Comp.returns_pure _ _).mp returned)).symm

end MatchingStage

/-- A status that poisons the stage, but is no more than an exhausted capacity to the operations. -/
def MatchingStatus.OfCapacity (status : MatchingStatus) : Prop := status = .sequenceExhausted ∨ status = .impossibleEventCapacity

/-- A status of capacity is seen in the health. -/
theorem MatchingStatus.OfCapacity.health {status : MatchingStatus} (h : status.OfCapacity) :
    (RuntimeCall.matching status).health = .capacityExhausted := by
  rcases h with rfl | rfl
  · rfl
  · rfl

/-- A poisoning status is fatal or of capacity. -/
theorem MatchingStatus.poisons_cases {status : MatchingStatus} (h : status.poisons = true) :
    (RuntimeCall.matching status).Fatal ∨ status.OfCapacity := by
  cases status <;>
    first
    | exact Or.inl (by decide)
    | exact Or.inr (Or.inl rfl)
    | exact Or.inr (Or.inr rfl)
    | exact absurd h (by decide)

theorem MatchingStatus.poisons_of_fatal {status : MatchingStatus} (h : (RuntimeCall.matching status).Fatal) : status.poisons = true := by
  cases status <;>
    first
    | rfl
    | exact absurd h (by decide)

/-- What the statuses of a stage that was not poisoned say of it: some status says that it is, and a fatal one does unless the last one
is the first to say it. -/
theorem StageRun.poisons {stage₀ stage : MatchingStage} {statuses : List MatchingStatus} {snapshot : BboSnapshot}
    (run : StageRun stage₀ statuses stage snapshot) (healthy : stage₀.poisoned = false) :
    (stage.poisoned = true ↔ ∃ status ∈ statuses, status.poisons = true) ∧
    (stage.poisoned = true → (∃ status ∈ statuses, (RuntimeCall.matching status).Fatal) ∨
      ∃ status, statuses.getLast? = some status ∧ status.OfCapacity) := by
  induction run with
  | start =>
    rw [healthy]
    exact ⟨⟨nofun, fun ⟨_, hm, _⟩ => absurd hm List.not_mem_nil⟩, nofun⟩
  | @call statuses stage stage' snapshot snapshot' status _ _ _ _ before returned ih =>
    obtain ⟨hnow, hlater⟩ := MatchingStage.processOnePublishing_poisons returned
    have hlast : status ∈ statuses ++ [status] := List.mem_append_right _ (List.mem_singleton_self _)
    constructor
    · rw [hnow, Bool.or_eq_true, ih.1]
      simp only [List.mem_append, List.mem_singleton, or_and_right, exists_or, exists_eq_left]
    · intro hpoisoned
      cases hbefore : stage.poisoned with
      | true => exact Or.inl ⟨status, hlast, by rw [hlater hbefore]; decide⟩
      | false =>
        rw [hnow, hbefore, Bool.false_or] at hpoisoned
        refine (MatchingStatus.poisons_cases hpoisoned).imp (fun hfatal => ⟨status, hlast, hfatal⟩) fun hcapacity => ⟨status, ?_, hcapacity⟩
        rw [List.getLast?_append, List.getLast?_singleton, Option.some_or]

/-- Whether an ingress takes no payload any more. -/
def DurableIngressStage.broken (stage : DurableIngressStage) : Bool := stage.stopped || stage.recoveryRequired

/-- A run of calls of `try_ingest`, whatever the queue holds and the synchronisations come to at each of them: what they have returned, and
the stage after them. -/
inductive IngressRun (stage₀ : DurableIngressStage) : List IngressStatus → DurableIngressStage → Prop where
  | start : IngressRun stage₀ [] stage₀
  | call {statuses : List IngressStatus} {stage stage' : DurableIngressStage} {status : IngressStatus} {payload : CommandPayload}
      {logicalTime : UInt64} {calls : PersistCalls} {producer producer' : SpscQueue SequencedCommand}
      (before : IngressRun stage₀ statuses stage)
      (returned : stage.tryIngest payload logicalTime calls producer = (status, stage', producer')) :
      IngressRun stage₀ (statuses ++ [status]) stage'

namespace DurableIngressStage

variable {stage stage' : DurableIngressStage} {payload : CommandPayload} {logicalTime : UInt64} {calls : PersistCalls}
  {producer producer' : SpscQueue SequencedCommand} {status : IngressStatus} {command : SequencedCommand}

/-- A stage that is whole has not stopped and needs no recovery. -/
theorem broken_eq_false : stage.broken = false ↔ stage.stopped = false ∧ stage.recoveryRequired = false := by
  rw [broken, Bool.or_eq_false_iff]

/-- A status of the first checks is fatal exactly where they leave the stage broken. -/
theorem accept_fatal (h : stage.accept payload logicalTime producer = (some status, stage', producer')) :
    (RuntimeCall.ingress status).Fatal ↔ stage'.broken = true := by
  unfold accept at h
  split at h
  · rename_i hstopped
    cases h
    exact iff_of_true (by decide) (by rw [broken, hstopped, Bool.true_or])
  rename_i hstopped
  split at h
  · cases h
    exact iff_of_true (by decide) (Bool.or_true _)
  rename_i hrecovery
  rw [Bool.or_eq_true, not_or] at hrecovery
  have hwhole : ¬stage.broken = true := by
    rw [broken, Bool.or_eq_true, not_or]
    exact ⟨hstopped, hrecovery.1⟩
  split at h
  · cases h
    exact iff_of_false (by decide) hwhole
  split at h
  · cases h
    exact iff_of_false (by decide) hwhole
  split at h
  · cases h
    exact iff_of_false (by decide) hwhole
  split at h
  · cases h
    exact iff_of_false (by decide) hwhole
  · cases h

/-- A payload that passes the first checks has found the stage whole. -/
theorem accept_whole (h : stage.accept payload logicalTime producer = (none, stage', producer')) : stage' = stage ∧ stage.broken = false := by
  unfold accept at h
  split at h
  · cases h
  rename_i hstopped
  split at h
  · cases h
  rename_i hrecovery
  rw [Bool.or_eq_true, not_or] at hrecovery
  split at h
  · cases h
  split at h
  · cases h
  split at h
  · cases h
  split at h
  · cases h
  · cases h
    exact ⟨rfl, broken_eq_false.mpr ⟨Bool.eq_false_iff.mpr hstopped, Bool.eq_false_iff.mpr hrecovery.1⟩⟩

/-- Persisting breaks the stage exactly with a fatal status. -/
theorem persist_fatal (hwhole : stage.broken = false) (h : stage.persist payload logicalTime calls = (.error status, stage')) :
    (RuntimeCall.ingress status).Fatal ↔ stage'.broken = true := by
  have hnot : ¬stage.broken = true := Bool.eq_false_iff.mp hwhole
  unfold persist at h
  split at h
  · cases h
    exact iff_of_false (by decide) hnot
  split at h
  · cases h
    exact iff_of_false (by decide) hnot
  · cases h
    exact iff_of_false (by decide) hnot
  · cases h
    exact iff_of_false (by decide) hnot
  dsimp only at h
  split at h
  · obtain ⟨hstatus, rfl⟩ := Prod.mk.inj h
    refine iff_of_true ?_ (Bool.or_true _)
    rw [← Except.error.inj hstatus]
    split <;> decide
  · cases (Prod.mk.inj h).1

/-- A command that is persisted leaves it whole. -/
theorem persist_whole (h : stage.persist payload logicalTime calls = (.ok command, stage')) : stage'.broken = stage.broken := by
  unfold persist at h
  split at h
  · cases h
  split at h
  · cases h
  · cases h
  · cases h
  dsimp only at h
  split at h
  · cases (Prod.mk.inj h).1
  · rw [← (Prod.mk.inj h).2]
    rfl

/-- A status of `try_ingest` is fatal exactly where the call leaves the stage broken. -/
theorem tryIngest_fatal (h : stage.tryIngest payload logicalTime calls producer = (status, stage', producer')) :
    (RuntimeCall.ingress status).Fatal ↔ stage'.broken = true := by
  unfold tryIngest at h
  rcases haccept : stage.accept payload logicalTime producer with ⟨_ | answer, accepted, admitted⟩ <;> rw [haccept] at h
  · obtain ⟨rfl, hwhole⟩ := accept_whole haccept
    dsimp only at h
    rcases hpersist : accepted.persist payload logicalTime calls with ⟨answer | command, persisted⟩ <;> rw [hpersist] at h
    · cases h
      exact persist_fatal hwhole hpersist
    · have hstill := (persist_whole hpersist).trans hwhole
      dsimp only [publish] at h
      split at h
      · cases h
        exact iff_of_false (by decide) (Bool.eq_false_iff.mp hstill)
      · cases h
        exact iff_of_true (by decide) (Bool.true_or _)
  · cases h
    exact accept_fatal haccept

/-- A stage that is broken stays so. -/
theorem tryIngest_broken (hbroken : stage.broken = true)
    (h : stage.tryIngest payload logicalTime calls producer = (status, stage', producer')) : stage'.broken = true := by
  unfold tryIngest at h
  rcases haccept : stage.accept payload logicalTime producer with ⟨_ | answer, accepted, admitted⟩ <;> rw [haccept] at h
  · rw [(accept_whole haccept).2] at hbroken
    cases hbroken
  · cases h
    refine (accept_fatal haccept).mp ?_
    unfold accept at haccept
    split at haccept
    · cases haccept
      decide
    rename_i hstopped
    rw [broken, Bool.eq_false_iff.mpr hstopped, Bool.false_or] at hbroken
    rw [if_pos (by rw [hbroken, Bool.true_or])] at haccept
    cases haccept
    decide

end DurableIngressStage

/-- What the statuses of an ingress that was whole say of it. -/
theorem IngressRun.broken {stage₀ stage : DurableIngressStage} {statuses : List IngressStatus} (run : IngressRun stage₀ statuses stage)
    (whole : stage₀.broken = false) : stage.broken = true ↔ ∃ status ∈ statuses, (RuntimeCall.ingress status).Fatal := by
  induction run with
  | start =>
    rw [whole]
    exact ⟨nofun, fun ⟨_, hm, _⟩ => absurd hm List.not_mem_nil⟩
  | @call statuses stage stage' status _ _ _ _ _ before returned ih =>
    simp only [List.mem_append, List.mem_singleton, or_and_right, exists_or, exists_eq_left]
    rw [← ih, DurableIngressStage.tryIngest_fatal returned]
    exact ⟨Or.inr, fun h => h.elim (fun hbroken => DurableIngressStage.tryIngest_broken hbroken returned) id⟩

namespace RuntimeCall

variable {calls : List RuntimeCall}

/-- The ingress statuses are among the calls. -/
theorem ingress_mem {status : IngressStatus} (h : status ∈ calls.filterMap ingress?) : .ingress status ∈ calls := by
  obtain ⟨c, hc, hsome⟩ := List.mem_filterMap.mp h
  cases c with
  | ingress _ =>
    cases hsome
    exact hc
  | matching _ => cases hsome
  | publication _ => cases hsome
  | start => cases hsome
  | beginShutdown => cases hsome
  | completeShutdown _ _ => cases hsome

theorem matching_mem {status : MatchingStatus} (h : status ∈ calls.filterMap matching?) : .matching status ∈ calls := by
  obtain ⟨c, hc, hsome⟩ := List.mem_filterMap.mp h
  cases c with
  | matching _ =>
    cases hsome
    exact hc
  | ingress _ => cases hsome
  | publication _ => cases hsome
  | start => cases hsome
  | beginShutdown => cases hsome
  | completeShutdown _ _ => cases hsome

/-- A fatal call is about a stage. -/
theorem fatal_iff : (∃ c ∈ calls, c.Fatal) ↔
    (∃ status ∈ calls.filterMap ingress?, (ingress status).Fatal) ∨ ∃ status ∈ calls.filterMap matching?, (matching status).Fatal := by
  constructor
  · rintro ⟨c, hc, hfatal⟩
    cases c with
    | ingress status => exact Or.inl ⟨status, List.mem_filterMap.mpr ⟨_, hc, rfl⟩, hfatal⟩
    | matching status => exact Or.inr ⟨status, List.mem_filterMap.mpr ⟨_, hc, rfl⟩, hfatal⟩
    | publication status => cases status <;> exact absurd hfatal (by decide)
    | start => exact absurd hfatal (by decide)
    | beginShutdown => exact absurd hfatal (by decide)
    | completeShutdown _ _ => exact absurd hfatal (by decide : ¬RuntimeHealth.recoveryRequired.raw ≤ RuntimeHealth.healthy.raw)
  · rintro (⟨status, hm, hfatal⟩ | ⟨status, hm, hfatal⟩)
    · exact ⟨_, ingress_mem hm, hfatal⟩
    · exact ⟨_, matching_mem hm, hfatal⟩

end RuntimeCall

/-- The operations see the failures of the two stages whose every status they are fed with, in any interleaving and with any other calls
between. They fail only where a stage has; where the ingress is broken they have failed; and where the matching is poisoned they have
failed too, but for a stage whose last call has run out of sequence numbers or of places for events: that is an exhausted capacity to them. -/
theorem runtime_sees_failures {ingress₀ ingress : DurableIngressStage} {stage₀ stage : MatchingStage} {snapshot : BboSnapshot}
    {calls : List RuntimeCall} (whole : ingress₀.broken = false) (healthy : stage₀.poisoned = false)
    (ingests : IngressRun ingress₀ (calls.filterMap RuntimeCall.ingress?) ingress)
    (processes : StageRun stage₀ (calls.filterMap RuntimeCall.matching?) stage snapshot) :
    ((RuntimeOperations.run calls).lifecycle = .failed → ingress.broken = true ∨ stage.poisoned = true) ∧
    (ingress.broken = true → (RuntimeOperations.run calls).lifecycle = .failed) ∧
    (stage.poisoned = true → (RuntimeOperations.run calls).lifecycle = .failed ∨
      RuntimeHealth.capacityExhausted.raw ≤ (RuntimeOperations.run calls).health.raw ∧
        ∃ status, (calls.filterMap RuntimeCall.matching?).getLast? = some status ∧ status.OfCapacity) := by
  have hingress := ingests.broken whole
  obtain ⟨hpoisons, hseen⟩ := processes.poisons healthy
  rw [RuntimeOperations.failed_iff, RuntimeCall.fatal_iff]
  refine ⟨fun h => h.imp hingress.mpr fun ⟨status, hm, hfatal⟩ => hpoisons.mpr ⟨status, hm, MatchingStatus.poisons_of_fatal hfatal⟩,
    fun h => Or.inl (hingress.mp h), fun h => (hseen h).imp Or.inr fun ⟨status, hlast, hcapacity⟩ => ⟨?_, status, hlast, hcapacity⟩⟩
  have hle := RuntimeOperations.le_health (RuntimeCall.matching_mem (List.mem_of_getLast? hlast))
  rwa [hcapacity.health] at hle

/-- The ingress takes a payload and does not know whether its next command is in the journal; the matching stage finds no command, applies
one, and is poisoned by one with another number than the next. In the interleaving below the operations have failed, as both stages have. -/
theorem runtime_sees_failures_both_stages : ∃ ingress₀ ingress stage₀ stage snapshot,
    IngressRun ingress₀ [.progress, .commitIndeterminate] ingress ∧ ingress.broken = true ∧
    StageRun stage₀ [.inputEmpty, .progress, .invalidSequence] stage snapshot ∧ stage.poisoned = true ∧
    (RuntimeOperations.run [.start, .ingress .progress, .matching .inputEmpty, .matching .progress, .ingress .commitIndeterminate,
      .matching .invalidSequence]).lifecycle = .failed := by
  let sell : CommandPayload := .submitLimit 1 1 102 5 0
  let commands : SpscQueue SequencedCommand := .emptyAt 1 (fun _ => ⟨sell, 1, 5⟩) 0 (by decide) (by decide)
  let events : SpscQueue EngineEvent := .emptyAt 5 (fun _ => {}) 0 (by decide) (by decide)
  let ingress₀ : DurableIngressStage :=
    { sequencer := ⟨1, 0, false⟩, journal := MmapJournal.attached 7 2 1, file := Mapped.settled (MmapJournal.createdBytes 2 1) }
  let first := ingress₀.tryIngest sell 5 ⟨7, ⟨true, true⟩, ⟨true, true⟩⟩ commands
  let second := first.2.1.tryIngest sell 6 ⟨7, ⟨true, true⟩, ⟨true, false⟩⟩ commands
  have hfirst : first.1 = .progress := by decide +kernel
  have hsecond : second.1 = .commitIndeterminate := by decide +kernel
  have hbroken : second.2.1.broken = true := by decide +kernel
  have ingests : IngressRun ingress₀ ([] ++ [first.1] ++ [second.1]) second.2.1 := (IngressRun.start.call rfl).call rfl
  rw [hfirst, hsecond] at ingests
  let next : SpscQueue SequencedCommand := (commands.tryPushBatch [⟨sell, 1, 5⟩]).2
  let later : SpscQueue SequencedCommand := (commands.tryPushBatch [⟨sell, 3, 5⟩]).2
  have hsome : ((SequencedEngine.create (BookConfig.small 2 (by decide) .none) 1 0 .continuous).bind fun engine =>
      (MatchingStage.create engine events).bind fun stage₀ =>
        ((stage₀.processOnePublishing {} commands events).run 20).bind fun r₁ =>
          ((r₁.2.1.processOnePublishing r₁.2.2.1 next events).run 20).bind fun r₂ =>
            ((r₂.2.1.processOnePublishing r₂.2.2.1 later events).run 20).map fun r₃ => (stage₀, r₁, r₂, r₃)).any
      (fun r => r.1.poisoned = false ∧ r.2.1.1 = .inputEmpty ∧ r.2.2.1.1 = .progress ∧ r.2.2.2.1 = .invalidSequence ∧
        r.2.2.2.2.1.poisoned = true) = true := by
    decide +kernel
  rw [Option.any_eq_true] at hsome
  obtain ⟨⟨stage₀, r₁, r₂, r₃⟩, hrun, hshown⟩ := hsome
  obtain ⟨engine, -, hrun⟩ := Option.bind_eq_some_iff.mp hrun
  obtain ⟨stage', -, hrun⟩ := Option.bind_eq_some_iff.mp hrun
  obtain ⟨r₁', hr₁, hrun⟩ := Option.bind_eq_some_iff.mp hrun
  obtain ⟨r₂', hr₂, hrun⟩ := Option.bind_eq_some_iff.mp hrun
  obtain ⟨r₃', hr₃, hpair⟩ := Option.map_eq_some_iff.mp hrun
  cases hpair
  obtain ⟨hhealthy, hempty, hprogress, hinvalid, hpoisoned⟩ := of_decide_eq_true hshown
  have processes : StageRun stage₀ ([] ++ [r₁.1] ++ [r₂.1] ++ [r₃.1]) r₃.2.1 r₃.2.2.1 :=
    ((StageRun.start.call ⟨20, hr₁⟩).call ⟨20, hr₂⟩).call ⟨20, hr₃⟩
  rw [hempty, hprogress, hinvalid] at processes
  obtain ⟨-, hsees, -⟩ := @runtime_sees_failures ingress₀ second.2.1 stage₀ r₃.2.1 r₃.2.2.1 [.start, .ingress .progress, .matching .inputEmpty,
    .matching .progress, .ingress .commitIndeterminate, .matching .invalidSequence] rfl hhealthy ingests processes
  exact ⟨ingress₀, second.2.1, stage₀, r₃.2.1, r₃.2.2.1, ingests, hbroken, processes, hpoisoned, hsees hbroken⟩

end MatchingEngine

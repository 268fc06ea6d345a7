import MatchingEngine.Lemmas.Spsc

/-!
# The queue is a bounded FIFO

In every run of the two threads, whatever the order of their steps, the calls of the queue show what a bounded FIFO shows, and the values
that are still in it stand in their slots. The documentation holds the counters correct across the wrap of 64 bits; the slots are not,
for a capacity that does not divide `2 ^ 64`, so each batch is asked to spare the slots of the values before it.
-/

namespace MatchingEngine

/-- In a run whose batches spare the slots that are in use, the calls are those of a bounded FIFO, what was pushed is what was popped and
what is left, and what is left is in its slots. A batch spares those slots exactly when the counters it needs have slots of their own. -/
theorem spsc_refines_fifo {α : Type} {capacity : Nat} {slots : Nat → α} {index : UInt64} {pos : 0 < capacity}
    {le : capacity ≤ kMaximumSpscCapacity} {es : List (QueueEvent α)} {s : QueueState α}
    (run : QueueRun SpscQueue.Spares (SpscQueue.emptyAt capacity slots index pos le) es s) :
    ∃ f, Fifo.Run capacity [] es f ∧ f.length ≤ capacity ∧ Fifo.accepted es = Fifo.taken es ++ f ∧
      (∀ (j : Nat) (h : j < f.length), s.queue.slots (s.queue.slotOf (s.queue.publishedHead + UInt64.ofNat j)) = f[j]) ∧
      ∀ values : List α, f.length + values.length ≤ capacity →
        (s.queue.Spares values ↔ s.queue.Apart (f.length + values.length)) := by
  obtain ⟨f, hrun, hf, hcap⟩ := run.holds SpscQueue.emptyAt_holds
  have hcap : s.queue.capacity = capacity := hcap
  refine ⟨f, hrun, hrun.length_le (Nat.zero_le _), hrun.accepted_eq, ?_, ?_⟩
  · intro j hj
    rw [hf.counts.publishedHead, hf.stores j (by rw [List.length_append]; omega), List.getElem_append_left hj]
  · intro values room
    exact hf.counts.spares_iff (by rwa [hcap])

/-- A queue of numbers at the last counter before the wrap. -/
def atWrap (capacity : Nat) (pos : 0 < capacity) (le : capacity ≤ kMaximumSpscCapacity) : SpscQueue Nat :=
  .emptyAt capacity (fun _ => 0) 18446744073709551615 pos le

/-- A batch that is accepted, and a pop. -/
theorem push_pop_run {α : Type} {ok : SpscQueue α → List α → Prop} {q : SpscQueue α} {values : List α} {v : α} (meets : ok q values)
    (push : (q.tryPushBatch values).1 = true) (pop : (q.tryPushBatch values).2.tryPop.1 = some v) :
    ∃ s, QueueRun ok q [.pushed values true, .popped (some v)] s := by
  have pushed : QueueRun ok q [.pushed values (q.tryPushBatch values).1] ⟨(q.tryPushBatch values).2, .idle, .idle⟩ :=
    QueueRun.start.tryPushBatch rfl meets
  have popped := pushed.tryPop rfl
  rw [push] at popped
  rw [← pop]
  exact ⟨_, popped⟩

/-- With four slots the first value of the batch is popped first. -/
theorem spsc_refines_fifo_wrap : ∃ f, Fifo.Run 4 [] [QueueEvent.pushed [1, 2] true, .popped (some 1)] f := by
  have kept : ∃ s, QueueRun SpscQueue.Spares (atWrap 4 (by decide) (by decide)) [.pushed [1, 2] true, .popped (some 1)] s :=
    push_pop_run (.inl (by decide)) (by decide +kernel) (by decide +kernel)
  obtain ⟨s, run⟩ := kept
  obtain ⟨f, hrun, -⟩ := spsc_refines_fifo run
  exact ⟨f, hrun⟩

/-- With three slots the two values of the batch share one, and the first is lost. -/
theorem spsc_wrap_loses_value :
    ¬ ∀ (capacity : Nat) (slots : Nat → Nat) (index : UInt64) (pos : 0 < capacity) (le : capacity ≤ kMaximumSpscCapacity)
        (es : List (QueueEvent Nat)) (s : QueueState Nat),
      QueueRun (fun _ _ => True) (SpscQueue.emptyAt capacity slots index pos le) es s →
        ∃ f, Fifo.Run capacity [] es f ∧ Fifo.accepted es = Fifo.taken es ++ f := by
  intro claim
  have lost : ∃ s, QueueRun (fun _ _ => True) (atWrap 3 (by decide) (by decide)) [.pushed [1, 2] true, .popped (some 2)] s :=
    push_pop_run trivial (by decide +kernel) (by decide +kernel)
  obtain ⟨s, run⟩ := lost
  obtain ⟨f, -, hf⟩ := claim 3 _ _ _ _ _ s run
  have hf : [1, 2] = [2] ++ f := hf
  exact absurd hf (by simp)

end MatchingEngine

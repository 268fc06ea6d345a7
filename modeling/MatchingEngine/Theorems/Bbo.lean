import MatchingEngine.Bbo

/-!
# Reads of the best prices are not torn

One writer publishes states and any number of readers read them, in any order of their steps. What a reader is given is a state that was
published as a whole, and it never goes back.
-/

namespace MatchingEngine

open Seqlock

namespace BboSnapshot

/-- A price as its flag and its register say. -/
def priceOf (present : UInt8) (ticks : Int64) : Option Int64 := if present ≠ 0 then some ticks else none

/-- A price is read with its flag. -/
theorem eval_readPrice (registers : ∀ field, BboField.Value field) (present : Loads BboField.Value UInt8)
    (price : Loads BboField.Value Int64) :
    (readPrice present price).eval registers = priceOf (present.eval registers) (price.eval registers) := by
  rw [readPrice, Loads.eval_bind, priceOf]
  split
  · rw [Loads.eval_bind]
    rfl
  · rfl

/-- The state is read field by field. -/
theorem eval_read (registers : ∀ field, BboField.Value field) :
    read.eval registers = ⟨priceOf (registers .bidPresent) (registers .bidPrice), registers .bidQuantity,
      priceOf (registers .askPresent) (registers .askPrice), registers .askQuantity⟩ := by
  rw [read, Loads.eval_bind, Loads.eval_bind, Loads.eval_bind, Loads.eval_bind, eval_readPrice, eval_readPrice]
  rfl

/-- A price that is stored with its flag. -/
theorem priceOf_flag (price : Option Int64) : priceOf (if price.isSome then 1 else 0) (price.getD 0) = price := by
  cases price <;> rfl

/-- What a read without interruption gives after a publish is the state that was published. -/
theorem read_publish (registers : ∀ field, BboField.Value field) (state : BboState) :
    read.eval (applyStores (publish state) registers) = state := by
  rw [eval_read]
  show BboState.mk (priceOf (if state.bidPrice.isSome then 1 else 0) (state.bidPrice.getD 0)) state.bidQuantity
    (priceOf (if state.askPrice.isSome then 1 else 0) (state.askPrice.getD 0)) state.askQuantity = state
  rw [priceOf_flag, priceOf_flag]

/-- The empty registers show the empty state. -/
theorem read_empty : read.eval empty = BboState.empty := rfl

end BboSnapshot

/-- In every run with less than `2 ^ 63` publishes during one read, the states a reader is given are the empty state or states that were
published as a whole, and they never go back to an earlier publish. A read makes no more attempts than its limit, and gives nothing only
after the last of them. -/
theorem bbo_reads_not_torn {ρ : Type} [DecidableEq ρ] {maxReaderRetries : Nat} {es : List (Event BboState BboState ρ)}
    {s : State BboField.Value BboState ρ} (run : Run (BboSnapshot.protocol maxReaderRetries) BboSnapshot.empty es s)
    (few : FewerDuringRead (2 ^ 63) es) (r : ρ) :
    (∃ ks : List Nat, ks.Pairwise (· ≤ ·) ∧ (∀ k ∈ ks, k ≤ (published es).length) ∧
      List.Forall₂ (fun k state => (BboState.empty :: published es)[k]? = some state) ks (reads r es)) ∧
    attemptsSince r es ≤ maxReaderRetries ∧
    ∀ es', es' ++ [.returns r none] <+: es → attemptsSince r es' = maxReaderRetries := by
  have complete (registers : ∀ field, BboField.Value field) (state : BboState) :
      (BboSnapshot.protocol maxReaderRetries).loads.eval (applyStores ((BboSnapshot.protocol maxReaderRetries).stores state) registers) =
        id state := BboSnapshot.read_publish registers state
  have hinv := run.invariant BboSnapshot.read_empty complete few
  obtain ⟨ks, hks⟩ := hinv.readers r
  refine ⟨⟨ks, hks.sorted, hks.bounded, ?_⟩, ?_, ?_⟩
  · refine hks.given.imp fun k state h => ?_
    rwa [valueAt, List.map_id] at h
  · exact hks.attempts_le
  · rintro es' hes'
    obtain ⟨t, t', run', moves⟩ := run.shown hes'
    have few' : FewerDuringRead (2 ^ 63) es' := fun es₁ r₁ a h =>
      few es₁ r₁ a (h.trans ((List.prefix_append _ _).trans hes'))
    obtain ⟨ks', hks'⟩ := (run'.invariant BboSnapshot.read_empty complete few').readers r
    exact hks'.attempts_of_none moves

/-- A bid alone. -/
def bidState : BboState := ⟨some 100, 7, none, 0⟩

/-- A higher bid, and an ask. -/
def quoteState : BboState := ⟨some 101, 3, some 105, 2⟩

/-- A reader reads the first state. While it reads for the second time, the second state is published, and it is given this one; it reads
once more. -/
def overlappingTurns : List (Move BboState Unit) :=
  .publish bidState :: List.replicate 7 .write ++ List.replicate 12 (.read ()) ++ .publish quoteState :: List.replicate 3 .write ++
    List.replicate 5 (.read ()) ++ List.replicate 4 .write ++ List.replicate 17 (.read ())

/-- The events of this schedule: of the attempts of the second read, the first has loaded a part of each state, and the second finds the
version odd. -/
def overlappingEvents : List (Event BboState BboState Unit) :=
  [.publishes bidState, .starts (), .tries (), .returns () (some bidState), .starts (), .tries (), .publishes quoteState, .tries (), .tries (),
    .returns () (some quoteState), .starts (), .tries (), .returns () (some quoteState)]

/-- It is a run. -/
theorem run_overlapping : ∃ s, Run (BboSnapshot.protocol 8) BboSnapshot.empty overlappingEvents s := by
  have hsome : ((runSchedule (BboSnapshot.protocol 8) overlappingTurns (.initial BboSnapshot.empty)).any fun r =>
      r.1 = overlappingEvents) = true := by
    decide +kernel
  rw [Option.any_eq_true] at hsome
  obtain ⟨⟨es, s⟩, hschedule, hes⟩ := hsome
  obtain rfl := of_decide_eq_true hes
  exact ⟨s, run_of_schedule hschedule .start⟩

/-- A publish overlaps a read: the reader is given the states whole and in their order. -/
theorem bbo_reads_not_torn_overlapping : ∃ s, Run (BboSnapshot.protocol 8) BboSnapshot.empty overlappingEvents s ∧
    ∃ ks : List Nat, ks.Pairwise (· ≤ ·) ∧
      List.Forall₂ (fun k state => [BboState.empty, bidState, quoteState][k]? = some state) ks [bidState, quoteState, quoteState] := by
  obtain ⟨s, run⟩ := run_overlapping
  obtain ⟨⟨ks, hsorted, -, hgiven⟩, -⟩ := bbo_reads_not_torn run (fewerDuringRead_of_published (by decide)) ()
  exact ⟨s, run, ks, hsorted, hgiven⟩

end MatchingEngine

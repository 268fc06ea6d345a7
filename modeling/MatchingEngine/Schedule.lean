import MatchingEngine.Lib.Ratio
import MatchingEngine.Lib.Search

/-!
# The schedule of a benchmark

`make_schedule` and `additional_backlog` of `benchmark.cpp`: when the events of a run are due, in ticks, and how many have become due behind
one of them. The numbers are of `std::uint64_t`. What its products and sums are is left to a `WordArithmetic`: the one of the language wraps,
another one gives up instead, so that a run of it shows that nothing has wrapped.
-/

namespace MatchingEngine

def kMaximumSamples : Nat := 1000000

def kNanosecondsPerSecond : Nat := 1000000000

structure TickRatio where
  numerator : Nat
  denominator : Nat
  deriving DecidableEq, Repr

/-- The products and sums of `std::uint64_t`. -/
structure WordArithmetic (m : Type → Type) where
  multiply : Nat → Nat → m Nat
  add : Nat → Nat → m Nat

namespace WordArithmetic

/-- The arithmetic of the language. -/
def wrapping : WordArithmetic Id where
  multiply left right := left * right % 2 ^ 64
  add left right := (left + right) % 2 ^ 64

/-- The arithmetic that gives up where the other one wraps. -/
def trapping : WordArithmetic Option where
  multiply left right := if left * right < 2 ^ 64 then some (left * right) else none
  add left right := if left + right < 2 ^ 64 then some (left + right) else none

variable {m : Type → Type} [Monad m] (words : WordArithmetic m)

/-- `checked_add`. -/
def checkedAdd (left right : Nat) : OptionT m Nat :=
  if 2 ^ 64 - 1 - right < left then failure else OptionT.lift (words.add left right)

/-- `checked_multiply`. -/
def checkedMultiply (left right : Nat) : OptionT m Nat :=
  if left ≠ 0 ∧ (2 ^ 64 - 1) / left < right then failure else OptionT.lift (words.multiply left right)

/-- A round of the loop over the denominators. -/
def multiplyDenominator (denominator factor : Nat) : OptionT m Nat := do
  let denominator ← words.checkedMultiply denominator factor
  if denominator = 0 then failure else return denominator

/-- `exact_offset`. -/
def exactOffset (index rate : Nat) (ratio : TickRatio) : OptionT m Nat :=
  if rate = 0 ∨ ratio.numerator = 0 ∨ ratio.denominator = 0 then failure
  else do
    let factors := Ratio.cancel [index, kNanosecondsPerSecond, ratio.numerator] [rate, ratio.denominator]
    let numerator ← factors.1.foldlM words.checkedMultiply 1
    let denominator ← factors.2.foldlM words.multiplyDenominator 1
    let offset := numerator / denominator
    let remainder := numerator % denominator
    if denominator - remainder ≤ remainder then words.checkedAdd offset 1 else return offset

/-- `make_schedule`. -/
def makeSchedule (samples rate : Nat) (ticksPerNanosecond : TickRatio) : OptionT m (List Nat) :=
  if samples = 0 ∨ kMaximumSamples < samples ∨ rate = 0 ∨ ticksPerNanosecond.numerator = 0 ∨ ticksPerNanosecond.denominator = 0 then failure
  else (List.range samples).mapM fun index => words.exactOffset index rate ticksPerNanosecond

end WordArithmetic

/-- `make_schedule`, in the arithmetic of the language. -/
def makeSchedule (samples rate : Nat) (ticksPerNanosecond : TickRatio) : Option (List Nat) :=
  (WordArithmetic.wrapping.makeSchedule samples rate ticksPerNanosecond).run

/-- `additional_backlog`. -/
def additionalBacklog (schedule : List Nat) (currentIndex elapsedTicks : Nat) : Nat :=
  if schedule.length ≤ currentIndex then 0
  else
    let nextIndex := currentIndex + 1
    Search.upperBound (fun index => elapsedTicks < schedule.getD index 0) nextIndex (schedule.length - nextIndex) - nextIndex

end MatchingEngine

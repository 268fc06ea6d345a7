import MatchingEngine.Lib.Seqlock
import MatchingEngine.Protocol

/-!
# The snapshot of the best prices

`BboSnapshot` of `bbo.cpp`: a sequence lock over six registers. `publish` stores a state between two moves of the version, and `read`
loads a state between two loads of the version; a price is loaded only where its flag is set.
-/

namespace MatchingEngine

open Seqlock

/-- The registers of a `BboSnapshot`. -/
inductive BboField where
  | bidPrice
  | bidQuantity
  | askPrice
  | askQuantity
  | bidPresent
  | askPresent
  deriving DecidableEq, Repr

/-- The type of a register. -/
abbrev BboField.Value : BboField → Type
  | .bidPrice => Int64
  | .bidQuantity => UInt64
  | .askPrice => Int64
  | .askQuantity => UInt64
  | .bidPresent => UInt8
  | .askPresent => UInt8

/-- The registers of a new snapshot. -/
def BboSnapshot.empty : ∀ field, BboField.Value field
  | .bidPrice => (0 : Int64)
  | .bidQuantity => (0 : UInt64)
  | .askPrice => (0 : Int64)
  | .askQuantity => (0 : UInt64)
  | .bidPresent => (0 : UInt8)
  | .askPresent => (0 : UInt8)

/-- The stores of `publish`, in their order. -/
def BboSnapshot.publish (state : BboState) : List (Store BboField.Value) :=
  [⟨.bidPrice, state.bidPrice.getD 0⟩, ⟨.bidQuantity, state.bidQuantity⟩, ⟨.askPrice, state.askPrice.getD 0⟩,
    ⟨.askQuantity, state.askQuantity⟩, ⟨.bidPresent, if state.bidPrice.isSome then (1 : UInt8) else (0 : UInt8)⟩,
    ⟨.askPresent, if state.askPrice.isSome then (1 : UInt8) else (0 : UInt8)⟩]

/-- The load of a register. -/
def BboSnapshot.load (field : BboField) : Loads BboField.Value field.Value := .get field

/-- The loads of a price: its flag, and its register where the flag is set. -/
def BboSnapshot.readPrice (present : Loads BboField.Value UInt8) (price : Loads BboField.Value Int64) : Loads BboField.Value (Option Int64) := do
  let flag ← present
  if flag ≠ 0 then
    let ticks ← price
    pure (some ticks)
  else pure none

/-- The loads of one attempt of `read`, in their order. -/
def BboSnapshot.read : Loads BboField.Value BboState := do
  let bidPrice ← readPrice (load .bidPresent) (load .bidPrice)
  let bidQuantity ← load .bidQuantity
  let askPrice ← readPrice (load .askPresent) (load .askPrice)
  let askQuantity ← load .askQuantity
  pure ⟨bidPrice, bidQuantity, askPrice, askQuantity⟩

/-- A `BboSnapshot` whose reads make at most `maxReaderRetries` attempts. -/
def BboSnapshot.protocol (maxReaderRetries : Nat) : Protocol BboField.Value BboState BboState where
  stores := publish
  loads := read
  attempts := maxReaderRetries

/-- The state of a new snapshot. -/
def BboState.empty : BboState := ⟨none, 0, none, 0⟩

/-! ## Between calls -/

/-- A `BboSnapshot` that nobody is in the middle of writing or reading. -/
structure BboSnapshot where
  version : UInt64 := 0
  registers : ∀ field, BboField.Value field := BboSnapshot.empty

/-- `kDefaultReaderRetries`. -/
def kDefaultReaderRetries : Nat := 8

/-- A call of `publish` with no read between its steps. -/
def BboSnapshot.publishNow (snapshot : BboSnapshot) (state : BboState) : BboSnapshot where
  version := snapshot.version + 1 + 1
  registers := applyStores (publish state) snapshot.registers

/-- A call of `read` with no publish between its steps, and the attempts it has left. -/
def BboSnapshot.readNow (snapshot : BboSnapshot) : Nat → Option BboState
  | 0 => none
  | attempts + 1 =>
    let before := snapshot.version
    if before &&& 1 ≠ 0 then snapshot.readNow attempts
    else
      let state := read.eval snapshot.registers
      let after := snapshot.version
      if before = after then some state else snapshot.readNow attempts

end MatchingEngine

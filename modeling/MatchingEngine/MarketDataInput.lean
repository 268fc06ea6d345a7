import MatchingEngine.MarketData

/-!
# The file of a feed

`MarketDataInputStream` of `market_data_input.cpp`: the messages of a file, one frame after the other, and the loop of `replay_market_data`
over them. A stream is the bytes still to come and whether a read has met the end of the file; from then on it gives no more bytes. A read
that fails for a reason of the file system is not considered.
-/

namespace MatchingEngine

/-- `MarketDataInputStream`. `ended` is the `eofbit` of the file. -/
structure MarketDataInputStream where
  input : List UInt8
  ended : Bool := false
  previousSequence : UInt64 := 0
  deriving DecidableEq, Repr

namespace MarketDataInputStream

variable (s : MarketDataInputStream)

/-- The bytes a `read` of one frame gives. -/
def frame : List UInt8 := if s.ended then [] else s.input.take kEncodedMarketDataFrameSize

/-- The stream after it. A read that comes to fewer bytes has met the end. -/
def advance : MarketDataInputStream :=
  if s.ended then s
  else { s with input := s.input.drop kEncodedMarketDataFrameSize, ended := s.input.length < kEncodedMarketDataFrameSize }

/-- `read_next`: `none` at the end of the file. -/
def readNext : Except MarketDataInputError (Option MarketDataMessage) × MarketDataInputStream :=
  let frame := s.frame
  let s := s.advance
  if frame.length = 0 ∧ s.ended then (.ok none, s)
  else if frame.length ≠ kEncodedMarketDataFrameSize then (.error .truncatedFrame, s)
  else
    match decodeMarketDataFrame (Buffer.ofList frame) frame.length with
    | .error _ => (.error .malformedFrame, s)
    | .ok message =>
      if validateMarketDataSequence s.previousSequence message ≠ .none then (.error .sequenceGap, s)
      else (.ok (some message), { s with previousSequence := message.sequence })

variable {s}

/-- A message takes its frame off the stream. -/
theorem readNext_shorter {message : MarketDataMessage} {s' : MarketDataInputStream} (h : s.readNext = (.ok (some message), s')) :
    s'.input.length < s.input.length := by
  unfold readNext at h
  dsimp only at h
  split at h
  · cases (Prod.mk.inj h).1
  split at h
  · cases (Prod.mk.inj h).1
  rename_i hlen
  rw [not_not] at hlen
  have hadvance : s.advance.input.length < s.input.length := by
    unfold frame at hlen
    unfold advance
    split at hlen
    · cases hlen
    · rename_i hended
      rw [List.length_take] at hlen
      rw [if_neg hended, List.length_drop]
      simp only [kEncodedMarketDataFrameSize] at *
      omega
  split at h
  · cases (Prod.mk.inj h).1
  split at h
  · cases (Prod.mk.inj h).1
  rw [← (Prod.mk.inj h).2]
  exact hadvance

end MarketDataInputStream

/-- What a caller gets from `read_next` that stops at the end of the file and at an error. -/
def MarketDataInputStream.messages (s : MarketDataInputStream) : List (Except MarketDataInputError MarketDataMessage) :=
  match _hread : s.readNext with
  | (.error error, _) => [.error error]
  | (.ok none, _) => []
  | (.ok (some message), s') => .ok message :: s'.messages
termination_by s.input.length
decreasing_by exact MarketDataInputStream.readNext_shorter _hread

namespace MarketDataInputStream

variable {s s' : MarketDataInputStream}

/-- A stream that fails ends there. -/
theorem messages_error {error : MarketDataInputError} (h : s.readNext = (.error error, s')) : s.messages = [.error error] := by
  rw [messages]
  split
  · rename_i heq
    rw [h] at heq
    cases heq
    rfl
  · rename_i heq
    rw [h] at heq
    cases heq
  · rename_i heq
    rw [h] at heq
    cases heq

/-- A stream at its end has no messages. -/
theorem messages_none (h : s.readNext = (.ok none, s')) : s.messages = [] := by
  rw [messages]
  split
  · rename_i heq
    rw [h] at heq
    cases heq
  · rfl
  · rename_i heq
    rw [h] at heq
    cases heq

/-- A message is followed by those of the rest. -/
theorem messages_some {message : MarketDataMessage} (h : s.readNext = (.ok (some message), s')) :
    s.messages = .ok message :: s'.messages := by
  rw [messages]
  split
  · rename_i heq
    rw [h] at heq
    cases heq
  · rename_i heq
    rw [h] at heq
    cases heq
  · rename_i heq
    rw [h] at heq
    cases heq
    rfl

end MarketDataInputStream

/-- The loop of `replay_market_data` on a stream. -/
def replayInput (eventsSize : Nat) (input : MarketDataInputStream) (adapter : MarketDataAdapter) (engine : SequencedEngine)
    (result : ReplayResult) : Comp MarketDataReplayed :=
  match _hread : input.readNext with
  | (.error _, _) => pure (.error .input, adapter, engine)
  | (.ok none, _) => pure (.ok result, adapter, engine)
  | (.ok (some message), input') => do
    match ← replayMessage eventsSize message adapter engine result with
    | (.error error, adapter, engine) => return (.error error, adapter, engine)
    | (.ok result, adapter, engine) => replayInput eventsSize input' adapter engine result
termination_by input.input.length
decreasing_by exact MarketDataInputStream.readNext_shorter _hread

/-- `replay_market_data` on the file that holds `bytes`. -/
def replayMarketDataFile (bytes : List UInt8) (adapter : MarketDataAdapter) (engine : SequencedEngine) (eventsSize : Nat) :
    Comp MarketDataReplayed :=
  if eventsSize < engine.maximumEventCapacity then pure (.error .apply, adapter, engine)
  else replayInput eventsSize { input := bytes } adapter engine .initial

end MatchingEngine

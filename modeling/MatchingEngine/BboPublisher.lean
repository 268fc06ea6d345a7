import MatchingEngine.Bbo

/-!
# The publisher of the best prices

`BboPublisher` of `bbo_publisher.cpp`: the snapshot is read, and a frame of the state is written unless it is the one published last. What
the read of the snapshot gives is an argument.
-/

namespace MatchingEngine

inductive BboPublishStatus where
  | published
  | unchanged
  | snapshotUnavailable
  | outputError
  deriving DecidableEq, Repr

/-- `BboPublisher`. -/
structure BboPublisher where
  lastPublished : Option BboState := none
  lastFrameError : BboFrameError := .none
  deriving DecidableEq, Repr

/-- `try_publish`, of the state the snapshot's `read` gives. -/
def BboPublisher.tryPublish (p : BboPublisher) (read : Option BboState) (output : Buffer) (size : Nat) :
    BboPublishStatus × BboPublisher × Buffer :=
  match read with
  | none => (.snapshotUnavailable, p, output)
  | some state =>
    if p.lastPublished = some state then (.unchanged, p, output)
    else
      let (error, output) := encodeBboFrame state output size
      let p := { p with lastFrameError := error }
      if error ≠ .none then (.outputError, p, output) else (.published, { p with lastPublished := some state }, output)

/-- A call of `try_publish`: what the snapshot gives it, and the span it is given. -/
structure BboPublishCall where
  read : Option BboState
  output : Buffer
  size : Nat

/-- Calls one after the other: the frames that are published, and the publisher they leave. -/
def BboPublisher.run (p : BboPublisher) : List BboPublishCall → List Buffer × BboPublisher
  | [] => ([], p)
  | call :: calls =>
    let (status, p, output) := p.tryPublish call.read call.output call.size
    let (frames, p) := p.run calls
    (if status = .published then output :: frames else frames, p)

end MatchingEngine

import Mathlib.Data.List.Basic

/-!
# Bounded FIFO queues

What a bounded queue is for: a list of at most `n` values, pushed at its end a batch at a time and popped at its front. A call shows an
event, and `Fifo.Run` says which events a queue may show, one after the other.
-/

/-- What a call on a queue shows. -/
inductive QueueEvent (α : Type) where
  | pushed (values : List α) (ok : Bool)
  | available (count : Nat)
  | peeked (value : Option α)
  | popped (value : Option α)
  deriving DecidableEq, Repr

namespace Fifo

variable {α : Type} {n : Nat}

/-- A call on a queue of at most `n` values: what it shows, and the values after it. -/
inductive Step (n : Nat) : List α → QueueEvent α → List α → Prop where
  | push {f values : List α} (fits : f.length + values.length ≤ n) : Step n f (.pushed values true) (f ++ values)
  | refuse {f values : List α} (full : n < f.length + values.length) : Step n f (.pushed values false) f
  | available {f : List α} : Step n f (.available (n - f.length)) f
  | peek {f : List α} : Step n f (.peeked f.head?) f
  | popNone : Step n [] (.popped none) []
  | pop {v : α} {f : List α} : Step n (v :: f) (.popped (some v)) f

/-- The events of a queue that held the values `f₀`, and the values it holds after them. -/
inductive Run (n : Nat) (f₀ : List α) : List (QueueEvent α) → List α → Prop where
  | nil : Run n f₀ [] f₀
  | snoc {es : List (QueueEvent α)} {e : QueueEvent α} {f f' : List α} (before : Run n f₀ es f) (step : Step n f e f') :
      Run n f₀ (es ++ [e]) f'

/-- The values that were pushed. -/
def accepted (es : List (QueueEvent α)) : List α :=
  es.flatMap fun e => match e with
    | .pushed values true => values
    | _ => []

/-- The values that were popped. -/
def taken (es : List (QueueEvent α)) : List α :=
  es.filterMap fun e => match e with
    | .popped value => value
    | _ => none

/-- What the queue held and what was pushed is what was popped and what the queue holds, in their order. -/
theorem Run.accepted_eq {es : List (QueueEvent α)} {f₀ f : List α} (h : Run n f₀ es f) : f₀ ++ accepted es = taken es ++ f := by
  induction h with
  | nil => simp [accepted, taken]
  | snoc before step ih =>
    rw [accepted, taken, List.flatMap_append, List.filterMap_append, ← List.append_assoc]
    rw [accepted, taken] at ih
    rw [ih]
    cases step <;> simp

/-- A queue never holds more than it has room for. -/
theorem Run.length_le {es : List (QueueEvent α)} {f₀ f : List α} (h : Run n f₀ es f) (h₀ : f₀.length ≤ n) : f.length ≤ n := by
  induction h with
  | nil => exact h₀
  | snoc before step ih =>
    cases step with
    | push fits => rwa [List.length_append]
    | refuse => exact ih
    | available => exact ih
    | peek => exact ih
    | popNone => exact ih
    | pop => exact Nat.le_of_succ_le ih

end Fifo

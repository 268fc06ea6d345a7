import Mathlib.Data.List.Basic

/-!
# Programs that may be interrupted

A `Prog σ α` is a program on a state `σ` that outlives it, such as the content of a file or of a directory: `run s` gives the states
the program passes after `s`, in their order, the state it ends in and its result. A program that is interrupted leaves `s` or one of
the states it passes. What a program does is said with `Ensures`: every state passed satisfies `I`, and the result and the last state
satisfy `Q`. The rules below take a program apart; they are the only way the proofs reason about the states passed.
-/

/-- What a program leaves behind: the states it passes, the state it ends in, and its result. -/
structure Passage (σ α : Type) where
  passed : List σ
  final : σ
  result : α

/-- A program on a state that outlives it. -/
structure Prog (σ α : Type) where
  run : σ → Passage σ α

namespace Prog

variable {σ τ α β : Type}

/-- The program that returns at once. -/
protected def pure (a : α) : Prog σ α := ⟨fun s => ⟨[], s, a⟩⟩

/-- One program after another. -/
protected def bind (p : Prog σ α) (f : α → Prog σ β) : Prog σ β where
  run s :=
    let first := p.run s
    let second := (f first.result).run first.final
    ⟨first.passed ++ second.passed, second.final, second.result⟩

instance : Monad (Prog σ) where
  pure := Prog.pure
  bind := Prog.bind

/-- One step that cannot be interrupted in its middle. -/
def step (f : σ → σ) : Prog σ Unit := ⟨fun s => ⟨[f s], f s, ()⟩⟩

/-- The state as it is. -/
def get : Prog σ σ := ⟨fun s => ⟨[], s, s⟩⟩

/-- A program on a part of the state. -/
def focus (part : σ → τ) (put : τ → σ → σ) (p : Prog τ α) : Prog σ α where
  run s :=
    let inner := p.run (part s)
    ⟨inner.passed.map fun t => put t s, put inner.final s, inner.result⟩

/-- The states an interrupted run from `s` may leave. -/
def stops (p : Prog σ α) (s : σ) : List σ := s :: (p.run s).passed

/-- From `s`, every state passed satisfies `I`, and the result and the last state satisfy `Q`. -/
def Ensures (p : Prog σ α) (s : σ) (I : σ → Prop) (Q : α → σ → Prop) : Prop :=
  (∀ t ∈ (p.run s).passed, I t) ∧ Q (p.run s).result (p.run s).final

variable {I J : σ → Prop} {s : σ}

/-- A program that returns at once passes no state. -/
@[simp] theorem ensures_pure {a : α} {Q : α → σ → Prop} : (pure a : Prog σ α).Ensures s I Q ↔ Q a s :=
  ⟨fun h => h.2, fun h => ⟨fun _ ht => absurd ht List.not_mem_nil, h⟩⟩

/-- Of two programs in a row the second ensures it from every state the first leaves. -/
@[simp] theorem ensures_bind {p : Prog σ α} {f : α → Prog σ β} {Q : β → σ → Prop} :
    (p >>= f).Ensures s I Q ↔ p.Ensures s I fun a t => (f a).Ensures t I Q := by
  constructor
  · rintro ⟨hI, hQ⟩
    exact ⟨fun t ht => hI t (List.mem_append_left _ ht), fun t ht => hI t (List.mem_append_right _ ht), hQ⟩
  · rintro ⟨hI, hJ, hQ⟩
    exact ⟨fun t ht => (List.mem_append.mp ht).elim (hI t) (hJ t), hQ⟩

/-- A step passes the state it makes. -/
@[simp] theorem ensures_step {f : σ → σ} {Q : Unit → σ → Prop} : (step f).Ensures s I Q ↔ I (f s) ∧ Q () (f s) := by
  constructor
  · rintro ⟨hI, hQ⟩
    exact ⟨hI (f s) (List.mem_singleton.mpr rfl), hQ⟩
  · rintro ⟨hI, hQ⟩
    exact ⟨fun t ht => List.mem_singleton.mp ht ▸ hI, hQ⟩

/-- Reading the state passes none. -/
@[simp] theorem ensures_get {Q : σ → σ → Prop} : (get : Prog σ σ).Ensures s I Q ↔ Q s s :=
  ⟨fun h => h.2, fun h => ⟨fun _ ht => absurd ht List.not_mem_nil, h⟩⟩

/-- A program on a part ensures what it does of the whole. -/
theorem ensures_focus {part : σ → τ} {put : τ → σ → σ} {p : Prog τ α} {Q : α → σ → Prop} :
    (focus part put p).Ensures s I Q ↔ p.Ensures (part s) (fun t => I (put t s)) fun a t => Q a (put t s) :=
  and_congr_left fun _ => List.forall_mem_map

/-- What is ensured may be weakened. -/
theorem Ensures.mono {p : Prog σ α} {Q R : α → σ → Prop} (h : p.Ensures s I Q) (hI : ∀ t, I t → J t)
    (hQ : ∀ a t, Q a t → R a t) : p.Ensures s J R :=
  ⟨fun t ht => hI t (h.1 t ht), hQ _ _ h.2⟩

/-- A run that is interrupted leaves its first state or one that satisfies the invariant. -/
theorem Ensures.stops {p : Prog σ α} {Q : α → σ → Prop} (h : p.Ensures s I Q) (hs : I s) : ∀ t ∈ p.stops s, I t := by
  intro t ht
  rcases List.mem_cons.mp ht with rfl | ht
  · exact hs
  · exact h.1 t ht

end Prog

import MatchingEngine.Engine

/-!
# Steps of the engine

What one application of a command can come to: it is refused and the engine stays, or its operation is performed on the book and the
engine waits for the next number.
-/

namespace MatchingEngine

namespace SequencedEngine

variable {e e' : SequencedEngine} {command : SequencedCommand} {eventsSize : Nat} {status : ApplyStatus} {events : List EngineEvent}
  {trades : List Trade}

/-- A command that passes the checks on it names a command. -/
theorem commandStatus_eq_applied (h : e.commandStatus command = .applied) :
    e.sequenceExhausted = false ∧ validateCommandPayload command.payload = .none ∧ command.sequence = e.nextSequence ∧
      e.lastLogicalTime ≤ command.logicalTime := by
  unfold commandStatus at h
  split at h
  · cases h
  split at h
  · cases h
  split at h
  · cases h
  split at h
  · cases h
  rename_i h1 h2 h3 h4
  exact ⟨by simpa using h1, not_not.mp h2, not_not.mp h3, UInt64.not_lt.mp h4⟩

theorem exists_tag {payload : CommandPayload} (h : validateCommandPayload payload = .none) :
    ∃ tag, CommandType.ofRaw payload.tag = some tag := by
  unfold validateCommandPayload at h
  split at h
  · cases h
  · rename_i tag htag
    exact ⟨tag, htag⟩

/-- What an application comes to. -/
theorem returns_apply (h : (e.apply command eventsSize).Returns (status, events, trades, e')) :
    (status ≠ .applied ∧ events = [] ∧ trades = [] ∧ e' = e) ∨
      (status = .applied ∧ e.commandStatus command = .applied ∧ ∃ tag required, CommandType.ofRaw command.payload.tag = some tag ∧
        (e.requiredEventCapacity command.payload tag).Returns required ∧ required ≤ eventsSize ∧
        (e.perform command tag).Returns (events, trades, e')) := by
  unfold apply at h
  split at h
  · rename_i hne
    rw [Comp.returns_pure, Prod.mk.injEq, Prod.mk.injEq, Prod.mk.injEq] at h
    obtain ⟨rfl, rfl, rfl, rfl⟩ := h
    exact Or.inl ⟨hne, rfl, rfl, rfl⟩
  · rename_i hok
    split at h
    · rw [Comp.returns_pure, Prod.mk.injEq, Prod.mk.injEq, Prod.mk.injEq] at h
      obtain ⟨rfl, rfl, rfl, rfl⟩ := h
      exact Or.inl ⟨nofun, rfl, rfl, rfl⟩
    · rename_i tag htag
      rw [Comp.returns_bind] at h
      obtain ⟨required, hrequired, h⟩ := h
      split at h
      · rw [Comp.returns_pure, Prod.mk.injEq, Prod.mk.injEq, Prod.mk.injEq] at h
        obtain ⟨rfl, rfl, rfl, rfl⟩ := h
        exact Or.inl ⟨nofun, rfl, rfl, rfl⟩
      · rename_i hsize
        rw [Comp.returns_bind] at h
        obtain ⟨⟨events', trades', e''⟩, hperform, h⟩ := h
        rw [Comp.returns_pure, Prod.mk.injEq, Prod.mk.injEq, Prod.mk.injEq] at h
        obtain ⟨rfl, rfl, rfl, rfl⟩ := h
        exact Or.inr ⟨rfl, not_not.mp hok, tag, required, htag, hrequired, Nat.not_lt.mp hsize, hperform⟩

/-- A command that is performed: its operation on the book, and the next number. -/
theorem returns_perform {tag : CommandType} (h : (e.perform command tag).Returns (events, trades, e')) :
    ∃ outcome book, (e.orderBook.apply (command.payload.op e.tradeCapacity tag)).Returns (outcome, book) ∧
      events = e.events command tag outcome book ∧ trades = outcome.trades ∧
      e' = ⟨book, e.tradeCapacity, (afterSequence e.nextSequence).1, command.logicalTime, (afterSequence e.nextSequence).2⟩ := by
  unfold perform at h
  rw [Comp.returns_bind] at h
  obtain ⟨⟨outcome, book⟩, happly, h⟩ := h
  rw [Comp.returns_pure, Prod.mk.injEq, Prod.mk.injEq] at h
  exact ⟨outcome, book, happly, h.1.symm, h.2.1.symm, h.2.2.symm⟩

/-- An applied command has the number the engine waited for, and the engine waits for the next one. -/
theorem applied_sequence (h : (e.apply command eventsSize).Returns (.applied, events, trades, e')) :
    command.sequence = e.nextSequence ∧ e'.nextSequence = (afterSequence e.nextSequence).1 := by
  obtain ⟨hne, -⟩ | ⟨-, hok, tag, required, -, -, -, hperform⟩ := returns_apply h
  · exact absurd rfl hne
  · obtain ⟨outcome, book, -, -, -, rfl⟩ := returns_perform hperform
    exact ⟨(commandStatus_eq_applied hok).2.2.1, rfl⟩

end SequencedEngine

end MatchingEngine

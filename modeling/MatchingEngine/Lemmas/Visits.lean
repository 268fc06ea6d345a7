import MatchingEngine.Lemmas.Marks

/-!
# The marks of a check

`check_invariants` changes its own marks alone, and what it reports does not depend on the marks it finds, as long as none is beyond the
epoch: a book that has passed the check passes it again.
-/

namespace MatchingEngine

open Function

/-! ## What a check leaves -/

/-- No slot is marked beyond the epoch. -/
def Progress.Within (p : Progress) (n epoch : Nat) : Prop := ∀ s, s < n → p.marks s ≤ epoch

theorem Progress.Within.visit {p : Progress} {n epoch : Nat} (h : p.Within n epoch) (index : Nat) :
    (p.visit epoch index).Within n epoch := by
  intro s hs
  simp only [Progress.visit, update_apply]
  split
  · exact Nat.le_refl _
  · exact h s hs

namespace OrderBook

variable {b : OrderBook} {side : Side} {i epoch n : Nat} {p p' : Progress} {result : Option InvariantResult}

theorem walkLevel_within {w w' : Walk} (h : w.progress.Within n epoch) (hr : (b.walkLevel side i epoch w).Returns (result, w')) :
    w'.progress.Within n epoch := by
  refine Comp.loop_invariant (I := fun w => w.progress.Within n epoch) (Q := fun r => r.2.progress.Within n epoch) ?_ ?_ h hr
  · intro w w' hw hb
    dsimp only at hb
    split at hb
    · simp at hb
    · split at hb
      · simp at hb
      · split at hb
        · simp at hb
        · rw [Comp.returns_pure, Turn.next.injEq] at hb
          rw [← hb]
          exact hw.visit _
  · intro w r hw hb
    dsimp only at hb
    split at hb
    · rw [Comp.returns_pure, Turn.done.injEq] at hb
      rw [← hb]
      exact hw
    · split at hb
      · rw [Comp.returns_pure, Turn.done.injEq] at hb
        rw [← hb]
        exact hw
      · split at hb
        · rw [Comp.returns_pure, Turn.done.injEq] at hb
          rw [← hb]
          exact hw.visit _
        · simp at hb

theorem checkLevel_within (h : p.Within n epoch) (hr : (b.checkLevel side i epoch p).Returns (result, p')) : p'.Within n epoch := by
  unfold checkLevel at hr
  dsimp only at hr
  repeat' split at hr
  any_goals
    rw [Comp.returns_pure, Prod.mk.injEq] at hr
    exact hr.2 ▸ h
  obtain ⟨⟨result', w⟩, hw, hr⟩ := (Comp.returns_bind _ _ _).mp hr
  have hin := walkLevel_within h hw
  dsimp only at hr
  repeat' split at hr
  all_goals
    rw [Comp.returns_pure, Prod.mk.injEq] at hr
    exact hr.2 ▸ hin

theorem checkSideInvariants_within {count : Nat} (h : p.Within n epoch)
    (hr : (b.checkSideInvariants side epoch count i p).Returns (result, p')) : p'.Within n epoch := by
  induction count generalizing i p with
  | zero =>
    rw [checkSideInvariants, Comp.returns_pure, Prod.mk.injEq] at hr
    exact hr.2 ▸ h
  | succ count ih =>
    rw [checkSideInvariants] at hr
    obtain ⟨⟨result', p1⟩, h1, hr⟩ := (Comp.returns_bind _ _ _).mp hr
    have hin := checkLevel_within h h1
    dsimp only at hr
    split at hr
    · rw [Comp.returns_pure, Prod.mk.injEq] at hr
      exact hr.2 ▸ hin
    · exact ih hin hr

/-- The check of the stop list. -/
theorem checkStops_within {last : Nat} (h : p.Within n epoch) (hr : (b.checkStops epoch p).Returns (result, last, p')) :
    p'.Within n epoch := by
  refine Comp.loop_invariant (I := fun st => st.2.2.Within n epoch) (Q := fun r => r.2.2.Within n epoch) ?_ ?_ h hr
  · rintro ⟨stop, previous, p⟩ st' hw hb
    dsimp only at hb
    repeat' split at hb
    any_goals simp at hb
    rw [← hb]
    exact Progress.Within.visit hw _
  · rintro ⟨stop, previous, p⟩ r hw hb
    dsimp only at hb
    repeat' split at hb
    any_goals
      rw [Comp.returns_pure, Turn.done.injEq] at hb
      rw [← hb]
      exact hw
    simp at hb

end OrderBook

/-- `check_invariants` changes the marks alone, and leaves none beyond the epoch. -/
theorem OrderBook.checkInvariants_marked {b b' : OrderBook} {n : Nat} {result : InvariantResult} (hn : n ≤ b.arena.capacity)
    (hle : ∀ s, s < n → b.visitMarks s ≤ b.visitEpoch) (hr : b.checkInvariants.Returns (result, b')) :
    ∃ m e, b' = b.withMarks m e ∧ ∀ s, s < n → m s ≤ e := by
  unfold OrderBook.checkInvariants at hr
  split at hr
  · rw [Comp.returns_pure, Prod.mk.injEq] at hr
    exact ⟨_, _, hr.2.symm, hle⟩
  split at hr
  · rw [Comp.returns_pure, Prod.mk.injEq] at hr
    exact ⟨_, _, hr.2.symm, hle⟩
  have hin0 : Progress.Within ⟨b.advanceVisitEpoch.visitMarks, 0⟩ n b.advanceVisitEpoch.visitEpoch := by
    intro s hs
    have := hle s hs
    unfold advanceVisitEpoch
    split
    · simp [Nat.lt_of_lt_of_le hs hn]
    · exact Nat.le_succ_of_le this
  have hmarked : ∀ p : Progress, p.Within n b.advanceVisitEpoch.visitEpoch →
      ∃ m e, ({ b.advanceVisitEpoch with visitMarks := p.marks } : OrderBook) = b.withMarks m e ∧ ∀ s, s < n → m s ≤ e := by
    intro p hp
    refine ⟨p.marks, b.advanceVisitEpoch.visitEpoch, ?_, hp⟩
    unfold advanceVisitEpoch
    split
    · rfl
    · rfl
  obtain ⟨⟨r1, last, p1⟩, h1, hr⟩ := (Comp.returns_bind _ _ _).mp hr
  have hin1 := checkStops_within hin0 h1
  dsimp only at hr
  repeat' split at hr
  any_goals
    rw [Comp.returns_pure, Prod.mk.injEq] at hr
    exact hr.2 ▸ hmarked p1 hin1
  obtain ⟨⟨r2, p2⟩, h2, hr⟩ := (Comp.returns_bind _ _ _).mp hr
  have hin2 := checkSideInvariants_within hin1 h2
  dsimp only at hr
  split at hr
  · rw [Comp.returns_pure, Prod.mk.injEq] at hr
    exact hr.2 ▸ hmarked p2 hin2
  obtain ⟨⟨r3, p3⟩, h3, hr⟩ := (Comp.returns_bind _ _ _).mp hr
  have hin3 := checkSideInvariants_within hin2 h3
  dsimp only at hr
  repeat' split at hr
  all_goals
    rw [Comp.returns_pure, Prod.mk.injEq] at hr
    exact hr.2 ▸ hmarked p3 hin3

/-- `check_invariants` changes the marks alone. -/
theorem OrderBook.checkInvariants_marks {b b' : OrderBook} {result : InvariantResult} (h : b.checkInvariants.Returns (result, b')) :
    ∃ m e, b' = b.withMarks m e := by
  obtain ⟨m, e, he, -⟩ := checkInvariants_marked (Nat.zero_le _) nofun h
  exact ⟨m, e, he⟩

end MatchingEngine

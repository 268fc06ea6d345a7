import Mathlib.Data.List.Basic

/-!
# Rounds that may fail

A loop over the numbers below a bound whose rounds may fail is `List.foldlM` in `Except`. What it ends with follows from what each of its
rounds keeps (`ends`, `runs`), or from the rounds of another loop (`follows`).
-/

namespace Rounds

variable {ε σ : Type} {f g : σ → Nat → Except ε σ} {P : Nat → σ → Prop} {n : Nat} {s s' : σ}

/-- A loop with one more round. -/
theorem foldlM_succ : (List.range (n + 1)).foldlM f s = .ok s' ↔ ∃ t, (List.range n).foldlM f s = .ok t ∧ f t n = .ok s' := by
  rw [List.range_succ, List.foldlM_append]
  cases (List.range n).foldlM f s with
  | error e => exact ⟨fun h => (by cases h), fun ⟨t, h, _⟩ => (by cases h)⟩
  | ok t =>
    have hlast : [n].foldlM f t = f t n := by
      rw [List.foldlM_cons]
      exact bind_pure _
    refine (Iff.of_eq (congrArg (· = _) hlast)).trans ⟨fun h => ⟨t, rfl, h⟩, ?_⟩
    rintro ⟨u, hu, h⟩
    cases hu
    exact h

/-- A loop that ends well has what its rounds keep. -/
theorem ends (init : P 0 s) (step : ∀ i < n, ∀ t t', P i t → f t i = .ok t' → P (i + 1) t') (h : (List.range n).foldlM f s = .ok s') :
    P n s' := by
  induction n generalizing s' with
  | zero =>
    cases h
    exact init
  | succ n ih =>
    obtain ⟨t, ht, hlast⟩ := foldlM_succ.mp h
    exact step n (Nat.lt_succ_self n) t s' (ih (fun i hi => step i (Nat.lt_succ_of_lt hi)) ht) hlast

/-- A loop none of whose rounds fails ends well. -/
theorem runs (init : P 0 s) (step : ∀ i < n, ∀ t, P i t → ∃ t', f t i = .ok t' ∧ P (i + 1) t') :
    ∃ s', (List.range n).foldlM f s = .ok s' ∧ P n s' := by
  induction n with
  | zero => exact ⟨s, rfl, init⟩
  | succ n ih =>
    obtain ⟨t, ht, hP⟩ := ih fun i hi => step i (Nat.lt_succ_of_lt hi)
    obtain ⟨s', hlast, hP'⟩ := step n (Nat.lt_succ_self n) t hP
    exact ⟨s', foldlM_succ.mpr ⟨t, ht, hlast⟩, hP'⟩

/-- A loop whose rounds end as those of another does. -/
theorem follows (step : ∀ i < n, ∀ t t', f t i = .ok t' → g t i = .ok t') (h : (List.range n).foldlM f s = .ok s') :
    (List.range n).foldlM g s = .ok s' := by
  induction n generalizing s' with
  | zero => exact h
  | succ n ih =>
    obtain ⟨t, ht, hlast⟩ := foldlM_succ.mp h
    exact foldlM_succ.mpr ⟨t, ih (fun i hi => step i (Nat.lt_succ_of_lt hi)) ht, step n (Nat.lt_succ_self n) t s' hlast⟩

/-- Every round of a loop that ends well has ended well. -/
theorem each (h : (List.range n).foldlM f s = .ok s') {i : Nat} (hi : i < n) : ∃ t t', f t i = .ok t' := by
  induction n generalizing s' with
  | zero => exact absurd hi (Nat.not_lt_zero i)
  | succ n ih =>
    obtain ⟨t, ht, hlast⟩ := foldlM_succ.mp h
    obtain hlt | rfl := Nat.lt_succ_iff_lt_or_eq.mp hi
    · exact ih ht hlt
    · exact ⟨t, s', hlast⟩

end Rounds

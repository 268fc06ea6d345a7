import Mathlib.Data.List.Count
import Mathlib.Data.Nat.Init

/-!
# Binary search

The search of `std::upper_bound`: among the positions from `first` on, those beyond a value come last, and the first of them is found by
halving.
-/

namespace Search

/-- The first of `len` positions from `first` on that is beyond, if the positions beyond come last. -/
def upperBound (beyond : Nat → Bool) (first len : Nat) : Nat :=
  if len = 0 then first
  else if beyond (first + len / 2) then upperBound beyond first (len / 2)
  else upperBound beyond (first + len / 2 + 1) (len - len / 2 - 1)
termination_by len
decreasing_by
  · omega
  · omega

variable {beyond : Nat → Bool} {first len : Nat}

/-- The position found parts the positions that are beyond from those that are not. -/
theorem upperBound_spec (hmono : ∀ i j, first ≤ i → i ≤ j → j < first + len → beyond i = true → beyond j = true) :
    first ≤ upperBound beyond first len ∧ upperBound beyond first len ≤ first + len ∧
      (∀ i, first ≤ i → i < upperBound beyond first len → beyond i = false) ∧
      ∀ i, upperBound beyond first len ≤ i → i < first + len → beyond i = true := by
  induction first, len using upperBound.induct beyond with
  | case1 first =>
    rw [upperBound, if_pos rfl]
    exact ⟨Nat.le_refl _, Nat.le_refl _, fun i h h' => absurd h' (Nat.not_lt.mpr h), fun i h h' => absurd h' (Nat.not_lt.mpr h)⟩
  | case2 first len hne hmid ih =>
    rw [upperBound, if_neg hne, if_pos hmid]
    obtain ⟨hge, hle, hbefore, hafter⟩ := ih fun i j hi hij hj => hmono i j hi hij (by omega)
    refine ⟨hge, by omega, hbefore, fun i hi hlt => ?_⟩
    rcases Nat.lt_or_ge i (first + len / 2) with h | h
    · exact hafter i hi h
    · exact hmono _ i (Nat.le_add_right _ _) h hlt hmid
  | case3 first len hne hmid ih =>
    rw [upperBound, if_neg hne, if_neg hmid]
    obtain ⟨hge, hle, hbefore, hafter⟩ := ih fun i j hi hij hj => hmono i j (by omega) hij (by omega)
    refine ⟨by omega, by omega, fun i hi hlt => ?_, fun i hi hlt => hafter i hi (by omega)⟩
    rcases Nat.lt_or_ge i (first + len / 2 + 1) with h | h
    · exact Bool.eq_false_iff.mpr fun hi' => hmid (hmono i _ hi (by omega) (by omega) hi')
    · exact hbefore i h hlt

/-- As many entries satisfy a predicate as come before the place that parts them from the rest. -/
theorem countP_of_parted {α : Type} {xs : List α} {p : α → Bool} {k : Nat} (hk : k ≤ xs.length)
    (hbefore : ∀ i (h : i < xs.length), i < k → p xs[i] = true) (hafter : ∀ i (h : i < xs.length), k ≤ i → p xs[i] = false) :
    xs.countP p = k := by
  have htake : (xs.take k).countP p = k := by
    rw [List.countP_eq_length.mpr fun a ha => ?_, List.length_take, Nat.min_eq_left hk]
    obtain ⟨i, hi, rfl⟩ := List.mem_iff_getElem.mp ha
    rw [List.length_take] at hi
    rw [List.getElem_take]
    exact hbefore i (by omega) (by omega)
  have hdrop : (xs.drop k).countP p = 0 := by
    refine List.countP_eq_zero.mpr fun a ha => ?_
    obtain ⟨i, hi, rfl⟩ := List.mem_iff_getElem.mp ha
    rw [List.getElem_drop, hafter (k + i) (by rw [List.length_drop] at hi; omega) (Nat.le_add_right k i)]
    exact Bool.false_ne_true
  conv_lhs => rw [← List.take_append_drop k xs]
  rw [List.countP_append, htake, hdrop, Nat.add_zero]

end Search

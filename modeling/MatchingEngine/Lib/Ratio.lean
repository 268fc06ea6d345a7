import Mathlib.Algebra.Order.Round
import Mathlib.Data.Nat.GCD.BigOperators
import Mathlib.Data.Rat.Floor
import Mathlib.Tactic.Linarith
import Mathlib.Tactic.Positivity
import Mathlib.Tactic.Ring

/-!
# Ratios of products

A ratio given by the factors above and below the line is put into lowest terms by dividing each factor above and each factor below by
their greatest common divisor, in one pass over the pairs. The ratio of two numbers is rounded from its quotient and remainder.
-/

namespace Ratio

/-! ## Cancelling -/

/-- A factor above the line against those below it, one after the other. -/
def cancelFactor (a : Nat) : List Nat → Nat × List Nat
  | [] => (a, [])
  | b :: below =>
    let divisor := Nat.gcd a b
    let rest := cancelFactor (a / divisor) below
    (rest.1, b / divisor :: rest.2)

/-- The factors above the line, one after the other, each against those below it. -/
def cancel : List Nat → List Nat → List Nat × List Nat
  | [], below => ([], below)
  | a :: above, below =>
    let first := cancelFactor a below
    let rest := cancel above first.2
    (first.1 :: rest.1, rest.2)

section Cancel

variable {a : Nat} {above below : List Nat}

/-- What is left of a factor divides it. -/
theorem cancelFactor_dvd : (cancelFactor a below).1 ∣ a := by
  induction below generalizing a with
  | nil => exact Nat.dvd_refl a
  | cons b below ih => exact ih.trans (Nat.div_dvd_of_dvd (Nat.gcd_dvd_left a b))

/-- A cancelled factor divides what it was. -/
theorem cancelFactor_below_dvd : List.Forall₂ (· ∣ ·) (cancelFactor a below).2 below := by
  induction below generalizing a with
  | nil => exact .nil
  | cons b below ih => exact .cons (Nat.div_dvd_of_dvd (Nat.gcd_dvd_right a b)) ih

/-- Divisors of divisors, one by one. -/
theorem forall₂_dvd_trans {below' below'' : List Nat} (h : List.Forall₂ (· ∣ ·) below'' below') (h' : List.Forall₂ (· ∣ ·) below' below) :
    List.Forall₂ (· ∣ ·) below'' below := by
  induction h generalizing below with
  | nil => exact h'
  | cons hdvd _ ih =>
    cases h' with
    | cons hdvd' h' => exact .cons (hdvd.trans hdvd') (ih h')

theorem cancel_below_dvd : List.Forall₂ (· ∣ ·) (cancel above below).2 below := by
  induction above generalizing below with
  | nil => exact List.forall₂_same.mpr fun b _ => Nat.dvd_refl b
  | cons a above ih => exact forall₂_dvd_trans ih cancelFactor_below_dvd

theorem cancel_above_dvd : List.Forall₂ (· ∣ ·) (cancel above below).1 above := by
  induction above generalizing below with
  | nil => exact .nil
  | cons a above ih => exact .cons cancelFactor_dvd ih

/-- Factors that divide positive ones are positive. -/
theorem pos_of_forall₂_dvd {below' : List Nat} (h : List.Forall₂ (· ∣ ·) below' below) (hpos : ∀ b ∈ below, 0 < b) : ∀ b ∈ below', 0 < b := by
  induction h with
  | nil => exact hpos
  | cons hdvd _ ih =>
    rw [List.forall_mem_cons] at hpos ⊢
    exact ⟨Nat.pos_of_dvd_of_pos hdvd hpos.1, ih hpos.2⟩

/-- A factor prime to others is prime to what divides them. -/
theorem coprime_of_forall₂_dvd {below' : List Nat} (h : List.Forall₂ (· ∣ ·) below' below) (hcoprime : ∀ b ∈ below, Nat.Coprime a b) :
    ∀ b ∈ below', Nat.Coprime a b := by
  induction h with
  | nil => exact hcoprime
  | cons hdvd _ ih =>
    rw [List.forall_mem_cons] at hcoprime ⊢
    exact ⟨hcoprime.1.coprime_dvd_right hdvd, ih hcoprime.2⟩

/-- What is left of a factor has no divisor in common with what is left below the line. -/
theorem cancelFactor_coprime (hpos : ∀ b ∈ below, 0 < b) : ∀ b ∈ (cancelFactor a below).2, Nat.Coprime (cancelFactor a below).1 b := by
  induction below generalizing a with
  | nil => exact fun _ hb => absurd hb List.not_mem_nil
  | cons b below ih =>
    rw [List.forall_mem_cons] at hpos
    rw [cancelFactor, List.forall_mem_cons]
    have hdivided : Nat.Coprime (a / Nat.gcd a b) (b / Nat.gcd a b) := Nat.coprime_div_gcd_div_gcd (Nat.gcd_pos_of_pos_right a hpos.1)
    exact ⟨hdivided.coprime_dvd_left cancelFactor_dvd, ih hpos.2⟩

/-- The ratio stays what it is. -/
theorem cancelFactor_ratio (hpos : ∀ b ∈ below, 0 < b) : (cancelFactor a below).1 * below.prod = a * (cancelFactor a below).2.prod := by
  induction below generalizing a with
  | nil => rfl
  | cons b below ih =>
    rw [List.forall_mem_cons] at hpos
    rw [cancelFactor, List.prod_cons, List.prod_cons]
    have hrest := ih hpos.2 (a := a / Nat.gcd a b)
    have ha : a / Nat.gcd a b * Nat.gcd a b = a := Nat.div_mul_cancel (Nat.gcd_dvd_left a b)
    have hb : b / Nat.gcd a b * Nat.gcd a b = b := Nat.div_mul_cancel (Nat.gcd_dvd_right a b)
    calc (cancelFactor (a / Nat.gcd a b) below).1 * (b * below.prod)
        = (cancelFactor (a / Nat.gcd a b) below).1 * below.prod * (b / Nat.gcd a b * Nat.gcd a b) := by rw [hb]; ring
      _ = a / Nat.gcd a b * (cancelFactor (a / Nat.gcd a b) below).2.prod * (b / Nat.gcd a b * Nat.gcd a b) := by rw [hrest]
      _ = a / Nat.gcd a b * Nat.gcd a b * (b / Nat.gcd a b * (cancelFactor (a / Nat.gcd a b) below).2.prod) := by ring
      _ = a * (b / Nat.gcd a b * (cancelFactor (a / Nat.gcd a b) below).2.prod) := by rw [ha]

/-- What is left above is coprime to what is left below: what a later factor takes from below leaves divisors there. -/
theorem cancel_coprime (hpos : ∀ b ∈ below, 0 < b) : ∀ a ∈ (cancel above below).1, ∀ b ∈ (cancel above below).2, Nat.Coprime a b := by
  induction above generalizing below with
  | nil => exact fun _ ha => absurd ha List.not_mem_nil
  | cons a above ih =>
    rw [cancel, List.forall_mem_cons]
    have hfirst := cancelFactor_coprime (a := a) hpos
    exact ⟨coprime_of_forall₂_dvd cancel_below_dvd hfirst, ih (pos_of_forall₂_dvd cancelFactor_below_dvd hpos)⟩

@[inherit_doc cancelFactor_ratio]
theorem cancel_ratio (hpos : ∀ b ∈ below, 0 < b) : (cancel above below).1.prod * below.prod = above.prod * (cancel above below).2.prod := by
  induction above generalizing below with
  | nil => rw [cancel]
  | cons a above ih =>
    rw [cancel, List.prod_cons, List.prod_cons]
    have hfirst := cancelFactor_ratio (a := a) hpos
    have hpos' := pos_of_forall₂_dvd (cancelFactor_below_dvd (a := a)) hpos
    have hrest := ih hpos'
    refine Nat.eq_of_mul_eq_mul_right (List.prod_pos_iff_forall_pos_nat.mpr hpos') ?_
    calc (cancelFactor a below).1 * (cancel above (cancelFactor a below).2).1.prod * below.prod * (cancelFactor a below).2.prod
        = ((cancelFactor a below).1 * below.prod) * ((cancel above (cancelFactor a below).2).1.prod * (cancelFactor a below).2.prod) := by ring
      _ = (a * (cancelFactor a below).2.prod) * (above.prod * (cancel above (cancelFactor a below).2).2.prod) := by rw [hfirst, hrest]
      _ = a * above.prod * (cancel above (cancelFactor a below).2).2.prod * (cancelFactor a below).2.prod := by ring

theorem cancel_below_pos (above : List Nat) (hpos : ∀ b ∈ below, 0 < b) : 0 < (cancel above below).2.prod :=
  List.prod_pos_iff_forall_pos_nat.mpr (pos_of_forall₂_dvd cancel_below_dvd hpos)

theorem div_eq_div_of_mul_eq {a b c d : Nat} (hb : 0 < b) (hd : 0 < d) (h : c * b = a * d) : (a : ℚ) / b = (c : ℤ) / (d : ℤ) := by
  have hb' : (b : ℚ) ≠ 0 := Nat.cast_ne_zero.mpr hb.ne'
  have hd' : ((d : ℤ) : ℚ) ≠ 0 := Int.cast_ne_zero.mpr (Int.natCast_ne_zero.mpr hd.ne')
  rw [div_eq_div_iff hb' hd']
  exact_mod_cast h.symm

/-- After the pass the products are the numerator and the denominator of the ratio. -/
theorem cancel_lowest (above : List Nat) (hpos : ∀ b ∈ below, 0 < b) :
    ((above.prod : ℚ) / below.prod).num = (cancel above below).1.prod ∧ ((above.prod : ℚ) / below.prod).den = (cancel above below).2.prod := by
  have hbelow : 0 < below.prod := List.prod_pos_iff_forall_pos_nat.mpr hpos
  have hbelow' := cancel_below_pos above hpos
  have hcoprime : Nat.Coprime (cancel above below).1.prod (cancel above below).2.prod :=
    Nat.coprime_list_prod_left_iff.mpr fun a ha => Nat.coprime_list_prod_right_iff.mpr fun b hb => cancel_coprime hpos a ha b hb
  have hratio : (above.prod : ℚ) / below.prod = ((cancel above below).1.prod : ℤ) / ((cancel above below).2.prod : ℤ) :=
    div_eq_div_of_mul_eq hbelow hbelow' (cancel_ratio hpos)
  have hbelowInt : (0 : ℤ) < (cancel above below).2.prod := Int.natCast_pos.mpr hbelow'
  rw [hratio]
  exact ⟨Rat.num_div_eq_of_coprime hbelowInt hcoprime, Int.ofNat_inj.mp (Rat.den_div_eq_of_coprime hbelowInt hcoprime)⟩

end Cancel

/-! ## Rounding -/

/-- A whole number and a fraction below one are rounded up where the remainder is at least what it lacks. -/
theorem round_add_div (q r d : Nat) (hr : r < d) : round ((q : ℚ) + r / d) = (q + if d - r ≤ r then 1 else 0 : Nat) := by
  have hd : (0 : ℚ) < d := by exact_mod_cast Nat.zero_lt_of_lt hr
  have hlt : (r : ℚ) / d < 1 := (div_lt_one hd).mpr (by exact_mod_cast hr)
  have hnonneg : (0 : ℚ) ≤ (r : ℚ) / d := by positivity
  rw [round_eq, Int.floor_eq_iff]
  split
  · have hhalf : (1 : ℚ) / 2 ≤ (r : ℚ) / d := by
      rw [div_le_div_iff₀ two_pos hd, one_mul]
      exact_mod_cast (by omega : d ≤ r * 2)
    push_cast
    constructor <;> linarith
  · have hhalf : (r : ℚ) / d < 1 / 2 := by
      rw [div_lt_div_iff₀ hd two_pos, one_mul]
      exact_mod_cast (by omega : r * 2 < d)
    push_cast
    constructor <;> linarith

/-- A ratio is rounded from its quotient and remainder, up from the half on. -/
theorem round_div (n d : Nat) (hd : 0 < d) : round ((n : ℚ) / d) = (n / d + if d - n % d ≤ n % d then 1 else 0 : Nat) := by
  have hdq : (d : ℚ) ≠ 0 := by exact_mod_cast hd.ne'
  have hsplit : (n : ℚ) = (n / d : Nat) * d + (n % d : Nat) := by exact_mod_cast (Nat.div_add_mod' n d).symm
  calc round ((n : ℚ) / d) = round ((((n / d : Nat) : ℚ) * d + (n % d : Nat)) / d) := by rw [← hsplit]
    _ = round (((n / d : Nat) : ℚ) + (n % d : Nat) / d) := by rw [add_div' _ _ _ hdq]
    _ = (n / d + if d - n % d ≤ n % d then 1 else 0 : Nat) := round_add_div _ _ _ (Nat.mod_lt n hd)

end Ratio

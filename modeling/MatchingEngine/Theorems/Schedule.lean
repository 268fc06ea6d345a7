import MatchingEngine.Schedule
import Mathlib.Data.List.Count

/-!
# The schedule is exact

`make_schedule` gives the times that the rate and the tick ratio give, rounded half up, wherever their fractions in lowest terms have a
numerator and a denominator of 64 bits, and nothing it computes wraps.
-/

namespace MatchingEngine

/-- When the event `index` is due, in ticks. -/
def exactTick (rate : Nat) (ratio : TickRatio) (index : Nat) : ℚ :=
  (index * kNanosecondsPerSecond * ratio.numerator : ℚ) / (rate * ratio.denominator)

/-- The numerator and the denominator have 64 bits. -/
def FitsWords (q : ℚ) : Prop := q.num < 2 ^ 64 ∧ q.den < 2 ^ 64

instance (q : ℚ) : Decidable (FitsWords q) := inferInstanceAs (Decidable (_ ∧ _))

/-! ## Computations without effect -/

/-- A result that is there, whatever the monad. -/
def settled {m : Type → Type} [Monad m] {α : Type} (result : Option α) : OptionT m α := OptionT.mk (pure result)

section Settled

variable {m : Type → Type} [Monad m] [LawfulMonad m] {α β : Type}

@[simp] theorem settled_some_bind (a : α) (f : α → OptionT m β) : (settled (some a) >>= f) = f a := pure_bind a f

@[simp] theorem settled_none_bind (f : α → OptionT m β) : (settled none >>= f) = settled none := by
  refine OptionT.ext ?_
  simp [settled]

/-- Settled steps, one after the other. -/
theorem settled_bind (result : Option α) (f : α → Option β) :
    (settled result >>= fun a => settled (f a) : OptionT m β) = settled (result.bind f) := by
  cases result with
  | none => exact settled_none_bind _
  | some a => exact settled_some_bind a _

theorem foldlM_settled (f : β → α → Option β) (init : β) (items : List α) :
    items.foldlM (fun b a => (settled (f b a) : OptionT m β)) init = settled (items.foldlM f init) := by
  induction items generalizing init with
  | nil => rfl
  | cons item items ih =>
    rw [List.foldlM_cons, List.foldlM_cons]
    simp only [ih, settled_bind]
    rfl

theorem mapM_settled (f : α → Option β) (items : List α) :
    items.mapM (fun a => (settled (f a) : OptionT m β)) = settled (items.mapM f) := by
  induction items with
  | nil => rfl
  | cons item items ih =>
    rw [List.mapM_cons, List.mapM_cons, ih]
    have hrest : ∀ b : β, (settled (items.mapM f) >>= fun bs => pure (b :: bs) : OptionT m (List β)) =
        settled ((items.mapM f).bind fun bs => some (b :: bs)) := fun b => settled_bind _ _
    simp only [hrest, settled_bind]
    rfl

end Settled

/-- Results that are all there. -/
theorem mapM_ite_some {α β : Type} (p : α → Prop) [DecidablePred p] (f : α → β) (items : List α) :
    items.mapM (fun a => if p a then some (f a) else none) = if ∀ a ∈ items, p a then some (items.map f) else none := by
  induction items with
  | nil => rw [if_pos fun a ha => absurd ha List.not_mem_nil]; rfl
  | cons item items ih =>
    rw [List.mapM_cons, ih]
    by_cases hitem : p item
    · by_cases hitems : ∀ a ∈ items, p a
      · rw [if_pos hitem, if_pos hitems, if_pos (List.forall_mem_cons.mpr ⟨hitem, hitems⟩)]
        rfl
      · rw [if_pos hitem, if_neg hitems, if_neg fun h => hitems (List.forall_mem_cons.mp h).2]
        rfl
    · rw [if_neg hitem, if_neg fun h => hitem (List.forall_mem_cons.mp h).1]
      rfl

/-! ## Checked operations -/

namespace WordArithmetic

/-- Where nothing leaves the type the arithmetic is the one of the numbers. -/
structure Exact {m : Type → Type} [Monad m] (words : WordArithmetic m) : Prop where
  multiply : ∀ left right, left * right < 2 ^ 64 → words.multiply left right = pure (left * right)
  add : ∀ left right, left + right < 2 ^ 64 → words.add left right = pure (left + right)

/-- Wrapping arithmetic is exact where nothing wraps. -/
theorem wrapping_exact : wrapping.Exact where
  multiply _ _ h := Nat.mod_eq_of_lt h
  add _ _ h := Nat.mod_eq_of_lt h

theorem trapping_exact : trapping.Exact where
  multiply _ _ h := if_pos h
  add _ _ h := if_pos h

section Exact

variable {m : Type → Type} [Monad m] [LawfulMonad m] {words : WordArithmetic m} (h : words.Exact)

include h

/-- A checked sum fails if it takes more than 64 bits. -/
theorem checkedAdd_eq (left right : Nat) (hr : right < 2 ^ 64) :
    words.checkedAdd left right = settled (if left + right < 2 ^ 64 then some (left + right) else none) := by
  rw [checkedAdd]
  by_cases hlt : left + right < 2 ^ 64
  · rw [if_neg (by omega), if_pos hlt, h.add left right hlt]
    refine OptionT.ext ?_
    simp [settled]
  · rw [if_pos (by omega), if_neg hlt]
    rfl

theorem checkedMultiply_eq (left right : Nat) :
    words.checkedMultiply left right = settled (if left * right < 2 ^ 64 then some (left * right) else none) := by
  rw [checkedMultiply]
  by_cases hlt : left * right < 2 ^ 64
  · have hfits : ¬(left ≠ 0 ∧ (2 ^ 64 - 1) / left < right) := by
      rintro ⟨hne, hdiv⟩
      rw [Nat.div_lt_iff_lt_mul (Nat.pos_of_ne_zero hne), Nat.mul_comm] at hdiv
      omega
    rw [if_neg hfits, if_pos hlt, h.multiply left right hlt]
    refine OptionT.ext ?_
    simp [settled]
  · have hne : left ≠ 0 := by
      rintro rfl
      rw [Nat.zero_mul] at hlt
      exact hlt (Nat.two_pow_pos 64)
    have hdiv : (2 ^ 64 - 1) / left < right := by
      rw [Nat.div_lt_iff_lt_mul (Nat.pos_of_ne_zero hne), Nat.mul_comm]
      omega
    rw [if_pos ⟨hne, hdiv⟩, if_neg hlt]
    rfl

/-- The product of positive factors is there if it fits: then all the products on the way do. -/
theorem foldlM_checkedMultiply {factors : List Nat} (hpos : ∀ f ∈ factors, 0 < f) {init : Nat} (hinit : init < 2 ^ 64) :
    factors.foldlM words.checkedMultiply init =
      settled (if init * factors.prod < 2 ^ 64 then some (init * factors.prod) else none) := by
  have hstep : words.checkedMultiply = fun left right => settled (if left * right < 2 ^ 64 then some (left * right) else none) :=
    funext fun left => funext fun right => checkedMultiply_eq h left right
  rw [hstep, foldlM_settled]
  congr 1
  induction factors generalizing init with
  | nil => rw [List.prod_nil, Nat.mul_one, if_pos hinit, List.foldlM_nil]; rfl
  | cons f factors ih =>
    rw [List.forall_mem_cons] at hpos
    rw [List.foldlM_cons, List.prod_cons, ← Nat.mul_assoc]
    by_cases hlt : init * f < 2 ^ 64
    · rw [if_pos hlt]
      exact ih hpos.2 hlt
    · have hprod : 0 < factors.prod := List.prod_pos_iff_forall_pos_nat.mpr hpos.2
      have hle : init * f ≤ init * f * factors.prod := Nat.le_mul_of_pos_right _ hprod
      rw [if_neg hlt, if_neg (by omega)]
      rfl

/-- A denominator of positive factors is not zero. -/
theorem foldlM_multiplyDenominator {factors : List Nat} (hpos : ∀ f ∈ factors, 0 < f) {init : Nat} (hinit : 0 < init) :
    factors.foldlM words.multiplyDenominator init = factors.foldlM words.checkedMultiply init := by
  induction factors generalizing init with
  | nil => rfl
  | cons f factors ih =>
    rw [List.forall_mem_cons] at hpos
    rw [List.foldlM_cons, List.foldlM_cons, multiplyDenominator, checkedMultiply_eq h]
    by_cases hlt : init * f < 2 ^ 64
    · have hprod : 0 < init * f := Nat.mul_pos hinit hpos.1
      rw [if_pos hlt, settled_some_bind, settled_some_bind, if_neg hprod.ne', pure_bind]
      exact ih hpos.2 hprod
    · rw [if_neg hlt, settled_none_bind, settled_none_bind, settled_none_bind]

/-- The product of factors of which the first may be zero. -/
theorem foldlM_checkedMultiply_one {first : Nat} {factors : List Nat} (hpos : ∀ f ∈ factors, 0 < f) :
    (first :: factors).foldlM words.checkedMultiply 1 =
      settled (if (first :: factors).prod < 2 ^ 64 then some (first :: factors).prod else none) := by
  rw [List.foldlM_cons, checkedMultiply_eq h, Nat.one_mul, List.prod_cons]
  by_cases hlt : first < 2 ^ 64
  · rw [if_pos hlt, settled_some_bind, foldlM_checkedMultiply h hpos hlt]
  · have hle : first ≤ first * factors.prod := Nat.le_mul_of_pos_right _ (List.prod_pos_iff_forall_pos_nat.mpr hpos)
    rw [if_neg hlt, settled_none_bind, if_neg (by omega)]

/-- The last lines of `exact_offset` round a ratio whose parts fit; the sum does. -/
theorem roundedQuotient_eq {numerator denominator : Nat} (hn : numerator < 2 ^ 64) (hd : 0 < denominator) :
    (if denominator - numerator % denominator ≤ numerator % denominator then words.checkedAdd (numerator / denominator) 1
      else pure (numerator / denominator)) = settled (some (round ((numerator : ℚ) / denominator)).toNat) := by
  rw [Ratio.round_div numerator denominator hd, Int.toNat_natCast]
  by_cases hhalf : denominator - numerator % denominator ≤ numerator % denominator
  · have hmod := Nat.mod_lt numerator hd
    have hdiv : numerator / denominator ≤ numerator / 2 := Nat.div_le_div_left (by omega) (by decide)
    rw [if_pos hhalf, if_pos hhalf, checkedAdd_eq h _ _ (by decide), if_pos (by omega)]
  · rw [if_neg hhalf, if_neg hhalf]
    rfl

/-- An offset is there if the numerator and the denominator of the exact time fit, and is that time, rounded. -/
theorem exactOffset_eq {index rate : Nat} {ratio : TickRatio} (hrate : rate ≠ 0) (hn : ratio.numerator ≠ 0) (hd : ratio.denominator ≠ 0) :
    words.exactOffset index rate ratio =
      settled (if FitsWords (exactTick rate ratio index) then some (round (exactTick rate ratio index)).toNat else none) := by
  have hbelow : ∀ b ∈ [rate, ratio.denominator], 0 < b := by
    simpa using ⟨Nat.pos_of_ne_zero hrate, Nat.pos_of_ne_zero hd⟩
  have habove : ∀ a ∈ [kNanosecondsPerSecond, ratio.numerator], 0 < a := by
    simpa using ⟨(by decide : 0 < kNanosecondsPerSecond), Nat.pos_of_ne_zero hn⟩
  obtain ⟨factors, hfactors⟩ : ∃ factors, factors = Ratio.cancel [index, kNanosecondsPerSecond, ratio.numerator] [rate, ratio.denominator] :=
    ⟨_, rfl⟩
  have htick : exactTick rate ratio index =
      (([index, kNanosecondsPerSecond, ratio.numerator].prod : Nat) : ℚ) / (([rate, ratio.denominator].prod : Nat) : ℚ) := by
    simp [exactTick, mul_assoc]
  obtain ⟨hnum, hden⟩ := Ratio.cancel_lowest [index, kNanosecondsPerSecond, ratio.numerator] hbelow
  have hdenPos := Ratio.cancel_below_pos [index, kNanosecondsPerSecond, ratio.numerator] hbelow
  rw [← htick, ← hfactors] at hnum hden
  rw [← hfactors] at hdenPos
  have hnumerator : factors.1.foldlM words.checkedMultiply 1 =
      settled (if factors.1.prod < 2 ^ 64 then some factors.1.prod else none) := by
    rw [hfactors]
    exact foldlM_checkedMultiply_one h (Ratio.pos_of_forall₂_dvd Ratio.cancel_above_dvd habove)
  have hdenominator : factors.2.foldlM words.multiplyDenominator 1 =
      settled (if factors.2.prod < 2 ^ 64 then some factors.2.prod else none) := by
    have hpos : ∀ b ∈ factors.2, 0 < b := List.prod_pos_iff_forall_pos_nat.mp hdenPos
    rw [foldlM_multiplyDenominator h hpos Nat.one_pos, foldlM_checkedMultiply h hpos (by decide), Nat.one_mul]
  have hratio : exactTick rate ratio index = (factors.1.prod : ℚ) / factors.2.prod := by
    rw [← Rat.num_div_den (exactTick rate ratio index), hnum, hden, Int.cast_natCast]
  have hfits : FitsWords (exactTick rate ratio index) ↔ factors.1.prod < 2 ^ 64 ∧ factors.2.prod < 2 ^ 64 := by
    rw [FitsWords, hnum, hden]
    exact and_congr_left' (by norm_cast)
  rw [exactOffset, if_neg (by simp [hrate, hn, hd]), ← hfactors]
  dsimp only
  rw [hnumerator, hdenominator]
  by_cases hn64 : factors.1.prod < 2 ^ 64
  · by_cases hd64 : factors.2.prod < 2 ^ 64
    · rw [if_pos hn64, if_pos hd64, settled_some_bind, settled_some_bind, if_pos (hfits.mpr ⟨hn64, hd64⟩), hratio]
      exact roundedQuotient_eq h hn64 hdenPos
    · rw [if_pos hn64, if_neg hd64, settled_some_bind, settled_none_bind, if_neg fun hf => hd64 (hfits.mp hf).2]
  · rw [if_neg hn64, settled_none_bind, if_neg fun hf => hn64 (hfits.mp hf).1]

/-- A schedule is there if all its times fit, and has them all. -/
theorem makeSchedule_eq {samples rate : Nat} {ratio : TickRatio} (hpos : 0 < samples) (hle : samples ≤ kMaximumSamples) (hrate : rate ≠ 0)
    (hn : ratio.numerator ≠ 0) (hd : ratio.denominator ≠ 0) :
    words.makeSchedule samples rate ratio =
      settled (if ∀ index ∈ List.range samples, FitsWords (exactTick rate ratio index)
        then some ((List.range samples).map fun index => (round (exactTick rate ratio index)).toNat) else none) := by
  have hrefused : ¬(samples = 0 ∨ kMaximumSamples < samples ∨ rate = 0 ∨ ratio.numerator = 0 ∨ ratio.denominator = 0) := by
    simp only [hrate, hn, hd, or_false]
    omega
  rw [makeSchedule, if_neg hrefused]
  simp only [exactOffset_eq h hrate hn hd]
  rw [mapM_settled, mapM_ite_some]

end Exact

end WordArithmetic

/-! ## The times -/

section Times

variable {rate : Nat} {ratio : TickRatio}

/-- No event is before the start. -/
theorem exactTick_nonneg (index : Nat) : 0 ≤ exactTick rate ratio index := by
  unfold exactTick
  positivity

/-- The exact times are in order. -/
theorem exactTick_mono : Monotone (exactTick rate ratio) := by
  intro i j hij
  unfold exactTick
  gcongr

/-- The rounded times are in order. -/
theorem round_mono {p q : ℚ} (h : p ≤ q) : round p ≤ round q := by
  rw [round_eq, round_eq]
  exact Int.floor_mono (by linarith)

/-- What fits is rounded to something that fits. -/
theorem round_lt_of_fitsWords {q : ℚ} (hq : 0 ≤ q) (h : FitsWords q) : round q < 2 ^ 64 := by
  have hnum : (q.num.toNat : ℤ) = q.num := Int.toNat_of_nonneg (Rat.num_nonneg.mpr hq)
  have hq' : q = (q.num.toNat : ℚ) / q.den := by
    conv_lhs => rw [← Rat.num_div_den q, ← hnum, Int.cast_natCast]
  have hmod := Nat.mod_lt q.num.toNat q.den_pos
  have hlt : q.num.toNat < 2 ^ 64 := by
    have := h.1
    omega
  rw [hq', Ratio.round_div _ _ q.den_pos]
  split
  · have hdiv : q.num.toNat / q.den ≤ q.num.toNat / 2 := Nat.div_le_div_left (by omega) (by decide)
    omega
  · have hdiv := Nat.div_le_self q.num.toNat q.den
    omega

end Times

/-! ## The backlog -/

/-- The number of the entries after a place that are due, in a schedule in order. -/
theorem additionalBacklog_eq {schedule : List Nat} (hsorted : schedule.Pairwise (· ≤ ·)) (currentIndex elapsedTicks : Nat) :
    additionalBacklog schedule currentIndex elapsedTicks = (schedule.drop (currentIndex + 1)).countP (· ≤ elapsedTicks) := by
  rw [additionalBacklog]
  by_cases hlen : schedule.length ≤ currentIndex
  · rw [if_pos hlen, List.drop_of_length_le (by omega), List.countP_nil]
  · rw [if_neg hlen]
    dsimp only
    have hget : ∀ i, (hi : i < schedule.length) → schedule.getD i 0 = schedule[i] := fun i hi => by
      rw [List.getD_eq_getElem?_getD, List.getElem?_eq_getElem hi, Option.getD_some]
    obtain ⟨hge, hle, hbefore, hafter⟩ := @Search.upperBound_spec (fun index => elapsedTicks < schedule.getD index 0) (currentIndex + 1)
      (schedule.length - (currentIndex + 1)) fun i j hi hij hj hbeyond => by
        have hj' : j < schedule.length := by omega
        rw [decide_eq_true_iff, hget i (by omega)] at hbeyond
        rw [decide_eq_true_iff, hget j hj']
        rcases Nat.eq_or_lt_of_le hij with rfl | hlt
        · exact hbeyond
        · exact Nat.lt_of_lt_of_le hbeyond (List.pairwise_iff_getElem.mp hsorted i j (by omega) hj' hlt)
    refine (Search.countP_of_parted ?_ (fun i hi hik => ?_) fun i hi hki => ?_).symm
    · rw [List.length_drop]
      omega
    · rw [List.length_drop] at hi
      have hnot := hbefore (currentIndex + 1 + i) (by omega) (by omega)
      rw [decide_eq_false_iff_not, hget _ (by omega)] at hnot
      rw [List.getElem_drop, decide_eq_true_iff]
      omega
    · rw [List.length_drop] at hi
      have hbeyond := hafter (currentIndex + 1 + i) (by omega) (by omega)
      rw [decide_eq_true_iff, hget _ (by omega)] at hbeyond
      rw [List.getElem_drop, decide_eq_false_iff_not]
      omega

/-- A schedule is refused exactly if a time in lowest terms has a numerator or a denominator of more than 64 bits, or would be rounded to one;
else each entry is its time, rounded half up, and they are in order, so that the search for the backlog counts what is due. The arithmetic
that gives up where a product or a sum wraps gives the same. -/
theorem schedule_exact (samples rate : Nat) (ratio : TickRatio) (hpos : 0 < samples) (hle : samples ≤ kMaximumSamples) (hrate : rate ≠ 0)
    (hn : ratio.numerator ≠ 0) (hd : ratio.denominator ≠ 0) :
    (makeSchedule samples rate ratio = none ↔ ∃ index, index < samples ∧
      (2 ^ 64 ≤ (exactTick rate ratio index).num ∨ 2 ^ 64 ≤ (exactTick rate ratio index).den ∨ 2 ^ 64 ≤ round (exactTick rate ratio index))) ∧
    (∀ schedule, makeSchedule samples rate ratio = some schedule → schedule.length = samples ∧
      (∀ index (hi : index < schedule.length), (schedule[index] : ℤ) = round (exactTick rate ratio index)) ∧ schedule.Pairwise (· ≤ ·) ∧
      ∀ currentIndex elapsedTicks, additionalBacklog schedule currentIndex elapsedTicks =
        (schedule.drop (currentIndex + 1)).countP (· ≤ elapsedTicks)) ∧
    (WordArithmetic.trapping.makeSchedule samples rate ratio).run = some (makeSchedule samples rate ratio) := by
  have hmake : makeSchedule samples rate ratio = if ∀ index ∈ List.range samples, FitsWords (exactTick rate ratio index)
      then some ((List.range samples).map fun index => (round (exactTick rate ratio index)).toNat) else none :=
    congrArg OptionT.run (WordArithmetic.makeSchedule_eq WordArithmetic.wrapping_exact hpos hle hrate hn hd)
  refine ⟨?_, fun schedule hschedule => ?_, ?_⟩
  · rw [hmake, ite_eq_right_iff]
    constructor
    · intro hnone
      have hnot : ¬∀ index ∈ List.range samples, FitsWords (exactTick rate ratio index) := fun hall => nomatch hnone hall
      obtain ⟨index, hindex⟩ := Classical.not_forall.mp hnot
      obtain ⟨hindex, hfits⟩ := Classical.not_imp.mp hindex
      refine ⟨index, List.mem_range.mp hindex, ?_⟩
      rw [FitsWords, not_and_or, not_lt, not_lt] at hfits
      exact hfits.imp_right .inl
    · rintro ⟨index, hindex, hlarge⟩ hall
      have hfits := hall index (List.mem_range.mpr hindex)
      rcases hlarge with h | h | h
      · exact absurd hfits.1 (not_lt.mpr h)
      · exact absurd hfits.2 (not_lt.mpr h)
      · exact absurd (round_lt_of_fitsWords (exactTick_nonneg index) hfits) (not_lt.mpr h)
  · rw [hmake] at hschedule
    split at hschedule
    · obtain rfl := Option.some.inj hschedule
      have hsorted : ((List.range samples).map fun index => (round (exactTick rate ratio index)).toNat).Pairwise (· ≤ ·) :=
        List.pairwise_map.mpr (List.pairwise_lt_range.imp fun hij => Int.toNat_le_toNat (round_mono (exactTick_mono hij.le)))
      refine ⟨by simp, fun index hi => ?_, hsorted, additionalBacklog_eq hsorted⟩
      rw [List.getElem_map, List.getElem_range, Int.toNat_of_nonneg]
      exact (round_zero (α := ℚ)).symm.le.trans (round_mono (exactTick_nonneg index))
    · cases hschedule
  · rw [hmake, WordArithmetic.makeSchedule_eq WordArithmetic.trapping_exact hpos hle hrate hn hd]
    rfl

/-- The schedule of four events, three in a second of two ticks. -/
theorem schedule_exact_four :
    (makeSchedule 4 3 ⟨2, 1⟩ = none ↔ ∃ index, index < 4 ∧
      (2 ^ 64 ≤ (exactTick 3 ⟨2, 1⟩ index).num ∨ 2 ^ 64 ≤ (exactTick 3 ⟨2, 1⟩ index).den ∨ 2 ^ 64 ≤ round (exactTick 3 ⟨2, 1⟩ index))) ∧
    (∀ schedule, makeSchedule 4 3 ⟨2, 1⟩ = some schedule → schedule.length = 4 ∧
      (∀ index (hi : index < schedule.length), (schedule[index] : ℤ) = round (exactTick 3 ⟨2, 1⟩ index)) ∧ schedule.Pairwise (· ≤ ·) ∧
      ∀ currentIndex elapsedTicks, additionalBacklog schedule currentIndex elapsedTicks =
        (schedule.drop (currentIndex + 1)).countP (· ≤ elapsedTicks)) ∧
    (WordArithmetic.trapping.makeSchedule 4 3 ⟨2, 1⟩).run = some (makeSchedule 4 3 ⟨2, 1⟩) :=
  schedule_exact 4 3 ⟨2, 1⟩ (by decide) (by decide) (by decide) (by decide) (by decide)

example : makeSchedule 4 3 ⟨2, 1⟩ = some [0, 666666667, 1333333333, 2000000000] := by decide +kernel

end MatchingEngine

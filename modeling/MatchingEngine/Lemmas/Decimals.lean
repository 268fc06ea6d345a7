import MatchingEngine.Lemmas.Names
import MatchingEngine.RuntimeConfig

/-!
# Canonical decimals

`parse_integer` and `parse_signed` accept exactly what a number is printed as: its digits, without leading zeros, and a minus before those
of a negative one.
-/

namespace MatchingEngine

/-! ## Digits -/

/-- A digit that is written is read. -/
theorem digitValue_digitChar {digit : Nat} (h : digit < 10) : digitValue digit.digitChar = some digit := by
  have hall : ∀ digit < 10, digitValue digit.digitChar = some digit := by decide
  exact hall digit h

/-- A digit that is read is the one that is written. -/
theorem digitChar_of_digitValue {c : Char} {digit : Nat} (h : digitValue c = some digit) : digit < 10 ∧ digit.digitChar = c := by
  obtain ⟨hc, rfl⟩ := digitValue_eq_some_iff.mp h
  rw [Char.isDigit, Bool.and_eq_true, decide_eq_true_iff, decide_eq_true_iff] at hc
  have hbounds : 48 ≤ c.toNat ∧ c.toNat ≤ 57 := hc
  have hall : ∀ digit < 10, digit.digitChar.toNat = 48 + digit := by decide
  refine ⟨by omega, Char.toNat_inj.mp ?_⟩
  rw [hall _ (by omega)]
  omega

/-- A number that is written is read. -/
theorem parseDecimal_toDigits (n : Nat) : parseDecimal (Nat.toDigits 10 n) = some n := by
  induction n using Nat.strong_induction_on with
  | _ n ih =>
    rw [Nat.toDigits_eq_if (by decide)]
    split
    · rename_i hn
      rw [parseDecimal, List.foldlM_cons, digitValue_digitChar hn, Option.map_some, Nat.zero_mul, Nat.zero_add]
      rfl
    · rename_i hn
      rw [parseDecimal_snoc, ih (n / 10) (by omega), digitValue_digitChar (Nat.mod_lt n (by decide)), Option.bind_some, Option.map_some,
        Nat.div_add_mod']

/-- A number other than zero has no leading zero. -/
theorem head?_toDigits {n : Nat} (hn : 0 < n) : (Nat.toDigits 10 n).head? ≠ some '0' := by
  induction n using Nat.strong_induction_on with
  | _ n ih =>
    rw [Nat.toDigits_eq_if (by decide)]
    split
    · rename_i hlt
      have hall : ∀ digit < 10, 0 < digit → digit.digitChar ≠ '0' := by decide
      rw [List.head?_cons, ne_eq, Option.some_inj]
      exact hall n hlt hn
    · rename_i hge
      rw [List.head?_append_of_ne_nil _ Nat.toDigits_ne_nil]
      exact ih (n / 10) (by omega) (by omega)

/-- Digits without a leading zero are those of the number they denote. By the last digit: the digits before it are not a single zero, so
their number does not vanish. -/
theorem toDigits_of_parseDecimal {digits : List Char} {n : Nat} (hne : digits ≠ []) (hlead : 1 < digits.length → digits.head? ≠ some '0')
    (h : parseDecimal digits = some n) : Nat.toDigits 10 n = digits := by
  induction digits using List.reverseRecOn generalizing n with
  | nil => exact absurd rfl hne
  | append_singleton digits c ih =>
    rw [parseDecimal_snoc, Option.bind_eq_some_iff] at h
    obtain ⟨m, hm, hn⟩ := h
    obtain ⟨digit, hc, rfl⟩ := Option.map_eq_some_iff.mp hn
    obtain ⟨hlt, rfl⟩ := digitChar_of_digitValue hc
    rcases digits.eq_nil_or_concat with rfl | ⟨init, last, rfl⟩
    · obtain rfl : m = 0 := by
        rw [parseDecimal, List.foldlM_nil] at hm
        exact (Option.some.inj hm).symm
      rw [Nat.zero_mul, Nat.zero_add, Nat.toDigits_of_lt_base hlt, List.nil_append]
    · rw [List.concat_eq_append] at *
      have hinit : init ++ [last] ≠ [] := List.append_ne_nil_of_right_ne_nil _ (List.cons_ne_nil _ _)
      have hhead : (init ++ [last]).head? ≠ some '0' := by
        have := hlead (by simp)
        rwa [List.head?_append_of_ne_nil _ hinit] at this
      have hrest := ih hinit (fun _ => hhead) hm
      have hpos : 0 < m := by
        rcases Nat.eq_zero_or_pos m with rfl | hpos
        · rw [← hrest, Nat.toDigits_zero] at hhead
          exact absurd rfl hhead
        · exact hpos
      have hdiv : (m * 10 + digit) / 10 = m := by omega
      have hmod : (m * 10 + digit) % 10 = digit := by omega
      rw [Nat.toDigits_of_base_le (by decide) (by omega), hdiv, hmod, hrest]

/-! ## Numbers -/

/-- What an integer is printed as. -/
def printInt (value : Int) : List Char :=
  if value < 0 then '-' :: Nat.toDigits 10 value.natAbs else Nat.toDigits 10 value.natAbs

/-- `std::from_chars` reads a number up to the maximum, and needs a digit. -/
theorem fromChars_eq_some_iff {maximum n : Nat} {text : List Char} :
    fromChars maximum text = some n ↔ text ≠ [] ∧ parseDecimal text = some n ∧ n ≤ maximum := by
  rw [fromChars]
  by_cases hne : text = []
  · rw [if_pos hne]
    exact iff_of_false nofun fun h => h.1 hne
  · rw [if_neg hne, and_iff_right hne]
    cases parseDecimal text with
    | none => exact iff_of_false nofun fun h => nomatch h.1
    | some m =>
      dsimp only
      rw [Option.some_inj]
      split
      · rename_i hm
        rw [Option.some_inj]
        exact ⟨fun h => ⟨h, h ▸ hm⟩, fun h => h.1⟩
      · rename_i hm
        exact iff_of_false nofun fun h => hm (h.1 ▸ h.2)

/-- A text without a leading zero is read as a number exactly if it is what the number is printed as. -/
theorem fromChars_canonical {maximum n : Nat} {text : List Char} (hlead : ¬(1 < text.length ∧ text.head? = some '0')) :
    fromChars maximum text = some n ↔ text = Nat.toDigits 10 n ∧ n ≤ maximum := by
  rw [fromChars_eq_some_iff]
  constructor
  · rintro ⟨hne, hparse, hle⟩
    exact ⟨(toDigits_of_parseDecimal hne (fun hlen hhead => hlead ⟨hlen, hhead⟩) hparse).symm, hle⟩
  · rintro ⟨rfl, hle⟩
    exact ⟨Nat.toDigits_ne_nil, parseDecimal_toDigits n, hle⟩

/-- A number is written in digits. -/
theorem toDigits_isDigit {n : Nat} {c : Char} (h : c ∈ Nat.toDigits 10 n) : c.isDigit = true :=
  Nat.isDigit_of_mem_toDigits (by decide) (by decide) h

/-- What a number is printed as does not begin with another character than a digit. -/
theorem head?_toDigits_ne {n : Nat} {c : Char} (hc : c.isDigit = false) : (Nat.toDigits 10 n).head? ≠ some c := by
  intro h
  have hdigit := toDigits_isDigit (List.mem_of_head? h)
  rw [hc] at hdigit
  exact absurd hdigit Bool.false_ne_true

theorem toDigits_lead (n : Nat) : ¬(1 < (Nat.toDigits 10 n).length ∧ (Nat.toDigits 10 n).head? = some '0') := by
  rcases Nat.eq_zero_or_pos n with rfl | hn
  · rw [Nat.toDigits_zero]
    exact fun h => absurd h.1 (by decide)
  · exact fun h => head?_toDigits hn h.2

/-- The accepted texts of an integer are those a number is written in. -/
theorem parseInteger_eq_some_iff {n : Nat} {text : List Char} : parseInteger text = some n ↔ text = Nat.toDigits 10 n ∧ n < 2 ^ 64 := by
  rw [parseInteger]
  have hle : n ≤ 2 ^ 64 - 1 ↔ n < 2 ^ 64 := by omega
  by_cases hrefused : text = [] ∨ text.head? = some '+' ∨ text.head? = some '-' ∨ (1 < text.length ∧ text.head? = some '0')
  · rw [if_pos hrefused]
    refine iff_of_false nofun ?_
    rintro ⟨rfl, -⟩
    rcases hrefused with h | h | h | h
    · exact Nat.toDigits_ne_nil h
    · exact head?_toDigits_ne (by decide) h
    · exact head?_toDigits_ne (by decide) h
    · exact toDigits_lead n h
  · rw [if_neg hrefused, fromChars_canonical fun h => hrefused (.inr (.inr (.inr h))), hle]

/-- Without a sign the signed reader is the unsigned one. -/
theorem fromCharsSigned_of_head?_ne {text : List Char} (h : text.head? ≠ some '-') :
    fromCharsSigned text = (fromChars (2 ^ 63 - 1) text).map fun value : Nat => (value : Int) := by
  unfold fromCharsSigned
  split
  · exact absurd rfl h
  · rfl

/-- The numbers with a sign are read as they are printed. Of the digits after a minus, the first must not be a zero. -/
theorem parseSigned_eq_some_iff {value : Int} {text : List Char} :
    parseSigned text = some value ↔ text = printInt value ∧ -2 ^ 63 ≤ value ∧ value ≤ 2 ^ 63 - 1 := by
  rw [parseSigned]
  by_cases hminus : text.head? = some '-'
  · obtain ⟨digits, rfl⟩ : ∃ digits, text = '-' :: digits := by
      cases text with
      | nil => cases hminus
      | cons c digits => exact ⟨digits, by rw [List.head?_cons, Option.some_inj] at hminus; rw [hminus]⟩
    have hlead : ('-' :: digits = [] ∨ ('-' :: digits).head? = some '+' ∨ '-' :: digits = ['-', '0'] ∨
        (1 < ('-' :: digits).length ∧ ('-' :: digits).head? = some '0') ∨ (2 < ('-' :: digits).length ∧ ['-', '0'] <+: '-' :: digits)) ↔
        digits.head? = some '0' := by
      rcases digits with _ | ⟨c, _ | ⟨d, digits⟩⟩
      · simp
      · simp
      · simp [eq_comm]
    by_cases hzero : digits.head? = some '0'
    · rw [if_pos (hlead.mpr hzero)]
      refine iff_of_false nofun fun h => ?_
      rw [printInt] at h
      split at h
      · rw [List.cons.injEq] at h
        rw [h.1.2] at hzero
        exact head?_toDigits (by omega) hzero
      · exact head?_toDigits_ne (by decide) (h.1 ▸ hminus)
    · rw [if_neg fun h => hzero (hlead.mp h), fromCharsSigned, Option.map_eq_some_iff]
      constructor
      · rintro ⟨n, hn, rfl⟩
        obtain ⟨rfl, hle⟩ := (fromChars_canonical fun h => hzero h.2).mp hn
        have hpos : 0 < n := by
          rcases Nat.eq_zero_or_pos n with rfl | hpos
          · exact absurd (by rw [Nat.toDigits_zero]; rfl) hzero
          · exact hpos
        rw [printInt, if_pos (by omega), Int.natAbs_neg, Int.natAbs_natCast]
        exact ⟨rfl, by omega, by omega⟩
      · rintro ⟨htext, hge, -⟩
        rw [printInt] at htext
        split at htext
        · rw [List.cons.injEq] at htext
          exact ⟨value.natAbs, (fromChars_canonical fun h => hzero h.2).mpr ⟨htext.2, by omega⟩, by omega⟩
        · exact absurd (htext ▸ hminus) (head?_toDigits_ne (by decide))
  · have hprint : ∀ digits, text ≠ '-' :: digits := fun digits h => hminus (h ▸ rfl)
    by_cases hrefused : text = [] ∨ text.head? = some '+' ∨ text = ['-', '0'] ∨ (1 < text.length ∧ text.head? = some '0') ∨
        (2 < text.length ∧ ['-', '0'] <+: text)
    · rw [if_pos hrefused]
      refine iff_of_false nofun ?_
      rintro ⟨htext, -⟩
      rw [printInt] at htext
      split at htext
      · exact hprint _ htext
      · rcases hrefused with h | h | h | h | ⟨-, rest, h⟩
        · exact Nat.toDigits_ne_nil (htext ▸ h)
        · exact head?_toDigits_ne (by decide) (htext ▸ h)
        · exact hprint _ h
        · exact toDigits_lead _ (htext ▸ h)
        · exact hprint _ h.symm
    · rw [if_neg hrefused, fromCharsSigned_of_head?_ne hminus, Option.map_eq_some_iff]
      have hlead : ¬(1 < text.length ∧ text.head? = some '0') := fun h => hrefused (.inr (.inr (.inr (.inl h))))
      constructor
      · rintro ⟨n, hn, rfl⟩
        obtain ⟨htext, hle⟩ := (fromChars_canonical hlead).mp hn
        rw [printInt, if_neg (by omega), Int.natAbs_natCast]
        exact ⟨htext, by omega, by omega⟩
      · rintro ⟨htext, -, hle⟩
        rw [printInt] at htext
        split at htext
        · exact absurd htext (hprint _)
        · exact ⟨value.natAbs, (fromChars_canonical hlead).mpr ⟨htext, by omega⟩, by omega⟩

end MatchingEngine

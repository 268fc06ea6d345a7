import MatchingEngine.Lemmas.Segments
import Mathlib.Data.Nat.Digits.Lemmas

/-!
# The names of segments

What is parsed is what is printed: the digits of a name denote a number, the number is printed back as these digits, and names of equal
width are ordered as their numbers. So a name gives a base exactly when it is the one printed for it.
-/

namespace MatchingEngine

/-! ## Printed numbers -/

/-- The number a list of digits denotes. -/
def decimalValue (digits : List Char) : Nat := Nat.ofDigits 10 (digits.reverse.map fun c => c.toNat - 48)

/-- The number of one digit more. -/
theorem decimalValue_snoc (digits : List Char) (c : Char) : decimalValue (digits ++ [c]) = decimalValue digits * 10 + (c.toNat - 48) := by
  rw [decimalValue, List.reverse_append, List.reverse_singleton, List.singleton_append, List.map_cons, Nat.ofDigits_cons, ← decimalValue,
    Nat.add_comm, Nat.mul_comm]

/-- The digits are those of the ASCII table. -/
theorem digitValue_eq_some_iff {c : Char} {k : Nat} : digitValue c = some k ↔ c.isDigit = true ∧ k = c.toNat - 48 := by
  have hdigit : c.isDigit = true ↔ 48 ≤ c.toNat ∧ c.toNat ≤ 57 := by
    rw [Char.isDigit, Bool.and_eq_true, decide_eq_true_iff, decide_eq_true_iff]
    exact Iff.rfl
  rw [hdigit, digitValue]
  split
  · rename_i hc
    rw [Option.some_inj]
    exact ⟨fun h => ⟨hc, h.symm⟩, fun h => h.2.symm⟩
  · rename_i hc
    exact ⟨nofun, fun h => absurd h.1 hc⟩

/-- The parser takes one digit more as its loop does. -/
theorem parseDecimal_snoc (digits : List Char) (c : Char) :
    parseDecimal (digits ++ [c]) = (parseDecimal digits).bind fun n => (digitValue c).map fun digit => n * 10 + digit := by
  rw [parseDecimal, List.foldlM_append, Option.bind_eq_bind, ← parseDecimal]
  refine Option.bind_congr fun n _ => ?_
  rw [List.foldlM_cons]
  exact Option.bind_fun_some _

/-- What is parsed are digits, and the number they denote. -/
theorem parseDecimal_eq_some_iff {digits : List Char} {n : Nat} :
    parseDecimal digits = some n ↔ (∀ c ∈ digits, c.isDigit = true) ∧ n = decimalValue digits := by
  induction digits using List.reverseRecOn generalizing n with
  | nil =>
    rw [parseDecimal, List.foldlM_nil, Option.pure_def, Option.some_inj, eq_comm]
    exact ⟨fun h => ⟨by rintro _ ⟨⟩, h⟩, fun h => h.2⟩
  | append_singleton digits c ih =>
    rw [parseDecimal_snoc, Option.bind_eq_some_iff, decimalValue_snoc]
    constructor
    · rintro ⟨m, hm, hn⟩
      obtain ⟨k, hk, rfl⟩ := Option.map_eq_some_iff.mp hn
      obtain ⟨hdigits, rfl⟩ := ih.mp hm
      obtain ⟨hc, rfl⟩ := digitValue_eq_some_iff.mp hk
      refine ⟨fun c' hc' => ?_, rfl⟩
      rcases List.mem_append.mp hc' with h | h
      · exact hdigits c' h
      · rw [List.mem_singleton.mp h]
        exact hc
    · rintro ⟨hdigits, rfl⟩
      have hc : c.isDigit = true := hdigits c (List.mem_append_right _ (List.mem_singleton_self c))
      exact ⟨_, ih.mpr ⟨fun c' h => hdigits c' (List.mem_append_left _ h), rfl⟩,
        Option.map_eq_some_iff.mpr ⟨_, digitValue_eq_some_iff.mpr ⟨hc, rfl⟩, rfl⟩⟩

/-- What is parsed is printed back. -/
theorem decimal_of_parseDecimal {digits : List Char} {n : Nat} (h : parseDecimal digits = some n) : decimal digits.length n = digits := by
  induction digits using List.reverseRecOn generalizing n with
  | nil => rfl
  | append_singleton digits c ih =>
    rw [parseDecimal_snoc, Option.bind_eq_some_iff] at h
    obtain ⟨m, hm, hn⟩ := h
    obtain ⟨k, hk, rfl⟩ := Option.map_eq_some_iff.mp hn
    obtain ⟨hc, rfl⟩ := digitValue_eq_some_iff.mp hk
    have hbounds : 48 ≤ c.toNat ∧ c.toNat ≤ 57 := by
      rw [Char.isDigit, Bool.and_eq_true, decide_eq_true_iff, decide_eq_true_iff] at hc
      exact hc
    have hdiv : (m * 10 + (c.toNat - 48)) / 10 = m := by omega
    have hmod : 48 + (m * 10 + (c.toNat - 48)) % 10 = c.toNat := by omega
    rw [List.length_append, List.length_singleton, decimal, hdiv, hmod, ih hm, Char.ofNat_toNat]

/-! ## The order of the names -/

/-- Texts with fronts of one length are compared by these first. -/
theorem append_lt_append_iff {xs ys us vs : List Char} (h : xs.length = ys.length) :
    xs ++ us < ys ++ vs ↔ xs < ys ∨ (xs = ys ∧ us < vs) := by
  induction xs generalizing ys with
  | nil =>
    obtain rfl : ys = [] := List.length_eq_zero_iff.mp h.symm
    simp
  | cons x xs ih =>
    cases ys with
    | nil => cases h
    | cons y ys =>
      have hih := ih (Nat.succ.inj h)
      rw [List.cons_append, List.cons_append, List.cons_lt_cons_iff, List.cons_lt_cons_iff, hih, List.cons.injEq]
      tauto

/-- The digits are ordered as their values are. -/
theorem ofNat_lt_ofNat {j k : Nat} (hj : j < 10) (hk : k < 10) : Char.ofNat (48 + j) < Char.ofNat (48 + k) ↔ j < k := by
  have hall : ∀ j < 10, ∀ k < 10, Char.ofNat (48 + j) < Char.ofNat (48 + k) ↔ j < k := by decide
  exact hall j hj k hk

/-- A fixed width tells the numbers apart. -/
theorem decimal_inj {width m n : Nat} (hm : m < 10 ^ width) (hn : n < 10 ^ width) (h : decimal width m = decimal width n) : m = n := by
  have hparsed := parseDecimal_decimal width m
  rw [h, parseDecimal_decimal, Nat.mod_eq_of_lt hm, Nat.mod_eq_of_lt hn, Option.some_inj] at hparsed
  exact hparsed.symm

/-- In a fixed width the texts are ordered as the numbers are. -/
theorem decimal_lt_iff {width m n : Nat} (hm : m < 10 ^ width) (hn : n < 10 ^ width) : decimal width m < decimal width n ↔ m < n := by
  induction width generalizing m n with
  | zero =>
    rw [pow_zero] at hm hn
    rw [decimal, decimal]
    exact ⟨fun h => absurd h (List.lt_irrefl []), fun h => by omega⟩
  | succ width ih =>
    rw [pow_succ] at hm hn
    have hdivm : m / 10 < 10 ^ width := Nat.div_lt_of_lt_mul (by rwa [Nat.mul_comm])
    have hdivn : n / 10 < 10 ^ width := Nat.div_lt_of_lt_mul (by rwa [Nat.mul_comm])
    have hdigits : [Char.ofNat (48 + m % 10)] < [Char.ofNat (48 + n % 10)] ↔ m % 10 < n % 10 := by
      rw [List.cons_lt_cons_iff, ofNat_lt_ofNat (Nat.mod_lt _ (by decide)) (Nat.mod_lt _ (by decide))]
      exact or_iff_left fun h => List.lt_irrefl [] h.2
    have hprefix : decimal width (m / 10) = decimal width (n / 10) ↔ m / 10 = n / 10 :=
      ⟨decimal_inj hdivm hdivn, congrArg _⟩
    rw [decimal, decimal, append_lt_append_iff (by rw [length_decimal, length_decimal]), ih hdivm hdivn, hdigits, hprefix]
    omega

/-- Every base fits the twenty digits of a segment name. -/
theorem base_lt_ten_pow (base : UInt64) : base.toNat < 10 ^ 20 := Nat.lt_of_lt_of_le base.toNat_lt (by decide)

/-- The names of segments are ordered as their bases. -/
theorem segmentName_lt_iff (stem : PathPrefix) (b c : UInt64) : segmentName stem b < segmentName stem c ↔ b < c := by
  have hlengths : (decimal 20 b.toNat).length = (decimal 20 c.toNat).length := by rw [length_decimal, length_decimal]
  rw [segmentName, segmentName, List.append_assoc, List.append_assoc, append_lt_append_iff rfl,
    or_iff_right (List.lt_irrefl _), and_iff_right rfl, List.cons_append, List.cons_append, List.cons_lt_cons_iff,
    or_iff_right (Char.lt_irrefl _), and_iff_right rfl, append_lt_append_iff hlengths, or_iff_left (fun h => List.lt_irrefl _ h.2),
    decimal_lt_iff (base_lt_ten_pow b) (base_lt_ten_pow c), UInt64.lt_iff_toNat_lt]

/-! ## What a name says -/

/-- A name starts and ends as the names of the segments do. -/
def Claimed (stem : PathPrefix) (name : Path) : Prop := stem.name ++ ['.'] <+: name ∧ segmentSuffix <:+ name

/-- A name is the start, twenty digits that denote a base, and the end. -/
def NamesBase (stem : PathPrefix) (name : Path) (base : UInt64) : Prop :=
  ∃ digits : List Char, digits.length = 20 ∧ (∀ c ∈ digits, c.isDigit = true) ∧ name = stem.name ++ '.' :: digits ++ segmentSuffix ∧
    decimalValue digits = base.toNat ∧ base ≠ 0

/-- The names with a base are those the writer makes. -/
theorem namesBase_iff {stem : PathPrefix} {name : Path} {base : UInt64} : NamesBase stem name base ↔ base ≠ 0 ∧ name = segmentName stem base := by
  constructor
  · rintro ⟨digits, hlength, hdigits, rfl, hvalue, hbase⟩
    have hprinted := decimal_of_parseDecimal (parseDecimal_eq_some_iff.mpr ⟨hdigits, hvalue.symm⟩)
    rw [hlength] at hprinted
    exact ⟨hbase, by rw [segmentName, hprinted]⟩
  · rintro ⟨hbase, rfl⟩
    have hparsed := parseDecimal_decimal 20 base.toNat
    rw [Nat.mod_eq_of_lt (base_lt_ten_pow base)] at hparsed
    obtain ⟨hdigits, hvalue⟩ := parseDecimal_eq_some_iff.mp hparsed
    exact ⟨_, length_decimal 20 _, hdigits, rfl, hvalue.symm, hbase⟩

theorem NamesBase.unique {stem : PathPrefix} {name : Path} {base base' : UInt64} (h : NamesBase stem name base)
    (h' : NamesBase stem name base') : base = base' := by
  obtain ⟨hbase, rfl⟩ := namesBase_iff.mp h
  obtain ⟨hbase', hname⟩ := namesBase_iff.mp h'
  exact segmentName_inj hbase hbase' hname

/-- A name with a base is of the prefix. -/
theorem NamesBase.claimed {stem : PathPrefix} {name : Path} {base : UInt64} (h : NamesBase stem name base) : Claimed stem name := by
  obtain ⟨digits, -, -, rfl, -, -⟩ := h
  exact ⟨⟨digits ++ segmentSuffix, by simp⟩, ⟨stem.name ++ '.' :: digits, rfl⟩⟩

/-- A name is passed over exactly if it is not of the prefix. -/
theorem segmentBase_eq_none_iff {stem : PathPrefix} {name : Path} : segmentBase stem name = none ↔ ¬Claimed stem name := by
  unfold segmentBase Claimed
  rw [← List.isPrefixOf_iff_prefix, ← List.isSuffixOf_iff_suffix]
  split
  · rename_i h
    rw [Bool.or_eq_true, Bool.not_eq_true', Bool.not_eq_true'] at h
    refine iff_of_true rfl ?_
    rintro ⟨hstart, hend⟩
    rcases h with h | h
    · rw [hstart] at h
      cases h
    · rw [hend] at h
      cases h
  · rename_i h
    rw [Bool.or_eq_true, Bool.not_eq_true', Bool.not_eq_true', not_or, Bool.not_eq_false, Bool.not_eq_false] at h
    refine iff_of_false ?_ (not_not.mpr h)
    dsimp only
    split
    · exact nofun
    · split <;> exact nofun

/-- A name is refused for one reason. -/
theorem segmentBase_error {stem : PathPrefix} {name : Path} {error : JournalSetError} (h : segmentBase stem name = some (.error error)) :
    error = .malformedSegmentName := by
  unfold segmentBase at h
  split at h
  · cases h
  dsimp only at h
  split at h
  · cases h
    rfl
  split at h
  · cases h
    rfl
  · split at h
    · cases h
      rfl
    · cases h

/-- Start, middle and end of a name whose length leaves the middle twenty characters. -/
theorem Claimed.split {stem : PathPrefix} {name : Path} (h : Claimed stem name)
    (hlength : name.length - (stem.name.length + 1) - segmentSuffix.length = 20) :
    ((name.drop (stem.name.length + 1)).take 20).length = 20 ∧
      name = stem.name ++ '.' :: (name.drop (stem.name.length + 1)).take 20 ++ segmentSuffix := by
  obtain ⟨⟨rest, rfl⟩, hend⟩ := h
  have hrest : rest.length = 20 + segmentSuffix.length := by
    rw [List.length_append, List.length_append, List.length_singleton] at hlength
    omega
  obtain ⟨middle, rfl⟩ : segmentSuffix <:+ rest :=
    List.suffix_of_suffix_length_le hend (List.suffix_append _ _) (by rw [hrest]; exact Nat.le_add_left _ _)
  have hmiddle : middle.length = 20 := by
    rw [List.length_append] at hrest
    exact Nat.add_right_cancel hrest
  rw [List.drop_left' (by rw [List.length_append, List.length_singleton]), List.take_left' hmiddle]
  exact ⟨hmiddle, by simp⟩

/-- The base a name gives is the one it names. -/
theorem segmentBase_eq_ok_iff {stem : PathPrefix} {name : Path} {base : UInt64} :
    segmentBase stem name = some (.ok base) ↔ NamesBase stem name base := by
  constructor
  · intro h
    have hclaimed : Claimed stem name := by
      by_contra hnot
      rw [segmentBase_eq_none_iff.mpr hnot] at h
      cases h
    unfold segmentBase at h
    split at h
    · cases h
    dsimp only at h
    split at h
    · cases h
    rename_i hlength
    rw [ne_eq, not_not] at hlength
    rw [hlength] at h
    split at h
    · cases h
    rename_i n hparsed
    split at h
    · cases h
    rename_i hrange
    cases h
    obtain ⟨hdigits, rfl⟩ := parseDecimal_eq_some_iff.mp hparsed
    obtain ⟨htwenty, hname⟩ := hclaimed.split hlength
    have htoNat := UInt64.toNat_ofNat_of_lt' (show _ < UInt64.size from Nat.lt_of_not_le fun h => hrange (.inr h))
    refine ⟨_, htwenty, hdigits, hname, htoNat.symm, fun hzero => hrange (.inl ?_)⟩
    rw [hzero] at htoNat
    exact htoNat.symm
  · intro h
    obtain ⟨hbase, rfl⟩ := namesBase_iff.mp h
    exact segmentBase_segmentName stem hbase

end MatchingEngine

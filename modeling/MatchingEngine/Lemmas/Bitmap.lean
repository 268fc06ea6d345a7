import MatchingEngine.Bitmap

/-!
# The bitmap is a set of indices

`Holds bm n P`: the bitmap has the layout of `n` bits, its summaries say which words are not zero, no padding bit is set, and
its base bits are those of the predicate `P`. `set` and `clear` keep this with the index added or taken out, and the searches
find the least and the greatest index of `P` from a given place.
-/

namespace MatchingEngine

open Function

namespace BitmapAux

/-- A word is not zero exactly when it has a bit. -/
theorem ne_zero_iff (w : BitVec 64) : w ≠ 0#64 ↔ ∃ j, j < 64 ∧ w.getLsbD j = true := by
  constructor
  · intro h
    by_contra hn
    refine h (BitVec.eq_of_getLsbD_eq fun i hi => ?_)
    rw [BitVec.getLsbD_zero]
    by_contra hb
    exact hn ⟨i, hi, by simpa using hb⟩
  · rintro ⟨j, _, hj⟩ rfl
    simp at hj

theorem bit64_getLsbD {k : Nat} (hk : k < 64) (j : Nat) : (bit64 k).getLsbD j = decide (k = j) := by
  simp [bit64, BitVec.getLsbD_twoPow, hk]

/-- Testing one bit of a word with a mask. -/
theorem and_bit64_ne_zero (w : BitVec 64) {k : Nat} (hk : k < 64) : w &&& bit64 k ≠ 0#64 ↔ w.getLsbD k = true := by
  rw [ne_zero_iff]
  constructor
  · rintro ⟨j, _, h⟩
    rw [BitVec.getLsbD_and, bit64_getLsbD hk, Bool.and_eq_true, decide_eq_true_eq] at h
    rw [h.2]
    exact h.1
  · intro h
    exact ⟨k, hk, by simp [h, bit64_getLsbD hk]⟩

/-- The trailing zeros end at the lowest bit. -/
theorem countrZero_spec {w : BitVec 64} (h : w ≠ 0#64) :
    countrZero w < 64 ∧ w.getLsbD (countrZero w) = true ∧ ∀ j, j < countrZero w → w.getLsbD j = false := by
  obtain ⟨j, hj, hw⟩ := (ne_zero_iff w).mp h
  unfold countrZero
  cases hf : (List.range 64).find? fun i => w.getLsbD i with
  | none =>
    have := List.find?_range_eq_none.mp hf j hj
    simp [hw] at this
  | some i =>
    obtain ⟨h1, h2, h3⟩ := List.find?_range_eq_some.mp hf
    exact ⟨List.mem_range.mp h2, h1, fun j hj => by simpa using h3 j hj⟩

/-- The leading zeros end at the highest bit. -/
theorem countlZero_spec {w : BitVec 64} (h : w ≠ 0#64) :
    countlZero w < 64 ∧ w.getLsbD (63 - countlZero w) = true ∧ ∀ j, 63 - countlZero w < j → w.getLsbD j = false := by
  obtain ⟨j, hj, hw⟩ := (ne_zero_iff w).mp h
  unfold countlZero
  cases hf : (List.range 64).find? fun i => w.getLsbD (63 - i) with
  | none =>
    have := List.find?_range_eq_none.mp hf (63 - j) (by omega)
    rw [show 63 - (63 - j) = j by omega, hw] at this
    cases this
  | some i =>
    obtain ⟨h1, h2, h3⟩ := List.find?_range_eq_some.mp hf
    have hi : i < 64 := List.mem_range.mp h2
    refine ⟨hi, h1, fun j hj => ?_⟩
    rw [Option.getD_some] at hj
    by_cases hj64 : j < 64
    · have := h3 (63 - j) (by omega)
      rw [show 63 - (63 - j) = j by omega] at this
      simpa using this
    · exact BitVec.getLsbD_of_ge _ _ (by omega)

/-- The mask of the bits from `k` on. -/
theorem getLsbD_highMask {k j : Nat} (hj : j < 64) : (BitVec.allOnes 64 <<< k).getLsbD j = decide (k ≤ j) := by
  simp only [BitVec.getLsbD_shiftLeft, BitVec.getLsbD_allOnes, hj, decide_true, Bool.true_and]
  by_cases h : k ≤ j
  · simp [h, show j - k < 64 by omega]
  · simp [h, show j < k by omega]

/-- The mask of the bits up to `k`. -/
theorem getLsbD_lowMask {k j : Nat} (hk : k < 64) (hj : j < 64) :
    (if k = kWordBits - 1 then BitVec.allOnes 64 else bit64 (k + 1) - 1#64).getLsbD j = decide (j ≤ k) := by
  by_cases h : k = kWordBits - 1
  · have : k = 63 := h
    rw [if_pos h, BitVec.getLsbD_allOnes]
    simp [hj, show j ≤ k by omega]
  · rw [if_neg h]
    have hk' : k ≠ 63 := h
    have hpow : 2 ^ (k + 1) < 2 ^ 64 := Nat.pow_lt_pow_right (by decide) (by omega)
    have hpos : 0 < 2 ^ (k + 1) := Nat.two_pow_pos _
    have : (bit64 (k + 1) - 1#64).toNat = 2 ^ (k + 1) - 1 := by
      rw [BitVec.toNat_sub, bit64, BitVec.toNat_twoPow, Nat.mod_eq_of_lt hpow]
      simp only [BitVec.toNat_ofNat, Nat.reducePow, Nat.reduceMod] at hpow ⊢
      omega
    rw [← BitVec.testBit_toNat, this, Nat.testBit_two_pow_sub_one]
    simp only [Nat.lt_succ_iff]

end BitmapAux

open BitmapAux

namespace HierarchicalBitmap

/-- The number of bits a level represents. -/
def levelBits (bm : HierarchicalBitmap) (l : Nat) : Nat := if l = 0 then bm.bitCount else bm.wordCounts (l - 1)

/-- One bit of a level. -/
def bitAt (bm : HierarchicalBitmap) (l j : Nat) : Bool := (bm.word l (j / 64)).getLsbD (j % 64)

/-- The layout of a bitmap: what `make_layout` computes. -/
structure Shape (bm : HierarchicalBitmap) : Prop where
  bits_pos : 0 < bm.bitCount
  bits_lt : bm.bitCount < 2 ^ 32
  levels_pos : 0 < bm.levelCount
  levels_le : bm.levelCount ≤ 6
  count : ∀ l, l < bm.levelCount → bm.wordCounts l = (bm.levelBits l + 63) / 64
  top : ∀ l, l < bm.levelCount → (bm.wordCounts l = 1 ↔ l + 1 = bm.levelCount)
  off_zero : bm.offsets 0 = 0
  off_succ : ∀ l, l + 1 < bm.levelCount → bm.offsets (l + 1) = bm.offsets l + bm.wordCounts l
  total : bm.totalWords = bm.offsets (bm.levelCount - 1) + 1

/-- The bitmap's bits hang together, except perhaps the summary bit `c` of level `level`. -/
structure BitsBut (bm : HierarchicalBitmap) (level c : Nat) : Prop where
  padding : ∀ l, l < bm.levelCount → ∀ j, bm.levelBits l ≤ j → j / 64 < bm.wordCounts l → bm.bitAt l j = false
  summary : ∀ l, l + 1 < bm.levelCount → ∀ w, w < bm.wordCounts l →
    (l + 1 = level ∧ w = c) ∨ (bm.bitAt (l + 1) w = true ↔ bm.word l w ≠ 0#64)

/-- Every summary bit says whether its word is zero, and no padding bit is set. -/
structure Consistent (bm : HierarchicalBitmap) : Prop where
  padding : ∀ l, l < bm.levelCount → ∀ j, bm.levelBits l ≤ j → j / 64 < bm.wordCounts l → bm.bitAt l j = false
  summary : ∀ l, l + 1 < bm.levelCount → ∀ w, w < bm.wordCounts l → (bm.bitAt (l + 1) w = true ↔ bm.word l w ≠ 0#64)

section Layout

variable {bm : HierarchicalBitmap}

/-- Two bitmaps of one layout. -/
def SameLayout (bm bm' : HierarchicalBitmap) : Prop :=
  bm'.bitCount = bm.bitCount ∧ bm'.offsets = bm.offsets ∧ bm'.wordCounts = bm.wordCounts ∧
    bm'.levelCount = bm.levelCount ∧ bm'.totalWords = bm.totalWords

theorem SameLayout.refl (bm : HierarchicalBitmap) : SameLayout bm bm := ⟨rfl, rfl, rfl, rfl, rfl⟩

theorem SameLayout.trans {bm bm' bm'' : HierarchicalBitmap} (h : SameLayout bm bm') (h' : SameLayout bm' bm'') :
    SameLayout bm bm'' :=
  ⟨h'.1.trans h.1, h'.2.1.trans h.2.1, h'.2.2.1.trans h.2.2.1, h'.2.2.2.1.trans h.2.2.2.1,
    h'.2.2.2.2.trans h.2.2.2.2⟩

/-- A word that is written leaves the layout. -/
theorem sameLayout_setWord (bm : HierarchicalBitmap) (l w : Nat) (v : BitVec 64) : SameLayout bm (bm.setWord l w v) :=
  ⟨rfl, rfl, rfl, rfl, rfl⟩

/-- The shape is in the layout. -/
theorem Shape.of_same {bm bm' : HierarchicalBitmap} (h : Shape bm) (hs : SameLayout bm bm') : Shape bm' := by
  obtain ⟨h1, h2, h3, h4, h5⟩ := hs
  have hl : ∀ l, bm'.levelBits l = bm.levelBits l := fun l => by simp only [levelBits, h1, h3]
  exact ⟨by rw [h1]; exact h.bits_pos, by rw [h1]; exact h.bits_lt, by rw [h4]; exact h.levels_pos,
    by rw [h4]; exact h.levels_le, by rw [h4, h3]; exact fun l hb => by rw [hl]; exact h.count l hb,
    by rw [h4, h3]; exact h.top, by rw [h2]; exact h.off_zero, by rw [h4, h2, h3]; exact h.off_succ,
    by rw [h5, h4, h2]; exact h.total⟩

theorem Shape.levelBits_pos (h : Shape bm) {l : Nat} (hl : l < bm.levelCount) : 0 < bm.levelBits l := by
  cases l with
  | zero => exact h.bits_pos
  | succ l =>
    induction l with
    | zero =>
      have := h.count 0 (by omega)
      have hb := h.bits_pos
      simp only [levelBits, Nat.add_one_ne_zero, if_false, Nat.add_sub_cancel, if_pos] at this ⊢
      omega
    | succ l ih =>
      have := h.count (l + 1) (by omega)
      have hb := ih (by omega)
      simp only [levelBits, Nat.add_one_ne_zero, if_false, Nat.add_sub_cancel] at this hb ⊢
      omega

theorem Shape.wordCounts_pos (h : Shape bm) {l : Nat} (hl : l < bm.levelCount) : 0 < bm.wordCounts l := by
  have := h.count l hl
  have := h.levelBits_pos hl
  omega

/-- The words of a level lie below those of the next. -/
theorem Shape.off_le (h : Shape bm) {l m : Nat} (hlm : l < m) (hm : m < bm.levelCount) :
    bm.offsets l + bm.wordCounts l ≤ bm.offsets m := by
  induction m with
  | zero => omega
  | succ m ih =>
    have hs := h.off_succ m hm
    rcases Nat.lt_or_ge l m with hl | hl
    · have := ih hl (by omega)
      omega
    · have : l = m := by omega
      subst this
      omega

/-- Each word of each level has its own place in the array. -/
theorem Shape.place_inj (h : Shape bm) {l l' w w' : Nat} (hl : l < bm.levelCount) (hl' : l' < bm.levelCount)
    (hw : w < bm.wordCounts l) (hw' : w' < bm.wordCounts l') (e : bm.offsets l + w = bm.offsets l' + w') :
    l = l' ∧ w = w' := by
  rcases Nat.lt_trichotomy l l' with hlt | rfl | hlt
  · have := h.off_le hlt hl'
    omega
  · exact ⟨rfl, by omega⟩
  · have := h.off_le hlt hl
    omega

/-- Every word of every level is inside the array. -/
theorem Shape.place_lt (h : Shape bm) {l w : Nat} (hl : l < bm.levelCount) (hw : w < bm.wordCounts l) :
    bm.offsets l + w < bm.totalWords := by
  have ht := h.total
  have hp := h.levels_pos
  have htop := (h.top (bm.levelCount - 1) (by omega)).mpr (by omega)
  rcases Nat.lt_or_ge l (bm.levelCount - 1) with hlt | hge
  · have := h.off_le hlt (by omega)
    omega
  · have : l = bm.levelCount - 1 := by omega
    subst this
    omega

/-- The words once one is written. -/
theorem word_setWord (h : Shape bm) {l l' w w' : Nat} (hl : l < bm.levelCount) (hl' : l' < bm.levelCount)
    (hw : w < bm.wordCounts l) (hw' : w' < bm.wordCounts l') (v : BitVec 64) :
    (bm.setWord l w v).word l' w' = if l' = l ∧ w' = w then v else bm.word l' w' := by
  simp only [word, setWord, update_apply]
  by_cases he : bm.offsets l' + w' = bm.offsets l + w
  · obtain ⟨rfl, rfl⟩ := h.place_inj hl' hl hw' hw he
    simp
  · rw [if_neg he, if_neg]
    rintro ⟨rfl, rfl⟩
    exact he rfl

/-- A word of a level is in bounds. -/
theorem Shape.checkedWord_eq (h : Shape bm) {l w : Nat} (hl : l < bm.levelCount) (hw : w < bm.wordCounts l) :
    bm.checkedWord l w = some (bm.word l w) := by
  have h1 := h.place_lt hl hw
  have h2 := h.levels_le
  unfold checkedWord
  rw [if_neg]
  simp only [kMaximumLevels, not_or]
  omega

/-- The bits of a level are counted. -/
theorem Shape.levelBitCount_eq (h : Shape bm) {l : Nat} (hl : l < bm.levelCount) :
    bm.levelBitCount l = bm.levelBits l := by
  have h2 := h.levels_le
  unfold levelBitCount levelBits
  rw [if_neg]
  simp only [kMaximumLevels, not_or]
  omega

/-- A bit of a level is in one of its words. -/
theorem Shape.div_lt (h : Shape bm) {l j : Nat} (hl : l < bm.levelCount) (hj : j < bm.levelBits l) :
    j / 64 < bm.wordCounts l := by
  have := h.count l hl
  omega

/-- A level has a bit for each word below. -/
theorem levelBits_succ (bm : HierarchicalBitmap) (l : Nat) : bm.levelBits (l + 1) = bm.wordCounts l := by
  simp [levelBits]

end Layout

/-! ## Setting and clearing -/

section Update

variable {bm : HierarchicalBitmap}

/-- A word of one level is stored: one bit of it, the summary of the word below, gets its right value, and the others stay. What
may be wrong moves to the summary of the stored word. -/
theorem BitsBut.store (hs : Shape bm) {level c : Nat} (h : BitsBut bm (level + 1) c) (hl : level + 1 < bm.levelCount)
    (hc : c < bm.wordCounts level) (v : BitVec 64)
    (hv : ∀ j, j < 64 → v.getLsbD j =
      if j = c % 64 then decide (bm.word level c ≠ 0#64) else (bm.word (level + 1) (c / 64)).getLsbD j) :
    BitsBut (bm.setWord (level + 1) (c / 64) v) (level + 2) (c / 64) := by
  have hcb : c < bm.levelBits (level + 1) := by rw [levelBits_succ]; exact hc
  have hw : c / 64 < bm.wordCounts (level + 1) := hs.div_lt hl hcb
  have hword : ∀ l w, l < bm.levelCount → w < bm.wordCounts l →
      (bm.setWord (level + 1) (c / 64) v).word l w = if l = level + 1 ∧ w = c / 64 then v else bm.word l w :=
    fun l w hl' hw' => word_setWord hs hl hl' hw hw' v
  have hbit : ∀ l j, l < bm.levelCount → j / 64 < bm.wordCounts l →
      (bm.setWord (level + 1) (c / 64) v).bitAt l j =
        if l = level + 1 ∧ j = c then decide (bm.word level c ≠ 0#64) else bm.bitAt l j := by
    intro l j hl' hj
    simp only [bitAt, hword l (j / 64) hl' hj]
    by_cases hlc : l = level + 1 ∧ j / 64 = c / 64
    · obtain ⟨rfl, hdiv⟩ := hlc
      rw [if_pos ⟨rfl, hdiv⟩, hv _ (Nat.mod_lt _ (by decide)), hdiv]
      by_cases hjc : j = c
      · simp [hjc]
      · rw [if_neg (by omega), if_neg (by simp [hjc])]
    · rw [if_neg hlc, if_neg]
      rintro ⟨rfl, rfl⟩
      exact hlc ⟨rfl, rfl⟩
  constructor
  · intro l hl' j hj hjw
    rw [hbit l j hl' hjw, if_neg, h.padding l hl' j hj hjw]
    rintro ⟨rfl, rfl⟩
    exact absurd hcb (Nat.not_lt.mpr hj)
  · intro l hl' w hw'
    have hl1 : l < bm.levelCount := Nat.lt_of_succ_lt hl'
    have hwd : w / 64 < bm.wordCounts (l + 1) := hs.div_lt hl' (by rw [levelBits_succ]; exact hw')
    by_cases hex : l + 1 = level + 2 ∧ w = c / 64
    · exact Or.inl hex
    · right
      rw [hbit (l + 1) w hl' hwd, hword l w hl1 hw']
      by_cases hlc : l + 1 = level + 1 ∧ w = c
      · obtain ⟨he, rfl⟩ := hlc
        obtain rfl : l = level := by omega
        rw [if_pos ⟨rfl, rfl⟩, if_neg (by omega)]
        simp
      · rw [if_neg hlc, if_neg (by omega)]
        rcases h.summary l hl' w hw' with h' | h'
        · exact absurd h' hlc
        · exact h'

/-- Nothing is wrong when the one bit in doubt is right, or is above the top level. -/
theorem BitsBut.consistent {level c : Nat} (h : BitsBut bm (level + 1) c)
    (hb : level + 1 < bm.levelCount → c < bm.wordCounts level →
      (bm.bitAt (level + 1) c = true ↔ bm.word level c ≠ 0#64)) : Consistent bm where
  padding := h.padding
  summary l hl w hw := by
    rcases h.summary l hl w hw with ⟨he, rfl⟩ | h'
    · obtain rfl : l = level := by omega
      exact hb hl hw
    · exact h'

/-- The loop over the summaries after a bit was set: it leaves the bitmap consistent and the base words alone. Where a word was not empty
before, its summary bit is set already, and the loop ends. -/
theorem setSummaries_spec : ∀ (k : Nat) (bm : HierarchicalBitmap) (level c : Nat), Shape bm →
    BitsBut bm (level + 1) c → c < bm.wordCounts level → level < bm.levelCount → bm.levelCount ≤ level + 1 + k →
    bm.word level c ≠ 0#64 →
    Consistent (setSummaries k bm (level + 1) c) ∧ SameLayout bm (setSummaries k bm (level + 1) c) ∧
      ∀ w, w < bm.wordCounts 0 → (setSummaries k bm (level + 1) c).word 0 w = bm.word 0 w := by
  intro k
  induction k with
  | zero =>
    intro bm level c hs h hc hl hk hw
    exact ⟨h.consistent (fun hlt => by omega), SameLayout.refl bm, fun _ _ => rfl⟩
  | succ k ih =>
    intro bm level c hs h hc hl hk hw
    unfold setSummaries
    split
    · rename_i hlt
      simp only [kWordBits]
      have hcw : c / 64 < bm.wordCounts (level + 1) := hs.div_lt hlt (by rw [levelBits_succ]; exact hc)
      have hm : c % 64 < 64 := Nat.mod_lt _ (by decide)
      set S := bm.word (level + 1) (c / 64)
      have hv : ∀ j, j < 64 → (S ||| bit64 (c % 64)).getLsbD j =
          if j = c % 64 then decide (bm.word level c ≠ 0#64) else S.getLsbD j := by
        intro j hj
        rw [BitVec.getLsbD_or, bit64_getLsbD hm]
        by_cases hjc : j = c % 64
        · simp [hjc, hw]
        · simp [hjc, Ne.symm hjc]
      have hstep := h.store hs hlt hc (S ||| bit64 (c % 64)) hv
      have hs' := hs.of_same (sameLayout_setWord bm (level + 1) (c / 64) (S ||| bit64 (c % 64)))
      have hne : (bm.setWord (level + 1) (c / 64) (S ||| bit64 (c % 64))).word (level + 1) (c / 64) ≠ 0#64 := by
        rw [word_setWord hs hlt hlt hcw hcw, if_pos ⟨rfl, rfl⟩, ne_zero_iff]
        exact ⟨c % 64, hm, by simp [bit64_getLsbD hm]⟩
      have h0 : ∀ w, w < bm.wordCounts 0 →
          (bm.setWord (level + 1) (c / 64) (S ||| bit64 (c % 64))).word 0 w = bm.word 0 w := fun w hw' => by
        rw [word_setWord hs hlt hs.levels_pos hcw hw', if_neg (by omega)]
      by_cases hSne : S ≠ 0#64
      · simp only [if_pos hSne]
        refine ⟨hstep.consistent (fun hl2 hcw' => ?_), sameLayout_setWord _ _ _ _, h0⟩
        have hold := (h.summary (level + 1) hl2 (c / 64) hcw).resolve_left (by omega)
        have hcw2 : c / 64 / 64 < bm.wordCounts (level + 2) := hs.div_lt hl2 (by rw [levelBits_succ]; exact hcw)
        refine iff_of_true ?_ hne
        simp only [bitAt]
        rw [word_setWord hs hlt hl2 hcw hcw2, if_neg (by omega)]
        exact hold.mpr hSne
      · simp only [if_neg hSne]
        obtain ⟨i1, i2, i3⟩ := ih _ (level + 1) (c / 64) hs' hstep hcw hlt (by simp only [setWord]; omega) hne
        exact ⟨i1, (sameLayout_setWord _ _ _ _).trans i2, fun w hw' => (i3 w hw').trans (h0 w hw')⟩
    · rename_i hge
      exact ⟨h.consistent (fun hlt => absurd hlt hge), SameLayout.refl bm, fun _ _ => rfl⟩

/-- The loop over the summaries after a bit was cleared: it leaves the bitmap consistent and the base words alone. A word that stays
nonempty was so before, so its summary bit stays set, and the loop ends. -/
theorem clearSummaries_spec : ∀ (k : Nat) (bm : HierarchicalBitmap) (level c : Nat), Shape bm →
    BitsBut bm (level + 1) c → c < bm.wordCounts level → level < bm.levelCount → bm.levelCount ≤ level + 1 + k →
    bm.word level c = 0#64 →
    Consistent (clearSummaries k bm (level + 1) c) ∧ SameLayout bm (clearSummaries k bm (level + 1) c) ∧
      ∀ w, w < bm.wordCounts 0 → (clearSummaries k bm (level + 1) c).word 0 w = bm.word 0 w := by
  intro k
  induction k with
  | zero =>
    intro bm level c hs h hc hl hk hw
    exact ⟨h.consistent (fun hlt => by omega), SameLayout.refl bm, fun _ _ => rfl⟩
  | succ k ih =>
    intro bm level c hs h hc hl hk hw
    unfold clearSummaries
    split
    · rename_i hlt
      simp only [kWordBits]
      have hcw : c / 64 < bm.wordCounts (level + 1) := hs.div_lt hlt (by rw [levelBits_succ]; exact hc)
      have hm : c % 64 < 64 := Nat.mod_lt _ (by decide)
      set S := bm.word (level + 1) (c / 64)
      have hv : ∀ j, j < 64 → (S &&& ~~~bit64 (c % 64)).getLsbD j =
          if j = c % 64 then decide (bm.word level c ≠ 0#64) else S.getLsbD j := by
        intro j hj
        rw [BitVec.getLsbD_and, BitVec.getLsbD_not, bit64_getLsbD hm]
        by_cases hjc : j = c % 64
        · simp [hjc, hw]
        · simp [hjc, Ne.symm hjc, hj]
      have hstep := h.store hs hlt hc (S &&& ~~~bit64 (c % 64)) hv
      have hs' := hs.of_same (sameLayout_setWord bm (level + 1) (c / 64) (S &&& ~~~bit64 (c % 64)))
      have hnew : (bm.setWord (level + 1) (c / 64) (S &&& ~~~bit64 (c % 64))).word (level + 1) (c / 64) =
          S &&& ~~~bit64 (c % 64) := by
        rw [word_setWord hs hlt hlt hcw hcw, if_pos ⟨rfl, rfl⟩]
      have h0 : ∀ w, w < bm.wordCounts 0 →
          (bm.setWord (level + 1) (c / 64) (S &&& ~~~bit64 (c % 64))).word 0 w = bm.word 0 w := fun w hw' => by
        rw [word_setWord hs hlt hs.levels_pos hcw hw', if_neg (by omega)]
      by_cases hSne : S &&& ~~~bit64 (c % 64) ≠ 0#64
      · simp only [if_pos hSne]
        refine ⟨hstep.consistent (fun hl2 hcw' => ?_), sameLayout_setWord _ _ _ _, h0⟩
        have hold := (h.summary (level + 1) hl2 (c / 64) hcw).resolve_left (by omega)
        have hcw2 : c / 64 / 64 < bm.wordCounts (level + 2) := hs.div_lt hl2 (by rw [levelBits_succ]; exact hcw)
        refine iff_of_true ?_ (by rw [hnew]; exact hSne)
        simp only [bitAt]
        rw [word_setWord hs hlt hl2 hcw hcw2, if_neg (by omega)]
        refine hold.mpr ?_
        obtain ⟨j, hj, hb⟩ := (ne_zero_iff _).mp hSne
        rw [BitVec.getLsbD_and, Bool.and_eq_true] at hb
        exact (ne_zero_iff _).mpr ⟨j, hj, hb.1⟩
      · simp only [if_neg hSne]
        obtain ⟨i1, i2, i3⟩ := ih _ (level + 1) (c / 64) hs' hstep hcw hlt (by simp only [setWord]; omega)
          (by rw [hnew]; exact not_not.mp hSne)
        exact ⟨i1, (sameLayout_setWord _ _ _ _).trans i2, fun w hw' => (i3 w hw').trans (h0 w hw')⟩
    · rename_i hge
      exact ⟨h.consistent (fun hlt => absurd hlt hge), SameLayout.refl bm, fun _ _ => rfl⟩

/-- A base word is stored with its bit `i` set to `b`: only the summary of that word may be wrong then. -/
theorem Consistent.storeBase (hs : Shape bm) (h : Consistent bm) {i : Nat} (hi : i < bm.bitCount) (v : BitVec 64) (b : Bool)
    (hv : ∀ j, j < 64 → v.getLsbD j = if j = i % 64 then b else (bm.word 0 (i / 64)).getLsbD j) :
    BitsBut (bm.setWord 0 (i / 64) v) 1 (i / 64) ∧
      ∀ j, j < bm.bitCount → (bm.setWord 0 (i / 64) v).bitAt 0 j = if j = i then b else bm.bitAt 0 j := by
  have hl := hs.levels_pos
  have hw : i / 64 < bm.wordCounts 0 := hs.div_lt hl hi
  have hword : ∀ l w, l < bm.levelCount → w < bm.wordCounts l →
      (bm.setWord 0 (i / 64) v).word l w = if l = 0 ∧ w = i / 64 then v else bm.word l w :=
    fun l w hl' hw' => word_setWord hs hl hl' hw hw' v
  have hbit : ∀ l j, l < bm.levelCount → j / 64 < bm.wordCounts l →
      (bm.setWord 0 (i / 64) v).bitAt l j = if l = 0 ∧ j = i then b else bm.bitAt l j := by
    intro l j hl' hj
    simp only [bitAt, hword l (j / 64) hl' hj]
    by_cases hlc : l = 0 ∧ j / 64 = i / 64
    · obtain ⟨rfl, hdiv⟩ := hlc
      rw [if_pos ⟨rfl, hdiv⟩, hv _ (Nat.mod_lt _ (by decide)), hdiv]
      by_cases hjc : j = i
      · simp [hjc]
      · rw [if_neg (by omega), if_neg (by simp [hjc])]
    · rw [if_neg hlc, if_neg]
      rintro ⟨rfl, rfl⟩
      exact hlc ⟨rfl, rfl⟩
  refine ⟨⟨?_, ?_⟩, fun j hj => ?_⟩
  · intro l hl' j hj hjw
    rw [hbit l j hl' hjw, if_neg, h.padding l hl' j hj hjw]
    rintro ⟨rfl, rfl⟩
    exact absurd hi (Nat.not_lt.mpr hj)
  · intro l hl' w hw'
    have hwd : w / 64 < bm.wordCounts (l + 1) := hs.div_lt hl' (by rw [levelBits_succ]; exact hw')
    by_cases hex : l + 1 = 1 ∧ w = i / 64
    · exact Or.inl hex
    · right
      rw [hbit (l + 1) w hl' hwd, hword l w (Nat.lt_of_succ_lt hl') hw', if_neg (by omega), if_neg (by omega)]
      exact h.summary l hl' w hw'
  · rw [hbit 0 j hl (hs.div_lt hl hj)]
    simp

end Update

/-! ## The bitmap as a set -/

/-- The bitmap has `n` bits and stands for the indices of `P` below `n`. -/
structure Holds (bm : HierarchicalBitmap) (n : Nat) (P : Nat → Prop) : Prop where
  shape : Shape bm
  bits : bm.bitCount = n
  consistent : Consistent bm
  base : ∀ j, j < n → (bm.bitAt 0 j = true ↔ P j)

section Holds

variable {bm : HierarchicalBitmap} {n i : Nat} {P Q : Nat → Prop}

/-- What is held is a set. -/
theorem Holds.congr (h : Holds bm n P) (hpq : ∀ j, j < n → (P j ↔ Q j)) : Holds bm n Q :=
  ⟨h.shape, h.bits, h.consistent, fun j hj => (h.base j hj).trans (hpq j hj)⟩

/-- A consistent bitmap of the same layout, with the same base words as one whose base bits are known. -/
theorem Holds.of_words {bm' bm'' : HierarchicalBitmap} (h : Holds bm n P) (hl : SameLayout bm bm') (hl' : SameLayout bm' bm'')
    (hc : Consistent bm'') (hw : ∀ w, w < bm'.wordCounts 0 → bm''.word 0 w = bm'.word 0 w)
    (hb : ∀ j, j < n → (bm'.bitAt 0 j = true ↔ Q j)) : Holds bm'' n Q := by
  have hs' := h.shape.of_same hl
  refine ⟨hs'.of_same hl', hl'.1.trans (hl.1.trans h.bits), hc, fun j hj => ?_⟩
  rw [← hb j hj, bitAt, bitAt, hw]
  exact hs'.div_lt hs'.levels_pos (by rw [levelBits, if_pos rfl, hl.1, h.bits]; exact hj)

/-- `set` adds an index. -/
theorem Holds.set (h : Holds bm n P) (hi : i < n) : Holds (bm.set i) n (fun j => j = i ∨ P j) := by
  have hs := h.shape
  have hib : i < bm.bitCount := h.bits.symm ▸ hi
  have hm : i % 64 < 64 := Nat.mod_lt _ (by decide)
  have hw : i / 64 < bm.wordCounts 0 := hs.div_lt hs.levels_pos hib
  unfold HierarchicalBitmap.set
  rw [if_neg (Nat.not_le.mpr hib)]
  dsimp only
  by_cases hset : bm.word 0 (i / 64) &&& bit64 (i % 64) ≠ 0#64
  · rw [if_pos hset]
    rw [and_bit64_ne_zero _ hm] at hset
    refine h.congr fun j hj => ⟨Or.inr, fun hj' => hj'.elim (fun e => ?_) id⟩
    rw [e]
    exact (h.base i hi).mp hset
  · rw [if_neg hset]
    have hv : ∀ j, j < 64 → (bm.word 0 (i / 64) ||| bit64 (i % 64)).getLsbD j =
        if j = i % 64 then true else (bm.word 0 (i / 64)).getLsbD j := by
      intro j hj
      rw [BitVec.getLsbD_or, bit64_getLsbD hm]
      by_cases hjc : j = i % 64
      · simp [hjc]
      · simp [hjc, Ne.symm hjc]
    obtain ⟨hbut, hbase⟩ := h.consistent.storeBase hs hib _ true hv
    have hlay := sameLayout_setWord bm 0 (i / 64) (bm.word 0 (i / 64) ||| bit64 (i % 64))
    have hb : ∀ j, j < n → ((bm.setWord 0 (i / 64) (bm.word 0 (i / 64) ||| bit64 (i % 64))).bitAt 0 j = true ↔
        j = i ∨ P j) := by
      intro j hj
      rw [hbase j (h.bits.symm ▸ hj), ← h.base j hj]
      by_cases hji : j = i <;> simp [hji]
    have hne : (bm.setWord 0 (i / 64) (bm.word 0 (i / 64) ||| bit64 (i % 64))).word 0 (i / 64) ≠ 0#64 := by
      rw [word_setWord hs hs.levels_pos hs.levels_pos hw hw, if_pos ⟨rfl, rfl⟩, ne_zero_iff]
      exact ⟨i % 64, hm, by simp [bit64_getLsbD hm]⟩
    by_cases hz : bm.word 0 (i / 64) ≠ 0#64
    · rw [if_pos hz]
      refine h.of_words hlay (SameLayout.refl _) (hbut.consistent fun hl2 _ => iff_of_true ?_ hne) (fun _ _ => rfl) hb
      have hwd : i / 64 / 64 < bm.wordCounts 1 := hs.div_lt hl2 (by rw [levelBits_succ]; exact hw)
      rw [bitAt, word_setWord hs hs.levels_pos hl2 hw hwd, if_neg (by omega)]
      exact (h.consistent.summary 0 hl2 (i / 64) hw).mpr hz
    · rw [if_neg hz]
      obtain ⟨h1, h2, h3⟩ := setSummaries_spec bm.levelCount _ 0 (i / 64) (hs.of_same hlay) hbut hw hs.levels_pos
        (by simp only [setWord]; omega) hne
      exact h.of_words hlay h2 h1 h3 hb

/-- `clear` takes an index out. -/
theorem Holds.clear (h : Holds bm n P) (hi : i < n) : Holds (bm.clear i) n (fun j => j ≠ i ∧ P j) := by
  have hs := h.shape
  have hib : i < bm.bitCount := h.bits.symm ▸ hi
  have hm : i % 64 < 64 := Nat.mod_lt _ (by decide)
  have hw : i / 64 < bm.wordCounts 0 := hs.div_lt hs.levels_pos hib
  unfold HierarchicalBitmap.clear
  rw [if_neg (Nat.not_le.mpr hib)]
  dsimp only
  by_cases hset : bm.word 0 (i / 64) &&& bit64 (i % 64) = 0#64
  · rw [if_pos hset]
    refine h.congr fun j hj => ⟨fun hp => ⟨fun e => ?_, hp⟩, And.right⟩
    subst e
    exact (and_bit64_ne_zero _ hm).mpr ((h.base j hi).mpr hp) hset
  · rw [if_neg hset]
    have hv : ∀ j, j < 64 → (bm.word 0 (i / 64) &&& ~~~bit64 (i % 64)).getLsbD j =
        if j = i % 64 then false else (bm.word 0 (i / 64)).getLsbD j := by
      intro j hj
      rw [BitVec.getLsbD_and, BitVec.getLsbD_not, bit64_getLsbD hm]
      by_cases hjc : j = i % 64
      · simp [hjc]
      · simp [hjc, Ne.symm hjc, hj]
    obtain ⟨hbut, hbase⟩ := h.consistent.storeBase hs hib _ false hv
    have hlay := sameLayout_setWord bm 0 (i / 64) (bm.word 0 (i / 64) &&& ~~~bit64 (i % 64))
    have hb : ∀ j, j < n → ((bm.setWord 0 (i / 64) (bm.word 0 (i / 64) &&& ~~~bit64 (i % 64))).bitAt 0 j = true ↔
        j ≠ i ∧ P j) := by
      intro j hj
      rw [hbase j (h.bits.symm ▸ hj), ← h.base j hj]
      by_cases hji : j = i <;> simp [hji]
    have hnew : (bm.setWord 0 (i / 64) (bm.word 0 (i / 64) &&& ~~~bit64 (i % 64))).word 0 (i / 64) =
        bm.word 0 (i / 64) &&& ~~~bit64 (i % 64) := by
      rw [word_setWord hs hs.levels_pos hs.levels_pos hw hw, if_pos ⟨rfl, rfl⟩]
    by_cases hz : bm.word 0 (i / 64) &&& ~~~bit64 (i % 64) ≠ 0#64
    · rw [if_pos hz]
      refine h.of_words hlay (SameLayout.refl _)
        (hbut.consistent fun hl2 _ => iff_of_true ?_ (by rw [hnew]; exact hz)) (fun _ _ => rfl) hb
      have hwd : i / 64 / 64 < bm.wordCounts 1 := hs.div_lt hl2 (by rw [levelBits_succ]; exact hw)
      rw [bitAt, word_setWord hs hs.levels_pos hl2 hw hwd, if_neg (by omega)]
      refine (h.consistent.summary 0 hl2 (i / 64) hw).mpr ((ne_zero_iff _).mpr ?_)
      obtain ⟨j, hj, hjb⟩ := (ne_zero_iff _).mp hz
      rw [BitVec.getLsbD_and, Bool.and_eq_true] at hjb
      exact ⟨j, hj, hjb.1⟩
    · rw [if_neg hz]
      obtain ⟨h1, h2, h3⟩ := clearSummaries_spec bm.levelCount _ 0 (i / 64) (hs.of_same hlay) hbut hw hs.levels_pos
        (by simp only [setWord]; omega) (by rw [hnew]; exact not_not.mp hz)
      exact h.of_words hlay h2 h1 h3 hb

/-- `test` reads a base bit. -/
theorem Holds.test [DecidablePred P] (h : Holds bm n P) (hi : i < n) : bm.test i = some (decide (P i)) := by
  have hm : i % 64 < 64 := Nat.mod_lt _ (by decide)
  unfold HierarchicalBitmap.test
  rw [if_neg (by rw [h.bits]; omega)]
  simp only [and_bit64_ne_zero _ hm]
  simp only [← h.base i hi, bitAt]

end Holds

/-! ## Searching -/

/-- `o` is the least index of `P` in `[i, n)`, if there is one. -/
def LeastFrom (P : Nat → Prop) (i n : Nat) : Option Nat → Prop
  | some r => i ≤ r ∧ r < n ∧ P r ∧ ∀ j, i ≤ j → j < r → ¬P j
  | none => ∀ j, i ≤ j → j < n → ¬P j

/-- `o` is the greatest index of `P` in `[0, i]`, if there is one. -/
def GreatestTo (P : Nat → Prop) (i : Nat) : Option Nat → Prop
  | some r => r ≤ i ∧ P r ∧ ∀ j, r < j → j ≤ i → ¬P j
  | none => ∀ j, j ≤ i → ¬P j

section Search

variable {bm : HierarchicalBitmap} (hs : Shape bm) (hc : Consistent bm)

include hs hc

omit hs in
/-- A set bit is not padding. -/
theorem Consistent.bit_lt {l j : Nat} (hl : l < bm.levelCount) (hj : j / 64 < bm.wordCounts l) (hb : bm.bitAt l j = true) :
    j < bm.levelBits l := by
  by_contra hge
  rw [hc.padding l hl j (Nat.not_lt.mp hge) hj] at hb
  cases hb

omit hs hc in
theorem bitAt_of_word {l w j : Nat} (hj : j < 64) : bm.bitAt l (w * 64 + j) = (bm.word l w).getLsbD j := by
  simp only [bitAt, show (w * 64 + j) / 64 = w by omega, show (w * 64 + j) % 64 = j by omega]

/-- The search from `i` on: the answer is in the word of `i`, at the top there is no other one, and elsewhere the level above tells the
word that has it. -/
theorem findAtOrAfter_spec : ∀ (k l i : Nat), l < bm.levelCount → bm.levelCount ≤ l + k →
    LeastFrom (fun j => bm.bitAt l j = true) i (bm.levelBits l) (bm.findAtOrAfter k l i) := by
  intro k
  induction k with
  | zero =>
    intro l i hl hk
    omega
  | succ k ih =>
    intro l i hl hk
    unfold findAtOrAfter
    rw [hs.levelBitCount_eq hl]
    by_cases hge : bm.levelBits l ≤ i
    · rw [if_pos (Or.inr hge)]
      intro j hj hjn
      omega
    have hpos := hs.levelBits_pos hl
    have hiw : i / 64 < bm.wordCounts l := hs.div_lt hl (by omega)
    rw [if_neg (by omega)]
    simp only [kWordBits, hs.checkedWord_eq hl hiw]
    have hmask : ∀ j, j < 64 → ((bm.word l (i / 64) &&& (BitVec.allOnes 64 <<< (i % 64))).getLsbD j = true ↔
        (bm.word l (i / 64)).getLsbD j = true ∧ i % 64 ≤ j) := fun j hj => by
      rw [BitVec.getLsbD_and, getLsbD_highMask hj, Bool.and_eq_true, decide_eq_true_eq]
    by_cases hcand : bm.word l (i / 64) &&& (BitVec.allOnes 64 <<< (i % 64)) ≠ 0#64
    · rw [if_pos hcand]
      obtain ⟨h1, h2, h3⟩ := countrZero_spec hcand
      generalize countrZero (bm.word l (i / 64) &&& (BitVec.allOnes 64 <<< (i % 64))) = c at h1 h2 h3
      obtain ⟨hb, hci⟩ := (hmask c h1).mp h2
      rw [← bitAt_of_word h1] at hb
      have hlt := hc.bit_lt hl (by rw [show (i / 64 * 64 + c) / 64 = i / 64 by omega]; exact hiw) hb
      rw [if_pos hlt]
      refine ⟨by omega, hlt, hb, fun j hj hjr hjb => ?_⟩
      have hjw : j = i / 64 * 64 + j % 64 := by omega
      rw [hjw, bitAt_of_word (by omega)] at hjb
      have := h3 (j % 64) (by omega)
      rw [(hmask (j % 64) (by omega)).mpr ⟨hjb, by omega⟩] at this
      cases this
    · rw [if_neg hcand]
      have hnone : ∀ j, i ≤ j → j / 64 = i / 64 → ¬bm.bitAt l j = true := by
        intro j hj hjw hjb
        refine hcand ((ne_zero_iff _).mpr ⟨j % 64, by omega, (hmask _ (by omega)).mpr ⟨?_, by omega⟩⟩)
        rw [← bitAt_of_word (by omega), ← hjw, show j / 64 * 64 + j % 64 = j by omega]
        exact hjb
      by_cases htop : bm.levelCount - 1 ≤ l
      · rw [if_pos htop]
        have hone := (hs.top l hl).mpr (by omega)
        have hcount := hs.count l hl
        exact fun j hj hjn => hnone j hj (by omega)
      · rw [if_neg htop]
        have hl2 : l + 1 < bm.levelCount := by omega
        have hrec := ih (l + 1) (i / 64 + 1) hl2 (by omega)
        rw [levelBits_succ] at hrec
        have hup : ∀ w, w < bm.wordCounts l → (bm.bitAt (l + 1) w = true ↔ bm.word l w ≠ 0#64) := hc.summary l hl2
        cases hf : bm.findAtOrAfter k (l + 1) (i / 64 + 1) with
        | none =>
          rw [hf] at hrec
          intro j hj hjn hjb
          have hjw : j / 64 < bm.wordCounts l := hs.div_lt hl hjn
          by_cases hsame : j / 64 = i / 64
          · exact hnone j hj hsame hjb
          · exact hrec (j / 64) (by omega) hjw ((hup _ hjw).mpr ((ne_zero_iff _).mpr ⟨j % 64, by omega, hjb⟩))
        | some w =>
          rw [hf] at hrec
          obtain ⟨hw1, hw2, hw3, hw4⟩ := hrec
          have hwz := (hup w hw2).mp hw3
          simp only [if_neg (Nat.not_le.mpr hw2), hs.checkedWord_eq hl hw2]
          rw [if_neg hwz]
          obtain ⟨h1, h2, h3⟩ := countrZero_spec hwz
          generalize countrZero (bm.word l w) = c at h1 h2 h3
          rw [← bitAt_of_word h1] at h2
          have hlt := hc.bit_lt hl (by rw [show (w * 64 + c) / 64 = w by omega]; exact hw2) h2
          rw [if_pos hlt]
          refine ⟨by omega, hlt, h2, fun j hj hjr hjb => ?_⟩
          have hjn : j < bm.levelBits l := by omega
          have hjw : j / 64 < bm.wordCounts l := hs.div_lt hl hjn
          by_cases hsame : j / 64 = i / 64
          · exact hnone j hj hsame hjb
          · by_cases hww : j / 64 = w
            · have hz := h3 (j % 64) (by omega)
              rw [← bitAt_of_word (by omega), ← hww, show j / 64 * 64 + j % 64 = j by omega, hjb] at hz
              cases hz
            · exact hw4 (j / 64) (by omega) (by omega)
                ((hup _ hjw).mpr ((ne_zero_iff _).mpr ⟨j % 64, by omega, hjb⟩))

/-- The search from `i` down, likewise. -/
theorem findAtOrBefore_spec : ∀ (k l i : Nat), l < bm.levelCount → bm.levelCount ≤ l + k → i < bm.levelBits l →
    GreatestTo (fun j => bm.bitAt l j = true) i (bm.findAtOrBefore k l i) := by
  intro k
  induction k with
  | zero =>
    intro l i hl hk
    omega
  | succ k ih =>
    intro l i hl hk hi
    unfold findAtOrBefore
    rw [hs.levelBitCount_eq hl]
    have hiw : i / 64 < bm.wordCounts l := hs.div_lt hl hi
    rw [if_neg (by omega)]
    simp only [kWordBits, hs.checkedWord_eq hl hiw]
    have hi64 : i % 64 < 64 := Nat.mod_lt _ (by decide)
    have hmask : ∀ j, j < 64 →
        ((bm.word l (i / 64) &&& (if i % 64 = 64 - 1 then BitVec.allOnes 64 else bit64 (i % 64 + 1) - 1#64)).getLsbD j =
          true ↔ (bm.word l (i / 64)).getLsbD j = true ∧ j ≤ i % 64) := fun j hj => by
      rw [BitVec.getLsbD_and, getLsbD_lowMask hi64 hj, Bool.and_eq_true, decide_eq_true_eq]
    generalize (if i % 64 = 64 - 1 then BitVec.allOnes 64 else bit64 (i % 64 + 1) - 1#64) = mask at hmask
    by_cases hcand : bm.word l (i / 64) &&& mask ≠ 0#64
    · rw [if_pos hcand]
      obtain ⟨h1, h2, h3⟩ := countlZero_spec hcand
      generalize countlZero (bm.word l (i / 64) &&& mask) = c at h1 h2 h3
      obtain ⟨hb, hci⟩ := (hmask (63 - c) (by omega)).mp h2
      rw [← bitAt_of_word (by omega), show i / 64 * 64 + (63 - c) = i / 64 * 64 + 63 - c by omega] at hb
      refine ⟨by omega, hb, fun j hj hji hjb => ?_⟩
      have hjw : j = i / 64 * 64 + j % 64 := by omega
      rw [hjw, bitAt_of_word (by omega)] at hjb
      have := h3 (j % 64) (by omega)
      rw [(hmask (j % 64) (by omega)).mpr ⟨hjb, by omega⟩] at this
      cases this
    · rw [if_neg hcand]
      have hnone : ∀ j, j ≤ i → j / 64 = i / 64 → ¬bm.bitAt l j = true := by
        intro j hj hjw hjb
        refine hcand ((ne_zero_iff _).mpr ⟨j % 64, by omega, (hmask _ (by omega)).mpr ⟨?_, by omega⟩⟩)
        rw [← bitAt_of_word (by omega), ← hjw, show j / 64 * 64 + j % 64 = j by omega]
        exact hjb
      by_cases htop : bm.levelCount - 1 ≤ l ∨ i / 64 = 0
      · rw [if_pos htop]
        have hzero : i / 64 = 0 := by
          rcases htop with htop | hz
          · have hone := (hs.top l hl).mpr (by omega)
            omega
          · exact hz
        exact fun j hj => hnone j hj (by omega)
      · rw [if_neg htop]
        have hl2 : l + 1 < bm.levelCount := by omega
        have hrec := ih (l + 1) (i / 64 - 1) hl2 (by omega) (by rw [levelBits_succ]; omega)
        have hup : ∀ w, w < bm.wordCounts l → (bm.bitAt (l + 1) w = true ↔ bm.word l w ≠ 0#64) := hc.summary l hl2
        cases hf : bm.findAtOrBefore k (l + 1) (i / 64 - 1) with
        | none =>
          rw [hf] at hrec
          intro j hj hjb
          have hjw : j / 64 < bm.wordCounts l := hs.div_lt hl (by omega)
          by_cases hsame : j / 64 = i / 64
          · exact hnone j hj hsame hjb
          · exact hrec (j / 64) (by omega) ((hup _ hjw).mpr ((ne_zero_iff _).mpr ⟨j % 64, by omega, hjb⟩))
        | some w =>
          rw [hf] at hrec
          obtain ⟨hw1, hw3, hw4⟩ := hrec
          have hw2 : w < bm.wordCounts l := by omega
          have hwz := (hup w hw2).mp hw3
          simp only [if_neg (Nat.not_le.mpr hw2), hs.checkedWord_eq hl hw2]
          rw [if_neg hwz]
          obtain ⟨h1, h2, h3⟩ := countlZero_spec hwz
          generalize countlZero (bm.word l w) = c at h1 h2 h3
          rw [← bitAt_of_word (by omega), show w * 64 + (63 - c) = w * 64 + 63 - c by omega] at h2
          have hlt := hc.bit_lt hl (by rw [show (w * 64 + 63 - c) / 64 = w by omega]; exact hw2) h2
          rw [if_pos hlt]
          refine ⟨by omega, h2, fun j hj hji hjb => ?_⟩
          have hjw : j / 64 < bm.wordCounts l := hs.div_lt hl (by omega)
          by_cases hsame : j / 64 = i / 64
          · exact hnone j hji hsame hjb
          · by_cases hww : j / 64 = w
            · have hz := h3 (j % 64) (by omega)
              rw [← bitAt_of_word (by omega), ← hww, show j / 64 * 64 + j % 64 = j by omega, hjb] at hz
              cases hz
            · exact hw4 (j / 64) (by omega) (by omega)
                ((hup _ hjw).mpr ((ne_zero_iff _).mpr ⟨j % 64, by omega, hjb⟩))

end Search

section Queries

variable {bm : HierarchicalBitmap} {n i : Nat} {P : Nat → Prop} (h : Holds bm n P)

include h

/-- The search finds the least element from `i` on. -/
theorem Holds.leastFrom (i : Nat) : LeastFrom P i n (bm.findAtOrAfter bm.levelCount 0 i) := by
  have hspec := findAtOrAfter_spec h.shape h.consistent bm.levelCount 0 i h.shape.levels_pos (by omega)
  rw [levelBits, if_pos rfl, h.bits] at hspec
  cases hf : bm.findAtOrAfter bm.levelCount 0 i with
  | none =>
    rw [hf] at hspec
    exact fun j hj hjn hp => hspec j hj hjn ((h.base j hjn).mpr hp)
  | some r =>
    rw [hf] at hspec
    obtain ⟨h1, h2, h3, h4⟩ := hspec
    exact ⟨h1, h2, (h.base r h2).mp h3, fun j hj hjr hp => h4 j hj hjr ((h.base j (by omega)).mpr hp)⟩

/-- The search finds the greatest element up to `i`. -/
theorem Holds.greatestTo (hi : i < n) : GreatestTo P i (bm.findAtOrBefore bm.levelCount 0 i) := by
  have hspec := findAtOrBefore_spec h.shape h.consistent bm.levelCount 0 i h.shape.levels_pos (by omega)
    (by rw [levelBits, if_pos rfl, h.bits]; exact hi)
  cases hf : bm.findAtOrBefore bm.levelCount 0 i with
  | none =>
    rw [hf] at hspec
    exact fun j hj hp => hspec j hj ((h.base j (by omega)).mpr hp)
  | some r =>
    rw [hf] at hspec
    obtain ⟨h1, h2, h3⟩ := hspec
    exact ⟨h1, (h.base r (by omega)).mp h2, fun j hj hji hp => h3 j hj hji ((h.base j (by omega)).mpr hp)⟩

/-- `first_set` finds the least index. -/
theorem Holds.firstSet : LeastFrom P 0 n bm.firstSet := h.leastFrom 0

/-- `next_set` finds the least index from a place on. -/
theorem Holds.nextSet (hi : i < n) : LeastFrom P i n (bm.nextSet i) := by
  rw [HierarchicalBitmap.nextSet, if_neg (by rw [h.bits]; omega)]
  exact h.leastFrom i

/-- `last_set` finds the greatest index. -/
theorem Holds.lastSet : GreatestTo P (n - 1) bm.lastSet := by
  have hp := h.shape.bits_pos
  rw [h.bits] at hp
  rw [HierarchicalBitmap.lastSet, h.bits]
  exact h.greatestTo (by omega)

/-- `previous_set` finds the greatest index up to a place. -/
theorem Holds.previousSet (hi : i < n) : GreatestTo P i (bm.previousSet i) := by
  rw [HierarchicalBitmap.previousSet, if_neg (by rw [h.bits]; omega)]
  exact h.greatestTo hi

end Queries

/-! ## The layout and the checker -/

/-- The levels `make_layout` has laid out so far, for `n` bits, when the next level represents `levelBits` bits. -/
structure Built (n : Nat) (layout : Layout) (levelBits : Nat) : Prop where
  bits : levelBits = if layout.levelCount = 0 then n else layout.wordCounts (layout.levelCount - 1)
  count : ∀ l, l < layout.levelCount → layout.wordCounts l = ((if l = 0 then n else layout.wordCounts (l - 1)) + 63) / 64
  many : ∀ l, l < layout.levelCount → layout.wordCounts l ≠ 1
  off : ∀ l, l < layout.levelCount →
    layout.offsets l = if l = 0 then 0 else layout.offsets (l - 1) + layout.wordCounts (l - 1)
  total : layout.totalWords = if layout.levelCount = 0 then 0
    else layout.offsets (layout.levelCount - 1) + layout.wordCounts (layout.levelCount - 1)
  small : layout.totalWords ≤ layout.levelCount * 2 ^ 32

/-- `make_layout` ends within its levels, and its result is a layout. -/
theorem makeLayoutFrom_spec (n : Nat) (hn : 0 < n) (hn32 : n < 2 ^ 32) :
    ∀ (k levelBits : Nat) (layout : Layout), Built n layout levelBits → 0 < levelBits → levelBits ≤ 2 ^ (6 * k - 4) → 0 < k →
      layout.levelCount + k = 6 →
      ∃ layout', makeLayoutFrom k levelBits layout = some layout' ∧ layout'.totalWords ≤ 6 * 2 ^ 32 ∧
        ∀ words, Shape ⟨n, layout'.offsets, layout'.wordCounts, layout'.levelCount, layout'.totalWords, words⟩ := by
  intro k
  induction k with
  | zero =>
    intro levelBits layout _ _ _ hk
    omega
  | succ k ih =>
    intro levelBits layout hb hpos hle _ hk
    obtain ⟨hbits, hcount, hmany, hoff, htotal, hsmall⟩ := hb
    unfold makeLayoutFrom
    set wc := (levelBits + (kWordBits - 1)) / kWordBits with hwc
    have hwc' : wc = (levelBits + 63) / 64 := hwc
    have hpow : (2 : Nat) ^ (6 * (k + 1) - 4) ≤ 2 ^ 32 := Nat.pow_le_pow_right (by decide) (by omega)
    have h1 : ¬2 ^ 32 - 1 < wc := by omega
    have h2 : ¬2 ^ 64 - 1 - wc < layout.totalWords := by omega
    set new : Layout :=
      { offsets := update layout.offsets layout.levelCount layout.totalWords
        wordCounts := update layout.wordCounts layout.levelCount wc
        levelCount := layout.levelCount + 1
        totalWords := layout.totalWords + wc } with hnew
    have hwc_old : ∀ l, l < layout.levelCount → new.wordCounts l = layout.wordCounts l := fun l hl => by
      simp only [hnew, update_of_ne (Nat.ne_of_lt hl)]
    have hoff_old : ∀ l, l < layout.levelCount → new.offsets l = layout.offsets l := fun l hl => by
      simp only [hnew, update_of_ne (Nat.ne_of_lt hl)]
    have hwc_new : new.wordCounts layout.levelCount = wc := by simp [hnew]
    have hoff_new : new.offsets layout.levelCount = layout.totalWords := by simp [hnew]
    have hprev : (if layout.levelCount = 0 then n else new.wordCounts (layout.levelCount - 1)) = levelBits := by
      rw [hbits]
      split
      · rfl
      · exact hwc_old _ (by omega)
    have hcount' : ∀ l, l < new.levelCount → new.wordCounts l = ((if l = 0 then n else new.wordCounts (l - 1)) + 63) / 64 := by
      intro l hl
      rcases Nat.lt_or_ge l layout.levelCount with hlt | hge
      · rw [hwc_old l hlt, hcount l hlt]
        split
        · rfl
        · rw [hwc_old (l - 1) (by omega)]
      · obtain rfl : l = layout.levelCount := Nat.le_antisymm (Nat.lt_succ_iff.mp hl) hge
        rw [hwc_new, hprev, hwc']
    have hoff' : ∀ l, l < new.levelCount →
        new.offsets l = if l = 0 then 0 else new.offsets (l - 1) + new.wordCounts (l - 1) := by
      intro l hl
      rcases Nat.lt_or_ge l layout.levelCount with hlt | hge
      · rw [hoff_old l hlt, hoff l hlt]
        split
        · rfl
        · rw [hoff_old (l - 1) (by omega), hwc_old (l - 1) (by omega)]
      · obtain rfl : l = layout.levelCount := Nat.le_antisymm (Nat.lt_succ_iff.mp hl) hge
        rw [hoff_new, htotal]
        split
        · rfl
        · rw [hoff_old _ (by omega), hwc_old _ (by omega)]
    have hmany' : ∀ l, l < layout.levelCount → new.wordCounts l ≠ 1 := fun l hl => by
      rw [hwc_old l hl]
      exact hmany l hl
    have hsmall' : new.totalWords ≤ new.levelCount * 2 ^ 32 := by
      change layout.totalWords + wc ≤ (layout.levelCount + 1) * 2 ^ 32
      omega
    have htotal' : new.totalWords = new.offsets layout.levelCount + new.wordCounts layout.levelCount := by
      rw [hoff_new, hwc_new]
    rw [if_neg h1, if_neg h2]
    by_cases hone : wc = 1
    · rw [if_pos hone]
      refine ⟨new, rfl, hsmall'.trans (Nat.mul_le_mul_right _ ?_), fun words => ?_⟩
      · change layout.levelCount + 1 ≤ 6
        omega
      refine ⟨hn, hn32, Nat.succ_pos _, ?_, hcount', ?_, ?_, ?_, ?_⟩
      · change layout.levelCount + 1 ≤ 6
        omega
      · intro l hl
        rcases Nat.lt_or_ge l layout.levelCount with hlt | hge
        · exact iff_of_false (hmany' l hlt) (by change l + 1 ≠ layout.levelCount + 1; omega)
        · obtain rfl : l = layout.levelCount := Nat.le_antisymm (Nat.lt_succ_iff.mp hl) hge
          exact iff_of_true (hwc_new.trans hone) rfl
      · simpa using hoff' 0 (Nat.succ_pos _)
      · intro l hl
        simpa using hoff' (l + 1) hl
      · rw [htotal', hwc_new, hone]
        rfl
    · rw [if_neg hone]
      have hk0 : 0 < k := by
        rcases Nat.eq_zero_or_pos k with rfl | hk0
        · simp only [Nat.zero_add, Nat.mul_one, Nat.reduceSub, Nat.reducePow] at hle
          omega
        · exact hk0
      have hle' : wc ≤ 2 ^ (6 * k - 4) := by
        have : (2 : Nat) ^ (6 * (k + 1) - 4) = 64 * 2 ^ (6 * k - 4) := by
          rw [show 6 * (k + 1) - 4 = 6 + (6 * k - 4) by omega, Nat.pow_add]
        omega
      refine ih wc new ⟨?_, hcount', ?_, hoff', ?_, hsmall'⟩ (by omega) hle' hk0 ?_
      · simp [hnew]
      · intro l hl
        rcases Nat.lt_or_ge l layout.levelCount with hlt | hge
        · exact hmany' l hlt
        · obtain rfl : l = layout.levelCount := Nat.le_antisymm (Nat.lt_succ_iff.mp hl) hge
          rw [hwc_new]
          exact hone
      · rw [htotal']
        rfl
      · change layout.levelCount + 1 + k = 6
        omega

/-- The constructor builds the empty set. -/
theorem create_holds {n : Nat} (hn : 0 < n) (hn32 : n < 2 ^ 32) :
    ∃ bm, create n = some bm ∧ Holds bm n (fun _ => False) := by
  obtain ⟨layout, he, ht, hs⟩ := makeLayoutFrom_spec n hn hn32 6 n ⟨fun _ => 0, fun _ => 0, 0, 0⟩
    ⟨rfl, nofun, nofun, nofun, rfl, Nat.le_refl _⟩ hn (Nat.le_of_lt hn32) (by decide) rfl
  refine ⟨⟨n, layout.offsets, layout.wordCounts, layout.levelCount, layout.totalWords, fun _ => 0#64⟩, ?_, hs _, rfl,
    ⟨fun l _ j _ _ => by simp [bitAt, word], fun l _ w _ => by simp [bitAt, word]⟩, fun j _ => by simp [bitAt, word]⟩
  simp only [create, makeLayout, if_neg (Nat.ne_of_gt hn), kMaximumLevels, he]
  rw [if_neg (by omega)]
  rfl

section Checker

variable {bm : HierarchicalBitmap} (hs : Shape bm)

include hs

/-- The layout passes its own check. -/
theorem Shape.layoutConsistentFrom : ∀ k level, level + k = bm.levelCount →
    bm.layoutConsistentFrom k level (bm.levelBits level)
      (if level < bm.levelCount then bm.offsets level else bm.totalWords) = some bm.totalWords := by
  intro k
  induction k with
  | zero =>
    intro level hk
    rw [HierarchicalBitmap.layoutConsistentFrom, if_neg (by omega)]
  | succ k ih =>
    intro level hk
    have hl : level < bm.levelCount := by omega
    have hcount := hs.count level hl
    have hpos := hs.levelBits_pos hl
    have hwpos := hs.wordCounts_pos hl
    have hplace := hs.place_lt hl (Nat.sub_lt hwpos Nat.one_pos)
    have hbound : bm.levelBits level < 2 ^ 32 := by
      clear hcount hpos hwpos hplace ih hk
      induction level with
      | zero => exact hs.bits_lt
      | succ level ih =>
        have := hs.count level (by omega)
        have := ih (by omega)
        rw [levelBits_succ]
        omega
    rw [HierarchicalBitmap.layoutConsistentFrom, if_pos hl]
    simp only [kWordBits]
    rw [if_neg (by omega), if_neg]
    · have hnext : bm.offsets level + bm.wordCounts level =
          if level + 1 < bm.levelCount then bm.offsets (level + 1) else bm.totalWords := by
        split
        · rename_i hl2
          exact (hs.off_succ level hl2).symm
        · rename_i hl2
          have := (hs.top level hl).mpr (by omega)
          have ht := hs.total
          rw [show bm.levelCount - 1 = level by omega] at ht
          omega
      rw [hnext, ← levelBits_succ]
      exact ih (level + 1) (by omega)
    · simp [hs.top level hl]

/-- The padding check of a level accepts exactly clear padding. -/
theorem Shape.paddingClear_iff {level : Nat} (hl : level < bm.levelCount) :
    bm.paddingClear level (bm.levelBits level) = true ↔
      ∀ j, bm.levelBits level ≤ j → j / 64 < bm.wordCounts level → bm.bitAt level j = false := by
  have hwpos := hs.wordCounts_pos hl
  have hcount := hs.count level hl
  unfold HierarchicalBitmap.paddingClear
  simp only [kWordBits]
  split
  · rename_i hv
    exact iff_of_true rfl fun j hj hjw => by omega
  · rename_i hv
    rw [hs.checkedWord_eq hl (Nat.sub_lt hwpos Nat.one_pos)]
    simp only [decide_eq_true_eq]
    constructor
    · intro hz j hj hjw
      have hlast : j / 64 = bm.wordCounts level - 1 := by omega
      have hmod : j % 64 < 64 := Nat.mod_lt _ (by decide)
      have hbit := congrArg (fun w : BitVec 64 => w.getLsbD (j % 64)) hz
      simp only [BitVec.getLsbD_and, getLsbD_highMask hmod, BitVec.getLsbD_zero] at hbit
      rw [show decide (bm.levelBits level % 64 ≤ j % 64) = true from decide_eq_true (by omega), Bool.and_true] at hbit
      rw [bitAt, hlast, hbit]
    · intro hclear
      by_contra hne
      obtain ⟨j, hj, hb⟩ := (ne_zero_iff _).mp hne
      rw [BitVec.getLsbD_and, getLsbD_highMask hj, Bool.and_eq_true, decide_eq_true_eq, ← bitAt_of_word hj] at hb
      rw [hclear _ (by omega) (by omega)] at hb
      cases hb.1

/-- The summary check of a level accepts exactly the summary bits that say which words below are not zero. -/
theorem Shape.summaryMatches_iff {level w : Nat} (hl : level + 1 < bm.levelCount) (hw : w < bm.wordCounts level) :
    bm.summaryMatches (level + 1) w = true ↔ (bm.bitAt (level + 1) w = true ↔ bm.word level w ≠ 0#64) := by
  have hwd : w / 64 < bm.wordCounts (level + 1) := hs.div_lt hl (by rw [levelBits_succ]; exact hw)
  have hm : w % 64 < 64 := Nat.mod_lt _ (by decide)
  unfold summaryMatches
  simp only [kWordBits, Nat.add_sub_cancel, hs.checkedWord_eq (Nat.lt_of_succ_lt hl) hw, hs.checkedWord_eq hl hwd]
  rw [decide_eq_true_eq, eq_iff_iff, and_bit64_ne_zero _ hm]
  exact Iff.rfl

/-- The second loop of `hierarchy_consistent` accepts from a level on exactly what hangs together from there on. -/
theorem Shape.summariesConsistentFrom_iff : ∀ k level, level + k = bm.levelCount →
    (bm.summariesConsistentFrom k level (bm.levelBits level) = true ↔
      (∀ l, level ≤ l → l < bm.levelCount → ∀ j, bm.levelBits l ≤ j → j / 64 < bm.wordCounts l → bm.bitAt l j = false) ∧
      ∀ l, level ≤ l + 1 → l + 1 < bm.levelCount → ∀ w, w < bm.wordCounts l →
        (bm.bitAt (l + 1) w = true ↔ bm.word l w ≠ 0#64)) := by
  intro k
  induction k with
  | zero =>
    intro level hk
    exact iff_of_true rfl ⟨fun l h1 h2 => by omega, fun l h1 h2 => by omega⟩
  | succ k ih =>
    intro level hk
    have hl : level < bm.levelCount := by omega
    have hsummary : ((level = 0 : Bool) || (List.range (bm.wordCounts (level - 1))).all (bm.summaryMatches level)) = true ↔
        ∀ l, l + 1 = level → ∀ w, w < bm.wordCounts l → (bm.bitAt (l + 1) w = true ↔ bm.word l w ≠ 0#64) := by
      cases level with
      | zero => exact iff_of_true rfl fun l h => by omega
      | succ level =>
        simp only [Nat.add_one_ne_zero, decide_false, Bool.false_or, Nat.add_sub_cancel, List.all_eq_true, List.mem_range]
        constructor
        · intro h l he w hw
          cases he
          exact (hs.summaryMatches_iff hl hw).mp (h w hw)
        · intro h w hw
          exact (hs.summaryMatches_iff hl hw).mpr (h level rfl w hw)
    rw [HierarchicalBitmap.summariesConsistentFrom, Bool.and_eq_true, Bool.and_eq_true, hs.paddingClear_iff hl, hsummary,
      ← levelBits_succ, ih (level + 1) (by omega)]
    constructor
    · rintro ⟨⟨h1, h2⟩, h3, h4⟩
      refine ⟨fun l hle hlt => ?_, fun l hle hlt => ?_⟩
      · rcases Nat.eq_or_lt_of_le hle with rfl | hgt
        · exact h1
        · exact h3 l hgt hlt
      · rcases Nat.eq_or_lt_of_le hle with he | hgt
        · exact h2 l he.symm
        · exact h4 l hgt hlt
    · rintro ⟨h1, h2⟩
      exact ⟨⟨h1 level (Nat.le_refl _) hl, fun l he => h2 l (Nat.le_of_eq he.symm) (he ▸ hl)⟩,
        fun l hle hlt => h1 l (by omega) hlt, fun l hle hlt => h2 l (by omega) hlt⟩

/-- `hierarchy_consistent` accepts, of the words over one layout, exactly the consistent ones. -/
theorem Shape.hierarchyConsistent_iff : bm.hierarchyConsistent = true ↔ Consistent bm := by
  have h1 := hs.bits_pos
  have h2 := hs.levels_pos
  have h3 := hs.levels_le
  have h4 := hs.place_lt h2 (hs.wordCounts_pos h2)
  have hlay := hs.layoutConsistentFrom bm.levelCount 0 (Nat.zero_add _)
  rw [if_pos h2, hs.off_zero] at hlay
  have htop : bm.wordCounts (bm.levelCount - 1) = 1 := (hs.top _ (by omega)).mpr (by omega)
  unfold HierarchicalBitmap.hierarchyConsistent
  rw [if_neg (by simp only [kMaximumLevels]; omega)]
  rw [show bm.bitCount = bm.levelBits 0 from rfl, hlay]
  simp only [ne_eq, not_true_eq_false, if_false, htop, decide_true, Bool.and_true]
  rw [hs.summariesConsistentFrom_iff bm.levelCount 0 (Nat.zero_add _)]
  exact ⟨fun h => ⟨fun l => h.1 l (Nat.zero_le _), fun l => h.2 l (Nat.zero_le _)⟩,
    fun h => ⟨fun l _ => h.padding l, fun l _ => h.summary l⟩⟩

end Checker

/-- `hierarchy_consistent` accepts a bitmap that stands for a set. -/
theorem Holds.hierarchyConsistent {bm : HierarchicalBitmap} {n : Nat} {P : Nat → Prop} (h : Holds bm n P) :
    bm.hierarchyConsistent = true :=
  h.shape.hierarchyConsistent_iff.mpr h.consistent

/-- A consistent bitmap stands for the set of its base bits. -/
theorem Consistent.holds {bm : HierarchicalBitmap} (hs : Shape bm) (hc : Consistent bm) :
    Holds bm bm.bitCount fun j => bm.bitAt 0 j = true :=
  ⟨hs, rfl, hc, fun _ _ => Iff.rfl⟩

end HierarchicalBitmap

end MatchingEngine

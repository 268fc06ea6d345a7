import MatchingEngine.Lemmas.Bitmap
import Mathlib.Order.Bounds.Basic
import Mathlib.Data.Finset.Erase
import Mathlib.Data.Finset.Range

/-!
# The bitmap is a set of indices

Whatever calls are made, a `HierarchicalBitmap` answers as the finite set of indices that the calls have left in it.
-/

namespace MatchingEngine

namespace HierarchicalBitmap

/-- A call that changes a bitmap. -/
inductive Call where
  | set (index : Nat)
  | clear (index : Nat)
  deriving DecidableEq, Repr

/-- The bitmap after a call. -/
def perform (bm : HierarchicalBitmap) : Call → HierarchicalBitmap
  | .set index => bm.set index
  | .clear index => bm.clear index

/-- The bitmap after calls, one after the other. -/
def performAll (bm : HierarchicalBitmap) (calls : List Call) : HierarchicalBitmap := calls.foldl perform bm

/-- The set of indices below `n` after a call. -/
def Call.effect (n : Nat) (members : Finset Nat) : Call → Finset Nat
  | .set index => if index < n then insert index members else members
  | .clear index => members.erase index

/-- The set of indices below `n` after calls, from the empty set on. -/
def Call.effects (n : Nat) (calls : List Call) : Finset Nat := calls.foldl (Call.effect n) ∅

/-- The bitmap answers as a set of indices below `n`. -/
structure AnswersAs (bm : HierarchicalBitmap) (n : Nat) (members : Finset Nat) : Prop where
  test : ∀ i, bm.test i = if i < n then some (decide (i ∈ members)) else none
  firstSet : ∀ r, bm.firstSet = some r ↔ IsLeast {j | j ∈ members} r
  lastSet : ∀ r, bm.lastSet = some r ↔ IsGreatest {j | j ∈ members} r
  nextSet : ∀ i r, bm.nextSet i = some r ↔ i < n ∧ IsLeast {j | j ∈ members ∧ i ≤ j} r
  previousSet : ∀ i r, bm.previousSet i = some r ↔ i < n ∧ IsGreatest {j | j ∈ members ∧ j ≤ i} r
  set_outside : ∀ i, n ≤ i → bm.set i = bm
  clear_outside : ∀ i, n ≤ i → bm.clear i = bm
  consistent : bm.hierarchyConsistent = true

/-! ## What a search finds -/

/-- The least element, as a set has it. -/
theorem LeastFrom.eq_some_iff {P : Nat → Prop} {i n r : Nat} {o : Option Nat} (h : LeastFrom P i n o) :
    o = some r ↔ IsLeast {j | (j < n ∧ P j) ∧ i ≤ j} r := by
  cases o with
  | none => exact ⟨nofun, fun hr => absurd hr.1.1.2 (h r hr.1.2 hr.1.1.1)⟩
  | some k =>
    obtain ⟨hik, hkn, hk, hleast⟩ := h
    have hmin : IsLeast {j | (j < n ∧ P j) ∧ i ≤ j} k :=
      ⟨⟨⟨hkn, hk⟩, hik⟩, fun j hj => Nat.le_of_not_lt fun hlt => hleast j hj.2 hlt hj.1.2⟩
    rw [Option.some_inj]
    exact ⟨fun he => he ▸ hmin, fun hr => hmin.unique hr⟩

/-- The greatest element, as a set has it. -/
theorem GreatestTo.eq_some_iff {P : Nat → Prop} {i n r : Nat} {o : Option Nat} (h : GreatestTo P i o) (hi : i < n) :
    o = some r ↔ IsGreatest {j | (j < n ∧ P j) ∧ j ≤ i} r := by
  cases o with
  | none => exact ⟨nofun, fun hr => absurd hr.1.1.2 (h r hr.1.2)⟩
  | some k =>
    obtain ⟨hki, hk, hgreatest⟩ := h
    have hmax : IsGreatest {j | (j < n ∧ P j) ∧ j ≤ i} k :=
      ⟨⟨⟨Nat.lt_of_le_of_lt hki hi, hk⟩, hki⟩, fun j hj => Nat.le_of_not_lt fun hlt => hgreatest j hlt hj.2 hj.1.2⟩
    rw [Option.some_inj]
    exact ⟨fun he => he ▸ hmax, fun hr => hmax.unique hr⟩

/-! ## The calls -/

section Calls

variable {bm : HierarchicalBitmap} {n i : Nat} {members : Finset Nat}

/-- A call outside the bitmap leaves it. -/
theorem set_of_le (hi : bm.bitCount ≤ i) : bm.set i = bm := if_pos hi

@[inherit_doc set_of_le]
theorem clear_of_le (hi : bm.bitCount ≤ i) : bm.clear i = bm := if_pos hi

/-- A call has its effect on the set. -/
theorem Holds.perform (h : Holds bm n (· ∈ members)) (call : Call) : Holds (bm.perform call) n (· ∈ call.effect n members) := by
  cases call with
  | set i =>
    rw [HierarchicalBitmap.perform, Call.effect]
    by_cases hi : i < n
    · rw [if_pos hi]
      exact (h.set hi).congr fun j _ => Finset.mem_insert.symm
    · rw [if_neg hi, set_of_le (by rw [h.bits]; omega)]
      exact h
  | clear i =>
    rw [HierarchicalBitmap.perform, Call.effect]
    by_cases hi : i < n
    · exact (h.clear hi).congr fun j _ => Finset.mem_erase.symm
    · rw [clear_of_le (by rw [h.bits]; omega)]
      exact h.congr fun j hj => (Finset.mem_erase.trans (and_iff_right (by omega))).symm

theorem Call.effect_subset (h : members ⊆ Finset.range n) (call : Call) : call.effect n members ⊆ Finset.range n := by
  cases call with
  | set i =>
    rw [Call.effect]
    split
    · rename_i hi
      exact Finset.insert_subset (Finset.mem_range.mpr hi) h
    · exact h
  | clear i => exact (Finset.erase_subset i members).trans h

/-- The bitmap holds the set after all calls. -/
theorem Holds.performAll (h : Holds bm n (· ∈ members)) (hsub : members ⊆ Finset.range n) (calls : List Call) :
    Holds (bm.performAll calls) n (· ∈ calls.foldl (Call.effect n) members) ∧ calls.foldl (Call.effect n) members ⊆ Finset.range n := by
  induction calls generalizing bm members with
  | nil => exact ⟨h, hsub⟩
  | cons call calls ih => exact ih (h.perform call) (Call.effect_subset hsub call)

/-- A bitmap that stands for a set answers as it. -/
theorem Holds.answersAs (h : Holds bm n (· ∈ members)) (hsub : members ⊆ Finset.range n) : bm.AnswersAs n members := by
  have hpos : 0 < n := h.bits ▸ h.shape.bits_pos
  have hmem : ∀ j, j < n ∧ j ∈ members ↔ j ∈ members := fun j => and_iff_right_of_imp fun hj => Finset.mem_range.mp (hsub hj)
  constructor
  case test =>
    intro i
    split
    · rename_i hi
      exact h.test hi
    · rename_i hi
      exact if_pos (by rw [h.bits]; omega)
  case firstSet =>
    intro r
    rw [h.firstSet.eq_some_iff]
    simp only [hmem, Nat.zero_le, and_true]
  case lastSet =>
    intro r
    rw [h.lastSet.eq_some_iff (n := n) (by omega)]
    have hle : ∀ j, j ∈ members ∧ j ≤ n - 1 ↔ j ∈ members :=
      fun j => and_iff_left_of_imp fun hj => Nat.le_sub_one_of_lt (Finset.mem_range.mp (hsub hj))
    simp only [hmem, hle]
  case nextSet =>
    intro i r
    by_cases hi : i < n
    · rw [(h.nextSet hi).eq_some_iff, and_iff_right hi]
      simp only [hmem]
    · rw [HierarchicalBitmap.nextSet, if_pos (by rw [h.bits]; omega)]
      exact iff_of_false (by rintro ⟨⟩) fun hr => hi hr.1
  case previousSet =>
    intro i r
    by_cases hi : i < n
    · rw [(h.previousSet hi).eq_some_iff hi, and_iff_right hi]
      simp only [hmem]
    · rw [HierarchicalBitmap.previousSet, if_pos (by rw [h.bits]; omega)]
      exact iff_of_false (by rintro ⟨⟩) fun hr => hi hr.1
  case set_outside => exact fun i hi => set_of_le (h.bits ▸ hi)
  case clear_outside => exact fun i hi => clear_of_le (h.bits ▸ hi)
  case consistent => exact h.hierarchyConsistent

end Calls

/-- The words of a level end within the words of the bitmap. -/
theorem Shape.level_le {bm : HierarchicalBitmap} (h : Shape bm) {l : Nat} (hl : l < bm.levelCount) :
    bm.offsets l + bm.wordCounts l ≤ bm.totalWords := by
  have hpos := h.wordCounts_pos hl
  have hlast := h.place_lt hl (Nat.sub_one_lt_of_lt hpos)
  omega

/-- The word of an index in each level, where the calls climb to, is one of the level's. -/
theorem Shape.climb_lt {bm : HierarchicalBitmap} (h : Shape bm) {i : Nat} (hi : i < bm.bitCount) {l : Nat} (hl : l < bm.levelCount) :
    i / kWordBits ^ (l + 1) < bm.wordCounts l := by
  induction l with
  | zero => simpa using h.div_lt hl (by rw [levelBits, if_pos rfl]; exact hi)
  | succ l ih =>
    rw [pow_succ, ← Nat.div_div_eq_div_mul]
    exact h.div_lt hl (by rw [levelBits_succ]; exact ih (Nat.lt_of_succ_lt hl))

end HierarchicalBitmap

/-- For every number of bits, the layout has at most six levels, all inside the word array and with it each word an index leads to, and
after any calls the bitmap answers as the set that the calls leave. -/
theorem bitmap_refines_set (n : Nat) (hpos : 0 < n) (hlt : n < 2 ^ 32) :
    (∃ layout, makeLayout n = some layout ∧ layout.levelCount ≤ 6 ∧
      ∀ l, l < layout.levelCount → layout.offsets l + layout.wordCounts l ≤ layout.totalWords ∧
        ∀ i, i < n → i / kWordBits ^ (l + 1) < layout.wordCounts l) ∧
    ∃ bm, HierarchicalBitmap.create n = some bm ∧
      ∀ calls, (bm.performAll calls).AnswersAs n (HierarchicalBitmap.Call.effects n calls) := by
  obtain ⟨bm, hbm, hholds⟩ := HierarchicalBitmap.create_holds hpos hlt
  refine ⟨?_, bm, hbm, fun calls => ?_⟩
  · obtain ⟨layout, hlayout, rfl⟩ := Option.map_eq_some_iff.mp hbm
    exact ⟨layout, hlayout, hholds.shape.levels_le, fun l hl => ⟨hholds.shape.level_le hl, fun i hi => hholds.shape.climb_lt hi hl⟩⟩
  · have hempty : bm.Holds n (· ∈ (∅ : Finset Nat)) := hholds.congr fun j _ => (iff_of_false id (Finset.notMem_empty j))
    obtain ⟨hrun, hsub⟩ := hempty.performAll (Finset.empty_subset _) calls
    exact hrun.answersAs hsub

/-- The bitmap of the largest number of bits. -/
theorem bitmap_refines_set_largest :
    (∃ layout, makeLayout (2 ^ 32 - 1) = some layout ∧ layout.levelCount ≤ 6 ∧
      ∀ l, l < layout.levelCount → layout.offsets l + layout.wordCounts l ≤ layout.totalWords ∧
        ∀ i, i < 2 ^ 32 - 1 → i / kWordBits ^ (l + 1) < layout.wordCounts l) ∧
    ∃ bm, HierarchicalBitmap.create (2 ^ 32 - 1) = some bm ∧
      ∀ calls, (bm.performAll calls).AnswersAs (2 ^ 32 - 1) (HierarchicalBitmap.Call.effects (2 ^ 32 - 1) calls) :=
  bitmap_refines_set (2 ^ 32 - 1) (by decide) (by decide)

end MatchingEngine

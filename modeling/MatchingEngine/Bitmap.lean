import MatchingEngine.Types
import Mathlib.Logic.Function.Basic

/-!
# The hierarchical bitmap

`HierarchicalBitmap` of `hierarchical_bitmap.hpp`: one bit for each price level, and above it summary levels whose bits say which
words of the level below are not zero. The words of all levels lie in one array, each level from its offset on.
-/

namespace MatchingEngine

open Function

/-- `kWordBits`. -/
abbrev kWordBits : Nat := 64

/-- `kMaximumLevels`. -/
def kMaximumLevels : Nat := 6

/-- `std::uint64_t{1} << k`. -/
def bit64 (k : Nat) : BitVec 64 := BitVec.twoPow 64 k

/-- `std::countr_zero`. -/
def countrZero (w : BitVec 64) : Nat := ((List.range 64).find? fun i => w.getLsbD i).getD 64

/-- `std::countl_zero`. -/
def countlZero (w : BitVec 64) : Nat := ((List.range 64).find? fun i => w.getLsbD (63 - i)).getD 64

/-- `HierarchicalBitmap::Layout`. -/
structure Layout where
  offsets : Nat → Nat
  wordCounts : Nat → Nat
  levelCount : Nat
  totalWords : Nat

/-- The loop of `make_layout`, with the levels it may still add; `none` where it throws. -/
def makeLayoutFrom : Nat → Nat → Layout → Option Layout
  | 0, _, _ => none
  | k + 1, levelBits, layout =>
    let wordCount := (levelBits + (kWordBits - 1)) / kWordBits
    if 2 ^ 32 - 1 < wordCount then none
    else if 2 ^ 64 - 1 - wordCount < layout.totalWords then none
    else
      let layout' : Layout :=
        { offsets := update layout.offsets layout.levelCount layout.totalWords
          wordCounts := update layout.wordCounts layout.levelCount wordCount
          levelCount := layout.levelCount + 1
          totalWords := layout.totalWords + wordCount }
      if wordCount = 1 then some layout' else makeLayoutFrom k wordCount layout'

/-- `make_layout`. -/
def makeLayout (bitCount : Nat) : Option Layout :=
  if bitCount = 0 then none
  else
    match makeLayoutFrom kMaximumLevels bitCount ⟨fun _ => 0, fun _ => 0, 0, 0⟩ with
    | none => none
    | some layout => if (2 ^ 64 - 1) / 8 < layout.totalWords then none else some layout

structure HierarchicalBitmap where
  bitCount : Nat
  offsets : Nat → Nat
  wordCounts : Nat → Nat
  levelCount : Nat
  totalWords : Nat
  words : Nat → BitVec 64

namespace HierarchicalBitmap

/-- The constructor: all bits clear; `none` where it throws. -/
def create (bitCount : Nat) : Option HierarchicalBitmap :=
  (makeLayout bitCount).map fun layout =>
    ⟨bitCount, layout.offsets, layout.wordCounts, layout.levelCount, layout.totalWords, fun _ => 0#64⟩

variable (bm : HierarchicalBitmap)

/-- `word(level, word_index)`. -/
def word (level wordIndex : Nat) : BitVec 64 := bm.words (bm.offsets level + wordIndex)

/-- Store into `word(level, word_index)`. -/
def setWord (level wordIndex : Nat) (value : BitVec 64) : HierarchicalBitmap :=
  { bm with words := update bm.words (bm.offsets level + wordIndex) value }

/-- The loop of `set` over the summary levels from `level` on, leaving at the first word that was not empty. -/
def setSummaries : Nat → HierarchicalBitmap → Nat → Nat → HierarchicalBitmap
  | 0, bm, _, _ => bm
  | k + 1, bm, level, childWord =>
    if level < bm.levelCount then
      let summary := bm.word level (childWord / kWordBits)
      let bm' := bm.setWord level (childWord / kWordBits) (summary ||| bit64 (childWord % kWordBits))
      if summary ≠ 0#64 then bm' else setSummaries k bm' (level + 1) (childWord / kWordBits)
    else bm

/-- `set`, for its effect. -/
def set (index : Nat) : HierarchicalBitmap :=
  if bm.bitCount ≤ index then bm
  else
    let base := bm.word 0 (index / kWordBits)
    let bit := bit64 (index % kWordBits)
    if base &&& bit ≠ 0#64 then bm
    else
      let bm' := bm.setWord 0 (index / kWordBits) (base ||| bit)
      if base ≠ 0#64 then bm' else setSummaries bm.levelCount bm' 1 (index / kWordBits)

/-- The loop of `clear` over the summary levels from `level` on, leaving at the first word that stays nonempty. -/
def clearSummaries : Nat → HierarchicalBitmap → Nat → Nat → HierarchicalBitmap
  | 0, bm, _, _ => bm
  | k + 1, bm, level, childWord =>
    if level < bm.levelCount then
      let summary := bm.word level (childWord / kWordBits) &&& ~~~bit64 (childWord % kWordBits)
      let bm' := bm.setWord level (childWord / kWordBits) summary
      if summary ≠ 0#64 then bm' else clearSummaries k bm' (level + 1) (childWord / kWordBits)
    else bm

/-- `clear`, for its effect. -/
def clear (index : Nat) : HierarchicalBitmap :=
  if bm.bitCount ≤ index then bm
  else
    let base := bm.word 0 (index / kWordBits)
    let bit := bit64 (index % kWordBits)
    if base &&& bit = 0#64 then bm
    else
      let base' := base &&& ~~~bit
      let bm' := bm.setWord 0 (index / kWordBits) base'
      if base' ≠ 0#64 then bm' else clearSummaries bm.levelCount bm' 1 (index / kWordBits)

/-- `test`. -/
def test (index : Nat) : Option Bool :=
  if bm.bitCount ≤ index then none
  else some (bm.word 0 (index / kWordBits) &&& bit64 (index % kWordBits) ≠ 0#64)

/-- `checked_word`: `none` for a null pointer. -/
def checkedWord (level wordIndex : Nat) : Option (BitVec 64) :=
  if bm.levelCount ≤ level ∨ kMaximumLevels ≤ level ∨ bm.wordCounts level ≤ wordIndex ∨
      bm.totalWords < bm.offsets level ∨ bm.totalWords - bm.offsets level ≤ wordIndex then none
  else some (bm.word level wordIndex)

/-- `level_bit_count`. -/
def levelBitCount (level : Nat) : Nat :=
  if bm.levelCount ≤ level ∨ kMaximumLevels ≤ level then 0
  else if level = 0 then bm.bitCount else bm.wordCounts (level - 1)

/-- `find_at_or_after`; the first argument bounds the levels the recursion can climb. -/
def findAtOrAfter : Nat → Nat → Nat → Option Nat
  | 0, _, _ => none
  | k + 1, level, index =>
    let representedBits := bm.levelBitCount level
    if representedBits = 0 ∨ representedBits ≤ index then none
    else
      let wordIndex := index / kWordBits
      match bm.checkedWord level wordIndex with
      | none => none
      | some current =>
        let candidates := current &&& (BitVec.allOnes 64 <<< (index % kWordBits))
        if candidates ≠ 0#64 then
          let result := wordIndex * kWordBits + countrZero candidates
          if result < representedBits then some result else none
        else if bm.levelCount - 1 ≤ level then none
        else
          match findAtOrAfter k (level + 1) (wordIndex + 1) with
          | none => none
          | some nextWord =>
            if bm.wordCounts level ≤ nextWord then none
            else
              match bm.checkedWord level nextWord with
              | none => none
              | some populated =>
                if populated = 0#64 then none
                else
                  let result := nextWord * kWordBits + countrZero populated
                  if result < representedBits then some result else none

/-- `find_at_or_before`; the first argument bounds the levels the recursion can climb. -/
def findAtOrBefore : Nat → Nat → Nat → Option Nat
  | 0, _, _ => none
  | k + 1, level, index =>
    let representedBits := bm.levelBitCount level
    if representedBits = 0 ∨ representedBits ≤ index then none
    else
      let wordIndex := index / kWordBits
      match bm.checkedWord level wordIndex with
      | none => none
      | some current =>
        let bitIndex := index % kWordBits
        let mask := if bitIndex = kWordBits - 1 then BitVec.allOnes 64 else bit64 (bitIndex + 1) - 1#64
        let candidates := current &&& mask
        if candidates ≠ 0#64 then some (wordIndex * kWordBits + (kWordBits - 1) - countlZero candidates)
        else if bm.levelCount - 1 ≤ level ∨ wordIndex = 0 then none
        else
          match findAtOrBefore k (level + 1) (wordIndex - 1) with
          | none => none
          | some previousWord =>
            if bm.wordCounts level ≤ previousWord then none
            else
              match bm.checkedWord level previousWord with
              | none => none
              | some populated =>
                if populated = 0#64 then none
                else
                  let result := previousWord * kWordBits + (kWordBits - 1) - countlZero populated
                  if result < representedBits then some result else none

/-- `first_set`. -/
def firstSet : Option Nat := bm.findAtOrAfter bm.levelCount 0 0

/-- `last_set`. -/
def lastSet : Option Nat := bm.findAtOrBefore bm.levelCount 0 (bm.bitCount - 1)

/-- `next_set`. -/
def nextSet (index : Nat) : Option Nat :=
  if bm.bitCount ≤ index then none else bm.findAtOrAfter bm.levelCount 0 index

/-- `previous_set`. -/
def previousSet (index : Nat) : Option Nat :=
  if bm.bitCount ≤ index then none else bm.findAtOrBefore bm.levelCount 0 index

/-- The first loop of `hierarchy_consistent`, from `level` on: `none` where it returns false, else the words it counted. -/
def layoutConsistentFrom : Nat → Nat → Nat → Nat → Option Nat
  | 0, _, _, expectedOffset => some expectedOffset
  | k + 1, level, representedBits, expectedOffset =>
    let expectedWords := (representedBits - 1) / kWordBits + 1
    if 2 ^ 32 - 1 < expectedWords ∨ bm.wordCounts level ≠ expectedWords ∨ bm.offsets level ≠ expectedOffset ∨
        bm.totalWords < expectedOffset ∨ bm.totalWords - expectedOffset < bm.wordCounts level then none
    else if (bm.wordCounts level = 1) ≠ (level + 1 = bm.levelCount) then none
    else layoutConsistentFrom k (level + 1) (bm.wordCounts level) (expectedOffset + bm.wordCounts level)

/-- The padding check of one level. -/
def paddingClear (level representedBits : Nat) : Bool :=
  let validBits := representedBits % kWordBits
  if validBits = 0 then true
  else
    match bm.checkedWord level (bm.wordCounts level - 1) with
    | none => false
    | some lastWord => lastWord &&& (BitVec.allOnes 64 <<< validBits) = 0#64

/-- The summary check of one word of the level below. -/
def summaryMatches (level lowerIndex : Nat) : Bool :=
  match bm.checkedWord (level - 1) lowerIndex, bm.checkedWord level (lowerIndex / kWordBits) with
  | some lower, some summary => (summary &&& bit64 (lowerIndex % kWordBits) ≠ 0#64) = (lower ≠ 0#64)
  | _, _ => false

/-- The second loop of `hierarchy_consistent`, from `level` on. -/
def summariesConsistentFrom : Nat → Nat → Nat → Bool
  | 0, _, _ => true
  | k + 1, level, representedBits =>
    bm.paddingClear level representedBits &&
    (level = 0 || (List.range (bm.wordCounts (level - 1))).all (bm.summaryMatches level)) &&
    summariesConsistentFrom k (level + 1) (bm.wordCounts level)

/-- `hierarchy_consistent`. -/
def hierarchyConsistent : Bool :=
  if bm.bitCount = 0 ∨ bm.levelCount = 0 ∨ kMaximumLevels < bm.levelCount ∨ bm.totalWords = 0 then false
  else
    match bm.layoutConsistentFrom bm.levelCount 0 bm.bitCount 0 with
    | none => false
    | some expectedOffset =>
      if expectedOffset ≠ bm.totalWords then false
      else bm.summariesConsistentFrom bm.levelCount 0 bm.bitCount && bm.wordCounts (bm.levelCount - 1) = 1

end HierarchicalBitmap

end MatchingEngine

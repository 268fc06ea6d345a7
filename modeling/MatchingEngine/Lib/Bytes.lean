import Mathlib.Data.List.Basic
import Mathlib.Data.List.Induction
import Mathlib.Data.Nat.Init
import Mathlib.Tactic.Ring

/-!
# Bytes by offset

A `Buffer` is the content of a file or a span, by offset; its length is known elsewhere. Numbers are stored in a fixed number of
bytes, lowest byte first. A field is read back from the write of the same field, and is not touched by the write of another.
-/

/-- The bytes of a file or a span, by offset. -/
abbrev Buffer := Nat → UInt8

namespace Buffer

variable (b c : Buffer)

/-! ## Numbers -/

/-- Nothing but zeros. -/
def zeros : Buffer := fun _ => 0

/-- The byte of a number at the weight `256 ^ index`. -/
def byteOf (value index : Nat) : UInt8 := UInt8.ofNat (value / 256 ^ index)

/-- The number in the `width` bytes from `offset` on, lowest byte first. -/
def readLE (offset : Nat) : Nat → Nat
  | 0 => 0
  | width + 1 => readLE offset width + (b (offset + width)).toNat * 256 ^ width

/-- The buffer with `value` in the `width` bytes from `offset` on, lowest byte first. -/
def writeLE (offset width value : Nat) : Buffer := fun i =>
  if offset ≤ i ∧ i < offset + width then byteOf value (i - offset) else b i

/-- The buffer with the bytes of `c` in the `width` bytes from `offset` on. -/
def splice (offset width : Nat) : Buffer := fun i => if offset ≤ i ∧ i < offset + width then c (i - offset) else b i

/-- The bytes from `offset` on, as a buffer of their own. -/
def view (offset : Nat) : Buffer := fun i => b (offset + i)

/-- The `width` bytes from `offset` on, in their order. -/
def slice (offset width : Nat) : List UInt8 := (List.range width).map fun i => b (offset + i)

/-- The bytes of a list, by position. -/
def ofList (bytes : List UInt8) : Buffer := fun i => bytes.getD i 0

/-- Whether the `width` bytes from `offset` on are all zero. -/
def allZero (offset width : Nat) : Bool := (List.range width).all fun i => b (offset + i) = 0

variable {b c}

/-- The byte of a value at an index, as a number. -/
theorem byteOf_toNat (value index : Nat) : (byteOf value index).toNat = value / 256 ^ index % 256 := by
  rw [byteOf, UInt8.toNat_ofNat']

/-- A number depends on its own bytes alone. -/
theorem readLE_congr {offset width : Nat} (h : ∀ i < width, b (offset + i) = c (offset + i)) :
    b.readLE offset width = c.readLE offset width := by
  induction width with
  | zero => rfl
  | succ width ih =>
    rw [readLE, readLE, ih fun i hi => h i (Nat.lt_succ_of_lt hi), h width (Nat.lt_succ_self width)]

/-- A number of `width` bytes is below `256 ^ width`. -/
theorem readLE_lt (b : Buffer) (offset width : Nat) : b.readLE offset width < 256 ^ width := by
  induction width with
  | zero => exact Nat.one_pos
  | succ width ih =>
    have hb := (b (offset + width)).toNat_lt
    calc b.readLE offset (width + 1) < 256 ^ width + (b (offset + width)).toNat * 256 ^ width :=
          Nat.add_lt_add_right ih _
      _ = ((b (offset + width)).toNat + 1) * 256 ^ width := by ring
      _ ≤ 256 * 256 ^ width := Nat.mul_le_mul_right _ hb
      _ = 256 ^ (width + 1) := by ring

/-- The digits of a number, up to a width, add up to its remainder. -/
theorem readLE_byteOf {offset : Nat} (value width : Nat) (h : ∀ i < width, b (offset + i) = byteOf value i) :
    b.readLE offset width = value % 256 ^ width := by
  induction width with
  | zero => rw [readLE, pow_zero, Nat.mod_one]
  | succ width ih =>
    rw [readLE, ih fun i hi => h i (Nat.lt_succ_of_lt hi), h width (Nat.lt_succ_self width), byteOf_toNat, pow_succ,
      Nat.mod_mul]
    ring

/-- A number is read back from where it was written. -/
theorem readLE_writeLE_same (b : Buffer) (offset width value : Nat) :
    (b.writeLE offset width value).readLE offset width = value % 256 ^ width := by
  refine readLE_byteOf value width fun i hi => ?_
  rw [writeLE, if_pos ⟨Nat.le_add_right _ _, Nat.add_lt_add_left hi _⟩, Nat.add_sub_cancel_left]

/-- A write keeps the bytes outside its window. -/
theorem writeLE_of_not_mem {offset width value i : Nat} (h : i < offset ∨ offset + width ≤ i) :
    b.writeLE offset width value i = b i :=
  if_neg fun hi => by omega

/-- Where two buffers agree, they still do after the same write. -/
theorem writeLE_congr_at {i : Nat} (h : b i = c i) (offset width value : Nat) :
    b.writeLE offset width value i = c.writeLE offset width value i := by
  simp only [writeLE, h]

/-- A number written elsewhere is not read. -/
theorem readLE_writeLE_other {offset width value offset' width' : Nat} (h : offset' + width' ≤ offset ∨ offset + width ≤ offset') :
    (b.writeLE offset width value).readLE offset' width' = b.readLE offset' width' :=
  readLE_congr fun i hi => writeLE_of_not_mem (by omega)

/-- A digit of the number read is the byte it was read from. -/
theorem byteOf_readLE {offset width i : Nat} (h : i < width) : byteOf (b.readLE offset width) i = b (offset + i) := by
  induction width with
  | zero => exact absurd h (Nat.not_lt_zero i)
  | succ width ih =>
    have hlt := readLE_lt b offset width
    have hb := (b (offset + width)).toNat_lt
    apply UInt8.toNat_inj.mp
    rw [byteOf_toNat, readLE]
    by_cases hi : i < width
    · have hih := congrArg UInt8.toNat (ih hi)
      rw [byteOf_toNat] at hih
      obtain ⟨k, rfl⟩ := Nat.exists_eq_add_of_lt hi
      have hp : (256 : Nat) ^ (i + k + 1) = 256 ^ i * (256 * 256 ^ k) := by ring
      rw [hp, show (b (offset + (i + k + 1))).toNat * (256 ^ i * (256 * 256 ^ k)) =
        256 ^ i * (256 * ((b (offset + (i + k + 1))).toNat * 256 ^ k)) by ring,
        Nat.add_mul_div_left _ _ (Nat.pow_pos (by decide)), Nat.add_mul_mod_self_left]
      exact hih
    · obtain rfl : i = width := by omega
      rw [Nat.mul_comm, Nat.add_mul_div_left _ _ (Nat.pow_pos (by decide)), Nat.div_eq_of_lt hlt, Nat.zero_add]
      exact Nat.mod_eq_of_lt hb

/-- Two buffers with the same number in a field agree on its bytes. -/
theorem eq_of_readLE_eq {offset width i : Nat} (h : b.readLE offset width = c.readLE offset width) (hi : i < width) :
    b (offset + i) = c (offset + i) := by
  rw [← byteOf_readLE (b := b) hi, ← byteOf_readLE (b := c) hi, h]

/-- A buffer with the number of a field written into it has the bytes the number was read from. -/
theorem writeLE_readLE {offset width value i : Nat} (h : c.readLE offset width = value) (hl : offset ≤ i) (hu : i < offset + width) :
    b.writeLE offset width value i = c i := by
  obtain ⟨k, rfl⟩ := Nat.exists_eq_add_of_le hl
  rw [writeLE, if_pos ⟨hl, hu⟩, ← h, Nat.add_sub_cancel_left, byteOf_readLE (by omega)]

/-- A window is zero if each of its bytes is. -/
theorem allZero_iff {offset width : Nat} : b.allZero offset width = true ↔ ∀ i < width, b (offset + i) = 0 := by
  simp only [allZero, List.all_eq_true, List.mem_range, decide_eq_true_eq]

/-- This depends on the bytes of the window alone. -/
theorem allZero_congr {offset width : Nat} (h : ∀ i < width, b (offset + i) = c (offset + i)) :
    b.allZero offset width = c.allZero offset width := by
  rw [Bool.eq_iff_iff, allZero_iff, allZero_iff]
  exact forall_congr' fun i => imp_congr_right fun hi => by rw [h i hi]

/-- The number zero is read from zero bytes. -/
theorem readLE_eq_zero {offset width : Nat} (h : ∀ i < width, b (offset + i) = 0) : b.readLE offset width = 0 := by
  rw [readLE_byteOf 0 width fun i hi => by rw [h i hi, byteOf, Nat.zero_div]; rfl, Nat.zero_mod]

/-! ## Words -/

/-- The 32-bit word at `offset`. -/
def readU32 (b : Buffer) (offset : Nat) : UInt32 := UInt32.ofNat (b.readLE offset 4)

/-- The 64-bit word at `offset`. -/
def readU64 (b : Buffer) (offset : Nat) : UInt64 := UInt64.ofNat (b.readLE offset 8)

/-- The buffer with a 32-bit word at `offset`. -/
def writeU32 (b : Buffer) (offset : Nat) (value : UInt32) : Buffer := b.writeLE offset 4 value.toNat

/-- The buffer with a 64-bit word at `offset`. -/
def writeU64 (b : Buffer) (offset : Nat) (value : UInt64) : Buffer := b.writeLE offset 8 value.toNat

/-- The buffer with one byte at `offset`. -/
def writeU8 (b : Buffer) (offset : Nat) (value : UInt8) : Buffer := fun i => if i = offset then value else b i

/-- A 64-bit read is the number of its eight bytes. -/
theorem readU64_toNat (b : Buffer) (offset : Nat) : (b.readU64 offset).toNat = b.readLE offset 8 :=
  UInt64.toNat_ofNat_of_lt' (readLE_lt b offset 8)

/-- A 32-bit number is read back. -/
@[simp] theorem readU32_writeU32_same (b : Buffer) (offset : Nat) (value : UInt32) :
    (b.writeU32 offset value).readU32 offset = value := by
  have hlt : value.toNat < 256 ^ 4 := value.toNat_lt
  rw [readU32, writeU32, readLE_writeLE_same, Nat.mod_eq_of_lt hlt, UInt32.ofNat_toNat]

/-- A 64-bit number is read back. -/
@[simp] theorem readU64_writeU64_same (b : Buffer) (offset : Nat) (value : UInt64) :
    (b.writeU64 offset value).readU64 offset = value := by
  have hlt : value.toNat < 256 ^ 8 := value.toNat_lt
  rw [readU64, writeU64, readLE_writeLE_same, Nat.mod_eq_of_lt hlt, UInt64.ofNat_toNat]

/-- A byte is read back. -/
@[simp] theorem writeU8_same (b : Buffer) (offset : Nat) (value : UInt8) : b.writeU8 offset value offset = value := if_pos rfl

/-- Where two buffers agree, they still do with the same byte written. -/
theorem writeU8_congr_at {i : Nat} (h : b i = c i) (offset : Nat) (value : UInt8) :
    b.writeU8 offset value i = c.writeU8 offset value i := by
  simp only [writeU8, h]

/-- Another byte is kept. -/
theorem writeU8_other {offset i : Nat} {value : UInt8} (h : i ≠ offset) : b.writeU8 offset value i = b i := if_neg h

/-- A 32-bit write keeps the bytes outside its window. -/
theorem writeU32_of_not_mem {offset i : Nat} {value : UInt32} (h : i < offset ∨ offset + 4 ≤ i) : b.writeU32 offset value i = b i :=
  writeLE_of_not_mem h

/-- A 64-bit write keeps the bytes outside its window. -/
theorem writeU64_of_not_mem {offset i : Nat} {value : UInt64} (h : i < offset ∨ offset + 8 ≤ i) : b.writeU64 offset value i = b i :=
  writeLE_of_not_mem h

/-- A 32-bit read depends on its four bytes alone. -/
theorem readU32_congr {offset : Nat} (h : ∀ i < 4, b (offset + i) = c (offset + i)) : b.readU32 offset = c.readU32 offset :=
  congrArg UInt32.ofNat (readLE_congr h)

/-- A 64-bit read depends on its eight bytes alone. -/
theorem readU64_congr {offset : Nat} (h : ∀ i < 8, b (offset + i) = c (offset + i)) : b.readU64 offset = c.readU64 offset :=
  congrArg UInt64.ofNat (readLE_congr h)

/-- A 32-bit write apart from a 32-bit read does not change it. -/
theorem readU32_writeU32_other {offset offset' : Nat} {value : UInt32} (h : offset' + 4 ≤ offset ∨ offset + 4 ≤ offset') :
    (b.writeU32 offset value).readU32 offset' = b.readU32 offset' :=
  congrArg UInt32.ofNat (readLE_writeLE_other h)

/-- Nor does a 64-bit write apart from it. -/
theorem readU32_writeU64_other {offset offset' : Nat} {value : UInt64} (h : offset' + 4 ≤ offset ∨ offset + 8 ≤ offset') :
    (b.writeU64 offset value).readU32 offset' = b.readU32 offset' :=
  congrArg UInt32.ofNat (readLE_writeLE_other h)

/-- A 32-bit write apart from a 64-bit read does not change it. -/
theorem readU64_writeU32_other {offset offset' : Nat} {value : UInt32} (h : offset' + 8 ≤ offset ∨ offset + 4 ≤ offset') :
    (b.writeU32 offset value).readU64 offset' = b.readU64 offset' :=
  congrArg UInt64.ofNat (readLE_writeLE_other h)

/-- Nor does a 64-bit write apart from it. -/
theorem readU64_writeU64_other {offset offset' : Nat} {value : UInt64} (h : offset' + 8 ≤ offset ∨ offset + 8 ≤ offset') :
    (b.writeU64 offset value).readU64 offset' = b.readU64 offset' :=
  congrArg UInt64.ofNat (readLE_writeLE_other h)

/-- Two words are equal exactly when their bytes are. -/
theorem readU32_inj {offset : Nat} : b.readU32 offset = c.readU32 offset ↔ ∀ i < 4, b (offset + i) = c (offset + i) := by
  refine ⟨fun h i hi => eq_of_readLE_eq ?_ hi, readU32_congr⟩
  have h' := congrArg UInt32.toNat h
  rwa [readU32, readU32, UInt32.toNat_ofNat_of_lt' (readLE_lt b offset 4), UInt32.toNat_ofNat_of_lt' (readLE_lt c offset 4)] at h'

/-! ## Parts -/

/-- A view is read from its offset on. -/
@[simp] theorem view_apply (b : Buffer) (offset i : Nat) : b.view offset i = b (offset + i) := rfl

/-- Inside the window a splice has the bytes of the other buffer. -/
theorem splice_of_mem {offset width i : Nat} (h : i < width) : b.splice c offset width (offset + i) = c i := by
  rw [splice, if_pos ⟨Nat.le_add_right _ _, Nat.add_lt_add_left h _⟩, Nat.add_sub_cancel_left]

/-- Outside the window it keeps its own. -/
theorem splice_of_not_mem {offset width i : Nat} (h : i < offset ∨ offset + width ≤ i) : b.splice c offset width i = b i :=
  if_neg fun hi => by omega

/-- A splice apart from a 32-bit read does not change it. -/
theorem readU32_splice_other {offset width offset' : Nat} (h : offset' + 4 ≤ offset ∨ offset + width ≤ offset') :
    (b.splice c offset width).readU32 offset' = b.readU32 offset' :=
  readU32_congr fun i hi => splice_of_not_mem (by omega)

/-- Nor one apart from a 64-bit read. -/
theorem readU64_splice_other {offset width offset' : Nat} (h : offset' + 8 ≤ offset ∨ offset + width ≤ offset') :
    (b.splice c offset width).readU64 offset' = b.readU64 offset' :=
  readU64_congr fun i hi => splice_of_not_mem (by omega)

/-- A slice depends on its own bytes alone. -/
theorem slice_congr {offset width : Nat} (h : ∀ i < width, b (offset + i) = c (offset + i)) :
    b.slice offset width = c.slice offset width :=
  List.map_congr_left fun i hi => h i (List.mem_range.mp hi)

/-- A slice has the length of its window. -/
@[simp] theorem slice_length (b : Buffer) (offset width : Nat) : (b.slice offset width).length = width := by
  rw [slice, List.length_map, List.length_range]

/-- A buffer of a slice has its bytes. -/
theorem ofList_slice {width i : Nat} (h : i < width) : ofList (b.slice 0 width) i = b i := by
  have hi : i < (b.slice 0 width).length := by rwa [slice_length]
  rw [ofList, List.getD_eq_getElem?_getD, List.getElem?_eq_getElem hi, Option.getD_some]
  simp only [slice, List.getElem_map, List.getElem_range, Nat.zero_add]

/-- A list is the slice of a buffer with its bytes. -/
theorem slice_eq_iff {bytes : List UInt8} {width : Nat} (hw : bytes.length = width) :
    b.slice 0 width = bytes ↔ ∀ i < width, b i = ofList bytes i := by
  constructor
  · rintro rfl i hi
    exact (ofList_slice hi).symm
  · intro h
    refine List.ext_getElem (by rw [slice_length, hw]) fun i hi hi' => ?_
    have hb := h i (hw ▸ hi')
    rw [ofList, List.getD_eq_getElem?_getD, List.getElem?_eq_getElem hi', Option.getD_some] at hb
    rw [← hb]
    simp only [slice, List.getElem_map, List.getElem_range, Nat.zero_add]

/-- A list is read as before where another byte is added at its end. -/
theorem ofList_snoc_of_lt {bytes : List UInt8} {last : UInt8} {i : Nat} (h : i < bytes.length) : ofList (bytes ++ [last]) i = ofList bytes i := by
  rw [ofList, ofList, List.getD_eq_getElem?_getD, List.getElem?_append_left h, ← List.getD_eq_getElem?_getD]

/-- The last byte of a list stands behind the others. -/
theorem ofList_snoc_length (bytes : List UInt8) (last : UInt8) : ofList (bytes ++ [last]) bytes.length = last := by
  rw [ofList, List.getD_eq_getElem?_getD, List.getElem?_concat_length, Option.getD_some]

/-- A loop that passes over the `width` bytes from `offset` on runs over the bytes before and after them. By the last byte, which is before
the window, inside it, or after it. -/
theorem foldl_skip {σ : Type} (f : σ → UInt8 → σ) (init : σ) (bytes : List UInt8) (offset width : Nat) :
    (List.range bytes.length).foldl (fun s i => if offset ≤ i ∧ i < offset + width then s else f s (ofList bytes i)) init =
      (bytes.take offset ++ bytes.drop (offset + width)).foldl f init := by
  induction bytes using List.reverseRecOn with
  | nil => rw [List.take_nil, List.drop_nil, List.append_nil, List.length_nil, List.range_zero, List.foldl_nil, List.foldl_nil]
  | append_singleton bytes last ih =>
    have hbefore : (List.range bytes.length).foldl
        (fun s i => if offset ≤ i ∧ i < offset + width then s else f s (ofList (bytes ++ [last]) i)) init =
          (bytes.take offset ++ bytes.drop (offset + width)).foldl f init := by
      rw [← ih]
      refine List.foldl_ext _ _ _ fun s i hi => ?_
      rw [ofList_snoc_of_lt (List.mem_range.mp hi)]
    rw [List.length_append, List.length_singleton, List.range_succ, List.foldl_append, hbefore, List.foldl_cons, List.foldl_nil,
      ofList_snoc_length, List.take_append, List.drop_append]
    rcases Nat.lt_or_ge bytes.length offset with hlt | hge
    · obtain ⟨k, hk⟩ := Nat.exists_eq_succ_of_ne_zero (Nat.sub_ne_zero_of_lt hlt)
      rw [if_neg (by omega), hk, List.take_succ_cons, List.take_nil, List.drop_of_length_le (Nat.le_of_lt (by omega)),
        List.drop_of_length_le (by rw [List.length_singleton]; omega), List.append_nil, List.append_nil, List.append_nil, List.foldl_concat]
    · rw [Nat.sub_eq_zero_of_le hge, List.take_zero, List.append_nil]
      rcases Nat.lt_or_ge bytes.length (offset + width) with hlt | hge'
      · rw [if_pos ⟨hge, hlt⟩, List.drop_of_length_le (l := [last]) (by rw [List.length_singleton]; omega), List.append_nil]
      · rw [if_neg (by omega), Nat.sub_eq_zero_of_le hge', List.drop_zero, ← List.append_assoc, List.foldl_concat]

/-! ## Copies -/

/-- A byte over a byte of the same value, or elsewhere than the byte looked at, makes the buffer like another one there. -/
theorem writeU8_copy {offset i : Nat} {value : UInt8} (h : c offset = value) (hi : ¬i = offset → b i = c i) :
    b.writeU8 offset value i = c i := by
  by_cases he : i = offset
  · rw [he, writeU8_same, h]
  · rw [writeU8_other he, hi he]

/-- A number that another buffer has in its place makes a buffer like the other one there, and leaves the rest. -/
theorem writeLE_copy {offset width value i : Nat} (h : c.readLE offset width = value)
    (hi : ¬(offset ≤ i ∧ i < offset + width) → b i = c i) : b.writeLE offset width value i = c i := by
  by_cases he : offset ≤ i ∧ i < offset + width
  · exact writeLE_readLE h he.1 he.2
  · rw [writeLE_of_not_mem (by omega), hi he]

/-- To write the 32-bit number another buffer has is to copy its bytes. -/
theorem writeU32_copy {offset i : Nat} {value : UInt32} (h : c.readU32 offset = value)
    (hi : ¬(offset ≤ i ∧ i < offset + 4) → b i = c i) : b.writeU32 offset value i = c i := by
  refine writeLE_copy ?_ hi
  rw [← h, readU32, UInt32.toNat_ofNat_of_lt' (readLE_lt c offset 4)]

/-- To write the 64-bit number another buffer has is to copy its bytes. -/
theorem writeU64_copy {offset i : Nat} {value : UInt64} (h : c.readU64 offset = value)
    (hi : ¬(offset ≤ i ∧ i < offset + 8) → b i = c i) : b.writeU64 offset value i = c i := by
  refine writeLE_copy ?_ hi
  rw [← h, readU64, UInt64.toNat_ofNat_of_lt' (readLE_lt c offset 8)]

/-- To splice in the window of another buffer is to copy its bytes. -/
theorem splice_copy {d : Buffer} {offset width i : Nat} (h : ∀ k < width, d k = c (offset + k))
    (hi : ¬(offset ≤ i ∧ i < offset + width) → b i = c i) : b.splice d offset width i = c i := by
  by_cases he : offset ≤ i ∧ i < offset + width
  · obtain ⟨k, rfl⟩ := Nat.exists_eq_add_of_le he.1
    rw [splice_of_mem (by omega), h k (by omega)]
  · rw [splice_of_not_mem (by omega), hi he]

/-! ## Fields -/

/-- A number in its place: `width` bytes from `offset` on. -/
structure Field where
  offset : Nat
  width : Nat
  value : Nat
  deriving DecidableEq, Repr

/-- The position is one of the field's. -/
def Field.Covers (f : Field) (i : Nat) : Prop := f.offset ≤ i ∧ i < f.offset + f.width

instance (f : Field) (i : Nat) : Decidable (f.Covers i) := inferInstanceAs (Decidable (_ ∧ _))

/-- The buffer with each field written, in their order. -/
def writeFields (b : Buffer) (fields : List Field) : Buffer := fields.foldl (fun b f => b.writeLE f.offset f.width f.value) b

/-- No field writes nothing. -/
@[simp] theorem writeFields_nil (b : Buffer) : b.writeFields [] = b := rfl

/-- The fields are written in their order. -/
@[simp] theorem writeFields_cons (b : Buffer) (f : Field) (fields : List Field) :
    b.writeFields (f :: fields) = (b.writeLE f.offset f.width f.value).writeFields fields := rfl

/-- Two lists of fields are written one after the other. -/
theorem writeFields_append (b : Buffer) (fields fields' : List Field) :
    b.writeFields (fields ++ fields') = (b.writeFields fields).writeFields fields' := List.foldl_append

/-- Lists of fields, written one after another. -/
theorem foldl_writeFields {α : Type} (b : Buffer) (f : α → List Field) (items : List α) :
    items.foldl (fun b item => b.writeFields (f item)) b = b.writeFields (items.flatMap f) := by
  induction items generalizing b with
  | nil => rfl
  | cons item items ih => rw [List.foldl_cons, ih, List.flatMap_cons, writeFields_append]

/-- A byte of no field is as it was. -/
theorem writeFields_of_not_covered {fields : List Field} {i : Nat} (h : ∀ f ∈ fields, ¬f.Covers i) : b.writeFields fields i = b i := by
  induction fields generalizing b with
  | nil => rfl
  | cons f fields ih =>
    have hf := h f List.mem_cons_self
    rw [writeFields_cons, ih fun g hg => h g (List.mem_cons_of_mem _ hg)]
    exact writeLE_of_not_mem (by unfold Field.Covers at hf; omega)

/-- Fields with the numbers of another buffer make a buffer like it, wherever the two agreed or a field has been written. -/
theorem writeFields_of_reads {fields : List Field} {i : Nat} (h : ∀ f ∈ fields, c.readLE f.offset f.width = f.value)
    (hi : b i = c i ∨ ∃ f ∈ fields, f.Covers i) : b.writeFields fields i = c i := by
  induction fields generalizing b with
  | nil =>
    rcases hi with hi | ⟨f, hf, -⟩
    · exact hi
    · exact absurd hf List.not_mem_nil
  | cons f fields ih =>
    rw [writeFields_cons]
    refine ih (fun g hg => h g (List.mem_cons_of_mem _ hg)) ?_
    by_cases hf : f.Covers i
    · exact .inl (writeLE_readLE (h f List.mem_cons_self) hf.1 hf.2)
    · rcases hi with hi | ⟨g, hg, hgi⟩
      · exact .inl ((writeLE_of_not_mem (by unfold Field.Covers at hf; omega)).trans hi)
      · rcases List.mem_cons.mp hg with rfl | hg
        · exact absurd hgi hf
        · exact .inr ⟨g, hg, hgi⟩

/-- Two fields without a common byte. -/
def Field.Apart (f g : Field) : Prop := f.offset + f.width ≤ g.offset ∨ g.offset + g.width ≤ f.offset

instance (f g : Field) : Decidable (f.Apart g) := inferInstanceAs (Decidable (_ ∨ _))

/-- A field is not touched by fields apart from it. -/
theorem readLE_writeFields_apart {fields : List Field} {f : Field} (h : ∀ g ∈ fields, f.Apart g) :
    (b.writeFields fields).readLE f.offset f.width = b.readLE f.offset f.width := by
  refine readLE_congr fun i hi => writeFields_of_not_covered fun g hg hc => ?_
  have := h g hg
  unfold Field.Covers at hc
  unfold Field.Apart at this
  omega

/-- Each of fields that are apart is read back. -/
theorem readLE_writeFields {fields : List Field} (hapart : fields.Pairwise Field.Apart) {f : Field} (hf : f ∈ fields) :
    (b.writeFields fields).readLE f.offset f.width = f.value % 256 ^ f.width := by
  induction fields generalizing b with
  | nil => exact absurd hf List.not_mem_nil
  | cons g fields ih =>
    rw [List.pairwise_cons] at hapart
    rw [writeFields_cons]
    rcases List.mem_cons.mp hf with rfl | hf
    · rw [readLE_writeFields_apart hapart.1, readLE_writeLE_same]
    · exact ih hapart.2 hf

/-- Fields one after another are apart. -/
theorem apart_of_ordered {fields : List Field} (h : (fields.map fun f => (f.offset, f.width)).Pairwise fun p q => p.1 + p.2 ≤ q.1) :
    fields.Pairwise Field.Apart :=
  (List.pairwise_map.mp h).imp fun hle => .inl hle

end Buffer

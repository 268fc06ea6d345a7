import MatchingEngine.Lemmas.Journal
import MatchingEngine.Lib.Codec
import MatchingEngine.Protocol
import MatchingEngine.Replay

/-!
# The formats and their codecs

Each format is taken apart field by field: what is read from a span, written back, gives the bytes of the span, since every byte of an
accepted span belongs to a field or is a constant that the decoder has checked.
-/

namespace MatchingEngine

open Buffer

/-! ## Command payloads -/

/-- What `decode_command_payload` has accepted. -/
theorem decodeCommandPayload_ok {input : Buffer} {size : Nat} {p : CommandPayload} (h : decodeCommandPayload input size = .ok p) :
    size = kEncodedCommandPayloadSize ∧ validateCommandPayload p = .none ∧ p = readCommandPayload input := by
  unfold decodeCommandPayload at h
  split at h
  · cases h
  rename_i hsize
  dsimp only at h
  split at h
  · rename_i hvalid
    cases h
    refine ⟨not_not.mp hsize, ?_, rfl⟩
    revert hvalid
    cases validateCommandPayload (readCommandPayload input) <;> simp [codecError]
  · cases h

/-- A payload written where it was read gives the bytes it was read from. -/
theorem writeCommandPayload_read {input : Buffer} (output : Buffer) (hreserved : input 3 = 0) {i : Nat} (hi : i < 36) :
    writeCommandPayload (readCommandPayload input) output i = input i := by
  unfold writeCommandPayload
  refine writeU32_copy rfl fun h1 => writeU32_copy rfl fun h2 => writeU64_copy rfl fun h3 => writeU64_copy ?_ fun h4 =>
    writeU64_copy rfl fun h5 => writeU8_copy hreserved fun h6 => writeU8_copy rfl fun h7 => writeU8_copy rfl fun h8 =>
    writeU8_copy rfl fun h9 => ?_
  · rfl
  · omega

/-- The encoder refuses a payload for what the validation says. -/
theorem encodeCommandPayload_fst (p : CommandPayload) (output : Buffer) :
    (encodeCommandPayload p output kEncodedCommandPayloadSize).1 = codecError (validateCommandPayload p) := by
  rw [encodeCommandPayload, if_neg (not_not.mpr rfl)]
  cases validateCommandPayload p <;> rfl

theorem codecError_eq_none {e : CommandValidationError} : codecError e = .none ↔ e = .none := by
  cases e <;> simp [codecError]

/-- The codec of command payloads is exact on the payloads that validation accepts. -/
theorem commandPayload_exact :
    ExactCodec kEncodedCommandPayloadSize (fun p => validateCommandPayload p = .none) CommandCodecError.none encodeCommandPayload
      decodeCommandPayload where
  encodes p hp output := by rw [encodeCommandPayload_eq hp]
  decodes p hp output := by rw [encodeCommandPayload_eq hp, decodeCommandPayload_write output hp]
  reencodes input n p h := by
    obtain ⟨hn, hvalid, rfl⟩ := decodeCommandPayload_ok h
    refine ⟨hn, hvalid, fun output i hi => ?_⟩
    rw [encodeCommandPayload_eq hvalid]
    exact writeCommandPayload_read output (reserved_eq_zero hvalid) hi
  congr b c h := decodeCommandPayload_congr h

/-! ## Command frames -/

/-- The header of a frame. -/
def commandFrameHeader (output : Buffer) : Buffer :=
  (((output.writeU8 0 kCommandProtocolVersion).writeU8 1 0).writeU8 2 0).writeU8 3 0

/-- A frame is its header and the payload behind it. -/
theorem encodeCommandFrame_eq (p : CommandPayload) (output : Buffer) :
    encodeCommandFrame p output kEncodedCommandFrameSize =
      (if validateCommandPayload p = .none then .zero else .invalidPayload,
        (commandFrameHeader output).splice (encodeCommandPayload p ((commandFrameHeader output).view 4) kEncodedCommandPayloadSize).2 4
          kEncodedCommandPayloadSize) := by
  rw [encodeCommandFrame, if_neg (not_not.mpr rfl)]
  dsimp only
  have hsize : kEncodedCommandFrameSize - 4 = kEncodedCommandPayloadSize := rfl
  rw [hsize, encodeCommandPayload_fst, commandFrameHeader]
  simp only [codecError_eq_none]

/-- An accepted frame has its size, its version, zeros, and a payload. -/
theorem decodeCommandFrame_ok {input : Buffer} {size : Nat} {p : CommandPayload} (h : decodeCommandFrame input size = .ok p) :
    size = kEncodedCommandFrameSize ∧ input 0 = kCommandProtocolVersion ∧ input 1 = 0 ∧ input 2 = 0 ∧ input 3 = 0 ∧
      decodeCommandPayload (input.view 4) kEncodedCommandPayloadSize = .ok p := by
  unfold decodeCommandFrame at h
  split at h
  · cases h
  rename_i hsize
  split at h
  · cases h
  rename_i hversion
  split at h
  · cases h
  rename_i hzero
  simp only [not_or, not_not] at hzero
  have hn := not_not.mp hsize
  rw [hn] at h
  split at h
  · cases h
  · rename_i payload hpayload
    cases h
    exact ⟨hn, not_not.mp hversion, hzero.1, hzero.2.1, hzero.2.2, hpayload⟩

/-- The codec of command frames is exact on the payloads that validation accepts. -/
theorem commandFrame_exact :
    ExactCodec kEncodedCommandFrameSize (fun p => validateCommandPayload p = .none) CommandFrameError.zero encodeCommandFrame
      decodeCommandFrame where
  encodes p hp output := by rw [encodeCommandFrame_eq, if_pos hp]
  decodes p hp output := by
    have hpayload : decodeCommandPayload ((encodeCommandFrame p output kEncodedCommandFrameSize).2.view 4)
        (kEncodedCommandFrameSize - 4) = .ok p := by
      rw [← commandPayload_exact.decodes p hp ((commandFrameHeader output).view 4)]
      refine decodeCommandPayload_congr fun i hi => ?_
      rw [encodeCommandFrame_eq, view_apply]
      exact splice_of_mem hi
    rw [decodeCommandFrame, if_neg (not_not.mpr rfl), hpayload, if_neg, if_neg]
    · simp only [encodeCommandFrame_eq, kEncodedCommandPayloadSize]
      rw [splice_of_not_mem (.inl (by decide)), splice_of_not_mem (.inl (by decide)), splice_of_not_mem (.inl (by decide))]
      simp [commandFrameHeader, writeU8]
    · rw [encodeCommandFrame_eq]
      dsimp only
      rw [splice_of_not_mem (.inl (by decide))]
      simp [commandFrameHeader, writeU8]
  reencodes input n p h := by
    obtain ⟨hn, h0, h1, h2, h3, hpayload⟩ := decodeCommandFrame_ok h
    obtain ⟨-, hvalid, hre⟩ := commandPayload_exact.reencodes _ _ _ hpayload
    refine ⟨hn, hvalid, fun output i hi => ?_⟩
    rw [encodeCommandFrame_eq]
    refine splice_copy (fun k hk => (hre _ k hk).trans (view_apply _ _ _)) fun h => ?_
    refine writeU8_copy h3 fun g3 => writeU8_copy h2 fun g2 => writeU8_copy h1 fun g1 => writeU8_copy h0 fun g0 => ?_
    simp only [kEncodedCommandFrameSize, kEncodedCommandPayloadSize] at hi h
    omega
  congr b c h := by
    have hpayload : decodeCommandPayload (b.view 4) (kEncodedCommandFrameSize - 4) =
        decodeCommandPayload (c.view 4) (kEncodedCommandFrameSize - 4) :=
      decodeCommandPayload_congr fun i hi => h _ (by simp only [kEncodedCommandFrameSize]; omega)
    rw [decodeCommandFrame, decodeCommandFrame, h 0 (by decide), h 1 (by decide), h 2 (by decide), h 3 (by decide), hpayload]

/-! ## Journal records -/

/-- A record that `decode_record` accepts is the record of the command it holds. The fields come first: the checksum is over them. -/
theorem decodeRecord_ok {r : Buffer} {c : SequencedCommand} (h : decodeRecord r = .ok c) :
    validateCommandPayload c.payload = .none ∧ SameRecord (recordOf c) r := by
  unfold decodeRecord at h
  split at h
  · cases h
  rename_i hmark
  split at h
  · cases h
  rename_i hlength
  split at h
  · cases h
  rename_i hcrc
  split at h
  · cases h
  rename_i payload hpayload
  cases h
  simp only [not_or, not_not, Bool.not_eq_true', Bool.not_eq_false] at hmark hlength hcrc
  obtain ⟨-, hvalid, hre⟩ := commandPayload_exact.reencodes _ _ _ hpayload
  refine ⟨hvalid, ?_⟩
  have hfields : ∀ i, kRecordSequenceOffset ≤ i → i < kRecordCrcOffset ∨ kRecordReservedOffset ≤ i → i < kJournalRecordSize →
      recordFields ⟨payload, r.readU64 kRecordSequenceOffset, r.readU64 kRecordLogicalTimeOffset⟩ i = r i := by
    intro i hlo hmid hhi
    refine splice_copy (fun k hk => ?_) fun h1 => writeU32_copy hlength.1 fun h2 => writeU64_copy rfl fun h3 => writeU64_copy rfl fun h4 => ?_
    · have := hre (((zeros.writeU64 kRecordSequenceOffset (r.readU64 kRecordSequenceOffset)).writeU64 kRecordLogicalTimeOffset
        (r.readU64 kRecordLogicalTimeOffset)).writeU32 kRecordPayloadLengthOffset (UInt32.ofNat kEncodedCommandPayloadSize) |>.view
          kRecordPayloadOffset) k hk
      rw [encodeCommandPayload_eq hvalid] at this
      exact this
    · simp only [kRecordSequenceOffset, kRecordCrcOffset, kRecordReservedOffset, kJournalRecordSize, kRecordPayloadOffset,
        kEncodedCommandPayloadSize, kRecordPayloadLengthOffset, kRecordLogicalTimeOffset] at *
      have hz := allZero_iff.mp hlength.2 (i - 64) (by omega)
      rw [show 64 + (i - 64) = i by omega] at hz
      exact hz.symm
  intro i hi
  have hslice : (recordFields ⟨payload, r.readU64 kRecordSequenceOffset, r.readU64 kRecordLogicalTimeOffset⟩).slice kRecordSequenceOffset
      (kRecordCrcOffset - kRecordSequenceOffset) = r.slice kRecordSequenceOffset (kRecordCrcOffset - kRecordSequenceOffset) := by
    refine slice_congr fun k hk => hfields _ (Nat.le_add_right _ _) (.inl ?_) ?_
    · simp only [kRecordSequenceOffset, kRecordCrcOffset] at hk ⊢
      omega
    · simp only [kRecordSequenceOffset, kRecordCrcOffset, kJournalRecordSize] at hk ⊢
      omega
  refine writeU32_copy hmark fun h1 => writeU32_copy ?_ fun h2 => hfields i ?_ ?_ hi
  · rw [hslice, hcrc]
  · simp only [kRecordSequenceOffset, kRecordCommitOffset] at *
    omega
  · simp only [kRecordCrcOffset, kRecordReservedOffset, kRecordCommitOffset] at *
    omega

/-! ## Market-data frames -/

namespace MarketDataMessage

/-- A message is canonical if its type is one and asks for nothing it does not have. -/
def Canonical (m : MarketDataMessage) : Prop := ∃ type, MarketDataMessageType.ofRaw m.type = some type ∧ m.canonical type = true

/-- A written message is read back. -/
theorem read_write (m : MarketDataMessage) : read m.write = m := by
  cases m with
  | mk sequence orderId secondaryOrderId price quantity secondaryQuantity orderCount type side =>
    have h1 : ∀ (b : Buffer) (o : Nat) (v : UInt64) (i : Nat), i < 8 → 8 ≤ o → b.writeU64 o v i = b i :=
      fun b o v i hi ho => writeU64_of_not_mem (.inl (by omega))
    have h2 : ∀ (b : Buffer) (o : Nat) (v : UInt32) (i : Nat), i < 8 → 8 ≤ o → b.writeU32 o v i = b i :=
      fun b o v i hi ho => writeU32_of_not_mem (.inl (by omega))
    simp only [read, write, mk.injEq]
    simp only [readU64_writeU64_other, readU64_writeU32_other, readU64_writeU64_same, readU32_writeU32_same, Nat.reduceAdd, Nat.reduceLeDiff,
      true_or, h1, h2, Nat.reduceLT, writeU8, if_true, Nat.reduceEqDiff, if_false, and_true]

/-- Only the bytes of the frame are read. -/
theorem read_congr {b c : Buffer} (h : ∀ i < 64, b i = c i) : read b = read c := by
  simp only [read, mk.injEq]
  refine ⟨readU64_congr fun i hi => h _ (by omega), readU64_congr fun i hi => h _ (by omega), readU64_congr fun i hi => h _ (by omega),
    congrArg Int64.ofUInt64 (readU64_congr fun i hi => h _ (by omega)), readU64_congr fun i hi => h _ (by omega),
    readU64_congr fun i hi => h _ (by omega), readU32_congr fun i hi => h _ (by omega), h 1 (by decide), h 2 (by decide)⟩

/-- A message written where it was read gives the bytes it was read from. -/
theorem write_read {input : Buffer} (h0 : input 0 = kMarketDataProtocolVersion) (hlow : input.allZero 3 5 = true)
    (hhigh : input.allZero 60 4 = true) {i : Nat} (hi : i < 64) : (read input).write i = input i := by
  unfold write
  refine writeU32_copy rfl fun g1 => writeU64_copy rfl fun g2 => writeU64_copy rfl fun g3 => writeU64_copy rfl fun g4 =>
    writeU64_copy rfl fun g5 => writeU64_copy rfl fun g6 => writeU64_copy rfl fun g7 => writeU8_copy rfl fun g8 =>
    writeU8_copy rfl fun g9 => writeU8_copy h0 fun g10 => ?_
  by_cases hlt : i < 8
  · have hz := allZero_iff.mp hlow (i - 3) (by omega)
    rw [show 3 + (i - 3) = i by omega] at hz
    exact hz.symm
  · have hz := allZero_iff.mp hhigh (i - 60) (by omega)
    rw [show 60 + (i - 60) = i by omega] at hz
    exact hz.symm

end MarketDataMessage

/-- A canonical message is written whole. -/
theorem encodeMarketDataFrame_eq {m : MarketDataMessage} (h : m.Canonical) (output : Buffer) :
    encodeMarketDataFrame m output kEncodedMarketDataFrameSize = (.none, m.write) := by
  obtain ⟨type, htype, hc⟩ := h
  rw [encodeMarketDataFrame, if_neg (not_not.mpr rfl), htype]
  simp [hc]

/-- The encoder of market-data frames refuses what is not canonical. -/
theorem encodeMarketDataFrame_ne {m : MarketDataMessage} (h : ¬m.Canonical) (output : Buffer) (size : Nat) :
    (encodeMarketDataFrame m output size).1 ≠ .none := by
  unfold encodeMarketDataFrame
  split
  · exact nofun
  split
  · exact nofun
  rename_i type htype
  split
  · unfold MarketDataMessage.noncanonicalError
    split
    · exact nofun
    · exact nofun
  · rename_i hc
    exact absurd ⟨type, htype, by simpa using hc⟩ h

/-- An accepted frame has its size, its version and zeros, and its message is canonical. -/
theorem decodeMarketDataFrame_ok {input : Buffer} {size : Nat} {m : MarketDataMessage} (h : decodeMarketDataFrame input size = .ok m) :
    size = kEncodedMarketDataFrameSize ∧ input 0 = kMarketDataProtocolVersion ∧ input.allZero 3 5 = true ∧
      input.allZero 60 4 = true ∧ m = MarketDataMessage.read input ∧ m.Canonical := by
  unfold decodeMarketDataFrame at h
  split at h
  · cases h
  rename_i hsize
  split at h
  · cases h
  rename_i hversion
  split at h
  · cases h
  rename_i type htype
  split at h
  · cases h
  rename_i hzero
  dsimp only at h
  split at h
  · cases h
  rename_i hc
  cases h
  simp only [not_or, Bool.not_eq_true', Bool.not_eq_false] at hzero hc
  exact ⟨not_not.mp hsize, not_not.mp hversion, hzero.1, hzero.2, rfl, type, htype, hc⟩

/-- Only the bytes of the frame are decoded. -/
theorem decodeMarketDataFrame_congr {b c : Buffer} (h : ∀ i < kEncodedMarketDataFrameSize, b i = c i) :
    decodeMarketDataFrame b kEncodedMarketDataFrameSize = decodeMarketDataFrame c kEncodedMarketDataFrameSize := by
  have hz : ∀ o w, o + w ≤ 64 → b.allZero o w = c.allZero o w := fun o w ho => allZero_congr fun i hi => h _ (by
    simp only [kEncodedMarketDataFrameSize]
    omega)
  rw [decodeMarketDataFrame, decodeMarketDataFrame, h 0 (by decide), h 1 (by decide), hz 3 5 (by decide), hz 60 4 (by decide),
    MarketDataMessage.read_congr h]

/-- A canonical message that is written is accepted. -/
theorem decodeMarketDataFrame_write {m : MarketDataMessage} (hm : m.Canonical) :
    decodeMarketDataFrame m.write kEncodedMarketDataFrameSize = .ok m := by
  obtain ⟨type, htype, hc⟩ := hm
  have h0 : m.write 0 = kMarketDataProtocolVersion := by
    simp [MarketDataMessage.write, writeU8, writeU32_of_not_mem, writeU64_of_not_mem]
  have htype' : (MarketDataMessage.read m.write).type = m.type := by rw [MarketDataMessage.read_write]
  have h1 : m.write 1 = m.type := htype'
  have hz : ∀ i, (3 ≤ i ∧ i < 8) ∨ 60 ≤ i → m.write i = 0 := by
    intro i hi
    unfold MarketDataMessage.write
    rw [writeU32_of_not_mem (by omega), writeU64_of_not_mem (by omega), writeU64_of_not_mem (by omega), writeU64_of_not_mem (by omega),
      writeU64_of_not_mem (by omega), writeU64_of_not_mem (by omega), writeU64_of_not_mem (by omega), writeU8_other (by omega),
      writeU8_other (by omega), writeU8_other (by omega)]
    rfl
  have hlow : m.write.allZero 3 5 = true := allZero_iff.mpr fun i hi => hz _ (by omega)
  have hhigh : m.write.allZero 60 4 = true := allZero_iff.mpr fun i hi => hz _ (by omega)
  rw [decodeMarketDataFrame, if_neg (not_not.mpr rfl), h0, if_neg (not_not.mpr rfl), h1, htype]
  simp [hlow, hhigh, MarketDataMessage.read_write, hc]

/-- The codec of market-data frames is exact on the canonical messages. -/
theorem marketDataFrame_exact :
    ExactCodec kEncodedMarketDataFrameSize MarketDataMessage.Canonical MarketDataFrameError.none encodeMarketDataFrame
      decodeMarketDataFrame where
  encodes m hm output := by rw [encodeMarketDataFrame_eq hm]
  decodes m hm output := by rw [encodeMarketDataFrame_eq hm, decodeMarketDataFrame_write hm]
  reencodes input n m h := by
    obtain ⟨hn, h0, hlow, hhigh, rfl, hc⟩ := decodeMarketDataFrame_ok h
    refine ⟨hn, hc, fun output i hi => ?_⟩
    rw [encodeMarketDataFrame_eq hc]
    exact MarketDataMessage.write_read h0 hlow hhigh hi
  congr b c h := decodeMarketDataFrame_congr h

/-! ## BBO frames -/

/-- A state whose absent sides have the quantity zero. -/
def BboState.Canonical (s : BboState) : Prop := (s.bidPrice = none → s.bidQuantity = 0) ∧ (s.askPrice = none → s.askQuantity = 0)

section

variable {b c : Buffer} {offset : Nat} {price : Option Int64} {quantity : UInt64}

/-- A side is written in its own place. -/
theorem writeBboSide_of_not_mem {i : Nat} (h : i < offset ∨ offset + 16 ≤ i) : writeBboSide b offset price quantity i = b i := by
  cases price with
  | none => rfl
  | some price => exact (writeU64_of_not_mem (by omega)).trans (writeU64_of_not_mem (by omega))

/-- A side is read back, with the quantity zero if it is absent. -/
theorem readBboSide_write (h : price = none → quantity = 0) :
    readBboSide (writeBboSide b offset price quantity) offset price.isSome = (price, quantity) := by
  cases price with
  | none => rw [h rfl]; rfl
  | some price =>
    simp only [readBboSide, writeBboSide, Option.isSome_some, if_true, readU64_writeU64_same]
    rw [readU64_writeU64_other (by omega), readU64_writeU64_same]

/-- A side is read from its own place. -/
theorem readBboSide_congr {present : Bool} (h : ∀ k < 16, b (offset + k) = c (offset + k)) :
    readBboSide b offset present = readBboSide c offset present := by
  unfold readBboSide
  have hprice : b.readU64 offset = c.readU64 offset := readU64_congr fun i hi => h i (by omega)
  have hquantity : b.readU64 (offset + 8) = c.readU64 (offset + 8) := by
    refine readU64_congr fun i hi => ?_
    rw [Nat.add_assoc]
    exact h _ (by omega)
  rw [hprice, hquantity]

/-- A side has a price as its flag says. -/
theorem readBboSide_isSome (present : Bool) : (readBboSide c offset present).1.isSome = present := by
  cases present <;> rfl

/-- A side written where it was read gives the bytes it was read from, when an absent side has zeros. -/
theorem writeBboSide_read {present : Bool} {i : Nat} (hz : present = false → ∀ k < 16, c (offset + k) = 0)
    (hb : ∀ k < 16, b (offset + k) = 0) (hi : ¬(offset ≤ i ∧ i < offset + 16) → b i = c i) :
    writeBboSide b offset (readBboSide c offset present).1 (readBboSide c offset present).2 i = c i := by
  cases present with
  | true =>
    refine writeU64_copy rfl fun h1 => writeU64_copy rfl fun h2 => hi ?_
    omega
  | false =>
    by_cases h : offset ≤ i ∧ i < offset + 16
    · obtain ⟨k, rfl⟩ := Nat.exists_eq_add_of_le h.1
      exact (hb k (by omega)).trans (hz rfl k (by omega)).symm
    · exact hi h

end

/-- The bytes of a frame before its sides. -/
def bboHeader (bidPresent askPresent : Bool) : Buffer :=
  ((zeros.writeU8 0 kBboProtocolVersion).writeU8 4 (if bidPresent then 1 else 0)).writeU8 5 (if askPresent then 1 else 0)

/-- The bytes `encode_bbo_frame` writes. -/
def bboBytes (s : BboState) : Buffer :=
  writeBboSide (writeBboSide (bboHeader s.bidPrice.isSome s.askPrice.isSome) 8 s.bidPrice s.bidQuantity) 24 s.askPrice s.askQuantity

/-- The encoder writes the bytes of the state. -/
theorem encodeBboFrame_eq (s : BboState) (output : Buffer) : encodeBboFrame s output kEncodedBboFrameSize = (.none, bboBytes s) := by
  rw [encodeBboFrame, if_neg (not_not.mpr rfl)]
  rfl

/-- The header has zeros beside the version and the flags. -/
theorem bboHeader_eq_zero {bidPresent askPresent : Bool} {i : Nat} (h : 0 < i ∧ i < 4 ∨ 6 ≤ i) : bboHeader bidPresent askPresent i = 0 := by
  unfold bboHeader
  rw [writeU8_other (by omega), writeU8_other (by omega), writeU8_other (by omega)]
  rfl

/-- The first bytes are the header. -/
theorem bboBytes_header {s : BboState} {i : Nat} (h : i < 8) : bboBytes s i = bboHeader s.bidPrice.isSome s.askPrice.isSome i := by
  unfold bboBytes
  rw [writeBboSide_of_not_mem (by omega), writeBboSide_of_not_mem (by omega)]

theorem readBboSide_bid {s : BboState} (h : s.bidPrice = none → s.bidQuantity = 0) :
    readBboSide (bboBytes s) 8 s.bidPrice.isSome = (s.bidPrice, s.bidQuantity) := by
  rw [← readBboSide_write h]
  exact readBboSide_congr fun k hk => writeBboSide_of_not_mem (by omega)

theorem readBboSide_ask {s : BboState} (h : s.askPrice = none → s.askQuantity = 0) :
    readBboSide (bboBytes s) 24 s.askPrice.isSome = (s.askPrice, s.askQuantity) := readBboSide_write h

/-- The sides of an absent price are zero. -/
theorem bboBytes_absent {s : BboState} : (s.bidPrice = none → ∀ i, 8 ≤ i → i < 24 → bboBytes s i = 0) ∧
    (s.askPrice = none → ∀ i, 24 ≤ i → bboBytes s i = 0) := by
  constructor
  · intro h i hlo hhi
    rw [bboBytes, writeBboSide_of_not_mem (by omega), h]
    exact bboHeader_eq_zero (.inr (by omega))
  · intro h i hlo
    rw [bboBytes, h]
    show writeBboSide _ 8 s.bidPrice s.bidQuantity i = 0
    rw [writeBboSide_of_not_mem (by omega)]
    exact bboHeader_eq_zero (.inr (by omega))

/-- A canonical state that is written is accepted. -/
theorem decodeBboFrame_bytes {s : BboState} (h : s.Canonical) : decodeBboFrame (bboBytes s) kEncodedBboFrameSize = .ok s := by
  have h0 : bboBytes s 0 = kBboProtocolVersion := (bboBytes_header (by decide)).trans rfl
  have h4 : bboBytes s 4 = if s.bidPrice.isSome then 1 else 0 := (bboBytes_header (by decide)).trans rfl
  have h5 : bboBytes s 5 = if s.askPrice.isSome then 1 else 0 := (bboBytes_header (by decide)).trans rfl
  have hlow : (bboBytes s).allZero 1 3 = true :=
    allZero_iff.mpr fun i hi => (bboBytes_header (by omega)).trans (bboHeader_eq_zero (by omega))
  have hmid : (bboBytes s).allZero 6 2 = true :=
    allZero_iff.mpr fun i hi => (bboBytes_header (by omega)).trans (bboHeader_eq_zero (by omega))
  have hbid : decide (bboBytes s 4 = 1) = s.bidPrice.isSome := by rw [h4]; cases s.bidPrice <;> rfl
  have hask : decide (bboBytes s 5 = 1) = s.askPrice.isSome := by rw [h5]; cases s.askPrice <;> rfl
  have hone : ∀ p : Option Int64, ¬(1 < if p.isSome = true then (1 : UInt8) else 0) := by
    intro p
    cases p <;> exact of_decide_eq_false rfl
  have habsent : ∀ o, o + 8 ≤ 24 → 8 ≤ o → s.bidPrice = none → (bboBytes s).allZero o 8 = true :=
    fun o ho hlo hn => allZero_iff.mpr fun i hi => bboBytes_absent.1 hn _ (by omega) (by omega)
  have habsent' : ∀ o, 24 ≤ o → s.askPrice = none → (bboBytes s).allZero o 8 = true :=
    fun o ho hn => allZero_iff.mpr fun i hi => bboBytes_absent.2 hn _ (by omega)
  rw [decodeBboFrame, if_neg (not_not.mpr rfl), h0, if_neg (not_not.mpr rfl), if_neg]
  · dsimp only
    rw [hbid, hask, if_neg, readBboSide_bid h.1, readBboSide_ask h.2]
    rintro (⟨hn, hz⟩ | ⟨hn, hz⟩)
    · have hn' : s.bidPrice = none := by simpa using hn
      rw [habsent 8 (by decide) (by decide) hn', habsent 16 (by decide) (by decide) hn'] at hz
      simp at hz
    · have hn' : s.askPrice = none := by simpa using hn
      rw [habsent' 24 (by decide) hn', habsent' 32 (by decide) hn'] at hz
      simp at hz
  · rw [hlow, hmid, h4, h5]
    rintro (h | h | h | h)
    · cases h
    · exact hone _ h
    · exact hone _ h
    · cases h

/-- Only the bytes of the frame are decoded. -/
theorem decodeBboFrame_congr {b c : Buffer} (h : ∀ i < kEncodedBboFrameSize, b i = c i) :
    decodeBboFrame b kEncodedBboFrameSize = decodeBboFrame c kEncodedBboFrameSize := by
  have hz : ∀ o w, o + w ≤ 40 → b.allZero o w = c.allZero o w := fun o w ho => allZero_congr fun i hi => h _ (by
    simp only [kEncodedBboFrameSize]
    omega)
  have hside : ∀ o present, o + 16 ≤ 40 → readBboSide b o present = readBboSide c o present :=
    fun o present ho => readBboSide_congr fun k hk => h _ (by simp only [kEncodedBboFrameSize]; omega)
  rw [decodeBboFrame, decodeBboFrame, h 0 (by decide), h 4 (by decide), h 5 (by decide), hz 1 3 (by decide), hz 6 2 (by decide),
    hz 8 8 (by decide), hz 16 8 (by decide), hz 24 8 (by decide), hz 32 8 (by decide)]
  simp only [hside 8 _ (by decide), hside 24 _ (by decide)]

/-- What `decode_bbo_frame` has accepted. -/
theorem decodeBboFrame_ok {input : Buffer} {size : Nat} {s : BboState} (h : decodeBboFrame input size = .ok s) :
    ∃ bid ask : Bool, size = kEncodedBboFrameSize ∧ (∀ i < 8, bboHeader bid ask i = input i) ∧
      s = ⟨(readBboSide input 8 bid).1, (readBboSide input 8 bid).2, (readBboSide input 24 ask).1, (readBboSide input 24 ask).2⟩ ∧
      (bid = false → ∀ k < 16, input (8 + k) = 0) ∧ (ask = false → ∀ k < 16, input (24 + k) = 0) := by
  unfold decodeBboFrame at h
  split at h
  · cases h
  rename_i hsize
  split at h
  · cases h
  rename_i hversion
  split at h
  · cases h
  rename_i hheader
  dsimp only at h
  split at h
  · cases h
  rename_i hsides
  cases h
  simp only [not_or, not_and, not_not, Bool.not_eq_true', Bool.not_eq_false, decide_eq_false_iff_not] at hversion hheader hsides
  obtain ⟨hlow, h4, h5, hmid⟩ := hheader
  have hflag : ∀ x : UInt8, ¬1 < x → (if decide (x = 1) = true then (1 : UInt8) else 0) = x := by
    intro x hx
    rw [UInt8.not_lt] at hx
    have : x.toNat ≤ 1 := UInt8.le_iff_toNat_le.mp hx
    by_cases h1 : x = 1
    · simp [h1]
    · have hne : x.toNat ≠ 1 := fun he => h1 (UInt8.toNat_inj.mp he)
      have h0 : x = 0 := UInt8.toNat_inj.mp (by show x.toNat = 0; omega)
      simp [h0]
  have hzero : ∀ o, input.allZero o 8 = true → input.allZero (o + 8) 8 = true → ∀ k < 16, input (o + k) = 0 := by
    intro o hlo hhi k hk
    by_cases h8 : k < 8
    · exact allZero_iff.mp hlo k h8
    · have := allZero_iff.mp hhi (k - 8) (by omega)
      rwa [show o + 8 + (k - 8) = o + k by omega] at this
  refine ⟨decide (input 4 = 1), decide (input 5 = 1), not_not.mp hsize, fun i hi => ?_, rfl, fun hb => ?_, fun ha => ?_⟩
  · refine writeU8_copy (hflag _ h5).symm fun g5 => writeU8_copy (hflag _ h4).symm fun g4 => writeU8_copy hversion fun g0 => ?_
    by_cases hlt : i < 4
    · have := allZero_iff.mp hlow (i - 1) (by omega)
      rw [show 1 + (i - 1) = i by omega] at this
      exact this.symm
    · have := allZero_iff.mp hmid (i - 6) (by omega)
      rw [show 6 + (i - 6) = i by omega] at this
      exact this.symm
  · obtain ⟨hlo, hhi⟩ := hsides.1 (of_decide_eq_false hb)
    exact hzero 8 hlo hhi
  · obtain ⟨hlo, hhi⟩ := hsides.2 (of_decide_eq_false ha)
    exact hzero 24 hlo hhi

/-- The codec of BBO frames is exact on the states whose absent sides have the quantity zero. -/
theorem bboFrame_exact :
    ExactCodec kEncodedBboFrameSize BboState.Canonical BboFrameError.none encodeBboFrame decodeBboFrame where
  encodes s _ output := by rw [encodeBboFrame_eq]
  decodes s hs output := by rw [encodeBboFrame_eq, decodeBboFrame_bytes hs]
  reencodes input n s h := by
    obtain ⟨bid, ask, hn, hheader, rfl, hbz, haz⟩ := decodeBboFrame_ok h
    have hquantity : ∀ o present, (readBboSide input o present).1 = none → (readBboSide input o present).2 = 0 := by
      intro o present hnone
      cases present with
      | true => cases hnone
      | false => rfl
    refine ⟨hn, ⟨hquantity 8 bid, hquantity 24 ask⟩, fun output i hi => ?_⟩
    rw [encodeBboFrame_eq]
    simp only [kEncodedBboFrameSize] at hi
    simp only [bboBytes, readBboSide_isSome]
    refine writeBboSide_read haz (fun k hk => ?_) fun h1 => writeBboSide_read hbz (fun k hk => ?_) fun h2 => hheader i (by omega)
    · exact (writeBboSide_of_not_mem (by omega)).trans (bboHeader_eq_zero (.inr (by omega)))
    · exact bboHeader_eq_zero (.inr (by omega))
  congr b c h := decodeBboFrame_congr h

/-! ## Engine events -/

/-- An event whose fields have the widths of the source and whose reserved field is zero. -/
structure EngineEvent.Canonical (e : EngineEvent) : Prop where
  orderId : e.orderId < 2 ^ 64
  secondaryOrderId : e.secondaryOrderId < 2 ^ 64
  price : -2 ^ 63 ≤ e.price ∧ e.price < 2 ^ 63
  quantity : e.quantity < 2 ^ 64
  secondaryQuantity : e.secondaryQuantity < 2 ^ 64
  handleIndex : e.handle.index < 2 ^ 32
  handleGeneration : e.handle.generation < 2 ^ 32
  eventIndex : e.eventIndex < 2 ^ 32
  reserved : e.reserved = 0

theorem EngineEventType.ofRaw_ctorIdx (t : EngineEventType) : EngineEventType.ofRaw (UInt8.ofNat t.ctorIdx) = some t := by
  cases t <;> rfl

theorem EngineEventType.ofRaw_eq_some {raw : UInt8} {t : EngineEventType} (h : EngineEventType.ofRaw raw = some t) :
    UInt8.ofNat t.ctorIdx = raw := by
  unfold EngineEventType.ofRaw at h
  repeat' split at h
  all_goals cases h
  all_goals rename_i hraw
  all_goals rw [hraw]; rfl

/-- An event without reserved bits is written whole. -/
theorem encodeEngineEventSpan_eq {e : EngineEvent} (h : e.reserved = 0) (output : Buffer) :
    encodeEngineEventSpan e output kEncodedEngineEventSize = (.none, (encodeEngineEvent e).2) := by
  rw [encodeEngineEventSpan, if_neg (not_not.mpr rfl), encodeEngineEvent, if_neg (not_not.mpr h)]

/-- What `decode_engine_event` has accepted. -/
theorem decodeEngineEvent_ok {input : Buffer} {size : Nat} {e : EngineEvent} (h : decodeEngineEvent input size = .ok e) :
    size = kEncodedEngineEventSize ∧ input 62 = 0 ∧ input 63 = 0 ∧ ∃ type, EngineEventType.ofRaw (input 60) = some type ∧
      e = { commandSequence := input.readU64 0
            orderId := (input.readU64 8).toNat
            secondaryOrderId := (input.readU64 16).toNat
            price := (Int64.ofUInt64 (input.readU64 24)).toInt
            quantity := (input.readU64 32).toNat
            secondaryQuantity := (input.readU64 40).toNat
            handle := ⟨(input.readU32 48).toNat, (input.readU32 52).toNat⟩
            eventIndex := (input.readU32 56).toNat
            type
            reason := input 61 } := by
  unfold decodeEngineEvent at h
  split at h
  · cases h
  rename_i hsize
  split at h
  · cases h
  rename_i type htype
  split at h
  · cases h
  rename_i hzero
  cases h
  simp only [not_or, not_not] at hzero
  exact ⟨not_not.mp hsize, hzero.1, hzero.2, type, htype, rfl⟩

/-- An event is read back from its bytes. -/
theorem decodeEngineEvent_bytes {e : EngineEvent} (h : e.Canonical) :
    decodeEngineEvent (encodeEngineEvent e).2 kEncodedEngineEventSize = .ok e := by
  obtain ⟨b, hbytes⟩ : ∃ b, b = (encodeEngineEvent e).2 := ⟨_, rfl⟩
  rw [← hbytes]
  rw [encodeEngineEvent, if_neg (not_not.mpr h.reserved)] at hbytes
  dsimp only at hbytes
  have h60 : b 60 = UInt8.ofNat e.type.ctorIdx := by
    rw [hbytes]
    simp (disch := decide) only [writeU8_other, writeU8_same]
  have h61 : b 61 = e.reason := by
    rw [hbytes]
    simp only [writeU8_same]
  have hhigh : ∀ i, 62 ≤ i → b i = 0 := by
    intro i hi
    rw [hbytes, writeU8_other (by omega), writeU8_other (by omega), writeU32_of_not_mem (by omega), writeU32_of_not_mem (by omega),
      writeU32_of_not_mem (by omega), writeU64_of_not_mem (by omega), writeU64_of_not_mem (by omega), writeU64_of_not_mem (by omega),
      writeU64_of_not_mem (by omega), writeU64_of_not_mem (by omega), writeU64_of_not_mem (by omega)]
    rfl
  have hu8 : ∀ (c : Buffer) (o : Nat) (v : UInt8) (p : Nat), p + 8 ≤ o → (c.writeU8 o v).readU64 p = c.readU64 p :=
    fun c o v p hp => readU64_congr fun i hi => writeU8_other (by omega)
  have hu8' : ∀ (c : Buffer) (o : Nat) (v : UInt8) (p : Nat), p + 4 ≤ o → (c.writeU8 o v).readU32 p = c.readU32 p :=
    fun c o v p hp => readU32_congr fun i hi => writeU8_other (by omega)
  have h64 : b.readU64 0 = e.commandSequence ∧ b.readU64 8 = UInt64.ofNat e.orderId ∧ b.readU64 16 = UInt64.ofNat e.secondaryOrderId ∧
      b.readU64 24 = (Int64.ofInt e.price).toUInt64 ∧ b.readU64 32 = UInt64.ofNat e.quantity ∧
      b.readU64 40 = UInt64.ofNat e.secondaryQuantity := by
    rw [hbytes]
    refine ⟨?_, ?_, ?_, ?_, ?_, ?_⟩ <;>
      simp (disch := decide) only [hu8, readU64_writeU64_same, readU64_writeU32_other, readU64_writeU64_other]
  have h32 : b.readU32 48 = UInt32.ofNat e.handle.index ∧ b.readU32 52 = UInt32.ofNat e.handle.generation ∧
      b.readU32 56 = UInt32.ofNat e.eventIndex := by
    rw [hbytes]
    refine ⟨?_, ?_, ?_⟩ <;>
      simp (disch := decide) only [hu8', readU32_writeU32_same, readU32_writeU32_other]
  obtain ⟨hseq, hid, hid2, hprice, hq, hq2⟩ := h64
  obtain ⟨hindex, hgen, hevent⟩ := h32
  have hprice' : (Int64.ofUInt64 (b.readU64 24)).toInt = e.price := by
    rw [hprice]
    exact Int64.toInt_ofInt_of_le h.price.1 h.price.2
  rw [decodeEngineEvent, if_neg (not_not.mpr rfl), h60, EngineEventType.ofRaw_ctorIdx, hhigh 62 (by decide), hhigh 63 (by decide)]
  dsimp only
  rw [if_neg (by simp), hprice', hseq, hid, hid2, hq, hq2, hindex, hgen, hevent, h61, UInt64.toNat_ofNat_of_lt' h.orderId,
    UInt64.toNat_ofNat_of_lt' h.secondaryOrderId, UInt64.toNat_ofNat_of_lt' h.quantity, UInt64.toNat_ofNat_of_lt' h.secondaryQuantity,
    UInt32.toNat_ofNat_of_lt' h.handleIndex, UInt32.toNat_ofNat_of_lt' h.handleGeneration, UInt32.toNat_ofNat_of_lt' h.eventIndex]
  have hreserved := h.reserved
  cases e
  simp only at hreserved
  rw [hreserved]

/-- The codec of engine events is exact on the events whose fields have the widths of the source and whose reserved field is zero. -/
theorem engineEvent_exact :
    ExactCodec kEncodedEngineEventSize EngineEvent.Canonical EventCodecError.none encodeEngineEventSpan decodeEngineEvent where
  encodes e he output := by rw [encodeEngineEventSpan_eq he.reserved]
  decodes e he output := by rw [encodeEngineEventSpan_eq he.reserved, decodeEngineEvent_bytes he]
  reencodes input n e h := by
    obtain ⟨hn, h62, h63, type, htype, rfl⟩ := decodeEngineEvent_ok h
    refine ⟨hn, ?_, fun output i hi => ?_⟩
    · exact ⟨UInt64.toNat_lt _, UInt64.toNat_lt _, ⟨Int64.le_toInt _, Int64.toInt_lt _⟩, UInt64.toNat_lt _, UInt64.toNat_lt _,
        UInt32.toNat_lt _, UInt32.toNat_lt _, UInt32.toNat_lt _, rfl⟩
    · rw [encodeEngineEventSpan_eq rfl, encodeEngineEvent, if_neg (not_not.mpr rfl)]
      simp only [kEncodedEngineEventSize] at hi
      simp only [UInt64.ofNat_toNat, UInt32.ofNat_toNat, Int64.ofInt_toInt]
      refine writeU8_copy rfl fun g1 => writeU8_copy (EngineEventType.ofRaw_eq_some htype).symm fun g2 => writeU32_copy rfl fun g3 =>
        writeU32_copy rfl fun g4 => writeU32_copy rfl fun g5 => writeU64_copy rfl fun g6 => writeU64_copy rfl fun g7 =>
        writeU64_copy rfl fun g8 => writeU64_copy rfl fun g9 => writeU64_copy rfl fun g10 => writeU64_copy rfl fun g11 => ?_
      obtain rfl | rfl : i = 62 ∨ i = 63 := by omega
      · exact h62.symm
      · exact h63.symm
  congr b c h := by
    have h8 : ∀ o, o + 8 ≤ 64 → b.readU64 o = c.readU64 o := fun o ho => readU64_congr fun i hi => h _ (by
      simp only [kEncodedEngineEventSize]
      omega)
    have h4 : ∀ o, o + 4 ≤ 64 → b.readU32 o = c.readU32 o := fun o ho => readU32_congr fun i hi => h _ (by
      simp only [kEncodedEngineEventSize]
      omega)
    rw [decodeEngineEvent, decodeEngineEvent, h 60 (by decide), h 61 (by decide), h 62 (by decide), h 63 (by decide), h8 0 (by decide),
      h8 8 (by decide), h8 16 (by decide), h8 24 (by decide), h8 32 (by decide), h8 40 (by decide), h4 48 (by decide), h4 52 (by decide),
      h4 56 (by decide)]

end MatchingEngine

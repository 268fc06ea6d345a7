import MatchingEngine.Replay
import MatchingEngine.Snapshot

/-!
# The checksums agree

The fingerprint of a replay is `crc32c` of the encoded events, taken as they come, and the checksum of a snapshot is `crc32c` of the bytes
around its own place.
-/

namespace MatchingEngine

open Buffer

/-- The event can be encoded. -/
def EngineEvent.Encodable (event : EngineEvent) : Prop := (encodeEngineEvent event).1 = .none

/-- The bytes of an encoded event. -/
def EngineEvent.encoding (event : EngineEvent) : List UInt8 := (encodeEngineEvent event).2.slice 0 kEncodedEngineEventSize

/-- The encodings of events, one after the other. -/
def encodings (events : List EngineEvent) : List UInt8 := events.flatMap EngineEvent.encoding

/-- Every event has the same size. -/
theorem encodings_length (events : List EngineEvent) : (encodings events).length = kEncodedEngineEventSize * events.length := by
  induction events with
  | nil => rfl
  | cons event events ih =>
    rw [encodings, List.flatMap_cons, List.length_append, ← encodings, ih, EngineEvent.encoding, slice_length, List.length_cons,
      Nat.mul_succ, Nat.add_comm]

/-! ## The fingerprint -/

namespace ReplayFingerprint

/-- An event that can be encoded is added. -/
theorem add_of_encodable (f : ReplayFingerprint) {event : EngineEvent} (h : event.Encodable) :
    f.add event = (.none, ⟨event.encoding.foldl crc32cByte f.crcState, f.eventCount + 1, f.byteCount + UInt64.ofNat kEncodedEngineEventSize⟩) := by
  unfold add
  exact if_neg (not_not.mpr h)

/-- Events added one after the other change the state as their bytes in one run do, and are counted. -/
theorem addAll_of_encodable (f : ReplayFingerprint) {events : List EngineEvent} (h : ∀ event ∈ events, event.Encodable) :
    f.addAll events = some
      { crcState := (encodings events).foldl crc32cByte f.crcState
        eventCount := f.eventCount + UInt64.ofNat events.length
        byteCount := f.byteCount + UInt64.ofNat (encodings events).length } := by
  induction events generalizing f with
  | nil =>
    have hzero : ∀ count : UInt64, count + UInt64.ofNat 0 = count := UInt64.add_zero
    exact congrArg some (by rw [encodings, List.flatMap_nil, List.foldl_nil, List.length_nil, List.length_nil, hzero, hzero])
  | cons event events ih =>
    have hadd := f.add_of_encodable (h event List.mem_cons_self)
    have hrest := ih (f.add event).2 fun e he => h e (List.mem_cons_of_mem _ he)
    have hsplit : encodings (event :: events) = event.encoding ++ encodings events := List.flatMap_cons
    have hcount : UInt64.ofNat (event :: events).length = 1 + UInt64.ofNat events.length := by
      rw [List.length_cons, Nat.add_comm, UInt64.ofNat_add]
      rfl
    have hbytes : UInt64.ofNat (encodings (event :: events)).length =
        UInt64.ofNat kEncodedEngineEventSize + UInt64.ofNat (encodings events).length := by
      rw [hsplit, List.length_append, EngineEvent.encoding, slice_length, UInt64.ofNat_add]
    unfold addAll at hrest ⊢
    rw [List.foldlM_cons, hadd, if_pos rfl, Option.bind_eq_bind, Option.bind_some]
    rw [hadd] at hrest
    rw [hrest, hsplit, List.foldl_append, hcount, ← hsplit, hbytes, UInt64.add_assoc, UInt64.add_assoc]

end ReplayFingerprint

/-! ## The checksum of a snapshot -/

/-- The checksum of an image passes over its own bytes. -/
theorem snapshotCrc_eq (bytes : List UInt8) :
    snapshotCrc (ofList bytes) bytes.length = crc32c (bytes.take kChecksumOffset ++ bytes.drop (kChecksumOffset + 4)) :=
  congrArg (~~~·) (foldl_skip crc32cByte 0xffffffff bytes kChecksumOffset 4)

/-- What is stored as the checksum does not change it. -/
theorem snapshotCrc_writeU32 (b : Buffer) (size : Nat) (stored : UInt32) :
    snapshotCrc (b.writeU32 kChecksumOffset stored) size = snapshotCrc b size := by
  refine congrArg (~~~·) (List.foldl_ext _ _ _ fun state i _ => ?_)
  by_cases h : kChecksumOffset ≤ i ∧ i < kChecksumOffset + 4
  · rw [if_pos h, if_pos h]
  · rw [if_neg h, if_neg h, writeU32_of_not_mem (by omega)]

/-- The fingerprint of events is `crc32c` of their encodings, with their number and that of the bytes in words of 64 bits; the checksum of a
snapshot is `crc32c` of the bytes around it, so that it is right once it is written. -/
theorem checksums_agree (events : List EngineEvent) (h : ∀ event ∈ events, event.Encodable) (bytes : List UInt8) (content : Buffer)
    (size : Nat) (stored : UInt32) :
    (∃ f, ReplayFingerprint.addAll .initial events = some f ∧ f.crc32c = crc32c (encodings events) ∧
      f.eventCount.toNat = events.length % 2 ^ 64 ∧ f.byteCount.toNat = (encodings events).length % 2 ^ 64 ∧
      (encodings events).length = kEncodedEngineEventSize * events.length) ∧
    snapshotCrc (ofList bytes) bytes.length = crc32c (bytes.take kChecksumOffset ++ bytes.drop (kChecksumOffset + 4)) ∧
    snapshotCrc (content.writeU32 kChecksumOffset stored) size = snapshotCrc content size ∧
    (content.writeU32 kChecksumOffset (snapshotCrc content size)).readU32 kChecksumOffset =
      snapshotCrc (content.writeU32 kChecksumOffset (snapshotCrc content size)) size := by
  refine ⟨⟨_, ReplayFingerprint.addAll_of_encodable .initial h, rfl, ?_, ?_, encodings_length events⟩, snapshotCrc_eq bytes,
    snapshotCrc_writeU32 content size stored, ?_⟩
  · exact (congrArg UInt64.toNat (UInt64.zero_add _)).trans UInt64.toNat_ofNat'
  · exact (congrArg UInt64.toNat (UInt64.zero_add _)).trans UInt64.toNat_ofNat'
  · rw [readU32_writeU32_same, snapshotCrc_writeU32]

/-- Two events. -/
def twoEvents : List EngineEvent := [{ orderId := 1 }, { orderId := 2, type := .trade }]

/-- The checksums of two events, of a hundred bytes, and of a header of zeros. -/
theorem checksums_agree_two :
    (∃ f, ReplayFingerprint.addAll .initial twoEvents = some f ∧ f.crc32c = crc32c (encodings twoEvents) ∧
      f.eventCount.toNat = twoEvents.length % 2 ^ 64 ∧ f.byteCount.toNat = (encodings twoEvents).length % 2 ^ 64 ∧
      (encodings twoEvents).length = kEncodedEngineEventSize * twoEvents.length) ∧
    snapshotCrc (ofList (List.replicate 100 7)) (List.replicate 100 7).length =
      crc32c ((List.replicate 100 7).take kChecksumOffset ++ (List.replicate 100 7).drop (kChecksumOffset + 4)) ∧
    snapshotCrc (zeros.writeU32 kChecksumOffset 9) kSnapshotHeaderSize = snapshotCrc zeros kSnapshotHeaderSize ∧
    (zeros.writeU32 kChecksumOffset (snapshotCrc zeros kSnapshotHeaderSize)).readU32 kChecksumOffset =
      snapshotCrc (zeros.writeU32 kChecksumOffset (snapshotCrc zeros kSnapshotHeaderSize)) kSnapshotHeaderSize := by
  refine checksums_agree twoEvents (fun event hevent => ?_) (List.replicate 100 7) zeros kSnapshotHeaderSize 9
  rcases List.mem_pair.mp hevent with rfl | rfl
  · rfl
  · rfl

/-- After `2 ^ 58` events the count of the bytes is zero again. -/
theorem byteCount_wraps : (∀ event ∈ List.replicate (2 ^ 58) ({} : EngineEvent), event.Encodable) ∧
    ∃ f, ReplayFingerprint.addAll .initial (List.replicate (2 ^ 58) {}) = some f ∧
      f.byteCount.toNat ≠ (encodings (List.replicate (2 ^ 58) {})).length := by
  have h : ∀ event ∈ List.replicate (2 ^ 58) ({} : EngineEvent), event.Encodable := fun event hevent => by
    rw [List.eq_of_mem_replicate hevent]
    rfl
  refine ⟨h, _, ReplayFingerprint.addAll_of_encodable .initial h, ?_⟩
  rw [encodings_length, List.length_replicate]
  decide

end MatchingEngine

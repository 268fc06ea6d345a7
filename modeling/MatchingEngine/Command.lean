import MatchingEngine.Lib.Bytes
import MatchingEngine.Types

/-!
# Commands

`command.hpp` and `command.cpp`: the payload of a command, its validation, its 36-byte encoding, and the sequencer that stamps
payloads. The fields have the source's widths. The tag, the side and the time in force are bytes, since a decoded payload can hold
any: `CommandType.ofRaw` says which bytes name a command.
-/

namespace MatchingEngine

inductive CommandType where
  | submitLimit
  | submitMarket
  | cancel
  | amendQuantity
  | replace
  | submitIceberg
  | submitStop
  | submitStopLimit
  | uncrossOpeningAuction
  deriving DecidableEq, Repr

/-- The command a tag names. -/
def CommandType.ofRaw (raw : UInt8) : Option CommandType :=
  if raw = 1 then some .submitLimit
  else if raw = 2 then some .submitMarket
  else if raw = 3 then some .cancel
  else if raw = 4 then some .amendQuantity
  else if raw = 5 then some .replace
  else if raw = 6 then some .submitIceberg
  else if raw = 7 then some .submitStop
  else if raw = 8 then some .submitStopLimit
  else if raw = 9 then some .uncrossOpeningAuction
  else none

inductive CommandValidationError where
  | none
  | invalidTag
  | invalidSide
  | invalidTimeInForce
  | noncanonical
  deriving DecidableEq, Repr

inductive CommandCodecError where
  | none
  | invalidLength
  | invalidTag
  | invalidSide
  | invalidTimeInForce
  | noncanonical
  deriving DecidableEq, Repr

structure CommandPayload where
  tag : UInt8
  side : UInt8
  timeInForce : UInt8
  reserved : UInt8
  orderId : UInt64
  priceTicks : Int64
  quantity : UInt64
  handleIndex : UInt32
  handleGeneration : UInt32
  deriving DecidableEq, Repr

namespace CommandPayload

variable (p : CommandPayload)

/-- The handle a cancel, an amendment or a replacement names. -/
def handle : Handle := ⟨p.handleIndex.toNat, p.handleGeneration.toNat⟩

/-- The 64 bits an iceberg or a stop keeps in the handle's place. -/
def handleBits : UInt64 := UInt64.ofNat (p.handleIndex.toNat + p.handleGeneration.toNat * 2 ^ 32)

/-- `iceberg_display_quantity`. -/
def icebergDisplayQuantity : Nat := p.handleBits.toNat

/-- `stop_trigger_price`. -/
def stopTriggerPrice : Int := (Int64.ofUInt64 p.handleBits).toInt

/-! ### Factories -/

/-- A payload of the default member values, under a tag. -/
def ofTag (tag : UInt8) : CommandPayload := ⟨tag, Side.buy.raw, TimeInForce.gtc.raw, 0, 0, 0, 0, 0, 0⟩

/-- `CommandPayload::submit_limit`. -/
def submitLimit (id : UInt64) (side : UInt8) (price : Int64) (quantity : UInt64) (timeInForce : UInt8) : CommandPayload :=
  { ofTag 1 with side, timeInForce, orderId := id, priceTicks := price, quantity }

/-- `CommandPayload::submit_market`. -/
def submitMarket (id : UInt64) (side : UInt8) (quantity : UInt64) : CommandPayload := { ofTag 2 with side, orderId := id, quantity }

/-- `CommandPayload::cancel`. -/
def cancel (index generation : UInt32) : CommandPayload := { ofTag 3 with handleIndex := index, handleGeneration := generation }

/-- `CommandPayload::amend_quantity`. -/
def amendQuantity (index generation : UInt32) (quantity : UInt64) : CommandPayload :=
  { ofTag 4 with quantity, handleIndex := index, handleGeneration := generation }

/-- `CommandPayload::replace`. -/
def replace (index generation : UInt32) (price : Int64) (quantity : UInt64) : CommandPayload :=
  { ofTag 5 with priceTicks := price, quantity, handleIndex := index, handleGeneration := generation }

/-- `CommandPayload::submit_iceberg`. -/
def submitIceberg (id : UInt64) (side : UInt8) (price : Int64) (quantity display : UInt64) : CommandPayload :=
  { ofTag 6 with
    side, orderId := id, priceTicks := price, quantity
    handleIndex := display.toUInt32, handleGeneration := (display >>> 32).toUInt32 }

/-- `CommandPayload::submit_stop`. -/
def submitStop (id : UInt64) (side : UInt8) (trigger : Int64) (quantity : UInt64) : CommandPayload :=
  { ofTag 7 with
    side, orderId := id, quantity
    handleIndex := trigger.toUInt64.toUInt32, handleGeneration := (trigger.toUInt64 >>> 32).toUInt32 }

/-- `CommandPayload::submit_stop_limit`. -/
def submitStopLimit (id : UInt64) (side : UInt8) (trigger price : Int64) (quantity : UInt64) : CommandPayload :=
  { ofTag 8 with
    side, orderId := id, priceTicks := price, quantity
    handleIndex := trigger.toUInt64.toUInt32, handleGeneration := (trigger.toUInt64 >>> 32).toUInt32 }

/-- `CommandPayload::uncross_opening_auction`. -/
def uncrossOpeningAuction : CommandPayload := ofTag 9

/-! ### Validation -/

/-- `is_zero_handle`. -/
def isZeroHandle : Bool := p.handleIndex = 0 ∧ p.handleGeneration = 0

/-- `has_zero_common_unused`. -/
def hasZeroCommonUnused : Bool := p.side = Side.buy.raw ∧ p.timeInForce = TimeInForce.gtc.raw ∧ p.orderId = 0

/-- What `validate_command_payload` asks of a command of each type. -/
def canonical : CommandType → Bool
  | .submitLimit => p.isZeroHandle
  | .submitIceberg => p.timeInForce = TimeInForce.gtc.raw
  | .submitStop => p.timeInForce = TimeInForce.gtc.raw ∧ p.priceTicks = 0
  | .submitStopLimit => p.timeInForce = TimeInForce.gtc.raw
  | .submitMarket => p.timeInForce = TimeInForce.gtc.raw ∧ p.priceTicks = 0 ∧ p.isZeroHandle
  | .cancel => p.hasZeroCommonUnused ∧ p.priceTicks = 0 ∧ p.quantity = 0
  | .amendQuantity => p.hasZeroCommonUnused ∧ p.priceTicks = 0
  | .replace => p.hasZeroCommonUnused
  | .uncrossOpeningAuction => p.hasZeroCommonUnused ∧ p.priceTicks = 0 ∧ p.quantity = 0 ∧ p.isZeroHandle

end CommandPayload

/-- `validate_command_payload`. -/
def validateCommandPayload (payload : CommandPayload) : CommandValidationError :=
  match CommandType.ofRaw payload.tag with
  | none => .invalidTag
  | some tag =>
    if payload.reserved ≠ 0 then .noncanonical
    else if (Side.ofRaw payload.side).isNone then .invalidSide
    else if (TimeInForce.ofRaw payload.timeInForce).isNone then .invalidTimeInForce
    else if payload.canonical tag then .none
    else .noncanonical

/-- `codec_error`. -/
def codecError : CommandValidationError → CommandCodecError
  | .none => .none
  | .invalidTag => .invalidTag
  | .invalidSide => .invalidSide
  | .invalidTimeInForce => .invalidTimeInForce
  | .noncanonical => .noncanonical

/-- `kEncodedCommandPayloadSize`. -/
def kEncodedCommandPayloadSize : Nat := 36

/-- The fields `encode_command_payload` writes. -/
def writeCommandPayload (payload : CommandPayload) (output : Buffer) : Buffer :=
  ((((((((output.writeU8 0 payload.tag).writeU8 1 payload.side).writeU8 2 payload.timeInForce).writeU8 3 0).writeU64 4
    payload.orderId).writeU64 12 payload.priceTicks.toUInt64).writeU64 20 payload.quantity).writeU32 28
    payload.handleIndex).writeU32 32 payload.handleGeneration

/-- `encode_command_payload` into a span of `size` bytes: the error, and the span. -/
def encodeCommandPayload (payload : CommandPayload) (output : Buffer) (size : Nat) : CommandCodecError × Buffer :=
  if size ≠ kEncodedCommandPayloadSize then (.invalidLength, output)
  else
    match validateCommandPayload payload with
    | .none => (.none, writeCommandPayload payload output)
    | error => (codecError error, output)

/-- The fields `decode_command_payload` reads. -/
def readCommandPayload (input : Buffer) : CommandPayload where
  tag := input 0
  side := input 1
  timeInForce := input 2
  reserved := input 3
  orderId := input.readU64 4
  priceTicks := Int64.ofUInt64 (input.readU64 12)
  quantity := input.readU64 20
  handleIndex := input.readU32 28
  handleGeneration := input.readU32 32

/-- `decode_command_payload` of a span of `size` bytes. -/
def decodeCommandPayload (input : Buffer) (size : Nat) : Except CommandCodecError CommandPayload :=
  if size ≠ kEncodedCommandPayloadSize then .error .invalidLength
  else
    let payload := readCommandPayload input
    match codecError (validateCommandPayload payload) with
    | .none => .ok payload
    | error => .error error

/-! ## Sequencing -/

structure SequencedCommand where
  payload : CommandPayload
  sequence : UInt64
  logicalTime : UInt64
  deriving DecidableEq, Repr

/-- The largest value of `std::uint64_t`. -/
def uint64Max : UInt64 := UInt64.ofNat (2 ^ 64 - 1)

inductive SequencerError where
  | invalidPayload
  | decreasingLogicalTime
  | sequenceExhausted
  deriving DecidableEq, Repr

structure Sequencer where
  nextSequence : UInt64
  lastLogicalTime : UInt64
  exhausted : Bool
  deriving DecidableEq, Repr

/-- The state of a sequencer, or of an engine, after it has used `next`: the next sequence number, and whether there is none. -/
def afterSequence (next : UInt64) : UInt64 × Bool := if next = uint64Max then (next, true) else (next + 1, false)

/-- `Sequencer::stamp`. -/
def Sequencer.stamp (s : Sequencer) (payload : CommandPayload) (logicalTime : UInt64) :
    Except SequencerError (SequencedCommand × Sequencer) :=
  if validateCommandPayload payload ≠ .none then .error .invalidPayload
  else if logicalTime < s.lastLogicalTime then .error .decreasingLogicalTime
  else if s.exhausted then .error .sequenceExhausted
  else
    let after := afterSequence s.nextSequence
    .ok (⟨payload, s.nextSequence, logicalTime⟩, ⟨after.1, logicalTime, after.2⟩)

end MatchingEngine

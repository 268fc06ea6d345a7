import MatchingEngine.Command

/-!
# Wire formats

`command_protocol.cpp`, `market_data_protocol.cpp` and `bbo_protocol.cpp`: frames of commands, of market-data messages and of the best
bid and offer. An encoder is given a span and its size, and returns its status and the span. Fields have the source's widths; a type
and a side are bytes, since a decoded frame can hold any.
-/

namespace MatchingEngine

/-! ## Command frames -/

/-- `kCommandProtocolVersion`. -/
def kCommandProtocolVersion : UInt8 := 1

/-- `kEncodedCommandFrameSize`. -/
def kEncodedCommandFrameSize : Nat := 40

/-- `CommandFrameError`. It has no enumerator for success. -/
inductive CommandFrameError where
  | invalidLength
  | unsupportedVersion
  | noncanonicalHeader
  | invalidPayload
  deriving DecidableEq, Repr

/-- `CommandFrameError{}`, which `encode_command_frame` returns when it has written a frame: the enumerator of value zero. -/
def CommandFrameError.zero : CommandFrameError := .invalidLength

/-- `encode_command_frame`: the header is written before the payload is validated. -/
def encodeCommandFrame (payload : CommandPayload) (output : Buffer) (size : Nat) : CommandFrameError × Buffer :=
  if size ≠ kEncodedCommandFrameSize then (.invalidLength, output)
  else
    let output := (((output.writeU8 0 kCommandProtocolVersion).writeU8 1 0).writeU8 2 0).writeU8 3 0
    let (error, bytes) := encodeCommandPayload payload (output.view 4) (size - 4)
    (if error = .none then .zero else .invalidPayload, output.splice bytes 4 (size - 4))

/-- `decode_command_frame`. -/
def decodeCommandFrame (input : Buffer) (size : Nat) : Except CommandFrameError CommandPayload :=
  if size ≠ kEncodedCommandFrameSize then .error .invalidLength
  else if input 0 ≠ kCommandProtocolVersion then .error .unsupportedVersion
  else if input 1 ≠ 0 ∨ input 2 ≠ 0 ∨ input 3 ≠ 0 then .error .noncanonicalHeader
  else
    match decodeCommandPayload (input.view 4) (size - 4) with
    | .error _ => .error .invalidPayload
    | .ok payload => .ok payload

/-! ## Market-data frames -/

/-- `kMarketDataProtocolVersion`. -/
def kMarketDataProtocolVersion : UInt8 := 1

/-- `kEncodedMarketDataFrameSize`. -/
def kEncodedMarketDataFrameSize : Nat := 64

inductive MarketDataMessageType where
  | addOrder
  | replaceOrder
  | deleteOrder
  | trade
  | levelUpdate
  deriving DecidableEq, Repr

/-- The message type a byte names: `is_valid_type` accepts exactly these bytes. -/
def MarketDataMessageType.ofRaw (raw : UInt8) : Option MarketDataMessageType :=
  if raw = 1 then some .addOrder
  else if raw = 2 then some .replaceOrder
  else if raw = 3 then some .deleteOrder
  else if raw = 4 then some .trade
  else if raw = 5 then some .levelUpdate
  else none

structure MarketDataMessage where
  sequence : UInt64
  orderId : UInt64
  secondaryOrderId : UInt64
  price : Int64
  quantity : UInt64
  secondaryQuantity : UInt64
  orderCount : UInt32
  type : UInt8
  side : UInt8
  deriving DecidableEq, Repr

inductive MarketDataFrameError where
  | none
  | invalidLength
  | unsupportedVersion
  | invalidType
  | invalidSide
  | noncanonical
  | sequenceGap
  deriving DecidableEq, Repr

namespace MarketDataMessage

variable (m : MarketDataMessage)

/-- `is_canonical`, of a message of each type. -/
def canonical : MarketDataMessageType → Bool
  | .addOrder => (Side.ofRaw m.side).isSome ∧ m.secondaryOrderId = 0 ∧ m.secondaryQuantity = 0 ∧ m.orderCount = 0
  | .replaceOrder =>
    m.side = Side.buy.raw ∧ m.secondaryOrderId = 0 ∧ m.price = 0 ∧ m.secondaryQuantity = 0 ∧ m.orderCount = 0
  | .deleteOrder =>
    m.side = Side.buy.raw ∧ m.secondaryOrderId = 0 ∧ m.price = 0 ∧ m.quantity = 0 ∧ m.secondaryQuantity = 0 ∧ m.orderCount = 0
  | .trade => m.side = Side.buy.raw ∧ m.secondaryQuantity = 0 ∧ m.orderCount = 0
  | .levelUpdate => (Side.ofRaw m.side).isSome ∧ m.orderId = 0 ∧ m.secondaryOrderId = 0 ∧ m.secondaryQuantity = 0

/-- The error of a message that is not canonical. -/
def noncanonicalError (type : MarketDataMessageType) : MarketDataFrameError :=
  if (type = .addOrder ∨ type = .levelUpdate) ∧ (Side.ofRaw m.side).isNone then .invalidSide else .noncanonical

/-- The fields `encode_market_data_frame` writes over zeros. -/
def write : Buffer :=
  (((((((((Buffer.zeros.writeU8 0 kMarketDataProtocolVersion).writeU8 1 m.type).writeU8 2 m.side).writeU64 8 m.sequence).writeU64 16
    m.orderId).writeU64 24 m.secondaryOrderId).writeU64 32 m.price.toUInt64).writeU64 40 m.quantity).writeU64 48
    m.secondaryQuantity).writeU32 56 m.orderCount

/-- The message `decode_market_data_frame` reads. -/
def read (input : Buffer) : MarketDataMessage where
  sequence := input.readU64 8
  orderId := input.readU64 16
  secondaryOrderId := input.readU64 24
  price := Int64.ofUInt64 (input.readU64 32)
  quantity := input.readU64 40
  secondaryQuantity := input.readU64 48
  orderCount := input.readU32 56
  type := input 1
  side := input 2

end MarketDataMessage

/-- `encode_market_data_frame`. -/
def encodeMarketDataFrame (message : MarketDataMessage) (output : Buffer) (size : Nat) : MarketDataFrameError × Buffer :=
  if size ≠ kEncodedMarketDataFrameSize then (.invalidLength, output)
  else
    match MarketDataMessageType.ofRaw message.type with
    | none => (.invalidType, output)
    | some type => if !message.canonical type then (message.noncanonicalError type, output) else (.none, message.write)

/-- `decode_market_data_frame`. -/
def decodeMarketDataFrame (input : Buffer) (size : Nat) : Except MarketDataFrameError MarketDataMessage :=
  if size ≠ kEncodedMarketDataFrameSize then .error .invalidLength
  else if input 0 ≠ kMarketDataProtocolVersion then .error .unsupportedVersion
  else
    match MarketDataMessageType.ofRaw (input 1) with
    | none => .error .invalidType
    | some type =>
      if !input.allZero 3 5 ∨ !input.allZero 60 4 then .error .noncanonical
      else
        let message := MarketDataMessage.read input
        if !message.canonical type then .error (message.noncanonicalError type) else .ok message

/-- `validate_market_data_sequence`. -/
def validateMarketDataSequence (previousSequence : UInt64) (message : MarketDataMessage) : MarketDataFrameError :=
  if previousSequence ≠ 0 ∧ (previousSequence = uint64Max ∨ message.sequence ≠ previousSequence + 1) then .sequenceGap else .none

/-! ## BBO frames -/

/-- `kBboProtocolVersion`. -/
def kBboProtocolVersion : UInt8 := 1

/-- `kEncodedBboFrameSize`. -/
def kEncodedBboFrameSize : Nat := 40

structure BboState where
  bidPrice : Option Int64
  bidQuantity : UInt64
  askPrice : Option Int64
  askQuantity : UInt64
  deriving DecidableEq, Repr

inductive BboFrameError where
  | none
  | invalidLength
  | unsupportedVersion
  | noncanonical
  deriving DecidableEq, Repr

/-- One side of a frame: the price and the quantity, if there is a price. -/
def writeBboSide (b : Buffer) (offset : Nat) (price : Option Int64) (quantity : UInt64) : Buffer :=
  match price with
  | some price => (b.writeU64 offset price.toUInt64).writeU64 (offset + 8) quantity
  | none => b

/-- One side of a frame as it is read. -/
def readBboSide (input : Buffer) (offset : Nat) (present : Bool) : Option Int64 × UInt64 :=
  if present then (some (Int64.ofUInt64 (input.readU64 offset)), input.readU64 (offset + 8)) else (none, 0)

/-- `encode_bbo_frame`. -/
def encodeBboFrame (state : BboState) (output : Buffer) (size : Nat) : BboFrameError × Buffer :=
  if size ≠ kEncodedBboFrameSize then (.invalidLength, output)
  else
    let header := ((Buffer.zeros.writeU8 0 kBboProtocolVersion).writeU8 4 (if state.bidPrice.isSome then 1 else 0)).writeU8 5
      (if state.askPrice.isSome then 1 else 0)
    (.none, writeBboSide (writeBboSide header 8 state.bidPrice state.bidQuantity) 24 state.askPrice state.askQuantity)

/-- `decode_bbo_frame`. -/
def decodeBboFrame (input : Buffer) (size : Nat) : Except BboFrameError BboState :=
  if size ≠ kEncodedBboFrameSize then .error .invalidLength
  else if input 0 ≠ kBboProtocolVersion then .error .unsupportedVersion
  else if !input.allZero 1 3 ∨ 1 < input 4 ∨ 1 < input 5 ∨ !input.allZero 6 2 then .error .noncanonical
  else
    let bidPresent : Bool := input 4 = 1
    let askPresent : Bool := input 5 = 1
    if (!bidPresent ∧ (!input.allZero 8 8 ∨ !input.allZero 16 8)) ∨ (!askPresent ∧ (!input.allZero 24 8 ∨ !input.allZero 32 8)) then
      .error .noncanonical
    else
      let bid := readBboSide input 8 bidPresent
      let ask := readBboSide input 24 askPresent
      .ok ⟨bid.1, bid.2, ask.1, ask.2⟩

end MatchingEngine

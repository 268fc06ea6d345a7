import MatchingEngine.MarketData
import MatchingEngine.Segments
import MatchingEngine.Snapshot
import MatchingEngine.Spsc

/-!
# The runtime configuration

`parse_runtime_config` of `runtime_config.cpp`: the configuration of a process as a list of texts `name=value`. A text is the list of its
characters. Allocation is taken to succeed.
-/

namespace MatchingEngine

open Function

inductive RuntimeConfigField where
  | none
  | minimumPrice
  | tickCount
  | maxOrders
  | maxQuantity
  | commandQueueCapacity
  | eventQueueCapacity
  | journalSegmentCapacity
  | journalPrefix
  | snapshotPath
  | maxLanes
  | maxNotional
  | maxOrdersPerSecond
  deriving DecidableEq, Repr

inductive RuntimeConfigErrorCode where
  | none
  | malformedEntry
  | unknownField
  | duplicateField
  | missingField
  | invalidValue
  | invalidRelationship
  deriving DecidableEq, Repr

structure RuntimeConfigError where
  code : RuntimeConfigErrorCode
  field : RuntimeConfigField
  deriving DecidableEq, Repr

structure RuntimeConfig where
  minimumPrice : Int := 0
  tickCount : Nat := 0
  maxOrders : Nat := 0
  maxQuantity : Nat := 0
  commandQueueCapacity : Nat := 0
  eventQueueCapacity : Nat := 0
  journalSegmentCapacity : Nat := 0
  journalPrefix : List Char := []
  snapshotPath : List Char := []
  maxLanes : Nat := 0
  maxNotional : Nat := 0
  maxOrdersPerSecond : Nat := 0
  deriving DecidableEq, Repr

namespace RuntimeConfigField

/-- The fields, in the order of `seen`. -/
def all : List RuntimeConfigField :=
  [.minimumPrice, .tickCount, .maxOrders, .maxQuantity, .commandQueueCapacity, .eventQueueCapacity, .journalSegmentCapacity, .journalPrefix,
    .snapshotPath, .maxLanes, .maxNotional, .maxOrdersPerSecond]

/-- `runtime_config_field_name`. -/
def name : RuntimeConfigField → List Char
  | .none => "none".toList
  | .minimumPrice => "minimum-price".toList
  | .tickCount => "tick-count".toList
  | .maxOrders => "max-orders".toList
  | .maxQuantity => "max-quantity".toList
  | .commandQueueCapacity => "command-queue-capacity".toList
  | .eventQueueCapacity => "event-queue-capacity".toList
  | .journalSegmentCapacity => "journal-segment-capacity".toList
  | .journalPrefix => "journal-prefix".toList
  | .snapshotPath => "snapshot-path".toList
  | .maxLanes => "max-lanes".toList
  | .maxNotional => "max-notional".toList
  | .maxOrdersPerSecond => "max-orders-per-second".toList

end RuntimeConfigField

/-- `field_from_name`. -/
def fieldFromName (name : List Char) : RuntimeConfigField :=
  if name = "minimum-price".toList then .minimumPrice
  else if name = "tick-count".toList then .tickCount
  else if name = "max-orders".toList then .maxOrders
  else if name = "max-quantity".toList then .maxQuantity
  else if name = "command-queue-capacity".toList then .commandQueueCapacity
  else if name = "event-queue-capacity".toList then .eventQueueCapacity
  else if name = "journal-segment-capacity".toList then .journalSegmentCapacity
  else if name = "journal-prefix".toList then .journalPrefix
  else if name = "snapshot-path".toList then .snapshotPath
  else if name = "max-lanes".toList then .maxLanes
  else if name = "max-notional".toList then .maxNotional
  else if name = "max-orders-per-second".toList then .maxOrdersPerSecond
  else .none

/-! ## Values -/

/-- `std::from_chars`, with the check that it has read all of the text: digits, and a number up to `maximum`. -/
def fromChars (maximum : Nat) (text : List Char) : Option Nat :=
  if text = [] then none
  else
    match parseDecimal text with
    | none => none
    | some value => if value ≤ maximum then some value else none

/-- `std::from_chars` for a `std::int64_t`: a minus may come before the digits. -/
def fromCharsSigned (text : List Char) : Option Int :=
  match text with
  | '-' :: digits => (fromChars (2 ^ 63) digits).map fun value : Nat => -(value : Int)
  | text => (fromChars (2 ^ 63 - 1) text).map fun value : Nat => (value : Int)

/-- `parse_integer`, for a `std::uint64_t`. -/
def parseInteger (text : List Char) : Option Nat :=
  if text = [] ∨ text.head? = some '+' ∨ text.head? = some '-' ∨ (1 < text.length ∧ text.head? = some '0') then none
  else fromChars (2 ^ 64 - 1) text

/-- `parse_signed`. -/
def parseSigned (text : List Char) : Option Int :=
  if text = [] ∨ text.head? = some '+' ∨ text = ['-', '0'] ∨ (1 < text.length ∧ text.head? = some '0') ∨
      (2 < text.length ∧ ['-', '0'] <+: text) then none
  else fromCharsSigned text

/-- `valid_path`. -/
def validPath (value : List Char) : Bool :=
  value ≠ [] ∧ value.getLast? ≠ some '/' ∧ '\x00' ∉ value ∧ value ≠ ['.'] ∧ value ≠ ['.', '.']

/-! ## Entries -/

/-- The name and the value of an entry; `none` if it is malformed. -/
def splitEntry (entry : List Char) : Option (List Char × List Char) :=
  let separator := entry.findIdx (· = '=')
  if entry.length ≤ separator ∨ separator = 0 ∨ separator + 1 = entry.length ∨ '=' ∈ entry.drop (separator + 1) then none
  else some (entry.take separator, entry.drop (separator + 1))

namespace RuntimeConfig

variable (config : RuntimeConfig)

/-- The `default` of the switch over the fields: a number is parsed, and stored in its field. -/
def setNumber (field : RuntimeConfigField) (value : List Char) : Option RuntimeConfig :=
  match parseInteger value with
  | .none => .none
  | some number =>
    match field with
    | .tickCount => if 2 ^ 32 - 1 < number then .none else some { config with tickCount := number }
    | .maxOrders => if 2 ^ 64 - 1 < number then .none else some { config with maxOrders := number }
    | .maxQuantity => some { config with maxQuantity := number }
    | .commandQueueCapacity => if 2 ^ 64 - 1 < number then .none else some { config with commandQueueCapacity := number }
    | .eventQueueCapacity => if 2 ^ 64 - 1 < number then .none else some { config with eventQueueCapacity := number }
    | .journalSegmentCapacity => some { config with journalSegmentCapacity := number }
    | .maxLanes => if 2 ^ 64 - 1 < number then .none else some { config with maxLanes := number }
    | .maxNotional => some { config with maxNotional := number }
    | .maxOrdersPerSecond => some { config with maxOrdersPerSecond := number }
    | _ => some config

/-- The switch over the fields: the configuration with a value stored in its field, or `none` if the value is invalid. -/
def setField (field : RuntimeConfigField) (value : List Char) : Option RuntimeConfig :=
  match field with
  | .minimumPrice => (parseSigned value).map fun price => { config with minimumPrice := price }
  | .journalPrefix => if validPath value then some { config with journalPrefix := value } else .none
  | .snapshotPath => if validPath value then some { config with snapshotPath := value } else .none
  | field => config.setNumber field value

/-- The checks once all fields are there, in their order. -/
def fault : Option RuntimeConfigError :=
  if config.tickCount = 0 ∨ kMaximumPriceLevels < config.tickCount ∨
      2 ^ 63 - 1 - ((config.tickCount - 1 : Nat) : Int) < config.minimumPrice then some ⟨.invalidValue, .tickCount⟩
  else if config.maxOrders = 0 ∨ kMaximumSnapshotSlots < config.maxOrders then some ⟨.invalidValue, .maxOrders⟩
  else if config.maxQuantity = 0 ∨ 2 ^ 32 - 1 < config.maxQuantity then some ⟨.invalidValue, .maxQuantity⟩
  else if config.commandQueueCapacity = 0 ∨ kMaximumSpscCapacity < config.commandQueueCapacity then
    some ⟨.invalidValue, .commandQueueCapacity⟩
  else if kMaximumSpscCapacity < config.eventQueueCapacity ∨ config.eventQueueCapacity < config.maxOrders * 2 + 1 then
    some ⟨.invalidRelationship, .eventQueueCapacity⟩
  else if config.journalSegmentCapacity = 0 ∨ kMaximumJournalCapacity < config.journalSegmentCapacity then
    some ⟨.invalidValue, .journalSegmentCapacity⟩
  else if config.journalPrefix = [] ∨ config.snapshotPath = [] then
    some ⟨.invalidValue, if config.journalPrefix = [] then .journalPrefix else .snapshotPath⟩
  else if config.maxLanes = 0 ∨ config.commandQueueCapacity < config.maxLanes then some ⟨.invalidRelationship, .maxLanes⟩
  else if config.maxNotional = 0 ∨ config.maxOrdersPerSecond = 0 then
    some ⟨.invalidValue, if config.maxNotional = 0 then .maxNotional else .maxOrdersPerSecond⟩
  else .none

/-- `gateway_config`; the sum is one of `std::int64_t`. -/
def gatewayConfig : GatewayConfig where
  maxActiveOrders := config.maxOrders
  maxLanes := config.maxLanes
  maxQuantity := UInt64.ofNat config.maxQuantity
  maxNotional := UInt64.ofNat config.maxNotional
  minPrice := Int64.ofInt config.minimumPrice
  maxPrice := Int64.ofInt config.minimumPrice + Int64.ofNat (config.tickCount - 1)
  maxOrdersPerSecond := UInt64.ofNat config.maxOrdersPerSecond

end RuntimeConfig

/-- What the loop over the entries keeps: the configuration so far, and the fields it has seen. -/
structure ConfigParse where
  config : RuntimeConfig
  seen : RuntimeConfigField → Bool

/-- Before the first entry. -/
def ConfigParse.start : ConfigParse := ⟨{}, fun _ => false⟩

/-- One round of the loop over the entries. -/
def ConfigParse.parseEntry (st : ConfigParse) (entry : List Char) : Except RuntimeConfigError ConfigParse :=
  match splitEntry entry with
  | none => .error ⟨.malformedEntry, .none⟩
  | some (name, value) =>
    let field := fieldFromName name
    if field = .none then .error ⟨.unknownField, .none⟩
    else if st.seen field then .error ⟨.duplicateField, field⟩
    else
      match st.config.setField field value with
      | none => .error ⟨.invalidValue, field⟩
      | some config => .ok ⟨config, update st.seen field true⟩

/-- What follows the loop: every field must have been seen, and the values must be in their ranges. -/
def ConfigParse.conclude (st : ConfigParse) : Except RuntimeConfigError RuntimeConfig :=
  match RuntimeConfigField.all.find? fun field => !st.seen field with
  | some field => .error ⟨.missingField, field⟩
  | none =>
    match st.config.fault with
    | some error => .error error
    | none => .ok st.config

/-- `parse_runtime_config`. -/
def parseRuntimeConfig (entries : List (List Char)) : Except RuntimeConfigError RuntimeConfig :=
  (entries.foldlM ConfigParse.parseEntry .start).bind ConfigParse.conclude

end MatchingEngine

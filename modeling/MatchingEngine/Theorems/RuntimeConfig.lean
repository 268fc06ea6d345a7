import MatchingEngine.Lemmas.RuntimeConfig
import MatchingEngine.Lemmas.Runs
import MatchingEngine.Lemmas.Segments
import MatchingEngine.Pipeline

/-!
# What a runtime configuration ensures

The texts `parse_runtime_config` accepts are the entries of an admissible configuration, in any order, and what is built from the
configuration is built: the price domain, the book, the engine, the queues and the matching stage.
-/

namespace MatchingEngine

namespace RuntimeConfig

variable {config config' : RuntimeConfig}

/-! ## What is accepted -/

/-- The values of all fields are of their types. -/
def Typed (config : RuntimeConfig) : Prop := ∀ field : RuntimeConfigField, field ≠ .none → field.Allows (config.value field)

/-- The checks after the loop and the types of the fields make an admissible configuration. -/
theorem admissible_iff : config.Admissible ↔ config.fault = none ∧ config.Typed := by
  have hslots : kMaximumSnapshotSlots = 1000000 := rfl
  have hspsc : kMaximumSpscCapacity = 1000000 := rfl
  have hjournal : kMaximumJournalCapacity = 1000000 := rfl
  have hlevels : kMaximumPriceLevels = 1000000 := rfl
  simp only [fault, OrderBook.ite_some_eq_none, and_true]
  constructor
  · intro h
    obtain ⟨hmin, hmax, hticks, horders, hquantity, hcommands, hevents, hsegment, hstem, hpath, hlanes, hnotional, hrate⟩ := h
    have number (n : Nat) {limit : Int} (hn : n < limit) : 0 ≤ (n : Int) ∧ n < limit := ⟨Int.natCast_nonneg n, hn⟩
    refine ⟨⟨?_, ?_, ?_, ?_, ?_, ?_, ?_, ?_, ?_⟩, fun field hne => ?_⟩
    · omega
    · omega
    · omega
    · omega
    · omega
    · omega
    · exact not_or.mpr ⟨hstem.nonempty, hpath.nonempty⟩
    · omega
    · omega
    cases field with
    | none => exact absurd rfl hne
    | journalPrefix => exact hstem
    | snapshotPath => exact hpath
    | minimumPrice => exact ⟨hmin, by omega⟩
    | tickCount => exact number _ (by omega)
    | maxOrders => exact number _ (by omega)
    | maxQuantity => exact number _ (by omega)
    | commandQueueCapacity => exact number _ (by omega)
    | eventQueueCapacity => exact number _ (by omega)
    | journalSegmentCapacity => exact number _ (by omega)
    | maxLanes => exact number _ (by omega)
    | maxNotional => exact number _ (by omega)
    | maxOrdersPerSecond => exact number _ (by omega)
  · rintro ⟨⟨hticks, horders, hquantity, hcommands, hevents, hsegment, -, hlanes, hlimits⟩, htyped⟩
    have hmin : -2 ^ 63 ≤ config.minimumPrice ∧ config.minimumPrice ≤ 2 ^ 63 - 1 := htyped .minimumPrice nofun
    have hnotional : 0 ≤ (config.maxNotional : Int) ∧ (config.maxNotional : Int) < 2 ^ 64 := htyped .maxNotional nofun
    have hrate : 0 ≤ (config.maxOrdersPerSecond : Int) ∧ (config.maxOrdersPerSecond : Int) < 2 ^ 64 := htyped .maxOrdersPerSecond nofun
    exact
      { minimumPrice := hmin.1
        maximumPrice := by omega
        tickCount := by omega
        maxOrders := by omega
        maxQuantity := by omega
        commandQueueCapacity := by omega
        eventQueueCapacity := by omega
        journalSegmentCapacity := by omega
        journalPrefix := htyped .journalPrefix nofun
        snapshotPath := htyped .snapshotPath nofun
        maxLanes := by omega
        maxNotional := by omega
        maxOrdersPerSecond := by omega }

theorem mem_all {field : RuntimeConfigField} : field ∈ RuntimeConfigField.all ↔ field ≠ .none := by
  cases field <;> decide

/-- A parse ends well with all fields seen and no fault. -/
theorem conclude_eq_ok_iff {st : ConfigParse} :
    st.conclude = .ok config ↔ (∀ field, field ≠ .none → st.seen field = true) ∧ st.config.fault = none ∧ st.config = config := by
  rw [ConfigParse.conclude]
  cases hfind : RuntimeConfigField.all.find? fun field => !st.seen field with
  | some field =>
    refine iff_of_false nofun fun h => ?_
    have hunseen := List.find?_some hfind
    rw [h.1 field (mem_all.mp (List.mem_of_find?_eq_some hfind))] at hunseen
    cases hunseen
  | none =>
    have hseen : ∀ field, field ≠ .none → st.seen field = true := fun field hne => by
      have := List.find?_eq_none.mp hfind field (mem_all.mpr hne)
      simpa using this
    rw [and_iff_right hseen]
    cases hfault : st.config.fault with
    | some error => exact iff_of_false nofun fun h => nomatch h.1
    | none => exact ⟨fun h => ⟨rfl, Except.ok.inj h⟩, fun h => congrArg Except.ok h.2⟩

/-- Texts are accepted exactly if they are the entries of an admissible configuration, in some order. -/
theorem parseRuntimeConfig_eq_ok_iff {entries : List (List Char)} :
    parseRuntimeConfig entries = .ok config ↔ config.Admissible ∧ entries.Perm config.entries := by
  have hentries : entries.Perm config.entries ↔ ∃ fields : List RuntimeConfigField,
      entries = fields.map config.entry ∧ fields.Perm RuntimeConfigField.all := by
    exact iff_of_eq (congrFun (congrFun (List.eq_map_comp_perm config.entry) entries) RuntimeConfigField.all).symm
  change (entries.foldlM ConfigParse.parseEntry .start >>= ConfigParse.conclude) = .ok config ↔ _
  rw [bind_eq_ok_iff, hentries, admissible_iff]
  constructor
  · rintro ⟨st, hloop, hconclude⟩
    obtain ⟨hseen, hfault, rfl⟩ := conclude_eq_ok_iff.mp hconclude
    obtain ⟨fields, hnodup, hfields, hseen', -, htexts⟩ := foldlM_parseEntry_eq_ok_iff.mp hloop
    have hmem {field : RuntimeConfigField} (hne : field ≠ .none) : field ∈ fields := by
      have := hseen' field
      rw [hseen field hne] at this
      simpa [ConfigParse.start] using this.symm
    refine ⟨⟨hfault, fun field hne => (hfields field (hmem hne)).2.2⟩, fields, htexts, ?_⟩
    refine (List.perm_ext_iff_of_nodup hnodup (by decide)).mpr fun field => ?_
    rw [mem_all]
    exact ⟨fun h => (hfields field h).1, hmem⟩
  · rintro ⟨⟨hfault, hallows⟩, fields, rfl, hperm⟩
    have hmem {field : RuntimeConfigField} : field ∈ fields ↔ field ≠ .none := (hperm.mem_iff).trans mem_all
    refine ⟨⟨config, fun field => decide (field ∈ fields)⟩, foldlM_parseEntry_eq_ok_iff.mpr ?_, conclude_eq_ok_iff.mpr ?_⟩
    · refine ⟨fields, (hperm.nodup_iff).mpr (by decide), fun field h => ⟨hmem.mp h, rfl, hallows field (hmem.mp h)⟩, fun field => rfl,
        fun field h => ?_, rfl⟩
      obtain rfl : field = .none := not_not.mp fun hne => h (hmem.mpr hne)
      rfl
    · exact ⟨fun field hne => decide_eq_true (hmem.mpr hne), hfault, rfl⟩

/-! ## What is built -/

/-- A book, an engine and a matching stage are constructed from `cfg`, and every book that is run from it fits into a snapshot. -/
structure Runs (config : RuntimeConfig) (cfg : BookConfig) : Prop where
  book : ∀ state, ∃ book, OrderBook.create cfg state = some book
  slots : ∀ state calls book, OrderBook.Run cfg state calls book → book.arena.capacity ≤ kMaximumSnapshotSlots
  engine : ∀ state nextSequence lastLogicalTime, nextSequence ≠ 0 → ∃ engine,
    SequencedEngine.create cfg nextSequence lastLogicalTime state = some engine ∧
      engine.maximumEventCapacity = 2 * config.maxOrders + 1 ∧ ∀ events : SpscQueue EngineEvent,
        events.capacity = config.eventQueueCapacity → ∃ stage, MatchingStage.create engine events = some stage

/-- What is built from a configuration is built: no constructor throws, and no sum wraps. The configuration leaves the policy, the mode and
its minimum open, of which the last has a check of its own. -/
structure Supports (config : RuntimeConfig) : Prop where
  collar : config.gatewayConfig.minPrice.toInt = config.minimumPrice ∧
    config.gatewayConfig.maxPrice.toInt = config.minimumPrice + (config.tickCount - 1 : Nat)
  book : ∃ domain, PriceDomain.checked config.minimumPrice config.tickCount = some domain ∧
    ∀ policy mode minimum, (mode = .thresholdProRata → 0 < minimum ∧ minimum ≤ config.maxQuantity) →
      ∃ cfg, BookConfig.checked domain config.maxOrders config.maxQuantity policy mode minimum = some cfg ∧ config.Runs cfg
  commands : ∀ slots : Nat → SequencedCommand, ∃ queue,
    SpscQueue.create kSequencedCommandBytes config.commandQueueCapacity slots = some queue ∧ queue.capacity = config.commandQueueCapacity
  events : ∀ slots : Nat → EngineEvent, ∃ queue,
    SpscQueue.create kEngineEventBytes config.eventQueueCapacity slots = some queue ∧ queue.capacity = config.eventQueueCapacity
  journal : (checkedFileSize config.journalSegmentCapacity).isSome = true ∧ ∀ base,
    MmapJournal.createError config.journalSegmentCapacity base = .none ∨
      MmapJournal.createError config.journalSegmentCapacity base = .invalidBaseSequence

/-- A queue of an admissible capacity is created. -/
theorem create_queue {α : Type} {elementSize capacity : Nat} (slots : Nat → α) (hpos : 0 < capacity) (hle : capacity ≤ kMaximumSpscCapacity)
    (hsize : elementSize ≤ 64) (hsize' : 0 < elementSize) :
    ∃ queue, SpscQueue.create elementSize capacity slots = some queue ∧ queue.capacity = capacity := by
  have hspsc : kMaximumSpscCapacity = 1000000 := rfl
  have hroom : kMaximumSpscCapacity ≤ (2 ^ 64 - 1) / elementSize :=
    (Nat.le_div_iff_mul_le hsize').mpr (Nat.le_trans (Nat.mul_le_mul_left _ hsize) (by decide))
  exact ⟨_, dif_neg (by omega), rfl⟩

/-- An admissible configuration runs a book. -/
theorem Admissible.runs (h : config.Admissible) {cfg : BookConfig} (hcfg : cfg.maxOrders = config.maxOrders) : config.Runs cfg where
  book := create_isSome cfg
  slots state calls book run := by
    obtain ⟨L, -, hrepr, -⟩ := run.ladder
    rw [hrepr.arena.capacity, hcfg]
    exact h.maxOrders.2
  engine state nextSequence lastLogicalTime hnext := by
    obtain ⟨book, hbook⟩ := create_isSome cfg state
    refine ⟨⟨book, cfg.maxOrders, nextSequence, lastLogicalTime, false⟩, ?_, ?_, fun events hevents => ?_⟩
    · rw [SequencedEngine.create, if_neg hnext, hbook]
      rfl
    · rw [SequencedEngine.maximumEventCapacity, hcfg, Nat.mul_comm]
    · have hroom := h.eventQueueCapacity.1
      have hcapacity : ¬events.capacity < cfg.maxOrders * 2 + 1 := by omega
      exact ⟨_, if_neg hcapacity⟩

/-- An admissible configuration supports all that is made from it. -/
theorem Admissible.supports (h : config.Admissible) : config.Supports where
  collar := by
    have hmin := h.minimumPrice
    have hmax := h.maximumPrice
    have hmaximum : config.gatewayConfig.maxPrice = Int64.ofInt (config.minimumPrice + (config.tickCount - 1 : Nat)) := by
      rw [Int64.ofInt_add, Int64.ofInt_eq_ofNat]
      rfl
    rw [hmaximum]
    exact ⟨Int64.toInt_ofInt_of_le hmin (by omega), Int64.toInt_ofInt_of_le (by omega) (by omega)⟩
  book := by
    have hlevels : kMaximumPriceLevels = 1000000 := rfl
    have hslots : kMaximumSnapshotSlots = 1000000 := rfl
    have hticks := h.tickCount
    have horders := h.maxOrders
    refine ⟨_, dif_pos ⟨hticks.1, by omega, h.minimumPrice, h.maximumPrice⟩, fun policy mode minimum hminimum => ?_⟩
    rw [BookConfig.checked, dif_pos hticks.2, dif_pos h.maxQuantity, dif_pos (by omega), dif_pos hminimum]
    exact ⟨_, rfl, h.runs rfl⟩
  commands slots := create_queue slots h.commandQueueCapacity.1 h.commandQueueCapacity.2 (by decide) (by decide)
  events slots := create_queue slots (by have := h.eventQueueCapacity.1; omega) h.eventQueueCapacity.2 (by decide) (by decide)
  journal := by
    have hcapacity : ¬(config.journalSegmentCapacity = 0 ∨ kMaximumJournalCapacity < config.journalSegmentCapacity) := by
      have := h.journalSegmentCapacity
      omega
    have hsize : (checkedFileSize config.journalSegmentCapacity).isSome = true := by
      rw [checkedFileSize, if_neg hcapacity]
      rfl
    refine ⟨hsize, fun base => ?_⟩
    rw [MmapJournal.createError, if_neg hcapacity, Option.isNone_eq_false_iff.mpr hsize]
    split
    · exact .inr rfl
    · exact .inl rfl

/-- A list of texts is accepted exactly if it consists of the entries of an admissible configuration, each once and written in canonical
form; their order does not matter, and what is built from the configuration is built. -/
theorem parseRuntimeConfig_exact (entries : List (List Char)) (config : RuntimeConfig) :
    (parseRuntimeConfig entries = .ok config ↔ config.Admissible ∧ entries.Perm config.entries) ∧
      (∀ entries' : List (List Char), entries'.Perm entries → parseRuntimeConfig entries = .ok config →
        parseRuntimeConfig entries' = .ok config) ∧
      (parseRuntimeConfig entries = .ok config → config.Supports) := by
  refine ⟨parseRuntimeConfig_eq_ok_iff, fun entries' hperm h => ?_, fun h => (parseRuntimeConfig_eq_ok_iff.mp h).1.supports⟩
  obtain ⟨hadmissible, hentries⟩ := parseRuntimeConfig_eq_ok_iff.mp h
  exact parseRuntimeConfig_eq_ok_iff.mpr ⟨hadmissible, hperm.trans hentries⟩

end RuntimeConfig

/-- A configuration for small examples. -/
def RuntimeConfig.small : RuntimeConfig where
  minimumPrice := -100
  tickCount := 201
  maxOrders := 8
  maxQuantity := 1000
  commandQueueCapacity := 16
  eventQueueCapacity := 17
  journalSegmentCapacity := 1024
  journalPrefix := "/tmp/orders".toList
  snapshotPath := "/tmp/orders.snapshot".toList
  maxLanes := 4
  maxNotional := 1000000
  maxOrdersPerSecond := 10000

/-- The smallest configuration, from its entries in reverse. -/
theorem RuntimeConfig.parseRuntimeConfig_exact_small :
    parseRuntimeConfig RuntimeConfig.small.entries.reverse = .ok RuntimeConfig.small ∧ RuntimeConfig.small.Supports := by
  have haccepted : parseRuntimeConfig RuntimeConfig.small.entries = .ok RuntimeConfig.small := by decide +kernel
  obtain ⟨-, horder, hsupports⟩ := RuntimeConfig.parseRuntimeConfig_exact RuntimeConfig.small.entries RuntimeConfig.small
  exact ⟨horder _ (List.reverse_perm _) haccepted, hsupports haccepted⟩

end MatchingEngine

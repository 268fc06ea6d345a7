import MatchingEngine.Lemmas.Decide
import MatchingEngine.Lemmas.Decimals

/-!
# What a configuration is written as

A configuration is its values, and has one entry for each field: the name and the value in canonical form. The loop over the entries stores
the value of an entry exactly if it is that of a field not seen before.
-/

namespace MatchingEngine

open Function

/-! ## What a configuration is written as -/

/-- The value of a field. -/
inductive ConfigValue where
  | number (n : Int)
  | path (text : List Char)
  deriving DecidableEq, Repr

/-- What a value is written as. -/
def ConfigValue.text : ConfigValue → List Char
  | .number n => printInt n
  | .path text => text

/-- A path that can be the value of a field. -/
structure AdmissiblePath (path : List Char) : Prop where
  nonempty : path ≠ []
  equals : '=' ∉ path
  slash : path.getLast? ≠ some '/'
  null : '\x00' ∉ path
  dot : path ≠ ['.']
  dots : path ≠ ['.', '.']

/-- The values of the type of a field. -/
def RuntimeConfigField.Allows (field : RuntimeConfigField) : ConfigValue → Prop
  | .number n =>
    match field with
    | .none => False
    | .journalPrefix => False
    | .snapshotPath => False
    | .minimumPrice => -2 ^ 63 ≤ n ∧ n ≤ 2 ^ 63 - 1
    | .tickCount => 0 ≤ n ∧ n < 2 ^ 32
    | _ => 0 ≤ n ∧ n < 2 ^ 64
  | .path text =>
    match field with
    | .journalPrefix => AdmissiblePath text
    | .snapshotPath => AdmissiblePath text
    | _ => False

namespace RuntimeConfig

variable (config : RuntimeConfig)

/-- The value of a field. -/
def value : RuntimeConfigField → ConfigValue
  | .none => .path []
  | .minimumPrice => .number config.minimumPrice
  | .tickCount => .number config.tickCount
  | .maxOrders => .number config.maxOrders
  | .maxQuantity => .number config.maxQuantity
  | .commandQueueCapacity => .number config.commandQueueCapacity
  | .eventQueueCapacity => .number config.eventQueueCapacity
  | .journalSegmentCapacity => .number config.journalSegmentCapacity
  | .journalPrefix => .path config.journalPrefix
  | .snapshotPath => .path config.snapshotPath
  | .maxLanes => .number config.maxLanes
  | .maxNotional => .number config.maxNotional
  | .maxOrdersPerSecond => .number config.maxOrdersPerSecond

/-- The entry of a field: its name, and its value in canonical form. -/
def entry (field : RuntimeConfigField) : List Char := field.name ++ '=' :: (config.value field).text

/-- The entries of all fields. -/
def entries : List (List Char) := RuntimeConfigField.all.map config.entry

/-- The configuration with one field of another. -/
def assign (other : RuntimeConfig) : RuntimeConfigField → RuntimeConfig
  | .none => config
  | .minimumPrice => { config with minimumPrice := other.minimumPrice }
  | .tickCount => { config with tickCount := other.tickCount }
  | .maxOrders => { config with maxOrders := other.maxOrders }
  | .maxQuantity => { config with maxQuantity := other.maxQuantity }
  | .commandQueueCapacity => { config with commandQueueCapacity := other.commandQueueCapacity }
  | .eventQueueCapacity => { config with eventQueueCapacity := other.eventQueueCapacity }
  | .journalSegmentCapacity => { config with journalSegmentCapacity := other.journalSegmentCapacity }
  | .journalPrefix => { config with journalPrefix := other.journalPrefix }
  | .snapshotPath => { config with snapshotPath := other.snapshotPath }
  | .maxLanes => { config with maxLanes := other.maxLanes }
  | .maxNotional => { config with maxNotional := other.maxNotional }
  | .maxOrdersPerSecond => { config with maxOrdersPerSecond := other.maxOrdersPerSecond }

/-- The ranges of the values, and the relations between them. -/
structure Admissible : Prop where
  minimumPrice : -2 ^ 63 ≤ config.minimumPrice
  maximumPrice : config.minimumPrice + (config.tickCount - 1 : Nat) ≤ 2 ^ 63 - 1
  tickCount : 0 < config.tickCount ∧ config.tickCount ≤ kMaximumPriceLevels
  maxOrders : 0 < config.maxOrders ∧ config.maxOrders ≤ kMaximumSnapshotSlots
  maxQuantity : 0 < config.maxQuantity ∧ config.maxQuantity < 2 ^ 32
  commandQueueCapacity : 0 < config.commandQueueCapacity ∧ config.commandQueueCapacity ≤ kMaximumSpscCapacity
  eventQueueCapacity : 2 * config.maxOrders + 1 ≤ config.eventQueueCapacity ∧ config.eventQueueCapacity ≤ kMaximumSpscCapacity
  journalSegmentCapacity : 0 < config.journalSegmentCapacity ∧ config.journalSegmentCapacity ≤ kMaximumJournalCapacity
  journalPrefix : AdmissiblePath config.journalPrefix
  snapshotPath : AdmissiblePath config.snapshotPath
  maxLanes : 0 < config.maxLanes ∧ config.maxLanes ≤ config.commandQueueCapacity
  maxNotional : 0 < config.maxNotional ∧ config.maxNotional < 2 ^ 64
  maxOrdersPerSecond : 0 < config.maxOrdersPerSecond ∧ config.maxOrdersPerSecond < 2 ^ 64

variable {config} {config' : RuntimeConfig} {field : RuntimeConfigField}

/-- A configuration is its values. -/
theorem ext_value (h : ∀ field, field ≠ .none → config.value field = config'.value field) : config = config' := by
  have number (field : RuntimeConfigField) {m n : Int} (hne : field ≠ .none) (hm : config.value field = .number m)
      (hn : config'.value field = .number n) : m = n := ConfigValue.number.inj (hm.symm.trans ((h field hne).trans hn))
  have path (field : RuntimeConfigField) {p q : List Char} (hne : field ≠ .none) (hp : config.value field = .path p)
      (hq : config'.value field = .path q) : p = q := ConfigValue.path.inj (hp.symm.trans ((h field hne).trans hq))
  cases config
  cases config'
  rw [RuntimeConfig.mk.injEq]
  refine ⟨number .minimumPrice nofun rfl rfl, ?_, ?_, ?_, ?_, ?_, ?_, path .journalPrefix nofun rfl rfl,
    path .snapshotPath nofun rfl rfl, ?_, ?_, ?_⟩
  · exact Int.ofNat_inj.mp (number .tickCount nofun rfl rfl)
  · exact Int.ofNat_inj.mp (number .maxOrders nofun rfl rfl)
  · exact Int.ofNat_inj.mp (number .maxQuantity nofun rfl rfl)
  · exact Int.ofNat_inj.mp (number .commandQueueCapacity nofun rfl rfl)
  · exact Int.ofNat_inj.mp (number .eventQueueCapacity nofun rfl rfl)
  · exact Int.ofNat_inj.mp (number .journalSegmentCapacity nofun rfl rfl)
  · exact Int.ofNat_inj.mp (number .maxLanes nofun rfl rfl)
  · exact Int.ofNat_inj.mp (number .maxNotional nofun rfl rfl)
  · exact Int.ofNat_inj.mp (number .maxOrdersPerSecond nofun rfl rfl)

theorem value_assign_self : (config.assign config' field).value field = if field = .none then .path [] else config'.value field := by
  cases field <;> rfl

theorem value_assign_of_ne {other : RuntimeConfigField} (h : other ≠ field) :
    (config.assign config' field).value other = config.value other := by
  cases field <;> cases other <;> first | rfl | exact absurd rfl h

/-! ## Entries -/

/-- An entry is a name, one equals sign and a value. -/
theorem splitEntry_eq_some_iff {entry name value : List Char} :
    splitEntry entry = some (name, value) ↔ entry = name ++ '=' :: value ∧ name ≠ [] ∧ value ≠ [] ∧ '=' ∉ name ∧ '=' ∉ value := by
  constructor
  · intro h
    unfold splitEntry at h
    obtain ⟨i, hi⟩ : ∃ i, i = entry.findIdx (· = '=') := ⟨_, rfl⟩
    dsimp only at h
    rw [← hi] at h
    split at h
    · cases h
    · rename_i hok
      rw [Option.some_inj, Prod.mk.injEq] at h
      obtain ⟨rfl, rfl⟩ := h
      simp only [not_or, Nat.not_le] at hok
      obtain ⟨hlt, hpos, hend, hvalue⟩ := hok
      have hget : entry[i] = '=' := by
        have hfound := @List.findIdx_getElem _ (fun c => decide (c = '=')) entry (hi ▸ hlt)
        simp only [← hi] at hfound
        exact of_decide_eq_true hfound
      have hbefore : '=' ∉ entry.take i := by
        intro hmem
        obtain ⟨j, hj, hj'⟩ := List.mem_iff_getElem.mp hmem
        rw [List.length_take] at hj
        rw [List.getElem_take] at hj'
        have hnot := @List.not_of_lt_findIdx _ (fun c => decide (c = '=')) entry j (by omega)
        rw [hj'] at hnot
        exact absurd hnot (by decide)
      refine ⟨?_, ?_, ?_, hbefore, hvalue⟩
      · rw [← hget, List.cons_getElem_drop_succ, List.take_append_drop]
      · exact List.ne_nil_of_length_pos (by rw [List.length_take]; omega)
      · exact List.ne_nil_of_length_pos (by rw [List.length_drop]; omega)
  · rintro ⟨rfl, hname, hvalue, hname', hvalue'⟩
    have hbefore : name.findIdx (fun c => decide (c = '=')) = name.length := by
      refine List.findIdx_eq_length.mpr fun c hc => decide_eq_false ?_
      rintro rfl
      exact hname' hc
    have hidx : (name ++ '=' :: value).findIdx (fun c => decide (c = '=')) = name.length := by
      rw [List.findIdx_append, hbefore, if_neg (Nat.lt_irrefl _), List.findIdx_cons, decide_eq_true rfl]
      exact Nat.zero_add _
    have hdrop : (name ++ '=' :: value).drop (name.length + 1) = value := by simp
    have hlengths : 0 < name.length ∧ 0 < value.length := ⟨List.length_pos_iff.mpr hname, List.length_pos_iff.mpr hvalue⟩
    unfold splitEntry
    dsimp only
    rw [hidx, hdrop, List.take_left, if_neg]
    simp only [List.length_append, List.length_cons, hvalue', or_false]
    omega

/-- The names have no equals sign. -/
theorem name_shape (field : RuntimeConfigField) : field.name ≠ [] ∧ '=' ∉ field.name := by
  cases field <;> decide

/-- Every field is found by its name. -/
theorem fieldFromName_name (h : field ≠ .none) : fieldFromName field.name = field := by
  cases field <;> first | exact absurd rfl h | decide

/-- What a choice gives is one of its two results. -/
theorem ite_eq_cases {α : Type} {c : Prop} [Decidable c] {a b r : α} (h : (if c then a else b) = r) : c ∧ a = r ∨ b = r := by
  by_cases hc : c
  · exact .inl ⟨hc, (if_pos hc).symm.trans h⟩
  · exact .inr ((if_neg hc).symm.trans h)

/-- A name stands for the field it is the name of. -/
theorem name_of_fieldFromName {name : List Char} (h : fieldFromName name = field) (hne : field ≠ .none) : name = field.name := by
  rw [fieldFromName] at h
  iterate 12
    rcases ite_eq_cases h with ⟨hname, rfl⟩ | h
    · unfold RuntimeConfigField.name
      exact hname
  exact absurd h.symm hne

/-- A number is written without the sign of an entry. -/
theorem printInt_shape (n : Int) : printInt n ≠ [] ∧ '=' ∉ printInt n := by
  have hdigits : '=' ∉ Nat.toDigits 10 n.natAbs := fun h => absurd (toDigits_isDigit h) (by decide)
  rw [printInt]
  split
  · exact ⟨List.cons_ne_nil _ _, fun h => hdigits ((List.mem_cons.mp h).resolve_left (by decide))⟩
  · exact ⟨Nat.toDigits_ne_nil, hdigits⟩

/-- The texts of the values have no equals sign. -/
theorem text_shape {v : ConfigValue} (h : field.Allows v) : v.text ≠ [] ∧ '=' ∉ v.text := by
  cases v with
  | number n => exact printInt_shape n
  | path text =>
    have hpath : AdmissiblePath text := by
      cases field <;> first | exact h | exact h.elim
    exact ⟨hpath.nonempty, hpath.equals⟩

/-! ## Storing a value -/

theorem validPath_iff {path : List Char} (h : '=' ∉ path) : validPath path = true ↔ AdmissiblePath path := by
  rw [validPath, decide_eq_true_iff]
  exact ⟨fun ⟨hne, hslash, hnull, hdot, hdots⟩ => ⟨hne, h, hslash, hnull, hdot, hdots⟩,
    fun hp => ⟨hp.nonempty, hp.slash, hp.null, hp.dot, hp.dots⟩⟩

/-- A number that is written is read. -/
theorem parseInteger_toDigits {n : Nat} (h : n < 2 ^ 64) : parseInteger (Nat.toDigits 10 n) = some n :=
  parseInteger_eq_some_iff.mpr ⟨rfl, h⟩

theorem printInt_natCast (n : Nat) : printInt n = Nat.toDigits 10 n := by
  rw [printInt, if_neg (by omega), Int.natAbs_natCast]

/-- A number is stored exactly if the text is what a number up to the limit of the field is printed as. -/
theorem setNumber_eq_some_iff (set : Nat → RuntimeConfig) (get : RuntimeConfig → Nat) (limit : Nat) (bound : Int) {text : List Char}
    (hget : ∀ n, get (set n) = n) (hlimit : limit ≤ 2 ^ 64) (hbound : (limit : Int) = bound)
    (hset : ∀ n < 2 ^ 64, config.setNumber field (Nat.toDigits 10 n) = some config' ↔ n < limit ∧ config' = set n) :
    config.setNumber field text = some config' ↔
      config' = set (get config') ∧ (0 ≤ (get config' : Int) ∧ (get config' : Int) < bound) ∧ text = printInt (get config') := by
  rw [printInt_natCast]
  constructor
  · intro h
    obtain ⟨n, hn⟩ : ∃ n, parseInteger text = some n := by
      cases hparse : parseInteger text with
      | none =>
        rw [setNumber, hparse] at h
        cases h
      | some n => exact ⟨n, rfl⟩
    obtain ⟨rfl, hlt⟩ := parseInteger_eq_some_iff.mp hn
    obtain ⟨hn, rfl⟩ := (hset n hlt).mp h
    rw [hget]
    exact ⟨rfl, by omega, rfl⟩
  · rintro ⟨hconfig, ⟨-, hlt⟩, rfl⟩
    exact (hset _ (by omega)).mpr ⟨by omega, hconfig⟩

/-- A number with a limit of its own. -/
theorem limited_eq_some_iff {n limit : Nat} {stored : RuntimeConfig} (hlimit : 0 < limit) :
    (if limit - 1 < n then none else some stored) = some config' ↔ n < limit ∧ config' = stored := by
  split
  · exact iff_of_false nofun fun h => by omega
  · rw [Option.some_inj, eq_comm, and_iff_right (by omega)]

/-- A field is stored exactly if the text is that of a value the field allows. -/
theorem setField_eq_some_iff_assign (hne : field ≠ .none) {text : List Char} (htext : '=' ∉ text) :
    config.setField field text = some config' ↔
      config' = config.assign config' field ∧ field.Allows (config'.value field) ∧ text = (config'.value field).text := by
  have unlimited {n : Nat} {stored : RuntimeConfig} (hn : n < 2 ^ 64) : some stored = some config' ↔ n < 2 ^ 64 ∧ config' = stored := by
    rw [Option.some_inj, eq_comm, and_iff_right hn]
  have path (stored : List Char → RuntimeConfig) (get : RuntimeConfig → List Char) (hget : ∀ path, get (stored path) = path) :
      (if validPath text then some (stored text) else none) = some config' ↔
        config' = stored (get config') ∧ AdmissiblePath (get config') ∧ text = get config' := by
    split
    · rename_i hvalid
      rw [Option.some_inj]
      constructor
      · rintro rfl
        rw [hget]
        exact ⟨rfl, (validPath_iff htext).mp hvalid, rfl⟩
      · rintro ⟨hconfig, -, rfl⟩
        exact hconfig.symm
    · rename_i hvalid
      refine iff_of_false nofun ?_
      rintro ⟨-, hpath, rfl⟩
      exact hvalid ((validPath_iff htext).mpr hpath)
  cases field with
  | none => exact absurd rfl hne
  | minimumPrice =>
    rw [setField, Option.map_eq_some_iff]
    constructor
    · rintro ⟨price, hprice, rfl⟩
      obtain ⟨rfl, hrange⟩ := parseSigned_eq_some_iff.mp hprice
      exact ⟨rfl, hrange, rfl⟩
    · rintro ⟨hconfig, hrange, rfl⟩
      exact ⟨_, parseSigned_eq_some_iff.mpr ⟨rfl, hrange⟩, hconfig.symm⟩
  | journalPrefix => exact path (fun path => { config with journalPrefix := path }) RuntimeConfig.journalPrefix fun _ => rfl
  | snapshotPath => exact path (fun path => { config with snapshotPath := path }) RuntimeConfig.snapshotPath fun _ => rfl
  | tickCount =>
    change config.setNumber .tickCount text = some config' ↔ _
    refine setNumber_eq_some_iff (fun n => { config with tickCount := n }) RuntimeConfig.tickCount
      (2 ^ 32) (2 ^ 32) (fun _ => rfl) (by decide) (by decide) fun n hn => ?_
    rw [setNumber, parseInteger_toDigits hn]
    exact limited_eq_some_iff (by decide)
  | maxOrders =>
    change config.setNumber .maxOrders text = some config' ↔ _
    refine setNumber_eq_some_iff (fun n => { config with maxOrders := n }) RuntimeConfig.maxOrders
      (2 ^ 64) (2 ^ 64) (fun _ => rfl) le_rfl (by decide) fun n hn => ?_
    rw [setNumber, parseInteger_toDigits hn]
    exact limited_eq_some_iff (by decide)
  | maxQuantity =>
    change config.setNumber .maxQuantity text = some config' ↔ _
    refine setNumber_eq_some_iff (fun n => { config with maxQuantity := n }) RuntimeConfig.maxQuantity
      (2 ^ 64) (2 ^ 64) (fun _ => rfl) le_rfl (by decide) fun n hn => ?_
    rw [setNumber, parseInteger_toDigits hn]
    exact unlimited hn
  | commandQueueCapacity =>
    change config.setNumber .commandQueueCapacity text = some config' ↔ _
    refine setNumber_eq_some_iff (fun n => { config with commandQueueCapacity := n }) RuntimeConfig.commandQueueCapacity
      (2 ^ 64) (2 ^ 64) (fun _ => rfl) le_rfl (by decide) fun n hn => ?_
    rw [setNumber, parseInteger_toDigits hn]
    exact limited_eq_some_iff (by decide)
  | eventQueueCapacity =>
    change config.setNumber .eventQueueCapacity text = some config' ↔ _
    refine setNumber_eq_some_iff (fun n => { config with eventQueueCapacity := n }) RuntimeConfig.eventQueueCapacity
      (2 ^ 64) (2 ^ 64) (fun _ => rfl) le_rfl (by decide) fun n hn => ?_
    rw [setNumber, parseInteger_toDigits hn]
    exact limited_eq_some_iff (by decide)
  | journalSegmentCapacity =>
    change config.setNumber .journalSegmentCapacity text = some config' ↔ _
    refine setNumber_eq_some_iff (fun n => { config with journalSegmentCapacity := n }) RuntimeConfig.journalSegmentCapacity
      (2 ^ 64) (2 ^ 64) (fun _ => rfl) le_rfl (by decide) fun n hn => ?_
    rw [setNumber, parseInteger_toDigits hn]
    exact unlimited hn
  | maxLanes =>
    change config.setNumber .maxLanes text = some config' ↔ _
    refine setNumber_eq_some_iff (fun n => { config with maxLanes := n }) RuntimeConfig.maxLanes
      (2 ^ 64) (2 ^ 64) (fun _ => rfl) le_rfl (by decide) fun n hn => ?_
    rw [setNumber, parseInteger_toDigits hn]
    exact limited_eq_some_iff (by decide)
  | maxNotional =>
    change config.setNumber .maxNotional text = some config' ↔ _
    refine setNumber_eq_some_iff (fun n => { config with maxNotional := n }) RuntimeConfig.maxNotional
      (2 ^ 64) (2 ^ 64) (fun _ => rfl) le_rfl (by decide) fun n hn => ?_
    rw [setNumber, parseInteger_toDigits hn]
    exact unlimited hn
  | maxOrdersPerSecond =>
    change config.setNumber .maxOrdersPerSecond text = some config' ↔ _
    refine setNumber_eq_some_iff (fun n => { config with maxOrdersPerSecond := n }) RuntimeConfig.maxOrdersPerSecond
      (2 ^ 64) (2 ^ 64) (fun _ => rfl) le_rfl (by decide) fun n hn => ?_
    rw [setNumber, parseInteger_toDigits hn]
    exact unlimited hn

/-- A field is stored exactly if the text is that of a value the field allows; the other fields stay. -/
theorem setField_eq_some_iff (hne : field ≠ .none) {text : List Char} (htext : '=' ∉ text) :
    config.setField field text = some config' ↔
      (∀ other, other ≠ field → config'.value other = config.value other) ∧ field.Allows (config'.value field) ∧
        text = (config'.value field).text := by
  rw [setField_eq_some_iff_assign hne htext]
  refine and_congr_left' ⟨fun h other hother => ?_, fun h => ext_value fun other _ => ?_⟩
  · rw [h, value_assign_of_ne hother]
  · by_cases hother : other = field
    · rw [hother, value_assign_self, if_neg hne]
    · rw [value_assign_of_ne hother, h other hother]

/-- An entry is taken exactly if it is that of a field not seen before, with a value the field allows. -/
theorem parseEntry_eq_ok_iff {st st' : ConfigParse} {text : List Char} :
    st.parseEntry text = .ok st' ↔ ∃ field, field ≠ .none ∧ st.seen field = false ∧ st'.seen = update st.seen field true ∧
      (∀ other, other ≠ field → st'.config.value other = st.config.value other) ∧ field.Allows (st'.config.value field) ∧
      text = st'.config.entry field := by
  unfold ConfigParse.parseEntry
  constructor
  · intro h
    cases hsplit : splitEntry text with
    | none =>
      rw [hsplit] at h
      cases h
    | some parts =>
      obtain ⟨name, value⟩ := parts
      rw [hsplit] at h
      dsimp only at h
      obtain ⟨rfl, -, -, -, hvalue⟩ := splitEntry_eq_some_iff.mp hsplit
      split at h
      · cases h
      rename_i hne
      split at h
      · cases h
      rename_i hseen
      split at h
      · cases h
      · rename_i config hset
        obtain rfl := Except.ok.inj h
        obtain ⟨hothers, hallows, rfl⟩ := (setField_eq_some_iff hne hvalue).mp hset
        exact ⟨_, hne, Bool.eq_false_iff.mpr hseen, rfl, hothers, hallows,
          congrArg (· ++ '=' :: _) (name_of_fieldFromName rfl hne)⟩
  · rintro ⟨field, hne, hseen, hseen', hothers, hallows, rfl⟩
    obtain ⟨htext, hequals⟩ := text_shape hallows
    have hsplit : splitEntry (st'.config.entry field) = some (field.name, (st'.config.value field).text) :=
      splitEntry_eq_some_iff.mpr ⟨rfl, (name_shape field).1, htext, (name_shape field).2, hequals⟩
    rw [hsplit]
    dsimp only
    rw [fieldFromName_name hne, if_neg hne, hseen, (setField_eq_some_iff hne hequals).mpr ⟨hothers, hallows, rfl⟩, ← hseen']
    rfl

/-! ## The loop -/

/-- A sequence of two computations that goes through has a result in between. -/
theorem bind_eq_ok_iff {ε α β : Type} {x : Except ε α} {f : α → Except ε β} {b : β} :
    x >>= f = .ok b ↔ ∃ a, x = .ok a ∧ f a = .ok b := by
  cases x with
  | error e => exact iff_of_false nofun fun ⟨a, ha, _⟩ => nomatch ha
  | ok a => exact ⟨fun h => ⟨a, rfl, h⟩, fun ⟨a', ha, h⟩ => Except.ok.inj ha ▸ h⟩

theorem seen_cons {seen : RuntimeConfigField → Bool} {other : RuntimeConfigField} {fields : List RuntimeConfigField} :
    (update seen field true other || decide (other ∈ fields)) = (seen other || decide (other ∈ field :: fields)) := by
  by_cases h : other = field
  · subst h
    rw [update_self, decide_eq_true List.mem_cons_self, Bool.true_or, Bool.or_true]
  · rw [update_of_ne h]
    simp [h]

/-- The loop goes through exactly on the entries of distinct fields not seen before, with values the fields allow. A field keeps its value,
as the entries that follow have other fields. -/
theorem foldlM_parseEntry_eq_ok_iff {st st' : ConfigParse} {texts : List (List Char)} :
    texts.foldlM ConfigParse.parseEntry st = .ok st' ↔ ∃ fields : List RuntimeConfigField,
      fields.Nodup ∧ (∀ field ∈ fields, field ≠ .none ∧ st.seen field = false ∧ field.Allows (st'.config.value field)) ∧
      (∀ field, st'.seen field = (st.seen field || decide (field ∈ fields))) ∧
      (∀ field, field ∉ fields → st'.config.value field = st.config.value field) ∧ texts = fields.map st'.config.entry := by
  induction texts generalizing st with
  | nil =>
    rw [List.foldlM_nil]
    constructor
    · intro h
      obtain rfl := Except.ok.inj h
      exact ⟨[], List.nodup_nil, fun _ h => absurd h List.not_mem_nil, fun _ => by simp, fun _ _ => rfl, rfl⟩
    · rintro ⟨fields, -, -, hseen, hvalues, htexts⟩
      obtain rfl := List.map_eq_nil_iff.mp htexts.symm
      refine congrArg Except.ok ?_
      obtain ⟨config, seen⟩ := st
      obtain ⟨config', seen'⟩ := st'
      rw [ConfigParse.mk.injEq]
      exact ⟨ext_value fun field _ => (hvalues field List.not_mem_nil).symm, funext fun field => by simpa using (hseen field).symm⟩
  | cons text texts ih =>
    rw [List.foldlM_cons, bind_eq_ok_iff]
    constructor
    · rintro ⟨st₁, hentry, hrest⟩
      obtain ⟨field, hne, hseen, hseen₁, hothers, hallows, htext⟩ := parseEntry_eq_ok_iff.mp hentry
      obtain ⟨fields, hnodup, hfields, hseen', hvalues, htexts⟩ := ih.mp hrest
      have hnew : field ∉ fields := fun hmem => by
        have := (hfields field hmem).2.1
        rw [hseen₁, update_self] at this
        exact absurd this (by decide)
      have hother {other : RuntimeConfigField} (hmem : other ∈ fields) : other ≠ field := fun h => hnew (h ▸ hmem)
      have hvalue : st'.config.value field = st₁.config.value field := hvalues field hnew
      refine ⟨field :: fields, List.nodup_cons.mpr ⟨hnew, hnodup⟩, ?_, ?_, ?_, ?_⟩
      · refine List.forall_mem_cons.mpr ⟨⟨hne, hseen, hvalue ▸ hallows⟩, fun other hmem => ?_⟩
        obtain ⟨hne', hunseen, hallows'⟩ := hfields other hmem
        rw [hseen₁, update_of_ne (hother hmem)] at hunseen
        exact ⟨hne', hunseen, hallows'⟩
      · intro other
        rw [hseen', hseen₁, seen_cons]
      · intro other hmem
        obtain ⟨hother', hmem'⟩ := List.ne_and_not_mem_of_not_mem_cons hmem
        rw [hvalues other hmem', hothers other hother']
      · rw [List.map_cons, ← htexts, htext, entry, entry, hvalue]
    · rintro ⟨fields, hnodup, hfields, hseen', hvalues, htexts⟩
      cases fields with
      | nil => cases htexts
      | cons field fields =>
        rw [List.map_cons, List.cons.injEq] at htexts
        obtain ⟨hnew, hnodup'⟩ := List.nodup_cons.mp hnodup
        obtain ⟨⟨hne, hseen, hallows⟩, hrest⟩ := List.forall_mem_cons.mp hfields
        have hother {other : RuntimeConfigField} (hmem : other ∈ fields) : other ≠ field := fun h => hnew (h ▸ hmem)
        have hvalue : (st.config.assign st'.config field).value field = st'.config.value field := by
          rw [value_assign_self, if_neg hne]
        refine ⟨⟨st.config.assign st'.config field, update st.seen field true⟩, parseEntry_eq_ok_iff.mpr ?_, ih.mpr ?_⟩
        · refine ⟨field, hne, hseen, rfl, fun other h => value_assign_of_ne h, hvalue ▸ hallows, ?_⟩
          rw [htexts.1, entry, entry, hvalue]
        · refine ⟨fields, hnodup', fun other hmem => ?_, fun other => ?_, fun other hmem => ?_, htexts.2⟩
          · obtain ⟨hne', hunseen, hallows'⟩ := hrest other hmem
            exact ⟨hne', (update_of_ne (hother hmem) _ _).trans hunseen, hallows'⟩
          · exact (hseen' other).trans seen_cons.symm
          · by_cases h : other = field
            · rw [h, hvalue]
            · rw [value_assign_of_ne h]
              exact hvalues other (List.not_mem_cons_of_ne_of_not_mem h hmem)

end RuntimeConfig

end MatchingEngine

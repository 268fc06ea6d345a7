import MatchingEngine.Lemmas.Gateway
import Mathlib.Data.Finset.Card

/-!
# The decisions of the gateway

What the gateway decides of an order is a function of its history: of the orders accepted and not released since, and of those accepted
on the order's lane in its second. The adapter that calls it changes nothing else when it fails, but for one case.
-/

namespace MatchingEngine

/-! ## Histories -/

inductive GatewayCall where
  | validate (laneId id : Nat) (price : Int64) (quantity logicalTime : UInt64)
  | release (id : Nat)
  deriving DecidableEq

/-- A call: its answer, and the gateway it leaves. A release has no answer but `none`. -/
def GatewayValidator.call (g : GatewayValidator) : GatewayCall → GatewayRejectReason × GatewayValidator
  | .validate laneId id price quantity logicalTime => g.validate laneId id price quantity logicalTime
  | .release id => (.none, g.release id)

/-- The calls made so far, with their answers, and the gateway they leave. -/
inductive GatewayRun (config : GatewayConfig) : List (GatewayCall × GatewayRejectReason) → GatewayValidator → Prop where
  | create : GatewayRun config [] (GatewayValidator.create config)
  | call {calls : List (GatewayCall × GatewayRejectReason)} {g : GatewayValidator} (before : GatewayRun config calls g) (c : GatewayCall) :
      GatewayRun config (calls ++ [(c, (g.call c).1)]) (g.call c).2

/-- The ids accepted and not released since. -/
def activeIds (calls : List (GatewayCall × GatewayRejectReason)) : Finset Nat :=
  calls.foldl
    (fun ids call =>
      match call with
      | (.validate _ id _ _ _, .none) => insert id ids
      | (.release id, _) => ids.erase id
      | _ => ids)
    ∅

/-- The order was accepted on this lane, in this bucket of 1000 ticks. -/
def acceptedOn (laneId bucket : Nat) : GatewayCall × GatewayRejectReason → Bool
  | (.validate lane _ _ _ logicalTime, .none) => lane = laneId ∧ logicalTime.toNat / 1000 = bucket
  | _ => false

/-- The orders accepted on a lane, in a bucket of 1000 ticks. -/
def acceptedIn (laneId bucket : Nat) (calls : List (GatewayCall × GatewayRejectReason)) : Nat := calls.countP (acceptedOn laneId bucket)

/-- The logical times of the orders on a lane, in the order of the calls. -/
def laneTimes (laneId : Nat) (calls : List GatewayCall) : List UInt64 :=
  calls.filterMap fun
    | .validate lane _ _ _ logicalTime => if lane = laneId then some logicalTime else none
    | .release _ => none

/-- Logical times do not decrease within a lane. -/
def TimesOrdered (calls : List GatewayCall) : Prop := ∀ laneId, (laneTimes laneId calls).Pairwise (· ≤ ·)

/-- What an order is asked for, after the calls made so far. -/
structure Acceptable (config : GatewayConfig) (calls : List (GatewayCall × GatewayRejectReason)) (laneId id : Nat) (price : Int64)
    (quantity logicalTime : UInt64) : Prop where
  lane : laneId < max 1 config.maxLanes
  id_ne : id ≠ 0
  inactive : id ∉ activeIds calls
  room : (activeIds calls).card < config.maxActiveOrders
  quantity_le : quantity ≤ config.maxQuantity
  collar : config.minPrice ≤ price ∧ price ≤ config.maxPrice
  notional : price.toInt.natAbs * quantity.toNat ≤ config.maxNotional.toNat
  rate : acceptedIn laneId (logicalTime.toNat / 1000) calls < max 1 config.maxOrdersPerSecond.toNat

/-- The calls that concern the rate of a lane. -/
def onLane (laneId : Nat) (calls : List (GatewayCall × GatewayRejectReason)) : List (GatewayCall × GatewayRejectReason) :=
  calls.filter fun
    | (.validate lane _ _ _ _, _) => lane = laneId
    | (.release _, _) => false

section

variable {config : GatewayConfig} {calls : List (GatewayCall × GatewayRejectReason)} {g : GatewayValidator}
  {laneId id : Nat} {price : Int64} {quantity logicalTime : UInt64}

/-- The accepted of a bucket, with one call more. -/
theorem acceptedIn_append (bucket : Nat) (call : GatewayCall × GatewayRejectReason) :
    acceptedIn laneId bucket (calls ++ [call]) = acceptedIn laneId bucket calls + if acceptedOn laneId bucket call then 1 else 0 := by
  rw [acceptedIn, List.countP_append, List.countP_singleton]
  rfl

/-- Only the calls of the lane count. -/
theorem acceptedIn_onLane (bucket : Nat) : acceptedIn laneId bucket (onLane laneId calls) = acceptedIn laneId bucket calls := by
  rw [acceptedIn, onLane, List.countP_filter]
  refine List.countP_congr fun call _ => ?_
  rcases call with ⟨_ | _, reason⟩
  · cases reason <;> simp [acceptedOn]
    exact fun h _ => h
  · simp [acceptedOn]

/-- An order accepted in a bucket has a time of the lane in it. -/
theorem exists_time_of_acceptedIn {bucket : Nat} (h : acceptedIn laneId bucket calls ≠ 0) :
    ∃ t ∈ laneTimes laneId (calls.map Prod.fst), t.toNat / 1000 = bucket := by
  obtain ⟨call, hcall, hon⟩ := List.countP_pos_iff.mp (Nat.pos_of_ne_zero h)
  obtain ⟨_ | _, reason⟩ := call
  · rename_i lane id price quantity t
    cases reason <;> simp [acceptedOn] at hon
    obtain ⟨rfl, hbucket⟩ := hon
    exact ⟨t, List.mem_filterMap.mpr ⟨_, List.mem_map_of_mem hcall, if_pos rfl⟩, hbucket⟩
  · simp [acceptedOn] at hon

/-- The times of a lane, with one call more. -/
theorem laneTimes_append (calls : List GatewayCall) (c : GatewayCall) :
    laneTimes laneId (calls ++ [c]) = laneTimes laneId calls ++ laneTimes laneId [c] := List.filterMap_append ..

/-- The earlier calls are in order. -/
theorem TimesOrdered.before {calls : List GatewayCall} {c : GatewayCall} (h : TimesOrdered (calls ++ [c])) : TimesOrdered calls :=
  fun laneId => by
    have := h laneId
    rw [laneTimes_append] at this
    exact (List.pairwise_append.mp this).1

/-- The times of a lane are not above the last one. -/
theorem TimesOrdered.le_last {calls : List GatewayCall} (h : TimesOrdered (calls ++ [.validate laneId id price quantity logicalTime]))
    {t : UInt64} (ht : t ∈ laneTimes laneId calls) : t.toNat ≤ logicalTime.toNat := by
  have := h laneId
  rw [laneTimes_append] at this
  refine UInt64.le_iff_toNat_le.mp ((List.pairwise_append.mp this).2.2 t ht logicalTime ?_)
  simp [laneTimes]

/-! ## What a gateway remembers of its calls -/

/-- A gateway has its configuration, the active ids, and for each lane the number of orders accepted in the last bucket that has some. -/
structure GatewayValidator.Remembers (config : GatewayConfig) (calls : List (GatewayCall × GatewayRejectReason)) (g : GatewayValidator) :
    Prop where
  config_eq : g.config = (GatewayValidator.create config).config
  nodup : g.activeOrderIds.Nodup
  active : ∀ id, id ∈ g.activeOrderIds ↔ id ∈ activeIds calls
  window : ∀ lane, (g.rateWindows lane).count.toNat = acceptedIn lane (g.rateWindows lane).start.toNat calls
  empty : ∀ lane, (g.rateWindows lane).count = 0 → ∀ bucket, acceptedIn lane bucket calls = 0
  latest : ∀ lane bucket, (g.rateWindows lane).start.toNat < bucket → acceptedIn lane bucket calls = 0

namespace GatewayValidator.Remembers

/-- There is at least one lane. -/
theorem maxLanes (h : g.Remembers config calls) : g.config.maxLanes = max 1 config.maxLanes := by
  rw [h.config_eq]
  show (if config.maxLanes = 0 then 1 else config.maxLanes) = _
  split <;> omega

/-- There is at least one order a second. -/
theorem maxOrdersPerSecond (h : g.Remembers config calls) : g.config.maxOrdersPerSecond.toNat = max 1 config.maxOrdersPerSecond.toNat := by
  rw [h.config_eq]
  show (if config.maxOrdersPerSecond = 0 then 1 else config.maxOrdersPerSecond).toNat = _
  split
  · rename_i h0
    rw [h0]
    rfl
  · rename_i h0
    have : config.maxOrdersPerSecond.toNat ≠ 0 := fun hz => h0 (UInt64.toNat_inj.mp hz)
    omega

/-- The active ids are counted once each. -/
theorem card (h : g.Remembers config calls) : g.activeOrderIds.length = (activeIds calls).card := by
  rw [← List.toFinset_card_of_nodup h.nodup]
  exact congrArg Finset.card (Finset.ext fun id => by rw [List.mem_toFinset, h.active])

/-- The start of a window that counts something is not above the bucket of the next order. -/
theorem start_le (h : g.Remembers config calls)
    (ordered : TimesOrdered (calls.map Prod.fst ++ [.validate laneId id price quantity logicalTime]))
    (hcount : (g.rateWindows laneId).count ≠ 0) : (g.rateWindows laneId).start.toNat ≤ logicalTime.toNat / 1000 := by
  have hne : acceptedIn laneId (g.rateWindows laneId).start.toNat calls ≠ 0 := fun h0 =>
    hcount (UInt64.toNat_inj.mp ((h.window laneId).trans h0))
  obtain ⟨t, ht, hbucket⟩ := exists_time_of_acceptedIn hne
  rw [← hbucket]
  exact Nat.div_le_div_right (ordered.le_last ht)

theorem toNat_bucket (t : UInt64) : (t / 1000).toNat = t.toNat / 1000 := by
  rw [UInt64.toNat_div]
  rfl

/-- The window an order meets counts the orders accepted in its bucket. -/
theorem windowAt (h : g.Remembers config calls)
    (ordered : TimesOrdered (calls.map Prod.fst ++ [.validate laneId id price quantity logicalTime])) :
    (g.windowAt laneId logicalTime).start.toNat = logicalTime.toNat / 1000 ∧
      (g.windowAt laneId logicalTime).count.toNat = acceptedIn laneId (logicalTime.toNat / 1000) calls := by
  unfold GatewayValidator.windowAt
  split
  · rename_i hrenewed
    refine ⟨toNat_bucket _, ?_⟩
    by_cases hcount : (g.rateWindows laneId).count = 0
    · exact (h.empty laneId hcount _).symm
    · have hle := h.start_le ordered hcount
      have hne : logicalTime / 1000 ≠ (g.rateWindows laneId).start := hrenewed.resolve_left hcount
      have hlt : (g.rateWindows laneId).start.toNat < logicalTime.toNat / 1000 := by
        refine Nat.lt_of_le_of_ne hle fun heq => hne (UInt64.toNat_inj.mp ?_)
        rw [toNat_bucket, heq]
      exact (h.latest laneId _ hlt).symm
  · rename_i hkept
    have hstart : (g.rateWindows laneId).start.toNat = logicalTime.toNat / 1000 := by
      rw [← toNat_bucket, ← not_not.mp (not_or.mp hkept).2]
    exact ⟨hstart, by rw [h.window, hstart]⟩

/-- The rate decision on an order. -/
theorem rate (h : g.Remembers config calls)
    (ordered : TimesOrdered (calls.map Prod.fst ++ [.validate laneId id price quantity logicalTime])) :
    (g.rateLimitExceeded laneId logicalTime).1 = true ↔
      max 1 config.maxOrdersPerSecond.toNat ≤ acceptedIn laneId (logicalTime.toNat / 1000) calls := by
  have hmax : g.config.maxOrdersPerSecond ≠ 0 := fun h0 => by
    have := h.maxOrdersPerSecond
    rw [h0, UInt64.toNat_zero] at this
    omega
  rw [rateLimitExceeded_eq hmax, ← (h.windowAt ordered).2, ← h.maxOrdersPerSecond, ← UInt64.le_iff_toNat_le]
  split
  · rename_i hle
    exact iff_of_true rfl hle
  · rename_i hle
    exact iff_of_false nofun hle

/-- An order is accepted exactly when it is acceptable. -/
theorem validate_iff (h : g.Remembers config calls) (hnotional : config.maxNotional < uint64Max)
    (ordered : TimesOrdered (calls.map Prod.fst ++ [.validate laneId id price quantity logicalTime])) :
    (g.validate laneId id price quantity logicalTime).1 = .none ↔ Acceptable config calls laneId id price quantity logicalTime := by
  have hconfig : g.config.maxActiveOrders = config.maxActiveOrders ∧ g.config.maxQuantity = config.maxQuantity ∧
      g.config.minPrice = config.minPrice ∧ g.config.maxPrice = config.maxPrice ∧ g.config.maxNotional = config.maxNotional := by
    rw [h.config_eq]
    exact ⟨rfl, rfl, rfl, rfl, rfl⟩
  obtain ⟨h1, h2, h3, h4, h5⟩ := hconfig
  rw [validate_eq_none_iff, rejectReason_eq_none_iff, h.rate ordered, h.maxLanes, h.active, h.card, h1, h2, h3, h4, h5,
    absoluteNotional_le hnotional, Nat.not_le]
  exact ⟨fun ⟨⟨lane, id_ne, inactive, room, quantity_le, collar, notional⟩, rate⟩ =>
      ⟨lane, id_ne, inactive, room, quantity_le, collar, notional, rate⟩,
    fun h => ⟨⟨h.lane, h.id_ne, h.inactive, h.room, h.quantity_le, h.collar, h.notional⟩, h.rate⟩⟩

/-- A gateway with no calls yet. -/
theorem create : (GatewayValidator.create config).Remembers config [] :=
  ⟨rfl, List.nodup_nil, fun _ => iff_of_false nofun nofun, fun _ => rfl, fun _ _ _ => rfl, fun _ _ _ => rfl⟩

/-- The order that is accepted. -/
theorem accept (h : g.Remembers config calls)
    (ordered : TimesOrdered (calls.map Prod.fst ++ [.validate laneId id price quantity logicalTime]))
    (haccepted : (g.validate laneId id price quantity logicalTime).1 = .none) :
    (g.validate laneId id price quantity logicalTime).2.Remembers config
      (calls ++ [(.validate laneId id price quantity logicalTime, .none)]) := by
  obtain ⟨hreason, hrate⟩ := validate_eq_none_iff.mp haccepted
  obtain ⟨hstart, hwindow⟩ := h.windowAt ordered
  have hmax : g.config.maxOrdersPerSecond ≠ 0 := fun h0 => by
    have := h.maxOrdersPerSecond
    rw [h0, UInt64.toNat_zero] at this
    omega
  rw [rateLimitExceeded_eq hmax] at hrate
  have hlt : ¬g.config.maxOrdersPerSecond ≤ (g.windowAt laneId logicalTime).count := fun hle => hrate (by rw [if_pos hle])
  let window : RateWindow := { g.windowAt laneId logicalTime with count := (g.windowAt laneId logicalTime).count + 1 }
  have hafter : (g.validate laneId id price quantity logicalTime).2 =
      { g with
        rateWindows := Function.update g.rateWindows laneId window
        activeOrderIds := g.activeOrderIds ++ [id] } := by
    unfold GatewayValidator.validate
    rw [if_neg (not_not.mpr hreason), rateLimitExceeded_eq hmax, if_neg hlt]
    rfl
  have hcount : window.count.toNat = acceptedIn laneId (logicalTime.toNat / 1000) calls + 1 := by
    have hlt' := UInt64.lt_iff_toNat_lt.mp (UInt64.not_le.mp hlt)
    have hbound := g.config.maxOrdersPerSecond.toNat_lt
    rw [← hwindow]
    show ((g.windowAt laneId logicalTime).count + 1).toNat = _
    rw [UInt64.toNat_add, UInt64.toNat_one, Nat.mod_eq_of_lt (by omega)]
  have hids : activeIds (calls ++ [(.validate laneId id price quantity logicalTime, .none)]) = insert id (activeIds calls) := by
    rw [activeIds, List.foldl_append]
    rfl
  have hself : ∀ bucket, acceptedIn laneId bucket (calls ++ [(.validate laneId id price quantity logicalTime, .none)]) =
      acceptedIn laneId bucket calls + if logicalTime.toNat / 1000 = bucket then 1 else 0 := fun bucket => by
    rw [acceptedIn_append]
    simp [acceptedOn]
  have hother : ∀ lane, lane ≠ laneId → ∀ bucket,
      acceptedIn lane bucket (calls ++ [(.validate laneId id price quantity logicalTime, .none)]) = acceptedIn lane bucket calls :=
    fun lane hne bucket => by
      rw [acceptedIn_append]
      simp [acceptedOn, Ne.symm hne]
  have hnew := (rejectReason_eq_none_iff.mp hreason).2.2.1
  rw [hafter]
  refine
    { config_eq := h.config_eq
      nodup := List.nodup_append.mpr ⟨h.nodup, by simp, fun x hx y hy hxy => hnew (by rwa [← List.mem_singleton.mp hy, ← hxy])⟩
      active := fun id' => by rw [List.mem_append, List.mem_singleton, h.active, hids, Finset.mem_insert, or_comm]
      window := fun lane => ?_
      empty := fun lane h0 bucket => ?_
      latest := fun lane bucket hlt => ?_ }
  all_goals
    dsimp only at *
    by_cases hlane : lane = laneId
  · subst hlane
    rw [Function.update_self, hcount, hself]
    rw [if_pos hstart.symm]
    exact congrArg (· + 1) (by rw [← hstart])
  · rw [Function.update_of_ne hlane, hother lane hlane, h.window]
  · subst hlane
    rw [Function.update_self] at h0
    rw [h0] at hcount
    cases hcount
  · rw [Function.update_of_ne hlane] at h0
    rw [hother lane hlane, h.empty lane h0]
  · subst hlane
    rw [Function.update_self] at hlt
    have hlt' : logicalTime.toNat / 1000 < bucket := hstart ▸ hlt
    rw [hself, if_neg (Nat.ne_of_lt hlt')]
    by_cases h0 : (g.rateWindows lane).count = 0
    · exact h.empty lane h0 bucket
    · exact h.latest lane bucket (Nat.lt_of_le_of_lt (h.start_le ordered h0) hlt')
  · rw [Function.update_of_ne hlane] at hlt
    rw [hother lane hlane, h.latest lane bucket hlt]

/-- An id that is released. -/
theorem release (h : g.Remembers config calls) (id : Nat) : (g.release id).Remembers config (calls ++ [(.release id, .none)]) := by
  have hids : activeIds (calls ++ [(.release id, .none)]) = (activeIds calls).erase id := by
    rw [activeIds, List.foldl_append]
    rfl
  have hcount : ∀ lane bucket, acceptedIn lane bucket (calls ++ [(.release id, .none)]) = acceptedIn lane bucket calls :=
    fun lane bucket => acceptedIn_append bucket _
  refine
    { config_eq := h.config_eq
      nodup := ?_
      active := fun id' => ?_
      window := fun lane => by rw [hcount]; exact h.window lane
      empty := fun lane h0 bucket => by rw [hcount]; exact h.empty lane h0 bucket
      latest := fun lane bucket hlt => by rw [hcount]; exact h.latest lane bucket hlt }
  · show (swapRemove (fun active => decide (active = id)) g.activeOrderIds).Nodup
    have := nodup_map_swapRemove (p := fun active => active = id) (f := fun id : Nat => id) (by simpa using h.nodup)
    simpa using this
  · have hmem : id' ∈ (g.release id).activeOrderIds ↔ id' ∈ g.activeOrderIds ∧ id' ≠ id :=
      mem_swapRemove_key (f := fun id => id) (by simpa using h.nodup)
    rw [hids, Finset.mem_erase, hmem, h.active, and_comm]

/-- An order that is refused. -/
theorem refuse (h : g.Remembers config calls) {call : GatewayCall × GatewayRejectReason}
    (hcall : ∃ lane id price quantity t, call.1 = .validate lane id price quantity t) (hne : call.2 ≠ .none) :
    g.Remembers config (calls ++ [call]) := by
  obtain ⟨c, reason⟩ := call
  obtain ⟨lane, id, price, quantity, t, rfl⟩ := hcall
  have hids : activeIds (calls ++ [(.validate lane id price quantity t, reason)]) = activeIds calls := by
    rw [activeIds, List.foldl_append]
    cases reason <;> first | exact absurd rfl hne | rfl
  have hcount : ∀ lane' bucket, acceptedIn lane' bucket (calls ++ [(.validate lane id price quantity t, reason)]) =
      acceptedIn lane' bucket calls := fun lane' bucket => by
    rw [acceptedIn_append]
    cases reason <;> first | exact absurd rfl hne | rfl
  exact ⟨h.config_eq, h.nodup, fun id' => by rw [hids]; exact h.active id', fun lane' => by rw [hcount]; exact h.window lane',
    fun lane' h0 bucket => by rw [hcount]; exact h.empty lane' h0 bucket,
    fun lane' bucket hlt => by rw [hcount]; exact h.latest lane' bucket hlt⟩

/-- After every run whose times are ordered. -/
theorem of_run (run : GatewayRun config calls g) (ordered : TimesOrdered (calls.map Prod.fst)) : g.Remembers config calls := by
  induction run with
  | create => exact create
  | @call calls g before c ih =>
    rw [List.map_append, List.map_cons, List.map_nil] at ordered
    have h := ih ordered.before
    cases c with
    | release id => exact h.release id
    | validate laneId id price quantity logicalTime =>
      dsimp only [GatewayValidator.call]
      by_cases haccepted : (g.validate laneId id price quantity logicalTime).1 = .none
      · rw [haccepted]
        exact h.accept ordered haccepted
      · rw [validate_ne_none haccepted]
        exact h.refuse ⟨_, _, _, _, _, rfl⟩ haccepted

end GatewayValidator.Remembers

end

/-- What the gateway decides of an order after any calls, with logical times that do not decrease within a lane: it accepts exactly
the acceptable orders, a refusal changes nothing, and the rate decision depends on the calls of the lane alone. -/
theorem gateway_decides {config : GatewayConfig} {calls : List (GatewayCall × GatewayRejectReason)} {g : GatewayValidator}
    (run : GatewayRun config calls g) (notional : config.maxNotional < uint64Max) (laneId id : Nat) (price : Int64)
    (quantity logicalTime : UInt64)
    (ordered : TimesOrdered (calls.map Prod.fst ++ [.validate laneId id price quantity logicalTime])) :
    ((g.validate laneId id price quantity logicalTime).1 = .none ↔ Acceptable config calls laneId id price quantity logicalTime) ∧
    ((g.validate laneId id price quantity logicalTime).1 ≠ .none → (g.validate laneId id price quantity logicalTime).2 = g) ∧
    ∀ calls' g', GatewayRun config calls' g' → TimesOrdered (calls'.map Prod.fst ++ [.validate laneId id price quantity logicalTime]) →
      onLane laneId calls' = onLane laneId calls →
      (g'.rateLimitExceeded laneId logicalTime).1 = (g.rateLimitExceeded laneId logicalTime).1 := by
  have h := GatewayValidator.Remembers.of_run run ordered.before
  refine ⟨h.validate_iff notional ordered, GatewayValidator.validate_ne_none, fun calls' g' run' ordered' hsame => ?_⟩
  have h' := GatewayValidator.Remembers.of_run run' ordered'.before
  rw [Bool.eq_iff_iff, h.rate ordered, h'.rate ordered', ← @acceptedIn_onLane calls, ← @acceptedIn_onLane calls',
    hsame]

/-- A second order on a lane, in the bucket of the first. -/
theorem gateway_decides_second_order : ∃ g, GatewayRun .small [(.validate 0 1 101 2 5, .none)] g ∧
    Acceptable .small [(.validate 0 1 101 2 5, .none)] 0 2 101 2 7 := by
  have run : GatewayRun .small [(.validate 0 1 101 2 5, .none)] _ := .call .create (.validate 0 1 101 2 5)
  refine ⟨_, run, (gateway_decides run (by decide) 0 2 101 2 7 fun lane => ?_).1.mp (by decide)⟩
  by_cases h : 0 = lane <;> simp [laneTimes, h]

/-! ## The adapter -/

namespace MarketDataAdapter

/-- The same adapter, but for the last reject reason of its gateway. -/
def Kept (a a' : MarketDataAdapter) : Prop := a' = { a with lastGatewayRejectReason := a'.lastGatewayRejectReason }

/-- The gateway lets the order of a message through, and then the sequencer refuses the command. -/
def Strands (a : MarketDataAdapter) (message : MarketDataMessage) : Prop :=
  MarketDataMessageType.ofRaw message.type = some .addOrder ∧
  validateMarketDataSequence a.previousMarketDataSequence message = .none ∧
  (a.gateway.validate 0 message.orderId.toNat message.price message.quantity message.sequence).1 = .none ∧
  ((Side.ofRaw message.side).isNone ∨ message.sequence < a.sequencer.lastLogicalTime ∨ a.sequencer.exhausted = true)

/-- A limit order is valid if it has a side. -/
theorem validate_submitLimit (id : UInt64) (side : UInt8) (price : Int64) (quantity : UInt64) :
    validateCommandPayload (.submitLimit id side price quantity TimeInForce.gtc.raw) = .none ↔ ¬(Side.ofRaw side).isNone = true := by
  have htag : CommandType.ofRaw (CommandPayload.submitLimit id side price quantity TimeInForce.gtc.raw).tag = some .submitLimit := rfl
  have hreserved : (CommandPayload.submitLimit id side price quantity TimeInForce.gtc.raw).reserved = 0 := rfl
  unfold validateCommandPayload
  rw [htag]
  dsimp only
  rw [if_neg (not_not.mpr hreserved)]
  split
  · rename_i hside
    exact iff_of_false nofun (not_not.mpr hside)
  · rename_i hside
    exact iff_of_true rfl hside

/-- A command is stamped unless it is invalid, its time decreases or the numbers are used up. -/
theorem stamp_error_iff {s : Sequencer} {payload : CommandPayload} {time : UInt64} :
    (∃ error, s.stamp payload time = .error error) ↔
      validateCommandPayload payload ≠ .none ∨ time < s.lastLogicalTime ∨ s.exhausted = true := by
  unfold Sequencer.stamp
  split
  · rename_i h
    exact iff_of_true ⟨_, rfl⟩ (Or.inl h)
  split
  · rename_i h
    exact iff_of_true ⟨_, rfl⟩ (Or.inr (Or.inl h))
  split
  · rename_i h
    exact iff_of_true ⟨_, rfl⟩ (Or.inr (Or.inr h))
  · rename_i h1 h2 h3
    exact iff_of_false nofun (not_or.mpr ⟨h1, not_or.mpr ⟨h2, h3⟩⟩)

variable {a a' : MarketDataAdapter} {message : MarketDataMessage}

/-- A limit order is not stamped without a side, before the last time, or with the numbers used up. -/
theorem stamp_submitLimit_error_iff : (∃ error, a.sequencer.stamp
    (.submitLimit message.orderId message.side message.price message.quantity TimeInForce.gtc.raw) message.sequence = .error error) ↔
    (Side.ofRaw message.side).isNone ∨ message.sequence < a.sequencer.lastLogicalTime ∨ a.sequencer.exhausted = true := by
  rw [stamp_error_iff, ne_eq, validate_submitLimit, not_not]

theorem Kept.refl (a : MarketDataAdapter) : a.Kept a := rfl

/-- What the making of a command keeps: everything but the gateway, and that too unless it lets an order through. -/
theorem payload_kept (h : (a.payload message).1.isOk = false ∨ MarketDataMessageType.ofRaw message.type ≠ some .addOrder) :
    a.Kept (a.payload message).2 := by
  unfold MarketDataAdapter.payload at h ⊢
  cases htype : MarketDataMessageType.ofRaw message.type with
  | none => rfl
  | some type =>
    rw [htype] at h
    cases type with
    | addOrder =>
      dsimp only at h ⊢
      split at h
      · rename_i hne
        rw [if_pos hne]
        unfold Kept
        dsimp only
        rw [GatewayValidator.validate_ne_none hne]
      · rcases h with h | h
        · cases h
        · exact absurd rfl h
    | deleteOrder =>
      dsimp only
      split <;> rfl
    | replaceOrder =>
      dsimp only
      split <;> rfl
    | trade => rfl
    | levelUpdate => rfl

/-- The payload of an order the gateway lets through. -/
theorem payload_add (htype : MarketDataMessageType.ofRaw message.type = some .addOrder)
    (hvalidate : (a.gateway.validate 0 message.orderId.toNat message.price message.quantity message.sequence).1 = .none) :
    a.payload message =
      (.ok (.submitLimit message.orderId message.side message.price message.quantity TimeInForce.gtc.raw),
        { a with
          gateway := (a.gateway.validate 0 message.orderId.toNat message.price message.quantity message.sequence).2
          lastGatewayRejectReason := .none }) := by
  unfold MarketDataAdapter.payload
  rw [htype]
  dsimp only
  rw [if_neg (not_not.mpr hvalidate), hvalidate]

/-- A message that is stranded fails, and its id is active. -/
theorem Strands.adapt (h : a.Strands message) : (∃ error, (a.adapt message).1 = .error error) ∧
    (a.adapt message).2.gateway.activeOrderIds = a.gateway.activeOrderIds ++ [message.orderId.toNat] := by
  obtain ⟨htype, hsequence, hvalidate, hstamp⟩ := h
  obtain ⟨error, herror⟩ := stamp_submitLimit_error_iff.mpr hstamp
  have hactive := (GatewayValidator.validate_none (Prod.ext hvalidate rfl)).2
  unfold MarketDataAdapter.adapt
  rw [if_neg (not_not.mpr hsequence), payload_add htype hvalidate]
  dsimp only
  rw [herror]
  exact ⟨⟨_, rfl⟩, hactive⟩

/-- A message that fails and is not stranded changes nothing. An order that was let through had its command refused. -/
theorem kept_of_error {error : MarketDataAdaptError} (h : (a.adapt message).1 = .error error) (hnot : ¬a.Strands message) :
    a.Kept (a.adapt message).2 := by
  unfold MarketDataAdapter.adapt at h ⊢
  split
  · rfl
  · rename_i hsequence
    rw [if_neg hsequence] at h
    rcases hpayload : a.payload message with ⟨outcome, b⟩
    rw [hpayload] at h
    cases outcome with
    | error e =>
      have hkept : a.Kept (a.payload message).2 := payload_kept (Or.inl (by rw [hpayload]; rfl))
      rwa [hpayload] at hkept
    | ok payload =>
      dsimp only at h ⊢
      cases hstamp : b.sequencer.stamp payload message.sequence with
      | ok r =>
        rw [hstamp] at h
        cases h
      | error e =>
        dsimp only
        by_cases htype : MarketDataMessageType.ofRaw message.type = some .addOrder
        · refine absurd ?_ hnot
          by_cases hvalidate : (a.gateway.validate 0 message.orderId.toNat message.price message.quantity message.sequence).1 = .none
          · rw [payload_add htype hvalidate, Prod.mk.injEq, Except.ok.injEq] at hpayload
            obtain ⟨rfl, rfl⟩ := hpayload
            exact ⟨htype, not_not.mp hsequence, hvalidate, stamp_submitLimit_error_iff.mp ⟨e, hstamp⟩⟩
          · unfold MarketDataAdapter.payload at hpayload
            rw [htype] at hpayload
            dsimp only at hpayload
            rw [if_pos hvalidate] at hpayload
            cases (Prod.mk.injEq _ _ _ _ ▸ hpayload).1
        · have hkept := payload_kept (a := a) (Or.inr htype)
          rwa [hpayload] at hkept

end MarketDataAdapter

/-- An adaptation that fails leaves the adapter, but for the last reject reason, exactly when it has not let the order through. -/
theorem adapt_error_keeps_iff (a : MarketDataAdapter) (message : MarketDataMessage) :
    (∀ error, (a.adapt message).1 = .error error → a.Kept (a.adapt message).2) ↔ ¬a.Strands message := by
  refine ⟨fun hkept hs => ?_, fun hnot error h => MarketDataAdapter.kept_of_error h hnot⟩
  obtain ⟨⟨error, herror⟩, hactive⟩ := hs.adapt
  have hsame : (a.adapt message).2 = { a with lastGatewayRejectReason := (a.adapt message).2.lastGatewayRejectReason } :=
    hkept error herror
  have hgateway := congrArg MarketDataAdapter.gateway hsame
  rw [hgateway] at hactive
  exact List.cons_ne_nil _ _ (List.self_eq_append_right.mp hactive)

/-- An order with a side that does not exist: it is refused, its id stays active, and the corrected message is refused for it. -/
theorem adapt_strands_id :
    let a := MarketDataAdapter.create (GatewayValidator.create .small)
    (a.adapt ⟨1, 1, 0, 101, 2, 0, 0, 1, 2⟩).1 = .error .invalidCommand ∧ ¬a.Kept (a.adapt ⟨1, 1, 0, 101, 2, 0, 0, 1, 2⟩).2 ∧
    ((a.adapt ⟨1, 1, 0, 101, 2, 0, 0, 1, 2⟩).2.adapt ⟨1, 1, 0, 101, 2, 0, 0, 1, 1⟩).1 = .error .invalidCommand ∧
    ((a.adapt ⟨1, 1, 0, 101, 2, 0, 0, 1, 2⟩).2.adapt ⟨1, 1, 0, 101, 2, 0, 0, 1, 1⟩).2.lastGatewayRejectReason = .duplicateOrderId ∧
    (a.adapt ⟨1, 1, 0, 101, 2, 0, 0, 1, 1⟩).1.isOk = true := by
  refine ⟨by decide, fun h => ?_, by decide, by decide, by decide⟩
  have hactive := congrArg (fun a => a.gateway.activeOrderIds) h
  revert hactive
  decide

end MatchingEngine

import MatchingEngine.MarketData
import Mathlib.Data.List.Nodup

/-!
# The gateway

What the gateway asks of an order, what it keeps of its orders, and the removal from its table.
-/

namespace MatchingEngine

/-! ## Removal by swapping -/

section SwapRemove

variable {α : Type} {p : α → Bool} {v : List α}

/-- What is swapped out is the first such element. -/
theorem swapRemove_perm (p : α → Bool) (v : List α) : (swapRemove p v).Perm (v.eraseP p) := by
  unfold swapRemove
  cases hi : v.findIdx? p with
  | none => rw [List.eraseP_of_forall_not fun a ha => by simp [List.findIdx?_eq_none_iff.mp hi a ha]]
  | some i =>
    obtain ⟨hlt, hp, hbefore⟩ := List.findIdx?_eq_some_iff_getElem.mp hi
    obtain ⟨l, a, r, rfl, rfl, hl, ha⟩ : ∃ l a r, v = l ++ a :: r ∧ i = l.length ∧ (∀ x ∈ l, ¬p x = true) ∧ p a = true := by
      refine ⟨v.take i, v[i], v.drop (i + 1), by simp, by rw [List.length_take]; omega, fun x hx => ?_, hp⟩
      obtain ⟨j, hj, rfl⟩ := List.getElem_of_mem hx
      rw [List.length_take] at hj
      rw [List.getElem_take]
      exact hbefore j (by omega)
    rw [List.eraseP_append_right _ hl, List.eraseP_cons_of_pos ha]
    have hset : ∀ back, (l ++ a :: r).set l.length back = l ++ back :: r := fun back => by
      rw [List.set_append_right _ _ (Nat.le_refl _), Nat.sub_self, List.set_cons_zero]
    rcases List.eq_nil_or_concat r with rfl | ⟨r, back, rfl⟩
    · rw [List.getLast?_concat]
      dsimp only
      rw [hset, List.dropLast_concat, List.append_nil]
    · have hlast : (l ++ a :: (r.concat back)).getLast? = some back := by
        rw [List.concat_eq_append, ← List.cons_append, ← List.append_assoc, List.getLast?_concat]
      rw [hlast]
      dsimp only
      rw [hset, List.concat_eq_append, ← List.cons_append, ← List.append_assoc, List.dropLast_concat]
      exact List.Perm.append_left l (List.perm_append_singleton back r).symm

/-- With keys told apart, only the one of the key goes. -/
theorem mem_swapRemove_key {f : α → Nat} {k : Nat} (hn : (v.map f).Nodup) {x : α} :
    x ∈ swapRemove (fun y => f y = k) v ↔ x ∈ v ∧ f x ≠ k := by
  rw [(swapRemove_perm _ v).mem_iff]
  induction v with
  | nil => simp
  | cons y v ih =>
    rw [List.map_cons, List.nodup_cons] at hn
    by_cases hy : f y = k
    · rw [List.eraseP_cons_of_pos (by simpa using hy)]
      constructor
      · intro hx
        exact ⟨List.mem_cons_of_mem _ hx, fun h => hn.1 (hy.trans h.symm ▸ List.mem_map_of_mem hx)⟩
      · rintro ⟨hx, hne⟩
        rcases List.mem_cons.mp hx with rfl | hx
        · exact absurd hy hne
        · exact hx
    · rw [List.eraseP_cons_of_neg (by simpa using hy), List.mem_cons, ih hn.2, List.mem_cons]
      constructor
      · rintro (rfl | ⟨hx, hne⟩)
        · exact ⟨Or.inl rfl, hy⟩
        · exact ⟨Or.inr hx, hne⟩
      · rintro ⟨rfl | hx, hne⟩
        · exact Or.inl rfl
        · exact Or.inr ⟨hx, hne⟩

theorem nodup_map_swapRemove {f : α → Nat} (hn : (v.map f).Nodup) : ((swapRemove p v).map f).Nodup :=
  ((swapRemove_perm p v).map f).nodup_iff.mpr (hn.sublist ((List.eraseP_sublist).map f))

theorem swapRemove_of_forall_not (h : ∀ x ∈ v, p x = false) : swapRemove p v = v := by
  unfold swapRemove
  rw [List.findIdx?_eq_none_iff.mpr h]

theorem swapRemove_concat {x : α} (h : ∀ y ∈ v, p y = false) (hx : p x = true) : swapRemove p (v ++ [x]) = v := by
  have hidx : (v ++ [x]).findIdx? p = some v.length := by
    rw [List.findIdx?_append, List.findIdx?_eq_none_iff.mpr h]
    simp [List.findIdx?_cons, hx]
  unfold swapRemove
  rw [hidx, List.getLast?_concat]
  dsimp only
  rw [List.set_append_right _ _ (Nat.le_refl _), Nat.sub_self, List.set_cons_zero, List.dropLast_concat]

end SwapRemove

/-! ## The gateway -/

namespace GatewayValidator

variable {g g' : GatewayValidator} {laneId id : Nat} {price : Int64} {quantity logicalTime : UInt64}

/-- A new order has an id that is not active. -/
theorem rejectReason_none (h : g.rejectReason laneId id price quantity = .none) : id ∉ g.activeOrderIds := by
  intro hm
  unfold rejectReason at h
  split at h
  · cases h
  · split at h <;> cases h

/-- The rate limit leaves the active ids. -/
theorem rateLimitExceeded_active : (g.rateLimitExceeded laneId logicalTime).2.activeOrderIds = g.activeOrderIds := by
  unfold rateLimitExceeded
  split
  · rfl
  · dsimp only
    split <;> split <;> rfl

/-- An order that is let through is active, and was not. -/
theorem validate_none (h : g.validate laneId id price quantity logicalTime = (.none, g')) :
    id ∉ g.activeOrderIds ∧ g'.activeOrderIds = g.activeOrderIds ++ [id] := by
  unfold validate at h
  split at h
  · rename_i hne
    rw [Prod.mk.injEq] at h
    exact absurd h.1 hne
  · rename_i hnone
    dsimp only at h
    split at h
    · cases (Prod.mk.injEq _ _ _ _ ▸ h).1
    · rw [Prod.mk.injEq] at h
      obtain ⟨-, rfl⟩ := h
      exact ⟨rejectReason_none (not_not.mp hnone), by rw [rateLimitExceeded_active]⟩

/-- The window of a lane for an order at a time: it is renewed when it is empty or of another time. -/
def windowAt (g : GatewayValidator) (laneId : Nat) (logicalTime : UInt64) : RateWindow :=
  if (g.rateWindows laneId).count = 0 ∨ logicalTime / 1000 ≠ (g.rateWindows laneId).start then ⟨logicalTime / 1000, 0⟩
  else g.rateWindows laneId

/-- With a rate limit, a full window refuses and any other counts. -/
theorem rateLimitExceeded_eq (hmax : g.config.maxOrdersPerSecond ≠ 0) :
    g.rateLimitExceeded laneId logicalTime =
      if g.config.maxOrdersPerSecond ≤ (g.windowAt laneId logicalTime).count then
        (true, { g with rateWindows := Function.update g.rateWindows laneId (g.windowAt laneId logicalTime) })
      else (false, { g with
        rateWindows := Function.update g.rateWindows laneId
          { g.windowAt laneId logicalTime with count := (g.windowAt laneId logicalTime).count + 1 } }) := by
  rw [rateLimitExceeded, if_neg hmax]
  rfl

/-- A rate decision against an order leaves the windows: a window that was renewed has room. -/
theorem rateLimitExceeded_true (h : (g.rateLimitExceeded laneId logicalTime).1 = true) :
    (g.rateLimitExceeded laneId logicalTime).2 = g := by
  by_cases hmax : g.config.maxOrdersPerSecond = 0
  · rw [rateLimitExceeded, if_pos hmax]
  · rw [rateLimitExceeded_eq hmax] at h ⊢
    by_cases hle : g.config.maxOrdersPerSecond ≤ (g.windowAt laneId logicalTime).count
    · rw [if_pos hle]
      unfold windowAt at hle ⊢
      split
      · rename_i hrenewed
        rw [if_pos hrenewed] at hle
        exact absurd (UInt64.le_antisymm hle UInt64.zero_le) hmax
      · rw [Function.update_eq_self]
    · rw [if_neg hle] at h
      cases h

/-- An order that is refused leaves the gateway. -/
theorem validate_ne_none (h : (g.validate laneId id price quantity logicalTime).1 ≠ .none) :
    (g.validate laneId id price quantity logicalTime).2 = g := by
  unfold validate at h ⊢
  split
  · rfl
  · rename_i hnone
    rw [if_neg hnone] at h
    dsimp only at h ⊢
    split at h
    · rename_i hexceeded
      rw [if_pos hexceeded]
      exact rateLimitExceeded_true hexceeded
    · exact absurd rfl h

/-- An order is let through by the checks and by the rate limit. -/
theorem validate_eq_none_iff : (g.validate laneId id price quantity logicalTime).1 = .none ↔
    g.rejectReason laneId id price quantity = .none ∧ ¬(g.rateLimitExceeded laneId logicalTime).1 = true := by
  unfold validate
  split
  · rename_i hne
    exact iff_of_false hne fun h => hne h.1
  · rename_i hnone
    dsimp only
    split
    · rename_i hexceeded
      exact iff_of_false nofun fun h => h.2 hexceeded
    · rename_i hexceeded
      exact iff_of_true rfl ⟨not_not.mp hnone, hexceeded⟩

/-- The notional value of an order is exact below the largest value, at which it saturates. -/
theorem absoluteNotional_le {limit : UInt64} (hlimit : limit < uint64Max) :
    absoluteNotional price quantity ≤ limit ↔ price.toInt.natAbs * quantity.toNat ≤ limit.toNat := by
  have hticks : price.toInt.natAbs < 2 ^ 64 := by
    have h1 := price.toInt_lt
    have h2 := price.le_toInt
    omega
  have hof : (UInt64.ofNat price.toInt.natAbs).toNat = price.toInt.natAbs := UInt64.toNat_ofNat_of_lt' hticks
  have hmax : uint64Max.toNat = 2 ^ 64 - 1 := by decide
  have hlt : limit.toNat < 2 ^ 64 - 1 := hmax ▸ UInt64.lt_iff_toNat_lt.mp hlimit
  unfold absoluteNotional
  dsimp only
  split
  · rename_i hover
    obtain ⟨hne, hover⟩ := hover
    have hpos : 0 < price.toInt.natAbs := by
      refine Nat.pos_of_ne_zero fun h0 => hne ?_
      rw [h0]
      rfl
    rw [UInt64.lt_iff_toNat_lt, UInt64.toNat_div, hof, hmax, Nat.div_lt_iff_lt_mul hpos, Nat.mul_comm] at hover
    rw [UInt64.le_iff_toNat_le, hmax]
    exact iff_of_false (by omega) (by omega)
  · rename_i hfits
    have hprod : price.toInt.natAbs * quantity.toNat < 2 ^ 64 := by
      by_cases h0 : price.toInt.natAbs = 0
      · rw [h0, Nat.zero_mul]
        decide
      · have hpos := Nat.pos_of_ne_zero h0
        have hne : UInt64.ofNat price.toInt.natAbs ≠ 0 := fun h => h0 (by rw [← hof, h]; rfl)
        have hle := (not_and.mp hfits) hne
        rw [UInt64.not_lt, UInt64.le_iff_toNat_le, UInt64.toNat_div, hof, hmax, Nat.le_div_iff_mul_le hpos, Nat.mul_comm] at hle
        omega
    rw [UInt64.le_iff_toNat_le, UInt64.toNat_mul, hof, Nat.mod_eq_of_lt hprod]

/-- The checks before the rate limit, all passed. -/
theorem rejectReason_eq_none_iff : g.rejectReason laneId id price quantity = .none ↔
    laneId < g.config.maxLanes ∧ id ≠ 0 ∧ id ∉ g.activeOrderIds ∧ g.activeOrderIds.length < g.config.maxActiveOrders ∧
      quantity ≤ g.config.maxQuantity ∧ (g.config.minPrice ≤ price ∧ price ≤ g.config.maxPrice) ∧
      absoluteNotional price quantity ≤ g.config.maxNotional := by
  have hprice : ¬(price < g.config.minPrice ∨ g.config.maxPrice < price) ↔ g.config.minPrice ≤ price ∧ price ≤ g.config.maxPrice := by
    rw [not_or, Int64.not_lt, Int64.not_lt]
  unfold rejectReason
  rw [← UInt64.not_lt, ← UInt64.not_lt, ← hprice, ← Nat.not_le, ← Nat.not_le]
  repeat' split
  all_goals simp_all

end GatewayValidator

end MatchingEngine

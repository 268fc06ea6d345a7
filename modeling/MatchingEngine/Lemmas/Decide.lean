import MatchingEngine.Lemmas.Validity

/-!
# The check accepts exactly the valid books

Each walk of `check_invariants` ends without a violation exactly when the links spell a list of sound orders that are not marked yet, and
it leaves those marked and counted. Nothing is assumed of the orders, the links or the levels: a walk ends because each round marks one
more slot of the arena.
-/

namespace MatchingEngine

open Comp Function

namespace OrderBook

variable {b : OrderBook} {side : Side} {i epoch : Nat} {p p' : Progress}

/-! ## The walk of a level -/

/-- A fault or what follows: there is neither. -/
theorem ite_some_eq_none {α : Type} {c : Prop} [Decidable c] {x : α} {e : Option α} :
    (if c then some x else e) = none ↔ ¬c ∧ e = none := by
  by_cases hc : c
  · simp [hc]
  · simp [hc]

/-- A fault or what follows: it is none of a kind. -/
theorem ite_some_ne {α : Type} {c : Prop} [Decidable c] {x v : α} {e : Option α} (hx : x ≠ v) (he : e ≠ some v) :
    (if c then some x else e) ≠ some v := by
  by_cases hc : c
  · rw [if_pos hc]
    exact fun h => hx (Option.some.inj h)
  · rwa [if_neg hc]

theorem orderFault_eq_none {marks : Nat → Nat} {s previous walked : Nat} :
    b.orderFault side i epoch marks s previous walked = none ↔
      b.RestsAt side i s ∧ marks s ≠ epoch ∧ b.arena.prev s = previous ∧ walked ≤ 2 ^ 64 - 1 - (b.arena.orderAt s).remaining := by
  unfold orderFault
  simp only [ite_some_eq_none, OrderArena.prev]
  constructor
  · rintro ⟨h1, h2, h3, h4, h5, h6, h7, h8, h9, h10, -⟩
    exact ⟨⟨by simpa using h2, not_not.mp h5, not_not.mp h6, by omega, not_not.mp h8, by omega, by omega⟩, h3, not_not.mp h4, by omega⟩
  · rintro ⟨hs, hm, hp, hw⟩
    have hlt := OrderArena.lt_of_isLiveIndex hs.live
    have h1 := hs.remaining
    have h2 := hs.displayed_pos
    have h3 := hs.displayed_le
    exact ⟨by omega, by simp [hs.live], hm, not_not.mpr hp, not_not.mpr hs.side, not_not.mpr hs.level, by omega, not_not.mpr hs.flags,
      by omega, by omega, trivial⟩

/-- The link to the next order has no fault. -/
theorem nextFault_eq_none {s : Nat} :
    b.nextFault s = none ↔
      b.arena.next s ≠ kInvalidIndex → b.arena.isLiveIndex (b.arena.next s) = true ∧ b.arena.prev (b.arena.next s) = s := by
  unfold nextFault
  simp only [OrderArena.next, OrderArena.prev]
  by_cases hn : (b.arena.orderAt s).nextIndex = kInvalidIndex
  · rw [if_pos hn]
    exact iff_of_true rfl fun h => absurd hn h
  · rw [if_neg hn]
    simp only [ite_some_eq_none]
    constructor
    · rintro ⟨h1, h2, h3, -⟩ -
      exact ⟨by simpa using h2, not_not.mp h3⟩
    · intro h
      obtain ⟨hl, hp⟩ := h hn
      have hlt := OrderArena.lt_of_isLiveIndex hl
      exact ⟨by omega, by simp [hl], not_not.mpr hp, trivial⟩

/-- The walk of a level from `w` on passes the orders of a list. -/
structure Walked (b : OrderBook) (side : Side) (i epoch : Nat) (w : Walk) (xs : List Nat) : Prop where
  links : Links.Spells kInvalidIndex b.arena.next b.arena.prev w.previous w.current xs
  orders : ∀ s ∈ xs, b.RestsAt side i s
  fresh : w.progress.Fresh epoch xs

/-- Where a walk that passes the orders of a list ends. -/
def walkEnd (b : OrderBook) (epoch : Nat) (w : Walk) (xs : List Nat) : Walk where
  current := kInvalidIndex
  previous := xs.getLast?.getD w.previous
  walkedCount := w.walkedCount + xs.length
  walkedQuantity := w.walkedQuantity + b.quantity xs
  progress := w.progress.visitAll epoch xs

/-- One round of a walk. -/
def walkStep (b : OrderBook) (epoch : Nat) (w : Walk) : Walk where
  current := b.arena.next w.current
  previous := w.current
  walkedCount := w.walkedCount + 1
  walkedQuantity := w.walkedQuantity + (b.arena.orderAt w.current).remaining
  progress := w.progress.visit epoch w.current

/-- The end of a walk, one order further. -/
theorem walkEnd_step {w : Walk} {xs : List Nat} : b.walkEnd epoch (b.walkStep epoch w) xs = b.walkEnd epoch w (w.current :: xs) := by
  simp only [walkEnd, walkStep, List.getLast?_cons, Option.getD_some, List.length_cons, quantity, List.map_cons, List.sum_cons,
    Progress.visitAll_cons]
  rw [Nat.add_assoc, Nat.add_assoc, Nat.add_comm 1]

/-- What a round of a walk ends with. -/
def walkRound (b : OrderBook) (side : Side) (i epoch : Nat) (w : Walk) : Turn Walk (Option InvariantResult × Walk) :=
  if w.current = kInvalidIndex then .done (none, w)
  else
    match b.orderFault side i epoch w.progress.marks w.current w.previous w.walkedQuantity with
    | some violation => .done (some ⟨violation, side, i, w.current, w.progress.reachable⟩, w)
    | none =>
      match b.nextFault w.current with
      | some (violation, index) =>
        .done (some ⟨violation, side, i, index, w.progress.reachable + 1⟩, { w with progress := w.progress.visit epoch w.current })
      | none => .next (b.walkStep epoch w)

/-- The walk of a level is the loop of its rounds. -/
theorem walkLevel_eq (w : Walk) : b.walkLevel side i epoch w = Comp.loop (fun w => pure (b.walkRound side i epoch w)) w := by
  unfold walkLevel
  congr 1
  funext w
  unfold walkRound
  dsimp only
  split
  · rfl
  · cases b.orderFault side i epoch w.progress.marks w.current w.previous w.walkedQuantity with
    | some violation => rfl
    | none =>
      cases b.nextFault w.current with
      | some fault => rfl
      | none => rfl

/-- A fault of an order is a violation. -/
theorem orderFault_ne_none {marks : Nat → Nat} {s previous walked : Nat} {violation : InvariantViolation}
    (h : b.orderFault side i epoch marks s previous walked = some violation) : violation ≠ .none := by
  rintro rfl
  revert h
  unfold orderFault
  dsimp only
  repeat refine ite_some_ne nofun ?_
  exact nofun

/-- A fault of a link is a violation. -/
theorem nextFault_ne_none {s index : Nat} {violation : InvariantViolation} (h : b.nextFault s = some (violation, index)) :
    violation ≠ .none := by
  rintro rfl
  revert h
  unfold nextFault
  dsimp only
  split
  · exact nofun
  · repeat refine ite_some_ne nofun ?_
    exact nofun

variable (b side i epoch) in
/-- A round of a walk is the end of the links, or passes a sound order whose links are good, or reports a violation. -/
theorem walkRound_cases (w : Walk) :
    (w.current = kInvalidIndex ∧ b.walkRound side i epoch w = .done (none, w)) ∨
    (w.current ≠ kInvalidIndex ∧ b.orderFault side i epoch w.progress.marks w.current w.previous w.walkedQuantity = none ∧
      b.nextFault w.current = none ∧ b.walkRound side i epoch w = .next (b.walkStep epoch w)) ∨
    ∃ result w', result.violation ≠ .none ∧ b.walkRound side i epoch w = .done (some result, w') := by
  unfold walkRound
  split
  · rename_i hc
    exact Or.inl ⟨hc, rfl⟩
  · rename_i hc
    right
    split
    · rename_i violation hf
      exact Or.inr ⟨_, _, orderFault_ne_none hf, rfl⟩
    · rename_i hf
      split
      · rename_i violation index hn
        exact Or.inr ⟨_, _, nextFault_ne_none hn, rfl⟩
      · rename_i hn
        exact Or.inl ⟨hc, hf, hn, rfl⟩

/-- A walk that finds nothing has passed the orders of a list. -/
theorem walkLevel_sound {w w' : Walk} (h : (b.walkLevel side i epoch w).Returns (none, w')) :
    ∃ xs, b.Walked side i epoch w xs ∧ w' = b.walkEnd epoch w xs := by
  rw [walkLevel_eq] at h
  refine loop_induct (P := fun w r => r.1 = none → ∃ xs, b.Walked side i epoch w xs ∧ r.2 = b.walkEnd epoch w xs) ?_ ?_ h rfl
  · intro w r hr hnone
    rw [returns_pure] at hr
    rcases b.walkRound_cases side i epoch w with ⟨hc, he⟩ | ⟨-, -, -, he⟩ | ⟨result, w', -, he⟩
    · rw [he, Turn.done.injEq] at hr
      refine ⟨[], ⟨hc, fun _ hs => absurd hs List.not_mem_nil, Progress.fresh_nil⟩, ?_⟩
      rw [← hr, walkEnd, ← hc]
      rfl
    · rw [he] at hr
      cases hr
    · rw [he, Turn.done.injEq] at hr
      rw [← hr] at hnone
      cases hnone
  · intro w w1 r hr _ ih hnone
    rw [returns_pure] at hr
    rcases b.walkRound_cases side i epoch w with ⟨-, he⟩ | ⟨hc, hf, hn, he⟩ | ⟨result, w', -, he⟩
    · rw [he] at hr
      cases hr
    · rw [he, Turn.next.injEq] at hr
      subst hr
      obtain ⟨xs, hw, hend⟩ := ih hnone
      obtain ⟨hs, hm, hp, -⟩ := orderFault_eq_none.mp hf
      refine ⟨w.current :: xs, ⟨⟨rfl, hc, hp, hw.links⟩, fun s hs' => ?_, Progress.fresh_cons.mpr ⟨hm, hw.fresh⟩⟩, hend.trans walkEnd_step⟩
      rcases List.mem_cons.mp hs' with rfl | hs'
      · exact hs
      · exact hw.orders s hs'
    · rw [he] at hr
      cases hr

/-- A walk along a list of sound orders whose sum is a `std::uint64_t` value passes it. -/
theorem Walked.walkLevel {w : Walk} {xs : List Nat} (h : b.Walked side i epoch w xs) (hsum : w.walkedQuantity + b.quantity xs < 2 ^ 64) :
    (b.walkLevel side i epoch w).Returns (none, b.walkEnd epoch w xs) := by
  induction xs generalizing w with
  | nil =>
    have hc : w.current = kInvalidIndex := h.links
    rw [walkLevel_eq, returns_loop, walkRound, if_pos hc]
    left
    rw [returns_pure, walkEnd, ← hc]
    rfl
  | cons s xs ih =>
    obtain ⟨hc, hne, hp, hr⟩ := h.links
    obtain ⟨hm, hfresh⟩ := Progress.fresh_cons.mp h.fresh
    subst hc
    have hq : b.quantity (w.current :: xs) = (b.arena.orderAt w.current).remaining + b.quantity xs := rfl
    have hf : b.orderFault side i epoch w.progress.marks w.current w.previous w.walkedQuantity = none :=
      orderFault_eq_none.mpr ⟨h.orders _ List.mem_cons_self, hm, hp, by omega⟩
    have hn : b.nextFault w.current = none := by
      refine nextFault_eq_none.mpr fun hnext => ?_
      cases xs with
      | nil => exact absurd hr hnext
      | cons y xs =>
        obtain ⟨hy, -, hpy, -⟩ := hr
        rw [hy]
        exact ⟨(h.orders y (by simp)).live, hpy⟩
    have hstep := ih (w := b.walkStep epoch w) ⟨hr, fun s hs => h.orders s (List.mem_cons_of_mem _ hs), hfresh⟩ (by
      simp only [walkStep]
      omega)
    rw [walkLevel_eq, returns_loop]
    right
    refine ⟨b.walkStep epoch w, ?_, ?_⟩
    · rw [walkRound, if_neg hne, hf, hn, returns_pure]
    · rw [← walkLevel_eq, ← walkEnd_step]
      exact hstep

/-- A walk returns, whatever the links are: each round that goes on marks one more slot of the arena. -/
theorem walkLevel_terminates (w : Walk) : (b.walkLevel side i epoch w).Terminates := by
  rw [walkLevel_eq]
  refine loop_terminates (fun _ => True) (fun w => w.progress.unmarked b.arena.capacity epoch) (fun w _ => ?_) w trivial
  rcases b.walkRound_cases side i epoch w with ⟨-, he⟩ | ⟨-, hf, -, he⟩ | ⟨_, _, -, he⟩
  · exact Or.inl ⟨_, by rw [he, returns_pure]⟩
  · obtain ⟨hs, hm, -⟩ := orderFault_eq_none.mp hf
    have hlt := Progress.unmarked_visit (OrderArena.lt_of_isLiveIndex hs.live) hm
    exact Or.inr ⟨b.walkStep epoch w, by rw [he, returns_pure], trivial, hlt⟩
  · exact Or.inl ⟨_, by rw [he, returns_pure]⟩

/-- What a walk reports is a violation. -/
theorem walkLevel_violation {w w' : Walk} {result : InvariantResult} (h : (b.walkLevel side i epoch w).Returns (some result, w')) :
    result.violation ≠ .none := by
  rw [walkLevel_eq] at h
  refine loop_invariant (I := fun _ => True) (Q := fun r => ∀ result, r.1 = some result → result.violation ≠ .none) (fun _ _ _ _ => trivial)
    (fun w r _ hr result he' => ?_) trivial h result rfl
  rw [returns_pure] at hr
  rcases b.walkRound_cases side i epoch w with ⟨-, he⟩ | ⟨-, -, -, he⟩ | ⟨_, _, hv, he⟩
  · rw [he, Turn.done.injEq] at hr
    subst hr
    cases he'
  · rw [he] at hr
    cases hr
  · rw [he, Turn.done.injEq] at hr
    subst hr
    cases he'
    exact hv

/-! ## A level -/

/-- The list a level holds is the walk of its links. -/
theorem LevelHolds.levelSlots {xs : List Nat} (h : b.LevelHolds side i xs) : b.levelSlots side i = xs := by
  have hlt : ∀ s ∈ xs, s < b.arena.capacity := fun s hs => OrderArena.lt_of_isLiveIndex (h.orders s hs).live
  have hlen := (h.links.nodup.subperm fun x hx => List.mem_range.mpr (hlt x hx)).length_le
  rw [List.length_range] at hlen
  exact h.links.walk hlen

/-- A level that is a list of orders passes the checks before its walk. -/
theorem LevelHolds.levelFault {xs : List Nat} (h : b.LevelHolds side i xs) (hcap : b.arena.capacity < 2 ^ 32) (hne : xs ≠ []) :
    b.levelFault (b.level side i) = none := by
  obtain ⟨s, r, rfl⟩ := List.exists_cons_of_ne_nil hne
  obtain ⟨l, t, hl⟩ : ∃ l t, s :: r = l ++ [t] := ⟨_, _, (List.dropLast_append_getLast hne).symm⟩
  have hs := (h.orders s List.mem_cons_self).live
  have ht := (h.orders t (by rw [hl]; simp)).live
  have hhead : (b.level side i).headIndex = s := h.links.head
  have htail : (b.level side i).tailIndex = t := by
    have := h.links.tail
    rw [hl, List.getLast?_concat] at this
    exact this
  have hprev : (b.arena.orderAt s).prevIndex = kInvalidIndex := h.links.prev [] s r rfl
  have hnext : (b.arena.orderAt t).nextIndex = kInvalidIndex := h.links.next l t [] hl
  have hs' := OrderArena.lt_of_isLiveIndex hs
  have ht' := OrderArena.lt_of_isLiveIndex ht
  unfold OrderBook.levelFault
  simp only [hhead, htail, hprev, hnext, hs, ht]
  have hnil : ∀ x, x < b.arena.capacity → x ≠ kInvalidIndex := fun x hx he => by
    rw [he, kInvalidIndex] at hx
    omega
  rw [if_neg (hnil s hs'), if_neg (hnil t ht'), if_neg (by omega), if_neg (by simp), if_neg (by omega), if_neg (by simp),
    if_neg (by simp), if_neg (by simp)]

/-- The occupancy bit the check reads for a level. -/
def occupied (b : OrderBook) (side : Side) (i : Nat) : Bool := ((b.occupancy side).test i).getD false

/-- A level that passes its check is a list of orders that were not marked, and is marked as occupied if it is not empty. -/
theorem checkLevel_sound (h : (b.checkLevel side i epoch p).Returns (none, p')) :
    ∃ xs, b.LevelHolds side i xs ∧ (b.occupied side i = true ↔ xs ≠ []) ∧ p.Fresh epoch xs ∧ p' = p.visitAll epoch xs := by
  unfold checkLevel at h
  dsimp only at h
  split at h
  · simp at h
  rename_i hbit
  have hocc : b.occupied side i = decide ((b.level side i).orderCount ≠ 0) := not_not.mp hbit
  split at h
  · rename_i hempty
    have hcount : (b.level side i).orderCount = 0 := by simpa using hempty
    split at h
    · simp at h
    · rename_i hmeta
      simp only [not_or, not_not] at hmeta
      rw [returns_pure, Prod.mk.injEq] at h
      refine ⟨[], ⟨Links.holds_nil hmeta.1 hmeta.2.1, fun _ hs => absurd hs List.not_mem_nil, hcount, hmeta.2.2⟩, ?_, Progress.fresh_nil,
        h.2.symm⟩
      simp [hocc, hcount]
  · rename_i hempty
    have hcount : (b.level side i).orderCount ≠ 0 := by simpa using hempty
    split at h
    · simp at h
    rw [returns_bind] at h
    obtain ⟨⟨result, w⟩, hw, h⟩ := h
    dsimp only at h
    cases result with
    | some result => simp at h
    | none =>
      rw [if_neg (by simp)] at h
      split at h
      · simp at h
      rename_i htail
      split at h
      · simp at h
      rename_i hwalked
      split at h
      · simp at h
      rename_i hagg
      rw [returns_pure, Prod.mk.injEq] at h
      obtain ⟨xs, hx, rfl⟩ := walkLevel_sound hw
      simp only [walkEnd, not_not, Nat.zero_add] at htail hwalked hagg
      refine ⟨xs, ⟨hx.links.holds hx.fresh.1 htail.symm, hx.orders, hwalked.symm, hagg.symm⟩, ?_, hx.fresh, h.2.symm⟩
      have hne : xs ≠ [] := fun he => hcount (by rw [← hwalked, he]; rfl)
      simp [hocc, hcount, hne]

/-- A level that is a list of orders not marked yet, with its bit, passes its check. -/
theorem LevelHolds.checkLevel {xs : List Nat} (h : b.LevelHolds side i xs) (hcap : b.arena.capacity < 2 ^ 32)
    (hagg : (b.level side i).aggregateQuantity < 2 ^ 64) (hbit : b.occupied side i = true ↔ xs ≠ []) (hfresh : p.Fresh epoch xs) :
    (b.checkLevel side i epoch p).Returns (none, p.visitAll epoch xs) := by
  have hocc : b.occupied side i = decide ((b.level side i).orderCount ≠ 0) := by
    rw [Bool.eq_iff_iff, hbit, decide_eq_true_eq, h.count]
    exact not_congr List.length_eq_zero_iff.symm
  rw [occupied] at hocc
  unfold OrderBook.checkLevel
  dsimp only
  rw [if_neg (not_not.mpr hocc)]
  by_cases hne : xs = []
  · subst hne
    have h1 : (b.level side i).headIndex = kInvalidIndex := h.links.head
    have h2 : (b.level side i).tailIndex = kInvalidIndex := h.links.tail
    have h3 : (b.level side i).orderCount = 0 := h.count
    have h4 : (b.level side i).aggregateQuantity = 0 := h.aggregate
    simp [h1, h2, h3, h4]
  · have hcount : (b.level side i).orderCount ≠ 0 := by
      rw [h.count]
      exact fun hz => hne (List.length_eq_zero_iff.mp hz)
    rw [if_neg (by simp [hcount]), h.levelFault hcap hne]
    dsimp only
    have hwalk : b.Walked side i epoch ⟨(b.level side i).headIndex, kInvalidIndex, 0, 0, p⟩ xs := ⟨h.links.spells, h.orders, hfresh⟩
    obtain ⟨w, hw⟩ : ∃ w, w = b.walkEnd epoch ⟨(b.level side i).headIndex, kInvalidIndex, 0, 0, p⟩ xs := ⟨_, rfl⟩
    have h1 : w.previous = (b.level side i).tailIndex := by
      rw [hw]
      exact h.links.tail.symm
    have h2 : w.walkedCount = (b.level side i).orderCount := by
      rw [hw, h.count]
      exact Nat.zero_add _
    have h3 : w.walkedQuantity = (b.level side i).aggregateQuantity := by
      rw [hw, h.aggregate]
      exact Nat.zero_add _
    rw [returns_bind]
    refine ⟨_, hw ▸ hwalk.walkLevel (by rw [← h.aggregate, Nat.zero_add]; exact hagg), ?_⟩
    dsimp only
    rw [if_neg (by simp), if_neg (not_not.mpr h1), if_neg (not_not.mpr h2), if_neg (not_not.mpr h3), returns_pure, hw]
    rfl

/-- The check of a level ends. -/
theorem checkLevel_terminates : (b.checkLevel side i epoch p).Terminates := by
  unfold checkLevel
  dsimp only
  repeat' split
  all_goals try exact terminates_pure _
  refine (walkLevel_terminates _).bind fun r _ => ?_
  repeat' split
  all_goals exact terminates_pure _

/-- A fault of a level is a violation. -/
theorem levelFault_ne_none {priceLevel : PriceLevel} {index : Nat} {violation : InvariantViolation}
    (h : b.levelFault priceLevel = some (violation, index)) : violation ≠ .none := by
  rintro rfl
  revert h
  unfold levelFault
  repeat refine ite_some_ne nofun ?_
  exact nofun

/-- What the check of a level reports is a violation. -/
theorem checkLevel_violation {result : InvariantResult} (h : (b.checkLevel side i epoch p).Returns (some result, p')) :
    result.violation ≠ .none := by
  unfold checkLevel at h
  dsimp only at h
  split at h
  · rw [returns_pure, Prod.mk.injEq, Option.some.injEq] at h
    exact h.1 ▸ (by rintro ⟨⟩)
  split at h
  · split at h
    · rw [returns_pure, Prod.mk.injEq, Option.some.injEq] at h
      exact h.1 ▸ (by rintro ⟨⟩)
    · simp at h
  split at h
  · rename_i hf
    rw [returns_pure, Prod.mk.injEq, Option.some.injEq] at h
    exact h.1 ▸ levelFault_ne_none hf
  rw [returns_bind] at h
  obtain ⟨⟨walked, w⟩, hw, h⟩ := h
  dsimp only at h
  cases walked with
  | some walked =>
    simp only [Option.isSome_some, if_true, returns_pure, Prod.mk.injEq, Option.some.injEq] at h
    exact h.1 ▸ walkLevel_violation hw
  | none =>
    rw [if_neg (by simp)] at h
    repeat' split at h
    all_goals
      rw [returns_pure, Prod.mk.injEq] at h
      obtain ⟨he, -⟩ := h
      cases he
      try rintro ⟨⟩

/-! ## A side -/

/-- The slots of `count` levels of a side from `i` on. -/
def sideSlots (b : OrderBook) (side : Side) (i count : Nat) : List Nat := (List.range' i count).flatMap (b.levelSlots side)

/-- Levels that pass their checks are lists of orders, none in two of them. -/
theorem checkSideInvariants_sound {count : Nat} (h : (b.checkSideInvariants side epoch count i p).Returns (none, p')) :
    (∀ j, i ≤ j → j < i + count →
      b.LevelHolds side j (b.levelSlots side j) ∧ (b.occupied side j = true ↔ b.levelSlots side j ≠ [])) ∧
    p.Fresh epoch (b.sideSlots side i count) ∧ p' = p.visitAll epoch (b.sideSlots side i count) := by
  induction count generalizing i p with
  | zero =>
    rw [checkSideInvariants, returns_pure, Prod.mk.injEq] at h
    exact ⟨fun j h1 h2 => by omega, Progress.fresh_nil, h.2.symm⟩
  | succ count ih =>
    rw [checkSideInvariants, returns_bind] at h
    obtain ⟨⟨result, p1⟩, h1, h⟩ := h
    cases result with
    | some result => simp at h
    | none =>
      obtain ⟨xs, hlevel, hbit, hfresh, rfl⟩ := checkLevel_sound h1
      obtain ⟨hrest, hfresh', hp⟩ := ih (by simpa using h)
      have hslots : b.sideSlots side i (count + 1) = xs ++ b.sideSlots side (i + 1) count := by
        rw [sideSlots, List.range'_succ, List.flatMap_cons, hlevel.levelSlots, sideSlots]
      refine ⟨fun j hj hlt => ?_, ?_, ?_⟩
      · rcases Nat.eq_or_lt_of_le hj with rfl | hgt
        · rw [hlevel.levelSlots]
          exact ⟨hlevel, hbit⟩
        · exact hrest j hgt (by omega)
      · rw [hslots]
        exact Progress.fresh_append.mpr ⟨hfresh, hfresh'⟩
      · rw [hslots, Progress.visitAll_append]
        exact hp

/-- Levels that are lists of orders, none in two of them and none marked yet, pass their checks. -/
theorem checkSideInvariants_complete {queues : Nat → List Nat} (hcap : b.arena.capacity < 2 ^ 32) {count : Nat}
    (h : ∀ j, i ≤ j → j < i + count →
      b.LevelHolds side j (queues j) ∧ (b.level side j).aggregateQuantity < 2 ^ 64 ∧ (b.occupied side j = true ↔ queues j ≠ []))
    (hfresh : p.Fresh epoch ((List.range' i count).flatMap queues)) :
    (b.checkSideInvariants side epoch count i p).Returns (none, p.visitAll epoch ((List.range' i count).flatMap queues)) := by
  induction count generalizing i p with
  | zero => exact (returns_pure _ _).mpr rfl
  | succ count ih =>
    rw [List.range'_succ, List.flatMap_cons] at hfresh ⊢
    obtain ⟨hnew, hrest⟩ := Progress.fresh_append.mp hfresh
    obtain ⟨hlevel, hagg, hbit⟩ := h i (Nat.le_refl _) (by omega)
    rw [checkSideInvariants, returns_bind, Progress.visitAll_append]
    exact ⟨_, hlevel.checkLevel hcap hagg hbit hnew, by simpa using ih (fun j hj hlt => h j (by omega) (by omega)) hrest⟩

/-- The check of a side ends. -/
theorem checkSideInvariants_terminates {count : Nat} : (b.checkSideInvariants side epoch count i p).Terminates := by
  induction count generalizing i p with
  | zero => exact terminates_pure _
  | succ count ih =>
    rw [checkSideInvariants]
    refine checkLevel_terminates.bind fun r _ => ?_
    dsimp only
    split
    · exact terminates_pure _
    · exact ih

/-- What the check of a side reports is a violation. -/
theorem checkSideInvariants_violation {count : Nat} {result : InvariantResult}
    (h : (b.checkSideInvariants side epoch count i p).Returns (some result, p')) : result.violation ≠ .none := by
  induction count generalizing i p with
  | zero => simp [checkSideInvariants] at h
  | succ count ih =>
    rw [checkSideInvariants, returns_bind] at h
    obtain ⟨⟨found, p1⟩, h1, h⟩ := h
    cases found with
    | some found =>
      simp only [Option.isSome_some, if_true, returns_pure, Prod.mk.injEq, Option.some.injEq] at h
      exact h.1 ▸ checkLevel_violation h1
    | none => exact ih (by simpa using h)

/-! ## The dormant stops -/

/-- What a round of the walk of the stops ends with. -/
def stopRound (b : OrderBook) (epoch : Nat) (st : Nat × Nat × Progress) :
    Turn (Nat × Nat × Progress) (Option InvariantResult × Nat × Progress) :=
  let (stop, previousStop, p) := st
  if stop = kInvalidIndex then .done (none, previousStop, p)
  else if b.arena.capacity ≤ stop ∨ !b.arena.isLiveIndex stop ∨ p.marks stop = epoch then
    .done (some ⟨.invalidStopState, .buy, kInvalidIndex, stop, p.reachable⟩, previousStop, p)
  else if !(b.arena.orderAt stop).dormant ∨
      (b.arena.orderAt stop).reservedFlags &&& (2 ^ 32 - 1 - (kOrderFlagDormantStop ||| kOrderFlagStopMarket)) ≠ 0 ∨
      (b.arena.orderAt stop).remaining = 0 ∨ b.stopPrevIndices stop ≠ previousStop then
    .done (some ⟨.invalidStopState, (b.arena.orderAt stop).side, kInvalidIndex, stop, p.reachable⟩, previousStop, p)
  else .next (b.stopNextIndices stop, stop, p.visit epoch stop)

/-- The check of the stop list is the loop of its rounds. -/
theorem checkStops_eq : b.checkStops epoch p = Comp.loop (fun st => pure (b.stopRound epoch st)) (b.stopHead, kInvalidIndex, p) := by
  unfold checkStops
  congr 1
  funext st
  unfold stopRound
  dsimp only
  split
  · rfl
  · split
    · rfl
    · split
      · rfl
      · rfl

/-- A round at a stop that is right, goes on to the next one. -/
theorem stopRound_next {stop previous : Nat} (hne : stop ≠ kInvalidIndex) (hs : b.SleepsAt stop) (hm : p.marks stop ≠ epoch)
    (hp : b.stopPrevIndices stop = previous) :
    b.stopRound epoch (stop, previous, p) = .next (b.stopNextIndices stop, stop, p.visit epoch stop) := by
  have hlt := OrderArena.lt_of_isLiveIndex hs.live
  have hpos := hs.remaining
  unfold stopRound
  dsimp only
  rw [if_neg hne, if_neg, if_neg]
  · simp only [hs.dormant, hs.flags, hp]
    simp
    omega
  · simp only [hs.live, hm]
    simp
    omega

variable (b epoch) in
/-- A round of the walk of the stops is the end of the links, or passes a sound stop that is linked back, or reports a violation. -/
theorem stopRound_cases (stop previous : Nat) (p : Progress) :
    (stop = kInvalidIndex ∧ b.stopRound epoch (stop, previous, p) = .done (none, previous, p)) ∨
    (stop ≠ kInvalidIndex ∧ b.SleepsAt stop ∧ p.marks stop ≠ epoch ∧ b.stopPrevIndices stop = previous) ∨
    ∃ result r, result.violation ≠ .none ∧ b.stopRound epoch (stop, previous, p) = .done (some result, r) := by
  unfold stopRound
  dsimp only
  split
  · rename_i hc
    exact Or.inl ⟨hc, rfl⟩
  · rename_i hc
    right
    split
    · exact Or.inr ⟨_, _, by exact nofun, rfl⟩
    · rename_i h1
      split
      · exact Or.inr ⟨_, _, by exact nofun, rfl⟩
      · rename_i h2
        simp only [not_or, not_not, Bool.not_eq_true', Bool.not_eq_false] at h1 h2
        exact Or.inl ⟨hc, ⟨h1.2.1, h2.1, h2.2.1, Nat.pos_of_ne_zero h2.2.2.1⟩, h1.2.2, h2.2.2.2⟩

/-- The walk of the stops, when it finds nothing, has passed a list of sound stops. -/
theorem stopLoop_sound {stop previous last : Nat}
    (h : (Comp.loop (fun st => pure (b.stopRound epoch st)) (stop, previous, p)).Returns (none, last, p')) :
    ∃ xs, Links.Spells kInvalidIndex b.stopNextIndices b.stopPrevIndices previous stop xs ∧ (∀ s ∈ xs, b.SleepsAt s) ∧
      p.Fresh epoch xs ∧ last = xs.getLast?.getD previous ∧ p' = p.visitAll epoch xs := by
  refine loop_induct (P := fun st r => r.1 = none → ∃ xs,
    Links.Spells kInvalidIndex b.stopNextIndices b.stopPrevIndices st.2.1 st.1 xs ∧ (∀ s ∈ xs, b.SleepsAt s) ∧
      st.2.2.Fresh epoch xs ∧ r.2.1 = xs.getLast?.getD st.2.1 ∧ r.2.2 = st.2.2.visitAll epoch xs) ?_ ?_ h rfl
  · rintro ⟨stop, previous, p⟩ r hr hnone
    rw [returns_pure] at hr
    rcases b.stopRound_cases epoch stop previous p with ⟨hc, he⟩ | ⟨hc, hs, hm, hp⟩ | ⟨result, r', -, he⟩
    · rw [he, Turn.done.injEq] at hr
      subst hr
      exact ⟨[], hc, fun _ hs => absurd hs List.not_mem_nil, Progress.fresh_nil, rfl, rfl⟩
    · rw [stopRound_next hc hs hm hp] at hr
      cases hr
    · rw [he, Turn.done.injEq] at hr
      subst hr
      cases hnone
  · rintro ⟨stop, previous, p⟩ st' r hr _ ih hnone
    rw [returns_pure] at hr
    rcases b.stopRound_cases epoch stop previous p with ⟨hc, he⟩ | ⟨hc, hs, hm, hp⟩ | ⟨result, r', -, he⟩
    · rw [he] at hr
      cases hr
    · rw [stopRound_next hc hs hm hp, Turn.next.injEq] at hr
      subst hr
      obtain ⟨xs, hlinks, horders, hfresh, hlast, hmarked⟩ := ih hnone
      refine ⟨stop :: xs, ⟨rfl, hc, hp, hlinks⟩, fun s hs' => ?_, Progress.fresh_cons.mpr ⟨hm, hfresh⟩, ?_, hmarked⟩
      · rcases List.mem_cons.mp hs' with rfl | hs'
        · exact hs
        · exact horders s hs'
      · rw [hlast, List.getLast?_cons, Option.getD_some]
    · rw [he] at hr
      cases hr

/-- The loop passes a stop list that is right, and visits all of it. -/
theorem stopLoop_complete {stop previous : Nat} {xs : List Nat}
    (h : Links.Spells kInvalidIndex b.stopNextIndices b.stopPrevIndices previous stop xs) (horders : ∀ s ∈ xs, b.SleepsAt s)
    (hfresh : p.Fresh epoch xs) :
    (Comp.loop (fun st => pure (b.stopRound epoch st)) (stop, previous, p)).Returns
      (none, xs.getLast?.getD previous, p.visitAll epoch xs) := by
  rw [returns_loop]
  induction xs generalizing stop previous p with
  | nil =>
    left
    have hc : stop = kInvalidIndex := h
    rw [returns_pure, stopRound, if_pos hc]
    rfl
  | cons s xs ih =>
    obtain ⟨hc, hne, hp, hr⟩ := h
    subst hc
    obtain ⟨hm, hrest⟩ := Progress.fresh_cons.mp hfresh
    right
    refine ⟨_, by rw [stopRound_next hne (horders _ List.mem_cons_self) hm hp, returns_pure], ?_⟩
    rw [returns_loop, List.getLast?_cons, Option.getD_some]
    exact ih hr (fun s hs => horders s (List.mem_cons_of_mem _ hs)) hrest

/-- The check of the stop list ends. -/
theorem checkStops_terminates : (b.checkStops epoch p).Terminates := by
  rw [checkStops_eq]
  refine loop_terminates (fun _ => True) (fun st => st.2.2.unmarked b.arena.capacity epoch) ?_ _ trivial
  rintro ⟨stop, previous, p⟩ -
  rcases b.stopRound_cases epoch stop previous p with ⟨-, he⟩ | ⟨hc, hs, hm, hp⟩ | ⟨_, _, -, he⟩
  · exact Or.inl ⟨_, by rw [he, returns_pure]⟩
  · have hlt := Progress.unmarked_visit (OrderArena.lt_of_isLiveIndex hs.live) hm
    exact Or.inr ⟨(b.stopNextIndices stop, stop, p.visit epoch stop), by rw [stopRound_next hc hs hm hp, returns_pure], trivial, hlt⟩
  · exact Or.inl ⟨_, by rw [he, returns_pure]⟩

/-- What the check of the stop list reports is a violation. -/
theorem checkStops_violation {result : InvariantResult} {r : Nat × Progress} (h : (b.checkStops epoch p).Returns (some result, r)) :
    result.violation ≠ .none := by
  rw [checkStops_eq] at h
  refine loop_invariant (I := fun _ => True) (Q := fun r => ∀ result, r.1 = some result → result.violation ≠ .none) (fun _ _ _ _ => trivial)
    ?_ trivial h result rfl
  rintro ⟨stop, previous, p⟩ r - hr result he'
  rw [returns_pure] at hr
  rcases b.stopRound_cases epoch stop previous p with ⟨-, he⟩ | ⟨hc, hs, hm, hp⟩ | ⟨_, _, hv, he⟩
  · rw [he, Turn.done.injEq] at hr
    subst hr
    cases he'
  · rw [stopRound_next hc hs hm hp] at hr
    cases hr
  · rw [he, Turn.done.injEq] at hr
    subst hr
    cases he'
    exact hv

/-! ## The arena and the totals -/

theorem checkSlots_eq_none {count index : Nat} :
    b.checkSlots epoch p count index = none ↔
      ∀ s, index ≤ s → s < index + count → b.arena.isLiveIndex s = true → (b.arena.orderAt s).remaining ≠ 0 ∧ p.marks s = epoch := by
  induction count generalizing index with
  | zero => exact iff_of_true rfl fun s h1 h2 => by omega
  | succ count ih =>
    have hsplit : (∀ s, index ≤ s → s < index + (count + 1) → b.arena.isLiveIndex s = true →
        (b.arena.orderAt s).remaining ≠ 0 ∧ p.marks s = epoch) ↔
        (b.arena.isLiveIndex index = true → (b.arena.orderAt index).remaining ≠ 0 ∧ p.marks index = epoch) ∧
          ∀ s, index + 1 ≤ s → s < index + 1 + count → b.arena.isLiveIndex s = true →
            (b.arena.orderAt s).remaining ≠ 0 ∧ p.marks s = epoch := by
      refine ⟨fun h => ⟨h index (Nat.le_refl _) (by omega), fun s h1 h2 => h s (by omega) (by omega)⟩, fun h s h1 h2 => ?_⟩
      rcases Nat.eq_or_lt_of_le h1 with rfl | hgt
      · exact h.1
      · exact h.2 s hgt (by omega)
    rw [hsplit, ← ih, checkSlots]
    cases b.arena.isLiveIndex index with
    | false => simp
    | true =>
      by_cases h1 : (b.arena.orderAt index).remaining = 0
      · simp [h1]
      · by_cases h2 : p.marks index = epoch
        · simp [h1, h2]
        · simp [h1, h2]

/-- What the check of the slots reports is a violation. -/
theorem checkSlots_violation {count index : Nat} {result : InvariantResult} (h : b.checkSlots epoch p count index = some result) :
    result.violation ≠ .none := by
  induction count generalizing index with
  | zero => cases h
  | succ count ih =>
    rw [checkSlots] at h
    split at h
    · exact ih h
    split at h
    · cases h
      exact nofun
    split at h
    · cases h
      exact nofun
    · exact ih h

/-- No bid reaches an ask, by the best levels of the bitmaps. -/
def BestUncrossed (b : OrderBook) : Prop :=
  b.tradingState = .continuous → ∀ bid ask, b.bestIndex .buy = some bid → b.bestIndex .sell = some ask → bid < ask

theorem checkTotals_eq :
    (b.checkTotals p).violation = .none ↔ p.reachable = b.arena.size ∧ b.BestUncrossed := by
  unfold checkTotals BestUncrossed
  by_cases hsize : p.reachable = b.arena.size
  · rw [if_neg (not_not.mpr hsize)]
    cases hbid : b.bestIndex .buy with
    | none => exact iff_of_true rfl ⟨hsize, fun _ bid ask h => nomatch h⟩
    | some bid =>
      cases hask : b.bestIndex .sell with
      | none => exact iff_of_true rfl ⟨hsize, fun _ _ ask _ h => nomatch h⟩
      | some ask =>
        dsimp only
        split
        · rename_i hc
          refine iff_of_false nofun fun h => ?_
          have := h.2 hc.1 bid ask rfl rfl
          omega
        · rename_i hc
          refine iff_of_true rfl ⟨hsize, fun hts bid' ask' hb ha => ?_⟩
          cases hb
          cases ha
          by_contra hle
          exact hc ⟨hts, by omega⟩
  · rw [if_pos hsize]
    exact iff_of_false nofun fun h => hsize h.1

/-- With the last checks passed the number of orders is reported. -/
theorem checkTotals_accepts (h : (b.checkTotals p).violation = .none) : b.checkTotals p = invariantHolds p.reachable := by
  unfold checkTotals at h ⊢
  split at h
  · cases h
  · rename_i hsize
    rw [if_neg hsize]
    split at h
    · split at h
      · cases h
      · rename_i hc
        rw [if_neg hc]
    · rfl

/-! ## Marks are no part of the graph -/

section Marks

variable {m : Nat → Nat} {e : Nat}

/-- The scratch marks are none of an order. -/
theorem RestsAt.withMarks {s : Nat} (h : b.RestsAt side i s) : (b.withMarks m e).RestsAt side i s :=
  ⟨h.live, h.side, h.level, h.remaining, h.flags, h.displayed_pos, h.displayed_le⟩

theorem SleepsAt.withMarks {s : Nat} (h : b.SleepsAt s) : (b.withMarks m e).SleepsAt s := ⟨h.live, h.dormant, h.flags, h.remaining⟩

theorem Graph.withMarks {stops : List Nat} {queues : Side → Nat → List Nat} (h : b.Graph stops queues) :
    (b.withMarks m e).Graph stops queues where
  sleeping := ⟨h.sleeping.links, fun s hs => (h.sleeping.orders s hs).withMarks, h.sleeping.count⟩
  levels side i hi :=
    let hl := h.levels side i hi
    ⟨hl.links, fun s hs => (hl.orders s hs).withMarks, hl.count, hl.aggregate⟩
  live := h.live
  size := h.size
  bitmaps := h.bitmaps
  occupancy := h.occupancy
  uncrossed := h.uncrossed

/-- A new visit epoch changes the marks alone, and marks no slot. -/
theorem Typed.advanceVisitEpoch (h : b.Typed) :
    ∃ m e, b.advanceVisitEpoch = b.withMarks m e ∧ ∀ s, s < b.arena.capacity → m s < e := by
  unfold OrderBook.advanceVisitEpoch
  split
  · refine ⟨_, _, rfl, fun s hs => ?_⟩
    rw [if_pos hs]
    decide
  · exact ⟨_, _, rfl, fun s hs => Nat.lt_succ_of_le (h.marks s hs)⟩

/-- Marks up to the epoch are of their type. -/
theorem Typed.withMarks (h : b.Typed) (hm : ∀ s, s < b.arena.capacity → m s ≤ e) : (b.withMarks m e).Typed :=
  ⟨h.capacity, h.shape, h.bits, h.aggregate, hm⟩

end Marks

/-! ## The whole check -/

section Bits

variable (ht : b.Typed) (hc : ∀ side, (b.occupancy side).Consistent)

include ht hc

/-- The bitmap of a side holds its own bits. -/
theorem Typed.holds (side : Side) :
    (b.occupancy side).Holds b.cfg.domain.tickCount fun i => (b.occupancy side).bitAt 0 i = true :=
  ht.bits side ▸ (hc side).holds (ht.shape side)

/-- A level is occupied as its bit says. -/
theorem Typed.occupied_iff {side : Side} {i : Nat} (hi : i < b.cfg.domain.tickCount) :
    b.occupied side i = true ↔ (b.occupancy side).bitAt 0 i = true := by
  rw [occupied, (ht.holds hc side).test hi]
  simp

/-- The best levels are apart exactly when all marked levels are. -/
theorem Typed.bestUncrossed_iff :
    b.BestUncrossed ↔ (b.tradingState = .continuous → ∀ bid ask, bid < b.cfg.domain.tickCount → ask < b.cfg.domain.tickCount →
      (b.occupancy .buy).bitAt 0 bid = true → (b.occupancy .sell).bitAt 0 ask = true → bid < ask) := by
  have hlast := (ht.holds hc .buy).lastSet
  have hfirst := (ht.holds hc .sell).firstSet
  refine imp_congr_right fun _ => ⟨fun h bid ask hbid hask hb ha => ?_, fun h bid ask hb ha => ?_⟩
  · cases hl : (b.occupancy .buy).lastSet with
    | none =>
      rw [hl] at hlast
      exact absurd hb (hlast bid (by omega))
    | some best =>
      cases hf : (b.occupancy .sell).firstSet with
      | none =>
        rw [hf] at hfirst
        exact absurd ha (hfirst ask (Nat.zero_le _) hask)
      | some worst =>
        have hlt := h best worst hl hf
        rw [hl] at hlast
        rw [hf] at hfirst
        have h1 : bid ≤ best := by
          by_contra hgt
          exact hlast.2.2 bid (by omega) (by omega) hb
        have h2 : worst ≤ ask := by
          by_contra hgt
          exact hfirst.2.2.2 ask (Nat.zero_le _) (by omega) ha
        omega
  · have hb' : (b.occupancy .buy).lastSet = some bid := hb
    have ha' : (b.occupancy .sell).firstSet = some ask := ha
    rw [hb'] at hlast
    rw [ha'] at hfirst
    exact h bid ask (by have := hlast.1; have := (ht.shape .buy).bits_pos; have := ht.bits .buy; omega) hfirst.2.1 hlast.2.1 hfirst.2.2.1

end Bits

/-- The check after the bitmaps, on a book with a new visit epoch. -/
def checkGraph (b : OrderBook) : Comp (InvariantResult × OrderBook) := do
  let marked (p : Progress) : OrderBook := { b with visitMarks := p.marks }
  let (result, lastStop, p) ← b.checkStops b.visitEpoch ⟨b.visitMarks, 0⟩
  if let some result := result then return (result, marked p)
  if lastStop ≠ b.stopTail then return (⟨.invalidStopState, .buy, kInvalidIndex, lastStop, p.reachable⟩, marked p)
  if p.reachable ≠ b.dormantStopCount then
    return (⟨.invalidStopState, .buy, kInvalidIndex, b.stopTail, p.reachable⟩, marked p)
  let (result, p) ← b.checkSideInvariants .buy b.visitEpoch b.cfg.domain.tickCount 0 p
  if let some result := result then return (result, marked p)
  let (result, p) ← b.checkSideInvariants .sell b.visitEpoch b.cfg.domain.tickCount 0 p
  if let some result := result then return (result, marked p)
  if let some result := b.checkSlots b.visitEpoch p b.arena.capacity 0 then return (result, marked p)
  return (b.checkTotals p, marked p)

/-- The hierarchies are checked before the orders. -/
theorem checkInvariants_eq (b : OrderBook) : b.checkInvariants =
    if !(b.occupancy .buy).hierarchyConsistent then
      pure (⟨.bitmapHierarchyInconsistent, .buy, kInvalidIndex, kInvalidIndex, 0⟩, b)
    else if !(b.occupancy .sell).hierarchyConsistent then
      pure (⟨.bitmapHierarchyInconsistent, .sell, kInvalidIndex, kInvalidIndex, 0⟩, b)
    else b.advanceVisitEpoch.checkGraph := rfl

theorem mem_liveSlots {s : Nat} : s ∈ b.arena.liveSlots ↔ b.arena.isLiveIndex s = true := by
  rw [OrderArena.liveSlots, List.mem_filter, List.mem_range, OrderArena.isLiveIndex, Bool.and_eq_true, decide_eq_true_eq]

/-- All that is spelled: the stops and the two sides. -/
theorem slotsOf_eq (stops : List Nat) : b.slotsOf stops b.levelSlots =
    stops ++ b.sideSlots .buy 0 b.cfg.domain.tickCount ++ b.sideSlots .sell 0 b.cfg.domain.tickCount := by
  rw [slotsOf, sideSlots, sideSlots, List.range_eq_range']

/-- What the walks, the scan of the arena and the totals have found, put together: a graph. -/
theorem graph_of_checked {stops : List Nat} (ht : b.Typed) (hc : ∀ side, (b.occupancy side).Consistent) (hstops : b.StopsHold stops)
    (hlevels : ∀ side i, i < b.cfg.domain.tickCount →
      b.LevelHolds side i (b.levelSlots side i) ∧ (b.occupied side i = true ↔ b.levelSlots side i ≠ []))
    (hp : ∀ s, s < b.arena.capacity → p.marks s ≠ epoch) (hfresh : p.Fresh epoch (b.slotsOf stops b.levelSlots))
    (hslots : b.checkSlots epoch (p.visitAll epoch (b.slotsOf stops b.levelSlots)) b.arena.capacity 0 = none)
    (hsize : (b.slotsOf stops b.levelSlots).length = b.arena.size) (hbest : b.BestUncrossed) : b.Graph stops b.levelSlots where
  sleeping := hstops
  levels side i hi := (hlevels side i hi).1
  live := by
    refine (List.perm_ext_iff_of_nodup hfresh.1 (List.nodup_range.filter _)).mpr fun s => ?_
    rw [← OrderArena.liveSlots, mem_liveSlots]
    constructor
    · intro hs
      rcases List.mem_append.mp hs with hs | hs
      · rcases List.mem_append.mp hs with hs | hs
        · exact (hstops.orders s hs).live
        · obtain ⟨i, hi, hs⟩ := List.mem_flatMap.mp hs
          exact ((hlevels .buy i (List.mem_range.mp hi)).1.orders s hs).live
      · obtain ⟨i, hi, hs⟩ := List.mem_flatMap.mp hs
        exact ((hlevels .sell i (List.mem_range.mp hi)).1.orders s hs).live
    · intro hs
      have hlt := OrderArena.lt_of_isLiveIndex hs
      have hm := (checkSlots_eq_none.mp hslots s (Nat.zero_le _) (by omega) hs).2
      rw [Progress.marks_visitAll] at hm
      by_contra hout
      rw [if_neg hout] at hm
      exact hp s hlt hm
  size := hsize.symm
  bitmaps := hc
  occupancy side i hi := (ht.occupied_iff hc hi).symm.trans (hlevels side i hi).2
  uncrossed hts bid ask hbid hask hb ha := by
    have hbit : ∀ side i, i < b.cfg.domain.tickCount → b.levelSlots side i ≠ [] → (b.occupancy side).bitAt 0 i = true := fun side i hi hne =>
      (ht.occupied_iff hc hi).mp ((hlevels side i hi).2.mpr hne)
    exact (ht.bestUncrossed_iff hc).mp hbest hts bid ask hbid hask (hbit .buy bid hbid hb) (hbit .sell ask hask ha)

/-- The check of the orders ends. -/
theorem checkGraph_terminates : b.checkGraph.Terminates := by
  unfold checkGraph
  refine checkStops_terminates.bind fun ⟨result, lastStop, p⟩ _ => ?_
  cases result with
  | some result => exact terminates_pure _
  | none =>
    dsimp only
    split
    · exact terminates_pure _
    split
    · exact terminates_pure _
    refine checkSideInvariants_terminates.bind fun ⟨result, p⟩ _ => ?_
    cases result with
    | some result => exact terminates_pure _
    | none =>
      refine checkSideInvariants_terminates.bind fun ⟨result, p⟩ _ => ?_
      cases result with
      | some result => exact terminates_pure _
      | none =>
        dsimp only
        split
        · exact terminates_pure _
        · exact terminates_pure _

/-- A book in whose graph the check finds nothing is valid. -/
theorem checkGraph_sound {b' : OrderBook} {result : InvariantResult} (ht : b.Typed) (hc : ∀ side, (b.occupancy side).Consistent)
    (hm : ∀ s, s < b.arena.capacity → b.visitMarks s < b.visitEpoch) (h : b.checkGraph.Returns (result, b'))
    (hv : result.violation = .none) : b.Valid := by
  unfold checkGraph at h
  rw [returns_bind] at h
  obtain ⟨⟨found, last, p1⟩, h1, h⟩ := h
  cases found with
  | some found =>
    dsimp only at h
    rw [returns_pure, Prod.mk.injEq] at h
    exact absurd hv (h.1 ▸ checkStops_violation h1)
  | none =>
    dsimp only at h
    split at h
    · rw [returns_pure, Prod.mk.injEq] at h
      rw [← h.1] at hv
      cases hv
    rename_i htail
    split at h
    · rw [returns_pure, Prod.mk.injEq] at h
      rw [← h.1] at hv
      cases hv
    rename_i hcount
    rw [returns_bind] at h
    obtain ⟨⟨found, p2⟩, h2, h⟩ := h
    cases found with
    | some found =>
      dsimp only at h
      rw [returns_pure, Prod.mk.injEq] at h
      exact absurd hv (h.1 ▸ checkSideInvariants_violation h2)
    | none =>
      dsimp only at h
      rw [returns_bind] at h
      obtain ⟨⟨found, p3⟩, h3, h⟩ := h
      cases found with
      | some found =>
        dsimp only at h
        rw [returns_pure, Prod.mk.injEq] at h
        exact absurd hv (h.1 ▸ checkSideInvariants_violation h3)
      | none =>
        dsimp only at h
        split at h
        · rename_i found hslots
          rw [returns_pure, Prod.mk.injEq] at h
          exact absurd hv (h.1 ▸ checkSlots_violation hslots)
        rename_i hslots
        rw [returns_pure, Prod.mk.injEq] at h
        rw [← h.1, checkTotals_eq] at hv
        rw [checkStops_eq] at h1
        obtain ⟨stops, hlinks, horders, hfresh1, hlast, rfl⟩ := stopLoop_sound h1
        obtain ⟨hbuy, hfresh2, rfl⟩ := checkSideInvariants_sound h2
        obtain ⟨hsell, hfresh3, rfl⟩ := checkSideInvariants_sound h3
        have hall := Progress.fresh_append.mpr ⟨Progress.fresh_append.mpr ⟨hfresh1, hfresh2⟩, by rwa [Progress.visitAll_append]⟩
        simp only [← Progress.visitAll_append] at hslots hv hcount
        rw [← slotsOf_eq] at hall hslots hv
        have hstops : b.StopsHold stops := by
          refine ⟨hlinks.holds hfresh1.1 ?_, horders, ?_⟩
          · rw [← hlast]
            exact (not_not.mp htail).symm
          · rw [← not_not.mp hcount, Progress.reachable_visitAll]
            exact Nat.zero_add _
        refine ⟨stops, b.levelSlots, graph_of_checked ht hc hstops (fun side i hi => ?_) (fun s hs => Nat.ne_of_lt (hm s hs)) hall
          (Option.eq_none_iff_forall_ne_some.mpr hslots) ?_ hv.2⟩
        · cases side with
          | buy => exact hbuy i (Nat.zero_le _) (by omega)
          | sell => exact hsell i (Nat.zero_le _) (by omega)
        · rw [← hv.1, Progress.reachable_visitAll]
          exact (Nat.zero_add _).symm

/-- In the graph of a valid book the check finds nothing. -/
theorem Graph.checkGraph {stops : List Nat} {queues : Side → Nat → List Nat} (h : b.Graph stops queues) (ht : b.Typed)
    (hm : ∀ s, s < b.arena.capacity → b.visitMarks s < b.visitEpoch) :
    ∃ b', b.checkGraph.Returns (invariantHolds (b.slotsOf stops queues).length, b') := by
  have hall : Progress.Fresh ⟨b.visitMarks, 0⟩ b.visitEpoch (b.slotsOf stops queues) := by
    refine ⟨h.live.nodup_iff.mpr (List.nodup_range.filter _), fun s hs => ?_⟩
    exact Nat.ne_of_lt (hm s (OrderArena.lt_of_isLiveIndex (mem_liveSlots.mp (h.live.mem_iff.mp hs))))
  have hside : ∀ side j, 0 ≤ j → j < 0 + b.cfg.domain.tickCount →
      b.LevelHolds side j (queues side j) ∧ (b.level side j).aggregateQuantity < 2 ^ 64 ∧ (b.occupied side j = true ↔ queues side j ≠ []) :=
    fun side j _ hj => by
      rw [Nat.zero_add] at hj
      exact ⟨h.levels side j hj, ht.aggregate side j hj, (ht.occupied_iff h.bitmaps hj).trans (h.occupancy side j hj)⟩
  obtain ⟨p, hp⟩ : ∃ p : Progress, p = Progress.visitAll ⟨b.visitMarks, 0⟩ b.visitEpoch (b.slotsOf stops queues) := ⟨_, rfl⟩
  have hslots : b.checkSlots b.visitEpoch p b.arena.capacity 0 = none := by
    refine checkSlots_eq_none.mpr fun s _ _ hs => ?_
    have hmem := h.live.mem_iff.mpr (mem_liveSlots.mpr hs)
    refine ⟨?_, by rw [hp, Progress.marks_visitAll, if_pos hmem]⟩
    rcases List.mem_append.mp hmem with hmem | hmem
    · rcases List.mem_append.mp hmem with hmem | hmem
      · exact Nat.ne_of_gt (h.sleeping.orders s hmem).remaining
      · obtain ⟨i, hi, hmem⟩ := List.mem_flatMap.mp hmem
        exact Nat.ne_of_gt ((h.levels .buy i (List.mem_range.mp hi)).orders s hmem).remaining
    · obtain ⟨i, hi, hmem⟩ := List.mem_flatMap.mp hmem
      exact Nat.ne_of_gt ((h.levels .sell i (List.mem_range.mp hi)).orders s hmem).remaining
  have hreach : p.reachable = (b.slotsOf stops queues).length := by
    rw [hp, Progress.reachable_visitAll]
    exact Nat.zero_add _
  have htotals : b.checkTotals p = invariantHolds (b.slotsOf stops queues).length := by
    rw [checkTotals_accepts, hreach]
    refine checkTotals_eq.mpr ⟨hreach.trans h.size.symm, (ht.bestUncrossed_iff h.bitmaps).mpr fun hts bid ask hbid hask hb ha => ?_⟩
    exact h.uncrossed hts bid ask hbid hask ((h.occupancy .buy bid hbid).mp hb) ((h.occupancy .sell ask hask).mp ha)
  rw [slotsOf, List.range_eq_range'] at hall hp
  obtain ⟨hall, hsell⟩ := Progress.fresh_append.mp hall
  obtain ⟨hstops, hbuy⟩ := Progress.fresh_append.mp hall
  rw [Progress.visitAll_append] at hsell
  have h1 := stopLoop_complete h.sleeping.links.spells h.sleeping.orders hstops
  rw [← checkStops_eq] at h1
  have h2 := checkSideInvariants_complete ht.capacity (hside .buy) hbuy
  have h3 := checkSideInvariants_complete ht.capacity (hside .sell) hsell
  simp only [← Progress.visitAll_append] at h2 h3
  rw [← hp] at h3
  refine ⟨{ b with visitMarks := p.marks }, ?_⟩
  unfold OrderBook.checkGraph
  rw [returns_bind]
  refine ⟨_, h1, ?_⟩
  dsimp only
  rw [if_neg (not_not.mpr h.sleeping.links.tail.symm), if_neg (by rw [Progress.reachable_visitAll, h.sleeping.count]; simp), returns_bind]
  refine ⟨_, h2, ?_⟩
  dsimp only
  rw [returns_bind]
  refine ⟨_, h3, ?_⟩
  dsimp only
  rw [hslots, htotals]
  exact (returns_pure _ _).mpr rfl

/-- The check returns, whatever the book holds. -/
theorem checkInvariants_terminates (b : OrderBook) : b.checkInvariants.Terminates := by
  rw [checkInvariants_eq]
  split
  · exact terminates_pure _
  split
  · exact terminates_pure _
  · exact checkGraph_terminates

/-- A book in which the check finds nothing is valid. -/
theorem checkInvariants_sound {b' : OrderBook} {result : InvariantResult} (ht : b.Typed)
    (h : b.checkInvariants.Returns (result, b')) (hv : result.violation = .none) : b.Valid := by
  rw [checkInvariants_eq] at h
  split at h
  · rw [returns_pure, Prod.mk.injEq] at h
    rw [← h.1] at hv
    cases hv
  rename_i hbuy
  split at h
  · rw [returns_pure, Prod.mk.injEq] at h
    rw [← h.1] at hv
    cases hv
  rename_i hsell
  have hc : ∀ side, (b.occupancy side).Consistent := by
    intro side
    refine (ht.shape side).hierarchyConsistent_iff.mp ?_
    cases side with
    | buy => simpa using hbuy
    | sell => simpa using hsell
  obtain ⟨m, e, hb1, hm⟩ := ht.advanceVisitEpoch
  rw [hb1] at h
  obtain ⟨stops, queues, hg⟩ := checkGraph_sound (ht.withMarks fun s hs => Nat.le_of_lt (hm s hs)) hc hm h hv
  exact ⟨stops, queues, hg.withMarks⟩

/-- In a valid book the check finds nothing, and counts its orders. -/
theorem Graph.checkInvariants {stops : List Nat} {queues : Side → Nat → List Nat} (h : b.Graph stops queues) (ht : b.Typed) :
    ∃ b', b.checkInvariants.Returns (invariantHolds (b.slotsOf stops queues).length, b') := by
  have hconsistent : ∀ side, (b.occupancy side).hierarchyConsistent = true := fun side =>
    (ht.shape side).hierarchyConsistent_iff.mpr (h.bitmaps side)
  obtain ⟨m, e, hb1, hm⟩ := ht.advanceVisitEpoch
  rw [checkInvariants_eq, if_neg (by simp [hconsistent]), if_neg (by simp [hconsistent]), hb1]
  exact h.withMarks.checkGraph (ht.withMarks fun s hs => Nat.le_of_lt (hm s hs)) hm

end OrderBook

end MatchingEngine

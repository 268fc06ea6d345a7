import MatchingEngine.Lemmas.Sweep
import Mathlib.Algebra.BigOperators.Intervals
import Mathlib.Algebra.Order.BigOperators.Group.Finset
import Mathlib.Data.Nat.Dist

/-!
# The opening uncross

The loop of the uncross is a sequence of executions of the best bid against the best ask, both at or better than the clearing level;
`Ladder.auction_invariant` is its induction rule.
-/

namespace MatchingEngine

open Comp Function

namespace Ladder

variable {cfg : BookConfig} {L L' : Ladder} {clearing : Nat} {price : Int}

/-- One execution of the uncross: `q` of the first order of the best bid `bid` and of the best ask `ask`. `M` is the ladder between the
two fills. -/
structure AuctionStep (cfg : BookConfig) (clearing : Nat) (L M L' : Ladder) (remaining q : Nat) (bid ask : Nat) (b a : Entry)
    (rb ra : List Entry) : Prop where
  bestBid : L.best cfg .buy = some bid
  bestAsk : L.best cfg .sell = some ask
  bid_ge : clearing ≤ bid
  ask_le : ask ≤ clearing
  bids : L.queue .buy bid = b :: rb
  asks : L.queue .sell ask = a :: ra
  asks_mid : M.queue .sell ask = a :: ra
  pos : 0 < q
  eq : q = min remaining (min b.displayed a.displayed)
  mid_wf : M.Wf cfg
  bidFilled : Filled L M .buy bid [] rb b q
  askFilled : Filled M L' .sell ask [] ra a q

/-- The invariant rule of the uncross: what every execution keeps holds at its end, where nothing is left to execute or no bid and ask
meet at the clearing level. -/
theorem auction_invariant {I : Ladder → Nat → List Trade → Prop}
    (step : ∀ L M L' remaining trades q bid ask b a rb ra, L.Wf cfg → I L remaining trades →
      AuctionStep cfg clearing L M L' remaining q bid ask b a rb ra →
      I L' (remaining - q) (trades ++ [⟨b.id, a.id, price, q⟩]))
    {remaining remaining' : Nat} {trades trades' : List Trade} (hw : L.Wf cfg) (hi : I L remaining trades)
    (h : (auction cfg clearing price (L, remaining, trades)).Returns (L', remaining', trades')) :
    L'.Wf cfg ∧ I L' remaining' trades' ∧
      (remaining' = 0 ∨ ∀ bid ask, L'.best cfg .buy = some bid → L'.best cfg .sell = some ask → clearing ≤ bid → clearing < ask) := by
  refine Comp.loop_invariant (I := fun st => st.1.Wf cfg ∧ I st.1 st.2.1 st.2.2)
    (Q := fun st => st.1.Wf cfg ∧ I st.1 st.2.1 st.2.2 ∧
      (st.2.1 = 0 ∨ ∀ bid ask, st.1.best cfg .buy = some bid → st.1.best cfg .sell = some ask → clearing ≤ bid → clearing < ask))
    ?_ ?_ ⟨hw, hi⟩ h
  · rintro ⟨L, remaining, trades⟩ ⟨L', remaining', trades'⟩ ⟨hw, hi⟩ hb
    dsimp only at hw hi hb ⊢
    split at hb
    · rename_i bid ask hbid hask
      split at hb
      · rename_i hgo
        split at hb
        · rename_i b rb a ra hqb hqa
          rw [returns_pure, Turn.next.injEq, Prod.mk.injEq, Prod.mk.injEq] at hb
          obtain ⟨rfl, rfl, rfl⟩ := hb
          have hpos : 0 < min remaining (min b.displayed a.displayed) :=
            Nat.lt_min.mpr ⟨Nat.pos_of_ne_zero hgo.1, Nat.lt_min.mpr ⟨b.displayed_pos, a.displayed_pos⟩⟩
          generalize hq : min remaining (min b.displayed a.displayed) = q at hpos ⊢
          have hf1 : Filled L (L.fill .buy bid b.slot q) .buy bid [] rb b q := fill_filled (l := []) hqb (by simp) (by omega)
          have hw1 : (L.fill .buy bid b.slot q).Wf cfg := hw.fill (l := []) hqb (by omega)
          have hqa1 : (L.fill .buy bid b.slot q).queue .sell ask = a :: ra := by
            rw [← hqa]
            exact hf1.queue_of_ne fun hc => nomatch hc.1
          have hf2 := fill_filled (l := []) (q := q) hqa1 (by simp) (by omega)
          exact ⟨hw1.fill (l := []) hqa1 (by omega), step _ _ _ _ _ _ _ _ _ _ _ _ hw hi
            ⟨hbid, hask, hgo.2.1, hgo.2.2, hqb, hqa, hqa1, hpos, hq.symm, hw1, hf1, hf2⟩⟩
        · simp at hb
      · simp at hb
    · simp at hb
  · rintro ⟨L, remaining, trades⟩ r ⟨hw, hi⟩ hb
    dsimp only at hw hi hb ⊢
    split at hb
    · rename_i bid ask hbid hask
      split at hb
      · rename_i hgo
        split at hb
        · simp at hb
        · rename_i hne
          obtain ⟨b, rb, hqb⟩ := List.exists_cons_of_ne_nil (best_eq_some hbid).2.1
          obtain ⟨a, ra, hqa⟩ := List.exists_cons_of_ne_nil (best_eq_some hask).2.1
          exact absurd hqa (hne b rb a ra hqb)
      · rename_i hstop
        rw [returns_pure, Turn.done.injEq] at hb
        rw [← hb]
        refine ⟨hw, hi, or_iff_not_imp_left.mpr fun hrem bid' ask' hbid' hask' hle => ?_⟩
        rw [hbid, Option.some.injEq] at hbid'
        rw [hask, Option.some.injEq] at hask'
        subst hbid' hask'
        by_contra hlt
        exact hstop ⟨hrem, hle, by omega⟩
    · rename_i hne
      rw [returns_pure, Turn.done.injEq] at hb
      rw [← hb]
      exact ⟨hw, hi, Or.inr fun bid ask hbid hask => absurd hask (hne bid ask hbid)⟩

end Ladder

/-! ## The clearing level -/

open Finset

/-- What may trade at a level. -/
def executableAt (demand supply : Nat → Nat) (i : Nat) : Nat := min (demand i) (supply i)

/-- What is left over at a level. -/
def imbalanceAt (demand supply : Nat → Nat) (i : Nat) : Nat := Nat.dist (demand i) (supply i)

/-- A level is preferred to another one for more to execute, then for less imbalance, then for a smaller distance from the reference, and
then for the higher price. -/
def Preferred (demand supply : Nat → Nat) (reference i j : Nat) : Prop :=
  executableAt demand supply j < executableAt demand supply i ∨
    executableAt demand supply i = executableAt demand supply j ∧
      (imbalanceAt demand supply i < imbalanceAt demand supply j ∨
        imbalanceAt demand supply i = imbalanceAt demand supply j ∧
          (Nat.dist reference i < Nat.dist reference j ∨ Nat.dist reference i = Nat.dist reference j ∧ j < i))

section Choice

variable {demand supply : Nat → Nat} {reference i j k : Nat}

theorem Preferred.trans (h : Preferred demand supply reference i j) (h' : Preferred demand supply reference j k) :
    Preferred demand supply reference i k := by
  unfold Preferred at *
  omega

/-- Of two levels one is preferred. -/
theorem preferred_or (h : i ≠ j) : Preferred demand supply reference i j ∨ Preferred demand supply reference j i := by
  unfold Preferred
  omega

theorem levelDistance_eq (reference i : Nat) : levelDistance reference i = Nat.dist reference i := by
  rw [levelDistance, Nat.dist]
  split <;> omega

theorem imbalance_eq (b a : Nat) : (if a < b then b - a else a - b) = Nat.dist b a := by
  rw [Nat.dist]
  split <;> omega

/-- The running choice of the scan is level `c`. -/
structure Chose (demand supply : Nat → Nat) (best : Clearing) (c : Nat) : Prop where
  level : best.level = some c
  executable : best.executable = executableAt demand supply c
  imbalance : best.imbalance = imbalanceAt demand supply c

/-- A level replaces the running choice exactly when it is preferred. -/
theorem Chose.better_iff {best : Clearing} {c : Nat} (h : Chose demand supply best c) :
    betterClearing reference i (executableAt demand supply i) (imbalanceAt demand supply i) best = true ↔
      Preferred demand supply reference i c := by
  rw [betterClearing, h.level, h.executable, h.imbalance]
  simp only [levelDistance_eq, Bool.or_eq_true, Bool.and_eq_true, decide_eq_true_eq, beq_iff_eq]
  unfold Preferred
  omega

end Choice

/-! ## The scan -/

/-- The sums of a scan from `level` to `last`: what the levels add to the supply and take from the demand, without a wrap. -/
structure Sums (bids asks demand supply : Nat → Nat) (level last : Nat) : Prop where
  demand_step : ∀ i, level ≤ i → i < last → demand i = bids i + demand (i + 1)
  supply_step : ∀ i, level ≤ i → i + 1 < last → supply (i + 1) = supply i + asks (i + 1)
  demand_lt : ∀ i, level ≤ i → demand i < 2 ^ 64
  supply_lt : ∀ i, supply i < 2 ^ 64

/-- The sums go on to the next level. -/
theorem Sums.next {bids asks demand supply : Nat → Nat} {level last : Nat} (h : Sums bids asks demand supply level last) :
    Sums bids asks demand supply (level + 1) last where
  demand_step i hi := h.demand_step i (by omega)
  supply_step i hi := h.supply_step i (by omega)
  demand_lt i hi := h.demand_lt i (by omega)
  supply_lt := h.supply_lt

section Scan

variable {bids asks demand supply : Nat → Nat} {reference a : Nat}

/-- One level of a scan. -/
theorem Sums.scan {level last eligibleAsks count : Nat} (h : Sums bids asks demand supply level last) (hlt : level < last)
    (hasks : supply level = eligibleAsks + asks level) (best : Clearing) :
    scanClearing bids asks reference (count + 1) level (demand level) eligibleAsks best =
      scanClearing bids asks reference count (level + 1) (demand (level + 1)) (supply level)
        (if betterClearing reference level (executableAt demand supply level) (imbalanceAt demand supply level) best then
          ⟨some level, executableAt demand supply level, imbalanceAt demand supply level⟩ else best) := by
  have h1 := h.supply_lt level
  have h2 := h.demand_step level (Nat.le_refl _) hlt
  have hadd : add64 eligibleAsks (asks level) = supply level := by
    rw [add64_eq (by omega), hasks]
  have hsub : sub64 (demand level) (bids level) = demand (level + 1) := by
    rw [sub64_eq (by omega) (h.demand_lt level (Nat.le_refl _))]
    omega
  rw [scanClearing, hadd, hsub, imbalance_eq]
  rfl

/-- A scan with a running choice among the levels before it chooses the level that is preferred to all others. -/
theorem scanClearing_chose : ∀ (count level eligibleAsks c : Nat) (best : Clearing),
    Sums bids asks demand supply level (level + count) → (0 < count → supply level = eligibleAsks + asks level) →
    Chose demand supply best c → a ≤ c → c < level → (∀ j, a ≤ j → j < level → j ≠ c → Preferred demand supply reference c j) →
    ∃ c', Chose demand supply (scanClearing bids asks reference count level (demand level) eligibleAsks best) c' ∧ a ≤ c' ∧
      c' < level + count ∧ ∀ j, a ≤ j → j < level + count → j ≠ c' → Preferred demand supply reference c' j := by
  intro count
  induction count with
  | zero =>
    intro level eligibleAsks c best _ _ hchose hac hc hpref
    exact ⟨c, hchose, hac, hc, hpref⟩
  | succ count ih =>
    intro level eligibleAsks c best hsums hasks hchose hac hc hpref
    rw [hsums.scan (by omega) (hasks (by omega))]
    have hend : level + (count + 1) = level + 1 + count := by omega
    rw [hend] at hsums ⊢
    have hnext : 0 < count → supply (level + 1) = supply level + asks (level + 1) := fun hpos =>
      hsums.supply_step level (Nat.le_refl _) (by omega)
    by_cases hbetter : betterClearing reference level (executableAt demand supply level) (imbalanceAt demand supply level) best = true
    · rw [if_pos hbetter]
      have hover := hchose.better_iff.mp hbetter
      refine ih (level + 1) _ level _ hsums.next hnext ⟨rfl, rfl, rfl⟩ (by omega) (by omega) fun j hj hjl hne => ?_
      by_cases hjc : j = c
      · rwa [hjc]
      · exact hover.trans (hpref j hj (by omega) hjc)
    · rw [if_neg hbetter]
      refine ih (level + 1) _ c _ hsums.next hnext hchose hac (by omega) fun j hj hjl hne => ?_
      by_cases hjl' : j = level
      · rw [hjl']
        exact (preferred_or (by omega)).resolve_right fun h => hbetter (hchose.better_iff.mpr h)
      · exact hpref j hj (by omega) hne

/-- The first level of a scan is always taken. -/
theorem betterClearing_first {level executable imbalance : Nat} (h : imbalance < 2 ^ 64) :
    betterClearing reference level executable imbalance ⟨none, 0, 2 ^ 64 - 1⟩ = true := by
  simp only [betterClearing, Bool.or_eq_true, Bool.and_eq_true, decide_eq_true_eq, beq_iff_eq, and_true]
  omega

/-- A scan of at least one level chooses the level that is preferred to all others. -/
theorem scanClearing_first {count : Nat} (reference : Nat) (hpos : 0 < count) (hsums : Sums bids asks demand supply a (a + count)) (hasks : supply a = asks a) :
    ∃ c, Chose demand supply (scanClearing bids asks reference count a (demand a) 0 ⟨none, 0, 2 ^ 64 - 1⟩) c ∧ a ≤ c ∧ c < a + count ∧
      ∀ j, a ≤ j → j < a + count → j ≠ c → Preferred demand supply reference c j := by
  obtain ⟨n, rfl⟩ := Nat.exists_eq_add_one_of_ne_zero (by omega : count ≠ 0)
  have hd := hsums.demand_lt a (Nat.le_refl _)
  have hs := hsums.supply_lt a
  have himb : imbalanceAt demand supply a < 2 ^ 64 := by
    rw [imbalanceAt, Nat.dist]
    omega
  rw [hsums.scan (by omega) (by omega), if_pos (betterClearing_first himb)]
  have hend : a + (n + 1) = a + 1 + n := by omega
  rw [hend] at hsums ⊢
  exact scanClearing_chose n (a + 1) _ a _ hsums.next (fun hn => hsums.supply_step a (Nat.le_refl _) (by omega)) ⟨rfl, rfl, rfl⟩
    (Nat.le_refl _) (by omega) fun j hj hj' hne => absurd hj (by omega)

end Scan

/-- The first sum of the scan, when it does not wrap. -/
theorem foldl_add64 (f : Nat → Nat) (a : Nat) : ∀ n, ∑ i ∈ Ico a (a + n), f i < 2 ^ 64 →
    (List.range n).foldl (fun sum i => add64 sum (f (a + i))) 0 = ∑ i ∈ Ico a (a + n), f i := by
  intro n
  induction n with
  | zero => simp
  | succ n ih =>
    intro h
    have hsum : ∑ i ∈ Ico a (a + (n + 1)), f i = ∑ i ∈ Ico a (a + n), f i + f (a + n) := sum_Ico_succ_top (Nat.le_add_right a n) f
    rw [List.range_succ, List.foldl_append, ih (by omega), List.foldl_cons, List.foldl_nil, add64_eq (by omega), hsum]

namespace Ladder

variable {cfg : BookConfig} {L L' : Ladder} {clearing : Nat} {price : Int}

/-- What the bids at or above a level ask for. -/
def demand (cfg : BookConfig) (L : Ladder) (i : Nat) : Nat := ∑ j ∈ Ico i cfg.domain.tickCount, L.total .buy j

/-- What the asks at or below a level offer. -/
def supply (L : Ladder) (i : Nat) : Nat := ∑ j ∈ Ico 0 (i + 1), L.total .sell j

/-- A level without quantity is empty. -/
theorem total_eq_zero {side : Side} {i : Nat} : L.total side i = 0 ↔ L.queue side i = [] := by
  unfold total
  cases L.queue side i with
  | nil => simp
  | cons e r =>
    have := e.displayed_pos
    have := e.displayed_le_remaining
    simp only [List.map_cons, List.sum_cons, reduceCtorEq, iff_false]
    omega

/-- The demand falls with the price. -/
theorem demand_anti {i j : Nat} (h : i ≤ j) : L.demand cfg j ≤ L.demand cfg i :=
  sum_le_sum_of_subset (Ico_subset_Ico_left h)

/-- The supply rises with the price. -/
theorem supply_mono {i j : Nat} (h : i ≤ j) : L.supply i ≤ L.supply j :=
  sum_le_sum_of_subset (Ico_subset_Ico_right (by omega))

/-- A level adds its bids to the demand of the next. -/
theorem demand_step {i : Nat} (h : i < cfg.domain.tickCount) : L.demand cfg i = L.total .buy i + L.demand cfg (i + 1) :=
  sum_eq_sum_Ico_succ_bot h _

theorem supply_split {i j : Nat} (h : i ≤ j) : L.supply j = L.supply i + ∑ k ∈ Ico (i + 1) (j + 1), L.total .sell k :=
  (sum_Ico_consecutive _ (Nat.zero_le _) (by omega)).symm

theorem demand_split {i j : Nat} (h : i ≤ j) (hj : j ≤ cfg.domain.tickCount) :
    L.demand cfg i = ∑ k ∈ Ico i j, L.total .buy k + L.demand cfg j := (sum_Ico_consecutive _ h hj).symm

/-- A level adds its asks to the supply before it. -/
theorem supply_step (i : Nat) : L.supply (i + 1) = L.supply i + L.total .sell (i + 1) := sum_Ico_succ_top (Nat.zero_le _) _

/-- The bids at or above a level, found through the best bid. -/
theorem demand_eq {bid i : Nat} (hbid : L.best cfg .buy = some bid) (hi : i ≤ bid + 1) :
    L.demand cfg i = ∑ j ∈ Ico i (bid + 1), L.total .buy j := by
  obtain ⟨hlt, -, hbest⟩ := best_eq_some hbid
  rw [demand_split hi (by omega)]
  have hzero : L.demand cfg (bid + 1) = 0 := by
    refine sum_eq_zero fun j hj => ?_
    rw [mem_Ico] at hj
    rw [total_eq_zero]
    by_contra hne
    exact hbest j hj.2 hne hj.1
  omega

/-- The asks at or below a level, found through the best ask. -/
theorem supply_eq {ask i : Nat} (hask : L.best cfg .sell = some ask) (hi : ask ≤ i + 1) :
    L.supply i = ∑ j ∈ Ico ask (i + 1), L.total .sell j := by
  obtain ⟨hlt, -, hbest⟩ := best_eq_some hask
  have hzero : ∑ j ∈ Ico 0 ask, L.total .sell j = 0 := by
    refine sum_eq_zero fun j hj => ?_
    rw [mem_Ico] at hj
    rw [total_eq_zero]
    by_contra hne
    exact hbest j (by omega) hne hj.2
  rw [supply, ← sum_Ico_consecutive _ (Nat.zero_le ask) hi, hzero, Nat.zero_add]

/-- A bid at or above the level is demand. -/
theorem demand_pos {i j : Nat} (hij : i ≤ j) (hj : j < cfg.domain.tickCount) (hne : L.queue .buy j ≠ []) : 0 < L.demand cfg i := by
  have h1 : L.total .buy j ≠ 0 := fun h => hne (total_eq_zero.mp h)
  have h2 := demand_step (L := L) hj
  have h3 : L.demand cfg j ≤ L.demand cfg i := demand_anti hij
  omega

/-- An ask at or below the level is supply. -/
theorem supply_pos {i j : Nat} (hij : i ≤ j) (hne : L.queue .sell i ≠ []) : 0 < L.supply j := by
  have h1 : L.total .sell i ≠ 0 := fun h => hne (total_eq_zero.mp h)
  have h2 := single_le_sum (f := L.total .sell) (fun _ _ => Nat.zero_le _) (mem_Ico.mpr ⟨Nat.zero_le i, Nat.lt_succ_of_le hij⟩)
  have h3 : L.supply j = ∑ k ∈ Ico 0 j.succ, L.total .sell k := rfl
  omega

/-- No level could execute more than the clearing level, which executes what its bids and asks have in common. -/
structure Clears (cfg : BookConfig) (L : Ladder) (c : Clearing) : Prop where
  max : ∀ j, min (L.demand cfg j) (L.supply j) ≤ c.executable
  eq : ∀ i, c.level = some i → c.executable = min (L.demand cfg i) (L.supply i)
  none : c.level = none → c.executable = 0

/-- No level outside the best ask and the best bid could execute anything. -/
theorem executableAt_outside {bid ask j : Nat} (hbid : L.best cfg .buy = some bid) (hask : L.best cfg .sell = some ask)
    (hj : ¬(ask ≤ j ∧ j ≤ bid)) : executableAt (L.demand cfg) L.supply j = 0 := by
  rw [executableAt]
  rcases Nat.lt_or_ge j ask with hja | hja
  · have h1 : L.supply j ≤ L.supply (ask - 1) := supply_mono (by omega)
    rw [supply_eq (i := ask - 1) hask (by omega), Ico_eq_empty (by omega), sum_empty] at h1
    omega
  · have h1 : L.demand cfg j ≤ L.demand cfg (bid + 1) := demand_anti (by omega)
    rw [demand_eq hbid (Nat.le_refl _), Ico_self, sum_empty] at h1
    omega

/-- The sum of a bid level does not wrap. -/
theorem levelQuantity_buy (hb : L.demand cfg 0 < 2 ^ 64) {i : Nat} (hi : i < cfg.domain.tickCount) :
    L.levelQuantity .buy i = L.total .buy i := by
  refine Nat.mod_eq_of_lt (Nat.lt_of_le_of_lt (Nat.le_trans ?_ (demand_anti (Nat.zero_le i))) hb)
  rw [demand_step hi]
  exact Nat.le_add_right _ _

/-- The sum of an ask level does not wrap. -/
theorem levelQuantity_sell (hs : ∀ i, L.supply i < 2 ^ 64) (i : Nat) : L.levelQuantity .sell i = L.total .sell i := by
  refine Nat.mod_eq_of_lt (Nat.lt_of_le_of_lt ?_ (hs i))
  exact single_le_sum (f := L.total .sell) (fun _ _ => Nat.zero_le _) (mem_Ico.mpr ⟨Nat.zero_le _, Nat.lt_succ_self i⟩)

/-- The sums of the scan between the best ask and the best bid are the demand and the supply. -/
theorem clearing_sums (hb : L.demand cfg 0 < 2 ^ 64) (hs : ∀ i, L.supply i < 2 ^ 64) {bid : Nat} (hbid : bid < cfg.domain.tickCount) (ask : Nat) :
    Sums (L.levelQuantity .buy) (L.levelQuantity .sell) (L.demand cfg) L.supply ask (bid + 1) where
  demand_step i _ hi := by
    rw [levelQuantity_buy hb (by omega)]
    exact demand_step (by omega)
  supply_step i _ _ := by
    rw [levelQuantity_sell hs]
    exact supply_step i
  demand_lt i _ := Nat.lt_of_le_of_lt (demand_anti (Nat.zero_le i)) hb
  supply_lt := hs

/-- Where the best bid is at or above the best ask, the clearing level is the one that is preferred to every other level. At the best ask
something can trade, so the chosen level executes more than every level outside the scan. -/
theorem clearing_preferred (hb : L.demand cfg 0 < 2 ^ 64) (hs : ∀ i, L.supply i < 2 ^ 64) {bid ask : Nat}
    (hbid : L.best cfg .buy = some bid) (hask : L.best cfg .sell = some ask) (hle : ask ≤ bid) :
    ∃ c, Chose (L.demand cfg) L.supply (L.clearing cfg) c ∧ ask ≤ c ∧ c ≤ bid ∧ 0 < executableAt (L.demand cfg) L.supply c ∧
      ∀ j, j ≠ c → Preferred (L.demand cfg) L.supply (ask + (bid - ask) / 2) c j := by
  obtain ⟨hbidlt, hbidne, -⟩ := best_eq_some hbid
  obtain ⟨-, haskne, -⟩ := best_eq_some hask
  have hcount : ask + (bid + 1 - ask) = bid + 1 := by omega
  have hsums := clearing_sums hb hs hbidlt ask
  have hdemand : ∑ i ∈ Ico ask (bid + 1), L.levelQuantity .buy i = L.demand cfg ask := by
    rw [demand_eq hbid (by omega)]
    exact sum_congr rfl fun i hi => levelQuantity_buy hb (by rw [mem_Ico] at hi; omega)
  have hsupply : L.supply ask = L.levelQuantity .sell ask := by
    rw [levelQuantity_sell hs, supply_eq hask (by omega), Nat.Ico_succ_singleton, sum_singleton]
  have hclear : L.clearing cfg = scanClearing (L.levelQuantity .buy) (L.levelQuantity .sell) (ask + (bid - ask) / 2) (bid + 1 - ask) ask
      (L.demand cfg ask) 0 ⟨none, 0, 2 ^ 64 - 1⟩ := by
    unfold clearing chooseClearing
    rw [hbid, hask]
    dsimp only
    rw [if_pos hle, foldl_add64 _ _ _ (by rw [hcount, hdemand]; exact hsums.demand_lt ask (Nat.le_refl _)), hcount, hdemand]
  rw [← hcount] at hsums
  obtain ⟨c, hchose, hac, hcb, hpref⟩ := scanClearing_first (ask + (bid - ask) / 2) (by omega) hsums hsupply
  rw [← hclear] at hchose
  rw [hcount] at hcb hpref
  have hpos : 0 < executableAt (L.demand cfg) L.supply c := by
    have h1 : 0 < executableAt (L.demand cfg) L.supply ask :=
      Nat.lt_min.mpr ⟨demand_pos hle hbidlt hbidne, supply_pos (Nat.le_refl _) haskne⟩
    by_cases hc : ask = c
    · rwa [← hc]
    · have := hpref ask (Nat.le_refl _) (by omega) hc
      unfold Preferred at this
      omega
  refine ⟨c, hchose, hac, by omega, hpos, fun j hj => ?_⟩
  by_cases hin : ask ≤ j ∧ j ≤ bid
  · exact hpref j hin.1 (by omega) hj
  · left
    rwa [executableAt_outside hbid hask hin]

/-- Where no bid is at or above an ask, there is no clearing level, and no level could execute anything. -/
theorem clearing_none (hw : L.Wf cfg) (hno : ∀ bid ask, L.best cfg .buy = some bid → L.best cfg .sell = some ask → bid < ask) :
    L.clearing cfg = ⟨none, 0, 2 ^ 64 - 1⟩ ∧ ∀ j, executableAt (L.demand cfg) L.supply j = 0 := by
  unfold clearing chooseClearing
  cases hbid : L.best cfg .buy with
  | none =>
    refine ⟨rfl, fun j => ?_⟩
    have : L.demand cfg j = 0 := sum_eq_zero fun i hi => total_eq_zero.mpr (best_eq_none.mp hbid i (mem_Ico.mp hi).2)
    rw [executableAt]
    omega
  | some bid =>
    cases hask : L.best cfg .sell with
    | none =>
      refine ⟨rfl, fun j => ?_⟩
      have : L.supply j = 0 := by
        refine sum_eq_zero fun i _ => total_eq_zero.mpr ?_
        rcases Nat.lt_or_ge i cfg.domain.tickCount with hi | hi
        · exact best_eq_none.mp hask i hi
        · exact hw.range .sell i hi
      rw [executableAt]
      omega
    | some ask =>
      have hlt := hno bid ask hbid hask
      exact ⟨if_neg (by omega), fun j => executableAt_outside hbid hask (by omega)⟩

/-- The clearing level is right as long as no sum of quantities wraps. -/
theorem clearing_clears (hw : L.Wf cfg) (hb : L.demand cfg 0 < 2 ^ 64) (hs : ∀ i, L.supply i < 2 ^ 64) : Clears cfg L (L.clearing cfg) := by
  by_cases hcross : ∃ bid ask, L.best cfg .buy = some bid ∧ L.best cfg .sell = some ask ∧ ask ≤ bid
  · obtain ⟨bid, ask, hbid, hask, hle⟩ := hcross
    obtain ⟨c, hchose, -, -, -, hpref⟩ := clearing_preferred hb hs hbid hask hle
    refine ⟨fun j => ?_, fun i hi => ?_, fun hnone => ?_⟩
    · rw [hchose.executable]
      by_cases hj : j = c
      · rw [hj]
        exact Nat.le_refl _
      · have := hpref j hj
        unfold Preferred executableAt at this
        unfold executableAt
        omega
    · rw [hchose.level, Option.some.injEq] at hi
      rw [hchose.executable, hi]
      rfl
    · rw [hchose.level] at hnone
      cases hnone
  · obtain ⟨hclear, hzero⟩ := clearing_none hw fun bid ask hbid hask => by
      by_contra hlt
      exact hcross ⟨bid, ask, hbid, hask, by omega⟩
    rw [hclear]
    exact ⟨fun j => Nat.le_of_eq (hzero j), nofun, fun _ => rfl⟩

/-! ## The uncrossed book -/

/-- Where the uncross of a ladder `L₀` at a level stands: what is still to execute, and which levels it has not touched. -/
structure Uncrossing (cfg : BookConfig) (L₀ : Ladder) (clearing executable : Nat) (L : Ladder) (remaining : Nat) : Prop where
  le : remaining ≤ executable
  demand : L.demand cfg clearing + (executable - remaining) = L₀.demand cfg clearing
  supply : L.supply clearing + (executable - remaining) = L₀.supply clearing
  bids : ∀ j, j < clearing → L.queue .buy j = L₀.queue .buy j
  asks : ∀ j, clearing < j → L.queue .sell j = L₀.queue .sell j
  bids_below : ∀ i, L.queue .buy i ≠ [] → ∀ j, j < i → L.queue .buy j = L₀.queue .buy j
  asks_above : ∀ i, L.queue .sell i ≠ [] → ∀ j, i < j → L.queue .sell j = L₀.queue .sell j

/-- A fill takes its quantity from the demand or the supply. -/
theorem Filled.demand {i j q : Nat} {l r : List Entry} {e : Entry} (h : Filled L L' .buy i l r e q) (hq : L.queue .buy i = l ++ e :: r)
    (hji : j ≤ i) (hi : i < cfg.domain.tickCount) : L'.demand cfg j + q = L.demand cfg j := by
  have hmem : i ∈ Ico j cfg.domain.tickCount := mem_Ico.mpr ⟨hji, hi⟩
  rw [Ladder.demand, Ladder.demand, ← add_sum_erase _ _ hmem, ← add_sum_erase _ (L.total .buy) hmem, ← h.total_add hq,
    sum_congr rfl fun k hk => h.total_of_ne fun hc => ne_of_mem_erase hk hc.2]
  omega

/-- A fill of an ask takes its quantity from the supply. -/
theorem Filled.supply {i j q : Nat} {l r : List Entry} {e : Entry} (h : Filled L L' .sell i l r e q) (hq : L.queue .sell i = l ++ e :: r)
    (hij : i ≤ j) : L'.supply j + q = L.supply j := by
  have hmem : i ∈ Ico 0 (j + 1) := mem_Ico.mpr ⟨Nat.zero_le _, by omega⟩
  rw [Ladder.supply, Ladder.supply, ← add_sum_erase _ _ hmem, ← add_sum_erase _ (L.total .sell) hmem, ← h.total_add hq,
    sum_congr rfl fun k hk => h.total_of_ne fun hc => ne_of_mem_erase hk hc.2]
  omega

/-- The demand is of the bids. -/
theorem demand_congr {j : Nat} (h : L'.queue .buy = L.queue .buy) : L'.demand cfg j = L.demand cfg j := by
  simp only [demand, total, h]

/-- The supply is of the asks. -/
theorem supply_congr {j : Nat} (h : L'.queue .sell = L.queue .sell) : L'.supply j = L.supply j := by
  simp only [supply, total, h]

/-- One execution goes on with the uncross. -/
theorem AuctionStep.uncrossing (hw : L.Wf cfg) {L₀ M : Ladder} {executable remaining q bid ask : Nat} {b a : Entry} {rb ra : List Entry}
    (h : AuctionStep cfg clearing L M L' remaining q bid ask b a rb ra) (hu : Uncrossing cfg L₀ clearing executable L remaining) :
    Uncrossing cfg L₀ clearing executable L' (remaining - q) := by
  have hbidlt := (best_eq_some h.bestBid).1
  have hq : q ≤ remaining := by
    rw [h.eq]
    exact Nat.min_le_left _ _
  have hle := hu.le
  have hbuys : ∀ j, L'.queue .buy j = M.queue .buy j := fun j => h.askFilled.queue_of_ne fun hc => nomatch hc.1
  have hsells : ∀ j, M.queue .sell j = L.queue .sell j := fun j => h.bidFilled.queue_of_ne fun hc => nomatch hc.1
  have hbuy : ∀ j, j ≠ bid → L'.queue .buy j = L.queue .buy j := fun j hj =>
    (hbuys j).trans (h.bidFilled.queue_of_ne fun hc => hj hc.2)
  have hsell : ∀ j, j ≠ ask → L'.queue .sell j = L.queue .sell j := fun j hj =>
    (h.askFilled.queue_of_ne fun hc => hj hc.2).trans (hsells j)
  refine ⟨by omega, ?_, ?_, fun j hj => ?_, fun j hj => ?_, fun i hi j hj => ?_, fun i hi j hj => ?_⟩
  · have h1 := h.bidFilled.demand h.bids h.bid_ge hbidlt
    rw [demand_congr (funext hbuys)]
    have := hu.demand
    omega
  · have h1 := h.askFilled.supply h.asks_mid h.ask_le
    rw [supply_congr (funext hsells)] at h1
    have := hu.supply
    omega
  · rw [hbuy j (by have := h.bid_ge; omega)]
    exact hu.bids j hj
  · rw [hsell j (by have := h.ask_le; omega)]
    exact hu.asks j hj
  · have hi' : L.queue .buy i ≠ [] := h.bidFilled.queue_ne_nil (l := []) h.bids (hbuys i ▸ hi)
    have := hw.not_better h.bestBid hi'
    simp only [betterLevel] at this
    rw [hbuy j (by omega)]
    exact hu.bids_below i hi' j hj
  · have hi' : L.queue .sell i ≠ [] := hsells i ▸ h.askFilled.queue_ne_nil (l := []) h.asks_mid hi
    have := hw.not_better h.bestAsk hi'
    simp only [betterLevel] at this
    rw [hsell j (by omega)]
    exact hu.asks_above i hi' j hj

/-- Where there is demand there is a bid. -/
theorem exists_of_demand_pos {i : Nat} (h : 0 < L.demand cfg i) : ∃ j, i ≤ j ∧ L.queue .buy j ≠ [] := by
  by_contra hno
  push Not at hno
  have : L.demand cfg i = 0 := sum_eq_zero fun j hj => total_eq_zero.mpr (hno j (mem_Ico.mp hj).1)
  omega

/-- Where there is supply there is an ask. -/
theorem exists_of_supply_pos {i : Nat} (h : 0 < L.supply i) : ∃ j, j ≤ i ∧ L.queue .sell j ≠ [] := by
  by_contra hno
  push Not at hno
  have : L.supply i = 0 := sum_eq_zero fun j hj => total_eq_zero.mpr (hno j (by have := (mem_Ico.mp hj).2; omega))
  omega

/-- The uncross executes everything the clearing level allows. -/
theorem Uncrossing.complete {L₀ : Ladder} {executable remaining : Nat} (hw : L.Wf cfg)
    (hex : executable = min (L₀.demand cfg clearing) (L₀.supply clearing)) (h : Uncrossing cfg L₀ clearing executable L remaining)
    (hend : remaining = 0 ∨
      ∀ bid ask, L.best cfg .buy = some bid → L.best cfg .sell = some ask → clearing ≤ bid → clearing < ask) : remaining = 0 := by
  refine hend.elim id fun hend => ?_
  by_contra hrem
  have hd := h.demand
  have hs := h.supply
  have hle := h.le
  have hdpos : 0 < L.demand cfg clearing := by omega
  obtain ⟨i, hi, hqi⟩ := exists_of_demand_pos hdpos
  obtain ⟨j, hj, hqj⟩ := exists_of_supply_pos (L := L) (i := clearing) (by omega)
  obtain ⟨bid, hbid⟩ := hw.best_isSome hqi
  obtain ⟨ask, hask⟩ := hw.best_isSome hqj
  have h1 := hw.not_better hbid hqi
  have h2 := hw.not_better hask hqj
  simp only [betterLevel] at h1 h2
  have := hend bid ask hbid hask (by omega)
  omega

/-- Where a level could execute no more than the clearing level, the uncross leaves no bid at or above an ask: the level of
the one that has not been reached could have executed more. -/
theorem Uncrossing.uncrossed {L₀ : Ladder} {executable : Nat} (hw : L.Wf cfg)
    (hex : executable = min (L₀.demand cfg clearing) (L₀.supply clearing))
    (hmax : ∀ j, min (L₀.demand cfg j) (L₀.supply j) ≤ executable) (h : Uncrossing cfg L₀ clearing executable L 0) : L.Uncrossed := by
  intro bid ask hbid hask
  by_contra hcross
  have hd := h.demand
  have hs := h.supply
  have hbidlt := hw.queue_lt hbid
  rw [Nat.sub_zero] at hd hs
  by_cases hside : L.demand cfg clearing = 0
  · have hlt : bid < clearing := by
      by_contra hge
      have := demand_pos (i := clearing) (by omega) hbidlt hbid
      omega
    have hsplit : ∀ L : Ladder, L.supply clearing = L.supply ask + ∑ k ∈ Ico (ask + 1) (clearing + 1), L.total .sell k := fun L =>
      supply_split (by omega)
    have hsame : ∑ k ∈ Ico (ask + 1) (clearing + 1), L.total .sell k = ∑ k ∈ Ico (ask + 1) (clearing + 1), L₀.total .sell k :=
      sum_congr rfl fun k hk => by rw [total, total, h.asks_above ask hask k (mem_Ico.mp hk).1]
    have h1 := hsplit L
    have h2 := hsplit L₀
    have h3 := supply_pos (Nat.le_refl ask) hask
    have h4 : L₀.supply ask ≤ L₀.supply bid := supply_mono (by omega)
    have h5 : L₀.total .buy bid ≠ 0 := fun hz => hbid ((h.bids bid hlt).trans (total_eq_zero.mp hz))
    have h6 := demand_step (L := L₀) hbidlt
    have h7 : L₀.demand cfg clearing ≤ L₀.demand cfg (bid + 1) := demand_anti (by omega)
    have h8 := hmax bid
    omega
  · have hside' : L.supply clearing = 0 := by omega
    have hlt : clearing < ask := by
      by_contra hge
      have := supply_pos (j := clearing) (by omega) hask
      omega
    have hsplit : ∀ L : Ladder, L.demand cfg clearing = ∑ k ∈ Ico clearing bid, L.total .buy k + L.demand cfg bid := fun L =>
      demand_split (by omega) (by omega)
    have hsame : ∑ k ∈ Ico clearing bid, L.total .buy k = ∑ k ∈ Ico clearing bid, L₀.total .buy k :=
      sum_congr rfl fun k hk => by rw [total, total, h.bids_below bid hbid k (mem_Ico.mp hk).2]
    have h1 := hsplit L
    have h2 := hsplit L₀
    have h3 : 0 < L.demand cfg bid := demand_pos (Nat.le_refl bid) hbidlt hbid
    have h4 : L₀.demand cfg bid ≤ L₀.demand cfg ask := demand_anti (by omega)
    have h5 : L₀.total .sell ask ≠ 0 := fun hz => hask ((h.asks ask hlt).trans (total_eq_zero.mp hz))
    have h6 : L₀.supply (ask - 1 + 1) = L₀.supply (ask - 1) + L₀.total .sell (ask - 1 + 1) := supply_step (ask - 1)
    rw [Nat.sub_add_cancel (by omega)] at h6
    have h7 : L₀.supply clearing ≤ L₀.supply (ask - 1) := supply_mono (by omega)
    have h8 := hmax ask
    omega

/-- The uncross executes all the clearing level allows and leaves the ladder uncrossed. -/
theorem auction_uncrossed {c : Clearing} {remaining : Nat} {trades : List Trade} (hw : L.Wf cfg) (hc : Clears cfg L c)
    (hlevel : c.level = some clearing)
    (h : (auction cfg clearing price (L, c.executable, [])).Returns (L', remaining, trades)) : remaining = 0 ∧ L'.Uncrossed := by
  obtain ⟨hw', hu, hend⟩ := auction_invariant (I := fun L' remaining _ => Uncrossing cfg L clearing c.executable L' remaining)
    (fun _ _ _ _ _ _ _ _ _ _ _ _ hw hu hs => hs.uncrossing hw hu) hw
    ⟨Nat.le_refl _, by omega, by omega, fun _ _ => rfl, fun _ _ => rfl, fun _ _ _ _ => rfl, fun _ _ _ _ => rfl⟩ h
  obtain rfl := hu.complete hw' (hc.eq _ hlevel) hend
  exact ⟨rfl, hu.uncrossed hw' (hc.eq _ hlevel) hc.max⟩

/-- A ladder where no level could execute anything is uncrossed. -/
theorem Clears.uncrossed {c : Clearing} (hw : L.Wf cfg) (h : Clears cfg L c) (hz : c.executable = 0) : L.Uncrossed := by
  intro bid ask hbid hask
  by_contra hcross
  have h1 : 0 < L.demand cfg bid := demand_pos (Nat.le_refl bid) (hw.queue_lt hbid) hbid
  have h2 := supply_pos (i := ask) (j := bid) (by omega) hask
  have := h.max bid
  omega

end Ladder

end MatchingEngine

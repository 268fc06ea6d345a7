import MatchingEngine.LaneMerge
import MatchingEngine.Lemmas.Spsc
import MatchingEngine.Lib.Merge
import Mathlib.Data.Prod.Lex

/-!
# The merge of the lanes is determined by the lanes

The calls of `try_pop`, repeated until one finds nothing, merge what the lanes hold: each takes the least of the heads, so the order of
each lane is kept, the order of the consumers does not matter, and sorted lanes give a sorted sequence.
-/

namespace MatchingEngine

/-! ## Keys -/

namespace LaneCommand

/-- The logical time, the lane and the sequence number, in the order in which they are compared. -/
def key (c : LaneCommand) : Nat ×ₗ Nat ×ₗ Nat := toLex (c.logicalTime.toNat, toLex (c.laneId.toNat, c.laneSequence.toNat))

/-- Commands are compared by their keys. -/
theorem less_iff (left right : LaneCommand) : left.less right = true ↔ left.key < right.key := by
  unfold less key
  rw [Prod.Lex.toLex_lt_toLex, Prod.Lex.toLex_lt_toLex]
  dsimp only
  split
  · rename_i htime
    have htime' : left.logicalTime.toNat ≠ right.logicalTime.toNat := fun h => htime (UInt64.toNat_inj.mp h)
    rw [decide_eq_true_iff, UInt64.lt_iff_toNat_lt]
    omega
  rename_i htime
  rw [not_not.mp htime]
  split
  · rename_i hlane
    have hlane' : left.laneId.toNat ≠ right.laneId.toNat := fun h => hlane (UInt32.toNat_inj.mp h)
    rw [decide_eq_true_iff, UInt32.lt_iff_toNat_lt]
    omega
  · rename_i hlane
    rw [not_not.mp hlane, decide_eq_true_iff, UInt64.lt_iff_toNat_lt]
    omega

end LaneCommand

/-! ## The queues -/

/-- A queue between calls holds the values of a list. -/
def SpscQueue.Queues {α : Type} (q : SpscQueue α) (values : List α) : Prop := QueueState.Holds ⟨q, .idle, .idle⟩ values

/-- The head of a queue is seen and stays. -/
theorem SpscQueue.Queues.tryPeek {α : Type} {q : SpscQueue α} {values : List α} (h : q.Queues values) :
    q.tryPeek.1 = values.head? ∧ q.tryPeek.2.Queues values := by
  obtain ⟨f', step, hholds, -⟩ := h.call (QueueRun.start.tryPeek rfl)
  generalize hvalue : q.tryPeek.1 = value at step
  cases step with
  | peek => exact ⟨rfl, hholds⟩

theorem SpscQueue.Queues.tryPop {α : Type} {q : SpscQueue α} {value : α} {values : List α} (h : q.Queues (value :: values)) :
    q.tryPop.1 = some value ∧ q.tryPop.2.Queues values := by
  obtain ⟨hpeeked, -⟩ := h.tryPeek
  have hpopped : q.tryPop.1 = some value := by
    rw [SpscQueue.tryPop, show q.tryPeek = (some value, q.tryPeek.2) from Prod.ext hpeeked rfl]
  obtain ⟨f', step, hholds, -⟩ := h.call (QueueRun.start.tryPop rfl)
  rw [hpopped] at step
  cases step with
  | pop => exact ⟨hpopped, hholds⟩

/-- The consumers of queues that hold the lanes. -/
def HoldLanes (consumers : List (SpscQueue LaneCommand)) (lanes : List (List LaneCommand)) : Prop :=
  List.Forall₂ SpscQueue.Queues consumers lanes

theorem HoldLanes.set {consumers : List (SpscQueue LaneCommand)} {lanes : List (List LaneCommand)} (h : HoldLanes consumers lanes) (i : Nat)
    {q : SpscQueue LaneCommand} {lane : List LaneCommand} (hq : q.Queues lane) : HoldLanes (consumers.set i q) (lanes.set i lane) := by
  induction h generalizing i with
  | nil => exact .nil
  | cons hqueue hrest ih =>
    cases i with
    | zero => exact .cons hq hrest
    | succ i => exact .cons hqueue (ih i)

/-! ## One call -/

/-- What the loop has selected of the lanes it has looked at: nothing, because they are empty, or the least of their heads. -/
structure LaneSelection.Least (s : LaneSelection) (lanes : List (List LaneCommand)) : Prop where
  empty : s.found = false → ∀ lane ∈ lanes, lane = []
  head : s.found = true → ∃ rest, lanes[s.selected]? = some (s.selectedCommand :: rest)
  least : s.found = true → ∀ b lane, b :: lane ∈ lanes → s.selectedCommand.key ≤ b.key

theorem LaneSelection.Least.consider {s : LaneSelection} {lanes : List (List LaneCommand)} (h : s.Least lanes) (lane : List LaneCommand) :
    (s.consider lanes.length lane.head?).Least (lanes ++ [lane]) := by
  cases lane with
  | nil =>
    refine ⟨fun hnone l hl => ?_, fun hfound => ?_, fun hfound b l hl => ?_⟩
    · rcases List.mem_append.mp hl with hl | hl
      · exact h.empty hnone l hl
      · exact List.mem_singleton.mp hl
    · obtain ⟨rest, hrest⟩ := h.head hfound
      exact ⟨rest, List.getElem?_append_left (List.getElem?_eq_some_iff.mp hrest).1 ▸ hrest⟩
    · rcases List.mem_append.mp hl with hl | hl
      · exact h.least hfound b l hl
      · exact absurd (List.mem_singleton.mp hl) (List.cons_ne_nil _ _)
  | cons c rest =>
    rw [List.head?_cons, LaneSelection.consider]
    split
    · rename_i htaken
      refine ⟨nofun, fun _ => ⟨rest, List.getElem?_concat_length⟩, fun _ b l hl => ?_⟩
      rcases List.mem_append.mp hl with hl | hl
      · rw [Bool.or_eq_true, Bool.not_eq_true'] at htaken
        rcases htaken with hnone | hless
        · exact absurd (h.empty hnone _ hl) (List.cons_ne_nil _ _)
        · have hbefore : s.found = true := by
            by_contra hnot
            exact absurd (h.empty (Bool.not_eq_true _ ▸ hnot) _ hl) (List.cons_ne_nil _ _)
          exact le_trans (le_of_lt ((LaneCommand.less_iff _ _).mp hless)) (h.least hbefore b l hl)
      · obtain ⟨rfl, -⟩ := List.cons.inj (List.mem_singleton.mp hl)
        exact le_refl _
    · rename_i hkept
      rw [Bool.or_eq_true, Bool.not_eq_true', not_or, Bool.not_eq_false, LaneCommand.less_iff] at hkept
      refine ⟨fun hnone => absurd hkept.1 (by rw [hnone]; exact nofun), fun hfound => ?_, fun hfound b l hl => ?_⟩
      · obtain ⟨tail, htail⟩ := h.head hfound
        exact ⟨tail, List.getElem?_append_left (List.getElem?_eq_some_iff.mp htail).1 ▸ htail⟩
      · rcases List.mem_append.mp hl with hl | hl
        · exact h.least hfound b l hl
        · obtain ⟨rfl, -⟩ := List.cons.inj (List.mem_singleton.mp hl)
          exact not_lt.mp hkept.2

namespace DeterministicLaneMerger

/-- The selection finds the least head. -/
theorem select_least {consumers : List (SpscQueue LaneCommand)} {before lanes : List (List LaneCommand)} {s : LaneSelection}
    (hlanes : HoldLanes consumers lanes) (h : s.Least before) :
    (select before.length consumers s).1.Least (before ++ lanes) ∧ HoldLanes (select before.length consumers s).2 lanes := by
  induction hlanes generalizing before s with
  | nil =>
    rw [List.append_nil]
    exact ⟨h, .nil⟩
  | @cons consumer lane consumers lanes hqueue _ ih =>
    obtain ⟨hpeeked, hkept⟩ := hqueue.tryPeek
    have hrest := ih (h.consider lane)
    rw [List.length_append, List.length_singleton, List.append_assoc, List.singleton_append, ← hpeeked] at hrest
    exact ⟨hrest.1, .cons hkept hrest.2⟩

variable {merger : DeterministicLaneMerger} {lanes : List (List LaneCommand)}

/-- A call takes the least of the heads, or finds all lanes empty. -/
theorem tryPop_cases (h : HoldLanes merger.consumers lanes) :
    (merger.tryPop.1 = none ∧ (∀ lane ∈ lanes, lane = [])) ∨
      ∃ (i : Nat) (c : LaneCommand) (rest : List LaneCommand), merger.tryPop.1 = some c ∧ lanes[i]? = some (c :: rest) ∧
        (∀ b lane, b :: lane ∈ lanes → c.key ≤ b.key) ∧ HoldLanes merger.tryPop.2.consumers (lanes.set i rest) := by
  obtain ⟨hleast, hkept⟩ := @select_least _ [] _ { selectedCommand := merger.selectedCommand } h ⟨fun _ _ => nofun, nofun, nofun⟩
  rw [List.nil_append, List.length_nil] at hleast
  rw [List.length_nil] at hkept
  rw [tryPop]
  generalize select 0 merger.consumers { selectedCommand := merger.selectedCommand } = selected at hleast hkept
  obtain ⟨s, consumers⟩ := selected
  dsimp only at hleast hkept ⊢
  split
  · rename_i hfound
    obtain ⟨rest, hlane⟩ := hleast.head hfound
    obtain ⟨hlt, hget⟩ := List.getElem?_eq_some_iff.mp hlane
    have hlt' : s.selected < consumers.length := hkept.length_eq ▸ hlt
    have hqueue : consumers[s.selected].Queues (s.selectedCommand :: rest) := hget ▸ hkept.get hlt' hlt
    obtain ⟨hpopped, hqueue'⟩ := hqueue.tryPop
    rw [List.getElem?_eq_getElem hlt']
    exact .inr ⟨s.selected, s.selectedCommand, rest, hpopped, hlane, hleast.least hfound, hkept.set _ hqueue'⟩
  · rename_i hfound
    exact .inl ⟨rfl, hleast.empty (Bool.not_eq_true _ ▸ hfound)⟩

end DeterministicLaneMerger

/-! ## All calls -/

section

variable {merger merger' : DeterministicLaneMerger} {lanes : List (List LaneCommand)} {commands : List LaneCommand}

/-- The lanes with the first command of one of them taken away. -/
theorem lanes_split {i : Nat} {c : LaneCommand} {rest : List LaneCommand} (h : lanes[i]? = some (c :: rest)) :
    lanes.Perm ((c :: rest) :: lanes.eraseIdx i) ∧ (lanes.set i rest).Perm (rest :: lanes.eraseIdx i) := by
  obtain ⟨hlt, hget⟩ := List.getElem?_eq_some_iff.mp h
  rw [← hget]
  exact ⟨(List.getElem_cons_eraseIdx_perm hlt).symm, List.set_perm_cons_eraseIdx hlt rest⟩

/-- The calls merge the lanes. -/
theorem Drains.merges (h : Drains merger commands merger') (hlanes : HoldLanes merger.consumers lanes) :
    Merges LaneCommand.key lanes commands := by
  induction h generalizing lanes with
  | done empty =>
    rcases DeterministicLaneMerger.tryPop_cases hlanes with ⟨-, hempty⟩ | ⟨i, c, rest, hsome, -⟩
    · exact .nil hempty
    · rw [empty] at hsome
      cases hsome
  | pop popped _ ih =>
    rcases DeterministicLaneMerger.tryPop_cases hlanes with ⟨hnone, -⟩ | ⟨i, c, rest, hsome, hlane, hleast, hkept⟩
    · rw [popped] at hnone
      cases hnone
    · rw [popped] at hsome hkept
      obtain rfl := Option.some.inj hsome
      obtain ⟨hsplit, hrest⟩ := lanes_split hlane
      exact .cons hsplit hleast ((ih hkept).congr hrest)

/-- The calls come to an end: each takes one command of the lanes. -/
theorem exists_drains (hlanes : HoldLanes merger.consumers lanes) : ∃ commands merger', Drains merger commands merger' := by
  induction hcount : lanes.flatten.length generalizing merger lanes with
  | zero =>
    rcases DeterministicLaneMerger.tryPop_cases hlanes with ⟨hnone, -⟩ | ⟨i, c, rest, -, hlane, -⟩
    · exact ⟨[], _, .done (Prod.ext hnone rfl)⟩
    · have hperm := (lanes_split hlane).1.flatten.length_eq
      rw [hcount, List.flatten_cons] at hperm
      cases hperm
  | succ count ih =>
    rcases DeterministicLaneMerger.tryPop_cases hlanes with ⟨hnone, -⟩ | ⟨i, c, rest, hsome, hlane, -, hkept⟩
    · exact ⟨[], _, .done (Prod.ext hnone rfl)⟩
    · obtain ⟨hsplit, hrest⟩ := lanes_split hlane
      have hbefore := hsplit.flatten.length_eq
      have hafter := hrest.flatten.length_eq
      rw [List.flatten_cons, List.cons_append, List.length_cons] at hbefore
      rw [List.flatten_cons] at hafter
      obtain ⟨commands, merger', hdrains⟩ := ih hkept (by omega)
      exact ⟨c :: commands, merger', .pop (Prod.ext hsome rfl) hdrains⟩

/-- The consumers in another order, with their lanes. -/
theorem HoldLanes.perm {consumers consumers' : List (SpscQueue LaneCommand)} (h : HoldLanes consumers lanes) (hp : consumers.Perm consumers') :
    ∃ lanes', HoldLanes consumers' lanes' ∧ lanes'.Perm lanes := List.perm_comp_forall₂ hp.symm h

/-- However many lanes there are and whatever they hold, as long as commands of different lanes have different keys: the calls of `try_pop`
come to an end. What they have popped are the commands of the lanes, those of each lane in their order; each call has taken the least
of the heads; it is the same for the consumers in any order and any command left from an earlier call; and it is sorted if the lanes are. -/
theorem lanes_merged (hlanes : HoldLanes merger.consumers lanes) (hkeys : KeysApart LaneCommand.key lanes) :
    ∃ commands merger', Drains merger commands merger' ∧ commands.Perm lanes.flatten ∧ (∀ lane ∈ lanes, commands.filter (· ∈ lane) = lane) ∧
      Merges LaneCommand.key lanes commands ∧
      (∀ other commands' other', merger.consumers.Perm other.consumers → Drains other commands' other' → commands' = commands) ∧
      ((∀ lane ∈ lanes, lane.Pairwise fun a b => a.key ≤ b.key) → commands.Pairwise fun a b => a.key ≤ b.key) := by
  obtain ⟨commands, merger', hdrains⟩ := exists_drains hlanes
  have hmerges := hdrains.merges hlanes
  refine ⟨commands, merger', hdrains, hmerges.perm, fun lane => hmerges.filter_mem hkeys, hmerges, ?_, hmerges.sorted⟩
  intro other commands' other' hperm hdrains'
  obtain ⟨lanes', hlanes', hlanes_perm⟩ := hlanes.perm hperm
  exact ((hdrains'.merges hlanes').congr hlanes_perm).unique hmerges hkeys

end

/-- A new queue with a batch pushed. -/
theorem SpscQueue.queues_pushed {α : Type} {capacity : Nat} {slots : Nat → α} {pos : 0 < capacity} {le : capacity ≤ kMaximumSpscCapacity}
    {values : List α} (room : values.length ≤ capacity) : ((emptyAt capacity slots 0 pos le).tryPushBatch values).2.Queues values := by
  have hlt : values.length ≤ 2 ^ 64 := (room.trans le).trans (by decide)
  have spares : (emptyAt capacity slots 0 pos le).Spares values := by
    refine .inr (.inl ?_)
    rw [emptyAt, UInt64.sub_self]
    show 0 + (0 + values.length) ≤ 2 ^ 64
    rwa [Nat.zero_add, Nat.zero_add]
  obtain ⟨f', step, hholds, -⟩ := emptyAt_holds.call (QueueRun.start.tryPushBatch rfl spares)
  generalize ((emptyAt capacity slots 0 pos le).tryPushBatch values).1 = ok at step
  cases step with
  | push => exact hholds
  | refuse full =>
    rw [List.length_nil, Nat.zero_add] at full
    exact absurd room (Nat.not_le.mpr full)

/-- A command of a lane with a time. -/
def laneOrder (logicalTime : UInt64) (lane : UInt32) (sequence : UInt64) : LaneCommand := ⟨.submitMarket sequence 0 1, logicalTime, lane, sequence⟩

/-- Two lanes whose times interleave, and meet at 30: the merge takes them in turn, and the lower lane first where the times are equal. -/
theorem lanes_merged_interleaved : ∃ merger merger',
    HoldLanes merger.consumers [[laneOrder 20 1 1, laneOrder 30 1 2], [laneOrder 10 0 1, laneOrder 25 0 2, laneOrder 30 0 3]] ∧
    Drains merger [laneOrder 10 0 1, laneOrder 20 1 1, laneOrder 25 0 2, laneOrder 30 0 3, laneOrder 30 1 2] merger' := by
  let empty : SpscQueue LaneCommand := .emptyAt 3 (fun _ => laneOrder 0 0 1) 0 (by decide) (by decide)
  let first := [laneOrder 20 1 1, laneOrder 30 1 2]
  let second := [laneOrder 10 0 1, laneOrder 25 0 2, laneOrder 30 0 3]
  let merger : DeterministicLaneMerger := ⟨[(empty.tryPushBatch first).2, (empty.tryPushBatch second).2], laneOrder 0 0 1⟩
  have hlanes : HoldLanes merger.consumers [first, second] :=
    .cons (SpscQueue.queues_pushed (by decide)) (.cons (SpscQueue.queues_pushed (by decide)) .nil)
  have hkeys : KeysApart LaneCommand.key [first, second] := List.pairwise_pair.mpr (by decide)
  obtain ⟨commands, merger', hdrains, hperm, -, -, -, hsorted⟩ := lanes_merged hlanes hkeys
  let merged := [laneOrder 10 0 1, laneOrder 20 1 1, laneOrder 25 0 2, laneOrder 30 0 3, laneOrder 30 1 2]
  have hmerged : commands.Perm merged := hperm.trans (by decide)
  have hantisymm : ∀ a ∈ merged, ∀ b ∈ merged, a.key ≤ b.key → b.key ≤ a.key → a = b := by decide
  have hcommands : commands = merged :=
    hmerged.eq_of_pairwise (fun a b ha hb => hantisymm a (hmerged.subset ha) b hb) (hsorted (by decide)) (by decide)
  rw [hcommands] at hdrains
  exact ⟨merger, merger', hlanes, hdrains⟩

end MatchingEngine

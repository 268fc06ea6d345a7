import Mathlib.Data.List.Chain
import MatchingEngine.BboPublisher
import MatchingEngine.Lemmas.Codecs
import MatchingEngine.Theorems.Bbo

/-!
# What the frames of the best prices say

A publisher that reads a snapshot while it is written publishes frames of whole states, each once and in the order of the writer, and a
receiver of the frames has the state of the last read where a frame of it could be written.
-/

namespace MatchingEngine

open Seqlock

/-- The states that are published, after the state `last` was. -/
def sentStates : Option BboState → List BboPublishCall → List BboState
  | _, [] => []
  | last, call :: calls =>
    match call.read with
    | none => sentStates last calls
    | some state =>
      if last = some state ∨ call.size ≠ kEncodedBboFrameSize then sentStates last calls else state :: sentStates (some state) calls

section

variable {last : Option BboState} {state : BboState} {call : BboPublishCall} {calls : List BboPublishCall} {p : BboPublisher}

theorem sentStates_none (h : call.read = none) : sentStates last (call :: calls) = sentStates last calls := by
  rw [sentStates, h]

theorem sentStates_skip (h : call.read = some state) (hskip : last = some state ∨ call.size ≠ kEncodedBboFrameSize) :
    sentStates last (call :: calls) = sentStates last calls := by
  simp only [sentStates, h, if_pos hskip]

theorem sentStates_send (h : call.read = some state) (hne : last ≠ some state) (hsize : call.size = kEncodedBboFrameSize) :
    sentStates last (call :: calls) = state :: sentStates (some state) calls := by
  simp only [sentStates, h, if_neg (not_or.mpr ⟨hne, not_not.mpr hsize⟩)]

/-- The ways a call can go. -/
theorem call_cases (last : Option BboState) (call : BboPublishCall) :
    call.read = none ∨ (∃ state, call.read = some state ∧ (last = some state ∨ call.size ≠ kEncodedBboFrameSize)) ∨
      ∃ state, call.read = some state ∧ last ≠ some state ∧ call.size = kEncodedBboFrameSize := by
  cases hread : call.read with
  | none => exact Or.inl rfl
  | some state =>
    by_cases hskip : last = some state ∨ call.size ≠ kEncodedBboFrameSize
    · exact Or.inr (Or.inl ⟨state, rfl, hskip⟩)
    · rw [not_or, not_not] at hskip
      exact Or.inr (Or.inr ⟨state, rfl, hskip.1, hskip.2⟩)

/-! ## The publisher -/

/-- A call that publishes nothing keeps the state published last. -/
theorem BboPublisher.run_skip (p : BboPublisher) (calls : List BboPublishCall) (h : call.read = none ∨ ∃ state, call.read = some state ∧ (p.lastPublished = some state ∨
    call.size ≠ kEncodedBboFrameSize)) : ∃ p' : BboPublisher, p.run (call :: calls) = p'.run calls ∧ p'.lastPublished = p.lastPublished := by
  rcases h with h | ⟨state, h, hsame | hsize⟩
  · exact ⟨p, by simp [run, tryPublish, h], rfl⟩
  · exact ⟨p, by simp [run, tryPublish, h, hsame], rfl⟩
  · by_cases hsame : p.lastPublished = some state
    · exact ⟨p, by simp [run, tryPublish, h, hsame], rfl⟩
    · exact ⟨{ p with lastFrameError := .invalidLength }, by simp [run, tryPublish, h, hsame, encodeBboFrame, hsize], rfl⟩

/-- A call that publishes. -/
theorem BboPublisher.run_send (h : call.read = some state) (hne : p.lastPublished ≠ some state) (hsize : call.size = kEncodedBboFrameSize) :
    p.run (call :: calls) = (bboBytes state :: (({ lastPublished := some state } : BboPublisher).run calls).1,
      (({ lastPublished := some state } : BboPublisher).run calls).2) := by
  simp [run, tryPublish, h, hne, hsize, encodeBboFrame_eq]

/-- The frames are those of the states that are sent. -/
theorem BboPublisher.run_frames (p : BboPublisher) (calls : List BboPublishCall)
    (canonical : ∀ call ∈ calls, ∀ state, call.read = some state → state.Canonical) :
    (p.run calls).1.map (decodeBboFrame · kEncodedBboFrameSize) = (sentStates p.lastPublished calls).map .ok := by
  induction calls generalizing p with
  | nil => rfl
  | cons call calls ih =>
    have hrest : ∀ c ∈ calls, ∀ state, c.read = some state → state.Canonical := fun c hc => canonical c (List.mem_cons_of_mem _ hc)
    rcases call_cases p.lastPublished call with h | ⟨state, h, hskip⟩ | ⟨state, h, hne, hsize⟩
    · obtain ⟨p', hrun, hlast⟩ := p.run_skip calls (Or.inl h)
      rw [hrun, sentStates_none h, ← hlast, ih p' hrest]
    · obtain ⟨p', hrun, hlast⟩ := p.run_skip calls (Or.inr ⟨state, h, hskip⟩)
      rw [hrun, sentStates_skip h hskip, ← hlast, ih p' hrest]
    · rw [run_send h hne hsize, sentStates_send h hne hsize, List.map_cons, List.map_cons, ih _ hrest,
        decodeBboFrame_bytes (canonical call List.mem_cons_self state h)]

/-! ## What is sent -/

/-- No state is sent twice in a row. -/
theorem sentStates_distinct (last : Option BboState) (calls : List BboPublishCall) :
    (last.toList ++ sentStates last calls).IsChain (· ≠ ·) := by
  induction calls generalizing last with
  | nil => cases last <;> simp [sentStates]
  | cons call calls ih =>
    rcases call_cases last call with h | ⟨state, h, hskip⟩ | ⟨state, h, hne, hsize⟩
    · rw [sentStates_none h]
      exact ih last
    · rw [sentStates_skip h hskip]
      exact ih last
    · rw [sentStates_send h hne hsize]
      have hchain := ih (some state)
      cases last with
      | none => exact hchain
      | some before => exact .cons_cons (fun heq => hne (congrArg some heq)) hchain

/-- Only states that were read are sent, in their order. -/
theorem sentStates_sublist (last : Option BboState) (calls : List BboPublishCall) :
    (sentStates last calls).Sublist (calls.filterMap BboPublishCall.read) := by
  induction calls generalizing last with
  | nil => exact .slnil
  | cons call calls ih =>
    rcases call_cases last call with h | ⟨state, h, hskip⟩ | ⟨state, h, hne, hsize⟩
    · rw [sentStates_none h, List.filterMap_cons_none h]
      exact ih last
    · rw [sentStates_skip h hskip, List.filterMap_cons_some h]
      exact (ih last).cons state
    · rw [sentStates_send h hne hsize, List.filterMap_cons_some h]
      exact (ih _).cons_cons state

/-- After a call with room for a frame the state it has read is the last one sent. -/
theorem sentStates_last (last : Option BboState) (calls : List BboPublishCall) (h : call.read = some state)
    (hsize : call.size = kEncodedBboFrameSize) : (last.toList ++ sentStates last (calls ++ [call])).getLast? = some state := by
  induction calls generalizing last with
  | nil =>
    rw [List.nil_append]
    by_cases hlast : last = some state
    · rw [sentStates_skip h (Or.inl hlast), hlast]
      rfl
    · rw [sentStates_send h hlast hsize, sentStates, List.getLast?_append, List.getLast?_singleton, Option.some_or]
  | cons c calls ih =>
    rw [List.cons_append]
    rcases call_cases last c with hc | ⟨state', hc, hskip⟩ | ⟨state', hc, hne, hc'⟩
    · rw [sentStates_none hc]
      exact ih last
    · rw [sentStates_skip hc hskip]
      exact ih last
    · rw [sentStates_send hc hne hc', List.getLast?_append]
      have hlast := ih (some state')
      rw [Option.toList_some, List.singleton_append] at hlast
      rw [hlast, Option.some_or]

end

/-! ## Positions -/

/-- A sublist of items that are at positions is at some of the positions. -/
theorem sublist_positions {α : Type} {at? : Nat → Option α} {ks : List Nat} {xs ys : List α}
    (h : List.Forall₂ (fun k x => at? k = some x) ks xs) (hs : ys.Sublist xs) :
    ∃ ks', ks'.Sublist ks ∧ List.Forall₂ (fun k x => at? k = some x) ks' ys := by
  induction hs generalizing ks with
  | slnil => exact ⟨[], List.nil_sublist _, .nil⟩
  | cons x _ ih =>
    cases h with
    | cons _ htail =>
      obtain ⟨ks', hsub, hys⟩ := ih htail
      exact ⟨ks', hsub.cons _, hys⟩
  | cons_cons x _ ih =>
    cases h with
    | cons hx htail =>
      obtain ⟨ks', hsub, hys⟩ := ih htail
      exact ⟨_, hsub.cons_cons _, .cons hx hys⟩

theorem exists_position {α : Type} {at? : Nat → Option α} {ks : List Nat} {xs : List α} {x : α}
    (h : List.Forall₂ (fun k x => at? k = some x) ks xs) (hx : x ∈ xs) : ∃ k, at? k = some x := by
  induction h with
  | nil => cases hx
  | @cons k y _ _ hy _ ih =>
    rcases List.mem_cons.mp hx with rfl | hx
    · exact ⟨k, hy⟩
    · exact ih hx

/-- Positions that never go back go forward where the items differ from one to the next. -/
theorem positions_lt {α : Type} {at? : Nat → Option α} {ks : List Nat} {xs : List α} (hsorted : ks.Pairwise (· ≤ ·))
    (hne : xs.IsChain (· ≠ ·)) (h : List.Forall₂ (fun k x => at? k = some x) ks xs) : ks.Pairwise (· < ·) := by
  induction h with
  | nil => exact .nil
  | @cons k x ks xs hx htail ih =>
    obtain ⟨hle, hrest⟩ := List.pairwise_cons.mp hsorted
    have hlt := ih hrest (List.isChain_cons.mp hne).2
    refine List.pairwise_cons.mpr ⟨?_, hlt⟩
    cases htail with
    | nil => exact nofun
    | @cons k' x' ks' xs' hx' _ =>
      have hxx : x ≠ x' := (List.isChain_cons.mp hne).1 x' rfl
      have hkk : k < k' := lt_of_le_of_ne (hle k' List.mem_cons_self) fun heq => hxx (Option.some.inj (hx.symm.trans (heq ▸ hx')))
      intro j hj
      rcases List.mem_cons.mp hj with rfl | hj
      · exact hkk
      · exact hkk.trans ((List.pairwise_cons.mp hlt).1 j hj)

/-- In every run of a writer and readers of the snapshot, the frames a publisher makes of what one reader is given are decoded to states
that were published as a whole, or to the empty state before them, each later in the writer's order than the one before; and where the last
call has read a state and had room for a frame, the last frame is of this state. What is read was published, so it is canonical. -/
theorem bbo_frames_in_order {ρ : Type} [DecidableEq ρ] {maxReaderRetries : Nat} {es : List (Event BboState BboState ρ)}
    {s : State BboField.Value BboState ρ} (run : Run (BboSnapshot.protocol maxReaderRetries) BboSnapshot.empty es s)
    (few : FewerDuringRead (2 ^ 63) es) (canonical : ∀ state ∈ published es, state.Canonical) (r : ρ) (calls : List BboPublishCall)
    (given : calls.filterMap BboPublishCall.read = reads r es) :
    ∃ (ks : List Nat) (states : List BboState), ks.Pairwise (· < ·) ∧
      List.Forall₂ (fun k state => (BboState.empty :: published es)[k]? = some state) ks states ∧
      (({} : BboPublisher).run calls).1.map (decodeBboFrame · kEncodedBboFrameSize) = states.map .ok ∧
      ∀ before call state, calls = before ++ [call] → call.read = some state → call.size = kEncodedBboFrameSize →
        states.getLast? = some state := by
  have complete (registers : ∀ field, BboField.Value field) (state : BboState) :
      (BboSnapshot.protocol maxReaderRetries).loads.eval (applyStores ((BboSnapshot.protocol maxReaderRetries).stores state) registers) =
        id state := BboSnapshot.read_publish registers state
  obtain ⟨ks, hks⟩ := (run.invariant BboSnapshot.read_empty complete few).readers r
  have hgiven : List.Forall₂ (fun k state => (BboState.empty :: published es)[k]? = some state) ks (reads r es) :=
    hks.given.imp fun k state h => by rwa [valueAt, List.map_id] at h
  have hcanonical : ∀ call ∈ calls, ∀ state, call.read = some state → state.Canonical := fun call hc state hread => by
    have hmem : state ∈ reads r es := given ▸ List.mem_filterMap.mpr ⟨call, hc, hread⟩
    obtain ⟨k, hk⟩ := exists_position hgiven hmem
    rcases List.mem_cons.mp (List.mem_of_getElem? hk) with rfl | hp
    · exact ⟨fun _ => rfl, fun _ => rfl⟩
    · exact canonical state hp
  obtain ⟨ks', hsub, hsent⟩ := sublist_positions hgiven (given ▸ sentStates_sublist none calls)
  refine ⟨ks', sentStates none calls, positions_lt (hks.sorted.sublist hsub) (sentStates_distinct none calls) hsent, hsent,
    BboPublisher.run_frames {} calls hcanonical, ?_⟩
  rintro before call state rfl hread hsize
  exact sentStates_last none before hread hsize

/-- Of three reads, the second of which a publish overlaps, two are of another state than the one before: their frames are decoded to the
two states. -/
theorem bbo_frames_in_order_overlapping : ∃ states : List BboState,
    (({} : BboPublisher).run ([bidState, quoteState, quoteState].map fun state => ⟨some state, Buffer.zeros, 40⟩)).1.map
      (decodeBboFrame · kEncodedBboFrameSize) = states.map .ok ∧ states.length = 2 ∧ states.getLast? = some quoteState := by
  obtain ⟨s, run⟩ := run_overlapping
  have canonical : ∀ state ∈ published overlappingEvents, state.Canonical := by
    intro state h
    rcases List.mem_pair.mp h with rfl | rfl
    · exact ⟨nofun, fun _ => rfl⟩
    · exact ⟨nofun, nofun⟩
  obtain ⟨ks, states, -, -, hframes, hlast⟩ := bbo_frames_in_order run (fewerDuringRead_of_published (by decide)) canonical ()
    ([bidState, quoteState, quoteState].map fun state => ⟨some state, Buffer.zeros, 40⟩) rfl
  refine ⟨states, hframes, ?_, hlast [⟨some bidState, Buffer.zeros, 40⟩, ⟨some quoteState, Buffer.zeros, 40⟩] _ _ rfl rfl rfl⟩
  have hlength := congrArg List.length hframes
  rw [List.length_map, List.length_map] at hlength
  rw [← hlength]
  decide +kernel

end MatchingEngine

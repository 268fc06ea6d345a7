import MatchingEngine.Lemmas.Engine
import MatchingEngine.Lemmas.Segments
import MatchingEngine.Replay

/-!
# Replay of a list of commands

Both replays come down to the replay of a list of commands (`replayCommands`): over one journal that of the commands from an index
on, over segments that of the commands from a number on. Their checks come down to one condition on the snapshot's point
(`PointOf`).
-/

namespace MatchingEngine

/-- The replay of a list of commands. -/
def replayCommands (eventsSize : Nat) : List SequencedCommand → SequencedEngine → ReplayResult → Comp Replayed
  | [], engine, result => pure (.ok result, engine)
  | command :: commands, engine, result => do
    match ← replayCommand eventsSize command engine result with
    | (.error error, engine) => return (.error error, engine)
    | (.ok result, engine) => replayCommands eventsSize commands engine result

section

variable {eventsSize : Nat} {engine : SequencedEngine} {result : ReplayResult} {below : UInt64}

/-- A list after another: the replay goes on where the first list has led, unless it has failed. -/
theorem replayCommands_append (cs ds : List SequencedCommand) :
    replayCommands eventsSize (cs ++ ds) engine result = (do
      match ← replayCommands eventsSize cs engine result with
      | (.error error, engine) => return (.error error, engine)
      | (.ok result, engine) => replayCommands eventsSize ds engine result) := by
  induction cs generalizing engine result with
  | nil => rfl
  | cons c cs ih =>
    rw [List.cons_append, replayCommands, replayCommands, bind_assoc]
    refine bind_congr fun x => ?_
    obtain ⟨outcome, engine'⟩ := x
    cases outcome with
    | error e => rfl
    | ok result' => exact ih

/-- The records of a journal that reads a list of commands. -/
theorem replayRecords_eq {journal : MmapJournal} {mapping : Buffer} {cs : List SequencedCommand}
    (hread : ∀ i (h : i < cs.length), journal.read mapping i = .ok cs[i]) (remaining index : Nat)
    (h : index + remaining = cs.length) :
    replayRecords eventsSize below journal mapping remaining index engine result =
      replayCommands eventsSize ((cs.drop index).filter fun c => ¬c.sequence < below) engine result := by
  induction remaining generalizing index engine result with
  | zero =>
    rw [replayRecords, List.drop_of_length_le (by omega)]
    rfl
  | succ remaining ih =>
    have hlt : index < cs.length := by omega
    rw [replayRecords, replayRecord, hread index hlt, List.drop_eq_getElem_cons hlt, List.filter_cons]
    by_cases hb : cs[index].sequence < below
    · simp only [hb, if_true, not_true_eq_false, decide_false, Bool.false_eq_true, if_false, pure_bind]
      exact ih (index + 1) (by omega)
    · simp only [hb, if_false, not_false_eq_true, decide_true, if_true, replayCommands]
      refine bind_congr fun x => ?_
      obtain ⟨outcome, engine'⟩ := x
      cases outcome with
      | error e => rfl
      | ok result' => exact ih (index + 1) (by omega)

/-- The records of segments that read lists of commands. -/
theorem replaySegments_eq {segments : List Segment} {css : List (List SequencedCommand)} (h : List.Forall₂ Segment.Reads segments css) :
    replaySegments eventsSize below segments engine result =
      replayCommands eventsSize (css.flatten.filter fun c => ¬c.sequence < below) engine result := by
  induction h generalizing engine result with
  | nil => rfl
  | cons hs hrest ih =>
    obtain ⟨hsize, hread⟩ := hs
    rw [replaySegments, List.flatten_cons, List.filter_append, replayCommands_append,
      replayRecords_eq hread _ 0 (by omega), List.drop_zero]
    refine bind_congr fun x => ?_
    obtain ⟨outcome, engine'⟩ := x
    cases outcome with
    | error e => rfl
    | ok result' => exact ih

end

/-- The commands whose numbers are consecutive, from one number on. -/
theorem filter_sequence_eq_drop {cs : List SequencedCommand} {first : Nat} (h : (cs.map fun c => c.sequence.toNat) = List.range' first cs.length)
    (below : UInt64) (hle : first ≤ below.toNat) : (cs.filter fun c => ¬c.sequence < below) = cs.drop (below.toNat - first) := by
  induction cs generalizing first with
  | nil => simp
  | cons c cs ih =>
    rw [List.map_cons, List.length_cons, List.range'_succ, List.cons.injEq] at h
    rw [List.filter_cons]
    by_cases hlt : c.sequence < below
    · have hlt' : first < below.toNat := by
        rw [UInt64.lt_iff_toNat_lt, h.1] at hlt
        exact hlt
      rw [show below.toNat - first = (below.toNat - (first + 1)) + 1 by omega, List.drop_succ_cons]
      simp only [hlt, not_true_eq_false, decide_false, Bool.false_eq_true, if_false]
      exact ih h.2 hlt'
    · have heq : below.toNat - first = 0 := by
        rw [UInt64.lt_iff_toNat_lt, h.1] at hlt
        omega
      rw [heq, List.drop_zero]
      simp only [hlt, not_false_eq_true, decide_true, if_true, List.cons.injEq, true_and]
      refine List.filter_eq_self.mpr fun d hd => ?_
      have hmem : d.sequence.toNat ∈ List.range' (first + 1) cs.length := by
        rw [← h.2]
        exact List.mem_map_of_mem hd
      have hge := (List.mem_range'_1.mp hmem).1
      rw [decide_eq_true_iff, UInt64.lt_iff_toNat_lt]
      rw [UInt64.lt_iff_toNat_lt, h.1] at hlt
      omega

/-! ## The snapshot's point -/

/-- The point of a snapshot in a history of commands from the number `first` on: the engine stands there, the history reaches it, the
command at it has its time, and the span of events is large enough. -/
structure PointOf (first : Nat) (cs : List SequencedCommand) (engine : SequencedEngine) (snapshot time : UInt64) (eventsSize : Nat) :
    Prop where
  not_terminal : snapshot ≠ uint64Max
  not_exhausted : engine.sequenceExhausted = false
  sequence : engine.nextSequence = snapshot + 1
  lastTime : engine.lastLogicalTime = time
  zero : snapshot = 0 → time = 0
  first_le : first ≤ snapshot.toNat + 1
  le_end : snapshot.toNat + 1 ≤ first + cs.length
  end_lt : first + cs.length < 2 ^ 64
  boundary : ∀ c, cs[snapshot.toNat - first]? = some c → first ≤ snapshot.toNat → c.logicalTime = time
  capacity : engine.maximumEventCapacity ≤ eventsSize

section

variable {engine : SequencedEngine} {snapshot time : UInt64} {eventsSize : Nat}

theorem journalStateError_eq_none_iff : journalStateError engine snapshot time = none ↔
    snapshot ≠ uint64Max ∧ engine.sequenceExhausted = false ∧ engine.nextSequence = snapshot + 1 ∧ engine.lastLogicalTime = time ∧
      (snapshot = 0 → time = 0) := by
  unfold journalStateError
  simp only
  split
  · rename_i h
    split
    · exact ⟨nofun, fun h' => absurd h (by simp [h'.1, h'.2.1])⟩
    · exact ⟨nofun, fun h' => absurd h (by simp [h'.1, h'.2.1])⟩
  · rename_i h
    obtain ⟨h1, h2⟩ := not_or.mp h
    split
    · rename_i h'
      refine ⟨nofun, fun h'' => absurd h' ?_⟩
      simp only [h''.2.2.1, h''.2.2.2.1, ne_eq, not_true_eq_false, or_false, not_and, not_not]
      exact h''.2.2.2.2
    · rename_i h'
      obtain ⟨h3, h4⟩ := not_or.mp h'
      obtain ⟨h4, h5⟩ := not_or.mp h4
      refine ⟨fun _ => ⟨h1, by simpa using h2, not_not.mp h4, not_not.mp h5, fun h0 => ?_⟩, fun _ => rfl⟩
      by_contra ht
      exact h3 ⟨h0, ht⟩

theorem segmentsStateError_eq_none_iff {segments : List Segment} : segmentsStateError segments engine snapshot time = none ↔
    snapshot ≠ uint64Max ∧ engine.sequenceExhausted = false ∧ engine.nextSequence = snapshot + 1 ∧ engine.lastLogicalTime = time ∧
      (snapshot = 0 → time = 0) ∧ segments ≠ [] := by
  unfold segmentsStateError
  split
  · rename_i h
    exact ⟨nofun, fun h' => absurd h (by simp [h'.1, h'.2.1])⟩
  · rename_i h
    obtain ⟨h1, h2⟩ := not_or.mp h
    split
    · rename_i h'
      refine ⟨nofun, fun h'' => absurd h' ?_⟩
      simp only [h''.2.2.1, h''.2.2.2.1, ne_eq, not_true_eq_false, List.length_eq_zero_iff, h''.2.2.2.2.2, or_false, not_and,
        not_not]
      exact h''.2.2.2.2.1
    · rename_i h'
      obtain ⟨h3, h4⟩ := not_or.mp h'
      obtain ⟨h4, h5⟩ := not_or.mp h4
      obtain ⟨h5, h6⟩ := not_or.mp h5
      refine ⟨fun _ => ⟨h1, by simpa using h2, not_not.mp h4, not_not.mp h5, fun h0 => ?_, fun he => h6 (by rw [he]; rfl)⟩,
        fun _ => rfl⟩
      by_contra ht
      exact h3 ⟨h0, ht⟩

end

section

variable {engine : SequencedEngine} {snapshot time : UInt64} {eventsSize : Nat} {one : Archived} {v : Buffer}

theorem Archived.read_eq (hone : one.Valid) (hv : Shows one.capacity one.base one.commands v) (pid : Nat) {i : Nat}
    (hi : i < one.commands.length) : (one.journal pid).read v i = .ok one.commands[i] := by
  have hsize : ¬(one.journal pid).size ≤ i := Nat.not_le.mpr hi
  rw [MmapJournal.read, if_neg (by rintro ⟨⟩), if_neg hsize, hv.decodeRecord_eq hone.chain hi]

theorem Archived.Valid.toNat_sequence (hone : one.Valid) {i : Nat} (hi : i < one.commands.length) :
    one.commands[i].sequence.toNat = one.base.toNat + i := by
  have h := congrArg (fun l => l[i]?) hone.sequences
  simpa [hi] using h

theorem Archived.toNat_nextSequence_of_lt (hone : one.Valid) (h : one.next < 2 ^ 64) (pid : Nat) :
    (one.journal pid).nextSequence.toNat = one.next := by
  rw [Archived.toNat_nextSequence hone, Nat.mod_eq_of_lt h]

/-- The first record after the point: the journal reaches it. -/
theorem journalSuffixError_eq_none_iff (hone : one.Valid) (hv : Shows one.capacity one.base one.commands v) (pid : Nat)
    (hs : snapshot ≠ uint64Max) (he : engine.nextSequence = snapshot + 1) (hb : one.base.toNat ≤ snapshot.toNat + 1) :
    journalSuffixError (one.journal pid) v engine snapshot = none ↔ one.next < 2 ^ 64 ∧ snapshot.toNat + 1 ≤ one.next := by
  have hsucc := toNat_succ_of_ne_max hs
  have hnext := Archived.toNat_nextSequence hone pid
  have hle := hone.next_le
  have hbase : (one.journal pid).baseSequence = one.base := rfl
  have hsize : (one.journal pid).size = one.commands.length := rfl
  unfold journalSuffixError
  simp only [hbase, hsize, UInt64.lt_iff_toNat_lt, hsucc, hnext]
  split
  · refine ⟨nofun, fun h => ?_⟩
    rw [Nat.mod_eq_of_lt h.1] at *
    omega
  · rename_i hr
    obtain ⟨-, hr⟩ := not_or.mp hr
    have hlt : one.next < 2 ^ 64 := by
      by_contra hge
      rw [Nat.le_antisymm hle (Nat.not_lt.mp hge), Nat.mod_self] at hr
      omega
    rw [Nat.mod_eq_of_lt hlt] at hr
    have hsub : (snapshot + 1 - one.base).toNat = snapshot.toNat + 1 - one.base.toNat := by
      rw [UInt64.toNat_sub_of_le _ _ (by rw [UInt64.le_iff_toNat_le, hsucc]; exact hb), hsucc]
    refine ⟨fun _ => ⟨hlt, Nat.not_lt.mp hr⟩, fun _ => ?_⟩
    rw [hsub]
    split
    · rename_i hi
      rw [Archived.read_eq hone hv pid hi]
      refine if_neg (not_not.mpr (UInt64.toNat_inj.mp ?_))
      rw [hone.toNat_sequence hi, he, hsucc]
      omega
    · rfl

/-- The record at the point has its time, if the journal has one. -/
theorem journalBoundaryError_eq_none_iff (hone : one.Valid) (hv : Shows one.capacity one.base one.commands v) (pid : Nat)
    (hs : snapshot ≠ uint64Max) (hb : one.base.toNat ≤ snapshot.toNat + 1) (hlt : one.next < 2 ^ 64)
    (hle : snapshot.toNat + 1 ≤ one.next) :
    journalBoundaryError (one.journal pid) v snapshot time = none ↔
      ∀ c, one.commands[snapshot.toNat - one.base.toNat]? = some c → one.base.toNat ≤ snapshot.toNat → c.logicalTime = time := by
  have hsucc := toNat_succ_of_ne_max hs
  have hnext := Archived.toNat_nextSequence_of_lt hone hlt pid
  have hbase : (one.journal pid).baseSequence = one.base := rfl
  have hbase0 : one.base.toNat ≠ 0 := fun h => hone.base_ne_zero (UInt64.toNat_inj.mp h)
  have hend : one.next = one.base.toNat + one.commands.length := rfl
  unfold journalBoundaryError
  simp only [hbase, UInt64.lt_iff_toNat_lt, UInt64.le_iff_toNat_le, hnext]
  split
  · split
    · rename_i hin
      have hi : snapshot.toNat - one.base.toNat < one.commands.length := by omega
      rw [UInt64.toNat_sub_of_le _ _ (by rw [UInt64.le_iff_toNat_le]; exact hin.1), Archived.read_eq hone hv pid hi,
        List.getElem?_eq_getElem hi]
      have hseq : one.commands[snapshot.toNat - one.base.toNat].sequence = snapshot := by
        refine UInt64.toNat_inj.mp ?_
        rw [hone.toNat_sequence hi]
        omega
      simp only [hseq, ne_eq, not_true_eq_false, if_false, Option.some.injEq]
      constructor
      · rintro h c rfl -
        by_contra ht
        rw [if_pos ht] at h
        cases h
      · intro h
        rw [if_neg (not_not.mpr (h _ rfl hin.1))]
    · rename_i hin
      have heq : one.base = snapshot + 1 := UInt64.toNat_inj.mp (by rw [hsucc]; omega)
      rw [if_neg (not_not.mpr heq)]
      refine ⟨fun _ c _ hc => ?_, fun _ => rfl⟩
      have := congrArg UInt64.toNat heq
      rw [hsucc] at this
      omega
  · rename_i h0
    have h0' : snapshot.toNat = 0 := by rw [not_not.mp h0]; rfl
    have heq : one.base = 1 := UInt64.toNat_inj.mp (by rw [UInt64.toNat_one]; omega)
    rw [if_neg (not_not.mpr heq)]
    refine ⟨fun _ c _ hc => ?_, fun _ => rfl⟩
    omega

/-- The checks of `replay_journal` are those of `PointOf`. -/
theorem journalError_eq_none_iff (hone : one.Valid) (hv : Shows one.capacity one.base one.commands v) (pid : Nat) :
    journalError (one.journal pid) v engine snapshot time eventsSize = none ↔
      PointOf one.base.toNat one.commands engine snapshot time eventsSize := by
  rw [journalError]
  simp only [Option.orElse_eq_orElse, Option.orElse_eq_or, Option.or_eq_none_iff, journalStateError_eq_none_iff, ite_eq_right_iff, reduceCtorEq, imp_false, Nat.not_lt]
  have hbase : (one.journal pid).baseSequence = one.base := rfl
  constructor
  · rintro ⟨⟨h1, h2, h3, h4, h5⟩, hb, hbound, hsuffix, hcap⟩
    rw [hbase, UInt64.lt_iff_toNat_lt, toNat_succ_of_ne_max h1, Nat.not_lt] at hb
    obtain ⟨hlt, hle⟩ := (journalSuffixError_eq_none_iff hone hv pid h1 h3 hb).mp hsuffix
    exact ⟨h1, h2, h3, h4, h5, hb, hle, hlt, (journalBoundaryError_eq_none_iff hone hv pid h1 hb hlt hle).mp hbound, hcap⟩
  · rintro ⟨h1, h2, h3, h4, h5, hb, hle, hlt, hbound, hcap⟩
    refine ⟨⟨h1, h2, h3, h4, h5⟩, ?_, (journalBoundaryError_eq_none_iff hone hv pid h1 hb hlt hle).mpr hbound,
      (journalSuffixError_eq_none_iff hone hv pid h1 h3 hb).mpr ⟨hlt, hle⟩, hcap⟩
    rw [hbase, UInt64.lt_iff_toNat_lt, toNat_succ_of_ne_max h1, Nat.not_lt]
    exact hb

end

/-! ## Segments -/

section

variable {engine : SequencedEngine} {snapshot time : UInt64} {eventsSize : Nat} {stem : PathPrefix} {d : Directory}
  {segs : List Archived} {s : Archived}

/-- `read_sequence` on segments that follow one another. -/
theorem Holds.readSequence_eq (h : Holds stem d segs) (pid : Nat) {l : List Archived} (hsub : ∀ s ∈ l, s ∈ segs) (hl : Linked l)
    (hlt : ∀ s ∈ l, s.next < 2 ^ 64) (sequence : UInt64) (hle : ∀ s ∈ l.head?, s.base.toNat ≤ sequence.toNat) :
    readSequence sequence (l.map (Archived.opened stem d pid)) =
      match (l.head?.bind fun s => (l.flatMap Archived.commands)[sequence.toNat - s.base.toNat]?) with
      | some c => .ok c
      | none => .error .boundaryMissing := by
  induction l with
  | nil => rfl
  | cons s l ih =>
    have hs := hsub s List.mem_cons_self
    have hvalid := h.valid s hs
    obtain ⟨hhead, hrest⟩ := List.isChain_cons.mp hl
    have hnext : (s.opened stem d pid).journal.nextSequence.toNat = s.next :=
      Archived.toNat_nextSequence_of_lt hvalid (hlt s List.mem_cons_self) pid
    have hbase : (s.opened stem d pid).journal.baseSequence = s.base := rfl
    have hge : s.base.toNat ≤ sequence.toNat := hle s rfl
    simp only [List.map_cons, readSequence, hbase, UInt64.le_iff_toNat_le, UInt64.lt_iff_toNat_lt, hnext, List.head?_cons,
      Option.bind_some, List.flatMap_cons]
    by_cases hin : sequence.toNat < s.next
    · have hi : sequence.toNat - s.base.toNat < s.commands.length := by
        rw [Archived.next] at hin
        omega
      rw [if_pos ⟨hge, hin⟩, UInt64.toNat_sub_of_le _ _ (by rw [UInt64.le_iff_toNat_le]; exact hge), (h.reads hs pid).2 _ hi,
        List.getElem?_append_left hi, List.getElem?_eq_getElem hi]
      rfl
    · have hlen : s.commands.length ≤ sequence.toNat - s.base.toNat := by
        rw [Archived.next] at hin
        omega
      rw [if_neg fun hc => hin hc.2, ih (fun t ht => hsub t (List.mem_cons_of_mem _ ht)) hrest
        (fun t ht => hlt t (List.mem_cons_of_mem _ ht)) fun t ht => ?_, List.getElem?_append_right hlen]
      · cases l with
        | nil => simp
        | cons t l =>
          have ht : t.base.toNat = s.base.toNat + s.commands.length := (hhead t rfl).2
          simp only [List.head?_cons, Option.bind_some]
          rw [ht, Nat.sub_sub]
      · rw [(hhead t ht).2]
        exact Nat.not_lt.mp hin

/-- The checks of `replay_journal_segments` are those of `PointOf`. -/
theorem Holds.segmentsError_eq_none_iff (h : Holds stem d segs) (hl : Linked segs) (pid : Nat) (hs : s ∈ segs.head?) :
    segmentsError (segs.map (Archived.opened stem d pid)) engine snapshot time eventsSize = none ↔
      PointOf s.base.toNat (segs.flatMap Archived.commands) engine snapshot time eventsSize := by
  obtain ⟨rest, hrest⟩ : ∃ rest, segs = s :: rest := List.head?_eq_some_iff.mp hs
  obtain ⟨init, last, hlast⟩ := (List.eq_nil_or_concat' segs).resolve_left (by rw [hrest]; exact nofun)
  have hmem : last ∈ segs := by rw [hlast]; exact List.mem_append_right _ List.mem_cons_self
  have hsmem : s ∈ segs := by rw [hrest]; exact List.mem_cons_self
  have hend : last.next = s.base.toNat + (segs.flatMap Archived.commands).length := by
    rw [hlast] at hl hs ⊢
    refine hl.next_getLast fun t ht => ?_
    rw [Option.mem_unique ht hs]
  have hfirst? : (segs.map (Archived.opened stem d pid)).head? = some (s.opened stem d pid) := by rw [hrest]; rfl
  have hlast? : (segs.map (Archived.opened stem d pid)).getLast? = some (last.opened stem d pid) := by
    rw [hlast, List.map_append, List.map_singleton, List.getLast?_concat]
  have hbase0 : s.base.toNat ≠ 0 := fun h0 => (h.valid s hsmem).base_ne_zero (UInt64.toNat_inj.mp h0)
  have hne : segs.map (Archived.opened stem d pid) ≠ [] := by rw [hrest]; exact nofun
  have hbound : ∀ (hmax : snapshot ≠ uint64Max), s.base.toNat ≤ snapshot.toNat + 1 → last.next < 2 ^ 64 →
      snapshot.toNat + 1 ≤ last.next →
      (segmentsBoundaryError (segs.map (Archived.opened stem d pid)) snapshot time s.base = none ↔
        ∀ c, (segs.flatMap Archived.commands)[snapshot.toNat - s.base.toNat]? = some c → s.base.toNat ≤ snapshot.toNat →
          c.logicalTime = time) := by
    intro hmax hb hlt hle
    have hsucc := toNat_succ_of_ne_max hmax
    have hlts : ∀ t ∈ segs, t.next < 2 ^ 64 := fun t ht => by
      rw [hlast] at hl ht
      exact Nat.lt_of_le_of_lt (hl.next_le_last ht) hlt
    unfold segmentsBoundaryError
    split
    · rename_i h0
      have h0' : snapshot.toNat = 0 := by rw [h0]; rfl
      have heq : s.base = 1 := UInt64.toNat_inj.mp (by rw [UInt64.toNat_one]; omega)
      rw [if_neg (not_not.mpr heq)]
      exact ⟨fun _ c _ hc => by omega, fun _ => rfl⟩
    · by_cases heq : s.base = snapshot + 1
      · rw [if_neg (not_not.mpr heq)]
        refine ⟨fun _ c _ hc => ?_, fun _ => rfl⟩
        have := congrArg UInt64.toNat heq
        rw [hsucc] at this
        omega
      · have hge : s.base.toNat ≤ snapshot.toNat := by
          have : s.base.toNat ≠ snapshot.toNat + 1 := fun he => heq (UInt64.toNat_inj.mp (by rw [he, hsucc]))
          omega
        rw [if_pos heq, h.readSequence_eq pid (fun t ht => ht) hl hlts snapshot fun t ht => by rw [Option.mem_unique ht hs]; exact hge]
        rw [show segs.head? = some s from hs, Option.bind_some]
        have hi : snapshot.toNat - s.base.toNat < (segs.flatMap Archived.commands).length := by omega
        rw [List.getElem?_eq_getElem hi]
        simp only [Option.some.injEq]
        constructor
        · rintro hif c rfl -
          by_contra ht
          rw [if_pos ht] at hif
          cases hif
        · intro hc
          rw [if_neg (not_not.mpr (hc _ rfl hge))]
  rw [segmentsError, hfirst?, hlast?]
  simp only [segmentsRangeError, Option.orElse_eq_orElse, Option.orElse_eq_or, Option.or_eq_none_iff, segmentsStateError_eq_none_iff,
    ite_eq_right_iff, reduceCtorEq, imp_false, Nat.not_lt]
  have hbase : (s.opened stem d pid).journal.baseSequence = s.base := rfl
  have hnext : (last.opened stem d pid).journal.nextSequence.toNat = last.next % 2 ^ 64 :=
    Archived.toNat_nextSequence (h.valid last hmem) pid
  have hle64 := (h.valid last hmem).next_le
  rw [hbase]
  simp only [UInt64.lt_iff_toNat_lt, hnext]
  constructor
  · rintro ⟨⟨h1, h2, h3, h4, h5, -⟩, hb, hbnd, hrange, hcap⟩
    rw [toNat_succ_of_ne_max h1] at hb hrange
    obtain ⟨-, hrange⟩ := not_or.mp hrange
    have hlt : last.next < 2 ^ 64 := by
      by_contra hge
      rw [Nat.le_antisymm hle64 (Nat.not_lt.mp hge), Nat.mod_self] at hrange
      omega
    rw [Nat.mod_eq_of_lt hlt] at hrange
    exact ⟨h1, h2, h3, h4, h5, Nat.not_lt.mp hb, by omega, by omega,
      (hbound h1 (Nat.not_lt.mp hb) hlt (Nat.not_lt.mp hrange)).mp hbnd, hcap⟩
  · rintro ⟨h1, h2, h3, h4, h5, hb, hle, hlt, hbnd, hcap⟩
    rw [← hend] at hle hlt
    refine ⟨⟨h1, h2, h3, h4, h5, hne⟩, ?_, (hbound h1 hb hlt hle).mpr hbnd, ?_, hcap⟩
    · rw [toNat_succ_of_ne_max h1]
      omega
    · rw [toNat_succ_of_ne_max h1, Nat.mod_eq_of_lt hlt]
      omega

end

/-! ## What a replay comes to -/

section

variable {engine engine' : SequencedEngine} {snapshot time : UInt64} {eventsSize : Nat}

/-- A command that is replayed without an error leaves the engine waiting for the next number. -/
theorem replayCommand_ok {command : SequencedCommand} {result result' : ReplayResult}
    (h : (replayCommand eventsSize command engine result).Returns (.ok result', engine')) :
    command.sequence = engine.nextSequence ∧ engine'.nextSequence = (afterSequence engine.nextSequence).1 := by
  unfold replayCommand at h
  split at h
  · rw [Comp.returns_pure] at h
    cases h
  · rw [Comp.returns_bind] at h
    obtain ⟨⟨status, events, trades, engine''⟩, happly, h⟩ := h
    by_cases hs : status = .applied
    · subst hs
      have hseq := SequencedEngine.applied_sequence happly
      simp only [ne_eq, not_true_eq_false, if_false] at h
      split at h
      · rw [Comp.returns_pure] at h
        cases h
      · rw [Comp.returns_bind] at h
        obtain ⟨⟨checked, book⟩, -, h⟩ := h
        split at h
        · rw [Comp.returns_pure] at h
          cases h
        · rw [Comp.returns_pure] at h
          cases h
          exact hseq
    · simp only [ne_eq, hs, not_false_eq_true, if_true, Comp.returns_pure] at h
      cases h

/-- A command with the number the engine waits for fails to be replayed only in its application or in the check of the book. -/
theorem replayCommand_error {command : SequencedCommand} {result : ReplayResult} {error : ReplayError}
    (hseq : command.sequence = engine.nextSequence)
    (h : (replayCommand eventsSize command engine result).Returns (.error error, engine')) : error = .apply ∨ error = .invariant := by
  unfold replayCommand at h
  rw [if_neg (not_not.mpr hseq), Comp.returns_bind] at h
  obtain ⟨⟨status, events, trades, engine''⟩, happly, h⟩ := h
  simp only at h
  split at h
  · rw [Comp.returns_pure] at h
    cases h
    exact Or.inl rfl
  · split at h
    · rw [Comp.returns_pure] at h
      cases h
      exact Or.inl rfl
    · rw [Comp.returns_bind] at h
      obtain ⟨⟨checked, book⟩, -, h⟩ := h
      split at h
      · rw [Comp.returns_pure] at h
        cases h
        exact Or.inr rfl
      · rw [Comp.returns_pure] at h
        cases h

/-- Commands with consecutive numbers, from the one the engine waits for, fail only so. A command that others follow does not have the last
number there is. -/
theorem replayCommands_error {cs : List SequencedCommand} {result : ReplayResult} {error : ReplayError}
    (hseq : (cs.map fun c => c.sequence.toNat) = List.range' engine.nextSequence.toNat cs.length)
    (h : (replayCommands eventsSize cs engine result).Returns (.error error, engine')) : error = .apply ∨ error = .invariant := by
  induction cs generalizing engine result with
  | nil =>
    rw [replayCommands, Comp.returns_pure] at h
    cases h
  | cons c cs ih =>
    rw [List.map_cons, List.length_cons, List.range'_succ, List.cons.injEq] at hseq
    have hc : c.sequence = engine.nextSequence := UInt64.toNat_inj.mp hseq.1
    rw [replayCommands, Comp.returns_bind] at h
    obtain ⟨⟨outcome, engine''⟩, hstep, h⟩ := h
    cases outcome with
    | error e =>
      simp only [Comp.returns_pure] at h
      cases h
      exact replayCommand_error hc hstep
    | ok result' =>
      simp only at h
      cases cs with
      | nil =>
        rw [replayCommands, Comp.returns_pure] at h
        cases h
      | cons c' cs =>
        refine ih ?_ h
        have hnext : engine''.nextSequence.toNat = engine.nextSequence.toNat + 1 := by
          have hc' : c'.sequence.toNat = engine.nextSequence.toNat + 1 := by
            rw [List.map_cons, List.length_cons, List.range'_succ, List.cons.injEq] at hseq
            exact hseq.2.1
          have hlt := c'.sequence.toNat_lt
          have hne : engine.nextSequence ≠ uint64Max := by
            intro he
            have : uint64Max.toNat = 2 ^ 64 - 1 := by decide
            rw [he] at hc'
            omega
          rw [(replayCommand_ok hstep).2, afterSequence, if_neg hne]
          exact toNat_succ_of_ne_max hne
        rw [hnext]
        exact hseq.2

/-- What a replay over a history from `first` on does: it fails before its loop and leaves the engine, or it replays the commands
after the snapshot's point. -/
def ReplaysFrom (first : Nat) (cs : List SequencedCommand) (engine : SequencedEngine) (snapshot time : UInt64) (eventsSize : Nat)
    (c : Comp Replayed) : Prop :=
  (PointOf first cs engine snapshot time eventsSize ∧
    c = replayCommands eventsSize (cs.drop (snapshot.toNat + 1 - first)) engine .initial) ∨
  (¬PointOf first cs engine snapshot time eventsSize ∧ ∃ error, c = pure (.error error, engine))

/-- At the point of the snapshot, it replays the commands after it. -/
theorem ReplaysFrom.eq {first : Nat} {cs : List SequencedCommand} {c : Comp Replayed}
    (h : ReplaysFrom first cs engine snapshot time eventsSize c) (hp : PointOf first cs engine snapshot time eventsSize) :
    c = replayCommands eventsSize (cs.drop (snapshot.toNat + 1 - first)) engine .initial := by
  rcases h with ⟨-, he⟩ | ⟨hnot, -⟩
  · exact he
  · exact absurd hp hnot

/-- `replay_journal` over a journal that shows its commands. -/
theorem replayJournal_replaysFrom {one : Archived} {v : Buffer} (hone : one.Valid)
    (hv : Shows one.capacity one.base one.commands v) (pid : Nat) :
    ReplaysFrom one.base.toNat one.commands engine snapshot time eventsSize
      (replayJournal (one.journal pid) v engine snapshot time eventsSize) := by
  unfold replayJournal
  by_cases hp : PointOf one.base.toNat one.commands engine snapshot time eventsSize
  · refine Or.inl ⟨hp, ?_⟩
    rw [(journalError_eq_none_iff hone hv pid).mpr hp]
    have hsub : (snapshot + 1 - (one.journal pid).baseSequence).toNat = snapshot.toNat + 1 - one.base.toNat := by
      have hsucc := toNat_succ_of_ne_max hp.not_terminal
      rw [UInt64.toNat_sub_of_le _ _ (by rw [UInt64.le_iff_toNat_le, hsucc]; exact hp.first_le), hsucc]
      rfl
    have hle := hp.le_end
    have hsize : (one.journal pid).size = one.commands.length := rfl
    simp only [hsub, hsize]
    rw [replayRecords_eq (fun i hi => Archived.read_eq hone hv pid hi) _ _ (by omega),
      List.filter_eq_self.mpr fun c _ => decide_eq_true UInt64.not_lt_zero]
  · refine Or.inr ⟨hp, ?_⟩
    cases he : journalError (one.journal pid) v engine snapshot time eventsSize with
    | none => exact absurd ((journalError_eq_none_iff hone hv pid).mp he) hp
    | some error => exact ⟨error, rfl⟩

/-- `replay_journal_segments` over segments that follow one another. -/
theorem Holds.replaysFrom {stem : PathPrefix} {d : Directory} {segs : List Archived} {s : Archived} (h : Holds stem d segs)
    (hl : Linked segs) (pid : Nat) (hs : s ∈ segs.head?) :
    ReplaysFrom s.base.toNat (segs.flatMap Archived.commands) engine snapshot time eventsSize
      (replayJournalSegments (segs.map (Archived.opened stem d pid)) engine snapshot time eventsSize) := by
  unfold replayJournalSegments
  by_cases hp : PointOf s.base.toNat (segs.flatMap Archived.commands) engine snapshot time eventsSize
  · refine Or.inl ⟨hp, ?_⟩
    obtain ⟨first, hseq, hfirst⟩ := hl.sequences h.valid
    have hreads : List.Forall₂ Segment.Reads (segs.map (Archived.opened stem d pid)) (segs.map Archived.commands) := by
      rw [List.forall₂_map_left_iff, List.forall₂_map_right_iff, List.forall₂_same]
      exact fun s hs => h.reads hs pid
    rw [(h.segmentsError_eq_none_iff hl pid hs).mpr hp]
    simp only
    rw [replaySegments_eq hreads, ← List.flatMap_def]
    rw [← hfirst s hs] at hseq
    have hsucc := toNat_succ_of_ne_max hp.not_terminal
    rw [filter_sequence_eq_drop hseq _ (by rw [hsucc]; exact hp.first_le), hsucc]
  · refine Or.inr ⟨hp, ?_⟩
    cases he : segmentsError (segs.map (Archived.opened stem d pid)) engine snapshot time eventsSize with
    | none => exact absurd ((h.segmentsError_eq_none_iff hl pid hs).mp he) hp
    | some error => exact ⟨error, rfl⟩

/-- A replay over consecutive commands that fails, and not in the application of a command or in the check of the book, leaves the
engine. -/
theorem ReplaysFrom.error {first : Nat} {cs : List SequencedCommand} {c : Comp Replayed} {error : ReplayError}
    (h : ReplaysFrom first cs engine snapshot time eventsSize c)
    (hseq : (cs.map fun c => c.sequence.toNat) = List.range' first cs.length) (hr : c.Returns (.error error, engine'))
    (he : (error ≠ .apply ∧ error ≠ .invariant) ∨ eventsSize < engine.maximumEventCapacity) : engine' = engine := by
  rcases h with ⟨hp, rfl⟩ | ⟨-, error', rfl⟩
  · rcases he with ⟨hne, hne'⟩ | hlt
    · refine absurd (replayCommands_error ?_ hr) (by simp [hne, hne'])
      have hle := hp.first_le
      have hsucc := toNat_succ_of_ne_max hp.not_terminal
      rw [List.map_drop, hseq, hp.sequence, hsucc, List.drop_range', List.length_drop]
      congr 1
      omega
    · exact absurd hp.capacity (Nat.not_le.mpr hlt)
  · rw [Comp.returns_pure, Prod.mk.injEq] at hr
    exact hr.2.symm

end

end MatchingEngine

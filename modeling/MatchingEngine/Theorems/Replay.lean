import MatchingEngine.Lemmas.Replay
import MatchingEngine.Lemmas.Rotation

/-!
# Replay of segments and of one journal

Over every history of commands and every way it is cut into segments: replaying the segments and replaying one journal with the same
commands succeed together, with the same result and the same engine, and a replay that fails outside its loop leaves the engine.
-/

namespace MatchingEngine

section

variable {stem : PathPrefix} {d : Directory} {segs : List Archived} {segments : List Segment} {one : Archived} {v : Buffer}
  {journal : MmapJournal} {pid pid' : Nat} {listing : List Path}

/-- For every chain of segments that opens, every journal with the same commands, every engine, every snapshot's point and every span
of events: the replay of the segments succeeds exactly when that of the journal does, with the same result and engine. A replay that
fails otherwise than in applying a command or in checking the book leaves the engine, and so does one that is refused because its span
of events is too small. -/
theorem replay_segments_agree (held : Holds stem d segs) (listed : d.Lists listing)
    (opened : JournalSegmentSet.openAll pid stem listing d = .ok segments) (valid : one.Valid)
    (shown : Shows one.capacity one.base one.commands v) (openedOne : MmapJournal.openFile pid' v one.fileSize = .ok journal)
    (same : one.commands = segs.flatMap Archived.commands) (base : ∀ s ∈ segs.head?, s.base = one.base) (engine : SequencedEngine)
    (snapshot time : UInt64) (eventsSize : Nat) :
    (∀ result engine', (replayJournalSegments segments engine snapshot time eventsSize).Returns (.ok result, engine') ↔
      (replayJournal journal v engine snapshot time eventsSize).Returns (.ok result, engine')) ∧
    ∀ error engine', ((error ≠ .apply ∧ error ≠ .invariant) ∨ eventsSize < engine.maximumEventCapacity) →
      ((replayJournalSegments segments engine snapshot time eventsSize).Returns (.error error, engine') → engine' = engine) ∧
      ((replayJournal journal v engine snapshot time eventsSize).Returns (.error error, engine') → engine' = engine) := by
  have hn : stem.Named := by
    by_contra hn
    rw [openAll_of_not_named hn] at opened
    cases opened
  obtain ⟨hne, hlinked, rfl⟩ := (held.openAll_eq_ok_iff hn pid listed segments).mp opened
  have hjournal : journal = one.journal pid' := (Except.ok.inj ((shown.openFile_eq valid.chain valid.created pid').symm.trans openedOne)).symm
  obtain ⟨s, hs⟩ : ∃ s, s ∈ segs.head? := ⟨segs.head hne, List.head?_eq_some_head hne⟩
  have hseq := valid.sequences
  have hone : ReplaysFrom one.base.toNat one.commands engine snapshot time eventsSize (replayJournal journal v engine snapshot time eventsSize) :=
    hjournal ▸ replayJournal_replaysFrom valid shown pid'
  have hsegs : ReplaysFrom one.base.toNat one.commands engine snapshot time eventsSize
      (replayJournalSegments (segs.map (Archived.opened stem d pid)) engine snapshot time eventsSize) := by
    rw [same, ← base s hs]
    exact held.replaysFrom hlinked pid hs
  refine ⟨fun result engine' => ?_, fun error engine' he => ⟨fun hr => hsegs.error hseq hr he, fun hr => hone.error hseq hr he⟩⟩
  rcases hone with ⟨hp, he⟩ | ⟨hp, error, he⟩
  · rcases hsegs with ⟨-, he'⟩ | ⟨hp', -⟩
    · rw [he, he']
    · exact absurd hp hp'
  · rcases hsegs with ⟨hp', -⟩ | ⟨-, error', he'⟩
    · exact absurd hp' hp
    · rw [he, he', Comp.returns_pure, Comp.returns_pure]
      exact ⟨nofun, nofun⟩

end

/-- A market order of five, as the command number 1. -/
def firstCommand : SequencedCommand := ⟨⟨2, 0, 0, 0, 1, 0, 5, 0, 0⟩, 1, 10⟩

/-- It is a history of a journal. -/
theorem firstCommand_chain {capacity : Nat} (h : 0 < capacity) : Chain capacity 1 [firstCommand] :=
  (Chain.nil capacity 1).snoc h (by decide) rfl (by decide)

/-- A sell order of five at 102. -/
def sellFive : SequencedCommand := ⟨.submitLimit 1 1 102 5 0, 1, 10⟩

/-- A market order that buys three of them. -/
def buyThree : SequencedCommand := ⟨.submitMarket 2 0 3, 2, 12⟩

/-- A buy order of four at 101. -/
def bidFour : SequencedCommand := ⟨.submitLimit 3 0 101 4 0, 3, 14⟩

/-- Three commands in a full segment and one behind it, and in a journal of four records: from an engine that has applied the first, both
replays apply the other two and agree. -/
theorem replay_segments_agree_split_history : ∃ d segments journal v fresh events trades engine fingerprint engine',
    JournalSegmentSet.openAll 1 ⟨[], ['j']⟩ [segmentName ⟨[], ['j']⟩ 1, segmentName ⟨[], ['j']⟩ 3] d = .ok segments ∧
    segments.map (fun s => s.journal.size) = [2, 1] ∧ MmapJournal.openFile 1 v 384 = .ok journal ∧ journal.size = 3 ∧
    SequencedEngine.create (BookConfig.small 2 (by decide) .none) 1 0 .continuous = some fresh ∧
    (fresh.apply sellFive 5).Returns (.applied, events, trades, engine) ∧
    (replayJournal journal v engine 1 10 5).Returns (.ok ⟨2, 2, 3, fingerprint⟩, engine') ∧
    (replayJournalSegments segments engine 1 10 5).Returns (.ok ⟨2, 2, 3, fingerprint⟩, engine') := by
  have hsome : ((SequencedEngine.create (BookConfig.small 2 (by decide) .none) 1 0 .continuous).bind fun fresh =>
      ((fresh.apply sellFive 5).run 30).bind fun live =>
        ((replayCommands 5 [buyThree, bidFour] live.2.2.2 .initial).run 300).map fun replayed => (fresh, live, replayed)).any
      (fun r => r.2.1.1 = .applied ∧
        (r.2.2.1.map fun result => (result.commandsApplied, result.firstSequence, result.lastSequence)) = .ok (2, 2, 3) ∧
        r.2.1.2.2.2.sequenceExhausted = false ∧ r.2.1.2.2.2.nextSequence = 2 ∧ r.2.1.2.2.2.lastLogicalTime = 10 ∧
        r.2.1.2.2.2.maximumEventCapacity ≤ 5) = true := by
    decide +kernel
  rw [Option.any_eq_true] at hsome
  obtain ⟨⟨fresh, ⟨status, events, trades, engine⟩, outcome, engine'⟩, hrun, hstatus⟩ := hsome
  obtain ⟨fresh', hcreate, hrun⟩ := Option.bind_eq_some_iff.mp hrun
  obtain ⟨live, hlive, hrun⟩ := Option.bind_eq_some_iff.mp hrun
  obtain ⟨replayed, hreplayed, hpair⟩ := Option.map_eq_some_iff.mp hrun
  cases hpair
  obtain ⟨happlied, houtcome, hfresh, hnext, htime, hspan⟩ := of_decide_eq_true hstatus
  obtain rfl : status = .applied := happlied
  have hfirst : Chain 2 1 [sellFive, buyThree] :=
    ((Chain.nil 2 1).snoc (by decide) (by decide) rfl (by decide)).snoc (by decide) (by decide) rfl (by decide)
  have hsecond : Chain 2 3 [bidFour] := (Chain.nil 2 3).snoc (by decide) (by decide) rfl (by decide)
  have hall : Chain 4 1 [sellFive, buyThree, bidFour] :=
    (((Chain.nil 4 1).snoc (by decide) (by decide) rfl (by decide)).snoc (by decide) (by decide) rfl (by decide)).snoc (by decide)
      (by decide) rfl (by decide)
  have hvalid : ∀ s ∈ [⟨1, 2, [sellFive, buyThree]⟩, ⟨3, 2, [bidFour]⟩], Archived.Valid s := by
    intro s hs
    rw [List.mem_cons, List.mem_singleton] at hs
    rcases hs with rfl | rfl
    · exact ⟨by decide, hfirst⟩
    · exact ⟨by decide, hsecond⟩
  obtain ⟨d, hd, hl⟩ := exists_holds ⟨[], ['j']⟩ hvalid (by simp)
  have hlinked : Linked [⟨1, 2, [sellFive, buyThree]⟩, ⟨3, 2, [bidFour]⟩] := List.IsChain.cons_cons ⟨rfl, by decide⟩ (List.IsChain.singleton _)
  have hopen := (hd.openAll_eq_ok_iff ⟨by decide, by decide, by decide⟩ 1 hl _).mpr ⟨List.cons_ne_nil _ _, hlinked, rfl⟩
  obtain ⟨v, hv⟩ := hall.exists_shows
  have hone : Archived.Valid ⟨1, 4, [sellFive, buyThree, bidFour]⟩ := ⟨by decide, hall⟩
  have hopenOne := hv.openFile_eq hone.chain hone.created 1
  have hagree := (replay_segments_agree hd hl hopen hone hv hopenOne rfl (by rintro s ⟨⟩; rfl) engine 1 10 5).1
  obtain ⟨result, rfl, hresult⟩ : ∃ result, outcome = .ok result ∧ ∃ f, result = ⟨2, 2, 3, f⟩ := by
    cases outcome with
    | error e => cases houtcome
    | ok result =>
      obtain ⟨applied, first, last, f⟩ := result
      cases houtcome
      exact ⟨_, rfl, f, rfl⟩
  obtain ⟨f, rfl⟩ := hresult
  have hpoint : PointOf 1 [sellFive, buyThree, bidFour] engine 1 10 5 :=
    ⟨by decide, hfresh, hnext, htime, by decide, by decide, by decide, by decide, by rintro c ⟨⟩ _; rfl, hspan⟩
  have hreturns : (replayJournal (Archived.journal ⟨1, 4, [sellFive, buyThree, bidFour]⟩ 1) v engine 1 10 5).Returns
      (.ok ⟨2, 2, 3, f⟩, engine') := by
    rw [(replayJournal_replaysFrom hone hv 1).eq hpoint]
    exact ⟨300, hreplayed⟩
  exact ⟨d, _, _, v, fresh, events, trades, engine, f, engine', hopen, rfl, hopenOne, rfl, hcreate, ⟨30, hlive⟩, hreturns,
    (hagree _ _).mpr hreturns⟩

end MatchingEngine

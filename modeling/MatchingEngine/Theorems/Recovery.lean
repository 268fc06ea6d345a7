import MatchingEngine.Lemmas.Recovery
import MatchingEngine.Theorems.Journal
import MatchingEngine.Theorems.Replay

/-!
# Recovery

A journal that has accepted the commands of a live engine, and a state of that engine after any number of them: the replay of the
journal applies the commands that remain and ends in the live engine's state, with the fingerprint of its events.
-/

namespace MatchingEngine

open MmapJournal

section

variable {cfg : BookConfig} {state : TradingState} {live live' middle : SequencedEngine} {pid pid' capacity : Nat} {base : UInt64}
  {cs : List SequencedCommand} {eventss : List (List EngineEvent)} {j : MmapJournal} {m : Mapped} {image : Buffer}
  {size eventsSize k : Nat}

theorem AppendRun.createError {a : Account} (h : AppendRun pid capacity base a j m) : MmapJournal.createError capacity base = .none := by
  induction h with
  | create checked => exact checked
  | append _ _ ih => exact ih

/-- The point after the first `k` commands. -/
theorem pointOf_middle (valid : Archived.Valid ⟨base, capacity, cs⟩) (reached : live.Reached cfg state) (next : live.nextSequence = base)
    (fresh : live.sequenceExhausted = false) (zero : base = 1 → live.lastLogicalTime = 0) (below : ∀ c ∈ cs, c.sequence ≠ uint64Max)
    (first : Applies size live (cs.take k) (eventss.take k) middle) (hk : k ≤ cs.length) (span : live.maximumEventCapacity ≤ eventsSize) :
    (base + UInt64.ofNat k - 1).toNat + 1 = base.toNat + k ∧
      PointOf base.toNat cs middle (base + UInt64.ofNat k - 1) middle.lastLogicalTime eventsSize := by
  obtain ⟨hreached, hcapacity, hexhausted, hnext, htime⟩ := first.numbers reached fresh fun c hc => below c (List.mem_of_mem_take hc)
  rw [List.length_take_of_le hk, next] at hnext
  have hbase : 0 < base.toNat := Nat.pos_of_ne_zero fun h => valid.base_ne_zero (UInt64.toNat_inj.mp h)
  have hend : base.toNat + cs.length < 2 ^ 64 := by
    rcases List.eq_nil_or_concat' cs with rfl | ⟨init, last, rfl⟩
    · exact base.toNat_lt
    · have hlast := below last (List.mem_append_right _ List.mem_cons_self)
      have hseq := valid.toNat_sequence (i := init.length) (by simp)
      have hlt := last.sequence.toNat_lt
      have hne : last.sequence.toNat ≠ 2 ^ 64 - 1 := fun h => hlast (UInt64.toNat_inj.mp (h.trans (by decide)))
      simp only [List.getElem_concat_length] at hseq
      rw [List.length_append, List.length_singleton]
      omega
  have hadd : (base + UInt64.ofNat k).toNat = base.toNat + k := by
    rw [UInt64.toNat_add, UInt64.toNat_ofNat_of_lt' (Nat.lt_of_le_of_lt (Nat.le_trans hk (Nat.le_add_left _ _)) hend),
      Nat.mod_eq_of_lt (by omega)]
  have hpoint : (base + UInt64.ofNat k - 1).toNat + 1 = base.toNat + k := by
    rw [UInt64.toNat_sub_of_le _ _ (by rw [UInt64.le_iff_toNat_le, hadd, UInt64.toNat_one]; omega), hadd, UInt64.toNat_one]
    omega
  refine ⟨hpoint, ⟨?_, hexhausted, ?_, rfl, ?_, by omega, by omega, hend, ?_, ?_⟩⟩
  · intro h
    rw [h, show uint64Max.toNat = 2 ^ 64 - 1 from rfl] at hpoint
    omega
  · rw [hnext, UInt64.sub_add_cancel]
  · intro h
    rw [h, UInt64.toNat_zero] at hpoint
    have hk0 : k = 0 := by omega
    rw [htime, hk0, List.take_zero]
    exact zero (UInt64.toNat_inj.mp (by rw [UInt64.toNat_one]; omega))
  · intro c hc hle
    have hkpos : 0 < k := by omega
    rw [show (base + UInt64.ofNat k - 1).toNat - base.toNat = k - 1 by omega] at hc
    rw [htime, List.getLast?_take, if_neg (by omega), hc]
    rfl
  · rw [SequencedEngine.maximumEventCapacity, hcapacity]
    exact span

/-- For every base, every list of commands below the last number that a journal with this base has accepted and that a live FIFO engine
waiting for the base has applied, and every number `k` of them: the journal opens on whatever a crash leaves of its file, and from an
engine in the state of the live one after `k` commands the replay at that point applies the other commands and ends in the live engine's
state, with the number of commands, their first and last sequence number and the fingerprint of the live events after `k`. -/
theorem recovery_complete (fifo : cfg.allocationMode = .fifo) (reached : live.Reached cfg state) (next : live.nextSequence = base)
    (fresh : live.sequenceExhausted = false) (zero : base = 1 → live.lastLogicalTime = 0)
    (accepted : AppendRun pid capacity base ⟨cs, none⟩ j m) (survives : m.Survives (commitMarkers capacity) image)
    (below : ∀ c ∈ cs, c.sequence ≠ uint64Max) (applied : Applies size live cs eventss live') (hk : k ≤ cs.length)
    (span : live.maximumEventCapacity ≤ eventsSize) (pid' : Nat) :
    ∃ journal middle, MmapJournal.openFile pid' image (kJournalHeaderSize + capacity * kJournalRecordSize) = .ok journal ∧
      Applies size live (cs.take k) (eventss.take k) middle ∧
      ∀ engine : SequencedEngine, engine.SameState middle → ∃ fingerprint engine',
        ReplayFingerprint.initial.addAll (eventss.drop k).flatten = some fingerprint ∧ engine'.SameState live' ∧
        (replayJournal journal image engine (base + UInt64.ofNat k - 1) middle.lastLogicalTime eventsSize).Returns
          (.ok ⟨UInt64.ofNat (cs.length - k), ((cs.drop k).head?.map SequencedCommand.sequence).getD 0,
            ((cs.drop k).getLast?.map SequencedCommand.sequence).getD 0, fingerprint⟩, engine') := by
  have hwritten := AppendRun.written accepted
  have hchain : Chain capacity base cs := by
    have := hwritten.chain
    rwa [Option.toList_none, List.append_nil] at this
  have hvalid : Archived.Valid ⟨base, capacity, cs⟩ := ⟨AppendRun.createError accepted, hchain⟩
  have hshows : Shows capacity base cs image := (hwritten.stored.crash survives).resolve_right (by simp)
  obtain ⟨middle, hfirst, hrest⟩ := applied.split k
  obtain ⟨hpoint, hp⟩ := pointOf_middle hvalid reached next fresh zero below hfirst hk span
  obtain ⟨hreached, hcapacity, -⟩ := hfirst.numbers reached fresh fun c hc => below c (List.mem_of_mem_take hc)
  refine ⟨_, middle, hshows.openFile_eq hchain (AppendRun.createError accepted) pid', hfirst, ?_⟩
  rintro engine ⟨marks, epoch, hmarks, rfl⟩
  have hp' : PointOf base.toNat cs (middle.withMarks marks epoch) (base + UInt64.ofNat k - 1) middle.lastLogicalTime eventsSize :=
    ⟨hp.not_terminal, hp.not_exhausted, hp.sequence, hp.lastTime, hp.zero, hp.first_le, hp.le_end, hp.end_lt, hp.boundary, hp.capacity⟩
  have hcfg : ∀ {e : SequencedEngine}, e.Reached cfg state → e.orderBook.cfg = cfg := fun he =>
    let ⟨_, hrepr, _⟩ := he.repr fifo
    hrepr.cfg_eq
  rw [hcfg hreached] at hmarks
  obtain ⟨f, marks', epoch', hf, hmarks', hreturns⟩ := hrest.replay hreached fifo hp.capacity hmarks .initial
  have hreached' := (applied.numbers reached fresh below).1
  refine ⟨f, _, hf, ⟨marks', epoch', by rw [hcfg hreached']; exact hmarks', rfl⟩, ?_⟩
  have hreplay := (replayJournal_replaysFrom hvalid hshows pid').eq hp'
  have hlength : (cs.drop k).length < 2 ^ 64 := by
    have := hp.end_lt
    rw [List.length_drop]
    omega
  rw [ReplayResult.after_initial hlength, List.length_drop] at hreturns
  rw [show (base + UInt64.ofNat k - 1).toNat + 1 - base.toNat = k by omega] at hreplay
  exact hreplay ▸ hreturns

/-- A reachable engine is in its own state. -/
theorem SequencedEngine.Reached.sameState (h : live.Reached cfg state) (fifo : cfg.allocationMode = .fifo) : live.SameState live := by
  obtain ⟨L, hrepr, -⟩ := h.repr fifo
  exact ⟨_, _, by rw [hrepr.cfg_eq]; exact hrepr.marks, rfl⟩

/-- A live engine applies commands, each within `fuel`: the events of each, and the engine after all. -/
def SequencedEngine.applyAll (fuel eventsSize : Nat) : List SequencedCommand → SequencedEngine → Option (List (List EngineEvent) × SequencedEngine)
  | [], engine => some ([], engine)
  | command :: commands, engine =>
    match (engine.apply command eventsSize).run fuel with
    | some (.applied, events, trades, engine') =>
      if trades.length ≤ engine.tradeCapacity then (applyAll fuel eventsSize commands engine').map fun r => (events :: r.1, r.2) else none
    | _ => none

/-- What it gives is what the engine does. -/
theorem applies_of_applyAll {fuel : Nat} (h : live.applyAll fuel size cs = some (eventss, live')) : Applies size live cs eventss live' := by
  induction cs generalizing live eventss with
  | nil =>
    cases h
    exact .nil
  | cons command commands ih =>
    rw [SequencedEngine.applyAll] at h
    split at h
    · rename_i events trades engine' happly
      split at h
      · rename_i hfits
        obtain ⟨⟨rest, final⟩, hrest, hpair⟩ := Option.map_eq_some_iff.mp h
        cases hpair
        exact .cons ⟨fuel, happly⟩ hfits (ih hrest)
      · cases h
    · cases h

/-- A journal accepts a command that it finds nothing wrong with, when every call succeeds. -/
theorem MmapJournal.AppendRun.accepts {c : SequencedCommand} (h : AppendRun pid capacity base ⟨cs, none⟩ j m)
    (hok : j.appendError pid c = .none) : AppendRun pid capacity base ⟨cs ++ [c], none⟩ { j with size := j.size + 1, lastLogicalTime := c.logicalTime }
      ((j.append pid c ⟨true, true⟩ ⟨true, true⟩).run m).final := by
  have happend := h.append ⟨pid, c, ⟨true, true⟩, ⟨true, true⟩⟩
  rw [AppendCall.on, (AppendRun.written h).accepts hok] at happend
  exact happend

end

/-- Three commands that a journal of four records has accepted and a new engine has applied: from the engine after the first of them,
the replay of the journal at that point applies the other two. -/
theorem recovery_complete_split_history : ∃ live middle live' eventss j m journal fingerprint engine',
    SequencedEngine.create (BookConfig.small 2 (by decide) .none) 1 0 .continuous = some live ∧
    Applies 5 live [sellFive, buyThree, bidFour] eventss live' ∧ Applies 5 live [sellFive] (eventss.take 1) middle ∧
    AppendRun 1 4 1 ⟨[sellFive, buyThree, bidFour], none⟩ j m ∧ MmapJournal.openFile 2 m.now 384 = .ok journal ∧
    ReplayFingerprint.initial.addAll (eventss.drop 1).flatten = some fingerprint ∧ engine'.SameState live' ∧
    (replayJournal journal m.now middle 1 10 5).Returns (.ok ⟨2, 2, 3, fingerprint⟩, engine') := by
  have hsome : ((SequencedEngine.create (BookConfig.small 2 (by decide) .none) 1 0 .continuous).bind fun live =>
      (live.applyAll 30 5 [sellFive, buyThree, bidFour]).map fun r => (live, r)).any (fun r => r.1.tradeCapacity = 2) = true := by
    decide +kernel
  rw [Option.any_eq_true] at hsome
  obtain ⟨⟨live, eventss, live'⟩, hrun, hcapacity⟩ := hsome
  obtain ⟨live0, hcreate, hrun⟩ := Option.bind_eq_some_iff.mp hrun
  obtain ⟨r, hr, hpair⟩ := Option.map_eq_some_iff.mp hrun
  cases hpair
  have hlive : Applies 5 live [sellFive, buyThree, bidFour] eventss live' := applies_of_applyAll hr
  have hspan : live.maximumEventCapacity ≤ 5 := by rw [SequencedEngine.maximumEventCapacity, of_decide_eq_true hcapacity]
  obtain ⟨hreached, hnext, htime, hfresh⟩ := SequencedEngine.reached_create hcreate
  have hbelow : ∀ c ∈ [sellFive, buyThree, bidFour], c.sequence ≠ uint64Max := by decide
  have hcreated : AppendRun 1 4 1 ⟨[], none⟩ _ _ := .create (by decide)
  have haccepted : AppendRun 1 4 1 ⟨[sellFive, buyThree, bidFour], none⟩ _ _ :=
    ((hcreated.accepts (by decide)).accepts (by decide)).accepts (by decide)
  obtain ⟨journal, middle, hopen, hmiddle, hreplay⟩ := recovery_complete (k := 1) rfl hreached hnext hfresh (fun _ => htime) haccepted
    (Mapped.survives_now _ _) hbelow hlive (by decide) hspan 2
  obtain ⟨hreached', -, -, -, htime'⟩ := hmiddle.numbers hreached hfresh (by decide)
  obtain ⟨f, engine', hf, hsame, hreturns⟩ := hreplay middle (hreached'.sameState rfl)
  rw [htime'] at hreturns
  exact ⟨live, middle, live', eventss, _, _, journal, f, engine', hcreate, hlive, hmiddle, haccepted, hopen, hf, hsame, hreturns⟩

end MatchingEngine

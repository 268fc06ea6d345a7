import MatchingEngine.Lemmas.Sequencing

/-!
# A sequencer, a journal and an engine in step

A payload is stamped, and the command is appended to the journal and applied by the engine. Each of the three checks the number, the
time and the payload for itself; when they start in step, a command that is stamped passes all the checks, and they stay in step up to
the last number, after which each of them refuses every command.
-/

namespace MatchingEngine

open MmapJournal

/-- A sequencer, a journal with its file, and an engine. -/
structure Feed where
  sequencer : Sequencer
  journal : MmapJournal
  file : Mapped
  engine : SequencedEngine

/-- What becomes of a payload: it is refused by `stamp`, or the journal and the engine answer its command. -/
inductive FeedResult where
  | refused (error : SequencerError)
  | fed (command : SequencedCommand) (appended : JournalError) (status : ApplyStatus)
  deriving DecidableEq

/-- The command of a result. -/
def FeedResult.command? : FeedResult → Option SequencedCommand
  | .refused _ => none
  | .fed command _ _ => some command

/-- The commands of a run. -/
def fedCommands (results : List FeedResult) : List SequencedCommand := results.filterMap FeedResult.command?

namespace Feed

/-- A payload is stamped, and its command is appended and applied, with the outcomes of the synchronisations. -/
def offer (f : Feed) (pid : Nat) (payload : CommandPayload) (time : UInt64) (data commit : SyncCalls) : Comp (FeedResult × Feed) :=
  match f.sequencer.stamp payload time with
  | .error error => pure (.refused error, f)
  | .ok (command, sequencer) => do
    let appended := (f.journal.append pid command data commit).run f.file
    let (status, _, _, engine) ← f.engine.apply command f.engine.maximumEventCapacity
    return (.fed command appended.result.1 status, ⟨sequencer, appended.result.2, appended.final, engine⟩)

/-- The three agree on the next number and the last time. -/
def InStep (f : Feed) : Prop := MatchingEngine.InStep f.sequencer f.journal f.engine

/-- A run of payloads, with the results so far: where a payload is stamped, the journal has room and both synchronisations succeed. -/
inductive Run (pid : Nat) (f₀ : Feed) : List FeedResult → Feed → Prop where
  | start : Run pid f₀ [] f₀
  | offer {results : List FeedResult} {f f' : Feed} {payload : CommandPayload} {time : UInt64} {data commit : SyncCalls} {result : FeedResult}
      (before : Run pid f₀ results f)
      (room : ∀ command sequencer, f.sequencer.stamp payload time = .ok (command, sequencer) →
        f.journal.full = false ∧ data.ok = true ∧ commit.ok = true)
      (returned : (f.offer pid payload time data commit).Returns (result, f')) : Run pid f₀ (results ++ [result]) f'

variable {pid : Nat} {cfg : BookConfig} {state : TradingState} {f₀ f f' : Feed} {results : List FeedResult} {payload : CommandPayload}
  {time : UInt64} {command : SequencedCommand} {sequencer : Sequencer} {data commit : SyncCalls}

/-- A command that is stamped is what the journal and the engine wait for. -/
theorem InStep.admits (h : f.InStep) (hsized : f.journal.Sized) (hready : f.journal.Ready pid)
    (hstamp : f.sequencer.stamp payload time = .ok (command, sequencer)) (hroom : f.journal.full = false) :
    f.journal.appendError pid command = .none ∧ f.engine.commandStatus command = .applied := by
  obtain ⟨hlive, hvalid, htime, rfl, -, -⟩ := Sequencer.stamp_ok hstamp
  have hnumber := Sequencer.next_eq hlive
  have hlt : f.sequencer.next < 2 ^ 64 := hnumber ▸ UInt64.toNat_lt _
  have hengine : f.engine.sequenceExhausted = false := nextNumber_lt_iff.mp (h.engine.trans_lt hlt)
  refine ⟨hready.appendError_eq hroom hvalid ?_ (h.journalTime ▸ htime), SequencedEngine.commandStatus_applied hengine hvalid ?_ (h.engineTime ▸ htime)⟩
  · refine UInt64.toNat_inj.mp ?_
    rw [hsized.nextSequence_toNat hroom, h.journal, hnumber]
  · refine UInt64.toNat_inj.mp ?_
    rw [← SequencedEngine.next_eq hengine, h.engine, hnumber]

/-- What a run has made: the commands have the numbers in their order and are in the journal, and the three are in step. -/
structure Fed (pid : Nat) (cfg : BookConfig) (state : TradingState) (f₀ : Feed) (results : List FeedResult) (f : Feed) : Prop where
  sized : f.journal.Sized
  ready : f.journal.Ready pid
  reached : f.engine.Reached cfg state
  inStep : f.InStep
  answers : ∀ r ∈ results, (∃ error, r = .refused error) ∨ ∃ command, r = .fed command .none .applied
  next : f.sequencer.next = f₀.sequencer.next + (fedCommands results).length
  numbers : ∀ i (h : i < (fedCommands results).length), (fedCommands results)[i].sequence.toNat = f₀.sequencer.next + i
  valid : ∀ c ∈ fedCommands results, validateCommandPayload c.payload = .none
  size : f.journal.size = f₀.journal.size + (fedCommands results).length
  journaled : Journaled f₀.journal.size (fedCommands results) f.file

/-- A journal that admits a command has it after both synchronisations. -/
theorem append_result {j : MmapJournal} (m : Mapped) (h : j.appendError pid command = .none) (hdata : data.ok = true) (hcommit : commit.ok = true) :
    ((j.append pid command data commit).run m).result = (.none, { j with size := j.size + 1, lastLogicalTime := command.logicalTime }) := by
  obtain ⟨-, -, hcases⟩ := append_ensures (j := j) (m := m) (P := fun _ => True) pid command data commit
    (fun _ _ _ => trivial) (fun _ _ => trivial)
  rcases hcases with ⟨hne, -⟩ | ⟨-, hd, -⟩ | ⟨-, -, hc, -⟩ | ⟨-, -, -, hr, -⟩
  · exact absurd h hne
  · rw [hdata] at hd
    cases hd
  · rw [hcommit] at hc
    cases hc
  · exact hr

theorem fedCommands_snoc (results : List FeedResult) (result : FeedResult) :
    fedCommands (results ++ [result]) = fedCommands results ++ result.command?.toList := by
  rw [fedCommands, List.filterMap_append]
  cases h : result.command? <;> simp [fedCommands, h]

/-- One payload more. -/
theorem Fed.offer (h : Fed pid cfg state f₀ results f)
    (room : ∀ command sequencer, f.sequencer.stamp payload time = .ok (command, sequencer) →
      f.journal.full = false ∧ data.ok = true ∧ commit.ok = true)
    {result : FeedResult} (returned : (f.offer pid payload time data commit).Returns (result, f')) :
    Fed pid cfg state f₀ (results ++ [result]) f' := by
  unfold Feed.offer at returned
  split at returned
  · rename_i error hstamp
    rw [Comp.returns_pure] at returned
    cases returned
    have hsame : fedCommands (results ++ [.refused error]) = fedCommands results := by
      rw [fedCommands_snoc]
      exact List.append_nil _
    refine ⟨h.sized, h.ready, h.reached, h.inStep, ?_, ?_, ?_, ?_, ?_, ?_⟩
    · intro r hr
      rcases List.mem_append.mp hr with hr | hr
      · exact h.answers r hr
      · exact .inl ⟨error, List.mem_singleton.mp hr⟩
    · rw [hsame]
      exact h.next
    · rw [hsame]
      exact h.numbers
    · rw [hsame]
      exact h.valid
    · rw [hsame]
      exact h.size
    · rw [hsame]
      exact h.journaled
  · rename_i command sequencer hstamp
    obtain ⟨hroom, hdata, hcommit⟩ := room command sequencer hstamp
    obtain ⟨happend, hstatus⟩ := h.inStep.admits h.sized h.ready hstamp hroom
    obtain ⟨hlive, hvalid, htime, hcommand, hnext, htime'⟩ := Sequencer.stamp_ok hstamp
    have hresult := append_result f.file happend hdata hcommit
    rw [Comp.returns_bind] at returned
    obtain ⟨⟨status, events, trades, engine⟩, happly, returned⟩ := returned
    rw [Comp.returns_pure] at returned
    cases returned
    obtain ⟨rfl, tag, htag, hperform⟩ := (h.reached.apply_iff hstatus (Nat.le_refl _)).mp happly
    have hreached := (h.reached.apply happly).1
    obtain ⟨outcome, book, -, -, -, rfl⟩ := SequencedEngine.returns_perform hperform
    have hjournaled := (h.journaled.append h.size pid command data commit).2 (congrArg Prod.fst hresult)
    have hcommands : fedCommands (results ++ [.fed command
        ((f.journal.append pid command data commit).run f.file).result.1 .applied]) = fedCommands results ++ [command] :=
      fedCommands_snoc _ _
    have hnumber := Sequencer.next_eq hlive
    have hengine := SequencedEngine.next_eq (SequencedEngine.commandStatus_eq_applied hstatus).1
    refine ⟨?_, ?_, hreached, ⟨?_, ?_, ?_, ?_⟩, ?_, ?_, ?_, ?_, ?_, ?_⟩
    · rw [hresult]
      exact h.sized.append hroom _
    · rw [hresult]
      exact ⟨h.ready.descriptor, h.ready.mapped, h.ready.owner, h.ready.sound⟩
    · rw [hresult, hnext, ← h.inStep.journal]
      rfl
    · rw [hnext, ← h.inStep.engine, hengine]
      exact nextNumber_afterSequence _
    · rw [hresult, htime', hcommand]
    · rw [htime', hcommand]
    · intro r hr
      rcases List.mem_append.mp hr with hr | hr
      · exact h.answers r hr
      · rw [List.mem_singleton.mp hr, hresult]
        exact .inr ⟨command, rfl⟩
    · rw [hcommands, List.length_append, hnext, h.next]
      rfl
    · rw [hcommands]
      intro i hi
      rw [List.length_append, List.length_singleton] at hi
      by_cases hlt : i < (fedCommands results).length
      · rw [List.getElem_append_left hlt]
        exact h.numbers i hlt
      · obtain rfl : i = (fedCommands results).length := by omega
        rw [List.getElem_concat_length rfl, hcommand, ← h.next, hnumber]
    · rw [hcommands]
      intro c hc
      rcases List.mem_append.mp hc with hc | hc
      · exact h.valid c hc
      · rw [List.mem_singleton.mp hc, hcommand]
        exact hvalid
    · rw [hcommands, hresult, List.length_append, ← Nat.add_assoc, ← h.size]
      rfl
    · rw [hcommands]
      exact hjournaled

/-- A whole run. -/
theorem Run.fed (run : Run pid f₀ results f) (hsized : f₀.journal.Sized) (hready : f₀.journal.Ready pid)
    (hreached : f₀.engine.Reached cfg state) (hstep : f₀.InStep) : Fed pid cfg state f₀ results f := by
  induction run with
  | start =>
    exact ⟨hsized, hready, hreached, hstep, fun _ h => absurd h List.not_mem_nil, rfl, fun _ h => absurd h (Nat.not_lt_zero _),
      fun _ h => absurd h List.not_mem_nil, rfl, fun _ _ _ h => absurd h (Nat.not_lt_zero _)⟩
  | offer before room returned ih => exact ih.offer room returned

/-- The last number is issued once when the numbers are used up, and not before. -/
theorem Fed.count_last (h : Fed pid cfg state f₀ results f) :
    ((fedCommands results).map SequencedCommand.sequence).count uint64Max =
      if f₀.sequencer.next < 2 ^ 64 ∧ f.sequencer.next = 2 ^ 64 then 1 else 0 := by
  have hnext := h.next
  have hnumbers := h.numbers
  have hle : f.sequencer.next ≤ 2 ^ 64 := nextNumber_le _ _
  generalize fedCommands results = commands at hnext hnumbers
  rcases List.eq_nil_or_concat' commands with rfl | ⟨before, last, rfl⟩
  · rw [if_neg (by rw [List.length_nil] at hnext; omega)]
    rfl
  · have hlast := hnumbers before.length (by simp)
    rw [List.getElem_concat_length rfl] at hlast
    rw [List.length_append, List.length_singleton] at hnext
    have hbefore : (before.map SequencedCommand.sequence).count uint64Max = 0 := by
      refine List.count_eq_zero.mpr fun hmem => ?_
      obtain ⟨c, hc, hmax⟩ := List.mem_map.mp hmem
      obtain ⟨i, hi, rfl⟩ := List.getElem_of_mem hc
      have hi' := hnumbers i (by simp; omega)
      rw [List.getElem_append_left hi, hmax, uint64Max_toNat] at hi'
      omega
    rw [List.map_append, List.count_append, hbefore, Nat.zero_add, List.map_singleton, List.count_singleton]
    have hiff : last.sequence = uint64Max ↔ f₀.sequencer.next < 2 ^ 64 ∧ f.sequencer.next = 2 ^ 64 := by
      rw [← UInt64.toNat_inj, uint64Max_toNat]
      omega
    simp only [beq_iff_eq, hiff]

/-- In every run that starts in step, and in which the journal has room for what is stamped and its synchronisations succeed: the three
stay in step; a payload that is not stamped changes nothing; a command that is stamped is appended and applied, and its numbers follow
each other without a gap, in the journal too. The last number is issued once, and then each of the three refuses every command. -/
theorem feed_in_step (run : Run pid f₀ results f) (hsized : f₀.journal.Sized) (hready : f₀.journal.Ready pid)
    (hreached : f₀.engine.Reached cfg state) (hstep : f₀.InStep) :
    f.InStep ∧ (∀ r ∈ results, (∃ error, r = .refused error) ∨ ∃ command, r = .fed command .none .applied) ∧
      f.sequencer.next = f₀.sequencer.next + (fedCommands results).length ∧
      (∀ i (h : i < (fedCommands results).length), (fedCommands results)[i].sequence.toNat = f₀.sequencer.next + i ∧
        ∀ image, f.file.Survives (commitMarkers f.journal.capacity) image →
          decodeRecord (recordSpan image (f₀.journal.size + i)) = .ok (fedCommands results)[i]) ∧
      (∀ payload time data commit,
        (∀ error, f.sequencer.stamp payload time = .error error → f.offer pid payload time data commit = pure (.refused error, f)) ∧
        ∀ command sequencer, f.sequencer.stamp payload time = .ok (command, sequencer) → f.journal.full = false → data.ok = true →
          commit.ok = true →
          ((f.journal.append pid command data commit).run f.file).result.1 = .none ∧ f.engine.commandStatus command = .applied ∧
            ∀ status events trades engine,
              (f.engine.apply command f.engine.maximumEventCapacity).Returns (status, events, trades, engine) ↔
                status = .applied ∧ ∃ tag, CommandType.ofRaw command.payload.tag = some tag ∧
                  (f.engine.perform command tag).Returns (events, trades, engine)) ∧
      (f.sequencer.next < 2 ^ 64 → ∀ payload time, validateCommandPayload payload = .none → f.sequencer.lastLogicalTime ≤ time →
        ∃ command sequencer, f.sequencer.stamp payload time = .ok (command, sequencer) ∧ command.sequence.toNat = f.sequencer.next) ∧
      ((fedCommands results).map SequencedCommand.sequence).count uint64Max =
        (if f₀.sequencer.next < 2 ^ 64 ∧ f.sequencer.next = 2 ^ 64 then 1 else 0) ∧
      (f.sequencer.next = 2 ^ 64 →
        (∀ payload time, ∃ error, f.sequencer.stamp payload time = .error error) ∧
        (∀ pid' command data commit, f.journal.appendError pid' command ≠ .none ∧
          (f.journal.append pid' command data commit).run f.file = ⟨[], f.file, (f.journal.appendError pid' command, f.journal)⟩) ∧
        ∀ command size, f.engine.apply command size = pure (.sequenceExhausted, [], [], f.engine)) := by
  have hfed := run.fed hsized hready hreached hstep
  refine ⟨hfed.inStep, hfed.answers, hfed.next, ?_, ?_, ?_, hfed.count_last, ?_⟩
  · intro i hi
    exact ⟨hfed.numbers i hi, fun image himage => hfed.journaled.survives hfed.valid himage i hi⟩
  · intro payload time data commit
    refine ⟨fun error hstamp => ?_, fun command sequencer hstamp hroom hdata hcommit => ?_⟩
    · unfold Feed.offer
      rw [hstamp]
    · obtain ⟨happend, hstatus⟩ := hfed.inStep.admits hfed.sized hfed.ready hstamp hroom
      exact ⟨congrArg Prod.fst (append_result f.file happend hdata hcommit), hstatus,
        fun _ _ _ _ => hfed.reached.apply_iff hstatus (Nat.le_refl _)⟩
  · intro hlt payload time hvalid htime
    obtain ⟨sequencer, hstamp⟩ := Sequencer.exists_stamp hvalid htime hlt
    exact ⟨_, sequencer, hstamp, (Sequencer.next_eq (nextNumber_lt_iff.mp hlt)).symm⟩
  · intro hnext
    refine ⟨Sequencer.stamp_exhausted hnext, fun pid' command data commit => ?_, fun command size => ?_⟩
    · exact append_full (hfed.sized.full_of_next (hfed.inStep.journal.trans hnext)) _ _ _ _ _
    · exact SequencedEngine.apply_exhausted (hfed.inStep.engine.trans hnext) _ _

/-- The last number: a journal of one record, and an engine that waits for it. -/
theorem feed_in_step_last : ∃ f₀ results f, f₀.sequencer.next = 2 ^ 64 - 1 ∧ Run 7 f₀ results f ∧ f.sequencer.next = 2 ^ 64 ∧
    ((fedCommands results).map SequencedCommand.sequence).count uint64Max = 1 ∧
    ∀ payload time, ∃ error, f.sequencer.stamp payload time = .error error := by
  let payload := CommandPayload.submitMarket 1 0 5
  let command : SequencedCommand := ⟨payload, uint64Max, 5⟩
  have hsome : ((SequencedEngine.create (BookConfig.small 2 (by decide) .none) uint64Max 0 .continuous).bind fun live =>
      ((live.apply command live.maximumEventCapacity).run 10).map fun r => (live, r)).isSome = true := by decide +kernel
  obtain ⟨⟨live, status, events, trades, live'⟩, hrun⟩ := Option.isSome_iff_exists.mp hsome
  obtain ⟨live0, hcreate, hrun⟩ := Option.bind_eq_some_iff.mp hrun
  obtain ⟨r, hr, hpair⟩ := Option.map_eq_some_iff.mp hrun
  obtain ⟨rfl, rfl⟩ := Prod.mk.inj hpair
  obtain ⟨hreached, hnext, htime, hfresh⟩ := SequencedEngine.reached_create hcreate
  obtain ⟨hsized, hready⟩ := attached_sized (show createError 1 uint64Max = .none by decide) 7
  let f₀ : Feed := ⟨⟨uint64Max, 0, false⟩, attached 7 1 uint64Max, .settled (createdBytes 1 uint64Max), live0⟩
  have hstep : f₀.InStep := by
    refine ⟨rfl, ?_, rfl, htime⟩
    rw [SequencedEngine.next, hnext, hfresh]
    rfl
  let appended := (f₀.journal.append 7 command ⟨true, true⟩ ⟨true, true⟩).run f₀.file
  have hoffer : (f₀.offer 7 payload 5 ⟨true, true⟩ ⟨true, true⟩).Returns
      (.fed command appended.result.1 status, ⟨⟨uint64Max, 5, true⟩, appended.result.2, appended.final, live'⟩) := by
    have hstamp : Sequencer.stamp ⟨uint64Max, 0, false⟩ payload 5 = .ok (command, ⟨uint64Max, 5, true⟩) := by decide
    unfold Feed.offer
    rw [hstamp]
    exact (Comp.returns_bind _ _ _).mpr ⟨_, ⟨10, hr⟩, (Comp.returns_pure _ _).mpr rfl⟩
  have run := Run.offer (show Run 7 f₀ [] f₀ from .start) (fun _ _ _ => ⟨rfl, rfl, rfl⟩) hoffer
  obtain ⟨-, -, -, -, -, -, hcount, hrefuse⟩ := feed_in_step run hsized hready hreached hstep
  exact ⟨f₀, _, _, rfl, run, rfl, hcount, (hrefuse rfl).1⟩

end Feed

end MatchingEngine

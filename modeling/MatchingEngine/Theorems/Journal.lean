import MatchingEngine.Lemmas.Journal

/-!
# Crashes of a journal

Over every run of `append` calls, with every outcome of the synchronisations and a crash at any step: recovery finds the
acknowledged commands in their order, and after them at most the command whose marker was published and not acknowledged.
-/

namespace MatchingEngine

open MmapJournal

/-- What a run of appends has made of the journal and its file. -/
structure Written (pid capacity : Nat) (base : UInt64) (a : Account) (j : MmapJournal) (m : Mapped) : Prop where
  stored : Stored capacity base a.acknowledged a.published m
  chain : Chain capacity base (a.acknowledged ++ a.published.toList)
  journal : j = { attached pid capacity base with
    size := a.acknowledged.length
    lastLogicalTime := lastTime a.acknowledged
    writerPoisoned := a.published.isSome }

section

variable {pid capacity : Nat} {base : UInt64} {a : Account} {j : MmapJournal} {m : Mapped}

/-- A call that passes the checks of `append`: the states it passes and the one it ends in. -/
theorem Written.append (h : Written pid capacity base a j m) (call : AppendCall) (hok : j.appendError call.pid call.command = .none) :
    a.published = none ∧ Chain capacity base (a.acknowledged ++ [call.command]) ∧
      (call.on j).Ensures m
        (fun t => Stored capacity base a.acknowledged none t ∨ (Stored capacity base a.acknowledged (some call.command) t ∧
          commitMarker t.now a.acknowledged.length = kCommittedMarker))
        fun r t =>
          (call.data.ok = false ∧ r = (.ioError, j) ∧ Stored capacity base a.acknowledged none t) ∨
          (call.data.ok = true ∧ call.commit.ok = false ∧ r = (.commitIndeterminate, { j with writerPoisoned := true }) ∧
            Stored capacity base a.acknowledged (some call.command) t) ∨
          (call.data.ok = true ∧ call.commit.ok = true ∧
            r = (.none, { j with size := j.size + 1, lastLogicalTime := call.command.logicalTime }) ∧
            Stored capacity base (a.acknowledged ++ [call.command]) none t) := by
  obtain ⟨hpoisoned, hfull, hvalid, hseq, htime⟩ := appendError_eq_none hok
  obtain ⟨hstored, hchain, hj⟩ := h
  have hpub : a.published = none := by
    rw [hj] at hpoisoned
    exact Option.isSome_eq_false_iff.mp hpoisoned |> Option.isNone_iff_eq_none.mp
  rw [hpub] at hstored
  rw [hpub, Option.toList_none, List.append_nil] at hchain
  have hroom : a.acknowledged.length < capacity := by
    rw [hj] at hfull
    exact Nat.lt_of_le_of_ne hchain.length_le hfull
  refine ⟨hpub, hchain.snoc hroom hvalid ?_ ?_, hstored.append ?_ hroom hok hvalid⟩
  · rw [hseq, nextSequence, hj]
    rfl
  · rw [hj] at htime
    exact htime
  · rw [hj]

/-- A call that fails a check of `append` changes nothing. -/
theorem append_refused {call : AppendCall} (hok : j.appendError call.pid call.command ≠ .none) :
    (call.on j).run m = ⟨[], m, (j.appendError call.pid call.command, j)⟩ := by
  rw [AppendCall.on, MmapJournal.append, if_pos hok]
  rfl

/-- One call keeps what the run has made. -/
theorem Written.step (h : Written pid capacity base a j m) (call : AppendCall) :
    Written pid capacity base (a.after call.command ((call.on j).run m).result.1) ((call.on j).run m).result.2
      ((call.on j).run m).final := by
  by_cases hok : j.appendError call.pid call.command = .none
  · obtain ⟨hpub, hsnoc, -, hend⟩ := h.append call hok
    have hchain := h.chain
    have hj := h.journal
    rw [hpub, Option.toList_none, List.append_nil] at hchain
    rcases hend with ⟨-, hr, ht⟩ | ⟨-, -, hr, ht⟩ | ⟨-, -, hr, ht⟩
    · rw [← hpub] at ht
      rw [hr]
      exact ⟨ht, h.chain, hj⟩
    · rw [hr]
      exact ⟨ht, hsnoc, by rw [hj, hpub]; rfl⟩
    · rw [hr]
      refine ⟨by rw [Account.after, hpub]; exact ht, ?_, ?_⟩
      · rw [Account.after, hpub, Option.toList_none, List.append_nil]
        exact hsnoc
      · rw [hj, Account.after, hpub, lastTime_append, List.length_append]
        rfl
  · rw [append_refused hok, Account.after_of_ne hok (appendError_ne_commitIndeterminate _ _ _)]
    exact h

/-- Every run of appends keeps it. -/
theorem AppendRun.written (h : AppendRun pid capacity base a j m) : Written pid capacity base a j m := by
  induction h with
  | create _ => exact ⟨(createdBytes_shows capacity base).stored, Chain.nil capacity base, rfl⟩
  | append _ call ih => exact ih.step call

/-- A command that passes the checks is accepted when the synchronisations succeed. -/
theorem Written.accepts (h : Written pid capacity base a j m) {pid' : Nat} {c : SequencedCommand} (hok : j.appendError pid' c = .none) :
    ((j.append pid' c ⟨true, true⟩ ⟨true, true⟩).run m).result =
      (.none, { j with size := j.size + 1, lastLogicalTime := c.logicalTime }) := by
  obtain ⟨-, -, -, hend⟩ := h.append ⟨pid', c, ⟨true, true⟩, ⟨true, true⟩⟩ hok
  rcases hend with ⟨hd, -⟩ | ⟨-, hd, -⟩ | ⟨-, -, hr, -⟩
  · cases hd
  · cases hd
  · exact hr

/-- Over every run of `append` calls on a journal, and every further call of it that is interrupted at any step: whatever survives,
recovery finds the acknowledged commands in their order, followed by at most one more, which was published and not acknowledged. A
call that fails a check, or fails before it publishes, leaves the journal as it was, and the same slot then takes every command that
passes the checks, in particular the one that failed before it was published. Once a command is published without acknowledgement,
every call is refused. -/
theorem append_crash_recovers (h : AppendRun pid capacity base a j m) (call : AppendCall) :
    (∀ t ∈ (call.on j).stops m, ∀ image, t.Survives (commitMarkers capacity) image →
      ∃ extra, Recovers capacity base image (a.acknowledged ++ extra) ∧
        (extra = [] ∨ ∃ c, extra = [c] ∧ (a.published = some c ∨
          (a.published = none ∧ c = call.command ∧ commitMarker t.now a.acknowledged.length = kCommittedMarker)))) ∧
    (((call.on j).run m).result.1 ≠ .none → ((call.on j).run m).result.1 ≠ .commitIndeterminate →
      ((call.on j).run m).result.2 = j ∧
      (((call.on j).run m).result.1 = .ioError → j.appendError call.pid call.command = .none) ∧
      ∀ pid' c, j.appendError pid' c = .none →
        ((j.append pid' c ⟨true, true⟩ ⟨true, true⟩).run ((call.on j).run m).final).result =
          (.none, { j with size := j.size + 1, lastLogicalTime := c.logicalTime })) ∧
    (a.published.isSome → ((call.on j).run m).result.1 ≠ .none ∧ ((call.on j).run m).result.1 ≠ .commitIndeterminate ∧
      ((call.on j).run m).result.2 = j ∧ ((call.on j).run m).final = m) := by
  have hw := AppendRun.written h
  refine ⟨?_, ?_, ?_⟩
  · intro t ht image hi
    by_cases hok : j.appendError call.pid call.command = .none
    · obtain ⟨hpub, hsnoc, hens⟩ := hw.append call hok
      have hchain := hw.chain
      rw [hpub, Option.toList_none, List.append_nil] at hchain
      have hm : Stored capacity base a.acknowledged none m := by
        have := hw.stored
        rwa [hpub] at this
      rcases hens.stops (Or.inl hm) t ht with hs | ⟨hs, hmark⟩
      · have hshown := (hs.crash hi).resolve_right (by simp)
        exact ⟨[], by rw [List.append_nil]; exact hshown.recovers hchain, Or.inl rfl⟩
      · rcases hs.crash hi with hshown | ⟨c, hc, hshown⟩
        · exact ⟨[], by rw [List.append_nil]; exact hshown.recovers hchain, Or.inl rfl⟩
        · cases hc
          exact ⟨[call.command], hshown.recovers hsnoc, Or.inr ⟨_, rfl, Or.inr ⟨hpub, rfl, hmark⟩⟩⟩
    · rw [Prog.stops, append_refused hok, List.mem_singleton] at ht
      subst ht
      rcases hw.stored.crash hi with hshown | ⟨c, hc, hshown⟩
      · exact ⟨[], by rw [List.append_nil]; exact hshown.recovers hw.chain.of_append, Or.inl rfl⟩
      · have hchain := hw.chain
        rw [hc, Option.toList_some] at hchain
        exact ⟨[c], hshown.recovers hchain, Or.inr ⟨c, rfl, Or.inl hc⟩⟩
  · intro hne hne'
    by_cases hok : j.appendError call.pid call.command = .none
    · obtain ⟨hpub, -, -, hend⟩ := hw.append call hok
      rcases hend with ⟨-, hr, ht⟩ | ⟨-, -, hr, -⟩ | ⟨-, -, hr, -⟩
      · refine ⟨congrArg Prod.snd hr, fun _ => hok, fun pid' c hc => ?_⟩
        have hagain : Written pid capacity base a j ((call.on j).run m).final := ⟨by rw [hpub]; exact ht, hw.chain, hw.journal⟩
        exact hagain.accepts hc
      · exact absurd (congrArg Prod.fst hr) hne'
      · exact absurd (congrArg Prod.fst hr) hne
    · rw [append_refused hok]
      exact ⟨rfl, fun h => absurd h (appendError_ne_ioError _ _ _), fun pid' c hc => hw.accepts hc⟩
  · intro hpub
    have hok : j.appendError call.pid call.command ≠ .none := by
      intro hok
      rw [(hw.append call hok).1] at hpub
      cases hpub
    rw [append_refused hok]
    exact ⟨hok, appendError_ne_commitIndeterminate _ _ _, rfl, rfl⟩

end

/-- A journal of two records: the first command is acknowledged, and the second is published by a call whose last synchronisation
fails. -/
theorem append_crash_recovers_second_published :
    let first : AppendCall := ⟨7, ⟨⟨2, 0, 0, 0, 1, 0, 5, 0, 0⟩, 1, 10⟩, ⟨true, true⟩, ⟨true, true⟩⟩
    let second : AppendCall := ⟨7, ⟨⟨2, 1, 0, 0, 2, 0, 5, 0, 0⟩, 2, 10⟩, ⟨true, true⟩, ⟨true, false⟩⟩
    let created := (first.on (attached 7 2 1)).run (.settled (createdBytes 2 1))
    let indeterminate := (second.on created.result.2).run created.final
    created.result.1 = .none ∧ indeterminate.result.1 = .commitIndeterminate ∧
      ∃ extra, Recovers 2 1 indeterminate.final.now ([first.command] ++ extra) ∧
        (extra = [] ∨ ∃ c, extra = [c] ∧ ((none : Option SequencedCommand) = some c ∨
          ((none : Option SequencedCommand) = none ∧ c = second.command ∧
            commitMarker indeterminate.final.now 1 = kCommittedMarker))) := by
  intro first second created indeterminate
  have hfirst : created.result.1 = .none := by decide
  have hrun : AppendRun 7 2 1 ⟨[first.command], none⟩ created.result.2 created.final := by
    have hcreate : AppendRun 7 2 1 ⟨[], none⟩ (attached 7 2 1) (.settled (createdBytes 2 1)) := .create (by decide)
    have happend := hcreate.append first
    rw [show ((first.on (attached 7 2 1)).run (.settled (createdBytes 2 1))).result.1 = .none from hfirst] at happend
    exact happend
  refine ⟨hfirst, by decide, ?_⟩
  refine (append_crash_recovers hrun second).1 indeterminate.final ?_ _ (Mapped.survives_now _ _)
  exact List.mem_of_getLast? rfl

end MatchingEngine

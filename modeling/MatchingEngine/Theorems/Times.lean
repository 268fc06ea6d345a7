import MatchingEngine.Theorems.Compaction
import MatchingEngine.Theorems.Rotation

/-!
# Logical times over a history

Over every history of a prefix, with rotations, crashes, resumed writers and compactions, the acknowledged commands have increasing
sequence numbers and logical times that do not decrease, as long as no writer starts on an empty segment after a command with a positive
time. A writer that does takes its last time from that segment, as 0.
-/

namespace MatchingEngine

open MmapJournal

/-- The commands of a history that are acknowledged, in their order. -/
def acknowledged (accounts : List Account) : List SequencedCommand := accounts.flatMap Account.acknowledged

/-- The order of acknowledged commands: their numbers increase and their times do not decrease. -/
def InOrder (c c' : SequencedCommand) : Prop := c.sequence < c'.sequence ∧ c.logicalTime ≤ c'.logicalTime

/-- A prefix is created where it has no segment; its writers close, crash and resume, and its segments are compacted. -/
def anyWriters (stem : PathPrefix) : Rules :=
  ⟨fun _ s => ∀ path, (s.directory path).isSome = true → segmentBase stem path = none, fun _ _ => True, True⟩

/-- A writer resumes only on a segment with commands, or before a command with a positive time is acknowledged. -/
def timedWriters (stem : PathPrefix) : Rules :=
  { anyWriters stem with
    resume := fun accounts segments => (∀ s ∈ segments.getLast?, s.journal.size ≠ 0) ∨ ∀ c ∈ acknowledged accounts, c.logicalTime = 0 }

/-- What is kept of the acknowledged commands: their order, and the last segment is ahead of them. While a writer is there, it knows of
their times; when none is, the last segment does if it has commands. -/
inductive Timed (stem : PathPrefix) (acks : List SequencedCommand) (a : Account) : System → Prop where
  | start {d : Directory} (held : Holds stem d []) (none : acks = []) : Timed stem acks a ⟨d, .none⟩
  | quiet {s : System} {segs : List Archived} {last : Archived} (quiescent : s.Quiescent) (held : Holds stem s.directory segs)
      (is_last : last ∈ segs.getLast?) (ordered : acks.Pairwise InOrder) (before : ∀ c ∈ acks, c.sequence.toNat < last.next)
      (times : last.commands ≠ [] → ∀ c ∈ acks, c.logicalTime ≤ lastTime last.commands) : Timed stem acks a s
  | live {d : Directory} {pid : Nat} {r : RotatingJournal} {init : List Archived} {last : Archived}
      (live : Live stem d pid r init last a.published) (ordered : acks.Pairwise InOrder)
      (before : ∀ c ∈ acks, c.sequence.toNat < (tally init last).2) (times : ∀ c ∈ acks, c.logicalTime ≤ r.lastLogicalTime) :
      Timed stem acks a ⟨d, some (pid, r)⟩

section

variable {stem : PathPrefix} {acks : List SequencedCommand} {a : Account} {d d' : Directory} {init : List Archived} {last : Archived}

theorem Timed.ordered {s : System} (h : Timed stem acks a s) : acks.Pairwise InOrder := by
  cases h with
  | start held none => rw [none]; exact List.Pairwise.nil
  | quiet _ _ _ ordered => exact ordered
  | live _ ordered => exact ordered

/-- A writer whose files are settled. -/
theorem Timed.of_settled {s : System} {time : UInt64} {maybe : Option SequencedCommand} (hs : s.Quiescent) (ordered : acks.Pairwise InOrder)
    (before : ∀ c ∈ acks, c.sequence.toNat < (tally init last).2) (times : ∀ c ∈ acks, c.logicalTime ≤ time)
    (htime : last.commands ≠ [] → lastTime last.commands = time) (hmaybe : ∀ c ∈ maybe, time ≤ c.logicalTime)
    (h : ∃ cs, Holds stem s.directory (init ++ [{ last with commands := cs }]) ∧ Linked (init ++ [{ last with commands := cs }]) ∧
      (cs = last.commands ∨ ∃ c ∈ maybe, cs = last.commands ++ [c])) : Timed stem acks a s := by
  obtain ⟨cs, hheld, -, rfl | ⟨c, hcm, rfl⟩⟩ := h
  · exact .quiet hs hheld List.getLast?_concat ordered before fun hne c hc => by rw [htime hne]; exact times c hc
  · refine .quiet hs hheld List.getLast?_concat ordered (fun c' hc' => ?_) fun _ c' hc' => ?_
    · have hlt : c'.sequence.toNat < last.next := before c' hc'
      simp only [Archived.next, List.length_append] at hlt ⊢
      omega
    · rw [lastTime_append]
      exact UInt64.le_trans (times c' hc') (hmaybe c hcm)

/-- A crash in the middle of an append. -/
theorem Timed.crashAppending {pid : Nat} {r : RotatingJournal} {t : Directory} (h : Timed stem acks a ⟨d, some (pid, r)⟩)
    (command : SequencedCommand) (calls : RotatingJournal.AppendCalls) (ht : t ∈ (r.append pid command calls).stops d)
    (hc : t.CrashesTo d') : Timed stem acks (a.interrupted command) ⟨d', none⟩ := by
  have hquiet := System.Quiescent.of_none d'
  cases h with
  | quiet quiescent held is_last ordered before times =>
    have hactive : r.active = none := quiescent _ rfl
    rw [RotatingJournal.append, hactive] at ht
    have ht' : t = d := List.mem_singleton.mp ht
    subst ht'
    exact .quiet hquiet (held.crash hc) is_last ordered before times
  | live live ordered before times =>
    obtain ⟨init', last', maybe', hw, htally, -⟩ := (live.append command calls).stops ⟨_, _, _, live.writes, rfl, Or.inl rfl⟩ t ht
    exact .of_settled hquiet ordered (htally ▸ before) times hw.time_eq hw.time_le (hw.crash hc)

/-- An append that returns. -/
theorem Timed.append {pid : Nat} {r : RotatingJournal} {past : List Account} (h : Timed stem (acknowledged (past ++ [a])) a ⟨d, some (pid, r)⟩)
    (command : SequencedCommand) (calls : RotatingJournal.AppendCalls) :
    Timed stem (acknowledged (past ++ [a.after command ((r.append pid command calls).run d).result.1]))
      (a.after command ((r.append pid command calls).run d).result.1)
      ⟨((r.append pid command calls).run d).final, some (pid, ((r.append pid command calls).run d).result.2)⟩ := by
  cases h with
  | quiet quiescent held is_last ordered before times =>
    have hactive : r.active = none := quiescent _ rfl
    rw [RotatingJournal.append, hactive]
    exact .quiet quiescent held is_last ordered before times
  | live live ordered before times =>
    obtain ⟨-, init', last', maybe', hlive, houtcome⟩ := live.append command calls
    generalize (r.append pid command calls).run d = result at hlive houtcome ⊢
    obtain ⟨passed, final, e, r'⟩ := result
    simp only at hlive houtcome ⊢
    generalize htime : r'.lastLogicalTime = time at houtcome
    generalize hall : tally init' last' = all at houtcome
    cases houtcome with
    | refused ne ne' =>
      rw [Account.after_of_ne ne ne']
      exact .live hlive ordered (by rw [hall]; exact before) (by rw [htime]; exact times)
    | published none =>
      have hsame : acknowledged (past ++ [a.after command .commitIndeterminate]) = acknowledged (past ++ [a]) := by
        simp [acknowledged, Account.after]
      rw [hsame]
      exact .live hlive ordered (by rw [hall]; exact before) (by rw [htime]; exact times)
    | acknowledged none time_le sequence =>
      have hsnoc : acknowledged (past ++ [a.after command .none]) = acknowledged (past ++ [a]) ++ [command] := by
        simp [acknowledged, Account.after]
      rw [hsnoc]
      have hlive' : Live stem final pid r' init' last' (a.after command .none).published := by
        rw [Account.after, none]
        exact hlive
      refine .live hlive' ?_ ?_ ?_
      · refine List.pairwise_append.mpr ⟨ordered, List.pairwise_singleton _ _, fun c hc c' hc' => ?_⟩
        rw [List.mem_singleton.mp hc']
        refine ⟨?_, UInt64.le_trans (times c hc) time_le⟩
        rw [UInt64.lt_iff_toNat_lt, sequence]
        exact before c hc
      · intro c hc
        rw [hall]
        rcases List.mem_append.mp hc with hc | hc
        · exact Nat.lt_succ_of_lt (before c hc)
        · rw [List.mem_singleton.mp hc, sequence]
          exact Nat.lt_succ_self _
      · intro c hc
        rw [htime]
        rcases List.mem_append.mp hc with hc | hc
        · exact UInt64.le_trans (times c hc) time_le
        · rw [List.mem_singleton.mp hc]
          exact UInt64.le_refl _

/-- A closing that returns, and one that is interrupted. -/
theorem Timed.close {pid : Nat} {r : RotatingJournal} (h : Timed stem acks a ⟨d, some (pid, r)⟩) (calls : CloseCalls) :
    Timed stem acks a ⟨((r.close pid calls).run d).final, some (pid, ((r.close pid calls).run d).result.2)⟩ := by
  cases h with
  | quiet quiescent held is_last ordered before times =>
    have hactive : r.active = none := quiescent _ rfl
    rw [RotatingJournal.close, hactive]
    exact .quiet quiescent held is_last ordered before times
  | live live ordered before times =>
    obtain ⟨-, htime, ⟨hactive, hw, v, hfile⟩ | hlive⟩ := live.close calls
    · exact .of_settled (by rintro _ ⟨⟩; exact hactive) ordered before times hw.time_eq hw.time_le (hw.holds_of_settled hfile)
    · exact .live hlive ordered before (by rw [htime]; exact times)

theorem Timed.crashClosing {pid : Nat} {r : RotatingJournal} {t : Directory} (h : Timed stem acks a ⟨d, some (pid, r)⟩)
    (calls : CloseCalls) (ht : t ∈ (r.close pid calls).stops d) (hc : t.CrashesTo d') : Timed stem acks a ⟨d', none⟩ := by
  have hquiet := System.Quiescent.of_none d'
  cases h with
  | quiet quiescent held is_last ordered before times =>
    have hactive : r.active = none := quiescent _ rfl
    rw [RotatingJournal.close, hactive] at ht
    have ht' : t = d := List.mem_singleton.mp ht
    subst ht'
    exact .quiet hquiet (held.crash hc) is_last ordered before times
  | live live ordered before times =>
    have hw := (live.close calls).stops live.writes t ht
    exact .of_settled hquiet ordered before times hw.time_eq hw.time_le (hw.crash hc)

/-- A compaction, interrupted anywhere. -/
theorem Timed.compact {s : System} {t : Directory} {pid : Nat} {listing : List Path} {snapshot : Option UInt64} {calls : CompactCalls}
    (h : Timed stem acks a s) (quiet : s.Quiescent) (listed : s.directory.Lists listing)
    (ht : t ∈ (compactJournalSegments pid stem listing snapshot calls).stops s.directory) : Timed stem acks a ⟨t, s.writer⟩ := by
  cases snapshot with
  | none =>
    rw [List.mem_singleton.mp ht]
    exact h
  | some snapshot =>
    cases h with
    | start held none =>
      obtain ⟨segs', hremains, hheld⟩ := (held.compact listed calls).stops ⟨_, .dropped 0 (Nat.zero_le _) (Or.inl rfl), held⟩ t ht
      cases hremains with
      | dropped k => exact .start (by simpa using hheld) none
      | succeeded k le all is_last => cases is_last
    | quiet quiescent held is_last ordered before times =>
      obtain ⟨segs', hremains, hheld⟩ := (held.compact listed calls).stops ⟨_, .dropped 0 (Nat.zero_le _) (Or.inl rfl), held⟩ t ht
      cases hremains with
      | dropped k le some =>
        refine .quiet quiet hheld ?_ ordered before times
        rw [List.getLast?_drop, if_neg ?_]
        · exact is_last
        · have hpos := List.length_pos_of_mem (List.mem_of_getLast? is_last)
          omega
      | succeeded k le all is_last' ends =>
        refine .quiet quiet hheld List.getLast?_concat ordered (fun c hc => ?_) fun hne => absurd rfl hne
        rw [Option.mem_unique is_last' is_last] at ends
        exact Nat.lt_of_lt_of_eq (before c hc) ends.symm
    | live live =>
      obtain ⟨mapped, descriptor, hactive⟩ := live.active
      exact absurd (hactive.symm.trans (quiet _ rfl)) nofun

theorem acknowledged_concat_nil (accounts : List Account) : acknowledged (accounts ++ [⟨[], none⟩]) = acknowledged accounts := by
  simp [acknowledged]

/-- A writer is created where the prefix has no segment. -/
theorem Timed.create {s : System} {pid capacity : Nat} {base : UInt64} {r : RotatingJournal} (h : Timed stem acks a s) (quiet : s.Quiescent)
    (allowed : ∀ path, (s.directory path).isSome = true → segmentBase stem path = none)
    (created : ((RotatingJournal.create pid stem capacity base none).run s.directory).result = .ok r) :
    Timed stem acks ⟨[], none⟩ ⟨((RotatingJournal.create pid stem capacity base none).run s.directory).final, some (pid, r)⟩ := by
  cases h with
  | start held none =>
    subst none
    exact .live (held.createFirst created) List.Pairwise.nil (by rintro _ ⟨⟩) (by rintro _ ⟨⟩)
  | quiet quiescent held is_last =>
    have hmem := List.mem_of_getLast? is_last
    obtain ⟨v, hfile, -⟩ := held.files _ hmem
    have hbase := allowed _ (by rw [hfile]; rfl)
    rw [Archived.path, segmentBase_segmentName stem (held.valid _ hmem).base_ne_zero] at hbase
    cases hbase
  | live live =>
    obtain ⟨mapped, descriptor, hactive⟩ := live.active
    exact absurd (hactive.symm.trans (quiet _ rfl)) (by rintro ⟨⟩)

/-- A writer resumes on a segment with commands, or before a command with a positive time is acknowledged. -/
theorem Timed.resume {s : System} {pid : Nat} {listing : List Path} {segments : List Segment} {r : RotatingJournal}
    (h : Timed stem acks a s) (quiet : s.Quiescent) (listed : s.directory.Lists listing)
    (opened : JournalSegmentSet.openAll pid stem listing s.directory = .ok segments)
    (allowed : (∀ s ∈ segments.getLast?, s.journal.size ≠ 0) ∨ ∀ c ∈ acks, c.logicalTime = 0)
    (resumed : RotatingJournal.resume pid stem listing true s.directory = .ok r) :
    Timed stem acks ⟨[], none⟩ ⟨s.directory, some (pid, r)⟩ := by
  cases h with
  | start held none =>
    subst none
    obtain ⟨init, last, -, hlive, -⟩ := held.resume listed resumed
    exact .live hlive List.Pairwise.nil nofun nofun
  | quiet quiescent held is_last ordered before times =>
    have hn : stem.Named := by
      by_contra hn
      rw [openAll_of_not_named hn] at opened
      cases opened
    obtain ⟨-, -, rfl⟩ := (held.openAll_eq_ok_iff hn pid listed segments).mp opened
    obtain ⟨init, last, rfl, hlive, htime⟩ := held.resume listed resumed
    rw [Option.mem_unique is_last List.getLast?_concat] at before times
    refine .live hlive ordered before fun c hc => ?_
    rw [htime]
    rcases allowed with hsize | hzero
    · refine times (fun hnil => hsize (last.opened stem s.directory pid) ?_ ?_) c hc
      · rw [List.map_append]
        exact List.getLast?_concat
      · exact List.length_eq_zero_iff.mpr hnil
    · rw [hzero c hc]
      exact UInt64.zero_le
  | live live =>
    obtain ⟨mapped, descriptor, hactive⟩ := live.active
    exact absurd (hactive.symm.trans (quiet _ rfl)) nofun

/-- Every history keeps it. -/
theorem History.timed {past : List Account} {s : System} (h : History (timedWriters stem) stem past a s) :
    Timed stem (acknowledged (past ++ [a])) a s := by
  induction h with
  | start empty => exact .start ⟨nofun, nofun, fun path hp hb => absurd (empty path hp) hb, List.Pairwise.nil⟩ rfl
  | create before quiet allowed pid capacity base created ih =>
    rw [acknowledged_concat_nil]
    exact ih.create quiet allowed created
  | append before command calls ih => exact ih.append command calls
  | crashAppending before command calls stopped crashed ih =>
    have hsame := ih.crashAppending command calls stopped crashed
    simp only [acknowledged, List.flatMap_append, List.flatMap_singleton] at hsame ⊢
    exact hsame
  | close before calls ih => exact ih.close calls
  | crashClosing before calls stopped crashed ih => exact ih.crashClosing calls stopped crashed
  | resume before quiet pid listed opened allowed resumed ih =>
    rw [acknowledged_concat_nil]
    exact ih.resume quiet listed opened allowed resumed
  | compact before quiet allowed pid listed snapshot calls stopped ih => exact ih.compact quiet listed stopped

/-- A command with a smaller time than an acknowledged one is refused at once. -/
theorem Timed.refuses {s : System} {pid : Nat} {r : RotatingJournal} {c command : SequencedCommand} (h : Timed stem acks a s)
    (hw : s.writer = some (pid, r)) (hc : c ∈ acks) (hlt : command.logicalTime < c.logicalTime) (calls : RotatingJournal.AppendCalls) :
    ∃ e, e ≠ .none ∧ (r.append pid command calls).run s.directory = ⟨[], s.directory, (e, r)⟩ := by
  unfold RotatingJournal.append
  cases h with
  | start => cases hw
  | quiet quiescent =>
    rw [quiescent _ hw]
    exact ⟨.closed, nofun, rfl⟩
  | live live ordered before times =>
    cases hw
    obtain ⟨mapped, descriptor, hactive⟩ := live.active
    rw [hactive]
    simp only
    have herror : ∀ j : MmapJournal, r.appendError j command ≠ .none := fun j hj =>
      absurd (UInt64.le_trans (times c hc) (rotatingAppendError_eq_none hj)) (UInt64.not_le.mpr hlt)
    rw [if_pos (herror _)]
    exact ⟨_, herror _, rfl⟩

/-- In every history of a prefix whose writers resume on a segment with commands, or before a command with a positive time is
acknowledged: the acknowledged commands are in the order of their sequence numbers with logical times that do not decrease, and a
command with a smaller time than one of them is refused and leaves everything as it is. -/
theorem logical_times_nondecreasing {past : List Account} {s : System} (h : History (timedWriters stem) stem past a s) :
    (acknowledged (past ++ [a])).Pairwise InOrder ∧
    ∀ pid r, s.writer = some (pid, r) → ∀ c ∈ acknowledged (past ++ [a]), ∀ command, command.logicalTime < c.logicalTime →
      ∀ calls, ∃ e, e ≠ .none ∧ (r.append pid command calls).run s.directory = ⟨[], s.directory, (e, r)⟩ :=
  ⟨h.timed.ordered, fun _ _ hw _ hc _ hlt calls => h.timed.refuses hw hc hlt calls⟩

end

/-! ## A writer that resumes on an empty segment -/

section

variable {rules : Rules} {stem : PathPrefix} {d : Directory} {listing : List Path}

/-- An append that is acknowledged, to an active segment with room. -/
theorem History.acknowledges {past : List Account} {acks : List SequencedCommand} {pid : Nat} {r : RotatingJournal} {init : List Archived}
    {last : Archived} (h : History rules stem past ⟨acks, none⟩ ⟨d, some (pid, r)⟩) (command : SequencedCommand)
    (hlive : Live stem d pid r init last none) (hl : d.Lists listing) (hactive : r.active = some (last.path stem, last.journal pid))
    (hrotating : r.appendError (last.journal pid) command = .none) (hok : (last.journal pid).appendError pid command = .none) :
    ∃ d' r', History rules stem past ⟨acks ++ [command], none⟩ ⟨d', some (pid, r')⟩ ∧
      Live stem d' pid r' init { last with commands := last.commands ++ [command] } none ∧ d'.Lists listing := by
  let calls : RotatingJournal.AppendCalls := ⟨⟨true, true, true, true⟩, none, ⟨true, true⟩, ⟨true, true⟩⟩
  have hroom : ¬(last.journal pid).full = true := by
    rw [MmapJournal.full, decide_eq_true_eq]
    exact (appendError_eq_none hok).2.1
  have happend : r.append pid command calls = r.appendActive pid command calls := by
    rw [RotatingJournal.append, hactive]
    simp only
    rw [if_neg (not_not.mpr hrotating), if_neg hroom]
  have hhistory := h.append command calls
  rw [happend] at hhistory
  obtain ⟨-, ⟨content, hfinal⟩, ⟨hdata, -⟩ | ⟨hcommit, -⟩ | ⟨hres, -, -, hlive'⟩⟩ :=
    hlive.appendOpen true true calls hactive hok (rotatingAppendError_eq_none hrotating)
  · cases hdata
  · cases hcommit
  · rw [hres] at hhistory
    exact ⟨_, _, hhistory, hlive', hl.nodup, fun path => by rw [hl.mem_iff, hfinal, Directory.sameFiles_setContent]⟩

/-- A prefix is created and its first command acknowledged. -/
theorem history_first_acknowledged (h : stem.isEmpty = false) (hr : rules.create [⟨[], none⟩] ⟨fun _ => none, none⟩) :
    ∃ d r, History rules stem [⟨[], none⟩] ⟨[firstCommand], none⟩ ⟨d, some (1, r)⟩ ∧ Live stem d 1 r [] ⟨1, 1, [firstCommand]⟩ none ∧
      d.Lists [segmentName stem 1] := by
  have hheld : Holds stem (fun _ => none) [] := ⟨nofun, nofun, nofun, List.Pairwise.nil⟩
  have hlive := hheld.createFirst (congrArg Passage.result (create_createdWriter h))
  rw [create_createdWriter h] at hlive
  exact (history_created h hr).acknowledges firstCommand hlive (createdAndClosed_listing stem) rfl rfl (by decide)

end

/-- Of a writer and the one that resumes after its crash, the acknowledged commands are in order, and commands with smaller times than the
last one's 20 are refused. -/
theorem logical_times_nondecreasing_resumed_writer :
    (acknowledged ([⟨[], none⟩, ⟨[marketOrder 1 10, marketOrder 2 12], some (marketOrder 3 14)⟩] ++ [⟨[marketOrder 4 20], none⟩])).Pairwise
        InOrder ∧
    ∀ command : SequencedCommand, command.logicalTime < 20 → ∀ calls, ∃ e, e ≠ .none ∧
      (resumedCourse.writer.append 2 command calls).run resumedCourse.directory =
        ⟨[], resumedCourse.directory, (e, resumedCourse.writer)⟩ := by
  have hruns : resumedCourse.Runs (timedWriters ⟨[], ['j']⟩) _ _ := resumedCourse_runs (by rintro _ ⟨⟩) fun _ _ => Or.inl
  have hhistory := hruns.history
  rw [resumedCourse_account] at hhistory
  obtain ⟨hordered, hrefused⟩ := logical_times_nondecreasing hhistory
  exact ⟨hordered, hrefused 2 _ rfl (marketOrder 4 20) (by decide)⟩

/-- A market order of five, as the command number 2, earlier than the first. -/
def earlierCommand : SequencedCommand := ⟨⟨2, 0, 0, 0, 1, 0, 5, 0, 0⟩, 2, 5⟩

/-- A prefix is created and its first command acknowledged; after a crash a compaction is interrupted behind the creation of the
successor, and a writer that resumes on the successor acknowledges a command with a smaller time. -/
theorem earlier_command_acknowledged : ∃ d r,
    History (anyWriters ⟨[], ['j']⟩) ⟨[], ['j']⟩ [⟨[], none⟩, ⟨[firstCommand], none⟩] ⟨[earlierCommand], none⟩ ⟨d, some (1, r)⟩ ∧
    ¬(acknowledged ([⟨[], none⟩, ⟨[firstCommand], none⟩] ++ [⟨[earlierCommand], none⟩])).Pairwise InOrder := by
  have hr : (anyWriters ⟨[], ['j']⟩).create [⟨[], none⟩] ⟨fun _ => none, none⟩ := nofun
  have hn : PathPrefix.Named ⟨[], ['j']⟩ := ⟨by decide, by decide, by decide⟩
  obtain ⟨d, r, hfirst, hlive, hl⟩ := history_first_acknowledged (show PathPrefix.isEmpty ⟨[], ['j']⟩ = false from rfl) hr
  have hcrash := d.crashesTo_shown
  have hcrashed := hfirst.crashClosing ⟨true, true, true, true⟩ List.mem_cons_self hcrash
  obtain ⟨cs, hheld, hlinked, rfl | ⟨c, hc, -⟩⟩ := hlive.writes.crash hcrash
  · have hpass : (compactJournalSegments 1 ⟨[], ['j']⟩ [segmentName ⟨[], ['j']⟩ 1] (some 1) .succeed).Ensures d.shown
        (· ∈ (compactJournalSegments 1 ⟨[], ['j']⟩ [segmentName ⟨[], ['j']⟩ 1] (some 1) .succeed).stops d.shown) fun _ _ => True :=
      ⟨fun t ht => List.mem_cons_of_mem _ ht, trivial⟩
    obtain ⟨t, ht, hsucceeded, listing, hl'⟩ := hheld.passes_successor hn hlinked (Directory.lists_shown hl) 1 (by decide) (by rintro _ ⟨⟩; decide) rfl
      (by decide) (by decide) (by decide) (by decide) hpass
    have hcompacted := hcrashed.compact (.of_none _) trivial 1 (Directory.lists_shown hl) _ _ ht
    have hchain : Linked [⟨1, 1, [firstCommand]⟩, ⟨2, 1, []⟩] := List.IsChain.cons_cons ⟨rfl, by decide⟩ (List.IsChain.singleton _)
    have hopen := (hsucceeded.openAll_eq_ok_iff hn 1 hl' _).mpr ⟨List.cons_ne_nil _ _, hchain, rfl⟩
    have hresume : RotatingJournal.resume 1 ⟨[], ['j']⟩ listing true t =
        .ok ⟨⟨[], ['j']⟩, 1, some (segmentName ⟨[], ['j']⟩ 2, Archived.journal ⟨2, 1, []⟩ 1), 2, 0⟩ := by
      rw [RotatingJournal.resume, hopen]
      rfl
    have hresumed := hcompacted.resume (.of_none _) 1 hl' hopen trivial hresume
    obtain ⟨init, last, hsegs, hlive', -⟩ := hsucceeded.resume hl' hresume
    obtain ⟨rfl, hlast⟩ := List.append_inj' hsegs rfl
    cases hlast
    obtain ⟨u, r', hdone, -, -⟩ := hresumed.acknowledges earlierCommand hlive' hl' rfl (by decide) (by decide)
    refine ⟨u, r', hdone, fun hordered => ?_⟩
    have htimes := ((List.pairwise_cons.mp hordered).1 earlierCommand List.mem_cons_self).2
    exact absurd htimes (by decide)
  · cases hc

end MatchingEngine

import MatchingEngine.Lemmas.WriterCourses

/-!
# Histories of a rotating journal

Over every history of a prefix without compaction: whenever no writer has a segment open, the segments open as a chain that reads back
what the writers have acknowledged, with at most one more command for each writer, if the prefix has a file name that
`JournalSegmentSet::open` takes. `RotatingJournal::create` makes segments under any other prefix as well, and these never open.
-/

namespace MatchingEngine

open MmapJournal

/-- What a writer leaves: the commands it has acknowledged, and perhaps the one it has published. -/
def MmapJournal.Account.Leaves (a : Account) (cs : List SequencedCommand) : Prop :=
  cs = a.acknowledged ∨ ∃ c ∈ a.published, cs = a.acknowledged ++ [c]

/-- What writers leave one after the other. -/
def Explains (accounts : List Account) (cs : List SequencedCommand) : Prop :=
  ∃ parts, List.Forall₂ Account.Leaves accounts parts ∧ cs = parts.flatten

/-- One prefix, created once, with any number of writers after it and no compaction. -/
def writersOnly : Rules := ⟨fun accounts _ => accounts = [⟨[], none⟩], fun _ _ => True, False⟩

/-- What is kept along a history: nothing yet, or settled segments that the accounts explain, or a writer that adds to them. -/
inductive Kept (stem : PathPrefix) : List Account → Account → System → Prop where
  | start {d : Directory} (held : Holds stem d []) : Kept stem [] ⟨[], none⟩ ⟨d, none⟩
  | quiet {past : List Account} {a : Account} {s : System} {segs : List Archived} (quiescent : s.Quiescent)
      {before cs : List SequencedCommand} (held : Holds stem s.directory segs) (linked : Linked segs) (nonempty : segs ≠ [])
      (began : past ≠ []) (explained : Explains past before) (leaves : a.Leaves cs)
      (contents : segs.flatMap Archived.commands = before ++ cs) : Kept stem past a s
  | live {past : List Account} {a : Account} {d : Directory} {pid : Nat} {r : RotatingJournal} {init : List Archived} {last : Archived}
      {before : List SequencedCommand} (live : Live stem d pid r init last a.published) (began : past ≠ [])
      (explained : Explains past before) (contents : (tally init last).1 = before ++ a.acknowledged) :
      Kept stem past a ⟨d, some (pid, r)⟩

section

variable {stem : PathPrefix} {past : List Account} {a : Account} {d d' : Directory} {init : List Archived} {last : Archived}
  {before cs : List SequencedCommand}

theorem Explains.snoc (h : Explains past before) (ha : a.Leaves cs) : Explains (past ++ [a]) (before ++ cs) := by
  obtain ⟨parts, hparts, rfl⟩ := h
  refine ⟨parts ++ [cs], List.rel_append hparts (.cons ha .nil), ?_⟩
  rw [List.flatten_append, List.flatten_singleton]

/-- An interrupted append leaves as much. -/
theorem MmapJournal.Account.Leaves.interrupted (h : a.Leaves cs) (c : SequencedCommand) : (a.interrupted c).Leaves cs := by
  rcases h with h | ⟨c', hc', h⟩
  · exact Or.inl h
  · exact Or.inr ⟨c', by rw [Account.interrupted, hc']; rfl, h⟩

/-- What the closed segments and the active one hold, once the active one is settled. -/
theorem flatMap_replaceLast (cs : List SequencedCommand) :
    (init ++ [{ last with commands := last.commands ++ cs }]).flatMap Archived.commands = (tally init last).1 ++ cs := by
  simp [tally]

/-- A writer whose files are settled leaves what it has acknowledged, and perhaps one more command. -/
theorem Kept.of_settled {s : System} {maybe : Option SequencedCommand} (hs : s.Quiescent) (hp : past ≠ []) (he : Explains past before)
    (hc : (tally init last).1 = before ++ a.acknowledged) (hmaybe : ∀ c ∈ maybe, c ∈ a.published)
    (h : ∃ cs, Holds stem s.directory (init ++ [{ last with commands := cs }]) ∧ Linked (init ++ [{ last with commands := cs }]) ∧
      (cs = last.commands ∨ ∃ c ∈ maybe, cs = last.commands ++ [c])) : Kept stem past a s := by
  have hne : ∀ s : Archived, init ++ [s] ≠ [] := fun s => List.append_ne_nil_of_right_ne_nil _ (List.cons_ne_nil _ _)
  obtain ⟨cs, hheld, hlinked, rfl | ⟨c, hcm, rfl⟩⟩ := h
  · exact .quiet hs hheld hlinked (hne _) hp he (Or.inl rfl) hc
  · refine .quiet hs hheld hlinked (hne _) hp he (Or.inr ⟨c, hmaybe c hcm, rfl⟩) ?_
    rw [flatMap_replaceLast, hc, List.append_assoc]

/-- A crash in the middle of an append. Where nothing is open, the call does nothing. -/
theorem Kept.crashAppending {pid : Nat} {r : RotatingJournal} {t : Directory} (h : Kept stem past a ⟨d, some (pid, r)⟩)
    (command : SequencedCommand) (calls : RotatingJournal.AppendCalls) (ht : t ∈ (r.append pid command calls).stops d)
    (hc : t.CrashesTo d') : Kept stem past (a.interrupted command) ⟨d', none⟩ := by
  have hquiet := System.Quiescent.of_none d'
  cases h with
  | quiet quiescent held linked nonempty began explained leaves contents =>
    have hactive : r.active = none := quiescent _ rfl
    rw [RotatingJournal.append, hactive] at ht
    have ht' : t = d := List.mem_singleton.mp ht
    subst ht'
    exact .quiet hquiet (held.crash hc) linked nonempty began explained (leaves.interrupted command) contents
  | live live began explained contents =>
    obtain ⟨init', last', maybe', hw, htally, hmaybe⟩ :=
      (live.append command calls).stops ⟨_, _, _, live.writes, rfl, Or.inl rfl⟩ t ht
    refine Kept.of_settled (a := a.interrupted command) hquiet began explained (htally ▸ contents) (fun c hcm => ?_) (hw.crash hc)
    rcases hmaybe with rfl | ⟨hnone, rfl⟩
    · rw [Account.interrupted, hcm]
      rfl
    · cases hcm
      rw [Account.interrupted, hnone]
      rfl

/-- An append that returns. -/
theorem Kept.append {pid : Nat} {r : RotatingJournal} (h : Kept stem past a ⟨d, some (pid, r)⟩) (command : SequencedCommand)
    (calls : RotatingJournal.AppendCalls) :
    Kept stem past (a.after command ((r.append pid command calls).run d).result.1)
      ⟨((r.append pid command calls).run d).final, some (pid, ((r.append pid command calls).run d).result.2)⟩ := by
  cases h with
  | quiet quiescent held linked nonempty began explained leaves contents =>
    have hactive : r.active = none := quiescent _ rfl
    rw [RotatingJournal.append, hactive]
    exact .quiet quiescent held linked nonempty began explained leaves contents
  | live live began explained contents =>
    obtain ⟨-, init', last', maybe', hlive, houtcome⟩ := live.append command calls
    generalize (r.append pid command calls).run d = result at hlive houtcome ⊢
    obtain ⟨passed, final, e, r'⟩ := result
    simp only at hlive houtcome ⊢
    generalize htime : r'.lastLogicalTime = time at houtcome
    generalize hall : tally init' last' = all at houtcome
    cases houtcome with
    | refused ne ne' =>
      rw [Account.after_of_ne ne ne']
      exact .live hlive began explained (by rw [hall, contents])
    | published none => exact .live hlive began explained (by rw [hall, contents]; rfl)
    | acknowledged none time_le sequence =>
      refine .live ?_ began explained (by rw [hall, contents, List.append_assoc]; rfl)
      rw [Account.after, none]
      exact hlive

/-- A closing that returns, and one that is interrupted. -/
theorem Kept.close {pid : Nat} {r : RotatingJournal} (h : Kept stem past a ⟨d, some (pid, r)⟩) (calls : CloseCalls) :
    Kept stem past a ⟨((r.close pid calls).run d).final, some (pid, ((r.close pid calls).run d).result.2)⟩ := by
  cases h with
  | quiet quiescent held linked nonempty began explained leaves contents =>
    have hactive : r.active = none := quiescent _ rfl
    rw [RotatingJournal.close, hactive]
    exact .quiet quiescent held linked nonempty began explained leaves contents
  | live live began explained contents =>
    obtain ⟨-, -, ⟨hactive, hw, v, hfile⟩ | hlive⟩ := live.close calls
    · exact Kept.of_settled (by rintro _ ⟨⟩; exact hactive) began explained contents (fun _ => id) (hw.holds_of_settled hfile)
    · exact .live hlive began explained contents

theorem Kept.crashClosing {pid : Nat} {r : RotatingJournal} {t : Directory} (h : Kept stem past a ⟨d, some (pid, r)⟩)
    (calls : CloseCalls) (ht : t ∈ (r.close pid calls).stops d) (hc : t.CrashesTo d') : Kept stem past a ⟨d', none⟩ := by
  have hquiet := System.Quiescent.of_none d'
  cases h with
  | quiet quiescent held linked nonempty began explained leaves contents =>
    have hactive : r.active = none := quiescent _ rfl
    rw [RotatingJournal.close, hactive] at ht
    have ht' : t = d := List.mem_singleton.mp ht
    subst ht'
    exact .quiet hquiet (held.crash hc) linked nonempty began explained leaves contents
  | live live began explained contents =>
    exact Kept.of_settled hquiet began explained contents (fun _ => id) (((live.close calls).stops live.writes t ht).crash hc)

/-- Every history keeps it. -/
theorem History.kept {s : System} (h : History writersOnly stem past a s) : Kept stem past a s := by
  induction h with
  | start empty => exact .start ⟨nofun, nofun, fun path hp hb => absurd (empty path hp) hb, List.Pairwise.nil⟩
  | create before quiet allowed pid capacity base created ih =>
    cases ih with
    | start held => exact .live (held.createFirst created) (List.cons_ne_nil _ _) ⟨[[]], .cons (Or.inl rfl) .nil, rfl⟩ rfl
    | quiet quiescent held linked nonempty began explained leaves contents => exact absurd (List.append_eq_singleton_iff.mp allowed) (by simp [began])
    | live live began explained contents => exact absurd (List.append_eq_singleton_iff.mp allowed) (by simp [began])
  | append before command calls ih => exact ih.append command calls
  | crashAppending before command calls stopped crashed ih => exact ih.crashAppending command calls stopped crashed
  | close before calls ih => exact ih.close calls
  | crashClosing before calls stopped crashed ih => exact ih.crashClosing calls stopped crashed
  | resume before quiet pid listed opened allowed resumed ih =>
    cases ih with
    | start held =>
      obtain ⟨init, last, he, -⟩ := held.resume listed resumed
      exact absurd he.symm (List.append_ne_nil_of_right_ne_nil _ (List.cons_ne_nil _ _))
    | quiet quiescent held linked nonempty began explained leaves contents =>
      obtain ⟨init, last, rfl, hlive, -⟩ := held.resume listed resumed
      refine .live hlive (List.append_ne_nil_of_right_ne_nil _ (List.cons_ne_nil _ _)) (explained.snoc leaves) ?_
      rw [List.append_nil]
      exact contents
    | live live began explained contents =>
      obtain ⟨mapped, descriptor, hactive⟩ := live.active
      exact absurd (hactive.symm.trans (quiet _ rfl)) nofun
  | compact before quiet allowed => exact absurd allowed id

end

/-! ## A prefix with one empty segment -/

/-- The files of a prefix whose writer was created and closed again. -/
def createdAndClosed (stem : PathPrefix) : System :=
  ⟨Function.update (fun _ => none) (segmentName stem 1) (some ⟨.settled (createdBytes 1 1), kJournalHeaderSize + 1 * kJournalRecordSize⟩),
    some (1, ⟨stem, 1, none, 1, 0⟩)⟩

theorem createdAndClosed_listing (stem : PathPrefix) : (createdAndClosed stem).directory.Lists [segmentName stem 1] where
  nodup := List.nodup_singleton _
  mem_iff path := by
    by_cases h : path = segmentName stem 1
    · simp [createdAndClosed, h]
    · simp [createdAndClosed, h]

/-- The writer of that prefix while it is open. -/
def createdWriter (stem : PathPrefix) : RotatingJournal := ⟨stem, 1, some (segmentName stem 1, attached 1 1 1), 1, 0⟩

theorem create_createdWriter {stem : PathPrefix} (h : stem.isEmpty = false) : (RotatingJournal.create 1 stem 1 1 none).run (fun _ => none) =
    ⟨[(createdAndClosed stem).directory], (createdAndClosed stem).directory, .ok (createdWriter stem)⟩ := by
  have hpath : segmentPath stem 1 = .ok (segmentName stem 1) := if_neg (by rw [h]; exact nofun)
  rw [RotatingJournal.create, hpath]
  rfl

/-- A history up to the creation. -/
theorem history_created {rules : Rules} {stem : PathPrefix} (h : stem.isEmpty = false)
    (hr : rules.create [⟨[], none⟩] ⟨fun _ => none, none⟩) :
    History rules stem [⟨[], none⟩] ⟨[], none⟩ ⟨(createdAndClosed stem).directory, some (1, createdWriter stem)⟩ := by
  have hstart : History rules stem [] ⟨[], none⟩ ⟨fun _ => none, none⟩ := .start nofun
  have hcreated := hstart.create (.of_none _) hr 1 1 1 (congrArg Passage.result (create_createdWriter h))
  rw [create_createdWriter h] at hcreated
  exact hcreated

/-- A market order of five. -/
def marketOrder (sequence logicalTime : UInt64) : SequencedCommand := ⟨⟨2, 0, 0, 0, 1, 0, 5, 0, 0⟩, sequence, logicalTime⟩

/-- Every system call succeeds. -/
def RotatingJournal.AppendCalls.succeed : AppendCalls := ⟨⟨true, true, true, true⟩, none, ⟨true, true⟩, ⟨true, true⟩⟩

/-- The next segment cannot be created. -/
def RotatingJournal.AppendCalls.failToCreate : AppendCalls := { succeed with create := some .ioError }

/-- The commit marker is written, but not synchronised. -/
def RotatingJournal.AppendCalls.failToCommit : AppendCalls := { succeed with commit := ⟨true, false⟩ }

/-- A writer of segments of one command each, with its first command. -/
def firstCourse : WriterCourse :=
  WriterCourse.append ⟨1, ⟨[], none⟩, (createdAndClosed ⟨[], ['j']⟩).directory, createdWriter ⟨[], ['j']⟩, [segmentName ⟨[], ['j']⟩ 1]⟩
    (marketOrder 1 10) .succeed

/-- The creation of its second segment fails and is tried again; its third command is published and not acknowledged. -/
def failedCourse : WriterCourse :=
  ((firstCourse.append (marketOrder 2 12) .failToCreate).append (marketOrder 2 12) .succeed).append (marketOrder 3 14) .failToCommit

/-- The writer that resumes on the third segment. -/
def resumedWriter : RotatingJournal := ⟨⟨[], ['j']⟩, 1, some (segmentName ⟨[], ['j']⟩ 3, ⟨true, true, 1, 3, 1, 14, 2, false⟩), 3, 14⟩

/-- After a crash the writer that resumes appends the fourth command. -/
def resumedCourse : WriterCourse := (failedCourse.resume 2 resumedWriter).append (marketOrder 4 20) .succeed

/-- What it has acknowledged and published. -/
theorem failedCourse_account : failedCourse.account = ⟨[marketOrder 1 10, marketOrder 2 12], some (marketOrder 3 14)⟩ := rfl

/-- Its three segments. -/
theorem failedCourse_listing : failedCourse.listing = [1, 2, 3].map (segmentName ⟨[], ['j']⟩) := rfl

/-- What the writer that resumes has acknowledged. -/
theorem resumedCourse_account : resumedCourse.account = ⟨[marketOrder 4 20], none⟩ := rfl

/-- It runs wherever a first writer may be created. -/
theorem failedCourse_runs {rules : Rules} (hr : rules.create [⟨[], none⟩] ⟨fun _ => none, none⟩) :
    failedCourse.Runs rules ⟨[], ['j']⟩ [⟨[], none⟩] := by
  have hcreated : WriterCourse.Runs rules ⟨[], ['j']⟩ [⟨[], none⟩]
      ⟨1, ⟨[], none⟩, (createdAndClosed ⟨[], ['j']⟩).directory, createdWriter ⟨[], ['j']⟩, [segmentName ⟨[], ['j']⟩ 1]⟩ :=
    ⟨history_created rfl hr, createdAndClosed_listing _, by rintro _ ⟨⟩; exact List.mem_cons_self⟩
  exact (((hcreated.append _ _).append _ _).append _ _).append _ _

/-- It runs where a writer may resume on a segment with commands. -/
theorem resumedCourse_runs {rules : Rules} (hr : rules.create [⟨[], none⟩] ⟨fun _ => none, none⟩)
    (hresume : ∀ accounts segments, (∀ s ∈ segments.getLast?, s.journal.size ≠ 0) → rules.resume accounts segments) :
    resumedCourse.Runs rules ⟨[], ['j']⟩ [⟨[], none⟩, ⟨[marketOrder 1 10, marketOrder 2 12], some (marketOrder 3 14)⟩] := by
  have hruns := failedCourse_runs hr
  have hfound : JournalSegmentSet.candidates ⟨[], ['j']⟩ failedCourse.listing =
      .ok ([1, 2, 3].map fun base => (base, segmentName ⟨[], ['j']⟩ base)) := by
    rw [failedCourse_listing]
    rfl
  obtain ⟨hresumed, segments, hopened, hlast⟩ := resume_of_sorted 2 failedCourse.directory.shown resumedWriter
    ⟨by decide, by decide, by decide⟩ hfound (by decide) (by decide) (by decide +kernel)
  have hallowed := hresume ([⟨[], none⟩] ++ [failedCourse.account]) segments fun s hs => by
    have hsize : some 1 = some s.journal.size := congrArg (Option.map fun a : Path × MmapJournal => a.2.size) (hlast s hs)
    rw [← Option.some.inj hsize]
    exact one_ne_zero
  have hactive : ∀ a ∈ resumedWriter.active, a.1 ∈ failedCourse.listing := by
    rw [failedCourse_listing]
    rintro _ ⟨⟩
    decide
  have hcourse := (hruns.resume 2 hopened hallowed hresumed hactive).append (marketOrder 4 20) .succeed
  rw [failedCourse_account] at hcourse
  exact hcourse

end MatchingEngine

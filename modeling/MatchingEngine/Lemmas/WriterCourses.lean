import MatchingEngine.Compaction
import MatchingEngine.Lemmas.Rotation

/-!
# Courses of a writer

A course is a writer of a prefix whose system calls have given outcomes: each call is evaluated, and what it leaves is a system of a
history. A crash between two calls leaves every file as it was shown.
-/

namespace MatchingEngine

open MmapJournal

/-- Two directories have the same files, with whatever content. -/
def Directory.SameFiles (d t : Directory) : Prop := ∀ path, (t path).isSome = (d path).isSome

/-- Writing to a file keeps the files. -/
theorem Directory.sameFiles_setContent (d : Directory) (path : Path) (content : Mapped) : d.SameFiles (d.setContent path content) := by
  intro q
  by_cases hq : q = path
  · rw [setContent, hq, Function.update_self, Option.isSome_map]
  · rw [setContent, Function.update_of_ne hq]

section

variable {d : Directory} {pid : Nat} {path : Path}

/-- So does a program on a file. -/
theorem Directory.sameFiles_onFile {α : Type} (p : Prog Mapped α) : (Directory.onFile path p).Ensures d d.SameFiles fun _ t => d.SameFiles t :=
  Prog.ensures_focus.mpr ⟨fun t _ => d.sameFiles_setContent path t, d.sameFiles_setContent path _⟩

namespace RotatingJournal

/-- Closing a segment keeps the files. -/
theorem closeFile_files (j : MmapJournal) (calls : CloseCalls) :
    (closeFile pid path j calls).Ensures d (fun _ => True) fun _ t => d.SameFiles t := by
  rw [closeFile, Prog.ensures_bind]
  refine (Directory.sameFiles_onFile _).mono (fun _ _ => trivial) fun closed t ht => ?_
  by_cases hb : (!closed.2.mapped && !closed.2.descriptor) = true
  · rw [if_pos hb, Prog.ensures_bind]
    exact (Directory.sameFiles_onFile _).mono (fun _ _ => trivial) fun _ u hu => Prog.ensures_pure.mpr fun q => (hu q).trans (ht q)
  · rw [if_neg hb]
    exact Prog.ensures_pure.mpr ht

/-- The files after an append are those before it, and the active one. -/
def FilesAfter (d : Directory) (r : RotatingJournal) (t : Directory) : Prop :=
  ∀ q, (t q).isSome = true ↔ (d q).isSome = true ∨ ∃ a ∈ r.active, a.1 = q

/-- The append to the active segment adds no file. -/
theorem appendActive_files (r : RotatingJournal) (command : SequencedCommand) (calls : AppendCalls) {t : Directory}
    (h : FilesAfter d r t) : (r.appendActive pid command calls).Ensures t (fun _ => True) fun res u => FilesAfter d res.2 u := by
  unfold appendActive
  split
  · exact Prog.ensures_pure.mpr h
  · rename_i path journal hactive
    rw [Prog.ensures_bind]
    refine (Directory.sameFiles_onFile _).mono (fun _ _ => trivial) fun appended u hu => Prog.ensures_pure.mpr fun q => ?_
    rw [hu q, h q, hactive]
    split <;> simp

/-- A rotation adds the segment it makes active, or none. -/
theorem rotate_files (r : RotatingJournal) (j : MmapJournal) (calls : AppendCalls) (hpath : (d path).isSome = true) :
    (r.rotate pid path j calls).Ensures d (fun _ => True) fun res t => FilesAfter d res.2 t := by
  have hsame {t : Directory} (ht : d.SameFiles t) (closed : MmapJournal) : FilesAfter d { r with active := some (path, closed) } t := by
    intro q
    rw [ht q]
    refine ⟨Or.inl, ?_⟩
    rintro (hq | ⟨_, ⟨⟩, rfl⟩)
    · exact hq
    · exact hpath
  unfold rotate
  rw [Prog.ensures_bind]
  refine (closeFile_files j calls.close).mono (fun _ => id) fun closed t ht => ?_
  dsimp only
  split
  · exact Prog.ensures_pure.mpr (hsame ht _)
  split
  · exact Prog.ensures_pure.mpr (hsame ht _)
  · rename_i next _
    rw [Prog.ensures_bind]
    unfold MmapJournal.create
    split
    · exact Prog.ensures_pure.mpr (Prog.ensures_pure.mpr (hsame ht _))
    rw [Prog.ensures_bind, Prog.ensures_get]
    split
    · exact Prog.ensures_pure.mpr (Prog.ensures_pure.mpr (hsame ht _))
    cases calls.create with
    | some failure => exact Prog.ensures_pure.mpr (Prog.ensures_pure.mpr (hsame ht _))
    | none =>
      simp only [Prog.ensures_bind, Prog.ensures_step, Prog.ensures_pure, true_and]
      intro q
      by_cases hq : q = next
      · simp [hq]
      · rw [Function.update_of_ne hq, ht q]
        simp [Ne.symm hq]

/-- An append adds the segment it makes active, or none. -/
theorem append_files (r : RotatingJournal) (pid : Nat) (command : SequencedCommand) (calls : AppendCalls) (hactive : ∀ a ∈ r.active, (d a.1).isSome = true) :
    (r.append pid command calls).Ensures d (fun _ => True) fun res t => FilesAfter d res.2 t := by
  have hstart : FilesAfter d r d := fun q => ⟨Or.inl, by
    rintro (hq | ⟨a, ha, rfl⟩)
    · exact hq
    · exact hactive a ha⟩
  unfold append
  split
  · exact Prog.ensures_pure.mpr hstart
  rename_i path journal hpath
  split
  · exact Prog.ensures_pure.mpr hstart
  split
  · rw [Prog.ensures_bind]
    refine (rotate_files r journal calls (hactive _ hpath)).mono (fun _ => id) fun rotated t ht => ?_
    split
    · exact Prog.ensures_pure.mpr ht
    · exact appendActive_files _ command calls ht
  · exact appendActive_files r command calls hstart

/-- A closing keeps the files. -/
theorem close_files (r : RotatingJournal) (pid : Nat) (calls : CloseCalls) :
    (r.close pid calls).Ensures d (fun _ => True) fun _ t => d.SameFiles t := by
  unfold close
  split
  · exact Prog.ensures_pure.mpr fun _ => rfl
  · rw [Prog.ensures_bind]
    exact (closeFile_files _ calls).mono (fun _ => id) fun _ _ ht => Prog.ensures_pure.mpr ht

end RotatingJournal

end

/-! ## A writer whose calls have given outcomes -/

/-- The directory in which every file holds for good what it shows. -/
def Directory.shown (d : Directory) : Directory := fun path => (d path).map fun file => { file with content := .settled file.content.now }

/-- A crash may leave every file as it was shown. -/
theorem Directory.crashesTo_shown (d : Directory) : d.CrashesTo d.shown where
  files path file hfile := ⟨_, Mapped.survives_now _ _, by rw [shown, hfile]; rfl⟩
  absent path hnone := by
    rw [shown, hnone]
    rfl

/-- The same files are there. -/
theorem Directory.lists_shown {d : Directory} {listing : List Path} (h : d.Lists listing) : d.shown.Lists listing where
  nodup := h.nodup
  mem_iff path := by rw [h.mem_iff, shown, Option.isSome_map]

/-- A writer on the files of a prefix: its process, its account, and a listing of the files. -/
structure WriterCourse where
  pid : Nat
  account : Account
  directory : Directory
  writer : RotatingJournal
  listing : List Path

namespace WriterCourse

/-- What the writer returns for a command. -/
def outcome (c : WriterCourse) (command : SequencedCommand) (calls : RotatingJournal.AppendCalls) : JournalError :=
  ((c.writer.append c.pid command calls).run c.directory).result.1

/-- The writer after a command; its active file is listed behind the others if it is new. -/
def append (c : WriterCourse) (command : SequencedCommand) (calls : RotatingJournal.AppendCalls) : WriterCourse :=
  let passage := (c.writer.append c.pid command calls).run c.directory
  ⟨c.pid, c.account.after command passage.result.1, passage.final, passage.result.2,
    c.listing ++ (passage.result.2.active.toList.map Prod.fst).filter (· ∉ c.listing)⟩

/-- Another process goes on with the files that a crash between two calls leaves. -/
def resume (c : WriterCourse) (pid : Nat) (writer : RotatingJournal) : WriterCourse := ⟨pid, ⟨[], none⟩, c.directory.shown, writer, c.listing⟩

/-- The writer is there after a history, and its active file is listed. -/
structure Runs (rules : Rules) (stem : PathPrefix) (past : List Account) (c : WriterCourse) : Prop where
  history : History rules stem past c.account ⟨c.directory, some (c.pid, c.writer)⟩
  listed : c.directory.Lists c.listing
  active : ∀ a ∈ c.writer.active, a.1 ∈ c.listing

variable {rules : Rules} {stem : PathPrefix} {past : List Account} {c : WriterCourse}

/-- A call that returns. -/
theorem Runs.append (h : c.Runs rules stem past) (command : SequencedCommand) (calls : RotatingJournal.AppendCalls) :
    (c.append command calls).Runs rules stem past where
  history := h.history.append command calls
  listed := by
    have hfiles := (RotatingJournal.append_files c.writer c.pid command calls fun a ha => (h.listed.mem_iff a.1).mp (h.active a ha)).2
    refine ⟨List.nodup_append.mpr ⟨h.listed.nodup, ?_, ?_⟩, fun path => ?_⟩
    · refine List.Nodup.filter _ ?_
      cases ((c.writer.append c.pid command calls).run c.directory).result.2.active <;> simp
    · rintro q hq _ hr rfl
      exact of_decide_eq_true (List.mem_filter.mp hr).2 hq
    · rw [WriterCourse.append, hfiles path, ← h.listed.mem_iff path]
      by_cases hpath : path ∈ c.listing <;> simp [hpath]
  active a ha := by
    dsimp only [WriterCourse.append] at ha ⊢
    by_cases hpath : a.1 ∈ c.listing
    · exact List.mem_append_left _ hpath
    · refine List.mem_append_right _ (List.mem_filter.mpr ⟨List.mem_map_of_mem ?_, decide_eq_true hpath⟩)
      exact Option.mem_toList.mpr ha

/-- The writer closes, and the same files are there. -/
theorem Runs.close (h : c.Runs rules stem past) (calls : CloseCalls) :
    History rules stem past c.account ⟨((c.writer.close c.pid calls).run c.directory).final,
      some (c.pid, ((c.writer.close c.pid calls).run c.directory).result.2)⟩ ∧
    ((c.writer.close c.pid calls).run c.directory).final.Lists c.listing := by
  have hsame := (RotatingJournal.close_files (d := c.directory) c.writer c.pid calls).2
  exact ⟨h.history.close calls, h.listed.nodup, fun path => by rw [h.listed.mem_iff, hsame path]⟩

/-- A crash between two calls, after which another process resumes. -/
theorem Runs.resume (h : c.Runs rules stem past) (pid : Nat) {segments : List Segment} {writer : RotatingJournal}
    (opened : JournalSegmentSet.openAll pid stem c.listing c.directory.shown = .ok segments)
    (allowed : rules.resume (past ++ [c.account]) segments)
    (resumed : RotatingJournal.resume pid stem c.listing true c.directory.shown = .ok writer)
    (active : ∀ a ∈ writer.active, a.1 ∈ c.listing) : (c.resume pid writer).Runs rules stem (past ++ [c.account]) where
  history :=
    (h.history.crashClosing ⟨true, true, true, true⟩ List.mem_cons_self c.directory.crashesTo_shown).resume nofun pid
      (Directory.lists_shown h.listed) opened allowed resumed
  listed := Directory.lists_shown h.listed
  active := active

end WriterCourse

/-- `resume` on a listing that has the segments in their order. -/
theorem resume_of_sorted {stem : PathPrefix} {listing : List Path} {found : List (UInt64 × Path)} (pid : Nat) (d : Directory)
    (writer : RotatingJournal) (hn : stem.Named) (hfound : JournalSegmentSet.candidates stem listing = .ok found) (hne : found ≠ [])
    (hsorted : found.Pairwise fun a b => a.1 ≤ b.1)
    (hwriter : (do
      let segments ← JournalSegmentSet.openCandidates pid d none found
      let last ← JournalSegmentSet.releaseLast segments true
      return (⟨stem, last.journal.capacity, some (last.path, last.journal), segments.length, last.journal.lastLogicalTime⟩ : RotatingJournal)) =
        .ok writer) :
    RotatingJournal.resume pid stem listing true d = .ok writer ∧ ∃ segments, JournalSegmentSet.openAll pid stem listing d = .ok segments ∧
      ∀ s ∈ segments.getLast?, writer.active = some (s.path, s.journal) := by
  have hopen : JournalSegmentSet.openAll pid stem listing d = JournalSegmentSet.openCandidates pid d none found := by
    have hstem : ¬(stem.isEmpty = true ∨ stem.name = [] ∨ stem.name = ['.'] ∨ stem.name = ['.', '.']) := by
      rw [PathPrefix.isEmpty, decide_eq_true_iff]
      exact not_or.mpr ⟨fun h => hn.1 h.2, not_or.mpr ⟨hn.1, not_or.mpr hn.2⟩⟩
    have hsome : ¬found.isEmpty = true := fun h => hne (List.isEmpty_iff.mp h)
    rw [JournalSegmentSet.openAll, if_neg hstem, hfound]
    simp only [bind, Except.bind]
    rw [if_neg hsome, List.mergeSort_of_pairwise (hsorted.imp decide_eq_true)]
  rw [RotatingJournal.resume, hopen]
  refine ⟨hwriter, ?_⟩
  cases hall : JournalSegmentSet.openCandidates pid d none found with
  | error e =>
    rw [hall] at hwriter
    cases hwriter
  | ok segments =>
    rw [hall] at hwriter
    refine ⟨segments, rfl, fun s hs => ?_⟩
    simp only [bind, Except.bind, JournalSegmentSet.releaseLast, Option.mem_def.mp hs, Bool.not_true, Bool.false_and, Bool.false_eq_true,
      if_false, pure, Except.pure] at hwriter
    cases hwriter
    rfl

end MatchingEngine

import MatchingEngine.Lemmas.Segments

/-!
# The writer of segments

What the directory holds at every step of a writer. A writer has closed segments and an active one: the directory `Writes` them when,
whatever the active file comes to show, it holds the closed segments and what is shown. The steps of an append, of a rotation and of
a closing change the active file only, or add an empty segment behind a full one; a crash leaves the active segment with its commands,
or with one more.
-/

namespace MatchingEngine

open Function

/-! ## Directories -/

section

variable {stem : PathPrefix} {d : Directory} {segs init : List Archived} {s last : Archived}

/-- The name of a segment does not depend on its commands. -/
theorem Archived.path_commands (s : Archived) (cs : List SequencedCommand) : ({ s with commands := cs } : Archived).path stem = s.path stem :=
  rfl

theorem Archived.path_ne (hs : s.Valid) (hl : last.Valid) (h : s.base ≠ last.base) : s.path stem ≠ last.path stem :=
  fun he => h (segmentName_inj hs.base_ne_zero hl.base_ne_zero he)

/-- A segment behind the others. -/
theorem Holds.snoc (h : Holds stem d segs) (hvalid : s.Valid) (hlt : ∀ t ∈ segs, t.base < s.base) {v : Buffer}
    (hv : Shows s.capacity s.base s.commands v) :
    Holds stem (update d (s.path stem) (some ⟨.settled v, s.fileSize⟩)) (segs ++ [s]) where
  valid t ht := by
    rcases List.mem_append.mp ht with ht | ht
    · exact h.valid t ht
    · rw [List.mem_singleton.mp ht]
      exact hvalid
  files t ht := by
    rcases List.mem_append.mp ht with ht | ht
    · obtain ⟨w, hfile, hw⟩ := h.files t ht
      have hne : t.base ≠ s.base := fun he => UInt64.lt_irrefl s.base (by have := hlt t ht; rwa [he] at this)
      exact ⟨w, by rw [update_of_ne (Archived.path_ne (h.valid t ht) hvalid hne), hfile], hw⟩
    · rw [List.mem_singleton.mp ht]
      exact ⟨v, update_self .., hv⟩
  only path hpath hbase := by
    by_cases he : path = s.path stem
    · exact ⟨s, List.mem_append_right _ List.mem_cons_self, he⟩
    · rw [update_of_ne he] at hpath
      obtain ⟨t, ht, rfl⟩ := h.only path hpath hbase
      exact ⟨t, List.mem_append_left _ ht, rfl⟩
  ordered := by
    refine List.pairwise_append.mpr ⟨h.ordered, List.pairwise_singleton _ _, fun t ht u hu => ?_⟩
    rw [List.mem_singleton.mp hu]
    exact hlt t ht

/-- The last segment with other commands. Without its file the directory holds the others. -/
theorem Holds.replaceLast (h : Holds stem d (init ++ [last])) {cs : List SequencedCommand} {v : Buffer}
    (hc : Chain last.capacity last.base cs) (hv : Shows last.capacity last.base cs v) :
    Holds stem (update d (last.path stem) (some ⟨.settled v, last.fileSize⟩)) (init ++ [{ last with commands := cs }]) := by
  have hlast := h.valid last (List.mem_append_right _ List.mem_cons_self)
  obtain ⟨hord, -, hlt⟩ := List.pairwise_append.mp h.ordered
  have hlt' : ∀ t ∈ init, t.base < last.base := fun t ht => hlt t ht last List.mem_cons_self
  have hne : ∀ t ∈ init, t.path stem ≠ last.path stem := fun t ht =>
    Archived.path_ne (h.valid t (List.mem_append_left _ ht)) hlast fun he => UInt64.lt_irrefl last.base
      (by have := hlt' t ht; rwa [he] at this)
  have hinit : Holds stem (update d (last.path stem) none) init :=
    ⟨fun t ht => h.valid t (List.mem_append_left _ ht),
      fun t ht => by
        rw [update_of_ne (hne t ht)]
        exact h.files t (List.mem_append_left _ ht),
      fun path hpath hbase => by
        by_cases he : path = last.path stem
        · rw [he, update_self] at hpath
          cases hpath
        · rw [update_of_ne he] at hpath
          obtain ⟨t, ht, rfl⟩ := h.only path hpath hbase
          rcases List.mem_append.mp ht with ht | ht
          · exact ⟨t, ht, rfl⟩
          · exact absurd (by rw [List.mem_singleton.mp ht]) he,
      hord⟩
  have := hinit.snoc (s := { last with commands := cs }) ⟨hlast.created, hc⟩ hlt' hv
  rwa [last.path_commands cs, update_idem] at this

/-- Every chain of commands is shown by some file. -/
theorem Chain.exists_shows {capacity : Nat} {base : UInt64} {cs : List SequencedCommand} (h : Chain capacity base cs) :
    ∃ v, Shows capacity base cs v := by
  induction cs using List.reverseRecOn with
  | nil => exact ⟨_, createdBytes_shows capacity base⟩
  | append_singleton cs c ih =>
    obtain ⟨v, hv⟩ := ih h.of_append
    exact ⟨_, hv.splice_recordOf fun _ _ => rfl⟩

/-- Every list of segments in their order is held by some directory. -/
theorem exists_holds (stem : PathPrefix) (hvalid : ∀ s ∈ segs, s.Valid) (hord : segs.Pairwise fun s t => s.base < t.base) :
    ∃ d : Directory, Holds stem d segs ∧ d.Lists (segs.map fun s => s.path stem) := by
  induction segs using List.reverseRecOn with
  | nil =>
    exact ⟨fun _ => none, ⟨nofun, nofun, nofun, List.Pairwise.nil⟩, List.nodup_nil, fun path => ⟨nofun, nofun⟩⟩
  | append_singleton segs s ih =>
    obtain ⟨hord, -, hlt⟩ := List.pairwise_append.mp hord
    obtain ⟨d, hd, hl⟩ := ih (fun t ht => hvalid t (List.mem_append_left _ ht)) hord
    have hs := hvalid s (List.mem_append_right _ List.mem_cons_self)
    have hlt' : ∀ t ∈ segs, t.base < s.base := fun t ht => hlt t ht s List.mem_cons_self
    obtain ⟨v, hv⟩ := hs.chain.exists_shows
    have hnew : s.path stem ∉ segs.map fun t => t.path stem := by
      rw [List.mem_map]
      rintro ⟨t, ht, he⟩
      have := hlt' t ht
      rw [segmentName_inj (hd.valid t ht).base_ne_zero hs.base_ne_zero he] at this
      exact UInt64.lt_irrefl _ this
    refine ⟨_, hd.snoc hs hlt' hv, ?_, fun path => ?_⟩
    · rw [List.map_append, List.map_singleton]
      exact List.nodup_append.mpr ⟨hl.nodup, List.nodup_singleton _, fun p hp q hq he => hnew (by
        rwa [he, List.mem_singleton.mp hq] at hp)⟩
    · rw [List.map_append, List.map_singleton, List.mem_append, List.mem_singleton]
      by_cases he : path = s.path stem
      · simp [he]
      · rw [update_of_ne he, ← hl.mem_iff path]
        simp [he]

/-- Settled segments are found as they were. -/
theorem Holds.crash {d' : Directory} (h : Holds stem d segs) (hc : d.CrashesTo d') : Holds stem d' segs := by
  refine ⟨h.valid, fun s hs => ?_, fun path hpath hbase => h.only path ?_ hbase, h.ordered⟩
  · obtain ⟨v, hfile, hv⟩ := h.files s hs
    obtain ⟨image, hsurvives, hfile'⟩ := hc.files _ _ hfile
    exact ⟨v, by rw [hfile', hsurvives.of_settled], hv⟩
  · rw [Option.isSome_iff_ne_none]
    intro hnone
    rw [hc.absent path hnone] at hpath
    cases hpath

/-- A crash may be taken as the crash of a directory where a file is already what is found of it. -/
theorem Directory.CrashesTo.update_settled {d' : Directory} (h : d.CrashesTo d') {path : Path} {image : Buffer} {size : Nat}
    (hfile : d' path = some ⟨.settled image, size⟩) : Directory.CrashesTo (update d path (some ⟨.settled image, size⟩)) d' := by
  refine ⟨fun p file hp => ?_, fun p hp => ?_⟩
  · by_cases he : p = path
    · subst he
      rw [update_self, Option.some.injEq] at hp
      subst hp
      exact ⟨image, Mapped.survives_now _ (.settled image), hfile⟩
    · rw [update_of_ne he] at hp
      exact h.files p file hp
  · by_cases he : p = path
    · rw [he, update_self] at hp
      cases hp
    · rw [update_of_ne he] at hp
      exact h.absent p hp

end

/-! ## What a writer has -/

/-- The directory of a writer: closed segments, and an active one with commands and perhaps one more. `time` is the last logical time
the writer knows of. -/
structure Writes (stem : PathPrefix) (d : Directory) (time : UInt64) (init : List Archived) (last : Archived)
    (maybe : Option SequencedCommand) : Prop where
  others : ∀ cs v, Chain last.capacity last.base cs → Shows last.capacity last.base cs v →
    Holds stem (update d (last.path stem) (some ⟨.settled v, last.fileSize⟩)) (init ++ [{ last with commands := cs }])
  file : ∃ content, d (last.path stem) = some ⟨content, last.fileSize⟩ ∧ Stored last.capacity last.base last.commands maybe content
  chain : Chain last.capacity last.base (last.commands ++ maybe.toList)
  linked : Linked (init ++ [last])
  time_eq : last.commands ≠ [] → lastTime last.commands = time
  time_le : ∀ c ∈ maybe, time ≤ c.logicalTime

/-- The commands of the segments and the number after the last of them. -/
def tally (init : List Archived) (last : Archived) : List SequencedCommand × Nat :=
  ((init ++ [last]).flatMap Archived.commands, last.next)

section

variable {stem : PathPrefix} {d d' : Directory} {time : UInt64} {init : List Archived} {last : Archived}
  {maybe : Option SequencedCommand}

/-- The segment that is written is valid. -/
theorem Writes.valid (h : Writes stem d time init last maybe) : last.Valid :=
  have hheld := h.others [] _ (Chain.nil _ _) (createdBytes_shows _ _)
  ⟨(hheld.valid _ (List.mem_append_right _ List.mem_cons_self)).created, h.chain.of_append⟩

/-- The commands of the last segment do not link. -/
theorem linked_replaceLast (h : Linked (init ++ [last])) (cs : List SequencedCommand) :
    Linked (init ++ [{ last with commands := cs }]) := by
  obtain ⟨hinit, -, hlink⟩ := List.isChain_append.mp h
  refine List.isChain_append.mpr ⟨hinit, List.IsChain.singleton _, fun s hs t ht => ?_⟩
  rw [List.head?_cons, Option.mem_some_iff] at ht
  subst ht
  exact hlink s hs last rfl

/-- A directory that holds segments which follow one another is that of a writer. -/
theorem Holds.writes (h : Holds stem d (init ++ [last])) (hl : Linked (init ++ [last])) :
    Writes stem d (lastTime last.commands) init last none := by
  have hmem : last ∈ init ++ [last] := List.mem_append_right _ List.mem_cons_self
  obtain ⟨v, hfile, hv⟩ := h.files last hmem
  refine ⟨fun cs v hc hv => h.replaceLast hc hv, ⟨_, hfile, hv.stored⟩, ?_, hl, fun _ => rfl, nofun⟩
  rw [Option.toList_none, List.append_nil]
  exact (h.valid last hmem).chain

/-- Another content of the active file. -/
theorem Writes.setContent (h : Writes stem d time init last maybe) {time' : UInt64} {cs : List SequencedCommand}
    {maybe' : Option SequencedCommand} {content : Mapped} (hs : Stored last.capacity last.base cs maybe' content)
    (hc : Chain last.capacity last.base (cs ++ maybe'.toList)) (ht : cs ≠ [] → lastTime cs = time')
    (ht' : ∀ c ∈ maybe', time' ≤ c.logicalTime) :
    Writes stem (d.setContent (last.path stem) content) time' init { last with commands := cs } maybe' := by
  obtain ⟨old, hfile, -⟩ := h.file
  refine ⟨fun ds v hc hv => ?_, ⟨content, ?_, hs⟩, hc, linked_replaceLast h.linked cs, ht, ht'⟩
  · rw [Directory.setContent, last.path_commands cs, update_idem]
    exact h.others ds v hc hv
  · rw [Directory.setContent, last.path_commands cs, update_self, hfile]
    rfl

theorem Directory.setContent_contentAt (d : Directory) (path : Path) : d.setContent path (d.contentAt path) = d := by
  rw [Directory.setContent, Directory.contentAt]
  cases h : d path with
  | none => exact update_eq_self_iff.mpr h.symm
  | some file => exact update_eq_self_iff.mpr h.symm

/-- What a program on the active file ensures there. -/
theorem ensures_onFile {α : Type} {path : Path} {p : Prog Mapped α} {I : Mapped → Prop} {Q : α → Mapped → Prop}
    (h : p.Ensures (d.contentAt path) I Q) :
    (Directory.onFile path p).Ensures d (fun t => ∃ content, I content ∧ t = d.setContent path content)
      fun a t => ∃ content, Q a content ∧ t = d.setContent path content :=
  Prog.ensures_focus.mpr (h.mono (fun content hI => ⟨content, hI, rfl⟩) fun _ content hQ => ⟨content, hQ, rfl⟩)

/-- The segment that is written stores its commands. -/
theorem Writes.stored (h : Writes stem d time init last maybe) :
    Stored last.capacity last.base last.commands maybe (d.contentAt (last.path stem)) := by
  obtain ⟨content, hfile, hs⟩ := h.file
  rwa [Directory.contentAt, hfile]

/-- A sync keeps what is stored. -/
theorem Stored.sync {capacity : Nat} {base : UInt64} {cs : List SequencedCommand} {m : Mapped} (h : Stored capacity base cs maybe m)
    (ok : Bool) : Stored capacity base cs maybe (m.sync ok) :=
  ⟨Mapped.forall_sync h.shows, fun c hc => Mapped.forall_sync (h.body c hc)⟩

/-- A settled active file: the directory holds its commands, or one more. -/
theorem Writes.holds_of_settled (h : Writes stem d time init last maybe) {v : Buffer}
    (hfile : d (last.path stem) = some ⟨.settled v, last.fileSize⟩) :
    ∃ cs, Holds stem d (init ++ [{ last with commands := cs }]) ∧ Linked (init ++ [{ last with commands := cs }]) ∧
      (cs = last.commands ∨ ∃ c ∈ maybe, cs = last.commands ++ [c]) := by
  have hself : update d (last.path stem) (some ⟨.settled v, last.fileSize⟩) = d := by rw [← hfile, update_eq_self]
  have hshows := h.stored.shows v (by rw [Directory.contentAt, hfile]; exact Mapped.now_mem_versions _)
  rcases hshows with hs | ⟨c, hc, hs⟩
  · exact ⟨_, hself ▸ h.others _ v h.chain.of_append hs, linked_replaceLast h.linked _, Or.inl rfl⟩
  · have hchain := h.chain
    rw [hc, Option.toList_some] at hchain
    exact ⟨_, hself ▸ h.others _ v hchain hs, linked_replaceLast h.linked _, Or.inr ⟨c, hc, rfl⟩⟩

/-- A crash leaves the closed segments, and the active one with its commands or one more. -/
theorem Writes.crash (h : Writes stem d time init last maybe) (hc : d.CrashesTo d') :
    ∃ cs, Holds stem d' (init ++ [{ last with commands := cs }]) ∧ Linked (init ++ [{ last with commands := cs }]) ∧
      (cs = last.commands ∨ ∃ c ∈ maybe, cs = last.commands ++ [c]) := by
  obtain ⟨content, hfile, hstored⟩ := h.file
  obtain ⟨image, hsurvives, hfile'⟩ := hc.files _ _ hfile
  have hunits : (last.fileSize - kJournalHeaderSize) / kJournalRecordSize = last.capacity := by
    rw [Archived.fileSize, Nat.add_sub_cancel_left, Nat.mul_div_cancel _ (by decide)]
  simp only [hunits] at hsurvives
  have hc' := hc.update_settled hfile'
  rcases hstored.crash hsurvives with hs | ⟨c, hm, hs⟩
  · exact ⟨_, (h.others _ image h.chain.of_append hs).crash hc', linked_replaceLast h.linked _, Or.inl rfl⟩
  · have hchain := h.chain
    rw [hm, Option.toList_some] at hchain
    exact ⟨_, (h.others _ image hchain hs).crash hc', linked_replaceLast h.linked _, Or.inr ⟨c, hm, rfl⟩⟩

/-! ## Closing and creating -/

/-- The active file is settled. -/
def Settled (d : Directory) (path : Path) (size : Nat) : Prop := ∃ v, d path = some ⟨.settled v, size⟩

/-- A sync of the segment that is written. -/
theorem Writes.sync (h : Writes stem d time init last maybe) (ok : Bool) :
    Writes stem (d.setContent (last.path stem) ((d.contentAt (last.path stem)).sync ok)) time init last maybe :=
  h.setContent (h.stored.sync ok) h.chain h.time_eq h.time_le

/-- A sync that succeeds settles the segment that is written. -/
theorem Writes.settled_sync (h : Writes stem d time init last maybe) :
    Settled (d.setContent (last.path stem) ((d.contentAt (last.path stem)).sync true)) (last.path stem) last.fileSize := by
  obtain ⟨content, hfile, -⟩ := h.file
  exact ⟨_, by rw [Directory.setContent, update_self, hfile]; rfl⟩

/-- The closing of the active file. Once nothing has the file open, it is settled. -/
theorem Writes.closeFile (h : Writes stem d time init last maybe) {pid : Nat} {j : MmapJournal} (hpid : j.ownerPid = pid)
    (calls : MmapJournal.CloseCalls) :
    (RotatingJournal.closeFile pid (last.path stem) j calls).Ensures d (fun t => Writes stem t time init last maybe) fun r t =>
      Writes stem t time init last maybe ∧ (∃ mapped descriptor, r.2 = { j with mapped, descriptor }) ∧
        (r.1 = .none ∨ r.1 = .ioError) ∧ (r.1 = .none → Settled t (last.path stem) last.fileSize) := by
  have hend : ∀ {t : Directory} {e : JournalError} {mapped descriptor : Bool}, Writes stem t time init last maybe →
      (e = .none ∨ e = .ioError) → (e = .none → mapped = false ∧ descriptor = false) →
      (do
        if !mapped && !descriptor then Directory.onFile (last.path stem) (Prog.step (Mapped.sync true))
        return (e, { j with mapped, descriptor }) : Prog Directory (JournalError × MmapJournal)).Ensures t
          (fun t => Writes stem t time init last maybe) fun r t =>
        Writes stem t time init last maybe ∧ (∃ mapped descriptor, r.2 = { j with mapped, descriptor }) ∧
          (r.1 = .none ∨ r.1 = .ioError) ∧ (r.1 = .none → Settled t (last.path stem) last.fileSize) := by
    intro t e mapped descriptor ht he hclosed
    by_cases hb : (!mapped && !descriptor) = true
    · rw [if_pos hb]
      simp only [Prog.ensures_bind, Prog.ensures_pure, Directory.onFile, Prog.ensures_focus, Prog.ensures_step]
      exact ⟨ht.sync true, ht.sync true, ⟨mapped, descriptor, rfl⟩, he, fun _ => ht.settled_sync⟩
    · rw [if_neg hb]
      refine Prog.ensures_pure.mpr ⟨ht, ⟨mapped, descriptor, rfl⟩, he, fun hn => absurd ?_ hb⟩
      rw [(hclosed hn).1, (hclosed hn).2]
      rfl
  rw [RotatingJournal.closeFile, MmapJournal.close]
  split
  · rename_i hb
    rw [Bool.and_eq_true, Bool.not_eq_true', Bool.not_eq_true'] at hb
    simp only [Prog.ensures_bind, Directory.onFile, Prog.ensures_focus, Prog.ensures_pure, d.setContent_contentAt]
    exact hend h (Or.inl rfl) fun _ => hb
  · rw [if_neg (by rw [hpid]; exact not_not.mpr rfl)]
    simp only [Prog.ensures_bind, Directory.onFile, Prog.ensures_focus, Prog.ensures_pure, Prog.ensures_step]
    refine ⟨h.sync _, hend (h.sync _) ?_ ?_⟩
    · split
      · exact Or.inr rfl
      · exact Or.inl rfl
    · intro he
      split at he
      · cases he
      · rename_i hf
        cases hm : j.mapped <;> cases hd : j.descriptor <;> cases hu : calls.munmap <;> cases hcl : calls.close <;>
          simp [hm, hd, hu, hcl] at hf ⊢

/-- A full segment has no place for one more command. -/
theorem Writes.maybe_eq_none (h : Writes stem d time init last maybe) (hfull : last.commands.length = last.capacity) : maybe = none := by
  have hlen := h.chain.length_le
  rw [List.length_append, hfull] at hlen
  exact Option.toList_eq_nil_iff.mp (List.length_eq_zero_iff.mp (by omega))

/-- A new segment behind the others. -/
theorem Holds.created {segs : List Archived} (h : Holds stem d segs) {capacity : Nat} {base : UInt64}
    (hcreate : MmapJournal.createError capacity base = .none) (hlt : ∀ t ∈ segs, t.base < base)
    (hlink : ∀ s ∈ segs.getLast?, s.Follows ⟨base, capacity, []⟩) (hl : Linked segs) (time : UInt64) :
    Writes stem (update d (segmentName stem base) (some ⟨.settled (MmapJournal.createdBytes capacity base),
      kJournalHeaderSize + capacity * kJournalRecordSize⟩)) time segs ⟨base, capacity, []⟩ none := by
  refine ⟨fun cs v hc hv => ?_, ⟨_, update_self .., (createdBytes_shows _ _).stored⟩, Chain.nil _ _, ?_, fun h => absurd rfl h, nofun⟩
  · have := Holds.snoc (s := ⟨base, capacity, cs⟩) h ⟨hcreate, hc⟩ hlt hv
    rwa [show Archived.path ⟨base, capacity, []⟩ stem = segmentName stem base from rfl, update_idem]
  · refine List.isChain_append.mpr ⟨hl, List.IsChain.singleton _, fun s hs t ht => ?_⟩
    rw [List.head?_cons, Option.mem_some_iff] at ht
    subst ht
    exact hlink s hs

/-- An empty segment behind a full one. -/
theorem Writes.rotated (h : Writes stem d time init last maybe) (hs : Settled d (last.path stem) last.fileSize)
    (hfull : last.commands.length = last.capacity) {base : UInt64} (hbase : base.toNat = last.next)
    (hcreate : MmapJournal.createError last.capacity base = .none) :
    Writes stem (update d (segmentName stem base) (some ⟨.settled (MmapJournal.createdBytes last.capacity base),
      kJournalHeaderSize + last.capacity * kJournalRecordSize⟩)) time (init ++ [last]) ⟨base, last.capacity, []⟩ none := by
  obtain ⟨v, hfile⟩ := hs
  obtain ⟨cs, hheld, -, rfl | ⟨c, hc, -⟩⟩ := h.holds_of_settled hfile
  · refine hheld.created hcreate (fun t ht => ?_) (fun s hs => ?_) h.linked time
    · have hlast : last.base < base := by
        have := h.valid.capacity_pos
        rw [UInt64.lt_iff_toNat_lt, hbase, Archived.next]
        omega
      rcases List.mem_append.mp ht with ht | ht
      · exact UInt64.lt_trans ((List.pairwise_append.mp hheld.ordered).2.2 t ht _ List.mem_cons_self) hlast
      · rwa [List.mem_singleton.mp ht]
    · rw [List.getLast?_concat, Option.mem_some_iff] at hs
      subst hs
      exact ⟨hfull, hbase⟩
  · rw [h.maybe_eq_none hfull] at hc
    cases hc

/-! ## The writer -/

/-- A writer and its directory; a closing that failed may have left the active segment half closed. -/
structure Live (stem : PathPrefix) (d : Directory) (pid : Nat) (r : RotatingJournal) (init : List Archived) (last : Archived)
    (maybe : Option SequencedCommand) : Prop where
  writes : Writes stem d r.lastLogicalTime init last maybe
  stem_eq : r.stem = stem
  capacity_eq : r.segmentCapacity = last.capacity
  active : ∃ mapped descriptor,
    r.active = some (last.path stem, { last.journal pid with mapped, descriptor, writerPoisoned := maybe.isSome })

variable {pid : Nat} {r : RotatingJournal}

/-- A failed creation is an error, and not one in doubt. -/
theorem CreateFailure.error_ne (f : CreateFailure) : f.error ≠ .none ∧ f.error ≠ .commitIndeterminate := by
  cases f <;> exact ⟨nofun, nofun⟩

/-- No refused creation is in doubt. -/
theorem createError_ne_commitIndeterminate (capacity : Nat) (base : UInt64) :
    MmapJournal.createError capacity base ≠ .commitIndeterminate := by
  unfold MmapJournal.createError
  repeat' split
  all_goals exact nofun

/-- The creation of the segment behind a full one. -/
theorem Writes.create (h : Writes stem d time init last maybe) (hs : Settled d (last.path stem) last.fileSize)
    (hfull : last.commands.length = last.capacity) {base : UInt64} (hbase : base.toNat = last.next) (pid : Nat)
    (outcome : Option CreateFailure) :
    (MmapJournal.create pid (segmentName stem base) last.capacity base outcome).Ensures d
      (fun t => Writes stem t time (init ++ [last]) ⟨base, last.capacity, []⟩ none)
      fun r t =>
        (∃ e, r = .error e ∧ e ≠ .none ∧ e ≠ .commitIndeterminate ∧ t = d) ∨
        (r = .ok (MmapJournal.attached pid last.capacity base) ∧
          Writes stem t time (init ++ [last]) ⟨base, last.capacity, []⟩ none) := by
  unfold MmapJournal.create
  split
  · rename_i hne
    exact Prog.ensures_pure.mpr (Or.inl ⟨_, rfl, hne, createError_ne_commitIndeterminate _ _, rfl⟩)
  · rename_i hok
    rw [Prog.ensures_bind, Prog.ensures_get]
    split
    · exact Prog.ensures_pure.mpr (Or.inl ⟨_, rfl, nofun, nofun, rfl⟩)
    · cases outcome with
      | some f => exact Prog.ensures_pure.mpr (Or.inl ⟨_, rfl, f.error_ne.1, f.error_ne.2, rfl⟩)
      | none =>
        have hnew := h.rotated hs hfull hbase (not_not.mp hok)
        simp only [Prog.ensures_bind, Prog.ensures_step, Prog.ensures_pure]
        exact ⟨hnew, Or.inr ⟨trivial, hnew⟩⟩

/-- The next sequence number of a full segment, unless there is none. -/
theorem toNat_nextSequence_of_ne_zero (h : last.Valid) {j : MmapJournal} (hb : j.baseSequence = last.base)
    (hs : j.size = last.commands.length) (hne : j.nextSequence ≠ 0) : j.nextSequence.toNat = last.next := by
  have hmod := Archived.toNat_nextSequence h 0
  rw [show (last.journal 0).nextSequence = j.nextSequence by rw [MmapJournal.nextSequence, MmapJournal.nextSequence, hb, hs]; rfl] at hmod
  have hle := h.next_le
  have hpos : j.nextSequence.toNat ≠ 0 := fun h0 => hne (UInt64.toNat_inj.mp h0)
  by_cases hlt : last.next < 2 ^ 64
  · rwa [Nat.mod_eq_of_lt hlt] at hmod
  · rw [Nat.le_antisymm hle (Nat.not_lt.mp hlt), Nat.mod_self] at hmod
    exact absurd hmod hpos

/-- A rotation: the writer has the same segments, or a new one that is empty. -/
theorem Live.rotate (h : Live stem d pid r init last maybe) {mapped descriptor : Bool} {j : MmapJournal}
    (hj : j = { last.journal pid with mapped, descriptor, writerPoisoned := maybe.isSome }) (hfull : last.commands.length = last.capacity)
    (calls : RotatingJournal.AppendCalls) :
    (r.rotate pid (last.path stem) j calls).Ensures d
      (fun t => Writes stem t r.lastLogicalTime init last maybe ∨
        ∃ base : UInt64, base.toNat = last.next ∧ Writes stem t r.lastLogicalTime (init ++ [last]) ⟨base, last.capacity, []⟩ none)
      fun res t => res.2.lastLogicalTime = r.lastLogicalTime ∧
        ((res.1 ≠ .none ∧ res.1 ≠ .commitIndeterminate ∧ Live stem t pid res.2 init last maybe) ∨
        (res.1 = .none ∧ ∃ base : UInt64, base.toNat = last.next ∧
          Live stem t pid res.2 (init ++ [last]) ⟨base, last.capacity, []⟩ none)) := by
  unfold RotatingJournal.rotate
  rw [Prog.ensures_bind]
  refine (h.writes.closeFile (by rw [hj]; rfl) calls.close).mono (fun _ => Or.inl) ?_
  rintro ⟨e, j'⟩ t ⟨ht, ⟨mapped', descriptor', hj'⟩, he, hsettled⟩
  simp only [h.stem_eq, h.capacity_eq] at hj' he hsettled ⊢
  have hlive : Live stem t pid ⟨stem, last.capacity, some (last.path stem, j'), r.segmentCount, r.lastLogicalTime⟩ init last maybe :=
    ⟨ht, rfl, rfl, mapped', descriptor', by rw [hj', hj]⟩
  by_cases hne : e = .none
  · rw [if_neg (not_not.mpr hne), segmentPath]
    by_cases hpath : stem.isEmpty = true ∨ j.nextSequence = 0
    · rw [if_pos hpath]
      exact Prog.ensures_pure.mpr ⟨rfl, Or.inl ⟨by rintro ⟨⟩, by rintro ⟨⟩, hlive⟩⟩
    · rw [if_neg hpath]
      have hnext := toNat_nextSequence_of_ne_zero ht.valid (by rw [hj]; rfl) (by rw [hj]; rfl) (not_or.mp hpath).2
      simp only [Prog.ensures_bind]
      refine (ht.create (hsettled hne) hfull hnext pid calls.create).mono (fun t ht => Or.inr ⟨_, hnext, ht⟩) ?_
      rintro res u (⟨e', rfl, hne', hne'', rfl⟩ | ⟨rfl, hu⟩)
      · exact Prog.ensures_pure.mpr ⟨rfl, Or.inl ⟨hne', hne'', hlive⟩⟩
      · exact Prog.ensures_pure.mpr ⟨rfl, Or.inr ⟨rfl, _, hnext, hu, rfl, rfl, true, true, rfl⟩⟩
  · rw [if_pos hne]
    refine Prog.ensures_pure.mpr ⟨rfl, Or.inl ⟨hne, ?_, hlive⟩⟩
    rw [he.resolve_left hne]
    rintro ⟨⟩

/-- What an append has come to: it was refused, it has published its command, or it has acknowledged it. -/
inductive AppendOutcome (command : SequencedCommand) (time : UInt64) (maybe : Option SequencedCommand) (all : List SequencedCommand × Nat) :
    JournalError → UInt64 → Option SequencedCommand → List SequencedCommand × Nat → Prop where
  | refused {e : JournalError} (ne : e ≠ .none) (ne' : e ≠ .commitIndeterminate) : AppendOutcome command time maybe all e time maybe all
  | published (none : maybe = none) : AppendOutcome command time maybe all .commitIndeterminate time (some command) all
  | acknowledged (none : maybe = none) (time_le : time ≤ command.logicalTime) (sequence : command.sequence.toNat = all.2) :
      AppendOutcome command time maybe all .none command.logicalTime .none (all.1 ++ [command], all.2 + 1)

theorem tally_snoc (c : SequencedCommand) :
    tally init { last with commands := last.commands ++ [c] } = ((tally init last).1 ++ [c], (tally init last).2 + 1) := by
  simp [tally, Archived.next, Nat.add_assoc]

/-- The append to the active segment, once its checks are passed: what it comes to is up to the synchronisations. -/
theorem Live.appendOpen (h : Live stem d pid r init last none) (mapped descriptor : Bool) {command : SequencedCommand}
    (calls : RotatingJournal.AppendCalls) (hactive : r.active = some (last.path stem, { last.journal pid with mapped, descriptor }))
    (hok : MmapJournal.appendError { last.journal pid with mapped, descriptor } pid command = .none)
    (htime : r.lastLogicalTime ≤ command.logicalTime) :
    (r.appendActive pid command calls).Ensures d
      (fun t => ∃ maybe', Writes stem t r.lastLogicalTime init last maybe' ∧ (maybe' = none ∨ maybe' = some command))
      fun res t => (∃ content, t = d.setContent (last.path stem) content) ∧
        ((calls.data.ok = false ∧ res.1 = .ioError ∧ res.2.lastLogicalTime = r.lastLogicalTime ∧ Live stem t pid res.2 init last none) ∨
        (calls.commit.ok = false ∧ res.1 = .commitIndeterminate ∧ res.2.lastLogicalTime = r.lastLogicalTime ∧
          Live stem t pid res.2 init last (some command)) ∨
        (res.1 = .none ∧ res.2.lastLogicalTime = command.logicalTime ∧ command.sequence.toNat = last.next ∧
          Live stem t pid res.2 init { last with commands := last.commands ++ [command] } none)) := by
  unfold RotatingJournal.appendActive
  rw [hactive]
  simp only [Prog.ensures_bind]
  set j : MmapJournal := { last.journal pid with mapped, descriptor } with hj
  obtain ⟨-, hsize, hvalid, hseq, htime'⟩ := appendError_eq_none hok
  have hchain : Chain last.capacity last.base last.commands := h.writes.chain.of_append
  have hroom : last.commands.length < last.capacity := Nat.lt_of_le_of_ne hchain.length_le hsize
  have hsnoc := hchain.snoc hroom hvalid hseq htime'
  have hnext : command.sequence.toNat = last.next := by
    have hmod := Archived.toNat_nextSequence h.writes.valid pid
    have hle := (createError_eq_none h.writes.valid.created).2.2.2
    rw [hseq, show j.nextSequence = (last.journal pid).nextSequence from rfl, hmod]
    refine Nat.mod_eq_of_lt ?_
    rw [Archived.next]
    omega
  have hmaybe : ∀ c ∈ some command, r.lastLogicalTime ≤ c.logicalTime := by
    rintro _ ⟨⟩
    exact htime
  refine (ensures_onFile (h.writes.stored.append (j := j) rfl hroom hok hvalid)).mono ?_ ?_
  · rintro _ ⟨content, hs | ⟨hs, -⟩, rfl⟩
    · exact ⟨none, h.writes.setContent hs h.writes.chain h.writes.time_eq nofun, Or.inl rfl⟩
    · exact ⟨some command, h.writes.setContent hs hsnoc h.writes.time_eq hmaybe, Or.inr rfl⟩
  · rintro res _ ⟨content, hQ, rfl⟩
    refine Prog.ensures_pure.mpr ⟨⟨content, rfl⟩, ?_⟩
    rcases hQ with ⟨hdata, rfl, hs⟩ | ⟨-, hcommit, rfl, hs⟩ | ⟨-, -, rfl, hs⟩
    · exact Or.inl ⟨hdata, rfl, rfl, h.writes.setContent hs h.writes.chain h.writes.time_eq nofun, h.stem_eq, h.capacity_eq,
        mapped, descriptor, rfl⟩
    · exact Or.inr (Or.inl ⟨hcommit, rfl, rfl, h.writes.setContent hs hsnoc h.writes.time_eq hmaybe, h.stem_eq, h.capacity_eq,
        mapped, descriptor, rfl⟩)
    · refine Or.inr (Or.inr ⟨rfl, rfl, hnext,
        h.writes.setContent hs (by rw [Option.toList_none, List.append_nil]; exact hsnoc) (fun _ => lastTime_append _ _) nofun,
        h.stem_eq, h.capacity_eq, mapped, descriptor, ?_⟩)
      simp only [if_true, hj, Archived.journal, lastTime_append, List.length_append, List.length_singleton]
      rfl

/-- The append to the active segment. -/
theorem Live.appendActive (h : Live stem d pid r init last maybe) (command : SequencedCommand) (calls : RotatingJournal.AppendCalls)
    (htime : r.lastLogicalTime ≤ command.logicalTime) :
    (r.appendActive pid command calls).Ensures d
      (fun t => ∃ maybe', Writes stem t r.lastLogicalTime init last maybe' ∧ (maybe' = maybe ∨ maybe = none ∧ maybe' = some command))
      fun res t => ∃ last' maybe', Live stem t pid res.2 init last' maybe' ∧
        AppendOutcome command r.lastLogicalTime maybe (tally init last) res.1 res.2.lastLogicalTime maybe' (tally init last') := by
  obtain ⟨mapped, descriptor, hactive⟩ := h.active
  by_cases hok : MmapJournal.appendError { last.journal pid with mapped, descriptor, writerPoisoned := maybe.isSome } pid command = .none
  · have hmaybe : maybe = none := Option.isNone_iff_eq_none.mp (Option.isSome_eq_false_iff.mp (appendError_eq_none hok).1)
    subst hmaybe
    refine (h.appendOpen mapped descriptor calls hactive hok htime).mono ?_ ?_
    · rintro t ⟨maybe', ht, rfl | rfl⟩
      · exact ⟨_, ht, Or.inl rfl⟩
      · exact ⟨_, ht, Or.inr ⟨rfl, rfl⟩⟩
    · rintro ⟨e, r'⟩ t ⟨-, ⟨-, rfl, ht, hlive⟩ | ⟨-, rfl, ht, hlive⟩ | ⟨rfl, ht, hseq, hlive⟩⟩
      · refine ⟨_, _, hlive, ?_⟩
        rw [ht]
        exact .refused nofun nofun
      · refine ⟨_, _, hlive, ?_⟩
        rw [ht]
        exact .published rfl
      · refine ⟨_, _, hlive, ?_⟩
        rw [ht, tally_snoc]
        exact .acknowledged rfl htime hseq
  · unfold RotatingJournal.appendActive
    rw [hactive]
    simp only [Prog.ensures_bind]
    rw [MmapJournal.append, if_pos hok]
    simp only [Directory.onFile, Prog.ensures_focus, Prog.ensures_pure, d.setContent_contentAt, if_neg hok]
    exact ⟨last, maybe, ⟨h.writes, h.stem_eq, h.capacity_eq, mapped, descriptor, rfl⟩,
      .refused hok (appendError_ne_commitIndeterminate _ _ _)⟩

theorem tally_rotated {base : UInt64} (hbase : base.toNat = last.next) : tally (init ++ [last]) ⟨base, last.capacity, []⟩ = tally init last := by
  simp [tally, Archived.next, hbase]

/-- What the checks of `append` of a rotating journal have established. -/
theorem rotatingAppendError_eq_none {j : MmapJournal} {c : SequencedCommand} (h : r.appendError j c = .none) :
    r.lastLogicalTime ≤ c.logicalTime := by
  unfold RotatingJournal.appendError at h
  split at h
  · cases h
  split at h
  · cases h
  split at h
  · cases h
  · rename_i hle
    exact UInt64.not_lt.mp hle

/-- No refused append is in doubt. -/
theorem rotatingAppendError_ne_commitIndeterminate (j : MmapJournal) (c : SequencedCommand) :
    r.appendError j c ≠ .commitIndeterminate := by
  unfold RotatingJournal.appendError
  repeat' split
  all_goals exact nofun

/-- The states an append passes, and what it comes to. -/
theorem Live.append (h : Live stem d pid r init last maybe) (command : SequencedCommand) (calls : RotatingJournal.AppendCalls) :
    (r.append pid command calls).Ensures d
      (fun t => ∃ init' last' maybe', Writes stem t r.lastLogicalTime init' last' maybe' ∧ tally init' last' = tally init last ∧
        (maybe' = maybe ∨ maybe = none ∧ maybe' = some command))
      fun res t => ∃ init' last' maybe', Live stem t pid res.2 init' last' maybe' ∧
        AppendOutcome command r.lastLogicalTime maybe (tally init last) res.1 res.2.lastLogicalTime maybe' (tally init' last') := by
  obtain ⟨mapped, descriptor, hactive⟩ := h.active
  unfold RotatingJournal.append
  rw [hactive]
  simp only
  set j : MmapJournal := { last.journal pid with mapped, descriptor, writerPoisoned := maybe.isSome } with hj
  by_cases hok : r.appendError j command = .none
  · have htime := rotatingAppendError_eq_none hok
    rw [if_neg (not_not.mpr hok)]
    by_cases hfull : j.full = true
    · have hlen : last.commands.length = last.capacity := of_decide_eq_true hfull
      rw [if_pos hfull, Prog.ensures_bind]
      refine (h.rotate hj hlen calls).mono ?_ ?_
      · rintro t (ht | ⟨base, hbase, ht⟩)
        · exact ⟨init, last, maybe, ht, rfl, Or.inl rfl⟩
        · have hmaybe : maybe = none := h.writes.maybe_eq_none hlen
          exact ⟨_, _, none, ht, tally_rotated hbase, Or.inl hmaybe.symm⟩
      · rintro ⟨e, r'⟩ t ⟨htime', ⟨hne, hne', hlive⟩ | ⟨he, base, hbase, hlive⟩⟩
        · simp only at htime' hne hne' hlive
          rw [if_pos hne]
          refine Prog.ensures_pure.mpr ⟨init, last, maybe, hlive, ?_⟩
          rw [htime']
          exact .refused hne hne'
        · simp only at htime' he hlive
          have hmaybe : maybe = none := h.writes.maybe_eq_none hlen
          rw [if_neg (not_not.mpr he), hmaybe]
          refine (hlive.appendActive command calls (by rwa [htime'])).mono ?_ ?_
          · rintro u ⟨maybe', hu, hm⟩
            exact ⟨_, _, maybe', htime' ▸ hu, tally_rotated hbase, hm⟩
          · rintro res u ⟨last', maybe', hu, ho⟩
            refine ⟨_, last', maybe', hu, ?_⟩
            rw [← tally_rotated hbase, ← htime']
            exact ho
    · rw [if_neg hfull]
      refine (h.appendActive command calls htime).mono ?_ ?_
      · rintro t ⟨maybe', ht, hm⟩
        exact ⟨init, last, maybe', ht, rfl, hm⟩
      · rintro res t ⟨last', maybe', ht, ho⟩
        exact ⟨init, last', maybe', ht, ho⟩
  · rw [if_pos hok]
    exact Prog.ensures_pure.mpr ⟨init, last, maybe, h, .refused hok (rotatingAppendError_ne_commitIndeterminate _ _)⟩

/-- The states a closing passes; in the end the active file is settled and the writer is done, or the writer is as it was but for
what is closed of the active segment. -/
theorem Live.close (h : Live stem d pid r init last maybe) (calls : MmapJournal.CloseCalls) :
    (r.close pid calls).Ensures d (fun t => Writes stem t r.lastLogicalTime init last maybe) fun res t =>
      res.2.lastLogicalTime = r.lastLogicalTime ∧
        ((res.2.active = none ∧ Writes stem t r.lastLogicalTime init last maybe ∧ Settled t (last.path stem) last.fileSize) ∨
        Live stem t pid res.2 init last maybe) := by
  obtain ⟨mapped, descriptor, hactive⟩ := h.active
  unfold RotatingJournal.close
  rw [hactive]
  simp only [Prog.ensures_bind]
  refine (h.writes.closeFile rfl calls).mono (fun _ => id) ?_
  rintro ⟨e, j'⟩ t ⟨ht, ⟨mapped', descriptor', hj'⟩, he, hsettled⟩
  simp only at hj' he hsettled ⊢
  refine Prog.ensures_pure.mpr ⟨rfl, ?_⟩
  by_cases hne : e = .none
  · exact Or.inl ⟨if_pos hne, ht, hsettled hne⟩
  · refine Or.inr ⟨ht, h.stem_eq, h.capacity_eq, mapped', descriptor', ?_⟩
    simp only [if_neg hne, hj']

/-! ## New writers -/

/-- A first segment is created. -/
theorem Holds.createFirst (h : Holds stem d []) {capacity : Nat} {base : UInt64} {outcome : Option CreateFailure}
    (hr : ((RotatingJournal.create pid stem capacity base outcome).run d).result = .ok r) :
    Live stem ((RotatingJournal.create pid stem capacity base outcome).run d).final pid r [] ⟨base, capacity, []⟩ none := by
  have hens : (RotatingJournal.create pid stem capacity base outcome).Ensures d (fun _ => True) fun res t =>
      ∀ r, res = .ok r → Live stem t pid r [] ⟨base, capacity, []⟩ none := by
    unfold RotatingJournal.create
    split
    · exact Prog.ensures_pure.mpr (by rintro _ ⟨⟩)
    · rename_i path hpath
      have hname : path = segmentName stem base := by
        unfold segmentPath at hpath
        split at hpath
        · cases hpath
        · exact (Except.ok.inj hpath).symm
      unfold MmapJournal.create
      split
      · simp only [Prog.ensures_bind, Prog.ensures_pure]
        rintro _ ⟨⟩
      · rename_i hok
        simp only [Prog.ensures_bind, Prog.ensures_get]
        split
        · simp only [Prog.ensures_pure]
          rintro _ ⟨⟩
        · cases outcome with
          | some f =>
            simp only [Prog.ensures_pure]
            rintro _ ⟨⟩
          | none =>
            simp only [Prog.ensures_bind, Prog.ensures_step, Prog.ensures_pure, true_and]
            rintro r ⟨⟩
            subst hname
            exact ⟨h.created (not_not.mp hok) (by rintro _ ⟨⟩) (by rintro _ ⟨⟩) List.IsChain.nil 0, rfl, rfl, true, true, rfl⟩
  exact hens.2 r hr

/-- A writer resumes on segments that follow one another. -/
theorem Holds.resume {segs : List Archived} (h : Holds stem d segs) {listing : List Path} (hl : d.Lists listing)
    (hr : RotatingJournal.resume pid stem listing true d = .ok r) :
    ∃ init last, segs = init ++ [last] ∧ Live stem d pid r init last none ∧ r.lastLogicalTime = lastTime last.commands := by
  unfold RotatingJournal.resume at hr
  cases hopen : JournalSegmentSet.openAll pid stem listing d with
  | error e =>
    rw [hopen] at hr
    cases hr
  | ok segments =>
    have hn : stem.Named := by
      by_contra hn
      rw [openAll_of_not_named hn] at hopen
      cases hopen
    obtain ⟨hne, hlinked, rfl⟩ := (h.openAll_eq_ok_iff hn pid hl segments).mp hopen
    obtain ⟨init, last, rfl⟩ := (List.eq_nil_or_concat' segs).resolve_left hne
    rw [hopen] at hr
    simp only [bind, Except.bind, JournalSegmentSet.releaseLast, List.map_append, List.map_cons, List.map_nil, List.getLast?_concat,
      Bool.not_true, Bool.false_and, Bool.false_eq_true, if_false, pure, Except.pure] at hr
    cases hr
    exact ⟨init, last, rfl, ⟨h.writes hlinked, rfl, rfl, true, true, rfl⟩, rfl⟩

end

end MatchingEngine

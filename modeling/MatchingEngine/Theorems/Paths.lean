import MatchingEngine.Paths
import MatchingEngine.Theorems.RuntimeConfig
import MatchingEngine.Theorems.Segments

/-!
# Configured paths

`valid_path` refuses the texts `.` and `..`, but the rules after it refuse every path whose last component is one of the two. These are the
only paths on which they disagree.
-/

namespace MatchingEngine

open Function MmapJournal

/-! ## The last component -/

section Split

variable {p : Char → Bool} {text rest : List Char}

/-- What is taken from the end, with more of it. -/
theorem rtakeWhile_append (h : ∀ c ∈ rest, p c = true) : (text ++ rest).rtakeWhile p = text.rtakeWhile p ++ rest := by
  rw [List.rtakeWhile, List.rtakeWhile, List.reverse_append, List.takeWhile_append_of_pos fun c hc => h c (List.mem_reverse.mp hc),
    List.reverse_append, List.reverse_reverse]

/-- What is dropped from the end, with more of it. -/
theorem rdropWhile_append (h : ∀ c ∈ rest, p c = true) : (text ++ rest).rdropWhile p = text.rdropWhile p := by
  rw [List.rdropWhile, List.rdropWhile, List.reverse_append, List.dropWhile_append_of_pos fun c hc => h c (List.mem_reverse.mp hc)]

end Split

/-- What follows the last slash is the last component. -/
theorem PathPrefix.ofText_append (text : List Char) {rest : List Char} (h : '/' ∉ rest) :
    PathPrefix.ofText (text ++ rest) = ⟨(PathPrefix.ofText text).parent, (PathPrefix.ofText text).name ++ rest⟩ := by
  have hrest : ∀ c ∈ rest, decide (c ≠ '/') = true := fun c hc => decide_eq_true fun hslash => h (hslash ▸ hc)
  rw [ofText, ofText, parentPath, parentPath, rtakeWhile_append hrest, rdropWhile_append hrest]

theorem PathPrefix.slash_not_mem_name (text : List Char) : '/' ∉ (PathPrefix.ofText text).name := by
  intro h
  have hne := List.mem_rtakeWhile_imp h
  exact absurd hne (by decide)

/-- Its characters are of the text. -/
theorem PathPrefix.mem_of_mem_name {text : List Char} {c : Char} (h : c ∈ (PathPrefix.ofText text).name) : c ∈ text :=
  (List.rtakeWhile_suffix _ _).subset h

/-- A text that does not end in a slash has a name. -/
theorem PathPrefix.name_ne_nil {text : List Char} (hne : text ≠ []) (hslash : text.getLast? ≠ some '/') :
    (PathPrefix.ofText text).name ≠ [] := by
  intro h
  have hlast := List.rtakeWhile_eq_nil_iff.mp h hne
  have hc : text.getLast hne = '/' := by simpa using hlast
  exact hslash (List.getLast?_eq_some_getLast hne ▸ congrArg some hc)

/-- A path is parsed exactly if its last component is a file name. -/
theorem parsedPath_eq_none_iff {text : List Char} (h : AdmissiblePath text) :
    parsedPath text = none ↔ ¬(PathPrefix.ofText text).Named := by
  have hname := PathPrefix.name_ne_nil h.nonempty h.slash
  have hslash := PathPrefix.slash_not_mem_name text
  have hnull : '\x00' ∉ (PathPrefix.ofText text).name := fun hmem => h.null (PathPrefix.mem_of_mem_name hmem)
  unfold parsedPath PathPrefix.Named
  simp only [h.nonempty, h.slash, h.null, hname, hslash, hnull, false_or, or_false, ite_eq_left_iff, reduceCtorEq, imp_false, not_not,
    not_false_eq_true, true_and, ne_eq]
  tauto

/-! ## The first segment -/

/-- What a segment's name adds to the prefix. -/
theorem segmentRest_shape (base : UInt64) : ∀ c ∈ '.' :: decimal 20 base.toNat ++ segmentSuffix, c ≠ '/' ∧ c ≠ '\x00' := by
  intro c hc
  rcases List.mem_append.mp hc with hc | hc
  · rcases List.mem_cons.mp hc with rfl | hc
    · decide
    · have hdigit := (parseDecimal_eq_some_iff.mp (parseDecimal_decimal 20 base.toNat)).1 c hc
      exact ⟨fun h => absurd (h ▸ hdigit) (by decide), fun h => absurd (h ▸ hdigit) (by decide)⟩
  · have hall : ∀ c ∈ segmentSuffix, c ≠ '/' ∧ c ≠ '\x00' := by simp [segmentSuffix]
    exact hall c hc

/-- The path of a segment is parsed whatever the last component of the prefix is: the segment is in the directory of the prefix. -/
theorem parseJournalPath_segment {text : List Char} (hnull : '\x00' ∉ text) (base : UInt64) :
    parseJournalPath (text ++ ('.' :: decimal 20 base.toNat ++ segmentSuffix)) =
      .ok ⟨(PathPrefix.ofText text).directory, segmentName (.ofText text) base⟩ := by
  have hshape := segmentRest_shape base
  obtain ⟨rest, hrest⟩ : ∃ rest, rest = '.' :: decimal 20 base.toNat ++ segmentSuffix := ⟨_, rfl⟩
  have hlast : rest.getLast? = some 'l' := by
    rw [hrest, List.getLast?_append_of_ne_nil _ (by decide)]
    rfl
  have hlen : 2 < rest.length := by
    rw [hrest, List.length_append, segmentSuffix]
    exact Nat.lt_add_left _ (by decide)
  have hname : segmentName (.ofText text) base = (PathPrefix.ofText text).name ++ rest := by
    rw [hrest, segmentName, List.append_assoc]
  rw [hname, ← hrest]
  rw [← hrest] at hshape
  have hne : rest ≠ [] := List.ne_nil_of_length_pos (by omega)
  have hstem := PathPrefix.ofText_append text fun h => (hshape _ h).1 rfl
  have hparsed : parsedPath (text ++ rest) = some ⟨(PathPrefix.ofText text).directory, (PathPrefix.ofText text).name ++ rest⟩ := by
    unfold parsedPath
    rw [hstem]
    refine if_neg ?_
    simp only [not_or]
    refine ⟨List.append_ne_nil_of_right_ne_nil _ hne, ?_, ?_, List.append_ne_nil_of_right_ne_nil _ hne, ?_, ?_, ?_, ?_⟩
    · rw [List.getLast?_append_of_ne_nil _ hne, hlast]
      decide
    · exact List.not_mem_append hnull fun h => (hshape _ h).2 rfl
    · exact fun h => absurd (congrArg List.length h) (by rw [List.length_append]; simp; omega)
    · exact fun h => absurd (congrArg List.length h) (by rw [List.length_append]; simp; omega)
    · exact List.not_mem_append (PathPrefix.slash_not_mem_name text) fun h => (hshape _ h).1 rfl
    · exact List.not_mem_append (fun h => hnull (PathPrefix.mem_of_mem_name h)) fun h => (hshape _ h).2 rfl
  rw [parseJournalPath, hparsed]

/-- A creation at a text is one in the directory of the prefix. -/
theorem createAt_eq {text : List Char} (hne : text ≠ []) (hnull : '\x00' ∉ text) (pid capacity : Nat) {base : UInt64}
    (hbase : base ≠ 0) (outcome : Option CreateFailure) (fs : FileSystem) :
    RotatingJournal.createAt pid text capacity base outcome fs =
      if createError capacity base ≠ .none then (.error (createError capacity base), fs)
      else
        let ran := (MmapJournal.create pid (segmentName (.ofText text) base) capacity base outcome).run
          (fs (PathPrefix.ofText text).directory)
        (ran.result.map fun journal => ⟨.ofText text, capacity, some (segmentName (.ofText text) base, journal), 1, 0⟩,
          update fs (PathPrefix.ofText text).directory ran.final) := by
  have hpath : segmentPathOf text base = .ok (text ++ ('.' :: decimal 20 base.toNat ++ segmentSuffix)) :=
    if_neg (not_or.mpr ⟨hne, hbase⟩)
  rw [RotatingJournal.createAt, hpath]
  dsimp only
  rw [MmapJournal.createAt, parseJournalPath_segment hnull]
  split
  · rfl
  · dsimp only
    cases ((MmapJournal.create pid (segmentName (.ofText text) base) capacity base outcome).run
      (fs (PathPrefix.ofText text).directory)).result
    · rfl
    · rfl

/-- A creation that succeeds leaves its file. -/
theorem create_isSome_of_ok (pid capacity : Nat) (path : Path) (base : UInt64) (outcome : Option CreateFailure) (d : Directory) :
    (MmapJournal.create pid path capacity base outcome).Ensures d (fun _ => True) fun result d' =>
      ∀ journal, result = .ok journal → (d' path).isSome = true := by
  unfold MmapJournal.create
  split
  · exact Prog.ensures_pure.mpr nofun
  · rw [Prog.ensures_bind, Prog.ensures_get]
    split
    · exact Prog.ensures_pure.mpr nofun
    · cases outcome with
      | some failure => exact Prog.ensures_pure.mpr nofun
      | none =>
        simp only [Prog.ensures_bind, Prog.ensures_step, Prog.ensures_pure]
        exact ⟨trivial, fun journal _ => by rw [update_self]; rfl⟩

/-! ## Opening -/

namespace JournalSegmentSet

variable {pid : Nat} {stem : PathPrefix} {d : Directory} {listing : List Path}

/-- No refusal of a segment is of the path. -/
theorem followError_ne_invalidPath (previous : MmapJournal) (base : UInt64) : followError previous base ≠ .invalidPath := by
  unfold followError
  repeat' split
  all_goals exact nofun

/-- No refusal of a candidate is of the path. -/
theorem openCandidate_ne_invalidPath {previous : Option MmapJournal} {base : UInt64} {path : Path} :
    openCandidate pid d previous base path ≠ .error .invalidPath := by
  unfold openCandidate
  split
  · exact nofun
  split
  · exact nofun
  split
  · exact nofun
  dsimp only
  split
  · intro h
    cases previous with
    | none =>
      rename_i hnone
      exact hnone rfl
    | some previous => exact followError_ne_invalidPath previous base (Except.error.inj h)
  · exact nofun

theorem openCandidates_ne_invalidPath {found : List (UInt64 × Path)} {previous : Option MmapJournal} :
    openCandidates pid d previous found ≠ .error .invalidPath := by
  induction found generalizing previous with
  | nil => rintro ⟨⟩
  | cons candidate rest ih =>
    rw [openCandidates]
    cases hcandidate : openCandidate pid d previous candidate.1 candidate.2 with
    | error error => exact fun h => openCandidate_ne_invalidPath (hcandidate.trans (congrArg Except.error (Except.error.inj h)))
    | ok segment =>
      cases hrest : openCandidates pid d (some segment.journal) rest with
      | error error =>
        simp only [bind, Except.bind, hrest]
        exact fun h => ih (hrest.trans h)
      | ok segments =>
        simp only [bind, Except.bind, hrest]
        rintro ⟨⟩

/-- A prefix with a file name is not refused. -/
theorem openAll_ne_invalidPath (hn : stem.Named) : openAll pid stem listing d ≠ .error .invalidPath := by
  have hguard : ¬(stem.isEmpty = true ∨ stem.name = [] ∨ stem.name = ['.'] ∨ stem.name = ['.', '.']) := by
    rw [PathPrefix.isEmpty, decide_eq_true_iff]
    rintro (h | h | h | h)
    · exact hn.1 h.2
    · exact hn.1 h
    · exact hn.2.1 h
    · exact hn.2.2 h
  rw [openAll, if_neg hguard]
  rcases candidates_cases stem listing with ⟨name, hmem, hclaimed, hbase⟩ | hclean
  · rw [candidates_of_malformed hmem hclaimed hbase]
    rintro ⟨⟩
  · obtain ⟨found, hfound, -⟩ := candidates_eq hclean
    rw [hfound]
    change (if found.isEmpty then _ else _) ≠ _
    split
    · rintro ⟨⟩
    · exact openCandidates_ne_invalidPath

end JournalSegmentSet

/-! ## Agreement -/

/-- The rules for a prefix agree: when the first segment can be created, the prefix is not refused, and the segment's name gives its base. -/
def JournalPrefixAgrees (text : List Char) : Prop :=
  ∀ (pid capacity : Nat) (base : UInt64) (outcome : Option CreateFailure) (fs fs' : FileSystem) (r : RotatingJournal),
    RotatingJournal.createAt pid text capacity base outcome fs = (.ok r, fs') →
      (∀ pid' listing, JournalSegmentSet.openAt pid' text listing fs' ≠ .error .invalidPath) ∧
        ∃ name journal, r.active = some (name, journal) ∧ segmentBase (.ofText text) name = some (.ok base) ∧
          (fs' (PathPrefix.ofText text).directory name).isSome = true

/-- The last component of a path names no file. -/
def EndsInDots (text : List Char) : Prop := (PathPrefix.ofText text).name = ['.'] ∨ (PathPrefix.ofText text).name = ['.', '.']

/-- An admissible prefix is named unless it ends in dots. -/
theorem named_iff {text : List Char} (h : AdmissiblePath text) : (PathPrefix.ofText text).Named ↔ ¬EndsInDots text := by
  rw [PathPrefix.Named, EndsInDots, and_iff_right (PathPrefix.name_ne_nil h.nonempty h.slash), not_or]

/-- The snapshot takes an admissible path unless it ends in dots. -/
theorem parsePath_agrees_iff {text : List Char} (h : AdmissiblePath text) :
    parsePath text ≠ .error .invalidPath ↔ ¬EndsInDots text := by
  rw [← named_iff h, parsePath]
  cases hparsed : parsedPath text with
  | none =>
    have hnot := (parsedPath_eq_none_iff h).mp hparsed
    exact ⟨fun hne => absurd rfl hne, fun hn => absurd hn hnot⟩
  | some parsed =>
    refine ⟨fun _ => ?_, fun _ => nofun⟩
    by_contra hn
    rw [(parsedPath_eq_none_iff h).mpr hn] at hparsed
    cases hparsed

theorem journalPrefixAgrees_iff {text : List Char} (h : AdmissiblePath text) : JournalPrefixAgrees text ↔ ¬EndsInDots text := by
  rw [← named_iff h]
  constructor
  · intro hagrees
    by_contra hn
    have hcreated := createAt_eq h.nonempty h.null 1 1 (show (1 : UInt64) ≠ 0 by decide) none fun _ _ => none
    rw [if_neg (by decide)] at hcreated
    exact (hagrees _ _ _ _ _ _ _ hcreated).1 0 [] (openAll_of_not_named hn 0 [])
  · intro hn pid capacity base outcome fs fs' r hcreated
    have hbase : base ≠ 0 := by
      rintro rfl
      rw [RotatingJournal.createAt, segmentPathOf, if_pos (.inr rfl)] at hcreated
      cases hcreated
    rw [createAt_eq h.nonempty h.null pid capacity hbase] at hcreated
    split at hcreated
    · cases hcreated
    dsimp only at hcreated
    have hfile := (create_isSome_of_ok pid capacity (segmentName (.ofText text) base) base outcome
      (fs (PathPrefix.ofText text).directory)).2
    revert hcreated hfile
    generalize (MmapJournal.create pid (segmentName (.ofText text) base) capacity base outcome).run
      (fs (PathPrefix.ofText text).directory) = ran
    intro hcreated hfile
    obtain ⟨hr, rfl⟩ := Prod.mk.inj hcreated
    cases hran : ran.result with
    | error error =>
      rw [hran] at hr
      cases hr
    | ok journal =>
      rw [hran] at hr
      obtain rfl := Except.ok.inj hr
      refine ⟨fun pid' listing => JournalSegmentSet.openAll_ne_invalidPath hn, _, _, rfl, segmentBase_segmentName _ hbase, ?_⟩
      rw [update_self]
      exact hfile journal hran

/-- The rules agree on the paths of an accepted configuration exactly if the last component of neither is `.` or `..`. -/
theorem configured_paths (entries : List (List Char)) (config : RuntimeConfig) (h : parseRuntimeConfig entries = .ok config) :
    (parsePath config.snapshotPath ≠ .error .invalidPath ↔ ¬EndsInDots config.snapshotPath) ∧
      (JournalPrefixAgrees config.journalPrefix ↔ ¬EndsInDots config.journalPrefix) := by
  have hadmissible := (RuntimeConfig.parseRuntimeConfig_eq_ok_iff.mp h).1
  exact ⟨parsePath_agrees_iff hadmissible.snapshotPath, journalPrefixAgrees_iff hadmissible.journalPrefix⟩

/-- The paths of the smallest configuration. -/
theorem configured_paths_small :
    parsePath RuntimeConfig.small.snapshotPath ≠ .error .invalidPath ∧ JournalPrefixAgrees RuntimeConfig.small.journalPrefix := by
  have h := configured_paths RuntimeConfig.small.entries RuntimeConfig.small (by decide +kernel)
  refine ⟨h.1.mpr ?_, h.2.mpr ?_⟩
  · rw [EndsInDots]
    decide
  · rw [EndsInDots]
    decide

/-- A configuration whose paths end in a component that names no file. -/
def RuntimeConfig.dotted : RuntimeConfig := { RuntimeConfig.small with journalPrefix := "data/..".toList, snapshotPath := "data/..".toList }

/-- The configuration is accepted, but its snapshot path is refused, and so is the prefix once its first segment is created. -/
theorem dotted_paths_refused :
    parseRuntimeConfig RuntimeConfig.dotted.entries = .ok RuntimeConfig.dotted ∧
      parsePath RuntimeConfig.dotted.snapshotPath = .error .invalidPath ∧
      ¬JournalPrefixAgrees RuntimeConfig.dotted.journalPrefix := by
  have haccepted : parseRuntimeConfig RuntimeConfig.dotted.entries = .ok RuntimeConfig.dotted := by decide +kernel
  refine ⟨haccepted, by decide, fun hagrees => ?_⟩
  have hadmissible := (RuntimeConfig.parseRuntimeConfig_eq_ok_iff.mp haccepted).1.journalPrefix
  exact (journalPrefixAgrees_iff hadmissible).mp hagrees (.inr (by decide))

end MatchingEngine

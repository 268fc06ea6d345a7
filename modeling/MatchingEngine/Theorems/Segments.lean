import MatchingEngine.Lemmas.Names
import MatchingEngine.Lemmas.Rotation
import MatchingEngine.Lemmas.Sequencing

/-!
# Which directories open

`JournalSegmentSet::open` over any directory: the order of the listing does not matter, and what it accepts are the chains of whole
segments whose names are printed bases. The printer and the parser of the names agree on every base, and the names are ordered as the
bases are.
-/

namespace MatchingEngine

/-! ## What an opened file says -/

namespace MmapJournal

theorem recoverRecord_keeps (mapping : Buffer) (index : Nat) (j : MmapJournal) :
    (j.recoverRecord mapping index).2.capacity = j.capacity ∧ (j.recoverRecord mapping index).2.baseSequence = j.baseSequence := by
  unfold recoverRecord
  split
  · exact ⟨rfl, rfl⟩
  split
  · exact ⟨rfl, rfl⟩
  split <;> exact ⟨rfl, rfl⟩

theorem recoverFrom_keeps (mapping : Buffer) (remaining index : Nat) (j : MmapJournal) :
    (recoverFrom mapping index remaining j).2.capacity = j.capacity ∧
      (recoverFrom mapping index remaining j).2.baseSequence = j.baseSequence := by
  induction remaining generalizing index j with
  | zero => exact ⟨rfl, rfl⟩
  | succ remaining ih =>
    obtain ⟨hcapacity, hbase⟩ := recoverRecord_keeps mapping index j
    unfold recoverFrom
    split
    · split <;> exact ⟨rfl, rfl⟩
    split
    · exact ⟨hcapacity, hbase⟩
    · obtain ⟨hcapacity', hbase'⟩ := ih (index + 1) (j.recoverRecord mapping index).2
      exact ⟨hcapacity'.trans hcapacity, hbase'.trans hbase⟩

/-- A check that has passed. -/
theorem ite_error_eq_ok {c : Prop} [Decidable c] {error : JournalError} {r : Except JournalError MmapJournal} {j : MmapJournal} :
    (if c then .error error else r) = .ok j ↔ ¬c ∧ r = .ok j := by
  split
  · rename_i h
    exact ⟨nofun, fun h' => absurd h h'.1⟩
  · rename_i h
    exact (and_iff_right h).symm

/-- The numbers of the records of an opened file are numbers of 64 bits. -/
theorem openFile_bounds {pid : Nat} {bytes : Buffer} {fileSize : Nat} {j : MmapJournal} (h : openFile pid bytes fileSize = .ok j) :
    j.baseSequence ≠ 0 ∧ 0 < j.capacity ∧ j.baseSequence.toNat + j.capacity ≤ 2 ^ 64 := by
  unfold openFile at h
  obtain ⟨-, h⟩ := ite_error_eq_ok.mp h
  obtain ⟨-, h⟩ := ite_error_eq_ok.mp h
  dsimp only at h
  obtain ⟨-, h⟩ := ite_error_eq_ok.mp h
  generalize (if bytes.readU32 8 = 1 then (1 : UInt64) else bytes.readU64 kJournalBaseSequenceOffset) = base at h
  generalize bytes.readU64 20 = capacity at h
  obtain ⟨hheader, h⟩ := ite_error_eq_ok.mp h
  rw [not_or, not_or] at hheader
  obtain ⟨hne, hpos, hle⟩ := hheader
  rcases hsize : checkedFileSize capacity.toNat with _ | size <;> rw [hsize] at h
  · cases h
  obtain ⟨-, h⟩ := ite_error_eq_ok.mp h
  obtain ⟨hcapacity, hbase⟩ : ((attached pid capacity.toNat base).recover bytes).2.capacity = capacity.toNat ∧
      ((attached pid capacity.toNat base).recover bytes).2.baseSequence = base := recoverFrom_keeps bytes _ 0 _
  rcases hrecover : (attached pid capacity.toNat base).recover bytes with ⟨error, j'⟩
  rw [hrecover] at h hcapacity hbase
  have hj : j' = j := by
    cases error <;> cases h
    rfl
  have hone : (1 : UInt64).toNat = 1 := rfl
  have hpos' : capacity.toNat ≠ 0 := fun h0 => hpos (UInt64.toNat_inj.mp h0)
  have hbase_le : base ≤ uint64Max := UInt64.le_iff_toNat_le.mpr (by rw [uint64Max_toNat]; exact Nat.le_sub_one_of_lt base.toNat_lt)
  have hlt := base.toNat_lt
  have hone_le : (1 : UInt64) ≤ capacity := UInt64.le_iff_toNat_le.mpr (by omega)
  rw [UInt64.not_lt, UInt64.le_iff_toNat_le, UInt64.toNat_sub_of_le _ _ hbase_le, UInt64.toNat_sub_of_le _ _ hone_le, uint64Max_toNat] at hle
  rw [← hj, hcapacity, hbase]
  exact ⟨hne, Nat.pos_of_ne_zero hpos', by omega⟩

/-- The checks between two journals that were opened. -/
theorem followError_eq_none_iff {j : MmapJournal} {base : UInt64} (hj : j.baseSequence.toNat + j.capacity ≤ 2 ^ 64) (hpos : 0 < j.capacity)
    (hbase : base ≠ 0) :
    JournalSegmentSet.followError j base = .none ↔ j.full = true ∧ base.toNat = j.baseSequence.toNat + j.size := by
  have hbase' : base.toNat ≠ 0 := fun h => hbase (UInt64.toNat_inj.mp h)
  have hlt := base.toNat_lt
  unfold JournalSegmentSet.followError
  by_cases hfull : j.full = true
  · have hsize : j.size = j.capacity := of_decide_eq_true hfull
    have hnext : j.nextSequence.toNat = (j.baseSequence.toNat + j.size) % 2 ^ 64 := by
      rw [nextSequence, UInt64.toNat_add, UInt64.toNat_ofNat', Nat.add_mod_mod]
    rw [hfull, and_iff_right rfl]
    simp only [Bool.not_true, Bool.false_eq_true, if_false, UInt64.lt_iff_toNat_lt, hnext]
    split
    · exact ⟨by rintro ⟨⟩, fun h => by omega⟩
    split
    · exact ⟨by rintro ⟨⟩, fun h => by omega⟩
    · exact ⟨fun _ => by omega, fun _ => rfl⟩
  · rw [Bool.not_eq_true] at hfull
    rw [hfull]
    exact ⟨by rintro ⟨⟩, fun h => absurd h.1 Bool.false_ne_true⟩

end MmapJournal

/-! ## Opening a directory -/

/-- A segment is what its file gives when it is opened. -/
def Segment.OpenedFrom (s : Segment) (pid : Nat) (d : Directory) : Prop :=
  ∃ file, d s.path = some file ∧ MmapJournal.openFile pid file.content.now file.size = .ok s.journal ∧ s.mapping = file.content.now

/-- A segment is full, and another one starts at the number after its last. -/
def Segment.Precedes (s t : Segment) : Prop :=
  s.journal.full = true ∧ t.journal.baseSequence.toNat = s.journal.baseSequence.toNat + s.journal.size

/-- The segments of a directory, in the order of their bases: the files whose names claim to be segments, each named after its own base
and opened, and each the next one of the one before it. -/
structure SegmentChain (pid : Nat) (stem : PathPrefix) (d : Directory) (segments : List Segment) : Prop where
  nonempty : segments ≠ []
  names : ∀ name, (∃ s ∈ segments, s.path = name) ↔ (d name).isSome = true ∧ Claimed stem name
  named : ∀ s ∈ segments, NamesBase stem s.path s.journal.baseSequence
  opened : ∀ s ∈ segments, s.OpenedFrom pid d
  ordered : segments.Pairwise fun s t => s.journal.baseSequence < t.journal.baseSequence
  linked : segments.IsChain Segment.Precedes

namespace JournalSegmentSet

section

variable {pid : Nat} {stem : PathPrefix} {d : Directory} {segments : List Segment} {listing listing' : List Path}

theorem openCandidate_eq_ok_iff {previous : Option MmapJournal} {base : UInt64} {path : Path} {s : Segment} :
    openCandidate pid d previous base path = .ok s ↔
      (s.journal.baseSequence, s.path) = (base, path) ∧ s.OpenedFrom pid d ∧ ∀ p ∈ previous, followError p base = .none := by
  unfold openCandidate
  rcases hfile : d path with _ | file
  · refine ⟨nofun, ?_⟩
    rintro ⟨hpair, ⟨file, hfile', -⟩, -⟩
    rw [(Prod.mk.inj hpair).2, hfile] at hfile'
    cases hfile'
  dsimp only
  rcases hopen : MmapJournal.openFile pid file.content.now file.size with error | journal
  · refine ⟨nofun, ?_⟩
    rintro ⟨hpair, ⟨file', hfile', hopen', -⟩, -⟩
    rw [(Prod.mk.inj hpair).2, hfile] at hfile'
    cases hfile'
    rw [hopen] at hopen'
    cases hopen'
  dsimp only
  have hprevious : (previous.map fun p => followError p base).getD .none = .none ↔ ∀ p ∈ previous, followError p base = .none := by
    cases previous <;> simp
  split
  · rename_i hbase
    refine ⟨nofun, ?_⟩
    rintro ⟨hpair, ⟨file', hfile', hopen', -⟩, -⟩
    rw [(Prod.mk.inj hpair).2, hfile] at hfile'
    cases hfile'
    rw [hopen] at hopen'
    cases hopen'
    exact absurd (Prod.mk.inj hpair).1 hbase
  rename_i hbase
  split
  · rename_i herror
    exact ⟨nofun, fun h => absurd (hprevious.mpr h.2.2) herror⟩
  · rename_i herror
    constructor
    · rintro ⟨⟩
      exact ⟨Prod.ext (not_not.mp hbase) rfl, ⟨file, hfile, hopen, rfl⟩, hprevious.mp (not_not.mp herror)⟩
    · rintro ⟨hpair, ⟨file', hfile', hopen', hmapping⟩, -⟩
      obtain ⟨-, hpath⟩ := Prod.mk.inj hpair
      rw [hpath, hfile] at hfile'
      cases hfile'
      rw [hopen] at hopen'
      cases hopen'
      rw [← hpath, ← hmapping]

/-- The loop of `open` accepts the candidates that can be opened and follow one another. -/
theorem openCandidates_eq_ok_iff {previous : Option MmapJournal} {found : List (UInt64 × Path)} :
    openCandidates pid d previous found = .ok segments ↔
      (segments.map fun s => (s.journal.baseSequence, s.path)) = found ∧ (∀ s ∈ segments, s.OpenedFrom pid d) ∧
        (previous.toList ++ segments.map Segment.journal).IsChain fun p j => followError p j.baseSequence = .none := by
  induction found generalizing previous segments with
  | nil =>
    rw [openCandidates, Except.ok.injEq, List.map_eq_nil_iff, eq_comm]
    refine ⟨?_, fun h => h.1⟩
    rintro rfl
    refine ⟨rfl, by rintro _ ⟨⟩, ?_⟩
    cases previous with
    | none => exact List.IsChain.nil
    | some p => exact List.IsChain.singleton p
  | cons candidate found ih =>
    have hchain (s : Segment) (rest : List Segment) :
        (previous.toList ++ (s :: rest).map Segment.journal).IsChain (fun p j => followError p j.baseSequence = .none) ↔
          (∀ p ∈ previous, followError p s.journal.baseSequence = .none) ∧
            (s.journal :: rest.map Segment.journal).IsChain fun p j => followError p j.baseSequence = .none := by
      cases previous <;> simp [List.isChain_cons]
    rw [openCandidates]
    constructor
    · intro h
      rcases hfirst : openCandidate pid d previous candidate.1 candidate.2 with error | s <;> rw [hfirst] at h
      · cases h
      rcases hrest : openCandidates pid d (some s.journal) found with error | rest
      · simp only [bind, Except.bind, hrest] at h
        cases h
      simp only [bind, Except.bind, hrest] at h
      cases h
      obtain ⟨hpair, hopened, hfollows⟩ := openCandidate_eq_ok_iff.mp hfirst
      obtain ⟨hfound, hall, hlinked⟩ := ih.mp hrest
      refine ⟨?_, ?_, (hchain s rest).mpr ⟨?_, hlinked⟩⟩
      · rw [List.map_cons, hfound, hpair]
      · rintro t ht
        rcases List.mem_cons.mp ht with rfl | ht
        · exact hopened
        · exact hall t ht
      · rw [(Prod.mk.inj hpair).1]
        exact hfollows
    · rintro ⟨hfound, hall, hlinked⟩
      obtain ⟨s, rest, rfl, hpair, hrest⟩ := List.map_eq_cons_iff.mp hfound
      obtain ⟨hfollows, hlinked⟩ := (hchain s rest).mp hlinked
      have hfirst : openCandidate pid d previous candidate.1 candidate.2 = .ok s := by
        rw [openCandidate_eq_ok_iff, ← hpair]
        exact ⟨rfl, hall s List.mem_cons_self, hfollows⟩
      have hothers := (@ih rest (some s.journal)).mpr ⟨hrest, fun t ht => hall t (List.mem_cons_of_mem _ ht), hlinked⟩
      simp only [hfirst, bind, Except.bind, hothers]
      rfl

/-- The checks of `open` between opened segments. -/
theorem isChain_precedes (hopened : ∀ s ∈ segments, s.OpenedFrom pid d) (hbases : ∀ s ∈ segments, s.journal.baseSequence ≠ 0) :
    (segments.map Segment.journal).IsChain (fun p j => followError p j.baseSequence = .none) ↔ segments.IsChain Segment.Precedes := by
  rw [List.isChain_map]
  refine List.IsChain.iff_of_mem_imp fun s t hs ht => ?_
  obtain ⟨file, -, hopen, -⟩ := hopened s hs
  obtain ⟨-, hpos, hle⟩ := MmapJournal.openFile_bounds hopen
  exact MmapJournal.followError_eq_none_iff hle hpos (hbases t ht)

/-! ### The order of the listing -/

/-- A listing with a name that claims to be a segment and is not one is refused. -/
theorem candidates_of_malformed {name : Path} (hmem : name ∈ listing) (hclaimed : Claimed stem name) (hbase : ∀ base, ¬NamesBase stem name base) :
    candidates stem listing = .error .malformedSegmentName := by
  induction listing with
  | nil => exact absurd hmem List.not_mem_nil
  | cons first names ih =>
    rw [candidates]
    rcases hfirst : segmentBase stem first with _ | error | base
    · refine ih ((List.mem_cons.mp hmem).resolve_left ?_)
      rintro rfl
      exact segmentBase_eq_none_iff.mp hfirst hclaimed
    · rw [segmentBase_error hfirst]
    · have hrest := ih ((List.mem_cons.mp hmem).resolve_left (by rintro rfl; exact hbase base (segmentBase_eq_ok_iff.mp hfirst)))
      dsimp only
      rw [hrest]
      rfl

/-- The names of a listing that claim to be segments are segments, or one of them is not. -/
theorem candidates_cases (stem : PathPrefix) (listing : List Path) :
    (∃ name ∈ listing, Claimed stem name ∧ ∀ base, ¬NamesBase stem name base) ∨
      ∀ name ∈ listing, ∀ error, segmentBase stem name ≠ some (.error error) := by
  by_cases h : ∃ name ∈ listing, ∃ error, segmentBase stem name = some (.error error)
  · obtain ⟨name, hname, error, herror⟩ := h
    refine .inl ⟨name, hname, ?_, fun base hbase => ?_⟩
    · by_contra hnot
      rw [segmentBase_eq_none_iff.mpr hnot] at herror
      cases herror
    · rw [segmentBase_eq_ok_iff.mpr hbase] at herror
      cases herror
  · exact .inr fun name hname error herror => h ⟨name, hname, error, herror⟩

/-- The candidates in the order of their bases are determined by what they are. -/
theorem keys_unique {keys keys' : List (UInt64 × Path)} (hkeys : keys.Pairwise fun a b => a.1 < b.1)
    (hkeys' : keys'.Pairwise fun a b => a.1 < b.1) (hmem : ∀ key, key ∈ keys ↔ key ∈ keys') : keys = keys' := by
  have hnodup {l : List (UInt64 × Path)} (h : l.Pairwise fun a b => a.1 < b.1) : l.Nodup :=
    h.imp fun hlt he => by
      rw [he] at hlt
      exact UInt64.lt_irrefl _ hlt
  refine ((List.perm_ext_iff_of_nodup (hnodup hkeys) (hnodup hkeys')).mpr hmem).eq_of_pairwise ?_ hkeys hkeys'
  intro a b _ _ hab hba
  exact absurd (UInt64.lt_trans hab hba) (UInt64.lt_irrefl _)

/-- The candidates of a listing have different bases, and are sorted by them. -/
theorem exists_keys (hclean : ∀ name ∈ listing, ∀ error, segmentBase stem name ≠ some (.error error)) (hnodup : listing.Nodup) :
    ∃ found keys, candidates stem listing = .ok found ∧ (found.mergeSort fun a b => a.1 ≤ b.1) = keys ∧ (found = [] ↔ keys = []) ∧
      keys.Pairwise (fun a b => a.1 < b.1) ∧ ∀ key, key ∈ keys ↔ key.2 ∈ listing ∧ NamesBase stem key.2 key.1 := by
  obtain ⟨found, hfound, hsub, hmem⟩ := candidates_eq hclean
  have hmem' (key : UInt64 × Path) : key ∈ found ↔ key.2 ∈ listing ∧ NamesBase stem key.2 key.1 := by
    rw [← segmentBase_eq_ok_iff, ← hmem]
  have hperm := List.mergeSort_perm found fun a b => a.1 ≤ b.1
  have htrans : ∀ a b c : UInt64 × Path, decide (a.1 ≤ b.1) = true → decide (b.1 ≤ c.1) = true → decide (a.1 ≤ c.1) = true :=
    fun a b c hab hbc => decide_eq_true (UInt64.le_trans (of_decide_eq_true hab) (of_decide_eq_true hbc))
  have htotal : ∀ a b : UInt64 × Path, (decide (a.1 ≤ b.1) || decide (b.1 ≤ a.1)) = true := by
    intro a b
    simp [UInt64.le_total a.1 b.1]
  have hsorted : (found.mergeSort fun a b => a.1 ≤ b.1).Pairwise fun a b => a.1 ≤ b.1 :=
    (List.pairwise_mergeSort htrans htotal found).imp of_decide_eq_true
  have hdistinct : (found.mergeSort fun a b => a.1 ≤ b.1).Nodup := hperm.nodup_iff.mpr (List.Nodup.of_map _ (hnodup.sublist hsub))
  refine ⟨found, _, hfound, rfl, ?_, ?_, fun key => hperm.mem_iff.trans (hmem' key)⟩
  · constructor
    · rintro rfl
      exact List.mergeSort_nil
    · intro h
      rw [h] at hperm
      exact List.nil_perm.mp hperm
  refine (hsorted.and hdistinct).imp_of_mem fun {a b} ha hb h => ?_
  refine UInt64.lt_of_le_of_ne h.1 fun he => h.2 (Prod.ext he ?_)
  have hname := (namesBase_iff.mp ((hmem' a).mp (hperm.subset ha)).2).2
  have hname' := (namesBase_iff.mp ((hmem' b).mp (hperm.subset hb)).2).2
  rw [hname, hname', he]

/-- `open` gives the same whatever the order of the listing. -/
theorem openAll_congr (hl : d.Lists listing) (hl' : d.Lists listing') : openAll pid stem listing d = openAll pid stem listing' d := by
  have hlisted (name : Path) : name ∈ listing ↔ name ∈ listing' := (hl.mem_iff name).trans (hl'.mem_iff name).symm
  unfold openAll
  rcases candidates_cases stem listing with ⟨name, hmem, hclaimed, hbase⟩ | hclean
  · rw [candidates_of_malformed hmem hclaimed hbase, candidates_of_malformed ((hlisted name).mp hmem) hclaimed hbase]
  · have hclean' : ∀ name ∈ listing', ∀ error, segmentBase stem name ≠ some (.error error) :=
      fun name hname => hclean name ((hlisted name).mpr hname)
    obtain ⟨found, keys, hfound, hsort, hempty, hkeys, hmem⟩ := exists_keys hclean hl.nodup
    obtain ⟨found', keys', hfound', hsort', hempty', hkeys', hmem'⟩ := exists_keys hclean' hl'.nodup
    obtain rfl : keys = keys' := keys_unique hkeys hkeys' fun key => by rw [hmem, hmem', hlisted]
    have hnil : found.isEmpty = found'.isEmpty := by
      rw [Bool.eq_iff_iff, List.isEmpty_iff, List.isEmpty_iff, hempty, hempty']
    rw [hfound, hfound']
    simp only [bind, Except.bind, hsort, hsort', hnil]

/-- `open` accepts a directory if and only if the prefix has a file name and the files whose names claim to be segments are a chain. -/
theorem openAll_eq_ok_iff (hl : d.Lists listing) :
    openAll pid stem listing d = .ok segments ↔ stem.Named ∧ SegmentChain pid stem d segments := by
  by_cases hstem : stem.Named
  swap
  · rw [openAll_of_not_named hstem]
    exact ⟨by rintro ⟨⟩, fun h => absurd h.1 hstem⟩
  rw [and_iff_right hstem]
  have hguard : ¬(stem.isEmpty = true ∨ stem.name = [] ∨ stem.name = ['.'] ∨ stem.name = ['.', '.']) := by
    rw [PathPrefix.isEmpty, decide_eq_true_iff]
    rintro (h | h | h | h)
    · exact hstem.1 h.2
    · exact hstem.1 h
    · exact hstem.2.1 h
    · exact hstem.2.2 h
  rw [openAll, if_neg hguard]
  rcases candidates_cases stem listing with ⟨name, hmem, hclaimed, hbase⟩ | hclean
  · rw [candidates_of_malformed hmem hclaimed hbase]
    refine ⟨by rintro ⟨⟩, fun h => ?_⟩
    obtain ⟨s, hs, rfl⟩ := (h.names name).mpr ⟨(hl.mem_iff name).mp hmem, hclaimed⟩
    exact absurd (h.named s hs) (hbase _)
  obtain ⟨found, keys, hfound, hsort, hempty, hkeys, hmem⟩ := exists_keys hclean hl.nodup
  rw [hfound]
  simp only [bind, Except.bind, hsort]
  have hkey {s : Segment} (h : (segments.map fun s => (s.journal.baseSequence, s.path)) = keys) (hs : s ∈ segments) :
      s.path ∈ listing ∧ NamesBase stem s.path s.journal.baseSequence :=
    (hmem (s.journal.baseSequence, s.path)).mp (h ▸ List.mem_map.mpr ⟨s, hs, rfl⟩)
  have hsegments (h : SegmentChain pid stem d segments) : (segments.map fun s => (s.journal.baseSequence, s.path)) = keys := by
    refine keys_unique (List.pairwise_map.mpr h.ordered) hkeys fun key => ?_
    rw [hmem, List.mem_map]
    constructor
    · rintro ⟨s, hs, rfl⟩
      exact ⟨(hl.mem_iff _).mpr ((h.names s.path).mp ⟨s, hs, rfl⟩).1, h.named s hs⟩
    · rintro ⟨hlisted, hname⟩
      obtain ⟨s, hs, hpath⟩ := (h.names key.2).mpr ⟨(hl.mem_iff _).mp hlisted, hname.claimed⟩
      exact ⟨s, hs, Prod.ext (NamesBase.unique (hpath ▸ h.named s hs) hname) hpath⟩
  split
  · rename_i hnil
    have hkeysnil := hempty.mp (List.isEmpty_iff.mp hnil)
    refine ⟨by rintro ⟨⟩, fun h => absurd ?_ h.nonempty⟩
    exact List.map_eq_nil_iff.mp ((hsegments h).trans hkeysnil)
  rename_i hnonempty
  rw [openCandidates_eq_ok_iff, Option.toList_none, List.nil_append]
  constructor
  · rintro ⟨hfoundkeys, hopened, hlinked⟩
    refine ⟨?_, fun name => ?_, fun s hs => (hkey hfoundkeys hs).2, hopened, ?_, (isChain_precedes hopened fun s hs => ?_).mp hlinked⟩
    · rintro rfl
      exact hnonempty (List.isEmpty_iff.mpr (hempty.mpr hfoundkeys.symm))
    · constructor
      · rintro ⟨s, hs, rfl⟩
        obtain ⟨hlisted, hname⟩ := hkey hfoundkeys hs
        exact ⟨(hl.mem_iff _).mp hlisted, hname.claimed⟩
      · rintro ⟨hsome, hclaimed⟩
        have hlisted := (hl.mem_iff name).mpr hsome
        rcases hbase : segmentBase stem name with _ | error | base
        · exact absurd hclaimed (segmentBase_eq_none_iff.mp hbase)
        · exact absurd hbase (hclean name hlisted error)
        · have hin : (base, name) ∈ keys := (hmem _).mpr ⟨hlisted, segmentBase_eq_ok_iff.mp hbase⟩
          rw [← hfoundkeys] at hin
          obtain ⟨s, hs, hpair⟩ := List.mem_map.mp hin
          exact ⟨s, hs, (Prod.mk.inj hpair).2⟩
    · rw [← hfoundkeys] at hkeys
      exact List.Pairwise.of_map (fun s : Segment => (s.journal.baseSequence, s.path)) (fun _ _ h => h) hkeys
    · exact (namesBase_iff.mp (hkey hfoundkeys hs).2).1
  · intro h
    exact ⟨hsegments h, h.opened, (isChain_precedes h.opened fun s hs => (namesBase_iff.mp (h.named s hs)).1).mpr h.linked⟩

end

end JournalSegmentSet

/-! ## The result -/

/-- `open` gives the same whatever the order in which the directory is listed. It accepts a prefix with a file name if and only if the
files whose names claim to be segments are a chain. The name `segment_path` prints for a base gives the base back, and the names are
ordered as their bases. -/
theorem open_segments (pid : Nat) (stem : PathPrefix) (d : Directory) :
    (∀ listing listing', d.Lists listing → d.Lists listing' →
      JournalSegmentSet.openAll pid stem listing d = JournalSegmentSet.openAll pid stem listing' d) ∧
    (∀ listing, d.Lists listing → ∀ segments,
      JournalSegmentSet.openAll pid stem listing d = .ok segments ↔ stem.Named ∧ SegmentChain pid stem d segments) ∧
    (stem.isEmpty = false → ∀ base : UInt64, base ≠ 0 → ∃ name, segmentPath stem base = .ok name ∧ NamesBase stem name base ∧
      segmentBase stem name = some (.ok base)) ∧
    ∀ base base' name name', segmentPath stem base = .ok name → segmentPath stem base' = .ok name' → (name < name' ↔ base < base') := by
  have hpath {base : UInt64} {name : Path} (h : segmentPath stem base = .ok name) : segmentName stem base = name := by
    unfold segmentPath at h
    split at h
    · cases h
    · cases h
      rfl
  refine ⟨fun listing listing' => JournalSegmentSet.openAll_congr, fun listing hl segments => JournalSegmentSet.openAll_eq_ok_iff hl, ?_, ?_⟩
  · intro hstem base hbase
    refine ⟨segmentName stem base, if_neg ?_, namesBase_iff.mpr ⟨hbase, rfl⟩, segmentBase_segmentName stem hbase⟩
    rw [hstem]
    rintro (h | h)
    · cases h
    · exact hbase h
  · intro base base' name name' h h'
    rw [← hpath h, ← hpath h', segmentName_lt_iff]

/-- A directory with one segment, from the first command on, and no command in it. -/
def oneSegment (stem : PathPrefix) : Directory := Function.update (fun _ => none) (segmentName stem 1)
  (some ⟨.settled (MmapJournal.createdBytes 1 1), kJournalHeaderSize + 1 * kJournalRecordSize⟩)

theorem oneSegment_lists (stem : PathPrefix) : (oneSegment stem).Lists [segmentName stem 1] where
  nodup := List.nodup_singleton _
  mem_iff path := by
    by_cases h : path = segmentName stem 1
    · simp [oneSegment, h]
    · simp [oneSegment, h]

theorem oneSegment_chain (pid : Nat) (stem : PathPrefix) :
    SegmentChain pid stem (oneSegment stem) [⟨segmentName stem 1, MmapJournal.attached pid 1 1, MmapJournal.createdBytes 1 1⟩] := by
  have hnamed : NamesBase stem (segmentName stem 1) 1 := namesBase_iff.mpr ⟨by decide, rfl⟩
  refine ⟨List.cons_ne_nil _ _, fun name => ?_, ?_, ?_, List.pairwise_singleton _ _, .singleton _⟩
  · rw [← (oneSegment_lists stem).mem_iff name, List.mem_singleton]
    constructor
    · rintro ⟨s, hs, rfl⟩
      rw [List.mem_singleton.mp hs]
      exact ⟨rfl, hnamed.claimed⟩
    · rintro ⟨rfl, -⟩
      exact ⟨_, List.mem_singleton_self _, rfl⟩
  · intro s hs
    rw [List.mem_singleton.mp hs]
    exact hnamed
  · intro s hs
    rw [List.mem_singleton.mp hs]
    exact ⟨_, Function.update_self .., (createdBytes_shows 1 1).openFile_eq (Chain.nil _ _) (by decide) pid, rfl⟩

/-- Settled segments that follow one another are a chain of their directory. -/
theorem Holds.segmentChain {stem : PathPrefix} {d : Directory} {segs : List Archived} (h : Holds stem d segs) (linked : Linked segs)
    (nonempty : segs ≠ []) (pid : Nat) : SegmentChain pid stem d (segs.map (Archived.opened stem d pid)) where
  nonempty := List.map_eq_nil_iff.not.mpr nonempty
  names name := by
    constructor
    · rintro ⟨_, hs, rfl⟩
      obtain ⟨t, ht, rfl⟩ := List.mem_map.mp hs
      obtain ⟨v, hfile, -⟩ := h.files t ht
      have hnames : NamesBase stem (t.path stem) t.base := namesBase_iff.mpr ⟨(h.valid t ht).base_ne_zero, rfl⟩
      exact ⟨Option.isSome_of_eq_some hfile, hnames.claimed⟩
    · rintro ⟨hsome, hclaimed⟩
      obtain ⟨t, ht, rfl⟩ := h.only name hsome fun hnone => segmentBase_eq_none_iff.mp hnone hclaimed
      exact ⟨_, List.mem_map_of_mem ht, rfl⟩
  named s hs := by
    obtain ⟨t, ht, rfl⟩ := List.mem_map.mp hs
    exact namesBase_iff.mpr ⟨(h.valid t ht).base_ne_zero, rfl⟩
  opened s hs := by
    obtain ⟨t, ht, rfl⟩ := List.mem_map.mp hs
    obtain ⟨v, hfile, hshows⟩ := h.files t ht
    refine ⟨_, hfile, hshows.openFile_eq (h.valid t ht).chain (h.valid t ht).created pid, ?_⟩
    rw [Archived.opened, Directory.contentAt, hfile]
    rfl
  ordered := List.pairwise_map.mpr h.ordered
  linked := (List.isChain_map _).mpr (linked.imp fun s t hfollows => ⟨decide_eq_true hfollows.1, hfollows.2⟩)

/-- A full segment and an empty one behind it open, in the order of their bases, when the directory is listed the other way round. -/
theorem open_segments_two : ∃ d segments, d.Lists [segmentName ⟨[], ['j']⟩ 2, segmentName ⟨[], ['j']⟩ 1] ∧
    JournalSegmentSet.openAll 7 ⟨[], ['j']⟩ [segmentName ⟨[], ['j']⟩ 2, segmentName ⟨[], ['j']⟩ 1] d = .ok segments ∧
    segments.map (fun s => (s.journal.baseSequence, s.journal.size)) = [(1, 1), (2, 0)] := by
  let full : Archived := ⟨1, 1, [⟨.submitMarket 1 0 5, 1, 10⟩]⟩
  let empty : Archived := ⟨2, 1, []⟩
  have hfull : full.Valid := ⟨by decide, (Chain.nil 1 1).snoc (by decide) (by decide) rfl (by decide)⟩
  have hempty : empty.Valid := ⟨by decide, Chain.nil _ _⟩
  have hvalid : ∀ s ∈ [full, empty], s.Valid := by
    intro s hs
    rcases List.mem_pair.mp hs with rfl | rfl
    · exact hfull
    · exact hempty
  have hordered : [full, empty].Pairwise fun s t => s.base < t.base := List.pairwise_pair.mpr (by decide)
  obtain ⟨d, hd, hl⟩ := exists_holds ⟨[], ['j']⟩ hvalid hordered
  have hlinked : Linked [full, empty] := List.IsChain.cons_cons ⟨rfl, by decide⟩ (List.IsChain.singleton _)
  have hswap := List.Perm.swap (segmentName ⟨[], ['j']⟩ 1) (segmentName ⟨[], ['j']⟩ 2) []
  have hlisted : d.Lists [segmentName ⟨[], ['j']⟩ 2, segmentName ⟨[], ['j']⟩ 1] :=
    ⟨hswap.nodup_iff.mpr hl.nodup, fun path => hswap.mem_iff.trans (hl.mem_iff path)⟩
  have hopen := ((open_segments 7 ⟨[], ['j']⟩ d).2.1 _ hlisted _).mpr
    ⟨⟨by decide, by decide, by decide⟩, hd.segmentChain hlinked (List.cons_ne_nil _ _) 7⟩
  exact ⟨d, _, hlisted, hopen, rfl⟩

/-- The prefix `.`: the directory holds a chain of one segment, and it does not open. -/
theorem segments_of_dot_are_a_chain : ∃ segments, SegmentChain 7 ⟨[], ['.']⟩ (oneSegment ⟨[], ['.']⟩) segments ∧
    (oneSegment ⟨[], ['.']⟩).Lists [segmentName ⟨[], ['.']⟩ 1] ∧
    JournalSegmentSet.openAll 7 ⟨[], ['.']⟩ [segmentName ⟨[], ['.']⟩ 1] (oneSegment ⟨[], ['.']⟩) = .error .invalidPath :=
  ⟨_, oneSegment_chain 7 _, oneSegment_lists _, rfl⟩

end MatchingEngine

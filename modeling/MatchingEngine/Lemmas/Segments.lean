import MatchingEngine.Lemmas.Journal
import MatchingEngine.Segments
import Mathlib.Data.List.Chain
import Mathlib.Data.List.Nodup

/-!
# Opening segments

The names of segments are read back, and a chain of segments is opened as it is. `Archived` is a segment as the proofs see it, its
base, capacity and commands; a directory `Holds` a list of segments when their files are there, settled, and no other file has a name
of theirs; and a list of segments is `Linked` when each is full and the next one starts where it ends.
-/

namespace MatchingEngine

open Function

/-! ## Names -/

theorem length_decimal (width n : Nat) : (decimal width n).length = width := by
  induction width generalizing n with
  | zero => rfl
  | succ width ih => rw [decimal, List.length_append, ih, List.length_singleton]

/-- A digit that is written is read. -/
theorem digitValue_ofNat {k : Nat} (h : k < 10) : digitValue (Char.ofNat (48 + k)) = some k := by
  have hall : ∀ k < 10, digitValue (Char.ofNat (48 + k)) = some k := by decide
  exact hall k h

/-- A number that is written is read, up to its width. -/
theorem parseDecimal_decimal (width n : Nat) : parseDecimal (decimal width n) = some (n % 10 ^ width) := by
  induction width generalizing n with
  | zero => rw [pow_zero, Nat.mod_one]; rfl
  | succ width ih =>
    have ih' := ih (n / 10)
    rw [parseDecimal] at ih' ⊢
    rw [decimal, List.foldlM_append, ih']
    simp only [Option.bind_eq_bind, Option.bind_some, List.foldlM_cons, List.foldlM_nil, digitValue_ofNat (Nat.mod_lt n (by decide)),
      Option.map_some, Option.pure_def, Option.some.injEq]
    rw [pow_succ', Nat.mod_mul]
    ring

/-- The name of a segment gives its base back. -/
theorem segmentBase_segmentName (stem : PathPrefix) {base : UInt64} (h : base ≠ 0) :
    segmentBase stem (segmentName stem base) = some (.ok base) := by
  have hlt := base.toNat_lt
  have hpos : base.toNat ≠ 0 := fun h0 => h (UInt64.toNat_inj.mp h0)
  have hname : segmentName stem base = (stem.name ++ ['.']) ++ (decimal 20 base.toNat ++ segmentSuffix) := by
    simp [segmentName]
  have hpre : (stem.name ++ ['.']).isPrefixOf (segmentName stem base) = true := by
    rw [List.isPrefixOf_iff_prefix, hname]
    exact List.prefix_append _ _
  have hsuf : segmentSuffix.isSuffixOf (segmentName stem base) = true := by
    rw [List.isSuffixOf_iff_suffix, hname, ← List.append_assoc]
    exact List.suffix_append _ _
  have hlen : (segmentName stem base).length - (stem.name.length + 1) - segmentSuffix.length = 20 := by
    rw [hname]
    simp only [List.length_append, List.length_singleton, length_decimal]
    omega
  have hdigits : ((segmentName stem base).drop (stem.name.length + 1)).take 20 = decimal 20 base.toNat := by
    rw [hname, List.drop_left' (by simp), List.take_left' (length_decimal 20 _)]
  have hmod : base.toNat % 10 ^ 20 = base.toNat := Nat.mod_eq_of_lt (Nat.lt_of_lt_of_le hlt (by decide))
  rw [segmentBase, hpre, hsuf]
  simp only [Bool.not_true, Bool.or_self, Bool.false_eq_true, if_false, hlen, ne_eq, not_true_eq_false, hdigits,
    parseDecimal_decimal, hmod]
  rw [if_neg (by omega), UInt64.ofNat_toNat]

/-- Segments with different bases have different names. -/
theorem segmentName_inj {stem : PathPrefix} {b c : UInt64} (hb : b ≠ 0) (hc : c ≠ 0) (h : segmentName stem b = segmentName stem c) :
    b = c := by
  have he := segmentBase_segmentName stem hb
  rw [h, segmentBase_segmentName stem hc, Option.some.injEq, Except.ok.injEq] at he
  exact he.symm

/-- A sequence number that is not the last one has a successor. -/
theorem toNat_succ_of_ne_max {snapshot : UInt64} (h : snapshot ≠ uint64Max) : (snapshot + 1).toNat = snapshot.toNat + 1 := by
  have hlt := snapshot.toNat_lt
  have hne : snapshot.toNat ≠ 2 ^ 64 - 1 := fun he => h (UInt64.toNat_inj.mp (he.trans (by decide)))
  rw [UInt64.toNat_add]
  exact Nat.mod_eq_of_lt (by rw [UInt64.toNat_one]; omega)

/-! ## Opening a file -/

/-- A segment that can be created. -/
theorem createError_eq_none {capacity : Nat} {base : UInt64} (h : MmapJournal.createError capacity base = .none) :
    0 < capacity ∧ capacity ≤ kMaximumJournalCapacity ∧ base ≠ 0 ∧ base.toNat + capacity ≤ 2 ^ 64 := by
  unfold MmapJournal.createError at h
  split at h
  · cases h
  split at h
  · cases h
  rename_i h1 h2
  obtain ⟨hzero, hroom⟩ := not_or.mp h2
  have hmax : capacity ≤ 1000000 := by
    simp only [kMaximumJournalCapacity] at h1
    omega
  refine ⟨by omega, by omega, hzero, ?_⟩
  have hlt := base.toNat_lt
  rw [UInt64.not_lt, UInt64.le_iff_toNat_le, UInt64.toNat_sub_of_le _ _ (by rw [UInt64.le_iff_toNat_le]; exact Nat.le_pred_of_lt hlt),
    UInt64.toNat_ofNat_of_lt' (Nat.lt_of_le_of_lt (Nat.sub_le _ _) (Nat.lt_of_le_of_lt hmax (by decide)))] at hroom
  have hM : uint64Max.toNat = 2 ^ 64 - 1 := by decide
  omega

/-- The fields of a header are read back. -/
theorem createdBytes_header (capacity : Nat) (base : UInt64) :
    (MmapJournal.createdBytes capacity base).slice 0 8 = kJournalMagic ∧
      (MmapJournal.createdBytes capacity base).readU32 8 = kJournalFormatVersion ∧
      (MmapJournal.createdBytes capacity base).readU32 12 = UInt32.ofNat kJournalHeaderSize ∧
      (MmapJournal.createdBytes capacity base).readU32 16 = UInt32.ofNat kJournalRecordSize ∧
      (MmapJournal.createdBytes capacity base).readU64 20 = UInt64.ofNat capacity ∧
      (MmapJournal.createdBytes capacity base).readU64 kJournalBaseSequenceOffset = base := by
  simp only [MmapJournal.createdBytes]
  refine ⟨?_, ?_, ?_, ?_, ?_, Buffer.readU64_writeU64_same _ _ _⟩
  · rw [Buffer.slice_congr fun i hi => (Buffer.writeU64_of_not_mem (Or.inl (by simp only [kJournalBaseSequenceOffset]; omega))).trans
      ((Buffer.writeU64_of_not_mem (Or.inl (by omega))).trans ((Buffer.writeU32_of_not_mem (Or.inl (by omega))).trans
      ((Buffer.writeU32_of_not_mem (Or.inl (by omega))).trans (Buffer.writeU32_of_not_mem (Or.inl (by omega))))))]
    decide
  · rw [Buffer.readU32_writeU64_other (by decide), Buffer.readU32_writeU64_other (by decide), Buffer.readU32_writeU32_other (by decide),
      Buffer.readU32_writeU32_other (by decide), Buffer.readU32_writeU32_same]
  · rw [Buffer.readU32_writeU64_other (by decide), Buffer.readU32_writeU64_other (by decide), Buffer.readU32_writeU32_other (by decide),
      Buffer.readU32_writeU32_same]
  · rw [Buffer.readU32_writeU64_other (by decide), Buffer.readU32_writeU64_other (by decide), Buffer.readU32_writeU32_same]
  · rw [Buffer.readU64_writeU64_other (by decide), Buffer.readU64_writeU64_same]

/-- The reserved bytes of a new segment. -/
theorem createdBytes_reserved (capacity : Nat) (base : UInt64) {i : Nat} (h : kJournalHeaderReservedOffset ≤ i) :
    MmapJournal.createdBytes capacity base i = 0 := by
  simp only [kJournalHeaderReservedOffset] at h
  simp only [MmapJournal.createdBytes, kJournalBaseSequenceOffset]
  rw [Buffer.writeU64_of_not_mem (by omega), Buffer.writeU64_of_not_mem (by omega), Buffer.writeU32_of_not_mem (by omega),
    Buffer.writeU32_of_not_mem (by omega), Buffer.writeU32_of_not_mem (by omega), List.getD_eq_getElem?_getD,
    List.getElem?_eq_none (by simp only [kJournalMagic, List.length_cons, List.length_nil]; omega), Option.getD_none]

/-- A file that shows a chain of commands is opened, with these commands. -/
theorem Shows.openFile_eq {capacity : Nat} {base : UInt64} {cs : List SequencedCommand} {v : Buffer} (h : Shows capacity base cs v)
    (hc : Chain capacity base cs) (hcreate : MmapJournal.createError capacity base = .none) (pid : Nat) :
    MmapJournal.openFile pid v (kJournalHeaderSize + capacity * kJournalRecordSize) =
      .ok { MmapJournal.attached pid capacity base with size := cs.length, lastLogicalTime := lastTime cs } := by
  obtain ⟨hpos, hmax, hbase, hroom⟩ := createError_eq_none hcreate
  obtain ⟨hmagic, hversion, hheader, hrecord, hcapacity, hseq⟩ := createdBytes_header capacity base
  have hlt : capacity < 2 ^ 64 := Nat.lt_of_le_of_lt hmax (by decide)
  have hsame : ∀ offset width, offset + width ≤ kJournalHeaderSize →
      ∀ i < width, v (offset + i) = MmapJournal.createdBytes capacity base (offset + i) :=
    fun offset width hle i hi => h.header _ (by omega)
  have hslice : v.slice 0 8 = kJournalMagic := (Buffer.slice_congr (hsame 0 8 (by decide))).trans hmagic
  have h8 : v.readU32 8 = kJournalFormatVersion := (Buffer.readU32_congr (hsame 8 4 (by decide))).trans hversion
  have h12 : v.readU32 12 = UInt32.ofNat kJournalHeaderSize := (Buffer.readU32_congr (hsame 12 4 (by decide))).trans hheader
  have h16 : v.readU32 16 = UInt32.ofNat kJournalRecordSize := (Buffer.readU32_congr (hsame 16 4 (by decide))).trans hrecord
  have h20 : v.readU64 20 = UInt64.ofNat capacity := (Buffer.readU64_congr (hsame 20 8 (by decide))).trans hcapacity
  have h28 : v.readU64 kJournalBaseSequenceOffset = base :=
    (Buffer.readU64_congr (hsame kJournalBaseSequenceOffset 8 (by decide))).trans hseq
  have hzero : v.allZero kJournalHeaderReservedOffset (kJournalHeaderSize - kJournalHeaderReservedOffset) = true :=
    Buffer.allZero_iff.mpr fun i hi => (hsame _ _ (by decide) i hi).trans (createdBytes_reserved capacity base (Nat.le_add_right _ _))
  have hcap : (UInt64.ofNat capacity).toNat = capacity := UInt64.toNat_ofNat_of_lt' hlt
  have hrange : ¬(base = 0 ∨ UInt64.ofNat capacity = 0 ∨ uint64Max - base < UInt64.ofNat capacity - 1) := by
    have hM : uint64Max.toNat = 2 ^ 64 - 1 := by decide
    have hb := base.toNat_lt
    have h1 : (UInt64.ofNat capacity - 1).toNat = capacity - 1 := by
      rw [UInt64.toNat_sub_of_le _ _ (by rw [UInt64.le_iff_toNat_le, hcap]; exact hpos), hcap]
      rfl
    have h2 : (uint64Max - base).toNat = 2 ^ 64 - 1 - base.toNat := by
      rw [UInt64.toNat_sub_of_le _ _ (by rw [UInt64.le_iff_toNat_le, hM]; omega), hM]
    rintro (h0 | h0 | h0)
    · exact hbase h0
    · have := congrArg UInt64.toNat h0
      rw [hcap] at this
      exact absurd this (by rw [UInt64.toNat_zero]; omega)
    · rw [UInt64.lt_iff_toNat_lt, h1, h2] at h0
      omega
  have hsize : checkedFileSize capacity = some (kJournalHeaderSize + capacity * kJournalRecordSize) :=
    if_neg (by omega)
  have hne : ¬(kJournalFormatVersion = 1) := by decide
  unfold MmapJournal.openFile
  rw [if_neg (by omega), hslice, if_neg (not_not.mpr rfl)]
  simp only [h8, h12, h16, h20, h28, hzero, if_neg hne, hcap, hsize, if_neg hrange, ne_eq, not_true_eq_false, and_false, or_self,
    Bool.not_true, Bool.false_eq_true, if_false]
  rw [h.recover_eq hc rfl rfl]

/-! ## Archived segments -/

/-- A segment as its file holds it. -/
structure Archived where
  base : UInt64
  capacity : Nat
  commands : List SequencedCommand

namespace Archived

variable (s t : Archived)

/-- The name of its file. -/
def path (stem : PathPrefix) : Path := segmentName stem s.base

/-- The length of its file. -/
def fileSize : Nat := kJournalHeaderSize + s.capacity * kJournalRecordSize

/-- The sequence number after its last command, as a number. -/
def next : Nat := s.base.toNat + s.commands.length

/-- The journal that is opened on it. -/
def journal (pid : Nat) : MmapJournal :=
  { MmapJournal.attached pid s.capacity s.base with size := s.commands.length, lastLogicalTime := lastTime s.commands }

/-- A segment that a journal can have made. -/
structure Valid : Prop where
  created : MmapJournal.createError s.capacity s.base = .none
  chain : Chain s.capacity s.base s.commands

/-- One segment is full, and another starts where it ends. -/
def Follows : Prop := s.commands.length = s.capacity ∧ t.base.toNat = s.next

end Archived

/-- The segments follow one another. -/
def Linked (segs : List Archived) : Prop := segs.IsChain Archived.Follows

/-- The segments of a directory are those of a list, all of them settled. -/
structure Holds (stem : PathPrefix) (d : Directory) (segs : List Archived) : Prop where
  valid : ∀ s ∈ segs, s.Valid
  files : ∀ s ∈ segs, ∃ v, d (s.path stem) = some ⟨.settled v, s.fileSize⟩ ∧ Shows s.capacity s.base s.commands v
  only : ∀ path, (d path).isSome = true → segmentBase stem path ≠ none → ∃ s ∈ segs, path = s.path stem
  ordered : segs.Pairwise fun s t => s.base < t.base

section

variable {stem : PathPrefix} {d : Directory} {segs : List Archived} {s t : Archived}

theorem Archived.Valid.base_ne_zero (h : s.Valid) : s.base ≠ 0 := (createError_eq_none h.created).2.2.1

theorem Archived.Valid.capacity_pos (h : s.Valid) : 0 < s.capacity := (createError_eq_none h.created).1

/-- No segment goes beyond the last number. -/
theorem Archived.Valid.next_le (h : s.Valid) : s.next ≤ 2 ^ 64 :=
  Nat.le_trans (Nat.add_le_add_left h.chain.length_le _) (createError_eq_none h.created).2.2.2

/-- The next sequence number of the journal on a segment. -/
theorem Archived.toNat_nextSequence (h : s.Valid) (pid : Nat) : (s.journal pid).nextSequence.toNat = s.next % 2 ^ 64 := by
  have hlen := h.chain.length_le
  have hmax := (createError_eq_none h.created).2.1
  have hlt : s.commands.length < 2 ^ 64 := Nat.lt_of_le_of_lt (Nat.le_trans hlen hmax) (by decide)
  rw [MmapJournal.nextSequence, UInt64.toNat_add]
  exact congrArg (fun n => (s.base.toNat + n) % 2 ^ 64) (UInt64.toNat_ofNat_of_lt' hlt)

/-- The checks between two segments are those of `Follows`. -/
theorem followError_eq_none_iff (hs : s.Valid) (ht : t.Valid) (pid : Nat) :
    JournalSegmentSet.followError (s.journal pid) t.base = .none ↔ s.Follows t := by
  have hnext := Archived.toNat_nextSequence hs pid
  have hfull : (s.journal pid).full = true ↔ s.commands.length = s.capacity := by
    rw [MmapJournal.full, decide_eq_true_iff]
    rfl
  have hle := hs.next_le
  have ht0 : t.base.toNat ≠ 0 := fun h => ht.base_ne_zero (UInt64.toNat_inj.mp h)
  have htlt := t.base.toNat_lt
  unfold JournalSegmentSet.followError Archived.Follows
  rw [← hfull]
  cases (s.journal pid).full with
  | false => simp
  | true =>
    simp only [Bool.not_true, Bool.false_eq_true, if_false, UInt64.lt_iff_toNat_lt, hnext, true_and]
    split
    · exact ⟨by rintro ⟨⟩, fun h => by omega⟩
    split
    · exact ⟨by rintro ⟨⟩, fun h => by omega⟩
    · exact ⟨fun _ => by omega, fun _ => rfl⟩

/-- A segment of a directory, opened. -/
def Archived.opened (stem : PathPrefix) (d : Directory) (pid : Nat) (s : Archived) : Segment :=
  ⟨s.path stem, s.journal pid, (d.contentAt (s.path stem)).now⟩

/-- One round of the loop of `open`: it goes on exactly when the segment follows the one before. -/
theorem Holds.openCandidate_eq (h : Holds stem d segs) (hs : s ∈ segs) (pid : Nat) (previous : Option MmapJournal) :
    JournalSegmentSet.openCandidate pid d previous s.base (s.path stem) =
      if (previous.map fun previous => JournalSegmentSet.followError previous s.base).getD .none ≠ .none
      then .error ((previous.map fun previous => JournalSegmentSet.followError previous s.base).getD .none)
      else .ok (s.opened stem d pid) := by
  obtain ⟨v, hfile, hshows⟩ := h.files s hs
  have hopen := hshows.openFile_eq (h.valid s hs).chain (h.valid s hs).created pid
  have hat : d.contentAt (s.path stem) = .settled v := by rw [Directory.contentAt, hfile]; rfl
  unfold JournalSegmentSet.openCandidate
  rw [hfile]
  simp only [Mapped.settled_now, Archived.fileSize, hopen]
  rw [if_neg (show ¬(MmapJournal.attached pid s.capacity s.base).baseSequence ≠ s.base from not_not.mpr rfl), Archived.opened, hat]
  rfl

/-- The loop of `open` over segments of a directory: it succeeds exactly when they follow one another. -/
theorem Holds.openCandidates_eq_ok_iff (h : Holds stem d segs) (pid : Nat) {l : List Archived} (hl : ∀ s ∈ l, s ∈ segs)
    (previous : Option Archived) (hp : ∀ p ∈ previous, p ∈ segs) (segments : List Segment) :
    JournalSegmentSet.openCandidates pid d (previous.map fun p => p.journal pid) (l.map fun s => (s.base, s.path stem)) = .ok segments ↔
      (previous.toList ++ l).IsChain Archived.Follows ∧ segments = l.map (Archived.opened stem d pid) := by
  induction l generalizing previous segments with
  | nil =>
    rw [List.map_nil, JournalSegmentSet.openCandidates, List.append_nil, Except.ok.injEq, List.map_nil, eq_comm]
    refine ⟨fun h => ⟨?_, h⟩, fun h => h.2⟩
    cases previous with
    | none => exact List.IsChain.nil
    | some p => exact List.IsChain.singleton p
  | cons s l ih =>
    have hs : s ∈ segs := hl s List.mem_cons_self
    have ih' := ih (fun t ht => hl t (List.mem_cons_of_mem _ ht)) (some s) (by rintro _ ⟨⟩; exact hs)
    have hfollow : ((previous.map fun p => p.journal pid).map fun p => JournalSegmentSet.followError p s.base).getD .none = .none ↔
        ∀ p ∈ previous, p.Follows s := by
      cases previous with
      | none => simp
      | some p => simpa using followError_eq_none_iff (h.valid p (hp p rfl)) (h.valid s hs) pid
    have hchain : (previous.toList ++ s :: l).IsChain Archived.Follows ↔
        (∀ p ∈ previous, p.Follows s) ∧ (s :: l).IsChain Archived.Follows := by
      cases previous with
      | none => simp
      | some p => simp [List.isChain_cons]
    rw [List.map_cons, JournalSegmentSet.openCandidates, h.openCandidate_eq hs, hchain, ← hfollow]
    by_cases hf : ((previous.map fun p => p.journal pid).map fun p => JournalSegmentSet.followError p s.base).getD .none = .none
    · rw [if_neg (not_not.mpr hf)]
      simp only [bind, Except.bind, pure, Except.pure]
      constructor
      · intro hok
        split at hok
        · cases hok
        · rename_i rest hrest
          obtain ⟨hc, rfl⟩ := (ih' rest).mp hrest
          cases hok
          exact ⟨⟨hf, hc⟩, rfl⟩
      · rintro ⟨⟨-, hc⟩, rfl⟩
        have hrest := (ih' _).mpr ⟨hc, rfl⟩
        simp only [Option.map_some] at hrest
        simp only [Archived.opened] at hrest ⊢
        rw [hrest]
        rfl
    · rw [if_pos hf]
      exact ⟨nofun, fun h => absurd h.1.1 hf⟩

/-- The candidates of a listing. -/
theorem candidates_eq {listing : List Path} (h : ∀ name ∈ listing, ∀ e, segmentBase stem name ≠ some (.error e)) :
    ∃ found, JournalSegmentSet.candidates stem listing = .ok found ∧ (found.map Prod.snd).Sublist listing ∧
      ∀ base name, (base, name) ∈ found ↔ name ∈ listing ∧ segmentBase stem name = some (.ok base) := by
  induction listing with
  | nil => exact ⟨[], rfl, List.Sublist.refl _, by simp⟩
  | cons name names ih =>
    obtain ⟨found, hfound, hsub, hmem⟩ := ih fun n hn => h n (List.mem_cons_of_mem _ hn)
    rw [JournalSegmentSet.candidates]
    match hb : segmentBase stem name with
    | none =>
      refine ⟨found, hfound, hsub.cons _, fun b n => ?_⟩
      rw [hmem, List.mem_cons]
      exact ⟨fun h => ⟨Or.inr h.1, h.2⟩, fun h => ⟨h.1.resolve_left (by rintro rfl; rw [hb] at h; exact absurd h.2 nofun), h.2⟩⟩
    | some (.error e) => exact absurd hb (h name List.mem_cons_self e)
    | some (.ok base) =>
      refine ⟨(base, name) :: found, by rw [hfound]; rfl, hsub.cons_cons _, fun b n => ?_⟩
      rw [List.mem_cons, hmem, List.mem_cons, Prod.mk.injEq]
      constructor
      · rintro (⟨rfl, rfl⟩ | ⟨hn, he⟩)
        · exact ⟨Or.inl rfl, hb⟩
        · exact ⟨Or.inr hn, he⟩
      · rintro ⟨rfl | hn, he⟩
        · rw [hb, Option.some.injEq, Except.ok.injEq] at he
          exact Or.inl ⟨he.symm, rfl⟩
        · exact Or.inr ⟨hn, he⟩

/-- A prefix whose file name `open` takes. -/
def PathPrefix.Named (stem : PathPrefix) : Prop := stem.name ≠ [] ∧ stem.name ≠ ['.'] ∧ stem.name ≠ ['.', '.']

/-- `open` on a directory that holds segments: it succeeds exactly when there are some and they follow one another. Sorted, the candidates
are the segments in their order. -/
theorem Holds.openAll_eq_ok_iff (h : Holds stem d segs) (hn : stem.Named) (pid : Nat) {listing : List Path} (hl : d.Lists listing)
    (segments : List Segment) :
    JournalSegmentSet.openAll pid stem listing d = .ok segments ↔
      segs ≠ [] ∧ Linked segs ∧ segments = segs.map (Archived.opened stem d pid) := by
  have hbase : ∀ s ∈ segs, segmentBase stem (s.path stem) = some (.ok s.base) :=
    fun s hs => segmentBase_segmentName stem (h.valid s hs).base_ne_zero
  have hlisted : ∀ name ∈ listing, ∀ r, segmentBase stem name = some r → ∃ s ∈ segs, name = s.path stem ∧ r = .ok s.base := by
    intro name hname r hr
    obtain ⟨s, hs, rfl⟩ := h.only name ((hl.mem_iff name).mp hname) (by rw [hr]; exact nofun)
    rw [hbase s hs, Option.some.injEq] at hr
    exact ⟨s, hs, rfl, hr.symm⟩
  have hclean : ∀ name ∈ listing, ∀ e, segmentBase stem name ≠ some (.error e) := by
    intro name hname e he
    obtain ⟨s, -, -, hr⟩ := hlisted name hname _ he
    cases hr
  obtain ⟨found, hfound, hsub, hmem⟩ := candidates_eq hclean
  have hkeys : (segs.map fun s => (s.base, s.path stem)).Pairwise fun a b => a.1 < b.1 :=
    List.pairwise_map.mpr h.ordered
  have hperm : found.Perm (segs.map fun s => (s.base, s.path stem)) := by
    rw [List.perm_ext_iff_of_nodup]
    · rintro ⟨base, name⟩
      rw [hmem, List.mem_map]
      constructor
      · rintro ⟨hname, hb⟩
        obtain ⟨s, hs, rfl, hr⟩ := hlisted name hname _ hb
        cases hr
        exact ⟨s, hs, rfl⟩
      · rintro ⟨s, hs, he⟩
        cases he
        obtain ⟨v, hfile, -⟩ := h.files s hs
        exact ⟨(hl.mem_iff _).mpr (by rw [hfile]; rfl), hbase s hs⟩
    · exact List.Nodup.of_map _ (hl.nodup.sublist hsub)
    · exact hkeys.imp fun hlt he => by rw [he] at hlt; exact absurd hlt (UInt64.lt_irrefl _)
  have hpairwise : (found.mergeSort fun a b => a.1 ≤ b.1).Pairwise fun a b => a.1 ≤ b.1 := by
    have htrans : ∀ a b c : UInt64 × Path, decide (a.1 ≤ b.1) = true → decide (b.1 ≤ c.1) = true → decide (a.1 ≤ c.1) = true :=
      fun a b c hab hbc => decide_eq_true (UInt64.le_trans (of_decide_eq_true hab) (of_decide_eq_true hbc))
    have htotal : ∀ a b : UInt64 × Path, (decide (a.1 ≤ b.1) || decide (b.1 ≤ a.1)) = true := by
      intro a b
      simp [UInt64.le_total a.1 b.1]
    exact (List.pairwise_mergeSort htrans htotal found).imp of_decide_eq_true
  have hsorted : (found.mergeSort fun a b => a.1 ≤ b.1) = segs.map fun s => (s.base, s.path stem) := by
    refine ((List.mergeSort_perm _ _).trans hperm).eq_of_pairwise ?_ hpairwise (hkeys.imp fun hlt => UInt64.le_of_lt hlt)
    intro a b ha hb hab hba
    obtain ⟨s, -, rfl⟩ := List.mem_map.mp hb
    obtain ⟨t, -, rfl⟩ := List.mem_map.mp (((List.mergeSort_perm _ _).trans hperm).subset ha)
    have he : t.base = s.base := UInt64.le_antisymm hab hba
    rw [Archived.path, Archived.path, he]
  have hstem : ¬(stem.isEmpty = true ∨ stem.name = [] ∨ stem.name = ['.'] ∨ stem.name = ['.', '.']) := by
    rw [PathPrefix.isEmpty, decide_eq_true_iff]
    rintro (h | h | h | h)
    · exact hn.1 h.2
    · exact hn.1 h
    · exact hn.2.1 h
    · exact hn.2.2 h
  have hloop := h.openCandidates_eq_ok_iff pid (fun s hs => hs) none (by simp) segments
  rw [JournalSegmentSet.openAll, if_neg hstem, hfound]
  simp only [bind, Except.bind, hsorted]
  cases hsegs : segs with
  | nil =>
    rw [hsegs, List.map_nil, List.perm_nil] at hperm
    rw [hperm]
    exact ⟨nofun, fun h => absurd rfl h.1⟩
  | cons s rest =>
    have hne : found.isEmpty = false := by
      rw [List.isEmpty_eq_false_iff]
      rintro rfl
      rw [List.nil_perm, hsegs] at hperm
      cases hperm
    rw [hne, ← hsegs]
    simp only [Bool.false_eq_true, if_false]
    rw [Option.map_none, Option.toList_none, List.nil_append] at hloop
    rw [hloop, Linked]
    exact ⟨fun h => ⟨by rw [hsegs]; exact nofun, h⟩, fun h => h.2⟩

/-- `open` does not take a prefix without a file name. -/
theorem openAll_of_not_named (hn : ¬stem.Named) (pid : Nat) (listing : List Path) :
    JournalSegmentSet.openAll pid stem listing d = .error .invalidPath := by
  refine if_pos ?_
  by_cases h1 : stem.name = []
  · exact Or.inr (Or.inl h1)
  by_cases h2 : stem.name = ['.']
  · exact Or.inr (Or.inr (Or.inl h2))
  · exact Or.inr (Or.inr (Or.inr (not_not.mp fun h3 => hn ⟨h1, h2, h3⟩)))

/-! ## What open segments show -/

/-- The records of an open segment are the commands of a list. -/
def Segment.Reads (segment : Segment) (cs : List SequencedCommand) : Prop :=
  segment.journal.size = cs.length ∧ ∀ i (h : i < cs.length), segment.journal.read segment.mapping i = .ok cs[i]

/-- A segment that is opened reads its commands. -/
theorem Holds.reads (h : Holds stem d segs) (hs : s ∈ segs) (pid : Nat) : (s.opened stem d pid).Reads s.commands := by
  obtain ⟨v, hfile, hv⟩ := h.files s hs
  refine ⟨rfl, fun i hi => ?_⟩
  have hmap : (s.opened stem d pid).mapping = v := by
    rw [Archived.opened, Directory.contentAt, hfile]
    rfl
  have hsize : ¬(s.opened stem d pid).journal.size ≤ i := Nat.not_le.mpr hi
  rw [hmap, MmapJournal.read, if_neg (by rintro ⟨⟩), if_neg hsize, hv.decodeRecord_eq (h.valid s hs).chain hi]

/-- The sequence numbers of a chain are consecutive. -/
theorem Archived.Valid.sequences (h : s.Valid) :
    (s.commands.map fun c => c.sequence.toNat) = List.range' s.base.toNat s.commands.length := by
  have hle := (createError_eq_none h.created).2.2.2
  have hlen := h.chain.length_le
  refine List.ext_getElem (by rw [List.length_map, List.length_range']) fun i hi _ => ?_
  rw [List.length_map] at hi
  have hlt : i < 2 ^ 64 := by
    have := s.base.toNat_lt
    omega
  rw [List.getElem_map, List.getElem_range', h.chain.sequence i hi, UInt64.toNat_add, UInt64.toNat_ofNat_of_lt' hlt,
    Nat.mod_eq_of_lt (by omega), Nat.one_mul]

/-- The sequence numbers of segments that follow one another are consecutive. -/
theorem Linked.sequences (h : Linked segs) (hv : ∀ s ∈ segs, s.Valid) :
    ∃ first, ((segs.flatMap Archived.commands).map fun c => c.sequence.toNat) =
        List.range' first (segs.flatMap Archived.commands).length ∧ ∀ s ∈ segs.head?, s.base.toNat = first := by
  induction segs with
  | nil => exact ⟨0, rfl, nofun⟩
  | cons s rest ih =>
    obtain ⟨hhead, hrest⟩ := List.isChain_cons.mp h
    obtain ⟨first, hseq, hfirst⟩ := ih hrest fun t ht => hv t (List.mem_cons_of_mem _ ht)
    refine ⟨s.base.toNat, ?_, by rintro _ ⟨⟩; rfl⟩
    rw [List.flatMap_cons, List.map_append, (hv s List.mem_cons_self).sequences, hseq, List.length_append]
    cases rest with
    | nil => simp
    | cons t rest =>
      have hnext : first = s.base.toNat + s.commands.length := by
        rw [← hfirst t rfl]
        exact (hhead t rfl).2
      rw [hnext, List.range'_append_1]

/-- Every segment but the last is full. -/
theorem Linked.full (h : Linked segs) (hs : s ∈ segs.dropLast) : s.commands.length = s.capacity := by
  induction segs with
  | nil => exact absurd hs List.not_mem_nil
  | cons t rest ih =>
    obtain ⟨hhead, hrest⟩ := List.isChain_cons.mp h
    cases rest with
    | nil => exact absurd hs List.not_mem_nil
    | cons u rest =>
      rw [List.dropLast_cons_of_ne_nil (List.cons_ne_nil _ _)] at hs
      rcases List.mem_cons.mp hs with rfl | hs
      · exact (hhead u rfl).1
      · exact ih hrest hs

/-- The numbers from the first to the last segment. -/
theorem Linked.next_getLast {init : List Archived} {last : Archived} (h : Linked (init ++ [last])) {first : Nat}
    (hfirst : ∀ s ∈ (init ++ [last]).head?, s.base.toNat = first) :
    last.next = first + ((init ++ [last]).flatMap Archived.commands).length := by
  induction init generalizing first with
  | nil =>
    rw [← hfirst last rfl, List.nil_append, List.flatMap_singleton]
    rfl
  | cons s init ih =>
    obtain ⟨hhead, hrest⟩ := List.isChain_cons.mp h
    have hs : s.base.toNat = first := hfirst s rfl
    have hnext : ∀ t ∈ (init ++ [last]).head?, t.base.toNat = s.next := fun t ht => (hhead t ht).2
    rw [ih hrest hnext, List.cons_append, List.flatMap_cons, List.length_append, Archived.next, hs, Nat.add_assoc]

/-- The segments end at or before the end of the last. -/
theorem Linked.next_le_last {init : List Archived} {last : Archived} (h : Linked (init ++ [last])) (hs : s ∈ init ++ [last]) :
    s.next ≤ last.next := by
  have hchain : (init ++ [last]).IsChain fun s t => s.next ≤ t.next :=
    h.imp fun s t (hst : s.Follows t) => by
      rw [← hst.2]
      exact Nat.le_add_right t.base.toNat t.commands.length
  have htrans : Trans (fun s t : Archived => s.next ≤ t.next) (fun s t : Archived => s.next ≤ t.next) fun s t => s.next ≤ t.next :=
    ⟨Nat.le_trans⟩
  rcases List.mem_append.mp hs with hs | hs
  · exact (List.pairwise_append.mp hchain.pairwise).2.2 s hs last List.mem_cons_self
  · rw [List.mem_singleton.mp hs]

end

end MatchingEngine

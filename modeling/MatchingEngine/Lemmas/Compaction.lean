import MatchingEngine.Compaction
import MatchingEngine.Lemmas.Rotation
import Mathlib.Data.List.TakeWhile

/-!
# The states of a compaction

What a compaction can leave of a chain of segments, at every step and in the end: the chain without some of its first segments, or,
when the snapshot covers all of them, the chain without some of its first segments and an empty successor behind it (`Remains`).
-/

namespace MatchingEngine

open Function

/-- A segment with commands, all of them before `next`. -/
def Archived.Obsolete (next : UInt64) (s : Archived) : Prop := s.commands.length ≠ 0 ∧ (s.journal 0).nextSequence ≤ next

instance (next : UInt64) (s : Archived) : Decidable (s.Obsolete next) := inferInstanceAs (Decidable (_ ∧ _))

/-- The first segments that are obsolete. -/
def obsoletes (next : UInt64) (segs : List Archived) : List Archived := segs.takeWhile fun s => s.Obsolete next

/-- The empty segment a compaction creates when every segment is obsolete. -/
def successor (next : UInt64) (last : Archived) : Archived := ⟨next, last.capacity, []⟩

/-- What is left of the segments at some step of a compaction. -/
inductive Remains (next : UInt64) (segs : List Archived) : List Archived → Prop where
  | dropped (k : Nat) (le : k ≤ (obsoletes next segs).length) (some : k = 0 ∨ (obsoletes next segs).length < segs.length) :
      Remains next segs (segs.drop k)
  | succeeded (k : Nat) {last : Archived} (le : k ≤ segs.length) (all : (obsoletes next segs).length = segs.length)
      (is_last : last ∈ segs.getLast?) (ends : next.toNat = last.next)
      (created : MmapJournal.createError last.capacity next = .none) :
      Remains next segs (segs.drop k ++ [successor next last])

section

variable {stem : PathPrefix} {d t : Directory} {segs rest : List Archived} {s : Archived} {next : UInt64} {pid : Nat}

/-- The obsolete segments a compaction finds. -/
theorem obsolete_map_opened : Compaction.obsolete next (segs.map (Archived.opened stem d pid)) =
    (obsoletes next segs).map (Archived.opened stem d pid) := by
  rw [Compaction.obsolete, List.takeWhile_map, obsoletes]
  rfl

/-- The closing of a settled file changes nothing; when every call succeeds, so does the closing. -/
theorem closeFile_settled {path : Path} {v : Buffer} {size : Nat} (hfile : t path = some ⟨.settled v, size⟩) {j : MmapJournal}
    (hpid : j.ownerPid = pid) (calls : MmapJournal.CloseCalls) :
    (RotatingJournal.closeFile pid path j calls).Ensures t (· = t) fun r u =>
      u = t ∧ (calls = ⟨true, true, true, true⟩ → r.1 = .none) := by
  have hat : t.contentAt path = .settled v := by rw [Directory.contentAt, hfile]; rfl
  have hsync : ∀ ok, t.setContent path ((Mapped.settled v).sync ok) = t := by
    intro ok
    have hsame := t.setContent_contentAt path
    rw [hat] at hsame
    cases ok <;> exact hsame
  have hend : ∀ {e : JournalError} {mapped descriptor : Bool}, (calls = ⟨true, true, true, true⟩ → e = .none) →
      (do
        if !mapped && !descriptor then Directory.onFile path (Prog.step (Mapped.sync true))
        return (e, { j with mapped, descriptor }) : Prog Directory (JournalError × MmapJournal)).Ensures t (· = t) fun r u =>
          u = t ∧ (calls = ⟨true, true, true, true⟩ → r.1 = .none) := by
    intro e mapped descriptor hr
    split
    · simp only [Prog.ensures_bind, Prog.ensures_pure, Directory.onFile, Prog.ensures_focus, Prog.ensures_step, hat, hsync]
      exact ⟨trivial, trivial, hr⟩
    · exact Prog.ensures_pure.mpr ⟨rfl, hr⟩
  rw [RotatingJournal.closeFile, MmapJournal.close]
  split
  · simp only [Prog.ensures_bind, Directory.onFile, Prog.ensures_focus, Prog.ensures_pure, t.setContent_contentAt]
    exact hend fun _ => rfl
  · rw [if_neg (by rw [hpid]; exact not_not.mpr rfl)]
    simp only [Prog.ensures_bind, Directory.onFile, Prog.ensures_focus, Prog.ensures_pure, Prog.ensures_step, hat, hsync]
    refine ⟨trivial, hend ?_⟩
    rintro rfl
    simp

/-- The first segment is removed. -/
theorem Holds.tail (h : Holds stem t (s :: segs)) : Holds stem (update t (s.path stem) none) segs := by
  obtain ⟨hlt, hord⟩ := List.pairwise_cons.mp h.ordered
  have hne : ∀ u ∈ segs, u.path stem ≠ s.path stem := by
    intro u hu he
    have := hlt u hu
    rw [segmentName_inj (h.valid u (List.mem_cons_of_mem _ hu)).base_ne_zero (h.valid s List.mem_cons_self).base_ne_zero he] at this
    exact UInt64.lt_irrefl _ this
  refine ⟨fun u hu => h.valid u (List.mem_cons_of_mem _ hu), fun u hu => ?_, fun path hpath hbase => ?_, hord⟩
  · rw [update_of_ne (hne u hu)]
    exact h.files u (List.mem_cons_of_mem _ hu)
  · by_cases he : path = s.path stem
    · rw [he, update_self] at hpath
      cases hpath
    · rw [update_of_ne he] at hpath
      obtain ⟨u, hu, rfl⟩ := h.only path hpath hbase
      rcases List.mem_cons.mp hu with rfl | hu
      · exact absurd rfl he
      · exact ⟨u, hu, rfl⟩

/-- The removals: some of the first segments are gone, and all of them when every call succeeds. -/
theorem Holds.removeSegments {l : List Archived} (h : Holds stem t (l ++ rest)) (calls : CompactCalls) (index : Nat) :
    (Compaction.removeSegments pid calls (l.map (Archived.opened stem d pid)) index).Ensures t
      (fun u => ∃ k ≤ l.length, Holds stem u (l.drop k ++ rest)) fun ok u =>
        (∃ k ≤ l.length, Holds stem u (l.drop k ++ rest)) ∧ (ok = true → Holds stem u rest) ∧ (calls = .succeed → ok = true) := by
  induction l generalizing t index with
  | nil => exact Prog.ensures_pure.mpr ⟨⟨0, Nat.le_refl _, h⟩, fun _ => h, fun _ => rfl⟩
  | cons s l ih =>
    have hmem : s ∈ s :: l ++ rest := List.mem_cons_self
    obtain ⟨v, hfile, -⟩ := h.files s hmem
    rw [List.map_cons, Compaction.removeSegments, Prog.ensures_bind]
    refine (closeFile_settled hfile rfl (calls.close index)).mono ?_ ?_
    · rintro u rfl
      exact ⟨0, Nat.zero_le _, h⟩
    · rintro r u ⟨rfl, hok⟩
      split
      · rename_i hne
        refine Prog.ensures_pure.mpr ⟨⟨0, Nat.zero_le _, h⟩, nofun, ?_⟩
        rintro rfl
        exact absurd (hok rfl) hne
      · split
        · rename_i hunlink
          refine Prog.ensures_pure.mpr ⟨⟨0, Nat.zero_le _, h⟩, nofun, ?_⟩
          rintro rfl
          cases hunlink
        · have htail : Holds stem (update u (s.path stem) none) (l ++ rest) := h.tail
          rw [Prog.ensures_bind, Prog.ensures_step]
          refine ⟨⟨1, Nat.le_add_left 1 l.length, htail⟩, (ih htail (index + 1)).mono ?_ ?_⟩
          · rintro w ⟨k, hk, hw⟩
            exact ⟨k + 1, Nat.succ_le_succ hk, hw⟩
          · rintro ok w ⟨⟨k, hk, hw⟩, hrest⟩
            exact ⟨⟨k + 1, Nat.succ_le_succ hk, hw⟩, hrest⟩

/-- The end of a compaction. -/
theorem Holds.finish {l : List Archived} (h : Holds stem t (l ++ rest)) (calls : CompactCalls) (created : Option (Path × MmapJournal))
    (hcreated : ∀ c ∈ created, (∃ s ∈ rest, c.1 = s.path stem) ∧ c.2.ownerPid = pid) :
    (Compaction.finish pid calls (l.map (Archived.opened stem d pid)) created).Ensures t
      (fun u => ∃ k ≤ l.length, Holds stem u (l.drop k ++ rest)) fun e u =>
        (∃ k ≤ l.length, Holds stem u (l.drop k ++ rest)) ∧ (e = .none → Holds stem u rest) ∧ (calls = .succeed → e = .none) := by
  unfold Compaction.finish
  rw [Prog.ensures_bind]
  refine (h.removeSegments calls 0).mono (fun _ => id) ?_
  rintro ok u ⟨hk, hrest, hsucceed⟩
  split
  · rename_i hfailed
    refine Prog.ensures_pure.mpr ⟨hk, nofun, fun hc => ?_⟩
    rw [hsucceed hc] at hfailed
    cases hfailed
  · rename_i hremoved
    have hheld : Holds stem u rest := hrest (by simpa using hremoved)
    have hclosed : (Compaction.closeSuccessor pid calls created).Ensures u (fun w => w = u) fun ok w =>
        w = u ∧ (calls = .succeed → ok = true) := by
      cases created with
      | none => exact Prog.ensures_pure.mpr ⟨rfl, fun _ => rfl⟩
      | some c =>
        obtain ⟨path, j⟩ := c
        obtain ⟨⟨s, hs, rfl⟩, hpid⟩ := hcreated _ rfl
        obtain ⟨v, hfile, -⟩ := hheld.files s hs
        rw [Compaction.closeSuccessor, Prog.ensures_bind]
        refine (closeFile_settled hfile hpid calls.closeSuccessor).mono (fun _ => id) ?_
        rintro r w ⟨rfl, hok⟩
        refine Prog.ensures_pure.mpr ⟨rfl, ?_⟩
        rintro rfl
        exact decide_eq_true (hok rfl)
    have hdrop : ∃ k ≤ l.length, Holds stem u (l.drop k ++ rest) :=
      ⟨l.length, Nat.le_refl _, by rw [List.drop_length]; exact hheld⟩
    rw [Prog.ensures_bind]
    refine hclosed.mono ?_ ?_
    · rintro w rfl
      exact hdrop
    · rintro ok' w ⟨rfl, hok'⟩
      split
      · rename_i hfailed
        refine Prog.ensures_pure.mpr ⟨hdrop, nofun, fun hc => ?_⟩
        rw [hok' hc] at hfailed
        cases hfailed
      · split
        · rename_i hopen
          refine Prog.ensures_pure.mpr ⟨hdrop, nofun, ?_⟩
          rintro rfl
          cases hopen
        · refine Prog.ensures_pure.mpr ⟨hdrop, fun _ => hheld, ?_⟩
          rintro rfl
          rfl

/-- There is no file behind the last segment. -/
theorem Holds.eq_none (h : Holds stem t segs) (hlt : ∀ s ∈ segs, s.base < next) (hnext : next ≠ 0) : t (segmentName stem next) = none := by
  by_contra hne
  obtain ⟨s, hs, he⟩ := h.only _ (Option.isSome_iff_ne_none.mpr hne) (by rw [segmentBase_segmentName stem hnext]; exact nofun)
  have := hlt s hs
  rw [← segmentName_inj hnext (h.valid s hs).base_ne_zero he] at this
  exact UInt64.lt_irrefl _ this

/-- The creation of the successor, behind segments with smaller numbers. -/
theorem Holds.createSuccessor (h : Holds stem t segs) (hn : stem.isEmpty = false) (hlt : ∀ s ∈ segs, s.base < next) (hnext : next ≠ 0)
    (pid capacity : Nat) (outcome : Option CreateFailure) :
    (Compaction.createSuccessor pid stem capacity next outcome).Ensures t
      (fun u => MmapJournal.createError capacity next = .none ∧ Holds stem u (segs ++ [⟨next, capacity, []⟩])) fun r u =>
        (r = none ∧ u = t ∧ (outcome = none → MmapJournal.createError capacity next ≠ .none)) ∨
        (r = some (segmentName stem next, MmapJournal.attached pid capacity next) ∧ MmapJournal.createError capacity next = .none ∧
          Holds stem u (segs ++ [⟨next, capacity, []⟩])) := by
  have hpath : segmentPath stem next = .ok (segmentName stem next) := if_neg (by simp [hn, hnext])
  unfold Compaction.createSuccessor
  rw [hpath]
  unfold MmapJournal.create
  by_cases hok : MmapJournal.createError capacity next = .none
  · have hnew := Holds.snoc (s := ⟨next, capacity, []⟩) h ⟨hok, Chain.nil _ _⟩ hlt (createdBytes_shows capacity next)
    have habsent := h.eq_none hlt hnext
    simp only [hok, ne_eq, not_true_eq_false, if_false, Prog.ensures_bind, Prog.ensures_get, habsent, Option.isSome_none,
      Bool.false_eq_true]
    cases outcome with
    | some f =>
      simp only [Prog.ensures_pure]
      exact Or.inl ⟨trivial, trivial, by rintro ⟨⟩⟩
    | none =>
      simp only [Prog.ensures_bind, Prog.ensures_step, Prog.ensures_pure]
      exact ⟨⟨trivial, hnew⟩, Or.inr ⟨trivial, trivial, hnew⟩⟩
  · simp only [hok, ne_eq, not_false_eq_true, if_true, Prog.ensures_bind, Prog.ensures_pure]
    exact Or.inl ⟨trivial, trivial, fun _ => trivial⟩

/-- What a compaction that completes leaves. -/
def retained (next : UInt64) (segs : List Archived) : List Archived :=
  if (obsoletes next segs).length = segs.length then (segs.getLast?.map (successor next)).toList
  else segs.drop (obsoletes next segs).length

/-- Obsolete segments start before `next`. -/
theorem Archived.Obsolete.base_lt (h : s.Obsolete next) (hv : s.Valid) (hlt : s.next < 2 ^ 64) : s.base < next := by
  have hnext := h.2
  rw [UInt64.le_iff_toNat_le, Archived.toNat_nextSequence hv, Nat.mod_eq_of_lt hlt] at hnext
  have hpos := h.1
  rw [UInt64.lt_iff_toNat_lt]
  rw [Archived.next] at hnext
  omega

/-- The checks of a compaction against the snapshot: the chain starts at or before `next` and ends at or after it. -/
theorem boundsError_eq_none_iff (first : Archived) {last : Archived} (hv : last.Valid) (hnext : next ≠ 0) (pid : Nat) :
    Compaction.boundsError next (first.journal pid) (last.journal pid) = .none ↔
      first.base.toNat ≤ next.toNat ∧ next.toNat ≤ last.next ∧ last.next < 2 ^ 64 := by
  have hmod := Archived.toNat_nextSequence hv pid
  have hle := hv.next_le
  have hpos : next.toNat ≠ 0 := fun h => hnext (UInt64.toNat_inj.mp h)
  have hbase : (first.journal pid).baseSequence = first.base := rfl
  unfold Compaction.boundsError
  simp only [hbase, UInt64.lt_iff_toNat_lt, hmod]
  by_cases hlt : last.next < 2 ^ 64
  · rw [Nat.mod_eq_of_lt hlt]
    split
    · exact ⟨nofun, fun h => by omega⟩
    split
    · exact ⟨nofun, fun h => by omega⟩
    · exact ⟨fun _ => by omega, fun _ => rfl⟩
  · rw [Nat.le_antisymm hle (Nat.not_lt.mp hlt), Nat.mod_self]
    split
    · exact ⟨nofun, fun h => by omega⟩
    rw [if_pos (by omega)]
    exact ⟨nofun, fun h => by omega⟩

/-- The obsolete segments come first. -/
theorem obsoletes_append_drop (next : UInt64) (segs : List Archived) :
    obsoletes next segs ++ segs.drop (obsoletes next segs).length = segs :=
  List.prefix_iff_eq_append.mp (List.takeWhile_prefix _)

/-- The obsolete segments are obsolete. -/
theorem obsolete_of_mem (h : s ∈ obsoletes next segs) : s.Obsolete next := by simpa using List.mem_takeWhile_imp h

/-- The segments of a chain start before the end of all of them, if they are obsolete. -/
theorem Holds.base_lt_of_obsolete (h : Holds stem d segs) (hlinked : Linked segs) (hlt : ∀ last ∈ segs.getLast?, last.next < 2 ^ 64)
    (hs : s ∈ obsoletes next segs) : s.base < next := by
  have hmem : s ∈ segs := (List.takeWhile_prefix _).subset hs
  obtain ⟨init, last, rfl⟩ := (List.eq_nil_or_concat' segs).resolve_left (List.ne_nil_of_mem hmem)
  have hle : s.next ≤ last.next := hlinked.next_le_last hmem
  have hlast : last.next < 2 ^ 64 := hlt last (by simp)
  exact (obsolete_of_mem hs).base_lt (h.valid s hmem) (by omega)

/-- A compaction of segments that are open. -/
theorem Holds.compactSegments (first : Archived) {last : Archived} {pid' : Nat} (h : Holds stem d segs) (hn : stem.Named) (hlinked : Linked segs)
    (hlast : last ∈ segs.getLast?) (hnext : next ≠ 0) (calls : CompactCalls) :
    (Compaction.compactSegments pid stem next (segs.map (Archived.opened stem d pid)) (first.journal pid') (last.journal pid')
      calls).Ensures d
      (fun t => ∃ segs', Remains next segs segs' ∧ Holds stem t segs') fun e t =>
        (∃ segs', Remains next segs segs' ∧ Holds stem t segs') ∧ (e = .none → Holds stem t (retained next segs)) ∧
        (calls = .succeed → (e = .none ↔
          (first.base.toNat ≤ next.toNat ∧ next.toNat ≤ last.next ∧ last.next < 2 ^ 64) ∧
          ((obsoletes next segs).length = segs.length → MmapJournal.createError last.capacity next = .none))) := by
  have hself : ∃ segs', Remains next segs segs' ∧ Holds stem d segs' := ⟨_, .dropped 0 (Nat.zero_le _) (Or.inl rfl), h⟩
  have hmem : last ∈ segs := List.mem_of_getLast? hlast
  have hne : segs ≠ [] := List.ne_nil_of_mem hmem
  have hsplit : Holds stem d (obsoletes next segs ++ segs.drop (obsoletes next segs).length) := by
    rw [obsoletes_append_drop]
    exact h
  have hbounds := boundsError_eq_none_iff first (h.valid last hmem) hnext pid'
  unfold Compaction.compactSegments
  rw [obsolete_map_opened, List.length_map, List.length_map, List.isEmpty_map]
  split
  · rename_i herr
    refine Prog.ensures_pure.mpr ⟨hself, fun he => absurd he herr, fun _ => ⟨fun he => absurd he herr, fun hc => ?_⟩⟩
    exact absurd (hbounds.mpr hc.1) herr
  rename_i hok
  have hbound := hbounds.mp (not_not.mp hok)
  have hlt : ∀ last ∈ segs.getLast?, last.next < 2 ^ 64 := by
    intro s hs
    rw [Option.mem_unique hs hlast]
    exact hbound.2.2
  split
  · rename_i hempty
    have hzero : obsoletes next segs = [] := List.isEmpty_iff.mp hempty
    have hlen : (obsoletes next segs).length ≠ segs.length := by
      rw [hzero]
      exact fun he => hne (List.length_eq_zero_iff.mp he.symm)
    refine Prog.ensures_pure.mpr ⟨hself, fun _ => ?_, fun _ => ⟨fun _ => ⟨hbound, fun he => absurd he hlen⟩, fun _ => rfl⟩⟩
    rw [retained, if_neg hlen, hzero]
    exact h
  split
  · rename_i hall
    have hobs : obsoletes next segs = segs := (List.takeWhile_prefix _).eq_of_length hall
    have hretained : retained next segs = [successor next last] := by
      rw [retained, if_pos hall, Option.mem_def.mp hlast]
      rfl
    have hstem : stem.isEmpty = false := by simp [PathPrefix.isEmpty, hn.1]
    have hends : next.toNat = last.next := by
      have hobsolete := (obsolete_of_mem (by rw [hobs]; exact hmem)).2
      rw [UInt64.le_iff_toNat_le, Archived.toNat_nextSequence (h.valid last hmem), Nat.mod_eq_of_lt hbound.2.2] at hobsolete
      exact Nat.le_antisymm hbound.2.1 hobsolete
    have hbases : ∀ s ∈ segs, s.base < next := fun s hs => h.base_lt_of_obsolete hlinked hlt (by rw [hobs]; exact hs)
    have hremains : ∀ {t : Directory}, MmapJournal.createError last.capacity next = .none →
        (∃ k ≤ segs.length, Holds stem t (segs.drop k ++ [successor next last])) →
        ∃ segs', Remains next segs segs' ∧ Holds stem t segs' := by
      rintro t hcreated ⟨k, hk, ht⟩
      exact ⟨_, .succeeded k hk hall hlast hends hcreated, ht⟩
    rw [hobs, Prog.ensures_bind]
    refine (h.createSuccessor hstem hbases hnext pid last.capacity calls.create).mono ?_ ?_
    · rintro t ⟨hcreated, ht⟩
      exact hremains hcreated ⟨0, Nat.zero_le _, ht⟩
    · rintro r t (⟨rfl, rfl, hfailed⟩ | ⟨rfl, hcreated, ht⟩)
      · refine Prog.ensures_pure.mpr ⟨hself, by rintro ⟨⟩, fun hc => ⟨by rintro ⟨⟩, fun hcond => ?_⟩⟩
        rw [hc] at hfailed
        exact absurd (hcond.2 rfl) (hfailed rfl)
      · refine (ht.finish calls (some (segmentName stem next, MmapJournal.attached pid last.capacity next)) ?_).mono ?_ ?_
        · intro c hc
          rw [Option.mem_def.mp hc |> Option.some.inj |>.symm]
          exact ⟨⟨_, List.mem_singleton_self _, rfl⟩, rfl⟩
        · exact fun _ => hremains hcreated
        · rintro e u ⟨hk, hrest, hsucceed⟩
          refine ⟨hremains hcreated hk, ?_, fun hc => ⟨fun _ => ⟨hbound, fun _ => hcreated⟩, fun _ => hsucceed hc⟩⟩
          rw [hretained]
          exact hrest
  · rename_i hsome
    have hremains : ∀ {t : Directory}, (∃ k ≤ (obsoletes next segs).length,
        Holds stem t ((obsoletes next segs).drop k ++ segs.drop (obsoletes next segs).length)) →
        ∃ segs', Remains next segs segs' ∧ Holds stem t segs' := by
      rintro t ⟨k, hk, ht⟩
      refine ⟨_, .dropped k hk (Or.inr (Nat.lt_of_le_of_ne (List.takeWhile_prefix _).length_le hsome)), ?_⟩
      have hdrop := congrArg (List.drop k) (obsoletes_append_drop next segs)
      rw [List.drop_append_of_le_length hk] at hdrop
      rw [← hdrop]
      exact ht
    refine (hsplit.finish calls none (by rintro _ ⟨⟩)).mono (fun _ => hremains) ?_
    rintro e u ⟨hk, hrest, hsucceed⟩
    refine ⟨hremains hk, ?_, fun hc => ⟨fun _ => ⟨hbound, fun he => absurd he hsome⟩, fun _ => hsucceed hc⟩⟩
    rw [retained, if_neg hsome]
    exact hrest

/-- A compaction: what is left at every step, what is left when it completes, and when it does complete. -/
theorem Holds.compact {listing : List Path} {snapshot : UInt64} (h : Holds stem d segs) (listed : d.Lists listing) (calls : CompactCalls) :
    (compactJournalSegments pid stem listing (some snapshot) calls).Ensures d
      (fun t => ∃ segs', Remains (snapshot + 1) segs segs' ∧ Holds stem t segs') fun e t =>
        (∃ segs', Remains (snapshot + 1) segs segs' ∧ Holds stem t segs') ∧
        (e = .none → Holds stem t (retained (snapshot + 1) segs)) ∧
        (calls = .succeed → stem.Named → Linked segs → ∀ first ∈ segs.head?, ∀ last ∈ segs.getLast?,
          (e = .none ↔ (first.base.toNat ≤ snapshot.toNat + 1 ∧ snapshot.toNat + 1 ≤ last.next ∧ last.next < 2 ^ 64) ∧
            ((obsoletes (snapshot + 1) segs).length = segs.length →
              MmapJournal.createError last.capacity (snapshot + 1) = .none))) := by
  have hself : ∃ segs', Remains (snapshot + 1) segs segs' ∧ Holds stem d segs' :=
    ⟨_, .dropped 0 (Nat.zero_le _) (Or.inl rfl), h⟩
  unfold compactJournalSegments
  simp only
  split
  · rename_i hmax
    refine Prog.ensures_pure.mpr ⟨hself, nofun, fun _ _ _ first _ last _ => ⟨nofun, ?_⟩⟩
    rintro ⟨⟨-, hle, hlt⟩, -⟩
    have : snapshot.toNat = 2 ^ 64 - 1 := by rw [hmax]; decide
    omega
  · rename_i hmax
    have htoNat : (snapshot + 1).toNat = snapshot.toNat + 1 := toNat_succ_of_ne_max hmax
    have hnext : snapshot + 1 ≠ 0 := by
      intro he
      rw [he] at htoNat
      exact Nat.succ_ne_zero _ htoNat.symm
    rw [Prog.ensures_bind, Prog.ensures_get]
    cases hopen : JournalSegmentSet.openAll pid stem listing d with
    | error e =>
      refine Prog.ensures_pure.mpr ⟨hself, nofun, fun _ hn hlinked first hf _ _ => ?_⟩
      have hne : segs ≠ [] := fun he => by rw [he] at hf; cases hf
      rw [(h.openAll_eq_ok_iff hn pid listed _).mpr ⟨hne, hlinked, rfl⟩] at hopen
      cases hopen
    | ok segments =>
      have hn : stem.Named := by
        by_contra hn
        rw [openAll_of_not_named hn] at hopen
        cases hopen
      obtain ⟨hne, hlinked, rfl⟩ := (h.openAll_eq_ok_iff hn pid listed _).mp hopen
      obtain ⟨first, hfirst⟩ : ∃ first, segs.head? = some first := ⟨_, List.head?_eq_some_head hne⟩
      obtain ⟨last, hlast⟩ : ∃ last, segs.getLast? = some last := ⟨_, List.getLast?_eq_some_getLast hne⟩
      simp only [List.head?_map, List.getLast?_map, hfirst, hlast, Option.map_some]
      refine (h.compactSegments first hn hlinked hlast hnext calls).mono (fun _ => id) ?_
      rintro e t ⟨hremains, hretained, hiff⟩
      refine ⟨hremains, hretained, fun hc _ _ s hs u hu => ?_⟩
      rw [Option.mem_unique hs rfl, Option.mem_unique hu rfl, ← htoNat]
      exact hiff hc

/-! ## What remains -/

/-- The successor can be created when its numbers do not end after the last one. -/
theorem Archived.Valid.createError_eq_none_iff (h : s.Valid) (hnext : next ≠ 0) :
    MmapJournal.createError s.capacity next = .none ↔ next.toNat + s.capacity ≤ 2 ^ 64 := by
  refine ⟨fun hc => (createError_eq_none hc).2.2.2, fun hle => ?_⟩
  obtain ⟨hpos, hmax, -, -⟩ := createError_eq_none h.created
  have hlt := next.toNat_lt
  have hroom : ¬uint64Max - next < UInt64.ofNat (s.capacity - 1) := by
    have hcap : s.capacity - 1 < 2 ^ 64 := Nat.lt_of_le_of_lt (Nat.le_trans (Nat.sub_le _ _) hmax) (by decide)
    have hnextMax : next ≤ uint64Max := by
      rw [UInt64.le_iff_toNat_le]
      exact Nat.le_pred_of_lt hlt
    rw [UInt64.lt_iff_toNat_lt, UInt64.toNat_sub_of_le _ _ hnextMax, UInt64.toNat_ofNat_of_lt' hcap,
      show uint64Max.toNat = 2 ^ 64 - 1 from rfl]
    omega
  have hcreated := h.created
  unfold MmapJournal.createError at hcreated ⊢
  split at hcreated
  · cases hcreated
  split at hcreated
  · cases hcreated
  rename_i hcap _
  rw [if_neg hcap, if_neg (not_or.mpr ⟨hnext, hroom⟩)]
  exact hcreated

/-- Every segment of a chain is obsolete exactly when the last one has commands and ends at the snapshot. -/
theorem Holds.obsoletes_eq_iff {init : List Archived} {last : Archived} (h : Holds stem d (init ++ [last]))
    (hlinked : Linked (init ++ [last])) (hle : next.toNat ≤ last.next) (hlt : last.next < 2 ^ 64) :
    (obsoletes next (init ++ [last])).length = (init ++ [last]).length ↔ last.commands.length ≠ 0 ∧ next.toNat = last.next := by
  have hobs : ∀ s ∈ init ++ [last], (s.Obsolete next ↔ s.commands.length ≠ 0 ∧ s.next ≤ next.toNat) := by
    intro s hs
    rw [Archived.Obsolete, UInt64.le_iff_toNat_le, Archived.toNat_nextSequence (h.valid s hs),
      Nat.mod_eq_of_lt (Nat.lt_of_le_of_lt (hlinked.next_le_last hs) hlt)]
  constructor
  · intro hall
    have heq : obsoletes next (init ++ [last]) = init ++ [last] := (List.takeWhile_prefix _).eq_of_length hall
    have hlast : last ∈ obsoletes next (init ++ [last]) := by
      rw [heq]
      exact List.mem_append_right _ List.mem_cons_self
    obtain ⟨hne, hnext⟩ := (hobs last (List.mem_append_right _ List.mem_cons_self)).mp (obsolete_of_mem hlast)
    exact ⟨hne, Nat.le_antisymm hle hnext⟩
  · rintro ⟨hne, hnext⟩
    have heq : obsoletes next (init ++ [last]) = init ++ [last] := by
      refine List.takeWhile_eq_self_iff.mpr fun s hs => decide_eq_true ((hobs s hs).mpr ⟨?_, ?_⟩)
      · rcases List.mem_append.mp hs with hinit | hlast
        · have hfull : s.commands.length = s.capacity := hlinked.full (by rw [List.dropLast_concat]; exact hinit)
          rw [hfull]
          exact Nat.ne_of_gt (h.valid s hs).capacity_pos
        · rw [List.mem_singleton.mp hlast]
          exact hne
      · rw [hnext]
        exact hlinked.next_le_last hs
    rw [heq]

/-- The number of a segment in a chain. -/
theorem Linked.base_eq {l : List Archived} (h : Linked (l ++ s :: rest)) {first : Archived} (hfirst : first ∈ (l ++ s :: rest).head?) :
    s.base.toNat = first.base.toNat + (l.flatMap Archived.commands).length := by
  induction l generalizing first with
  | nil => rw [Option.mem_unique hfirst rfl]; rfl
  | cons u l ih =>
    obtain ⟨hhead, hrest⟩ := List.isChain_cons.mp h
    obtain ⟨v, hv⟩ : ∃ v, v ∈ (l ++ s :: rest).head? := ⟨_, List.head?_eq_some_head (List.append_ne_nil_of_right_ne_nil l (List.cons_ne_nil s rest))⟩
    have hu : first = u := Option.mem_unique hfirst rfl
    rw [ih hrest hv, (hhead v hv).2, hu, List.flatMap_cons, List.length_append, Archived.next, Nat.add_assoc]

end

end MatchingEngine

import MatchingEngine.Lemmas.Compaction
import MatchingEngine.Lemmas.Replay
import MatchingEngine.Theorems.Replay

/-!
# Interrupted compactions

What an interrupted compaction leaves opens, replays to the same engine and can be compacted again, unless the snapshot is at the end of
a last segment that is partial, or the numbers of the journal run out.
-/

namespace MatchingEngine

open Function

section

variable {stem : PathPrefix} {d t : Directory} {segs segs' : List Archived} {snapshot : UInt64}

/-- A replay of `segments'` gives every result that one of `segments` gives. -/
def ReplaysAs (segments segments' : List Segment) (snapshot : UInt64) : Prop :=
  ∀ engine time eventsSize result engine',
    (replayJournalSegments segments engine snapshot time eventsSize).Returns (.ok result, engine') →
      (replayJournalSegments segments' engine snapshot time eventsSize).Returns (.ok result, engine')

/-- The files `t` an interrupted compaction leaves of the segments of `d`: they open, they replay to the same engine, and compacting
them again completes, with the history that is to be retained. -/
structure Resumable (stem : PathPrefix) (d : Directory) (segs : List Archived) (snapshot : UInt64) (t : Directory) : Prop where
  opens : ∀ pid listing, t.Lists listing → ∃ segments, JournalSegmentSet.openAll pid stem listing t = .ok segments ∧
    ReplaysAs (segs.map (Archived.opened stem d pid)) segments snapshot
  completes : ∀ pid listing, t.Lists listing →
    ((compactJournalSegments pid stem listing (some snapshot) .succeed).run t).result = .none ∧
      Holds stem ((compactJournalSegments pid stem listing (some snapshot) .succeed).run t).final (retained (snapshot + 1) segs)

/-- A compaction of the segments of `d` is safe: whatever calls fail, every state it is interrupted in and the state it ends in can be
resumed, and it leaves the history that is to be retained when it reports success. -/
def CompactionSafe (stem : PathPrefix) (d : Directory) (segs : List Archived) (snapshot : UInt64) : Prop :=
  ∀ pid listing, d.Lists listing → ∀ calls,
    (compactJournalSegments pid stem listing (some snapshot) calls).Ensures d (Resumable stem d segs snapshot)
      (fun e t => Resumable stem d segs snapshot t ∧ (e = .none → Holds stem t (retained (snapshot + 1) segs))) ∧
    Resumable stem d segs snapshot d

/-- The sequence numbers go on after the journal; and where the snapshot is at the end of a last segment with commands, that segment is
full and the numbers suffice for another one like it. -/
def Compactable (snapshot : UInt64) (last : Archived) : Prop :=
  last.next < 2 ^ 64 ∧ (last.commands.length ≠ 0 → snapshot.toNat + 1 = last.next →
    last.commands.length = last.capacity ∧ last.next + last.capacity ≤ 2 ^ 64)

/-! ## The replay of what remains -/

/-- The point of a snapshot in a history without its first commands. -/
theorem PointOf.drop {first : Nat} {cs : List SequencedCommand} {engine : SequencedEngine} {time : UInt64} {eventsSize : Nat}
    (h : PointOf first cs engine snapshot time eventsSize) {k : Nat} (hk : k ≤ cs.length) (hle : first + k ≤ snapshot.toNat + 1) :
    PointOf (first + k) (cs.drop k) engine snapshot time eventsSize where
  not_terminal := h.not_terminal
  not_exhausted := h.not_exhausted
  sequence := h.sequence
  lastTime := h.lastTime
  zero := h.zero
  first_le := hle
  le_end := by
    have := h.le_end
    rw [List.length_drop]
    omega
  end_lt := by
    have := h.end_lt
    rw [List.length_drop]
    omega
  boundary := by
    intro c hc hle'
    rw [List.getElem?_drop, show k + (snapshot.toNat - (first + k)) = snapshot.toNat - first by omega] at hc
    exact h.boundary c hc (by omega)
  capacity := h.capacity

/-- The segments without some of the first commands, all of them in the snapshot, replay as before. -/
theorem Holds.replaysAs {first first' : Archived} {k : Nat} (h : Holds stem d segs) (hlinked : Linked segs) (hfirst : first ∈ segs.head?)
    (h' : Holds stem t segs') (hlinked' : Linked segs') (hfirst' : first' ∈ segs'.head?)
    (hcommands : segs'.flatMap Archived.commands = (segs.flatMap Archived.commands).drop k)
    (hk : k ≤ (segs.flatMap Archived.commands).length) (hbase : first'.base.toNat = first.base.toNat + k)
    (hle : first'.base.toNat ≤ snapshot.toNat + 1) (pid : Nat) :
    ReplaysAs (segs.map (Archived.opened stem d pid)) (segs'.map (Archived.opened stem t pid)) snapshot := by
  intro engine time eventsSize result engine' hr
  have hbefore : ReplaysFrom first.base.toNat (segs.flatMap Archived.commands) engine snapshot time eventsSize _ :=
    h.replaysFrom hlinked pid hfirst
  have hafter : ReplaysFrom first'.base.toNat (segs'.flatMap Archived.commands) engine snapshot time eventsSize _ :=
    h'.replaysFrom hlinked' pid hfirst'
  rcases hbefore with ⟨hp, he⟩ | ⟨-, error, he⟩
  · rw [hcommands, hbase] at hafter
    rcases hafter with ⟨-, he'⟩ | ⟨hp', -⟩
    · rw [he] at hr
      rw [he', List.drop_drop, show k + (snapshot.toNat + 1 - (first.base.toNat + k)) = snapshot.toNat + 1 - first.base.toNat by omega]
      exact hr
    · exact absurd (hp.drop hk (by omega)) hp'
  · rw [he, Comp.returns_pure] at hr
    cases hr

/-! ## What remains can be resumed -/

/-- The segments behind obsolete ones start at or before the snapshot's end. -/
theorem Linked.base_le {next : UInt64} {l rest : List Archived} {s first : Archived} (h : Linked (l ++ s :: rest))
    (hvalid : ∀ p ∈ l, p.Valid) (hlt : ∀ p ∈ l, p.next < 2 ^ 64) (hobsolete : ∀ p ∈ l, p.Obsolete next)
    (hfirst : first ∈ (l ++ s :: rest).head?) (hle : first.base.toNat ≤ next.toNat) : s.base.toNat ≤ next.toNat := by
  rcases List.eq_nil_or_concat' l with rfl | ⟨init, p, rfl⟩
  · rw [← Option.mem_unique hfirst rfl]
    exact hle
  · have hmem : p ∈ init ++ [p] := List.mem_append_right _ List.mem_cons_self
    have hnext := (hobsolete p hmem).2
    rw [UInt64.le_iff_toNat_le, Archived.toNat_nextSequence (hvalid p hmem), Nat.mod_eq_of_lt (hlt p hmem)] at hnext
    have hfollows : p.Follows s :=
      (List.isChain_append.mp h).2.2 p (by rw [List.getLast?_append]; rfl) s rfl
    rw [hfollows.2]
    exact hnext

/-- What is left after the first `k` segments of a chain, all of them obsolete, can be resumed; the chain is that of `segs` with or
without an empty segment behind it. -/
theorem Holds.resumable {full tail : List Archived} {k : Nat} {first last : Archived} (h : Holds stem d segs) (hn : stem.Named)
    (hlinked : Linked segs) (hfirst : first ∈ segs.head?) (hle : first.base.toNat ≤ snapshot.toNat + 1)
    (hfull : full = segs ++ tail) (hchain : Linked full) (htail : tail.flatMap Archived.commands = []) (hk : k < full.length)
    (hsub : full.take k <+: obsoletes (snapshot + 1) segs) (hmax : snapshot ≠ uint64Max) (hlt : ∀ s ∈ segs, s.next < 2 ^ 64)
    (ht : Holds stem t (full.drop k)) (hretained : retained (snapshot + 1) (full.drop k) = retained (snapshot + 1) segs)
    (hlast : last ∈ full.getLast?) (hend : snapshot.toNat + 1 ≤ last.next) (hlastLt : last.next < 2 ^ 64)
    (hcreate : (obsoletes (snapshot + 1) (full.drop k)).length = (full.drop k).length →
      MmapJournal.createError last.capacity (snapshot + 1) = .none) : Resumable stem d segs snapshot t := by
  have hsucc := toNat_succ_of_ne_max hmax
  have hdrop : full.drop k = full[k] :: full.drop (k + 1) := List.drop_eq_getElem_cons hk
  have hsplit : full.take k ++ full[k] :: full.drop (k + 1) = full := by rw [← hdrop, List.take_append_drop]
  have hhead : first ∈ (full.take k ++ full[k] :: full.drop (k + 1)).head? := by
    rw [hsplit, hfull, List.head?_append, Option.mem_def.mp hfirst]
    rfl
  have hsegs : obsoletes (snapshot + 1) segs <+: segs := List.takeWhile_prefix _
  have hmem : ∀ p ∈ full.take k, p ∈ segs := fun p hp => hsegs.subset (hsub.subset hp)
  have hbase := Linked.base_eq (by rw [hsplit]; exact hchain) hhead
  have hbaseLe : full[k].base.toNat ≤ (snapshot + 1).toNat :=
    Linked.base_le (by rw [hsplit]; exact hchain) (fun p hp => h.valid p (hmem p hp)) (fun p hp => hlt p (hmem p hp))
      (fun p hp => obsolete_of_mem (hsub.subset hp)) hhead (by rw [hsucc]; exact hle)
  rw [hsucc] at hbaseLe
  have hrest : Linked (full.drop k) := hchain.drop k
  have hfirst' : full[k] ∈ (full.drop k).head? := by
    rw [hdrop]
    rfl
  have hcommands : segs.flatMap Archived.commands = (full.take k ++ full.drop k).flatMap Archived.commands := by
    rw [List.take_append_drop, hfull, List.flatMap_append, htail, List.append_nil]
  rw [List.flatMap_append] at hcommands
  have hne : full.drop k ≠ [] := by
    rw [hdrop]
    exact List.cons_ne_nil _ _
  refine ⟨fun pid listing hl => ⟨_, (ht.openAll_eq_ok_iff hn pid hl _).mpr ⟨hne, hrest, rfl⟩, ?_⟩, fun pid listing hl => ?_⟩
  · refine h.replaysAs hlinked hfirst ht hrest hfirst' ?_ ?_ hbase hbaseLe pid
    · rw [hcommands, List.drop_left]
    · rw [hcommands, List.length_append]
      exact Nat.le_add_right _ _
  · have hcompact : (compactJournalSegments pid stem listing (some snapshot) .succeed).Ensures t _ _ := ht.compact hl .succeed
    obtain ⟨-, hheld, hiff⟩ := hcompact.2
    have hlast' : last ∈ (full.drop k).getLast? := by
      rw [List.getLast?_drop, if_neg (Nat.not_le.mpr hk)]
      exact hlast
    have hdone := (hiff rfl hn hrest _ hfirst' _ hlast').mpr ⟨⟨hbaseLe, hend, hlastLt⟩, hcreate⟩
    refine ⟨hdone, ?_⟩
    rw [← hretained]
    exact hheld hdone

/-- The obsolete segments of what is left after obsolete ones. -/
theorem obsoletes_drop {next : UInt64} {k : Nat} (hk : k ≤ (obsoletes next segs).length) :
    obsoletes next (segs.drop k) = (obsoletes next segs).drop k := by
  induction k generalizing segs with
  | zero => rfl
  | succ k ih =>
    cases segs with
    | nil => rfl
    | cons s rest =>
      unfold obsoletes at hk ⊢
      rw [List.takeWhile_cons] at hk ⊢
      split at hk
      · rename_i hs
        rw [if_pos hs, List.drop_succ_cons, List.drop_succ_cons]
        exact ih (Nat.le_of_succ_le_succ hk)
      · exact absurd hk (Nat.not_succ_le_zero k)

/-- The empty successor is not obsolete. -/
theorem obsoletes_concat_successor {next : UInt64} {l : List Archived} (h : ∀ s ∈ l, s.Obsolete next) (last : Archived) :
    obsoletes next (l ++ [successor next last]) = l := by
  have hempty : ¬(successor next last).Obsolete next := fun hs => hs.1 rfl
  rw [obsoletes, List.takeWhile_append_of_pos (fun s hs => decide_eq_true (h s hs)), List.takeWhile_cons_of_neg (by simpa using hempty),
    List.append_nil]

/-- Whatever remains of a chain at some step of a compaction can be resumed, when the chain can be compacted. -/
theorem Remains.resumable {first last : Archived} (hremains : Remains (snapshot + 1) segs segs') (ht : Holds stem t segs')
    (h : Holds stem d segs) (hn : stem.Named) (hlinked : Linked segs) (hfirst : first ∈ segs.head?)
    (hle : first.base.toNat ≤ snapshot.toNat + 1) (hlast : last ∈ segs.getLast?) (hend : snapshot.toNat + 1 ≤ last.next)
    (hok : Compactable snapshot last) : Resumable stem d segs snapshot t := by
  obtain ⟨init, rfl⟩ := List.getLast?_eq_some_iff.mp hlast
  obtain ⟨hlastLt, hcond⟩ := hok
  have hmax : snapshot ≠ uint64Max := by
    rintro rfl
    have : uint64Max.toNat = 2 ^ 64 - 1 := rfl
    omega
  have hsucc := toNat_succ_of_ne_max hmax
  have hnext : snapshot + 1 ≠ 0 := by
    intro he
    rw [he] at hsucc
    exact Nat.succ_ne_zero _ hsucc.symm
  have hlt : ∀ s ∈ init ++ [last], s.next < 2 ^ 64 := fun s hs => Nat.lt_of_le_of_lt (hlinked.next_le_last hs) hlastLt
  have hiff := h.obsoletes_eq_iff hlinked (by rw [hsucc]; exact hend) hlastLt
  rw [hsucc] at hiff
  have hcreate : (obsoletes (snapshot + 1) (init ++ [last])).length = (init ++ [last]).length →
      last.commands.length = last.capacity ∧ MmapJournal.createError last.capacity (snapshot + 1) = .none := by
    intro hall
    obtain ⟨hne, heq⟩ := hiff.mp hall
    obtain ⟨hfull, hroom⟩ := hcond hne heq
    refine ⟨hfull, ((h.valid last (List.mem_of_getLast? hlast)).createError_eq_none_iff hnext).mpr ?_⟩
    rw [hsucc, heq]
    exact hroom
  have hprefix : obsoletes (snapshot + 1) (init ++ [last]) <+: init ++ [last] := List.takeWhile_prefix _
  have hlen := hprefix.length_le
  cases hremains with
  | dropped k hk hsome =>
    have hpos : 0 < (init ++ [last]).length := by simp
    refine h.resumable hn hlinked hfirst hle (List.append_nil _).symm hlinked rfl (k := k) (by omega) ?_ hmax hlt ht ?_ hlast hend
      hlastLt ?_
    · exact List.prefix_of_prefix_length_le (List.take_prefix _ _) hprefix (Nat.le_trans (List.length_take_le _ _) hk)
    · rcases hsome with rfl | hsome
      · rfl
      · rw [retained, retained, obsoletes_drop hk, List.length_drop, List.length_drop, if_neg (by omega), if_neg (by omega),
          List.drop_drop, Nat.add_sub_cancel' hk]
    · intro hall
      rw [obsoletes_drop hk, List.length_drop, List.length_drop] at hall
      exact (hcreate (by omega)).2
  | succeeded k hk hall hlast' _ hcreated =>
    have hobs : obsoletes (snapshot + 1) (init ++ [last]) = init ++ [last] := hprefix.eq_of_length hall
    have hall' : ∀ s ∈ (init ++ [last]).drop k, s.Obsolete (snapshot + 1) := fun s hs =>
      obsolete_of_mem (by rw [hobs]; exact List.mem_of_mem_drop hs)
    rw [Option.mem_unique hlast' hlast] at ht
    have hdrop : ((init ++ [last]) ++ [successor (snapshot + 1) last]).drop k =
        (init ++ [last]).drop k ++ [successor (snapshot + 1) last] := List.drop_append_of_le_length hk
    have hchain : Linked ((init ++ [last]) ++ [successor (snapshot + 1) last]) := by
      refine List.isChain_append.mpr ⟨hlinked, List.IsChain.singleton _, fun s hs u hu => ?_⟩
      rw [Option.mem_unique hs hlast, Option.mem_unique hu rfl]
      exact ⟨(hcreate hall).1, hsucc.trans (hiff.mp hall).2⟩
    have hnextSucc : (successor (snapshot + 1) last).next = snapshot.toNat + 1 := hsucc
    refine h.resumable hn hlinked hfirst hle rfl hchain rfl (k := k) ?_ ?_ hmax hlt (by rw [hdrop]; exact ht) ?_
      List.getLast?_concat (Nat.le_of_eq hnextSucc.symm) (by omega) ?_
    · rw [List.length_append]
      exact Nat.lt_succ_of_le hk
    · rw [hobs, List.take_append_of_le_length hk]
      exact List.take_prefix _ _
    · rw [hdrop, retained, retained, obsoletes_concat_successor hall', if_neg (by simp), if_pos hall, Option.mem_def.mp hlast, List.drop_left]
      rfl
    · intro hall
      rw [hdrop, obsoletes_concat_successor hall', List.length_append] at hall
      exact absurd hall (Nat.ne_of_lt (Nat.lt_succ_self _))

/-! ## When a compaction is safe -/

/-- A listing of the directory with one more file. -/
theorem Directory.Lists.create {listing : List Path} {path : Path} {file : JournalFile} (h : d.Lists listing) (hpath : d path = none) :
    Directory.Lists (update d path (some file)) (path :: listing) where
  nodup := by
    refine List.nodup_cons.mpr ⟨fun hmem => ?_, h.nodup⟩
    have := (h.mem_iff path).mp hmem
    rw [hpath] at this
    cases this
  mem_iff p := by
    rw [List.mem_cons, h.mem_iff p]
    by_cases hp : p = path
    · simp [hp]
    · rw [update_of_ne hp]
      simp [hp]

/-- A compaction passes the creation of the successor, when every segment is obsolete and the successor can be created. -/
theorem Holds.passes_successor {listing : List Path} {last : Archived} {P : Directory → Prop} {Q : JournalCompactionError → Directory → Prop}
    (h : Holds stem d segs) (hn : stem.Named) (hlinked : Linked segs) (listed : d.Lists listing) (pid : Nat) (hmax : snapshot ≠ uint64Max)
    (hfirst : ∀ s ∈ segs.head?, s.base.toNat ≤ snapshot.toNat + 1) (hlast : last ∈ segs.getLast?)
    (hend : snapshot.toNat + 1 ≤ last.next) (hlt : last.next < 2 ^ 64)
    (hall : (obsoletes (snapshot + 1) segs).length = segs.length)
    (hcreated : MmapJournal.createError last.capacity (snapshot + 1) = .none)
    (hpass : (compactJournalSegments pid stem listing (some snapshot) .succeed).Ensures d P Q) :
    ∃ t, P t ∧ Holds stem t (segs ++ [successor (snapshot + 1) last]) ∧ ∃ listing', t.Lists listing' := by
  have hne : segs ≠ [] := List.ne_nil_of_mem (List.mem_of_getLast? hlast)
  obtain ⟨first, hhead⟩ : ∃ first, segs.head? = some first := ⟨_, List.head?_eq_some_head hne⟩
  have hnext : snapshot + 1 ≠ 0 := (createError_eq_none hcreated).2.2.1
  have hobs : obsoletes (snapshot + 1) segs = segs := (List.takeWhile_prefix _).eq_of_length hall
  have hbases : ∀ s ∈ segs, s.base < snapshot + 1 := fun s hs =>
    h.base_lt_of_obsolete hlinked (fun u hu => by rw [Option.mem_unique hu hlast]; exact hlt) (by rw [hobs]; exact hs)
  have hnone := h.eq_none hbases hnext
  have hopen := (h.openAll_eq_ok_iff hn pid listed _).mpr ⟨hne, hlinked, rfl⟩
  have hbounds := (boundsError_eq_none_iff first (h.valid last (List.mem_of_getLast? hlast)) hnext pid).mpr (by
    rw [toNat_succ_of_ne_max hmax]
    exact ⟨hfirst first hhead, hend, hlt⟩)
  have hjournal : ∀ s : Archived, (s.opened stem d pid).journal = s.journal pid := fun _ => rfl
  have hcapacity : (last.journal pid).capacity = last.capacity := rfl
  have hpath : segmentPath stem (snapshot + 1) = .ok (segmentName stem (snapshot + 1)) :=
    if_neg (by simp [PathPrefix.isEmpty, hn.1, hnext])
  simp only [compactJournalSegments, if_neg hmax, Prog.ensures_bind, Prog.ensures_get, hopen, List.head?_map, List.getLast?_map, hhead,
    Option.mem_def.mp hlast, Option.map_some, hjournal, Compaction.compactSegments, hbounds, ne_eq, not_true_eq_false, if_false,
    obsolete_map_opened, hobs, List.isEmpty_map, List.isEmpty_eq_false_iff.mpr hne, Bool.false_eq_true, List.length_map, if_true,
    Compaction.createSuccessor, hpath, MmapJournal.create, hcapacity, hcreated, hnone, Option.isSome_none, CompactCalls.succeed,
    Prog.ensures_step] at hpass
  have hnew : Holds stem _ (segs ++ [successor (snapshot + 1) last]) :=
    h.snoc ⟨hcreated, Chain.nil _ _⟩ hbases (createdBytes_shows last.capacity (snapshot + 1))
  exact ⟨_, hpass.1, hnew, _, listed.create hnone⟩

/-- A chain whose compactions are safe can be compacted. -/
theorem CompactionSafe.compactable {listing : List Path} {first last : Archived} (hsafe : CompactionSafe stem d segs snapshot)
    (h : Holds stem d segs) (hn : stem.Named) (hlinked : Linked segs) (listed : d.Lists listing) (hfirst : first ∈ segs.head?)
    (hle : first.base.toNat ≤ snapshot.toNat + 1) (hlast : last ∈ segs.getLast?) (hend : snapshot.toNat + 1 ≤ last.next) :
    Compactable snapshot last := by
  obtain ⟨hpass, hself⟩ := hsafe 0 listing listed .succeed
  have hcompact : (compactJournalSegments 0 stem listing (some snapshot) .succeed).Ensures d _ _ := h.compact listed .succeed
  obtain ⟨⟨-, -, hlt⟩, hcreate⟩ := (hcompact.2.2.2 rfl hn hlinked first hfirst last hlast).mp (hself.completes 0 listing listed).1
  refine ⟨hlt, fun hne heq => ?_⟩
  have hmax : snapshot ≠ uint64Max := by
    rintro rfl
    have : uint64Max.toNat = 2 ^ 64 - 1 := rfl
    omega
  have hsucc := toNat_succ_of_ne_max hmax
  have hall : (obsoletes (snapshot + 1) segs).length = segs.length := by
    obtain ⟨init, rfl⟩ := List.getLast?_eq_some_iff.mp hlast
    exact (h.obsoletes_eq_iff hlinked (by rw [hsucc]; exact hend) hlt).mpr ⟨hne, by rw [hsucc]; exact heq⟩
  have hcreated := hcreate hall
  obtain ⟨t, ht, hheld, listing', hl⟩ := h.passes_successor hn hlinked listed 0 hmax
    (fun s hs => by rw [Option.mem_unique hs hfirst]; exact hle) hlast hend hlt hall hcreated hpass
  obtain ⟨segments, hopen, -⟩ := ht.opens 0 listing' hl
  have hchain := ((hheld.openAll_eq_ok_iff hn 0 hl segments).mp hopen).2.1
  refine ⟨((List.isChain_append.mp hchain).2.2 last hlast _ rfl).1, ?_⟩
  rw [← heq, ← hsucc]
  exact (createError_eq_none hcreated).2.2.2

/-- For every chain of segments and every snapshot's point inside it or at its end: compactions are safe, interrupted anywhere and with
any calls failing, exactly when the numbers go on after the journal and, where the snapshot is at the end of a last segment with
commands, that segment is full and the numbers suffice for the segment behind it. -/
theorem compaction_safe_iff {listing : List Path} {first last : Archived} (held : Holds stem d segs) (named : stem.Named)
    (linked : Linked segs) (listed : d.Lists listing) (hfirst : first ∈ segs.head?) (hlast : last ∈ segs.getLast?)
    (first_le : first.base.toNat ≤ snapshot.toNat + 1) (le_end : snapshot.toNat + 1 ≤ last.next) :
    CompactionSafe stem d segs snapshot ↔ Compactable snapshot last := by
  refine ⟨fun hsafe => hsafe.compactable held named linked listed hfirst first_le hlast le_end, fun hok pid listing' hl calls => ?_⟩
  have hresume : ∀ t, (∃ segs', Remains (snapshot + 1) segs segs' ∧ Holds stem t segs') → Resumable stem d segs snapshot t :=
    fun t ⟨segs', hremains, ht⟩ => hremains.resumable ht held named linked hfirst first_le hlast le_end hok
  refine ⟨(held.compact hl calls).mono hresume ?_, hresume d ⟨_, .dropped 0 (Nat.zero_le _) (Or.inl rfl), held⟩⟩
  rintro e t ⟨hremains, hretained, -⟩
  exact ⟨hresume t hremains, hretained⟩

end

/-- One full segment, and the snapshot at its end: compactions are safe. -/
theorem compaction_safe_full_segment : ∃ d, Holds ⟨[], ['j']⟩ d [⟨1, 1, [firstCommand]⟩] ∧
    CompactionSafe ⟨[], ['j']⟩ d [⟨1, 1, [firstCommand]⟩] 1 := by
  have hvalid : ∀ s ∈ [⟨1, 1, [firstCommand]⟩], Archived.Valid s := by
    intro s hs
    rw [List.mem_singleton.mp hs]
    exact ⟨by decide, firstCommand_chain (by decide)⟩
  obtain ⟨d, hd, hl⟩ := exists_holds ⟨[], ['j']⟩ hvalid (by simp)
  refine ⟨d, hd, ?_⟩
  exact (compaction_safe_iff hd ⟨by decide, by decide, by decide⟩ (List.IsChain.singleton _) hl rfl rfl (by decide) (by decide)).mpr
    ⟨by decide, fun _ _ => ⟨rfl, by decide⟩⟩

/-- One partial segment, and the snapshot at its end: compactions are not safe. -/
theorem compaction_of_partial_segment : ∃ d, Holds ⟨[], ['j']⟩ d [⟨1, 2, [firstCommand]⟩] ∧ Linked [⟨1, 2, [firstCommand]⟩] ∧
    d.Lists [segmentName ⟨[], ['j']⟩ 1] ∧ ¬CompactionSafe ⟨[], ['j']⟩ d [⟨1, 2, [firstCommand]⟩] 1 := by
  have hvalid : ∀ s ∈ [⟨1, 2, [firstCommand]⟩], Archived.Valid s := by
    intro s hs
    rw [List.mem_singleton.mp hs]
    exact ⟨by decide, firstCommand_chain (by decide)⟩
  obtain ⟨d, hd, hl⟩ := exists_holds ⟨[], ['j']⟩ hvalid (by simp)
  refine ⟨d, hd, List.IsChain.singleton _, hl, fun hsafe => ?_⟩
  have hok := hsafe.compactable hd ⟨by decide, by decide, by decide⟩ (List.IsChain.singleton _) hl rfl (by decide) rfl (by decide)
  have hfull := (hok.2 (by decide) (by decide)).1
  cases hfull

end MatchingEngine

import MatchingEngine.Lemmas.Check
import MatchingEngine.Lemmas.Operations
import MatchingEngine.SnapshotFile

/-!
# Replacing a snapshot's file keeps its promises

At every step of `save_snapshot_atomic` the destination holds what it held or the new encoding, whole. The result says which, but for one:
when everything through the synchronisation of the directory succeeds and the closing of the file fails, `io_error` is returned although the
new encoding is in place.
-/

namespace MatchingEngine

open Comp Folder

/-! ## The destination -/

/-- The destination through a save: as it was, replaced, or replaced for good. -/
inductive Destination (before : SnapshotFolder) (basename : Path) (bytes : List UInt8) (f : SnapshotFolder) : Prop where
  | kept (h : Unchanged basename before f)
  | replaced (shown : f.shown basename = some ⟨bytes, true⟩) (stale : f.stale basename = before.shown basename :: before.stale basename)
  | committed (shown : f.shown basename = some ⟨bytes, true⟩) (stale : f.stale basename = [])

variable {before f : SnapshotFolder} {basename temporary : Path} {bytes : List UInt8}

/-- The destination holds what it held, or the new bytes. -/
theorem Destination.holds (h : Destination before basename bytes f) {content : Option (List UInt8)} (hc : f.Holds basename content) :
    before.Holds basename content ∨ content = some bytes := by
  cases h with
  | kept h => exact .inl (h.holds_iff.mp hc)
  | replaced hshown hstale => exact holds_replaced hshown hstale hc
  | committed hshown hstale => exact .inr ((holds_synced hshown hstale).mp hc)

/-! ## The temporary file -/

/-- The writes of a file of this size come to its end. -/
def WriteCall.complete : List WriteCall → Nat → Bool
  | [], _ => true
  | _ :: _, 0 => true
  | .interrupted :: calls, left => complete calls left
  | .failed :: _, _ => false
  | .wrote count :: calls, left => count ≠ 0 && complete calls (left - count)

/-- Writing the temporary leaves the destination. -/
theorem writeExact_ensures (hne : basename ≠ temporary) : ∀ (calls : List WriteCall) (bytes : List UInt8) (file : Folder.File UInt8)
    (f : SnapshotFolder), Unchanged basename before f → f.shown temporary = some file →
    (writeExact temporary calls bytes).Ensures f (Unchanged basename before) fun done g =>
      Unchanged basename before g ∧ done = WriteCall.complete calls bytes.length ∧
        (done = true → ∃ synced, g.shown temporary = some ⟨file.content ++ bytes, synced⟩) := by
  intro calls
  induction calls with
  | nil =>
    intro bytes file f hf ht
    have happend : Unchanged basename before (f.append temporary bytes) := hf.trans (Unchanged.modify hne _ _)
    simp only [writeExact, Prog.ensures_bind, Prog.ensures_step, Prog.ensures_pure]
    refine ⟨happend, happend, rfl, ?_⟩
    intro _
    exact ⟨false, append_shown ht bytes⟩
  | cons call calls ih =>
    intro bytes file f hf ht
    unfold writeExact
    by_cases hb : bytes = []
    · rw [if_pos hb, Prog.ensures_pure, hb]
      refine ⟨hf, by cases call <;> rfl, ?_⟩
      intro _
      exact ⟨file.synced, by rw [List.append_nil]; exact ht⟩
    · rw [if_neg hb]
      obtain ⟨left, hlen⟩ : ∃ left, bytes.length = left + 1 := Nat.exists_eq_succ_of_ne_zero (mt List.length_eq_zero_iff.mp hb)
      rw [hlen]
      cases call with
      | interrupted =>
        have hrest := ih bytes file f hf ht
        rw [hlen] at hrest
        exact hrest
      | failed =>
        rw [Prog.ensures_pure]
        refine ⟨hf, rfl, ?_⟩
        intro h
        cases h
      | wrote count =>
        by_cases hcount : count = 0
        · simp only [hcount, if_true, Prog.ensures_pure]
          refine ⟨hf, rfl, ?_⟩
          intro h
          cases h
        · have happend : Unchanged basename before (f.append temporary (bytes.take count)) := hf.trans (Unchanged.modify hne _ _)
          have hrest := ih (bytes.drop count) _ _ happend (append_shown ht (bytes.take count))
          rw [List.length_drop, hlen, List.append_assoc, List.take_append_drop] at hrest
          simp only [hcount, if_false, Prog.ensures_bind, Prog.ensures_step]
          refine ⟨happend, hrest.mono (fun _ h => h) ?_⟩
          rintro done g ⟨hg, hdone, hcontent⟩
          exact ⟨hg, by simpa [WriteCall.complete, hcount] using hdone, hcontent⟩

namespace SaveCalls

variable {calls : SaveCalls}

/-- A temporary name is not the destination. -/
theorem temporaryName_ne (calls : SaveCalls) (basename : Path) (attempt : Nat) : basename ≠ calls.temporaryName basename attempt := by
  intro h
  have hlen := congrArg List.length h
  simp only [temporaryName, List.length_append, List.length_cons] at hlen
  omega

/-- One of the attempts from `attempt` on creates a file: those before it find their name taken. -/
def CreatesFrom (calls : SaveCalls) (basename : Path) (f : SnapshotFolder) (left attempt : Nat) : Prop :=
  ∃ count < left, calls.attempted basename f (attempt + count) = none ∧
    ∀ earlier < count, calls.attempted basename f (attempt + earlier) = some .eexist

/-- A name that exists is passed over. -/
theorem createsFrom_succ {left attempt : Nat} (h : calls.attempted basename f attempt = some .eexist) :
    calls.CreatesFrom basename f (left + 1) attempt ↔ calls.CreatesFrom basename f left (attempt + 1) := by
  constructor
  · rintro ⟨count, hlt, hnone, hearlier⟩
    cases count with
    | zero => rw [Nat.add_zero, h] at hnone; cases hnone
    | succ count =>
      refine ⟨count, by omega, by rw [Nat.add_assoc, Nat.add_comm 1]; exact hnone, ?_⟩
      intro earlier he
      rw [Nat.add_assoc, Nat.add_comm 1]
      exact hearlier (earlier + 1) (by omega)
  · rintro ⟨count, hlt, hnone, hearlier⟩
    refine ⟨count + 1, by omega, by rw [Nat.add_comm count, ← Nat.add_assoc]; exact hnone, ?_⟩
    intro earlier he
    cases earlier with
    | zero => exact h
    | succ earlier =>
      rw [Nat.add_comm earlier, ← Nat.add_assoc]
      exact hearlier earlier (by omega)

/-- The loop over the temporary names leaves the destination alone, and ends with a new file exactly if an attempt creates one. -/
theorem createTemporary_ensures (hf : Unchanged basename before f) : ∀ left attempt : Nat,
    (calls.createTemporary basename left attempt).Ensures f (Unchanged basename before) fun result g =>
      Unchanged basename before g ∧
        ((∃ errno, result = .error errno ∧ ¬calls.CreatesFrom basename f left attempt) ∨
          (∃ temporary, result = .ok temporary ∧ calls.CreatesFrom basename f left attempt ∧ basename ≠ temporary ∧
            g.shown temporary = some ⟨[], false⟩)) := by
  intro left
  induction left with
  | zero =>
    intro attempt
    rw [createTemporary, Prog.ensures_pure]
    exact ⟨hf, .inl ⟨_, rfl, by rintro ⟨count, hlt, -⟩; exact absurd hlt (Nat.not_lt_zero count)⟩⟩
  | succ left ih =>
    intro attempt
    rw [createTemporary, Prog.ensures_bind, Prog.ensures_get]
    cases hout : calls.attempted basename f attempt with
    | none =>
      have hne := calls.temporaryName_ne basename attempt
      have hcreate := hf.trans (Unchanged.put hne (some ⟨[], false⟩) f)
      simp only [Prog.ensures_bind, Prog.ensures_step, Prog.ensures_pure]
      refine ⟨hcreate, hcreate, .inr ⟨_, rfl, ⟨0, Nat.succ_pos left, hout, ?_⟩, hne, Function.update_self _ _ _⟩⟩
      intro earlier he
      exact absurd he (Nat.not_lt_zero earlier)
    | some errno =>
      by_cases he : errno = .eexist
      · subst he
        simp only [createsFrom_succ hout]
        exact ih (attempt + 1)
      · have hcreates : ¬calls.CreatesFrom basename f (left + 1) attempt := by
          rintro ⟨count, hlt, hnone, hearlier⟩
          cases count with
          | zero => rw [Nat.add_zero, hout] at hnone; cases hnone
          | succ count =>
            have hfirst := hearlier 0 (Nat.succ_pos count)
            rw [Nat.add_zero, hout] at hfirst
            exact he (Option.some.inj hfirst)
        cases errno with
        | eexist => exact absurd rfl he
        | _ => exact Prog.ensures_pure.mpr ⟨hf, .inl ⟨_, rfl, hcreates⟩⟩

/-! ## The whole save -/

/-- The calls from the new temporary file through the rename succeed. -/
structure Renames (calls : SaveCalls) (size : Nat) : Prop where
  fchmod : calls.fchmod = true
  fstat : calls.fstat = true
  writes : WriteCall.complete calls.writes size = true
  fsync : calls.fsync = true
  rename : calls.rename = true

/-- The temporary is put in place whole. -/
theorem renameTemporary_ensures (hne : basename ≠ temporary) (hf : Unchanged basename before f) (ht : f.shown temporary = some ⟨[], false⟩) :
    (calls.renameTemporary basename temporary bytes).Ensures f (Destination before basename bytes) fun renamed g =>
      (renamed = true ∧ calls.Renames bytes.length ∧ g.shown basename = some ⟨bytes, true⟩ ∧
        g.stale basename = before.shown basename :: before.stale basename) ∨
      (renamed = false ∧ ¬calls.Renames bytes.length ∧ Unchanged basename before g) := by
  rw [renameTemporary]
  by_cases hopen : calls.fchmod = true ∧ calls.fstat = true
  · simp only [hopen.1, hopen.2, Bool.not_true, Bool.or_false, Bool.false_eq_true, if_false, Prog.ensures_bind]
    refine (writeExact_ensures hne calls.writes bytes _ f hf ht).mono (fun _ => Destination.kept) ?_
    rintro done g ⟨hg, hdone, hcontent⟩
    cases done with
    | false =>
      refine Prog.ensures_pure.mpr (.inr ⟨rfl, ?_, hg⟩)
      intro hr
      exact absurd (hdone.trans hr.writes) Bool.false_ne_true
    | true =>
      obtain ⟨synced, hshown⟩ := hcontent rfl
      by_cases hsync : calls.fsync = true
      · have hg' : Unchanged basename before (g.syncFile temporary) := hg.trans (Unchanged.modify hne _ _)
        by_cases hrename : calls.rename = true
        · have hshown' : (g.syncFile temporary).shown temporary = some ⟨bytes, true⟩ := syncFile_shown hshown
          obtain ⟨htarget, hstale⟩ := rename_target hne (f := g.syncFile temporary)
          rw [hshown'] at htarget
          rw [hg'.shown, hg'.stale] at hstale
          simp only [hsync, hrename, Bool.not_true, Bool.false_eq_true, if_false, Prog.ensures_bind, Prog.ensures_step, Prog.ensures_pure]
          exact ⟨.kept hg', .replaced htarget hstale, .inl ⟨trivial, ⟨hopen.1, hopen.2, hdone.symm, hsync, hrename⟩, htarget, hstale⟩⟩
        · simp only [hsync, hrename, Bool.not_true, Bool.not_false, Bool.false_eq_true, if_true, if_false, Prog.ensures_bind,
            Prog.ensures_step, Prog.ensures_pure]
          exact ⟨.kept hg', .inr ⟨trivial, fun hr => hrename hr.rename, hg'⟩⟩
      · simp only [hsync, Bool.not_true, Bool.not_false, Bool.false_eq_true, if_true, if_false, Prog.ensures_pure]
        exact .inr ⟨trivial, fun hr => hsync hr.fsync, hg⟩
  · have hstop : (!calls.fchmod || !calls.fstat) = true := by
      cases hc : calls.fchmod <;> cases hs : calls.fstat <;> simp_all
    rw [if_pos hstop, Prog.ensures_pure]
    exact .inr ⟨rfl, fun hr => hopen ⟨hr.fchmod, hr.fstat⟩, hf⟩

/-- The calls through the synchronisation of the directory succeed. -/
structure Commits (calls : SaveCalls) (basename : Path) (size : Nat) (before : SnapshotFolder) : Prop where
  openParent : calls.openParent = none
  creates : calls.CreatesFrom basename before kTempAttempts 0
  renames : calls.Renames size
  fsyncParent : calls.fsyncParent = true

/-- Without the rename the result is an I/O error. -/
theorem result_failed : calls.result false = .ioError := by
  unfold result
  cases calls.close <;> cases calls.closeParent <;> simp

/-- Without the last sync the commit is in doubt. -/
theorem result_indeterminate (h : calls.fsyncParent = false) : calls.result true = .commitIndeterminate := by
  unfold result
  cases calls.close <;> cases calls.closeParent <;> simp [h]

/-- After the last sync only the closing can fail. -/
theorem result_committed (h : calls.fsyncParent = true) : calls.result true =
    if !calls.close then .ioError else if !calls.closeParent then .commitIndeterminate else .none := by
  unfold result
  cases calls.close <;> cases calls.closeParent <;> simp [h]

/-- The end of a save whose rename took place. -/
theorem finish_renamed (hshown : f.shown basename = some ⟨bytes, true⟩)
    (hstale : f.stale basename = before.shown basename :: before.stale basename) :
    (calls.finish temporary true).Ensures f (Destination before basename bytes) fun result g =>
      result = calls.result true ∧ g.shown basename = some ⟨bytes, true⟩ ∧ (calls.fsyncParent = true → g.stale basename = []) ∧
        Destination before basename bytes g := by
  cases hsync : calls.fsyncParent with
  | false =>
    simp only [finish, hsync, Bool.and_false, Bool.not_true, Bool.false_and, Bool.false_eq_true, if_false, Prog.ensures_pure]
    exact ⟨trivial, hshown, by rintro ⟨⟩, .replaced hshown hstale⟩
  | true =>
    have hsynced : Destination before basename bytes (Folder.sync f) := .committed hshown rfl
    simp only [finish, hsync, Bool.and_true, Bool.not_true, Bool.false_and, Bool.false_eq_true, if_true, if_false, Prog.ensures_bind,
      Prog.ensures_step, Prog.ensures_pure]
    exact ⟨hsynced, trivial, hshown, fun _ => rfl, hsynced⟩

/-- The end of one whose rename did not. -/
theorem finish_failed (hne : basename ≠ temporary) (hf : Unchanged basename before f) :
    (calls.finish temporary false).Ensures f (Unchanged basename before) fun result g => result = .ioError ∧ Unchanged basename before g := by
  have hremove : Unchanged basename before (Folder.remove temporary f) := hf.trans (Unchanged.put hne none f)
  cases hunlink : calls.unlink with
  | none =>
    simp [finish, hunlink, result_failed, hremove]
  | some errno =>
    simp [finish, hunlink, result_failed, hf]

theorem errnoError_ne_none (errno : Errno) : errnoError errno ≠ .none := by
  cases errno <;> decide

/-- A save of an encoded engine. -/
theorem save_ensures (calls : SaveCalls) (before : SnapshotFolder) (bytes : List UInt8) {path : List Char} {parsed : ParsedPath} (hpath : parsePath path = .ok parsed) :
    (calls.save path (.ok bytes)).Ensures before (Destination before parsed.basename bytes) fun result g =>
      (calls.Commits parsed.basename bytes.length before ∧ result = calls.result true ∧ g.shown parsed.basename = some ⟨bytes, true⟩ ∧
          g.stale parsed.basename = []) ∨
        (¬calls.Commits parsed.basename bytes.length before ∧ result ≠ .none ∧
          (result ≠ .commitIndeterminate → Unchanged parsed.basename before g)) := by
  have hrefl := Unchanged.refl parsed.basename before
  simp only [save, hpath]
  cases hopen : calls.openParent with
  | some errno =>
    refine Prog.ensures_pure.mpr (.inr ⟨fun hc => ?_, errnoError_ne_none errno, fun _ => hrefl⟩)
    cases hopen.symm.trans hc.openParent
  | none =>
    rw [Prog.ensures_bind]
    refine (createTemporary_ensures hrefl kTempAttempts 0).mono (fun _ => Destination.kept) ?_
    rintro created f ⟨hf, ⟨errno, rfl, hcreates⟩ | ⟨temporary, rfl, hcreates, hne, ht⟩⟩
    · refine Prog.ensures_pure.mpr (.inr ⟨fun hc => hcreates hc.creates, ?_, fun _ => hf⟩)
      split
      · decide
      · exact errnoError_ne_none errno
    · rw [Prog.ensures_bind]
      refine (renameTemporary_ensures hne hf ht).mono (fun _ h => h) ?_
      rintro renamed g (⟨rfl, hrenames, hshown, hstale⟩ | ⟨rfl, hrenames, hg⟩)
      · refine (finish_renamed hshown hstale).mono (fun _ h => h) ?_
        rintro result g' ⟨rfl, hshown', hsynced, hdest⟩
        cases hparent : calls.fsyncParent with
        | false =>
          refine .inr ⟨fun hc => ?_, ?_, fun h => absurd (result_indeterminate hparent) h⟩
          · cases hparent.symm.trans hc.fsyncParent
          · rw [result_indeterminate hparent]
            decide
        | true => exact .inl ⟨⟨hopen, hcreates, hrenames, hparent⟩, rfl, hshown', hsynced hparent⟩
      · refine (finish_failed hne hg).mono (fun _ => Destination.kept) ?_
        rintro result g' ⟨rfl, hg'⟩
        exact .inr ⟨fun hc => hrenames hc.renames, by decide, fun _ => hg'⟩

end SaveCalls

/-- The name is what follows the last slash. -/
theorem parsePath_basename {path : List Char} {parsed : ParsedPath} (h : parsePath path = .ok parsed) :
    parsed.basename = (PathPrefix.ofText path).name := by
  unfold parsePath at h
  cases hparsed : parsedPath path with
  | none =>
    rw [hparsed] at h
    cases h
  | some found =>
    rw [hparsed] at h
    cases h
    unfold parsedPath at hparsed
    dsimp only at hparsed
    split at hparsed
    · cases hparsed
    · cases hparsed
      rfl

/-! ## The encoding -/

/-- What `encode_snapshot` returns. -/
theorem encodeSnapshot_returns {engine engine' : SequencedEngine} {point : SnapshotPoint} {encoded : Except SnapshotError (List UInt8)} :
    (encodeSnapshot engine point).Returns (encoded, engine') ↔
      if kMaximumSnapshotSlots < engine.orderBook.arena.capacity then encoded = .error .invalidState ∧ engine' = engine
      else ∃ result book, engine.orderBook.checkInvariants.Returns (result, book) ∧ engine' = { engine with orderBook := book } ∧
        encoded = if result.violation ≠ .none ∨ engine'.misses point = true then .error .invalidState else .ok (snapshotBytes engine' point) := by
  unfold encodeSnapshot
  split
  · rw [returns_pure, Prod.mk.injEq]
    exact ⟨fun h => ⟨h.1.symm, h.2.symm⟩, fun h => ⟨h.1.symm, h.2.symm⟩⟩
  · have hrest (result : InvariantResult) (engine : SequencedEngine) :
        (if result.violation ≠ .none then pure (.error .invalidState, engine)
          else if engine.misses point = true then pure (.error .invalidState, engine)
          else pure (.ok (snapshotBytes engine point), engine) : Comp (Except SnapshotError (List UInt8) × SequencedEngine)) =
        pure (if result.violation ≠ .none ∨ engine.misses point = true then .error .invalidState else .ok (snapshotBytes engine point),
          engine) := by
      by_cases hv : result.violation ≠ .none
      · rw [if_pos hv, if_pos (.inl hv)]
      · by_cases hm : engine.misses point = true
        · rw [if_neg hv, if_pos hm, if_pos (.inr hm)]
        · rw [if_neg hv, if_neg hm, if_neg (not_or.mpr ⟨hv, hm⟩)]
    rw [returns_bind]
    constructor
    · rintro ⟨⟨result, book⟩, hr, h⟩
      refine ⟨result, book, hr, ?_⟩
      have h' := (congrArg (Comp.Returns · (encoded, engine')) (hrest result { engine with orderBook := book })).mp h
      rw [returns_pure, Prod.mk.injEq] at h'
      rw [← h'.2]
      exact ⟨rfl, h'.1.symm⟩
    · rintro ⟨result, book, hr, rfl, rfl⟩
      refine ⟨(result, book), hr, ?_⟩
      exact (congrArg (Comp.Returns · _) (hrest result { engine with orderBook := book })).mpr ((returns_pure _ _).mpr rfl)

/-- `encode_snapshot` returns. -/
theorem encodeSnapshot_terminates (engine : SequencedEngine) (point : SnapshotPoint) : (encodeSnapshot engine point).Terminates := by
  by_cases hc : kMaximumSnapshotSlots < engine.orderBook.arena.capacity
  · exact ⟨(_, _), encodeSnapshot_returns.mpr (by rw [if_pos hc]; exact ⟨rfl, rfl⟩)⟩
  · obtain ⟨⟨result, book⟩, hr⟩ := engine.orderBook.checkInvariants_terminates
    exact ⟨(_, _), encodeSnapshot_returns.mpr (by rw [if_neg hc]; exact ⟨result, book, hr, rfl, rfl⟩)⟩

/-- An engine is refused for its state only. -/
theorem encodeSnapshot_error {engine engine' : SequencedEngine} {point : SnapshotPoint} {error : SnapshotError}
    (h : (encodeSnapshot engine point).Returns (.error error, engine')) : error = .invalidState := by
  rw [encodeSnapshot_returns] at h
  split at h
  · exact Except.error.inj h.1
  · obtain ⟨result, book, -, -, h⟩ := h
    split at h
    · exact Except.error.inj h
    · cases h

/-! ## What a save promises -/

/-- What a save promises of the destination, in the directory as it was before. -/
structure Faithful (before : SnapshotFolder) (basename : Path) (encoded : Except SnapshotError (List UInt8))
    (save : Prog SnapshotFolder SnapshotError) : Prop where
  atomic : ∀ f ∈ save.stops before, ∀ content, f.Holds basename content →
    before.Holds basename content ∨ ∃ bytes, encoded = .ok bytes ∧ content = some bytes
  durable : (save.run before).result = .none → ∃ bytes, encoded = .ok bytes ∧ (save.run before).final.shown basename = some ⟨bytes, true⟩ ∧
    (save.run before).final.stale basename = []
  untouched : (save.run before).result ≠ .none → (save.run before).result ≠ .commitIndeterminate →
    ∀ content, (save.run before).final.Holds basename content ↔ before.Holds basename content

/-- A save that stops before it has touched the directory. -/
theorem Faithful.refused {encoded : Except SnapshotError (List UInt8)} {error : SnapshotError} (h : error ≠ .none) :
    Faithful before basename encoded (pure error) where
  atomic f hf content hc := by
    cases List.mem_singleton.mp hf
    exact .inl hc
  durable h' := absurd h' h
  untouched _ _ _ := Iff.rfl

/-- A save is faithful for every path that is parsed. -/
theorem SaveCalls.save_faithful (calls : SaveCalls) {path : List Char} {parsed : ParsedPath} (hpath : parsePath path = .ok parsed) :
    Faithful before parsed.basename (.ok bytes) (calls.save path (.ok bytes)) ↔
      (calls.Commits parsed.basename bytes.length before → calls.close = false →
        ∀ content, before.Holds parsed.basename content ↔ content = some bytes) := by
  have hsave := save_ensures calls before bytes hpath
  have hstops := hsave.stops (.kept (Unchanged.refl _ _))
  have hatomic : ∀ f ∈ (calls.save path (.ok bytes)).stops before, ∀ content, f.Holds parsed.basename content →
      before.Holds parsed.basename content ∨ ∃ new, (Except.ok bytes : Except SnapshotError (List UInt8)) = .ok new ∧ content = some new := by
    intro f hf content hc
    exact ((hstops f hf).holds hc).imp_right fun h => ⟨bytes, rfl, h⟩
  rcases hsave.2 with ⟨hcommits, hresult, hshown, hstale⟩ | ⟨hcommits, hresult, hkept⟩
  · have hheld (content : Option (List UInt8)) : ((calls.save path (.ok bytes)).run before).final.Holds parsed.basename content ↔
        content = some bytes := holds_synced hshown hstale
    rw [result_committed hcommits.fsyncParent] at hresult
    constructor
    · intro h _ hclose content
      rw [hclose, Bool.not_false, if_pos rfl] at hresult
      have huntouched := h.untouched (by rw [hresult]; decide) (by rw [hresult]; decide) content
      exact huntouched.symm.trans (hheld content)
    · intro h
      refine ⟨hatomic, fun _ => ⟨bytes, rfl, hshown, hstale⟩, ?_⟩
      intro hne hne' content
      cases hclose : calls.close with
      | false => exact (hheld content).trans (h hcommits hclose content).symm
      | true =>
        rw [hclose] at hresult
        cases hparent : calls.closeParent <;> rw [hparent] at hresult
        · exact absurd hresult hne'
        · exact absurd hresult hne
  · refine ⟨fun _ h => absurd h hcommits, fun _ => ⟨hatomic, fun h => absurd h hresult, ?_⟩⟩
    intro _ hne content
    exact (hkept hne).holds_iff

/-- A save keeps its promises exactly if the file's closing does not fail once the new encoding is in place for good, or the destination
held nothing else before. -/
theorem saveSnapshotAtomic_faithful (path : List Char) (engine : SequencedEngine) (point : SnapshotPoint) (calls : SaveCalls)
    (before : SnapshotFolder) :
    ∃ encoded save engine', (encodeSnapshot engine point).Returns (encoded, engine') ∧
      (saveSnapshotAtomic path engine point calls).Returns (save, engine') ∧
      (Faithful before (PathPrefix.ofText path).name encoded save ↔
        ∀ bytes parsed, encoded = .ok bytes → parsePath path = .ok parsed → calls.Commits parsed.basename bytes.length before →
          calls.close = false → ∀ content, before.Holds parsed.basename content ↔ content = some bytes) := by
  obtain ⟨⟨encoded, engine'⟩, hencoded⟩ := encodeSnapshot_terminates engine point
  refine ⟨encoded, _, engine', hencoded, (returns_bind _ _ _).mpr ⟨_, hencoded, (returns_pure _ _).mpr rfl⟩, ?_⟩
  cases encoded with
  | error error =>
    have herror : error ≠ .none := by
      rw [encodeSnapshot_error hencoded]
      decide
    refine ⟨?_, fun _ => Faithful.refused herror⟩
    rintro - bytes parsed ⟨⟩
  | ok bytes =>
    cases hpath : parsePath path with
    | error error =>
      have herror : error ≠ .none := by
        rintro rfl
        unfold parsePath at hpath
        split at hpath <;> cases hpath
      refine ⟨?_, fun _ => ?_⟩
      · rintro - bytes parsed - ⟨⟩
      · simp only [SaveCalls.save, hpath]
        exact Faithful.refused herror
    | ok parsed =>
      rw [← parsePath_basename hpath, SaveCalls.save_faithful calls hpath]
      constructor
      · rintro h _ _ ⟨⟩ ⟨⟩
        exact h
      · intro h
        exact h bytes parsed rfl rfl

/-- An empty directory. -/
def SnapshotFolder.empty : SnapshotFolder := ⟨fun _ => none, fun _ => []⟩

/-- Everything succeeds but the closing of the file. -/
def SaveCalls.closeFails : SaveCalls where
  pid := 1
  openParent := none
  counters := fun attempt => UInt64.ofNat attempt
  openTemporary := fun _ => none
  fchmod := true
  fstat := true
  writes := []
  fsync := true
  rename := true
  fsyncParent := true
  unlink := none
  close := false
  closeParent := true

/-- Calls of which only the closing fails commit. -/
theorem SaveCalls.closeFails_commits (basename : Path) (size : Nat) : closeFails.Commits basename size .empty where
  openParent := rfl
  creates := ⟨0, by decide, rfl, fun _ h => absurd h (Nat.not_lt_zero _)⟩
  renames := ⟨rfl, rfl, rfl, rfl, rfl⟩
  fsyncParent := rfl

/-- A new engine is encoded. -/
theorem encodeSnapshot_created {cfg : BookConfig} {nextSequence lastLogicalTime : UInt64} {state : TradingState} {engine : SequencedEngine}
    (h : SequencedEngine.create cfg nextSequence lastLogicalTime state = some engine) (hcapacity : cfg.maxOrders ≤ kMaximumSnapshotSlots) :
    ∃ bytes engine', (encodeSnapshot engine ⟨nextSequence - 1, lastLogicalTime⟩).Returns (.ok bytes, engine') := by
  unfold SequencedEngine.create at h
  split at h
  · cases h
  · rename_i hnext
    obtain ⟨book, hbook, rfl⟩ := Option.map_eq_some_iff.mp h
    have hrep : Rep False cfg book (Ladder.create cfg state) := repr_create hbook
    have hqueue (side : Side) (i : Nat) : (Ladder.create cfg state).queue side i = [] := rfl
    obtain ⟨book', hr, -⟩ := hrep.checkInvariants rfl (by intro side i; simp [Ladder.total, hqueue]) (by
      intro _ bid ask hbid
      exact absurd (hqueue .buy bid) hbid)
    have hlast : nextSequence - 1 ≠ uint64Max := by
      intro he
      exact hnext (UInt64.sub_eq_iff_eq_add.mp he)
    let engine : SequencedEngine := ⟨book', cfg.maxOrders, nextSequence, lastLogicalTime, false⟩
    refine ⟨snapshotBytes engine ⟨nextSequence - 1, lastLogicalTime⟩, engine, encodeSnapshot_returns.mpr ?_⟩
    rw [if_neg (by rw [hrep.arena.capacity]; exact Nat.not_lt.mpr hcapacity)]
    refine ⟨_, book', hr, rfl, (if_neg ?_).symm⟩
    simp [invariantHolds, SequencedEngine.misses, hlast, engine]

/-- A snapshot is saved for the first time, and the closing of its file fails. -/
theorem saveSnapshotAtomic_close_fails : ∃ engine, SequencedEngine.create (BookConfig.small 2 (by decide) .none) 1 0 .continuous = some engine ∧
    ∃ bytes save engine', (encodeSnapshot engine ⟨0, 0⟩).Returns (.ok bytes, engine') ∧
      (saveSnapshotAtomic ['s'] engine ⟨0, 0⟩ .closeFails).Returns (save, engine') ∧ (save.run .empty).result = .ioError ∧
      (save.run .empty).final.shown ['s'] = some ⟨bytes, true⟩ ∧ ¬Faithful .empty ['s'] (.ok bytes) save := by
  obtain ⟨engine, hengine⟩ := Option.isSome_iff_exists.mp
    (show (SequencedEngine.create (BookConfig.small 2 (by decide) .none) 1 0 .continuous).isSome = true by decide)
  obtain ⟨bytes, engine', hencoded⟩ := encodeSnapshot_created hengine (by decide)
  have hpath : parsePath ['s'] = .ok ⟨['.'], ['s']⟩ := by decide
  have hcommits := SaveCalls.closeFails_commits ['s'] bytes.length
  refine ⟨engine, hengine, bytes, _, engine', hencoded, (returns_bind _ _ _).mpr ⟨_, hencoded, (returns_pure _ _).mpr rfl⟩, ?_⟩
  rcases (SaveCalls.save_ensures .closeFails .empty bytes hpath).2 with h | h
  · refine ⟨h.2.1, h.2.2.1, ?_⟩
    intro hfaithful
    have hheld := (SaveCalls.save_faithful _ hpath).mp hfaithful hcommits rfl none
    have hnone := hheld.mp ⟨none, List.mem_cons_self, .none⟩
    cases hnone
  · exact absurd hcommits h.1

end MatchingEngine

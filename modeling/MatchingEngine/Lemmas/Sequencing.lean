import MatchingEngine.Lemmas.Journal
import MatchingEngine.Lemmas.Recovery

/-!
# Numbers

A sequencer, a journal and an engine each keep the number of the next command in their own way: a number and a flag, or a base and a
size. Unrolled, it is a natural number that stops at `2 ^ 64`, where none is left, and never wraps. A command whose number and time are
those a part waits for is taken by it.
-/

namespace MatchingEngine

/-- The number after those of 64 bits, with the state of a part that has used `next` and waits for `(afterSequence next).1`. -/
def nextNumber (next : UInt64) (exhausted : Bool) : Nat := if exhausted then 2 ^ 64 else next.toNat

theorem uint64Max_toNat : uint64Max.toNat = 2 ^ 64 - 1 := by decide

/-- The number after one is issued. -/
theorem nextNumber_afterSequence (next : UInt64) : nextNumber (afterSequence next).1 (afterSequence next).2 = next.toNat + 1 := by
  unfold afterSequence
  split
  · rename_i hmax
    rw [hmax, uint64Max_toNat]
    rfl
  · rename_i hmax
    have hne : next.toNat ≠ 2 ^ 64 - 1 := fun h => hmax (UInt64.toNat_inj.mp (h.trans uint64Max_toNat.symm))
    have hlt := next.toNat_lt
    show (next + 1).toNat = next.toNat + 1
    rw [UInt64.toNat_add, UInt64.toNat_one]
    omega

/-- No number is beyond the end. -/
theorem nextNumber_le (next : UInt64) (exhausted : Bool) : nextNumber next exhausted ≤ 2 ^ 64 := by
  have := next.toNat_lt
  unfold nextNumber
  split <;> omega

/-- There is a number unless all are used up. -/
theorem nextNumber_lt_iff {next : UInt64} {exhausted : Bool} : nextNumber next exhausted < 2 ^ 64 ↔ exhausted = false := by
  have := next.toNat_lt
  cases exhausted with
  | false => exact iff_of_true this rfl
  | true => exact iff_of_false (Nat.lt_irrefl _) nofun

/-! ## The sequencer -/

namespace Sequencer

variable {s s' : Sequencer} {payload : CommandPayload} {time : UInt64} {command : SequencedCommand}

/-- The number of the next command, `2 ^ 64` when there is none. -/
def next (s : Sequencer) : Nat := nextNumber s.nextSequence s.exhausted

/-- Unless all are used up, the next number is stored. -/
theorem next_eq (h : s.exhausted = false) : s.next = s.nextSequence.toNat := by
  rw [next, h]
  rfl

/-- What `stamp` issues. -/
theorem stamp_ok (h : s.stamp payload time = .ok (command, s')) :
    s.exhausted = false ∧ validateCommandPayload payload = .none ∧ s.lastLogicalTime ≤ time ∧ command = ⟨payload, s.nextSequence, time⟩ ∧
      s'.next = s.next + 1 ∧ s'.lastLogicalTime = time := by
  unfold stamp at h
  split at h
  · cases h
  split at h
  · cases h
  split at h
  · cases h
  rename_i hvalid htime hexhausted
  cases h
  have hlive : s.exhausted = false := by simpa using hexhausted
  refine ⟨hlive, not_not.mp hvalid, UInt64.not_lt.mp htime, rfl, ?_, rfl⟩
  rw [next_eq hlive]
  exact nextNumber_afterSequence _

/-- A valid payload is stamped while there is a number left. -/
theorem exists_stamp (hvalid : validateCommandPayload payload = .none) (htime : s.lastLogicalTime ≤ time) (hnext : s.next < 2 ^ 64) :
    ∃ s', s.stamp payload time = .ok (⟨payload, s.nextSequence, time⟩, s') := by
  unfold stamp
  rw [if_neg (not_not.mpr hvalid), if_neg (UInt64.not_lt.mpr htime), if_neg (by rw [nextNumber_lt_iff.mp hnext]; exact nofun)]
  exact ⟨_, rfl⟩

/-- With all used up nothing is stamped. -/
theorem stamp_exhausted (hnext : s.next = 2 ^ 64) (payload : CommandPayload) (time : UInt64) : ∃ error, s.stamp payload time = .error error := by
  have hexhausted : s.exhausted = true := by
    rw [← Bool.not_eq_false, ← show nextNumber s.nextSequence s.exhausted < 2 ^ 64 ↔ _ from nextNumber_lt_iff]
    exact Nat.not_lt.mpr hnext.ge
  unfold stamp
  split
  · exact ⟨_, rfl⟩
  split
  · exact ⟨_, rfl⟩
  · exact ⟨_, rfl⟩

end Sequencer

/-! ## The journal -/

namespace MmapJournal

variable {j : MmapJournal} {pid : Nat} {command : SequencedCommand} {data commit : SyncCalls} {m : Mapped}

/-- The number of the next command, which the records of the journal reach at `2 ^ 64` at most. -/
def next (j : MmapJournal) : Nat := j.baseSequence.toNat + j.size

/-- What `create` and `open` check: the records are within the bound, and the last of them has a number of 64 bits. -/
structure Sized (j : MmapJournal) : Prop where
  size_le : j.size ≤ j.capacity
  capacity_le : j.capacity ≤ kMaximumJournalCapacity
  numbers : j.baseSequence.toNat + j.capacity ≤ 2 ^ 64

/-- A journal that the process `pid` has created or opened, and that has not been closed or poisoned. -/
structure Ready (pid : Nat) (j : MmapJournal) : Prop where
  descriptor : j.descriptor = true
  mapped : j.mapped = true
  owner : j.ownerPid = pid
  sound : j.writerPoisoned = false

/-- A base and a capacity that pass the check of `create` or `open`. -/
theorem numbers_le {base : UInt64} {capacity : Nat} (hpos : 0 < capacity) (hle : capacity ≤ kMaximumJournalCapacity)
    (h : ¬ uint64Max - base < UInt64.ofNat (capacity - 1)) : base.toNat + capacity ≤ 2 ^ 64 := by
  have hbase : base ≤ uint64Max := by
    rw [UInt64.le_iff_toNat_le, uint64Max_toNat]
    exact Nat.le_sub_one_of_lt base.toNat_lt
  have hlt := base.toNat_lt
  simp only [kMaximumJournalCapacity] at hle
  rw [UInt64.lt_iff_toNat_lt, UInt64.toNat_sub_of_le _ _ hbase, uint64Max_toNat, UInt64.toNat_ofNat', Nat.mod_eq_of_lt (by omega)] at h
  omega

/-- A journal that can be created. -/
theorem createError_eq_none {capacity : Nat} {base : UInt64} (h : createError capacity base = .none) :
    0 < capacity ∧ capacity ≤ kMaximumJournalCapacity ∧ base.toNat + capacity ≤ 2 ^ 64 := by
  unfold createError at h
  split at h
  · cases h
  rename_i hcapacity
  simp only [not_or, Nat.not_lt] at hcapacity
  split at h
  · cases h
  rename_i hbase
  simp only [not_or] at hbase
  have hpos := Nat.pos_of_ne_zero hcapacity.1
  exact ⟨hpos, hcapacity.2, numbers_le hpos hcapacity.2 hbase.2⟩

/-- A new journal. -/
theorem attached_sized {capacity : Nat} {base : UInt64} (h : createError capacity base = .none) (pid : Nat) :
    (attached pid capacity base).Sized ∧ (attached pid capacity base).Ready pid := by
  obtain ⟨-, hle, hnumbers⟩ := createError_eq_none h
  exact ⟨⟨Nat.zero_le _, hle, hnumbers⟩, ⟨rfl, rfl, rfl, rfl⟩⟩

/-- A journal that waits for a command takes it. -/
theorem Ready.appendError_eq (hready : j.Ready pid) (hroom : j.full = false) (hvalid : validateCommandPayload command.payload = .none)
    (hsequence : command.sequence = j.nextSequence) (htime : j.lastLogicalTime ≤ command.logicalTime) :
    j.appendError pid command = .none := by
  have hsize : j.size ≠ j.capacity := of_decide_eq_false hroom
  unfold appendError
  rw [if_neg (not_not.mpr hready.owner.symm), if_neg (by rw [hready.mapped, hready.descriptor]; exact nofun),
    if_neg (by rw [hready.sound]; exact nofun), if_neg hsize, if_neg (not_not.mpr hvalid), if_neg (not_not.mpr hsequence),
    if_neg (UInt64.not_lt.mpr htime)]

/-- While a record is free, the number that the journal computes in 64 bits is the next one. -/
theorem Sized.nextSequence_toNat (h : j.Sized) (hroom : j.full = false) : j.nextSequence.toNat = j.next := by
  have hsize : j.size ≠ j.capacity := of_decide_eq_false hroom
  have hle := h.size_le
  have hnumbers := h.numbers
  rw [nextSequence, next, UInt64.toNat_add, UInt64.toNat_ofNat', Nat.add_mod_mod]
  exact Nat.mod_eq_of_lt (by omega)

/-- A journal with one more record. -/
theorem Sized.append (h : j.Sized) (hroom : j.full = false) (time : UInt64) :
    Sized { j with size := j.size + 1, lastLogicalTime := time } :=
  ⟨Nat.lt_of_le_of_ne h.size_le (of_decide_eq_false hroom), h.capacity_le, h.numbers⟩

/-- A journal whose numbers are used up is full. -/
theorem Sized.full_of_next (h : j.Sized) (hnext : j.next = 2 ^ 64) : j.full = true := by
  have hle := h.size_le
  have hnumbers := h.numbers
  rw [next] at hnext
  exact decide_eq_true (by omega)

/-- A full journal refuses every command. -/
theorem append_full (hfull : j.full = true) (pid : Nat) (command : SequencedCommand) (data commit : SyncCalls) (m : Mapped) :
    j.appendError pid command ≠ .none ∧ (j.append pid command data commit).run m = ⟨[], m, (j.appendError pid command, j)⟩ := by
  have herror : j.appendError pid command ≠ .none := by
    intro h
    exact (appendError_eq_none h).2.1 (of_decide_eq_true hfull)
  refine ⟨herror, ?_⟩
  rw [append, if_pos herror]
  rfl

/-- What `append` comes to: it is refused, or the record is written and each synchronisation has its say. What a store into the record
keeps of the contents of the file is kept, and when both synchronisations succeed every content has the record. -/
theorem append_ensures {P : Buffer → Prop} (pid : Nat) (command : SequencedCommand) (data commit : SyncCalls) (hP : ∀ v r, P v → P (v.splice r (recordOffset j.size) kJournalRecordSize))
    (hm : ∀ v ∈ m.versions, P v) :
    (j.append pid command data commit).Ensures m (fun _ => True) fun r t => (∀ v ∈ t.versions, P v) ∧
      ((j.appendError pid command ≠ .none ∧ r = (j.appendError pid command, j)) ∨
        (j.appendError pid command = .none ∧ data.ok = false ∧ r = (.ioError, j)) ∨
        (j.appendError pid command = .none ∧ data.ok = true ∧ commit.ok = false ∧
          r = (.commitIndeterminate, { j with writerPoisoned := true })) ∨
        (j.appendError pid command = .none ∧ data.ok = true ∧ commit.ok = true ∧
          r = (.none, { j with size := j.size + 1, lastLogicalTime := command.logicalTime }) ∧
          ∀ v ∈ t.versions, SameRecord (recordSpan v j.size) (recordOf command))) := by
  by_cases hok : j.appendError pid command = .none
  case neg =>
    rw [append, if_pos hok]
    exact Prog.ensures_pure.mpr ⟨hm, .inl ⟨hok, rfl⟩⟩
  have hvalid := (appendError_eq_none hok).2.2.1
  have hstored : ∀ t (f : Buffer → Buffer), (∀ v ∈ t.versions, P v) → ∀ v ∈ (storedAt j.size f t).versions, P v := by
    intro t f ht
    exact Mapped.forall_write.mpr ⟨hP _ _ (ht _ t.now_mem_versions), ht⟩
  rw [append, if_neg (not_not.mpr hok)]
  simp only [Prog.ensures_bind]
  refine (writeRecord_ensures hm (fun t f ht _ => hstored t f ht) hvalid).mono (fun _ _ => trivial) ?_
  rintro _ t ⟨rfl, ht, hx⟩
  simp only [Prog.ensures_bind, Prog.ensures_step, ne_eq, not_true_eq_false, if_false, true_and]
  cases hd : data.ok with
  | false => exact Prog.ensures_pure.mpr ⟨ht, .inr (.inl ⟨hok, rfl, rfl⟩)⟩
  | true =>
    simp only [Bool.not_true, Bool.false_eq_true, if_false, Prog.ensures_bind]
    have hsynced : ∀ v ∈ (t.sync true).versions, P v := Mapped.forall_sync ht
    refine (storeRecord_ensures (I := fun t => ∀ v ∈ t.versions, P v) (x := recordBody command) (by rwa [Mapped.sync_now])
      (fun _ _ hs => hs.writeU32 _ _) (hstored _ _ hsynced)).mono (fun _ _ => trivial) ?_
    rintro _ u ⟨hu, hy⟩
    simp only [Prog.ensures_step, true_and]
    cases hc : commit.ok with
    | false => exact Prog.ensures_pure.mpr ⟨hu, .inr (.inr (.inl ⟨hok, rfl, rfl⟩))⟩
    | true => exact Prog.ensures_pure.mpr ⟨Mapped.forall_sync hu, .inr (.inr (.inr ⟨hok, rfl, rfl, Mapped.forall_settled.mpr hy⟩))⟩

/-- The journal after an append: one more record, or at most poisoned. -/
theorem append_cases (j : MmapJournal) (pid : Nat) (command : SequencedCommand) (data commit : SyncCalls) (m : Mapped) :
    let appended := (j.append pid command data commit).run m
    (appended.result.1 = .none ∧ j.full = false ∧
        appended.result.2 = { j with size := j.size + 1, lastLogicalTime := command.logicalTime }) ∨
      (appended.result.1 ≠ .none ∧ ∃ poisoned, appended.result.2 = { j with writerPoisoned := poisoned }) := by
  intro appended
  obtain ⟨-, -, hcases⟩ := append_ensures (j := j) (m := m) (P := fun _ => True) pid command data commit
    (fun _ _ _ => trivial) (fun _ _ => trivial)
  rcases hcases with ⟨hne, hr⟩ | ⟨-, -, hr⟩ | ⟨-, -, -, hr⟩ | ⟨hok, -, -, hr, -⟩
  · exact .inr ⟨(congrArg Prod.fst hr).trans_ne hne, j.writerPoisoned, congrArg Prod.snd hr⟩
  · exact .inr ⟨(congrArg Prod.fst hr).trans_ne nofun, j.writerPoisoned, congrArg Prod.snd hr⟩
  · exact .inr ⟨(congrArg Prod.fst hr).trans_ne nofun, true, congrArg Prod.snd hr⟩
  · exact .inl ⟨congrArg Prod.fst hr, decide_eq_false (appendError_eq_none hok).2.1, congrArg Prod.snd hr⟩

/-- Every content of the file since its last synchronisation has the records of these commands, from the record `first` on. -/
def Journaled (first : Nat) (commands : List SequencedCommand) (m : Mapped) : Prop :=
  ∀ v ∈ m.versions, ∀ i (h : i < commands.length), SameRecord (recordSpan v (first + i)) (recordOf commands[i])

/-- An append keeps the records before its own. -/
theorem Journaled.append {first : Nat} {commands : List SequencedCommand} (h : Journaled first commands m)
    (hsize : j.size = first + commands.length) (pid : Nat) (command : SequencedCommand) (data commit : SyncCalls) :
    let appended := (j.append pid command data commit).run m
    Journaled first commands appended.final ∧ (appended.result.1 = .none → Journaled first (commands ++ [command]) appended.final) := by
  intro appended
  obtain ⟨-, hkept, hcases⟩ := append_ensures (j := j)
    (P := fun v => ∀ i (hi : i < commands.length), SameRecord (recordSpan v (first + i)) (recordOf commands[i]))
    pid command data commit (fun v r hv i hi => (recordSpan_splice_other v r (by omega)).trans (hv i hi)) h
  refine ⟨hkept, fun hnone v hv i hi => ?_⟩
  rw [List.length_append, List.length_singleton] at hi
  by_cases hlt : i < commands.length
  · rw [List.getElem_append_left hlt]
    exact hkept v hv i hlt
  · obtain rfl : i = commands.length := by omega
    rw [List.getElem_concat_length rfl, ← hsize]
    rcases hcases with ⟨hne, hr⟩ | ⟨-, -, hr⟩ | ⟨-, -, -, hr⟩ | ⟨-, -, -, -, hrecord⟩
    · exact absurd ((congrArg Prod.fst hr).symm.trans hnone) hne
    · exact absurd ((congrArg Prod.fst hr).symm.trans hnone) nofun
    · exact absurd ((congrArg Prod.fst hr).symm.trans hnone) nofun
    · exact hrecord v hv

/-- Whatever survives a crash, the records are found. -/
theorem Journaled.survives {first capacity : Nat} {commands : List SequencedCommand} {image : Buffer} (h : Journaled first commands m)
    (hvalid : ∀ c ∈ commands, validateCommandPayload c.payload = .none) (hi : m.Survives (commitMarkers capacity) image) (i : Nat)
    (hlt : i < commands.length) : decodeRecord (recordSpan image (first + i)) = .ok commands[i] := by
  have hsame : SameRecord (recordSpan image (first + i)) (recordOf commands[i]) := by
    intro k hk
    exact hi.eq fun v hv => h v hv i hlt k hk
  rw [hsame.decodeRecord, decodeRecord_recordOf _ (hvalid _ (List.getElem_mem hlt))]

end MmapJournal

/-! ## The engine -/

namespace SequencedEngine

variable {e e' : SequencedEngine} {command : SequencedCommand} {cfg : BookConfig} {state : TradingState} {size : Nat}

/-- The number of the next command, `2 ^ 64` when there is none. -/
def next (e : SequencedEngine) : Nat := nextNumber e.nextSequence e.sequenceExhausted

/-- Unless all are used up, the next number is stored. -/
theorem next_eq (h : e.sequenceExhausted = false) : e.next = e.nextSequence.toNat := by
  rw [next, h]
  rfl

/-- An engine that waits for a command admits it. -/
theorem commandStatus_applied (hlive : e.sequenceExhausted = false) (hvalid : validateCommandPayload command.payload = .none)
    (hsequence : command.sequence = e.nextSequence) (htime : e.lastLogicalTime ≤ command.logicalTime) :
    e.commandStatus command = .applied := by
  unfold commandStatus
  rw [if_neg (by rw [hlive]; exact nofun), if_neg (not_not.mpr hvalid), if_neg (not_not.mpr hsequence), if_neg (UInt64.not_lt.mpr htime)]

/-- An engine whose numbers are used up refuses every command. -/
theorem apply_exhausted (hnext : e.next = 2 ^ 64) (command : SequencedCommand) (size : Nat) :
    e.apply command size = pure (.sequenceExhausted, [], [], e) := by
  have hexhausted : e.sequenceExhausted = true := by
    rw [← Bool.not_eq_false, ← show nextNumber e.nextSequence e.sequenceExhausted < 2 ^ 64 ↔ _ from nextNumber_lt_iff]
    exact Nat.not_lt.mpr hnext.ge
  have hstatus : e.commandStatus command = .sequenceExhausted := by
    unfold commandStatus
    rw [if_pos hexhausted]
  unfold apply
  rw [hstatus]
  rfl

/-- A reachable engine finds what a command needs. -/
theorem Reached.exists_required (h : e.Reached cfg state) (payload : CommandPayload) (tag : CommandType) :
    ∃ required, (e.requiredEventCapacity payload tag).Returns required := by
  obtain ⟨L, hrepr, -⟩ := h.ladder
  cases tag with
  | submitLimit => exact ⟨_, (Comp.returns_bind _ _ _).mpr ⟨_, hrepr.preflightLimit _ _ _ _, (Comp.returns_pure _ _).mpr rfl⟩⟩
  | submitIceberg => exact ⟨_, (Comp.returns_bind _ _ _).mpr ⟨_, hrepr.preflightLimit _ _ _ _, (Comp.returns_pure _ _).mpr rfl⟩⟩
  | _ => exact ⟨_, (Comp.returns_pure _ _).mpr rfl⟩

/-- A command that is admitted is applied, with the events of its operation, as soon as its operation returns. -/
theorem Reached.apply_iff (h : e.Reached cfg state) (hstatus : e.commandStatus command = .applied) (hsize : e.maximumEventCapacity ≤ size)
    {status : ApplyStatus} {events : List EngineEvent} {trades : List Trade} :
    (e.apply command size).Returns (status, events, trades, e') ↔
      status = .applied ∧ ∃ tag, CommandType.ofRaw command.payload.tag = some tag ∧ (e.perform command tag).Returns (events, trades, e') := by
  obtain ⟨tag, htag⟩ := exists_tag (commandStatus_eq_applied hstatus).2.1
  obtain ⟨required, hrequired⟩ := h.exists_required command.payload tag
  have hfits := Nat.le_trans (h.required_le hrequired) hsize
  unfold SequencedEngine.apply
  rw [if_neg (not_not.mpr hstatus), htag]
  simp only [Comp.returns_bind, Option.some.injEq, exists_eq_left']
  constructor
  · rintro ⟨required', hrequired', hr⟩
    obtain rfl := Comp.Returns.unique hrequired' hrequired
    rw [if_neg (Nat.not_lt.mpr hfits), Comp.returns_bind] at hr
    obtain ⟨⟨events', trades', e''⟩, hperform, hr⟩ := hr
    rw [Comp.returns_pure] at hr
    cases hr
    exact ⟨rfl, hperform⟩
  · rintro ⟨rfl, hperform⟩
    refine ⟨required, hrequired, ?_⟩
    rw [if_neg (Nat.not_lt.mpr hfits), Comp.returns_bind]
    exact ⟨_, hperform, (Comp.returns_pure _ _).mpr rfl⟩

end SequencedEngine

/-- A sequencer, a journal and an engine that agree on the next number and the last time. -/
structure InStep (s : Sequencer) (j : MmapJournal) (e : SequencedEngine) : Prop where
  journal : j.next = s.next
  engine : e.next = s.next
  journalTime : j.lastLogicalTime = s.lastLogicalTime
  engineTime : e.lastLogicalTime = s.lastLogicalTime

end MatchingEngine

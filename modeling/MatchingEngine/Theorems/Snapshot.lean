import MatchingEngine.Lemmas.Restore
import MatchingEngine.Theorems.Checker
import MatchingEngine.Theorems.SnapshotFile

/-!
# Snapshots are read back

What `decode` accepts, of any version, is encoded in the newest version and read back as the same engine.
-/

namespace MatchingEngine

open Buffer Comp Function

section Accepted

variable {h : SnapshotHeader} {b : Buffer} {engine : SequencedEngine} {book : OrderBook}

/-- A slot that was restored is restored from its encoding, to the same book. -/
theorem restoreSlot_encoded {size : Nat} (hf : h.Formed b size) (hh : SnapshotHeader.read b = h) (hs : h.Sane) (he : h.engine = some engine)
    (hok : restoreSlots h b engine.orderBook = .ok book) {i : Nat} (hi : i < h.capacity) {st st' : Nat × OrderBook}
    (hstep : restoreSlot h b st i = .ok st') :
    restoreSlot { h with version := kSnapshotFormatVersion } (ofList (snapshotBytes { engine with orderBook := book } h.point)) st i = .ok st' := by
  have hr := restored_of_ok hs he hok
  have hfits : ({ engine with orderBook := book } : SequencedEngine).orderBook.Fits := fits_of_ok hh hs he hok
  have hcap : i < book.arena.capacity := (hr.settings_eq he).2.2.2.2.2.2.1 ▸ hi
  have hheader := header_of_ok hf hs he hok
  have hrecord : SnapshotHeader.record { h with version := kSnapshotFormatVersion }
      (ofList (snapshotBytes { engine with orderBook := book } h.point)) i = h.record b i := by
    rw [← hheader, SequencedEngine.header_record hfits hcap]
    exact hr.slots i hi
  obtain ⟨hzero, hzero'⟩ := @SequencedEngine.header_allZero { engine with orderBook := book } h.point i hcap
  rw [hheader] at hzero hzero'
  obtain ⟨hle, -, hgen, hcase⟩ := restoreSlot_eq_ok.mp hstep
  refine restoreSlot_eq_ok.mpr ?_
  rw [hrecord]
  refine ⟨hle, hzero, hgen, ?_⟩
  rcases hcase with ⟨hlive, -, hst⟩ | ⟨hlive, hcount, hlive'⟩
  · refine .inl ⟨hlive, hzero' ?_, hst⟩
    have := book.slotRecord_live i
    rw [hr.slots i hi, hlive] at this
    by_contra hne
    rw [if_pos (Bool.eq_true_of_not_eq_false hne)] at this
    cases this
  · refine .inr ⟨hlive, hcount, OrderBook.restoreLive_eq_ok.mpr ?_⟩
    rcases OrderBook.restoreLive_eq_ok.mp hlive' with ⟨hd, hvalid, hrest⟩ | ⟨hd, hvalid, hrest⟩
    · exact .inl ⟨hd, SlotRecord.invalidStop_newest hvalid, hrest⟩
    · exact .inr ⟨hd, SlotRecord.invalidResting_newest rfl hvalid, hrest⟩

/-- What was accepted belongs to its point. -/
theorem SnapshotHeader.engine_misses (hs : h.Sane) (he : h.engine = some engine) : engine.misses h.point = false := by
  have hseq := hs.sequence
  obtain ⟨cfg, fresh, -, -, -, -, -, -, -, -, rfl⟩ := engine_eq_some he
  simp only [badSequenceState, decide_eq_false_iff_not, not_or, not_and, not_not] at hseq
  obtain ⟨-, hle, htime, hopen, hexhausted⟩ := hseq
  simp only [SequencedEngine.misses, decide_eq_false_iff_not, not_or, not_and, not_not, Bool.not_eq_true', decide_eq_true_eq]
  refine ⟨fun hne => ?_, fun hx => hexhausted hx, htime⟩
  exact hopen (by omega)

end Accepted

/-- The marks are not encoded. -/
theorem snapshotBytes_withMarks (engine : SequencedEngine) (book : OrderBook) (m : Nat → Nat) (e : Nat) (point : SnapshotPoint) :
    snapshotBytes { engine with orderBook := book.withMarks m e } point = snapshotBytes { engine with orderBook := book } point := rfl

/-- A valid book at the engine's own point is encoded, and only its marks change. -/
theorem encodeSnapshot_ok {engine : SequencedEngine} {point : SnapshotPoint} (ht : engine.orderBook.Typed) (hvalid : engine.orderBook.Valid)
    (hcap : engine.orderBook.arena.capacity ≤ kMaximumSnapshotSlots) (hmisses : engine.misses point = false) :
    ∃ m e, (encodeSnapshot engine point).Returns
      (.ok (snapshotBytes engine point), { engine with orderBook := engine.orderBook.withMarks m e }) := by
  obtain ⟨result, book, hcheck, -, -, hiff⟩ := checkInvariants_decides engine.orderBook ht
  obtain ⟨m, e, rfl, -⟩ := OrderBook.checkInvariants_marked (Nat.le_refl _) ht.marks hcheck
  refine ⟨m, e, encodeSnapshot_returns.mpr ?_⟩
  rw [if_neg (Nat.not_lt.mpr hcap)]
  refine ⟨result, _, hcheck, rfl, ?_⟩
  rw [if_neg]
  · rfl
  · rintro (hne | hm)
    · exact hne (hiff.mpr hvalid)
    · exact absurd hm (Bool.eq_false_iff.mp hmisses)

/-- The version of a header decides how it is read, and nothing else. -/
theorem SnapshotHeader.engine_version (h : SnapshotHeader) (version : Nat) : SnapshotHeader.engine { h with version } = h.engine := rfl

theorem concludeDecode_version (h : SnapshotHeader) (version : Nat) (engine : SequencedEngine) (book : OrderBook) :
    concludeDecode { h with version } engine book = concludeDecode h engine book := rfl

/-- The header that is read from the encoding of what was accepted is let through. -/
theorem fault_encoded {h : SnapshotHeader} {b : Buffer} {size : Nat} {engine : SequencedEngine} {book : OrderBook} (hf : h.Formed b size)
    (hh : SnapshotHeader.read b = h) (hs : h.Sane) (he : h.engine = some engine) (hok : restoreSlots h b engine.orderBook = .ok book) :
    SnapshotHeader.read (ofList (snapshotBytes { engine with orderBook := book } h.point)) = { h with version := kSnapshotFormatVersion } ∧
      SnapshotHeader.fault { h with version := kSnapshotFormatVersion } (ofList (snapshotBytes { engine with orderBook := book } h.point))
        (snapshotBytes { engine with orderBook := book } h.point).length = none := by
  have hfits : ({ engine with orderBook := book } : SequencedEngine).orderBook.Fits := fits_of_ok hh hs he hok
  have hheader := header_of_ok hf hs he hok
  refine ⟨(read_header hfits).trans hheader, SnapshotHeader.fault_eq_none.mpr ⟨?_, ?_⟩⟩
  · rw [← hheader]
    exact SequencedEngine.header_formed hfits
  · exact ⟨hs.capacity, hs.ticks_pos, hs.ticks_le, hs.liveCount, hs.configuration, hs.sequence⟩

/-- What `decode` has accepted: the marks apart, the engine it read, which is encoded. -/
structure Accepted (bytes : List UInt8) (s : DecodedSnapshot) (h : SnapshotHeader) (engine : SequencedEngine) (book : OrderBook) : Prop where
  read : SnapshotHeader.read (ofList bytes) = h
  formed : h.Formed (ofList bytes) bytes.length
  sane : h.Sane
  start : h.engine = some engine
  restored : restoreSlots h (ofList bytes) engine.orderBook = .ok book
  concluded : (concludeDecode h engine book).Returns (.ok s)
  decoded : ∃ m e, s = ⟨{ engine with orderBook := book.withMarks m e }, h.point⟩
  encoded : ∃ engine', (encodeSnapshot s.engine s.point).Returns (.ok (snapshotBytes { engine with orderBook := book } h.point), engine')

/-- What is decoded has been accepted. The marks apart, the check has left the book as it was restored, so that it finds nothing again. -/
theorem accepted {bytes : List UInt8} {s : DecodedSnapshot} (hdecoded : (decodeSnapshot bytes).Returns (.ok s)) :
    ∃ h engine book, Accepted bytes s h engine book := by
  obtain ⟨hfault, engine, book, he, hok, hconcluded⟩ := (decodeSnapshot_returns rfl).mp hdecoded
  generalize hh : SnapshotHeader.read (ofList bytes) = h at hfault he hok hconcluded
  obtain ⟨hf, hs⟩ := SnapshotHeader.fault_eq_none.mp hfault
  obtain ⟨-, result, book', hcheck, hv, hs'⟩ := concludeDecode_returns.mp hconcluded
  have ht := typed_of_ok hs he hok
  have hcap : book.arena.capacity = h.capacity := ((restored_of_ok hs he hok).settings_eq he).2.2.2.2.2.2.1
  obtain ⟨m, e, rfl, hm⟩ := OrderBook.checkInvariants_marked (Nat.le_refl _) ht.marks hcheck
  obtain ⟨stops, queues, hgraph⟩ := OrderBook.checkInvariants_sound ht hcheck hv
  have hmisses := SnapshotHeader.engine_misses hs he
  have hle : book.arena.capacity ≤ kMaximumSnapshotSlots := by
    rw [hcap]
    exact hs.capacity
  obtain ⟨m', e', hencoded⟩ := @encodeSnapshot_ok { engine with orderBook := book.withMarks m e } h.point (ht.withMarks hm)
    ⟨stops, queues, hgraph.withMarks⟩ hle hmisses
  rw [snapshotBytes_withMarks] at hencoded
  exact ⟨h, engine, book, hh, hf, hs, he, hok, hconcluded, ⟨m, e, hs'⟩, _, by rw [hs']; exact hencoded⟩

/-- What `decode` accepts, whatever its version, `encode` takes; the encoding is in the newest version, and `decode` reads from it the same
engine at the same point. -/
theorem decode_encode_decode {bytes : List UInt8} {s : DecodedSnapshot} (hdecoded : (decodeSnapshot bytes).Returns (.ok s)) :
    ∃ bytes' engine', (encodeSnapshot s.engine s.point).Returns (.ok bytes', engine') ∧
      (SnapshotHeader.read (ofList bytes')).version = kSnapshotFormatVersion ∧ (decodeSnapshot bytes').Returns (.ok s) := by
  obtain ⟨h, engine, book, ha⟩ := accepted hdecoded
  obtain ⟨engine', hencoded⟩ := ha.encoded
  obtain ⟨hread, hfault⟩ := fault_encoded ha.formed ha.read ha.sane ha.start ha.restored
  have hok : restoreSlots { h with version := kSnapshotFormatVersion } (ofList (snapshotBytes { engine with orderBook := book } h.point))
      engine.orderBook = .ok book :=
    restoreSlots_eq_ok.mpr (Rounds.follows (fun i hi st st' => restoreSlot_encoded ha.formed ha.read ha.sane ha.start ha.restored hi)
      (restoreSlots_eq_ok.mp ha.restored))
  have hconcluded : (concludeDecode { h with version := kSnapshotFormatVersion } engine book).Returns (.ok s) := by
    rw [concludeDecode_version]
    exact ha.concluded
  exact ⟨_, engine', hencoded, by rw [hread],
    (decodeSnapshot_returns hread).mpr ⟨hfault, engine, book, (h.engine_version _).trans ha.start, hok, hconcluded⟩⟩

/-- A snapshot of version 1, of a book with one slot, in which an order rests. -/
def legacySnapshot : List UInt8 :=
  let content := zeros.writeFields
    (kMagic.mapIdx (fun index byte => (⟨index, 1, byte.toNat⟩ : Field)) ++
      [⟨8, 4, 1⟩, ⟨12, 4, kLegacySnapshotHeaderSize⟩, ⟨16, 4, 48⟩, ⟨24, 8, 160⟩, ⟨32, 8, 100⟩, ⟨40, 4, 2⟩, ⟨44, 4, 5⟩, ⟨48, 4, 1⟩, ⟨52, 4, 1⟩,
        ⟨56, 4, kInvalidIndex⟩, ⟨64, 8, 2⟩, ⟨72, 8, 7⟩, ⟨80, 8, 1⟩, ⟨88, 8, 7⟩, ⟨112, 4, 1⟩, ⟨116, 4, kInvalidIndex⟩, ⟨120, 1, 1⟩, ⟨124, 8, 9⟩,
        ⟨132, 8, 3⟩, ⟨140, 4, kInvalidIndex⟩, ⟨144, 4, kInvalidIndex⟩])
  (content.writeU32 kChecksumOffset (snapshotCrc content 160)).slice 0 160

/-- Such a snapshot is accepted. -/
theorem legacySnapshot_decodes : ∃ s, (decodeSnapshot legacySnapshot).Returns (.ok s) := by
  have hsome : ((decodeSnapshot legacySnapshot).run 20).any Except.isOk = true := by decide +kernel
  rw [Option.any_eq_true] at hsome
  obtain ⟨r, hr, hok⟩ := hsome
  cases r with
  | error error => cases hok
  | ok s => exact ⟨s, 20, hr⟩

/-- A snapshot of version 1 is migrated. -/
theorem decode_encode_decode_legacy : ∃ s, (decodeSnapshot legacySnapshot).Returns (.ok s) ∧
    ∃ bytes' engine', (encodeSnapshot s.engine s.point).Returns (.ok bytes', engine') ∧
      (SnapshotHeader.read (ofList bytes')).version = kSnapshotFormatVersion ∧ (decodeSnapshot bytes').Returns (.ok s) := by
  obtain ⟨s, hs⟩ := legacySnapshot_decodes
  exact ⟨s, hs, decode_encode_decode hs⟩

/-! ## The newest version -/

section Canonical

variable {h : SnapshotHeader} {b : Buffer} {engine : SequencedEngine} {book : OrderBook}

/-- Each field of the header is read from what was accepted in the newest version. -/
theorem headerFields_read {point : SnapshotPoint} {size : Nat} (hf : h.Formed b size) (hh : SnapshotHeader.read b = h)
    (hheader : engine.header point = h) : ∀ f ∈ snapshotHeaderFields engine point (snapshotSize engine.orderBook.arena.capacity),
      b.readLE f.offset f.width = f.value := by
  have hmagic : ∀ f ∈ kMagic.mapIdx (fun index byte => (⟨index, 1, byte.toNat⟩ : Field)), b.readLE f.offset f.width = f.value := by
    have hbytes := (slice_eq_iff (by decide)).mp hf.magic
    have hall : ∀ f ∈ kMagic.mapIdx (fun index byte => (⟨index, 1, byte.toNat⟩ : Field)),
        f.offset < 8 ∧ f.width = 1 ∧ (ofList kMagic f.offset).toNat = f.value := by decide
    intro f hfm
    obtain ⟨hlt, hwidth, hvalue⟩ := hall f hfm
    rw [hwidth, readLE, readLE, Nat.zero_add, Nat.pow_zero, Nat.mul_one, Nat.add_zero, hbytes _ hlt, hvalue]
  have hread := hh.trans hheader.symm
  have hversion : b.readLE 8 4 = kSnapshotFormatVersion := congrArg SnapshotHeader.version hread
  have hform := hf.malformed
  have hdeclared : b.readLE 24 8 = snapshotSize engine.orderBook.arena.capacity := by
    rw [hf.declared, ← hheader]
    rfl
  rw [← hheader] at hform
  simp only [SnapshotHeader.malformed, decide_eq_false_iff_not, not_or, not_and, not_not] at hform
  obtain ⟨hheaderSize, hslotSize, -, -, -, hflag, -, -⟩ := hform
  have hflag' := hflag (by decide : 4 ≤ kSnapshotFormatVersion)
  have hword : ∀ {offset : Nat} {value : UInt64}, b.readU64 offset = value → b.readLE offset 8 = value.toNat := fun {offset value} h => by
    rw [← h, readU64_toNat]
  have hpoint : b.readU64 80 = point.sequence ∧ b.readU64 88 = point.logicalTime := by
    have : (SnapshotHeader.read b).point = point := congrArg SnapshotHeader.point hread
    rw [← this]
    exact ⟨rfl, rfl⟩
  unfold SnapshotHeader.read SequencedEngine.header at hread
  simp only [hversion, SnapshotHeader.mk.injEq] at hread
  obtain ⟨-, hpolicy, hmode, hminimum, hstate, hlowest, hticks, hquantity, hcapacity, hlive, hfree, hexhausted, hnext, htime, -, hprice⟩ := hread
  have hlowest' : b.readLE 32 8 = toUnsigned64 engine.orderBook.cfg.domain.minimum := by
    rw [← hlowest, toUnsigned64_toSigned64 (readLE_lt b 32 8)]
  have hlast : b.readLE 100 8 = toUnsigned64 (engine.orderBook.lastExecutionPrice.getD 0) ∧
      b.readLE 108 4 = if engine.orderBook.lastExecutionPrice.isSome then 1 else 0 := by
    rw [← hprice]
    obtain hzero | hone : b.readLE 108 4 = 0 ∨ b.readLE 108 4 = 1 := by omega
    · simp [hzero, hflag'.2 hzero, toUnsigned64]
    · have hge : 4 ≤ kSnapshotFormatVersion := by decide
      rw [if_pos ⟨hge, hone⟩, Option.getD_some, toUnsigned64_toSigned64 (readLE_lt b 100 8), Option.isSome_some, hone]
      exact ⟨rfl, rfl⟩
  unfold snapshotHeaderFields
  simp only [List.forall_mem_append, List.forall_mem_cons, List.not_mem_nil, false_imp_iff, implies_true, and_true]
  exact ⟨hmagic, hversion, hheaderSize, hslotSize, hpolicy, hdeclared, hlowest', hticks, hquantity, hcapacity, hlive, hfree, hexhausted,
    hword hnext, hword htime, hword hpoint.1, hword hpoint.2, hlast.1, hlast.2, hmode, hminimum, hstate⟩

/-- Each field of a slot is read from what was accepted in the newest version. -/
theorem slotFields_read {i : Nat} (hrecord : SlotRecord.read kSnapshotFormatVersion b (snapshotSlotOffset i) = book.slotRecord i) :
    ∀ f ∈ snapshotSlotFields book i, b.readLE f.offset f.width = f.value := by
  unfold SlotRecord.read at hrecord
  dsimp only at hrecord
  unfold snapshotSlotFields
  cases hlive : (book.arena.slots i).live with
  | false =>
    simp only [OrderBook.slotRecord, hlive, SlotRecord.mk.injEq, if_false, Bool.false_eq_true] at hrecord ⊢
    simp only [List.append_nil, List.forall_mem_cons, List.not_mem_nil, false_imp_iff, implies_true, and_true]
    exact ⟨hrecord.1, hrecord.2.1, hrecord.2.2.1⟩
  | true =>
    have hversion : ¬kSnapshotFormatVersion = 1 ∧ ¬kSnapshotFormatVersion < 3 ∧ ¬kSnapshotFormatVersion < 4 := by decide
    simp only [OrderBook.slotRecord, hlive, if_true, if_neg hversion.1, if_neg hversion.2.1, if_neg hversion.2.2, SlotRecord.mk.injEq] at hrecord ⊢
    obtain ⟨h1, h2, h3, horder, h4, h5, h6, h7, h8, h9, h10⟩ := hrecord
    simp only [List.forall_mem_append, List.forall_mem_cons, List.not_mem_nil, false_imp_iff, implies_true, and_true]
    exact ⟨⟨h1, h2, h3⟩, congrArg Order.id horder, congrArg Order.remaining horder, congrArg Order.prevIndex horder,
      congrArg Order.nextIndex horder, congrArg Order.encodedLevelSide horder, congrArg Order.reservedFlags horder, h4, h5, h6,
      by rw [← h7, toUnsigned64_toSigned64 (readLE_lt _ _ 8)], by rw [← h8, toUnsigned64_toSigned64 (readLE_lt _ _ 8)], h9, h10⟩

/-- What a slot of accepted bytes has outside its fields is zero, but for the reserved bytes of a live one. -/
theorem slotBytes_zero (hs : h.Sane) (he : h.engine = some engine) (hok : restoreSlots h b engine.orderBook = .ok book)
    (hversion : h.version = kSnapshotFormatVersion) {i p : Nat} (hi : i < h.capacity) (hlt : p < kSnapshotSlotSize)
    (hp : 9 ≤ p ∧ p < 12 ∨ (book.arena.slots i).live = false ∧ 12 ≤ p) : b (snapshotSlotOffset i + p) = 0 := by
  have hoffset : h.slotOffset i = snapshotSlotOffset i ∧ h.slotSize = kSnapshotSlotSize := by
    simp only [SnapshotHeader.slotOffset, SnapshotHeader.headerSize, SnapshotHeader.slotSize, hversion]
    exact ⟨rfl, rfl⟩
  obtain ⟨st, st', hstep⟩ := Rounds.each (restoreSlots_eq_ok.mp hok) hi
  obtain ⟨-, hreserved, -, hcase⟩ := restoreSlot_eq_ok.mp hstep
  rw [hoffset.1, hoffset.2] at hcase
  rw [hoffset.1] at hreserved
  rcases hp with hp | ⟨hdead, hp⟩
  · have := allZero_iff.mp hreserved (p - 9) (by omega)
    rwa [show snapshotSlotOffset i + 9 + (p - 9) = snapshotSlotOffset i + p by omega] at this
  · have hlive := book.slotRecord_live i
    rw [(restored_of_ok hs he hok).slots i hi, hdead] at hlive
    rcases hcase with ⟨-, hzero, -⟩ | ⟨hone, -⟩
    · have := allZero_iff.mp hzero (p - 12) (by omega)
      rwa [show snapshotSlotOffset i + 12 + (p - 12) = snapshotSlotOffset i + p by omega] at this
    · rw [hone] at hlive
      cases hlive

/-- The bytes before the checksum are those that were accepted. -/
theorem snapshotContent_eq_accepted {size : Nat} (hf : h.Formed b size) (hh : SnapshotHeader.read b = h) (hs : h.Sane)
    (he : h.engine = some engine) (hok : restoreSlots h b engine.orderBook = .ok book) (hversion : h.version = kSnapshotFormatVersion)
    (hreserved : ∀ index < book.arena.capacity, (book.arena.slots index).live = true → b.allZero (snapshotSlotOffset index + 44) 4 = true)
    {i : Nat} (hi : i < snapshotSize book.arena.capacity) (hsum : i < kChecksumOffset ∨ kChecksumOffset + 4 ≤ i) :
    snapshotContent { engine with orderBook := book } h.point (snapshotSize book.arena.capacity) i = b i := by
  have hr := restored_of_ok hs he hok
  have hcap : book.arena.capacity = h.capacity := (hr.settings_eq he).2.2.2.2.2.2.1
  have hheader : SequencedEngine.header { engine with orderBook := book } h.point = h := by
    rw [header_of_ok hf hs he hok, ← hversion]
  have hoffset : ∀ i, h.slotOffset i = snapshotSlotOffset i := by
    intro i
    simp only [SnapshotHeader.slotOffset, SnapshotHeader.headerSize, SnapshotHeader.slotSize, hversion]
    rfl
  rw [snapshotContent_eq]
  refine writeFields_of_reads (fun f hfield => ?_) ?_
  · rcases List.mem_append.mp hfield with hfield | hfield
    · exact headerFields_read hf hh hheader f hfield
    · obtain ⟨index, hindex, hfield⟩ := List.mem_flatMap.mp hfield
      have hrecord := hr.slots index (hcap ▸ List.mem_range.mp hindex)
      rw [SnapshotHeader.record, hoffset, hversion] at hrecord
      exact slotFields_read hrecord.symm f hfield
  · by_cases hhead : i < kSnapshotHeaderSize
    · rcases headerField_covered hhead with ⟨f, hfield, hcov⟩ | hcov
      · exact .inr ⟨f, headerField_mem hfield, hcov⟩
      · omega
    · obtain ⟨index, p, hp, hindex, rfl⟩ : ∃ index p, p < kSnapshotSlotSize ∧ index < book.arena.capacity ∧ i = snapshotSlotOffset index + p := by
        have hpos : 0 < kSnapshotSlotSize := by decide
        have hdiv := Nat.div_add_mod (i - kSnapshotHeaderSize) kSnapshotSlotSize
        refine ⟨(i - kSnapshotHeaderSize) / kSnapshotSlotSize, (i - kSnapshotHeaderSize) % kSnapshotSlotSize, Nat.mod_lt _ hpos, ?_, ?_⟩
        · rw [Nat.div_lt_iff_lt_mul hpos]
          unfold snapshotSize at hi
          omega
        · unfold snapshotSlotOffset
          rw [Nat.mul_comm]
          omega
      rcases slotField_covered hp with ⟨f, hfield, hcov⟩ | hp' | ⟨hlive, hp'⟩ | hp'
      · exact .inr ⟨f, slotField_mem hindex hfield, hcov⟩
      · exact .inl (slotBytes_zero hs he hok hversion (hcap ▸ hindex) hp (.inl hp')).symm
      · have := allZero_iff.mp (hreserved index hindex hlive) (p - 44) (by omega)
        rw [show snapshotSlotOffset index + 44 + (p - 44) = snapshotSlotOffset index + p by omega] at this
        exact .inl this.symm
      · exact .inl (slotBytes_zero hs he hok hversion (hcap ▸ hindex) hp (.inr hp')).symm

end Canonical

/-- Of the snapshots of the newest version that `decode` accepts, `encode` gives back those whose live slots have zeros in their reserved
bytes, and no others. -/
theorem encode_decode_newest {bytes : List UInt8} {s : DecodedSnapshot} (hdecoded : (decodeSnapshot bytes).Returns (.ok s))
    (hversion : (SnapshotHeader.read (ofList bytes)).version = kSnapshotFormatVersion) :
    ∃ bytes' engine', (encodeSnapshot s.engine s.point).Returns (.ok bytes', engine') ∧
      (bytes' = bytes ↔ ∀ index < s.engine.orderBook.arena.capacity, (s.engine.orderBook.arena.slots index).live = true →
        (ofList bytes).allZero (snapshotSlotOffset index + 44) 4 = true) := by
  obtain ⟨h, engine, book, ha⟩ := accepted hdecoded
  obtain ⟨engine', hencoded⟩ := ha.encoded
  obtain ⟨m, e, hs⟩ := ha.decoded
  have hversion' : h.version = kSnapshotFormatVersion := ha.read ▸ hversion
  have hcap : book.arena.capacity = h.capacity := ((restored_of_ok ha.sane ha.start ha.restored).settings_eq ha.start).2.2.2.2.2.2.1
  have hlength : bytes.length = snapshotSize book.arena.capacity := by
    have hexpected : (SequencedEngine.header { engine with orderBook := book } h.point).expected = snapshotSize book.arena.capacity := rfl
    rw [ha.formed.length, ← hexpected, header_of_ok ha.formed ha.sane ha.start ha.restored, ← hversion']
  rw [hs]
  refine ⟨_, engine', hs ▸ hencoded, fun heq index hindex hlive => allZero_iff.mpr fun k hk => ?_, fun hreserved => ?_⟩
  · have hlt : 44 + k < kSnapshotSlotSize := by
      unfold kSnapshotSlotSize
      omega
    rw [← heq, Nat.add_assoc]
    exact slotByte_zero hindex hlt (slotField_covers hlt (.inr (.inl ⟨by omega, by omega⟩)))
  · have hcontent := fun {i : Nat} => @snapshotContent_eq_accepted h (ofList bytes) engine book _ ha.formed ha.read ha.sane ha.start ha.restored
      hversion' hreserved i
    unfold snapshotBytes
    refine (slice_eq_iff hlength).mpr fun i hi => writeU32_copy ?_ fun hsum => hcontent hi (by omega)
    rw [← ha.formed.checksum, hlength]
    exact (snapshotCrc_congr fun i hi hsum => hcontent hi hsum).symm

/-- A snapshot of version 6, of a book with one slot, in which an order rests; the reserved bytes of the slot are not zero. -/
def unreservedSnapshot : List UInt8 :=
  let content := zeros.writeFields
    (kMagic.mapIdx (fun index byte => (⟨index, 1, byte.toNat⟩ : Field)) ++
      [⟨8, 4, 6⟩, ⟨12, 4, kSnapshotHeaderSize⟩, ⟨16, 4, kSnapshotSlotSize⟩, ⟨24, 8, 220⟩, ⟨32, 8, 100⟩, ⟨40, 4, 2⟩, ⟨44, 4, 5⟩, ⟨48, 4, 1⟩,
        ⟨52, 4, 1⟩, ⟨56, 4, kInvalidIndex⟩, ⟨64, 8, 2⟩, ⟨72, 8, 7⟩, ⟨80, 8, 1⟩, ⟨88, 8, 7⟩, ⟨124, 4, 1⟩, ⟨128, 4, kInvalidIndex⟩, ⟨132, 1, 1⟩,
        ⟨136, 8, 9⟩, ⟨144, 8, 3⟩, ⟨152, 4, kInvalidIndex⟩, ⟨156, 4, kInvalidIndex⟩, ⟨168, 4, 1⟩, ⟨180, 8, 3⟩, ⟨188, 8, 3⟩])
  (content.writeU32 kChecksumOffset (snapshotCrc content 220)).slice 0 220

/-- Such a snapshot is accepted, and encoded to other bytes. -/
theorem encode_decode_newest_unreserved : ∃ s, (decodeSnapshot unreservedSnapshot).Returns (.ok s) ∧
    ∃ bytes' engine', (encodeSnapshot s.engine s.point).Returns (.ok bytes', engine') ∧
      (bytes' = unreservedSnapshot ↔ ∀ index < s.engine.orderBook.arena.capacity, (s.engine.orderBook.arena.slots index).live = true →
        (ofList unreservedSnapshot).allZero (snapshotSlotOffset index + 44) 4 = true) := by
  have hsome : ((decodeSnapshot unreservedSnapshot).run 20).any Except.isOk = true := by decide +kernel
  rw [Option.any_eq_true] at hsome
  obtain ⟨r, hr, hok⟩ := hsome
  cases r with
  | error error => cases hok
  | ok s => exact ⟨s, ⟨20, hr⟩, encode_decode_newest ⟨20, hr⟩ (by decide +kernel)⟩

end MatchingEngine

import MatchingEngine.Lemmas.Codecs

/-!
# The codecs are exact

Commands, as payloads, as frames and as journal records, and the three output formats: what an encoder writes is decoded to the same
value, and what a decoder accepts is what the encoder writes.
-/

namespace MatchingEngine

/-! ## Commands -/

/-- The bits of a 64-bit value kept in the two halves of a handle. -/
theorem handleBits_split {p : CommandPayload} {v : UInt64} (hi : p.handleIndex = v.toUInt32) (hg : p.handleGeneration = (v >>> 32).toUInt32) :
    p.handleBits = v := by
  have hlt := v.toNat_lt
  apply UInt64.toNat_inj.mp
  rw [CommandPayload.handleBits, hi, hg, UInt64.toNat_toUInt32, UInt64.toNat_toUInt32, UInt64.toNat_shiftRight, UInt64.toNat_ofNat']
  have h32 : UInt64.toNat 32 % 64 = 32 := rfl
  rw [h32, Nat.shiftRight_eq_div_pow]
  omega

/-- A command that a journal accepts but for its payload is refused exactly when validation refuses the payload. -/
theorem append_invalidCommand_iff {j : MmapJournal} {pid : Nat} {c : SequencedCommand} (h : j.appendError pid c = .none)
    (p : CommandPayload) (data commit : MmapJournal.SyncCalls) (t : Mapped) :
    ((j.append pid { c with payload := p } data commit).run t).result.1 = .invalidCommand ↔ validateCommandPayload p ≠ .none := by
  have hsame : j.appendError pid { c with payload := p } = if validateCommandPayload p ≠ .none then .invalidCommand else .none := by
    unfold MmapJournal.appendError at h ⊢
    repeat' split at h
    any_goals cases h
    rename_i h1 h2 h3 h4 h5 h6 h7
    rw [if_neg h1, if_neg h2, if_neg h3, if_neg h4, if_neg h6, if_neg h7]
  by_cases hvalid : validateCommandPayload p = .none
  · have hensures : (j.append pid { c with payload := p } data commit).Ensures t (fun _ => True) fun r _ => r.1 ≠ .invalidCommand := by
      rw [MmapJournal.append, if_neg (by rw [hsame, if_neg (not_not.mpr hvalid)]; exact not_not.mpr rfl)]
      simp only [Prog.ensures_bind]
      refine (writeRecord_ensures trivial (fun _ _ _ _ => trivial) hvalid).mono (fun _ => id) ?_
      rintro _ u ⟨rfl, -, -⟩
      simp only [Prog.ensures_bind, Prog.ensures_step, ne_eq, not_true_eq_false, if_false, true_and]
      split
      · exact Prog.ensures_pure.mpr (by rintro ⟨⟩)
      · refine Prog.ensures_bind.mpr (Prog.ensures_step.mpr ⟨trivial, Prog.ensures_bind.mpr (Prog.ensures_step.mpr ⟨trivial, ?_⟩)⟩)
        split
        · exact Prog.ensures_pure.mpr (by rintro ⟨⟩)
        · exact Prog.ensures_pure.mpr (by rintro ⟨⟩)
    exact ⟨fun he => absurd he hensures.2, fun hne => absurd hvalid hne⟩
  · refine iff_of_true ?_ hvalid
    rw [MmapJournal.append, hsame, if_pos hvalid, if_pos (by rintro ⟨⟩)]
    rfl

/-- The payload a factory builds from a valid side and time in force. -/
inductive CommandPayload.Built : CommandPayload → Prop where
  | submitLimit (id : UInt64) {side : UInt8} (price : Int64) (quantity : UInt64) {timeInForce : UInt8} (hs : (Side.ofRaw side).isSome)
      (ht : (TimeInForce.ofRaw timeInForce).isSome) : Built (submitLimit id side price quantity timeInForce)
  | submitMarket (id : UInt64) {side : UInt8} (quantity : UInt64) (hs : (Side.ofRaw side).isSome) : Built (submitMarket id side quantity)
  | cancel (index generation : UInt32) : Built (cancel index generation)
  | amendQuantity (index generation : UInt32) (quantity : UInt64) : Built (amendQuantity index generation quantity)
  | replace (index generation : UInt32) (price : Int64) (quantity : UInt64) : Built (replace index generation price quantity)
  | submitIceberg (id : UInt64) {side : UInt8} (price : Int64) (quantity display : UInt64) (hs : (Side.ofRaw side).isSome) :
      Built (submitIceberg id side price quantity display)
  | submitStop (id : UInt64) {side : UInt8} (trigger : Int64) (quantity : UInt64) (hs : (Side.ofRaw side).isSome) :
      Built (submitStop id side trigger quantity)
  | submitStopLimit (id : UInt64) {side : UInt8} (trigger price : Int64) (quantity : UInt64) (hs : (Side.ofRaw side).isSome) :
      Built (submitStopLimit id side trigger price quantity)
  | uncrossOpeningAuction : Built uncrossOpeningAuction

theorem CommandPayload.Built.validate {p : CommandPayload} (h : p.Built) : validateCommandPayload p = .none := by
  have key : ∀ (p : CommandPayload) (tag : CommandType), CommandType.ofRaw p.tag = some tag → p.reserved = 0 → (Side.ofRaw p.side).isSome →
      (TimeInForce.ofRaw p.timeInForce).isSome → p.canonical tag → validateCommandPayload p = .none := by
    intro p tag htag hr hs ht hc
    rw [validateCommandPayload, htag]
    dsimp only
    rw [if_neg (not_not.mpr hr), if_neg (by simpa using Option.isSome_iff_ne_none.mp hs), if_neg (by simpa using Option.isSome_iff_ne_none.mp ht),
      if_pos hc]
  cases h with
  | submitLimit id price quantity hs ht => exact key _ .submitLimit rfl rfl hs ht rfl
  | submitMarket id quantity hs => exact key _ .submitMarket rfl rfl hs rfl rfl
  | cancel index generation => exact key _ .cancel rfl rfl rfl rfl rfl
  | amendQuantity index generation quantity => exact key _ .amendQuantity rfl rfl rfl rfl rfl
  | replace index generation price quantity => exact key _ .replace rfl rfl rfl rfl rfl
  | submitIceberg id price quantity display hs => exact key _ .submitIceberg rfl rfl hs rfl rfl
  | submitStop id trigger quantity hs => exact key _ .submitStop rfl rfl hs rfl rfl
  | submitStopLimit id trigger price quantity hs => exact key _ .submitStopLimit rfl rfl hs rfl rfl
  | uncrossOpeningAuction => exact key _ .uncrossOpeningAuction rfl rfl rfl rfl rfl

/-- Commands as journal records: what `append` writes is read by `decode_record`, and a record that `decode_record` accepts is what
`append` writes for the command it holds. -/
structure ExactRecords : Prop where
  decodes : ∀ (j : MmapJournal) (pid : Nat) (c : SequencedCommand) (data commit : MmapJournal.SyncCalls) (t : Mapped),
    ((j.append pid c data commit).run t).result.1 = .none →
    decodeRecord (recordSpan ((j.append pid c data commit).run t).final.now j.size) = .ok c
  reencodes : ∀ (r : Buffer) (c : SequencedCommand), decodeRecord r = .ok c →
    ∀ (j : MmapJournal) (pid : Nat) (data commit : MmapJournal.SyncCalls) (t : Mapped),
      ((j.append pid c data commit).run t).result.1 = .none →
      ∀ i < kJournalRecordSize, recordSpan ((j.append pid c data commit).run t).final.now j.size i = r i

/-- An append that succeeds was of a payload that validation accepts. -/
theorem valid_of_append {j : MmapJournal} {pid : Nat} {c : SequencedCommand} {data commit : MmapJournal.SyncCalls} {t : Mapped}
    (h : ((j.append pid c data commit).run t).result.1 = .none) : validateCommandPayload c.payload = .none := by
  by_cases herr : j.appendError pid c = .none
  · exact (appendError_eq_none herr).2.2.1
  · rw [MmapJournal.append, if_pos herr] at h
    exact absurd h herr

theorem exactRecords : ExactRecords where
  decodes j pid c data commit t h := by
    have hvalid := valid_of_append h
    rw [(append_record h hvalid).decodeRecord, decodeRecord_recordOf _ hvalid]
  reencodes r c hr j pid data commit t h i hi := by
    obtain ⟨hvalid, hrecord⟩ := decodeRecord_ok hr
    rw [append_record h hvalid i hi, hrecord i hi]

/-- The command codecs are exact inverses over the whole format: payloads, frames and journal records; the encoders refuse exactly the
payloads that validation refuses; and the payloads of the factories validate, with the display quantity and the trigger price kept in
the handle's place recovered. -/
theorem command_codecs_exact :
    ExactCodec kEncodedCommandPayloadSize (fun p => validateCommandPayload p = .none) CommandCodecError.none encodeCommandPayload
      decodeCommandPayload ∧
    ExactCodec kEncodedCommandFrameSize (fun p => validateCommandPayload p = .none) CommandFrameError.zero encodeCommandFrame
      decodeCommandFrame ∧
    ExactRecords ∧
    (∀ p output, ((encodeCommandPayload p output kEncodedCommandPayloadSize).1 = .none ↔ validateCommandPayload p = .none) ∧
      ((encodeCommandFrame p output kEncodedCommandFrameSize).1 = .invalidPayload ↔ validateCommandPayload p ≠ .none)) ∧
    (∀ (j : MmapJournal) (pid : Nat) (c : SequencedCommand), j.appendError pid c = .none → ∀ p data commit t,
      ((j.append pid { c with payload := p } data commit).run t).result.1 = .invalidCommand ↔ validateCommandPayload p ≠ .none) ∧
    (∀ p : CommandPayload, p.Built → validateCommandPayload p = .none) ∧
    (∀ id side price quantity display,
      (CommandPayload.submitIceberg id side price quantity display).icebergDisplayQuantity = display.toNat) ∧
    (∀ id side trigger quantity, (CommandPayload.submitStop id side trigger quantity).stopTriggerPrice = trigger.toInt) ∧
    (∀ id side trigger price quantity, (CommandPayload.submitStopLimit id side trigger price quantity).stopTriggerPrice = trigger.toInt) := by
  refine ⟨commandPayload_exact, commandFrame_exact, exactRecords, fun p output => ⟨?_, ?_⟩, ?_, fun p h => h.validate, ?_, ?_, ?_⟩
  · rw [encodeCommandPayload_fst, codecError_eq_none]
  · rw [encodeCommandFrame_eq]
    by_cases h : validateCommandPayload p = .none
    · simp [h, CommandFrameError.zero]
    · simp [h]
  · intro j pid c h p data commit t
    exact append_invalidCommand_iff h p data commit t
  · intro id side price quantity display
    exact congrArg UInt64.toNat (handleBits_split rfl rfl)
  · intro id side trigger quantity
    exact congrArg (fun v => (Int64.ofUInt64 v).toInt) (handleBits_split rfl rfl)
  · intro id side trigger price quantity
    exact congrArg (fun v => (Int64.ofUInt64 v).toInt) (handleBits_split rfl rfl)

/-- A frame of a stop order whose trigger price is negative. -/
theorem command_codecs_exact_stop :
    validateCommandPayload (.submitStop 8 Side.sell.raw (-5) 2) = .none ∧
      decodeCommandFrame (encodeCommandFrame (.submitStop 8 Side.sell.raw (-5) 2) Buffer.zeros kEncodedCommandFrameSize).2
        kEncodedCommandFrameSize = .ok (.submitStop 8 Side.sell.raw (-5) 2) :=
  ⟨by decide, command_codecs_exact.2.1.decodes _ (by decide) _⟩

/-! ## Output formats -/

/-- The codecs of the output formats are exact: what a decoder accepts re-encodes to the same bytes, what an encoder accepts is decoded
to itself, for BBO over the states whose absent sides have the quantity zero, and each decoder accepts exactly the image of its encoder. -/
theorem output_codecs_exact :
    ExactCodec kEncodedMarketDataFrameSize MarketDataMessage.Canonical MarketDataFrameError.none encodeMarketDataFrame
      decodeMarketDataFrame ∧
    (∀ m output size, (encodeMarketDataFrame m output size).1 = .none → m.Canonical) ∧
    ExactCodec kEncodedBboFrameSize BboState.Canonical BboFrameError.none encodeBboFrame decodeBboFrame ∧
    ExactCodec kEncodedEngineEventSize EngineEvent.Canonical EventCodecError.none encodeEngineEventSpan decodeEngineEvent ∧
    (∀ e output size, (encodeEngineEventSpan e output size).1 = .none → e.reserved = 0) ∧
    (∀ input output m, decodeMarketDataFrame input kEncodedMarketDataFrameSize = .ok m ↔
      m.Canonical ∧ ∀ i < kEncodedMarketDataFrameSize, (encodeMarketDataFrame m output kEncodedMarketDataFrameSize).2 i = input i) ∧
    (∀ input output s, decodeBboFrame input kEncodedBboFrameSize = .ok s ↔
      s.Canonical ∧ ∀ i < kEncodedBboFrameSize, (encodeBboFrame s output kEncodedBboFrameSize).2 i = input i) ∧
    (∀ input output e, decodeEngineEvent input kEncodedEngineEventSize = .ok e ↔
      e.Canonical ∧ ∀ i < kEncodedEngineEventSize, (encodeEngineEventSpan e output kEncodedEngineEventSize).2 i = input i) := by
  refine ⟨marketDataFrame_exact, fun m output size h => ?_, bboFrame_exact, engineEvent_exact, fun e output size h => ?_,
    marketDataFrame_exact.decodes_iff, bboFrame_exact.decodes_iff, engineEvent_exact.decodes_iff⟩
  · by_contra hc
    exact encodeMarketDataFrame_ne hc output size h
  · by_contra hr
    unfold encodeEngineEventSpan encodeEngineEvent at h
    split at h
    · cases h
    · cases h

/-- A frame of a book with bids alone. -/
theorem output_codecs_exact_bids :
    decodeBboFrame (encodeBboFrame ⟨some (-3), 7, none, 0⟩ Buffer.zeros kEncodedBboFrameSize).2 kEncodedBboFrameSize =
      .ok ⟨some (-3), 7, none, 0⟩ :=
  output_codecs_exact.2.2.1.decodes _ (by simp [BboState.Canonical]) _

end MatchingEngine

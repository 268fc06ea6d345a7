import MatchingEngine.Lemmas.Codecs
import MatchingEngine.MarketDataInput
import MatchingEngine.Theorems.MarketData

/-!
# What a feed's file says

`MarketDataFile` is the grammar of the files: frames of canonical messages, one after the other and each with the number after the one
before, up to the end or to the first place where the file says something else. `read_next` reads it and nothing more, so a replay of a file
succeeds exactly on the frames of the messages it has processed.
-/

namespace MatchingEngine

open Comp Buffer

namespace MarketDataMessage

/-- The bytes `encode_market_data_frame` writes. -/
def frame (m : MarketDataMessage) : List UInt8 :=
  slice (encodeMarketDataFrame m zeros kEncodedMarketDataFrameSize).2 0 kEncodedMarketDataFrameSize

/-- A message can come after the one of the number `last`: there was none, or its number is the next. -/
def Follows (last : UInt64) (m : MarketDataMessage) : Prop := last = 0 ∨ last.toNat + 1 = m.sequence.toNat

/-- Canonical messages that can come one after the other, the first after the number `last`. -/
def InSequence : UInt64 → List MarketDataMessage → Prop
  | _, [] => True
  | last, m :: messages => m.Canonical ∧ m.Follows last ∧ InSequence m.sequence messages

variable {m : MarketDataMessage} {last : UInt64}

@[simp] theorem frame_length (m : MarketDataMessage) : m.frame.length = kEncodedMarketDataFrameSize := slice_length _ _ _

/-- A message is valid if it follows. -/
theorem validate_eq_none : validateMarketDataSequence last m = .none ↔ m.Follows last := by
  unfold validateMarketDataSequence Follows
  have hmax : last = uint64Max ↔ last.toNat = 2 ^ 64 - 1 := by
    rw [← UInt64.toNat_inj]
    rfl
  have hnext : m.sequence = last + 1 ↔ m.sequence.toNat = (last.toNat + 1) % 2 ^ 64 := by
    rw [← UInt64.toNat_inj, UInt64.toNat_add]
    rfl
  have h1 := last.toNat_lt
  have h2 := m.sequence.toNat_lt
  by_cases h0 : last = 0
  · simp [h0]
  · have hnot : (last = uint64Max ∨ m.sequence ≠ last + 1) ↔ ¬last.toNat + 1 = m.sequence.toNat := by
      rw [hmax, Ne, hnext]
      omega
    simp only [ne_eq, h0, not_false_eq_true, true_and, false_or] at hnot ⊢
    rw [ite_eq_right_iff]
    constructor
    · intro h
      by_contra hne
      cases h (hnot.mpr hne)
    · intro h hne
      exact absurd h (hnot.mp hne)

/-- A frame's worth of bytes is decoded to the message it is the frame of. -/
theorem decode_iff {bytes : List UInt8} (hlen : bytes.length = kEncodedMarketDataFrameSize) :
    decodeMarketDataFrame (ofList bytes) kEncodedMarketDataFrameSize = .ok m ↔ m.Canonical ∧ m.frame = bytes := by
  rw [marketDataFrame_exact.decodes_iff _ zeros, frame, slice_eq_iff hlen]

end MarketDataMessage

/-- The files a stream can be on after the number `last`, each with what is read from it. -/
inductive MarketDataFile : UInt64 → List UInt8 → List (Except MarketDataInputError MarketDataMessage) → Prop where
  | ended {last : UInt64} : MarketDataFile last [] []
  | truncated {last : UInt64} {bytes : List UInt8} (some : bytes ≠ []) (few : bytes.length < kEncodedMarketDataFrameSize) :
      MarketDataFile last bytes [.error .truncatedFrame]
  | malformed {last : UInt64} {bytes : List UInt8} (enough : kEncodedMarketDataFrameSize ≤ bytes.length)
      (unframed : ∀ m : MarketDataMessage, m.Canonical → ¬m.frame <+: bytes) : MarketDataFile last bytes [.error .malformedFrame]
  | gap {last : UInt64} {m : MarketDataMessage} {rest : List UInt8} (canonical : m.Canonical) (gap : ¬m.Follows last) :
      MarketDataFile last (m.frame ++ rest) [.error .sequenceGap]
  | message {last : UInt64} {m : MarketDataMessage} {rest : List UInt8} {read : List (Except MarketDataInputError MarketDataMessage)}
      (canonical : m.Canonical) (follows : m.Follows last) (more : MarketDataFile m.sequence rest read) :
      MarketDataFile last (m.frame ++ rest) (.ok m :: read)

namespace MarketDataInputStream

variable {s : MarketDataInputStream} {bytes : List UInt8} {last : UInt64}

/-! ## One read -/

/-- An empty stream is at its end. -/
theorem readNext_ended : (⟨[], false, last⟩ : MarketDataInputStream).readNext = (.ok none, ⟨[], true, last⟩) := rfl

/-- A few bytes are a truncated frame. -/
theorem readNext_truncated (last : UInt64) (hsome : bytes ≠ []) (hfew : bytes.length < kEncodedMarketDataFrameSize) :
    ∃ s', (⟨bytes, false, last⟩ : MarketDataInputStream).readNext = (.error .truncatedFrame, s') := by
  have htake : bytes.take kEncodedMarketDataFrameSize = bytes := List.take_of_length_le hfew.le
  have hpos := List.length_pos_iff.mpr hsome
  simp only [readNext, frame, Bool.false_eq_true, if_false, htake]
  rw [if_neg fun h => hpos.ne' h.1, if_pos hfew.ne]
  exact ⟨_, rfl⟩

/-- A read of a whole frame, up to its decoding. -/
theorem readNext_frame {frame : List UInt8} (hlen : frame.length = kEncodedMarketDataFrameSize) (rest : List UInt8) (last : UInt64) :
    (⟨frame ++ rest, false, last⟩ : MarketDataInputStream).frame = frame ∧
      (⟨frame ++ rest, false, last⟩ : MarketDataInputStream).advance = ⟨rest, false, last⟩ := by
  have hlong : ¬(frame ++ rest).length < kEncodedMarketDataFrameSize := by
    rw [List.length_append]
    omega
  constructor
  · exact List.take_left' hlen
  · simp only [advance, Bool.false_eq_true, if_false, hlong, decide_false, List.drop_left' hlen]

/-- A frame that is not decoded. -/
theorem readNext_malformed {frame : List UInt8} {error : MarketDataFrameError} (hlen : frame.length = kEncodedMarketDataFrameSize)
    (rest : List UInt8) (last : UInt64) (hd : decodeMarketDataFrame (ofList frame) kEncodedMarketDataFrameSize = .error error) :
    (⟨frame ++ rest, false, last⟩ : MarketDataInputStream).readNext = (.error .malformedFrame, ⟨rest, false, last⟩) := by
  obtain ⟨hframe, hadvance⟩ := readNext_frame hlen rest last
  simp only [readNext, hframe, hadvance, Bool.false_eq_true, and_false, if_false, hlen, ne_eq, not_true, hd]

/-- A frame that is decoded. -/
theorem readNext_decoded {frame : List UInt8} {m : MarketDataMessage} (hlen : frame.length = kEncodedMarketDataFrameSize)
    (rest : List UInt8) (last : UInt64) (hd : decodeMarketDataFrame (ofList frame) kEncodedMarketDataFrameSize = .ok m) :
    (⟨frame ++ rest, false, last⟩ : MarketDataInputStream).readNext =
      if validateMarketDataSequence last m ≠ .none then (.error .sequenceGap, ⟨rest, false, last⟩)
      else (.ok (some m), ⟨rest, false, m.sequence⟩) := by
  obtain ⟨hframe, hadvance⟩ := readNext_frame hlen rest last
  simp only [readNext, hframe, hadvance, Bool.false_eq_true, and_false, if_false, hlen, ne_eq, not_true, hd]

/-! ## A file -/

/-- What is read is what the file says. -/
theorem file_of_messages : ∀ (n : Nat) (bytes : List UInt8) (last : UInt64), bytes.length ≤ n →
    MarketDataFile last bytes (⟨bytes, false, last⟩ : MarketDataInputStream).messages := by
  intro n
  induction n with
  | zero =>
    intro bytes last hn
    rw [List.eq_nil_of_length_eq_zero (Nat.le_zero.mp hn), messages_none readNext_ended]
    exact .ended
  | succ n ih =>
    intro bytes last hn
    by_cases hnil : bytes = []
    · rw [hnil, messages_none readNext_ended]
      exact .ended
    by_cases hfew : bytes.length < kEncodedMarketDataFrameSize
    · obtain ⟨s', hread⟩ := readNext_truncated last hnil hfew
      rw [messages_error hread]
      exact .truncated hnil hfew
    obtain ⟨frame, rest, rfl, hlen⟩ : ∃ frame rest, bytes = frame ++ rest ∧ frame.length = kEncodedMarketDataFrameSize :=
      ⟨bytes.take kEncodedMarketDataFrameSize, bytes.drop kEncodedMarketDataFrameSize, (List.take_append_drop _ _).symm, by
        rw [List.length_take]
        omega⟩
    have hrest : rest.length ≤ n := by
      rw [List.length_append, hlen] at hn
      simp only [kEncodedMarketDataFrameSize] at hn
      omega
    cases hd : decodeMarketDataFrame (ofList frame) kEncodedMarketDataFrameSize with
    | error error =>
      rw [messages_error (readNext_malformed hlen rest last hd)]
      refine .malformed (not_lt.mp hfew) fun m hm hp => ?_
      have hframe : m.frame = frame := List.append_inj_left (hp.choose_spec) (by rw [m.frame_length, hlen])
      rw [(MarketDataMessage.decode_iff hlen).mpr ⟨hm, hframe⟩] at hd
      cases hd
    | ok m =>
      have hread := readNext_decoded hlen rest last hd
      obtain ⟨hm, rfl⟩ := (MarketDataMessage.decode_iff hlen).mp hd
      by_cases hf : m.Follows last
      · rw [if_neg (not_not.mpr (MarketDataMessage.validate_eq_none.mpr hf))] at hread
        rw [messages_some hread]
        exact .message hm hf (ih rest m.sequence hrest)
      · rw [if_pos (mt MarketDataMessage.validate_eq_none.mp hf)] at hread
        rw [messages_error hread]
        exact .gap hm hf

/-- A file says one thing only. -/
theorem messages_of_file {read : List (Except MarketDataInputError MarketDataMessage)} (h : MarketDataFile last bytes read) :
    (⟨bytes, false, last⟩ : MarketDataInputStream).messages = read := by
  induction h with
  | ended => exact messages_none readNext_ended
  | @truncated last bytes hsome hfew =>
    obtain ⟨s', hread⟩ := readNext_truncated last hsome hfew
    exact messages_error hread
  | @malformed last bytes henough hunframed =>
    have hlen : (bytes.take kEncodedMarketDataFrameSize).length = kEncodedMarketDataFrameSize := by
      rw [List.length_take]
      omega
    cases hd : decodeMarketDataFrame (ofList (bytes.take kEncodedMarketDataFrameSize)) kEncodedMarketDataFrameSize with
    | error error =>
      have hread := readNext_malformed hlen (bytes.drop kEncodedMarketDataFrameSize) last hd
      rw [List.take_append_drop] at hread
      exact messages_error hread
    | ok m =>
      obtain ⟨hm, hframe⟩ := (MarketDataMessage.decode_iff hlen).mp hd
      exact absurd (hframe ▸ List.take_prefix _ _) (hunframed m hm)
  | @gap last m rest hm hgap =>
    have hread := readNext_decoded m.frame_length rest last ((MarketDataMessage.decode_iff m.frame_length).mpr ⟨hm, rfl⟩)
    rw [if_pos (mt MarketDataMessage.validate_eq_none.mp hgap)] at hread
    exact messages_error hread
  | @message last m rest read hm hf _ ih =>
    have hread := readNext_decoded m.frame_length rest last ((MarketDataMessage.decode_iff m.frame_length).mpr ⟨hm, rfl⟩)
    rw [if_neg (not_not.mpr (MarketDataMessage.validate_eq_none.mpr hf))] at hread
    rw [messages_some hread, ih]

/-- The messages are those the grammar gives. -/
theorem messages_iff {read : List (Except MarketDataInputError MarketDataMessage)} :
    (⟨bytes, false, last⟩ : MarketDataInputStream).messages = read ↔ MarketDataFile last bytes read :=
  ⟨fun h => h ▸ file_of_messages bytes.length bytes last le_rfl, messages_of_file⟩

end MarketDataInputStream

/-- A file without an error is the frames of its messages. -/
theorem MarketDataFile.frames_iff {messages : List MarketDataMessage} {last : UInt64} {bytes : List UInt8} :
    MarketDataFile last bytes (messages.map .ok) ↔ bytes = messages.flatMap MarketDataMessage.frame ∧ MarketDataMessage.InSequence last messages := by
  induction messages generalizing last bytes with
  | nil =>
    constructor
    · intro h
      cases h
      exact ⟨rfl, trivial⟩
    · rintro ⟨rfl, -⟩
      exact .ended
  | cons m messages ih =>
    constructor
    · intro h
      cases h with
      | message hm hf hmore =>
        obtain ⟨rfl, hs⟩ := ih.mp hmore
        exact ⟨rfl, hm, hf, hs⟩
    · rintro ⟨rfl, hm, hf, hs⟩
      exact .message hm hf (ih.mpr ⟨rfl, hs⟩)

/-! ## Replay -/

/-- The loop over a stream is the loop over what it gives. -/
theorem replayInput_eq {eventsSize : Nat} : ∀ (n : Nat) (s : MarketDataInputStream) (adapter : MarketDataAdapter) (engine : SequencedEngine)
    (result : ReplayResult), s.input.length ≤ n →
    replayInput eventsSize s adapter engine result = replayMessages eventsSize s.messages adapter engine result := by
  intro n
  induction n with
  | zero =>
    intro s adapter engine result hn
    rw [replayInput, MarketDataInputStream.messages]
    split
    · rfl
    · rfl
    · rename_i heq
      exact absurd (MarketDataInputStream.readNext_shorter heq) (by omega)
  | succ n ih =>
    intro s adapter engine result hn
    rw [replayInput, MarketDataInputStream.messages]
    split
    · rfl
    · rfl
    · rename_i s' heq
      have hlt := MarketDataInputStream.readNext_shorter heq
      rw [replayMessages]
      refine congrArg _ (funext fun outcome => ?_)
      obtain ⟨outcome, adapter', engine'⟩ := outcome
      cases outcome with
      | error error => rfl
      | ok result' => exact ih s' adapter' engine' result' (by omega)

/-- Messages that are processed are passed by the loop. -/
theorem Fed.passes {eventsSize : Nat} {fresh a : MarketDataAdapter} {start engine : SequencedEngine} {messages : List MarketDataMessage}
    {filled : List Nat} {result : ReplayResult} (h : Fed eventsSize fresh start messages filled a engine result)
    (rest : List (Except MarketDataInputError MarketDataMessage)) {out : MarketDataReplayed}
    (hr : (replayMessages eventsSize rest a engine result).Returns out) :
    (replayMessages eventsSize (messages.map .ok ++ rest) fresh start .initial).Returns out := by
  induction h generalizing rest out with
  | start => exact hr
  | @message messages filled m a a' e e' result result' _ hstep ih =>
    rw [List.map_append, List.append_assoc]
    refine ih (.ok m :: rest) ?_
    rw [replayMessages, returns_bind]
    exact ⟨_, hstep, hr⟩

/-- A replay of a file succeeds exactly on the frames of canonical messages in sequence that are all processed, and what a stream reads of
any file is what the file says: its messages, and the error at the first place that is not the frame of the next. -/
theorem replay_market_data_file :
    (∀ bytes read, (⟨bytes, false, 0⟩ : MarketDataInputStream).messages = read ↔ MarketDataFile 0 bytes read) ∧
    (∀ messages, MarketDataMessage.InSequence 0 messages →
      (⟨messages.flatMap MarketDataMessage.frame, false, 0⟩ : MarketDataInputStream).messages = messages.map .ok) ∧
    ∀ bytes adapter engine eventsSize result adapter' engine',
      (replayMarketDataFile bytes adapter engine eventsSize).Returns (.ok result, adapter', engine') ↔
        engine.maximumEventCapacity ≤ eventsSize ∧ ∃ messages filled, bytes = messages.flatMap MarketDataMessage.frame ∧
          MarketDataMessage.InSequence 0 messages ∧ Fed eventsSize adapter engine messages filled adapter' engine' result := by
  refine ⟨fun bytes read => MarketDataInputStream.messages_iff, fun messages hs =>
    MarketDataInputStream.messages_iff.mpr (MarketDataFile.frames_iff.mpr ⟨rfl, hs⟩), fun bytes adapter engine eventsSize result adapter' engine' => ?_⟩
  unfold replayMarketDataFile
  split
  · rename_i hlt
    rw [returns_pure]
    exact ⟨fun h => (by cases (Prod.mk.inj h).1), fun h => absurd h.1 (not_le.mpr hlt)⟩
  · rename_i hcapacity
    rw [replayInput_eq bytes.length _ _ _ _ le_rfl]
    constructor
    · intro hr
      obtain ⟨messages, filled, hread, hfed⟩ := Fed.start.replay hr
      obtain ⟨hbytes, hs⟩ := MarketDataFile.frames_iff.mp (MarketDataInputStream.messages_iff.mp hread)
      exact ⟨not_lt.mp hcapacity, messages, filled, hbytes, hs, hfed⟩
    · rintro ⟨-, messages, filled, hbytes, hs, hfed⟩
      have hpass := hfed.passes [] (by rw [replayMessages, returns_pure])
      rwa [List.append_nil, ← MarketDataInputStream.messages_iff.mpr (MarketDataFile.frames_iff.mpr ⟨hbytes, hs⟩)] at hpass

/-- The feed that fills an order is processed. -/
theorem fillingFeed_fed : ∃ engine adapter engine' filled result,
    SequencedEngine.create (BookConfig.small 4 (by decide) .none) 1 0 .continuous = some engine ∧ engine.maximumEventCapacity ≤ 9 ∧
      Fed 9 (MarketDataAdapter.create (GatewayValidator.create .small)) engine fillingFeed filled adapter engine' result ∧
      adapter.gateway.activeOrderIds = [1] := by
  obtain ⟨engine, result, adapter, engine', hcreate, hr, -, hactive, -⟩ := fillingFeed_run
  unfold replayMarketData at hr
  split at hr
  · rw [returns_pure] at hr
    cases (Prod.mk.inj hr).1
  rename_i hcapacity
  obtain ⟨messages, filled, hread, hfed⟩ := Fed.start.replay hr
  have hsame : fillingFeed = messages := List.map_injective_iff.mpr (fun _ _ h => Except.ok.inj h) hread
  rw [List.nil_append, ← hsame] at hfed
  exact ⟨engine, adapter, engine', filled, result, hcreate, not_lt.mp hcapacity, hfed, hactive⟩

/-- The same feed from its file. -/
theorem replay_market_data_file_filling : ∃ engine result adapter engine',
    SequencedEngine.create (BookConfig.small 4 (by decide) .none) 1 0 .continuous = some engine ∧
    (replayMarketDataFile (fillingFeed.flatMap MarketDataMessage.frame) (MarketDataAdapter.create (GatewayValidator.create .small)) engine
      9).Returns (.ok result, adapter, engine') ∧ adapter.gateway.activeOrderIds = [1] := by
  obtain ⟨engine, adapter, engine', filled, result, hcreate, hcapacity, hfed, hactive⟩ := fillingFeed_fed
  exact ⟨engine, result, adapter, engine', hcreate, (replay_market_data_file.2.2 _ _ _ _ _ _ _).mpr ⟨hcapacity, fillingFeed, filled, rfl,
    ⟨⟨.addOrder, rfl, by decide⟩, Or.inl rfl, ⟨.addOrder, rfl, by decide⟩, Or.inr rfl, trivial⟩, hfed⟩, hactive⟩

/-! ## Numbers -/

/-- The number of the last message, or `last` where there is none. -/
def lastSequence (last : UInt64) (messages : List MarketDataMessage) : UInt64 := messages.foldl (fun _ m => m.sequence) last

/-- The last message follows the others. -/
theorem MarketDataMessage.InSequence.follows {last : UInt64} {messages : List MarketDataMessage} {m : MarketDataMessage}
    (h : InSequence last (messages ++ [m])) : InSequence last messages ∧ m.Follows (lastSequence last messages) := by
  induction messages generalizing last with
  | nil => exact ⟨trivial, h.2.1⟩
  | cons m' messages ih =>
    obtain ⟨hm, hf, hs⟩ := h
    exact ⟨⟨hm, hf, (ih hs).1⟩, (ih hs).2⟩

namespace MarketDataAdapter

variable {a a' b : MarketDataAdapter} {m : MarketDataMessage} {command : SequencedCommand}

/-- An adapter with the same numbers. -/
def SameNumbers (a b : MarketDataAdapter) : Prop :=
  b.sequencer = a.sequencer ∧ b.previousMarketDataSequence = a.previousMarketDataSequence

/-- Making a payload leaves the numbers. -/
theorem payload_numbers (a : MarketDataAdapter) (m : MarketDataMessage) : a.SameNumbers (a.payload m).2 := by
  unfold payload
  split
  · dsimp only
    split
    · exact ⟨rfl, rfl⟩
    · exact ⟨rfl, rfl⟩
  · split
    · exact ⟨rfl, rfl⟩
    · exact ⟨rfl, rfl⟩
  · split
    · exact ⟨rfl, rfl⟩
    · exact ⟨rfl, rfl⟩
  · exact ⟨rfl, rfl⟩

theorem remember_numbers (a : MarketDataAdapter) (id : Nat) (handle : Handle) : a.SameNumbers (a.remember id handle) := by
  unfold remember
  split
  · exact ⟨rfl, rfl⟩
  · exact ⟨rfl, rfl⟩

theorem recordAppliedEvent_numbers (a : MarketDataAdapter) (event : EngineEvent) : a.SameNumbers (a.recordAppliedEvent event) := by
  unfold recordAppliedEvent
  split
  · split
    · exact ⟨rfl, rfl⟩
    · exact a.remember_numbers _ _
  split
  · exact ⟨rfl, rfl⟩
  split
  · exact ⟨rfl, rfl⟩
  · exact ⟨rfl, rfl⟩

theorem foldl_numbers (events : List EngineEvent) (a : MarketDataAdapter) : a.SameNumbers (events.foldl recordAppliedEvent a) := by
  induction events generalizing a with
  | nil => exact ⟨rfl, rfl⟩
  | cons event events ih =>
    obtain ⟨h1, h2⟩ := ih (a.recordAppliedEvent event)
    obtain ⟨h3, h4⟩ := a.recordAppliedEvent_numbers event
    exact ⟨h1.trans h3, h2.trans h4⟩

/-- No refusal of a payload is of the numbers. -/
theorem payload_error {error : MarketDataAdaptError} (h : (a.payload m).1 = .error error) :
    error ≠ .sequenceMismatch ∧ error ≠ .sequenceExhausted := by
  unfold payload at h
  split at h
  · dsimp only at h
    split at h
    · cases h
      exact ⟨nofun, nofun⟩
    · cases h
  · split at h
    · cases h
      exact ⟨nofun, nofun⟩
    · cases h
  · split at h
    · cases h
      exact ⟨nofun, nofun⟩
    · cases h
  · cases h
    exact ⟨nofun, nofun⟩

/-- A message that comes in sequence, no earlier than the last command, is not refused for its number, nor for want of numbers while there
are any. -/
theorem adapt_error {error : MarketDataAdaptError} (hf : m.Follows a.previousMarketDataSequence)
    (htime : a.sequencer.lastLogicalTime ≤ m.sequence) (h : (a.adapt m).1 = .error error) :
    error ≠ .sequenceMismatch ∧ (error = .sequenceExhausted → a.sequencer.exhausted = true) := by
  have hnumbers := (a.payload_numbers m).1
  unfold adapt at h
  rw [if_neg (not_not.mpr (MarketDataMessage.validate_eq_none.mpr hf))] at h
  rcases hpayload : a.payload m with ⟨_ | payload, b⟩ <;> rw [hpayload] at h hnumbers
  · cases h
    have hnot := payload_error (congrArg Prod.fst hpayload)
    exact ⟨hnot.1, fun he => absurd he hnot.2⟩
  · dsimp only at h hnumbers
    rw [hnumbers] at h
    unfold Sequencer.stamp at h
    split at h
    · rename_i heq
      split at heq
      · cases heq
        cases h
        exact ⟨nofun, nofun⟩
      split at heq
      · rename_i hlt
        exact absurd hlt (UInt64.not_lt.mpr htime)
      split at heq
      · rename_i hexhausted
        cases heq
        cases h
        exact ⟨nofun, fun _ => hexhausted⟩
      · cases heq
    · cases h

/-- What `adapt` leaves of the numbers. -/
theorem adapt_numbers (h : a.adapt m = (.ok command, a')) :
    a.sequencer.exhausted = false ∧ command.sequence = a.sequencer.nextSequence ∧ command.logicalTime = m.sequence ∧
      a'.sequencer = ⟨(afterSequence a.sequencer.nextSequence).1, m.sequence, (afterSequence a.sequencer.nextSequence).2⟩ ∧
      a'.previousMarketDataSequence = m.sequence := by
  have hnumbers := (a.payload_numbers m).1
  unfold adapt at h
  split at h
  · cases (Prod.mk.inj h).1
  rcases hpayload : a.payload m with ⟨_ | payload, b⟩ <;> rw [hpayload] at h hnumbers
  · cases (Prod.mk.inj h).1
  · dsimp only at h hnumbers
    rw [hnumbers] at h
    unfold Sequencer.stamp at h
    split at h
    · cases (Prod.mk.inj h).1
    · rename_i heq
      split at heq
      · cases heq
      split at heq
      · cases heq
      split at heq
      · cases heq
      · rename_i hexhausted
        cases heq
        cases h
        exact ⟨Bool.eq_false_iff.mpr hexhausted, rfl, rfl, rfl, rfl⟩

/-- The numbers of an adapter that has passed messages on. -/
structure Numbered (a : MarketDataAdapter) (messages : List MarketDataMessage) : Prop where
  previous : a.previousMarketDataSequence = lastSequence 0 messages
  time : a.sequencer.lastLogicalTime = lastSequence 0 messages
  next : a.sequencer.exhausted = false → a.sequencer.nextSequence.toNat = messages.length + 1
  exhausted : a.sequencer.exhausted = true → messages.length = 2 ^ 64 - 1

/-- A message that is adapted takes its number. -/
theorem Numbered.adapt {messages : List MarketDataMessage} (h : a.Numbered messages) (hadapt : a.adapt m = (.ok command, a')) :
    a'.Numbered (messages ++ [m]) := by
  obtain ⟨hmore, -, -, hsequencer, hprevious⟩ := adapt_numbers hadapt
  have hnext := h.next hmore
  have hlast : lastSequence 0 (messages ++ [m]) = m.sequence := by
    rw [lastSequence, List.foldl_append]
    rfl
  have hlength : (messages ++ [m]).length = messages.length + 1 := by
    rw [List.length_append]
    rfl
  have hmax : a.sequencer.nextSequence = uint64Max ↔ a.sequencer.nextSequence.toNat = 2 ^ 64 - 1 := by
    rw [← UInt64.toNat_inj]
    rfl
  refine ⟨hprevious.trans hlast.symm, by rw [hsequencer, hlast], ?_, ?_⟩
  · rw [hsequencer, hlength, afterSequence]
    split
    · exact nofun
    · rename_i hne
      rw [hmax] at hne
      have hlt := a.sequencer.nextSequence.toNat_lt
      intro _
      rw [UInt64.toNat_add, show (1 : UInt64).toNat = 1 from rfl]
      omega
  · rw [hsequencer, hlength, afterSequence]
    split
    · rename_i heq
      rw [hmax] at heq
      intro _
      omega
    · exact nofun

/-- The numbers are all that counts. -/
theorem Numbered.congr {messages : List MarketDataMessage} (h : a.Numbered messages) (hsame : a.SameNumbers b) : b.Numbered messages := by
  obtain ⟨hsequencer, hprevious⟩ := hsame
  refine ⟨hprevious.trans h.previous, ?_, ?_, ?_⟩
  · rw [hsequencer, h.time]
  · rw [hsequencer]
    exact h.next
  · rw [hsequencer]
    exact h.exhausted

end MarketDataAdapter

/-- Messages that are all processed are numbered as they come. -/
theorem Fed.numbered {eventsSize : Nat} {gateway : GatewayValidator} {a : MarketDataAdapter} {start engine : SequencedEngine}
    {messages : List MarketDataMessage} {filled : List Nat} {result : ReplayResult}
    (h : Fed eventsSize (MarketDataAdapter.create gateway) start messages filled a engine result) : a.Numbered messages := by
  generalize hfresh : MarketDataAdapter.create gateway = fresh at h
  induction h with
  | start =>
    subst hfresh
    exact ⟨rfl, rfl, fun _ => rfl, nofun⟩
  | message _ processed ih =>
    obtain ⟨command, a₁, events, _, _, _, hadapt, -, rfl, -⟩ := replayMessage_ok processed
    exact (ih.adapt hadapt).congr (a₁.foldl_numbers events)

/-- After messages of a feed in sequence that were all processed from a fresh adapter, the next message of the feed is never refused as out
of sequence, and for want of numbers only after `2 ^ 64 - 1` messages; and where it is made a command, the command has the number of the
message in the feed and its sequence number for a time. -/
theorem feed_never_out_of_sequence {eventsSize : Nat} {gateway : GatewayValidator} {a : MarketDataAdapter} {start engine : SequencedEngine}
    {messages : List MarketDataMessage} {filled : List Nat} {result : ReplayResult} {m : MarketDataMessage}
    (fed : Fed eventsSize (MarketDataAdapter.create gateway) start messages filled a engine result)
    (next : MarketDataMessage.InSequence 0 (messages ++ [m])) :
    (∀ error, (a.adapt m).1 = .error error → error ≠ .sequenceMismatch ∧ (error = .sequenceExhausted → messages.length = 2 ^ 64 - 1)) ∧
    ∀ command a', a.adapt m = (.ok command, a') → command.sequence.toNat = messages.length + 1 ∧ command.logicalTime = m.sequence := by
  have hnumbered := fed.numbered
  have hf := next.follows.2
  have htime : a.sequencer.lastLogicalTime ≤ m.sequence := by
    rw [hnumbered.time, UInt64.le_iff_toNat_le]
    rcases hf with h | h
    · rw [h]
      exact Nat.zero_le _
    · omega
  constructor
  · intro error herror
    obtain ⟨hmismatch, hexhausted⟩ := MarketDataAdapter.adapt_error (hnumbered.previous ▸ hf) htime herror
    exact ⟨hmismatch, fun h => hnumbered.exhausted (hexhausted h)⟩
  · intro command a' hadapt
    obtain ⟨hmore, hsequence, hlogical, -, -⟩ := MarketDataAdapter.adapt_numbers hadapt
    exact ⟨by rw [hsequence, hnumbered.next hmore], hlogical⟩

/-- The message that adds the id of the filled order again is refused, but not as out of sequence. -/
theorem feed_never_out_of_sequence_filling : ∃ engine adapter engine' filled result,
    Fed 9 (MarketDataAdapter.create (GatewayValidator.create .small)) engine fillingFeed filled adapter engine' result ∧
    ∀ error, (adapter.adapt ⟨3, 1, 0, 101, 2, 0, 0, 1, 1⟩).1 = .error error → error ≠ .sequenceMismatch := by
  obtain ⟨engine, adapter, engine', filled, result, -, -, hfed, -⟩ := fillingFeed_fed
  exact ⟨engine, adapter, engine', filled, result, hfed, fun error herror => ((feed_never_out_of_sequence hfed
    ⟨⟨.addOrder, rfl, by decide⟩, Or.inl rfl, ⟨.addOrder, rfl, by decide⟩, Or.inr rfl, ⟨.addOrder, rfl, by decide⟩, Or.inr rfl, trivial⟩).1
      error herror).1⟩

end MatchingEngine

import MatchingEngine.Lib.Bytes

/-!
# Codecs of fixed size

An encoder writes a value into a span of `size` bytes and a decoder reads a value from a span. They are exact when each undoes the
other: a canonical value is read back, and whatever is read was written by the encoder, byte for byte. Then the decoder accepts the
encodings of the canonical values and nothing else.
-/

/-- An encoder and a decoder of spans of `size` bytes that undo each other on the canonical values. The encoder returns `success` when
it has written, and leaves no byte of the span as it was. -/
structure ExactCodec {α ε δ : Type} (size : Nat) (canonical : α → Prop) (success : ε) (encode : α → Buffer → Nat → ε × Buffer)
    (decode : Buffer → Nat → Except δ α) : Prop where
  /-- A canonical value is encoded. -/
  encodes : ∀ a, canonical a → ∀ output, (encode a output size).1 = success
  /-- Its encoding is decoded to it. -/
  decodes : ∀ a, canonical a → ∀ output, decode (encode a output size).2 size = .ok a
  /-- Only spans of the size are decoded, to canonical values, and the encoding of what is decoded is the span. -/
  reencodes : ∀ input n a, decode input n = .ok a → n = size ∧ canonical a ∧ ∀ output, ∀ i < size, (encode a output size).2 i = input i
  /-- The decoder looks at the span alone. -/
  congr : ∀ b c : Buffer, (∀ i < size, b i = c i) → decode b size = decode c size

/-- An exact codec decodes the image of its encoder and nothing else. -/
theorem ExactCodec.decodes_iff {α ε δ : Type} {size : Nat} {canonical : α → Prop} {success : ε} {encode : α → Buffer → Nat → ε × Buffer}
    {decode : Buffer → Nat → Except δ α} (h : ExactCodec size canonical success encode decode) (input output : Buffer) (a : α) :
    decode input size = .ok a ↔ canonical a ∧ ∀ i < size, (encode a output size).2 i = input i := by
  constructor
  · intro hd
    obtain ⟨-, hc, he⟩ := h.reencodes input size a hd
    exact ⟨hc, he output⟩
  · rintro ⟨hc, he⟩
    rw [← h.congr _ _ he, h.decodes a hc]

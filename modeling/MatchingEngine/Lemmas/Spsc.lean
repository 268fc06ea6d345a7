import MatchingEngine.Spsc
import Mathlib.Data.Nat.ModEq

/-!
# The queue between two threads

The counters of a queue stand at its head and so many values behind it, and the slots behind the head hold the values, as long as the
counters of the window have slots of their own (`Apart`). The counters are 64-bit values, so they are compared through their distance
from the head, never through their order.
-/

namespace MatchingEngine

open Function

/-! ## Counters -/

/-- Two counters of a window have different slots: two on the two sides of the wrap share a slot only at the distance `2 ^ 64 % c`. -/
theorem slot_injective {c h n i j : Nat} (hn : n ≤ c) (hh : h < 2 ^ 64) (hc : c ≤ 2 ^ 64)
    (ok : 2 ^ 64 % c = 0 ∨ h + n ≤ 2 ^ 64 ∨ n ≤ 2 ^ 64 % c) (hij : i < j) (hj : j < n) :
    (h + i) % 2 ^ 64 % c ≠ (h + j) % 2 ^ 64 % c := by
  intro he
  have near {a b : Nat} (hab : a < b) (hb : b < a + c) : a % c ≠ b % c := by
    intro h
    have hd : c ∣ b - a := (Nat.modEq_iff_dvd' hab.le).mp h
    have := Nat.le_of_dvd (by omega) hd
    omega
  obtain hz | hz := Nat.eq_zero_or_pos (2 ^ 64 % c)
  · have hd := Nat.dvd_of_mod_eq_zero hz
    rw [Nat.mod_mod_of_dvd _ hd, Nat.mod_mod_of_dvd _ hd] at he
    exact near (by omega) (by omega) he
  by_cases hw : h + j < 2 ^ 64
  · rw [Nat.mod_eq_of_lt hw, Nat.mod_eq_of_lt (show h + i < 2 ^ 64 by omega)] at he
    exact near (by omega) (by omega) he
  by_cases hv : 2 ^ 64 ≤ h + i
  · rw [show (h + i) % 2 ^ 64 = h + i - 2 ^ 64 by omega, show (h + j) % 2 ^ 64 = h + j - 2 ^ 64 by omega] at he
    exact near (by omega) (by omega) he
  · rw [show (h + i) % 2 ^ 64 = h + i by omega, show (h + j) % 2 ^ 64 = h + j - 2 ^ 64 by omega] at he
    have hd : c ∣ h + i - (h + j - 2 ^ 64) := (Nat.modEq_iff_dvd' (by omega)).mp he.symm
    have hm : 2 ^ 64 % c = (j - i) % c := by
      refine ((Nat.modEq_iff_dvd' (by omega)).mpr ?_).symm
      rwa [show 2 ^ 64 - (j - i) = h + i - (h + j - 2 ^ 64) by omega]
    rw [Nat.mod_eq_of_lt (show j - i < c by omega)] at hm
    omega

/-- A window that runs over the wrap and is longer than `2 ^ 64 % c` repeats a slot. The first counter that does is the one whose partner,
at the distance of that rest, is past the wrap. -/
theorem slot_repeats {c h n : Nat} (hpos : 0 < c) (hc : c ≤ 2 ^ 64) (hh : h < 2 ^ 64) (hz : 0 < 2 ^ 64 % c) (hw : 2 ^ 64 < h + n)
    (hn : 2 ^ 64 % c < n) : ∃ i j, i < n ∧ j < n ∧ i ≠ j ∧ (h + i) % 2 ^ 64 % c = (h + j) % 2 ^ 64 % c := by
  have hr := Nat.mod_lt (2 ^ 64) hpos
  generalize hrem : 2 ^ 64 % c = r at hz hn hr
  refine ⟨2 ^ 64 - h - r, 2 ^ 64 - h - r + r, by omega, by omega, by omega, ?_⟩
  rw [Nat.mod_eq_of_lt (show h + (2 ^ 64 - h - r) < 2 ^ 64 by omega),
    show (h + (2 ^ 64 - h - r + r)) % 2 ^ 64 = h + (2 ^ 64 - h - r + r) - 2 ^ 64 by omega]
  refine (Nat.modEq_iff_dvd' (by omega)).mpr ?_ |>.symm
  rw [show h + (2 ^ 64 - h - r) - (h + (2 ^ 64 - h - r + r) - 2 ^ 64) = 2 ^ 64 - r by omega, ← hrem]
  exact Nat.dvd_sub_mod _

namespace SpscQueue

variable {α : Type} {q : SpscQueue α} {f g : List α}

/-- A capacity is a 64-bit number. -/
theorem capacity_lt (q : SpscQueue α) : q.capacity < 2 ^ 64 := lt_of_le_of_lt q.capacity_le (by decide)

/-- The counters of a queue that holds the values `f`. -/
structure Counts (q : SpscQueue α) (f : List α) : Prop where
  publishedHead : q.publishedHead = q.head
  tail : q.tail = q.head + UInt64.ofNat f.length
  publishedTail : q.publishedTail = q.tail
  length_le : f.length ≤ q.capacity
  cachedTail : ∃ k ≤ f.length, q.cachedTail = q.head + UInt64.ofNat k

/-- The slots from the head on hold the values `g`. -/
def Stores (q : SpscQueue α) (g : List α) : Prop :=
  ∀ (j : Nat) (h : j < g.length), q.slots (q.slotOf (q.head + UInt64.ofNat j)) = g[j]

/-- The first `n` counters from the head on have slots of their own. -/
def Apart (q : SpscQueue α) (n : Nat) : Prop :=
  ∀ i j, i < n → j < n → q.slotOf (q.head + UInt64.ofNat i) = q.slotOf (q.head + UInt64.ofNat j) → i = j

theorem counter_toNat (q : SpscQueue α) (j : Nat) : (q.head + UInt64.ofNat j).toNat = (q.head.toNat + j) % 2 ^ 64 := by
  rw [UInt64.toNat_add, UInt64.toNat_ofNat', Nat.add_mod_mod]

theorem counter_succ (a : UInt64) (j : Nat) : a + 1 + UInt64.ofNat j = a + UInt64.ofNat (j + 1) := by
  rw [UInt64.ofNat_add, UInt64.add_assoc]
  congr 1
  exact UInt64.add_comm _ _

theorem counter_add (a : UInt64) (i j : Nat) : a + UInt64.ofNat i + UInt64.ofNat j = a + UInt64.ofNat (i + j) := by
  rw [UInt64.ofNat_add, UInt64.add_assoc]

theorem distance (a : UInt64) {n : Nat} (h : n < 2 ^ 64) : (a + UInt64.ofNat n - a).toNat = n := by
  rw [UInt64.add_comm, UInt64.add_sub_cancel, UInt64.toNat_ofNat', Nat.mod_eq_of_lt h]

/-- A counter that has not moved. -/
theorem counter_eq_self {a : UInt64} {n : Nat} (h : n < 2 ^ 64) (he : a = a + UInt64.ofNat n) : n = 0 := by
  have := distance a h
  rw [← he, UInt64.sub_self] at this
  exact this.symm

/-- The length is a 64-bit number. -/
theorem Counts.length_lt (h : q.Counts f) : f.length < 2 ^ 64 := lt_of_le_of_lt h.length_le q.capacity_lt

/-- The free space, exact where the head has just been loaded. -/
theorem Counts.space (h : q.Counts f) : q.loadHead.space = q.capacity - f.length := by
  have hd : (q.tail - q.publishedHead).toNat = f.length := by rw [h.tail, h.publishedHead, distance _ h.length_lt]
  show sub64 q.capacity (q.tail - q.publishedHead).toNat = _
  rw [hd, sub64_eq h.length_le q.capacity_lt]

/-- Where the condition on a batch holds, the values of the queue and the batch behind them have slots of their own. -/
theorem Counts.apart (h : q.Counts f) {values : List α} (room : f.length + values.length ≤ q.capacity) (ok : q.Spares values) :
    q.Apart (f.length + values.length) := by
  rw [Spares, h.tail, h.publishedHead, distance _ h.length_lt] at ok
  have main {i j : Nat} (hij : i < j) (hj : j < f.length + values.length) :
      q.slotOf (q.head + UInt64.ofNat i) ≠ q.slotOf (q.head + UInt64.ofNat j) := by
    rw [slotOf, slotOf, counter_toNat, counter_toNat]
    exact slot_injective room q.head.toNat_lt q.capacity_lt.le ok hij hj
  intro i j hi hj he
  rcases Nat.lt_trichotomy i j with hlt | heq | hlt
  · exact absurd he (main hlt hj)
  · exact heq
  · exact absurd he.symm (main hlt hi)

/-- The condition on a batch is exact. -/
theorem Counts.spares_iff (h : q.Counts f) {values : List α} (room : f.length + values.length ≤ q.capacity) :
    q.Spares values ↔ q.Apart (f.length + values.length) := by
  refine ⟨h.apart room, fun apart => ?_⟩
  rw [Spares, h.tail, h.publishedHead, distance _ h.length_lt]
  by_contra hno
  simp only [not_or, Nat.not_le] at hno
  obtain ⟨hz, hw, hn⟩ := hno
  obtain ⟨i, j, hi, hj, hne, he⟩ := slot_repeats q.capacity_pos q.capacity_lt.le q.head.toNat_lt (Nat.pos_of_ne_zero hz) hw hn
  refine hne (apart i j hi hj ?_)
  rw [slotOf, slotOf, counter_toNat, counter_toNat]
  exact he

/-- A slot behind the values is written. -/
theorem Stores.write (h : q.Stores g) {n index : Nat} {value : α} (apart : q.Apart n) (htail : q.tail + UInt64.ofNat index = q.head + UInt64.ofNat g.length)
    (hn : g.length < n) : (q.writeSlot index value).Stores (g ++ [value]) := by
  intro j hj
  show update q.slots (q.slotOf (q.tail + UInt64.ofNat index)) value (q.slotOf (q.head + UInt64.ofNat j)) = _
  rw [htail]
  rw [List.length_append, List.length_singleton] at hj
  by_cases hg : j < g.length
  · rw [update_of_ne (fun he => absurd (apart j g.length (by omega) hn he) hg.ne), List.getElem_append_left hg]
    exact h j hg
  · obtain rfl : j = g.length := by omega
    rw [update_self]
    simp

/-- The value at the head is released. -/
theorem Stores.release {v : α} (h : q.Stores (v :: g)) : q.publishHead.Stores g := by
  intro j hj
  show q.slots (q.slotOf (q.head + 1 + UInt64.ofNat j)) = _
  rw [counter_succ]
  exact h (j + 1) (by simpa using hj)

/-- The head is in its slot. -/
theorem Stores.head {v : α} (h : q.Stores (v :: g)) : q.readSlot = v := by
  have := h 0 (by simp)
  rwa [show q.head + UInt64.ofNat 0 = q.head by simp] at this

theorem Apart.release {n : Nat} (h : q.Apart (n + 1)) : q.publishHead.Apart n := by
  intro i j hi hj he
  have he : q.slotOf (q.head + 1 + UInt64.ofNat i) = q.slotOf (q.head + 1 + UInt64.ofNat j) := he
  rw [counter_succ, counter_succ] at he
  have := h (i + 1) (j + 1) (by omega) (by omega) he
  omega

/-- The batch behind the values is published. -/
theorem Counts.publishTail (h : q.Counts f) {values : List α} (room : f.length + values.length ≤ q.capacity) :
    (q.publishTail values.length).Counts (f ++ values) where
  publishedHead := h.publishedHead
  tail := by
    show q.tail + UInt64.ofNat values.length = q.head + UInt64.ofNat (f ++ values).length
    rw [h.tail, counter_add, List.length_append]
  publishedTail := rfl
  length_le := by rwa [List.length_append]
  cachedTail := by
    obtain ⟨k, hk, he⟩ := h.cachedTail
    exact ⟨k, by rw [List.length_append]; omega, he⟩

theorem Counts.loadTail (h : q.Counts f) : q.loadTail.Counts f where
  publishedHead := h.publishedHead
  tail := h.tail
  publishedTail := h.publishedTail
  length_le := h.length_le
  cachedTail := ⟨f.length, le_refl _, h.publishedTail.trans h.tail⟩

theorem Counts.loadHead (h : q.Counts f) : q.loadHead.Counts f :=
  ⟨h.publishedHead, h.tail, h.publishedTail, h.length_le, h.cachedTail⟩

/-- The head moves past a value that the consumer knows of. -/
theorem Counts.publishHead {v : α} (h : q.Counts (v :: f)) (known : q.head ≠ q.cachedTail) : q.publishHead.Counts f where
  publishedHead := rfl
  tail := by
    show q.tail = q.head + 1 + UInt64.ofNat f.length
    rw [counter_succ, h.tail, List.length_cons]
  publishedTail := h.publishedTail
  length_le := Nat.le_of_succ_le h.length_le
  cachedTail := by
    obtain ⟨k, hk, he⟩ := h.cachedTail
    obtain ⟨k, rfl⟩ : ∃ m, k = m + 1 := by
      refine Nat.exists_eq_add_one_of_ne_zero fun h0 => known ?_
      rw [he, h0]
      simp
    exact ⟨k, Nat.le_of_succ_le_succ hk, he.trans (counter_succ _ _).symm⟩

/-- The consumer knows of a value only where there is one. -/
theorem Counts.ne_nil (h : q.Counts f) (known : q.head ≠ q.cachedTail) : f ≠ [] := by
  rintro rfl
  obtain ⟨k, hk, he⟩ := h.cachedTail
  obtain rfl : k = 0 := Nat.le_zero.mp hk
  exact known (by rw [he]; simp)

/-- Where the head is the tail that was just loaded, there is no value. -/
theorem Counts.eq_nil (h : q.Counts f) (empty : q.head = q.loadTail.cachedTail) : f = [] := by
  have he : q.head = q.head + UInt64.ofNat f.length := empty.trans (h.publishedTail.trans h.tail)
  exact List.eq_nil_of_length_eq_zero (counter_eq_self h.length_lt he)

end SpscQueue

/-! ## The two threads -/

variable {α : Type} {s s' : QueueState α} {f : List α}

/-- The values of a batch whose slots are written. -/
def ProducerPhase.written : ProducerPhase α → List α
  | .idle => []
  | .writing values index => values.take index

/-- What the producer has found before it writes. -/
def ProducerPhase.Fits (q : SpscQueue α) (f : List α) : ProducerPhase α → Prop
  | .idle => True
  | .writing values index => index ≤ values.length ∧ f.length + values.length ≤ q.capacity ∧ q.Apart (f.length + values.length)

/-- What the consumer has found before it reads. -/
def ConsumerPhase.Knows (q : SpscQueue α) (f : List α) : ConsumerPhase α → Prop
  | .idle => True
  | .reading _ => q.head ≠ q.cachedTail
  | .releasing value => q.head ≠ q.cachedTail ∧ f.head? = some value

/-- A state of the queue and its threads in which the queue holds the values `f`. -/
structure QueueState.Holds (s : QueueState α) (f : List α) : Prop where
  counts : s.queue.Counts f
  stores : s.queue.Stores (f ++ s.producer.written)
  producer : s.producer.Fits s.queue f
  consumer : s.consumer.Knows s.queue f

/-- The values after a step: unchanged, or as the call it completes leaves them. -/
def FifoMoves (n : Nat) (f : List α) (label : QueueLabel α) (f' : List α) : Prop :=
  match label with
  | .shows event => Fifo.Step n f event f'
  | _ => f' = f

namespace QueueState.Holds

/-- The producer loads the head. -/
theorem loadHead (h : s.Holds f) : QueueState.Holds { s with queue := s.queue.loadHead } f :=
  ⟨h.counts.loadHead, h.stores, h.producer, h.consumer⟩

/-- The producer starts a batch for which there is room. -/
theorem begin (h : s.Holds f) (idle : s.producer = .idle) {values : List α} (room : values.length ≤ s.queue.loadHead.space)
    (ok : s.queue.Spares values) : QueueState.Holds { s with queue := s.queue.loadHead, producer := .writing values 0 } f := by
  rw [h.counts.space] at room
  have hlen := h.counts.length_le
  refine ⟨h.counts.loadHead, ?_, ⟨Nat.zero_le _, ?_, ?_⟩, h.consumer⟩
  · have := h.stores
    rw [idle] at this
    exact this
  · show f.length + values.length ≤ s.queue.capacity
    omega
  · exact h.counts.apart (by omega) ok

/-- The producer writes the next slot of its batch. -/
theorem write (h : s.Holds f) {values : List α} {index : Nat} (writing : s.producer = .writing values index) (more : index < values.length) :
    QueueState.Holds { s with queue := s.queue.writeSlot index values[index], producer := .writing values (index + 1) } f := by
  obtain ⟨hcounts, hstores, hfits, hknows⟩ := h
  rw [writing] at hstores hfits
  obtain ⟨_, hroom, hapart⟩ := hfits
  have hlen : (f ++ values.take index).length = f.length + index := by
    rw [List.length_append, List.length_take, Nat.min_eq_left more.le]
  refine ⟨⟨hcounts.publishedHead, hcounts.tail, hcounts.publishedTail, hcounts.length_le, hcounts.cachedTail⟩, ?_,
    ⟨more, hroom, hapart⟩, ?_⟩
  · show (s.queue.writeSlot index values[index]).Stores (f ++ values.take (index + 1))
    rw [List.take_succ_eq_append_getElem more, ← List.append_assoc]
    refine hstores.write hapart ?_ ?_
    · show s.queue.tail + UInt64.ofNat index = _
      rw [hcounts.tail, SpscQueue.counter_add]
      exact congrArg (fun n => s.queue.head + UInt64.ofNat n) hlen.symm
    · exact hlen.trans_lt (by omega)
  · cases hc : s.consumer <;> rw [hc] at hknows <;> exact hknows

/-- The producer publishes its batch. -/
theorem publish (h : s.Holds f) {values : List α} (written : s.producer = .writing values values.length) :
    QueueState.Holds { s with queue := s.queue.publishTail values.length, producer := .idle } (f ++ values) := by
  obtain ⟨hcounts, hstores, hfits, hknows⟩ := h
  rw [written] at hstores hfits
  refine ⟨hcounts.publishTail hfits.2.1, ?_, trivial, ?_⟩
  · show s.queue.Stores (f ++ values ++ [])
    rw [List.append_nil]
    simpa [ProducerPhase.written] using hstores
  · show s.consumer.Knows (s.queue.publishTail values.length) (f ++ values)
    cases hc : s.consumer with
    | idle => trivial
    | reading pop =>
      rw [hc] at hknows
      exact hknows
    | releasing value =>
      rw [hc] at hknows
      refine ⟨hknows.1, ?_⟩
      rw [List.head?_append, hknows.2]
      rfl

/-- The consumer loads the tail. -/
theorem loadTail (h : s.Holds f) (idle : s.consumer = .idle) : QueueState.Holds { s with queue := s.queue.loadTail } f := by
  refine ⟨h.counts.loadTail, h.stores, h.producer, ?_⟩
  show s.consumer.Knows _ f
  rw [idle]
  trivial

/-- The consumer has found a value. -/
theorem found (h : s.Holds f) (known : s.queue.head ≠ s.queue.cachedTail) (pop : Bool) :
    QueueState.Holds { s with consumer := .reading pop } f := ⟨h.counts, h.stores, h.producer, known⟩

/-- The consumer reads the value at the head. -/
theorem read (h : s.Holds f) {pop : Bool} (reading : s.consumer = .reading pop) : f.head? = some s.queue.readSlot := by
  have hknows := h.consumer
  rw [reading] at hknows
  have hstores := h.stores
  cases f with
  | nil => exact absurd rfl (h.counts.ne_nil hknows)
  | cons v f => rw [List.head?_cons, SpscQueue.Stores.head hstores]

/-- The consumer releases the value it has read. -/
theorem release (h : s.Holds f) {value : α} (releasing : s.consumer = .releasing value) :
    ∃ f', f = value :: f' ∧ QueueState.Holds { s with queue := s.queue.publishHead, consumer := .idle } f' := by
  obtain ⟨hcounts, hstores, hfits, hknows⟩ := h
  rw [releasing] at hknows
  obtain ⟨hknown, hhead⟩ := hknows
  obtain ⟨f', rfl⟩ := List.head?_eq_some_iff.mp hhead
  refine ⟨f', rfl, hcounts.publishHead hknown, SpscQueue.Stores.release hstores, ?_, trivial⟩
  show s.producer.Fits s.queue.publishHead f'
  cases hp : s.producer with
  | idle => trivial
  | writing values index =>
    rw [hp] at hfits
    obtain ⟨hindex, hroom, hapart⟩ := hfits
    rw [List.length_cons] at hroom hapart
    refine ⟨hindex, ?_, ?_⟩
    · show f'.length + values.length ≤ s.queue.capacity
      omega
    · rw [show f'.length + 1 + values.length = f'.length + values.length + 1 by omega] at hapart
      exact hapart.release

/-- Each step of a thread keeps the values, or does to them what the call it completes shows. -/
theorem step (h : s.Holds f) {label : QueueLabel α} (moves : QueueStep s label s')
    (meets : ∀ values, label = .begins values → s.queue.Spares values) :
    ∃ f', FifoMoves s.queue.capacity f label f' ∧ s'.Holds f' ∧ s'.queue.capacity = s.queue.capacity := by
  have hlen := h.counts.length_le
  cases moves with
  | available idle =>
    refine ⟨f, ?_, h.loadHead, rfl⟩
    rw [h.counts.space]
    exact .available
  | pushNothing idle =>
    refine ⟨f, ?_, h, rfl⟩
    have hpush : Fifo.Step s.queue.capacity f (.pushed [] true) (f ++ []) := .push (by simpa using hlen)
    rwa [List.append_nil] at hpush
  | pushTooMany idle many => exact ⟨f, .refuse (by omega), h, rfl⟩
  | pushRefused idle some few full =>
    refine ⟨f, .refuse ?_, h.loadHead, rfl⟩
    rw [h.counts.space] at full
    omega
  | pushLoad idle some few room => exact ⟨f, rfl, h.begin idle room (meets _ rfl), rfl⟩
  | pushWrite writing more => exact ⟨f, rfl, h.write writing more, rfl⟩
  | @pushPublish values written =>
    have hfits := h.producer
    rw [written] at hfits
    exact ⟨f ++ values, .push hfits.2.1, h.publish written, rfl⟩
  | takeCached pop idle known => exact ⟨f, rfl, h.found known pop, rfl⟩
  | takeLoad pop idle unknown found => exact ⟨f, rfl, (h.loadTail idle).found found pop, rfl⟩
  | takeNone pop idle unknown empty =>
    obtain rfl := h.counts.eq_nil empty
    refine ⟨[], ?_, h.loadTail idle, rfl⟩
    cases pop with
    | false => exact .peek
    | true => exact .popNone
  | peekRead reading =>
    refine ⟨f, ?_, ⟨h.counts, h.stores, h.producer, trivial⟩, rfl⟩
    rw [← h.read reading]
    exact .peek
  | popRead reading =>
    have hknows := h.consumer
    rw [reading] at hknows
    exact ⟨f, rfl, ⟨h.counts, h.stores, h.producer, hknows, h.read reading⟩, rfl⟩
  | popPublish releasing =>
    obtain ⟨f', rfl, hf'⟩ := h.release releasing
    exact ⟨f', .pop, hf', rfl⟩

end QueueState.Holds

/-- A queue between calls that holds nothing. -/
theorem SpscQueue.emptyAt_holds {capacity : Nat} {slots : Nat → α} {index : UInt64} {pos : 0 < capacity} {le : capacity ≤ kMaximumSpscCapacity} :
    QueueState.Holds ⟨SpscQueue.emptyAt capacity slots index pos le, .idle, .idle⟩ [] where
  counts := ⟨rfl, by simp [emptyAt], rfl, Nat.zero_le _, ⟨0, le_refl _, by simp [emptyAt]⟩⟩
  stores := fun j hj => absurd hj (by simp [ProducerPhase.written])
  producer := trivial
  consumer := trivial

/-- The state a run has reached, against the values of the queue it shows. -/
theorem QueueRun.holds {q : SpscQueue α} {es : List (QueueEvent α)} {f₀ : List α} (run : QueueRun SpscQueue.Spares q es s)
    (h : QueueState.Holds ⟨q, .idle, .idle⟩ f₀) : ∃ f, Fifo.Run q.capacity f₀ es f ∧ s.Holds f ∧ s.queue.capacity = q.capacity := by
  induction run with
  | start => exact ⟨f₀, .nil, h, rfl⟩
  | step before moves meets ih =>
    obtain ⟨f, hrun, hf, hcap⟩ := ih
    obtain ⟨f', hshows, hf', hcap'⟩ := hf.step moves meets
    refine ⟨f', ?_, hf', hcap'.trans hcap⟩
    rw [hcap] at hshows
    rename_i label
    cases label with
    | shows event => exact .snoc hrun hshows
    | begins values =>
      rw [show f' = f from hshows]
      simpa [QueueLabel.events] using hrun
    | silent =>
      rw [show f' = f from hshows]
      simpa [QueueLabel.events] using hrun

/-- One call, as its run shows it. -/
theorem QueueState.Holds.call {q q' : SpscQueue α} {f : List α} {event : QueueEvent α} (h : QueueState.Holds ⟨q, .idle, .idle⟩ f)
    (run : QueueRun SpscQueue.Spares q [event] ⟨q', .idle, .idle⟩) :
    ∃ f', Fifo.Step q.capacity f event f' ∧ QueueState.Holds ⟨q', .idle, .idle⟩ f' ∧ q'.capacity = q.capacity := by
  obtain ⟨f', hrun, hholds, hcapacity⟩ := run.holds h
  refine ⟨f', ?_, hholds, hcapacity⟩
  generalize hes : [event] = es at hrun
  cases hrun with
  | nil => cases hes
  | @snoc es' e g _ before step =>
    obtain ⟨rfl, rfl⟩ : es' = [] ∧ event = e := by
      have : [] = es' ∧ [event] = [e] := List.append_inj' hes rfl
      exact ⟨this.1.symm, List.singleton_inj.mp this.2⟩
    have hg : g = f := by
      generalize hnil : ([] : List (QueueEvent α)) = none at before
      cases before with
      | nil => rfl
      | snoc => exact absurd hnil.symm (List.append_ne_nil_of_right_ne_nil _ (List.cons_ne_nil _ _))
    rwa [hg] at step

/-! ## Calls without a pause -/

section Calls

variable {ok : SpscQueue α → List α → Prop} {q : SpscQueue α} {es : List (QueueEvent α)}

theorem QueueRun.silent (run : QueueRun ok q es s) (moves : QueueStep s .silent s') : QueueRun ok q es s' := by
  have := run.step moves (by rintro _ ⟨⟩)
  rwa [QueueLabel.events, List.append_nil] at this

theorem QueueRun.shows {event : QueueEvent α} (run : QueueRun ok q es s) (moves : QueueStep s (.shows event) s') :
    QueueRun ok q (es ++ [event]) s' := run.step moves (by rintro _ ⟨⟩)

/-- One value of a batch more. -/
theorem SpscQueue.writeBatch_take_succ (q : SpscQueue α) {values : List α} {index : Nat} (more : index < values.length) :
    q.writeBatch (values.take (index + 1)) = (q.writeBatch (values.take index)).writeSlot index values[index] := by
  rw [SpscQueue.writeBatch, SpscQueue.writeBatch, List.take_succ_eq_append_getElem more, List.zipIdx_append, List.foldl_append,
    List.length_take, Nat.min_eq_left more.le]
  simp

/-- The producer writes its batch slot by slot. -/
theorem QueueRun.writeBatch {values : List α} (run : QueueRun ok q es { s with producer := .writing values 0 }) :
    ∀ index ≤ values.length,
      QueueRun ok q es { s with queue := s.queue.writeBatch (values.take index), producer := .writing values index } := by
  intro index
  induction index with
  | zero => exact fun _ => run
  | succ index ih =>
    intro more
    have before := ih (Nat.le_of_succ_le more)
    rw [SpscQueue.writeBatch_take_succ _ more]
    exact before.silent (.pushWrite rfl more)

/-- A batch that is accepted, with no step of the consumer between the steps of the call. -/
theorem QueueRun.tryPushBatch {values : List α} (run : QueueRun ok q es s) (idle : s.producer = .idle) (meets : ok s.queue values) :
    QueueRun ok q (es ++ [.pushed values (s.queue.tryPushBatch values).1]) { s with queue := (s.queue.tryPushBatch values).2 } := by
  rw [SpscQueue.tryPushBatch]
  split
  case isTrue h =>
    rw [h]
    exact run.shows (.pushNothing idle)
  case isFalse some =>
  split
  case isTrue many => exact run.shows (.pushTooMany idle many)
  case isFalse few =>
  split
  case isTrue full => exact run.shows (.pushRefused idle some (Nat.not_lt.mp few) full)
  case isFalse room =>
  have began := run.step (.pushLoad idle some (Nat.not_lt.mp few) (Nat.not_lt.mp room)) (by rintro _ ⟨⟩; exact meets)
  rw [QueueLabel.events, List.append_nil] at began
  have wrote := QueueRun.writeBatch (s := { s with queue := s.queue.loadHead }) began values.length (le_refl _)
  rw [List.take_length] at wrote
  have published := wrote.shows (.pushPublish rfl)
  rw [← idle] at published
  exact published

/-- The first steps of a call of the consumer: it finds nothing, or it goes on to read. -/
theorem QueueRun.take (run : QueueRun ok q es s) (idle : s.consumer = .idle) (pop : Bool) :
    s.queue.tryPeek.1 = none ∧ QueueRun ok q (es ++ [emptyEvent pop]) { s with queue := s.queue.tryPeek.2 } ∨
      s.queue.tryPeek.1 = some s.queue.tryPeek.2.readSlot ∧
        QueueRun ok q es { s with queue := s.queue.tryPeek.2, consumer := .reading pop } := by
  rw [SpscQueue.tryPeek]
  by_cases unknown : s.queue.head = s.queue.cachedTail
  · rw [if_pos unknown]
    by_cases empty : s.queue.head = s.queue.loadTail.cachedTail
    · rw [show s.queue.loadTail.head = s.queue.head from rfl, if_pos empty]
      exact .inl ⟨rfl, run.shows (.takeNone pop idle unknown empty)⟩
    · rw [show s.queue.loadTail.head = s.queue.head from rfl, if_neg empty]
      exact .inr ⟨rfl, run.silent (.takeLoad pop idle unknown empty)⟩
  · rw [if_neg unknown, if_neg unknown]
    exact .inr ⟨rfl, run.silent (.takeCached pop idle unknown)⟩

/-- A `try_peek` with no step of the producer between its steps. -/
theorem QueueRun.tryPeek (run : QueueRun ok q es s) (idle : s.consumer = .idle) :
    QueueRun ok q (es ++ [.peeked s.queue.tryPeek.1]) { s with queue := s.queue.tryPeek.2 } := by
  obtain ⟨hnone, hrun⟩ | ⟨hsome, hrun⟩ := run.take idle false
  · rw [hnone]
    exact hrun
  · have read := hrun.shows (.peekRead rfl)
    rw [← idle] at read
    rw [hsome]
    exact read

/-- A `try_pop` with no step of the producer between its steps. -/
theorem QueueRun.tryPop (run : QueueRun ok q es s) (idle : s.consumer = .idle) :
    QueueRun ok q (es ++ [.popped s.queue.tryPop.1]) { s with queue := s.queue.tryPop.2 } := by
  obtain ⟨hnone, hrun⟩ | ⟨hsome, hrun⟩ := run.take idle true
  · rw [SpscQueue.tryPop, show s.queue.tryPeek = (none, s.queue.tryPeek.2) from Prod.ext hnone rfl]
    exact hrun
  · rw [SpscQueue.tryPop, show s.queue.tryPeek = (some s.queue.tryPeek.2.readSlot, s.queue.tryPeek.2) from Prod.ext hsome rfl]
    have released := (hrun.silent (.popRead rfl)).shows (.popPublish rfl)
    rw [← idle] at released
    exact released

end Calls

end MatchingEngine

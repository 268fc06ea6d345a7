import Mathlib.Logic.Function.Basic
import Mathlib.Data.List.Forall2
import Mathlib.Data.List.Induction
import Mathlib.Tactic.Ring

/-!
# Sequence locks

One writer publishes values in several registers, and any number of readers read them, a register at a time. The writer moves a version
to an odd number before its first store and to an even number after its last one; a reader loads the version, the registers and the
version again, and tries again when the version was odd or has changed. Each access of the version or of a register is a step, and the
steps of the writer and the readers are interleaved in any order. The version is a 64-bit counter.
-/

/-- A program that loads registers, one after the other. -/
inductive Loads {ι : Type} (V : ι → Type) (α : Type) where
  | done (a : α)
  | load (i : ι) (next : V i → Loads V α)

namespace Loads

variable {ι : Type} {V : ι → Type} {α β : Type}

/-- The load of one register. -/
def get (i : ι) : Loads V (V i) := .load i .done

/-- One program after the other. -/
def andThen : Loads V α → (α → Loads V β) → Loads V β
  | .done a, f => f a
  | .load i next, f => .load i fun v => (next v).andThen f

instance : Monad (Loads V) where
  pure := .done
  bind := andThen

/-- What a program reads when no register changes. -/
def eval (registers : ∀ i, V i) : Loads V α → α
  | .done a => a
  | .load i next => (next (registers i)).eval registers

@[simp]
theorem eval_pure (registers : ∀ i, V i) (a : α) : (pure a : Loads V α).eval registers = a := rfl

@[simp]
theorem eval_get (registers : ∀ i, V i) (i : ι) : (get i : Loads V (V i)).eval registers = registers i := rfl

@[simp]
theorem eval_bind (registers : ∀ i, V i) (p : Loads V α) (f : α → Loads V β) :
    (p >>= f).eval registers = (f (p.eval registers)).eval registers := by
  show (p.andThen f).eval registers = _
  induction p with
  | done a => rfl
  | load i next ih => exact ih (registers i)

end Loads

namespace Seqlock

variable {ι : Type} {V : ι → Type} {α σ ρ : Type}

/-- A store of one register. -/
abbrev Store (V : ι → Type) : Type := Σ i, V i

/-- The stores of a list, one after the other. -/
def applyStores [DecidableEq ι] (stores : List (Store V)) (registers : ∀ i, V i) : ∀ i, V i :=
  stores.foldl (fun registers store => Function.update registers store.1 store.2) registers

/-- Where the writer is: between two calls, or with stores left to do. -/
inductive WriterPhase (V : ι → Type) where
  | idle
  | storing (rest : List (Store V))

/-- Where a reader is: between two calls, before an attempt, or with loads left to do; `attempt` counts the attempts of the call that
came before. -/
inductive ReaderPhase (V : ι → Type) (α : Type) where
  | idle
  | trying (attempt : Nat)
  | loading (attempt : Nat) (before : UInt64) (rest : Loads V α)

/-- The lock, the writer and the readers. -/
structure State (V : ι → Type) (α ρ : Type) where
  version : UInt64
  registers : ∀ i, V i
  writer : WriterPhase V
  readers : ρ → ReaderPhase V α

/-- What a step shows: a call of the writer or a reader starts, a reader makes an attempt, a call of a reader returns. -/
inductive Event (α σ ρ : Type) where
  | publishes (value : σ)
  | starts (reader : ρ)
  | tries (reader : ρ)
  | returns (reader : ρ) (result : Option α)
  deriving DecidableEq

/-- What a lock is used for: the stores of a value, the loads of a reader, and the attempts of a call. -/
structure Protocol (V : ι → Type) (α σ : Type) where
  stores : σ → List (Store V)
  loads : Loads V α
  attempts : Nat

section

variable [DecidableEq ι] [DecidableEq ρ]

/-- A reader moves to another phase. -/
def State.at (s : State V α ρ) (r : ρ) (phase : ReaderPhase V α) : State V α ρ := { s with readers := Function.update s.readers r phase }

/-- One step of the writer or of a reader. -/
inductive Step (p : Protocol V α σ) : State V α ρ → Option (Event α σ ρ) → State V α ρ → Prop where
  | publish {s : State V α ρ} {value : σ} (idle : s.writer = .idle) :
      Step p s (some (.publishes value)) { s with version := s.version + 1, writer := .storing (p.stores value) }
  | store {s : State V α ρ} {i : ι} {v : V i} {rest : List (Store V)} (storing : s.writer = .storing (⟨i, v⟩ :: rest)) :
      Step p s none { s with registers := Function.update s.registers i v, writer := .storing rest }
  | stored {s : State V α ρ} (storing : s.writer = .storing []) :
      Step p s none { s with version := s.version + 1, writer := .idle }
  | start {s : State V α ρ} {r : ρ} (idle : s.readers r = .idle) : Step p s (some (.starts r)) (s.at r (.trying 0))
  | odd {s : State V α ρ} {r : ρ} {n : Nat} (trying : s.readers r = .trying n) (more : n < p.attempts) (odd : s.version &&& 1 ≠ 0) :
      Step p s (some (.tries r)) (s.at r (.trying (n + 1)))
  | even {s : State V α ρ} {r : ρ} {n : Nat} (trying : s.readers r = .trying n) (more : n < p.attempts) (even : s.version &&& 1 = 0) :
      Step p s (some (.tries r)) (s.at r (.loading n s.version p.loads))
  | load {s : State V α ρ} {r : ρ} {n : Nat} {before : UInt64} {i : ι} {next : V i → Loads V α}
      (loading : s.readers r = .loading n before (.load i next)) : Step p s none (s.at r (.loading n before (next (s.registers i))))
  | agree {s : State V α ρ} {r : ρ} {n : Nat} {before : UInt64} {a : α} (loaded : s.readers r = .loading n before (.done a))
      (same : before = s.version) : Step p s (some (.returns r (some a))) (s.at r .idle)
  | differ {s : State V α ρ} {r : ρ} {n : Nat} {before : UInt64} {a : α} (loaded : s.readers r = .loading n before (.done a))
      (changed : before ≠ s.version) : Step p s none (s.at r (.trying (n + 1)))
  | giveUp {s : State V α ρ} {r : ρ} {n : Nat} (trying : s.readers r = .trying n) (spent : p.attempts ≤ n) :
      Step p s (some (.returns r none)) (s.at r .idle)

/-- The state at the start. -/
def State.initial (registers : ∀ i, V i) : State V α ρ := ⟨0, registers, .idle, fun _ => .idle⟩

/-- A run from the start: its events, and the state it has reached. -/
inductive Run (p : Protocol V α σ) (registers : ∀ i, V i) : List (Event α σ ρ) → State V α ρ → Prop where
  | start : Run p registers [] (.initial registers)
  | step {es : List (Event α σ ρ)} {s s' : State V α ρ} {e : Option (Event α σ ρ)} (before : Run p registers es s) (moves : Step p s e s') :
      Run p registers (es ++ e.toList) s'

end

/-! ## Events -/

/-- The values published. -/
def published (es : List (Event α σ ρ)) : List σ :=
  es.filterMap fun e => match e with
    | .publishes value => some value
    | _ => none

section

variable [DecidableEq ρ]

/-- The states a reader was given, in order. -/
def reads (r : ρ) (es : List (Event α σ ρ)) : List α :=
  es.filterMap fun e => match e with
    | .returns r' result => if r' = r then result else none
    | _ => none

/-- The publishes since the last call of a reader has started. -/
def publishesSince (r : ρ) (es : List (Event α σ ρ)) : Nat :=
  es.foldl (fun n e => match e with
    | .publishes _ => n + 1
    | .starts r' => if r' = r then 0 else n
    | _ => n) 0

/-- The attempts since the last call of a reader has started. -/
def attemptsSince (r : ρ) (es : List (Event α σ ρ)) : Nat :=
  es.foldl (fun n e => match e with
    | .tries r' => if r' = r then n + 1 else n
    | .starts r' => if r' = r then 0 else n
    | _ => n) 0

/-- No call of a reader that gives a state has met `n` publishes. -/
def FewerDuringRead (n : Nat) (es : List (Event α σ ρ)) : Prop :=
  ∀ (es' : List (Event α σ ρ)) (r : ρ) (a : α), es' ++ [.returns r (some a)] <+: es → publishesSince r es' < n

end

/-- What is published, one part after the other. -/
@[simp]
theorem published_append (es es' : List (Event α σ ρ)) : published (es ++ es') = published es ++ published es' := List.filterMap_append

/-- What a reader reads, one part after the other. -/
@[simp]
theorem reads_append [DecidableEq ρ] (r : ρ) (es es' : List (Event α σ ρ)) : reads r (es ++ es') = reads r es ++ reads r es' :=
  List.filterMap_append

/-! ## The invariant -/

/-- The value of the `k`-th publish; the value at the start is the value of publish zero. -/
def valueAt (a₀ : α) (view : σ → α) (es : List (Event α σ ρ)) (k : Nat) : Option α := (a₀ :: (published es).map view)[k]?

/-- What has been published stays at its place. -/
theorem valueAt_append {a₀ : α} {view : σ → α} {es es' : List (Event α σ ρ)} {k : Nat} {a : α} (h : valueAt a₀ view es k = some a) :
    valueAt a₀ view (es ++ es') k = some a := by
  rw [valueAt, published_append, List.map_append, ← List.cons_append]
  exact List.getElem?_append_left (List.getElem?_eq_some_iff.mp h).1 |>.trans h

/-- The stores the writer has left. -/
def WriterPhase.rest : WriterPhase V → List (Store V)
  | .idle => []
  | .storing rest => rest

/-- The version counts the steps over which it moves, two a publish. -/
def VersionOk (es : List (Event α σ ρ)) (s : State V α ρ) : Prop :=
  match s.writer with
  | .idle => s.version = UInt64.ofNat (2 * (published es).length)
  | .storing _ => ∃ k, (published es).length = k + 1 ∧ s.version = UInt64.ofNat (2 * k + 1)

/-- An even sequence has no low bit. -/
theorem and_one_eq_zero {n : Nat} : UInt64.ofNat n &&& 1 = 0 ↔ n % 2 = 0 := by
  rw [← UInt64.toNat_inj, UInt64.toNat_and, UInt64.toNat_ofNat']
  show n % 2 ^ 64 &&& 1 = 0 ↔ _
  rw [Nat.and_one_is_mod]
  omega

/-- An even version is found between two publishes. -/
theorem VersionOk.even {es : List (Event α σ ρ)} {s : State V α ρ} (h : VersionOk es s) (even : s.version &&& 1 = 0) :
    s.writer = .idle ∧ s.version = UInt64.ofNat (2 * (published es).length) := by
  rw [VersionOk] at h
  cases hw : s.writer with
  | idle =>
    rw [hw] at h
    exact ⟨rfl, h⟩
  | storing rest =>
    rw [hw] at h
    obtain ⟨k, -, hv⟩ := h
    rw [hv, and_one_eq_zero] at even
    omega

/-- A version found again after less than `2 ^ 63` publishes is the version of the same publish. -/
theorem VersionOk.same {es : List (Event α σ ρ)} {s : State V α ρ} (h : VersionOk es s) {m n : Nat} (hn : n < 2 ^ 63)
    (hm : m ≤ (published es).length) (hs : (published es).length ≤ m + n) (same : UInt64.ofNat (2 * m) = s.version) :
    (published es).length = m := by
  rw [VersionOk] at h
  cases hw : s.writer with
  | idle =>
    rw [hw] at h
    have := congrArg UInt64.toNat (same.trans h)
    rw [UInt64.toNat_ofNat', UInt64.toNat_ofNat'] at this
    omega
  | storing rest =>
    rw [hw] at h
    obtain ⟨k, -, hv⟩ := h
    have := congrArg UInt64.toNat (same.trans hv)
    rw [UInt64.toNat_ofNat', UInt64.toNat_ofNat'] at this
    omega

section Invariant

variable [DecidableEq ρ] {p : Protocol V α σ} {a₀ : α} {view : σ → α}

/-- What a phase of a reader says. A reader with loads left has found the version of publish `m`, no earlier than what it was given
before; as long as no other publish has begun, its loads give what all the loads would give now. -/
def PhaseOk (p : Protocol V α σ) (es : List (Event α σ ρ)) (s : State V α ρ) (r : ρ) (ks : List Nat) : Prop :=
  match s.readers r with
  | .idle => attemptsSince r es ≤ p.attempts
  | .trying n => attemptsSince r es = n ∧ n ≤ p.attempts
  | .loading n before rest => attemptsSince r es = n + 1 ∧ n < p.attempts ∧
      ∃ m, before = UInt64.ofNat (2 * m) ∧ m ≤ (published es).length ∧ (published es).length ≤ m + publishesSince r es ∧ (∀ k ∈ ks, k ≤ m) ∧
        ((published es).length = m → s.writer = .idle ∧ rest.eval s.registers = p.loads.eval s.registers)

/-- What holds of a reader: the states it was given are those of the publishes `ks`, which never go back. -/
structure ReaderOk (p : Protocol V α σ) (a₀ : α) (view : σ → α) (es : List (Event α σ ρ)) (s : State V α ρ) (r : ρ) (ks : List Nat) : Prop where
  sorted : ks.Pairwise (· ≤ ·)
  bounded : ∀ k ∈ ks, k ≤ (published es).length
  given : List.Forall₂ (fun k a => valueAt a₀ view es k = some a) ks (reads r es)
  phase : PhaseOk p es s r ks

/-- A step of the writer or of another reader. -/
theorem ReaderOk.frame {es es' : List (Event α σ ρ)} {s s' : State V α ρ} {r : ρ} {ks : List Nat} (h : ReaderOk p a₀ view es s r ks)
    (reader : s'.readers r = s.readers r) (reading : reads r es' = []) (attempts : attemptsSince r (es ++ es') = attemptsSince r es)
    (since : publishesSince r (es ++ es') = publishesSince r es + (published es').length)
    (quiet : published es' = [] → s.writer = .idle → s'.writer = .idle ∧ s'.registers = s.registers) :
    ReaderOk p a₀ view (es ++ es') s' r ks where
  sorted := h.sorted
  bounded := fun k hk => Nat.le_trans (h.bounded k hk) (by simp)
  given := by
    rw [reads_append, reading, List.append_nil]
    exact h.given.imp fun _ _ => valueAt_append
  phase := by
    have hp := h.phase
    rw [PhaseOk] at hp ⊢
    rw [reader, attempts, since, published_append, List.length_append]
    cases hr : s.readers r with
    | idle => rwa [hr] at hp
    | trying n => rwa [hr] at hp
    | loading n before rest =>
      rw [hr] at hp
      obtain ⟨ha, hn, m, hb, hm, hs, hks, hq⟩ := hp
      refine ⟨ha, hn, m, hb, by omega, by omega, hks, fun he => ?_⟩
      obtain ⟨hidle, heval⟩ := hq (by omega)
      obtain ⟨hidle', hregs⟩ := quiet (List.eq_nil_of_length_eq_zero (by omega)) hidle
      exact ⟨hidle', by rw [hregs, heval]⟩

/-- A step of a reader that gives nothing: what its phase says is what has to be shown. -/
theorem ReaderOk.move {es es' : List (Event α σ ρ)} {s : State V α ρ} {r : ρ} {ks : List Nat} (h : ReaderOk p a₀ view es s r ks)
    {phase : ReaderPhase V α} (reading : reads r es' = []) (ok : PhaseOk p (es ++ es') (s.at r phase) r ks) :
    ReaderOk p a₀ view (es ++ es') (s.at r phase) r ks where
  sorted := h.sorted
  bounded := fun k hk => Nat.le_trans (h.bounded k hk) (by simp)
  given := by
    rw [reads_append, reading, List.append_nil]
    exact h.given.imp fun _ _ => valueAt_append
  phase := ok

/-- The phase of the reader that moves. -/
theorem State.at_readers (s : State V α ρ) (r : ρ) (phase : ReaderPhase V α) : (s.at r phase).readers r = phase := by
  simp [State.at]

theorem State.at_readers_of_ne (s : State V α ρ) {r r' : ρ} (phase : ReaderPhase V α) (h : r' ≠ r) :
    (s.at r phase).readers r' = s.readers r' := by
  simp [State.at, h]

/-- The attempts of a call are within its limit. -/
theorem ReaderOk.attempts_le {es : List (Event α σ ρ)} {s : State V α ρ} {r : ρ} {ks : List Nat} (h : ReaderOk p a₀ view es s r ks) :
    attemptsSince r es ≤ p.attempts := by
  have hp := h.phase
  rw [PhaseOk] at hp
  cases hr : s.readers r with
  | idle => rwa [hr] at hp
  | trying n =>
    rw [hr] at hp
    rw [hp.1]
    exact hp.2
  | loading n before rest =>
    rw [hr] at hp
    rw [hp.1]
    exact hp.2.1

variable [DecidableEq ι]

/-- A call that gives nothing has made all its attempts. -/
theorem ReaderOk.attempts_of_none {es : List (Event α σ ρ)} {s s' : State V α ρ} {r : ρ} {ks : List Nat}
    (h : ReaderOk p a₀ view es s r ks) (moves : Step p s (some (.returns r none)) s') : attemptsSince r es = p.attempts := by
  cases moves with
  | giveUp trying spent =>
    have hp := h.phase
    rw [PhaseOk, trying] at hp
    exact hp.1.trans (Nat.le_antisymm hp.2 spent)

/-- What holds of a state that a run has reached. -/
structure Invariant (p : Protocol V α σ) (a₀ : α) (view : σ → α) (es : List (Event α σ ρ)) (s : State V α ρ) : Prop where
  version : VersionOk es s
  current : valueAt a₀ view es (published es).length = some (p.loads.eval (applyStores s.writer.rest s.registers))
  readers : ∀ r, ∃ ks, ReaderOk p a₀ view es s r ks

/-- A step of one reader, for the others. -/
theorem Invariant.at {es es' : List (Event α σ ρ)} {s : State V α ρ} {r : ρ} {phase : ReaderPhase V α} (h : Invariant p a₀ view es s)
    (none : published es' = [])
    (others : ∀ r' ≠ r, reads r' es' = [] ∧ attemptsSince r' (es ++ es') = attemptsSince r' es ∧
      publishesSince r' (es ++ es') = publishesSince r' es)
    (own : ∃ ks, ReaderOk p a₀ view (es ++ es') (s.at r phase) r ks) : Invariant p a₀ view (es ++ es') (s.at r phase) where
  version := by
    have hv := h.version
    rw [VersionOk] at hv ⊢
    rw [published_append, none, List.append_nil]
    exact hv
  current := by
    rw [valueAt, published_append, none, List.append_nil]
    exact h.current
  readers := by
    intro r'
    by_cases hr : r' = r
    · rw [hr]
      exact own
    obtain ⟨hreads, hattempts, hsince⟩ := others r' hr
    obtain ⟨ks, hks⟩ := h.readers r'
    exact ⟨ks, hks.frame (s.at_readers_of_ne phase hr) hreads hattempts (by rw [hsince, none]; rfl) fun _ hidle => ⟨hidle, rfl⟩⟩

theorem Invariant.publish {es : List (Event α σ ρ)} {s : State V α ρ} {value : σ} (h : Invariant p a₀ view es s)
    (complete : ∀ registers value, p.loads.eval (applyStores (p.stores value) registers) = view value) (idle : s.writer = .idle) :
    Invariant p a₀ view (es ++ [.publishes value]) { s with version := s.version + 1, writer := .storing (p.stores value) } where
  version := by
    have hv := h.version
    rw [VersionOk, idle] at hv
    refine ⟨(published es).length, by simp [published], ?_⟩
    show s.version + 1 = _
    rw [hv, UInt64.ofNat_add]
    rfl
  current := by
    show _ = some (p.loads.eval (applyStores (p.stores value) s.registers))
    rw [complete]
    simp [valueAt, published]
  readers := by
    intro r
    obtain ⟨ks, hks⟩ := h.readers r
    refine ⟨ks, hks.frame rfl rfl ?_ ?_ ?_⟩
    · simp [attemptsSince]
    · simp [publishesSince, published]
    · intro hnone
      simp [published] at hnone

/-- A step of the writer inside a publish. -/
theorem Invariant.write {es : List (Event α σ ρ)} {s s' : State V α ρ} {rest : List (Store V)} (h : Invariant p a₀ view es s)
    (storing : s.writer = .storing rest) (readers : s'.readers = s.readers) (version : VersionOk es s')
    (left : applyStores s'.writer.rest s'.registers = applyStores rest s.registers) : Invariant p a₀ view (es ++ []) s' where
  version := by rwa [List.append_nil]
  current := by
    have hc := h.current
    rw [storing] at hc
    rw [List.append_nil, left]
    exact hc
  readers := by
    intro r
    obtain ⟨ks, hks⟩ := h.readers r
    refine ⟨ks, hks.frame (congrFun readers r) rfl ?_ ?_ ?_⟩
    · rw [List.append_nil]
    · rw [List.append_nil]
      rfl
    · intro _ hidle
      rw [storing] at hidle
      exact absurd hidle nofun

/-- A reader takes up the version of the last publish. -/
theorem Invariant.even {es : List (Event α σ ρ)} {s : State V α ρ} {r : ρ} {n : Nat} (h : Invariant p a₀ view es s)
    (trying : s.readers r = .trying n) (more : n < p.attempts) (even : s.version &&& 1 = 0) :
    Invariant p a₀ view (es ++ [.tries r]) (s.at r (.loading n s.version p.loads)) := by
  obtain ⟨hidle, hv⟩ := h.version.even even
  refine h.at rfl (fun r' hr => ?_) ?_
  · simp [reads, attemptsSince, publishesSince, Ne.symm hr]
  obtain ⟨ks, hks⟩ := h.readers r
  have hphase := hks.phase
  rw [PhaseOk, trying] at hphase
  refine ⟨ks, hks.move rfl ?_⟩
  rw [PhaseOk, State.at_readers, published_append]
  refine ⟨by simp [attemptsSince, ← hphase.1], more, (published es).length, hv, ?_, ?_, hks.bounded, fun _ => ⟨hidle, rfl⟩⟩
  · simp [published]
  · simp [published]

/-- A read that returns gives the state of the last publish. What was loaded is what the registers hold, and between two publishes this is
the last value. -/
theorem Invariant.agree {es : List (Event α σ ρ)} {s : State V α ρ} {r : ρ} {n : Nat} {before : UInt64} {a : α}
    (h : Invariant p a₀ view es s) (few : publishesSince r es < 2 ^ 63) (loaded : s.readers r = .loading n before (.done a))
    (same : before = s.version) : Invariant p a₀ view (es ++ [.returns r (some a)]) (s.at r .idle) := by
  refine h.at rfl (fun r' hr => ?_) ?_
  · simp [reads, attemptsSince, publishesSince, Ne.symm hr]
  obtain ⟨ks, hks⟩ := h.readers r
  have hphase := hks.phase
  rw [PhaseOk, loaded] at hphase
  obtain ⟨hattempts, hn, m, hb, hm, hs, hle, hquiet⟩ := hphase
  have hlen := h.version.same few hm hs (hb.symm.trans same)
  obtain ⟨hidle, heval⟩ := hquiet hlen
  have ha : valueAt a₀ view es m = some a := by
    have hc := h.current
    rw [hidle, hlen] at hc
    exact hc.trans (congrArg some heval.symm)
  refine ⟨ks ++ [m], ⟨?_, ?_, ?_, ?_⟩⟩
  · exact List.pairwise_append.mpr ⟨hks.sorted, List.pairwise_singleton _ _, fun k hk j hj => by rw [List.mem_singleton.mp hj]; exact hle k hk⟩
  · intro k hk
    rcases List.mem_append.mp hk with hk | hk
    · exact Nat.le_trans (hks.bounded k hk) (by simp)
    · rw [List.mem_singleton.mp hk]
      exact Nat.le_trans hm (by simp)
  · rw [reads_append, show reads r ([.returns r (some a)] : List (Event α σ ρ)) = [a] by simp [reads]]
    exact List.rel_append (hks.given.imp fun _ _ => valueAt_append) (.cons (valueAt_append ha) .nil)
  · rw [PhaseOk, State.at_readers]
    have : attemptsSince r (es ++ [.returns r (some a)]) = attemptsSince r es := by simp [attemptsSince]
    show _ ≤ _
    omega

/-- Each step keeps the invariant. -/
theorem Invariant.step {es : List (Event α σ ρ)} {s s' : State V α ρ} {e : Option (Event α σ ρ)} (h : Invariant p a₀ view es s)
    (complete : ∀ registers value, p.loads.eval (applyStores (p.stores value) registers) = view value)
    (few : ∀ r a, e = some (.returns r (some a)) → publishesSince r es < 2 ^ 63) (moves : Step p s e s') :
    Invariant p a₀ view (es ++ e.toList) s' := by
  cases moves with
  | publish idle => exact h.publish complete idle
  | @store i v rest storing =>
    refine h.write storing rfl ?_ rfl
    have hv := h.version
    rw [VersionOk, storing] at hv
    exact hv
  | stored storing =>
    refine h.write storing rfl ?_ rfl
    have hv := h.version
    rw [VersionOk, storing] at hv
    obtain ⟨k, hk, hv⟩ := hv
    show s.version + 1 = UInt64.ofNat (2 * (published es).length)
    rw [hv, hk, show 2 * (k + 1) = 2 * k + 1 + 1 by omega, UInt64.ofNat_add (2 * k + 1)]
    rfl
  | @start r hr =>
    refine h.at rfl (fun r' hr => by simp [reads, attemptsSince, publishesSince, Ne.symm hr]) ?_
    obtain ⟨ks, hks⟩ := h.readers r
    refine ⟨ks, hks.move rfl ?_⟩
    rw [PhaseOk, State.at_readers]
    exact ⟨by simp [attemptsSince], Nat.zero_le _⟩
  | @odd r n trying more odd =>
    refine h.at rfl (fun r' hr => by simp [reads, attemptsSince, publishesSince, Ne.symm hr]) ?_
    obtain ⟨ks, hks⟩ := h.readers r
    have hphase := hks.phase
    rw [PhaseOk, trying] at hphase
    refine ⟨ks, hks.move rfl ?_⟩
    rw [PhaseOk, State.at_readers]
    exact ⟨by simp [attemptsSince, ← hphase.1], more⟩
  | even trying more even => exact h.even trying more even
  | @load r n before i next loading =>
    refine h.at rfl (fun r' hr => by simp [reads]) ?_
    obtain ⟨ks, hks⟩ := h.readers r
    have hphase := hks.phase
    rw [PhaseOk, loading] at hphase
    refine ⟨ks, hks.move rfl ?_⟩
    rw [PhaseOk, State.at_readers, Option.toList_none, List.append_nil]
    exact hphase
  | agree loaded same => exact h.agree (few _ _ rfl) loaded same
  | @differ r n before a loaded changed =>
    refine h.at rfl (fun r' hr => by simp [reads]) ?_
    obtain ⟨ks, hks⟩ := h.readers r
    have hphase := hks.phase
    rw [PhaseOk, loaded] at hphase
    refine ⟨ks, hks.move rfl ?_⟩
    rw [PhaseOk, State.at_readers]
    exact ⟨by simpa using hphase.1, hphase.2.1⟩
  | @giveUp r n trying spent =>
    refine h.at rfl (fun r' hr => by simp [reads, attemptsSince, publishesSince, Ne.symm hr]) ?_
    obtain ⟨ks, hks⟩ := h.readers r
    have hphase := hks.phase
    rw [PhaseOk, trying] at hphase
    refine ⟨ks, hks.move (by simp [reads]) ?_⟩
    rw [PhaseOk, State.at_readers]
    show attemptsSince r (es ++ [.returns r none]) ≤ _
    have : attemptsSince r (es ++ [.returns r none]) = attemptsSince r es := by simp [attemptsSince]
    omega

/-- The invariant holds of every state a run reaches, as long as each read meets less than `2 ^ 63` publishes. -/
theorem Run.invariant {registers : ∀ i, V i} {es : List (Event α σ ρ)} {s : State V α ρ} (run : Run p registers es s)
    (initial : p.loads.eval registers = a₀)
    (complete : ∀ registers value, p.loads.eval (applyStores (p.stores value) registers) = view value)
    (few : FewerDuringRead (2 ^ 63) es) : Invariant p a₀ view es s := by
  induction run with
  | start =>
    refine ⟨rfl, ?_, fun r => ⟨[], .nil, nofun, .nil, Nat.zero_le _⟩⟩
    show some a₀ = _
    rw [← initial]
    rfl
  | step before moves ih =>
    have hbefore := ih fun es' r a hp => few es' r a (hp.trans (List.prefix_append _ _))
    refine hbefore.step complete (fun r a he => ?_) moves
    subst he
    exact few _ r a (List.prefix_refl _)

/-! ## Parts of a run -/

/-- The step of a run that has shown an event. -/
theorem Run.shown {registers : ∀ i, V i} {es es' : List (Event α σ ρ)} {s : State V α ρ} {e : Event α σ ρ} (run : Run p registers es s)
    (shown : es' ++ [e] <+: es) : ∃ t t', Run p registers es' t ∧ Step p t (some e) t' := by
  induction run with
  | start => exact absurd (List.prefix_nil.mp shown) (by simp)
  | step before moves ih =>
    rename_i e'
    cases e' with
    | none =>
      rw [Option.toList_none, List.append_nil] at shown
      exact ih shown
    | some e' =>
      rcases List.prefix_concat_iff.mp shown with hlast | hearlier
      · obtain ⟨rfl, he⟩ := List.append_inj' hlast rfl
        rw [List.singleton_inj.mp he]
        exact ⟨_, _, before, moves⟩
      · exact ih hearlier

/-- No more are published since than are published. -/
theorem publishesSince_le (r : ρ) (es : List (Event α σ ρ)) : publishesSince r es ≤ (published es).length := by
  induction es using List.reverseRecOn with
  | nil => exact Nat.le_refl 0
  | append_singleton es e ih =>
    rw [publishesSince] at ih
    rw [published_append, List.length_append, publishesSince, List.foldl_append]
    cases e with
    | publishes value => exact Nat.succ_le_succ ih
    | starts r' =>
      show (if r' = r then 0 else _) ≤ _
      split
      · exact Nat.zero_le _
      · exact ih
    | tries r' => exact ih
    | returns r' result => exact ih

/-- In a run of few publishes no read meets more of them. -/
theorem fewerDuringRead_of_published {es : List (Event α σ ρ)} {n : Nat} (h : (published es).length < n) : FewerDuringRead n es := by
  rintro es' r a ⟨rest, rfl⟩
  refine Nat.lt_of_le_of_lt (publishesSince_le r es') (Nat.lt_of_le_of_lt ?_ h)
  rw [List.append_assoc, published_append, List.length_append]
  exact Nat.le_add_right _ _

section Calls

variable {registers : ∀ i, V i} {es : List (Event α σ ρ)} {s : State V α ρ}

theorem Run.silent (run : Run p registers es s) {s' : State V α ρ} (moves : Step p s none s') : Run p registers es s' := by
  have := run.step moves
  rwa [Option.toList_none, List.append_nil] at this

/-- The stores of the writer, with no step of a reader between them. -/
theorem Run.stores (run : Run p registers es s) {rest : List (Store V)} (storing : s.writer = .storing rest) :
    Run p registers es { s with registers := applyStores rest s.registers, writer := .storing [] } := by
  induction rest generalizing s with
  | nil =>
    rw [← storing]
    exact run
  | cons store rest ih => exact ih (run.silent (.store storing)) rfl

/-- A publish with no step of a reader between its steps. -/
theorem Run.publish (run : Run p registers es s) (idle : s.writer = .idle) (value : σ) :
    Run p registers (es ++ [.publishes value])
      { s with version := s.version + 1 + 1, registers := applyStores (p.stores value) s.registers, writer := .idle } := by
  have began : Run p registers (es ++ [.publishes value]) _ := run.step (.publish idle)
  exact (began.stores rfl).silent (.stored rfl)

/-- The loads of a reader, with no step of the writer between them. -/
theorem Run.loads (run : Run p registers es s) {r : ρ} {n : Nat} {before : UInt64} {rest : Loads V α}
    (loading : s.readers r = .loading n before rest) :
    Run p registers es (s.at r (.loading n before (.done (rest.eval s.registers)))) := by
  induction rest generalizing s with
  | done a =>
    rw [Loads.eval, ← loading, State.at, Function.update_eq_self]
    exact run
  | load i next ih =>
    have loaded := ih (s.registers i) (run.silent (.load loading)) (s.at_readers r _)
    rw [State.at, State.at, Function.update_idem] at loaded
    exact loaded

/-- A read with no step of the writer between its steps. -/
theorem Run.read (run : Run p registers es s) {r : ρ} (idle : s.readers r = .idle) (even : s.version &&& 1 = 0) (once : 0 < p.attempts) :
    Run p registers (es ++ [.starts r] ++ [.tries r] ++ [.returns r (some (p.loads.eval s.registers))]) s := by
  have tried : Run p registers (es ++ [.starts r] ++ [.tries r]) _ := (run.step (.start idle)).step (.even (s.at_readers r _) once even)
  have loaded := tried.loads (State.at_readers _ r _)
  have read := loaded.step (.agree (State.at_readers _ r _) rfl)
  rw [State.at, State.at, State.at, State.at, Function.update_idem, Function.update_idem, Function.update_idem, ← idle,
    Function.update_eq_self] at read
  exact read

end Calls

end Invariant

/-! ## Schedules -/

/-- Who takes the next step: the writer starts a call or goes on with it, or a reader goes on. -/
inductive Move (σ ρ : Type) where
  | publish (value : σ)
  | write
  | read (reader : ρ)

section

variable [DecidableEq ι] [DecidableEq ρ]

/-- The step of a move; none where the writer cannot take it. -/
def State.move (p : Protocol V α σ) (s : State V α ρ) : Move σ ρ → Option (Option (Event α σ ρ) × State V α ρ)
  | .publish value =>
    match s.writer with
    | .idle => some (some (.publishes value), { s with version := s.version + 1, writer := .storing (p.stores value) })
    | .storing _ => none
  | .write =>
    match s.writer with
    | .idle => none
    | .storing (⟨i, v⟩ :: rest) => some (none, { s with registers := Function.update s.registers i v, writer := .storing rest })
    | .storing [] => some (none, { s with version := s.version + 1, writer := .idle })
  | .read r =>
    match s.readers r with
    | .idle => some (some (.starts r), s.at r (.trying 0))
    | .trying n =>
      if n < p.attempts then
        some (some (.tries r), s.at r (if s.version &&& 1 = 0 then .loading n s.version p.loads else .trying (n + 1)))
      else some (some (.returns r none), s.at r .idle)
    | .loading n before (.load i next) => some (none, s.at r (.loading n before (next (s.registers i))))
    | .loading n before (.done a) =>
      if before = s.version then some (some (.returns r (some a)), s.at r .idle) else some (none, s.at r (.trying (n + 1)))

/-- The steps of a schedule: their events, and the state after them. -/
def runSchedule (p : Protocol V α σ) : List (Move σ ρ) → State V α ρ → Option (List (Event α σ ρ) × State V α ρ)
  | [], s => some ([], s)
  | move :: moves, s => (s.move p move).bind fun r => (runSchedule p moves r.2).map fun rest => (r.1.toList ++ rest.1, rest.2)

variable {p : Protocol V α σ} {registers : ∀ i, V i} {s s' : State V α ρ}

/-- A move is a step. -/
theorem step_of_move {move : Move σ ρ} {e : Option (Event α σ ρ)} (h : s.move p move = some (e, s')) : Step p s e s' := by
  unfold State.move at h
  split at h
  · split at h
    · rename_i idle
      cases h
      exact .publish idle
    · cases h
  · split at h
    · cases h
    · rename_i storing
      cases h
      exact .store storing
    · rename_i storing
      cases h
      exact .stored storing
  · split at h
    · rename_i idle
      cases h
      exact .start idle
    · rename_i trying
      split at h
      · rename_i more
        cases h
        split
        · rename_i even
          exact .even trying more even
        · rename_i odd
          exact .odd trying more odd
      · rename_i spent
        cases h
        exact .giveUp trying (Nat.not_lt.mp spent)
    · rename_i loading
      cases h
      exact .load loading
    · rename_i loaded
      split at h
      · rename_i same
        cases h
        exact .agree loaded same
      · rename_i changed
        cases h
        exact .differ loaded changed

/-- A schedule is a run. -/
theorem run_of_schedule {moves : List (Move σ ρ)} {es shown : List (Event α σ ρ)} (h : runSchedule p moves s = some (shown, s'))
    (before : Run p registers es s) : Run p registers (es ++ shown) s' := by
  induction moves generalizing s es shown with
  | nil =>
    cases h
    rw [List.append_nil]
    exact before
  | cons move moves ih =>
    obtain ⟨⟨e, next⟩, hmove, h⟩ := Option.bind_eq_some_iff.mp h
    obtain ⟨⟨rest, final⟩, hrest, hpair⟩ := Option.map_eq_some_iff.mp h
    cases hpair
    have hrun := ih hrest (before.step (step_of_move hmove))
    rw [List.append_assoc] at hrun
    exact hrun

end

end Seqlock

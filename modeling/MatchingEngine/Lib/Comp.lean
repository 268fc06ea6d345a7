import Mathlib.Logic.Basic

/-!
# Computations that may not return

A `Comp α` is a computation indexed by fuel: `run n` is its result when `n` rounds of any of its loops suffice, and more fuel
never changes a result (`mono`). A loop is `Comp.loop`; everything else is `pure` and `bind`. What a computation does is said
with `Returns` (some fuel gives the result), `Terminates` and the relation `Sim` (two computations return together, with
related results). The rules below are the only way the proofs reason about fuel.
-/

/-- A computation with a bound on the rounds of its loops: more fuel never changes a result. -/
structure Comp (α : Type) where
  run : Nat → Option α
  mono : ∀ n a, run n = some a → ∀ m, n ≤ m → run m = some a

/-- What one round of a loop ends with: another round, or the loop's result. -/
inductive Turn (σ ρ : Type) where
  | next (s : σ)
  | done (r : ρ)

/-- A round whose state and result are mapped. -/
def Turn.map {σ τ ρ π : Type} (f : σ → τ) (g : ρ → π) : Turn σ ρ → Turn τ π
  | .next s => .next (f s)
  | .done r => .done (g r)

namespace Comp

variable {α β γ δ σ τ ρ π : Type}

/-- The computation that returns at once. -/
protected def pure (a : α) : Comp α where
  run _ := some a
  mono _ _ h _ _ := h

/-- One computation after another, on the same fuel. -/
protected def bind (c : Comp α) (f : α → Comp β) : Comp β where
  run n := (c.run n).bind fun a => (f a).run n
  mono n b h m hm := by
    obtain ⟨a, ha, hb⟩ := Option.bind_eq_some_iff.mp h
    exact Option.bind_eq_some_iff.mpr ⟨a, c.mono n a ha m hm, (f a).mono n b hb m hm⟩

instance : Monad Comp where
  pure := Comp.pure
  bind := Comp.bind

/-- Computations that give the same result on every fuel are the same. -/
theorem ext_run {c d : Comp α} (h : ∀ n, c.run n = d.run n) : c = d := by
  cases c
  cases d
  simp only [mk.injEq]
  exact funext h

instance : LawfulMonad Comp :=
  LawfulMonad.mk' Comp
    (fun c => ext_run fun n => Option.bind_fun_some (c.run n))
    (fun _ _ => rfl)
    (fun c _ _ => ext_run fun n => Option.bind_assoc (c.run n) _ _)

/-- The rounds of a loop: each costs one unit of fuel. -/
def loopRun (body : σ → Comp (Turn σ ρ)) : Nat → σ → Option ρ
  | 0, _ => none
  | n + 1, s =>
    match (body s).run n with
    | none => none
    | some (.done r) => some r
    | some (.next s') => loopRun body n s'

/-- More fuel gives the same result. -/
theorem loopRun_mono (body : σ → Comp (Turn σ ρ)) :
    ∀ n s r, loopRun body n s = some r → ∀ m, n ≤ m → loopRun body m s = some r := by
  intro n
  induction n with
  | zero =>
    intro s r h
    cases h
  | succ n ih =>
    intro s r h m hm
    obtain ⟨m, rfl⟩ := Nat.exists_eq_add_of_le' (Nat.le_trans (Nat.le_add_left 1 n) hm)
    simp only [loopRun] at h ⊢
    cases hb : (body s).run n with
    | none => simp [hb] at h
    | some t =>
      rw [(body s).mono n t hb m (by omega)]
      rw [hb] at h
      cases t with
      | done r' => exact h
      | next s' => exact ih s' r h m (by omega)

/-- The loop that runs `body` until it is done. -/
def loop (body : σ → Comp (Turn σ ρ)) (s : σ) : Comp ρ where
  run n := loopRun body n s
  mono n r h m hm := loopRun_mono body n s r h m hm

/-- A loop on mapped states, when its rounds are those of another loop, mapped. -/
theorem loop_map {body : σ → Comp (Turn σ ρ)} {body' : τ → Comp (Turn τ π)} (f : σ → τ) (g : ρ → π)
    (h : ∀ s, body' (f s) = Turn.map f g <$> body s) (s : σ) : loop body' (f s) = g <$> loop body s := by
  refine ext_run fun n => ?_
  show loopRun body' n (f s) = (loopRun body n s).bind fun r => some (g r)
  induction n generalizing s with
  | zero => rfl
  | succ n ih =>
    have hround : (body' (f s)).run n = ((body s).run n).bind fun t => some (Turn.map f g t) := congrArg (fun c => c.run n) (h s)
    simp only [loopRun, hround]
    cases (body s).run n with
    | none => rfl
    | some t =>
      cases t with
      | next s' => exact ih s'
      | done r => rfl

/-- The computation returns `a`: some fuel gives `a`, and then so does any more. -/
def Returns (c : Comp α) (a : α) : Prop := ∃ n, c.run n = some a

/-- The computation returns. -/
def Terminates (c : Comp α) : Prop := ∃ a, c.Returns a

/-- A computation returns at most one result. -/
theorem Returns.unique {c : Comp α} {a b : α} (ha : c.Returns a) (hb : c.Returns b) : a = b := by
  obtain ⟨n, hn⟩ := ha
  obtain ⟨m, hm⟩ := hb
  have h1 := c.mono n a hn (max n m) (Nat.le_max_left _ _)
  have h2 := c.mono m b hm (max n m) (Nat.le_max_right _ _)
  rw [h1] at h2
  exact Option.some.inj h2

@[simp] theorem returns_pure (a b : α) : (pure a : Comp α).Returns b ↔ a = b :=
  ⟨fun ⟨_, h⟩ => Option.some.inj h, fun h => ⟨0, congrArg some h⟩⟩

/-- A sequence returns through its first part. -/
@[simp] theorem returns_bind (c : Comp α) (f : α → Comp β) (b : β) :
    (c >>= f).Returns b ↔ ∃ a, c.Returns a ∧ (f a).Returns b := by
  constructor
  · rintro ⟨n, h⟩
    obtain ⟨a, ha, hb⟩ := Option.bind_eq_some_iff.mp h
    exact ⟨a, ⟨n, ha⟩, ⟨n, hb⟩⟩
  · rintro ⟨a, ⟨n, hn⟩, ⟨m, hm⟩⟩
    refine ⟨max n m, Option.bind_eq_some_iff.mpr ⟨a, ?_, ?_⟩⟩
    · exact c.mono n a hn _ (Nat.le_max_left _ _)
    · exact (f a).mono m b hm _ (Nat.le_max_right _ _)

/-- What follows the results of a computation decides a sequence. -/
theorem bind_congr_returns {c : Comp α} {f g : α → Comp β} (h : ∀ a, c.Returns a → f a = g a) : c >>= f = c >>= g := by
  refine ext_run fun n => ?_
  show (c.run n).bind _ = (c.run n).bind _
  cases hc : c.run n with
  | none => rfl
  | some a => exact congrArg (fun d => d.run n) (h a ⟨n, hc⟩)

/-- A loop returns by a first round that is done, or by a first round and the loop from the state it leaves. -/
theorem returns_loop (body : σ → Comp (Turn σ ρ)) (s : σ) (r : ρ) :
    (loop body s).Returns r ↔
      (body s).Returns (.done r) ∨ ∃ s', (body s).Returns (.next s') ∧ (loop body s').Returns r := by
  constructor
  · rintro ⟨n, h⟩
    cases n with
    | zero => cases h
    | succ n =>
      simp only [loop, loopRun] at h
      split at h
      · cases h
      · rename_i r' hb
        exact Or.inl ⟨n, by rw [hb, Option.some.inj h]⟩
      · rename_i s' hb
        exact Or.inr ⟨s', ⟨n, hb⟩, ⟨n, h⟩⟩
  · rintro (⟨n, h⟩ | ⟨s', ⟨n, hn⟩, ⟨m, hm⟩⟩)
    · exact ⟨n + 1, by simp only [loop, loopRun, h]⟩
    · refine ⟨max n m + 1, ?_⟩
      have h1 := (body s).mono n _ hn (max n m) (Nat.le_max_left _ _)
      have h2 := (loop body s').mono m _ hm (max n m) (Nat.le_max_right _ _)
      simp only [loop, loopRun, h1]
      exact h2

/-- Induction over the rounds of a loop that returns. -/
theorem loop_induct {body : σ → Comp (Turn σ ρ)} {P : σ → ρ → Prop}
    (done : ∀ s r, (body s).Returns (.done r) → P s r)
    (next : ∀ s s' r, (body s).Returns (.next s') → (loop body s').Returns r → P s' r → P s r) :
    ∀ {s r}, (loop body s).Returns r → P s r := by
  have key : ∀ n s r, (loop body s).run n = some r → P s r := by
    intro n
    induction n with
    | zero =>
      intro s r h
      cases h
    | succ n ih =>
      intro s r h
      simp only [loop, loopRun] at h
      split at h
      · cases h
      · rename_i r' hb
        exact done s r ⟨n, by rw [hb, Option.some.inj h]⟩
      · rename_i s' hb
        exact next s s' r ⟨n, hb⟩ ⟨n, h⟩ (ih s' r h)
  rintro s r ⟨n, h⟩
  exact key n s r h

/-- The invariant rule: what every round keeps, and its last round turns into `Q`, holds of the result. -/
theorem loop_invariant {body : σ → Comp (Turn σ ρ)} {I : σ → Prop} {Q : ρ → Prop}
    (next : ∀ s s', I s → (body s).Returns (.next s') → I s')
    (done : ∀ s r, I s → (body s).Returns (.done r) → Q r) {s : σ} {r : ρ} (hs : I s)
    (h : (loop body s).Returns r) : Q r :=
  loop_induct (P := fun s r => I s → Q r) (fun s r hb hi => done s r hi hb)
    (fun s s' _ hb _ ih hi => ih (next s s' hi hb)) h hs

/-- The variant rule: a loop whose every round is done or goes on from a state of the invariant with a smaller measure
returns. -/
theorem loop_terminates {body : σ → Comp (Turn σ ρ)} (I : σ → Prop) (μ : σ → Nat)
    (h : ∀ s, I s → (∃ r, (body s).Returns (.done r)) ∨ ∃ s', (body s).Returns (.next s') ∧ I s' ∧ μ s' < μ s) :
    ∀ s, I s → (loop body s).Terminates := by
  have key : ∀ n s, μ s ≤ n → I s → (loop body s).Terminates := by
    intro n
    induction n with
    | zero =>
      intro s hn hi
      rcases h s hi with ⟨r, hr⟩ | ⟨s', -, -, hlt⟩
      · exact ⟨r, (returns_loop body s r).mpr (Or.inl hr)⟩
      · omega
    | succ n ih =>
      intro s hn hi
      rcases h s hi with ⟨r, hr⟩ | ⟨s', hs', hi', hlt⟩
      · exact ⟨r, (returns_loop body s r).mpr (Or.inl hr)⟩
      · obtain ⟨r, hr⟩ := ih s' (by omega) hi'
        exact ⟨r, (returns_loop body s r).mpr (Or.inr ⟨s', hs', hr⟩)⟩
  exact fun s hi => key (μ s) s (Nat.le_refl _) hi

theorem terminates_pure (a : α) : (pure a : Comp α).Terminates := ⟨a, (returns_pure a a).mpr rfl⟩

/-- A sequence returns when its first part does and what follows each of its results does. -/
theorem Terminates.bind {c : Comp α} {f : α → Comp β} (hc : c.Terminates)
    (hf : ∀ a, c.Returns a → (f a).Terminates) : (c >>= f).Terminates := by
  obtain ⟨a, ha⟩ := hc
  obtain ⟨b, hb⟩ := hf a ha
  exact ⟨b, (returns_bind c f b).mpr ⟨a, ha, hb⟩⟩

/-- The states a loop gets to from `s`, round by round. -/
inductive Rounds (body : σ → Comp (Turn σ ρ)) (s : σ) : σ → Prop where
  | start : Rounds body s s
  | round {s' s'' : σ} (before : Rounds body s s') (next : (body s').Returns (.next s'')) : Rounds body s s''

/-- What every round keeps holds of every state the loop gets to. -/
theorem Rounds.invariant {body : σ → Comp (Turn σ ρ)} {I : σ → Prop} (next : ∀ s s', I s → (body s).Returns (.next s') → I s')
    {s s' : σ} (hs : I s) (h : Rounds body s s') : I s' := by
  induction h with
  | start => exact hs
  | round _ hn ih => exact next _ _ ih hn

/-! ## Two computations side by side -/

/-- Two computations return together, with results related by `R`. -/
def Sim (R : α → β → Prop) (c : Comp α) (d : Comp β) : Prop :=
  (∀ a, c.Returns a → ∃ b, d.Returns b ∧ R a b) ∧ ∀ b, d.Returns b → ∃ a, c.Returns a ∧ R a b

/-- Values simulate as they are related. -/
theorem Sim.pure {R : α → β → Prop} {a : α} {b : β} (h : R a b) : Sim R (pure a) (pure b) := by
  refine ⟨fun a' ha => ⟨b, (returns_pure b b).mpr rfl, ?_⟩, fun b' hb => ⟨a, (returns_pure a a).mpr rfl, ?_⟩⟩
  · rwa [← (returns_pure a a').mp ha]
  · rwa [← (returns_pure b b').mp hb]

theorem Sim.bind {R : α → β → Prop} {S : γ → δ → Prop} {c : Comp α} {d : Comp β} {f : α → Comp γ} {g : β → Comp δ}
    (h : Sim R c d) (hf : ∀ a b, R a b → Sim S (f a) (g b)) : Sim S (c >>= f) (d >>= g) := by
  constructor
  · intro x hx
    obtain ⟨a, ha, hx⟩ := (returns_bind c f x).mp hx
    obtain ⟨b, hb, hab⟩ := h.1 a ha
    obtain ⟨y, hy, hxy⟩ := (hf a b hab).1 x hx
    exact ⟨y, (returns_bind d g y).mpr ⟨b, hb, hy⟩, hxy⟩
  · intro y hy
    obtain ⟨b, hb, hy⟩ := (returns_bind d g y).mp hy
    obtain ⟨a, ha, hab⟩ := h.2 b hb
    obtain ⟨x, hx, hxy⟩ := (hf a b hab).2 y hy
    exact ⟨x, (returns_bind c f x).mpr ⟨a, ha, hx⟩, hxy⟩

/-- A computation with a known result, on the left of a bind. -/
theorem Sim.bind_left {S : γ → δ → Prop} {c : Comp α} {a : α} {f : α → Comp γ} {d : Comp δ} (hc : c.Returns a)
    (h : Sim S (f a) d) : Sim S (c >>= f) d := by
  constructor
  · intro x hx
    obtain ⟨a', ha, hx⟩ := (returns_bind c f x).mp hx
    rw [ha.unique hc] at hx
    exact h.1 x hx
  · intro y hy
    obtain ⟨x, hx, hxy⟩ := h.2 y hy
    exact ⟨x, (returns_bind c f x).mpr ⟨a, hc, hx⟩, hxy⟩

theorem Sim.mono {R S : α → β → Prop} {c : Comp α} {d : Comp β} (h : Sim R c d) (hRS : ∀ a b, R a b → S a b) :
    Sim S c d :=
  ⟨fun a ha => let ⟨b, hb, hab⟩ := h.1 a ha; ⟨b, hb, hRS a b hab⟩,
    fun b hb => let ⟨a, ha, hab⟩ := h.2 b hb; ⟨a, ha, hRS a b hab⟩⟩

/-- The results of two computations that return together, known to be their results. -/
theorem Sim.returned {R : α → β → Prop} {c : Comp α} {d : Comp β} (h : Sim R c d) :
    Sim (fun a b => R a b ∧ c.Returns a ∧ d.Returns b) c d :=
  ⟨fun a ha => let ⟨b, hb, hab⟩ := h.1 a ha; ⟨b, hb, hab, ha, hb⟩,
    fun b hb => let ⟨a, ha, hab⟩ := h.2 b hb; ⟨a, ha, hab, ha, hb⟩⟩

theorem Sim.symm {R : α → β → Prop} {c : Comp α} {d : Comp β} (h : Sim R c d) : Sim (fun b a => R a b) d c :=
  ⟨h.2, h.1⟩

theorem Sim.trans {R : α → β → Prop} {S : β → γ → Prop} {c : Comp α} {d : Comp β} {e : Comp γ} (h : Sim R c d)
    (h' : Sim S d e) : Sim (fun a x => ∃ b, R a b ∧ S b x) c e := by
  constructor
  · intro a ha
    obtain ⟨b, hb, hab⟩ := h.1 a ha
    obtain ⟨x, hx, hbx⟩ := h'.1 b hb
    exact ⟨x, hx, b, hab, hbx⟩
  · intro x hx
    obtain ⟨b, hb, hbx⟩ := h'.2 x hx
    obtain ⟨a, ha, hab⟩ := h.2 b hb
    exact ⟨a, ha, b, hab, hbx⟩

/-- How two loops' rounds are related: both go on from related states, or both are done with related results. -/
inductive TurnRel (R : σ → τ → Prop) (Q : ρ → π → Prop) : Turn σ ρ → Turn τ π → Prop where
  | next {s t} (h : R s t) : TurnRel R Q (.next s) (.next t)
  | done {r p} (h : Q r p) : TurnRel R Q (.done r) (.done p)

/-- Two loops whose rounds are related, from related states, return together. -/
theorem Sim.loop {R : σ → τ → Prop} {Q : ρ → π → Prop} {f : σ → Comp (Turn σ ρ)} {g : τ → Comp (Turn τ π)}
    (h : ∀ s t, R s t → Sim (TurnRel R Q) (f s) (g t)) {s : σ} {t : τ} (hst : R s t) :
    Sim Q (Comp.loop f s) (Comp.loop g t) := by
  constructor
  · intro r hr
    refine loop_induct (P := fun s r => ∀ t, R s t → ∃ p, (Comp.loop g t).Returns p ∧ Q r p) ?_ ?_ hr t hst
    · intro s r hb t hst
      obtain ⟨u, hu, hrel⟩ := (h s t hst).1 _ hb
      cases hrel with
      | done hq => exact ⟨_, (returns_loop g t _).mpr (Or.inl hu), hq⟩
    · intro s s' r hb _ ih t hst
      obtain ⟨u, hu, hrel⟩ := (h s t hst).1 _ hb
      cases hrel with
      | next hs =>
        obtain ⟨p, hp, hq⟩ := ih _ hs
        exact ⟨p, (returns_loop g t _).mpr (Or.inr ⟨_, hu, hp⟩), hq⟩
  · intro p hp
    refine loop_induct (P := fun t p => ∀ s, R s t → ∃ r, (Comp.loop f s).Returns r ∧ Q r p) ?_ ?_ hp s hst
    · intro t p hb s hst
      obtain ⟨u, hu, hrel⟩ := (h s t hst).2 _ hb
      cases hrel with
      | done hq => exact ⟨_, (returns_loop f s _).mpr (Or.inl hu), hq⟩
    · intro t t' p hb _ ih s hst
      obtain ⟨u, hu, hrel⟩ := (h s t hst).2 _ hb
      cases hrel with
      | next hs =>
        obtain ⟨r, hr, hq⟩ := ih _ hs
        exact ⟨r, (returns_loop f s _).mpr (Or.inr ⟨_, hu, hr⟩), hq⟩

end Comp

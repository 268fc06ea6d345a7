import MatchingEngine.Lemmas.Population

/-!
# Who lives in a slot

The tenants of a ladder: which order, by its serial number and id, has which slot. A change keeps a tenant in its slot, with the slot's
release count, or releases the slot; a new tenant takes the first free slot under a new serial number. So a handle is good exactly while
its order is a tenant.
-/

namespace MatchingEngine

open Function

/-- Which order an entry is: its slot, its serial number and its id. -/
def Entry.key (e : Entry) : Nat × Nat × Nat := (e.slot, e.serial, e.id)

/-- Which order a stop is. -/
def Dormant.key (d : Dormant) : Nat × Nat × Nat := (d.slot, d.serial, d.id)

namespace Ladder

/-- The order is in a queue. -/
def Rests (L : Ladder) (k : Nat × Nat × Nat) : Prop := ∃ side i, k ∈ (L.queue side i).map Entry.key

/-- The order with serial number `n` and this id has the slot `s`. -/
def Tenant (L : Ladder) (s n id : Nat) : Prop :=
  L.Rests (s, n, id) ∨ (s, n, id) ∈ L.stops.map Dormant.key ∨ L.held.map Dormant.key = some (s, n, id)

variable {cfg : BookConfig} {L₀ L L' L'' : Ladder} {op : Op}

section Places

variable {s n id : Nat}

/-- A resting order has its slot. -/
theorem Rests.place (hw : L.Wf cfg) (h : L.Rests (s, n, id)) : s < cfg.maxOrders ∧ ∃ side i, L.place s = .resting side i := by
  obtain ⟨side, i, h⟩ := h
  obtain ⟨e, he, heq⟩ := List.mem_map.mp h
  obtain ⟨h1, h2⟩ := hw.place_of_mem he
  have hs : e.slot = s := congrArg Prod.fst heq
  exact hs ▸ ⟨h1, side, i, h2⟩

theorem place_of_stopKey (hw : L.Wf cfg) (h : (s, n, id) ∈ L.stops.map Dormant.key) : s < cfg.maxOrders ∧ L.place s = .dormant := by
  obtain ⟨d, hd, heq⟩ := List.mem_map.mp h
  have hs : d.slot = s := congrArg Prod.fst heq
  exact hs ▸ hw.place_of_stop hd

/-- The stop that is held has its slot. -/
theorem place_of_heldKey (hw : L.Wf cfg) (h : L.held.map Dormant.key = some (s, n, id)) : s < cfg.maxOrders ∧ L.place s = .held := by
  obtain ⟨d, hd, heq⟩ := Option.map_eq_some_iff.mp h
  have hs : d.slot = s := congrArg Prod.fst heq
  exact hs ▸ hw.place_of_held hd

/-- A tenant's slot is in use. -/
theorem Tenant.place (hw : L.Wf cfg) (h : L.Tenant s n id) : s < cfg.maxOrders ∧ L.place s ≠ .free := by
  rcases h with h | h | h
  · obtain ⟨h1, side, i, h2⟩ := h.place hw
    exact ⟨h1, by rw [h2]; exact nofun⟩
  · obtain ⟨h1, h2⟩ := place_of_stopKey hw h
    exact ⟨h1, by rw [h2]; exact nofun⟩
  · obtain ⟨h1, h2⟩ := place_of_heldKey hw h
    exact ⟨h1, by rw [h2]; exact nofun⟩

end Places

/-! ## Queues and keys -/

section Keys

variable {side : Side} {i : Nat} {q l r : List Entry} {e : Entry} {k : Nat × Nat × Nat}

/-- Who rests once a queue is put in place. -/
theorem rests_setQueue (hqueue : L'.queue = (L.setQueue side i q).queue) :
    L'.Rests k ↔ k ∈ q.map Entry.key ∨ ∃ side' j, ¬(side' = side ∧ j = i) ∧ k ∈ (L.queue side' j).map Entry.key := by
  constructor
  · rintro ⟨side', j, h⟩
    rw [hqueue, setQueue_queue] at h
    split at h
    · exact Or.inl h
    · rename_i hc
      exact Or.inr ⟨side', j, hc, h⟩
  · rintro (h | ⟨side', j, hc, h⟩)
    · exact ⟨side, i, by rwa [hqueue, setQueue_queue, if_pos ⟨rfl, rfl⟩]⟩
    · exact ⟨side', j, by rwa [hqueue, setQueue_queue, if_neg hc]⟩

/-- Who rests, in one queue or in the others. -/
theorem rests_iff (side : Side) (i : Nat) :
    L.Rests k ↔ k ∈ (L.queue side i).map Entry.key ∨ ∃ side' j, ¬(side' = side ∧ j = i) ∧ k ∈ (L.queue side' j).map Entry.key :=
  rests_setQueue (by rw [setQueue_self])

/-- Another queue with the same keys. -/
theorem rests_of_keys (hqueue : L'.queue = (L.setQueue side i q).queue)
    (hk : k ∈ q.map Entry.key ↔ k ∈ (L.queue side i).map Entry.key) : L'.Rests k ↔ L.Rests k := by
  rw [rests_setQueue hqueue, rests_iff side i, hk]

/-- One more order in a queue. -/
theorem rests_push (hqueue : L'.queue = (L.setQueue side i (L.queue side i ++ [e])).queue) : L'.Rests k ↔ L.Rests k ∨ k = e.key := by
  rw [rests_setQueue hqueue, rests_iff (L := L) side i, List.map_append, List.mem_append, List.map_singleton, List.mem_singleton]
  exact or_right_comm

/-- One order less in a queue. -/
theorem rests_take (hw : L.Wf cfg) (hq : L.queue side i = l ++ e :: r) (hqueue : L'.queue = (L.setQueue side i (l ++ r)).queue) :
    L'.Rests k ↔ k.1 ≠ e.slot ∧ L.Rests k := by
  have he : L.place e.slot = .resting side i := (hw.place_of_mem (e := e) (by rw [hq]; simp)).2
  have hother : (∃ side' j, ¬(side' = side ∧ j = i) ∧ k ∈ (L.queue side' j).map Entry.key) → k.1 ≠ e.slot := by
    rintro ⟨side', j, hc, hk⟩ heq
    obtain ⟨x, hx, rfl⟩ := List.mem_map.mp hk
    have hplace := (hw.place_of_mem hx).2
    rw [show x.slot = e.slot from heq, he, Place.resting.injEq] at hplace
    exact hc ⟨hplace.1.symm, hplace.2.symm⟩
  have hsame : k ∈ (l ++ r).map Entry.key ↔ k.1 ≠ e.slot ∧ k ∈ (L.queue side i).map Entry.key := by
    obtain ⟨hl, hr⟩ := hw.slot_ne_of_split hq
    rw [hq]
    simp only [List.map_append, List.map_cons, List.mem_append, List.mem_cons, List.mem_map]
    constructor
    · rintro (⟨x, hx, rfl⟩ | ⟨x, hx, rfl⟩)
      · exact ⟨hl x hx, Or.inl ⟨x, hx, rfl⟩⟩
      · exact ⟨hr x hx, Or.inr (Or.inr ⟨x, hx, rfl⟩)⟩
    · rintro ⟨hne, h | h | h⟩
      · exact Or.inl h
      · exact absurd (congrArg Prod.fst h) hne
      · exact Or.inr h
  rw [rests_setQueue hqueue, rests_iff (L := L) side i, hsame]
  constructor
  · rintro (⟨h1, h2⟩ | h)
    · exact ⟨h1, Or.inl h2⟩
    · exact ⟨hother h, Or.inr h⟩
  · rintro ⟨h1, h2 | h2⟩
    · exact Or.inl ⟨h1, h2⟩
    · exact Or.inr h2

/-- The stops once one is taken out. -/
theorem stopKeys_take (hw : L.Wf cfg) {l r : List Dormant} {d : Dormant} (hs : L.stops = l ++ d :: r) :
    k ∈ (l ++ r).map Dormant.key ↔ k.1 ≠ d.slot ∧ k ∈ L.stops.map Dormant.key := by
  obtain ⟨hl, hr⟩ := hw.stop_ne_of_split hs
  rw [hs]
  simp only [List.map_append, List.map_cons, List.mem_append, List.mem_cons, List.mem_map]
  constructor
  · rintro (⟨x, hx, rfl⟩ | ⟨x, hx, rfl⟩)
    · exact ⟨hl x hx, Or.inl ⟨x, hx, rfl⟩⟩
    · exact ⟨hr x hx, Or.inr (Or.inr ⟨x, hx, rfl⟩)⟩
  · rintro ⟨hne, h | h | h⟩
    · exact Or.inl h
    · exact absurd (congrArg Prod.fst h) hne
    · exact Or.inr h

end Keys

/-! ## Changes -/

/-- What one change does to the tenants. -/
structure Moved (L L' : Ladder) : Prop where
  accepted : L'.accepted = L.accepted ∨ L'.accepted = L.accepted + 1
  releases : ∀ s, L.releases s ≤ L'.releases s
  back : ∀ {s n id}, Tenant L' s n id → Tenant L s n id ∧ L'.releases s = L.releases s ∨
    n = L.accepted ∧ L'.accepted = L.accepted + 1 ∧ L.free.head? = some s
  forth : ∀ {s n id}, Tenant L s n id → Tenant L' s n id ∧ L'.releases s = L.releases s ∨ L.releases s < L'.releases s

/-- A slot that is released has no other tenant. -/
theorem releases_le_release (releases : Nat → Nat) (s t : Nat) : releases t ≤ update releases s (releases s + 1) t := by
  by_cases h : t = s
  · subst h
    simp
  · rw [update_of_ne h]

/-- A change that releases the slot `s` and leaves the tenants of all other slots. -/
theorem Moved.of_release {s : Nat} (hacc : L'.accepted = L.accepted) (hrel : L'.releases = update L.releases s (L.releases s + 1))
    (hback : ∀ {t n id}, Tenant L' t n id → t ≠ s ∧ Tenant L t n id) (hforth : ∀ {t n id}, t ≠ s → Tenant L t n id → Tenant L' t n id) :
    Moved L L' where
  accepted := Or.inl hacc
  releases t := by
    rw [hrel]
    exact releases_le_release _ _ _
  back h := by
    obtain ⟨hne, ht⟩ := hback h
    exact Or.inl ⟨ht, by rw [hrel, update_of_ne hne]⟩
  forth {t n id} h := by
    by_cases ht : t = s
    · right
      rw [hrel, ht, update_self]
      exact Nat.lt_succ_self _
    · exact Or.inl ⟨hforth ht h, by rw [hrel, update_of_ne ht]⟩

/-- A change that leaves the tenants where they are. -/
theorem Moved.of_same (hacc : L'.accepted = L.accepted) (hrel : L'.releases = L.releases)
    (h : ∀ {t n id}, Tenant L' t n id ↔ Tenant L t n id) : Moved L L' where
  accepted := Or.inl hacc
  releases t := by rw [hrel]
  back ht := Or.inl ⟨h.mp ht, by rw [hrel]⟩
  forth ht := Or.inl ⟨h.mpr ht, by rw [hrel]⟩

/-- A change that adds a tenant in the first free slot. -/
theorem Moved.of_new {s m : Nat} (hacc : L'.accepted = L.accepted + 1) (hrel : L'.releases = L.releases)
    (hfree : L.free.head? = some s)
    (h : ∀ {t n id}, Tenant L' t n id ↔ Tenant L t n id ∨ t = s ∧ n = L.accepted ∧ id = m) : Moved L L' where
  accepted := Or.inr hacc
  releases t := by rw [hrel]
  back ht := by
    rcases h.mp ht with ht | ⟨rfl, rfl, rfl⟩
    · exact Or.inl ⟨ht, by rw [hrel]⟩
    · exact Or.inr ⟨rfl, hacc, hfree⟩
  forth ht := Or.inl ⟨h.mpr (Or.inl ht), by rw [hrel]⟩

/-- An entry taken out of its queue, and its slot released. -/
theorem Moved.of_take (hw : L.Wf cfg) {side : Side} {i : Nat} {l r : List Entry} {e : Entry} (hq : L.queue side i = l ++ e :: r)
    (hqueue : L'.queue = (L.setQueue side i (l ++ r)).queue) (hstops : L'.stops = L.stops) (hheld : L'.held = L.held)
    (hacc : L'.accepted = L.accepted) (hrel : L'.releases = update L.releases e.slot (L.releases e.slot + 1)) : Moved L L' := by
  have he : L.place e.slot = .resting side i := (hw.place_of_mem (e := e) (by rw [hq]; simp)).2
  refine .of_release hacc hrel (fun {t n id} h => ?_) fun {t n id} hne h => ?_
  · unfold Tenant at h ⊢
    rw [rests_take hw hq hqueue, hstops, hheld] at h
    rcases h with h | h | h
    · exact ⟨h.1, Or.inl h.2⟩
    · refine ⟨fun hte => ?_, Or.inr (Or.inl h)⟩
      have := (place_of_stopKey hw h).2
      rw [hte, he] at this
      cases this
    · refine ⟨fun hte => ?_, Or.inr (Or.inr h)⟩
      have := (place_of_heldKey hw h).2
      rw [hte, he] at this
      cases this
  · unfold Tenant at h ⊢
    rw [rests_take hw hq hqueue, hstops, hheld]
    rcases h with h | h
    · exact Or.inl ⟨hne, h⟩
    · exact Or.inr h

/-- A change moves the tenants on. -/
theorem Change.moved (hw : L.Wf cfg) (h : Change cfg L₀ op L L') : Moved L L' := by
  cases h with
  | mark hq hs hh _ _ hr hacc =>
    refine .of_same hacc hr fun {t n id} => ?_
    unfold Tenant Rests
    rw [hq, hs, hh]
  | @fill _ side i q l r e hq _ _ hf =>
    rcases hf.cases with ⟨e', hqueue, -, ⟨-, -, hrel, -⟩, hslot, hid, -, hser, -, -⟩ | ⟨hqueue, -, -, -, -, hrel⟩
    · have hkey : e'.key = e.key := by rw [Entry.key, Entry.key, hslot, hser, hid]
      refine .of_same hf.accepted hrel fun {t n id} => ?_
      have hrests : L'.Rests (t, n, id) ↔ L.Rests (t, n, id) := by
        rcases hqueue with ⟨hqueue, -⟩ | ⟨hqueue, -⟩
        · exact rests_of_keys hqueue (by rw [hq]; simp [hkey])
        · refine rests_of_keys hqueue ?_
          rw [hq]
          simp only [List.map_append, List.map_cons, List.map_nil, List.mem_append, List.mem_cons, List.not_mem_nil, or_false, hkey]
          tauto
      unfold Tenant
      rw [hrests, hf.stops, hf.held]
    · exact .of_take hw hq hqueue hf.stops hf.held hf.accepted hrel
  | @rest L0 t i quantity rests display e free _ _ hent _ _ hfree =>
    refine .of_new (m := e.id) rfl rfl (by rw [hfree]; rfl) fun {s n id} => ?_
    have hpush : ∀ k, Rests { L.setQueue t.side i (L.queue t.side i ++ [e]) with
        free, place := update L.place e.slot (.resting t.side i), accepted := L.accepted + 1 } k ↔ L.Rests k ∨ k = e.key :=
      fun k => rests_push rfl
    unfold Tenant
    rw [hpush, Entry.key, hent.serial, Prod.mk.injEq, Prod.mk.injEq]
    change (_ ∨ _ ∈ L.stops.map Dormant.key ∨ L.held.map Dormant.key = _) ↔ _
    tauto
  | @sleep _ _ _ _ _ _ _ _ d _ _ _ _ _ hrest =>
    have hs := restStop_slept hrest
    obtain ⟨free, hfree, rfl⟩ := hs.room
    refine .of_new (m := d.id) rfl rfl (by rw [hfree]; rfl) fun {s n id} => ?_
    unfold Tenant
    dsimp only
    rw [List.map_append, List.mem_append, List.map_singleton, List.mem_singleton, Dormant.key, hs.serial, Prod.mk.injEq, Prod.mk.injEq]
    change (L.Rests _ ∨ _) ↔ _
    tauto
  | @hold l r d hs hnone =>
    refine .of_same rfl rfl fun {t n id} => ?_
    unfold Tenant Ladder.hold
    dsimp only
    rw [hnone, hs]
    change (L.Rests _ ∨ _) ↔ _
    simp only [List.map_append, List.map_cons, List.mem_append, List.mem_cons, Option.map_some, Option.some.injEq, Option.map_none,
      reduceCtorEq, or_false, eq_comm (a := d.key)]
    tauto
  | @settle d i remaining hheld _ hpos hlt _ =>
    refine .of_same ?_ ?_ fun {t n id} => ?_
    · unfold Ladder.settle
      rw [dif_pos ⟨hpos, hlt⟩]
      rfl
    · unfold Ladder.settle
      rw [dif_pos ⟨hpos, hlt⟩]
      rfl
    · have hpush : ∀ k, (L.settle d i remaining).Rests k ↔ L.Rests k ∨ k = d.key := by
        intro k
        unfold Ladder.settle
        rw [dif_pos ⟨hpos, hlt⟩]
        exact rests_push rfl
      have hrest : (L.settle d i remaining).stops = L.stops ∧ (L.settle d i remaining).held = none := by
        unfold Ladder.settle
        rw [dif_pos ⟨hpos, hlt⟩]
        exact ⟨rfl, rfl⟩
      unfold Tenant
      rw [hpush, hrest.1, hrest.2, hheld]
      simp only [Option.map_some, Option.map_none, reduceCtorEq, or_false, Option.some.injEq, eq_comm (a := d.key)]
      tauto
  | @drop d hheld =>
    have hplace := (hw.place_of_held hheld).2
    refine .of_release (s := d.slot) rfl rfl (fun {t n id} h => ?_) fun {t n id} hne h => ?_
    · have h' : L.Rests (t, n, id) ∨ (t, n, id) ∈ L.stops.map Dormant.key := by
        rcases h with h | h | h
        · exact Or.inl h
        · exact Or.inr h
        · cases h
      refine ⟨fun hte => ?_, h'.elim Or.inl fun h => Or.inr (Or.inl h)⟩
      subst hte
      rcases h' with h' | h'
      · obtain ⟨-, side, i, hp⟩ := h'.place hw
        rw [hplace] at hp
        cases hp
      · have hp := (place_of_stopKey hw h').2
        rw [hplace] at hp
        cases hp
    · rcases h with h | h | h
      · exact Or.inl h
      · exact Or.inr (Or.inl h)
      · rw [hheld, Option.map_some, Option.some.injEq] at h
        exact absurd (congrArg Prod.fst h).symm hne
  | remove hq =>
    rw [remove_eq hq (hw.slot_ne_of_split hq).1]
    exact .of_take hw hq rfl rfl rfl rfl rfl
  | @removeStop l r d hs =>
    have hplace := (hw.place_of_stop (d := d) (by rw [hs]; simp)).2
    rw [removeStop_eq hs (hw.stop_ne_of_split hs).1]
    refine .of_release (s := d.slot) rfl rfl (fun {t n id} h => ?_) fun {t n id} hne h => ?_
    · rcases h with h | h | h
      · refine ⟨fun hte => ?_, Or.inl h⟩
        obtain ⟨-, side, i, hp⟩ := Rests.place (L := L) hw h
        rw [hte, hplace] at hp
        cases hp
      · obtain ⟨hne, h⟩ := (stopKeys_take hw hs).mp h
        exact ⟨hne, Or.inr (Or.inl h)⟩
      · refine ⟨fun hte => ?_, Or.inr (Or.inr h)⟩
        have hp := (place_of_heldKey (L := L) hw h).2
        rw [hte, hplace] at hp
        cases hp
    · rcases h with h | h | h
      · exact Or.inl h
      · exact Or.inr (Or.inl ((stopKeys_take hw hs).mpr ⟨hne, h⟩))
      · exact Or.inr (Or.inr h)
  | @amend side i n l r e hq hpos hle =>
    obtain ⟨hslot, hid, -, -, hser, -, -⟩ := Entry.amend_eq hpos hle
    have hkey : (e.amend n).key = e.key := by rw [Entry.key, Entry.key, hslot, hser, hid]
    rw [amendEntry_eq hw hq]
    refine .of_same rfl rfl fun {t m id} => ?_
    have hrests : (L.setQueue side i (l ++ e.amend n :: r)).Rests (t, m, id) ↔ L.Rests (t, m, id) :=
      rests_of_keys rfl (by rw [hq]; simp [hkey])
    unfold Tenant
    rw [hrests]
    rfl
  | @amendStop n l r d hs hpos hle =>
    obtain ⟨hslot, hid, -, -, -, hser, -⟩ := Dormant.amend_eq hpos hle
    have hkey : (d.amend n).key = d.key := by rw [Dormant.key, Dormant.key, hslot, hser, hid]
    rw [amendStop_eq hw hs]
    refine .of_same rfl rfl fun {t m id} => ?_
    unfold Tenant
    dsimp only
    rw [hs]
    simp only [List.map_append, List.map_cons, hkey]
    rfl

/-! ## Serial numbers -/

/-- Serial numbers are given out in order, each to one slot. -/
structure Numbered (L : Ladder) : Prop where
  lt : ∀ {s n id}, L.Tenant s n id → n < L.accepted
  inj : ∀ {s t n id id'}, L.Tenant s n id → L.Tenant t n id' → s = t

theorem Moved.numbered (hm : Moved L L') (h : L.Numbered) : L'.Numbered where
  lt {s n id} ht := by
    rcases hm.back ht with ⟨ht, -⟩ | ⟨rfl, hacc, -⟩
    · have := h.lt ht
      have := hm.accepted
      omega
    · omega
  inj {s t n id id'} hs ht := by
    rcases hm.back hs with ⟨hs, -⟩ | ⟨rfl, -, hs⟩
    · rcases hm.back ht with ⟨ht, -⟩ | ⟨rfl, -, -⟩
      · exact h.inj hs ht
      · exact absurd (h.lt hs) (Nat.lt_irrefl _)
    · rcases hm.back ht with ⟨ht, -⟩ | ⟨-, -, ht⟩
      · exact absurd (h.lt ht) (Nat.lt_irrefl _)
      · rw [hs, Option.some.injEq] at ht
        exact ht

/-- What changes do to the tenants: each stays in its slot, or its slot is released; the others are new. -/
structure Evolves (L L' : Ladder) : Prop where
  accepted : L.accepted ≤ L'.accepted
  releases : ∀ s, L.releases s ≤ L'.releases s
  back : ∀ {s n id}, L'.Tenant s n id → L.Tenant s n id ∧ L'.releases s = L.releases s ∨ L.accepted ≤ n
  forth : ∀ {s n id}, L.Tenant s n id → L'.Tenant s n id ∧ L'.releases s = L.releases s ∨ L.releases s < L'.releases s

theorem Evolves.refl (L : Ladder) : Evolves L L :=
  ⟨Nat.le_refl _, fun _ => Nat.le_refl _, fun h => Or.inl ⟨h, rfl⟩, fun h => Or.inl ⟨h, rfl⟩⟩

theorem Evolves.step (h : Evolves L L') (hm : Moved L' L'') : Evolves L L'' where
  accepted := by
    have := h.accepted
    have := hm.accepted
    omega
  releases s := Nat.le_trans (h.releases s) (hm.releases s)
  back ht := by
    rcases hm.back ht with ⟨ht, hr⟩ | ⟨rfl, -, -⟩
    · rcases h.back ht with ⟨ht, hr'⟩ | hn
      · exact Or.inl ⟨ht, hr.trans hr'⟩
      · exact Or.inr hn
    · exact Or.inr h.accepted
  forth {s n id} ht := by
    rcases h.forth ht with ⟨ht, hr⟩ | hr
    · rcases hm.forth ht with ⟨ht, hr'⟩ | hr'
      · exact Or.inl ⟨ht, hr'.trans hr⟩
      · exact Or.inr (hr ▸ hr')
    · exact Or.inr (Nat.lt_of_lt_of_le hr (hm.releases s))

/-- The changes of an operation, one move after the other. -/
theorem Changes.evolves (h : Changes cfg L₀ op L L') : Evolves L L' := by
  induction h with
  | refl => exact Evolves.refl _
  | tail _ hw hc ih => exact ih.step (hc.moved hw)

/-- The changes of an operation keep the tenants numbered. -/
theorem Changes.numbered (hn : L.Numbered) (h : Changes cfg L₀ op L L') : L'.Numbered :=
  h.invariant (fun _ _ hw hn hc => (hc.moved hw).numbered hn) hn

/-- In every reachable ladder the tenants are numbered. -/
theorem Run.numbered {state : TradingState} {calls : List (Op × Outcome)} (h : Ladder.Run cfg state calls L) : L.Numbered :=
  h.invariant_of_changes
    ⟨fun {_ _ _} h => (h.elim (fun ⟨_, _, h⟩ => nomatch h) fun h => h.elim nofun nofun),
      fun {_ _ _ _ _} h => (h.elim (fun ⟨_, _, h⟩ => nomatch h) fun h => h.elim nofun nofun)⟩
    fun _ _ _ _ hw hn hc => (hc.moved hw).numbered hn

/-! ## Handles -/

/-- Where the order of a handle is: it has the handle's slot under the handle's generation, or it is gone and the slot was released
since. -/
def Tracks (cfg : BookConfig) (L : Ladder) (handle : Handle) (n id : Nat) : Prop :=
  n < L.accepted ∧ handle.index < cfg.maxOrders ∧
    (L.Tenant handle.index n id ∧ handle.generation = generationOf (L.releases handle.index) ∨
      (∀ s id', ¬L.Tenant s n id') ∧ ∃ r, r < L.releases handle.index ∧ handle.generation = generationOf r)

/-- A handle goes on tracking its order. -/
theorem Tracks.evolves {handle : Handle} {n id : Nat} (hn : L.Numbered) (h : L.Tracks cfg handle n id) (he : Evolves L L') :
    L'.Tracks cfg handle n id := by
  obtain ⟨hlt, hidx, h⟩ := h
  refine ⟨Nat.lt_of_lt_of_le hlt he.accepted, hidx, ?_⟩
  rcases h with ⟨ht, hg⟩ | ⟨hgone, r, hr, hg⟩
  · rcases he.forth ht with ⟨ht', hr⟩ | hr
    · exact Or.inl ⟨ht', by rw [hr]; exact hg⟩
    · refine Or.inr ⟨fun s id' ht' => ?_, _, hr, hg⟩
      rcases he.back ht' with ⟨ht', hr'⟩ | hle
      · rw [hn.inj ht ht', hr'] at hr
        exact Nat.lt_irrefl _ hr
      · omega
  · refine Or.inr ⟨fun s id' ht' => ?_, r, Nat.lt_of_lt_of_le hr (he.releases _), hg⟩
    rcases he.back ht' with ⟨ht', -⟩ | hle
    · exact hgone s id' ht'
    · omega

/-- Different release counts below the wrap give different generations. -/
theorem generationOf_inj {r r' : Nat} (h : r < 2 ^ 32 - 1) (h' : r' < 2 ^ 32 - 1) (he : generationOf r = generationOf r') : r = r' := by
  unfold generationOf at he
  rw [Nat.mod_eq_of_lt h, Nat.mod_eq_of_lt h'] at he
  omega

/-- A slot that is not free has a tenant. -/
theorem tenant_of_place (hw : L.Wf cfg) (hnone : L.held = none) {s : Nat} (hs : s < cfg.maxOrders) (hp : L.place s ≠ .free) :
    ∃ n id, L.Tenant s n id := by
  cases hplace : L.place s with
  | free => exact absurd hplace hp
  | resting side i =>
    obtain ⟨l, e, r, hq, rfl⟩ := hw.entry_of_place hs hplace
    exact ⟨e.serial, e.id, Or.inl ⟨side, i, List.mem_map.mpr ⟨e, by rw [hq]; simp, rfl⟩⟩⟩
  | dormant =>
    obtain ⟨l, d, r, hq, rfl⟩ := hw.stop_of_place hs hplace
    exact ⟨d.serial, d.id, Or.inr (Or.inl (List.mem_map.mpr ⟨d, by rw [hq]; simp, rfl⟩))⟩
  | held =>
    have := (hw.held_iff s).mpr ⟨hs, hplace⟩
    rw [hnone] at this
    cases this

/-- As long as its slot was released fewer than 2^32 - 1 times, a handle that is tracked denotes its order while that is live, and
nothing after. -/
theorem Tracks.live_iff {handle : Handle} {n id : Nat} (hw : L.Wf cfg) (h : L.Tracks cfg handle n id)
    (hr : L.releases handle.index < 2 ^ 32 - 1) :
    (handle.generation = generationOf (L.releases handle.index) ∧ L.place handle.index ≠ .free ↔ ∃ s id', L.Tenant s n id') ∧
      (handle.generation = generationOf (L.releases handle.index) ∧ L.place handle.index ≠ .free → L.Tenant handle.index n id) := by
  obtain ⟨-, -, ⟨ht, hg⟩ | ⟨hgone, r, hlt, hg⟩⟩ := h
  · exact ⟨⟨fun _ => ⟨_, _, ht⟩, fun _ => ⟨hg, (ht.place hw).2⟩⟩, fun _ => ht⟩
  · have hne : handle.generation ≠ generationOf (L.releases handle.index) := fun he =>
      absurd (generationOf_inj (by omega) hr (hg.symm.trans he)) (by omega)
    exact ⟨⟨fun h => absurd h.1 hne, fun ⟨s, id', ht⟩ => absurd ht (hgone s id')⟩, fun h => absurd h.1 hne⟩

/-! ## What an operation issues -/

/-- The id of the order an operation submits. -/
def submittedId (cfg : BookConfig) (L : Ladder) : Op → Nat
  | .submitLimit id _ _ _ _ _ _ => id
  | .submitPostOnly id _ _ _ _ => id
  | .submitIceberg id _ _ _ _ _ _ => id
  | .submitMarket id _ _ _ => id
  | .submitStop id _ _ _ _ => id
  | .submitStopLimit id _ _ _ _ _ => id
  | .replace handle _ _ _ =>
    match L.resolve cfg handle with
    | some (.resting _ _ e) => e.id
    | _ => 0
  | _ => 0

/-- An order is matched under the id it was submitted with. -/
theorem Admitted.id_eq {L0 : Ladder} {t : Taker} {i quantity : Nat} {rests : Bool} {display : Nat → Nat}
    (h : Admitted cfg L₀ op L0 t i quantity rests display) : t.id = L₀.submittedId cfg op := by
  cases h with
  | limit _ _ _ => rfl
  | postOnly _ _ _ _ => rfl
  | iceberg _ _ _ _ _ _ => rfl
  | market _ _ _ _ _ => rfl
  | replace _ hloc _ _ _ =>
    simp only [submittedId]
    rw [hloc]

/-- A stop is kept under the id it was submitted with. -/
theorem submittedId_of_stop {id quantity size : Nat} {raw : UInt8} {trigger : Int} {limit : Option Int}
    (h : stopArguments op = some (id, raw, trigger, limit, quantity, size)) : L.submittedId cfg op = id := by
  cases op with
  | submitStop _ _ _ _ _ =>
    simp only [stopArguments, Option.some.injEq, Prod.mk.injEq] at h
    exact h.1
  | submitStopLimit _ _ _ _ _ _ =>
    simp only [stopArguments, Option.some.injEq, Prod.mk.injEq] at h
    exact h.1
  | _ => cases h

/-- Letting an order in accepts nothing yet, and leaves the stops. -/
theorem Admitted.accepted {L0 : Ladder} {t : Taker} {i quantity : Nat} {rests : Bool} {display : Nat → Nat} (hw : L₀.Wf cfg)
    (h : Admitted cfg L₀ op L0 t i quantity rests display) : L0.accepted = L₀.accepted ∧ L0.stops = L₀.stops ∧ L0.activations = [] := by
  cases h with
  | limit _ _ _ => exact ⟨rfl, rfl, rfl⟩
  | postOnly _ _ _ _ => exact ⟨rfl, rfl, rfl⟩
  | iceberg _ _ _ _ _ _ => exact ⟨rfl, rfl, rfl⟩
  | market _ _ _ _ _ => exact ⟨rfl, rfl, rfl⟩
  | replace _ _ hq _ _ =>
    rw [remove_eq (L := L₀.reset) hq (hw.slot_ne_of_split hq).1]
    exact ⟨rfl, rfl, rfl⟩

/-- The handle of a slot is not the invalid one. -/
theorem handleAt_ne (L : Ladder) (s : Nat) : L.handleAt s ≠ kInvalidHandle := fun h => by
  have := congrArg Handle.generation h
  simp [handleAt, generationOf, kInvalidHandle] at this

/-- An order that comes to rest changes neither list, and without a handle it was not accepted. -/
theorem Rested.lists {L1 : Ladder} {t : Taker} {i : Nat} {rests : Bool} {display : Nat → Nat} {w : Sweep} {handle : Handle}
    (h : Rested w t i rests display handle L1) : L1.stops = w.ladder.stops ∧ L1.activations = w.ladder.activations ∧
      (handle = kInvalidHandle ∧ L1.accepted = w.ladder.accepted ∨
        handle ≠ kInvalidHandle ∧ L1.accepted = w.ladder.accepted + 1) := by
  rcases h with ⟨-, -, h⟩ | ⟨-, rfl, rfl⟩
  · unfold rest at h
    split at h
    · obtain ⟨rfl, rfl⟩ := Prod.mk.inj h
      exact ⟨rfl, rfl, Or.inl ⟨rfl, rfl⟩⟩
    · split at h
      · obtain ⟨rfl, hL⟩ := Prod.mk.inj h
        rw [hL]
        exact ⟨rfl, rfl, Or.inr ⟨handleAt_ne _ _, rfl⟩⟩
      · obtain ⟨rfl, rfl⟩ := Prod.mk.inj h
        exact ⟨rfl, rfl, Or.inl ⟨rfl, rfl⟩⟩
  · exact ⟨rfl, rfl, Or.inl ⟨rfl, rfl⟩⟩

/-- A stop that has just fallen asleep is tracked by the handle of its slot. -/
theorem Slept.tracks {id quantity : Nat} {side : Side} {trigger : Int} {limit : Option Int} {d : Dormant} (hw : L.Wf cfg)
    (h : Slept L L' id side trigger limit quantity d) : L'.Tracks cfg (L.handleAt d.slot) L.accepted id := by
  obtain ⟨free, hfree, rfl⟩ := h.room
  refine ⟨Nat.lt_succ_self _, (hw.place_of_free (s := d.slot) (by rw [hfree]; simp)).1, Or.inl ⟨Or.inr (Or.inl ?_), rfl⟩⟩
  refine List.mem_map.mpr ⟨d, List.mem_append_right _ (List.mem_singleton.mpr rfl), ?_⟩
  rw [Dormant.key, h.serial, h.id]
  rfl

/-- An activated order keeps its handle or has none. -/
theorem finish_handle (L : Ladder) (handle : Handle) (d : Dormant) (limit : Option Nat) (remaining : Nat) :
    (L.finish handle d limit remaining).1 = handle ∨ (L.finish handle d limit remaining).1 = kInvalidHandle := by
  unfold finish
  split
  · split
    · exact Or.inl rfl
    · exact Or.inr rfl
  · exact Or.inr rfl

/-- The handle an operation returns tracks the order it submitted. -/
theorem Effect.tracks {result : SubmitResult} {trades : List Trade} (hw : L.Wf cfg) (hnone : L.held = none) (hn : L.Numbered)
    (h : Effect cfg L op ⟨.submit result, trades⟩ L') (hne : result.restingHandle ≠ kInvalidHandle) :
    L'.Tracks cfg result.restingHandle L.accepted (L.submittedId cfg op) := by
  cases h with
  | refused _ _ _ => exact absurd rfl hne
  | lost _ _ _ _ _ _ _ _ => exact absurd rfl hne
  | @entered _ L0 L1 _ t i quantity rests display w handle _ ha hm hr hc =>
    have hs := ha.sound hw hnone
    have hw1 := hm.wf hs.wf
    have hw2 := hr.wf hw1 hs.level
    have hnone2 : _ = none := hr.held.trans ((hm.kept hs.wf).held.trans hs.held)
    have hacc : w.ladder.accepted = L.accepted := (hm.kept hs.wf).accepted.trans (ha.accepted hw).1
    have hn2 : L1.Numbered := ((hs.changes.trans (hm.changes hs.wf)).trans (hr.changes hw hnone ha hm)).numbered hn
    have hcas : Changes cfg L op L1 L' := cascade_changes hw2 hnone2 hc
    refine Tracks.evolves hn2 ?_ hcas.evolves
    rcases hr with ⟨hrests, -, hr⟩ | ⟨-, hinv, -⟩
    · rw [Prod.ext_iff] at hr
      dsimp only at hne hr ⊢
      unfold rest at hr
      split at hr
      · exact absurd hr.1 hne
      · rename_i slot free hfree
        split at hr
        · obtain ⟨hh, rfl⟩ := hr
          dsimp only at hh
          rw [hh]
          refine ⟨by dsimp only; omega, (hw1.place_of_free (s := slot) (by rw [hfree]; simp)).1, Or.inl ⟨Or.inl ?_, rfl⟩⟩
          refine (rests_push rfl).mpr (Or.inr ?_)
          rw [Entry.key, ← ha.id_eq, hacc]
          rfl
        · exact absurd hr.1 hne
    · exact absurd hinv hne
  | slept hsub _ _ _ _ _ hrest _ =>
    rw [submittedId_of_stop hsub]
    have htracks := (restStop_slept hrest).tracks hw.reset
    exact htracks
  | fired hsub _ _ _ _ _ hrest _ hact hc =>
    have hsl := restStop_slept hrest
    obtain ⟨hw1, hnone1⟩ := hsl.wf hw.reset hnone
    have hsleep : Changes cfg L op L _ := (Changes.single hw .of_reset).tail hw.reset (.sleep hsub ‹_› ‹_› ‹_› ‹_› hrest)
    have htracks := hsl.tracks hw.reset
    rw [← List.append_nil L.stops] at hact
    obtain ⟨free, -, rfl⟩ := hsl.room
    obtain ⟨-, -, -, hw2, hnone2⟩ := hact.wf hw1 hnone1 rfl
    have hcas : Changes cfg L op _ L' := (hact.changes hw1 hnone1 rfl).trans (cascade_changes hw2 hnone2 hc)
    have hev := hcas.evolves
    dsimp only at hne ⊢
    rw [hact.result] at hne ⊢
    rw [submittedId_of_stop hsub]
    rcases finish_handle _ _ _ _ _ with hh | hh
    · rw [hh]
      exact Tracks.evolves (hsleep.numbered hn) htracks hev
    · exact absurd hh hne

/-! ## Handles of stops -/

/-- Every dormant stop still has the handle that was issued for it, and every activation that rests reports an issued handle. -/
structure StopsIssued (issued : List OrderBook.Issue) (L : Ladder) : Prop where
  stops : ∀ d ∈ L.stops, ⟨L.handleAt d.slot, d.serial, d.id⟩ ∈ issued
  activations : ∀ a ∈ L.activations, a.restingHandle ≠ kInvalidHandle → ∃ n, ⟨a.restingHandle, n, a.orderId⟩ ∈ issued

variable {issued : List OrderBook.Issue}

/-- With more issued, the stops are still issued. -/
theorem StopsIssued.mono (h : StopsIssued issued L) {issued' : List OrderBook.Issue} (hsub : ∀ x ∈ issued, x ∈ issued') :
    StopsIssued issued' L :=
  ⟨fun d hd => hsub _ (h.stops d hd), fun a ha hne => let ⟨n, hn⟩ := h.activations a ha hne; ⟨n, hsub _ hn⟩⟩

/-- A stop that stays keeps its handle. -/
theorem StopsIssued.of_stops (hn : L.Numbered) (he : Evolves L L') (hstops : ∀ d' ∈ L'.stops, ∃ d ∈ L.stops, d'.key = d.key)
    (h : ∀ d ∈ L.stops, ⟨L.handleAt d.slot, d.serial, d.id⟩ ∈ issued) :
    ∀ d ∈ L'.stops, ⟨L'.handleAt d.slot, d.serial, d.id⟩ ∈ issued := by
  intro d' hd'
  obtain ⟨d, hd, hkey⟩ := hstops d' hd'
  have ht : L.Tenant d.slot d.serial d.id := Or.inr (Or.inl (List.mem_map.mpr ⟨d, hd, rfl⟩))
  simp only [Dormant.key, Prod.mk.injEq] at hkey
  rw [hkey.1, hkey.2.1, hkey.2.2]
  have ht' : L'.Tenant d.slot d.serial d.id :=
    Or.inr (Or.inl (List.mem_map.mpr ⟨d', hd', by rw [Dormant.key, hkey.1, hkey.2.1, hkey.2.2]⟩))
  rcases he.back ht' with ⟨-, hr⟩ | hle
  · have := h d hd
    rwa [handleAt, hr]
  · have := hn.lt ht
    omega

/-- What becomes of the rest of a stop's taker changes neither list. -/
theorem finish_lists (L : Ladder) (handle : Handle) (d : Dormant) (limit : Option Nat) (remaining : Nat) :
    (L.finish handle d limit remaining).2.stops = L.stops ∧ (L.finish handle d limit remaining).2.activations = L.activations := by
  unfold finish settle dropHeld
  split
  · split
    · split <;> exact ⟨rfl, rfl⟩
    · exact ⟨rfl, rfl⟩
  · exact ⟨rfl, rfl⟩

/-- An activation takes its stop and is listed. -/
theorem Activated.stops (hw : L.Wf cfg) (hnone : L.held = none) {d : Dormant} {sl sr : List Dormant} (hs : L.stops = sl ++ d :: sr)
    {w : Sweep} {result : SubmitResult} (h : Activated cfg L d (sl ++ sr) w result L') :
    L'.stops = sl ++ sr ∧ ∃ a : StopActivation, L'.activations = L.activations ++ [a] ∧ a.orderId = d.id ∧
      a.restingHandle = result.restingHandle ∧ (a.restingHandle = L.handleAt d.slot ∨ a.restingHandle = kInvalidHandle) := by
  have hk := Sweep.run_kept (hw.hold hs hnone) h.run
  rw [h.ladder, h.result]
  dsimp only
  rw [(finish_lists _ _ _ _ _).1, (finish_lists _ _ _ _ _).2, hk.stops, hk.activations]
  exact ⟨rfl, _, rfl, rfl, rfl, finish_handle _ _ _ _ _⟩

/-- The stops that stay are still issued. -/
theorem Activated.stopsIssued (hw : L.Wf cfg) (hnone : L.held = none) (hn : L.Numbered) {d : Dormant} {sl sr : List Dormant}
    (hs : L.stops = sl ++ d :: sr) {w : Sweep} {result : SubmitResult} (h : Activated cfg L d (sl ++ sr) w result L')
    (hi : StopsIssued issued L) : StopsIssued issued L' := by
  obtain ⟨hstops, a, hact, hid, -, hhandle⟩ := h.stops hw hnone hs
  have hc : Changes cfg L (.cancel kInvalidHandle) L L' := h.changes hw hnone hs
  have he := hc.evolves
  refine ⟨StopsIssued.of_stops hn he (fun d' hd' => ⟨d', ?_, rfl⟩) hi.stops, fun x hx hne => ?_⟩
  · rw [hs]
    rw [hstops] at hd'
    rcases List.mem_append.mp hd' with hd' | hd'
    · exact List.mem_append_left _ hd'
    · exact List.mem_append_right _ (List.mem_cons_of_mem _ hd')
  · rw [hact] at hx
    rcases List.mem_append.mp hx with hx | hx
    · exact hi.activations x hx hne
    · rw [List.mem_singleton] at hx
      subst hx
      rcases hhandle with hh | hh
      · exact ⟨d.serial, by rw [hh, hid]; exact hi.stops d (by rw [hs]; simp)⟩
      · exact absurd hh hne

theorem cascade_stopsIssued {trades trades' : List Trade} (hw : L.Wf cfg) (hnone : L.held = none) (hn : L.Numbered)
    (hi : StopsIssued issued L) (h : (L.cascade cfg trades).Returns (trades', L')) : StopsIssued issued L' :=
  (cascade_invariant (J := fun _ L => L.Numbered ∧ StopsIssued issued L)
    (fun _ L _ _ _ _ _ L' hw hnone hj hs _ _ hact =>
      have hc : Changes cfg L (.cancel kInvalidHandle) L L' := hact.changes hw hnone hs
      ⟨hc.numbered hj.1, hact.stopsIssued hw hnone hj.1 hs hj.2⟩)
    hw hnone ⟨hn, hi⟩ h).1.2

/-- What an operation issues. -/
def issues (cfg : BookConfig) (L : Ladder) (op : Op) (out : Outcome) : List OrderBook.Issue :=
  match out.reply with
  | .submit result =>
    if result.restingHandle = kInvalidHandle then [] else [⟨result.restingHandle, L.accepted, L.submittedId cfg op⟩]
  | _ => []

/-- Every operation issues the handles of its stops. -/
theorem Effect.stopsIssued {out : Outcome} (hw : L.Wf cfg) (hnone : L.held = none) (hn : L.Numbered) (hi : StopsIssued issued L)
    (h : Effect cfg L op out L') : StopsIssued (issued ++ L.issues cfg op out) L' := by
  have hev := (h.changes hw hnone).evolves
  have hkeep : (∀ d' ∈ L'.stops, ∃ d ∈ L.stops, d'.key = d.key) → (∀ a ∈ L'.activations, a ∈ L.activations) →
      StopsIssued (issued ++ L.issues cfg op out) L' := fun hstops hact =>
    (StopsIssued.mono ⟨StopsIssued.of_stops hn hev hstops hi.stops, fun a ha hne => hi.activations a (hact a ha) hne⟩)
      fun x hx => List.mem_append_left _ hx
  have hsame : ∀ {L1 : Ladder}, L1.stops = L.stops → ∀ d' ∈ L1.stops, ∃ d ∈ L.stops, d'.key = d.key := fun hs d' hd' =>
    ⟨d', hs ▸ hd', rfl⟩
  cases h with
  | refused _ _ hL =>
    rcases hL with rfl | rfl
    · exact hkeep (hsame rfl) fun _ => id
    · exact hkeep (hsame rfl) (by rintro _ ⟨⟩)
  | @entered _ L0 L1 _ t i quantity rests display w handle _ ha hm hr hc =>
    have hs := ha.sound hw hnone
    have hw1 := hm.wf hs.wf
    have hw2 := hr.wf hw1 hs.level
    have hnone2 : _ = none := hr.held.trans ((hm.kept hs.wf).held.trans hs.held)
    have hch := (hs.changes.trans (hm.changes hs.wf)).trans (hr.changes hw hnone ha hm)
    obtain ⟨hstops1, hact1, -⟩ := hr.lists
    obtain ⟨-, hstops0, hact0⟩ := ha.accepted hw
    have hstops : L1.stops = L.stops := hstops1.trans ((hm.kept hs.wf).stops.trans hstops0)
    have hact : L1.activations = [] := hact1.trans ((hm.kept hs.wf).activations.trans hact0)
    refine (cascade_stopsIssued hw2 hnone2 (hch.numbered hn) ⟨?_, ?_⟩ hc).mono fun x hx => List.mem_append_left _ hx
    · exact StopsIssued.of_stops hn hch.evolves (hsame hstops) hi.stops
    · rw [hact]
      rintro _ ⟨⟩
  | lost _ _ hq _ _ _ _ _ =>
    refine hkeep (hsame ?_) (by rintro _ ⟨⟩)
    rw [remove_eq (L := L.reset) hq (hw.slot_ne_of_split hq).1]
    rfl
  | slept hsub _ _ _ _ _ hrest _ =>
    have hsl := restStop_slept hrest
    have hid := hsl.id
    have hser := hsl.serial
    obtain ⟨free, hfree, rfl⟩ := hsl.room
    refine ⟨fun d' hd' => ?_, by rintro _ ⟨⟩⟩
    rcases List.mem_append.mp hd' with hd' | hd'
    · exact List.mem_append_left _ (hi.stops d' hd')
    · rw [List.mem_singleton] at hd'
      subst hd'
      refine List.mem_append_right _ ?_
      simp only [issues]
      rw [if_neg (handleAt_ne _ _), submittedId_of_stop hsub, hser, hid]
      exact List.mem_singleton.mpr rfl
  | @fired _ _ _ _ _ _ _ _ d _ L2 _ w result _ hsub hnamed hpos hle _ hlim hrest _ hact hc =>
    have hsl := restStop_slept hrest
    obtain ⟨hw1, hnone1⟩ := hsl.wf hw.reset hnone
    have hsleep : Changes cfg L op L _ := (Changes.single hw .of_reset).tail hw.reset (.sleep hsub hnamed hpos hle hlim hrest)
    rw [← List.append_nil L.stops] at hact
    have hid := hsl.id
    obtain ⟨free, -, rfl⟩ := hsl.room
    obtain ⟨-, -, -, hw2, hnone2⟩ := hact.wf hw1 hnone1 rfl
    have hch := hsleep.trans (hact.changes hw1 hnone1 rfl)
    obtain ⟨hstops, a, hacts, haid, hares, -⟩ := hact.stops hw1 hnone1 rfl
    rw [List.append_nil] at hstops
    refine cascade_stopsIssued hw2 hnone2 (hch.numbered hn) ⟨fun x hx => ?_, fun x hx hne => ?_⟩ hc
    · exact List.mem_append_left _ (StopsIssued.of_stops hn hch.evolves (hsame hstops) hi.stops x hx)
    · rw [hacts] at hx
      rcases List.mem_append.mp hx with hx | hx
      · cases hx
      · rw [List.mem_singleton] at hx
        subst hx
        refine ⟨L.accepted, List.mem_append_right _ ?_⟩
        rw [hares] at hne
        simp only [issues]
        rw [if_neg hne, submittedId_of_stop hsub, hares, haid, hid]
        exact List.mem_singleton.mpr rfl
  | cancelMissed _ => exact hkeep (hsame rfl) fun _ => id
  | cancelled hloc =>
    obtain ⟨l, r, hq, -⟩ := resolve_resting hloc
    rw [remove_eq hq (hw.slot_ne_of_split hq).1] at hkeep ⊢
    exact hkeep (hsame rfl) fun _ => id
  | cancelledStop hloc =>
    obtain ⟨l, r, hs, -⟩ := resolve_dormant hloc
    rw [removeStop_eq hs (hw.stop_ne_of_split hs).1] at hkeep ⊢
    refine hkeep (fun d' hd' => ⟨d', ?_, rfl⟩) fun _ => id
    rw [hs]
    rcases List.mem_append.mp hd' with hd' | hd'
    · exact List.mem_append_left _ hd'
    · exact List.mem_append_right _ (List.mem_cons_of_mem _ hd')
  | amendRefused _ => exact hkeep (hsame rfl) fun _ => id
  | amended _ _ _ _ => exact hkeep (hsame rfl) fun _ => id
  | @amendedStop _ n d hloc hpos hle _ =>
    obtain ⟨l, r, hs, -⟩ := resolve_dormant hloc
    rw [amendStop_eq hw hs] at hkeep ⊢
    refine hkeep (fun d' hd' => ?_) fun _ => id
    rw [hs]
    rcases List.mem_append.mp hd' with hd' | hd'
    · exact ⟨d', List.mem_append_left _ hd', rfl⟩
    · rcases List.mem_cons.mp hd' with rfl | hd'
      · obtain ⟨hslot, hid, -, -, -, hser, -⟩ := Dormant.amend_eq hpos hle
        exact ⟨d, by simp, by rw [Dormant.key, Dormant.key, hslot, hser, hid]⟩
      · exact ⟨d', List.mem_append_right _ (List.mem_cons_of_mem _ hd'), rfl⟩
  | uncrossRefused _ => exact hkeep (hsame rfl) fun _ => id
  | opened _ _ => exact hkeep (hsame rfl) fun _ => id
  | uncrossed _ _ _ hloop =>
    have hw1 : { L with tradingState := .continuous }.Wf cfg := hw.of_slots (fun _ _ => rfl) rfl rfl rfl rfl rfl
    have hk := auction_kept hw1 hloop
    refine hkeep (hsame hk.stops) fun a ha => ?_
    have hact := hk.activations
    exact hact ▸ ha

end Ladder

end MatchingEngine

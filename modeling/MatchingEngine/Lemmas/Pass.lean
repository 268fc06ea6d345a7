import MatchingEngine.Lemmas.Sweep

/-!
# The pro-rata pass over a queue

The pass visits the makers of a queue in order and takes each one's share of its displayed slice; a maker that shows its next slice
goes to the tail, where the pass meets it again. `Pass` is this walk over the queue alone. Its first round gives every maker one share
(`Pass.round`, `Pass.single`); `Pass.no_wrap` and `Pass.takes` say what happens where it gives more than the taker has, or goes on.
-/

namespace MatchingEngine

open Comp Function

/-! ## What is left of a maker -/

/-- What the entries of a queue have left. -/
def totalOf (Q : List Entry) : Nat := (Q.map Entry.remaining).sum

/-- What the entry of a slot has left in a queue. -/
def leftAt (Q : List Entry) (s : Nat) : Nat := totalOf (Q.filter fun e => e.slot = s)

/-- No entries have nothing. -/
@[simp] theorem totalOf_nil : totalOf [] = 0 := rfl

/-- The total counts each entry. -/
@[simp] theorem totalOf_cons (e : Entry) (Q : List Entry) : totalOf (e :: Q) = e.remaining + totalOf Q := rfl

/-- The totals of two queues add up. -/
@[simp] theorem totalOf_append (Q Q' : List Entry) : totalOf (Q ++ Q') = totalOf Q + totalOf Q' := by
  simp [totalOf]

/-- No entry has nothing left. -/
@[simp] theorem leftAt_nil (s : Nat) : leftAt [] s = 0 := rfl

/-- What is left at a slot is counted over the entries there. -/
@[simp] theorem leftAt_cons (e : Entry) (Q : List Entry) (s : Nat) :
    leftAt (e :: Q) s = (if e.slot = s then e.remaining else 0) + leftAt Q s := by
  by_cases h : e.slot = s
  · simp [leftAt, h]
  · simp [leftAt, h]

/-- What two queues have left at a slot adds up. -/
@[simp] theorem leftAt_append (Q Q' : List Entry) (s : Nat) : leftAt (Q ++ Q') s = leftAt Q s + leftAt Q' s := by
  simp [leftAt]

/-- At a slot without an entry nothing is left. -/
theorem leftAt_of_not_mem {Q : List Entry} {s : Nat} (h : s ∉ Q.map Entry.slot) : leftAt Q s = 0 := by
  induction Q with
  | nil => rfl
  | cons e Q ih =>
    rw [List.map_cons, List.mem_cons, not_or] at h
    rw [leftAt_cons, if_neg (Ne.symm h.1), ih h.2]

/-- At the slot of an entry the entry is left, where the slots differ. -/
theorem leftAt_of_mem {Q : List Entry} {e : Entry} (hn : (Q.map Entry.slot).Nodup) (he : e ∈ Q) : leftAt Q e.slot = e.remaining := by
  obtain ⟨l, r, rfl⟩ := List.append_of_mem he
  rw [List.map_append, List.map_cons, List.nodup_append] at hn
  obtain ⟨-, hr, hlr⟩ := hn
  have hl : e.slot ∉ l.map Entry.slot := fun h => hlr _ h _ (by simp) rfl
  have hr : e.slot ∉ r.map Entry.slot := (List.nodup_cons.mp hr).1
  simp [leftAt_of_not_mem hl, leftAt_of_not_mem hr]

/-! ## One visit -/

section Pass

variable (share : Nat → Nat)

/-- What a visit leaves of an entry: where it stands, and at the tail. -/
def Entry.visited (e : Entry) : List Entry × List Entry :=
  if share e.displayed = 0 then ([e], [])
  else
    match e.after (share e.displayed) with
    | .part e' => ([e'], [])
    | .replenished e' => ([], [e'])
    | .filled => ([], [])

/-- What the first round takes from the entries of a queue. -/
def sharesOf (R : List Entry) : Nat := (R.map fun e => share e.displayed).sum

/-- What the first round takes from the entry of a slot. -/
def takenAt (R : List Entry) (s : Nat) : Nat := sharesOf share (R.filter fun e => e.slot = s)

/-- The entries a round leaves where they stand. -/
def keptOf (R : List Entry) : List Entry := R.flatMap fun e => (e.visited share).1

/-- The entries a round moves to the tail. -/
def movedOf (R : List Entry) : List Entry := R.flatMap fun e => (e.visited share).2

/-- An entry whose share is its displayed slice and that has more to show. -/
def Entry.Replenishes (e : Entry) : Prop := share e.displayed = e.displayed ∧ e.displayed < e.remaining

/-- The slice a replenished entry shows. -/
def Entry.nextSlice (e : Entry) : Nat := min e.display (e.remaining - e.displayed)

/-- No entries have no share. -/
@[simp] theorem sharesOf_nil : sharesOf share [] = 0 := rfl

/-- The shares are counted entry by entry. -/
@[simp] theorem sharesOf_cons (e : Entry) (R : List Entry) : sharesOf share (e :: R) = share e.displayed + sharesOf share R := rfl

/-- No entries lose nothing. -/
@[simp] theorem takenAt_nil (s : Nat) : takenAt share [] s = 0 := rfl

/-- What is taken at a slot is counted over the entries there. -/
@[simp] theorem takenAt_cons (e : Entry) (R : List Entry) (s : Nat) :
    takenAt share (e :: R) s = (if e.slot = s then share e.displayed else 0) + takenAt share R s := by
  by_cases h : e.slot = s
  · simp [takenAt, h]
  · simp [takenAt, h]

/-- Of no entries none is kept. -/
@[simp] theorem keptOf_nil : keptOf share [] = [] := rfl

/-- None is moved either. -/
@[simp] theorem movedOf_nil : movedOf share [] = [] := rfl

/-- The entries that are kept, in their order. -/
@[simp] theorem keptOf_cons (e : Entry) (R : List Entry) : keptOf share (e :: R) = (e.visited share).1 ++ keptOf share R := rfl

/-- The entries that are moved, in their order. -/
@[simp] theorem movedOf_cons (e : Entry) (R : List Entry) : movedOf share (e :: R) = (e.visited share).2 ++ movedOf share R := rfl

/-- What is taken at a slot is a part of all the shares. -/
theorem takenAt_le (R : List Entry) (s : Nat) : takenAt share R s ≤ sharesOf share R := by
  induction R with
  | nil => exact Nat.le_refl _
  | cons e R ih =>
    rw [takenAt_cons, sharesOf_cons]
    split <;> omega

/-- At a slot without an entry nothing is taken. -/
theorem takenAt_of_not_mem {R : List Entry} {s : Nat} (h : s ∉ R.map Entry.slot) : takenAt share R s = 0 := by
  induction R with
  | nil => rfl
  | cons e R ih =>
    rw [List.map_cons, List.mem_cons, not_or] at h
    rw [takenAt_cons, if_neg (Ne.symm h.1), ih h.2]

/-- At the slot of an entry its share is taken, where the slots differ. -/
theorem takenAt_of_mem {R : List Entry} {e : Entry} (hn : (R.map Entry.slot).Nodup) (he : e ∈ R) :
    takenAt share R e.slot = share e.displayed := by
  induction R with
  | nil => cases he
  | cons x R ih =>
    rw [List.map_cons, List.nodup_cons] at hn
    rw [takenAt_cons]
    rcases List.mem_cons.mp he with rfl | he
    · rw [if_pos rfl, takenAt_of_not_mem share hn.1, Nat.add_zero]
    · have hne : x.slot ≠ e.slot := fun hx => hn.1 (hx ▸ List.mem_map_of_mem he)
      rw [if_neg hne, ih hn.2 he, Nat.zero_add]

variable {share}

section Visit

variable (hle : ∀ d, share d ≤ d) (e : Entry)

include hle

/-- A visit, case by case. -/
theorem Entry.visited_cases :
    (∃ e', e.visited share = ([e'], []) ∧ e'.slot = e.slot ∧ e'.remaining + share e.displayed = e.remaining ∧
      ¬e.Replenishes share) ∨
    (∃ e', e.visited share = ([], [e']) ∧ e'.slot = e.slot ∧ e'.remaining + share e.displayed = e.remaining ∧
      e.Replenishes share ∧ e'.displayed = e.nextSlice) ∨
    (e.visited share = ([], []) ∧ share e.displayed = e.remaining ∧ ¬e.Replenishes share) := by
  have hpos := e.displayed_pos
  have hdr := e.displayed_le_remaining
  unfold visited Replenishes nextSlice
  by_cases hz : share e.displayed = 0
  · rw [if_pos hz]
    exact Or.inl ⟨e, rfl, rfl, by omega, by omega⟩
  · rw [if_neg hz]
    rcases e.after_cases (hle e.displayed) with ⟨e', ha, hlt, hslot, -, -, -, -, hrem, -⟩ |
      ⟨e', ha, heq, hlt, hslot, -, -, -, -, hrem, hdisp⟩ | ⟨ha, heq, hr⟩
    · rw [ha]
      exact Or.inl ⟨e', rfl, hslot, by omega, by omega⟩
    · rw [ha]
      exact Or.inr (Or.inl ⟨e', rfl, hslot, by omega, ⟨heq, by omega⟩, by rw [hdisp, heq]⟩)
    · rw [ha]
      exact Or.inr (Or.inr ⟨rfl, hr, by omega⟩)

/-- A visit takes the share of an entry from what it has left. -/
theorem Entry.visited_total : totalOf (e.visited share).1 + totalOf (e.visited share).2 + share e.displayed = e.remaining := by
  rcases e.visited_cases hle with ⟨e', hv, -, hrem, -⟩ | ⟨e', hv, -, hrem, -⟩ | ⟨hv, hrem, -⟩
  · rw [hv]
    simpa using hrem
  · rw [hv]
    simpa using hrem
  · rw [hv]
    simpa using hrem

/-- It does so at the slot of the entry. -/
theorem Entry.visited_left (s : Nat) :
    leftAt (e.visited share).1 s + leftAt (e.visited share).2 s + (if e.slot = s then share e.displayed else 0) =
      if e.slot = s then e.remaining else 0 := by
  rcases e.visited_cases hle with ⟨e', hv, hslot, hrem, -⟩ | ⟨e', hv, hslot, hrem, -⟩ | ⟨hv, hrem, -⟩
  · rw [hv]
    by_cases hs : e.slot = s
    · simpa [hs, hslot] using hrem
    · simp [hs, hslot]
  · rw [hv]
    by_cases hs : e.slot = s
    · simpa [hs, hslot] using hrem
    · simp [hs, hslot]
  · rw [hv]
    by_cases hs : e.slot = s
    · simpa [hs] using hrem
    · simp [hs]

/-- An entry that is moved has less left than before. -/
theorem Entry.moved_lt : totalOf (e.visited share).2 < e.remaining := by
  have hpos := e.displayed_pos
  have hdr := e.displayed_le_remaining
  rcases e.visited_cases hle with ⟨e', hv, -⟩ | ⟨e', hv, -, hrem, hr, -⟩ | ⟨hv, -⟩
  · rw [hv, totalOf_nil]
    omega
  · have := hr.1
    rw [hv, totalOf_cons, totalOf_nil]
    omega
  · rw [hv, totalOf_nil]
    omega

/-- A visit moves an entry exactly when it replenishes it. -/
theorem Entry.moved_iff : (e.visited share).2 ≠ [] ↔ e.Replenishes share := by
  rcases e.visited_cases hle with ⟨e', hv, -, -, hr⟩ | ⟨e', hv, -, -, hr, -⟩ | ⟨hv, -, hr⟩
  · simp [hv, hr]
  · simp [hv, hr]
  · simp [hv, hr]

end Visit

/-- A visit without a share leaves the entry in its place. -/
theorem Entry.visited_of_zero {e : Entry} (hz : share e.displayed = 0) : e.visited share = ([e], []) := by
  rw [visited, if_pos hz]

/-- One round over a queue takes the shares from its total. -/
theorem round_total (hle : ∀ d, share d ≤ d) (R : List Entry) :
    totalOf (keptOf share R ++ movedOf share R) + sharesOf share R = totalOf R := by
  induction R with
  | nil => rfl
  | cons e R ih =>
    have := e.visited_total hle
    simp only [totalOf_append] at ih
    simp only [keptOf_cons, movedOf_cons, totalOf_append, sharesOf_cons, totalOf_cons]
    omega

/-- It does so slot by slot. -/
theorem round_left (hle : ∀ d, share d ≤ d) (R : List Entry) (s : Nat) :
    leftAt (keptOf share R ++ movedOf share R) s + takenAt share R s = leftAt R s := by
  induction R with
  | nil => rfl
  | cons e R ih =>
    have := e.visited_left hle s
    simp only [leftAt_append] at ih
    simp only [keptOf_cons, movedOf_cons, leftAt_append, takenAt_cons, leftAt_cons]
    omega

/-- Where the moved entries come from. -/
theorem mem_movedOf (hle : ∀ d, share d ≤ d) {R : List Entry} {e' : Entry} (h : e' ∈ movedOf share R) :
    ∃ e ∈ R, e.Replenishes share ∧ e'.slot = e.slot ∧ e'.displayed = e.nextSlice := by
  obtain ⟨e, he, hm⟩ := List.mem_flatMap.mp h
  rcases e.visited_cases hle with ⟨e₁, hv, -⟩ | ⟨e₁, hv, hslot, -, hr, hd⟩ | ⟨hv, -⟩
  · rw [hv] at hm
    cases hm
  · rw [hv] at hm
    rw [List.mem_singleton.mp hm]
    exact ⟨e, he, hr, hslot, hd⟩
  · rw [hv] at hm
    cases hm

/-- Every replenished entry is moved. -/
theorem exists_movedOf (hle : ∀ d, share d ≤ d) {R : List Entry} {e : Entry} (he : e ∈ R) (hr : e.Replenishes share) :
    ∃ e' ∈ movedOf share R, e'.displayed = e.nextSlice := by
  rcases e.visited_cases hle with ⟨e₁, -, -, -, hn⟩ | ⟨e₁, hv, -, -, -, hd⟩ | ⟨-, -, hn⟩
  · exact absurd hr hn
  · exact ⟨e₁, List.mem_flatMap.mpr ⟨e, he, by rw [hv]; simp⟩, hd⟩
  · exact absurd hr hn

/-! ## The pass -/

/-- The pass over a queue of which `V` is behind it and `R` ahead, with `rem` left of the taker: the queue and the remainder it ends
with. The successor of a maker is read before the visit, so the pass ends with a maker that was last. -/
inductive Pass (share : Nat → Nat) : List Entry → List Entry → Nat → List Entry → Nat → Prop where
  | stop {V R rem} (h : R = [] ∨ rem = 0) : Pass share V R rem (V ++ R) rem
  | last {V rem e} (hrem : rem ≠ 0) :
      Pass share V [e] rem (V ++ (e.visited share).1 ++ (e.visited share).2) (sub64 rem (share e.displayed))
  | visit {V R rem e Q r} (hrem : rem ≠ 0) (hne : R ≠ [])
      (h : Pass share (V ++ (e.visited share).1) (R ++ (e.visited share).2) (sub64 rem (share e.displayed)) Q r) :
      Pass share V (e :: R) rem Q r

namespace Pass

variable {V R M Q : List Entry} {rem r : Nat}

/-- The taker's remainder after an execution, which wraps around where the execution is more. -/
theorem sub64_cases {a b : Nat} (ha : a < 2 ^ 64) (hb : b < 2 ^ 64) :
    b ≤ a ∧ sub64 a b + b = a ∨ a < b ∧ sub64 a b + b = a + 2 ^ 64 := by
  rcases Nat.lt_or_ge a b with h | h
  · refine Or.inr ⟨h, ?_⟩
    rw [sub64, Nat.mod_eq_of_lt hb, Nat.mod_eq_of_lt (by omega)]
    omega
  · refine Or.inl ⟨h, ?_⟩
    rw [sub64_eq h ha]
    omega

/-- Makers without a share have a pass that does nothing. -/
theorem of_zero (hrem : rem < 2 ^ 64) (hz : ∀ e ∈ R, share e.displayed = 0) : Pass share V R rem (V ++ R) rem := by
  induction R generalizing V with
  | nil => exact .stop (Or.inl rfl)
  | cons e R ih =>
    by_cases h0 : rem = 0
    · exact .stop (Or.inr h0)
    · have hv := Entry.visited_of_zero (hz e (by simp))
      have hsub : sub64 rem (share e.displayed) = rem := by rw [hz e (by simp), sub64_eq (Nat.zero_le _) hrem]; rfl
      have hrest := ih (V := V ++ [e]) fun x hx => hz x (by simp [hx])
      rw [List.append_assoc, List.singleton_append] at hrest
      by_cases hne : R = []
      · subst hne
        have hlast : Pass share V [e] rem (V ++ (e.visited share).1 ++ (e.visited share).2) (sub64 rem (share e.displayed)) := .last h0
        rwa [hv, hsub, List.append_nil] at hlast
      · refine .visit h0 hne ?_
        rwa [hv, hsub, List.append_nil]

/-- A pass over makers without a share does nothing. -/
theorem idle (h : Pass share V R rem Q r) (hrem : rem < 2 ^ 64) (hz : ∀ e ∈ R, share e.displayed = 0) : Q = V ++ R ∧ r = rem := by
  induction h with
  | stop _ => exact ⟨rfl, rfl⟩
  | @last V rem e _ =>
    have h0 := hz e (by simp)
    rw [Entry.visited_of_zero h0, h0, sub64_eq (Nat.zero_le _) hrem]
    exact ⟨by simp, rfl⟩
  | @visit V R rem e Q r _ _ _ ih =>
    have h0 := hz e (by simp)
    rw [Entry.visited_of_zero h0, h0, sub64_eq (Nat.zero_le _) hrem] at ih
    obtain ⟨hQ, hr⟩ := ih hrem fun x hx => hz x (by simpa using Or.inr hx)
    exact ⟨by rw [hQ]; simp, hr⟩

section

variable (hle : ∀ d, share d ≤ d)

include hle

/-- A share is a quantity of 64 bits. -/
theorem share_lt (e : Entry) : share e.displayed < 2 ^ 64 :=
  Nat.lt_of_le_of_lt (Nat.le_trans (hle _) e.displayed_le_remaining) e.remaining_lt

/-- What the taker has left and what the queue has lost add up to what it had, and to `2^64` more for each time it wrapped around. -/
theorem conserves (h : Pass share V R rem Q r) (hrem : rem < 2 ^ 64) :
    r < 2 ^ 64 ∧ ∃ m, r + totalOf (V ++ R) = rem + totalOf Q + m * 2 ^ 64 := by
  induction h with
  | stop _ => exact ⟨hrem, 0, by omega⟩
  | @last V rem e _ =>
    have ht := e.visited_total hle
    refine ⟨sub64_lt _ _, ?_⟩
    simp only [totalOf_append, totalOf_cons, totalOf_nil]
    rcases sub64_cases hrem (share_lt hle e) with ⟨-, hs⟩ | ⟨-, hs⟩
    · exact ⟨0, by omega⟩
    · exact ⟨1, by omega⟩
  | @visit V R rem e Q r _ _ _ ih =>
    have ht := e.visited_total hle
    obtain ⟨hr, m, hm⟩ := ih (sub64_lt _ _)
    refine ⟨hr, ?_⟩
    simp only [totalOf_append, totalOf_cons] at hm ⊢
    rcases sub64_cases hrem (share_lt hle e) with ⟨-, hs⟩ | ⟨-, hs⟩
    · exact ⟨m, by omega⟩
    · exact ⟨m + 1, by omega⟩

/-- A pass gives no maker anything back. -/
theorem left_le (h : Pass share V R rem Q r) (s : Nat) : leftAt Q s ≤ leftAt (V ++ R) s := by
  induction h with
  | stop _ => exact Nat.le_refl _
  | @last V rem e _ =>
    have := e.visited_left hle s
    simp only [leftAt_append, leftAt_cons, leftAt_nil]
    omega
  | @visit V R rem e Q r _ _ _ ih =>
    have := e.visited_left hle s
    simp only [leftAt_append, leftAt_cons] at ih ⊢
    omega

/-- A pass that still has something to give takes from a maker that has a share. -/
theorem takes (h : Pass share V R rem Q r) (hrem : rem < 2 ^ 64) (hne : rem ≠ 0) (hex : ∃ e ∈ R, share e.displayed ≠ 0) :
    ∃ e ∈ R, leftAt Q e.slot < leftAt (V ++ R) e.slot := by
  induction h with
  | stop h =>
    obtain ⟨e, he, -⟩ := hex
    rcases h with rfl | h
    · cases he
    · exact absurd h hne
  | @last V rem e _ =>
    obtain ⟨x, hx, hpos⟩ := hex
    rw [List.mem_singleton.mp hx] at hpos
    have := e.visited_left hle e.slot
    refine ⟨e, by simp, ?_⟩
    simp only [leftAt_append, leftAt_cons, leftAt_nil, if_true] at this ⊢
    omega
  | @visit V R rem e Q r _ _ hp ih =>
    by_cases h0 : share e.displayed = 0
    · rw [Entry.visited_of_zero h0, h0, sub64_eq (Nat.zero_le _) hrem] at ih
      obtain ⟨x, hx, hpos⟩ := hex
      have hxR : x ∈ R := by
        rcases List.mem_cons.mp hx with rfl | hx
        · exact absurd h0 hpos
        · exact hx
      obtain ⟨y, hy, hlt⟩ := ih hrem hne ⟨x, by simpa using hxR, hpos⟩
      exact ⟨y, by simpa using Or.inr hy, by simpa using hlt⟩
    · have hv := e.visited_left hle e.slot
      have hl := left_le hle hp e.slot
      refine ⟨e, by simp, ?_⟩
      simp only [leftAt_append, leftAt_cons, if_true] at hv hl ⊢
      omega

/-- Where a pass never wraps around, the shares of the makers ahead of it add up to less than the taker has left, or those of the first few
of them to exactly that. By induction on the pass: what is said of the rest of it holds from the remainder after the visit. -/
theorem no_wrap (h : Pass share V (R ++ M) rem Q r) (hrem : rem < 2 ^ 64)
    (hall : r + totalOf (V ++ (R ++ M)) = rem + totalOf Q) :
    (∃ k, k ≤ R.length ∧ sharesOf share (R.take k) = rem) ∨ sharesOf share R < rem := by
  induction R generalizing V M rem with
  | nil =>
    rcases Nat.eq_zero_or_pos rem with h0 | h0
    · exact Or.inl ⟨0, Nat.le_refl _, h0.symm⟩
    · exact Or.inr h0
  | cons e R ih =>
    rcases Nat.eq_zero_or_pos rem with h0 | h0
    · exact Or.inl ⟨0, Nat.zero_le _, h0.symm⟩
    · have ht := e.visited_total hle
      have hs := sub64_cases hrem (share_lt hle e)
      have hrest : share e.displayed ≤ rem ∧ ((∃ k, k ≤ R.length ∧ sharesOf share (R.take k) = sub64 rem (share e.displayed)) ∨
          sharesOf share R < sub64 rem (share e.displayed)) := by
        rw [List.cons_append] at h hall
        generalize hRM : R ++ M = S at h hall
        cases h with
        | stop h =>
          rcases h with h | h
          · cases h
          · omega
        | last _ =>
          simp only [totalOf_append, totalOf_cons, totalOf_nil] at hall
          obtain ⟨rfl, rfl⟩ := List.append_eq_nil_iff.mp hRM
          refine ⟨by omega, ?_⟩
          rcases Nat.eq_zero_or_pos (sub64 rem (share e.displayed)) with hz | hz
          · exact Or.inl ⟨0, Nat.le_refl _, hz.symm⟩
          · exact Or.inr hz
        | visit _ _ h =>
          subst hRM
          obtain ⟨-, m, hm⟩ := conserves hle h (sub64_lt _ _)
          rw [List.append_assoc] at h
          simp only [totalOf_append, totalOf_cons] at hall hm
          refine ⟨by omega, ih h (sub64_lt _ _) ?_⟩
          simp only [totalOf_append]
          omega
      obtain ⟨hshare, ⟨k, hk, hsum⟩ | hlt⟩ := hrest
      · refine Or.inl ⟨k + 1, by simpa using hk, ?_⟩
        rw [List.take_succ_cons, sharesOf_cons, hsum]
        omega
      · refine Or.inr ?_
        rw [sharesOf_cons]
        omega

/-- A pass whose first makers' shares add up to all the taker has left takes just these. -/
theorem hit (h : Pass share V (R ++ M) rem Q r) (hrem : rem < 2 ^ 64) (hsum : sharesOf share R = rem) :
    r = 0 ∧ totalOf Q + rem = totalOf (V ++ (R ++ M)) ∧ ∀ s, leftAt Q s + takenAt share R s = leftAt (V ++ (R ++ M)) s := by
  induction R generalizing V M rem with
  | nil =>
    have h0 : rem = 0 := hsum.symm
    subst h0
    generalize hS : [] ++ M = S at h
    cases h with
    | stop _ => exact ⟨rfl, rfl, fun _ => rfl⟩
    | last hne => exact absurd rfl hne
    | visit hne _ _ => exact absurd rfl hne
  | cons e R ih =>
    have ht := e.visited_total hle
    have hv := e.visited_left hle
    rw [sharesOf_cons] at hsum
    have hsub : sub64 rem (share e.displayed) = sharesOf share R := by
      rw [sub64_eq (by omega) hrem]
      omega
    rw [List.cons_append] at h ⊢
    generalize hRM : R ++ M = S at h ⊢
    cases h with
    | stop h =>
      rcases h with h | h
      · cases h
      · refine ⟨h, by rw [h]; rfl, fun s => ?_⟩
        have hzero : takenAt share (e :: R) s = 0 := by
          have hz : sharesOf share (e :: R) = 0 := by
            rw [sharesOf_cons]
            omega
          exact Nat.le_zero.mp (hz ▸ takenAt_le share _ s)
        rw [hzero, Nat.add_zero]
    | last _ =>
      obtain ⟨rfl, rfl⟩ := List.append_eq_nil_iff.mp hRM
      rw [sharesOf_nil] at hsub hsum
      refine ⟨hsub, ?_, fun s => ?_⟩
      · simp only [totalOf_append, totalOf_cons, totalOf_nil]
        omega
      · have := hv s
        simp only [leftAt_append, takenAt_cons, takenAt_nil, leftAt_cons, leftAt_nil]
        omega
    | visit _ _ h =>
      subst hRM
      rw [List.append_assoc] at h
      obtain ⟨hr, htot, hleft⟩ := ih h (sub64_lt _ _) hsub.symm
      refine ⟨hr, ?_, fun s => ?_⟩
      · simp only [totalOf_append, totalOf_cons] at htot ⊢
        omega
      · have h1 := hleft s
        have h2 := hv s
        simp only [leftAt_append, takenAt_cons, leftAt_cons] at h1 ⊢
        omega

/-- The first round of a pass in which some maker is moved and met again. -/
theorem round (h : Pass share V (R ++ M) rem Q r) (hrem : rem < 2 ^ 64) (hsum : sharesOf share R < rem)
    (hmoved : M ≠ [] ∨ ∃ e ∈ R.dropLast, e.Replenishes share) :
    Pass share (V ++ keptOf share R) (M ++ movedOf share R) (rem - sharesOf share R) Q r := by
  induction R generalizing V M rem with
  | nil => simpa using h
  | cons e R ih =>
    rw [sharesOf_cons] at hsum
    have hsub : sub64 rem (share e.displayed) = rem - share e.displayed := sub64_eq (by omega) hrem
    have hmoved' : M ++ (e.visited share).2 ≠ [] ∨ ∃ e ∈ R.dropLast, e.Replenishes share := by
      rcases hmoved with hM | ⟨x, hx, hr⟩
      · exact Or.inl fun h => hM (List.append_eq_nil_iff.mp h).1
      · cases R with
        | nil => cases hx
        | cons y R =>
          rw [List.dropLast_cons_cons, List.mem_cons] at hx
          rcases hx with rfl | hx
          · exact Or.inl fun h => (x.moved_iff hle).mpr hr (List.append_eq_nil_iff.mp h).2
          · exact Or.inr ⟨x, hx, hr⟩
    rw [List.cons_append] at h
    generalize hRM : R ++ M = S at h
    cases h with
    | stop h =>
      rcases h with h | h
      · cases h
      · omega
    | last _ =>
      obtain ⟨rfl, rfl⟩ := List.append_eq_nil_iff.mp hRM
      rcases hmoved with hM | ⟨x, hx, -⟩
      · exact absurd rfl hM
      · cases hx
    | visit _ _ h =>
      subst hRM
      rw [List.append_assoc, hsub] at h
      have := ih h (by omega) (by omega) hmoved'
      rw [keptOf_cons, movedOf_cons, sharesOf_cons, ← List.append_assoc, ← List.append_assoc, ← Nat.sub_sub]
      exact this

/-- A pass in which no maker but the last may be replenished ends with its first round. -/
theorem single (h : Pass share V R rem Q r) (hrem : rem < 2 ^ 64) (hsum : sharesOf share R < rem)
    (hstays : ∀ e ∈ R.dropLast, ¬e.Replenishes share) :
    Q = V ++ (keptOf share R ++ movedOf share R) ∧ r = rem - sharesOf share R := by
  induction R generalizing V rem with
  | nil =>
    cases h with
    | stop _ => exact ⟨by simp, rfl⟩
  | cons e R ih =>
    rw [sharesOf_cons] at hsum
    have hsub : sub64 rem (share e.displayed) = rem - share e.displayed := sub64_eq (by omega) hrem
    cases h with
    | stop h =>
      rcases h with h | h
      · cases h
      · omega
    | last _ => exact ⟨by simp, by rw [hsub]; simp⟩
    | visit _ hne h =>
      obtain ⟨y, R, rfl⟩ := List.exists_cons_of_ne_nil hne
      rw [List.dropLast_cons_cons] at hstays
      have hstay : (e.visited share).2 = [] := by
        by_contra hm
        exact hstays e (by simp) ((e.moved_iff hle).mp hm)
      rw [hstay, List.append_nil, hsub] at h
      obtain ⟨hQ, hr⟩ := ih h (by omega) (by omega) fun x hx => hstays x (by simp [hx])
      refine ⟨?_, ?_⟩
      · rw [hQ, keptOf_cons _ e, movedOf_cons _ e, hstay]
        simp
      · rw [hr, sharesOf_cons _ e]
        omega

end

end Pass

end Pass

/-! ## One share each -/

/-- What the matching loops read of a resting order. -/
structure Maker where
  remaining : Nat
  display : Nat
  displayed : Nat
  deriving DecidableEq

def Entry.maker (e : Entry) : Maker := ⟨e.remaining, e.display, e.displayed⟩

namespace Maker

/-- A maker whose share is its displayed slice and that has more to show. -/
def Replenishes (share : Nat → Nat) (m : Maker) : Prop := share m.displayed = m.displayed ∧ m.displayed < m.remaining

/-- The slice a replenished maker shows. -/
def nextSlice (m : Maker) : Nat := min m.display (m.remaining - m.displayed)

/-- The displayed total of a queue. -/
def displayedTotal (queue : List Maker) : Nat := (queue.map displayed).sum

/-- The share of a displayed slice in a quantity: `floor(displayed * q / total_displayed)`, at most what is displayed, and nothing
below the minimum. -/
def fairShare (minimum : Nat) (queue : List Maker) (q slice : Nat) : Nat :=
  let fill := min (slice * q / displayedTotal queue) slice
  if fill < minimum then 0 else fill

/-- The share as the pass computes it, on 64 bits. -/
def share (minimum : Nat) (queue : List Maker) (q slice : Nat) : Nat :=
  Execution.proRataShare minimum slice q (displayedTotal queue % 2 ^ 64)

/-- A fair share is at most the displayed slice. -/
theorem fairShare_le (minimum : Nat) (queue : List Maker) (q slice : Nat) : fairShare minimum queue q slice ≤ slice := by
  unfold fairShare
  dsimp only
  split
  · exact Nat.zero_le _
  · exact Nat.min_le_right _ _

/-- So is the share the pass computes. -/
theorem share_le (minimum : Nat) (queue : List Maker) (q slice : Nat) : share minimum queue q slice ≤ slice :=
  Execution.proRataShare_le _ _ _ _

instance (share : Nat → Nat) (m : Maker) : Decidable (m.Replenishes share) := inferInstanceAs (Decidable (_ ∧ _))

/-- When a pass with the shares `share` gives every maker of a queue at most once its `fair` share, and no more than `q` in all: the
shares of the first few makers are all of `q` and the pass ends with them; or all shares are less than `q`, and where a maker other
than the last is replenished, and so met again, no replenished maker has a share in its next slice. -/
def OnceEach (share fair : Nat → Nat) (queue : List Maker) (q : Nat) : Prop :=
  (∃ k, k < queue.length + 1 ∧ ((queue.take k).map fun m => share m.displayed).sum = q ∧
    ∀ m ∈ queue.take k, share m.displayed = 0 ∨ share m.displayed = fair m.displayed) ∨
  ((queue.map fun m => share m.displayed).sum < q ∧
    (∀ m ∈ queue, share m.displayed = 0 ∨ share m.displayed = fair m.displayed) ∧
    ((∃ m ∈ queue.dropLast, m.Replenishes share) → ∀ m ∈ queue, m.Replenishes share → share m.nextSlice = 0))

instance (share fair : Nat → Nat) (queue : List Maker) (q : Nat) : Decidable (OnceEach share fair queue q) :=
  inferInstanceAs (Decidable (_ ∨ _))

/-- The condition with the shares the pass computes, against the exact ones. -/
def SharedOnce (minimum : Nat) (queue : List Maker) (q : Nat) : Prop :=
  OnceEach (share minimum queue q) (fairShare minimum queue q) queue q

instance (minimum : Nat) (queue : List Maker) (q : Nat) : Decidable (SharedOnce minimum queue q) :=
  inferInstanceAs (Decidable (OnceEach _ _ _ _))

/-- What the makers of a queue have left. -/
def total (queue : List Maker) : Nat := (queue.map remaining).sum

/-- The condition at every level a taker gets to, with what it has left there. -/
def SharedReach (minimum : Nat) (makers : Nat → List Maker) : List Nat → Nat → Prop
  | [], _ => True
  | i :: levels, q =>
    SharedOnce minimum (makers i) q ∧ (total (makers i) < q → SharedReach minimum makers levels (q - total (makers i)))

instance decidableSharedReach (minimum : Nat) (makers : Nat → List Maker) :
    ∀ levels q, Decidable (SharedReach minimum makers levels q)
  | [], _ => inferInstanceAs (Decidable True)
  | i :: levels, q =>
    have := decidableSharedReach minimum makers levels (q - total (makers i))
    inferInstanceAs (Decidable (_ ∧ (_ → _)))

/-- The condition depends on the levels reached alone. -/
theorem sharedReach_congr {minimum : Nat} {makers makers' : Nat → List Maker} {levels : List Nat} {q : Nat}
    (h : ∀ i ∈ levels, makers i = makers' i) : SharedReach minimum makers levels q ↔ SharedReach minimum makers' levels q := by
  induction levels generalizing q with
  | nil => exact Iff.rfl
  | cons i levels ih =>
    simp only [SharedReach]
    rw [h i (by simp), ih fun j hj => h j (by simp [hj])]

/-- The condition on the queue of a ladder. -/
theorem onceEach_iff {share fair : Nat → Nat} {R : List Entry} {q : Nat} :
    OnceEach share fair (R.map Entry.maker) q ↔
      (∃ k, k ≤ R.length ∧ sharesOf share (R.take k) = q ∧
        ∀ e ∈ R.take k, share e.displayed = 0 ∨ share e.displayed = fair e.displayed) ∨
      (sharesOf share R < q ∧ (∀ e ∈ R, share e.displayed = 0 ∨ share e.displayed = fair e.displayed) ∧
        ((∃ e ∈ R.dropLast, e.Replenishes share) → ∀ e ∈ R, e.Replenishes share → share e.nextSlice = 0)) := by
  have hsum : ∀ R : List Entry, ((R.map Entry.maker).map fun m => share m.displayed).sum = sharesOf share R := fun R => by
    rw [List.map_map]
    rfl
  have hexists : (∃ m ∈ R.dropLast.map Entry.maker, m.Replenishes share) ↔ ∃ e ∈ R.dropLast, e.Replenishes share := by
    constructor
    · rintro ⟨m, hm, hr⟩
      obtain ⟨e, he, rfl⟩ := List.mem_map.mp hm
      exact ⟨e, he, hr⟩
    · rintro ⟨e, he, hr⟩
      exact ⟨e.maker, List.mem_map_of_mem he, hr⟩
  unfold OnceEach
  simp only [← List.map_take, ← List.map_dropLast, hsum, hexists, List.length_map, List.forall_mem_map, Nat.lt_succ_iff]
  rfl

end Maker

namespace Pass

variable {share fair : Nat → Nat} {R Q : List Entry} {q r : Nat}

/-- The makers of the first `k`, and the others, after a pass that ended with those. -/
theorem left_of_hit (hn : (R.map Entry.slot).Nodup) {k : Nat}
    (hleft : ∀ s, leftAt Q s + takenAt share (R.take k) s = leftAt R s) {e : Entry} (he : e ∈ R) :
    (e ∈ R.take k → leftAt Q e.slot + share e.displayed = e.remaining) ∧ (e ∉ R.take k → leftAt Q e.slot = e.remaining) := by
  have hl := hleft e.slot
  have hsplit : ((R.take k).map Entry.slot ++ (R.drop k).map Entry.slot).Nodup := by
    rwa [← List.map_append, List.take_append_drop]
  obtain ⟨hk, -, hdis⟩ := List.nodup_append.mp hsplit
  rw [leftAt_of_mem hn he] at hl
  refine ⟨fun hm => ?_, fun hm => ?_⟩
  · rwa [takenAt_of_mem share hk hm] at hl
  · have hd : e ∈ R.drop k := by
      rw [← List.take_append_drop k R, List.mem_append] at he
      exact he.resolve_left hm
    rwa [takenAt_of_not_mem share fun hs => hdis _ hs _ (List.mem_map_of_mem hd) rfl] at hl

section

variable (hle : ∀ d, share d ≤ d) (hn : (R.map Entry.slot).Nodup)

include hle hn

/-- A pass that leaves what one round leaves: every maker has lost its share. -/
theorem left_of_round (hQ : Q = keptOf share R ++ movedOf share R) {e : Entry} (he : e ∈ R) :
    leftAt Q e.slot + share e.displayed = e.remaining := by
  rw [hQ, ← takenAt_of_mem share hn he, round_left hle, leftAt_of_mem hn he]

/-- A pass gives every maker at most once its fair share, without wrapping around, exactly when the condition holds. A maker that has lost
exactly its share has lost nothing or its fair share, and a second share of a moved maker would be more than its displayed slice. -/
theorem fair_iff (hfair : ∀ d, fair d ≤ d) (h : Pass share [] R q Q r) (hq : q < 2 ^ 64) :
    (r + totalOf R = q + totalOf Q ∧
      ∀ e ∈ R, leftAt Q e.slot = e.remaining ∨ leftAt Q e.slot + fair e.displayed = e.remaining) ↔
    Maker.OnceEach share fair (R.map Entry.maker) q := by
  rw [Maker.onceEach_iff]
  have h' : Pass share [] (R ++ []) q Q r := by rwa [List.append_nil]
  constructor
  · rintro ⟨hall, hmakers⟩
    have hsound : ∀ e ∈ R, leftAt Q e.slot + share e.displayed = e.remaining →
        share e.displayed = 0 ∨ share e.displayed = fair e.displayed := by
      intro e he hl
      rcases hmakers e he with hm | hm
      · exact Or.inl (by omega)
      · exact Or.inr (by omega)
    rcases no_wrap hle h' hq (by simpa using hall) with ⟨k, hk, hsum⟩ | hsum
    · refine Or.inl ⟨k, hk, hsum, fun e he => ?_⟩
      have hR : Pass share [] (R.take k ++ R.drop k) q Q r := by rwa [List.take_append_drop]
      obtain ⟨-, -, hleft⟩ := hit hle hR hq hsum
      rw [List.take_append_drop, List.nil_append] at hleft
      have hmem := List.mem_of_mem_take he
      exact hsound e hmem ((left_of_hit hn hleft hmem).1 he)
    · by_cases hmoved : ∃ e ∈ R.dropLast, e.Replenishes share
      · have hround := round hle h' hq hsum (Or.inr hmoved)
        rw [List.nil_append, List.nil_append] at hround
        have hzero : ∀ e' ∈ movedOf share R, share e'.displayed = 0 := by
          by_contra hex
          rw [not_forall] at hex
          obtain ⟨x, hx⟩ := hex
          rw [Classical.not_imp] at hx
          obtain ⟨e', he', hlt⟩ := takes hle hround (by omega) (by omega) ⟨x, hx⟩
          obtain ⟨e, he, hr, hslot, -⟩ := mem_movedOf hle he'
          have hl := left_of_round hle hn rfl he
          have hfd := hfair e.displayed
          have hrs := hr.1
          rw [hslot] at hlt
          rcases hmakers e he with hm | hm
          · omega
          · omega
        obtain ⟨hQ, -⟩ := idle hround (by omega) hzero
        refine Or.inr ⟨hsum, fun e he => hsound e he (left_of_round hle hn hQ he), fun _ e he hr => ?_⟩
        obtain ⟨e', he', hd⟩ := exists_movedOf hle he hr
        rw [← hd]
        exact hzero e' he'
      · obtain ⟨hQ, -⟩ := single hle h hq hsum fun e he hr => hmoved ⟨e, he, hr⟩
        exact Or.inr ⟨hsum, fun e he => hsound e he (left_of_round hle hn hQ he), fun hex => absurd hex hmoved⟩
  · rintro (⟨k, -, hsum, hsound⟩ | ⟨hsum, hsound, hnext⟩)
    · have hR : Pass share [] (R.take k ++ R.drop k) q Q r := by rwa [List.take_append_drop]
      obtain ⟨hr, htot, hleft⟩ := hit hle hR hq hsum
      rw [List.take_append_drop, List.nil_append] at htot hleft
      refine ⟨by omega, fun e he => ?_⟩
      obtain ⟨hin, hout⟩ := left_of_hit hn hleft he
      by_cases hm : e ∈ R.take k
      · have hl := hin hm
        rcases hsound e hm with h0 | hf
        · exact Or.inl (by omega)
        · exact Or.inr (by omega)
      · exact Or.inl (hout hm)
    · have hQr : Q = keptOf share R ++ movedOf share R ∧ r = q - sharesOf share R := by
        by_cases hmoved : ∃ e ∈ R.dropLast, e.Replenishes share
        · have hround := round hle h' hq hsum (Or.inr hmoved)
          rw [List.nil_append, List.nil_append] at hround
          refine idle hround (by omega) fun e' he' => ?_
          obtain ⟨e, he, hr, -, hd⟩ := mem_movedOf hle he'
          rw [hd]
          exact hnext hmoved e he hr
        · exact single hle h hq hsum fun e he hr => hmoved ⟨e, he, hr⟩
      obtain ⟨hQ, hr⟩ := hQr
      have htot := round_total hle R
      rw [← hQ] at htot
      refine ⟨by omega, fun e he => ?_⟩
      have hl := left_of_round hle hn hQ he
      rcases hsound e he with h0 | hf
      · exact Or.inl (by omega)
      · exact Or.inr (by omega)

end

end Pass

end MatchingEngine

import Mathlib.Data.List.Basic
import Mathlib.Logic.Function.Basic

/-!
# Intrusive doubly linked lists

Lists threaded through arrays of indices: `next` and `prev` are the link arrays, `head` and `tail` the ends, and an index `nil`
that no element uses stands for "none". `Links.Holds nil d xs` says that the links `d` spell the list `xs`. The operations are
those an intrusive queue needs: taking an element out, adding one at the tail, moving one to the tail; each is followed by the
list it leaves and by the frame fact that it touches the links of the list's own elements only.
-/

/-- The links of one list: the two link arrays and the two ends. -/
structure Links where
  next : Nat → Nat
  prev : Nat → Nat
  head : Nat
  tail : Nat

namespace Links

open Function

/-- The links `d` spell the list `xs`. -/
structure Holds (nil : Nat) (d : Links) (xs : List Nat) : Prop where
  head : d.head = xs.head?.getD nil
  tail : d.tail = xs.getLast?.getD nil
  nodup : xs.Nodup
  nil_notMem : nil ∉ xs
  next : ∀ l a r, xs = l ++ a :: r → d.next a = r.head?.getD nil
  prev : ∀ l a r, xs = l ++ a :: r → d.prev a = l.getLast?.getD nil

/-- Take `a` out: its neighbours, or the ends, are linked past it. -/
def remove (nil : Nat) (d : Links) (a : Nat) : Links where
  next := if d.prev a = nil then d.next else update d.next (d.prev a) (d.next a)
  prev := if d.next a = nil then d.prev else update d.prev (d.next a) (d.prev a)
  head := if d.prev a = nil then d.next a else d.head
  tail := if d.next a = nil then d.prev a else d.tail

/-- Add `a` at the tail. -/
def pushBack (nil : Nat) (d : Links) (a : Nat) : Links where
  next := if d.tail = nil then update d.next a nil else update (update d.next a nil) d.tail a
  prev := update d.prev a d.tail
  head := if d.tail = nil then a else d.head
  tail := a

/-- Move `a` to the tail; the last element stays where it is. -/
def moveToTail (nil : Nat) (d : Links) (a : Nat) : Links :=
  if d.tail = a then d
  else
    { next := update (update (if d.prev a = nil then d.next else update d.next (d.prev a) (d.next a)) d.tail a) a nil
      prev := update (update d.prev (d.next a) (d.prev a)) a d.tail
      head := if d.prev a = nil then d.next a else d.head
      tail := a }

/-- The elements from `a` on, following the links, at most `n` of them. -/
def walk (nil : Nat) (next : Nat → Nat) : Nat → Nat → List Nat
  | 0, _ => []
  | n + 1, a => if a = nil then [] else a :: walk nil next n (next a)

variable {nil : Nat} {d d' : Links} {xs l r : List Nat} {a x : Nat}

/-- An element of an append, found in the left or in the right part. -/
theorem append_eq_cases {l r l' r' : List Nat} {x : Nat} (h : l ++ r = l' ++ x :: r') :
    (∃ c, l = l' ++ x :: c ∧ r' = c ++ r) ∨ ∃ c, l' = l ++ c ∧ r = c ++ x :: r' := by
  rcases List.append_eq_append_iff.mp h with ⟨c, hc, hr⟩ | ⟨c, hc, hr⟩
  · exact Or.inr ⟨c, hc, hr⟩
  · cases c with
    | nil => exact Or.inr ⟨[], by simpa using hc.symm, by simpa using hr.symm⟩
    | cons y c =>
      obtain ⟨rfl, rfl⟩ := List.cons_eq_cons.mp hr
      exact Or.inl ⟨c, hc, rfl⟩

/-- The last element is an element. -/
theorem getLast?_getD_mem (h : l ≠ []) : l.getLast?.getD nil ∈ l := by
  rw [List.getLast?_eq_some_getLast h]
  exact List.getLast_mem h

theorem head?_getD_mem (h : r ≠ []) : r.head?.getD nil ∈ r := by
  rw [List.head?_eq_some_head h]
  exact List.head_mem h

/-- The last element of a list with two elements at the end is not the first of them. -/
theorem last_cons_mem (l : List Nat) (x y : Nat) (c : List Nat) : (l ++ x :: y :: c).getLast?.getD nil ∈ y :: c := by
  rw [List.getLast?_append_of_ne_nil l (by simp), List.getLast?_cons_cons]
  exact getLast?_getD_mem (by simp)

/-- The links spell the empty list when both ends are `nil`. -/
theorem holds_nil (h : d.head = nil) (t : d.tail = nil) : Holds nil d [] :=
  ⟨h, t, List.nodup_nil, List.not_mem_nil, fun l a r e => by simp at e, fun l a r e => by simp at e⟩

/-- Links that agree on the ends and on the list's elements spell the same list. -/
theorem Holds.congr (h : Holds nil d xs) (hh : d'.head = d.head) (ht : d'.tail = d.tail)
    (hn : ∀ x ∈ xs, d'.next x = d.next x) (hp : ∀ x ∈ xs, d'.prev x = d.prev x) : Holds nil d' xs where
  head := hh.trans h.head
  tail := ht.trans h.tail
  nodup := h.nodup
  nil_notMem := h.nil_notMem
  next l a r e := (hn a (by simp [e])).trans (h.next l a r e)
  prev l a r e := (hp a (by simp [e])).trans (h.prev l a r e)

/-- Walking forward links from the head spells the list. -/
theorem walk_eq {next : Nat → Nat} {n : Nat} (hnil : nil ∉ xs) (hnext : ∀ l a r, xs = l ++ a :: r → next a = r.head?.getD nil)
    (hn : xs.length ≤ n) : walk nil next n (xs.head?.getD nil) = xs := by
  have key : ∀ r l n, xs = l ++ r → r.length ≤ n → walk nil next n (r.head?.getD nil) = r := by
    intro r
    induction r with
    | nil =>
      intro l n _ _
      cases n with
      | zero => rfl
      | succ n => simp [walk]
    | cons a r ih =>
      intro l n hx hn
      cases n with
      | zero => simp at hn
      | succ n =>
        have hne : a ≠ nil := fun e => hnil (by rw [hx, ← e]; simp)
        rw [List.head?_cons, Option.getD_some, walk, if_neg hne, hnext l a r hx]
        rw [ih (l ++ [a]) n (by rw [hx]; simp) (by simpa using hn)]
  exact key xs [] n rfl hn

/-- Walking the links from the head spells the list. -/
theorem Holds.walk (h : Holds nil d xs) {n : Nat} (hn : xs.length ≤ n) : walk nil d.next n d.head = xs := by
  rw [h.head]
  exact walk_eq h.nil_notMem h.next hn

theorem Holds.ne_nil (h : Holds nil d xs) (hx : x ∈ xs) : x ≠ nil := fun e => h.nil_notMem (e ▸ hx)

/-- The tail is `nil` exactly for the empty list. -/
theorem Holds.tail_eq_nil (h : Holds nil d xs) : d.tail = nil ↔ xs = [] := by
  rw [h.tail]
  refine ⟨fun e => ?_, fun e => by simp [e]⟩
  by_contra hne
  exact h.ne_nil (getLast?_getD_mem hne) e

section Middle

variable (h : Holds nil d (l ++ a :: r))

include h

/-- The link to the element before. -/
theorem Holds.prev_mid : d.prev a = l.getLast?.getD nil := h.prev l a r rfl

/-- The link to the element behind. -/
theorem Holds.next_mid : d.next a = r.head?.getD nil := h.next l a r rfl

/-- What is before is not behind. -/
theorem Holds.left_notMem {x : Nat} (hx : x ∈ l) : x ≠ a ∧ x ∉ r := by
  have hd := h.nodup
  rw [List.nodup_append] at hd
  exact ⟨hd.2.2 x hx a (by simp), fun hr => hd.2.2 x hx x (by simp [hr]) rfl⟩

theorem Holds.right_notMem {x : Nat} (hx : x ∈ r) : x ≠ a ∧ x ∉ l := by
  have hd := h.nodup
  rw [List.nodup_append] at hd
  exact ⟨fun e => (List.nodup_cons.mp hd.2.1).1 (e ▸ hx), fun hl => (h.left_notMem hl).2 hx⟩

theorem Holds.prev_mid_eq_nil : d.prev a = nil ↔ l = [] := by
  rw [h.prev_mid]
  refine ⟨fun e => ?_, fun e => by simp [e]⟩
  by_contra hne
  exact h.nil_notMem (e ▸ List.mem_append_left _ (getLast?_getD_mem hne))

theorem Holds.next_mid_eq_nil : d.next a = nil ↔ r = [] := by
  rw [h.next_mid]
  refine ⟨fun e => ?_, fun e => by simp [e]⟩
  by_contra hne
  exact h.nil_notMem (e ▸ List.mem_append_right _ (List.mem_cons_of_mem _ (head?_getD_mem hne)))

theorem Holds.nodup_out : (l ++ r).Nodup :=
  h.nodup.sublist (List.Sublist.append (List.Sublist.refl l) (List.sublist_cons_self a r))

/-- The next link of an element left of `a`, once `a` is out. -/
theorem Holds.remove_next_left {l' c : List Nat} {x : Nat} (e : l = l' ++ x :: c) :
    (d.remove nil a).next x = (c ++ r).head?.getD nil := by
  have hne : l ≠ [] := by simp [e]
  have hp : d.prev a ≠ nil := fun hp => hne (h.prev_mid_eq_nil.mp hp)
  simp only [remove, if_neg hp]
  cases c with
  | nil =>
    have : d.prev a = x := by rw [h.prev_mid, e]; simp
    rw [this, update_self, h.next_mid, List.nil_append]
  | cons y c =>
    have hxp : x ≠ d.prev a := by
      rw [h.prev_mid, e]
      intro hx
      have hd := h.nodup
      rw [e, List.append_assoc] at hd
      have hm : x ∈ y :: c := hx ▸ last_cons_mem l' x y c
      exact (List.nodup_cons.mp (List.nodup_append.mp hd).2.1).1 (List.mem_append_left _ hm)
    rw [update_of_ne hxp, h.next l' x (y :: c ++ a :: r) (by rw [e]; simp)]
    rfl

/-- The next link of an element right of `a`, once `a` is out. -/
theorem Holds.remove_next_right {c r' : List Nat} {x : Nat} (e : r = c ++ x :: r') :
    (d.remove nil a).next x = r'.head?.getD nil := by
  have hx : x ∈ r := by simp [e]
  have key : d.next x = r'.head?.getD nil := h.next (l ++ a :: c) x r' (by rw [e]; simp)
  simp only [remove]
  split
  · exact key
  · rename_i hp
    have hne : l ≠ [] := fun e => hp (h.prev_mid_eq_nil.mpr e)
    rw [update_of_ne, key]
    rw [h.prev_mid]
    exact fun e => (h.right_notMem hx).2 (e ▸ getLast?_getD_mem hne)

/-- The previous link of an element left of `a`, once `a` is out. -/
theorem Holds.remove_prev_left {l' c : List Nat} {x : Nat} (e : l = l' ++ x :: c) :
    (d.remove nil a).prev x = l'.getLast?.getD nil := by
  have hx : x ∈ l := by simp [e]
  have key : d.prev x = l'.getLast?.getD nil := h.prev l' x (c ++ a :: r) (by rw [e]; simp)
  simp only [remove]
  split
  · exact key
  · rename_i hn
    have hne : r ≠ [] := fun e => hn (h.next_mid_eq_nil.mpr e)
    rw [update_of_ne, key]
    rw [h.next_mid]
    exact fun e => (h.left_notMem hx).2 (e ▸ head?_getD_mem hne)

/-- The previous link of an element right of `a`, once `a` is out. -/
theorem Holds.remove_prev_right {c r' : List Nat} {x : Nat} (e : r = c ++ x :: r') :
    (d.remove nil a).prev x = (l ++ c).getLast?.getD nil := by
  have hne : r ≠ [] := by simp [e]
  have hn : d.next a ≠ nil := fun hn => hne (h.next_mid_eq_nil.mp hn)
  simp only [remove, if_neg hn]
  cases c with
  | nil =>
    have : d.next a = x := by rw [h.next_mid, e]; rfl
    rw [this, update_self, h.prev_mid, List.append_nil]
  | cons y c =>
    have hxn : x ≠ d.next a := by
      rw [h.next_mid, e]
      intro hx
      have hd := (List.nodup_cons.mp (List.nodup_append.mp h.nodup).2.1).2
      rw [e] at hd
      have hy : x = y := hx
      rw [hy] at hd
      simp at hd
    rw [update_of_ne hxn, h.prev (l ++ a :: y :: c) x r' (by rw [e]; simp)]
    simp [List.getLast?_append, List.getLast?_cons_cons]

/-- Taking an element out of the middle leaves the rest of the list. -/
theorem Holds.remove : Holds nil (d.remove nil a) (l ++ r) where
  head := by
    simp only [Links.remove]
    split
    · rename_i hp
      rw [h.prev_mid_eq_nil.mp hp, List.nil_append, h.next_mid]
    · rename_i hp
      have hne : l ≠ [] := fun e => hp (h.prev_mid_eq_nil.mpr e)
      rw [h.head, List.head?_append_of_ne_nil _ hne, List.head?_append_of_ne_nil _ hne]
  tail := by
    simp only [Links.remove]
    split
    · rename_i hn
      rw [h.next_mid_eq_nil.mp hn, List.append_nil, h.prev_mid]
    · rename_i hn
      have hne : r ≠ [] := fun e => hn (h.next_mid_eq_nil.mpr e)
      obtain ⟨y, r, rfl⟩ := List.exists_cons_of_ne_nil hne
      rw [h.tail, List.getLast?_append_of_ne_nil l (by simp), List.getLast?_append_of_ne_nil l (by simp),
        List.getLast?_cons_cons]
  nodup := h.nodup_out
  nil_notMem := fun hm => h.nil_notMem (by
    rcases List.mem_append.mp hm with hm | hm
    · exact List.mem_append_left _ hm
    · exact List.mem_append_right _ (List.mem_cons_of_mem _ hm))
  next l' x r' e := by
    rcases append_eq_cases e with ⟨c, hl, rfl⟩ | ⟨c, rfl, hr⟩
    · exact h.remove_next_left hl
    · exact h.remove_next_right hr
  prev l' x r' e := by
    rcases append_eq_cases e with ⟨c, hl, rfl⟩ | ⟨c, rfl, hr⟩
    · exact h.remove_prev_left hl
    · exact h.remove_prev_right hr

/-- Taking an element out touches the links of the other elements only. -/
theorem Holds.remove_frame {x : Nat} (hx : x ∉ l ++ r) :
    (d.remove nil a).next x = d.next x ∧ (d.remove nil a).prev x = d.prev x := by
  simp only [Links.remove]
  constructor
  · split
    · rfl
    · rename_i hp
      have hne : l ≠ [] := fun e => hp (h.prev_mid_eq_nil.mpr e)
      rw [update_of_ne]
      rw [h.prev_mid]
      exact fun e => hx (e ▸ List.mem_append_left _ (getLast?_getD_mem hne))
  · split
    · rfl
    · rename_i hn
      have hne : r ≠ [] := fun e => hn (h.next_mid_eq_nil.mpr e)
      rw [update_of_ne]
      rw [h.next_mid]
      exact fun e => hx (e ▸ List.mem_append_right _ (head?_getD_mem hne))

end Middle

section Push

variable (h : Holds nil d xs) (ha : a ∉ xs) (hn : a ≠ nil)

include h ha hn

/-- Adding a new element at the tail. -/
theorem Holds.pushBack : Holds nil (d.pushBack nil a) (xs ++ [a]) where
  head := by
    simp only [Links.pushBack]
    split
    · rename_i ht
      simp [h.tail_eq_nil.mp ht]
    · rename_i ht
      have hne : xs ≠ [] := fun e => ht (h.tail_eq_nil.mpr e)
      rw [h.head, List.head?_append_of_ne_nil _ hne]
  tail := by simp [Links.pushBack]
  nodup := by
    rw [List.nodup_append]
    exact ⟨h.nodup, by simp, fun x hx y hy e => ha (by rw [← List.mem_singleton.mp hy, ← e]; exact hx)⟩
  nil_notMem := by
    intro hm
    rcases List.mem_append.mp hm with hm | hm
    · exact h.nil_notMem hm
    · exact hn (List.mem_singleton.mp hm).symm
  next l' x r' e := by
    rcases append_eq_cases e with ⟨c, hl, rfl⟩ | ⟨c, rfl, hr⟩
    · have hx : x ∈ xs := by simp [hl]
      have hxa : x ≠ a := fun e => ha (e ▸ hx)
      have ht : d.tail ≠ nil := fun e => by simp [h.tail_eq_nil.mp e] at hx
      simp only [Links.pushBack, if_neg ht]
      cases c with
      | nil =>
        have : d.tail = x := by rw [h.tail, hl]; simp
        rw [this, update_self]
        rfl
      | cons y c =>
        have hxt : x ≠ d.tail := by
          rw [h.tail, hl]
          intro hx
          have hd := h.nodup
          rw [hl] at hd
          have hm : x ∈ y :: c := hx ▸ last_cons_mem l' x y c
          exact (List.nodup_cons.mp (List.nodup_append.mp hd).2.1).1 hm
        rw [update_of_ne hxt, update_of_ne hxa, h.next l' x (y :: c) hl]
        rfl
    · obtain ⟨rfl, rfl, rfl⟩ : c = [] ∧ a = x ∧ r' = [] := by
        cases c with
        | nil => simpa using hr
        | cons y c => simp at hr
      simp only [Links.pushBack]
      split
      · simp
      · rename_i ht
        have hne : xs ≠ [] := fun e => ht (h.tail_eq_nil.mpr e)
        have hat : a ≠ d.tail := by
          rw [h.tail]
          exact fun e => ha (e ▸ getLast?_getD_mem hne)
        rw [update_of_ne hat, update_self]
        rfl
  prev l' x r' e := by
    rcases append_eq_cases e with ⟨c, hl, rfl⟩ | ⟨c, rfl, hr⟩
    · have hx : x ∈ xs := by simp [hl]
      have hxa : x ≠ a := fun e => ha (e ▸ hx)
      simp only [Links.pushBack]
      rw [update_of_ne hxa, h.prev l' x c hl]
    · obtain ⟨rfl, rfl, rfl⟩ : c = [] ∧ a = x ∧ r' = [] := by
        cases c with
        | nil => simpa using hr
        | cons y c => simp at hr
      simp only [Links.pushBack]
      rw [update_self, h.tail, List.append_nil]

omit ha hn in
/-- Adding an element touches its own links and those of the list's elements only. -/
theorem Holds.pushBack_frame (hx : x ∉ xs) (hxa : x ≠ a) :
    (d.pushBack nil a).next x = d.next x ∧ (d.pushBack nil a).prev x = d.prev x := by
  simp only [Links.pushBack]
  constructor
  · split
    · rw [update_of_ne hxa]
    · rename_i ht
      have hne : xs ≠ [] := fun e => ht (h.tail_eq_nil.mpr e)
      rw [update_of_ne, update_of_ne hxa]
      rw [h.tail]
      exact fun e => hx (e ▸ getLast?_getD_mem hne)
  · rw [update_of_ne hxa]

end Push

/-- Moving an element that is not the last to the tail is taking it out and adding it again. -/
theorem Holds.moveToTail_eq (h : Holds nil d (l ++ a :: r)) (hr : r ≠ []) :
    d.moveToTail nil a = (d.remove nil a).pushBack nil a := by
  have hne : d.next a ≠ nil := fun e => hr (h.next_mid_eq_nil.mp e)
  have htail : d.tail = r.getLast?.getD nil := by
    obtain ⟨y, r, rfl⟩ := List.exists_cons_of_ne_nil hr
    rw [h.tail, List.getLast?_append_of_ne_nil l (by simp), List.getLast?_cons_cons]
  have htr : d.tail ∈ r := htail ▸ getLast?_getD_mem hr
  have hta : d.tail ≠ a := (h.right_notMem htr).1
  have htn : d.tail ≠ nil := h.ne_nil (by simp [htr])
  have hcomm : ∀ f : Nat → Nat, update (update f d.tail a) a nil = update (update f a nil) d.tail a := fun f =>
    (update_comm hta a nil f)
  simp only [Links.moveToTail, Links.remove, Links.pushBack, if_neg hta, if_neg hne, if_neg htn, hcomm]

/-- Moving an element to the tail. -/
theorem Holds.moveToTail (h : Holds nil d (l ++ a :: r)) : Holds nil (d.moveToTail nil a) (l ++ r ++ [a]) := by
  by_cases hr : r = []
  · subst hr
    have ht : d.tail = a := by rw [h.tail]; simp
    simpa [Links.moveToTail, ht] using h
  · rw [h.moveToTail_eq hr]
    refine h.remove.pushBack ?_ (h.ne_nil (by simp))
    intro hm
    rcases List.mem_append.mp hm with hm | hm
    · exact (h.left_notMem hm).1 rfl
    · exact (h.right_notMem hm).1 rfl

/-- Moving an element touches the links of the list's elements only. -/
theorem Holds.moveToTail_frame (h : Holds nil d (l ++ a :: r)) (hx : x ∉ l ++ a :: r) :
    (d.moveToTail nil a).next x = d.next x ∧ (d.moveToTail nil a).prev x = d.prev x := by
  have hxo : x ∉ l ++ r := fun hm => hx (by
    rcases List.mem_append.mp hm with hm | hm
    · exact List.mem_append_left _ hm
    · exact List.mem_append_right _ (List.mem_cons_of_mem _ hm))
  have hxa : x ≠ a := fun e => hx (by simp [e])
  by_cases hr : r = []
  · subst hr
    have ht : d.tail = a := by rw [h.tail]; simp
    simp [Links.moveToTail, ht]
  · rw [h.moveToTail_eq hr]
    have h1 := h.remove.pushBack_frame (a := a) hxo hxa
    have h2 := h.remove_frame hxo
    exact ⟨h1.1.trans h2.1, h1.2.trans h2.2⟩

/-! ## Following the links -/

/-- From `current` on, reached from `previous`, the links lead through the elements of a list, each linked back to the one before it,
and then to `nil`. -/
def Spells (nil : Nat) (next prev : Nat → Nat) : Nat → Nat → List Nat → Prop
  | _, current, [] => current = nil
  | previous, current, a :: r => current = a ∧ a ≠ nil ∧ prev a = previous ∧ Spells nil next prev a (next a) r

section Spells

variable {next prev : Nat → Nat} {previous current : Nat}

/-- A spelling starts at the head. -/
theorem Spells.head (h : Spells nil next prev previous current xs) : current = xs.head?.getD nil := by
  cases xs with
  | nil => exact h
  | cons a r => exact h.1

/-- No element of it is nil. -/
theorem Spells.nil_notMem (h : Spells nil next prev previous current xs) : nil ∉ xs := by
  induction xs generalizing previous current with
  | nil => exact List.not_mem_nil
  | cons a r ih =>
    obtain ⟨-, hne, -, hr⟩ := h
    rw [List.mem_cons]
    rintro (he | hm)
    · exact hne he.symm
    · exact ih hr hm

/-- Each element is linked to the one after it and to the one before it. -/
theorem Spells.links (h : Spells nil next prev previous current xs) {l r : List Nat} {a : Nat} (hx : xs = l ++ a :: r) :
    next a = r.head?.getD nil ∧ prev a = l.getLast?.getD previous := by
  induction xs generalizing previous current l with
  | nil => simp at hx
  | cons x xs ih =>
    obtain ⟨-, -, hp, hr⟩ := h
    cases l with
    | nil =>
      obtain ⟨rfl, rfl⟩ := List.cons_eq_cons.mp hx
      exact ⟨hr.head, hp⟩
    | cons y l =>
      obtain ⟨rfl, rfl⟩ := List.cons_eq_cons.mp hx
      obtain ⟨h1, h2⟩ := ih hr rfl
      exact ⟨h1, by rw [h2, List.getLast?_cons, Option.getD_some]⟩

/-- Links that lead from the head through distinct elements, the last of them the tail, spell their list. -/
theorem Spells.holds (h : Spells nil d.next d.prev nil d.head xs) (hd : xs.Nodup) (ht : d.tail = xs.getLast?.getD nil) :
    Holds nil d xs :=
  ⟨h.head, ht, hd, h.nil_notMem, fun _ _ _ e => (h.links e).1, fun _ _ _ e => (h.links e).2⟩

/-- Links that spell a list lead from the head through its elements. -/
theorem Holds.spells (h : Holds nil d xs) : Spells nil d.next d.prev nil d.head xs := by
  have key : ∀ r l, xs = l ++ r → Spells nil d.next d.prev (l.getLast?.getD nil) (r.head?.getD nil) r := by
    intro r
    induction r with
    | nil =>
      intro l _
      exact rfl
    | cons a r ih =>
      intro l hx
      refine ⟨rfl, h.ne_nil (by simp [hx]), h.prev l a r hx, ?_⟩
      have := ih (l ++ [a]) (by simp [hx])
      rwa [List.getLast?_concat, Option.getD_some, ← h.next l a r hx] at this
  rw [h.head]
  exact key xs [] rfl

end Spells

/-! ## Found in any order -/

/-- The links from the other end. -/
def flip (d : Links) : Links := ⟨d.prev, d.next, d.tail, d.head⟩

theorem Holds.flip (h : Holds nil d xs) : Holds nil d.flip xs.reverse where
  head := by rw [List.head?_reverse]; exact h.tail
  tail := by rw [List.getLast?_reverse]; exact h.head
  nodup := (List.reverse_perm xs).nodup_iff.mpr h.nodup
  nil_notMem hm := h.nil_notMem (List.mem_reverse.mp hm)
  next l a r e := by
    have hx : xs = r.reverse ++ a :: l.reverse := by rw [← List.reverse_reverse xs, e]; simp
    rw [← List.getLast?_reverse]
    exact h.prev _ a _ hx
  prev l a r e := by
    have hx : xs = r.reverse ++ a :: l.reverse := by rw [← List.reverse_reverse xs, e]; simp
    rw [← List.head?_reverse]
    exact h.next _ a _ hx

/-- One end of a list as a scan of its elements in any order finds it: the one whose link is `nil`, or `nil` if there is none yet. -/
def End (nil : Nat) (link : Nat → Nat) (xs : List Nat) (v : Nat) : Prop :=
  (v = nil ∧ ∀ x ∈ xs, link x ≠ nil) ∨ (v ∈ xs ∧ ∀ x ∈ xs, link x = nil ↔ x = v)

section End

variable {link link' : Nat → Nat} {v : Nat} {ys : List Nat}

/-- The end is in the links of the elements. -/
theorem End.congr (h : End nil link xs v) (hl : ∀ x ∈ xs, link' x = link x) : End nil link' xs v := by
  refine h.imp (fun h => ⟨h.1, fun x hx => ?_⟩) fun h => ⟨h.1, fun x hx => ?_⟩
  · rw [hl x hx]
    exact h.2 x hx
  · rw [hl x hx]
    exact h.2 x hx

/-- The scan goes on. -/
theorem End.snoc (h : End nil link xs v) (ha : a ∉ xs) (hnil : nil ∉ xs) (hfree : link a = nil → v = nil) :
    End nil link (xs ++ [a]) (if link a = nil then a else v) := by
  have hmem : ∀ x ∈ xs ++ [a], x ∈ xs ∨ x = a := fun x hx => by simpa using hx
  by_cases hl : link a = nil
  · rw [if_pos hl]
    rcases h with ⟨-, hall⟩ | ⟨hv, -⟩
    · refine .inr ⟨by simp, fun x hx => ?_⟩
      rcases hmem x hx with hx | rfl
      · exact iff_of_false (hall x hx) fun he => ha (he ▸ hx)
      · exact iff_of_true hl rfl
    · exact absurd (hfree hl ▸ hv) hnil
  · rw [if_neg hl]
    rcases h with ⟨rfl, hall⟩ | ⟨hv, hall⟩
    · refine .inl ⟨rfl, fun x hx => ?_⟩
      rcases hmem x hx with hx | rfl
      · exact hall x hx
      · exact hl
    · refine .inr ⟨List.mem_append_left _ hv, fun x hx => ?_⟩
      rcases hmem x hx with hx | rfl
      · exact hall x hx
      · exact iff_of_false hl fun he => ha (he ▸ hv)

end End

end Links

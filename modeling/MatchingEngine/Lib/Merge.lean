import Mathlib.Data.List.Basic
import Mathlib.Data.List.Perm.Basic
import Mathlib.Order.Lattice

/-!
# Merges of lists

What a merge of several lists is for: `Merges` takes, one after the other, an element with the least key among the heads. The lists are
given in any order. Where elements of different lists have different keys, the merge is determined by the lists.
-/

variable {α κ : Type} {key : α → κ}

/-- Elements of different lists have different keys. -/
def KeysApart (key : α → κ) (lanes : List (List α)) : Prop := lanes.Pairwise fun l m => ∀ a ∈ l, ∀ b ∈ m, key a ≠ key b

namespace KeysApart

variable {lanes lanes' : List (List α)} {l : List α} {a : α}

theorem perm (h : KeysApart key lanes) (hp : lanes.Perm lanes') : KeysApart key lanes' :=
  (hp.pairwise_iff fun hlm a ha b hb he => hlm b hb a ha he.symm).mp h

/-- A list with its first element taken away. -/
theorem tail (h : KeysApart key ((a :: l) :: lanes)) : KeysApart key (l :: lanes) := by
  obtain ⟨hfirst, hrest⟩ := List.pairwise_cons.mp h
  exact List.pairwise_cons.mpr ⟨fun m hm b hb => hfirst m hm b (List.mem_cons_of_mem _ hb), hrest⟩

/-- The elements of a list have no keys of the others. -/
theorem key_ne (h : KeysApart key (l :: lanes)) {b : α} (ha : a ∈ l) (hb : b ∈ lanes.flatten) : key a ≠ key b := by
  obtain ⟨m, hm, hbm⟩ := List.mem_flatten.mp hb
  exact (List.pairwise_cons.mp h).1 m hm a ha b hbm

end KeysApart

variable [LinearOrder κ]

/-- What a merge takes from the lists, until they are empty. -/
inductive Merges (key : α → κ) : List (List α) → List α → Prop where
  | nil {lanes : List (List α)} (empty : ∀ lane ∈ lanes, lane = []) : Merges key lanes []
  | cons {lanes others : List (List α)} {a : α} {rest out : List α} (split : lanes.Perm ((a :: rest) :: others))
      (least : ∀ b lane, b :: lane ∈ lanes → key a ≤ key b) (next : Merges key (rest :: others) out) : Merges key lanes (a :: out)

namespace Merges

variable {lanes lanes' : List (List α)} {out out' : List α}

theorem congr (h : Merges key lanes out) (hp : lanes.Perm lanes') : Merges key lanes' out := by
  cases h with
  | nil empty => exact .nil fun lane hlane => empty lane (hp.mem_iff.mpr hlane)
  | cons split least next => exact .cons (hp.symm.trans split) (fun b lane hb => least b lane (hp.mem_iff.mpr hb)) next

/-- A merge takes every element once. -/
theorem perm (h : Merges key lanes out) : out.Perm lanes.flatten := by
  induction h with
  | nil empty => rw [List.flatten_eq_nil_iff.mpr empty]
  | cons split least next ih => exact (ih.cons _).trans split.flatten.symm

/-- A merge of sorted lists is sorted: what is taken later was behind the element in its list, or behind the head of another one. -/
theorem sorted (h : Merges key lanes out) (hsorted : ∀ lane ∈ lanes, lane.Pairwise fun a b => key a ≤ key b) :
    out.Pairwise fun a b => key a ≤ key b := by
  induction h with
  | nil empty => exact .nil
  | @cons lanes others a rest out split least next ih =>
    have hfirst := List.pairwise_cons.mp (hsorted (a :: rest) (split.mem_iff.mpr List.mem_cons_self))
    have hothers (lane : List α) (hlane : lane ∈ others) : lane ∈ lanes := split.mem_iff.mpr (List.mem_cons_of_mem _ hlane)
    refine List.pairwise_cons.mpr ⟨fun b hb => ?_, ih fun lane hlane => ?_⟩
    · obtain ⟨lane, hlane, hblane⟩ := List.mem_flatten.mp (next.perm.mem_iff.mp hb)
      rcases List.mem_cons.mp hlane with rfl | hlane
      · exact hfirst.1 b hblane
      · cases lane with
        | nil => exact absurd hblane List.not_mem_nil
        | cons c lane =>
          have hac := least c lane (hothers _ hlane)
          rcases List.mem_cons.mp hblane with rfl | hblane
          · exact hac
          · exact le_trans hac ((List.pairwise_cons.mp (hsorted _ (hothers _ hlane))).1 b hblane)
    · rcases List.mem_cons.mp hlane with rfl | hlane
      · exact hfirst.2
      · exact hsorted lane (hothers lane hlane)

/-- A merge keeps the order of each list: what it takes from a list is the list. -/
theorem filter_mem [DecidableEq α] (h : Merges key lanes out) (hkeys : KeysApart key lanes) {lane : List α} (hlane : lane ∈ lanes) :
    out.filter (· ∈ lane) = lane := by
  induction h generalizing lane with
  | nil empty =>
    rw [empty lane hlane]
    rfl
  | @cons lanes others a rest out split least next ih =>
    have hkeys' := hkeys.perm split
    rcases List.mem_cons.mp (split.mem_iff.mp hlane) with rfl | hother
    · have hsame : out.filter (· ∈ a :: rest) = out.filter (· ∈ rest) := by
        refine List.filter_congr fun b hb => decide_eq_decide.mpr ?_
        rw [List.mem_cons, or_iff_right_of_imp]
        rintro rfl
        have hflatten := next.perm.mem_iff.mp hb
        rw [List.flatten_cons, List.mem_append] at hflatten
        exact hflatten.resolve_right fun hmem => hkeys'.key_ne List.mem_cons_self hmem rfl
      rw [List.filter_cons, if_pos (decide_eq_true List.mem_cons_self), hsame, ih hkeys'.tail List.mem_cons_self]
    · have hnot : a ∉ lane := fun hmem => hkeys'.key_ne List.mem_cons_self (List.mem_flatten.mpr ⟨lane, hother, hmem⟩) rfl
      rw [List.filter_cons, if_neg (by rw [decide_eq_true_eq]; exact hnot), ih hkeys'.tail (List.mem_cons_of_mem _ hother)]

/-- The lists determine the merge. The heads of two merges have one key, so they are the head of one list. -/
theorem unique (h : Merges key lanes out) (h' : Merges key lanes out') (hkeys : KeysApart key lanes) : out = out' := by
  induction h generalizing out' with
  | nil empty =>
    cases h' with
    | nil => rfl
    | cons split => exact absurd (empty _ (split.mem_iff.mpr List.mem_cons_self)) (List.cons_ne_nil _ _)
  | @cons lanes others a rest out split least next ih =>
    cases h' with
    | nil empty => exact absurd (empty _ (split.mem_iff.mpr List.mem_cons_self)) (List.cons_ne_nil _ _)
    | @cons _ others' a' rest' out' split' least' next' =>
      have hkey : key a = key a' :=
        le_antisymm (least a' rest' (split'.mem_iff.mpr List.mem_cons_self)) (least' a rest (split.mem_iff.mpr List.mem_cons_self))
      have hkeys' := hkeys.perm split
      have hlane : a' :: rest' = a :: rest := by
        rcases List.mem_cons.mp (split.mem_iff.mp (split'.mem_iff.mpr List.mem_cons_self)) with hsame | hother
        · exact hsame
        · exact absurd hkey (hkeys'.key_ne List.mem_cons_self (List.mem_flatten.mpr ⟨_, hother, List.mem_cons_self⟩))
      obtain ⟨rfl, rfl⟩ := List.cons.inj hlane
      have hothers : others'.Perm others := (List.perm_cons _).mp (split'.symm.trans split)
      rw [ih (next'.congr (hothers.cons _)) hkeys'.tail]

end Merges

import Mathlib.Data.List.Pairwise
import Mathlib.Data.List.Sort

/-!
# Sorting with a comparison function

A comparison function returns a negative number, zero or a positive number.  A sorting function
has to put a list into order only if the comparison is consistent on its elements.

* `Comparator.Consistent` : the comparison is a total preorder on the elements of a list.
* `Comparator.Sorts` : what is required of a sorting function.
* `Comparator.sort` : a function that meets it; `Comparator.sortOr` : one that behaves arbitrarily
  where nothing is required.
-/

namespace OperatingSystems

namespace Comparator

variable {α : Type*}

/-- The comparison is a total preorder on the elements of `l`. -/
structure Consistent (cmp : α → α → ℤ) (l : List α) : Prop where
  swap : ∀ a ∈ l, ∀ b ∈ l, 0 < cmp a b ↔ cmp b a < 0
  trans : ∀ a ∈ l, ∀ b ∈ l, ∀ c ∈ l, cmp a b ≤ 0 → cmp b c ≤ 0 → cmp a c ≤ 0

/-- The function returns a permutation that is ordered by the comparison, whenever this is consistent. -/
def Sorts (sort : (α → α → ℤ) → List α → List α) : Prop :=
  ∀ cmp l, Consistent cmp l → (sort cmp l).Perm l ∧ (sort cmp l).Pairwise fun a b => cmp a b ≤ 0

/-- Merge sort. -/
def sort (cmp : α → α → ℤ) (l : List α) : List α := l.mergeSort fun a b => cmp a b ≤ 0

/-- Of two elements of an ordered list one is before the other. -/
theorem rel_or_rel {R : α → α → Prop} {l : List α} (h : l.Pairwise R) {a b : α} (ha : a ∈ l)
    (hb : b ∈ l) (hne : a ≠ b) : R a b ∨ R b a := by
  have : Std.Symm fun x y => R x y ∨ R y x := ⟨fun _ _ => Or.symm⟩
  have hsymm : l.Pairwise fun x y => R x y ∨ R y x := h.imp Or.inl
  exact hsymm.forall ha hb hne

theorem sorts_sort : Sorts (sort (α := α)) := by
  intro cmp l h
  refine ⟨List.mergeSort_perm l _, ?_⟩
  -- the comparison is a total preorder on the type of the elements
  have hmap : (l.attach.mergeSort fun a b => decide (cmp a b ≤ 0)).map Subtype.val = sort cmp l := by
    have hmap := List.map_mergeSort (f := (Subtype.val : {x // x ∈ l} → α)) (l := l.attach)
      (r := fun a b : {x // x ∈ l} => decide (cmp a b ≤ 0)) (s := fun a b => decide (cmp a b ≤ 0))
      (fun _ _ _ _ => rfl)
    rwa [List.attach_map_subtype_val] at hmap
  rw [← hmap, List.pairwise_map]
  refine (List.pairwise_mergeSort (fun a b c hab hbc => ?_) (fun a b => ?_) l.attach).imp
    fun hab => of_decide_eq_true hab
  · exact decide_eq_true (h.trans a a.2 b b.2 c c.2 (of_decide_eq_true hab) (of_decide_eq_true hbc))
  · have hswap := h.swap a a.2 b b.2
    rw [Bool.or_eq_true, decide_eq_true_eq, decide_eq_true_eq]
    omega

open Classical in
/-- A sorting function that does with an inconsistent comparison what `f` does. -/
noncomputable def sortOr (f : List α → List α) (cmp : α → α → ℤ) (l : List α) : List α :=
  if Consistent cmp l then sort cmp l else f l

theorem sorts_sortOr (f : List α → List α) : Sorts (sortOr f) := by
  intro cmp l h
  rw [sortOr, if_pos h]
  exact sorts_sort cmp l h

end Comparator

end OperatingSystems

import Mathlib.Algebra.BigOperators.Group.Finset.Piecewise
import Mathlib.Algebra.BigOperators.Group.Finset.Basic
import Mathlib.Algebra.Group.Pi.Basic
import Mathlib.Tactic.Ring

/-!
# Reference counting

Finitely many places `ι` point to objects `α`, each of which counts its references in `ref`.  While
an operation runs, the running code itself owes or is owed references: `held a` of them to the
object `a`.  The books are balanced if every count is the number of places that point to the object,
plus what is held.

* `Refs.holders` : the places that point to an object.
* `Refs.Balanced` : the counts are right.  The rules `take`, `drop`, `store` and `clear` say what
  each elementary step does to `held`; an operation keeps the books if it ends with `held = 0`.
* `Refs.Lives` : every object has been opened as often as closed, and once more while it is
  referenced.
-/

namespace OperatingSystems

namespace Refs

variable {ι α : Type*} [Fintype ι] [DecidableEq ι] [DecidableEq α]

/-- The places that point to `a`. -/
def holders (g : ι → Option α) (a : α) : Finset ι := Finset.univ.filter fun i => g i = some a

omit [DecidableEq ι] in
@[simp] theorem mem_holders {g : ι → Option α} {a : α} {i : ι} : i ∈ holders g a ↔ g i = some a := by
  simp [holders]

omit [DecidableEq ι] in
theorem holders_eq_empty {g : ι → Option α} {a : α} : holders g a = ∅ ↔ ∀ i, g i ≠ some a := by
  simp [holders, Finset.filter_eq_empty_iff]

/-- **The number of references after one place has changed.** -/
theorem card_holders_update (g : ι → Option α) (i : ι) (v : Option α) (a : α) :
    (holders (Function.update g i v) a).card + (if g i = some a then 1 else 0) =
      (holders g a).card + if v = some a then 1 else 0 := by
  have hrest : ∀ h : ι → Option α, (holders h a).card =
      (if h i = some a then 1 else 0) + ∑ j ∈ Finset.univ.erase i, if h j = some a then 1 else 0 :=
    fun h => by
      rw [holders, Finset.card_filter]
      exact (Finset.add_sum_erase _ (fun j => if h j = some a then 1 else 0)
        (Finset.mem_univ i)).symm
  have hsame : ∑ j ∈ Finset.univ.erase i, (if Function.update g i v j = some a then 1 else 0) =
      ∑ j ∈ Finset.univ.erase i, if g j = some a then 1 else 0 :=
    Finset.sum_congr rfl fun j hj => by rw [Function.update_of_ne (Finset.ne_of_mem_erase hj)]
  rw [hrest, hrest g, hsame, Function.update_self]
  omega

/-- Every count is the number of references from places and of those that are held. -/
def Balanced (g : ι → Option α) (ref held : α → ℤ) : Prop :=
  ∀ a, ref a = (holders g a).card + held a

namespace Balanced

variable {g : ι → Option α} {ref held : α → ℤ} {a : α} {i : ι}

omit [DecidableEq ι] in
/-- One more reference is held. -/
theorem take (h : Balanced g ref held) (a : α) :
    Balanced g (Function.update ref a (ref a + 1)) (held + Pi.single a 1) := by
  intro b
  obtain rfl | hba := eq_or_ne b a
  · rw [Function.update_self, Pi.add_apply, Pi.single_eq_same, h b]
    ring
  · rw [Function.update_of_ne hba, Pi.add_apply, Pi.single_eq_of_ne hba, add_zero, h b]

omit [DecidableEq ι] in
/-- A held reference is given up. -/
theorem drop (h : Balanced g ref held) (a : α) :
    Balanced g (Function.update ref a (ref a - 1)) (held - Pi.single a 1) := by
  intro b
  obtain rfl | hba := eq_or_ne b a
  · rw [Function.update_self, Pi.sub_apply, Pi.single_eq_same, h b]
    ring
  · rw [Function.update_of_ne hba, Pi.sub_apply, Pi.single_eq_of_ne hba, sub_zero, h b]

/-- A held reference goes to a place. -/
theorem store (h : Balanced g ref held) (hi : g i = none) (a : α) :
    Balanced (Function.update g i (some a)) ref (held - Pi.single a 1) := by
  intro b
  have hcard := card_holders_update g i (some a) b
  rw [hi, if_neg (by simp)] at hcard
  obtain rfl | hba := eq_or_ne b a
  · rw [if_pos rfl] at hcard
    rw [Pi.sub_apply, Pi.single_eq_same, h b]
    omega
  · rw [if_neg (by simpa using hba.symm)] at hcard
    rw [Pi.sub_apply, Pi.single_eq_of_ne hba, h b]
    omega

/-- The reference of a place is held instead. -/
theorem clear (h : Balanced g ref held) (hi : g i = some a) :
    Balanced (Function.update g i none) ref (held + Pi.single a 1) := by
  intro b
  have hcard := card_holders_update g i none b
  rw [hi, if_neg (by simp : none ≠ some b)] at hcard
  obtain rfl | hba := eq_or_ne b a
  · rw [if_pos rfl] at hcard
    rw [Pi.add_apply, Pi.single_eq_same, h b]
    omega
  · rw [if_neg (by simpa using hba.symm)] at hcard
    rw [Pi.add_apply, Pi.single_eq_of_ne hba, h b]
    omega

omit [DecidableEq ι] in
/-- What a place points to has a reference. -/
theorem ref_pos (h : Balanced g ref held) (hi : g i = some a) (ha : 0 ≤ held a) : 1 ≤ ref a := by
  have hpos : 0 < (holders g a).card := Finset.card_pos.2 ⟨i, mem_holders.2 hi⟩
  rw [h a]
  omega

omit [DecidableEq ι] in
/-- What is held has a reference. -/
theorem ref_pos_of_held (h : Balanced g ref held) (ha : 1 ≤ held a) : 1 ≤ ref a := by
  rw [h a]
  omega

omit [DecidableEq ι] in
/-- With nothing held, an object has no references if and only if no place points to it. -/
theorem ref_eq_zero (h : Balanced g ref 0) : ref a = 0 ↔ holders g a = ∅ := by
  rw [h a, Pi.zero_apply, add_zero, Nat.cast_eq_zero, Finset.card_eq_zero]

end Balanced

/-- Every object is opened before it is closed and closed before it is opened again, and it is open
as long as it has references. -/
def Lives (ref : α → ℤ) (opened closed : α → ℕ) : Prop :=
  ∀ a, opened a = closed a + if ref a = 0 then 0 else 1

namespace Lives

variable {ref : α → ℤ} {opened closed : α → ℕ} {a : α}

/-- An object is opened. -/
theorem opens (h : Lives ref opened closed) (ha : ref a = 0) :
    Lives (Function.update ref a 1) (Function.update opened a (opened a + 1)) closed := by
  intro b
  obtain rfl | hba := eq_or_ne b a
  · have hb := h b
    rw [if_pos ha] at hb
    simp [hb]
  · rw [Function.update_of_ne hba, Function.update_of_ne hba, h b]

/-- The count of an open object changes. -/
theorem counts (h : Lives ref opened closed) (ha : ref a ≠ 0) {n : ℤ} (hn : n ≠ 0) :
    Lives (Function.update ref a n) opened closed := by
  intro b
  obtain rfl | hba := eq_or_ne b a
  · rw [Function.update_self, if_neg hn, h b, if_neg ha]
  · rw [Function.update_of_ne hba, h b]

/-- The last reference goes, and the object is closed. -/
theorem closes (h : Lives ref opened closed) (ha : ref a ≠ 0) :
    Lives (Function.update ref a 0) opened (Function.update closed a (closed a + 1)) := by
  intro b
  obtain rfl | hba := eq_or_ne b a
  · rw [Function.update_self, Function.update_self, if_pos rfl, h b, if_neg ha]
  · rw [Function.update_of_ne hba, Function.update_of_ne hba, h b]

end Lives

end Refs

end OperatingSystems

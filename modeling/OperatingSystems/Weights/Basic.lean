import Mathlib.Algebra.Order.Ring.Nat
import Mathlib.Order.Interval.Finset.Nat
import Mathlib.Data.List.Nodup

/-!
# Drawing from a list with weights

The members of a list share the numbers below the sum of their weights: each of them has as many
consecutive ones as it weighs, in the order of the list.

* `before w l x` : the first number of `x`, the sum of the weights before it.
* `draw w n l` : the member that has the number `n`.
* `draw_eq_some_iff` : **it is the one whose interval contains `n`**.
* `draw_isSome_iff` : there is one for all numbers below the sum, and for no others.
* `card_draw` : **each member is drawn by as many numbers as it weighs**.
-/

namespace OperatingSystems

namespace Weights

variable {α : Type*} [DecidableEq α] {w : α → ℕ} {l : List α} {x : α} {n : ℕ}

/-- The sum of the weights before the first `x`. -/
def before (w : α → ℕ) : List α → α → ℕ
  | [], _ => 0
  | y :: l, x => if y = x then 0 else w y + before w l x

/-- The member with the number `n`. -/
def draw (w : α → ℕ) : ℕ → List α → Option α
  | _, [] => none
  | n, y :: l => if n < w y then some y else draw w (n - w y) l

theorem before_self (w : α → ℕ) (l : List α) (x : α) : before w (x :: l) x = 0 := if_pos rfl

theorem before_of_ne {y : α} (h : y ≠ x) : before w (y :: l) x = w y + before w l x := if_neg h

/-- The interval of a member ends below the sum. -/
theorem before_add_le (hx : x ∈ l) : before w l x + w x ≤ (l.map w).sum := by
  induction l with
  | nil => cases hx
  | cons y l ih =>
    rw [List.map_cons, List.sum_cons]
    rcases eq_or_ne y x with rfl | hne
    · rw [before_self]; omega
    · have := ih ((List.mem_cons.1 hx).resolve_left (Ne.symm hne))
      rw [before_of_ne hne]; omega

omit [DecidableEq α] in
theorem mem_of_draw (h : draw w n l = some x) : x ∈ l := by
  fun_induction draw w n l with
  | case1 => cases h
  | case2 => cases h; exact List.mem_cons_self
  | case3 n y l hn ih => exact List.mem_cons_of_mem y (ih h)

/-- **The member that is drawn** is the one whose interval contains the number. -/
theorem draw_eq_some_iff (hl : l.Nodup) :
    draw w n l = some x ↔ x ∈ l ∧ before w l x ≤ n ∧ n < before w l x + w x := by
  induction l generalizing n with
  | nil => simp [draw]
  | cons y l ih =>
    obtain ⟨hy, hl⟩ := List.nodup_cons.1 hl
    rw [draw]
    rcases eq_or_ne y x with rfl | hne
    · rw [before_self]
      split_ifs with hlt
      · simpa using hlt
      · refine iff_of_false (fun h => hy (mem_of_draw h)) (by omega)
    · rw [before_of_ne hne, List.mem_cons, or_iff_right (Ne.symm hne)]
      split_ifs with hlt
      · exact iff_of_false (fun h => hne (Option.some.inj h)) (by omega)
      · rw [ih hl]
        refine and_congr_right fun _ => ?_
        omega

omit [DecidableEq α] in
theorem draw_isSome_iff : (draw w n l).isSome ↔ n < (l.map w).sum := by
  induction l generalizing n with
  | nil => simp [draw]
  | cons y l ih =>
    rw [draw, List.map_cons, List.sum_cons]
    split_ifs with hlt
    · simp only [Option.isSome_some, true_iff]; omega
    · rw [ih]; omega

/-- **Each member is drawn by as many numbers as it weighs.** -/
theorem card_draw (hl : l.Nodup) (hx : x ∈ l) :
    ((Finset.range (l.map w).sum).filter fun n => draw w n l = some x).card = w x := by
  have hle := before_add_le (w := w) hx
  have : (Finset.range (l.map w).sum).filter (fun n => draw w n l = some x) =
      Finset.Ico (before w l x) (before w l x + w x) := by
    ext n
    rw [Finset.mem_filter, Finset.mem_range, draw_eq_some_iff hl, Finset.mem_Ico]
    exact ⟨fun h => h.2.2, fun h => ⟨by omega, hx, h⟩⟩
  rw [this, Nat.card_Ico]
  omega

end Weights

end OperatingSystems

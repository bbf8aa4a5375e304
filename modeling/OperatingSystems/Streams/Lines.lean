import Mathlib.Data.List.TakeWhile

/-!
# Lines

A sequence is cut into lines: each ends with an element at which a line stops, or when it is as long as a
line may be, or at the end of the sequence.

* `nextLine stop n bs` : the first line, of at most `n` elements, and the rest.
* `lines stop n bs` : all lines, of at most `n + 1` elements.
* `eq_nil_of_nextLine` : nothing follows on an element at which the line stops.
* `lines_of_ne_nil` : the lines are the first one and those of the rest.
-/

namespace OperatingSystems

namespace Streams

variable {α : Type*}

/-- The first line, of at most `n` elements, and the rest. -/
def nextLine (stop : α → Bool) : ℕ → List α → List α × List α
  | 0, bs => ([], bs)
  | _, [] => ([], [])
  | n + 1, c :: cs =>
    if stop c then ([c], cs) else (c :: (nextLine stop n cs).1, (nextLine stop n cs).2)

variable {stop : α → Bool} {n : ℕ} {bs : List α}

@[simp] theorem nextLine_nil (stop : α → Bool) (n : ℕ) : nextLine stop n [] = ([], []) := by
  cases n <;> rfl

theorem nextLine_append (stop : α → Bool) (n : ℕ) (bs : List α) :
    (nextLine stop n bs).1 ++ (nextLine stop n bs).2 = bs := by
  induction n generalizing bs with
  | zero => rfl
  | succ n ih =>
    cases bs with
    | nil => rfl
    | cons c cs =>
      rw [nextLine]
      split_ifs
      · rfl
      · exact congrArg (c :: ·) (ih cs)

theorem nextLine_ne_nil (hbs : bs ≠ []) : (nextLine stop (n + 1) bs).1 ≠ [] := by
  cases bs with
  | nil => exact absurd rfl hbs
  | cons c cs =>
    rw [nextLine]
    split_ifs <;> exact List.cons_ne_nil _ _

/-- The rest is shorter. -/
theorem length_nextLine_lt (hbs : bs ≠ []) : (nextLine stop (n + 1) bs).2.length < bs.length := by
  have happend := congrArg List.length (nextLine_append stop (n + 1) bs)
  have hne : (nextLine stop (n + 1) bs).1 ≠ [] := nextLine_ne_nil hbs
  have hpos := List.length_pos_iff.2 hne
  rw [List.length_append] at happend
  omega

/-- A line stops at the first element at which it may. -/
theorem eq_nil_of_nextLine {l₁ l₂ : List α} {x : α} (h : (nextLine stop n bs).1 = l₁ ++ x :: l₂)
    (hx : stop x) : l₂ = [] := by
  induction n generalizing bs l₁ with
  | zero => simp [nextLine] at h
  | succ n ih =>
    cases bs with
    | nil => simp at h
    | cons c cs =>
      rw [nextLine] at h
      split_ifs at h with hc
      · cases l₁ with
        | nil => exact (List.cons.inj h).2.symm
        | cons y l₁ => simp at h
      · cases l₁ with
        | nil =>
          obtain ⟨rfl, -⟩ := List.cons.inj h
          exact absurd hx hc
        | cons y l₁ => exact ih (List.cons.inj h).2

/-- All lines, of at most `n + 1` elements. -/
def lines (stop : α → Bool) (n : ℕ) (bs : List α) : List (List α) :=
  if h : bs = [] then []
  else (nextLine stop (n + 1) bs).1 :: lines stop n (nextLine stop (n + 1) bs).2
termination_by bs.length
decreasing_by exact length_nextLine_lt h

@[simp] theorem lines_nil (stop : α → Bool) (n : ℕ) : lines stop n [] = [] := by
  rw [lines, dif_pos rfl]

theorem lines_of_ne_nil (hbs : bs ≠ []) : lines stop n bs =
    (nextLine stop (n + 1) bs).1 :: lines stop n (nextLine stop (n + 1) bs).2 := by
  rw [lines, dif_neg hbs]

theorem lines_eq_nil_iff : lines stop n bs = [] ↔ bs = [] := by
  refine ⟨fun h => ?_, fun h => h ▸ lines_nil stop n⟩
  by_contra hbs
  rw [lines_of_ne_nil hbs] at h
  cases h

end Streams

end OperatingSystems

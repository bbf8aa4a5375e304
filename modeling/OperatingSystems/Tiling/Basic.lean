import Mathlib.Data.List.Chain
import Mathlib.Order.Basic

/-!
# Pieces that lie side by side

A list of pieces covers an interval if each piece begins where the one before it ends.  Neighbours
with a property may be joined; doing so from the left to the right, each piece with the one that was
kept last, leaves no two of them.

* `Tiles start stop a l b` : the pieces `l` cover the interval from `a` to `b`.
* `Tiles.pairwise` : pieces do not overlap.
* `tiles_replace` : a piece is replaced by others that cover the same interval.
* `absorb p join acc c` : the pieces kept so far, the last one first, after `c`.
* `isChain_absorb` : **joining** leaves no two neighbours with the property.
-/

namespace OperatingSystems

namespace Tiling

variable {α : Type*} {start stop : α → ℕ} {a b c : ℕ} {x y z : α} {l l₁ l₂ acc : List α}

/-- The pieces cover the interval from `a` to `b`. -/
def Tiles (start stop : α → ℕ) : ℕ → List α → ℕ → Prop
  | a, [], b => a = b
  | a, x :: l, b => start x = a ∧ Tiles start stop (stop x) l b

theorem tiles_append :
    Tiles start stop a (l₁ ++ l₂) c ↔ ∃ b, Tiles start stop a l₁ b ∧ Tiles start stop b l₂ c := by
  induction l₁ generalizing a with
  | nil => exact ⟨fun h => ⟨a, rfl, h⟩, fun ⟨_, hb, h⟩ => hb ▸ h⟩
  | cons x l₁ ih => simp only [List.cons_append, Tiles, ih, and_assoc, exists_and_left]

/-- A piece is replaced by pieces that cover the same interval. -/
theorem tiles_replace {m : List α} (h : Tiles start stop a (l₁ ++ x :: l₂) b)
    (hm : Tiles start stop (start x) m (stop x)) : Tiles start stop a (l₁ ++ (m ++ l₂)) b := by
  obtain ⟨c, h₁, rfl, h₂⟩ := tiles_append.1 h
  exact tiles_append.2 ⟨_, h₁, tiles_append.2 ⟨_, hm, h₂⟩⟩

section Order

variable (hle : ∀ x, start x ≤ stop x)
include hle

theorem Tiles.le (h : Tiles start stop a l b) : a ≤ b := by
  induction l generalizing a with
  | nil => exact Nat.le_of_eq h
  | cons x l ih => exact (h.1.symm.trans_le (hle x)).trans (ih h.2)

/-- A piece lies in the interval. -/
theorem Tiles.mem (h : Tiles start stop a l b) (hx : x ∈ l) : a ≤ start x ∧ stop x ≤ b := by
  obtain ⟨l₁, l₂, rfl⟩ := List.append_of_mem hx
  obtain ⟨c, h₁, rfl, h₂⟩ := tiles_append.1 h
  exact ⟨h₁.le hle, h₂.le hle⟩

/-- **Pieces do not overlap**: two of them are the same, or one is before the other. -/
theorem Tiles.eq_or (h : Tiles start stop a l b) (hx : x ∈ l) (hy : y ∈ l) :
    x = y ∨ stop x ≤ start y ∨ stop y ≤ start x := by
  obtain ⟨l₁, l₂, rfl⟩ := List.append_of_mem hx
  obtain ⟨c, h₁, rfl, h₂⟩ := tiles_append.1 h
  rw [List.mem_append, List.mem_cons] at hy
  obtain hy | rfl | hy := hy
  · exact Or.inr (Or.inr (h₁.mem hle hy).2)
  · exact Or.inl rfl
  · exact Or.inr (Or.inl (h₂.mem hle hy).1)

end Order

/-! ### Joining neighbours -/

variable {p : α → Bool} {join : α → α → α}

/-- The pieces kept so far, the last one first, after `c`: it is joined to the last one if both have
the property. -/
def absorb (p : α → Bool) (join : α → α → α) : List α → α → List α
  | [], c => [c]
  | d :: ds, c => if p d ∧ p c then join d c :: ds else c :: d :: ds

/-- The pieces after neighbours with the property have been joined. -/
def merge (p : α → Bool) (join : α → α → α) (l : List α) : List α :=
  (l.foldl (absorb p join) []).reverse

/-- A piece without the property is kept. -/
theorem absorb_of_not (hx : p x = false) : absorb p join acc x = x :: acc := by
  cases acc with
  | nil => rfl
  | cons d ds => simp [absorb, hx]

/-- A piece after one without the property is kept. -/
theorem absorb_of_head (h : ∀ d ∈ acc.head?, p d = false) : absorb p join acc x = x :: acc := by
  cases acc with
  | nil => rfl
  | cons d ds => simp [absorb, h d rfl]

/-- **Joining** leaves no two neighbours with the property. -/
theorem isChain_absorb (hp : ∀ x y, p (join x y) = p x)
    (h : acc.IsChain fun x y => ¬ (p x ∧ p y)) :
    (absorb p join acc x).IsChain fun x y => ¬ (p x ∧ p y) := by
  cases acc with
  | nil => exact List.isChain_singleton x
  | cons d ds =>
    rw [absorb]
    split_ifs with hjoin
    · cases ds with
      | nil => exact List.isChain_singleton _
      | cons e es =>
        rw [List.isChain_cons_cons] at h ⊢
        rwa [hp]
    · exact List.isChain_cons_cons.2 ⟨fun hx => hjoin ⟨hx.2, hx.1⟩, h⟩

/-- The pieces without the property stay what they are. -/
theorem mem_absorb_of_not (hp : ∀ x y, p (join x y) = p x) (hy : p y = false) :
    y ∈ absorb p join acc x ↔ y = x ∨ y ∈ acc := by
  cases acc with
  | nil => simp [absorb]
  | cons d ds =>
    rw [absorb]
    split_ifs with hjoin
    · have hyd : y ≠ d := by
        rintro rfl
        simp [hjoin.1] at hy
      have hyx : y ≠ x := by
        rintro rfl
        simp [hjoin.2] at hy
      have hyj : y ≠ join d x := by
        rintro rfl
        simp [hp, hjoin.1] at hy
      simp [hyd, hyx, hyj]
    · simp

theorem mem_foldl_absorb_of_not (hp : ∀ x y, p (join x y) = p x) (hy : p y = false) :
    y ∈ l.foldl (absorb p join) acc ↔ y ∈ l ∨ y ∈ acc := by
  induction l generalizing acc with
  | nil => simp
  | cons x l ih => rw [List.foldl_cons, ih, mem_absorb_of_not hp hy, List.mem_cons, or_left_comm,
      or_assoc]

theorem mem_merge_of_not (hp : ∀ x y, p (join x y) = p x) (hy : p y = false) :
    y ∈ merge p join l ↔ y ∈ l := by
  rw [merge, List.mem_reverse, mem_foldl_absorb_of_not hp hy]
  simp

/-- A piece with the property is left if there was one. -/
theorem exists_mem_absorb (hp : ∀ x y, p (join x y) = p x) (h : ∃ y ∈ x :: acc, p y = true) :
    ∃ y ∈ absorb p join acc x, p y = true := by
  cases acc with
  | nil => exact h
  | cons d ds =>
    rw [absorb]
    split_ifs with hjoin
    · exact ⟨_, List.mem_cons_self, (hp d x).trans hjoin.1⟩
    · exact h

theorem exists_mem_foldl_absorb (hp : ∀ x y, p (join x y) = p x) (h : ∃ y ∈ acc ++ l, p y = true) :
    ∃ y ∈ l.foldl (absorb p join) acc, p y = true := by
  induction l generalizing acc with
  | nil => simpa using h
  | cons x l ih =>
    refine ih ?_
    obtain ⟨y, hy, hpy⟩ := h
    rw [List.mem_append, List.mem_cons, ← or_assoc, or_comm (a := y ∈ acc)] at hy
    obtain hy | hy := hy
    · obtain ⟨z, hz, hpz⟩ := exists_mem_absorb hp ⟨y, List.mem_cons.2 hy, hpy⟩
      exact ⟨z, List.mem_append_left _ hz, hpz⟩
    · exact ⟨y, List.mem_append_right _ hy, hpy⟩

end Tiling

end OperatingSystems

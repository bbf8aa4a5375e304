import Mathlib.Algebra.BigOperators.Group.List.Basic
import Mathlib.Algebra.Order.Ring.Nat
import Mathlib.Data.List.Perm.Basic

/-!
# Coverings by blocks

A block is an interval of numbers, given by its start and its length.  How often the blocks of a list
cover a number is a sum, so that it does not depend on their order, and that what one list loses and
another one gets can be told from equations.

* `ind b x` : whether the block `b` covers `x`, as a number; `cover bs x` : how often the blocks `bs` do.
* `cover_erase` : a block is taken out of a list.
* `ind_add` : **a block is cut in two**.
* `Ordered lo bs hi` : the blocks lie one behind the other between `lo` and `hi`; `Ordered.join` and
  others : what may be done with them.
* `apart_of_ind` : two blocks that cover nothing twice are apart.
-/

namespace OperatingSystems

namespace Cover

/-- A block: where it starts, and its length. -/
abbrev Block : Type := ℕ × ℕ

/-- Whether `x` is in the block. -/
def ind (b : Block) (x : ℕ) : ℕ := if b.1 ≤ x ∧ x < b.1 + b.2 then 1 else 0

/-- How often `x` is in one of the blocks. -/
def cover (bs : List Block) (x : ℕ) : ℕ := (bs.map fun b => ind b x).sum

variable {b c : Block} {bs bs' : List Block} {x a m n : ℕ}

theorem ind_pos_iff : 0 < ind b x ↔ b.1 ≤ x ∧ x < b.1 + b.2 := by
  unfold ind
  split_ifs with h <;> simp [h]

theorem ind_of_mem (h : b.1 ≤ x ∧ x < b.1 + b.2) : ind b x = 1 := if_pos h

theorem ind_of_notMem (h : ¬ (b.1 ≤ x ∧ x < b.1 + b.2)) : ind b x = 0 := if_neg h

/-- **A block is cut in two.** -/
theorem ind_add (a m n x : ℕ) : ind (a, m + n) x = ind (a, m) x + ind (a + m, n) x := by
  unfold ind
  split_ifs <;> dsimp only at * <;> omega

@[simp] theorem cover_nil (x : ℕ) : cover [] x = 0 := rfl

@[simp] theorem cover_cons (b : Block) (bs : List Block) (x : ℕ) :
    cover (b :: bs) x = ind b x + cover bs x := List.sum_cons

@[simp] theorem cover_append (bs bs' : List Block) (x : ℕ) :
    cover (bs ++ bs') x = cover bs x + cover bs' x := by
  rw [cover, List.map_append, List.sum_append]
  rfl

theorem cover_erase (h : b ∈ bs) (x : ℕ) : cover (bs.erase b) x + ind b x = cover bs x := by
  have := (List.perm_cons_erase h).map fun b => ind b x
  rw [cover, cover, this.sum_eq, List.map_cons, List.sum_cons, Nat.add_comm]

theorem cover_pos_iff : 0 < cover bs x ↔ ∃ b ∈ bs, b.1 ≤ x ∧ x < b.1 + b.2 := by
  induction bs with
  | nil => simp
  | cons b bs ih =>
    rw [cover_cons, List.exists_mem_cons_iff, ← ih, ← ind_pos_iff]
    omega

theorem ind_le_cover (h : b ∈ bs) (x : ℕ) : ind b x ≤ cover bs x := by
  have := cover_erase h x
  omega

/-- **Blocks are apart** if they cover nothing twice. -/
theorem apart_of_ind (h : ∀ x, ind b x + ind c x ≤ 1) (hb : 0 < b.2) (hc : 0 < c.2) :
    b.1 + b.2 ≤ c.1 ∨ c.1 + c.2 ≤ b.1 := by
  have hstart := h b.1
  have hstart' := h c.1
  unfold ind at *
  split_ifs at * <;> omega

/-! ### Blocks in order -/

/-- The blocks are not empty, and lie one behind the other between `lo` and `hi`. -/
def Ordered : ℕ → List Block → ℕ → Prop
  | lo, [], hi => lo ≤ hi
  | lo, b :: bs, hi => lo ≤ b.1 ∧ 0 < b.2 ∧ Ordered (b.1 + b.2) bs hi

variable {lo hi mid lo' hi' : ℕ}

theorem Ordered.le (h : Ordered lo bs hi) : lo ≤ hi := by
  induction bs generalizing lo with
  | nil => exact h
  | cons b bs ih =>
    have := ih h.2.2
    have := h.1
    omega

theorem Ordered.mono (h : Ordered lo bs hi) (hlo : lo' ≤ lo) (hhi : hi ≤ hi') :
    Ordered lo' bs hi' := by
  induction bs generalizing lo lo' with
  | nil => exact (hlo.trans h).trans hhi
  | cons b bs ih => exact ⟨hlo.trans h.1, h.2.1, ih h.2.2 le_rfl⟩

theorem ordered_append : Ordered lo (bs ++ bs') hi ↔
    ∃ mid, Ordered lo bs mid ∧ Ordered mid bs' hi := by
  induction bs generalizing lo with
  | nil => exact ⟨fun h => ⟨lo, Nat.le_refl lo, h⟩, fun ⟨_, hle, h⟩ => h.mono hle le_rfl⟩
  | cons b bs ih => simp only [List.cons_append, Ordered, ih, and_assoc, exists_and_left]

/-- A block lies between the bounds. -/
theorem Ordered.mem (h : Ordered lo bs hi) (hb : b ∈ bs) :
    lo ≤ b.1 ∧ 0 < b.2 ∧ b.1 + b.2 ≤ hi := by
  obtain ⟨l₁, l₂, rfl⟩ := List.append_of_mem hb
  obtain ⟨mid, h₁, hle, hpos, h₂⟩ := ordered_append.1 h
  exact ⟨h₁.le.trans hle, hpos, h₂.le⟩

/-- Blocks in order cover nothing twice, and nothing outside of the bounds. -/
theorem Ordered.cover_le (h : Ordered lo bs hi) (x : ℕ) : cover bs x ≤ ind (lo, hi - lo) x := by
  induction bs generalizing lo with
  | nil => exact Nat.zero_le _
  | cons b bs ih =>
    have hrest := ih h.2.2
    have hle := h.2.2.le
    have hlo := h.1
    rw [cover_cons]
    unfold ind at *
    split_ifs at * <;> dsimp only at * <;> omega

/-- There are no more blocks than numbers between the bounds. -/
theorem Ordered.length_le (h : Ordered lo bs hi) : lo + bs.length ≤ hi := by
  induction bs generalizing lo with
  | nil => exact h
  | cons b bs ih =>
    have := ih h.2.2
    have := h.1
    have := h.2.1
    rw [List.length_cons]
    omega

/-- No two blocks start at the same number. -/
theorem Ordered.nodup (h : Ordered lo bs hi) : (bs.map Prod.fst).Nodup := by
  induction bs generalizing lo with
  | nil => exact List.nodup_nil
  | cons b bs ih =>
    refine List.nodup_cons.2 ⟨fun hmem => ?_, ih h.2.2⟩
    obtain ⟨c, hc, heq⟩ := List.mem_map.1 hmem
    have := (h.2.2.mem hc).1
    have := h.2.1
    omega

/-- Blocks that all end below `mid`. -/
theorem Ordered.tighten (h : Ordered lo bs hi) (hlo : lo ≤ mid)
    (hend : ∀ b ∈ bs, b.1 + b.2 ≤ mid) : Ordered lo bs mid := by
  induction bs generalizing lo with
  | nil => exact hlo
  | cons b bs ih =>
    obtain ⟨hb, hbs⟩ := List.forall_mem_cons.1 hend
    exact ⟨h.1, h.2.1, ih h.2.2 hb hbs⟩

/-- Blocks that all start behind `mid`. -/
theorem Ordered.raise (h : Ordered lo bs hi) (hhi : mid ≤ hi) (hstart : ∀ b ∈ bs, mid ≤ b.1) :
    Ordered mid bs hi := by
  cases bs with
  | nil => exact hhi
  | cons b bs => exact ⟨hstart b List.mem_cons_self, h.2⟩

/-- **Neighbours are joined.** -/
theorem Ordered.join (h : Ordered lo (bs ++ (a, m) :: (a + m, n) :: bs') hi) :
    Ordered lo (bs ++ (a, m + n) :: bs') hi := by
  obtain ⟨mid, h₁, hle, hpos, -, hpos', h₂⟩ := ordered_append.1 h
  refine ordered_append.2 ⟨mid, h₁, hle, ?_, ?_⟩
  · dsimp only at *
    omega
  · dsimp only at *
    rwa [← Nat.add_assoc]

/-- A block is taken out. -/
theorem Ordered.remove (h : Ordered lo (bs ++ b :: bs') hi) : Ordered lo (bs ++ bs') hi := by
  obtain ⟨mid, h₁, hle, hpos, h₂⟩ := ordered_append.1 h
  exact ordered_append.2 ⟨mid, h₁, h₂.mono (by omega) le_rfl⟩

/-- A block gets smaller. -/
theorem Ordered.shrink (h : Ordered lo (bs ++ (a, m) :: bs') hi) (hpos : 0 < n) (hn : n ≤ m) :
    Ordered lo (bs ++ (a, n) :: bs') hi := by
  obtain ⟨mid, h₁, hle, -, h₂⟩ := ordered_append.1 h
  exact ordered_append.2 ⟨mid, h₁, hle, hpos, h₂.mono (Nat.add_le_add_left hn a) le_rfl⟩

/-- A number that is not the start of a block divides the blocks. -/
theorem Ordered.exists_split (h : Ordered lo bs hi) (hne : ∀ b ∈ bs, b.1 ≠ mid) :
    ∃ l₁ l₂, bs = l₁ ++ l₂ ∧ (∀ b ∈ l₁, b.1 < mid) ∧ ∀ b ∈ l₂, mid < b.1 := by
  induction bs generalizing lo with
  | nil => exact ⟨[], [], rfl, nofun, nofun⟩
  | cons b bs ih =>
    obtain ⟨hb, hbs⟩ := List.forall_mem_cons.1 hne
    rcases lt_or_gt_of_ne hb with hlt | hgt
    · obtain ⟨l₁, l₂, rfl, h₁, h₂⟩ := ih h.2.2 hbs
      exact ⟨b :: l₁, l₂, rfl, List.forall_mem_cons.2 ⟨hlt, h₁⟩, h₂⟩
    · refine ⟨[], b :: bs, rfl, nofun, List.forall_mem_cons.2 ⟨hgt, fun c hc => ?_⟩⟩
      have := (h.2.2.mem hc).1
      omega

end Cover

end OperatingSystems

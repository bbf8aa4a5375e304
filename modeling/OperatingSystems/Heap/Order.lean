import Mathlib.Order.Interval.Finset.Nat
import Mathlib.Data.Multiset.MapFold
import Mathlib.Logic.Equiv.Basic

/-!
# Binary heaps laid out in an array

A binary heap with root `1`: the children of `i` are `2 * i` and `2 * i + 1`, so the parent of `i`
is `i / 2`, and the entries in use are those at `1 .. n - 1`.  Entries are compared by a key in a
linear order.

* `Heap.swapAt` exchanges two entries and keeps the `Heap.contents`, the multiset of the entries in
  use.
* `Heap.Ordered` is the heap order; `Heap.UpOrdered` and `Heap.DownOrdered` allow one entry to be
  too small for its place, or too large.
* `UpOrdered.swap` and `DownOrdered.swap` are one step of sifting, `UpOrdered.ordered` and
  `DownOrdered.ordered` say when sifting may stop.
* `Ordered.root_le` : the root has the smallest key.
-/

namespace OperatingSystems

namespace Heap

variable {α κ : Type*}

/-! ### Exchanging two entries -/

/-- Exchange the entries at `i` and `j`. -/
def swapAt (a : ℕ → α) (i j : ℕ) : ℕ → α := Function.update (Function.update a i (a j)) j (a i)

/-- The entries at `1 .. n - 1`. -/
def contents (a : ℕ → α) (n : ℕ) : Multiset α := (Finset.Ico 1 n).val.map a

theorem swapAt_apply (a : ℕ → α) (i j k : ℕ) :
    swapAt a i j k = if k = j then a i else if k = i then a j else a k := by
  simp only [swapAt, Function.update_apply]

@[simp] theorem swapAt_left (a : ℕ → α) (i j : ℕ) : swapAt a i j i = a j := by
  rw [swapAt_apply, if_pos rfl]
  split_ifs with h
  · rw [h]
  · rfl

@[simp] theorem swapAt_right (a : ℕ → α) (i j : ℕ) : swapAt a i j j = a i := by
  simp [swapAt_apply]

theorem swapAt_of_ne (a : ℕ → α) {i j k : ℕ} (hi : k ≠ i) (hj : k ≠ j) :
    swapAt a i j k = a k := by
  simp [swapAt_apply, hi, hj]

theorem swapAt_eq_comp (a : ℕ → α) (i j : ℕ) : swapAt a i j = a ∘ Equiv.swap i j := by
  funext k
  rw [swapAt_apply, Function.comp_apply, Equiv.swap_apply_def]
  split_ifs <;> simp_all

theorem contents_swapAt (a : ℕ → α) {n i j : ℕ} (hi : 1 ≤ i ∧ i < n) (hj : 1 ≤ j ∧ j < n) :
    contents (swapAt a i j) n = contents a n := by
  have hperm : (Finset.Ico 1 n).map (Equiv.swap i j).toEmbedding = Finset.Ico 1 n := by
    apply Finset.eq_of_subset_of_card_le
    · intro k hk
      obtain ⟨m, hm, rfl⟩ := Finset.mem_map.1 hk
      rw [Finset.mem_Ico] at hm ⊢
      simp only [Equiv.coe_toEmbedding, Equiv.swap_apply_def]
      split_ifs <;> omega
    · rw [Finset.card_map]
  calc contents (swapAt a i j) n
      = ((Finset.Ico 1 n).map (Equiv.swap i j).toEmbedding).val.map a := by
        rw [contents, swapAt_eq_comp, Finset.map_val, Multiset.map_map]; rfl
    _ = contents a n := by rw [hperm]; rfl

theorem contents_congr {a b : ℕ → α} {n : ℕ} (h : ∀ i, 1 ≤ i → i < n → a i = b i) :
    contents a n = contents b n :=
  Multiset.map_congr rfl fun i hi => by
    rw [Finset.mem_val, Finset.mem_Ico] at hi
    exact h i hi.1 hi.2

theorem contents_succ (a : ℕ → α) {n : ℕ} (hn : 1 ≤ n) :
    contents a (n + 1) = a n ::ₘ contents a n := by
  rw [contents, Nat.Ico_succ_right_eq_insert_Ico hn, Finset.insert_val_of_notMem (by simp),
    Multiset.map_cons]
  rfl

@[simp] theorem contents_one (a : ℕ → α) : contents a 1 = 0 := rfl

theorem mem_contents {a : ℕ → α} {n : ℕ} {x : α} :
    x ∈ contents a n ↔ ∃ i, 1 ≤ i ∧ i < n ∧ a i = x := by
  simp only [contents, Multiset.mem_map, Finset.mem_val, Finset.mem_Ico, and_assoc]

/-- Putting the last entry in the place of the root and giving up the last place takes exactly the
root out of the contents. -/
theorem contents_update_root (a : ℕ → α) {n : ℕ} (hn : 1 ≤ n) :
    contents a (n + 1) = a 1 ::ₘ contents (Function.update a 1 (a n)) n := by
  induction n, hn using Nat.le_induction with
  | base => rw [contents_succ a le_rfl]; simp
  | succ n hn ih =>
    -- the last entry goes into the root's place, the root's entry into the last one
    have h1 : contents a (n + 1 + 1) = contents (swapAt a 1 (n + 1)) (n + 1 + 1) :=
      (contents_swapAt a (by omega) (by omega)).symm
    rw [h1, contents_succ _ (by omega), swapAt_right]
    congr 1
    refine contents_congr fun i _ hi => ?_
    rw [swapAt_apply, Function.update_apply, if_neg (by omega)]

/-! ### The heap order -/

variable [LinearOrder κ] (key : α → κ)

/-- No entry in use has a smaller key than its parent. -/
def Ordered (a : ℕ → α) (n : ℕ) : Prop :=
  ∀ i, 2 ≤ i → i < n → key (a (i / 2)) ≤ key (a i)

/-- The heap order but for the entry at `h`, which may be too small for its parent. -/
structure UpOrdered (a : ℕ → α) (n h : ℕ) : Prop where
  /-- Every other entry is in order with its parent. -/
  off : ∀ i, 2 ≤ i → i < n → i ≠ h → key (a (i / 2)) ≤ key (a i)
  /-- The children of `h` are in order with the parent of `h`. -/
  grand : ∀ i, 2 ≤ h → i < n → i / 2 = h → key (a (h / 2)) ≤ key (a i)

/-- The heap order but for the entry at `h`, which may be too large for its children. -/
structure DownOrdered (a : ℕ → α) (n h : ℕ) : Prop where
  /-- Every entry that is not a child of `h` is in order with its parent. -/
  off : ∀ i, 2 ≤ i → i < n → i / 2 ≠ h → key (a (i / 2)) ≤ key (a i)
  /-- The children of `h` are in order with the parent of `h`. -/
  grand : ∀ i, 2 ≤ h → i < n → i / 2 = h → key (a (h / 2)) ≤ key (a i)

variable {key} {a : ℕ → α} {n h : ℕ}

/-- The root of an ordered heap has the smallest key. -/
theorem Ordered.root_le (ho : Ordered key a n) {i : ℕ} (h1 : 1 ≤ i) (hi : i < n) :
    key (a 1) ≤ key (a i) := by
  induction i using Nat.strong_induction_on with
  | _ i ih =>
    rcases Nat.lt_or_ge i 2 with h2 | h2
    · obtain rfl : i = 1 := by omega
      exact le_rfl
    · exact (ih (i / 2) (by omega) (by omega) (by omega)).trans (ho i h2 hi)

/-- Appending an entry to an ordered heap leaves at most that entry out of order. -/
theorem Ordered.upOrdered_update (ho : Ordered key a n) (x : α) :
    UpOrdered key (Function.update a n x) (n + 1) n where
  off i h2 hi hne := by
    rw [Function.update_of_ne (by omega), Function.update_of_ne hne]
    exact ho i h2 (by omega)
  grand i h2 hi hp := by omega

/-- Replacing the root of an ordered heap leaves at most the root out of order. -/
theorem Ordered.downOrdered_update (ho : Ordered key a (n + 1)) (x : α) :
    DownOrdered key (Function.update a 1 x) n 1 where
  off i h2 hi hne := by
    rw [Function.update_of_ne hne, Function.update_of_ne (by omega)]
    exact ho i h2 (by omega)
  grand i h2 := by omega

/-- **One step of sifting up.** -/
theorem UpOrdered.swap (ho : UpOrdered key a n h) (h2 : 2 ≤ h)
    (hlt : key (a h) < key (a (h / 2))) : UpOrdered key (swapAt a h (h / 2)) n (h / 2) where
  off i hi2 hin hne := by
    rcases eq_or_ne i h with rfl | hih
    · rw [swapAt_right, swapAt_left]; exact hlt.le
    rw [swapAt_of_ne a hih hne]
    rcases eq_or_ne (i / 2) h with hp | hp
    · -- a child of h: its new parent is the old parent of h
      rw [hp, swapAt_left]; exact ho.grand i h2 hin hp
    rcases eq_or_ne (i / 2) (h / 2) with hq | hq
    · -- the sibling of h: its new parent is the entry that moved up
      rw [hq, swapAt_right]
      exact hlt.le.trans (hq ▸ ho.off i hi2 hin hih)
    · rw [swapAt_of_ne a hp hq]; exact ho.off i hi2 hin hih
  grand i hp2 hin hp := by
    have hq : key (a (h / 2 / 2)) ≤ key (a (h / 2)) := by
      rcases Nat.lt_or_ge (h / 2) n with hlt' | hge
      · exact ho.off (h / 2) hp2 hlt' (by omega)
      · omega
    rw [swapAt_of_ne a (by omega) (by omega)]
    rcases eq_or_ne i h with rfl | hih
    · rw [swapAt_left]; exact hq
    · rw [swapAt_of_ne a hih (by omega)]
      exact hq.trans (hp ▸ ho.off i (by omega) hin hih)

/-- Sifting up may stop at the root, or at an entry that is not smaller than its parent. -/
theorem UpOrdered.ordered (ho : UpOrdered key a n h)
    (hstop : 2 ≤ h → key (a (h / 2)) ≤ key (a h)) : Ordered key a n := by
  intro i h2 hi
  rcases eq_or_ne i h with rfl | hne
  · exact hstop h2
  · exact ho.off i h2 hi hne

/-- **One step of sifting down**, along the smaller child `c`. -/
theorem DownOrdered.swap (ho : DownOrdered key a n h) {c : ℕ} (h1 : 1 ≤ h) (hc : c / 2 = h)
    (hcn : c < n) (hlt : key (a c) < key (a h))
    (hmin : ∀ d, d < n → d / 2 = h → key (a c) ≤ key (a d)) :
    DownOrdered key (swapAt a h c) n c where
  off i h2 hi hne := by
    rcases eq_or_ne i c with rfl | hic
    · rw [hc, swapAt_left, swapAt_right]; exact hlt.le
    rcases eq_or_ne i h with rfl | hih
    · -- h itself: the smaller child moved up to it
      rw [swapAt_left, swapAt_of_ne a (by omega) hne]; exact ho.grand c h2 hcn hc
    rw [swapAt_of_ne a hih hic]
    rcases eq_or_ne (i / 2) h with hp | hp
    · rw [hp, swapAt_left]; exact hmin i hi hp
    · rw [swapAt_of_ne a hp hne]; exact ho.off i h2 hi hp
  grand i h2 hi hp := by
    rw [hc, swapAt_left, swapAt_of_ne a (by omega) (by omega)]
    exact hp ▸ ho.off i (by omega) hi (by omega)

/-- Sifting down may stop at an entry that is not larger than its children. -/
theorem DownOrdered.ordered (ho : DownOrdered key a n h)
    (hstop : ∀ i, 2 ≤ i → i < n → i / 2 = h → key (a h) ≤ key (a i)) : Ordered key a n := by
  intro i h2 hi
  rcases eq_or_ne (i / 2) h with rfl | hne
  · exact hstop i h2 hi rfl
  · exact ho.off i h2 hi hne

end Heap

end OperatingSystems

import OperatingSystems.Bytes.Basic

/-!
# Memories in pages

A memory is cut into pages of `B` bytes, and an access to `n` bytes at `off` is performed in pieces
that do not cross the end of a page.

* `page B i m` : the page `i` of the memory.
* `Touches B off n i` : the access touches the page `i`.
* `piece B off k` : the length of the next piece, if `k` bytes at `off` are left.
* `patch_patch` : two adjacent writes are one write.
* `page_patch` : **a piece within a page** writes to this page as to a memory of its own.
* `xorSum n b` : the exclusive or of the first `n` bytes.
* `xorSum_pages` : the exclusive or of a memory is that of its pages.
-/

namespace OperatingSystems

namespace Bytes

variable {B off off' n k i : ℕ} {m b b' : Bytes}

/-- The page `i`. -/
def page (B i : ℕ) (m : Bytes) : Bytes := slice m (B * i)

/-- An access to `n` bytes at `off` touches the page `i`. -/
def Touches (B off n i : ℕ) : Prop := max off (B * i) < min (off + n) (B * i + B)

instance : Decidable (Touches B off n i) := inferInstanceAs (Decidable (_ < _))

/-- The length of the next piece, if `k` bytes at `off` are left. -/
def piece (B off k : ℕ) : ℕ := min k (B - off % B)

theorem touches_iff : Touches B off n i ↔ ∃ a, off ≤ a ∧ a < off + n ∧ B * i ≤ a ∧ a < B * i + B := by
  unfold Touches
  constructor
  · intro h
    exact ⟨max off (B * i), by omega⟩
  · rintro ⟨a, ha⟩
    omega

theorem not_touches_zero : ¬ Touches B off 0 i := by
  unfold Touches
  omega

/-! ### Pieces -/

theorem piece_pos (off : ℕ) (hB : 0 < B) (hk : 0 < k) : 0 < piece B off k := by
  have := Nat.mod_lt off hB
  unfold piece
  omega

theorem piece_le (B off k : ℕ) : piece B off k ≤ k := Nat.min_le_left ..

/-- A piece lies within its page. -/
theorem mod_add_piece_le (off k : ℕ) (hB : 0 < B) : off % B + piece B off k ≤ B := by
  have := Nat.mod_lt off hB
  unfold piece
  omega

/-- After a piece the access is at its end, or at the end of a page. -/
theorem piece_eq_or (off k : ℕ) (hB : 0 < B) :
    piece B off k = k ∨ off + piece B off k = B * (off / B) + B := by
  have := Nat.mod_lt off hB
  have := Nat.div_add_mod off B
  unfold piece
  omega

/-- The pages of an access are that of its first piece and those of the others. -/
theorem touches_piece (hB : 0 < B) (hk : 0 < k) :
    Touches B off k i ↔
      i = off / B ∨ Touches B (off + piece B off k) (k - piece B off k) i := by
  have hmod := Nat.mod_lt off hB
  have hdiv := Nat.div_add_mod off B
  have hpos := piece_pos off hB hk
  have hle := piece_le B off k
  have hin := mod_add_piece_le off k hB
  have hor := piece_eq_or off k hB
  unfold Touches
  rcases lt_trichotomy i (off / B) with hi | rfl | hi
  · have := Nat.mul_le_mul_left B hi
    rw [Nat.mul_succ] at this
    omega
  · omega
  · have := Nat.mul_le_mul_left B hi
    rw [Nat.mul_succ] at this
    omega

/-- A piece touches its page only. -/
theorem touches_within (hn : 0 < n) (hle : off % B + n ≤ B) : Touches B off n i ↔ i = off / B := by
  have hmod : off % B < B := by omega
  have hdiv := Nat.div_add_mod off B
  unfold Touches
  rcases lt_trichotomy i (off / B) with hi | rfl | hi
  · have := Nat.mul_le_mul_left B hi
    rw [Nat.mul_succ] at this
    omega
  · omega
  · have := Nat.mul_le_mul_left B hi
    rw [Nat.mul_succ] at this
    omega

/-! ### Writes -/

theorem patch_of_eqTo (h : EqTo n b b') : patch m off n b = patch m off n b' := by
  funext a
  unfold patch
  split_ifs with ha
  · exact h (a - off) (by omega)
  · rfl

@[simp] theorem patch_zero : patch m off 0 b = m := funext fun _ => if_neg (by omega)

/-- Two adjacent writes. -/
theorem patch_patch (m : Bytes) (off k n : ℕ) (b : Bytes) :
    patch (patch m off k b) (off + k) n (slice b k) = patch m off (k + n) b := by
  funext a
  unfold patch slice
  split_ifs
  · exact congrArg b (by omega)
  · omega
  · rfl
  · omega
  · omega
  · rfl

/-- **A piece within a page.** -/
theorem page_patch (h : off / B = i) :
    page B i (patch m off n b) = patch (page B i m) (off % B) n b := by
  have hdiv := Nat.div_add_mod off B
  rw [h] at hdiv
  funext a
  simp only [page, patch, slice]
  split_ifs
  · exact congrArg b (by omega)
  · omega
  · omega
  · rfl

theorem page_patch_of_not_touches (h : ¬ Touches B off n i) :
    EqTo B (page B i (patch m off n b)) (page B i m) := by
  intro a ha
  unfold page patch slice
  refine if_neg fun hin => h ?_
  exact touches_iff.2 ⟨B * i + a, by omega⟩

/-- What a piece reads. -/
theorem slice_page (m : Bytes) (h : off / B = i) : slice (page B i m) (off % B) = slice m off := by
  have hdiv := Nat.div_add_mod off B
  rw [h] at hdiv
  funext a
  unfold page slice
  exact congrArg m (by omega)

theorem slice_slice (m : Bytes) (off k : ℕ) : slice (slice m off) k = slice m (off + k) :=
  funext fun i => congrArg m (Nat.add_assoc off k i).symm

theorem EqTo.slice (h : EqTo n b b') (hle : off + k ≤ n) : EqTo k (slice b off) (slice b' off) :=
  fun i hi => h (off + i) (by omega)

/-! ### Exclusive or -/

/-- The exclusive or of the first `n` bytes. -/
def xorSum : ℕ → Bytes → UInt8
  | 0, _ => 0
  | n + 1, b => xorSum n b ^^^ b n

theorem xorSum_congr (h : EqTo n b b') : xorSum n b = xorSum n b' := by
  induction n with
  | zero => rfl
  | succ n ih =>
    rw [xorSum, xorSum, ih fun i hi => h i (by omega), h n (Nat.lt_succ_self n)]

theorem xorSum_add (k n : ℕ) (b : Bytes) : xorSum (k + n) b = xorSum k b ^^^ xorSum n (slice b k) := by
  induction n with
  | zero => rw [xorSum, Nat.add_zero, UInt8.xor_zero]
  | succ n ih => rw [← Nat.add_assoc, xorSum, ih, xorSum, UInt8.xor_assoc, slice]

theorem xorSum_eq_zero (h : ∀ i < n, b i = 0) : xorSum n b = 0 := by
  induction n with
  | zero => rfl
  | succ n ih =>
    rw [xorSum, ih fun i hi => h i (by omega), h n (Nat.lt_succ_self n), UInt8.xor_zero]

/-- Zeros at the end do not count. -/
theorem xorSum_of_le (hn : k ≤ n) (h : ∀ i, k ≤ i → i < n → b i = 0) : xorSum n b = xorSum k b := by
  obtain ⟨l, rfl⟩ := Nat.exists_eq_add_of_le hn
  have htail : xorSum l (slice b k) = 0 := xorSum_eq_zero fun i hi => h (k + i) (by omega) (by omega)
  rw [xorSum_add, htail, UInt8.xor_zero]

theorem xorSum_xor (n : ℕ) (b b' : Bytes) : xorSum n (fun i => b i ^^^ b' i) = xorSum n b ^^^ xorSum n b' := by
  induction n with
  | zero => exact UInt8.xor_self.symm
  | succ n ih =>
    rw [xorSum, xorSum, xorSum, ih, UInt8.xor_assoc, UInt8.xor_assoc, ← UInt8.xor_assoc (xorSum n b'),
      UInt8.xor_comm (xorSum n b'), UInt8.xor_assoc]

/-- **The exclusive or of a memory** is that of its pages. -/
theorem xorSum_pages (B k : ℕ) (m : Bytes) : xorSum (B * k) m = xorSum k fun i => xorSum B (page B i m) := by
  induction k with
  | zero => rfl
  | succ k ih => rw [Nat.mul_succ, xorSum_add, ih, xorSum, page]

end Bytes

end OperatingSystems

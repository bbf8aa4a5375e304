import Mathlib.Data.Nat.Basic
import Mathlib.Data.Int.Basic
import Mathlib.Tactic.Ring

/-!
# Byte memories

A memory, a file or a variable of some structure type is a function from addresses to bytes; how
much of it is meant is said where it is used.  Numbers are stored with the least significant byte
first, and signed numbers of 32 bits in two's complement.

## Main definitions

* `Bytes` : the contents of a memory.
* `Bytes.patch m off n b` : the memory after the first `n` bytes of `b` were written at `off`.
* `Bytes.slice m off` : the memory from `off` on.
* `Bytes.toNat w b`, `Bytes.ofNat n` : numbers of `w` bytes.
* `Bytes.toInt b`, `Bytes.ofInt x` : signed numbers of 32 bits.
* `Bytes.word m off i`, `Bytes.setWord b i x` : arrays of them.
* `Bytes.cstr n b` : the C string in the first `n` bytes.
-/

namespace OperatingSystems

/-- The contents of a memory. -/
abbrev Bytes : Type := ℕ → UInt8

namespace Bytes

/-- The memory `m` after the first `n` bytes of `b` were written at `off`. -/
def patch (m : Bytes) (off n : ℕ) (b : Bytes) : Bytes :=
  fun a => if off ≤ a ∧ a < off + n then b (a - off) else m a

/-- The memory from `off` on. -/
def slice (m : Bytes) (off : ℕ) : Bytes := fun i => m (off + i)

@[simp] theorem slice_zero (m : Bytes) : slice m 0 = m := funext fun i => by
  rw [slice, Nat.zero_add]

/-- The first `n` bytes are the same. -/
def EqTo (n : ℕ) (b b' : Bytes) : Prop := ∀ i < n, b i = b' i

theorem EqTo.refl (n : ℕ) (b : Bytes) : EqTo n b b := fun _ _ => rfl

theorem EqTo.symm {n : ℕ} {b b' : Bytes} (h : EqTo n b b') : EqTo n b' b :=
  fun i hi => (h i hi).symm

theorem EqTo.trans {n : ℕ} {b b' b'' : Bytes} (h : EqTo n b b') (h' : EqTo n b' b'') :
    EqTo n b b'' :=
  fun i hi => (h i hi).trans (h' i hi)

theorem patch_of_lt {m : Bytes} {off n a : ℕ} {b : Bytes} (h : a < off) :
    patch m off n b a = m a := if_neg (by omega)

theorem patch_of_le {m : Bytes} {off n a : ℕ} {b : Bytes} (h : off + n ≤ a) :
    patch m off n b a = m a := if_neg (by omega)

theorem patch_add {m : Bytes} {off n i : ℕ} {b : Bytes} (h : i < n) :
    patch m off n b (off + i) = b i := by
  rw [patch, if_pos (by omega), Nat.add_sub_cancel_left]

/-- What was written is read back. -/
theorem slice_patch (m : Bytes) (off n : ℕ) (b : Bytes) : EqTo n (slice (patch m off n b) off) b :=
  fun _ hi => patch_add hi

/-- A write does not show outside of its range. -/
theorem slice_patch_of_disjoint {m : Bytes} {off n off' n' : ℕ} {b : Bytes}
    (h : off + n ≤ off' ∨ off' + n' ≤ off) :
    EqTo n' (slice (patch m off n b) off') (slice m off') := by
  intro i hi
  rcases h with h | h
  · exact patch_of_le (by omega)
  · exact patch_of_lt (by omega)

theorem patch_congr {m m' : Bytes} {n : ℕ} (h : EqTo n m m') (off k : ℕ) (b : Bytes) :
    EqTo n (patch m off k b) (patch m' off k b) := by
  intro i hi
  unfold patch
  split_ifs
  · rfl
  · exact h i hi

/-- Writing what is there changes nothing. -/
theorem patch_self {m : Bytes} {off n : ℕ} {b : Bytes} (h : EqTo n b (slice m off)) :
    patch m off n b = m := by
  funext a
  unfold patch
  split_ifs with ha
  · rw [h (a - off) (by omega), slice, Nat.add_sub_cancel' ha.1]
  · rfl

/-! ### Numbers -/

/-- The number in the first `w` bytes, the least significant one first. -/
def toNat : ℕ → Bytes → ℕ
  | 0, _ => 0
  | w + 1, b => (b 0).toNat + 256 * toNat w (slice b 1)

/-- The bytes of a number. -/
def ofNat (n : ℕ) : Bytes := fun i => UInt8.ofNat (n / 256 ^ i)

theorem toNat_congr {w : ℕ} {b b' : Bytes} (h : EqTo w b b') : toNat w b = toNat w b' := by
  induction w generalizing b b' with
  | zero => rfl
  | succ w ih =>
    have htail : toNat w (slice b 1) = toNat w (slice b' 1) := by
      refine ih fun i hi => ?_
      exact h (1 + i) (by omega)
    rw [toNat, toNat, h 0 (by omega), htail]

theorem toNat_ofNat (w n : ℕ) : toNat w (ofNat n) = n % 256 ^ w := by
  induction w generalizing n with
  | zero => simp [toNat, Nat.mod_one]
  | succ w ih =>
    have hslice : slice (ofNat n) 1 = ofNat (n / 256) := by
      funext i
      rw [slice, ofNat, ofNat, Nat.add_comm, pow_succ', Nat.div_div_eq_div_mul]
    rw [toNat, hslice, ih, pow_succ', Nat.mod_mul]
    simp [ofNat]

theorem toNat_lt (w : ℕ) (b : Bytes) : toNat w b < 256 ^ w := by
  induction w generalizing b with
  | zero => simp [toNat]
  | succ w ih =>
    have h0 : (b 0).toNat < 256 := (b 0).toNat_lt
    have htail := ih (slice b 1)
    rw [toNat, pow_succ']
    omega

/-- The bytes of an `int`. -/
def ofInt (x : ℤ) : Bytes := ofNat (x % 2 ^ 32).toNat

/-- The `int` in the first four bytes. -/
def toInt (b : Bytes) : ℤ :=
  if toNat 4 b < 2 ^ 31 then toNat 4 b else (toNat 4 b : ℤ) - 2 ^ 32

theorem toInt_congr {b b' : Bytes} (h : EqTo 4 b b') : toInt b = toInt b' := by
  rw [toInt, toInt, toNat_congr h]

theorem toInt_ofInt {x : ℤ} (h : -2 ^ 31 ≤ x ∧ x < 2 ^ 31) : toInt (ofInt x) = x := by
  have hn : toNat 4 (ofInt x) = (x % 2 ^ 32).toNat := by
    rw [ofInt, toNat_ofNat]
    omega
  rw [toInt, hn]
  split_ifs <;> omega

/-- An `int` is in its range. -/
theorem toInt_mem (b : Bytes) : -2 ^ 31 ≤ toInt b ∧ toInt b < 2 ^ 31 := by
  have := toNat_lt 4 b
  unfold toInt
  split_ifs <;> omega

/-! ### Arrays of numbers -/

/-- The element `i` of the array of `int` at `off`. -/
def word (m : Bytes) (off i : ℕ) : ℤ := toInt (slice m (off + 4 * i))

/-- The array after an assignment to its element `i`. -/
def setWord (b : Bytes) (i : ℕ) (x : ℤ) : Bytes := patch b (4 * i) 4 (ofInt x)

theorem word_congr {m m' : Bytes} {off off' n i : ℕ}
    (h : EqTo n (slice m off) (slice m' off')) (hi : 4 * i + 4 ≤ n) :
    word m off i = word m' off' i := by
  refine toInt_congr fun j hj => ?_
  have := h (4 * i + j) (by omega)
  simpa [slice, Nat.add_assoc] using this

theorem word_slice (m : Bytes) (off i : ℕ) : word (slice m off) 0 i = word m off i := by
  simp only [word, Nat.zero_add]
  exact congrArg toInt (funext fun j => congrArg m (Nat.add_assoc off (4 * i) j).symm)

/-- The numbers that were written are read back. -/
theorem word_patch_self {m b : Bytes} {off n i : ℕ} (h : 4 * i + 4 ≤ n) :
    word (patch m off n b) off i = word b 0 i :=
  word_congr (by simpa using slice_patch m off n b) h

theorem word_setWord_self {b : Bytes} {i : ℕ} {x : ℤ} (h : -2 ^ 31 ≤ x ∧ x < 2 ^ 31) :
    word (setWord b i x) 0 i = x := by
  rw [word, Nat.zero_add, setWord]
  exact (toInt_congr (slice_patch b (4 * i) 4 (ofInt x))).trans (toInt_ofInt h)

theorem word_setWord_of_ne {b : Bytes} {i j : ℕ} {x : ℤ} (h : j ≠ i) :
    word (setWord b i x) 0 j = word b 0 j := by
  rw [word, word, Nat.zero_add, setWord]
  exact toInt_congr (slice_patch_of_disjoint (by omega))

/-- The array of all the elements `f i`. -/
def ofWords (f : ℕ → ℤ) : Bytes := fun a => ofInt (f (a / 4)) (a % 4)

theorem word_ofWords {f : ℕ → ℤ} {i : ℕ} (h : -2 ^ 31 ≤ f i ∧ f i < 2 ^ 31) :
    word (ofWords f) 0 i = f i := by
  have heq : EqTo 4 (slice (ofWords f) (0 + 4 * i)) (ofInt (f i)) := fun j hj => by
    rw [slice, ofWords, show (0 + 4 * i + j) / 4 = i by omega, show (0 + 4 * i + j) % 4 = j by omega]
  rw [word, toInt_congr heq, toInt_ofInt h]

/-! ### C strings -/

/-- The C string in the first `n` bytes: the bytes before the first zero. -/
def cstr (n : ℕ) (b : Bytes) : List UInt8 := ((List.range n).map b).takeWhile (· ≠ 0)

/-- The bytes of a C string with its terminating zero. -/
def ofCstr (l : List UInt8) : Bytes := fun i => l.getD i 0

theorem cstr_succ (n : ℕ) (b : Bytes) :
    cstr (n + 1) b = if b 0 = 0 then [] else b 0 :: cstr n (slice b 1) := by
  have htail : ((List.range n).map Nat.succ).map b = (List.range n).map (slice b 1) := by
    rw [List.map_map]
    refine List.map_congr_left fun i _ => ?_
    rw [Function.comp_apply, slice, Nat.succ_eq_add_one, Nat.add_comm]
  rw [cstr, List.range_succ_eq_map, List.map_cons, htail, List.takeWhile_cons, cstr]
  by_cases h : b 0 = 0 <;> simp [h]

theorem cstr_congr {n : ℕ} {b b' : Bytes} (h : EqTo n b b') : cstr n b = cstr n b' := by
  rw [cstr, cstr, List.map_congr_left fun i hi => h i (List.mem_range.1 hi)]

theorem zero_notMem_cstr (n : ℕ) (b : Bytes) : 0 ∉ cstr n b := by
  induction n generalizing b with
  | zero => exact List.not_mem_nil
  | succ n ih =>
    rw [cstr_succ]
    split_ifs with hb
    · exact List.not_mem_nil
    · exact List.mem_cons.not.2 (not_or.2 ⟨Ne.symm hb, ih _⟩)

theorem length_cstr_le (n : ℕ) (b : Bytes) : (cstr n b).length ≤ n := by
  have hle := (List.takeWhile_sublist (· ≠ 0) (l := (List.range n).map b)).length_le
  rwa [List.length_map, List.length_range] at hle

/-- A string with its terminating zero is read as it was written. -/
theorem cstr_ofCstr {l : List UInt8} {n : ℕ} {b : Bytes} (hn : l.length < n) (h0 : 0 ∉ l)
    (h : EqTo (l.length + 1) b (ofCstr l)) : cstr n b = l := by
  induction l generalizing n b with
  | nil =>
    obtain ⟨n, rfl⟩ := Nat.exists_eq_succ_of_ne_zero (Nat.ne_of_gt hn)
    have hb : b 0 = 0 := h 0 (Nat.succ_pos 0)
    rw [cstr_succ, if_pos hb]
  | cons c l ih =>
    obtain ⟨n, rfl⟩ := Nat.exists_eq_succ_of_ne_zero (Nat.ne_of_gt (Nat.zero_lt_of_lt hn))
    obtain ⟨hc, hl⟩ := not_or.1 (List.mem_cons.not.1 h0)
    have hb : b 0 = c := h 0 (Nat.succ_pos _)
    have htail : EqTo (l.length + 1) (slice b 1) (ofCstr l) := fun i hi => by
      rw [slice, Nat.add_comm, h (i + 1) (Nat.succ_lt_succ hi)]
      rfl
    rw [cstr_succ, hb, if_neg (Ne.symm hc), ih (Nat.lt_of_succ_lt_succ hn) hl htail]

/-- A string that ends before the bound is not changed by a larger one. -/
theorem cstr_of_length_lt {n n' : ℕ} {b : Bytes} (h : (cstr n b).length < n) (hn : n ≤ n') :
    cstr n' b = cstr n b := by
  induction n generalizing n' b with
  | zero => exact absurd h (Nat.not_lt_zero _)
  | succ n ih =>
    obtain ⟨n', rfl⟩ := Nat.exists_eq_succ_of_ne_zero (Nat.ne_of_gt (Nat.zero_lt_of_lt hn))
    rw [cstr_succ] at h ⊢
    rw [cstr_succ]
    split_ifs with hb
    · rfl
    · rw [if_neg hb, List.length_cons] at h
      rw [ih (Nat.lt_of_succ_lt_succ h) (Nat.le_of_succ_le_succ hn)]

/-- A string that ends before the bound is in memory with its terminating zero. -/
theorem eqTo_ofCstr {n : ℕ} {b : Bytes} (h : (cstr n b).length < n) :
    EqTo ((cstr n b).length + 1) b (ofCstr (cstr n b)) := by
  induction n generalizing b with
  | zero => exact absurd h (Nat.not_lt_zero _)
  | succ n ih =>
    rw [cstr_succ] at h ⊢
    intro i hi
    split_ifs at h hi ⊢ with hb
    · obtain rfl : i = 0 := by simpa using hi
      exact hb
    · rw [List.length_cons] at h hi
      cases i with
      | zero => rfl
      | succ i =>
        have htail := ih (Nat.lt_of_succ_lt_succ h) i (by omega)
        rw [slice, Nat.add_comm] at htail
        exact htail

end Bytes

end OperatingSystems

import OperatingSystems.Dirs.Entries
import OperatingSystems.Bytes.Basic

/-!
# Names in memory

The functions of `string.c` that move and compare names, on a memory of bytes.  The `name` of a `struct dirent`
is a field of `DIRSIZ` bytes, and a name is what stands in it before the first zero.

* `memmove`, `strncmp`, `strncpy`, `namecmp` : the code.
* `field` : the name that stands in a field.
* `memmove_eq` : **the ranges may overlap**.
* `strncmp_eq_zero_iff`, `field_strncpy`, `namecmp_strncpy` : **names are compared and copied** as a whole.
-/

namespace OperatingSystems

namespace Dirs

open Bytes

/-- The loop of `memmove` upwards -/
def copyUp (m : Bytes) (d s : ℕ) : ℕ → Bytes
  | 0 => m
  | n + 1 => copyUp (Function.update m d (m s)) (d + 1) (s + 1) n

/-- The loop of `memmove` downwards -/
def copyDown (m : Bytes) (d s : ℕ) : ℕ → Bytes
  | 0 => m
  | n + 1 => copyDown (Function.update m (d + n) (m (s + n))) d s n

/-- `memmove`, where the ranges do not reach the end of the addresses -/
def memmove (m : Bytes) (dst src n : ℕ) : Bytes :=
  if src < dst ∧ src + n > dst then copyDown m dst src n else copyUp m dst src n

/-- `strncmp` -/
def strncmp (m : Bytes) (p q : ℕ) : ℕ → ℤ
  | 0 => 0
  | n + 1 => if m p ≠ 0 ∧ m p = m q then strncmp m (p + 1) (q + 1) n else (m p).toNat - (m q).toNat

/-- The second loop of `strncpy` -/
def zero (m : Bytes) (s : ℕ) : ℕ → Bytes
  | 0 => m
  | n + 1 => zero (Function.update m s 0) (s + 1) n

/-- `strncpy` -/
def strncpy (m : Bytes) (s t : ℕ) : ℕ → Bytes
  | 0 => m
  | n + 1 =>
    if m t ≠ 0 then strncpy (Function.update m s (m t)) (s + 1) (t + 1) n
    else zero (Function.update m s (m t)) (s + 1) n

/-- `namecmp` -/
def namecmp (m : Bytes) (s t : ℕ) : ℤ := strncmp m s t DIRSIZ

/-- The name in a field of `n` bytes -/
def field (m : Bytes) (p n : ℕ) : List UInt8 := cstr n (slice m p)

variable {m m' : Bytes} {d s t p q n k : ℕ}

/-! ### Moves -/

/-- Upwards, no byte is overwritten before it is read. -/
theorem copyUp_apply (h : d ≤ s ∨ s + n ≤ d) : copyUp m d s n k = patch m d n (slice m s) k := by
  induction n generalizing m d s with
  | zero => rw [copyUp, patch, if_neg (by omega)]
  | succ n ih =>
    rw [copyUp, ih (by omega), patch, patch]
    by_cases hk : d + 1 ≤ k ∧ k < d + 1 + n
    · rw [if_pos hk, if_pos (by omega), slice, slice, Function.update_of_ne (by omega)]
      congr 1
      omega
    · rw [if_neg hk, Function.update_apply, slice]
      split_ifs with hkd hin hin
      · rw [hkd, Nat.sub_self, Nat.add_zero]
      · omega
      · omega
      · rfl

/-- Downwards, no byte is overwritten before it is read. -/
theorem copyDown_apply (h : s ≤ d) : copyDown m d s n k = patch m d n (slice m s) k := by
  induction n generalizing m with
  | zero => rw [copyDown, patch, if_neg (by omega)]
  | succ n ih =>
    rw [copyDown, ih, patch, patch]
    by_cases hk : d ≤ k ∧ k < d + n
    · rw [if_pos hk, if_pos (by omega), slice, slice, Function.update_of_ne (by omega)]
    · rw [if_neg hk, Function.update_apply, slice]
      split_ifs with hkd hin hin
      · rw [hkd, Nat.add_sub_cancel_left]
      · omega
      · omega
      · rfl

/-- **The ranges may overlap**: the target holds what the source held before, and nothing else changes. -/
theorem memmove_eq (m : Bytes) (dst src n : ℕ) : memmove m dst src n = patch m dst n (slice m src) := by
  funext k
  unfold memmove
  by_cases h : src < dst ∧ src + n > dst
  · rw [if_pos h, copyDown_apply (Nat.le_of_lt h.1)]
  · rw [if_neg h, copyUp_apply (by omega)]

/-! ### Names -/

theorem field_succ (m : Bytes) (p n : ℕ) : field m p (n + 1) = if m p = 0 then [] else m p :: field m (p + 1) n := by
  have htail : slice (slice m p) 1 = slice m (p + 1) := by
    funext i
    rw [slice, slice, slice, Nat.add_assoc]
  rw [field, cstr_succ, htail]
  rfl

theorem field_congr (h : ∀ k, p ≤ k → k < p + n → m' k = m k) : field m' p n = field m p n :=
  cstr_congr fun j hj => h (p + j) (Nat.le_add_right p j) (Nat.add_lt_add_left hj p)

/-- **Names are compared as a whole.** -/
theorem strncmp_eq_zero_iff : strncmp m p q n = 0 ↔ field m p n = field m q n := by
  induction n generalizing p q with
  | zero => exact iff_of_true rfl rfl
  | succ n ih =>
    rw [strncmp, field_succ, field_succ]
    by_cases heq : m p = m q
    · by_cases hp : m p = 0
      · rw [if_neg fun h => h.1 hp, if_pos hp, if_pos (heq ▸ hp), heq, sub_self]
        exact iff_of_true rfl rfl
      · rw [if_pos ⟨hp, heq⟩, if_neg hp, if_neg (heq ▸ hp), ih, heq, List.cons.injEq, and_iff_right rfl]
    · rw [if_neg fun h => heq h.2]
      refine iff_of_false (fun h => heq ?_) fun h => heq ?_
      · exact UInt8.toNat_inj.1 (by omega)
      · split_ifs at h with hp hq hq
        · rw [hp, hq]
        · exact (List.cons.inj h).1

theorem zero_apply : zero m s n k = if s ≤ k ∧ k < s + n then 0 else m k := by
  induction n generalizing m s with
  | zero => rw [zero, if_neg (by omega)]
  | succ n ih =>
    rw [zero, ih, Function.update_apply]
    split_ifs <;> first | rfl | omega

/-- Nothing but the field changes. -/
theorem strncpy_of_lt (hk : k < s ∨ s + n ≤ k) : strncpy m s t n k = m k := by
  induction n generalizing m s t with
  | zero => rfl
  | succ n ih =>
    rw [strncpy]
    split_ifs
    · rw [ih (by omega), Function.update_of_ne (by omega)]
    · rw [zero_apply, if_neg (by omega), Function.update_of_ne (by omega)]

/-- **A name is copied as a whole**, from outside of the field. -/
theorem field_strncpy (h : t + n ≤ s ∨ s + n ≤ t) : field (strncpy m s t n) s n = field m t n := by
  induction n generalizing m s t with
  | zero => rfl
  | succ n ih =>
    rw [strncpy, field_succ, field_succ]
    by_cases ht : m t = 0
    · have hzero : zero (Function.update m s (m t)) (s + 1) n s = 0 := by
        rw [zero_apply, if_neg fun hs => Nat.not_succ_le_self s hs.1, Function.update_self, ht]
      rw [if_neg (not_not.2 ht), hzero, if_pos rfl, if_pos ht]
    · rw [if_pos ht, strncpy_of_lt (by omega), Function.update_self, if_neg ht, if_neg ht, ih (by omega)]
      congr 1
      exact field_congr fun k hk hkn => Function.update_of_ne (by omega) ..

/-- **What is linked is found**: behind the `strncpy` of `dirlink`, the `namecmp` of `dirlookup` finds the entry
for those names that are the name of the link up to `DIRSIZ` bytes. -/
theorem namecmp_strncpy (name de : ℕ) (hname : name + DIRSIZ ≤ de ∨ de + DIRSIZ ≤ name)
    (hp : p + DIRSIZ ≤ de ∨ de + DIRSIZ ≤ p) :
    namecmp (strncpy m de name DIRSIZ) p de = 0 ↔ field m p DIRSIZ = field m name DIRSIZ := by
  rw [namecmp, strncmp_eq_zero_iff, field_strncpy hname]
  have hsame : field (strncpy m de name DIRSIZ) p DIRSIZ = field m p DIRSIZ :=
    field_congr fun k hk hkn => strncpy_of_lt (by omega)
  rw [hsame]

/-- The name `a` at 0 and at 28 -/
def twoNames : Bytes := fun k => if k = 0 ∨ k = 28 then 97 else 0

theorem namecmp_strncpy_apart : namecmp (strncpy twoNames 14 0 DIRSIZ) 28 14 = 0 :=
  (namecmp_strncpy 0 14 (by decide) (by decide)).2 rfl

end Dirs

end OperatingSystems

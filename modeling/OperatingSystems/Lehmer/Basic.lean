import Mathlib.NumberTheory.LucasLehmer

/-!
# Lehmer generators

A multiplicative congruential generator multiplies its last number by a fixed `c` and reduces the
product modulo a fixed `m`.  If `m` is the Mersenne number `2 ^ (a + b) - 1`, there is no need for the
whole product or for a division: the number is cut into its lowest `a` bits and the rest, both pieces
are multiplied, and the bits of the upper product beyond `b` come back at the lower end.

* `next` : the next number.
* `next_mem` : with `c` and `m` coprime, it is never zero.
* `iterate_next` : the `n`-th number.
* `folded` : the pieces put together, and `folded_modEq`, `folded_lt` about them.
* `reduce_folded` : **the pieces and one conditional subtraction compute the next number**.
-/

namespace OperatingSystems

namespace Lehmer

variable {a b c m x y : ℕ}

/-- The number after `x`. -/
def next (c m x : ℕ) : ℕ := c * x % m

/-- The lower product and the two parts of the upper one. -/
def folded (a b hi lo : ℕ) : ℕ := lo + hi % 2 ^ b * 2 ^ a + hi / 2 ^ b

/-- At most one subtraction of `m`. -/
def reduce (m y : ℕ) : ℕ := if m < y then y - m else y

theorem not_dvd_mul (hc : c.Coprime m) (hx : x ∈ Set.Ioo 0 m) : ¬ m ∣ c * x := by
  intro h
  have hle := Nat.le_of_dvd hx.1 (hc.symm.dvd_of_dvd_mul_left h)
  exact absurd hx.2 (not_lt.2 hle)

theorem next_mem (hc : c.Coprime m) (hx : x ∈ Set.Ioo 0 m) : next c m x ∈ Set.Ioo 0 m := by
  have hm : 0 < m := lt_trans hx.1 hx.2
  refine ⟨Nat.pos_of_ne_zero fun h => not_dvd_mul hc hx ?_, Nat.mod_lt _ hm⟩
  exact Nat.dvd_of_mod_eq_zero h

theorem iterate_next_mem (hc : c.Coprime m) (hx : x ∈ Set.Ioo 0 m) (n : ℕ) :
    (next c m)^[n] x ∈ Set.Ioo 0 m := by
  induction n with
  | zero => exact hx
  | succ n ih =>
    rw [Function.iterate_succ_apply']
    exact next_mem hc ih

theorem iterate_next (hx : x < m) (n : ℕ) : (next c m)^[n] x = c ^ n * x % m := by
  induction n with
  | zero => rw [Function.iterate_zero, id, pow_zero, one_mul, Nat.mod_eq_of_lt hx]
  | succ n ih => rw [Function.iterate_succ_apply', ih, next, Nat.mul_mod_mod, ← mul_assoc, pow_succ']

theorem folded_modEq (a b hi lo : ℕ) : folded a b hi lo ≡ hi * 2 ^ a + lo [MOD 2 ^ (a + b) - 1] := by
  have hsplit : hi * 2 ^ a = hi / 2 ^ b * 2 ^ (a + b) + hi % 2 ^ b * 2 ^ a := by
    conv_lhs => rw [← Nat.div_add_mod hi (2 ^ b)]
    ring
  have hone : 2 ^ (a + b) ≡ 1 [MOD 2 ^ (a + b) - 1] := Nat.modEq_sub (Nat.one_le_two_pow)
  calc folded a b hi lo
    _ = hi / 2 ^ b * 1 + hi % 2 ^ b * 2 ^ a + lo := by rw [folded]; ring
    _ ≡ hi / 2 ^ b * 2 ^ (a + b) + hi % 2 ^ b * 2 ^ a + lo [MOD 2 ^ (a + b) - 1] :=
      ((hone.symm.mul_left _).add_right _).add_right _
    _ = hi * 2 ^ a + lo := by rw [hsplit]

/-- The pieces of `x` make up the product. -/
theorem folded_mul_modEq (a b c x : ℕ) :
    folded a b (c * (x / 2 ^ a)) (c * (x % 2 ^ a)) ≡ c * x [MOD 2 ^ (a + b) - 1] := by
  have hx : c * (x / 2 ^ a) * 2 ^ a + c * (x % 2 ^ a) = c * x := by
    conv_rhs => rw [← Nat.div_add_mod x (2 ^ a)]
    ring
  exact hx ▸ folded_modEq a b _ _

theorem mul_div_lt (hx : x < 2 ^ (a + b)) (hpos : 0 < c) : c * (x / 2 ^ a) / 2 ^ b < c := by
  rw [Nat.div_lt_iff_lt_mul (by positivity)]
  have hhi : x / 2 ^ a < 2 ^ b := by
    rw [Nat.div_lt_iff_lt_mul (by positivity), mul_comm, ← pow_add]
    exact hx
  exact Nat.mul_lt_mul_of_pos_left hhi hpos

/-- The pieces need one subtraction at most. -/
theorem folded_lt (hpos : 0 < c) (hc : c < 2 ^ b) (hx : x < 2 ^ (a + b)) :
    folded a b (c * (x / 2 ^ a)) (c * (x % 2 ^ a)) < 2 * (2 ^ (a + b) - 1) := by
  have hlo : c * (x % 2 ^ a) ≤ (2 ^ b - 1) * (2 ^ a - 1) :=
    Nat.mul_le_mul (Nat.le_sub_one_of_lt hc) (Nat.le_sub_one_of_lt (Nat.mod_lt _ (by positivity)))
  have hmid : c * (x / 2 ^ a) % 2 ^ b * 2 ^ a ≤ (2 ^ b - 1) * 2 ^ a :=
    Nat.mul_le_mul_right _ (Nat.le_sub_one_of_lt (Nat.mod_lt _ (by positivity)))
  have htop := mul_div_lt hx hpos
  obtain ⟨p, hp⟩ : ∃ p, 2 ^ a = p + 1 := ⟨2 ^ a - 1, by have := Nat.one_le_two_pow (n := a); omega⟩
  obtain ⟨q, hq⟩ : ∃ q, 2 ^ b = q + 1 := ⟨2 ^ b - 1, by have := Nat.one_le_two_pow (n := b); omega⟩
  have hpow : 2 ^ (a + b) = p * q + p + q + 1 := by rw [pow_add, hp, hq]; ring
  rw [hp, hq, Nat.add_sub_cancel] at hlo
  rw [Nat.add_sub_cancel] at hlo
  rw [hp, hq, Nat.add_sub_cancel] at hmid
  rw [hpow, Nat.add_sub_cancel, folded, hp, hq]
  rw [hp, hq] at htop
  have := mul_comm p q
  have := mul_add q p 1
  omega

theorem reduce_eq_mod (hy : y < 2 * m) (hne : ¬ m ∣ y) : reduce m y = y % m := by
  unfold reduce
  split
  next hlt => rw [Nat.mod_eq_sub_mod hlt.le, Nat.mod_eq_of_lt (by omega)]
  next hle =>
    have : y ≠ m := fun h => hne (h ▸ dvd_rfl)
    rw [Nat.mod_eq_of_lt (by omega)]

/-- **The pieces compute the next number.** -/
theorem reduce_folded (hcop : c.Coprime (2 ^ (a + b) - 1)) (hpos : 0 < c) (hc : c < 2 ^ b)
    (hx : x ∈ Set.Ioo 0 (2 ^ (a + b) - 1)) :
    reduce (2 ^ (a + b) - 1) (folded a b (c * (x / 2 ^ a)) (c * (x % 2 ^ a))) =
      next c (2 ^ (a + b) - 1) x := by
  have hmod := folded_mul_modEq a b c x
  rw [reduce_eq_mod (folded_lt hpos hc (by have := hx.2; omega)), next, hmod]
  intro h
  exact not_dvd_mul hcop hx ((hmod.dvd_iff dvd_rfl).1 h)

end Lehmer

end OperatingSystems

import Mathlib.Data.Nat.ModEq
import Mathlib.Logic.Function.Basic

/-!
# Queues between two running counters

A queue in `size` cells, with a counter of what was taken out and one of what was put in.  The counters
never go back to the start of the cells by themselves: they run modulo `m`, which `size` divides, and the
cell of a counter is its remainder.

* `Fits m size` : the counters go around the cells evenly, and tell a full queue from an empty one.
* `Holds m size data r w q` : the cells from the counter `r` up to the counter `w` hold the queue `q`.
* `Holds.empty_iff`, `Holds.full_iff`, `Holds.length` : what the counters say.
* `Holds.push`, `Holds.pop`, `Holds.dropLast` : the edits at both ends.
-/

namespace OperatingSystems

namespace Queues

/-- The counters go around the cells evenly, and tell a full queue from an empty one. -/
structure Fits (m size : ℕ) : Prop where
  pos : 0 < size
  dvd : size ∣ m
  lt : size < m

/-- The cells from the counter `r` up to the counter `w` hold the queue. -/
structure Holds {α : Type*} (m size : ℕ) (data : ℕ → α) (r w : ℕ) (q : List α) : Prop where
  lt : r < m
  back : w = (r + q.length) % m
  room : q.length ≤ size
  cell : ∀ i x, q[i]? = some x → data ((r + i) % size) = x

variable {α : Type*} {m size r w : ℕ} {data : ℕ → α} {q : List α} {x : α}

theorem Holds.empty (hm : r < m) : Holds m size data r r [] where
  lt := hm
  back := by rw [List.length_nil, Nat.add_zero, Nat.mod_eq_of_lt hm]
  room := Nat.zero_le _
  cell i x hx := by simp at hx

/-- The sum of a counter and a short distance, without the modulus -/
theorem add_mod_eq {r d m : ℕ} (hr : r < m) (hd : d < m) :
    (r + d) % m = if r + d < m then r + d else r + d - m := by
  split_ifs with h
  · exact Nat.mod_eq_of_lt h
  · rw [Nat.mod_eq_sub_mod (by omega), Nat.mod_eq_of_lt (by omega)]

/-- Different distances that fit into the cells lead to different cells. -/
theorem mod_ne_of_lt {r i j size : ℕ} (hij : i < j) (hj : j < i + size) :
    (r + i) % size ≠ (r + j) % size := by
  intro heq
  have hdvd : size ∣ r + j - (r + i) := (Nat.modEq_iff_dvd' (by omega)).1 heq
  have hle := Nat.le_of_dvd (by omega) hdvd
  omega

namespace Holds

variable (hf : Fits m size) (h : Holds m size data r w q)

include h

theorem back_lt : w < m := by
  rw [h.back]
  exact Nat.mod_lt _ (Nat.zero_lt_of_lt h.lt)

include hf

/-- Where the counter behind the queue is, without the modulus -/
theorem back_eq : w = if r + q.length < m then r + q.length else r + q.length - m := by
  rw [← add_mod_eq h.lt (h.room.trans_lt hf.lt)]
  exact h.back

theorem empty_iff : r = w ↔ q = [] := by
  have hback := h.back_eq hf
  have hlt := h.lt
  have hroom := h.room
  have hsize := hf.lt
  rw [← List.length_eq_zero_iff]
  split_ifs at hback <;> omega

theorem full_iff : w = (r + size) % m ↔ q.length = size := by
  have hback := h.back_eq hf
  have hlt := h.lt
  have hroom := h.room
  have hsize := hf.lt
  rw [add_mod_eq hlt hsize]
  split_ifs at hback ⊢ <;> omega

/-- The difference of the counters is the length. -/
theorem length : (w + m - r) % m = q.length := by
  have hback := h.back_eq hf
  have hlt := h.lt
  have hlen := h.room.trans_lt hf.lt
  split_ifs at hback with hsum
  · rw [show w + m - r = q.length + m by omega, Nat.add_mod_right, Nat.mod_eq_of_lt hlen]
  · rw [show w + m - r = q.length by omega, Nat.mod_eq_of_lt hlen]

/-- The cell of the counter behind the queue -/
theorem back_cell : w % size = (r + q.length) % size := by
  rw [h.back, Nat.mod_mod_of_dvd _ hf.dvd]

/-- **One more at the end.** -/
theorem push (hlen : q.length < size) (x : α) :
    Holds m size (Function.update data (w % size) x) r ((w + 1) % m) (q ++ [x]) where
  lt := h.lt
  back := by rw [h.back, Nat.mod_add_mod, List.length_append, List.length_singleton, Nat.add_assoc]
  room := by
    rw [List.length_append, List.length_singleton]
    exact hlen
  cell i y hy := by
    obtain hi | rfl | hi := Nat.lt_trichotomy i q.length
    · rw [List.getElem?_append_left hi] at hy
      rw [h.back_cell hf, Function.update_of_ne (mod_ne_of_lt hi (by omega)), h.cell i y hy]
    · rw [List.getElem?_concat_length] at hy
      rw [h.back_cell hf, Function.update_self, Option.some.inj hy]
    · rw [List.getElem?_eq_none (by rw [List.length_append, List.length_singleton]; omega)] at hy
      cases hy

/-- The counter before the end -/
theorem back_pred {q' : List α} (hq : q = q' ++ [x]) : (w + m - 1) % m = (r + q'.length) % m := by
  subst hq
  have hback := h.back_eq hf
  have hlt := h.lt
  have hlen := h.room.trans_lt hf.lt
  rw [List.length_append, List.length_singleton] at hback hlen
  rw [add_mod_eq hlt (by omega)]
  split_ifs at hback ⊢ with hsum hsum'
  · rw [show w + m - 1 = r + q'.length + m by omega, Nat.add_mod_right, Nat.mod_eq_of_lt hsum]
  · -- the counter has just gone back to zero
    rw [show w + m - 1 = r + q'.length by omega, Nat.mod_eq_of_lt hsum]
  · omega
  · rw [show w + m - 1 = r + q'.length - m + m by omega, Nat.add_mod_right, Nat.mod_eq_of_lt (by omega)]

/-- The last one is in the cell before the counter. -/
theorem last_cell {q' : List α} (hq : q = q' ++ [x]) : data ((w + m - 1) % m % size) = x := by
  rw [h.back_pred hf hq, Nat.mod_mod_of_dvd _ hf.dvd]
  exact h.cell q'.length x (by rw [hq, List.getElem?_concat_length])

/-- **One less at the end.** -/
theorem dropLast {q' : List α} (hq : q = q' ++ [x]) : Holds m size data r ((w + m - 1) % m) q' where
  lt := h.lt
  back := h.back_pred hf hq
  room := by
    have hroom := h.room
    rw [hq, List.length_append] at hroom
    omega
  cell i y hy := by
    have hi := (List.getElem?_eq_some_iff.1 hy).1
    exact h.cell i y (by rw [hq, List.getElem?_append_left hi, hy])

end Holds

/-- The first one is in the cell of the first counter. -/
theorem Holds.first_cell (h : Holds m size data r w (x :: q)) : data (r % size) = x := by
  have hfirst := h.cell 0 x rfl
  rwa [Nat.add_zero] at hfirst

/-- **The first one is taken out.** -/
theorem Holds.pop (hf : Fits m size) (h : Holds m size data r w (x :: q)) :
    Holds m size data ((r + 1) % m) w q where
  lt := Nat.mod_lt _ (Nat.zero_lt_of_lt h.lt)
  back := by rw [h.back, Nat.mod_add_mod, List.length_cons, Nat.add_assoc, Nat.add_comm 1]
  room := (Nat.le_succ _).trans h.room
  cell i y hy := by
    have hcell := h.cell (i + 1) y hy
    rw [← Nat.mod_mod_of_dvd _ hf.dvd, Nat.mod_add_mod, Nat.mod_mod_of_dvd _ hf.dvd, Nat.add_assoc,
      Nat.add_comm 1]
    exact hcell

end Queues

end OperatingSystems

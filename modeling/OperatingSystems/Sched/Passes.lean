import OperatingSystems.Sched.Lottery

/-!
# Passes with something to run

`settickets` refuses numbers below one, so that each process has a ticket.  But the sum of the tickets
of a queue is kept in 32 bits: three processes are enough for it to be a multiple of `2 ^ 32`, and then
`scheduler` divides by zero.  Otherwise it always finds a winner, also when the sum has overflowed: the
last value of `counter` is the sum, which exceeds its remainders.

* `Selects` : a pass divides by a number other than zero and runs a process, if one is runnable.
* `TicketsLeft` : the sum of the tickets is not a multiple of `2 ^ 32`.
* `always_selects_iff` : **the passes of a run all select if and only if there are always tickets left**.
* `divides_by_zero` : three processes with `2 ^ 32` tickets.
-/

namespace OperatingSystems

namespace Sched

open Kernel

/-- If a process is runnable, a pass on any CPU divides by a number other than zero, and runs a process
of the queue that draws. -/
def Selects (k : Kernel) : Prop := (∃ p, (k.proc p).state = .runnable) →
  toUint (k.tickets k.chosen) ≠ 0 ∧ ∀ c, ∃ p ∈ k.chosen, k.scheduler c =
    some ({ k with rnd_seed := rand_int k.rnd_seed }.start c p)

/-- If a process is runnable, the sum of the tickets of the queue that draws is not a multiple of
`2 ^ 32`. -/
def TicketsLeft (k : Kernel) : Prop := (∃ p, (k.proc p).state = .runnable) →
  ¬ (2 ^ 32 : ℤ) ∣ (k.chosen.map fun p => (k.proc p).numTickets).sum

variable {k : Kernel} {ps : List Slot} {winner counter : ℕ}

theorem cast_toUint (x : ℤ) : (toUint x : ℤ) = x % 2 ^ 32 := by
  unfold toUint
  omega

theorem toInt_emod (x : ℤ) : toInt x % 2 ^ 32 = x % 2 ^ 32 := by
  rw [toInt, Int.bmod_def]
  split_ifs <;> omega

/-- The sum that the loop computes. -/
theorem foldl_tickets_emod (n : ℤ) :
    ps.foldl (fun n p => toInt (n + (k.proc p).numTickets)) n % 2 ^ 32 =
      (n + (ps.map fun p => (k.proc p).numTickets).sum) % 2 ^ 32 := by
  induction ps generalizing n with
  | nil => simp
  | cons p ps ih =>
    rw [List.foldl_cons, ih, List.map_cons, List.sum_cons, ← add_assoc, Int.add_emod, toInt_emod,
      ← Int.add_emod]

theorem tickets_emod (k : Kernel) (ps : List Slot) :
    k.tickets ps % 2 ^ 32 = (ps.map fun p => (k.proc p).numTickets).sum % 2 ^ 32 := by
  rw [tickets, foldl_tickets_emod, zero_add]

theorem toUint_tickets_eq_zero_iff : toUint (k.tickets ps) = 0 ↔
    (2 ^ 32 : ℤ) ∣ (ps.map fun p => (k.proc p).numTickets).sum := by
  have := tickets_emod k ps
  have := cast_toUint (k.tickets ps)
  omega

/-- The last value of `counter`. -/
theorem sum_toUint_mod (k : Kernel) (ps : List Slot) :
    (ps.map fun p => toUint (k.proc p).numTickets).sum % 2 ^ 32 = toUint (k.tickets ps) := by
  have hsum : (((ps.map fun p => toUint (k.proc p).numTickets).sum : ℕ) : ℤ) % 2 ^ 32 =
      (ps.map fun p => (k.proc p).numTickets).sum % 2 ^ 32 := by
    induction ps with
    | nil => rfl
    | cons p ps ih =>
      have := cast_toUint (k.proc p).numTickets
      simp only [List.map_cons, List.sum_cons, Int.natCast_add]
      omega
  have := tickets_emod k ps
  have := cast_toUint (k.tickets ps)
  omega

/-- The loop ends at a process if the last value of `counter` exceeds `winner`. -/
theorem pick_isSome (hle : counter ≤ winner)
    (h : winner < (counter + (ps.map fun p => toUint (k.proc p).numTickets).sum) % 2 ^ 32) :
    (k.pick winner counter ps).isSome := by
  induction ps generalizing counter with
  | nil =>
    rw [List.map_nil, List.sum_nil] at h
    omega
  | cons p ps ih =>
    rw [pick]
    split_ifs with hgt
    · rfl
    · refine ih (not_lt.1 hgt) ?_
      rw [List.map_cons, List.sum_cons] at h
      omega

/-- A queue with tickets draws one of its processes. -/
theorem draw_of_tickets (h : toUint (k.tickets ps) ≠ 0) : ∃ p ∈ ps,
    k.draw ps = some ({ k with rnd_seed := rand_int k.rnd_seed }, some p) := by
  have hsome : (k.pick (toUint (rand_int k.rnd_seed) % toUint (k.tickets ps)) 0 ps).isSome := by
    refine pick_isSome (Nat.zero_le _) ?_
    rw [zero_add, sum_toUint_mod]
    exact Nat.mod_lt _ (Nat.pos_of_ne_zero h)
  obtain ⟨p, hp⟩ := Option.isSome_iff_exists.1 hsome
  refine ⟨p, mem_of_pick hp, ?_⟩
  unfold draw
  simp only [if_neg h, hp]

/-- **When a pass selects.** -/
theorem selects_iff : Selects k ↔ TicketsLeft k := by
  refine forall_congr' fun hrun => ?_
  rw [← toUint_tickets_eq_zero_iff]
  refine and_iff_left_of_imp fun h c => ?_
  obtain ⟨q, hq⟩ := hrun
  obtain ⟨p, hp, hdraw⟩ := draw_of_tickets h
  refine ⟨p, hp, ?_⟩
  rw [scheduler_eq, if_pos (chosen_ne_nil hq), hdraw]
  rfl

/-- **The scheduler never divides by zero or idles** in a run if and only if in all of its states the
tickets of the queue that draws do not add up to a multiple of `2 ^ 32`. -/
theorem always_selects_iff (ls : List Label) :
    kernel.Always Selects userinit ls ↔ kernel.Always TicketsLeft userinit ls := by
  have heq : Selects = TicketsLeft := funext fun _ => propext selects_iff
  rw [heq]

/-- The first process starts two others, and they share `2 ^ 32` tickets. -/
def overflow : List Label :=
  [.boot 0, .schedule 0, .fork 0 true, .fork 0 true, .settickets 0 (2 ^ 31 - 1), .sleep 0 (some 5),
    .schedule 0, .settickets 0 (2 ^ 31 - 1), .sleep 0 (some 5),
    .schedule 0, .settickets 0 2, .sleep 0 (some 5), .wakeup 5]

/-- **A division by zero**, although every process has tickets. -/
theorem divides_by_zero : ∃ k, kernel.run userinit overflow = some k ∧
    (k.proc 0).state = .runnable ∧ k.scheduler 0 = none ∧
    ¬ kernel.Always Selects userinit overflow := by
  have hrun : (kernel.run userinit overflow).map (fun k =>
      (decide ((k.proc 0).state = .runnable), toUint (k.tickets k.chosen),
        (k.scheduler 0).isNone)) = some (true, 0, true) := by decide +kernel
  obtain ⟨k, hk, hfields⟩ := Option.map_eq_some_iff.1 hrun
  simp only [Prod.mk.injEq, decide_eq_true_eq, Option.isNone_iff_eq_none] at hfields
  obtain ⟨hstate, hzero, hnone⟩ := hfields
  exact ⟨k, hk, hstate, hnone, fun h => (h.of_run hk ⟨0, hstate⟩).1 hzero⟩

end Sched

end OperatingSystems

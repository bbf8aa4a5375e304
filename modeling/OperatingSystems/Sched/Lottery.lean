import OperatingSystems.Weights.Basic
import OperatingSystems.Sched.Running

/-!
# The lottery

One pass of `scheduler` puts the runnable processes into two arrays, adds up their tickets, and looks
for the first process at which the sum of the tickets so far exceeds the random number, modulo the
sum of all.  The arithmetic of the code is that of `int` and `unsigned int`; as long as the sums fit
into an `int` it is a draw from a list with weights.

* `Ticketed` : every runnable process has a ticket, and the sums fit into an `int`.
* `chosen` : the queue that draws.
* `pick_eq_draw` : the loop for the winner is a draw.
* `scheduler_fair` : **the lottery is fair and total**.
-/

namespace OperatingSystems

namespace Sched

open Weights

namespace Kernel

variable {k : Kernel} {p q : Slot} {ps : List Slot}

/-- The tickets of the runnable processes are positive, and the sum for each queue fits into an
`int`. -/
structure Ticketed (k : Kernel) : Prop where
  pos : ∀ p, (k.proc p).state = .runnable → 1 ≤ (k.proc p).numTickets
  sum_lt : ∀ high, ((k.queued high).map fun p => (k.proc p).numTickets).sum < 2 ^ 31

/-- The queue that draws: the low one only if the high one is empty. -/
def chosen (k : Kernel) : List Slot := if k.queued true ≠ [] then k.queued true else k.queued false

/-- The number of tickets of a process. -/
def weight (k : Kernel) (p : Slot) : ℕ := (k.proc p).numTickets.toNat

/-- The sum of the tickets in the queue that draws. -/
def total (k : Kernel) : ℕ := (k.chosen.map k.weight).sum

/-- What a pass of `scheduler` on the CPU `c` does to the winner. -/
def start (k : Kernel) (c : ℕ) (p : Slot) : Kernel :=
  (k.setProc p fun q =>
    { q with numTimeRun := toInt (q.numTimeRun + 1), state := .running }).setCpu c (.run p)

/-! ### Queues -/

theorem mem_queued {high : Bool} : p ∈ k.queued high ↔
    (k.proc p).state = .runnable ∧ (decide ((k.proc p).queue = 1) = high) := by
  simp [queued]

theorem nodup_queued (k : Kernel) (high : Bool) : (k.queued high).Nodup :=
  (List.nodup_finRange NPROC).filter _

theorem chosen_eq (k : Kernel) : ∃ high, k.chosen = k.queued high := by
  unfold chosen
  split_ifs
  · exact ⟨true, rfl⟩
  · exact ⟨false, rfl⟩

/-- A queue draws if there is a runnable process. -/
theorem chosen_ne_nil (hp : (k.proc p).state = .runnable) : k.chosen ≠ [] := by
  have hmem : p ∈ k.queued (decide ((k.proc p).queue = 1)) := mem_queued.2 ⟨hp, rfl⟩
  unfold chosen
  split_ifs with hhigh
  · exact hhigh
  · rintro hlow
    cases hq : decide ((k.proc p).queue = 1) <;> rw [hq] at hmem
    · rw [hlow] at hmem; cases hmem
    · rw [not_ne_iff.1 hhigh] at hmem; cases hmem

/-- While the high queue is not empty, nobody of the low one wins. -/
theorem queue_of_mem_chosen (hp : p ∈ k.chosen) (hq : (k.proc q).state = .runnable)
    (hhigh : (k.proc q).queue = 1) : (k.proc p).queue = 1 := by
  have hne : k.queued true ≠ [] :=
    List.ne_nil_of_mem (mem_queued.2 ⟨hq, decide_eq_true hhigh⟩)
  rw [chosen, if_pos hne] at hp
  exact of_decide_eq_true (mem_queued.1 hp).2

/-! ### Sums -/

/-- A positive number of tickets is what the unsigned addition sees. -/
theorem toUint_numTickets (hpos : 1 ≤ (k.proc p).numTickets)
    (hlt : (k.proc p).numTickets < 2 ^ 31) : toUint (k.proc p).numTickets = k.weight p := by
  unfold toUint weight
  omega

theorem cast_sum_weight (hpos : ∀ p ∈ ps, 1 ≤ (k.proc p).numTickets) :
    ((ps.map k.weight).sum : ℤ) = (ps.map fun p => (k.proc p).numTickets).sum := by
  induction ps with
  | nil => rfl
  | cons p ps ih =>
    have hp := hpos p List.mem_cons_self
    simp only [List.map_cons, List.sum_cons, Int.natCast_add, weight]
    rw [← ih fun q hq => hpos q (List.mem_cons_of_mem p hq)]
    omega

/-- No addition of tickets overflows. -/
theorem foldl_tickets {n : ℤ} (hn : 0 ≤ n) (hpos : ∀ p ∈ ps, 1 ≤ (k.proc p).numTickets)
    (hsum : n + (ps.map k.weight).sum < 2 ^ 31) :
    ps.foldl (fun n p => toInt (n + (k.proc p).numTickets)) n = n + (ps.map k.weight).sum := by
  induction ps generalizing n with
  | nil => simp
  | cons p ps ih =>
    have hp := hpos p List.mem_cons_self
    have hps := fun q hq => hpos q (List.mem_cons_of_mem p hq)
    rw [List.map_cons, List.sum_cons, Int.natCast_add] at hsum ⊢
    have hw : (k.weight p : ℤ) = (k.proc p).numTickets := by unfold weight; omega
    have hint : toInt (n + (k.proc p).numTickets) = n + (k.proc p).numTickets := by
      unfold toInt
      exact Int.bmod_eq_of_le (by omega) (by omega)
    rw [List.foldl_cons, hint, ih (by omega) hps (by omega), hw, add_assoc]

/-- **The loop for the winner** draws from the queue. -/
theorem pick_eq_draw {winner counter : ℕ} (hpos : ∀ p ∈ ps, 1 ≤ (k.proc p).numTickets)
    (hle : counter ≤ winner) (hsum : counter + (ps.map k.weight).sum < 2 ^ 31) :
    k.pick winner counter ps = Weights.draw k.weight (winner - counter) ps := by
  induction ps generalizing counter with
  | nil => rfl
  | cons p ps ih =>
    have hp := hpos p List.mem_cons_self
    rw [List.map_cons, List.sum_cons] at hsum
    have hlt : (k.proc p).numTickets < 2 ^ 31 := by
      have : (k.weight p : ℤ) = (k.proc p).numTickets := by unfold weight; omega
      omega
    have hmod : (counter + k.weight p) % 2 ^ 32 = counter + k.weight p :=
      Nat.mod_eq_of_lt (by omega)
    rw [pick, Weights.draw, toUint_numTickets hp hlt, hmod]
    split_ifs with h h' h'
    · rfl
    · omega
    · omega
    · rw [ih (fun q hq => hpos q (List.mem_cons_of_mem p hq)) (by omega) (by omega)]
      congr 1
      omega

/-! ### One pass -/

theorem Ticketed.pos_chosen (h : Ticketed k) : ∀ p ∈ k.chosen, 1 ≤ (k.proc p).numTickets := by
  obtain ⟨high, hc⟩ := k.chosen_eq
  intro p hp
  rw [hc] at hp
  exact h.pos p (mem_queued.1 hp).1

theorem Ticketed.total_lt (h : Ticketed k) : k.total < 2 ^ 31 := by
  obtain ⟨high, hc⟩ := k.chosen_eq
  have hsum := h.sum_lt high
  rw [← hc, ← cast_sum_weight h.pos_chosen] at hsum
  unfold total
  omega

theorem Ticketed.total_pos (h : Ticketed k) (hne : k.chosen ≠ []) : 0 < k.total := by
  obtain ⟨p, hp⟩ := List.exists_mem_of_ne_nil _ hne
  have hle := before_add_le (w := k.weight) hp
  have hpos := h.pos_chosen p hp
  have hw : (k.weight p : ℤ) = (k.proc p).numTickets := by unfold weight; omega
  unfold total
  omega

theorem Ticketed.toUint_tickets (h : Ticketed k) : toUint (k.tickets k.chosen) = k.total := by
  have hlt : (0 : ℤ) + (k.chosen.map k.weight).sum < 2 ^ 31 := by
    have := h.total_lt
    unfold total at this
    omega
  have hsum : k.tickets k.chosen = (k.total : ℤ) := by
    unfold tickets total
    rw [foldl_tickets le_rfl h.pos_chosen hlt, zero_add]
  have := h.total_lt
  rw [hsum]
  unfold toUint
  omega

theorem Ticketed.pick_chosen (h : Ticketed k) (n : ℕ) :
    k.pick n 0 k.chosen = Weights.draw k.weight n k.chosen := by
  have hlt := h.total_lt
  unfold total at hlt
  rw [pick_eq_draw h.pos_chosen (Nat.zero_le n) (by omega), Nat.sub_zero]

/-- The queue draws the ticket that the random number falls on. -/
theorem Ticketed.draw_chosen (h : Ticketed k) (hne : k.chosen ≠ []) :
    k.draw k.chosen = some ({ k with rnd_seed := rand_int k.rnd_seed },
      Weights.draw k.weight (toUint (rand_int k.rnd_seed) % k.total) k.chosen) := by
  have hpos := h.total_pos hne
  unfold Kernel.draw
  simp only [h.toUint_tickets, if_neg hpos.ne', h.pick_chosen]

/-- A pass draws from the chosen queue, if there is a runnable process. -/
theorem scheduler_eq (k : Kernel) (c : ℕ) : k.scheduler c =
    (if k.chosen ≠ [] then k.draw k.chosen else some (k, none)).map fun (k, winP) =>
      match winP with
      | none => k
      | some p => k.start c p := by
  unfold scheduler chosen
  by_cases hhigh : k.queued true = [] <;> by_cases hlow : k.queued false = [] <;>
    simp only [hhigh, hlow, ne_eq, not_true_eq_false, not_false_eq_true, if_true, if_false] <;> rfl

end Kernel

open Kernel

/-- **The lottery is fair and total.**  For every process table whose runnable processes have tickets,
with a sum for each queue that fits into an `int`, a pass of `scheduler` runs a process if one is
runnable, and changes nothing if none is.  The process is the only one of the chosen queue with the
random number, modulo the sum of the tickets, in its interval, and not of the low queue if one of the
high queue is runnable.  Its `numTimeRun` is incremented, and every process of the queue wins for as
many of the residues as it has tickets. -/
theorem scheduler_fair {k : Kernel} (h : Ticketed k) (c : ℕ) :
    ((∀ p, (k.proc p).state ≠ .runnable) → k.scheduler c = some k) ∧
    ((∃ p, (k.proc p).state = .runnable) → ∃ p k', k.scheduler c = some k' ∧
      (k.proc p).state = .runnable ∧
      (∀ q, (k.proc q).state = .runnable → (k.proc q).queue = 1 → (k.proc p).queue = 1) ∧
      (∀ q, q = p ↔ q ∈ k.chosen ∧
        before k.weight k.chosen q ≤ toUint (rand_int k.rnd_seed) % k.total ∧
        toUint (rand_int k.rnd_seed) % k.total < before k.weight k.chosen q + k.weight q) ∧
      k' = { k with rnd_seed := rand_int k.rnd_seed }.start c p ∧
      (-2 ^ 31 ≤ (k.proc p).numTimeRun → (k.proc p).numTimeRun < 2 ^ 31 - 1 →
        (k'.proc p).numTimeRun = (k.proc p).numTimeRun + 1)) ∧
    ∀ p ∈ k.chosen, (((Finset.range k.total).filter fun n =>
      k.pick n 0 k.chosen = some p).card : ℤ) = (k.proc p).numTickets := by
  obtain ⟨high, hchosen⟩ := k.chosen_eq
  have hnodup : k.chosen.Nodup := hchosen ▸ nodup_queued k high
  refine ⟨fun hnone => ?_, fun ⟨q, hq⟩ => ?_, fun p hp => ?_⟩
  · have hnil : k.chosen = [] := by
      refine List.eq_nil_iff_forall_not_mem.2 fun p hp => ?_
      rw [hchosen] at hp
      exact hnone p (mem_queued.1 hp).1
    rw [scheduler_eq, if_neg (not_not.2 hnil)]
    rfl
  · have hne := chosen_ne_nil hq
    -- the number that is drawn is below the sum of the tickets
    have hlt : toUint (rand_int k.rnd_seed) % k.total < k.total := Nat.mod_lt _ (h.total_pos hne)
    obtain ⟨p, hp⟩ := Option.isSome_iff_exists.1 (draw_isSome_iff.2 hlt)
    have hmem := mem_of_draw hp
    refine ⟨p, _, ?_, ?_, fun q hq hhigh => queue_of_mem_chosen hmem hq hhigh, fun q => ?_, rfl, ?_⟩
    · rw [scheduler_eq, if_pos hne, h.draw_chosen hne, hp]
      rfl
    · rw [hchosen] at hmem
      exact (mem_queued.1 hmem).1
    · rw [← draw_eq_some_iff hnodup, hp, Option.some.injEq, eq_comm]
    · intro hlo hhi
      have : toInt ((k.proc p).numTimeRun + 1) = (k.proc p).numTimeRun + 1 := by
        unfold toInt
        exact Int.bmod_eq_of_le (by omega) (by omega)
      simpa [start] using this
  · have hpos := h.pos_chosen p hp
    simp only [h.pick_chosen]
    unfold total
    rw [card_draw hnodup hp]
    unfold weight
    omega

/-- Two processes of the high queue, with two tickets and three, and one of the low queue. -/
def threeProcs : Kernel :=
  { userinit with
    proc := fun p =>
      if p = 0 then { Proc.zero with state := .runnable, numTickets := 2, queue := 1 }
      else if p = 1 then { Proc.zero with state := .runnable, numTickets := 7 }
      else if p = 5 then { Proc.zero with state := .runnable, numTickets := 3, queue := 1 }
      else Proc.zero }

/-- The second process of the high queue wins for three of the five residues. -/
theorem threeProcs_fair : threeProcs.chosen = [0, 5] ∧
    (((Finset.range threeProcs.total).filter fun n =>
      threeProcs.pick n 0 threeProcs.chosen = some 5).card : ℤ) = 3 := by
  have hticketed : Ticketed threeProcs := by
    refine ⟨?_, ?_⟩ <;> decide +kernel
  have hchosen : threeProcs.chosen = [0, 5] := by decide +kernel
  exact ⟨hchosen, (scheduler_fair hticketed 0).2.2 5 (by rw [hchosen]; decide)⟩

end Sched

end OperatingSystems

import OperatingSystems.Lehmer.Basic
import OperatingSystems.Sched.Lottery

/-!
# The random numbers of the lottery

`rand_int` multiplies the seed by `16807` modulo `2 ^ 31 - 1` in 32-bit arithmetic: it cuts the seed at
bit 16, and the upper product at bit 15.  The two products are signed, the sums unsigned.

* `Residue` : the seeds from `1` to `2 ^ 31 - 2`.
* `Exact` : no product or sum of `rand_int` exceeds its type, so that it computes with the integers.
* `rand_int_eq` : `rand_int` is the Lehmer generator for `16807` and `2 ^ 31 - 1`.
* `Seeded` : once a CPU is on, the seed is one of the numbers that the generator makes from `10`.
* `run_seeded`, `seed_eq_pow` : every run keeps this, so that the seed is `10` times a power of `16807`.
* `minimal_standard` : **the scheduler draws the numbers of the minimal-standard generator**.
-/

namespace OperatingSystems

namespace Sched

/-- The seeds that the generator is for. -/
def Residue (seed : ℤ) : Prop := 1 ≤ seed ∧ seed ≤ 2 ^ 31 - 2

/-- The values of an `int`. -/
def FitsInt (x : ℤ) : Prop := -2 ^ 31 ≤ x ∧ x < 2 ^ 31

/-- The values of an `unsigned int`. -/
def FitsUint (x : ℤ) : Prop := 0 ≤ x ∧ x < 2 ^ 32

/-! The numbers that `rand_int` computes, without any limit of size. -/

def upperProduct (seed : ℤ) : ℤ := 16807 * (seed / 2 ^ 16)

def lowerProduct (seed : ℤ) : ℤ := 16807 * (seed % 2 ^ 16)

def shifted (seed : ℤ) : ℤ := upperProduct seed % 2 ^ 15 * 2 ^ 16

def firstSum (seed : ℤ) : ℤ := lowerProduct seed + shifted seed

def secondSum (seed : ℤ) : ℤ := firstSum seed + upperProduct seed / 2 ^ 15

def reduced (seed : ℤ) : ℤ :=
  if secondSum seed > 2147483647 then secondSum seed - 2147483647 else secondSum seed

/-- They all have the types that they have in `rand_int`: the products are of signed numbers and become
unsigned, and the result becomes signed again. -/
structure Exact (seed : ℤ) : Prop where
  hi : FitsInt (upperProduct seed) ∧ FitsUint (upperProduct seed)
  lo : FitsInt (lowerProduct seed) ∧ FitsUint (lowerProduct seed)
  shift : FitsUint (shifted seed)
  first : FitsUint (firstSum seed)
  second : FitsUint (secondSum seed)
  result : FitsUint (reduced seed) ∧ FitsInt (reduced seed)

/-- The next number of the generator. -/
def successor : ℕ → ℕ := Lehmer.next 16807 (2 ^ 31 - 1)

variable {k k' : Kernel} {p : Slot} {c : ℕ} {user : Bool}

theorem coprime_multiplier : Nat.Coprime 16807 (2 ^ 31 - 1) := by norm_num

theorem residue_natCast {n : ℕ} : Residue n ↔ n ∈ Set.Ioo 0 (2 ^ 31 - 1) := by
  rw [Residue, Set.mem_Ioo]
  omega

theorem residue_successor {n : ℕ} (h : Residue n) : Residue (successor n) :=
  residue_natCast.2 (Lehmer.next_mem coprime_multiplier (residue_natCast.1 h))

theorem exact_of_residue {seed : ℤ} (h : Residue seed) : Exact seed := by
  obtain ⟨hpos, hle⟩ := h
  -- how large each of the numbers gets
  have hupper : 0 ≤ upperProduct seed ∧ upperProduct seed ≤ 16807 * 32767 := by
    unfold upperProduct
    omega
  have hlower : 0 ≤ lowerProduct seed ∧ lowerProduct seed ≤ 16807 * 65535 := by
    unfold lowerProduct
    omega
  have hshifted : 0 ≤ shifted seed ∧ shifted seed ≤ 32767 * 65536 := by
    unfold shifted
    omega
  have hsum : 0 ≤ secondSum seed ∧ secondSum seed ≤ firstSum seed + 16806 := by
    unfold secondSum firstSum
    omega
  have hfirst : firstSum seed = lowerProduct seed + shifted seed := rfl
  have hreduced : 0 ≤ reduced seed ∧ reduced seed < 2 ^ 31 := by
    unfold reduced
    split <;> omega
  constructor <;> simp only [FitsInt, FitsUint] <;> omega

theorem cast_toUint_of_fits {x : ℤ} (h : FitsUint x) : (toUint x : ℤ) = x := by
  unfold toUint FitsUint at *
  omega

/-- Without an overflow, the 32-bit arithmetic is that of the integers. -/
theorem Exact.rand_int_eq {seed : ℤ} (h : Exact seed) : rand_int seed = reduced seed := by
  have hhi := cast_toUint_of_fits h.hi.2
  have hlo := cast_toUint_of_fits h.lo.2
  obtain ⟨sum, hsum, hrand⟩ : ∃ sum : ℕ, (sum : ℤ) = secondSum seed ∧
      rand_int seed = toInt (if sum > 2147483647 then sum - 2147483647 else sum : ℕ) := by
    refine ⟨((toUint (lowerProduct seed) + toUint (upperProduct seed) % 2 ^ 15 * 2 ^ 16) % 2 ^ 32 +
      toUint (upperProduct seed) / 2 ^ 15) % 2 ^ 32, ?_, rfl⟩
    have hfirst := h.first
    have hsecond := h.second
    unfold FitsUint secondSum firstSum shifted at *
    omega
  have hfits := h.result.2
  unfold FitsInt reduced at hfits
  rw [hrand, reduced, toInt, Int.bmod_eq_of_le] <;> split_ifs at * <;> omega

/-- **The generator in two pieces.** -/
theorem rand_int_natCast {n : ℕ} (h : Residue n) : rand_int n = successor n := by
  rw [(exact_of_residue h).rand_int_eq]
  have hnext := Lehmer.reduce_folded (a := 16) (b := 15) coprime_multiplier (by norm_num)
    (by norm_num) (residue_natCast.1 h)
  -- the sum is the one that `folded` puts together
  have hsum : secondSum n = (Lehmer.folded 16 15 (16807 * (n / 2 ^ 16)) (16807 * (n % 2 ^ 16)) : ℕ) := by
    unfold secondSum firstSum shifted lowerProduct upperProduct Lehmer.folded
    push_cast
    rfl
  rw [successor, ← hnext, reduced, hsum]
  unfold Lehmer.reduce
  split_ifs <;> omega

theorem rand_int_eq {seed : ℤ} (h : Residue seed) :
    rand_int seed = 16807 * seed % (2 ^ 31 - 1) ∧ Residue (rand_int seed) := by
  obtain ⟨n, rfl⟩ := Int.eq_ofNat_of_zero_le (show 0 ≤ seed by have := h.1; omega)
  rw [rand_int_natCast h]
  refine ⟨?_, residue_successor h⟩
  unfold successor Lehmer.next
  omega

/-! ### The seed during a run -/

namespace Kernel

@[simp] theorem setProc_rnd_seed (k : Kernel) (p : Slot) (f : Proc → Proc) :
    (k.setProc p f).rnd_seed = k.rnd_seed := rfl

@[simp] theorem setCpu_rnd_seed (k : Kernel) (c : ℕ) (x : Cpu) :
    (k.setCpu c x).rnd_seed = k.rnd_seed := rfl

@[simp] theorem wakeup1_rnd_seed (k : Kernel) (chan : Chan) :
    (k.wakeup1 chan).rnd_seed = k.rnd_seed := rfl

@[simp] theorem sched_rnd_seed (k : Kernel) (c : ℕ) : (k.sched c).rnd_seed = k.rnd_seed := rfl

@[simp] theorem yield_rnd_seed (k : Kernel) (c : ℕ) (p : Slot) (ctx : Context) :
    (k.yield c p ctx).rnd_seed = k.rnd_seed := rfl

@[simp] theorem sleep_rnd_seed (k : Kernel) (c : ℕ) (p : Slot) (chan : Chan) (ctx : Context) :
    (k.sleep c p chan ctx).rnd_seed = k.rnd_seed := rfl

@[simp] theorem start_rnd_seed (k : Kernel) (c : ℕ) (p : Slot) :
    (k.start c p).rnd_seed = k.rnd_seed := rfl

@[simp] theorem tick_rnd_seed (k : Kernel) (c : ℕ) : (k.tick c).rnd_seed = k.rnd_seed := by
  unfold tick
  split <;> rfl

@[simp] theorem fork_rnd_seed (k : Kernel) (p : Slot) (mem : Bool) :
    (k.fork p mem).rnd_seed = k.rnd_seed := by
  unfold fork
  split
  · rfl
  next np k₁ h =>
    obtain ⟨_, _, heq⟩ := Option.map_eq_some_iff.1 h
    cases heq
    split <;> rfl

@[simp] theorem wait_rnd_seed (k : Kernel) (c : ℕ) (p : Slot) :
    (k.wait c p).rnd_seed = k.rnd_seed := by
  unfold wait
  split
  · rfl
  · split <;> rfl

@[simp] theorem kill_rnd_seed (k : Kernel) (pid : ℕ) : (k.kill pid).rnd_seed = k.rnd_seed := by
  unfold kill
  split <;> rfl

@[simp] theorem settickets_rnd_seed (k : Kernel) (p : Slot) (num : ℤ) :
    (k.settickets p num).rnd_seed = k.rnd_seed := by
  unfold settickets
  split <;> rfl

theorem exitAdopt_rnd_seed (p : Slot) (k : Kernel) (q : Slot) :
    (k.exitAdopt p q).rnd_seed = k.rnd_seed := by
  unfold exitAdopt
  dsimp only
  split_ifs <;> rfl

theorem foldl_exitAdopt_rnd_seed (p : Slot) (k : Kernel) (qs : List Slot) :
    (qs.foldl (exitAdopt p) k).rnd_seed = k.rnd_seed := by
  induction qs generalizing k with
  | nil => rfl
  | cons q qs ih => rw [List.foldl_cons, ih, exitAdopt_rnd_seed]

theorem exit_rnd_seed (h : k.exit c p = some k') : k'.rnd_seed = k.rnd_seed := by
  unfold exit at h
  split at h
  · cases h
  · cases h
    rw [sched_rnd_seed, setProc_rnd_seed, foldl_exitAdopt_rnd_seed]
    unfold wakeupParent
    split <;> rfl

theorem lastCheck_rnd_seed (h : k.lastCheck c p user = some k') : k'.rnd_seed = k.rnd_seed := by
  unfold lastCheck at h
  split at h
  · exact exit_rnd_seed h
  · cases h
    rfl

theorem secondTick_rnd_seed (h : k.secondTick c p user = some k') :
    k'.rnd_seed = k.rnd_seed := by
  unfold secondTick at h
  split at h
  · cases h
    rfl
  · exact lastCheck_rnd_seed h

theorem trap_rnd_seed (h : k.trap c user = some k') : k'.rnd_seed = k.rnd_seed := by
  unfold trap at h
  split at h
  · cases h
  · cases h
    exact tick_rnd_seed k c
  · dsimp only at h
    split_ifs at h with hctx hkilled
    · rw [exit_rnd_seed h, tick_rnd_seed]
    · unfold firstTick at h
      split at h
      · cases h
        exact tick_rnd_seed k c
      · rw [secondTick_rnd_seed h, tick_rnd_seed]

theorem resume_rnd_seed (h : k.resume c p = some k') : k'.rnd_seed = k.rnd_seed := by
  unfold resume at h
  split at h
  · cases h
  · exact secondTick_rnd_seed h
  · exact lastCheck_rnd_seed h
  · cases h
    rfl
  · cases h
    rw [wait_rnd_seed, setProc_rnd_seed]

/-- A pass draws one number if it finds a runnable process. -/
theorem scheduler_rnd_seed (h : k.scheduler c = some k') :
    k'.rnd_seed = if k.chosen ≠ [] then rand_int k.rnd_seed else k.rnd_seed := by
  rw [scheduler_eq] at h
  obtain ⟨⟨k₁, w⟩, hdrawn, rfl⟩ := Option.map_eq_some_iff.1 h
  have hseed : k₁.rnd_seed = if k.chosen ≠ [] then rand_int k.rnd_seed else k.rnd_seed := by
    split at hdrawn
    next hne =>
      rw [if_pos hne, (draw_eq_some hdrawn).1]
    next hnil =>
      cases hdrawn
      rw [if_neg hnil]
  cases w with
  | none => exact hseed
  | some p => exact hseed

theorem call_eq_some {f : Slot → Option Kernel} (h : k.call c f = some k') :
    ∃ p, k.cpu c = .run p ∧ f p = some k' := by
  unfold call at h
  split at h
  next p hp =>
    split at h
    · exact ⟨p, hp, h⟩
    · cases h
  · cases h

/-- Some CPU has entered `scheduler`. -/
def On (k : Kernel) : Prop := ∃ c, k.cpu c ≠ .off

end Kernel

open Kernel

/-- What a step does to the seed. -/
theorem next_rnd_seed {l : Label} (h : kernel.next k l = some k') :
    k'.rnd_seed = 10 ∨ (k'.On → k.On) ∧
      (k'.rnd_seed = k.rnd_seed ∨ k'.rnd_seed = rand_int k.rnd_seed) := by
  -- a step of a CPU, other than its first one, is one with a CPU that is on
  have hon : ∀ {c x}, x ≠ .off → k.cpu c = x →
      k'.rnd_seed = k.rnd_seed ∨ k'.rnd_seed = rand_int k.rnd_seed →
      k'.rnd_seed = 10 ∨ (k'.On → k.On) ∧
        (k'.rnd_seed = k.rnd_seed ∨ k'.rnd_seed = rand_int k.rnd_seed) :=
    fun hx hc hseed => .inr ⟨fun _ => ⟨_, hc ▸ hx⟩, hseed⟩
  have hcall : ∀ {c f}, k.call c f = some k' →
      (∀ p, f p = some k' → k'.rnd_seed = k.rnd_seed) →
      k'.rnd_seed = 10 ∨ (k'.On → k.On) ∧
        (k'.rnd_seed = k.rnd_seed ∨ k'.rnd_seed = rand_int k.rnd_seed) := by
    intro c f hf hseed
    obtain ⟨p, hp, hfp⟩ := call_eq_some hf
    exact hon (by simp) hp (.inl (hseed p hfp))
  cases l with
  | boot c =>
    simp only [kernel] at h
    split at h
    · cases h
      exact .inl rfl
    · cases h
  | schedule c =>
    simp only [kernel] at h
    split at h
    next hidle =>
      refine hon (by simp) hidle ?_
      rw [scheduler_rnd_seed h]
      split
      · exact .inr rfl
      · exact .inl rfl
    · cases h
  | timer c user =>
    have hseed := trap_rnd_seed h
    cases hc : k.cpu c with
    | off => simp [kernel, trap, hc] at h
    | idle => exact hon (by simp) hc (.inl hseed)
    | run p => exact hon (by simp) hc (.inl hseed)
  | resume c =>
    simp only [kernel] at h
    split at h
    next p hp => exact hon (by simp) hp (.inl (resume_rnd_seed h))
    · cases h
  | exit c => exact hcall h fun p hp => exit_rnd_seed hp
  | wakeup n =>
    cases h
    exact .inr ⟨id, .inl rfl⟩
  | fork c mem => exact hcall h fun p hp => by cases hp; simp
  | wait c => exact hcall h fun p hp => by cases hp; simp
  | sleep c chan => exact hcall h fun p hp => by cases hp; simp
  | kill c pid => exact hcall h fun p hp => by cases hp; simp
  | settickets c num => exact hcall h fun p hp => by cases hp; simp

/-- The seed is one of the numbers that the generator makes from `10`. -/
def Seeded (k : Kernel) : Prop := k.On → ∃ n : ℕ, k.rnd_seed = (successor^[n] 10 : ℕ)

theorem residue_iterate (n : ℕ) : Residue (successor^[n] 10 : ℕ) :=
  residue_natCast.2 (Lehmer.iterate_next_mem coprime_multiplier (by norm_num) n)

theorem Seeded.residue (h : Seeded k) (hon : k.On) : Residue k.rnd_seed := by
  obtain ⟨n, hn⟩ := h hon
  rw [hn]
  exact residue_iterate n

theorem Seeded.next {l : Label} (h : Seeded k) (hnext : kernel.next k l = some k') :
    Seeded k' := by
  obtain hten | ⟨hon, hseed⟩ := next_rnd_seed hnext
  · exact fun _ => ⟨0, hten⟩
  intro hon'
  obtain ⟨n, hn⟩ := h (hon hon')
  obtain hsame | hdraw := hseed
  · exact ⟨n, hsame.trans hn⟩
  · refine ⟨n + 1, ?_⟩
    rw [hdraw, hn, rand_int_natCast (residue_iterate n), Function.iterate_succ_apply']

theorem run_seeded {ls : List Label} (h : kernel.run userinit ls = some k) : Seeded k :=
  Machine.run_invariant h (fun ⟨_, hc⟩ => absurd rfl hc) fun _ _ _ hk hl => hk.next hl

/-- Once a CPU is on, the seed is the product of `10` and a power of `16807`. -/
theorem seed_eq_pow {ls : List Label} (h : kernel.run userinit ls = some k) (hon : k.On) :
    ∃ n : ℕ, k.rnd_seed = 16807 ^ n * 10 % (2 ^ 31 - 1) := by
  obtain ⟨n, hn⟩ := run_seeded h hon
  refine ⟨n, ?_⟩
  rw [hn, successor, Lehmer.iterate_next (by norm_num)]
  push_cast
  norm_num

/-- **The minimal-standard generator.**  For every seed from `1` to `2 ^ 31 - 2`, `rand_int` is exact,
gives the product with `16807` modulo `2 ^ 31 - 1`, which is again such a seed, and a draw stores it.
In every run, a CPU that enters `scheduler` sets the seed to `10`, the seed is such a number in every
state with a CPU that is on, and a pass with a runnable process draws the next one. -/
theorem minimal_standard :
    (∀ seed, Residue seed → Exact seed ∧ rand_int seed = 16807 * seed % (2 ^ 31 - 1) ∧
      Residue (rand_int seed)) ∧
    (∀ (k k' : Kernel) ps w, k.draw ps = some (k', w) → k'.rnd_seed = rand_int k.rnd_seed) ∧
    ∀ ls k, kernel.run userinit ls = some k →
      (∀ c k', kernel.next k (.boot c) = some k' → k'.rnd_seed = 10) ∧
      ((∃ c, k.cpu c ≠ .off) → Residue k.rnd_seed) ∧
      ∀ c k', kernel.next k (.schedule c) = some k' →
        k'.rnd_seed = if k.chosen ≠ [] then 16807 * k.rnd_seed % (2 ^ 31 - 1) else k.rnd_seed := by
  refine ⟨fun seed h => ⟨exact_of_residue h, rand_int_eq h⟩,
    fun k k' ps w h => by rw [(draw_eq_some h).1], fun ls k h => ?_⟩
  have hseed := run_seeded h
  refine ⟨fun c k' hnext => ?_, hseed.residue, fun c k' hnext => ?_⟩ <;>
    simp only [kernel] at hnext <;> split at hnext
  · cases hnext
    rfl
  · cases hnext
  next hidle =>
    rw [scheduler_rnd_seed hnext, (rand_int_eq (hseed.residue ⟨c, by simp [hidle]⟩)).1]
  · cases hnext

/-- The first pass of the first CPU. -/
theorem minimal_standard_ten : rand_int 10 = 168070 ∧
    ∃ k, kernel.run userinit [.boot 0, .schedule 0] = some k ∧ Residue k.rnd_seed := by
  have hten : Residue 10 := by unfold Residue; omega
  obtain ⟨k, hk⟩ : ∃ k, kernel.run userinit [.boot 0, .schedule 0] = some k := ⟨_, rfl⟩
  refine ⟨(minimal_standard.1 10 hten).2.1.trans (by norm_num), k, hk, ?_⟩
  refine (minimal_standard.2.2 _ k hk).2.1 ⟨0, ?_⟩
  cases hk
  decide

end Sched

end OperatingSystems

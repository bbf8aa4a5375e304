import OperatingSystems.Sched.Running

/-!
# Tick accounting

Do `highTicks` and `lowTicks` count the timer interrupts of a process?  The first conditional of
`trap` charges a process of the high queue and lets it yield, which puts it into the low queue;
when it is scheduled again, the second conditional, which tests for the same interrupt, charges it
once more.  And what is charged is not one tick, but all the `ticks` since boot.

* `Tally`, `count` : the timer interrupts that a process has received while it was running, by its
  queue, and the `yield`s of the handler of the latest one; a ghost.
* `Accounted` : the ticks of all processes, also as `getpinfo` reports them, are these numbers, and
  no interrupt makes a process yield twice.
* `ChargesOne` : the steps that keep it.
* `accounted_iff` : **a run keeps its accounts if and only if all its steps are of that kind**.
* `charged_twice` : one interrupt that is charged twice.
-/

namespace OperatingSystems

namespace Sched

/-- The timer interrupts of a process while it was running. -/
structure Tally where
  /-- Those that arrived while it was in the high queue. -/
  high : ℕ
  /-- Those that arrived while it was in the low queue. -/
  low : ℕ
  /-- The `yield`s of the handler of the latest one. -/
  yields : ℕ

/-- The tallies after a step. -/
def count (k : Kernel) (lab : Label) (g : Slot → Tally) : Slot → Tally :=
  match lab with
  | .timer c user =>
    match k.cpu c with
    | .run p =>
      Function.update g p
        { high := if (k.proc p).queue = 1 then (g p).high + 1 else (g p).high
          low := if (k.proc p).queue = 1 then (g p).low else (g p).low + 1
          yields := if (k.proc p).killed ∧ user then 0 else 1 }
    | _ => g
  | .resume c =>
    match k.cpu c with
    | .run p =>
      match (k.proc p).ctx with
      | .first _ => Function.update g p { g p with yields := (g p).yields + 1 }
      | _ => g
    | _ => g
  | .fork _ _ =>
    match k.allocproc with
    | some (np, _) => Function.update g np ⟨0, 0, 0⟩
    | none => g
  | _ => g

/-- The ticks of the processes are the timer interrupts they have received. -/
structure Accounted (x : Kernel × (Slot → Tally)) : Prop where
  high : ∀ p, (x.1.proc p).highTicks = (x.2 p).high
  low : ∀ p, (x.1.proc p).lowTicks = (x.2 p).low
  yields : ∀ p, (x.2 p).yields ≤ 1
  /-- `getpinfo` reports them. -/
  reported : ∀ info i p, x.1.reported[i.val]? = some p →
    (x.1.getpinfo info).hticks i + (x.1.getpinfo info).lticks i = (x.2 p).high + (x.2 p).low

/-- A timer interrupt finds a process that has not been killed, or is in the kernel, when `ticks` is
`1`, and the counter of its queue does not overflow; and a process that was interrupted in the high
queue does not go on. -/
def ChargesOne (x : Kernel × (Slot → Tally)) : Label → Prop
  | .timer c user => ∀ p, x.1.cpu c = .run p → ¬ ((x.1.proc p).killed ∧ user) ∧
      (x.1.tick c).ticks = 1 ∧
      (if (x.1.proc p).queue = 1 then (x.1.proc p).highTicks else (x.1.proc p).lowTicks) + 1 < 2 ^ 31
  | .resume c => ∀ p, x.1.cpu c = .run p → ∀ user, (x.1.proc p).ctx ≠ .first user
  | _ => True

instance (x : Kernel × (Slot → Tally)) : ∀ lab, Decidable (ChargesOne x lab)
  | .timer c user => inferInstanceAs (Decidable (∀ p, x.1.cpu c = .run p →
      ¬ ((x.1.proc p).killed ∧ user) ∧ (x.1.tick c).ticks = 1 ∧ _ < _))
  | .resume c => inferInstanceAs (Decidable (∀ p, x.1.cpu c = .run p → ∀ user,
      (x.1.proc p).ctx ≠ .first user))
  | .boot _ | .schedule _ | .fork _ _ | .exit _ | .wait _ | .sleep _ _ | .wakeup _ | .kill _ _
  | .settickets _ _ => isTrue trivial

variable {k k' : Kernel} {g : Slot → Tally} {p : Slot} {c : ℕ} {user : Bool}

/-- What the fields say is what `getpinfo` reports. -/
theorem accounted_of_fields (hhigh : ∀ p, (k.proc p).highTicks = (g p).high)
    (hlow : ∀ p, (k.proc p).lowTicks = (g p).low) (hyields : ∀ p, (g p).yields ≤ 1) :
    Accounted (k, g) := by
  refine ⟨hhigh, hlow, hyields, fun info i p hp => ?_⟩
  simp only [Kernel.getpinfo] at hp ⊢
  rw [hp]
  dsimp only
  rw [hhigh p, hlow p]

theorem Accounted.quiet (h : Accounted (k, g)) (hq : Quiet k k') : Accounted (k', g) :=
  accounted_of_fields (fun p => (hq.2 p).high.trans (h.high p))
    (fun p => (hq.2 p).low.trans (h.low p)) h.yields

/-- The accounts are kept if they are kept for the process that is charged. -/
theorem Accounted.charged {high low : ℤ} {t : Tally} (h : Accounted (k, g))
    (hc : Charged k k' p high low) :
    Accounted (k', Function.update g p t) ↔ high = t.high ∧ low = t.low ∧ t.yields ≤ 1 := by
  constructor
  · intro h'
    have hhigh := h'.high p
    have hlow := h'.low p
    have hyields := h'.yields p
    simp only [Function.update_self, hc.high, hc.low] at hhigh hlow hyields
    exact ⟨hhigh, hlow, hyields⟩
  · rintro ⟨hhigh, hlow, hyields⟩
    refine accounted_of_fields (fun q => ?_) (fun q => ?_) fun q => ?_ <;>
      obtain rfl | hne := eq_or_ne q p
    · rw [Function.update_self, hc.high, hhigh]
    · rw [Function.update_of_ne hne, (hc.other q hne).high]
      exact h.high q
    · rw [Function.update_self, hc.low, hlow]
    · rw [Function.update_of_ne hne, (hc.other q hne).low]
      exact h.low q
    · rwa [Function.update_self]
    · rw [Function.update_of_ne hne]
      exact h.yields q

/-- Charging `t` to a counter adds one. -/
theorem toInt_add_eq_succ_iff {n t : ℕ} (ht : t < 2 ^ 32) :
    toInt (n + t) = ((n + 1 : ℕ) : ℤ) ↔ t = 1 ∧ (n : ℤ) + 1 < 2 ^ 31 := by
  rw [toInt, Int.bmod_def]
  split <;> omega

/-- The kernel's invariant, and a process that has been interrupted in the high queue has yielded. -/
structure Tallied (x : Kernel × (Slot → Tally)) : Prop where
  scheduled : Scheduled x.1
  yields : ∀ p user, (x.1.proc p).ctx = .first user → 1 ≤ (x.2 p).yields

theorem Tallied.quiet (h : Tallied (k, g)) (hq : Quiet k k') : Tallied (k', g) :=
  ⟨hq.1, fun p user hu => h.yields p user ((hq.2 p).first user hu)⟩

theorem Tallied.charged {high low : ℤ} {t : Tally} (h : Tallied (k, g))
    (hc : Charged k k' p high low) (ht : ∀ user, (k'.proc p).ctx = .first user → 1 ≤ t.yields) :
    Tallied (k', Function.update g p t) := by
  refine ⟨hc.scheduled, fun q user hu => ?_⟩
  dsimp only at hu ⊢
  obtain rfl | hne := eq_or_ne q p
  · rw [Function.update_self]
    exact ht user hu
  · rw [Function.update_of_ne hne]
    exact h.yields q user ((hc.other q hne).first user hu)

/-- What a step keeps, and when it keeps the accounts. -/
def Keeps (x : Kernel × (Slot → Tally)) (k' : Kernel) (lab : Label) : Prop :=
  Tallied (k', count x.1 lab x.2) ∧
    (Accounted x → (Accounted (k', count x.1 lab x.2) ↔ ChargesOne x lab))

/-- Most steps charge nothing. -/
theorem keeps_quiet {lab : Label} (h : Tallied (k, g)) (hone : ChargesOne (k, g) lab)
    (hcount : count k lab g = g) (hq : Quiet k k') : Keeps (k, g) k' lab := by
  unfold Keeps
  rw [hcount]
  exact ⟨h.quiet hq, fun ha => iff_of_true (ha.quiet hq) hone⟩

/-- A timer interrupt of a process that has been killed is received and not charged. -/
theorem keeps_trap_killed (h : Tallied (k, g)) (hc : k.cpu c = .run p)
    (hkilled : (k.proc p).killed ∧ user) (ht : k.trap c user = some k') :
    Keeps (k, g) k' (.timer c user) := by
  have hq := quiet_trap_killed h.scheduled hc hkilled ht
  have hctx : ∀ user, (k'.proc p).ctx ≠ .first user := by
    intro user hu
    have hrun : (k.proc p).ctx = .run := by
      by_contra hne
      simp [Kernel.trap, hc, hne] at ht
    exact Context.noConfusion (hrun.symm.trans ((hq.2 p).first user hu))
  simp only [Keeps, count, hc]
  refine ⟨h.charged ⟨hq.1, (hq.2 p).high, (hq.2 p).low, fun q _ => hq.2 q⟩ fun user hu =>
    absurd hu (hctx user), fun ha => iff_of_false (fun ha' => ?_) fun hone => (hone p hc).1 hkilled⟩
  have hhigh := (ha.high p).symm.trans ((hq.2 p).high.symm.trans (ha'.high p))
  have hlow := (ha.low p).symm.trans ((hq.2 p).low.symm.trans (ha'.low p))
  simp only [Function.update_self] at hhigh hlow
  by_cases hqueue : (k.proc p).queue = 1
  · rw [if_pos hqueue] at hhigh
    omega
  · rw [if_neg hqueue] at hlow
    omega

/-- A timer interrupt of the process on a CPU. -/
theorem keeps_trap (h : Tallied (k, g)) (hc : k.cpu c = .run p)
    (hkilled : ¬ ((k.proc p).killed ∧ user)) (ht : k.trap c user = some k') :
    Keeps (k, g) k' (.timer c user) := by
  have hone : ChargesOne (k, g) (.timer c user) ↔ (k.tick c).ticks = 1 ∧
      (if (k.proc p).queue = 1 then (k.proc p).highTicks else (k.proc p).lowTicks) + 1 < 2 ^ 31 :=
    ⟨fun h => (h p hc).2, fun h q hq => by cases hc.symm.trans hq; exact ⟨hkilled, h⟩⟩
  have hlt := (quiet_tick h.scheduled c).1.ticks
  have hch := charged_trap h.scheduled hc hkilled ht
  simp only [Keeps, count, hc, hkilled, if_false]
  refine ⟨h.charged hch fun _ _ => le_rfl, fun ha => ?_⟩
  rw [ha.charged hch, hone, ha.high p, ha.low p]
  by_cases hqueue : (k.proc p).queue = 1
  · simp only [hqueue, if_true]
    rw [toInt_add_eq_succ_iff hlt]
    simp
  · simp only [hqueue, if_false]
    rw [toInt_add_eq_succ_iff hlt]
    simp

/-- A process that has been interrupted in the high queue goes on: it yields a second time. -/
theorem keeps_resume (h : Tallied (k, g)) (hc : k.cpu c = .run p)
    (hctx : (k.proc p).ctx = .first user) (hr : k.resume c p = some k') :
    Keeps (k, g) k' (.resume c) := by
  have hch := charged_resume h.scheduled hc hctx hr
  have hyields := h.yields p user hctx
  simp only [Keeps, count, hc, hctx]
  refine ⟨h.charged hch fun _ _ => Nat.le_add_left 1 _, fun ha => ?_⟩
  rw [ha.charged hch]
  refine iff_of_false (fun h' => ?_) fun hone => hone p hc user hctx
  have htwice : (g p).yields + 1 ≤ 1 := h'.2.2
  dsimp only at hyields
  omega

theorem exists_run_of_call {f : Slot → Option Kernel} (h : k.call c f = some k') :
    ∃ p, k.cpu c = .run p ∧ f p = some k' := by
  unfold Kernel.call at h
  split at h
  · next p hp =>
    split at h
    · exact ⟨p, hp, h⟩
    · cases h
  · cases h

/-- **The step lemma**. -/
theorem keeps_next {lab : Label} (h : Tallied (k, g)) (hn : kernel.next k lab = some k') :
    Keeps (k, g) k' lab := by
  have hk := h.scheduled
  cases lab with
  | boot c =>
    simp only [kernel] at hn
    split at hn <;> cases hn
    exact keeps_quiet h trivial rfl
      ⟨(quiet_seed hk.boot 10).1, fun q => ⟨rfl, rfl, fun _ => id⟩⟩
  | schedule c =>
    simp only [kernel] at hn
    split at hn
    · exact keeps_quiet h trivial rfl (quiet_scheduler hk hn)
    · cases hn
  | timer c user =>
    by_cases hc : ∃ p, k.cpu c = .run p
    · -- a process that was killed exits at the interrupt
      obtain ⟨p, hc⟩ := hc
      by_cases hkilled : (k.proc p).killed ∧ user
      · exact keeps_trap_killed h hc hkilled hn
      · exact keeps_trap h hc hkilled hn
    · simp only [not_exists] at hc
      refine keeps_quiet h (fun p hp => absurd hp (hc p)) ?_ (quiet_trap_idle hk hc hn)
      simp only [count]
  | resume c =>
    simp only [kernel] at hn
    split at hn
    · next p hp =>
      by_cases hctx : ∃ user, (k.proc p).ctx = .first user
      · obtain ⟨user, hctx⟩ := hctx
        exact keeps_resume h hp hctx hn
      · simp only [not_exists] at hctx
        refine keeps_quiet h (fun q hq => by cases hp.symm.trans hq; exact hctx) ?_
          (quiet_resume hk hp hctx hn)
        simp only [count, hp]
    · cases hn
  | fork c mem =>
    obtain ⟨p, hp, hf⟩ := exists_run_of_call hn
    cases hf
    cases ha : k.allocproc with
    | none =>
      refine keeps_quiet h trivial (by simp only [count, ha]) ?_
      simp only [Kernel.fork, ha]
      exact .refl hk
    | some x =>
      obtain ⟨np, k₁⟩ := x
      obtain ⟨hch, hctx⟩ := charged_fork hk ha p mem
      simp only [Keeps, count, ha]
      refine ⟨h.charged hch fun user hu => absurd hu (hctx user), fun hacc => ?_⟩
      rw [hacc.charged hch]
      exact iff_of_true ⟨rfl, rfl, Nat.zero_le 1⟩ trivial
  | exit c =>
    obtain ⟨p, hp, hf⟩ := exists_run_of_call hn
    exact keeps_quiet h trivial rfl (quiet_exit hk hp hf)
  | wait c =>
    obtain ⟨p, hp, hf⟩ := exists_run_of_call hn
    cases hf
    exact keeps_quiet h trivial rfl (quiet_wait hk hp)
  | sleep c chan =>
    obtain ⟨p, hp, hf⟩ := exists_run_of_call hn
    cases hf
    exact keeps_quiet h trivial rfl (quiet_sleep hk hp _ (by simp))
  | wakeup n =>
    cases hn
    exact keeps_quiet h trivial rfl ⟨hk.woken (woken_wakeup1 _ _), (woken_wakeup1 _ _).sameTicks⟩
  | kill c pid =>
    obtain ⟨p, hp, hf⟩ := exists_run_of_call hn
    cases hf
    exact keeps_quiet h trivial rfl (quiet_kill hk pid)
  | settickets c num =>
    obtain ⟨p, hp, hf⟩ := exists_run_of_call hn
    cases hf
    exact keeps_quiet h trivial rfl (quiet_settickets hk p num)

theorem accounted_userinit : Accounted (userinit, fun _ => ⟨0, 0, 0⟩) := by
  have hzero : ∀ p, (userinit.proc p).highTicks = 0 ∧ (userinit.proc p).lowTicks = 0 := by
    intro p
    obtain rfl | hne := eq_or_ne p initproc
    · exact ⟨rfl, rfl⟩
    · simp [userinit, hne, Proc.zero]
  exact accounted_of_fields (fun p => (hzero p).1) (fun p => (hzero p).2) fun _ => Nat.zero_le 1

theorem tallied_userinit : Tallied (userinit, fun _ => ⟨0, 0, 0⟩) := by
  refine ⟨scheduled_userinit, fun p user hu => ?_⟩
  obtain rfl | hne := eq_or_ne p initproc
  · cases hu
  · simp [userinit, hne, Proc.zero] at hu

/-- **The accounts of a run**: the ticks of the processes are the timer interrupts they have
received, in every state of a run, if and only if every interrupt arrives when `ticks` is `1`, at a
process that has not been killed or is in the kernel, and a process that was interrupted in the high
queue does not run again. -/
theorem accounted_iff {ls : List Label} {x : Kernel × (Slot → Tally)}
    (h : (kernel.track count).run (userinit, fun _ => ⟨0, 0, 0⟩) ls = some x) :
    (kernel.track count).Always Accounted (userinit, fun _ => ⟨0, 0, 0⟩) ls ↔
      (kernel.track count).Allowed ChargesOne (userinit, fun _ => ⟨0, 0, 0⟩) ls := by
  have hstep : ∀ (x : Kernel × (Slot → Tally)) lab y, Tallied x →
      (kernel.track count).next x lab = some y →
      Tallied y ∧ (Accounted x → (Accounted y ↔ ChargesOne x lab)) := by
    rintro ⟨k, g⟩ lab ⟨k', g'⟩ hx hn
    obtain ⟨hn, hg⟩ := Machine.track_next_eq_some.1 hn
    dsimp only at hn hg
    rw [← hg]
    exact keeps_next hx hn
  exact Machine.always_iff_allowed (fun x lab y hx hn => (hstep x lab y hx hn).1)
    (fun x lab y hx ha hn => (hstep x lab y hx hn).2 ha) h tallied_userinit accounted_userinit

/-- The first process forks and is interrupted. -/
theorem accounted_first_tick :
    (kernel.track count).Always Accounted (userinit, fun _ => ⟨0, 0, 0⟩)
      [.boot 0, .schedule 0, .fork 0 true, .timer 0 true] := by
  have hrun : ((kernel.track count).run (userinit, fun _ => ⟨0, 0, 0⟩)
      [.boot 0, .schedule 0, .fork 0 true, .timer 0 true]).isSome := by decide +kernel
  obtain ⟨x, hx⟩ := Option.isSome_iff_exists.1 hrun
  exact (accounted_iff hx).2 (by decide +kernel)

/-- The first process is interrupted in the high queue and scheduled again: it is charged twice for
the one interrupt, and yields twice. -/
theorem charged_twice : ∃ x,
    (kernel.track count).run (userinit, fun _ => ⟨0, 0, 0⟩)
      [.boot 0, .schedule 0, .timer 0 true, .schedule 0, .resume 0] = some x ∧
    (x.1.proc initproc).highTicks = 1 ∧ (x.1.proc initproc).lowTicks = 1 ∧
      (x.2 initproc).high = 1 ∧ (x.2 initproc).low = 0 ∧ (x.2 initproc).yields = 2 ∧
      ¬ Accounted x := by
  have hrun : ((kernel.track count).run (userinit, fun _ => ⟨0, 0, 0⟩)
      [.boot 0, .schedule 0, .timer 0 true, .schedule 0, .resume 0]).map (fun x =>
        ((x.1.proc initproc).highTicks, (x.1.proc initproc).lowTicks, (x.2 initproc).high,
          (x.2 initproc).low, (x.2 initproc).yields)) = some (1, 1, 1, 0, 2) := by
    decide +kernel
  obtain ⟨x, hx, hfields⟩ := Option.map_eq_some_iff.1 hrun
  simp only [Prod.mk.injEq] at hfields
  obtain ⟨hhigh, hlow, hth, htl, hyields⟩ := hfields
  refine ⟨x, hx, hhigh, hlow, hth, htl, hyields, fun h => ?_⟩
  have htwice := h.yields initproc
  omega

end Sched

end OperatingSystems

import OperatingSystems.Sched.Table

/-!
# The processes on the CPUs

What every step of the kernel with the lottery scheduler keeps, and which steps leave the ticks of
the processes alone.

* `Scheduled` : a process on a CPU is running and on no other one; a queue is `0` or `1`.
* `Quiet` : a step that keeps `Scheduled` and charges no ticks to any process.
* `Charged` : a step that keeps `Scheduled` and gives one process new ticks.
* `quiet_scheduler`, `quiet_exit`, `quiet_wait` and so on : most steps are quiet.
* `charged_trap`, `charged_resume`, `charged_fork` : those that are not.
-/

namespace OperatingSystems

namespace Sched

namespace Kernel

variable {k k' : Kernel} {p q : Slot} {c : ℕ} {f : Proc → Proc}

@[simp] theorem setProc_self (k : Kernel) (p : Slot) (f : Proc → Proc) :
    (k.setProc p f).proc p = f (k.proc p) := Function.update_self ..

theorem setProc_of_ne (k : Kernel) (f : Proc → Proc) (h : q ≠ p) :
    (k.setProc p f).proc q = k.proc q := Function.update_of_ne h ..

@[simp] theorem setProc_cpu (k : Kernel) (p : Slot) (f : Proc → Proc) :
    (k.setProc p f).cpu = k.cpu := rfl

@[simp] theorem setProc_ticks (k : Kernel) (p : Slot) (f : Proc → Proc) :
    (k.setProc p f).ticks = k.ticks := rfl

@[simp] theorem setCpu_proc (k : Kernel) (c : ℕ) (x : Cpu) : (k.setCpu c x).proc = k.proc := rfl

@[simp] theorem setCpu_ticks (k : Kernel) (c : ℕ) (x : Cpu) : (k.setCpu c x).ticks = k.ticks := rfl

end Kernel

variable {k k' k'' : Kernel} {p q : Slot} {c : ℕ} {f : Proc → Proc} {user : Bool}

/-! ### Steps that only wake up -/

/-- Nothing changes but that some processes wake up. -/
structure Woken (k k' : Kernel) : Prop where
  cpu : k'.cpu = k.cpu
  queue : ∀ q, (k'.proc q).queue = (k.proc q).queue
  ctx : ∀ q, (k'.proc q).ctx = (k.proc q).ctx
  state : ∀ q, (k'.proc q).state = (k.proc q).state ∨
    (k.proc q).state = .sleeping ∧ (k'.proc q).state = .runnable
  highTicks : ∀ q, (k'.proc q).highTicks = (k.proc q).highTicks
  lowTicks : ∀ q, (k'.proc q).lowTicks = (k.proc q).lowTicks
  ticks : k'.ticks = k.ticks

theorem Woken.refl (k : Kernel) : Woken k k :=
  ⟨rfl, fun _ => rfl, fun _ => rfl, fun _ => Or.inl rfl, fun _ => rfl, fun _ => rfl, rfl⟩

theorem Woken.trans (h : Woken k k') (h' : Woken k' k'') : Woken k k'' where
  cpu := h'.cpu.trans h.cpu
  queue q := (h'.queue q).trans (h.queue q)
  ctx q := (h'.ctx q).trans (h.ctx q)
  state q := by
    obtain hs | ⟨hs, hr⟩ := h.state q <;> obtain hs' | ⟨hs', hr'⟩ := h'.state q
    · exact Or.inl (hs'.trans hs)
    · exact Or.inr ⟨hs ▸ hs', hr'⟩
    · exact Or.inr ⟨hs, hs'.trans hr⟩
    · exact Or.inr ⟨hs, hr'⟩
  highTicks q := (h'.highTicks q).trans (h.highTicks q)
  lowTicks q := (h'.lowTicks q).trans (h.lowTicks q)
  ticks := h'.ticks.trans h.ticks

theorem woken_wakeup1 (k : Kernel) (chan : Chan) : Woken k (k.wakeup1 chan) := by
  have hq : ∀ q, (k.wakeup1 chan).proc q = k.proc q ∨ (k.proc q).state = .sleeping ∧
      (k.wakeup1 chan).proc q = { k.proc q with state := .runnable } := by
    intro q
    simp only [Kernel.wakeup1]
    split
    · next hs => exact Or.inr ⟨hs.1, rfl⟩
    · exact Or.inl rfl
  refine ⟨rfl, fun q => ?_, fun q => ?_, fun q => ?_, fun q => ?_, fun q => ?_, rfl⟩ <;>
    obtain h | ⟨hs, h⟩ := hq q <;> simp [h]
  exact Or.inr hs

theorem woken_setProc (hqueue : (f (k.proc p)).queue = (k.proc p).queue)
    (hctx : (f (k.proc p)).ctx = (k.proc p).ctx)
    (hstate : (f (k.proc p)).state = (k.proc p).state ∨
      (k.proc p).state = .sleeping ∧ (f (k.proc p)).state = .runnable)
    (hhigh : (f (k.proc p)).highTicks = (k.proc p).highTicks)
    (hlow : (f (k.proc p)).lowTicks = (k.proc p).lowTicks) : Woken k (k.setProc p f) := by
  refine ⟨rfl, fun q => ?_, fun q => ?_, fun q => ?_, fun q => ?_, fun q => ?_, rfl⟩ <;>
    obtain rfl | hne := eq_or_ne q p <;> simp [Kernel.setProc_of_ne, *]

theorem woken_exitAdopt (p : Slot) (k : Kernel) (q : Slot) : Woken k (k.exitAdopt p q) := by
  unfold Kernel.exitAdopt
  have hparent : Woken k (k.setProc q fun r => { r with parent := some initproc }) :=
    woken_setProc rfl rfl (Or.inl rfl) rfl rfl
  split
  · dsimp only
    split
    · exact hparent.trans (woken_wakeup1 _ _)
    · exact hparent
  · exact Woken.refl k

theorem woken_wakeupParent (k : Kernel) (p : Slot) : Woken k (k.wakeupParent p) := by
  unfold Kernel.wakeupParent
  split
  · exact Woken.refl k
  · exact woken_wakeup1 k _

theorem woken_foldl_exitAdopt (p : Slot) (k : Kernel) (qs : List Slot) :
    Woken k (qs.foldl (Kernel.exitAdopt p) k) := by
  induction qs generalizing k with
  | nil => exact Woken.refl k
  | cons q qs ih => exact (woken_exitAdopt p k q).trans (ih _)

/-! ### The invariant -/

/-- A process on a CPU is running, and on no other CPU; a process has one of the two queues, and is
in the low one after a `yield`. -/
structure Scheduled (k : Kernel) : Prop where
  running : ∀ c p, k.cpu c = .run p → (k.proc p).state = .running
  apart : ∀ c c' p, k.cpu c = .run p → k.cpu c' = .run p → c = c'
  queue : ∀ p, (k.proc p).queue = 0 ∨ (k.proc p).queue = 1
  first : ∀ p user, (k.proc p).ctx = .first user → (k.proc p).queue = 0
  ticks : k.ticks < 2 ^ 32

theorem scheduled_userinit : Scheduled userinit where
  running c p h := by cases h
  apart c c' p h := by cases h
  queue p := by
    obtain rfl | hne := eq_or_ne p initproc
    · exact Or.inr rfl
    · simp [userinit, hne, Proc.zero]
  first p user h := by
    obtain rfl | hne := eq_or_ne p initproc
    · cases h
    · simp [userinit, hne, Proc.zero] at h
  ticks := by decide

theorem Scheduled.woken (h : Scheduled k) (hw : Woken k k') : Scheduled k' where
  running c p hc := by
    rw [hw.cpu] at hc
    obtain hs | ⟨hs, -⟩ := hw.state p
    · exact hs.trans (h.running c p hc)
    · simp [h.running c p hc] at hs
  apart c c' p hc hc' := by
    rw [hw.cpu] at hc hc'
    exact h.apart c c' p hc hc'
  queue p := by
    rw [hw.queue]
    exact h.queue p
  first p user hctx := by
    rw [hw.ctx] at hctx
    rw [hw.queue]
    exact h.first p user hctx
  ticks := hw.ticks ▸ h.ticks

/-- Changing an entry. -/
theorem Scheduled.setProc (h : Scheduled k)
    (hrun : ∀ c, k.cpu c = .run p → (f (k.proc p)).state = .running)
    (hqueue : (f (k.proc p)).queue = 0 ∨ (f (k.proc p)).queue = 1)
    (hfirst : ∀ user, (f (k.proc p)).ctx = .first user → (f (k.proc p)).queue = 0) :
    Scheduled (k.setProc p f) where
  running c q hc := by
    obtain rfl | hne := eq_or_ne q p
    · rw [Kernel.setProc_self]
      exact hrun c hc
    · rw [Kernel.setProc_of_ne k f hne]
      exact h.running c q hc
  apart := h.apart
  queue q := by
    obtain rfl | hne := eq_or_ne q p
    · rwa [Kernel.setProc_self]
    · rw [Kernel.setProc_of_ne k f hne]
      exact h.queue q
  first q user hctx := by
    obtain rfl | hne := eq_or_ne q p
    · rw [Kernel.setProc_self] at hctx ⊢
      exact hfirst user hctx
    · rw [Kernel.setProc_of_ne k f hne] at hctx ⊢
      exact h.first q user hctx
  ticks := h.ticks

/-- The process on the CPU `c` gives it up. -/
theorem Scheduled.leave (h : Scheduled k) (hc : k.cpu c = .run p)
    (hqueue : (f (k.proc p)).queue = 0 ∨ (f (k.proc p)).queue = 1)
    (hfirst : ∀ user, (f (k.proc p)).ctx = .first user → (f (k.proc p)).queue = 0) :
    Scheduled ((k.setProc p f).sched c) := by
  have hcpu : ∀ c' q, ((k.setProc p f).sched c).cpu c' = .run q → c' ≠ c ∧ k.cpu c' = .run q := by
    intro c' q hc'
    obtain rfl | hne := eq_or_ne c' c
    · simp [Kernel.sched, Kernel.setCpu] at hc'
    · exact ⟨hne, by simpa [Kernel.sched, Kernel.setCpu, hne] using hc'⟩
  have hother : ∀ q, ((k.setProc p f).sched c).proc q = (k.setProc p f).proc q := fun _ => rfl
  refine ⟨fun c' q hc' => ?_, fun c' c'' q hc' hc'' => ?_, fun q => ?_, fun q user hctx => ?_,
    h.ticks⟩
  · obtain ⟨hne, hc'⟩ := hcpu c' q hc'
    -- no other CPU has `p`
    have hqp : q ≠ p := fun hqp => hne (h.apart c' c p (hqp ▸ hc') hc)
    rw [hother, Kernel.setProc_of_ne k f hqp]
    exact h.running c' q hc'
  · exact h.apart c' c'' q (hcpu c' q hc').2 (hcpu c'' q hc'').2
  · rw [hother]
    obtain rfl | hne := eq_or_ne q p
    · rwa [Kernel.setProc_self]
    · rw [Kernel.setProc_of_ne k f hne]
      exact h.queue q
  · rw [hother] at hctx ⊢
    obtain rfl | hne := eq_or_ne q p
    · rw [Kernel.setProc_self] at hctx ⊢
      exact hfirst user hctx
    · rw [Kernel.setProc_of_ne k f hne] at hctx ⊢
      exact h.first q user hctx

/-- The scheduler of the CPU `c` runs the process `p`. -/
theorem Scheduled.enter (h : Scheduled k) (hp : (k.proc p).state = .runnable)
    (hstate : (f (k.proc p)).state = .running)
    (hqueue : (f (k.proc p)).queue = (k.proc p).queue)
    (hctx : (f (k.proc p)).ctx = (k.proc p).ctx) :
    Scheduled ((k.setProc p f).setCpu c (.run p)) := by
  -- no CPU has `p` before
  have hfree : ∀ c', k.cpu c' ≠ .run p := fun c' hc' => by
    simp [h.running c' p hc'] at hp
  have hset : Scheduled (k.setProc p f) := by
    refine h.setProc (fun _ _ => hstate) (hqueue ▸ h.queue p) fun user hu => ?_
    exact hqueue ▸ h.first p user (hctx ▸ hu)
  have hcpu : ∀ c' q, ((k.setProc p f).setCpu c (.run p)).cpu c' = .run q →
      c' = c ∧ q = p ∨ c' ≠ c ∧ k.cpu c' = .run q := by
    intro c' q hc'
    obtain rfl | hne := eq_or_ne c' c
    · simp only [Kernel.setCpu, Function.update_self, Cpu.run.injEq] at hc'
      exact Or.inl ⟨rfl, hc'.symm⟩
    · simp only [Kernel.setCpu, Function.update_of_ne hne] at hc'
      exact Or.inr ⟨hne, hc'⟩
  refine ⟨fun c' q hc' => ?_, fun c' c'' q hc' hc'' => ?_, hset.queue, hset.first, h.ticks⟩
  · obtain ⟨-, rfl⟩ | ⟨-, hc'⟩ := hcpu c' q hc'
    · simpa using hstate
    · exact hset.running c' q hc'
  · obtain ⟨heq, rfl⟩ | ⟨-, hold⟩ := hcpu c' q hc' <;>
      obtain ⟨heq', hq⟩ | ⟨-, hold'⟩ := hcpu c'' q hc''
    · exact heq.trans heq'.symm
    · exact absurd hold' (hfree c'')
    · exact absurd (hq ▸ hold) (hfree c')
    · exact h.apart c' c'' q hold hold'

/-- The CPU `c`, which has no process, becomes idle. -/
theorem Scheduled.boot (h : Scheduled k) : Scheduled (k.setCpu c .idle) := by
  have hcpu : ∀ c' q, (k.setCpu c .idle).cpu c' = .run q → k.cpu c' = .run q := by
    intro c' q hc'
    obtain rfl | hne := eq_or_ne c' c
    · simp [Kernel.setCpu] at hc'
    · simpa [Kernel.setCpu, hne] using hc'
  exact ⟨fun c' q hc' => h.running c' q (hcpu c' q hc'),
    fun c' c'' q hc' hc'' => h.apart c' c'' q (hcpu c' q hc') (hcpu c'' q hc''),
    h.queue, h.first, h.ticks⟩

/-! ### Steps that charge nothing -/

/-- The ticks of the process `q` are the same, and it has not been interrupted in the high queue. -/
structure SameTicks (q : Slot) (k k' : Kernel) : Prop where
  high : (k'.proc q).highTicks = (k.proc q).highTicks
  low : (k'.proc q).lowTicks = (k.proc q).lowTicks
  first : ∀ user, (k'.proc q).ctx = .first user → (k.proc q).ctx = .first user

theorem SameTicks.refl (q : Slot) (k : Kernel) : SameTicks q k k := ⟨rfl, rfl, fun _ => id⟩

theorem SameTicks.trans (h : SameTicks q k k') (h' : SameTicks q k' k'') : SameTicks q k k'' :=
  ⟨h'.high.trans h.high, h'.low.trans h.low, fun user hu => h.first user (h'.first user hu)⟩

theorem Woken.sameTicks (h : Woken k k') (q : Slot) : SameTicks q k k' :=
  ⟨h.highTicks q, h.lowTicks q, fun _ hu => (h.ctx q).symm.trans hu⟩

theorem sameTicks_setProc (hhigh : (f (k.proc p)).highTicks = (k.proc p).highTicks)
    (hlow : (f (k.proc p)).lowTicks = (k.proc p).lowTicks)
    (hfirst : ∀ user, (f (k.proc p)).ctx = .first user → (k.proc p).ctx = .first user)
    (q : Slot) : SameTicks q k (k.setProc p f) := by
  obtain rfl | hne := eq_or_ne q p
  · refine ⟨?_, ?_, ?_⟩ <;> rw [Kernel.setProc_self]
    · exact hhigh
    · exact hlow
    · exact hfirst
  · refine ⟨?_, ?_, ?_⟩ <;> rw [Kernel.setProc_of_ne k f hne]
    exact fun _ => id

theorem sameTicks_leave (hhigh : (f (k.proc p)).highTicks = (k.proc p).highTicks)
    (hlow : (f (k.proc p)).lowTicks = (k.proc p).lowTicks)
    (hfirst : ∀ user, (f (k.proc p)).ctx = .first user → (k.proc p).ctx = .first user)
    (q : Slot) : SameTicks q k ((k.setProc p f).sched c) :=
  have h := sameTicks_setProc hhigh hlow hfirst q
  ⟨h.high, h.low, h.first⟩

theorem sameTicks_enter (hhigh : (f (k.proc p)).highTicks = (k.proc p).highTicks)
    (hlow : (f (k.proc p)).lowTicks = (k.proc p).lowTicks)
    (hfirst : ∀ user, (f (k.proc p)).ctx = .first user → (k.proc p).ctx = .first user)
    (q : Slot) : SameTicks q k ((k.setProc p f).setCpu c (.run p)) :=
  have h := sameTicks_setProc hhigh hlow hfirst q
  ⟨h.high, h.low, h.first⟩

/-- A step that keeps the invariant and charges nothing. -/
def Quiet (k k' : Kernel) : Prop := Scheduled k' ∧ ∀ q, SameTicks q k k'

theorem quiet_exit (h : Scheduled k) (hc : k.cpu c = .run p) (hexit : k.exit c p = some k') :
    Quiet k k' := by
  unfold Kernel.exit at hexit
  split at hexit
  · cases hexit
  cases hexit
  have hw := (woken_wakeupParent k p).trans (woken_foldl_exitAdopt p _ (List.finRange NPROC))
  generalize (List.finRange NPROC).foldl (Kernel.exitAdopt p) (k.wakeupParent p) = k₁ at hw
  have h₁ : Scheduled k₁ := h.woken hw
  refine ⟨h₁.leave (hw.cpu ▸ hc) (h₁.queue p) (h₁.first p), ?_⟩
  exact fun q => (hw.sameTicks q).trans (sameTicks_leave rfl rfl (fun _ => id) q)

theorem quiet_sleep (h : Scheduled k) (hc : k.cpu c = .run p) (chan : Chan) {ctx : Context}
    (hctx : ∀ user, ctx ≠ .first user) : Quiet k (k.sleep c p chan ctx) :=
  ⟨h.leave hc (h.queue p) fun user hu => absurd hu (hctx user),
    sameTicks_leave rfl rfl fun user hu => absurd hu (hctx user)⟩

/-- The process on a CPU goes on in its program. -/
theorem quiet_run (h : Scheduled k) : Quiet k (k.setProc p fun q => { q with ctx := .run }) :=
  ⟨h.setProc (fun c hc => h.running c p hc) (h.queue p) (by simp),
    sameTicks_setProc rfl rfl (by simp)⟩

theorem Quiet.refl (h : Scheduled k) : Quiet k k := ⟨h, fun q => SameTicks.refl q k⟩

theorem Quiet.trans (h : Quiet k k') (h' : Quiet k' k'') : Quiet k k'' :=
  ⟨h'.1, fun q => (h.2 q).trans (h'.2 q)⟩

theorem quiet_wait (h : Scheduled k) (hc : k.cpu c = .run p) : Quiet k (k.wait c p) := by
  unfold Kernel.wait
  split
  · next q hq =>
    -- the child that is reaped is a zombie, hence on no CPU
    have hzombie : (k.proc q).state = .zombie := by
      have hfound := List.find?_some hq
      simp only [Bool.and_eq_true, decide_eq_true_eq] at hfound
      exact hfound.2
    have hreap : Quiet k (k.setProc q fun r =>
        { r with state := .unused, pid := 0, parent := none, killed := false }) := by
      refine ⟨h.setProc (fun c' hc' => ?_) (h.queue q) (h.first q),
        sameTicks_setProc rfl rfl fun _ => id⟩
      simp [h.running c' q hc'] at hzombie
    exact hreap.trans (quiet_run hreap.1)
  · split
    · exact quiet_run h
    · exact quiet_sleep h hc _ (by simp)

theorem quiet_lastCheck (h : Scheduled k) (hc : k.cpu c = .run p)
    (hl : k.lastCheck c p user = some k') : Quiet k k' := by
  unfold Kernel.lastCheck at hl
  split at hl
  · exact quiet_exit h hc hl
  · cases hl
    exact quiet_run h

theorem mem_of_pick {winner n : ℕ} {ps : List Slot} (h : k.pick winner n ps = some p) :
    p ∈ ps := by
  induction ps generalizing n with
  | nil => cases h
  | cons q ps ih =>
    simp only [Kernel.pick] at h
    split at h
    · cases h
      exact List.mem_cons_self
    · exact List.mem_cons_of_mem q (ih h)

theorem state_of_mem_queued {high : Bool} (h : p ∈ k.queued high) :
    (k.proc p).state = .runnable := by
  have hp := (List.mem_filter.1 h).2
  simp only [Bool.and_eq_true, decide_eq_true_eq] at hp
  exact hp.1

/-- A draw changes the seed and finds a process of the queue. -/
theorem draw_eq_some {ps : List Slot} {w : Option Slot} (h : k.draw ps = some (k', w)) :
    k' = { k with rnd_seed := rand_int k.rnd_seed } ∧ ∀ p, w = some p → p ∈ ps := by
  simp only [Kernel.draw] at h
  split at h
  · cases h
  · cases h
    exact ⟨rfl, fun p hp => mem_of_pick hp⟩

theorem quiet_seed (h : Scheduled k) (seed : ℤ) : Quiet k { k with rnd_seed := seed } :=
  ⟨⟨h.running, h.apart, h.queue, h.first, h.ticks⟩, fun _ => ⟨rfl, rfl, fun _ => id⟩⟩

theorem quiet_scheduler (h : Scheduled k) (hs : k.scheduler c = some k') : Quiet k k' := by
  obtain ⟨⟨k₁, w⟩, hdrawn, rfl⟩ := Option.map_eq_some_iff.1 hs
  -- the process that is found is runnable
  have hdraw : ∀ high, k.draw (k.queued high) = some (k₁, w) →
      Quiet k k₁ ∧ ∀ p, w = some p → (k₁.proc p).state = .runnable := by
    intro high hd
    obtain ⟨rfl, hw⟩ := draw_eq_some hd
    refine ⟨quiet_seed h _, fun p hp => ?_⟩
    have hstate := state_of_mem_queued (hw p hp)
    exact hstate
  obtain ⟨h₁, hw⟩ : Quiet k k₁ ∧ ∀ p, w = some p → (k₁.proc p).state = .runnable := by
    split at hdrawn
    · exact hdraw true hdrawn
    split at hdrawn
    · exact hdraw false hdrawn
    · cases hdrawn
      exact ⟨.refl h, by simp⟩
  cases w with
  | none => exact h₁
  | some p =>
    exact h₁.trans ⟨h₁.1.enter (hw p rfl) rfl rfl rfl, sameTicks_enter rfl rfl fun _ => id⟩

/-! ### Timer interrupts -/

/-- The ticks of `p` become `high` and `low`, and those of the other processes stay. -/
structure Charged (k k' : Kernel) (p : Slot) (high low : ℤ) : Prop where
  scheduled : Scheduled k'
  high : (k'.proc p).highTicks = high
  low : (k'.proc p).lowTicks = low
  other : ∀ q, q ≠ p → SameTicks q k k'

theorem quiet_tick (h : Scheduled k) (c : ℕ) : Quiet k (k.tick c) := by
  unfold Kernel.tick
  split
  · have hcount : Scheduled { k with ticks := (k.ticks + 1) % 2 ^ 32 } :=
      ⟨h.running, h.apart, h.queue, h.first, Nat.mod_lt _ (by decide)⟩
    have hw := woken_wakeup1 { k with ticks := (k.ticks + 1) % 2 ^ 32 } .ticks
    exact ⟨hcount.woken hw, fun q =>
      ⟨(hw.sameTicks q).high, (hw.sameTicks q).low, (hw.sameTicks q).first⟩⟩
  · exact .refl h

@[simp] theorem tick_cpu (k : Kernel) (c : ℕ) : (k.tick c).cpu = k.cpu := by
  unfold Kernel.tick
  split <;> rfl

@[simp] theorem tick_queue (k : Kernel) (c : ℕ) (p : Slot) :
    ((k.tick c).proc p).queue = (k.proc p).queue := by
  unfold Kernel.tick
  split
  · exact (woken_wakeup1 _ _).queue p
  · rfl

@[simp] theorem tick_killed (k : Kernel) (c : ℕ) (p : Slot) :
    ((k.tick c).proc p).killed = (k.proc p).killed := by
  unfold Kernel.tick Kernel.wakeup1
  split
  · dsimp only
    split <;> rfl
  · rfl

/-- The second conditional charges a process of the low queue. -/
theorem charged_secondTick (h : Scheduled k) (hc : k.cpu c = .run p)
    (hqueue : (k.proc p).queue = 0) (hs : k.secondTick c p user = some k') :
    Charged k k' p (k.proc p).highTicks (toInt ((k.proc p).lowTicks + k.ticks)) := by
  rw [Kernel.secondTick, if_pos ⟨hqueue, h.running c p hc⟩] at hs
  cases hs
  have hcharge : Scheduled (k.setProc p fun q => { q with lowTicks := toInt (q.lowTicks + k.ticks) }) :=
    h.setProc (fun c hc => h.running c p hc) (h.queue p) (h.first p)
  refine ⟨hcharge.leave hc (Or.inl rfl) (by simp), ?_, ?_, fun q hne => ⟨?_, ?_, ?_⟩⟩ <;>
    simp [Kernel.yield, Kernel.sched, Kernel.setProc_of_ne, *]

/-- The first conditional charges a process of the high queue. -/
theorem charged_firstTick (h : Scheduled k) (hc : k.cpu c = .run p)
    (hqueue : (k.proc p).queue = 1) (hs : k.firstTick c p user = some k') :
    Charged k k' p (toInt ((k.proc p).highTicks + k.ticks)) (k.proc p).lowTicks := by
  rw [Kernel.firstTick, if_pos ⟨hqueue, h.running c p hc⟩] at hs
  cases hs
  have hcharge : Scheduled (k.setProc p fun q => { q with highTicks := toInt (q.highTicks + k.ticks) }) :=
    h.setProc (fun c hc => h.running c p hc) (h.queue p) (h.first p)
  refine ⟨hcharge.leave hc (Or.inl rfl) (by simp), ?_, ?_, fun q hne => ⟨?_, ?_, ?_⟩⟩ <;>
    simp [Kernel.yield, Kernel.sched, Kernel.setProc_of_ne, *]

/-! ### System calls -/

/-- The new entry of `allocproc` was unused; its ticks are zero. -/
theorem charged_allocproc (h : Scheduled k) (ha : k.allocproc = some (p, k')) :
    Charged k k' p 0 0 ∧ (∀ c, k'.cpu c ≠ .run p) ∧ ∀ user, (k'.proc p).ctx ≠ .first user := by
  obtain ⟨np, hnp, heq⟩ := Option.map_eq_some_iff.1 ha
  cases heq
  have hunused : (k.proc p).state = .unused := by
    simpa using List.find?_some hnp
  have hfree : ∀ c, k.cpu c ≠ .run p := fun c hc => by
    simp [h.running c p hc] at hunused
  refine ⟨⟨?_, by simp, by simp, fun q hne => ⟨?_, ?_, ?_⟩⟩, hfree, by simp⟩
  have hset := h.setProc (p := p) (f := fun q =>
    { q with
      state := .embryo, pid := k.nextpid, numTickets := 1, queue := 1, lowTicks := 0
      highTicks := 0, numTimeRun := 0, ctx := .run })
    (fun c hc => absurd hc (hfree c)) (Or.inr rfl) (by simp)
  · exact ⟨hset.running, hset.apart, hset.queue, hset.first, hset.ticks⟩
  all_goals simp [Kernel.setProc_of_ne, hne]

theorem Charged.quiet {high low : ℤ} (h : Charged k k' p high low) (hq : Quiet k' k'') :
    Charged k k'' p high low where
  scheduled := hq.1
  high := (hq.2 p).high.trans h.high
  low := (hq.2 p).low.trans h.low
  other q hne := (h.other q hne).trans (hq.2 q)

/-- `fork` charges nothing but resets the ticks of the entry that `allocproc` finds. -/
theorem charged_fork (h : Scheduled k) {np : Slot} (ha : k.allocproc = some (np, k'))
    (p : Slot) (mem : Bool) : Charged k (k.fork p mem) np 0 0 ∧
      ∀ user, ((k.fork p mem).proc np).ctx ≠ .first user := by
  obtain ⟨hch, hfree, hctx⟩ := charged_allocproc h ha
  have hquiet : Quiet k' (k.fork p mem) := by
    simp only [Kernel.fork, ha]
    split <;> refine ⟨?_, sameTicks_setProc rfl rfl fun _ => id⟩ <;>
      exact hch.scheduled.setProc (fun c hc => absurd hc (hfree c)) (hch.scheduled.queue np)
        (hch.scheduled.first np)
  exact ⟨hch.quiet hquiet, fun user hu => hctx user ((hquiet.2 np).first user hu)⟩

theorem quiet_kill (h : Scheduled k) (pid : ℕ) : Quiet k (k.kill pid) := by
  unfold Kernel.kill
  split
  · exact .refl h
  · next q _ =>
    refine ⟨h.setProc (fun c hc => ?_) (h.queue q) (h.first q),
      sameTicks_setProc rfl rfl fun _ => id⟩
    simp [h.running c q hc]

theorem quiet_settickets (h : Scheduled k) (p : Slot) (num : ℤ) :
    Quiet k (k.settickets p num) := by
  unfold Kernel.settickets
  split
  · exact .refl h
  · exact ⟨h.setProc (fun c hc => h.running c p hc) (h.queue p) (h.first p),
      sameTicks_setProc rfl rfl fun _ => id⟩

/-- A process goes on elsewhere than after the first conditional. -/
theorem quiet_resume (h : Scheduled k) (hc : k.cpu c = .run p)
    (hctx : ∀ user, (k.proc p).ctx ≠ .first user ) (hr : k.resume c p = some k') : Quiet k k' := by
  unfold Kernel.resume at hr
  split at hr
  · cases hr
  · next user hu => exact absurd hu (hctx user)
  · exact quiet_lastCheck h hc hr
  · cases hr
    exact ⟨h.setProc (fun c hc => h.running c p hc) (h.queue p) (by simp),
      sameTicks_setProc rfl rfl (by simp)⟩
  · cases hr
    have hchan : Quiet k (k.setProc p fun q => { q with chan := none }) :=
      ⟨h.setProc (fun c hc => h.running c p hc) (h.queue p) (h.first p),
        sameTicks_setProc rfl rfl fun _ => id⟩
    exact hchan.trans (quiet_wait hchan.1 hc)

/-- A process goes on after the first conditional. -/
theorem charged_resume (h : Scheduled k) (hc : k.cpu c = .run p)
    (hctx : (k.proc p).ctx = .first user) (hr : k.resume c p = some k') :
    Charged k k' p (k.proc p).highTicks (toInt ((k.proc p).lowTicks + k.ticks)) := by
  simp only [Kernel.resume, hctx] at hr
  exact charged_secondTick h hc (h.first p user hctx) hr

/-- A timer interrupt of a CPU without a process. -/
theorem quiet_trap_idle (h : Scheduled k) (hc : ∀ p, k.cpu c ≠ .run p)
    (ht : k.trap c user = some k') : Quiet k k' := by
  unfold Kernel.trap at ht
  split at ht
  · cases ht
  · cases ht
    exact quiet_tick h c
  · next p hp => exact absurd hp (hc p)

/-- A timer interrupt in the user mode of a process that was killed. -/
theorem quiet_trap_killed (h : Scheduled k) (hc : k.cpu c = .run p)
    (hkilled : (k.proc p).killed ∧ user) (ht : k.trap c user = some k') : Quiet k k' := by
  simp only [Kernel.trap, hc, tick_killed, hkilled, true_and, if_true] at ht
  split at ht
  · exact (quiet_tick h c).trans (quiet_exit (quiet_tick h c).1 (by simpa using hc) ht)
  · cases ht

/-- A timer interrupt of a process that has not been killed, or in kernel mode. -/
theorem charged_trap (h : Scheduled k) (hc : k.cpu c = .run p)
    (hkilled : ¬ ((k.proc p).killed ∧ user)) (ht : k.trap c user = some k') :
    Charged k k' p
      (if (k.proc p).queue = 1 then toInt ((k.proc p).highTicks + (k.tick c).ticks)
        else (k.proc p).highTicks)
      (if (k.proc p).queue = 1 then (k.proc p).lowTicks
        else toInt ((k.proc p).lowTicks + (k.tick c).ticks)) := by
  have hq := quiet_tick h c
  have hc' : (k.tick c).cpu c = .run p := by simpa using hc
  have hticks := hq.2 p
  have hlift : ∀ {high low : ℤ}, Charged (k.tick c) k' p high low → Charged k k' p high low :=
    fun hch => ⟨hch.scheduled, hch.high, hch.low, fun q hne =>
      (hq.2 q).trans (hch.other q hne)⟩
  simp only [Kernel.trap, hc, tick_killed, hkilled, if_false] at ht
  split at ht
  · by_cases hqueue : (k.proc p).queue = 1
    · simp only [hqueue, if_true]
      rw [← hticks.high, ← hticks.low]
      exact hlift (charged_firstTick hq.1 hc' (by simpa using hqueue) ht)
    · have hlow : ((k.tick c).proc p).queue = 0 := by
        simpa using (h.queue p).resolve_right hqueue
      simp only [Kernel.firstTick, hlow, zero_ne_one, false_and, if_false] at ht
      simp only [hqueue, if_false]
      rw [← hticks.high, ← hticks.low]
      exact hlift (charged_secondTick hq.1 hc' hlow ht)
  · cases ht

end Sched

end OperatingSystems

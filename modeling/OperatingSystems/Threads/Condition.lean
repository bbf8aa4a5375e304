import OperatingSystems.Machine.Basic
import OperatingSystems.Bytes.Basic
import Mathlib.Logic.Function.Basic
import Mathlib.Data.Fintype.Basic

/-!
# Condition variables of the thread library

`cv_wait` and `cv_signal` of `ulib.c` with the system calls `condsleep` and `condwakeup` under them,
statement by statement, for any number of threads, processes, condition variables and locks.

A thread takes a ticket `num`, releases its lock, reads `num` again and sleeps in the kernel under
the number it read; a signal advances `curr` and wakes up every process that sleeps under that
number.  `sys_condsleep` takes its only argument also for the address of the lock it has to release,
so it clears four bytes of the caller's memory at that number, or fails if that is no address of the
process.

* `Program` : which thread, variable and lock belongs to which process, and where.
* `Pc` : where a thread is, `State` : the variables, the threads and the kernel's `cvlock`.
* `condvars` : the machine of all interleavings.
* `Step` : what its steps do.
* `OneSignalled` : a signal makes at most one thread runnable, one that waits on its variable.
* `one_signalled` : when this holds along a run.
-/

namespace OperatingSystems

namespace Threads

namespace Cond

/-- The threads `T`, processes `P`, condition variables `C` and locks `L` of a system. -/
structure Program (T P C L : Type*) where
  /-- The process (the page directory) of a thread. -/
  proc : T → P
  /-- The size of a process. -/
  sz : P → ℕ
  condProc : C → P
  /-- The address of a `cond_t`: `num`, followed by `curr`. -/
  condAddr : C → ℕ
  lockProc : L → P
  /-- The address of a `lock_t`, which starts with `locked`. -/
  lockAddr : L → ℕ

/-- The next statement of a thread. -/
inductive Pc (C L : Type*) where
  /-- Outside of the calls that are modelled. -/
  | user
  /-- In an ordinary `sleep` in the kernel. -/
  | sleep
  /-- `cond->num++` -/
  | incrNum (c : C) (l : L)
  /-- `lock_release(lock)` -/
  | release (c : C) (l : L)
  /-- `cond->num`, the argument of `condsleep` -/
  | readNum (c : C) (l : L)
  /-- `sys_condsleep`, up to its `xchg` -/
  | sysCondsleep (c : C) (l : L) (n : ℕ)
  /-- `condsleep`, up to `sched` -/
  | condsleep (c : C) (l : L) (n : ℕ)
  /-- `condsleep`, in `sched` -/
  | asleep (c : C) (l : L) (n : ℕ)
  /-- `while(xchg(&lock->locked, 1))` -/
  | reacquire (c : C) (l : L)
  /-- `if(cond->num != cond->curr)` -/
  | testNum (c : C)
  /-- `cond->curr++` -/
  | incrCurr (c : C)
  /-- `cond->curr`, the argument of `condwakeup` -/
  | readCurr (c : C)
  /-- `condwakeup` -/
  | condwakeup (c : C) (n : ℕ)
  deriving DecidableEq

inductive ProcState where
  | sleeping
  | runnable
  deriving DecidableEq

/-- The variables, the threads and the kernel. -/
structure State (T C L : Type*) where
  num : C → ℕ
  curr : C → ℕ
  locked : L → ℕ
  /-- The thread that took a lock, a ghost. -/
  holder : L → Option T
  pc : T → Pc C L
  state : T → ProcState
  chanId : T → ℕ
  /-- The holder of `cvlock`. -/
  cvlock : Option T

/-- Which thread makes which step. -/
inductive Label (T C L : Type*) where
  /-- The `xchg` of `lock_acquire` that finds the lock free. -/
  | lockAcquire (t : T) (l : L)
  | lockRelease (t : T) (l : L)
  /-- A call of `cv_wait`. -/
  | cvWait (t : T) (c : C) (l : L)
  /-- A call of `cv_signal`. -/
  | cvSignal (t : T) (c : C)
  /-- An ordinary `sleep`. -/
  | sleep (t : T)
  /-- An ordinary `wakeup` of a thread in `sleep`. -/
  | wakeup (t : T)
  /-- The next statement of a thread that is in one of the calls. -/
  | advance (t : T)

/-- The word `v` at address `a` after the four bytes at `n` were cleared. -/
def clear (n a v : ℕ) : ℕ :=
  if n + 4 ≤ a ∨ a + 4 ≤ n then v
  else
    let mem := Bytes.patch (fun _ => 0) a 4 (Bytes.ofNat v)
    Bytes.toNat 4 (Bytes.slice (Bytes.patch mem n 4 (Bytes.ofNat 0)) a)

theorem clear_of_disjoint {n a v : ℕ} (h : n + 4 ≤ a ∨ a + 4 ≤ n) : clear n a v = v := if_pos h

/-- `argptr` takes `n` for the address of four bytes of the process. -/
def argptr (sz n : ℕ) : Bool := ¬ (n ≥ sz ∨ (n + 4) % 2 ^ 32 > sz)

section

variable {T P C L : Type*} [DecidableEq T] [DecidableEq P] [DecidableEq C] [DecidableEq L]

/-- Thread `t` goes to `pc`. -/
def State.goto (s : State T C L) (t : T) (pc : Pc C L) : State T C L :=
  { s with pc := Function.update s.pc t pc }

/-- The four bytes at address `n` of process `p` are cleared. -/
def State.clear (s : State T C L) (prog : Program T P C L) (p : P) (n : ℕ) : State T C L :=
  { s with
    num := fun c =>
      if prog.condProc c = p then Cond.clear n (prog.condAddr c) (s.num c) else s.num c
    curr := fun c =>
      if prog.condProc c = p then Cond.clear n (prog.condAddr c + 4) (s.curr c) else s.curr c
    locked := fun l =>
      if prog.lockProc l = p then Cond.clear n (prog.lockAddr l) (s.locked l) else s.locked l }

/-- The loop of `condwakeup`. -/
def State.wakeAll (s : State T C L) (n : ℕ) : State T C L :=
  { s with
    state := fun t => if s.state t = .sleeping ∧ s.chanId t = n then .runnable else s.state t }

/-- The next statement of thread `t`; `none` if it has to wait. -/
def advance (prog : Program T P C L) (s : State T C L) (t : T) : Option (State T C L) :=
  match s.pc t with
  | .user => none
  | .sleep => if s.state t = .runnable then some (s.goto t .user) else none
  | .incrNum c l =>
    some { s.goto t (.release c l) with
      num := Function.update s.num c ((s.num c + 1) % 2 ^ 32) }
  | .release c l =>
    some { s.goto t (.readNum c l) with
      locked := Function.update s.locked l 0
      holder := Function.update s.holder l none }
  | .readNum c l => some (s.goto t (.sysCondsleep c l (s.num c)))
  | .sysCondsleep c l n =>
    if argptr (prog.sz (prog.proc t)) n then
      if s.cvlock = none then
        some { (s.clear prog (prog.proc t) n).goto t (.condsleep c l n) with cvlock := some t }
      else none
    else some (s.goto t (.reacquire c l))
  | .condsleep c l n =>
    some { s.goto t (.asleep c l n) with
      chanId := Function.update s.chanId t n
      state := Function.update s.state t .sleeping
      cvlock := none }
  | .asleep c l _ =>
    if s.state t = .runnable ∧ s.cvlock = none then
      some { s.goto t (.reacquire c l) with chanId := Function.update s.chanId t 0 }
    else none
  | .reacquire _ l =>
    if s.locked l = 0 then
      some { s.goto t .user with
        locked := Function.update s.locked l 1
        holder := Function.update s.holder l (some t) }
    else none
  | .testNum c => some (s.goto t (if s.num c ≠ s.curr c then .incrCurr c else .user))
  | .incrCurr c =>
    some { s.goto t (.readCurr c) with
      curr := Function.update s.curr c ((s.curr c + 1) % 2 ^ 32) }
  | .readCurr c => some (s.goto t (.condwakeup c (s.curr c)))
  | .condwakeup _ n => some ((s.wakeAll n).goto t .user)

/-- All the threads and the kernel. -/
def condvars (prog : Program T P C L) : Machine (State T C L) (Label T C L) where
  next s l :=
    match l with
    | .lockAcquire t l =>
      match s.pc t with
      | .user =>
        if prog.lockProc l = prog.proc t ∧ s.locked l = 0 then
          some { s with
            locked := Function.update s.locked l 1
            holder := Function.update s.holder l (some t) }
        else none
      | _ => none
    | .lockRelease t l =>
      match s.pc t with
      | .user =>
        if prog.lockProc l = prog.proc t then
          some { s with
            locked := Function.update s.locked l 0
            holder := Function.update s.holder l none }
        else none
      | _ => none
    | .cvWait t c l =>
      match s.pc t with
      | .user =>
        if prog.condProc c = prog.proc t ∧ prog.lockProc l = prog.proc t then
          some (s.goto t (.incrNum c l))
        else none
      | _ => none
    | .cvSignal t c =>
      match s.pc t with
      | .user => if prog.condProc c = prog.proc t then some (s.goto t (.testNum c)) else none
      | _ => none
    | .sleep t =>
      match s.pc t with
      | .user =>
        some { s.goto t .sleep with state := Function.update s.state t .sleeping }
      | _ => none
    | .wakeup t =>
      match s.pc t with
      | .sleep => some { s with state := Function.update s.state t .runnable }
      | _ => none
    | .advance t => advance prog s t

/-- All memory is zero and every thread is in its program. -/
def condInit : State T C L where
  num _ := 0
  curr _ := 0
  locked _ := 0
  holder _ := none
  pc _ := .user
  state _ := .runnable
  chanId _ := 0
  cvlock := none

/-! ### The steps, one by one -/

/-- What the steps of `condvars` do. -/
inductive Step (prog : Program T P C L) (s : State T C L) : Label T C L → State T C L → Prop
  | lockAcquire (t : T) (l : L) : s.pc t = .user → prog.lockProc l = prog.proc t →
      s.locked l = 0 →
      Step prog s (.lockAcquire t l)
        { s with
          locked := Function.update s.locked l 1
          holder := Function.update s.holder l (some t) }
  | lockRelease (t : T) (l : L) : s.pc t = .user → prog.lockProc l = prog.proc t →
      Step prog s (.lockRelease t l)
        { s with
          locked := Function.update s.locked l 0
          holder := Function.update s.holder l none }
  | cvWait (t : T) (c : C) (l : L) : s.pc t = .user → prog.condProc c = prog.proc t →
      prog.lockProc l = prog.proc t →
      Step prog s (.cvWait t c l) (s.goto t (.incrNum c l))
  | cvSignal (t : T) (c : C) : s.pc t = .user → prog.condProc c = prog.proc t →
      Step prog s (.cvSignal t c) (s.goto t (.testNum c))
  | sleep (t : T) : s.pc t = .user →
      Step prog s (.sleep t)
        { s.goto t .sleep with state := Function.update s.state t .sleeping }
  | wakeup (t : T) : s.pc t = .sleep →
      Step prog s (.wakeup t) { s with state := Function.update s.state t .runnable }
  | awake (t : T) : s.pc t = .sleep → s.state t = .runnable →
      Step prog s (.advance t) (s.goto t .user)
  | incrNum (t : T) (c : C) (l : L) : s.pc t = .incrNum c l →
      Step prog s (.advance t)
        { s.goto t (.release c l) with num := Function.update s.num c ((s.num c + 1) % 2 ^ 32) }
  | release (t : T) (c : C) (l : L) : s.pc t = .release c l →
      Step prog s (.advance t)
        { s.goto t (.readNum c l) with
          locked := Function.update s.locked l 0
          holder := Function.update s.holder l none }
  | readNum (t : T) (c : C) (l : L) : s.pc t = .readNum c l →
      Step prog s (.advance t) (s.goto t (.sysCondsleep c l (s.num c)))
  | sysCondsleep (t : T) (c : C) (l : L) (n : ℕ) : s.pc t = .sysCondsleep c l n →
      argptr (prog.sz (prog.proc t)) n → s.cvlock = none →
      Step prog s (.advance t)
        { (s.clear prog (prog.proc t) n).goto t (.condsleep c l n) with cvlock := some t }
  | sysCondsleepFails (t : T) (c : C) (l : L) (n : ℕ) : s.pc t = .sysCondsleep c l n →
      ¬ argptr (prog.sz (prog.proc t)) n →
      Step prog s (.advance t) (s.goto t (.reacquire c l))
  | condsleep (t : T) (c : C) (l : L) (n : ℕ) : s.pc t = .condsleep c l n →
      Step prog s (.advance t)
        { s.goto t (.asleep c l n) with
          chanId := Function.update s.chanId t n
          state := Function.update s.state t .sleeping
          cvlock := none }
  | asleep (t : T) (c : C) (l : L) (n : ℕ) : s.pc t = .asleep c l n → s.state t = .runnable →
      Step prog s (.advance t)
        { s.goto t (.reacquire c l) with chanId := Function.update s.chanId t 0 }
  | reacquire (t : T) (c : C) (l : L) : s.pc t = .reacquire c l → s.locked l = 0 →
      Step prog s (.advance t)
        { s.goto t .user with
          locked := Function.update s.locked l 1
          holder := Function.update s.holder l (some t) }
  | testNum (t : T) (c : C) : s.pc t = .testNum c → s.num c ≠ s.curr c →
      Step prog s (.advance t) (s.goto t (.incrCurr c))
  | testNumEq (t : T) (c : C) : s.pc t = .testNum c → s.num c = s.curr c →
      Step prog s (.advance t) (s.goto t .user)
  | incrCurr (t : T) (c : C) : s.pc t = .incrCurr c →
      Step prog s (.advance t)
        { s.goto t (.readCurr c) with
          curr := Function.update s.curr c ((s.curr c + 1) % 2 ^ 32) }
  | readCurr (t : T) (c : C) : s.pc t = .readCurr c →
      Step prog s (.advance t) (s.goto t (.condwakeup c (s.curr c)))
  | condwakeup (t : T) (c : C) (n : ℕ) : s.pc t = .condwakeup c n →
      Step prog s (.advance t) ((s.wakeAll n).goto t .user)

variable {prog : Program T P C L} {s s' : State T C L}

theorem step_of_advance {t : T} (h : advance prog s t = some s') :
    Step prog s (.advance t) s' := by
  unfold advance at h
  split at h
  case h_1 => cases h
  case h_2 hpc => split at h <;> cases h; exact .awake t hpc ‹_›
  case h_3 c l hpc => cases h; exact .incrNum t c l hpc
  case h_4 c l hpc => cases h; exact .release t c l hpc
  case h_5 c l hpc => cases h; exact .readNum t c l hpc
  case h_6 c l n hpc =>
    split at h
    · split at h <;> cases h
      exact .sysCondsleep t c l n hpc ‹_› ‹_›
    · cases h; exact .sysCondsleepFails t c l n hpc ‹_›
  case h_7 c l n hpc => cases h; exact .condsleep t c l n hpc
  case h_8 c l n hpc =>
    split at h <;> cases h
    next hr => exact .asleep t c l n hpc hr.1
  case h_9 c l hpc => split at h <;> cases h; exact .reacquire t c l hpc ‹_›
  case h_10 c hpc =>
    cases h
    split
    · exact .testNum t c hpc ‹_›
    · next hn => exact .testNumEq t c hpc (not_not.1 hn)
  case h_11 c hpc => cases h; exact .incrCurr t c hpc
  case h_12 c hpc => cases h; exact .readCurr t c hpc
  case h_13 c n hpc => cases h; exact .condwakeup t c n hpc

theorem step_of_next {l : Label T C L} (h : (condvars prog).next s l = some s') :
    Step prog s l s' := by
  simp only [condvars] at h
  cases l with
  | advance t => exact step_of_advance h
  | lockAcquire t l =>
    dsimp only at h; split at h
    · split at h <;> cases h
      next hl => exact .lockAcquire t l ‹_› hl.1 hl.2
    · cases h
  | lockRelease t l =>
    dsimp only at h; split at h
    · split at h <;> cases h
      exact .lockRelease t l ‹_› ‹_›
    · cases h
  | cvWait t c l =>
    dsimp only at h; split at h
    · split at h <;> cases h
      next hp => exact .cvWait t c l ‹_› hp.1 hp.2
    · cases h
  | cvSignal t c =>
    dsimp only at h; split at h
    · split at h <;> cases h
      exact .cvSignal t c ‹_› ‹_›
    · cases h
  | sleep t =>
    dsimp only at h; split at h <;> cases h
    exact .sleep t ‹_›
  | wakeup t =>
    dsimp only at h; split at h <;> cases h
    exact .wakeup t ‹_›

end

/-! ### Who is woken up -/

section

variable {T C L : Type*} {s s' : State T C L}

/-- Thread `t` sleeps in `cv_wait` on `c` under the number `n`. -/
def State.SleepsOn (s : State T C L) (t : T) (c : C) (n : ℕ) : Prop :=
  s.state t = .sleeping ∧ ∃ l, s.pc t = .asleep c l n

/-- The step from `s` to `s'` makes thread `t` runnable. -/
def Wakes (s s' : State T C L) (t : T) : Prop := s.state t = .sleeping ∧ s'.state t = .runnable

/-- The condition under which a step keeps the signals apart: a thread goes to sleep on a variable
under a number under which no other one sleeps on it; and when the variable signals a number, this
is not zero and no thread sleeps under it on another variable. -/
def KeepsApart (s : State T C L) : Label T C L → Prop
  | .advance t =>
    match s.pc t with
    | .condsleep c _ n => ∀ t', t' ≠ t → ¬ s.SleepsOn t' c n
    | .condwakeup c n => n ≠ 0 ∧ ∀ t' c', c' ≠ c → ¬ s.SleepsOn t' c' n
    | _ => True
  | _ => True

instance [DecidableEq C] [DecidableEq L] [Fintype L] (s : State T C L) (t : T) (c : C) (n : ℕ) :
    Decidable (s.SleepsOn t c n) :=
  inferInstanceAs (Decidable (_ ∧ _))

instance [DecidableEq T] [DecidableEq C] [DecidableEq L] [Fintype T] [Fintype C] [Fintype L]
    (s : State T C L) : ∀ lab, Decidable (KeepsApart s lab)
  | .advance t => by
    unfold KeepsApart
    dsimp only
    generalize s.pc t = pc
    induction pc using Pc.casesOn <;> dsimp only <;> infer_instance
  | .lockAcquire _ _ | .lockRelease _ _ | .cvWait _ _ _ | .cvSignal _ _ | .sleep _ | .wakeup _ =>
    isTrue trivial

/-- What `chanId` says about a thread. -/
structure Identified (s : State T C L) : Prop where
  /-- In `condsleep` it is the number the thread sleeps under. -/
  chanId : ∀ t c l n, s.pc t = .asleep c l n → s.chanId t = n
  /-- Every other thread that sleeps has the default number. -/
  sleeping : ∀ t, s.state t = .sleeping → (∃ c l n, s.pc t = .asleep c l n) ∨ s.chanId t = 0
  default : ∀ t, (∀ c l n, s.pc t ≠ .asleep c l n) → s.chanId t = 0
  /-- No two threads sleep on one variable under one number. -/
  apart : ∀ t₁ t₂ c n, s.SleepsOn t₁ c n → s.SleepsOn t₂ c n → t₁ = t₂

theorem identified_init : Identified (condInit : State T C L) where
  chanId t c l n h := by cases h
  sleeping t h := by cases h
  default t _ := rfl
  apart t₁ t₂ c n h _ := by cases h.1

variable [DecidableEq T]

@[simp] theorem goto_pc_self (s : State T C L) (t : T) (pc : Pc C L) : (s.goto t pc).pc t = pc :=
  Function.update_self ..

theorem goto_pc_of_ne (s : State T C L) {t t' : T} (pc : Pc C L) (h : t' ≠ t) :
    (s.goto t pc).pc t' = s.pc t' := Function.update_of_ne h ..

/-- A step after which `t` is not in `sched`, and which lets nobody but `t` sleep. -/
theorem Identified.of_goto (hi : Identified s) {t : T} {pc : Pc C L}
    (hpc : s'.pc = (s.goto t pc).pc) (hnew : ∀ c l n, pc ≠ .asleep c l n)
    (hchan : ∀ t', t' ≠ t → s'.chanId t' = s.chanId t') (hzero : s'.chanId t = 0)
    (hstate : ∀ t', t' ≠ t → s'.state t' = .sleeping → s.state t' = .sleeping) :
    Identified s' := by
  have hasleep : ∀ t' c l n, s'.pc t' = .asleep c l n → t' ≠ t ∧ s.pc t' = .asleep c l n := by
    intro t' c l n h
    rw [hpc] at h
    rcases eq_or_ne t' t with rfl | hne
    · rw [goto_pc_self] at h
      exact absurd h (hnew c l n)
    · exact ⟨hne, by rwa [goto_pc_of_ne _ _ hne] at h⟩
  have hdef : ∀ t', (∀ c l n, s'.pc t' ≠ .asleep c l n) → s'.chanId t' = 0 := by
    intro t' h
    rcases eq_or_ne t' t with rfl | hne
    · exact hzero
    · rw [hchan t' hne]
      exact hi.default t' fun c l n h' => h c l n (by rw [hpc, goto_pc_of_ne _ _ hne, h'])
  refine ⟨fun t' c l n h => ?_, fun t' _ => ?_, hdef, fun t₁ t₂ c n h₁ h₂ => ?_⟩
  · obtain ⟨hne, h⟩ := hasleep t' c l n h
    rw [hchan t' hne]
    exact hi.chanId t' c l n h
  · by_cases h : ∃ c l n, s'.pc t' = .asleep c l n
    · exact Or.inl h
    · exact Or.inr (hdef t' (by simpa using h))
  · obtain ⟨hs₁, l₁, h₁⟩ := h₁
    obtain ⟨hs₂, l₂, h₂⟩ := h₂
    obtain ⟨hne₁, h₁⟩ := hasleep _ _ _ _ h₁
    obtain ⟨hne₂, h₂⟩ := hasleep _ _ _ _ h₂
    exact hi.apart t₁ t₂ c n ⟨hstate t₁ hne₁ hs₁, l₁, h₁⟩ ⟨hstate t₂ hne₂ hs₂, l₂, h₂⟩

/-- A thread goes to sleep under a number that is free on its variable. -/
theorem Identified.condsleep (hi : Identified s) {t : T} {c : C} {l : L} {n : ℕ}
    (hfree : ∀ t', t' ≠ t → ¬ s.SleepsOn t' c n) :
    Identified { s.goto t (.asleep c l n) with
      chanId := Function.update s.chanId t n
      state := Function.update s.state t .sleeping
      cvlock := none } := by
  -- the others sleep where they slept, and `t` under its number only
  have hother : ∀ t' c' m, t' ≠ t → State.SleepsOn { s.goto t (.asleep c l n) with
      chanId := Function.update s.chanId t n
      state := Function.update s.state t .sleeping
      cvlock := none } t' c' m → s.SleepsOn t' c' m := by
    rintro t' c' m hne ⟨hs, l', h⟩
    simp only [goto_pc_of_ne _ _ hne] at h
    exact ⟨by simpa [hne] using hs, l', h⟩
  have hself : ∀ c' m, State.SleepsOn { s.goto t (.asleep c l n) with
      chanId := Function.update s.chanId t n
      state := Function.update s.state t .sleeping
      cvlock := none } t c' m → c' = c ∧ m = n := by
    rintro c' m ⟨-, l', h⟩
    simp only [goto_pc_self, Pc.asleep.injEq] at h
    exact ⟨h.1.symm, h.2.2.symm⟩
  refine ⟨fun t' c' l' m h => ?_, fun t' h => ?_, fun t' h => ?_, fun t₁ t₂ c' m h₁ h₂ => ?_⟩
  · rcases eq_or_ne t' t with rfl | hne
    · simp only [goto_pc_self, Pc.asleep.injEq] at h
      simp [h.2.2]
    · simp only [goto_pc_of_ne _ _ hne] at h
      simpa [hne] using hi.chanId t' c' l' m h
  · rcases eq_or_ne t' t with rfl | hne
    · exact Or.inl ⟨c, l, n, goto_pc_self ..⟩
    · simpa [goto_pc_of_ne, hne] using hi.sleeping t' (by simpa [hne] using h)
  · rcases eq_or_ne t' t with rfl | hne
    · exact absurd (goto_pc_self ..) (h c l n)
    · simpa [hne] using hi.default t' (by simpa [goto_pc_of_ne, hne] using h)
  · by_cases hne₁ : t₁ = t <;> by_cases hne₂ : t₂ = t
    · exact hne₁.trans hne₂.symm
    · obtain ⟨rfl, rfl⟩ := hself c' m (hne₁ ▸ h₁)
      exact absurd (hother _ _ _ hne₂ h₂) (hfree t₂ hne₂)
    · obtain ⟨rfl, rfl⟩ := hself c' m (hne₂ ▸ h₂)
      exact absurd (hother _ _ _ hne₁ h₁) (hfree t₁ hne₁)
    · exact hi.apart t₁ t₂ c' m (hother _ _ _ hne₁ h₁) (hother _ _ _ hne₂ h₂)

/-- The threads that `condwakeup` makes runnable are those that sleep under its number. -/
theorem sleepsOn_of_wakes {t t₁ : T} {c : C} {n : ℕ} (hi : Identified s)
    (hg : KeepsApart s (.advance t)) (hpc : s.pc t = .condwakeup c n)
    (hw : Wakes s ((s.wakeAll n).goto t .user) t₁) : s.SleepsOn t₁ c n := by
  obtain ⟨hn, hother⟩ : n ≠ 0 ∧ ∀ t' c', c' ≠ c → ¬ s.SleepsOn t' c' n := by
    simpa only [KeepsApart, hpc] using hg
  obtain ⟨hs, hr⟩ := hw
  have hchan : s.chanId t₁ = n := by
    by_contra hne
    simp [State.goto, State.wakeAll, hs, hne] at hr
  rcases hi.sleeping t₁ hs with ⟨c', l, m, h⟩ | h
  · obtain rfl : m = n := (hi.chanId t₁ c' l m h).symm.trans hchan
    rcases eq_or_ne c' c with rfl | hne
    · exact ⟨hs, l, h⟩
    · exact absurd ⟨hs, l, h⟩ (hother t₁ c' hne)
  · exact absurd (hchan.symm.trans h) hn

variable {P : Type*} [DecidableEq P] [DecidableEq C] [DecidableEq L] {prog : Program T P C L}

theorem identified_step {lab : Label T C L} (hi : Identified s) (hg : KeepsApart s lab)
    (h : Step prog s lab s') : Identified s' := by
  cases h with
  | lockAcquire t l hpc hp hl | lockRelease t l hpc hp =>
    exact ⟨hi.chanId, hi.sleeping, hi.default, hi.apart⟩
  | cvWait t c l hpc hp hl | cvSignal t c hpc hp | awake t hpc hr | incrNum t c l hpc
  | release t c l hpc | readNum t c l hpc | sysCondsleep t c l n hpc ha hcv
  | sysCondsleepFails t c l n hpc ha | reacquire t c l hpc hl | testNum t c hpc hn
  | testNumEq t c hpc hn | incrCurr t c hpc | readCurr t c hpc =>
    exact hi.of_goto (t := t) rfl (by simp) (fun _ _ => rfl) (hi.default t (by simp [hpc]))
      fun _ _ => id
  | sleep t hpc =>
    exact hi.of_goto (t := t) rfl (by simp) (fun _ _ => rfl) (hi.default t (by simp [hpc]))
      fun t' hne h => by simpa [hne] using h
  | wakeup t hpc =>
    have hsame : s.pc = (s.goto t .sleep).pc := by
      rw [State.goto, ← hpc, Function.update_eq_self]
    exact hi.of_goto (t := t) hsame (by simp) (fun _ _ => rfl) (hi.default t (by simp [hpc]))
      fun t' hne h => by simpa [hne] using h
  | condwakeup t c n hpc =>
    refine hi.of_goto (t := t) rfl (by simp) (fun _ _ => rfl) (hi.default t (by simp [hpc]))
      fun t' _ h => ?_
    simp only [State.goto, State.wakeAll] at h
    split_ifs at h
    exact h
  | condsleep t c l n hpc =>
    exact hi.condsleep (by simpa [KeepsApart, hpc] using hg)
  | asleep t c l n hpc hr =>
    exact hi.of_goto (t := t) rfl (by simp) (fun t' hne => by simp [hne]) (by simp)
      fun _ _ => id

variable (prog) in
/-- A step that is the wakeup of a `cv_signal` makes at most one thread runnable, and only one that
is inside `cv_wait` on the same variable. -/
def OneSignalled (s : State T C L) (lab : Label T C L) : Prop :=
  ∀ t c n s', lab = .advance t → s.pc t = .condwakeup c n →
    (condvars prog).next s lab = some s' →
    (∀ t₁ t₂, Wakes s s' t₁ → Wakes s s' t₂ → t₁ = t₂) ∧
      ∀ t₁, Wakes s s' t₁ → ∃ l m, s.pc t₁ = .asleep c l m

/-- **Signals stay on their condition variable**, in every run in which no two threads go to sleep
on one variable under the same number, no number that a variable signals is one under which a thread
sleeps on another variable, and none is zero. -/
theorem one_signalled {ls : List (Label T C L)}
    (hg : (condvars prog).Allowed KeepsApart condInit ls) :
    (condvars prog).Allowed (OneSignalled prog) condInit ls := by
  refine hg.of_invariant identified_init (fun s lab s' hi hg h => identified_step hi hg
    (step_of_next h)) fun s lab hi hg t c n s' hlab hpc h => ?_
  subst hlab
  obtain rfl : (s.wakeAll n).goto t .user = s' := by
    simpa [condvars, advance, hpc] using h
  refine ⟨fun t₁ t₂ h₁ h₂ => ?_, fun t₁ h₁ => ?_⟩
  · exact hi.apart t₁ t₂ c n (sleepsOn_of_wakes hi hg hpc h₁) (sleepsOn_of_wakes hi hg hpc h₂)
  · obtain ⟨-, l, h⟩ := sleepsOn_of_wakes hi hg hpc h₁
    exact ⟨l, n, h⟩

end

/-! ### Two variables -/

/-- A process with three threads, two variables and a lock. -/
def twoConds : Program (Fin 3) Unit (Fin 2) Unit where
  proc _ := ()
  sz _ := 16384
  condProc _ := ()
  condAddr c := 8192 + 16 * c
  lockProc _ := ()
  lockAddr _ := 8224

/-- Thread `t` waits on variable `c`. -/
def waitOn (t : Fin 3) (c : Fin 2) : List (Label (Fin 3) (Fin 2) Unit) :=
  [.lockAcquire t (), .cvWait t c (), .advance t, .advance t, .advance t, .advance t, .advance t]

/-- Thread `t` signals variable `c`, up to `condwakeup`. -/
def signalTo (t : Fin 3) (c : Fin 2) : List (Label (Fin 3) (Fin 2) Unit) :=
  [.lockAcquire t (), .cvSignal t c, .advance t, .advance t, .advance t]

/-- Threads `0` and `1` wait on one variable each, and thread `2` is about to wake up the waiter of
the first one. -/
def oneEach : List (Label (Fin 3) (Fin 2) Unit) := waitOn 0 0 ++ waitOn 1 1 ++ signalTo 2 0

/-- Both variables have one thread waiting, under the number `1`: a signal wakes up both. -/
theorem not_oneSignalled : ((condvars twoConds).run condInit (oneEach ++ [.advance 2])).isSome ∧
    ¬ (condvars twoConds).Allowed (OneSignalled twoConds) condInit (oneEach ++ [.advance 2]) := by
  have hrun : ∃ s, (condvars twoConds).run condInit oneEach = some s ∧
      s.pc 2 = .condwakeup 0 1 ∧ s.state 0 = .sleeping ∧ s.state 1 = .sleeping ∧
      s.chanId 0 = 1 ∧ s.chanId 1 = 1 :=
    ⟨_, rfl, by decide +kernel, by decide +kernel, by decide +kernel, by decide +kernel,
      by decide +kernel⟩
  obtain ⟨s, hs, hpc, h0, h1, hc0, hc1⟩ := hrun
  have hnext : (condvars twoConds).next s (.advance 2) = some ((s.wakeAll 1).goto 2 .user) := by
    simp [condvars, advance, hpc]
  refine ⟨by decide +kernel, fun h => ?_⟩
  have hlast := ((Machine.allowed_append.1 h).2 s hs).1 2 0 1 _ rfl hpc hnext
  have h01 : (0 : Fin 3) = 1 :=
    hlast.1 0 1 ⟨h0, by simp [State.goto, State.wakeAll, h0, hc0]⟩
      ⟨h1, by simp [State.goto, State.wakeAll, h1, hc1]⟩
  cases h01

/-- One thread waits and is signalled. -/
theorem one_signalled_one_waiter :
    (condvars twoConds).Allowed (OneSignalled twoConds) condInit
      (waitOn 0 0 ++ signalTo 2 0 ++ [.advance 2]) :=
  one_signalled (by decide +kernel)

end Cond

end Threads

end OperatingSystems

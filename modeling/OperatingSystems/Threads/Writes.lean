import OperatingSystems.Threads.Condition

/-!
# What condition variables write

`cv_wait` and `cv_signal` once more, now over the bytes of the processes, with variables and locks at
any address: `sys_condsleep` fetches its argument as the number to sleep under, and again as the address
of a lock, whose first word it clears.

The stacks of the threads, where their calls put arguments, are not modelled.

* `Memory` : the bytes of every process, the threads and the kernel.
* `waits` : the machine of all interleavings of the calls with the programs around them.
* `Confined` : a step of a call changes nothing but its variable and its lock.
* `Harmless` : what `sys_condsleep` clears belongs to them, or is clear already.
* `confined_iff` : **the calls write only their own memory exactly in the runs whose steps are all
  harmless**.
* `not_confined` : the first wait on a variable clears four bytes of the text of the program.
-/

namespace OperatingSystems

namespace Threads

namespace Writes

open Bytes

open Cond (Pc argptr)

/-- The bytes of the processes `P`, the threads `T` and the kernel. -/
structure Memory (T P : Type*) where
  mem : P → Bytes
  sz : P → ℕ
  pc : T → Pc ℕ ℕ
  state : T → Cond.ProcState
  chanId : T → ℕ
  /-- The holder of `cvlock`. -/
  cvlock : Option T

/-- Which thread makes which step. -/
inductive Act (T : Type*) where
  /-- The program, or a system call of its own, changes the memory and the size of the process. -/
  | user (t : T) (mem : Bytes) (sz : ℕ)
  /-- A call of `cv_wait`, with the addresses of the variable and of the lock. -/
  | cvWait (t : T) (cond lock : ℕ)
  /-- A call of `cv_signal`. -/
  | cvSignal (t : T) (cond : ℕ)
  /-- The next statement of a thread that is in one of the calls. -/
  | advance (t : T)

namespace Memory

variable {T P : Type*} [DecidableEq T] [DecidableEq P]

/-- Thread `t` goes to `pc`. -/
def goto (s : Memory T P) (t : T) (pc : Pc ℕ ℕ) : Memory T P :=
  { s with pc := Function.update s.pc t pc }

/-- The kernel writes the word `v` at address `a` of the process `p`. -/
def poke (s : Memory T P) (p : P) (a v : ℕ) : Memory T P :=
  { s with mem := Function.update s.mem p (patch (s.mem p) a 4 (ofNat v)) }

/-- A process reads a word of its memory; behind its end that is a fault, and it does not go on. -/
def load (s : Memory T P) (p : P) (a : ℕ) : Option ℕ :=
  if a + 4 ≤ s.sz p then some (toNat 4 (slice (s.mem p) a)) else none

/-- A process writes a word of its memory. -/
def store (s : Memory T P) (p : P) (a v : ℕ) : Option (Memory T P) :=
  if a + 4 ≤ s.sz p then some (s.poke p a v) else none

/-- The loop of `condwakeup`. -/
def wakeAll (s : Memory T P) (n : ℕ) : Memory T P :=
  { s with
    state := fun t => if s.state t = .sleeping ∧ s.chanId t = n then .runnable else s.state t }

/-- The next statement of thread `t` of the process `p`; `none` if it has to wait, or faults.  The
words of a `cond_t` at `c` are `num` and `curr`, the first word of a `lock_t` is `locked`. -/
def advance (s : Memory T P) (p : P) (t : T) : Option (Memory T P) :=
  match s.pc t with
  | .user | .sleep => none
  | .incrNum c l =>
    (s.load p c).bind fun num =>
      (s.store p c (num + 1)).map fun s => s.goto t (.release c l)
  | .release c l => (s.store p l 0).map fun s => s.goto t (.readNum c l)
  | .readNum c l => (s.load p c).map fun num => s.goto t (.sysCondsleep c l num)
  | .sysCondsleep c l n =>
    if argptr (s.sz p) n then
      if s.cvlock = none then
        some { (s.poke p n 0).goto t (.condsleep c l n) with cvlock := some t }
      else none
    else some (s.goto t (.reacquire c l))
  | .condsleep c l n =>
    some { s.goto t (.asleep c l n) with
      chanId := Function.update s.chanId t n
      state := Function.update s.state t .sleeping
      cvlock := none }
  | .asleep c l _ =>
    if s.state t = .runnable ∧ s.cvlock = none then
      some { s.goto t (.reacquire c l) with chanId := Function.update s.chanId t 0 }
    else none
  | .reacquire c l =>
    (s.load p l).bind fun locked =>
      (s.store p l 1).map fun s => s.goto t (if locked = 0 then .user else .reacquire c l)
  | .testNum c =>
    (s.load p c).bind fun num =>
      (s.load p (c + 4)).map fun curr => s.goto t (if num ≠ curr then .incrCurr c else .user)
  | .incrCurr c =>
    (s.load p (c + 4)).bind fun curr =>
      (s.store p (c + 4) (curr + 1)).map fun s => s.goto t (.readCurr c)
  | .readCurr c => (s.load p (c + 4)).map fun curr => s.goto t (.condwakeup c curr)
  | .condwakeup _ n => some ((s.wakeAll n).goto t .user)

end Memory

section

variable {T P : Type*} [DecidableEq T] [DecidableEq P]

/-- All the threads, each in its process, and the kernel. -/
def waits (proc : T → P) : Machine (Memory T P) (Act T) where
  next s act :=
    match act with
    | .user t mem sz =>
      if s.pc t = .user then
        some { s with
          mem := Function.update s.mem (proc t) mem
          sz := Function.update s.sz (proc t) sz }
      else none
    | .cvWait t c l => if s.pc t = .user then some (s.goto t (.incrNum c l)) else none
    | .cvSignal t c => if s.pc t = .user then some (s.goto t (.testNum c)) else none
    | .advance t => s.advance (proc t) t

/-- The byte at `a` belongs to the `cond_t` at `c`. -/
def InCond (c a : ℕ) : Prop := c ≤ a ∧ a < c + 16

/-- The byte at `a` belongs to the `lock_t` at `l`. -/
def InLock (l a : ℕ) : Prop := l ≤ a ∧ a < l + 8

/-- The byte at `a` belongs to the variable or to the lock of the call that a thread is in. -/
def Belongs (a : ℕ) : Pc ℕ ℕ → Prop
  | .user | .sleep => False
  | .incrNum c l | .release c l | .readNum c l | .sysCondsleep c l _ | .condsleep c l _
  | .asleep c l _ | .reacquire c l => InCond c a ∨ InLock l a
  | .testNum c | .incrCurr c | .readCurr c | .condwakeup c _ => InCond c a

/-- From `s` to `s'` no byte has changed, in any process, but for those that belong to the call that
the thread `t` of `p` is in. -/
def Unchanged (s s' : Memory T P) (p : P) (t : T) : Prop :=
  ∀ q a, q = p ∧ Belongs a (s.pc t) ∨ s'.mem q a = s.mem q a

/-- A statement of a call changes only what belongs to the call. -/
def Confined (proc : T → P) (s : Memory T P) : Act T → Prop
  | .user .. => True
  | .cvWait t c l => ∀ s', (waits proc).next s (.cvWait t c l) = some s' → s'.mem = s.mem
  | .cvSignal t c => ∀ s', (waits proc).next s (.cvSignal t c) = some s' → s'.mem = s.mem
  | .advance t => ∀ s', (waits proc).next s (.advance t) = some s' → Unchanged s s' (proc t) t

/-- What `sys_condsleep` clears, if it takes its argument for an address and gets `cvlock`, belongs to
the call or is clear. -/
def Harmless (proc : T → P) (s : Memory T P) : Act T → Prop
  | .advance t =>
    match s.pc t with
    | .sysCondsleep c l n => argptr (s.sz (proc t)) n → s.cvlock = none →
        ∀ i < 4, InCond c (n + i) ∨ InLock l (n + i) ∨ s.mem (proc t) (n + i) = 0
    | _ => True
  | _ => True

variable {s s' : Memory T P} {p : P} {t : T} {a v : ℕ}

omit [DecidableEq T] in
theorem poke_mem_self (s : Memory T P) (p : P) (a v : ℕ) :
    (s.poke p a v).mem p = patch (s.mem p) a 4 (ofNat v) := Function.update_self ..

omit [DecidableEq T] in
theorem poke_mem_of_ne (s : Memory T P) (a v : ℕ) {q : P} (h : q ≠ p) :
    (s.poke p a v).mem q = s.mem q := Function.update_of_ne h ..

omit [DecidableEq T] in
theorem store_eq_some (h : s.store p a v = some s') : s' = s.poke p a v := by
  unfold Memory.store at h
  split_ifs at h
  exact (Option.some.inj h).symm

omit [DecidableEq T] in
/-- A word that belongs to the call is written. -/
theorem Unchanged.poke (hmem : s'.mem = (s.poke p a v).mem)
    (h : ∀ i < 4, Belongs (a + i) (s.pc t)) : Unchanged s s' p t := by
  intro q b
  rw [hmem]
  rcases eq_or_ne q p with rfl | hne
  · by_cases hb : a ≤ b ∧ b < a + 4
    · obtain ⟨i, rfl⟩ := Nat.exists_eq_add_of_le hb.1
      exact Or.inl ⟨rfl, h i (by omega)⟩
    · exact Or.inr (by rw [poke_mem_self, patch, if_neg hb])
  · exact Or.inr (by rw [poke_mem_of_ne s a v hne])

omit [DecidableEq T] [DecidableEq P] in
theorem Unchanged.of_mem (hmem : s'.mem = s.mem) : Unchanged s s' p t :=
  fun q b => Or.inr (by rw [hmem])

/-- The statements of the library and of the kernel, but for the one that clears a word, write words of
the variable and of the lock. -/
theorem unchanged_of_ne (hpc : ∀ c l n, s.pc t ≠ .sysCondsleep c l n)
    (h : s.advance p t = some s') : Unchanged s s' p t := by
  unfold Memory.advance at h
  cases hcall : s.pc t with
  | user | sleep => rw [hcall] at h; cases h
  | incrNum c l =>
    rw [hcall] at h
    obtain ⟨num, -, h⟩ := Option.bind_eq_some_iff.1 h
    obtain ⟨s₁, hstore, rfl⟩ := Option.map_eq_some_iff.1 h
    obtain rfl := store_eq_some hstore
    -- `num` is the first word of the variable
    refine .poke rfl fun i hi => ?_
    rw [hcall]
    exact Or.inl ⟨by omega, by omega⟩
  | release c l =>
    rw [hcall] at h
    obtain ⟨s₁, hstore, rfl⟩ := Option.map_eq_some_iff.1 h
    obtain rfl := store_eq_some hstore
    refine .poke rfl fun i hi => ?_
    rw [hcall]
    exact Or.inr ⟨by omega, by omega⟩
  | readNum c l =>
    rw [hcall] at h
    obtain ⟨num, -, rfl⟩ := Option.map_eq_some_iff.1 h
    exact .of_mem rfl
  | sysCondsleep c l n => exact absurd hcall (hpc c l n)
  | condsleep c l n => rw [hcall] at h; cases h; exact .of_mem rfl
  | asleep c l n =>
    rw [hcall] at h
    dsimp only at h
    split at h <;> cases h
    exact .of_mem rfl
  | reacquire c l =>
    rw [hcall] at h
    obtain ⟨locked, -, h⟩ := Option.bind_eq_some_iff.1 h
    obtain ⟨s₁, hstore, rfl⟩ := Option.map_eq_some_iff.1 h
    obtain rfl := store_eq_some hstore
    refine .poke rfl fun i hi => ?_
    rw [hcall]
    exact Or.inr ⟨by omega, by omega⟩
  | testNum c =>
    rw [hcall] at h
    obtain ⟨num, -, h⟩ := Option.bind_eq_some_iff.1 h
    obtain ⟨curr, -, rfl⟩ := Option.map_eq_some_iff.1 h
    exact .of_mem rfl
  | incrCurr c =>
    rw [hcall] at h
    obtain ⟨curr, -, h⟩ := Option.bind_eq_some_iff.1 h
    obtain ⟨s₁, hstore, rfl⟩ := Option.map_eq_some_iff.1 h
    obtain rfl := store_eq_some hstore
    refine .poke rfl fun i hi => ?_
    rw [hcall]
    exact ⟨by omega, by omega⟩
  | readCurr c =>
    rw [hcall] at h
    obtain ⟨curr, -, rfl⟩ := Option.map_eq_some_iff.1 h
    exact .of_mem rfl
  | condwakeup c n => rw [hcall] at h; cases h; exact .of_mem rfl

theorem ofNat_zero (i : ℕ) : ofNat 0 i = 0 := by simp [ofNat]

/-- `sys_condsleep` changes nothing else exactly if what it clears belongs to the call or is clear. -/
theorem unchanged_sysCondsleep {c l n : ℕ} (hpc : s.pc t = .sysCondsleep c l n) :
    (∀ s', s.advance p t = some s' → Unchanged s s' p t) ↔
      (argptr (s.sz p) n → s.cvlock = none →
        ∀ i < 4, InCond c (n + i) ∨ InLock l (n + i) ∨ s.mem p (n + i) = 0) := by
  simp only [Memory.advance, hpc]
  split_ifs with harg hcv
  · simp only [harg, hcv, true_implies, Option.some.injEq, forall_eq']
    constructor
    · intro h i hi
      rcases h p (n + i) with ⟨-, hb⟩ | heq
      · rw [hpc] at hb
        exact hb.imp_right Or.inl
      · refine Or.inr (Or.inr ?_)
        change (s.poke p n 0).mem p (n + i) = _ at heq
        rw [poke_mem_self, patch_add hi, ofNat_zero] at heq
        exact heq.symm
    · intro h q b
      by_cases hb : q = p ∧ n ≤ b ∧ b < n + 4
      · obtain ⟨rfl, hle, hlt⟩ := hb
        obtain ⟨i, rfl⟩ := Nat.exists_eq_add_of_le hle
        rw [hpc]
        rcases h i (by omega) with hc | hl | hzero
        · exact Or.inl ⟨rfl, Or.inl hc⟩
        · exact Or.inl ⟨rfl, Or.inr hl⟩
        · refine Or.inr ?_
          change (s.poke q n 0).mem q (n + i) = _
          rw [poke_mem_self, patch_add (by omega), ofNat_zero, hzero]
      · refine Or.inr ?_
        change (s.poke p n 0).mem q b = _
        rcases eq_or_ne q p with rfl | hne
        · rw [poke_mem_self, patch, if_neg fun h => hb ⟨rfl, h⟩]
        · rw [poke_mem_of_ne s n 0 hne]
  · exact iff_of_true (by simp) fun _ h => absurd h hcv
  · refine iff_of_true ?_ fun h => absurd h harg
    rintro s' h
    cases h
    exact .of_mem rfl

theorem confined_iff_harmless (proc : T → P) (s : Memory T P) (act : Act T) :
    Confined proc s act ↔ Harmless proc s act := by
  cases act with
  | user => exact Iff.rfl
  | cvWait t c l =>
    refine iff_of_true (fun s' h => ?_) trivial
    simp only [waits] at h
    split_ifs at h
    cases h
    rfl
  | cvSignal t c =>
    refine iff_of_true (fun s' h => ?_) trivial
    simp only [waits] at h
    split_ifs at h
    cases h
    rfl
  | advance t =>
    by_cases hpc : ∃ c l n, s.pc t = .sysCondsleep c l n
    · obtain ⟨c, l, n, hpc⟩ := hpc
      simp only [Harmless, hpc]
      exact unchanged_sysCondsleep hpc
    · simp only [not_exists] at hpc
      refine iff_of_true (fun s' h => unchanged_of_ne hpc h) ?_
      cases hcall : s.pc t with
      | sysCondsleep c l n => exact absurd hcall (hpc c l n)
      | _ => simp only [Harmless, hcall]

/-- **Condition variables write only their own memory**, in every run from any state, of any threads and
programs, on any variables and locks, if and only if each time `sys_condsleep` takes the number for an
address of the process, the four bytes there belong to the variable or to the lock, or are clear. -/
theorem confined_iff (proc : T → P) (s : Memory T P) (acts : List (Act T)) :
    (waits proc).Allowed (Confined proc) s acts ↔ (waits proc).Allowed (Harmless proc) s acts :=
  ⟨.mono fun s act => (confined_iff_harmless proc s act).1,
    .mono fun s act => (confined_iff_harmless proc s act).2⟩

end

/-- A process of one thread, with a page of text and two of data. -/
def oneThread : Memory Unit Unit where
  mem _ a := if a < 4096 then 0x90 else 0
  sz _ := 3 * 4096
  pc _ := .user
  state _ := .runnable
  chanId _ := 0
  cvlock := none

/-- A wait on a variable and with a lock that are clear, up to `sys_condsleep`. -/
def firstWait : List (Act Unit) :=
  [.cvWait () 4096 8192, .advance (), .advance (), .advance ()]

/-- **The first wait on a variable** that is clear clears the bytes `1` to `4` of the text. -/
theorem not_confined :
    (∃ s, (waits id).run oneThread (firstWait ++ [.advance ()]) = some s ∧
      s.mem () 1 = 0 ∧ oneThread.mem () 1 ≠ 0) ∧
    ¬ (waits id).Allowed (Confined id) oneThread (firstWait ++ [.advance ()]) := by
  have hrun : ∃ s, (waits id).run oneThread firstWait = some s ∧
      s.pc () = .sysCondsleep 4096 8192 1 ∧ s.sz () = 3 * 4096 ∧ s.cvlock = none ∧
      s.mem () 1 ≠ 0 :=
    ⟨_, rfl, by decide +kernel, by decide +kernel, by decide +kernel, by decide +kernel⟩
  obtain ⟨s, hs, hpc, hsz, hcv, hmem⟩ := hrun
  have hnext : (waits id).next s (.advance ()) =
      some { (s.poke () 1 0).goto () (.condsleep 4096 8192 1) with cvlock := some () } := by
    simp [waits, Memory.advance, hpc, hsz, hcv, argptr]
  refine ⟨⟨_, Machine.run_concat_eq_some.2 ⟨s, hs, hnext⟩, rfl, by decide⟩, fun h => ?_⟩
  rcases ((Machine.allowed_append.1 h).2 s hs).1 _ hnext () 1 with ⟨-, hb⟩ | heq
  · rw [hpc] at hb
    simp [Belongs, InCond, InLock] at hb
  · exact hmem heq.symm

end Writes

end Threads

end OperatingSystems

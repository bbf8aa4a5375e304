import OperatingSystems.Threads.Condition
import OperatingSystems.Sync.Dispenser

/-!
# Signals are not lost on a condition variable used under its lock

One condition variable `c` whose calls are all made by threads that hold the lock `l`, among any
other variables, locks, threads and processes.  A thread in `cv_wait` on `c` has a `ticket`, the
value of `num` after its `cond->num++`; the signals call the tickets up in order.

* `HoldsLock` : the calls on `c` are made while holding `l`.
* `NoRace` : no thread is overtaken between its `cond->num++` and its sleep.
* `Guarded` : the calls exclude each other.
* `Ticketed` : the tickets from `curr + 1` to `num` belong to one thread each.
* `Released`, `NoneLost` : what a signal does, and what no state shows.
* `no_lost_wakeup` : every run.
-/

namespace OperatingSystems

namespace Threads

namespace Cond

open Sync

section

variable {T P C L : Type*} [DecidableEq C] [DecidableEq L] {s s' : State T C L}

/-! ### The lock -/

/-- The places at which a thread holds `l` on behalf of `c`, or is about to release it. -/
def Pc.Critical (c : C) (l : L) : Pc C L → Prop
  | .incrNum c' l' | .release c' l' => c' = c ∨ l' = l
  | .testNum c' | .incrCurr c' | .readCurr c' | .condwakeup c' _ => c' = c
  | _ => False

/-- The places between `cond->curr++` and the end of `condwakeup`. -/
def Pc.Pending (c : C) : Pc C L → Prop
  | .readCurr c' | .condwakeup c' _ => c' = c
  | _ => False

/-- A thread that waits on `c` releases `l`. -/
def Pc.Uses (c : C) (l : L) : Pc C L → Prop
  | .incrNum c' l' | .release c' l' => c' = c → l' = l
  | _ => True

/-- The calls on `c` are made, with `l`, by a thread that holds `l`, and only the holder of `l`
releases it. -/
def HoldsLock (c : C) (l : L) (s : State T C L) : Label T C L → Prop
  | .cvWait t c' l' => (c' = c → l' = l) ∧ (l' = l → s.holder l = some t)
  | .cvSignal t c' => c' = c → s.holder l = some t
  | .lockRelease t l' => l' = l → s.holder l = some t
  | _ => True

/-- The calls on `c` exclude each other. -/
structure Guarded (c : C) (l : L) (s : State T C L) : Prop where
  critical : ∀ t, (s.pc t).Critical c l → s.holder l = some t
  uses : ∀ t, (s.pc t).Uses c l
  locked : ∀ t, s.holder l = some t → s.locked l ≠ 0

/-- The condition under which no signal on `c` is lost:
* `num` does not wrap, and is not advanced while a thread has still to read its number;
* on a thread that waits on `c`, `condsleep` does not fail, and no `condsleep` clears a byte of `c`
  or of `l`;
* a number of `c` is signalled only when the thread that has it sleeps, and a number of another
  variable only when no thread sleeps under it on `c`. -/
def NoRace (prog : Program T P C L) (c : C) (l : L) (s : State T C L) : Label T C L → Prop
  | .advance t =>
    match s.pc t with
    | .incrNum c' _ =>
      c' = c → s.num c + 1 < 2 ^ 32 ∧ ∀ t' l', s.pc t' ≠ .readNum c l'
    | .sysCondsleep c' _ n =>
      (c' = c → argptr (prog.sz (prog.proc t)) n) ∧
      (prog.condProc c = prog.proc t → n + 4 ≤ prog.condAddr c ∨ prog.condAddr c + 8 ≤ n) ∧
      (prog.lockProc l = prog.proc t → n + 4 ≤ prog.lockAddr l ∨ prog.lockAddr l + 4 ≤ n)
    | .condwakeup c' n =>
      if c' = c then
        ∀ t' l', ¬ (s.pc t' = .readNum c l' ∧ s.num c = n) ∧ s.pc t' ≠ .sysCondsleep c l' n ∧
          s.pc t' ≠ .condsleep c l' n
      else ∀ t', ¬ s.SleepsOn t' c n
    | _ => True
  | _ => True

instance [DecidableEq T] (c : C) (l : L) (s : State T C L) : ∀ lab, Decidable (HoldsLock c l s lab)
  | .cvWait _ _ _ => inferInstanceAs (Decidable (_ ∧ _))
  | .cvSignal _ _ | .lockRelease _ _ => inferInstanceAs (Decidable (_ → _))
  | .lockAcquire _ _ | .sleep _ | .wakeup _ | .advance _ => isTrue trivial

instance [DecidableEq T] [DecidableEq P] [Fintype T] [Fintype L] (prog : Program T P C L) (c : C)
    (l : L) (s : State T C L) : ∀ lab, Decidable (NoRace prog c l s lab)
  | .advance t => by
    unfold NoRace
    dsimp only
    generalize s.pc t = pc
    induction pc using Pc.casesOn <;> dsimp only <;> infer_instance
  | .lockAcquire _ _ | .lockRelease _ _ | .cvWait _ _ _ | .cvSignal _ _ | .sleep _ | .wakeup _ =>
    isTrue trivial

omit [DecidableEq C] [DecidableEq L] in
/-- Two threads are not in critical places at once. -/
theorem Guarded.alone {c : C} {l : L} (hg : Guarded c l s) {t t' : T}
    (h : (s.pc t).Critical c l) (hne : t' ≠ t) : ¬ (s.pc t').Critical c l := fun h' => by
  have ht := hg.critical t h
  rw [hg.critical t' h'] at ht
  exact hne (Option.some.inj ht)

omit [DecidableEq C] [DecidableEq L] in
theorem Pc.Pending.critical {c : C} {l : L} {pc : Pc C L} (h : pc.Pending c) :
    pc.Critical c l := by
  cases pc <;> simp_all [Pc.Pending, Pc.Critical]

omit [DecidableEq C] [DecidableEq L] in
theorem guarded_init (c : C) (l : L) : Guarded c l (condInit : State T C L) where
  critical t h := h.elim
  uses t := trivial
  locked t h := by cases h

omit [DecidableEq C] [DecidableEq L] in
/-- During the wakeup of a signal no thread is at `lock_release`. -/
theorem Guarded.not_release {c : C} {l : L} (hg : Guarded c l s) {t : T} {n : ℕ}
    (hpc : s.pc t = .condwakeup c n) (t' : T) (l' : L) : s.pc t' ≠ .release c l' := by
  intro hp
  have hne : t' ≠ t := fun h => by rw [h, hpc] at hp; cases hp
  exact hg.alone (by rw [hpc]; exact rfl) hne (by rw [hp]; exact Or.inl rfl)

omit [DecidableEq C] [DecidableEq L] in
/-- Thread `t` moves, and `l` stays as it is. -/
theorem Guarded.of_goto [DecidableEq T] {c : C} {l : L} (hg : Guarded c l s) {t : T} {pc : Pc C L}
    (hpc : s'.pc = (s.goto t pc).pc) (hc : pc.Critical c l → s.holder l = some t)
    (hu : pc.Uses c l) (hh : s'.holder l = s.holder l) (hl : s'.locked l = s.locked l) :
    Guarded c l s' := by
  refine ⟨fun t' h => ?_, fun t' => ?_, fun t' h => ?_⟩
  · rw [hh]
    rw [hpc] at h
    rcases eq_or_ne t' t with rfl | hne
    · exact hc (by rwa [goto_pc_self] at h)
    · exact hg.critical t' (by rwa [goto_pc_of_ne _ _ hne] at h)
  · rw [hpc]
    rcases eq_or_ne t' t with rfl | hne
    · rwa [goto_pc_self]
    · rw [goto_pc_of_ne _ _ hne]
      exact hg.uses t'
  · rw [hl]
    exact hg.locked t' (hh ▸ h)

omit [DecidableEq C] in
/-- A thread takes a free lock. -/
theorem Guarded.acquire [DecidableEq T] {c : C} {l l' : L} (hg : Guarded c l s) {t : T}
    (hfree : s.locked l' = 0) (hpc : s'.pc = s.pc ∨ s'.pc = (s.goto t .user).pc)
    (hh : s'.holder = Function.update s.holder l' (some t))
    (hl : s'.locked = Function.update s.locked l' 1) : Guarded c l s' := by
  have huses : ∀ t', (s'.pc t').Uses c l := by
    intro t'
    rcases hpc with hpc | hpc <;> rw [hpc]
    · exact hg.uses t'
    · rcases eq_or_ne t' t with rfl | hne
      · rw [goto_pc_self]; trivial
      · rw [goto_pc_of_ne _ _ hne]; exact hg.uses t'
  have hcrit : ∀ t', (s'.pc t').Critical c l → (s.pc t').Critical c l := by
    intro t' h
    rcases hpc with hpc | hpc <;> rw [hpc] at h
    · exact h
    · rcases eq_or_ne t' t with rfl | hne
      · rw [goto_pc_self] at h; exact h.elim
      · rwa [goto_pc_of_ne _ _ hne] at h
  rcases eq_or_ne l' l with rfl | hne
  · -- nobody can hold a lock that is free
    refine ⟨fun t' h => ?_, huses, fun t' _ => by simp [hl]⟩
    exact absurd hfree (hg.locked t' (hg.critical t' (hcrit t' h)))
  · refine ⟨fun t' h => ?_, huses, fun t' h => ?_⟩
    · rw [hh, Function.update_of_ne hne.symm]
      exact hg.critical t' (hcrit t' h)
    · rw [hl, Function.update_of_ne hne.symm]
      exact hg.locked t' (by rwa [hh, Function.update_of_ne hne.symm] at h)

omit [DecidableEq C] in
/-- The holder of a lock, or of another one than `l`, releases it. -/
theorem Guarded.release {c : C} {l l' : L} (hg : Guarded c l s) {t : T}
    (hheld : l' = l → s.holder l = some t) (hpc : ∀ t', t' ≠ t → s'.pc t' = s.pc t')
    (hc : ¬ (s'.pc t).Critical c l) (hu : (s'.pc t).Uses c l)
    (hh : s'.holder = Function.update s.holder l' none)
    (hl : s'.locked = Function.update s.locked l' 0) : Guarded c l s' := by
  have huses : ∀ t', (s'.pc t').Uses c l := by
    intro t'
    by_cases hne : t' = t
    · rwa [hne]
    · rw [hpc t' hne]; exact hg.uses t'
  rcases eq_or_ne l' l with rfl | hne
  · refine ⟨fun t' h => ?_, huses, fun t' h => by simp [hh] at h⟩
    -- the other threads are not in a critical place, for they do not hold the lock
    by_cases hne : t' = t
    · exact absurd (hne ▸ h) hc
    · have ht' := hg.critical t' (by rwa [hpc t' hne] at h)
      rw [hheld rfl] at ht'
      exact absurd (Option.some.inj ht').symm hne
  · refine ⟨fun t' h => ?_, huses, fun t' h => ?_⟩
    · rw [hh, Function.update_of_ne hne.symm]
      by_cases hne' : t' = t
      · exact absurd (hne' ▸ h) hc
      · exact hg.critical t' (by rwa [hpc t' hne'] at h)
    · rw [hl, Function.update_of_ne hne.symm]
      exact hg.locked t' (by rwa [hh, Function.update_of_ne hne.symm] at h)

variable [DecidableEq T] [DecidableEq P] {prog : Program T P C L}

theorem guarded_step {c : C} {l : L} {lab : Label T C L} (hg : Guarded c l s)
    (hl : HoldsLock c l s lab) (hr : NoRace prog c l s lab) (h : Step prog s lab s') :
    Guarded c l s' := by
  cases h with
  | lockAcquire t l' hpc hp hfree => exact hg.acquire hfree (Or.inl rfl) rfl rfl
  | reacquire t c' l' hpc hfree => exact hg.acquire hfree (Or.inr rfl) rfl rfl
  | lockRelease t l' hpc hp =>
    exact hg.release hl (fun _ _ => rfl) (by simp [hpc, Pc.Critical]) (hg.uses t) rfl rfl
  | release t c' l' hpc =>
    refine hg.release (t := t) (fun h => hg.critical t ?_) (fun t' hne => ?_) ?_ ?_ rfl rfl
    · rw [hpc]; exact Or.inr h
    · exact goto_pc_of_ne _ _ hne
    · simp [Pc.Critical]
    · simp [Pc.Uses]
  | cvWait t c' l' hpc hp hp' =>
    exact hg.of_goto (t := t) rfl (fun h => hl.2 (h.elim hl.1 id)) hl.1 rfl rfl
  | cvSignal t c' hpc hp => exact hg.of_goto (t := t) rfl hl trivial rfl rfl
  | incrNum t c' l' hpc =>
    have hu := hg.uses t
    have hc := hg.critical t
    rw [hpc] at hu hc
    exact hg.of_goto (t := t) rfl hc hu rfl rfl
  | testNum t c' hpc hn | incrCurr t c' hpc | readCurr t c' hpc =>
    have hc := hg.critical t
    rw [hpc] at hc
    exact hg.of_goto (t := t) rfl hc trivial rfl rfl
  | sysCondsleep t c' l' n hpc ha hcv =>
    refine hg.of_goto (t := t) rfl False.elim trivial rfl ?_
    simp only [NoRace, hpc] at hr
    simp only [State.goto, State.clear]
    split_ifs with hp
    · exact clear_of_disjoint (hr.2.2 hp)
    · rfl
  | sleep t hpc | awake t hpc hrun | readNum t c' l' hpc | sysCondsleepFails t c' l' n hpc ha
  | condsleep t c' l' n hpc | asleep t c' l' n hpc hrun | testNumEq t c' hpc hn
  | condwakeup t c' n hpc =>
    exact hg.of_goto (t := t) rfl False.elim trivial rfl rfl
  | wakeup t hpc => exact ⟨hg.critical, hg.uses, hg.locked⟩

end

/-! ### The tickets -/

section

variable {T P C L : Type*} [DecidableEq C] {s s' : State T C L}

/-- The ticket of a thread that waits on `c`, from its `cond->num++` to its wakeup. -/
def ticketAt (c : C) (num : ℕ) (state : ProcState) : Pc C L → Option ℕ
  | .release c' _ | .readNum c' _ => if c' = c then some num else none
  | .sysCondsleep c' _ n | .condsleep c' _ n => if c' = c then some n else none
  | .asleep c' _ n => if c' = c ∧ state = .sleeping then some n else none
  | _ => none

def State.ticket (s : State T C L) (c : C) (t : T) : Option ℕ :=
  ticketAt c (s.num c) (s.state t) (s.pc t)

/-- The tickets up to `served` were called up and woken up; the next one may have been called up
by a signal whose wakeup is under way. -/
structure Ticketed (c : C) (served : ℕ) (s : State T C L) : Prop where
  dispensed : Dispensed served (s.num c) (s.ticket c)
  curr : s.curr c = served ∧ (∀ t, ¬ (s.pc t).Pending c) ∨
    s.curr c = served + 1 ∧ served < s.num c ∧ ∃ t, (s.pc t).Pending c
  lt : s.num c < 2 ^ 32
  incrCurr : ∀ t, s.pc t = .incrCurr c → s.curr c < s.num c
  condwakeup : ∀ t n, s.pc t = .condwakeup c n → n = s.curr c

theorem ticketed_init (c : C) : Ticketed c 0 (condInit : State T C L) where
  dispensed := dispensed_empty 0
  curr := Or.inl ⟨rfl, fun _ => id⟩
  lt := by simp [condInit]
  incrCurr t h := by cases h
  condwakeup t n h := by cases h

/-- Nothing changes for `c`. -/
theorem Ticketed.of_same {c : C} {served : ℕ} (ht : Ticketed c served s)
    (hnum : s'.num c = s.num c) (hcurr : s'.curr c = s.curr c)
    (htick : s'.ticket c = s.ticket c)
    (hpend : ∀ t, (s'.pc t).Pending c ↔ (s.pc t).Pending c)
    (hincr : ∀ t, s'.pc t = .incrCurr c → s.curr c < s.num c)
    (hwake : ∀ t n, s'.pc t = .condwakeup c n → n = s.curr c) : Ticketed c served s' where
  dispensed := by rw [hnum, htick]; exact ht.dispensed
  curr := by simp only [hnum, hcurr, hpend]; exact ht.curr
  lt := hnum ▸ ht.lt
  incrCurr t h := by rw [hnum, hcurr]; exact hincr t h
  condwakeup t n h := by rw [hcurr]; exact hwake t n h

variable [DecidableEq T]

/-- Thread `t` moves, with its ticket if it has one. -/
theorem Ticketed.of_goto {c : C} {served : ℕ} (ht : Ticketed c served s) {t : T} {pc : Pc C L}
    (hpc : s'.pc = (s.goto t pc).pc) (hnum : s'.num c = s.num c) (hcurr : s'.curr c = s.curr c)
    (hstate : ∀ t', t' ≠ t → s'.state t' = s.state t')
    (htick : ticketAt c (s.num c) (s'.state t) pc = s.ticket c t)
    (hpend : pc.Pending c ↔ (s.pc t).Pending c)
    (hincr : pc = .incrCurr c → s.curr c < s.num c)
    (hwake : ∀ n, pc = .condwakeup c n → n = s.curr c) : Ticketed c served s' := by
  refine ht.of_same hnum hcurr (funext fun t' => ?_) (fun t' => ?_) (fun t' h => ?_)
    fun t' n h => ?_
  all_goals rcases eq_or_ne t' t with rfl | hne
  · rw [State.ticket, hnum, hpc, goto_pc_self, htick]
  · rw [State.ticket, hnum, hpc, goto_pc_of_ne _ _ hne, hstate t' hne, State.ticket]
  · rw [hpc, goto_pc_self, hpend]
  · rw [hpc, goto_pc_of_ne _ _ hne]
  · exact hincr (by rwa [hpc, goto_pc_self] at h)
  · exact ht.incrCurr t' (by rwa [hpc, goto_pc_of_ne _ _ hne] at h)
  · exact hwake n (by rwa [hpc, goto_pc_self] at h)
  · exact ht.condwakeup t' n (by rwa [hpc, goto_pc_of_ne _ _ hne] at h)

/-- **A thread takes the next ticket**, while no other one has still to read its number. -/
theorem Ticketed.incrNum {c : C} {l : L} {served : ℕ} (ht : Ticketed c served s) {t : T}
    (hpc : s.pc t = .incrNum c l) (hwrap : s.num c + 1 < 2 ^ 32)
    (hold : ∀ t' l', t' ≠ t → s.pc t' ≠ .release c l' ∧ s.pc t' ≠ .readNum c l') :
    Ticketed c served { s.goto t (.release c l) with
      num := Function.update s.num c ((s.num c + 1) % 2 ^ 32) } := by
  rw [Nat.mod_eq_of_lt hwrap]
  have htick : State.ticket { s.goto t (.release c l) with
      num := Function.update s.num c (s.num c + 1) } c =
        Function.update (s.ticket c) t (some (s.num c + 1)) := by
    funext t'
    rcases eq_or_ne t' t with rfl | hne
    · simp [State.ticket, State.goto, ticketAt]
    · simp only [State.ticket, State.goto, Function.update_of_ne hne, Function.update_self]
      cases hp : s.pc t' with
      | release c' l' | readNum c' l' =>
        have hc : c' ≠ c := fun h => by
          subst h
          exact absurd hp (by simp [hold t' l' hne])
        simp [ticketAt, hc]
      | _ => rfl
  have hnone : s.ticket c t = none := by simp [State.ticket, hpc, ticketAt]
  have hpend : ∀ t', ((s.goto t (.release c l)).pc t').Pending c ↔ (s.pc t').Pending c := by
    intro t'
    rcases eq_or_ne t' t with rfl | hne
    · simp [hpc, Pc.Pending]
    · rw [goto_pc_of_ne _ _ hne]
  have hother : ∀ t' pc, pc ≠ .release c l → (s.goto t (.release c l)).pc t' = pc →
      s.pc t' = pc := by
    intro t' pc hne h
    rcases eq_or_ne t' t with rfl | hne'
    · rw [goto_pc_self] at h
      exact absurd h.symm hne
    · rwa [goto_pc_of_ne _ _ hne'] at h
  have hcurr := ht.curr
  refine ⟨?_, ?_, ?_, fun t' h => ?_, fun t' n h => ?_⟩
  · rw [htick]
    simpa using ht.dispensed.draw hnone
  · simp only [hpend, Function.update_self]
    exact hcurr.imp id fun h => ⟨h.1, by omega, h.2.2⟩
  · simpa using hwrap
  · have := ht.incrCurr t' (hother t' _ (by simp) h)
    simp only [Function.update_self]
    exact Nat.lt_succ_of_lt this
  · exact ht.condwakeup t' n (hother t' _ (by simp) h)

/-- **A signal calls up the next ticket.** -/
theorem Ticketed.incrCurr_step {c : C} {served : ℕ} (ht : Ticketed c served s) {t : T}
    (hpc : s.pc t = .incrCurr c)
    (hcrit : ∀ t', t' ≠ t → ¬ (s.pc t').Pending c ∧ s.pc t' ≠ .incrCurr c) :
    Ticketed c served { s.goto t (.readCurr c) with
      curr := Function.update s.curr c ((s.curr c + 1) % 2 ^ 32) } := by
  have hlt := ht.incrCurr t hpc
  have hlt' := ht.lt
  rw [Nat.mod_eq_of_lt (by omega)]
  -- no other signal is under way
  have hnot : ∀ t', ¬ (s.pc t').Pending c := by
    intro t'
    rcases eq_or_ne t' t with rfl | hne
    · simp [hpc, Pc.Pending]
    · exact (hcrit t' hne).1
  have hserved : s.curr c = served := by
    rcases ht.curr with ⟨h, -⟩ | ⟨-, -, t', h⟩
    · exact h
    · exact absurd h (hnot t')
  have htick : State.ticket { s.goto t (.readCurr c) with
      curr := Function.update s.curr c (s.curr c + 1) } c = s.ticket c := by
    funext t'
    rcases eq_or_ne t' t with rfl | hne
    · simp [State.ticket, State.goto, ticketAt, hpc]
    · simp [State.ticket, State.goto, Function.update_of_ne hne]
  refine ⟨?_, Or.inr ⟨?_, ?_, t, ?_⟩, hlt', fun t' h => ?_, fun t' n h => ?_⟩
  · rw [htick]; exact ht.dispensed
  · simp [hserved]
  · exact hserved ▸ hlt
  · simp [Pc.Pending]
  · rcases eq_or_ne t' t with rfl | hne
    · simp at h
    · exact absurd (by simpa [goto_pc_of_ne, hne] using h) (hcrit t' hne).2
  · rcases eq_or_ne t' t with rfl | hne
    · simp at h
    · have hp : s.pc t' = .condwakeup c n := by simpa [goto_pc_of_ne, hne] using h
      exact absurd (by rw [hp]; exact rfl) (hcrit t' hne).1

omit [DecidableEq T] in
/-- A wakeup takes the tickets with its number from those who sleep under it. -/
theorem ticketAt_wakeAll {c : C} {n m : ℕ} {t : T}
    (hchan : ∀ c' l' m, s.pc t = .asleep c' l' m → s.chanId t = m)
    (hawake : s.ticket c t = some n → s.SleepsOn t c n) :
    (s.wakeAll n).ticket c t = some m ↔ s.ticket c t = some m ∧ m ≠ n := by
  have hsame : (∀ c' l' k, s.pc t ≠ .asleep c' l' k) → s.ticket c t ≠ some n ∧
      (s.wakeAll n).ticket c t = s.ticket c t := by
    intro h
    refine ⟨fun hn => ?_, ?_⟩
    · obtain ⟨-, l, hl⟩ := hawake hn
      exact h c l n hl
    · simp only [State.ticket, State.wakeAll]
      cases hp : s.pc t with
      | asleep c' l' k => exact absurd hp (h c' l' k)
      | _ => rfl
  by_cases hp : ∃ c' l' k, s.pc t = .asleep c' l' k
  · obtain ⟨c', l', k, hp⟩ := hp
    have hc := hchan c' l' k hp
    simp only [State.ticket, State.wakeAll, hp, ticketAt, hc]
    by_cases hs : s.state t = .sleeping
    · by_cases hk : k = n
      · simp only [hs, hk, and_self, ↓reduceIte, reduceCtorEq, and_false, false_iff, not_and,
          not_not, Option.ite_none_right_eq_some, Option.some.injEq]
        exact fun h => h.2.symm
      · simp only [hs, hk, and_false, ↓reduceIte, and_true, Option.ite_none_right_eq_some,
          Option.some.injEq]
        exact ⟨fun h => ⟨h, fun hm => hk (h.2.trans hm)⟩, And.left⟩
    · simp [hs]
  · push Not at hp
    obtain ⟨hne, heq⟩ := hsame hp
    rw [heq]
    exact ⟨fun h => ⟨h, fun hm => hne (hm ▸ h)⟩, And.left⟩

/-- **The wakeup of a signal serves the next ticket.** -/
theorem Ticketed.condwakeup_step {c : C} {served : ℕ} (ht : Ticketed c served s) {t : T} {n : ℕ}
    (hpc : s.pc t = .condwakeup c n) (hcrit : ∀ t', t' ≠ t → ¬ (s.pc t').Pending c)
    (hchan : ∀ t' c' l' m, s.pc t' = .asleep c' l' m → s.chanId t' = m)
    (hawake : ∀ t', s.ticket c t' = some n → s.SleepsOn t' c n) :
    Ticketed c (served + 1) ((s.wakeAll n).goto t .user) := by
  have hpend : (s.pc t).Pending c := by rw [hpc]; exact rfl
  obtain ⟨hcurr, hlt, -⟩ := ht.curr.resolve_left fun h => h.2 t hpend
  have hn : n = served + 1 := (ht.condwakeup t n hpc).trans hcurr
  have htick : ∀ t' m, ((s.wakeAll n).goto t .user).ticket c t' = some m ↔
      s.ticket c t' = some m ∧ m ≠ served + 1 := by
    intro t' m
    rw [← hn, ← ticketAt_wakeAll (hchan t') (hawake t')]
    rcases eq_or_ne t' t with rfl | hne
    · simp [State.ticket, State.goto, State.wakeAll, ticketAt, hpc]
    · simp [State.ticket, State.goto, State.wakeAll, Function.update_of_ne hne]
  have hother : ∀ t' pc, pc ≠ .user → ((s.wakeAll n).goto t .user).pc t' = pc →
      t' ≠ t ∧ s.pc t' = pc := by
    intro t' pc hne h
    rcases eq_or_ne t' t with rfl | hne'
    · rw [goto_pc_self] at h
      exact absurd h.symm hne
    · exact ⟨hne', by rwa [goto_pc_of_ne _ _ hne'] at h⟩
  refine ⟨ht.dispensed.serve hlt htick, Or.inl ⟨hcurr, fun t' h => ?_⟩, ht.lt, fun t' h => ?_,
    fun t' m h => ?_⟩
  · rcases eq_or_ne t' t with rfl | hne
    · rw [goto_pc_self] at h
      exact h
    · rw [goto_pc_of_ne _ _ hne] at h
      exact hcrit t' hne h
  · exact ht.incrCurr t' (hother t' _ (by simp) h).2
  · exact ht.condwakeup t' m (hother t' _ (by simp) h).2

/-! ### Every step -/

/-- The number a thread sleeps under is in its `chanId`. -/
def ChanIds (s : State T C L) : Prop :=
  ∀ t c l n, s.pc t = .asleep c l n → s.chanId t = n

omit [DecidableEq C] in
theorem ChanIds.of_goto (hs : ChanIds s) {t : T} {pc : Pc C L} (hpc : s'.pc = (s.goto t pc).pc)
    (hchan : ∀ t', t' ≠ t → s'.chanId t' = s.chanId t')
    (hself : ∀ c l n, pc = .asleep c l n → s'.chanId t = n) : ChanIds s' := by
  intro t' c l n h
  rw [hpc] at h
  rcases eq_or_ne t' t with rfl | hne
  · exact hself c l n (by rwa [goto_pc_self] at h)
  · rw [hchan t' hne]
    exact hs t' c l n (by rwa [goto_pc_of_ne _ _ hne] at h)

variable [DecidableEq L] [DecidableEq P] {prog : Program T P C L}

theorem chanIds_step {lab : Label T C L} (hs : ChanIds s) (h : Step prog s lab s') :
    ChanIds s' := by
  cases h with
  | lockAcquire t l hpc hp hl | lockRelease t l hpc hp | wakeup t hpc => exact hs
  | cvWait t c l hpc hp hl | cvSignal t c hpc hp | awake t hpc hr | incrNum t c l hpc
  | release t c l hpc | readNum t c l hpc | sysCondsleep t c l n hpc ha hcv
  | sysCondsleepFails t c l n hpc ha | reacquire t c l hpc hl | testNum t c hpc hn
  | testNumEq t c hpc hn | incrCurr t c hpc | readCurr t c hpc | sleep t hpc
  | condwakeup t c n hpc =>
    exact hs.of_goto (t := t) rfl (fun _ _ => rfl) (by simp)
  | condsleep t c l n hpc =>
    exact hs.of_goto (t := t) rfl (fun t' hne => by simp [hne]) (by simp)
  | asleep t c l n hpc hr =>
    exact hs.of_goto (t := t) rfl (fun t' hne => by simp [hne]) (by simp)

/-- The invariant of `c` and its lock. -/
structure CondInv (c : C) (l : L) (s : State T C L) : Prop where
  guarded : Guarded c l s
  chanIds : ChanIds s
  ticketed : ∃ served, Ticketed c served s

omit [DecidableEq T] [DecidableEq L] in
theorem Ticketed.curr_le {c : C} {served : ℕ} (ht : Ticketed c served s) :
    s.curr c ≤ s.num c := by
  have := ht.dispensed.le
  rcases ht.curr with h | h <;> omega

omit [DecidableEq T] [DecidableEq L] in
/-- A signal on another variable takes no ticket from the threads that wait on `c`. -/
theorem ticket_wakeAll_of_not_sleepsOn {c : C} {n : ℕ} (hchan : ChanIds s)
    (hnot : ∀ t, ¬ s.SleepsOn t c n) (t : T) : (s.wakeAll n).ticket c t = s.ticket c t := by
  simp only [State.ticket, State.wakeAll]
  cases hp : s.pc t with
  | asleep c' l' k =>
    have hc := hchan t c' l' k hp
    by_cases hw : s.state t = .sleeping ∧ s.chanId t = n
    · -- the thread that wakes up waits on another variable
      have hne : c' ≠ c := fun h => by
        subst h
        exact hnot t ⟨hw.1, l', by rw [hp, ← hc, hw.2]⟩
      simp [ticketAt, hne]
    · rw [if_neg hw]
  | _ => rfl

omit [DecidableEq T] [DecidableEq L] in
/-- The thread whose number is signalled sleeps, if it is past `lock_release` and not overtaken. -/
theorem sleepsOn_of_ticket {c : C} {n : ℕ} {t : T} (htick : s.ticket c t = some n)
    (hrel : ∀ l, s.pc t ≠ .release c l)
    (hr : ∀ l, ¬ (s.pc t = .readNum c l ∧ s.num c = n) ∧ s.pc t ≠ .sysCondsleep c l n ∧
      s.pc t ≠ .condsleep c l n) : s.SleepsOn t c n := by
  simp only [State.ticket] at htick
  cases hp : s.pc t with
  | release c' l | readNum c' l =>
    rw [hp] at htick hrel hr
    simp only [ticketAt, Option.ite_none_right_eq_some, Option.some.injEq] at htick
    simp_all
  | sysCondsleep c' l m | condsleep c' l m =>
    rw [hp] at htick hr
    simp only [ticketAt, Option.ite_none_right_eq_some, Option.some.injEq] at htick
    simp_all
  | asleep c' l m =>
    rw [hp] at htick
    simp only [ticketAt, Option.ite_none_right_eq_some, Option.some.injEq] at htick
    obtain ⟨⟨rfl, hs⟩, rfl⟩ := htick
    exact ⟨hs, l, hp⟩
  | _ =>
    rw [hp] at htick
    cases htick

theorem ticketed_step {c : C} {l : L} {lab : Label T C L} (hi : CondInv c l s)
    (hl : HoldsLock c l s lab) (hr : NoRace prog c l s lab) (h : Step prog s lab s') :
    ∃ served, Ticketed c served s' := by
  obtain ⟨served, ht⟩ := hi.ticketed
  cases h with
  | lockAcquire t l' hpc hp hfree | lockRelease t l' hpc hp =>
    exact ⟨served, ht.of_same rfl rfl rfl (fun _ => Iff.rfl) ht.incrCurr ht.condwakeup⟩
  | cvWait t c' l' hpc hp hp' | cvSignal t c' hpc hp | awake t hpc hrun | release t c' l' hpc
  | reacquire t c' l' hpc hfree | testNumEq t c' hpc hn =>
    exact ⟨served, ht.of_goto (t := t) rfl rfl rfl (fun _ _ => rfl)
      (by simp [State.ticket, hpc, ticketAt]) (by simp [hpc, Pc.Pending]) (by simp) (by simp)⟩
  | asleep t c' l' n hpc hrun =>
    exact ⟨served, ht.of_goto (t := t) rfl rfl rfl (fun _ _ => rfl)
      (by simp [State.ticket, hpc, ticketAt, hrun]) (by simp [hpc, Pc.Pending]) (by simp)
      (by simp)⟩
  | sleep t hpc | condsleep t c' l' n hpc =>
    exact ⟨served, ht.of_goto (t := t) rfl rfl rfl (fun t' hne => by simp [hne])
      (by simp [State.ticket, hpc, ticketAt]) (by simp [hpc, Pc.Pending]) (by simp) (by simp)⟩
  | wakeup t hpc =>
    have hsame : s.pc = (s.goto t .sleep).pc := by
      rw [State.goto, ← hpc, Function.update_eq_self]
    exact ⟨served, ht.of_goto (t := t) hsame rfl rfl (fun t' hne => by simp [hne])
      (by simp [State.ticket, hpc, ticketAt]) (by simp [hpc, Pc.Pending]) (by simp) (by simp)⟩
  | readNum t c' l' hpc =>
    refine ⟨served, ht.of_goto (t := t) rfl rfl rfl (fun _ _ => rfl) ?_
      (by simp [hpc, Pc.Pending]) (by simp) (by simp)⟩
    simp only [State.ticket, hpc, ticketAt]
    split_ifs with hc
    · rw [hc]
    · rfl
  | testNum t c' hpc hn =>
    refine ⟨served, ht.of_goto (t := t) rfl rfl rfl (fun _ _ => rfl)
      (by simp [State.ticket, hpc, ticketAt]) (by simp [hpc, Pc.Pending]) (fun h => ?_) (by simp)⟩
    obtain rfl : c' = c := by simpa using h
    exact lt_of_le_of_ne ht.curr_le (Ne.symm hn)
  | readCurr t c' hpc =>
    refine ⟨served, ht.of_goto (t := t) rfl rfl rfl (fun _ _ => rfl)
      (by simp [State.ticket, hpc, ticketAt]) (by simp [hpc, Pc.Pending]) (by simp)
      fun n h => ?_⟩
    obtain ⟨rfl, rfl⟩ : c' = c ∧ s.curr c' = n := by simpa using h
    rfl
  | sysCondsleep t c' l' n hpc ha hcv =>
    simp only [NoRace, hpc] at hr
    refine ⟨served, ht.of_goto (t := t) rfl ?_ ?_ (fun _ _ => rfl)
      (by simp [State.ticket, hpc, ticketAt]) (by simp [hpc, Pc.Pending]) (by simp) (by simp)⟩
    all_goals
      simp only [State.goto, State.clear]
      split_ifs with hp
      · have := hr.2.1 hp
        exact clear_of_disjoint (by omega)
      · rfl
  | sysCondsleepFails t c' l' n hpc ha =>
    simp only [NoRace, hpc] at hr
    have hne : c' ≠ c := fun h => ha (hr.1 h)
    exact ⟨served, ht.of_goto (t := t) rfl rfl rfl (fun _ _ => rfl)
      (by simp [State.ticket, hpc, ticketAt, hne]) (by simp [hpc, Pc.Pending]) (by simp)
      (by simp)⟩
  | incrNum t c' l' hpc =>
    simp only [NoRace, hpc] at hr
    rcases eq_or_ne c' c with rfl | hne
    · refine ⟨served, ht.incrNum hpc (hr rfl).1 fun t' l'' hne => ⟨fun hp => ?_, (hr rfl).2 t' l''⟩⟩
      -- a thread at `lock_release` would hold the lock too
      exact hi.guarded.alone (t := t) (by rw [hpc]; exact Or.inl rfl) hne
        (by rw [hp]; exact Or.inl rfl)
    · exact ⟨served, ht.of_goto (t := t) rfl (by simp [hne.symm]) rfl (fun _ _ => rfl)
        (by simp [State.ticket, hpc, ticketAt, hne]) (by simp [hpc, Pc.Pending]) (by simp)
        (by simp)⟩
  | incrCurr t c' hpc =>
    rcases eq_or_ne c' c with rfl | hne
    · refine ⟨served, ht.incrCurr_step hpc fun t' hne => ?_⟩
      have hnot := hi.guarded.alone (t := t) (by rw [hpc]; exact rfl) hne
      exact ⟨fun hp => hnot hp.critical, fun hp => hnot (by rw [hp]; exact rfl)⟩
    · exact ⟨served, ht.of_goto (t := t) rfl rfl (by simp [hne.symm]) (fun _ _ => rfl)
        (by simp [State.ticket, hpc, ticketAt]) (by simp [hpc, Pc.Pending, hne]) (by simp)
        (by simp)⟩
  | condwakeup t c' n hpc =>
    simp only [NoRace, hpc] at hr
    split_ifs at hr with hc
    · subst hc
      exact ⟨served + 1, ht.condwakeup_step hpc (fun t' hne hp => hi.guarded.alone
        (t := t) (by rw [hpc]; exact rfl) hne hp.critical) (fun t' => hi.chanIds t')
        fun t' htick => sleepsOn_of_ticket htick (hi.guarded.not_release hpc t') (hr t')⟩
    · have ht' : Ticketed c served (s.wakeAll n) :=
        ht.of_same rfl rfl (funext fun t' => ticket_wakeAll_of_not_sleepsOn hi.chanIds hr t')
          (fun _ => Iff.rfl) ht.incrCurr ht.condwakeup
      exact ⟨served, ht'.of_goto (t := t) rfl rfl rfl (fun _ _ => rfl)
        (by simp [State.ticket, State.wakeAll, hpc, ticketAt])
        (by simp [State.wakeAll, hpc, Pc.Pending, hc]) (by simp) (by simp)⟩

/-! ### Every run -/

omit [DecidableEq T] [DecidableEq L] in
theorem condInv_init (c : C) (l : L) : CondInv c l (condInit : State T C L) where
  guarded := guarded_init c l
  chanIds t c l n h := by cases h
  ticketed := ⟨0, ticketed_init c⟩

theorem condInv_step {c : C} {l : L} {lab : Label T C L} (hi : CondInv c l s)
    (hg : HoldsLock c l s lab ∧ NoRace prog c l s lab) (h : Step prog s lab s') :
    CondInv c l s' where
  guarded := guarded_step hi.guarded hg.1 hg.2 h
  chanIds := chanIds_step hi.chanIds h
  ticketed := ticketed_step hi hg.1 hg.2 h

variable (prog) in
/-- What a signal on `c` does while some thread is in `cv_wait` on `c` and was not yet woken up: it
does not find the counters equal, and its wakeup makes one of these threads runnable. -/
def Released (c : C) (s : State T C L) (lab : Label T C L) : Prop :=
  ∀ t s', lab = .advance t → (condvars prog).next s lab = some s' →
    (s.pc t = .testNum c → s.num c = s.curr c → ∀ t', s.ticket c t' = none) ∧
    ∀ n, s.pc t = .condwakeup c n → (∃ t', (s.ticket c t').isSome) →
      ∃ t', (s.ticket c t').isSome ∧ Wakes s s' t'

/-- No thread sleeps on `c` under a number up to `curr` unless the wakeup for this number is still
to come. -/
def NoneLost (c : C) (s : State T C L) : Prop :=
  ∀ t n, s.SleepsOn t c n → s.curr c < n ∨
    ∃ t', s.pc t' = .readCurr c ∧ n = s.curr c ∨ s.pc t' = .condwakeup c n

omit [DecidableEq L] [DecidableEq T] in
theorem ticket_of_sleepsOn {c : C} {t : T} {n : ℕ} (h : s.SleepsOn t c n) :
    s.ticket c t = some n := by
  obtain ⟨hs, l, hp⟩ := h
  simp [State.ticket, hp, hs, ticketAt]

omit [DecidableEq L] [DecidableEq T] in
theorem noneLost_of_inv {c : C} {l : L} (hi : CondInv c l s) : NoneLost c s := by
  obtain ⟨served, ht⟩ := hi.ticketed
  intro t n h
  have hrange := ht.dispensed.range t n (ticket_of_sleepsOn h)
  rcases ht.curr with ⟨hcurr, -⟩ | ⟨hcurr, -, t', hp⟩
  · exact Or.inl (by omega)
  rcases Nat.lt_or_ge (s.curr c) n with hlt | hge
  · exact Or.inl hlt
  · -- the ticket that was called up last: its wakeup is under way
    refine Or.inr ⟨t', ?_⟩
    cases hpc : s.pc t' with
    | readCurr c' =>
      rw [hpc] at hp
      obtain rfl : c' = c := hp
      exact Or.inl ⟨rfl, by omega⟩
    | condwakeup c' m =>
      rw [hpc] at hp
      obtain rfl : c' = c := hp
      have := ht.condwakeup t' m hpc
      exact Or.inr (by congr; omega)
    | _ => rw [hpc] at hp; exact hp.elim

theorem released_of_inv {c : C} {l : L} {lab : Label T C L} (hi : CondInv c l s)
    (hr : NoRace prog c l s lab) : Released prog c s lab := by
  obtain ⟨served, ht⟩ := hi.ticketed
  rintro t s' rfl h
  refine ⟨fun hpc heq => ?_, fun n hpc _ => ?_⟩
  · -- no signal is under way, so all tickets are served
    rcases ht.curr with ⟨hcurr, -⟩ | ⟨-, -, t', hp⟩
    · exact ht.dispensed.eq_none (hcurr.symm.trans heq.symm)
    · have hne : t' ≠ t := fun h' => by rw [h', hpc] at hp; exact hp
      exact (hi.guarded.alone (t := t) (by rw [hpc]; exact rfl) hne hp.critical).elim
  · obtain rfl : (s.wakeAll n).goto t .user = s' := by
      simpa [condvars, advance, hpc] using h
    have hpend : (s.pc t).Pending c := by rw [hpc]; exact rfl
    obtain ⟨hcurr, hlt, -⟩ := ht.curr.resolve_left fun h => h.2 t hpend
    have hn : n = served + 1 := (ht.condwakeup t n hpc).trans hcurr
    obtain ⟨t', htick⟩ := ht.dispensed.cover n (by omega) (by omega)
    simp only [NoRace, hpc, ↓reduceIte] at hr
    have hs := sleepsOn_of_ticket htick (hi.guarded.not_release hpc t') (hr t')
    obtain ⟨hsleep, l', hp⟩ := hs
    refine ⟨t', by rw [htick]; rfl, hsleep, ?_⟩
    simp [State.goto, State.wakeAll, hsleep, hi.chanIds t' c l' n hp]

/-- **No wakeup is lost** on a condition variable whose calls are all made while holding its lock,
in every run in which no waiter is overtaken by a signal or by another waiter on its way to sleep:
every signal releases one of the threads that wait, and no thread sleeps under a number that has
been signalled. -/
theorem no_lost_wakeup (c : C) (l : L) {ls : List (Label T C L)}
    (hg : (condvars prog).Allowed (fun s lab => HoldsLock c l s lab ∧ NoRace prog c l s lab)
      condInit ls) :
    (condvars prog).Allowed (Released prog c) condInit ls ∧
      (condvars prog).Always (NoneLost c) condInit ls := by
  have hstep : ∀ (s : State T C L) lab s', CondInv c l s →
      (HoldsLock c l s lab ∧ NoRace prog c l s lab) → (condvars prog).next s lab = some s' →
      CondInv c l s' :=
    fun s lab s' hi hg h => condInv_step hi hg (step_of_next h)
  exact ⟨hg.of_invariant (condInv_init c l) hstep fun s lab hi hg => released_of_inv hi hg.2,
    hg.always (condInv_init c l) hstep fun s hi => noneLost_of_inv hi⟩

end

/-! ### A signal that comes too early -/

/-- Thread `t` takes a ticket and releases the lock; thread `u` signals it; then thread `t` goes to
sleep. -/
def overtaken (t u : Fin 3) (c : Fin 2) : List (Label (Fin 3) (Fin 2) Unit) :=
  [.lockAcquire t (), .cvWait t c (), .advance t, .advance t] ++ signalTo u c ++
    [.advance u, .advance t, .advance t, .advance t]

/-- A thread that is overtaken sleeps under the number that was signalled. -/
theorem not_noneLost : (condvars twoConds).Allowed (HoldsLock 0 ()) condInit (overtaken 0 2 0) ∧
    ¬ (condvars twoConds).Always (NoneLost 0) condInit (overtaken 0 2 0) := by
  have hrun : ∃ s, (condvars twoConds).run condInit (overtaken 0 2 0) = some s ∧
      s.pc 0 = .asleep 0 () 1 ∧ (∀ t, s.pc t ≠ .readCurr 0 ∧ s.pc t ≠ .condwakeup 0 1) ∧
      s.state 0 = .sleeping ∧ s.curr 0 = 1 :=
    ⟨_, rfl, by decide +kernel, by decide +kernel, by decide +kernel, by decide +kernel⟩
  obtain ⟨s, hs, h0, hnone, hsleep, hcurr⟩ := hrun
  refine ⟨by decide +kernel, fun h => ?_⟩
  rcases h.of_run hs 0 1 ⟨hsleep, (), h0⟩ with hlt | ⟨t, ⟨hp, -⟩ | hp⟩
  · omega
  · exact (hnone t).1 hp
  · exact (hnone t).2 hp

/-- One thread waits and is signalled. -/
theorem no_lost_wakeup_one_waiter :
    (condvars twoConds).Always (NoneLost 0) condInit
      (waitOn 0 0 ++ signalTo 2 0 ++ [.advance 2]) :=
  (no_lost_wakeup 0 () (by decide +kernel)).2

end Cond

end Threads

end OperatingSystems

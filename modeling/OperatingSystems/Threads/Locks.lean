import OperatingSystems.Threads.Condition
import Mathlib.Data.Set.Insert

/-!
# Mutual exclusion by the locks of the thread library

`lock_acquire`, `lock_release` and `cv_wait` of `ulib.c`, for any number of threads.  A thread that
sleeps in `cv_wait` may wake up at any time, as when its process is killed; it then has to take the
lock again.

* `spurious` : the machine `condvars` with such wakeups.
* `holding` : which locks each thread holds: those it took and has not given back, a ghost.
* `Disciplined` : only who holds a lock releases it or waits with it, and `condsleep` does not clear
  the word of a lock.
* `mutual_exclusion` : **at most one thread holds a lock**, and who returns from `cv_wait` does.
-/

namespace OperatingSystems

namespace Threads

namespace Cond

/-- The thread is in `cv_wait`, with the lock `l`. -/
def Pc.WaitsWith {C L : Type*} (l : L) : Pc C L → Prop
  | .incrNum _ l' | .release _ l' | .readNum _ l' | .reacquire _ l' => l' = l
  | .sysCondsleep _ l' _ | .condsleep _ l' _ | .asleep _ l' _ => l' = l
  | _ => False

/-- The thread is in `cv_wait` and still holds the lock `l`. -/
def Pc.Leaves {C L : Type*} (l : L) : Pc C L → Prop
  | .incrNum _ l' | .release _ l' => l' = l
  | _ => False

section

variable {T P C L : Type*} [DecidableEq T] [DecidableEq P] [DecidableEq C] [DecidableEq L]

/-- All interleavings, where a thread may also be made runnable without a signal. -/
def spurious (prog : Program T P C L) : Machine (State T C L) (Label T C L ⊕ T) where
  next s
    | .inl l => (condvars prog).next s l
    | .inr t => some { s with state := Function.update s.state t .runnable }

/-- The locks that the threads hold after a step. -/
def holding (s : State T C L) (l : Label T C L ⊕ T) (held : T → Set L) : T → Set L :=
  match l with
  | .inl (.lockAcquire t l) => Function.update held t (insert l (held t))
  | .inl (.lockRelease t l) => Function.update held t (held t \ {l})
  | .inl (.advance t) =>
    match s.pc t with
    | .release _ l => Function.update held t (held t \ {l})
    | .reacquire _ l => Function.update held t (insert l (held t))
    | _ => held
  | _ => held

/-- A lock is released, and waited with, by the thread that holds it; `condsleep` writes into no
lock. -/
def Disciplined (prog : Program T P C L) (x : State T C L × (T → Set L)) (l : Label T C L ⊕ T) :
    Prop :=
  match l with
  | .inl (.lockRelease t l) => l ∈ x.2 t
  | .inl (.cvWait t _ l) => l ∈ x.2 t
  | .inl (.advance t) =>
    match x.1.pc t with
    | .sysCondsleep _ _ n => (x.1.clear prog (prog.proc t) n).locked = x.1.locked
    | _ => True
  | _ => True

end

variable {T P C L : Type*} {s s' : State T C L} {held : T → Set L} {t : T} {l : L}

/-- A lock has at most one holder, and its word shows it. -/
structure Exclusive (s : State T C L) (held : T → Set L) : Prop where
  unique : ∀ t t' l, l ∈ held t → l ∈ held t' → t = t'
  locked : ∀ t l, l ∈ held t → s.locked l ≠ 0
  /-- A thread that begins to wait has not yet given up the lock. -/
  leaving : ∀ t l, (s.pc t).Leaves l → l ∈ held t

theorem exclusive_condInit : Exclusive (condInit : State T C L) fun _ => ∅ where
  unique _ _ l h := absurd h (Set.notMem_empty l)
  locked _ l h := absurd h (Set.notMem_empty l)
  leaving _ _ h := h.elim

/-- A step that changes no lock. -/
theorem Exclusive.congr (h : Exclusive s held) (hlocked : s'.locked = s.locked)
    (hleave : ∀ t l, (s'.pc t).Leaves l → l ∈ held t) : Exclusive s' held where
  unique := h.unique
  locked t l hl := by
    rw [hlocked]
    exact h.locked t l hl
  leaving := hleave

section

variable [DecidableEq T]

theorem leaves_goto {t' : T} (pc : Pc C L) (h : ((s.goto t pc).pc t').Leaves l) :
    t' = t ∧ pc.Leaves l ∨ t' ≠ t ∧ (s.pc t').Leaves l := by
  obtain rfl | hne := eq_or_ne t' t
  · rw [goto_pc_self] at h
    exact Or.inl ⟨rfl, h⟩
  · rw [goto_pc_of_ne _ _ hne] at h
    exact Or.inr ⟨hne, h⟩

theorem waitsWith_goto_user {t' : T} (pc : Pc C L) (hw : (s.pc t').WaitsWith l)
    (hu : (s.goto t pc).pc t' = .user) : t' = t ∧ pc = .user := by
  obtain rfl | hne := eq_or_ne t' t
  · rw [goto_pc_self] at hu
    exact ⟨rfl, hu⟩
  · rw [goto_pc_of_ne _ _ hne] at hu
    rw [hu] at hw
    exact hw.elim

/-- A step of `t` that changes no lock. -/
theorem Exclusive.goto (h : Exclusive s held) (t : T) (pc : Pc C L)
    (hpc : s'.pc = (s.goto t pc).pc)
    (hlocked : s'.locked = s.locked) (hleave : ∀ l, pc.Leaves l → l ∈ held t) :
    Exclusive s' held := by
  refine h.congr hlocked fun t' l hl => ?_
  rw [hpc] at hl
  obtain ⟨rfl, hnew⟩ | ⟨-, hold⟩ := leaves_goto pc hl
  · exact hleave l hnew
  · exact h.leaving t' l hold

/-- The free lock `l` is taken by `t`. -/
theorem Exclusive.acquire [DecidableEq L] (h : Exclusive s held) (hfree : s.locked l = 0)
    (hlocked : s'.locked = Function.update s.locked l 1)
    (hpc : ∀ t l, (s'.pc t).Leaves l → (s.pc t).Leaves l) :
    Exclusive s' (Function.update held t (insert l (held t))) := by
  -- nobody holds a lock whose word is zero
  have hnobody : ∀ t', l ∉ held t' := fun t' hl => h.locked t' l hl hfree
  have hold : ∀ t' l', l' ∈ Function.update held t (insert l (held t)) t' →
      t' = t ∧ l' = l ∨ l' ≠ l ∧ l' ∈ held t' := by
    intro t' l' hl
    obtain rfl | hne := eq_or_ne t' t
    · rw [Function.update_self] at hl
      obtain rfl | hl := hl
      · exact Or.inl ⟨rfl, rfl⟩
      · exact Or.inr ⟨fun he => hnobody t' (he ▸ hl), hl⟩
    · rw [Function.update_of_ne hne] at hl
      exact Or.inr ⟨fun he => hnobody t' (he ▸ hl), hl⟩
  refine ⟨fun t₁ t₂ l' h₁ h₂ => ?_, fun t' l' hl => ?_, fun t' l' hl => ?_⟩
  · obtain ⟨rfl, rfl⟩ | ⟨hne₁, h₁⟩ := hold t₁ l' h₁ <;>
      obtain ⟨rfl, heq⟩ | ⟨hne₂, h₂⟩ := hold t₂ l' h₂
    · rfl
    · exact absurd rfl hne₂
    · exact absurd heq hne₁
    · exact h.unique t₁ t₂ l' h₁ h₂
  · rw [hlocked]
    obtain ⟨-, rfl⟩ | ⟨hne, hl⟩ := hold t' l' hl
    · simp
    · rw [Function.update_of_ne hne]
      exact h.locked t' l' hl
  · have hl := h.leaving t' l' (hpc t' l' hl)
    obtain rfl | hne := eq_or_ne t' t
    · rw [Function.update_self]
      exact Or.inr hl
    · rwa [Function.update_of_ne hne]

/-- The lock `l` is given back by `t`, which holds it. -/
theorem Exclusive.release [DecidableEq L] (h : Exclusive s held) (hheld : l ∈ held t)
    (hlocked : s'.locked = Function.update s.locked l 0)
    (hpc : ∀ t' l, (s'.pc t').Leaves l → t' ≠ t ∧ (s.pc t').Leaves l) :
    Exclusive s' (Function.update held t (held t \ {l})) := by
  have hold : ∀ t' l', l' ∈ Function.update held t (held t \ {l}) t' → l' ≠ l ∧ l' ∈ held t' := by
    intro t' l' hl
    obtain rfl | hne := eq_or_ne t' t
    · rw [Function.update_self] at hl
      exact ⟨hl.2, hl.1⟩
    · rw [Function.update_of_ne hne] at hl
      exact ⟨fun he => hne (h.unique t' t l (he ▸ hl) hheld), hl⟩
  refine ⟨fun t₁ t₂ l' h₁ h₂ => h.unique t₁ t₂ l' (hold t₁ l' h₁).2 (hold t₂ l' h₂).2,
    fun t' l' hl => ?_, fun t' l' hl => ?_⟩
  · rw [hlocked, Function.update_of_ne (hold t' l' hl).1]
    exact h.locked t' l' (hold t' l' hl).2
  · obtain ⟨hne, hl⟩ := hpc t' l' hl
    rw [Function.update_of_ne hne]
    exact h.leaving t' l' hl

variable [DecidableEq P] [DecidableEq C] [DecidableEq L] {prog : Program T P C L}

/-- What a disciplined step of `condvars` keeps. -/
theorem Exclusive.step {lab : Label T C L} (h : Exclusive s held) (hstep : Step prog s lab s')
    (hg : Disciplined prog (s, held) (.inl lab)) : Exclusive s' (holding s (.inl lab) held) := by
  cases hstep with
  | lockAcquire t l hpc hp hl => exact h.acquire hl rfl fun _ _ => id
  | lockRelease t l hpc hp =>
    refine h.release hg rfl fun t' l' hl => ⟨?_, hl⟩
    rintro rfl
    simp [hpc, Pc.Leaves] at hl
  | cvWait t c l hpc hp hl =>
    refine h.goto t (.incrNum c l) rfl rfl ?_
    rintro l' rfl
    exact hg
  | cvSignal t c hpc hp => exact h.goto t (.testNum c) rfl rfl fun _ => False.elim
  | sleep t hpc => exact h.goto t .sleep rfl rfl fun _ => False.elim
  | wakeup t hpc => exact h.congr rfl h.leaving
  | incrNum t c l hpc =>
    simp only [holding, hpc]
    exact h.goto t (.release c l) rfl rfl fun l' hl =>
      h.leaving t l' (by rw [hpc]; exact hl)
  | release t c l hpc =>
    simp only [holding, hpc]
    refine h.release (h.leaving t l (by rw [hpc]; rfl)) rfl fun t' l' hl => ?_
    obtain ⟨-, hl⟩ | hl := leaves_goto (.readNum c l) hl
    · exact hl.elim
    · exact hl
  | reacquire t c l hpc hl =>
    simp only [holding, hpc]
    refine h.acquire hl rfl fun t' l' hl => ?_
    obtain ⟨-, hl⟩ | ⟨-, hl⟩ := leaves_goto .user hl
    · exact hl.elim
    · exact hl
  | sysCondsleep t c l n hpc ha hcv =>
    simp only [holding, hpc]
    simp only [Disciplined, hpc] at hg
    exact h.goto t (.condsleep c l n) rfl hg fun _ => False.elim
  | awake t hpc hr | readNum t c l hpc | sysCondsleepFails t c l n hpc ha | condsleep t c l n hpc
  | asleep t c l n hpc hr | testNum t c hpc hn | testNumEq t c hpc hn | incrCurr t c hpc
  | readCurr t c hpc | condwakeup t c n hpc =>
    simp only [holding, hpc]
    exact h.goto t _ rfl rfl fun _ => False.elim

/-- A thread gets out of `cv_wait` by taking the lock. -/
theorem mem_holding_of_user {lab : Label T C L} (hstep : Step prog s lab s')
    (hw : (s.pc t).WaitsWith l) (hu : s'.pc t = .user) : l ∈ holding s (.inl lab) held t := by
  cases hstep with
  | lockAcquire t' l' hpc hp hl | lockRelease t' l' hpc hp | wakeup t' hpc =>
    rw [show s.pc t = .user from hu] at hw
    exact hw.elim
  | reacquire t' c l' hpc hl =>
    obtain ⟨rfl, -⟩ := waitsWith_goto_user .user hw hu
    rw [hpc] at hw
    obtain rfl : l' = l := hw
    simp [holding, hpc]
  | awake t' hpc hr | testNumEq t' c hpc hn | condwakeup t' c n hpc =>
    obtain ⟨rfl, -⟩ := waitsWith_goto_user .user hw hu
    rw [hpc] at hw
    exact hw.elim
  | cvWait t' c l' hpc hp hl | cvSignal t' c hpc hp | sleep t' hpc | incrNum t' c l' hpc
  | release t' c l' hpc | readNum t' c l' hpc | sysCondsleep t' c l' n hpc ha hcv
  | sysCondsleepFails t' c l' n hpc ha | condsleep t' c l' n hpc | asleep t' c l' n hpc hr
  | testNum t' c hpc hn | incrCurr t' c hpc | readCurr t' c hpc =>
    exact absurd (waitsWith_goto_user _ hw hu).2 (by simp)

/-! ### Runs -/

theorem exclusive_next {x y : State T C L × (T → Set L)} {lab : Label T C L ⊕ T}
    (h : Exclusive x.1 x.2) (hg : Disciplined prog x lab)
    (hnext : ((spurious prog).track holding).next x lab = some y) : Exclusive y.1 y.2 := by
  obtain ⟨hs, hheld⟩ := Machine.track_next_eq_some.1 hnext
  rw [← hheld]
  cases lab with
  | inl lab => exact h.step (step_of_next hs) hg
  | inr t =>
    rw [← Option.some.inj hs]
    exact h.congr rfl h.leaving

/-- **Mutual exclusion**: in every run in which threads only release the locks they hold, and only
wait with them, a lock has at most one holder, its word is then not zero, and a thread that gets out
of `cv_wait` holds the lock it waited with. -/
theorem mutual_exclusion {ls : List (Label T C L ⊕ T)} {x : State T C L × (T → Set L)}
    (hg : ((spurious prog).track holding).Allowed (Disciplined prog) (condInit, fun _ => ∅) ls)
    (h : ((spurious prog).track holding).run (condInit, fun _ => ∅) ls = some x) :
    (∀ t t' l, l ∈ x.2 t → l ∈ x.2 t' → t = t') ∧
      (∀ t l, l ∈ x.2 t → x.1.locked l ≠ 0) ∧
      ∀ lab y t l, ((spurious prog).track holding).next x lab = some y →
        (x.1.pc t).WaitsWith l → y.1.pc t = .user → l ∈ y.2 t := by
  have hx : Exclusive x.1 x.2 := Machine.run_invariant_of_allowed
    (I := fun x => Exclusive x.1 x.2) h hg exclusive_condInit fun _ _ _ => exclusive_next
  refine ⟨hx.unique, hx.locked, fun lab y t l hnext hw hu => ?_⟩
  obtain ⟨hs, hheld⟩ := Machine.track_next_eq_some.1 hnext
  rw [← hheld]
  cases lab with
  | inl lab => exact mem_holding_of_user (step_of_next hs) hw hu
  | inr t' =>
    rw [← Option.some.inj hs] at hu
    rw [show x.1.pc t = .user from hu] at hw
    exact hw.elim

/-- Thread `t` waits with the lock and goes to sleep, thread `u` takes the lock, and thread `t`
wakes up without a signal. -/
def woken (t u : Fin 3) (c : Fin 2) : List (Label (Fin 3) (Fin 2) Unit ⊕ Fin 3) :=
  (waitOn t c ++ [Label.lockAcquire u ()]).map .inl ++ [.inr t, .inl (.advance t)]

theorem mutual_exclusion_woken : ∃ x,
    ((spurious twoConds).track holding).run (condInit, fun _ => ∅) (woken 0 1 0) = some x ∧
      x.1.pc 0 = .reacquire 0 () ∧ () ∈ x.2 1 ∧
      ∀ t t' l, l ∈ x.2 t → l ∈ x.2 t' → t = t' := by
  have hg : ((spurious twoConds).track holding).Allowed (Disciplined twoConds)
      (condInit, fun _ => ∅) (woken 0 1 0) := by
    refine .cons trivial rfl (.cons (Or.inl rfl) rfl (.cons trivial rfl (.cons trivial rfl
      (.cons trivial rfl (.cons ?_ rfl (.cons trivial rfl (.cons trivial rfl
      (.cons trivial rfl (.cons trivial rfl trivial)))))))))
    -- `condsleep` clears the bytes 1 to 4, where no lock is
    exact funext fun _ => rfl
  exact ⟨_, rfl, rfl, Or.inl rfl, (mutual_exclusion hg rfl).1⟩

end

end Cond

end Threads

end OperatingSystems

import OperatingSystems.Threads.View

/-!
# The effects of the steps of the kernel

* `Tree` : what holds of the views in every run: all processes descend from `initproc`, parents are
  alive, directories have been allocated, sizes are within the user address space.
* `Effect` : what a step can do to the views, one constructor for each kind of call that shows.
* `effect_of_next` : every step has one of these effects.
* `tree_of_next` : every step keeps `Tree`.
-/

namespace OperatingSystems

namespace Threads

/-- The process tree, when `n` directories have been allocated. -/
structure Tree (v : Slot → View) (n : ℕ) : Prop where
  init_used : (v initproc).used
  init_alive : (v initproc).zombie = false
  init_parent : (v initproc).parent = none
  orphans : Kernel.NoOrphans v
  parent : ∀ q, (v q).used → q ≠ initproc →
    ∃ p, (v q).parent = some p ∧ (v p).used ∧ (v p).zombie = false
  rank : ∃ rank : Slot → ℕ, (∀ q p, (v q).parent = some p → rank p < rank q) ∧
    ∀ q, q ≠ initproc → rank initproc < rank q
  pgdir_le : ∀ q, (v q).pgdir ≤ n
  sz_le : ∀ q, (v q).sz ≤ USERTOP

namespace Kernel

/-- A process that can make a system call. -/
def Live (v : Slot → View) (p : Slot) : Prop := (v p).used ∧ (v p).zombie = false

/-- The effects of a step on the views and the number of directories. -/
inductive Effect (k : Kernel) : Call → Kernel → Prop
  | quiet {l : Call} {k' : Kernel} (view : k'.view = k.view) (le : k.pgdirs ≤ k'.pgdirs)
      (size : ∀ p n mem, l = .growproc p n mem → ¬ k.Resizes p n mem) : Effect k l k'
  | fork {p np : Slot} {kalloc : Bool} {mem : Option ℕ} {k' : Kernel} (live : Live k.view p)
      (free : (k.view np).used = false)
      (view : k'.view =
        Function.update k.view np ⟨true, false, some p, k.pgdirs + 1, (k.view p).sz⟩)
      (pgdirs : k'.pgdirs = k.pgdirs + 1) : Effect k (.fork p kalloc mem) k'
  | clone {p np : Slot} {stack : ℕ} {kalloc : Bool} {k' : Kernel} (live : Live k.view p)
      (free : (k.view np).used = false)
      (view : k'.view =
        Function.update k.view np ⟨true, false, some p, (k.view p).pgdir, (k.view p).sz⟩)
      (pgdirs : k'.pgdirs = k.pgdirs) : Effect k (.clone p stack kalloc) k'
  | growproc {p : Slot} {n : ℤ} {mem : Option ℕ} {sz : ℕ} {k' : Kernel} (live : Live k.view p)
      (le : sz ≤ USERTOP) (view : k'.view = resizeView k.view p sz)
      (resizes : k.Resizes p n mem → sz = (k.view p).sz + n)
      (same : ¬ k.Resizes p n mem → sz = (k.view p).sz)
      (pgdirs : k'.pgdirs = k.pgdirs) : Effect k (.growproc p n mem) k'
  | exec {p : Slot} {pages : ℕ} {k' : Kernel} (live : Live k.view p)
      (le : pages * PGSIZE ≤ USERTOP)
      (view : k'.view = Function.update k.view p
        { k.view p with pgdir := k.pgdirs + 1, sz := pages * PGSIZE })
      (pgdirs : k'.pgdirs = k.pgdirs + 1) : Effect k (.exec p (.ok pages)) k'
  | exit {p : Slot} {mem : Slot → Option ℕ} {d : ℕ} {k' : Kernel} (live : Live k.view p)
      (ne_init : p ≠ initproc) (view : k'.view = exitView k.view p d)
      (le : k.pgdirs ≤ k'.pgdirs)
      (dir : d = (k.view p).pgdir ∧ (∀ q, ¬ IsThread k.view p q) ∨
        (d = 0 ∨ k.pgdirs < d ∧ d ≤ k'.pgdirs) ∧ ∃ q, IsThread k.view p q) :
      Effect k (.exit p mem) k'
  | reap {l : Call} {p q : Slot} {k' : Kernel} (call : l = .wait p ∨ l = .join p)
      (zombie : (k.view q).zombie) (view : k'.view = Function.update k.view q freeView)
      (pgdirs : k'.pgdirs = k.pgdirs) : Effect k l k'

theorem live_of_running {k : Kernel} {p : Slot} (h : (k.proc p).state = .running) :
    Live k.view p := by
  refine ⟨view_used.2 (by rw [h]; decide), ?_⟩
  rw [Kernel.view, view_of_used (by rw [h]; decide), h]
  rfl

theorem running_of_runs {k : Kernel} {p : Slot} {b : Option Blocked} (h : k.runs p b) :
    (k.proc p).state = .running := by
  simp only [runs, Bool.and_eq_true, decide_eq_true_eq] at h
  exact h.1

end Kernel

theorem Tree.parent_ne {v : Slot → View} {n : ℕ} (h : Tree v n) (p : Slot) :
    (v p).parent ≠ some p := by
  obtain ⟨rank, hr, -⟩ := h.rank
  exact fun hp => lt_irrefl _ (hr p p hp)

/-- What `next` does once the guard of the call holds. -/
theorem guarded_eq_some {b : Bool} {r : Option (Kernel × Option ℤ)} {k' : Kernel}
    (h : (if b then r.map Prod.fst else none) = some k') :
    b = true ∧ ∃ x, r = some (k', x) := by
  split_ifs at h with hb
  obtain ⟨⟨k, x⟩, hr, rfl⟩ := Option.map_eq_some_iff.1 h
  exact ⟨hb, x, hr⟩

open Kernel in
/-- **Every step of the kernel has one of the effects.** -/
theorem effect_of_next {k k' : Kernel} {l : Call} (ht : Tree k.view k.pgdirs)
    (h : kernel.next k l = some k') : k.Effect l k' := by
  cases l with
  | dispatch p =>
    obtain ⟨hb, x, h⟩ := guarded_eq_some h
    cases h
    refine .quiet (view_setProc_eq ?_) le_rfl (by simp)
    simp only [decide_eq_true_eq] at hb
    simp [Proc.view, hb]
  | yield p =>
    obtain ⟨hb, x, h⟩ := guarded_eq_some h
    cases h
    refine .quiet (view_setProc_eq ?_) le_rfl (by simp)
    simp only [decide_eq_true_eq] at hb
    simp [Proc.view, hb]
  | block p =>
    obtain ⟨hb, x, h⟩ := guarded_eq_some h
    cases h
    refine .quiet (view_setProc_eq ?_) le_rfl (by simp)
    simp [Proc.view, running_of_runs hb]
  | unblock p =>
    obtain ⟨hb, x, h⟩ := guarded_eq_some h
    cases h
    refine .quiet (view_setProc_eq ?_) le_rfl (by simp)
    simp only [Bool.and_eq_true, decide_eq_true_eq] at hb
    simp [Proc.view, hb.1]
  | resume p =>
    obtain ⟨hb, x, h⟩ := guarded_eq_some h
    cases h
    exact .quiet (view_leave k p) le_rfl (by simp)
  | kill p pid =>
    obtain ⟨hb, x, h⟩ := guarded_eq_some h
    -- the views do not show what `kill` changes
    have hv := view_kill k pid
    have hn : (k.kill pid).1.pgdirs = k.pgdirs := by unfold kill; split <;> rfl
    rw [Option.some.inj h] at hv hn
    exact .quiet hv hn.ge (by simp)
  | growproc p n mem =>
    obtain ⟨hb, x, h⟩ := guarded_eq_some h
    simp only [Bool.and_eq_true, decide_eq_true_eq] at hb
    have hrun := running_of_runs hb.1.1
    have hlive := live_of_running hrun
    have hu := view_used.1 hlive.1
    have hsz : (k.proc p).sz ≤ USERTOP := by
      have := ht.sz_le p
      rwa [Kernel.view, view_sz hu] at this
    have hvsz : (k.view p).sz = (k.proc p).sz := by rw [Kernel.view, view_sz hu]
    -- without memory nothing changes; else `p` and its threads get the new size
    obtain ⟨⟨hn, -⟩, -, ⟨hr, hv⟩ | ⟨sz, hv, hr, hs⟩⟩ := view_growproc hu hsz ⟨hb.1.2, hb.2⟩ h
    · refine .quiet hv hn.ge fun p' n' mem' he => ?_
      cases he
      exact hr
    · refine .growproc hlive ?_ hv (by rwa [hvsz]) (by rwa [hvsz]) hn
      by_cases hres : k.Resizes p n mem
      · have := hr hres
        rcases hres with hres | hres <;> omega
      · rw [hs hres]; exact hsz
  | fork p kalloc mem =>
    obtain ⟨hb, x, h⟩ := guarded_eq_some h
    have hlive := live_of_running (running_of_runs hb)
    obtain ⟨hn, hv⟩ | ⟨np, hnp, hv, hn, -⟩ := view_fork (view_used.1 hlive.1) h
    · exact .quiet hv hn (by simp)
    · exact .fork hlive (by simp [Kernel.view, view_of_unused hnp]) hv hn
  | clone p stack kalloc =>
    obtain ⟨hb, x, h⟩ := guarded_eq_some h
    simp only [Bool.and_eq_true] at hb
    have hlive := live_of_running (running_of_runs hb.1)
    obtain ⟨hn, hv | ⟨np, hnp, hv⟩⟩ := view_clone (view_used.1 hlive.1) h
    · exact .quiet hv hn.ge (by simp)
    · exact .clone hlive (by simp [Kernel.view, view_of_unused hnp]) hv hn
  | exec p image =>
    obtain ⟨hb, x, h⟩ := guarded_eq_some h
    simp only [Bool.and_eq_true] at hb
    have hlive := live_of_running (running_of_runs hb.1)
    obtain ⟨hal, -⟩ | ⟨pages, rfl, -, hn, -, hv, -⟩ := view_exec (view_used.1 hlive.1) h
    · exact .quiet hal.view hal.le (by simp)
    · simp only [Image.valid, Bool.and_eq_true, decide_eq_true_eq] at hb
      exact .exec hlive hb.2.2 hv hn
  | exit p mem =>
    obtain ⟨hb, x, h⟩ := guarded_eq_some h
    have hlive := live_of_running (running_of_runs hb)
    obtain ⟨hne, hn, d, hv, hd⟩ := view_exit ht.orphans hlive.1 (ht.parent_ne p) h
    exact .exit hlive hne hv hn hd
  | wait p =>
    obtain ⟨hb, x, h⟩ := guarded_eq_some h
    obtain ⟨hn, ⟨-, hv⟩ | ⟨q, -, hz, -, -, hv⟩⟩ := view_wait (running_of_runs hb) h
    · exact .quiet hv hn.ge (by simp)
    · exact .reap (Or.inl rfl) (view_zombie.2 hz) hv hn
  | join p =>
    obtain ⟨hb, x, h⟩ := guarded_eq_some h
    obtain ⟨hn, -, hv | ⟨q, -, hz, hv⟩⟩ := view_join (running_of_runs hb) h
    · exact .quiet hv hn.ge (by simp)
    · exact .reap (Or.inr rfl) (view_zombie.2 hz) hv hn

/-! ### The process tree -/

namespace Tree

variable {v v' : Slot → View} {n n' : ℕ} {p : Slot}

/-- Only directories and sizes change. -/
theorem modify (h : Tree v n) (hused : ∀ q, (v' q).used = (v q).used)
    (hzombie : ∀ q, (v' q).zombie = (v q).zombie) (hparent : ∀ q, (v' q).parent = (v q).parent)
    (hdir : ∀ q, (v' q).pgdir ≤ n') (hsz : ∀ q, (v' q).sz ≤ USERTOP) : Tree v' n' where
  init_used := by rw [hused]; exact h.init_used
  init_alive := by rw [hzombie]; exact h.init_alive
  init_parent := by rw [hparent]; exact h.init_parent
  orphans q hq := by rw [hused] at hq; rw [hparent]; exact h.orphans q hq
  parent q hq hqi := by
    rw [hused] at hq
    obtain ⟨r, hr⟩ := h.parent q hq hqi
    exact ⟨r, by rw [hparent, hused, hzombie]; exact hr⟩
  rank := by simpa only [hparent] using h.rank
  pgdir_le := hdir
  sz_le := hsz

/-- A used entry is not the one that was free. -/
theorem ne_free {np : Slot} (hp : (v p).used) (hnp : (v np).used = false) : p ≠ np := by
  rintro rfl; rw [hp] at hnp; cases hnp

/-- A live process gets a new child. -/
theorem insert (h : Tree v n) {np : Slot} {d sz : ℕ} (hp : Kernel.Live v p)
    (hnp : (v np).used = false) (hn : n ≤ n') (hd : d ≤ n') (hsz : sz ≤ USERTOP) :
    Tree (Function.update v np ⟨true, false, some p, d, sz⟩) n' := by
  have hpn := ne_free hp.1 hnp
  have hi := ne_free h.init_used hnp
  refine ⟨?_, ?_, ?_, fun q hq => ?_, fun q hq hqi => ?_, ?_, fun q => ?_, fun q => ?_⟩
  · rw [Function.update_of_ne hi]; exact h.init_used
  · rw [Function.update_of_ne hi]; exact h.init_alive
  · rw [Function.update_of_ne hi]; exact h.init_parent
  · rcases eq_or_ne q np with rfl | hqn
    · simp at hq
    · rw [Function.update_of_ne hqn] at hq ⊢; exact h.orphans q hq
  · rcases eq_or_ne q np with rfl | hqn
    · exact ⟨p, by rw [Function.update_self], by rw [Function.update_of_ne hpn]; exact hp⟩
    · rw [Function.update_of_ne hqn] at hq ⊢
      obtain ⟨r, hr, hru, hrz⟩ := h.parent q hq hqi
      exact ⟨r, hr, by rw [Function.update_of_ne (ne_free hru hnp)]; exact ⟨hru, hrz⟩⟩
  · -- the new entry comes right after its parent; nobody descends from it
    obtain ⟨rank, hr, hri⟩ := h.rank
    refine ⟨Function.update rank np (rank p + 1), fun q r hqr => ?_, fun q hq => ?_⟩
    · rcases eq_or_ne q np with rfl | hqn
      · rw [Function.update_self] at hqr ⊢
        obtain rfl := Option.some.inj hqr
        rw [Function.update_of_ne hpn]; exact Nat.lt_succ_self _
      · rw [Function.update_of_ne hqn] at hqr ⊢
        have hrn : r ≠ np := by
          rintro rfl
          by_cases hq : (v q).used
          · have hqi : q ≠ initproc := by
              rintro rfl; rw [h.init_parent] at hqr; cases hqr
            obtain ⟨r', hr', hru, -⟩ := h.parent q hq hqi
            rw [hqr] at hr'
            cases hr'
            rw [hru] at hnp; cases hnp
          · rw [h.orphans q (by simpa using hq)] at hqr; cases hqr
        rw [Function.update_of_ne hrn]
        exact hr q r hqr
    · rw [Function.update_of_ne hi]
      rcases eq_or_ne q np with rfl | hqn
      · rw [Function.update_self]
        rcases eq_or_ne p initproc with rfl | hpi
        · exact Nat.lt_succ_self _
        · exact (hri p hpi).trans (Nat.lt_succ_self _)
      · rw [Function.update_of_ne hqn]; exact hri q hq
  · rcases eq_or_ne q np with rfl | hqn
    · rw [Function.update_self]; exact hd
    · rw [Function.update_of_ne hqn]; exact (h.pgdir_le q).trans hn
  · rcases eq_or_ne q np with rfl | hqn
    · rw [Function.update_self]; exact hsz
    · rw [Function.update_of_ne hqn]; exact h.sz_le q

/-- The parent of a used entry is not a zombie. -/
theorem parent_alive (h : Tree v n) {q r : Slot} (hqr : (v q).parent = some r) :
    Kernel.Live v r := by
  by_cases hq : (v q).used
  · have hqi : q ≠ initproc := by rintro rfl; rw [h.init_parent] at hqr; cases hqr
    obtain ⟨r', hr', hlive⟩ := h.parent q hq hqi
    rw [hqr] at hr'
    cases hr'
    exact hlive
  · rw [h.orphans q (by simpa using hq)] at hqr; cases hqr

/-- A zombie has no children. -/
theorem parent_ne_zombie (h : Tree v n) {z : Slot} (hz : (v z).zombie) (q : Slot) :
    (v q).parent ≠ some z := by
  intro hq
  rw [(h.parent_alive hq).2] at hz
  cases hz

/-- A zombie is reaped. -/
theorem reap (h : Tree v n) {z : Slot} (hz : (v z).zombie) :
    Tree (Function.update v z Kernel.freeView) n := by
  have hi : initproc ≠ z := by rintro rfl; rw [h.init_alive] at hz; cases hz
  refine ⟨?_, ?_, ?_, fun q hq => ?_, fun q hq hqi => ?_, ?_, fun q => ?_, fun q => ?_⟩
  · rw [Function.update_of_ne hi]; exact h.init_used
  · rw [Function.update_of_ne hi]; exact h.init_alive
  · rw [Function.update_of_ne hi]; exact h.init_parent
  · rcases eq_or_ne q z with rfl | hqz
    · rw [Function.update_self]; rfl
    · rw [Function.update_of_ne hqz] at hq ⊢; exact h.orphans q hq
  · rcases eq_or_ne q z with rfl | hqz
    · rw [Function.update_self] at hq; cases hq
    · rw [Function.update_of_ne hqz] at hq ⊢
      obtain ⟨r, hr, hlive⟩ := h.parent q hq hqi
      have hrz : r ≠ z := by rintro rfl; exact h.parent_ne_zombie hz q hr
      exact ⟨r, hr, by rw [Function.update_of_ne hrz]; exact hlive⟩
  · obtain ⟨rank, hr, hri⟩ := h.rank
    refine ⟨rank, fun q r hqr => ?_, hri⟩
    rcases eq_or_ne q z with rfl | hqz
    · rw [Function.update_self] at hqr; cases hqr
    · rw [Function.update_of_ne hqz] at hqr; exact hr q r hqr
  · rcases eq_or_ne q z with rfl | hqz
    · rw [Function.update_self]; exact Nat.zero_le _
    · rw [Function.update_of_ne hqz]; exact h.pgdir_le q
  · rcases eq_or_ne q z with rfl | hqz
    · rw [Function.update_self]; exact Nat.zero_le _
    · rw [Function.update_of_ne hqz]; exact h.sz_le q

/-- The parent of an entry after `exit` of `p`. -/
theorem adopt_parent {v : View} {r : Slot} (h : (Kernel.adopt p v).parent = some r) :
    v.parent = some r ∨ v.parent = some p ∧ r = initproc := by
  unfold Kernel.adopt at h
  split_ifs at h with hp
  · exact Or.inr ⟨hp, (Option.some.inj h).symm⟩
  · exact Or.inl h

/-- A process exits. -/
theorem exit (h : Tree v n) {d : ℕ} (hp : Kernel.Live v p) (hpi : p ≠ initproc) (hn : n ≤ n')
    (hd : d ≤ n') : Tree (Kernel.exitView v p d) n' := by
  have hother : ∀ q, q ≠ p → Kernel.exitView v p d q = Kernel.adopt p (v q) :=
    fun q hq => if_neg hq
  have hself : Kernel.exitView v p d p = { v p with zombie := true, pgdir := d } := if_pos rfl
  have hlive : ∀ r, r ≠ p → Kernel.Live v r → Kernel.Live (Kernel.exitView v p d) r := by
    intro r hr hl
    unfold Kernel.Live
    rw [hother r hr, Kernel.adopt_used, Kernel.adopt_zombie]
    exact hl
  have hinit : Kernel.Live (Kernel.exitView v p d) initproc :=
    hlive _ hpi.symm ⟨h.init_used, h.init_alive⟩
  -- the children go to `initproc`, all others keep their parents
  have hparent : ∀ q r, (Kernel.exitView v p d q).parent = some r →
      (v q).parent = some r ∨ q ≠ initproc ∧ r = initproc := by
    intro q r hqr
    rcases eq_or_ne q p with rfl | hq
    · rw [hself] at hqr; exact Or.inl hqr
    · rw [hother q hq] at hqr
      rcases adopt_parent hqr with hqr | ⟨hqp, rfl⟩
      · exact Or.inl hqr
      · refine Or.inr ⟨?_, rfl⟩
        rintro rfl; rw [h.init_parent] at hqp; cases hqp
  refine ⟨hinit.1, hinit.2, ?_, fun q hq => ?_, fun q hq hqi => ?_, ?_, fun q => ?_, fun q => ?_⟩
  · rw [hother _ hpi.symm, Kernel.adopt, if_neg (by rw [h.init_parent]; simp)]
    exact h.init_parent
  · rcases eq_or_ne q p with rfl | hqp
    · rw [hself] at hq ⊢; exact h.orphans q hq
    · rw [hother q hqp] at hq ⊢
      rw [Kernel.adopt_used] at hq
      have := h.orphans q hq
      rwa [Kernel.adopt, if_neg (by rw [this]; simp)]
  · rcases eq_or_ne q p with rfl | hqp
    · rw [hself] at hq ⊢
      obtain ⟨r, hr, hl⟩ := h.parent q hq hqi
      exact ⟨r, hr, hlive r (by rintro rfl; exact h.parent_ne r hr) hl⟩
    · rw [hother q hqp] at hq ⊢
      rw [Kernel.adopt_used] at hq
      obtain ⟨r, hr, hl⟩ := h.parent q hq hqi
      rcases eq_or_ne r p with rfl | hrp
      · exact ⟨initproc, by rw [Kernel.adopt, if_pos hr], hinit⟩
      · refine ⟨r, ?_, hlive r hrp hl⟩
        rw [Kernel.adopt, if_neg (by rw [hr]; simpa using hrp)]
        exact hr
  · -- `initproc` comes before all others, so that the ranks still do
    obtain ⟨rank, hr, hri⟩ := h.rank
    refine ⟨rank, fun q r hqr => ?_, hri⟩
    rcases hparent q r hqr with hqr | ⟨hqi, rfl⟩
    · exact hr q r hqr
    · exact hri q hqi
  · rcases eq_or_ne q p with rfl | hqp
    · rw [hself]; exact hd
    · rw [hother q hqp, Kernel.adopt_pgdir]; exact (h.pgdir_le q).trans hn
  · rcases eq_or_ne q p with rfl | hqp
    · rw [hself]; exact h.sz_le q
    · rw [hother q hqp, Kernel.adopt_sz]; exact h.sz_le q

end Tree

/-- **Every step keeps the process tree.** -/
theorem tree_of_next {k k' : Kernel} {l : Call} (ht : Tree k.view k.pgdirs)
    (h : kernel.next k l = some k') : Tree k'.view k'.pgdirs := by
  cases effect_of_next ht h with
  | quiet hv hn =>
    rw [hv]
    exact ht.modify (fun _ => rfl) (fun _ => rfl) (fun _ => rfl)
      (fun q => (ht.pgdir_le q).trans hn) ht.sz_le
  | @fork p _ _ _ _ hp hnp hv hn =>
    rw [hv, hn]
    exact ht.insert hp hnp (Nat.le_succ _) le_rfl (ht.sz_le p)
  | @clone p _ _ _ _ hp hnp hv hn =>
    rw [hv, hn]
    exact ht.insert hp hnp le_rfl (ht.pgdir_le p) (ht.sz_le p)
  | @growproc p n mem sz _ hp hle hv _ _ hn =>
    rw [hv, hn]
    refine ht.modify (fun q => (Kernel.resizeView_eq _ p sz q).1) (fun q => (Kernel.resizeView_eq _ p sz q).2.1)
      (fun q => (Kernel.resizeView_eq _ p sz q).2.2.1)
      (fun q => (Kernel.resizeView_eq _ p sz q).2.2.2.le.trans (ht.pgdir_le q)) fun q => ?_
    unfold Kernel.resizeView
    split_ifs
    · exact hle
    · exact ht.sz_le q
  | @exec p pages _ hp hle hv hn =>
    rw [hv, hn]
    have hsame : ∀ {α : Type} (f : View → α),
        f { k.view p with pgdir := k.pgdirs + 1, sz := pages * PGSIZE } = f (k.view p) →
        ∀ q, f (Function.update k.view p
          { k.view p with pgdir := k.pgdirs + 1, sz := pages * PGSIZE } q) = f (k.view q) := by
      intro α f hf q
      rcases eq_or_ne q p with rfl | hq
      · rw [Function.update_self, hf]
      · rw [Function.update_of_ne hq]
    refine ht.modify (hsame View.used rfl) (hsame View.zombie rfl) (hsame View.parent rfl)
      (fun q => ?_) fun q => ?_
    · rcases eq_or_ne q p with rfl | hq
      · rw [Function.update_self]
      · rw [Function.update_of_ne hq]; exact (ht.pgdir_le q).trans (Nat.le_succ _)
    · rcases eq_or_ne q p with rfl | hq
      · rw [Function.update_self]; exact hle
      · rw [Function.update_of_ne hq]; exact ht.sz_le q
  | @exit p _ d _ hp hpi hv hn hd =>
    rw [hv]
    refine ht.exit hp hpi hn ?_
    have := ht.pgdir_le p
    rcases hd with ⟨rfl, -⟩ | ⟨hd, -⟩ <;> omega
  | reap _ hz hv hn =>
    rw [hv, hn]
    exact ht.reap hz

theorem tree_userinit : Tree userinit.view userinit.pgdirs where
  init_used := rfl
  init_alive := rfl
  init_parent := rfl
  orphans q _ := by
    rcases eq_or_ne q initproc with rfl | hq
    · rfl
    · simp [Kernel.view, userinit, hq, Proc.zero]
  parent q hq hqi := by
    simp [Kernel.view, userinit, hqi, Proc.zero] at hq
  rank := by
    refine ⟨fun q => if q = initproc then 0 else 1, fun q p hq => ?_, fun q hq => by simp [hq]⟩
    rcases eq_or_ne q initproc with rfl | hqi
    · cases hq
    · simp [Kernel.view, userinit, hqi, Proc.zero] at hq
  pgdir_le q := by
    rcases eq_or_ne q initproc with rfl | hq
    · exact le_rfl
    · simp [Kernel.view, userinit, hq, Proc.zero, Proc.view]
  sz_le q := by
    rcases eq_or_ne q initproc with rfl | hq
    · decide
    · simp [Kernel.view, userinit, hq, Proc.zero, Proc.view]

/-- All processes descend from `initproc`, in every run. -/
theorem tree_of_run {ls : List Call} {k : Kernel} (h : kernel.run userinit ls = some k) :
    Tree k.view k.pgdirs :=
  Machine.run_invariant (I := fun k => Tree k.view k.pgdirs) h tree_userinit
    fun _ _ _ => tree_of_next

end Threads

end OperatingSystems

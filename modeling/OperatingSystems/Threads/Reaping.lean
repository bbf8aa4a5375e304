import OperatingSystems.Threads.Effect

/-!
# Who reaps threads and children

`wait` and `join` tell threads from children by comparing page directories: they look at the entries
of the caller's own children whose directory is another one, or the same.  But `exec` gives its
caller a new directory, and so does `exit` if the process has threads.

* `Origin`, `origin` : how an entry was created, by whom, and whether its creator has exited; a ghost.
* `Sorted` : threads have the directory of their creator, children another one than their parent.
* `ReapsRight` : a step reaps threads by `join` of their creator and children by `wait` of their
  parent, or what `initproc` has taken over.
* `KeepsThreads` : neither a thread of a process that has not exited nor a process that has such
  threads calls `exec`, and such a thread has no threads when it exits.
* `reaps_right` : **in runs of such steps, `join` reaps the threads and `wait` the children**.
* `wait_reaps_thread` : a run where `wait` reaps a thread.
-/

namespace OperatingSystems

namespace Threads

open Kernel

/-- How an entry of the process table was created. -/
structure Origin where
  /-- By `clone`, not by `fork`. -/
  cloned : Bool
  creator : Slot
  /-- The creator has exited. -/
  orphan : Bool
  deriving DecidableEq

/-- The entry that a call takes into use. -/
def created (k : Kernel) (l : Call) : Option Slot :=
  (kernel.next k l).bind fun k' =>
    (List.finRange NPROC).find? fun q =>
      (k.proc q).state = .unused ∧ (k'.proc q).state ≠ .unused

/-- The origins after a step. -/
def origin (k : Kernel) (l : Call) (g : Slot → Origin) : Slot → Origin :=
  match l with
  | .fork p _ _ => (created k l).elim g fun np => Function.update g np ⟨false, p, false⟩
  | .clone p _ _ => (created k l).elim g fun np => Function.update g np ⟨true, p, false⟩
  | .exit p _ => fun q => if (g q).creator = p then { g q with orphan := true } else g q
  | _ => g

/-- `q` is a thread and its creator has not exited. -/
def OwnThread (k : Kernel) (g : Slot → Origin) (q : Slot) : Prop :=
  (k.view q).used ∧ q ≠ initproc ∧ (g q).cloned ∧ (g q).orphan = false

/-- The step does not give an own thread another directory than its creator. -/
def KeepsThreads (x : Kernel × (Slot → Origin)) : Call → Prop
  | .exec p (.ok _) => ∀ q, OwnThread x.1 x.2 q → q ≠ p ∧ (x.2 q).creator ≠ p
  | .exit p _ => OwnThread x.1 x.2 p → ∀ q, ¬ x.1.isThread p q
  | _ => True

instance (k : Kernel) (g : Slot → Origin) (q : Slot) : Decidable (OwnThread k g q) :=
  inferInstanceAs (Decidable (_ ∧ _))

instance (x : Kernel × (Slot → Origin)) : ∀ l, Decidable (KeepsThreads x l)
  | .exec p (.ok _) => inferInstanceAs (Decidable (∀ q, OwnThread x.1 x.2 q → q ≠ p ∧ _))
  | .exit p _ => inferInstanceAs (Decidable (OwnThread x.1 x.2 p → ∀ q, ¬ x.1.isThread p q))
  | .exec _ .noDirectory | .exec _ .bad | .dispatch _ | .yield _ | .block _ | .unblock _
  | .resume _ | .kill _ _ | .growproc _ _ _ | .fork _ _ _ | .clone _ _ _ | .wait _ | .join _ =>
    isTrue trivial

/-- Who reaps the entry `q`: its creator, or `initproc` if that has exited. -/
def reaper (g : Slot → Origin) (q : Slot) : Slot :=
  if (g q).orphan then initproc else (g q).creator

/-- The entry that a step reaps is a child of the caller, who waits for it if it was forked, and
joins it if it is an own thread. -/
def ReapsRight (x : Kernel × (Slot → Origin)) (l : Call) : Prop :=
  ∀ k' q, kernel.next x.1 l = some k' → (x.1.proc q).state = .zombie →
    (k'.proc q).state = .unused →
      (l = .wait (reaper x.2 q) ∨ l = .join (reaper x.2 q)) ∧
      ((x.2 q).cloned = false → l = .wait (reaper x.2 q)) ∧
      (OwnThread x.1 x.2 q → l = .join (reaper x.2 q))

/-- Directories tell threads from children. -/
structure Sorted (k : Kernel) (g : Slot → Origin) : Prop where
  tree : Tree k.view k.pgdirs
  parent : ∀ q, (k.view q).used → q ≠ initproc → (k.view q).parent = some (reaper g q)
  pgdir_ne : ∀ q, Live k.view q → (k.view q).pgdir ≠ 0
  /-- A forked process has a directory of its own. -/
  forked : ∀ q, (k.view q).used → q ≠ initproc → (g q).cloned = false →
    (k.view q).pgdir ≠ (k.view initproc).pgdir ∧ (k.view q).pgdir ≠ (k.view (reaper g q)).pgdir
  thread : ∀ q, OwnThread k g q → (k.view q).pgdir = (k.view (reaper g q)).pgdir

variable {k k' : Kernel} {g : Slot → Origin} {l : Call} {p q np : Slot}

/-- What is reaped is a child of the caller of `wait`, or a thread of that of `join`. -/
theorem reaped_of_next (ht : Tree k.view k.pgdirs) (h : kernel.next k l = some k')
    (hz : (k.proc q).state = .zombie) (hu : (k'.proc q).state = .unused) :
    ∃ p, l = .wait p ∧ k.isChild p q ∨ l = .join p ∧ k.isThread p q := by
  have hused : (k.view q).used := view_used.2 (by rw [hz]; decide)
  have hzombie : (k.view q).zombie := view_zombie.2 hz
  have hfree : (k'.view q).used = false := by simp [Kernel.view, view_of_unused hu]
  have hne : ∀ {v : View} {np : Slot}, (k.view np).used = false →
      k'.view = Function.update k.view np v → False := fun hnp hv => by
    rw [hv, Function.update_of_ne (Tree.ne_free hused hnp), hused] at hfree
    cases hfree
  cases effect_of_next ht h with
  | quiet hv =>
    rw [hv, hused] at hfree
    cases hfree
  | fork _ hnp hv => exact (hne hnp hv).elim
  | clone _ hnp hv => exact (hne hnp hv).elim
  | growproc _ _ hv =>
    rw [hv, (resizeView_eq _ _ _ _).1, hused] at hfree
    cases hfree
  | @exec p _ _ _ _ hv =>
    rw [hv] at hfree
    obtain rfl | hqp := eq_or_ne q p
    · rw [Function.update_self, hused] at hfree
      cases hfree
    · rw [Function.update_of_ne hqp, hused] at hfree
      cases hfree
  | @exit p _ _ _ _ _ hv =>
    rw [hv] at hfree
    obtain rfl | hqp := eq_or_ne q p
    · simp [exitView, hused] at hfree
    · rw [exitView, if_neg hqp, adopt_used, hused] at hfree
      cases hfree
  | @reap _ p z _ hcall _ hv =>
    -- the calls say which entry it is
    have hsame : ∀ {z}, k'.view = Function.update k.view z freeView → z = q := fun {z} hv => by
      by_contra hzq
      rw [hv, Function.update_of_ne (Ne.symm hzq), hused] at hfree
      cases hfree
    refine ⟨p, ?_⟩
    obtain rfl | rfl := hcall
    · obtain ⟨hb, x, hw⟩ := guarded_eq_some h
      obtain ⟨-, ⟨-, hv'⟩ | ⟨z', hchild, -, -, -, hv'⟩⟩ := view_wait (running_of_runs hb) hw
      · rw [hv', hused] at hfree
        cases hfree
      · exact Or.inl ⟨rfl, hsame hv' ▸ hchild⟩
    · obtain ⟨hb, x, hj⟩ := guarded_eq_some h
      obtain ⟨-, -, hv' | ⟨z', hthread, -, hv'⟩⟩ := view_join (running_of_runs hb) hj
      · rw [hv', hused] at hfree
        cases hfree
      · exact Or.inr ⟨rfl, hsame hv' ▸ hthread⟩

/-! ### The entry that comes into use -/

theorem created_pred (h : kernel.next k l = some k') {q : Slot} (hc : created k l = some q) :
    (k.view q).used = false ∧ (k'.view q).used := by
  rw [created, h] at hc
  have hq := List.find?_some hc
  simp only [ne_eq, decide_eq_true_eq] at hq
  exact ⟨by simp [Kernel.view, view_of_unused hq.1], view_used.2 hq.2⟩

/-- Nothing comes into use. -/
theorem created_of_view_eq (h : kernel.next k l = some k') (hv : k'.view = k.view) :
    created k l = none := by
  cases hc : created k l with
  | none => rfl
  | some q =>
    obtain ⟨hfree, hused⟩ := created_pred h hc
    rw [hv, hfree] at hused
    cases hused

/-- The entry that `fork` or `clone` takes is the one that comes into use. -/
theorem created_eq (h : kernel.next k l = some k') {v : View} (hfree : (k.view np).used = false)
    (hview : k'.view = Function.update k.view np v) (hv : v.used) : created k l = some np := by
  cases hc : created k l with
  | none =>
    rw [created, h] at hc
    have hnp := List.find?_eq_none.1 hc np (List.mem_finRange np)
    refine absurd ?_ hnp
    have hused : (k'.view np).used := by rw [hview, Function.update_self, hv]
    have hunused : (k.proc np).state = .unused := by
      by_contra hne
      rw [Kernel.view, view_used.2 hne] at hfree
      cases hfree
    simpa [hunused] using view_used.1 hused
  | some q =>
    obtain ⟨hqfree, hqused⟩ := created_pred h hc
    rw [hview] at hqused
    obtain rfl | hne := eq_or_ne q np
    · rfl
    · rw [Function.update_of_ne hne, hqfree] at hqused
      cases hqused

/-! ### What the steps do to threads and children -/

theorem Sorted.reaper_live (h : Sorted k g) (hq : (k.view q).used) (hqi : q ≠ initproc) :
    Live k.view (reaper g q) :=
  h.tree.parent_alive (h.parent q hq hqi)

/-- Only sizes change. -/
theorem Sorted.congr (h : Sorted k g) (ht : Tree k'.view k'.pgdirs)
    (hused : ∀ q, (k'.view q).used = (k.view q).used)
    (hzombie : ∀ q, (k'.view q).zombie = (k.view q).zombie)
    (hparent : ∀ q, (k'.view q).parent = (k.view q).parent)
    (hpgdir : ∀ q, (k'.view q).pgdir = (k.view q).pgdir) : Sorted k' g where
  tree := ht
  parent q hq hqi := by
    rw [hparent]
    exact h.parent q (hused q ▸ hq) hqi
  pgdir_ne q hq := by
    rw [hpgdir]
    exact h.pgdir_ne q ⟨hused q ▸ hq.1, hzombie q ▸ hq.2⟩
  forked q hq hqi hc := by
    rw [hpgdir, hpgdir, hpgdir]
    exact h.forked q (hused q ▸ hq) hqi hc
  thread q hq := by
    rw [hpgdir, hpgdir]
    exact h.thread q ⟨hused q ▸ hq.1, hq.2⟩

/-- `fork` and `clone`. -/
theorem Sorted.insert (h : Sorted k g) (ht : Tree k'.view k'.pgdirs) {d sz : ℕ} {cloned : Bool}
    (hlive : Live k.view p) (hfree : (k.view np).used = false)
    (hview : k'.view = Function.update k.view np ⟨true, false, some p, d, sz⟩)
    (hd : if cloned then d = (k.view p).pgdir else d = k.pgdirs + 1) :
    Sorted k' (Function.update g np ⟨cloned, p, false⟩) := by
  have hi : initproc ≠ np := Tree.ne_free h.tree.init_used hfree
  have hpn : p ≠ np := Tree.ne_free hlive.1 hfree
  have hself : k'.view np = ⟨true, false, some p, d, sz⟩ := by rw [hview, Function.update_self]
  have hother : ∀ q, q ≠ np → k'.view q = k.view q := fun q hq => by
    rw [hview, Function.update_of_ne hq]
  have hg : ∀ q, q ≠ np → Function.update g np ⟨cloned, p, false⟩ q = g q := fun q hq =>
    Function.update_of_ne hq ..
  have hreaper : ∀ q, q ≠ np → reaper (Function.update g np ⟨cloned, p, false⟩) q = reaper g q :=
    fun q hq => by simp only [reaper, hg q hq]
  have hreaper' : reaper (Function.update g np ⟨cloned, p, false⟩) np = p := by simp [reaper]
  have hd0 : d ≠ 0 := by
    split at hd
    · exact hd ▸ h.pgdir_ne p hlive
    · omega
  -- in each part the new entry first, then the others
  refine ⟨ht, fun q hq hqi => ?_, fun q hq => ?_, fun q hq hqi hc => ?_, fun q hq => ?_⟩ <;>
    obtain rfl | hqn := eq_or_ne q np
  · rw [hself, hreaper']
  · rw [hother q hqn] at hq ⊢
    rw [hreaper q hqn]
    exact h.parent q hq hqi
  · rwa [hself]
  · rw [hother q hqn]
    unfold Live at hq
    rw [hother q hqn] at hq
    exact h.pgdir_ne q hq
  · obtain rfl : cloned = false := by simpa using hc
    rw [if_neg (by decide)] at hd
    rw [hself, hreaper', hother _ hi, hother p hpn]
    have := h.tree.pgdir_le initproc
    have := h.tree.pgdir_le p
    exact ⟨by dsimp only at *; omega, by dsimp only at *; omega⟩
  · rw [hother q hqn] at hq ⊢
    rw [hg q hqn] at hc
    rw [hreaper q hqn, hother _ hi,
      hother _ (Tree.ne_free (h.reaper_live hq hqi).1 hfree)]
    exact h.forked q hq hqi hc
  · obtain ⟨-, -, hc, -⟩ := hq
    rw [Function.update_self] at hc
    rw [if_pos hc] at hd
    rw [hself, hreaper', hother p hpn]
    exact hd
  · obtain ⟨hq, hqi, hc⟩ := hq
    rw [hother q hqn] at hq ⊢
    rw [hg q hqn] at hc
    rw [hreaper q hqn, hother _ (Tree.ne_free (h.reaper_live hq hqi).1 hfree)]
    exact h.thread q ⟨hq, hqi, hc⟩

/-- A zombie is reaped. -/
theorem Sorted.reap (h : Sorted k g) (ht : Tree k'.view k'.pgdirs) {z : Slot}
    (hz : (k.view z).zombie) (hview : k'.view = Function.update k.view z freeView) :
    Sorted k' g := by
  have hi : initproc ≠ z := by
    rintro rfl
    rw [h.tree.init_alive] at hz
    cases hz
  have hother : ∀ q, q ≠ z → k'.view q = k.view q := fun q hq => by
    rw [hview, Function.update_of_ne hq]
  have hne : ∀ q, (k'.view q).used → q ≠ z := by
    rintro q hq rfl
    rw [hview, Function.update_self] at hq
    cases hq
  have hreaper : ∀ q, (k.view q).used → q ≠ initproc → reaper g q ≠ z := by
    intro q hq hqi heq
    exact h.tree.parent_ne_zombie hz q (heq ▸ h.parent q hq hqi)
  refine ⟨ht, fun q hq hqi => ?_, fun q hq => ?_, fun q hq hqi hc => ?_, fun q hq => ?_⟩
  · have hqz := hne q hq
    rw [hother q hqz] at hq ⊢
    exact h.parent q hq hqi
  · have hqz := hne q hq.1
    unfold Live at hq
    rw [hother q hqz] at hq ⊢
    exact h.pgdir_ne q hq
  · have hqz := hne q hq
    rw [hother q hqz] at hq ⊢
    rw [hother _ hi, hother _ (hreaper q hq hqi)]
    exact h.forked q hq hqi hc
  · obtain ⟨hq, hqi, hc⟩ := hq
    have hqz := hne q hq
    rw [hother q hqz] at hq ⊢
    rw [hother _ (hreaper q hq hqi)]
    exact h.thread q ⟨hq, hqi, hc⟩

/-- A process that is no own thread, and has none, gets a new directory. -/
theorem Sorted.exec (h : Sorted k g) (ht : Tree k'.view k'.pgdirs) {sz : ℕ}
    (hview : k'.view = Function.update k.view p { k.view p with pgdir := k.pgdirs + 1, sz := sz })
    (hkeeps : ∀ q, OwnThread k g q → q ≠ p ∧ (g q).creator ≠ p) : Sorted k' g := by
  have hself : k'.view p = { k.view p with pgdir := k.pgdirs + 1, sz := sz } := by
    rw [hview, Function.update_self]
  have hother : ∀ q, q ≠ p → k'.view q = k.view q := fun q hq => by
    rw [hview, Function.update_of_ne hq]
  have hused : ∀ q, (k'.view q).used = (k.view q).used := fun q => by
    obtain rfl | hqp := eq_or_ne q p
    · rw [hself]
    · rw [hother q hqp]
  have hparent : ∀ q, (k'.view q).parent = (k.view q).parent := fun q => by
    obtain rfl | hqp := eq_or_ne q p
    · rw [hself]
    · rw [hother q hqp]
  -- the new directory differs from all others
  have hnew : ∀ q r, q ≠ r → (k.view q).pgdir ≠ (k.view r).pgdir →
      (k'.view q).pgdir ≠ (k'.view r).pgdir := by
    intro q r hqr hne
    have hq := h.tree.pgdir_le q
    have hr := h.tree.pgdir_le r
    obtain rfl | hqp := eq_or_ne q p
    · rw [hself, hother r hqr.symm]
      dsimp only
      omega
    · obtain rfl | hrp := eq_or_ne r p
      · rw [hself, hother q hqp]
        dsimp only
        omega
      · rwa [hother q hqp, hother r hrp]
  refine ⟨ht, fun q hq hqi => ?_, fun q hq => ?_, fun q hq hqi hc => ?_, fun q hq => ?_⟩
  · rw [hparent]
    exact h.parent q (hused q ▸ hq) hqi
  · obtain rfl | hqp := eq_or_ne q p
    · rw [hself]
      exact Nat.succ_ne_zero _
    · unfold Live at hq
      rw [hother q hqp] at hq ⊢
      exact h.pgdir_ne q hq
  · rw [hused] at hq
    obtain ⟨hinit, hreaper⟩ := h.forked q hq hqi hc
    refine ⟨hnew q _ hqi hinit, hnew q _ (fun heq => ?_) hreaper⟩
    have hparent := h.parent q hq hqi
    rw [← heq] at hparent
    exact h.tree.parent_ne q hparent
  · obtain ⟨hq, hqi, hc, ho⟩ := hq
    rw [hused] at hq
    obtain ⟨hqp, hcreator⟩ := hkeeps q ⟨hq, hqi, hc, ho⟩
    have hreaper : reaper g q ≠ p := by simpa [reaper, ho] using hcreator
    rw [hother q hqp, hother _ hreaper]
    exact h.thread q ⟨hq, hqi, hc, ho⟩

/-- The origins after the exit of `p`. -/
def orphaned (g : Slot → Origin) (p : Slot) (q : Slot) : Origin :=
  if (g q).creator = p then { g q with orphan := true } else g q

@[simp] theorem orphaned_cloned (g : Slot → Origin) (p q : Slot) :
    (orphaned g p q).cloned = (g q).cloned := by
  unfold orphaned
  split <;> rfl

theorem reaper_orphaned (hp : p ≠ initproc) (q : Slot) :
    reaper (orphaned g p) q = if reaper g q = p then initproc else reaper g q := by
  unfold reaper orphaned
  by_cases hc : (g q).creator = p <;> cases ho : (g q).orphan <;> simp [hc, ho, Ne.symm hp]

/-- A process exits; if it is an own thread, it has no threads. -/
theorem Sorted.exit (h : Sorted k g) (ht : Tree k'.view k'.pgdirs) {d : ℕ} (hp : p ≠ initproc)
    (hlive : Live k.view p) (hview : k'.view = exitView k.view p d)
    (hdir : d = (k.view p).pgdir ∨ d = 0 ∨ k.pgdirs < d)
    (hkeeps : OwnThread k g p → d = (k.view p).pgdir) : Sorted k' (orphaned g p) := by
  have hself : k'.view p = { k.view p with zombie := true, pgdir := d } := by
    rw [hview, exitView, if_pos rfl]
  have hother : ∀ q, q ≠ p → k'.view q = adopt p (k.view q) := fun q hq => by
    rw [hview, exitView, if_neg hq]
  have hused : ∀ q, (k'.view q).used = (k.view q).used := fun q => by
    obtain rfl | hqp := eq_or_ne q p
    · rw [hself]
    · rw [hother q hqp, adopt_used]
  have hpgdir : ∀ q, q ≠ p → (k'.view q).pgdir = (k.view q).pgdir := fun q hq => by
    rw [hother q hq, adopt_pgdir]
  have hreaper_ne : reaper g p ≠ p := fun heq => by
    have hparent := h.parent p hlive.1 hp
    rw [heq] at hparent
    exact h.tree.parent_ne p hparent
  -- what differs from the directory of a process that lives on stays different
  have hnew : ∀ q r, r ≠ p → Live k.view r → (k.view q).pgdir ≠ (k.view r).pgdir →
      (k'.view q).pgdir ≠ (k'.view r).pgdir := by
    intro q r hr hrlive hne
    rw [hpgdir r hr]
    obtain rfl | hqp := eq_or_ne q p
    · rw [hself]
      have h0 := h.pgdir_ne r hrlive
      have hle := h.tree.pgdir_le r
      dsimp only
      omega
    · rwa [hpgdir q hqp]
  have hinit : Live k.view initproc := ⟨h.tree.init_used, h.tree.init_alive⟩
  refine ⟨ht, fun q hq hqi => ?_, fun q hq => ?_, fun q hq hqi hc => ?_, fun q hq => ?_⟩
  · rw [hused] at hq
    have hparent := h.parent q hq hqi
    rw [reaper_orphaned hp]
    obtain rfl | hqp := eq_or_ne q p
    · rw [hself, if_neg hreaper_ne]
      exact hparent
    · rw [hother q hqp, adopt, hparent]
      simp only [Option.some.injEq]
      split
      · rfl
      · exact hparent
  · have hqp : q ≠ p := by
      rintro rfl
      have hz := hq.2
      rw [hself] at hz
      cases hz
    rw [hpgdir q hqp]
    unfold Live at hq
    rw [hother q hqp, adopt_used, adopt_zombie] at hq
    exact h.pgdir_ne q hq
  · rw [hused] at hq
    rw [orphaned_cloned] at hc
    obtain ⟨hqinit, hqreaper⟩ := h.forked q hq hqi hc
    have hinit' := hnew q _ hp.symm hinit hqinit
    refine ⟨hinit', ?_⟩
    rw [reaper_orphaned hp]
    split
    · exact hinit'
    · next hne => exact hnew q _ hne (h.reaper_live hq hqi) hqreaper
  · obtain ⟨hq, hqi, hc, ho⟩ := hq
    rw [hused] at hq
    rw [orphaned_cloned] at hc
    -- the creator has not exited before, and does not now
    have hcreator : (g q).creator ≠ p := fun heq => by simp [orphaned, heq] at ho
    have ho' : (g q).orphan = false := by simpa [orphaned, hcreator] using ho
    have hreaper : reaper g q ≠ p := by simpa [reaper, ho'] using hcreator
    rw [reaper_orphaned hp, if_neg hreaper, hpgdir _ hreaper,
      ← h.thread q ⟨hq, hqi, hc, ho'⟩]
    obtain rfl | hqp := eq_or_ne q p
    · rw [hself]
      exact hkeeps ⟨hq, hqi, hc, ho'⟩
    · exact hpgdir q hqp

/-- **The step lemma.** -/
theorem sorted_next (h : Sorted k g) (hkeeps : KeepsThreads (k, g) l)
    (hn : kernel.next k l = some k') : Sorted k' (origin k l g) := by
  have ht := tree_of_next h.tree hn
  have hquiet : ∀ {v : Slot → View}, k'.view = v → (∀ q, (v q).used = (k.view q).used) →
      (∀ q, (v q).zombie = (k.view q).zombie) → (∀ q, (v q).parent = (k.view q).parent) →
      (∀ q, (v q).pgdir = (k.view q).pgdir) → Sorted k' g := by
    rintro v rfl hused hzombie hparent hpgdir
    exact h.congr ht hused hzombie hparent hpgdir
  have hsame : k'.view = k.view → Sorted k' g := fun hv =>
    hquiet hv (fun _ => rfl) (fun _ => rfl) (fun _ => rfl) fun _ => rfl
  cases l with
  | fork p kalloc mem =>
    cases effect_of_next h.tree hn with
    | quiet hv =>
      simp only [origin, created_of_view_eq hn hv, Option.elim]
      exact hsame hv
    | fork hlive hfree hv =>
      simp only [origin, created_eq hn hfree hv rfl, Option.elim]
      exact h.insert ht hlive hfree hv rfl
    | reap hcall => simp at hcall
  | clone p stack kalloc =>
    cases effect_of_next h.tree hn with
    | quiet hv =>
      simp only [origin, created_of_view_eq hn hv, Option.elim]
      exact hsame hv
    | clone hlive hfree hv =>
      simp only [origin, created_eq hn hfree hv rfl, Option.elim]
      exact h.insert ht hlive hfree hv rfl
    | reap hcall => simp at hcall
  | exit p mem =>
    obtain ⟨hb, x, hexit⟩ := guarded_eq_some hn
    have hlive := live_of_running (running_of_runs hb)
    obtain ⟨hp, -, d, hv, hd⟩ := view_exit h.tree.orphans hlive.1 (h.tree.parent_ne p) hexit
    -- an owner keeps its directory, as it leaves no thread behind
    refine h.exit ht hp hlive hv ?_ fun hown => ?_
    · obtain ⟨rfl, -⟩ | ⟨hd, -⟩ := hd
      · exact Or.inl rfl
      · exact Or.inr (hd.imp_right And.left)
    · obtain ⟨rfl, -⟩ | ⟨-, r, hr⟩ := hd
      · rfl
      · exact absurd ((isThread_iff h.tree.orphans hlive.1).2 hr) (hkeeps hown r)
  | exec p image =>
    cases effect_of_next h.tree hn with
    | quiet hv => exact hsame hv
    | exec _ _ hv => exact h.exec ht hv hkeeps
    | reap hcall => simp at hcall
  | growproc p n mem =>
    cases effect_of_next h.tree hn with
    | quiet hv => exact hsame hv
    | @growproc _ _ _ sz _ _ _ hv =>
      exact hquiet hv (fun q => (resizeView_eq _ p sz q).1) (fun q => (resizeView_eq _ p sz q).2.1)
        (fun q => (resizeView_eq _ p sz q).2.2.1) fun q => (resizeView_eq _ p sz q).2.2.2
    | reap hcall => simp at hcall
  | wait p | join p =>
    cases effect_of_next h.tree hn with
    | quiet hv => exact hsame hv
    | reap _ hz hv => exact h.reap ht hz hv
  | dispatch p | yield p | block p | unblock p | resume p | kill p pid =>
    cases effect_of_next h.tree hn with
    | quiet hv => exact hsame hv
    | reap hcall => simp at hcall

/-- Who is reaped by whom. -/
theorem Sorted.reapsRight (h : Sorted k g) (l : Call) : ReapsRight (k, g) l := by
  intro k' q hn hz hu
  have hused : (k.proc q).state ≠ .unused := by
    rw [hz]
    decide
  have hqi : q ≠ initproc := by
    rintro rfl
    have halive := h.tree.init_alive
    rw [show (k.view initproc).zombie = true from view_zombie.2 hz] at halive
    cases halive
  have hparent := h.parent q (view_used.2 hused) hqi
  obtain ⟨p, ⟨rfl, hchild⟩ | ⟨rfl, hthread⟩⟩ := reaped_of_next h.tree hn hz hu
  · simp only [isChild, Bool.decide_and, Bool.and_eq_true, decide_eq_true_eq] at hchild
    obtain ⟨hp, hne⟩ := hchild
    obtain rfl : p = reaper g q := by
      rw [Kernel.view, view_parent, hp] at hparent
      exact Option.some.inj hparent
    refine ⟨Or.inl rfl, fun _ => rfl, fun hown => absurd ?_ hne⟩
    have hlive := h.reaper_live (view_used.2 hused) hqi
    have hdir := h.thread q hown
    rwa [Kernel.view, view_pgdir hused, Kernel.view, view_pgdir (view_used.1 hlive.1)] at hdir
  · simp only [isThread, Bool.decide_and, Bool.and_eq_true, decide_eq_true_eq] at hthread
    obtain ⟨hp, heq⟩ := hthread
    obtain rfl : p = reaper g q := by
      rw [Kernel.view, view_parent, hp] at hparent
      exact Option.some.inj hparent
    refine ⟨Or.inr rfl, fun hc => ?_, fun _ => rfl⟩
    have hlive := h.reaper_live (view_used.2 hused) hqi
    have hdir := (h.forked q (view_used.2 hused) hqi hc).2
    rw [Kernel.view, view_pgdir hused, Kernel.view, view_pgdir (view_used.1 hlive.1)] at hdir
    exact absurd heq hdir

/-! ### Runs -/

/-- The origins before the first step: only `initproc` is in use. -/
def noOrigin (_ : Slot) : Origin := ⟨false, initproc, false⟩

theorem sorted_userinit : Sorted userinit noOrigin := by
  have hused : ∀ q, (userinit.view q).used → q = initproc := by
    intro q hq
    by_contra hne
    simp [Kernel.view, userinit, hne, Proc.zero] at hq
  refine ⟨tree_userinit, fun q hq hqi => absurd (hused q hq) hqi, fun q hq => ?_,
    fun q hq hqi => absurd (hused q hq) hqi, fun q hq => absurd (hused q hq.1) hq.2.1⟩
  rw [hused q hq.1]
  decide

/-- **Threads are reaped by `join` and children by `wait`**, in every run in which neither an own
thread nor a process with own threads calls `exec`, and no own thread that has threads exits. -/
theorem reaps_right {ls : List Call}
    (h : (kernel.track origin).Allowed KeepsThreads (userinit, noOrigin) ls) :
    (kernel.track origin).Allowed ReapsRight (userinit, noOrigin) ls := by
  refine h.of_invariant (I := fun x => Sorted x.1 x.2) sorted_userinit ?_ fun x l hx _ =>
    hx.reapsRight l
  intro x l y hx hg hn
  obtain ⟨hn, hy⟩ := Machine.track_next_eq_some.1 hn
  rw [← hy]
  exact sorted_next hx hg hn

/-! ### A thread that calls `exec` -/

/-- The second entry of the process table. -/
def second : Slot := ⟨1, by decide⟩

/-- `initproc` starts a thread, which exits. -/
def threadExits : List Call :=
  [.dispatch initproc, .clone initproc 0 true, .dispatch second, .exit second fun _ => none]

/-- `initproc` starts a thread, which calls `exec` and exits. -/
def threadExecs : List Call :=
  [.dispatch initproc, .clone initproc 0 true, .dispatch second, .exec second (.ok 1),
    .exit second fun _ => none]

theorem reaps_right_join :
    (kernel.run userinit (threadExits ++ [.join initproc])).isSome ∧
      (kernel.track origin).Allowed ReapsRight (userinit, noOrigin)
        (threadExits ++ [.join initproc]) :=
  ⟨by decide +kernel, reaps_right (by decide +kernel)⟩

/-- `wait` of `initproc` reaps the thread, which `initproc` has cloned. -/
theorem wait_reaps_thread :
    ¬ (kernel.track origin).Allowed ReapsRight (userinit, noOrigin)
      (threadExecs ++ [.wait initproc]) := by
  have hrun : ((kernel.track origin).run (userinit, noOrigin) threadExecs).map (fun x =>
      (x.2 second, (x.1.proc second).state,
        (kernel.next x.1 (.wait initproc)).map fun k' => (k'.proc second).state)) =
      some (⟨true, initproc, false⟩, .zombie, some .unused) := by
    decide +kernel
  intro h
  obtain ⟨⟨k, g⟩, hx, hfields⟩ := Option.map_eq_some_iff.1 hrun
  simp only [Prod.mk.injEq] at hfields
  obtain ⟨hg, hz, hnext⟩ := hfields
  obtain ⟨k', hn, hu⟩ := Option.map_eq_some_iff.1 hnext
  have hreaps := ((Machine.allowed_append.1 h).2 _ hx).1 k' second hn hz hu
  have hown : OwnThread k g second := by
    refine ⟨view_used.2 ?_, by decide, by rw [hg], by rw [hg]⟩
    rw [hz]
    decide
  cases hreaps.2.2 hown

end Threads

end OperatingSystems

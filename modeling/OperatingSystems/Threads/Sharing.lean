import OperatingSystems.Threads.Directories

/-!
# Shared address spaces are freed once

Who frees a shared page directory is decided by the process tree: `join` reaps an entry that has the
directory of its parent and keeps the directory, `wait` reaps any other and frees it.  So an address
space is safe as long as at most one of the entries that share it does not have its parent among
them (`Rooted`): that one is reaped last.

The source does not keep it so.  `exec` frees the old directory even if threads still run in it, and
`exit` passes the threads of the exiting process to `initproc`, which is not in their address space:
with two of them, or if the exiting process was a thread itself, there are two entries for each of
which `wait` frees the directory.

* `InGroup`, `Rooted` : the invariant on the views.
* `SpacesKept` : the steps that do not break it.
* `freed_once` : in a run of such steps every directory is freed once, and by its last owner.
* `not_freed_once` : a run in which a directory is freed twice.
-/

namespace OperatingSystems

namespace Threads

open Kernel

/-- `q` is a thread of its parent. -/
def InGroup (v : Slot → View) (q : Slot) : Prop :=
  ∃ p, (v q).parent = some p ∧ (v p).pgdir = (v q).pgdir

/-- Of the entries that share an address space, at most one is not a thread of its parent. -/
def Rooted (v : Slot → View) : Prop :=
  ∀ q r, q ≠ r → (v q).used → (v r).used → (v q).pgdir = (v r).pgdir → (v q).pgdir ≠ 0 →
    InGroup v q ∨ InGroup v r

/-- `exec` is called by processes that are alone in their address space only; a process that exits
and leaves threads behind shares the address space of `initproc`, or it is not a thread itself and
has no other thread. -/
def SpacesKept (k : Kernel) : Call → Prop
  | .exec p (.ok _) => Alone k.view p
  | .exit p _ => ∀ t, IsThread k.view p t → (k.view p).pgdir = (k.view initproc).pgdir ∨
      (¬ InGroup k.view p ∧ ∀ t', IsThread k.view p t' → t' = t)
  | _ => True

instance (v : Slot → View) (p : Slot) : Decidable (Alone v p) :=
  inferInstanceAs (Decidable (∀ q, q ≠ p → (v q).used → (v q).pgdir ≠ (v p).pgdir))

instance (v : Slot → View) (p q : Slot) : Decidable (IsThread v p q) :=
  inferInstanceAs (Decidable (_ ∧ _))

instance (v : Slot → View) (q : Slot) : Decidable (InGroup v q) :=
  inferInstanceAs (Decidable (∃ p, (v q).parent = some p ∧ (v p).pgdir = (v q).pgdir))

instance (k : Kernel) (l : Call) : Decidable (SpacesKept k l) := by
  unfold SpacesKept; split <;> infer_instance

variable {v v' : Slot → View} {n : ℕ} {p q : Slot}

theorem InGroup.congr (h : InGroup v q) (hparent : (v' q).parent = (v q).parent)
    (hdir : (v' q).pgdir = (v q).pgdir)
    (hpdir : ∀ p, (v q).parent = some p → (v' p).pgdir = (v p).pgdir) : InGroup v' q := by
  obtain ⟨p, hp, hd⟩ := h
  exact ⟨p, by rw [hparent, hp], by rw [hdir, hpdir p hp, hd]⟩

/-- A zombie that is not a thread of its parent is the last one in its address space: every other
entry there has its parent there too, and parents are not zombies. -/
theorem Rooted.alone (h : Rooted v) (ht : Tree v n) {z : Slot} (hz : (v z).zombie)
    (hu : (v z).used) (h0 : (v z).pgdir ≠ 0) (hroot : ¬ InGroup v z) : Alone v z := by
  obtain ⟨rank, hrank, -⟩ := ht.rank
  intro q
  induction hn : rank q using Nat.strong_induction_on generalizing q with
  | _ m ih =>
    intro hqz hq hd
    have hin : InGroup v q := (h q z hqz hq hu hd (hd ▸ h0)).resolve_right hroot
    obtain ⟨a, ha, had⟩ := hin
    have hlive := ht.parent_alive ha
    have haz : a ≠ z := by rintro rfl; rw [hlive.2] at hz; cases hz
    exact ih (rank a) (hn ▸ hrank q a ha) a rfl haz hlive.1 (had.trans hd)

/-- A changed entry `p` that nobody had as a parent in the same address space, with a directory that
nobody else has, or as a thread of its parent. -/
theorem Rooted.update (h : Rooted v) {w : View}
    (hw : (∀ q, q ≠ p → (v q).pgdir ≠ w.pgdir) ∨
      ∃ a, a ≠ p ∧ w.parent = some a ∧ (v a).pgdir = w.pgdir)
    (hp : ∀ q, q ≠ p → (v q).parent = some p → (v p).pgdir = (v q).pgdir → w.pgdir = (v p).pgdir) :
    Rooted (Function.update v p w) := by
  have hkeep : ∀ q, q ≠ p → InGroup v q → InGroup (Function.update v p w) q := by
    rintro q hqp ⟨a, ha, hd⟩
    refine ⟨a, by rw [Function.update_of_ne hqp]; exact ha, ?_⟩
    rw [Function.update_of_ne hqp]
    rcases eq_or_ne a p with rfl | hap
    · rw [Function.update_self, hp q hqp ha hd, hd]
    · rw [Function.update_of_ne hap, hd]
  have hself : (∃ q, q ≠ p ∧ (v q).pgdir = w.pgdir) → InGroup (Function.update v p w) p := by
    rintro ⟨q, hqp, hd⟩
    obtain ⟨a, hap, ha, had⟩ := hw.resolve_left fun hfresh => hfresh q hqp hd
    exact ⟨a, by rw [Function.update_self]; exact ha,
      by rw [Function.update_self, Function.update_of_ne hap]; exact had⟩
  intro q r hqr hq hr hd h0
  rcases eq_or_ne q p with rfl | hqp
  · rw [Function.update_self, Function.update_of_ne hqr.symm] at hd
    exact Or.inl (hself ⟨r, hqr.symm, hd.symm⟩)
  · rcases eq_or_ne r p with rfl | hrp
    · rw [Function.update_self, Function.update_of_ne hqp] at hd
      exact Or.inr (hself ⟨q, hqp, hd⟩)
    · rw [Function.update_of_ne hqp] at hq h0
      rw [Function.update_of_ne hrp] at hr
      rw [Function.update_of_ne hqp, Function.update_of_ne hrp] at hd
      exact (h q r hqr hq hr hd h0).imp (hkeep q hqp) (hkeep r hrp)

/-- The exit of a process whose threads are passed to their own address space, or of the root of an
address space that leaves a single thread behind. -/
theorem Rooted.exit (h : Rooted v) (ht : Tree v n) (hp : (v p).used) (hpi : p ≠ initproc) {d : ℕ}
    (hd : d = (v p).pgdir ∧ (∀ q, ¬ IsThread v p q) ∨
      (d = 0 ∨ n < d) ∧ ∃ q, IsThread v p q)
    (hkept : ∀ t, IsThread v p t → (v p).pgdir = (v initproc).pgdir ∨
      (¬ InGroup v p ∧ ∀ t', IsThread v p t' → t' = t)) : Rooted (exitView v p d) := by
  have hself : exitView v p d p = { v p with zombie := true, pgdir := d } := if_pos rfl
  have hother : ∀ q, q ≠ p → exitView v p d q = adopt p (v q) := fun q hq => if_neg hq
  -- whoever is not a thread of `p` stays a thread of its parent
  have hkeep : ∀ q, q ≠ p → InGroup v q → ¬ IsThread v p q → InGroup (exitView v p d) q := by
    rintro q hqp ⟨a, ha, had⟩ hnt
    have hap : a ≠ p := by rintro rfl; exact hnt ⟨ha, had.symm⟩
    refine ⟨a, ?_, by rw [hother q hqp, hother a hap, adopt_pgdir, adopt_pgdir]; exact had⟩
    rw [hother q hqp, adopt, if_neg (by rw [ha]; simpa using hap)]
    exact ha
  have hpair : ∀ q r, q ≠ r → q ≠ p → r ≠ p → (v r).used → (v q).pgdir = (v r).pgdir →
      (v q).pgdir ≠ 0 → InGroup v q → InGroup (exitView v p d) q ∨ InGroup (exitView v p d) r := by
    intro q r hqr hqp hrp hr he h0 hin
    by_cases hqt : IsThread v p q
    · rcases hkept q hqt with hinit | ⟨hroot, hone⟩
      · refine Or.inl ⟨initproc, ?_, ?_⟩
        · rw [hother q hqp, adopt, if_pos hqt.1]
        · rw [hother q hqp, hother _ hpi.symm, adopt_pgdir, adopt_pgdir, hqt.2, hinit]
      · have hpr : (v p).pgdir = (v r).pgdir := hqt.2.symm.trans he
        have hrin := (h p r hrp.symm hp hr hpr (hqt.2 ▸ h0)).resolve_left hroot
        exact Or.inr (hkeep r hrp hrin fun hrt => hqr (hone r hrt).symm)
    · exact Or.inl (hkeep q hqp hin hqt)
  have hpself : ∀ r, r ≠ p → (v r).used → d = (v r).pgdir → d ≠ 0 →
      InGroup (exitView v p d) p ∨ InGroup (exitView v p d) r := by
    intro r hrp hr he h0
    rcases hd with ⟨rfl, hno⟩ | ⟨hd, -⟩
    · rcases h p r hrp.symm hp hr he h0 with ⟨a, ha, had⟩ | hin
      · have hap : a ≠ p := by rintro rfl; exact ht.parent_ne a ha
        refine Or.inl ⟨a, by rw [hself]; exact ha, ?_⟩
        rw [hself, hother a hap, adopt_pgdir]; exact had
      · exact Or.inr (hkeep r hrp hin (hno r))
    · have := ht.pgdir_le r
      omega
  intro q r hqr hq hr he h0
  rcases eq_or_ne q p with rfl | hqp
  · rw [hself] at he h0
    rw [hother r hqr.symm] at he hr
    simp only [adopt_used, adopt_pgdir] at he hr
    exact hpself r hqr.symm hr he h0
  · rcases eq_or_ne r p with rfl | hrp
    · rw [he] at h0
      rw [hself] at he h0
      rw [hother q hqp] at he hq
      simp only [adopt_used, adopt_pgdir] at he hq
      exact (hpself q hqp hq he.symm h0).symm
    · simp only [hother q hqp, hother r hrp, adopt_used, adopt_pgdir] at hq hr he h0
      rcases h q r hqr hq hr he h0 with hin | hin
      · exact hpair q r hqr hqp hrp hr he h0 hin
      · exact (hpair r q hqr.symm hrp hqp hq he.symm (he ▸ h0) hin).symm

/-- The steps that keep the spaces keep them rooted. -/
theorem rooted_of_next {k k' : Kernel} {l : Call} (ht : Tree k.view k.pgdirs)
    (h : Rooted k.view) (hk : SpacesKept k l) (hn : kernel.next k l = some k') :
    Rooted k'.view := by
  have hfresh : ∀ q, (k.view q).pgdir ≠ k.pgdirs + 1 := fun q => by
    have := ht.pgdir_le q
    omega
  cases effect_of_next ht hn with
  | quiet hv => rw [hv]; exact h
  | @fork p np _ _ _ hp hnp hv =>
    rw [hv]
    refine h.update (Or.inl fun q _ => hfresh q) fun q _ hq _ => ?_
    rw [(ht.parent_alive hq).1] at hnp; cases hnp
  | @clone p np _ _ _ hp hnp hv =>
    rw [hv]
    refine h.update (Or.inr ⟨p, Tree.ne_free hp.1 hnp, rfl, rfl⟩) fun q _ hq _ => ?_
    rw [(ht.parent_alive hq).1] at hnp; cases hnp
  | @growproc p n mem sz _ hp _ hv =>
    rw [hv]
    have he := resizeView_eq k.view p sz
    intro q r hqr hq hr hd h0
    rw [(he q).1] at hq
    rw [(he r).1] at hr
    rw [(he q).2.2.2] at hd h0
    rw [(he r).2.2.2] at hd
    exact (h q r hqr hq hr hd h0).imp
      (·.congr (he q).2.2.1 (he q).2.2.2 fun a _ => (he a).2.2.2)
      (·.congr (he r).2.2.1 (he r).2.2.2 fun a _ => (he a).2.2.2)
  | @exec p pages _ hp _ hv =>
    rw [hv]
    refine h.update (Or.inl fun q _ => hfresh q) fun q hqp hq hd => ?_
    -- nobody else has the old directory
    have hqu : (k.view q).used := by
      by_contra hqu
      rw [ht.orphans q (by simpa using hqu)] at hq; cases hq
    exact absurd hd.symm (hk q hqp hqu)
  | @exit p mem d _ hp hpi hv _ hd =>
    rw [hv]
    exact h.exit ht hp.1 hpi (hd.imp_right fun hd => ⟨hd.1.imp_right And.left, hd.2⟩) hk
  | @reap _ p q _ _ hz hv =>
    rw [hv]
    intro r s hrs hr hs hd h0
    have hrq : r ≠ q := by rintro rfl; rw [Function.update_self] at hr; cases hr
    have hsq : s ≠ q := by rintro rfl; rw [Function.update_self] at hs; cases hs
    rw [Function.update_of_ne hrq] at hr h0
    rw [Function.update_of_ne hsq] at hs
    rw [Function.update_of_ne hrq, Function.update_of_ne hsq] at hd
    have hkeep : ∀ r, r ≠ q → InGroup k.view r → InGroup (Function.update k.view q freeView) r :=
      fun r hrq hin => hin.congr (by rw [Function.update_of_ne hrq])
        (by rw [Function.update_of_ne hrq]) fun a ha => by
          rw [Function.update_of_ne]; rintro rfl; exact ht.parent_ne_zombie hz r ha
    exact (h r s hrs hr hs hd h0).imp (hkeep r hrq) (hkeep s hsq)

theorem rooted_userinit : Rooted userinit.view := by
  have hone : ∀ q, (userinit.view q).used → q = initproc := fun q hq => by
    by_contra hqi
    simp [Kernel.view, userinit, hqi, Proc.zero, Proc.view] at hq
  intro q r hqr hq hr
  exact absurd ((hone q hq).trans (hone r hr).symm) hqr

/-- **Shared address spaces are freed once**, in the runs whose steps all keep the spaces: `freevm`
is called on a directory only when no other entry in use has it, and never twice for the same
directory. -/
theorem freed_once {ls : List Call} {k : Kernel} (h : kernel.run userinit ls = some k)
    (hk : kernel.Allowed SpacesKept userinit ls) :
    (∀ c ∈ k.freed, c.Safe) ∧ (k.freed.map FreeCall.pgdir).Nodup := by
  have hstep : ∀ k l k', Sound k ∧ Tree k.view k.pgdirs ∧ Rooted k.view → SpacesKept k l →
      kernel.next k l = some k' → Sound k' ∧ Tree k'.view k'.pgdirs ∧ Rooted k'.view := by
    rintro k l k' ⟨hs, ht, hr⟩ hkept hn
    refine ⟨sound_of_next hs ht (fun p z _ hz hpar hne h0 => ?_)
      (fun p pages he => by rw [he] at hkept; exact hkept) hn, tree_of_next ht hn,
      rooted_of_next ht hr hkept hn⟩
    have hzu : (k.view z).used := by
      by_contra hzu
      rw [ht.orphans z (by simpa using hzu)] at hpar; cases hpar
    refine hr.alone ht hz hzu h0 ?_
    rintro ⟨a, ha, had⟩
    rw [hpar] at ha
    cases ha
    exact hne had.symm
  obtain ⟨hs, -⟩ := Machine.run_invariant_of_allowed h hk
    ⟨sound_userinit, tree_userinit, rooted_userinit⟩ hstep
  exact ⟨hs.safe, hs.once⟩

/-- A process with one thread exits before it, and its zombie and that of the thread are reaped. -/
def exitRun : List Call :=
  [.dispatch 0, .fork 0 true none, .dispatch 1, .clone 1 0 true, .exit 1 fun _ => none,
    .dispatch 2, .exit 2 fun _ => none, .wait 0, .wait 0]

theorem freed_once_exitRun : ∃ k, kernel.run userinit exitRun = some k ∧
    (∀ c ∈ k.freed, c.Safe) ∧ (k.freed.map FreeCall.pgdir).Nodup := by
  obtain ⟨k, hk⟩ : ∃ k, kernel.run userinit exitRun = some k :=
    Option.isSome_iff_exists.1 (by decide +kernel)
  exact ⟨k, hk, freed_once hk (by decide +kernel)⟩

/-- A process with two threads exits, then one thread; when `initproc` reaps it, the other one still
runs in the directory that is freed, and frees it again later. -/
theorem not_freed_once : ¬ ∀ ls k, kernel.run userinit ls = some k →
    (∀ c ∈ k.freed, c.Safe) ∧ (k.freed.map FreeCall.pgdir).Nodup := by
  intro hall
  have hrun : ((kernel.run userinit
      [.dispatch 0, .fork 0 true none, .dispatch 1, .clone 1 0 true, .clone 1 0 true,
        .exit 1 fun _ => none, .dispatch 2, .exit 2 fun _ => none, .wait 0, .wait 0,
        .dispatch 3, .exit 3 fun _ => none, .wait 0]).map fun k =>
      k.freed.map FreeCall.pgdir) = some [2, 2, 3] := by
    decide +kernel
  obtain ⟨k, hk, hf⟩ := Option.map_eq_some_iff.1 hrun
  have := (hall _ k hk).2
  rw [hf] at this
  simp at this

end Threads

end OperatingSystems

import OperatingSystems.Files.References
import OperatingSystems.Threads.Effect

/-!
# Files and the descriptors of all processes

* `System.Counted` : the counts are right, and entries of the process table that are unused or
  zombies have no descriptors.
* `counted_next` : **every system call keeps this**, and neither `filedup` nor `fileclose` panics.
* `refs_exact` : **in every run the counts are the numbers of descriptors**, and a file is closed in
  the step in which its last descriptor goes away.
-/

namespace OperatingSystems

namespace Files

open Threads (Slot Kernel Call)
open Threads.Kernel (Live)
open Refs

/-- Only `exit` ends a process. -/
theorem live_of_next {k k' : Kernel} {l : Call} {q : Slot} (ht : Threads.Tree k.view k.pgdirs)
    (h : Threads.kernel.next k l = some k') (hq : Live k.view q) (hexit : ∀ mem, l ≠ .exit q mem) :
    Live k'.view q := by
  have hnew : ∀ {np : Slot} {v : Threads.View}, (k.view np).used = false →
      k'.view = Function.update k.view np v → Live k'.view q := fun hfree hv => by
    unfold Live
    rw [hv, Function.update_of_ne (Threads.Tree.ne_free hq.1 hfree)]
    exact hq
  cases Threads.effect_of_next ht h with
  | quiet hv => exact hv ▸ hq
  | fork _ hfree hv => exact hnew hfree hv
  | clone _ hfree hv => exact hnew hfree hv
  | @growproc p _ _ sz _ _ _ hv =>
    unfold Live
    rw [hv, (Kernel.resizeView_eq _ p sz q).1, (Kernel.resizeView_eq _ p sz q).2.1]
    exact hq
  | @exec p _ _ _ _ hv =>
    unfold Live
    rw [hv]
    obtain rfl | hqp := eq_or_ne q p
    · rw [Function.update_self]
      exact hq
    · rw [Function.update_of_ne hqp]
      exact hq
  | @exit p mem _ _ _ _ hv =>
    have hqp : q ≠ p := by
      rintro rfl
      exact hexit mem rfl
    unfold Live
    rw [hv, Kernel.exitView, if_neg hqp, Kernel.adopt_used, Kernel.adopt_zombie]
    exact hq
  | @reap _ _ z _ _ hz hv =>
    have hqz : q ≠ z := by
      rintro rfl
      rw [hq.2] at hz
      cases hz
    unfold Live
    rw [hv, Function.update_of_ne hqz]
    exact hq

namespace System

/-- The descriptors, of all processes and threads, that point to a file. -/
def descriptors (s : System) (f : FileId) : Finset (Slot × Fd) :=
  Finset.univ.filter fun x => s.ofile x.1 x.2 = some f

/-- Between system calls the counts are right, and only live processes have descriptors. -/
structure Counted (s : System) : Prop where
  tree : Threads.Tree s.kernel.view s.kernel.pgdirs
  owned : s.Owned 0
  idle : ∀ q, ¬ Live s.kernel.view q → ∀ fd, s.ofile q fd = none

variable {s s' : System} {k : Kernel} {p : Slot} {l : Call} {f : FileId}

theorem Owned.withKernel {held : FileId → ℤ} (h : s.Owned held) (k : Kernel) :
    { s with kernel := k }.Owned held :=
  ⟨h.balanced, h.lives, h.free⟩

/-- A new process has no descriptors before it gets those of `p`. -/
theorem forkFiles_spec (h : s.Counted) (p : Slot) (kalloc : Bool) (k : Kernel) :
    ∃ s', s.forkFiles p kalloc k = some s' ∧ s'.Owned 0 ∧ s.Steady s' ∧
      ∀ q, ¬ Live k.view q → s'.ofile q = s.ofile q := by
  unfold forkFiles
  obtain ⟨k₁, halloc, -⟩ | ⟨k₁, np, halloc, -, hunused, -⟩ := s.kernel.allocproc_cases kalloc
  · simp only [halloc]
    exact ⟨s, rfl, h.owned, .of_eq rfl, fun _ _ => rfl⟩
  simp only [halloc]
  split_ifs with hrunnable
  · have hidle : ¬ Live s.kernel.view np := fun hlive => Threads.view_used.1 hlive.1 hunused
    obtain ⟨s', hcopy, hcompletes⟩ := copyFiles_spec (p := p) h.owned (h.idle np hidle)
    refine ⟨s', hcopy, hcompletes.owned, hcompletes.steady, fun q hq => hcompletes.others q ?_⟩
    rintro rfl
    refine hq ⟨Threads.view_used.2 ?_, ?_⟩
    · rw [hrunnable]
      decide
    · rw [Kernel.view, Threads.view_of_used (by rw [hrunnable]; decide), hrunnable]
      rfl
  · exact ⟨s, rfl, h.owned, .of_eq rfl, fun _ _ => rfl⟩

theorem callFiles_spec (h : s.Counted) (hn : Threads.kernel.next s.kernel l = some k) :
    ∃ s', s.callFiles k l = some s' ∧ s'.Owned 0 ∧ s.Steady s' ∧
      ∀ q, ¬ Live k.view q → ∀ fd, s'.ofile q fd = none := by
  -- who is not live after the call was not before, or has just exited
  have hidle : ∀ q, ¬ Live k.view q → (∀ mem, l ≠ .exit q mem) → ∀ fd, s.ofile q fd = none :=
    fun q hq hexit => h.idle q fun hlive => hq (live_of_next h.tree hn hlive hexit)
  have hfork : ∀ p kalloc, (∀ q mem, l ≠ .exit q mem) →
      ∃ s', s.forkFiles p kalloc k = some s' ∧ s'.Owned 0 ∧ s.Steady s' ∧
        ∀ q, ¬ Live k.view q → ∀ fd, s'.ofile q fd = none := fun p kalloc hexit => by
    obtain ⟨s', hs', howned, hsteady, hofile⟩ := forkFiles_spec h p kalloc k
    refine ⟨s', hs', howned, hsteady, fun q hq fd => ?_⟩
    rw [hofile q hq]
    exact hidle q hq (hexit q) fd
  cases l with
  | fork p kalloc mem => exact hfork p kalloc nofun
  | clone p stack kalloc => exact hfork p kalloc nofun
  | exit p mem =>
    obtain ⟨s', hs', hcompletes, hempty⟩ := closeFiles_spec h.owned p
    refine ⟨s', hs', hcompletes.owned, hcompletes.steady, fun q hq fd => ?_⟩
    obtain rfl | hqp := eq_or_ne q p
    · exact hempty fd
    · rw [hcompletes.others q hqp]
      refine hidle q hq (fun mem' heq => hqp ?_) fd
      injection heq with hpq
      exact hpq.symm
  | dispatch | yield | block | unblock | resume | kill | growproc | exec | wait | join =>
    exact ⟨s, rfl, h.owned, .of_eq rfl, fun q hq => hidle q hq nofun⟩

/-- A call of `sysfile.c`, whose caller runs. -/
theorem Counted.completes (h : s.Counted) (hp : s.kernel.runs p none) (hs : s.Completes s' p) :
    { s' with kernel := s.kernel }.Counted where
  tree := h.tree
  owned := hs.owned.withKernel _
  idle q hq fd := by
    have hqp : q ≠ p := by
      rintro rfl
      exact hq (Kernel.live_of_running (Kernel.running_of_runs hp))
    have hofile := congrFun (hs.others q hqp) fd
    exact hofile.trans (h.idle q hq fd)

end System

open Files.System

variable {s s' : System} {k : Kernel} {op : Op}

/-- **The step lemma**: a call that the kernel of the processes survives keeps the counts right. -/
theorem counted_next (h : s.Counted) (hk : s.kernelAfter op = some k) :
    ∃ s', system.next s op = some s' ∧ s'.Counted ∧ s.Steady s' := by
  have hsys : ∀ {p : Slot} {r : Option (System × ℤ)},
      (if s.kernel.runs p none then some s.kernel else none) = some k →
      s.filesAfter k op = r.map Prod.fst → (∃ s' x, r = some (s', x) ∧ s.Completes s' p) →
      ∃ s', system.next s op = some s' ∧ s'.Counted ∧ s.Steady s' := by
    rintro p r hk hfiles ⟨s', x, rfl, hs'⟩
    split_ifs at hk with hp
    cases hk
    refine ⟨_, ?_, h.completes hp hs', hs'.steady⟩
    simp [system, ‹s.kernelAfter op = some s.kernel›, hfiles]
  cases op with
  | call l =>
    obtain ⟨s', hfiles, howned, hsteady, hidle⟩ := callFiles_spec h hk
    refine ⟨{ s' with kernel := k }, ?_, ⟨Threads.tree_of_next h.tree hk, howned.withKernel k,
      hidle⟩, hsteady⟩
    simp [system, hk, filesAfter, hfiles]
  | sysOpen p ip omode => exact hsys hk rfl (sysOpen_spec h.owned p ip omode)
  | sysDup p n => exact hsys hk rfl (sysDup_spec h.owned p n)
  | sysPipe p ptr kalloc => exact hsys hk rfl (sysPipe_spec h.owned p ptr kalloc)
  | sysClose p n => exact hsys hk rfl (sysClose_spec h.owned p n)

theorem kernelAfter_of_next (h : system.next s op = some s') : ∃ k, s.kernelAfter op = some k := by
  obtain ⟨k, hk, -⟩ := Option.bind_eq_some_iff.1 h
  exact ⟨k, hk⟩

theorem counted_of_next (h : s.Counted) (hn : system.next s op = some s') :
    s'.Counted ∧ s.Steady s' := by
  obtain ⟨k, hk⟩ := kernelAfter_of_next hn
  obtain ⟨t, ht, hcounted⟩ := counted_next h hk
  rw [hn] at ht
  cases ht
  exact hcounted

theorem counted_boot : boot.Counted where
  tree := Threads.tree_userinit
  owned := {
    balanced := fun f => by
      have hempty : holders boot.pointers f = ∅ := holders_eq_empty.2 nofun
      rw [hempty]
      rfl
    lives := fun _ => rfl
    free := fun _ _ => rfl }
  idle _ _ _ := rfl

theorem counted_of_run {ops : List Op} (h : system.run boot ops = some s) : s.Counted :=
  Machine.run_invariant h counted_boot fun _ _ _ hs hn => (counted_of_next hs hn).1

theorem System.Counted.refs_eq_zero (h : s.Counted) (f : FileId) :
    s.refs f = 0 ↔ s.descriptors f = ∅ := h.owned.balanced.ref_eq_zero

/-- **The counts are right between system calls**: in every run, `ref` is the number of descriptors
that point to the file, none points to an unreferenced file, every file that was opened has been
closed unless a descriptor points to it, and a step closes a file if and only if it takes the last
descriptor away.  The calls never panic over a count. -/
theorem refs_exact {ops : List Op} (h : system.run boot ops = some s) :
    (∀ f, (s.file f).ref = (s.descriptors f).card) ∧
    (∀ q fd f, s.ofile q fd = some f → (s.file f).ref ≠ 0) ∧
    (∀ f, s.opened f = s.closed f + if s.descriptors f = ∅ then 0 else 1) ∧
    (∀ op s', system.next s op = some s' → ∀ f, s.descriptors f ≠ ∅ →
      s'.closed f = s.closed f + if s'.descriptors f = ∅ then 1 else 0) ∧
    ∀ op, (s.kernelAfter op).isSome → (system.next s op).isSome := by
  have hs := counted_of_run h
  have hlives : ∀ {t : System}, t.Counted → ∀ f,
      t.opened f = t.closed f + if t.descriptors f = ∅ then 0 else 1 := fun {t} ht f => by
    rw [ht.owned.lives f]
    exact congrArg _ (if_congr (ht.refs_eq_zero f) rfl rfl)
  refine ⟨fun f => ?_, fun q fd f hfd => ?_, hlives hs, fun op s' hn f hf => ?_, fun op hop => ?_⟩
  · have hf := hs.owned.balanced f
    rwa [Pi.zero_apply, add_zero] at hf
  · have hpos := hs.owned.ofile_ref_pos le_rfl hfd
    unfold refs at hpos
    omega
  · obtain ⟨hs', hsteady⟩ := counted_of_next hs hn
    have hopened := hsteady f (mt (hs.refs_eq_zero f).1 hf)
    have hbefore := hlives hs f
    have hafter := hlives hs' f
    rw [if_neg hf] at hbefore
    split_ifs at hafter ⊢
    · omega
    · omega
  · obtain ⟨k, hk⟩ := Option.isSome_iff_exists.1 hop
    obtain ⟨s', hs', -⟩ := counted_next hs hk
    rw [hs']
    rfl

/-- `initproc` opens a file, duplicates the descriptor, starts a thread and closes one descriptor. -/
def sharesFile : List Op :=
  [.call (.dispatch Threads.initproc), .sysOpen Threads.initproc (some (1, false)) O_RDWR,
    .sysDup Threads.initproc (some 0), .call (.clone Threads.initproc 0 true),
    .sysClose Threads.initproc (some 0)]

theorem refs_exact_shared : ∃ s, system.run boot sharesFile = some s ∧
    (s.file ⟨0, by decide⟩).ref = 3 ∧ (s.descriptors ⟨0, by decide⟩).card = 3 := by
  have hrun : (system.run boot sharesFile).map (fun s => (s.file ⟨0, by decide⟩).ref) = some 3 := by
    decide +kernel
  obtain ⟨s, hs, href⟩ := Option.map_eq_some_iff.1 hrun
  refine ⟨s, hs, href, ?_⟩
  have hcount := (refs_exact hs).1 ⟨0, by decide⟩
  rw [href] at hcount
  exact_mod_cast hcount.symm

end Files

end OperatingSystems

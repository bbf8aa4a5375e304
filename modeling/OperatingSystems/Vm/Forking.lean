import OperatingSystems.Vm.Copying
import OperatingSystems.Vm.Growth

/-!
# Forks that fail

`fork` takes an entry of the process table, a frame for the kernel stack, the frames of `setupkvm`
and one for each page of the parent.  Where it fails it undoes what it has done, except in the middle
of `setupkvm`.

* `forkFrames` : the number of frames that a `fork` takes.
* `Undone` : a failure that leaves nothing behind.
* `fork_undone_iff` : **exactly which failed forks leave nothing behind**.
* `fork_not_undone` : memory for a kernel stack and a page directory, but for no page table.
-/

namespace OperatingSystems

namespace Vm

variable {k k' : Kernel} {p np : Slot} {d : Pgdir} {f : Frame} {fs : List Frame}

/-- The frames that a `fork` takes: the kernel stack, and those of the copy. -/
def forkFrames (sz ss : ℕ) : ℕ := 1 + copyFrames sz ss

/-- `fork` has failed: no entry of the process table has changed its state, those in use have not
changed at all, and the same frames are free; no other has changed. -/
structure Undone (k k' : Kernel) (r : ℤ) : Prop where
  result : r = -1
  state : ∀ q, (k'.proc q).state = (k.proc q).state
  proc : ∀ q, (k.proc q).state ≠ .unused → k'.proc q = k.proc q
  freelist : k'.kmem.freelist.Perm k.kmem.freelist
  page : ∀ x, x ∉ k.kmem.freelist → k'.kmem.page x = k.kmem.page x

namespace Kernel

theorem state_of_findUnused (h : k.findUnused = some np) : (k.proc np).state = .unused := by
  simpa using List.find?_some h

/-- Without a frame `allocproc` gives the entry back. -/
theorem allocproc_of_nil (h : k.findUnused = some np) (hm : k.kmem.freelist = []) :
    ∃ k₁, k.allocproc = (k₁, none) ∧ Undone k k₁ (-1) := by
  have hstate := state_of_findUnused h
  unfold allocproc
  rw [h]
  simp only [kalloc, setProc, hm]
  refine ⟨_, rfl, rfl, fun q => ?_, fun q hq => ?_, .refl _, fun _ _ => rfl⟩
  · rcases eq_or_ne q np with rfl | hne
    · simp [hstate]
    · simp [hne]
  · have hne : q ≠ np := by rintro rfl; exact hq hstate
    simp [hne]

/-- With one it gives it to the entry. -/
theorem allocproc_of_cons (h : k.findUnused = some np) (hm : k.kmem.freelist = f :: fs) :
    ∃ k₁, k.allocproc = (k₁, some np) ∧ k₁.kmem = { k.kmem with freelist := fs } ∧
      (k₁.proc np).kstack = some f ∧ ∀ q, q ≠ np → k₁.proc q = k.proc q := by
  unfold allocproc
  rw [h]
  simp only [kalloc, setProc, hm]
  refine ⟨_, rfl, rfl, by simp, fun q hq => ?_⟩
  simp [hq]

/-- A copy that fails gives the entry and the kernel stack back. -/
theorem forkCopy_of_none {m : Kmem} (hpgdir : (k.proc p).pgdir = some d)
    (hkstack : (k.proc np).kstack = some f)
    (hcopy : copyuvm (k.proc p).ss k.kmem d (k.proc p).sz = some (m, none)) :
    ∃ k', k.forkCopy p np = some (k', -1) ∧ k'.kmem = kfree m f ∧
      (k'.proc np).state = .unused ∧ ∀ q, q ≠ np → k'.proc q = k.proc q := by
  unfold forkCopy
  rw [hpgdir]
  simp only [hcopy, Option.map_some, hkstack]
  refine ⟨_, rfl, rfl, by simp [setProc], fun q hq => ?_⟩
  simp [setProc, hq]

end Kernel

open Kernel

/-- **Failed forks.**  For every parent whose pages are present and in use, and every free list that is
too short for the `fork`: it fails and leaves nothing behind if and only if there is no entry in the
process table, or no frame beyond that of the kernel stack, or at least those of `setupkvm`. -/
theorem fork_undone_iff (hpgdir : (k.proc p).pgdir = some d) (hstate : (k.proc p).state ≠ .unused)
    (h : Forkable k.kmem d (k.proc p).sz (k.proc p).ss)
    (hfail : k.kmem.freelist.length < forkFrames (k.proc p).sz (k.proc p).ss) :
    (∃ k' r, k.fork p = some (k', r) ∧ Undone k k' r) ↔
      k.findUnused = none ∨ k.kmem.freelist.length ≤ 1 ∨
        kernelFrames < k.kmem.freelist.length := by
  unfold forkFrames at hfail
  cases hfind : k.findUnused with
  | none =>
    refine iff_of_true ⟨k, -1, ?_, rfl, fun _ => rfl, fun _ _ => rfl, .refl _, fun _ _ => rfl⟩
      (Or.inl rfl)
    rw [fork, allocproc, hfind]
  | some np =>
    have hunused := state_of_findUnused hfind
    have hne : p ≠ np := by rintro rfl; exact hstate hunused
    simp only [reduceCtorEq, false_or]
    cases hm : k.kmem.freelist with
    | nil =>
      obtain ⟨k₁, halloc, hundone⟩ := allocproc_of_nil hfind hm
      exact iff_of_true ⟨k₁, -1, by rw [fork, halloc], hundone⟩ (Or.inl (Nat.zero_le 1))
    | cons f fs =>
      rw [hm, List.length_cons] at hfail
      obtain ⟨hf, -⟩ := List.nodup_cons.1 (hm ▸ h.nodup)
      obtain ⟨k₁, halloc, hkmem, hkstack, hother⟩ := allocproc_of_cons hfind hm
      -- the copy
      have hforkable : Forkable k₁.kmem d (k₁.proc p).sz (k₁.proc p).ss := by
        rw [hkmem, hother p hne]
        exact ⟨h.backs, (List.nodup_cons.1 (hm ▸ h.nodup)).2, fun v e hv he hmem =>
          h.used v e hv he (by rw [hm]; exact List.mem_cons_of_mem f hmem)⟩
      obtain ⟨m, hcopy, hfree, hpage⟩ := copyuvm_of_lt hforkable (by
        rw [hkmem, hother p hne]
        change fs.length < _
        omega)
      obtain ⟨k', hk', hkmem', hnp, hother'⟩ :=
        forkCopy_of_none ((hother p hne).symm ▸ hpgdir) hkstack hcopy
      have hfork : k.fork p = some (k', -1) := by
        rw [fork, halloc]
        exact hk'
      rw [hkmem] at hfree hpage
      dsimp only at hfree hpage
      have hundone : k'.kmem.freelist.Perm (f :: fs) → Undone k k' (-1) := fun hperm => by
        refine ⟨rfl, fun q => ?_, fun q hq => ?_, by rwa [hm], fun x hx => ?_⟩
        · rcases eq_or_ne q np with rfl | hq
          · rw [hnp, hunused]
          · rw [hother' q hq, hother q hq]
        · have hq : q ≠ np := by rintro rfl; exact hq hunused
          rw [hother' q hq, hother q hq]
        · rw [hm, List.mem_cons, not_or] at hx
          rw [hkmem', kfree_page, hpage x hx.2]
          rw [← hkmem', hperm.mem_iff, List.mem_cons, not_or]
          exact hx
      have hiff : (∃ k' r, k.fork p = some (k', r) ∧ Undone k k' r) ↔
          k'.kmem.freelist.Perm (f :: fs) := by
        refine ⟨?_, fun hperm => ⟨k', -1, hfork, hundone hperm⟩⟩
        rintro ⟨k₂, r, hk₂, hu⟩
        rw [hfork] at hk₂
        cases hk₂
        rw [← hm]
        exact hu.freelist
      rw [hiff, hkmem', List.length_cons]
      change (f :: m.freelist).Perm (f :: fs) ↔ _
      rw [List.perm_cons]
      split_ifs at hfree with hlt
      · -- the frames that `setupkvm` has allocated are lost
        rw [hfree, List.nil_perm, ← List.length_eq_zero_iff]
        omega
      · exact iff_of_true (List.perm_iff_count.2 hfree) (by omega)

/-- The frames of a process that occupies its pages are in use. -/
theorem Occupies.forkable (h : Occupies k p d) :
    Forkable k.kmem d (k.proc p).sz (k.proc p).ss where
  backs := by
    have hroom := h.sz_le
    refine ⟨(k.proc p).ss_dvd, by omega, ?_, fun v hv => (h.covers v).2 hv⟩
    simp only [PGSIZE, USERTOP] at *
    omega
  nodup := h.nodup_freelist
  used _ _ _ he := h.frame_notMem he

/-- The small kernel with `n` free frames. -/
def withFrames (n : ℕ) : Kernel := { smallKernel with kmem := ⟨List.range' 20 n, fun _ _ => 0⟩ }

theorem occupies_withFrames (n : ℕ) : Occupies (withFrames n) 1 smallPgdir where
  pgdir := rfl
  covers := occupies_smallKernel.covers
  apart := occupies_smallKernel.apart
  nodup := by
    refine List.nodup_append'.2 ⟨List.nodup_range', by decide +kernel, fun x hx hmem => ?_⟩
    have hle := (List.mem_range'_1.1 hx).1
    have hlt : ∀ x ∈ smallPgdir.frames, x < 20 := by decide +kernel
    exact absurd (hlt x hmem) (not_lt.2 hle)

/-- With memory for a kernel stack only, the failed `fork` leaves nothing behind. -/
theorem fork_undone_one : ∃ k' r, (withFrames 1).fork 1 = some (k', r) ∧ Undone (withFrames 1) k' r :=
  (fork_undone_iff (k := withFrames 1) (p := 1) rfl (by decide) (occupies_withFrames 1).forkable
    (by decide)).2 (Or.inr (Or.inl (by decide)))

/-- **Frames that are lost**: with memory for a kernel stack and a page directory, but for no page
table, the frame of the page directory is not free after the failed `fork`. -/
theorem fork_not_undone : Occupies (withFrames 2) 1 smallPgdir ∧
    (withFrames 2).kmem.freelist.length <
      forkFrames ((withFrames 2).proc 1).sz ((withFrames 2).proc 1).ss ∧
    ¬ ∃ k' r, (withFrames 2).fork 1 = some (k', r) ∧ Undone (withFrames 2) k' r := by
  refine ⟨occupies_withFrames 2, by decide, ?_⟩
  rintro ⟨k', r, hk', hu⟩
  have hlost : ((withFrames 2).fork 1).map (fun x => x.1.kmem.freelist.length) = some 1 := by
    decide +kernel
  rw [hk', Option.map_some, Option.some.injEq] at hlost
  have := hu.freelist.length_eq
  rw [hlost] at this
  cases this

end Vm

end OperatingSystems

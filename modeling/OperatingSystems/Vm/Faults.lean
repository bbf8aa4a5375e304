import OperatingSystems.Vm.Growth

/-!
# Page faults

`trap` reads the error code of a page fault, but not the faulting address.  For a page that is not
present it adds a page to the stack, wherever the fault was; for a read that is not allowed it kills
the process; for a write that is not allowed it does nothing.

* `Resolved` : the page of the faulting address was added to the stack.
* `Handled` : the fault is resolved, or the process exits.
* `Handles` : the condition for that.
* `pgflt_handled_iff` : **exactly which page faults are resolved or punished**.
* `pgflt_not_handled` : a write to the null page, and an access far below the stack.
-/

namespace OperatingSystems

namespace Vm

/-- A fault at `a` with error code `err` is resolved: there is a new page of zeros for the user at `a`,
and `ss` has grown by a page.  The page was not present, it is the one below the stack, and a page
stays free above the heap. -/
structure Resolved (k : Kernel) (p : Slot) (d : Pgdir) (err a : ℕ) (k' : Kernel) (d' : Pgdir)
    (f : Frame) : Prop where
  pgdir : (k'.proc p).pgdir = some d'
  state : (k'.proc p).state = (k.proc p).state
  absent : d.pte (a / PGSIZE) = none
  fresh : f ∈ k.kmem.freelist ∧ f ∉ k'.kmem.freelist
  mapped : d'.pte (a / PGSIZE) = some ⟨f, true⟩
  zeroed : k'.kmem.page f = fun _ => 0
  ss : (k'.proc p).ss = (k.proc p).ss + PGSIZE
  notPresent : err % 2 = 0
  below : USERTOP - (k.proc p).ss - PGSIZE ≤ a ∧ a < USERTOP - (k.proc p).ss
  apart : Apart (k'.proc p)
  gap : ∀ v, (k'.proc p).sz ≤ v * PGSIZE → v * PGSIZE < USERTOP - (k'.proc p).ss → d'.pte v = none

/-- `trap` resolves the fault, or the process exits. -/
def Handled (k : Kernel) (p : Slot) (d : Pgdir) (err a : ℕ) : Prop :=
  ∃ k', k.trapPgflt p err = some k' ∧
    ((∃ d' f, Resolved k p d err a k' d' f) ∨ (k'.proc p).state = .zombie)

/-- The stack can grow by a page. -/
def CanGrow (k : Kernel) (p : Slot) : Prop :=
  (k.proc p).sz + 2 * PGSIZE + (k.proc p).ss ≤ USERTOP ∧ k.kmem.freelist ≠ []

/-- A process that is killed exits, unless it is the first one.  One that is not is killed if a read is
not allowed, or if the page is not present and the stack cannot grow; if it can grow the fault has to
be in the page below it. -/
def Handles (k : Kernel) (p : Slot) (err a : ℕ) : Prop :=
  ((k.proc p).killed ∨ err = 5 ∨ (err = 6 ∨ err = 4) ∧ ¬ CanGrow k p) ∧ p ≠ initproc ∨
    ((k.proc p).killed = false ∧ (err = 6 ∨ err = 4) ∧ CanGrow k p ∧
      USERTOP - (k.proc p).ss - PGSIZE ≤ a ∧ a < USERTOP - (k.proc p).ss)

variable {k k' : Kernel} {p : Slot} {d : Pgdir} {err a : ℕ}

/-- The number of the page below the stack. -/
def belowStack (ss : ℕ) : ℕ := (USERTOP - ss) / PGSIZE - 1

theorem Occupies.belowStack_eq (h : Occupies k p d) :
    belowStack (k.proc p).ss * PGSIZE = USERTOP - (k.proc p).ss - PGSIZE := by
  have hroom := h.sz_le
  obtain ⟨c, hc⟩ := (k.proc p).ss_dvd
  unfold belowStack
  simp only [USERTOP, PGSIZE] at *
  omega

/-- **The growth of the stack**: a page below it, or nothing. -/
theorem allocuvm_stack (h : Occupies k p d) :
    (∃ f fs, CanGrow k p ∧ k.kmem.freelist = f :: fs ∧
      allocuvm (k.proc p).sz (k.proc p).ss k.kmem d (toUint (USERTOP - (k.proc p).ss - PGSIZE))
        (toUint (USERTOP - (k.proc p).ss)) =
      some (Kmem.write { k.kmem with freelist := fs } f fun _ => 0,
        d.setPte (belowStack (k.proc p).ss) (some ⟨f, true⟩), USERTOP - (k.proc p).ss)) ∨
    ∃ m' d', ¬ CanGrow k p ∧
      allocuvm (k.proc p).sz (k.proc p).ss k.kmem d (toUint (USERTOP - (k.proc p).ss - PGSIZE))
        (toUint (USERTOP - (k.proc p).ss)) = some (m', d', 0) := by
  have hroom := h.sz_le
  have hbelow := h.belowStack_eq
  have hP : PGSIZE = 4096 := rfl
  have hU : USERTOP = 0xA0000 := rfl
  have hlow : toUint (USERTOP - (k.proc p).ss - PGSIZE) = USERTOP - (k.proc p).ss - PGSIZE := by
    unfold toUint; omega
  have hhigh : toUint (USERTOP - (k.proc p).ss) = USERTOP - (k.proc p).ss := by
    unfold toUint; omega
  by_cases hgap : (k.proc p).sz + 2 * PGSIZE + (k.proc p).ss ≤ USERTOP
  swap
  · refine Or.inr ⟨k.kmem, d, fun hcan => hgap hcan.1, ?_⟩
    unfold allocuvm
    rw [hlow, hhigh, if_pos ⟨rfl, by omega⟩]
  have hround : pgroundup (USERTOP - (k.proc p).ss - PGSIZE) = belowStack (k.proc p).ss * PGSIZE := by
    rw [pgroundup_eq (by omega), ← hbelow]
    simp only [PGSIZE]
    omega
  rw [hlow, hhigh]
  unfold allocuvm
  rw [hlow, if_neg (by omega), if_neg (by omega), if_neg (by omega), hround]
  cases hm : k.kmem.freelist with
  | nil =>
    have hloop : allocLoop (USERTOP - (k.proc p).ss) (belowStack (k.proc p).ss * PGSIZE) k.kmem d =
        some (false, k.kmem, d) := by
      rw [allocLoop, if_pos (by omega), kalloc, hm]
    rw [hloop]
    exact Or.inr ⟨_, _, fun hcan => hcan.2 hm, rfl⟩
  | cons f fs =>
    refine Or.inl ⟨f, fs, ⟨hgap, by rw [hm]; exact List.cons_ne_nil f fs⟩, rfl, ?_⟩
    have hnone : d.pte (belowStack (k.proc p).ss) = none :=
      h.pte_eq_none (by omega) (by omega)
    have hmap : mappages d (belowStack (k.proc p).ss * PGSIZE) f
        (decide (belowStack (k.proc p).ss * PGSIZE ≠ 0)) =
        some (d.setPte (belowStack (k.proc p).ss) (some ⟨f, true⟩)) := by
      unfold mappages
      rw [mul_div_PGSIZE, hnone, decide_eq_true (by omega)]
      rfl
    rw [allocLoop_cons (by omega) hm hmap, allocLoop, if_neg (by omega)]
    rfl

/-- The error codes that `trap` knows do not make it fail. -/
theorem pgflt_stack (h : Occupies k p d) (herr : err = 6 ∨ err = 4) :
    (∃ f fs, CanGrow k p ∧ k.kmem.freelist = f :: fs ∧ ∃ k₁, k.pgflt p err = some k₁ ∧
      k₁.kmem = Kmem.write { k.kmem with freelist := fs } f (fun _ => 0) ∧
      (k₁.proc p).pgdir = some (d.setPte (belowStack (k.proc p).ss) (some ⟨f, true⟩)) ∧
      (k₁.proc p).sz = (k.proc p).sz ∧ (k₁.proc p).ss = (k.proc p).ss + PGSIZE ∧
      (k₁.proc p).state = (k.proc p).state ∧ (k₁.proc p).killed = (k.proc p).killed) ∨
    ¬ CanGrow k p ∧ ∃ k₁, k.pgflt p err = some k₁ ∧ (k₁.proc p).killed = true := by
  have hroom := h.sz_le
  have hP : PGSIZE = 4096 := rfl
  have hU : USERTOP = 0xA0000 := rfl
  unfold Kernel.pgflt
  rw [if_pos herr, h.pgdir]
  dsimp only
  obtain ⟨f, fs, hcan, hm, halloc⟩ | ⟨m', d', hcan, halloc⟩ := allocuvm_stack h
  · refine Or.inl ⟨f, fs, hcan, hm, ?_⟩
    rw [halloc, Option.map_some]
    refine ⟨_, rfl, rfl, ?_⟩
    rw [Kernel.setProc_self]
    have hss : ((k.proc p).ss + PGSIZE) % 2 ^ 32 = (k.proc p).ss + PGSIZE :=
      Nat.mod_eq_of_lt (by omega)
    have hzero : decide (USERTOP - (k.proc p).ss = 0) = false := decide_eq_false (by omega)
    exact ⟨rfl, rfl, hss, rfl, by simp [hzero]⟩
  · refine Or.inr ⟨hcan, ?_⟩
    rw [halloc, Option.map_some]
    exact ⟨_, rfl, by simp⟩

/-- A killed process exits, unless it is the first one. -/
theorem exitIfKilled_of_killed (hk : (k.proc p).killed = true) :
    k.exitIfKilled p = k.exit p := if_pos hk

theorem exit_eq (k : Kernel) (p : Slot) :
    (p = initproc → k.exit p = none) ∧
      (p ≠ initproc → ∃ k', k.exit p = some k' ∧ (k'.proc p).state = .zombie) := by
  unfold Kernel.exit
  refine ⟨fun h => if_pos h, fun h => ?_⟩
  rw [if_neg h]
  exact ⟨_, rfl, by simp⟩

/-- Whatever the fault is, the handler comes to an end. -/
theorem pgflt_isSome (h : Occupies k p d) (err : ℕ) : ∃ k₁, k.pgflt p err = some k₁ ∧
    ((k.proc p).killed = true → (k₁.proc p).killed = true) := by
  by_cases herr : err = 6 ∨ err = 4
  · obtain ⟨f, fs, -, -, k₁, hk₁, -, -, -, -, -, hkilled⟩ | ⟨-, k₁, hk₁, hkilled⟩ :=
      pgflt_stack h herr
    · exact ⟨k₁, hk₁, fun hk => hkilled.trans hk⟩
    · exact ⟨k₁, hk₁, fun _ => hkilled⟩
  · unfold Kernel.pgflt
    rw [if_neg herr]
    split_ifs
    · exact ⟨_, rfl, by simp⟩
    · exact ⟨_, rfl, id⟩

/-- If the process is killed when the handler ends, it exits. -/
theorem handled_of_killed {k₁ : Kernel} (hk₁ : k.pgflt p err = some k₁)
    (hkilled : (k₁.proc p).killed = true) : Handled k p d err a ↔ p ≠ initproc := by
  have htrap : k.trapPgflt p err = k₁.exit p := by
    unfold Kernel.trapPgflt
    rw [hk₁, Option.bind_some, exitIfKilled_of_killed hkilled]
  obtain ⟨hinit, hother⟩ := exit_eq k₁ p
  unfold Handled
  rw [htrap]
  by_cases hp : p = initproc
  · rw [hinit hp]
    simp [hp]
  · obtain ⟨k', hk', hzombie⟩ := hother hp
    exact iff_of_true ⟨k', hk', Or.inr hzombie⟩ hp

/-- If it is not, it goes on. -/
theorem handled_of_not_killed {k₁ : Kernel} (hk₁ : k.pgflt p err = some k₁)
    (hkilled : (k₁.proc p).killed = false) : Handled k p d err a ↔
      (∃ d' f, Resolved k p d err a k₁ d' f) ∨ (k₁.proc p).state = .zombie := by
  have htrap : k.trapPgflt p err = some k₁ := by
    unfold Kernel.trapPgflt Kernel.exitIfKilled
    rw [hk₁, Option.bind_some, if_neg (by simp [hkilled])]
  unfold Handled
  rw [htrap]
  simp

/-- The page below the stack is a new one, with a gap below it. -/
theorem resolved_stack (h : Occupies k p d) (herr : err = 6 ∨ err = 4) (hcan : CanGrow k p)
    {f : Frame} {fs : List Frame} {k₁ : Kernel} (hm : k.kmem.freelist = f :: fs)
    (hkmem : k₁.kmem = Kmem.write { k.kmem with freelist := fs } f (fun _ => 0))
    (hpgdir : (k₁.proc p).pgdir = some (d.setPte (belowStack (k.proc p).ss) (some ⟨f, true⟩)))
    (hsz : (k₁.proc p).sz = (k.proc p).sz) (hss : (k₁.proc p).ss = (k.proc p).ss + PGSIZE)
    (hstate : (k₁.proc p).state = (k.proc p).state)
    (ha : USERTOP - (k.proc p).ss - PGSIZE ≤ a ∧ a < USERTOP - (k.proc p).ss) :
    Resolved k p d err a k₁ (d.setPte (belowStack (k.proc p).ss) (some ⟨f, true⟩)) f := by
  have hbelow := h.belowStack_eq
  have hgap := hcan.1
  have hP : PGSIZE = 4096 := rfl
  have hpage : a / PGSIZE = belowStack (k.proc p).ss := by
    rw [hP] at hbelow ha ⊢
    omega
  have hf : f ∉ fs := (List.nodup_cons.1 (hm ▸ h.nodup_freelist)).1
  refine ⟨hpgdir, hstate, ?_, ⟨by rw [hm]; exact List.mem_cons_self, by rw [hkmem]; exact hf⟩,
    ?_, ?_, hss, by omega, ha, apart_iff.2 (by omega), fun v hlo hhi => ?_⟩
  · rw [hpage]
    exact h.pte_eq_none (by omega) (by omega)
  · rw [hpage]
    exact setPte_self ..
  · rw [hkmem]
    exact Function.update_self ..
  · rw [setPte_of_ne d _ (by rintro rfl; omega)]
    exact h.pte_eq_none (by omega) (by omega)

/-- **Page faults.**  For every process whose pages are those of its heap and its stack, with a page
between them, every address and every error code of a fault in user mode: the fault is resolved or
the process exits if and only if the process is not the first one and is killed, already or by this
fault, or the stack can grow and the fault is in the page below it. -/
theorem pgflt_handled_iff (h : Occupies k p d) (hstate : (k.proc p).state ≠ .zombie) :
    Handled k p d err a ↔ Handles k p err a := by
  obtain ⟨k₁, hk₁, hkeep⟩ := pgflt_isSome h err
  unfold Handles
  cases hkilled : (k.proc p).killed with
  | true => rw [handled_of_killed hk₁ (hkeep hkilled)]; simp
  | false =>
    simp only [Bool.false_eq_true, false_or, true_and]
    by_cases herr : err = 6 ∨ err = 4
    · have h5 : err ≠ 5 := by omega
      obtain ⟨f, fs, hcan, hm, k₂, hk₂, hkmem, hpgdir, hsz, hss, hst, hk⟩ |
        ⟨hcan, k₂, hk₂, hk⟩ := pgflt_stack h herr
      · rw [handled_of_not_killed hk₂ (hk.trans hkilled)]
        simp only [h5, herr, hcan, not_true_eq_false, and_false, false_or, true_and, false_and]
        constructor
        · rintro (⟨d', f', hres⟩ | hzombie)
          · exact hres.below
          · exact absurd (hst ▸ hzombie) hstate
        · intro ha
          exact Or.inl ⟨_, f, resolved_stack h herr hcan hm hkmem hpgdir hsz hss hst ha⟩
      · rw [handled_of_killed hk₂ hk]
        simp [h5, herr, hcan]
    · rw [not_or] at herr
      by_cases h5 : err = 5
      · have hk₂ : (k₁.proc p).killed = true := by
          rw [Kernel.pgflt, if_neg (by omega), if_pos h5] at hk₁
          cases hk₁
          simp
        rw [handled_of_killed hk₁ hk₂]
        simp [h5]
      · -- nothing is done
        have hsame : k.pgflt p err = some k := by
          rw [Kernel.pgflt, if_neg (by omega), if_neg h5]
        rw [handled_of_not_killed hsame hkilled]
        simp only [herr.1, herr.2, h5, hstate, or_false, false_and, iff_false]
        rintro ⟨d', f, hres⟩
        have hss := hres.ss
        simp only [PGSIZE] at hss
        omega

/-- The page below the stack of the small kernel. -/
theorem pgflt_handled_below : Handles smallKernel 1 6 (USERTOP - PGSIZE - 1) ∧
    Handled smallKernel 1 smallPgdir 6 (USERTOP - PGSIZE - 1) := by
  have hhandles : Handles smallKernel 1 6 (USERTOP - PGSIZE - 1) :=
    Or.inr ⟨rfl, Or.inl rfl, ⟨by decide, by decide⟩, by decide, by decide⟩
  exact ⟨hhandles, (pgflt_handled_iff occupies_smallKernel (by decide)).2 hhandles⟩

/-- **Faults that are neither resolved nor punished**: a write to the null page, which returns to the
instruction, and an access far below the stack, which adds another page. -/
theorem pgflt_not_handled : Occupies smallKernel 1 smallPgdir ∧
    ¬ Handled smallKernel 1 smallPgdir 7 0 ∧ ¬ Handled smallKernel 1 smallPgdir 6 0x50000 := by
  have hstate : (smallKernel.proc 1).state = .running := rfl
  have hkilled : (smallKernel.proc 1).killed = false := rfl
  refine ⟨occupies_smallKernel, ?_, ?_⟩
  · have hsame : smallKernel.pgflt 1 7 = some smallKernel := rfl
    rw [handled_of_not_killed hsame hkilled, hstate]
    rintro (⟨d', f, hres⟩ | h)
    · exact absurd hres.notPresent (by decide)
    · cases h
  · obtain ⟨f, fs, -, -, k₁, hk₁, -, -, -, -, hst, hk⟩ | ⟨hcan, -⟩ :=
      pgflt_stack occupies_smallKernel (show 6 = 6 ∨ 6 = 4 from Or.inl rfl)
    · rw [handled_of_not_killed hk₁ (hk.trans hkilled), hst, hstate]
      rintro (⟨d', f, hres⟩ | h)
      · exact absurd hres.below (by decide)
      · cases h
    · exact absurd ⟨by decide, by decide⟩ hcan

end Vm

end OperatingSystems

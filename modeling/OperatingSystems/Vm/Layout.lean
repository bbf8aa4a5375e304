import OperatingSystems.Vm.Process

/-!
# Heap and stack stay apart

The heap grows upwards by `growproc` and the stack downwards by page faults.  Both check that a whole
page stays free between them: `growproc` by a comparison of its own, the page fault by the first test
in `allocuvm`, which recognises the growth of the stack by its address.

* `Apart` : there is a free page between heap and stack.
* `Safe` : a process that is alive and not killed keeps them apart.
* `descend` : the descendants of some processes, along a run.
* `apart_of_run` : **heap and stack stay apart** in every process and its descendants, in all runs.
-/

namespace OperatingSystems

namespace Vm

/-- The end of the heap, rounded up to pages. -/
def Proc.heapTop (r : Proc) : ℕ := (r.sz + PGSIZE - 1) / PGSIZE * PGSIZE

/-- At least one whole page lies between the heap and the stack. -/
def Apart (r : Proc) : Prop := r.heapTop + PGSIZE ≤ USERTOP - r.ss

/-- A process that is alive and not killed keeps heap and stack apart. -/
def Safe (r : Proc) : Prop := r.alive → ¬ r.killed → Apart r

/-- A heap below a page boundary is below it after rounding up. -/
theorem heapTop_le_iff {r : Proc} {x : ℕ} (hx : PGSIZE ∣ x) : r.heapTop ≤ x ↔ r.sz ≤ x := by
  obtain ⟨c, rfl⟩ := hx
  simp only [Proc.heapTop, PGSIZE]
  omega

theorem apart_iff {r : Proc} : Apart r ↔ r.sz + PGSIZE + r.ss ≤ USERTOP := by
  obtain ⟨c, hc⟩ := r.ss_dvd
  have hU : USERTOP = PGSIZE * 160 := rfl
  have hP : PGSIZE = 4096 := rfl
  have hdvd : PGSIZE ∣ USERTOP - r.ss - PGSIZE := by
    exact Nat.dvd_sub (Nat.dvd_sub ⟨160, hU⟩ r.ss_dvd) (Nat.dvd_refl _)
  have := heapTop_le_iff (r := r) hdvd
  unfold Apart
  omega

theorem apart_congr {r r' : Proc} (hsz : r'.sz = r.sz) (hss : r'.ss = r.ss) :
    Apart r' ↔ Apart r := by
  rw [apart_iff, apart_iff, hsz, hss]

theorem Safe.congr {r r' : Proc} (h : Safe r) (ha : r'.alive → r.alive)
    (hk : r.killed → r'.killed) (hsz : r'.sz = r.sz) (hss : r'.ss = r.ss) : Safe r' :=
  fun ha' hk' => (apart_congr hsz hss).2 (h (ha ha') fun hr => hk' (hk hr))

theorem safe_of_killed {r : Proc} (h : r.killed) : Safe r := fun _ hk => absurd h hk

theorem safe_of_not_alive {r : Proc} (h : r.alive = false) : Safe r := by
  intro ha; rw [h] at ha; cases ha

namespace Kernel

variable {k k' : Kernel} {p q : Slot}

@[simp] theorem setProc_self (k : Kernel) (p : Slot) (f : Proc → Proc) :
    (k.setProc p f).proc p = f (k.proc p) := by simp [setProc]

theorem setProc_of_ne (k : Kernel) {p q : Slot} (h : q ≠ p) (f : Proc → Proc) :
    (k.setProc p f).proc q = k.proc q := by simp [setProc, h]

/-- A change of one entry keeps the others safe. -/
theorem safe_setProc {f : Proc → Proc} (hp : Safe (k.proc p) → Safe (f (k.proc p)))
    (h : Safe (k.proc q)) : Safe ((k.setProc p f).proc q) := by
  rcases eq_or_ne q p with rfl | hq
  · rw [setProc_self]; exact hp h
  · rw [setProc_of_ne k hq]; exact h

/-! ### Growing heap and stack -/

/-- Within the user address space, conversion to `uint` does nothing. -/
theorem toUint_of_le {x : ℤ} (h0 : 0 ≤ x) (h : x ≤ 2 ^ 31 + USERTOP) : (toUint x : ℤ) = x := by
  simp only [USERTOP] at h
  simp only [toUint]
  omega

theorem deallocuvm_size (m : Kmem) (d : Pgdir) (oldsz newsz : ℕ) :
    (deallocuvm m d oldsz newsz).2.2 ≤ oldsz := by
  unfold deallocuvm
  split_ifs
  · exact le_rfl
  · dsimp only; omega

/-- A successful `allocuvm` reaches its goal, unless that was below the old size. -/
theorem allocuvm_size {sz ss oldsz newsz sz' : ℕ} {m m' : Kmem} {d d' : Pgdir}
    (h : allocuvm sz ss m d oldsz newsz = some (m', d', sz')) (h0 : sz' ≠ 0) :
    ¬ (oldsz = toUint (USERTOP - ss - PGSIZE) ∧ oldsz < (sz + PGSIZE) % 2 ^ 32) ∧
      newsz ≤ USERTOP ∧ sz' = max oldsz newsz := by
  unfold allocuvm at h
  split_ifs at h with h1 h2 h3
  · cases h; exact absurd rfl h0
  · cases h; exact absurd rfl h0
  · cases h; exact ⟨h1, by omega, by omega⟩
  · obtain ⟨⟨ok, m₁, d₁⟩, -, h⟩ := Option.map_eq_some_iff.1 h
    dsimp only at h
    split_ifs at h with hok
    · cases h; exact ⟨h1, by omega, by omega⟩
    · cases h; exact absurd rfl h0

theorem nonzero_eq_some {m m' : Kmem} {d d' : Pgdir} {sz sz' : ℕ}
    (h : (m, d, if sz = 0 then none else some sz) = (m', d', some sz')) : sz = sz' ∧ sz ≠ 0 := by
  split_ifs at h with h0
  · cases h
  · cases h; exact ⟨rfl, h0⟩

/-- The heap does not come closer to the stack than a page. -/
theorem growprocSize_apart {d d' : Pgdir} {n : ℤ} {m : Kmem} {sz' : ℕ}
    (hn : -2 ^ 31 ≤ n ∧ n < 2 ^ 31) (hp : Apart (k.proc p))
    (h : k.growprocSize p d n = some (m, d', some sz')) :
    sz' + PGSIZE + (k.proc p).ss ≤ USERTOP := by
  rw [apart_iff] at hp
  have hP : PGSIZE = 4096 := rfl
  have hU : USERTOP = 0xA0000 := rfl
  unfold growprocSize at h
  dsimp only at h
  by_cases h1 : n > 0
  · rw [if_pos h1] at h
    split at h
    · cases h
    · obtain ⟨⟨m₁, d₁, sz₁⟩, ha, h⟩ := Option.map_eq_some_iff.1 h
      obtain ⟨hsz, h0⟩ := nonzero_eq_some h
      dsimp only at hsz
      obtain ⟨-, -, hmax⟩ := allocuvm_size ha h0
      have hto := toUint_of_le (x := (k.proc p).sz + n) (by omega) (by omega)
      have hto' := toUint_of_le (x := USERTOP - (k.proc p).ss - PGSIZE) (by omega) (by omega)
      omega
  · rw [if_neg h1] at h
    split at h
    · have hle := deallocuvm_size k.kmem d (k.proc p).sz (toUint ((k.proc p).sz + n))
      obtain ⟨hsz, -⟩ := nonzero_eq_some (Option.some.inj h)
      rw [hsz] at hle
      omega
    · cases h; exact hp

theorem safe_growproc {n : ℤ} {r : ℤ} (hn : -2 ^ 31 ≤ n ∧ n < 2 ^ 31)
    (h : k.growproc p n = some (k', r)) (hq : Safe (k.proc q)) : Safe (k'.proc q) := by
  unfold growproc at h
  split at h
  · cases h
  · next d _ =>
    obtain ⟨⟨m, d', sz⟩, hs, h⟩ := Option.map_eq_some_iff.1 h
    have hfirst : ∀ {k₁ : Kernel}, k₁.proc = k.proc →
        Safe ((k₁.setProc p fun q => { q with pgdir := some d' }).proc q) := fun hk₁ =>
      safe_setProc (fun hp => hp.congr id id rfl rfl) (by rw [hk₁]; exact hq)
    cases sz with
    | none => cases h; exact hfirst rfl
    | some sz =>
      cases h
      refine safe_setProc (fun hp ha hk => ?_) (hfirst rfl)
      have hp := hp ha hk
      rw [setProc_self] at hp ⊢
      have hsz := growprocSize_apart (k := k) hn ((apart_congr rfl rfl).1 hp) hs
      exact apart_iff.2 hsz

/-- The stack does not come closer to the heap than a page, unless the process is killed. -/
theorem safe_pgflt {err : ℕ} (h : k.pgflt p err = some k') (hq : Safe (k.proc q)) :
    Safe (k'.proc q) := by
  unfold pgflt at h
  split_ifs at h
  · split at h
    · cases h
    · next d _ =>
      obtain ⟨⟨m, d', result⟩, ha, h⟩ := Option.map_eq_some_iff.1 h
      cases h
      refine safe_setProc (k := { k with kmem := m }) (fun hp hal hk => ?_) hq
      simp only [Bool.or_eq_true, decide_eq_true_eq, not_or] at hk
      have hp := hp (by simpa only [Proc.alive] using hal) hk.1
      obtain ⟨hguard, -, -⟩ := allocuvm_size ha hk.2
      have hP : PGSIZE = 4096 := rfl
      have hU : USERTOP = 0xA0000 := rfl
      replace hp : (k.proc p).sz + PGSIZE + (k.proc p).ss ≤ USERTOP := apart_iff.1 hp
      have hto := toUint_of_le (x := USERTOP - (k.proc p).ss - PGSIZE) (by omega) (by omega)
      have hguard : (k.proc p).sz + 2 * PGSIZE + (k.proc p).ss ≤ USERTOP := by
        by_contra hlt
        exact hguard ⟨rfl, by omega⟩
      refine apart_iff.2 ?_
      have hmod : ((k.proc p).ss + PGSIZE) % 2 ^ 32 ≤ (k.proc p).ss + PGSIZE := Nat.mod_le _ _
      change (k.proc p).sz + PGSIZE + ((k.proc p).ss + PGSIZE) % 2 ^ 32 ≤ USERTOP
      omega
  · cases h
    exact safe_setProc (fun _ => safe_of_killed rfl) hq
  · cases h; exact hq

/-! ### The other calls -/

theorem safe_exit (h : k.exit p = some k') (hq : Safe (k.proc q)) : Safe (k'.proc q) := by
  unfold exit at h
  split_ifs at h
  cases h
  refine safe_setProc (fun _ => safe_of_not_alive rfl) ?_
  dsimp only
  split_ifs
  · exact hq.congr id id rfl rfl
  · exact hq

theorem safe_wait {r : ℤ} (h : k.wait p = some (k', r)) (hq : Safe (k.proc q)) :
    Safe (k'.proc q) := by
  unfold wait at h
  split at h
  · cases h; exact hq
  · split at h
    · cases h
      exact safe_setProc (fun _ => safe_of_not_alive rfl) hq
    · cases h

theorem safe_kill (k : Kernel) (pid : ℕ) (hq : Safe (k.proc q)) : Safe ((k.kill pid).1.proc q) := by
  unfold kill
  split
  · exact hq
  · dsimp only
    exact safe_setProc (fun _ => safe_of_killed rfl) hq

/-- `allocproc` takes the first unused entry, or changes nothing that matters. -/
theorem allocproc_cases (k : Kernel) :
    (∃ k₁, k.allocproc = (k₁, none) ∧ ∀ q, Safe (k.proc q) → Safe (k₁.proc q)) ∨
    ∃ k₁ np, k.allocproc = (k₁, some np) ∧ k.findUnused = some np ∧
      (k.proc np).state = .unused ∧ (k₁.proc np).state = .embryo ∧
      ∀ q, q ≠ np → k₁.proc q = k.proc q := by
  unfold allocproc
  cases hf : k.findUnused with
  | none => exact Or.inl ⟨k, rfl, fun _ => id⟩
  | some np =>
    have hu : (k.proc np).state = .unused := by simpa using List.find?_some hf
    dsimp only
    split
    · refine Or.inl ⟨_, rfl, fun q hq => ?_⟩
      rcases eq_or_ne q np with rfl | hqn
      · rw [setProc_self]; exact safe_of_not_alive rfl
      · rw [setProc_of_ne _ hqn]; dsimp only; rw [setProc_of_ne _ hqn]; exact hq
    · refine Or.inr ⟨_, np, rfl, rfl, hu, by simp, fun q hqn => ?_⟩
      rw [setProc_of_ne _ hqn]; dsimp only; rw [setProc_of_ne _ hqn]

/-- The child of a safe process is safe, and so are all others. -/
theorem safe_fork {r : ℤ} (h : k.fork p = some (k', r)) (ha : (k.proc p).alive)
    (hk : ¬ (k.proc p).killed) (hq : Safe (k.proc q))
    (hp : k.findUnused = some q → Safe (k.proc p)) : Safe (k'.proc q) := by
  unfold fork at h
  obtain ⟨k₁, hal, hsafe⟩ | ⟨k₁, np, hal, hfind, hu, he, hne⟩ := k.allocproc_cases
  · rw [hal] at h
    cases h
    exact hsafe q hq
  · rw [hal] at h
    have hpn : p ≠ np := by
      rintro rfl
      rw [Proc.alive, hu] at ha
      cases ha
    have hsafe : Safe (k₁.proc q) := by
      rcases eq_or_ne q np with rfl | hqn
      · exact safe_of_not_alive (by rw [Proc.alive, he]; rfl)
      · rw [hne q hqn]; exact hq
    dsimp only at h
    unfold forkCopy at h
    rw [hne p hpn] at h
    split at h
    · cases h
    · obtain ⟨⟨m, d⟩, -, h⟩ := Option.map_eq_some_iff.1 h
      cases d with
      | none =>
        cases h
        exact safe_setProc (fun _ => safe_of_not_alive rfl) hsafe
      | some d =>
        cases h
        rcases eq_or_ne q np with rfl | hqn
        · -- the child has the layout of its parent
          intro _ _
          rw [setProc_self]
          have hsz := congrArg Proc.sz (hne p hpn)
          have hss := congrArg Proc.ss (hne p hpn)
          exact (apart_congr hsz hss).2 (hp hfind ha hk)
        · rw [setProc_of_ne _ hqn]; exact hsafe

theorem safe_exitIfKilled (h : k.exitIfKilled p = some k') (hq : Safe (k.proc q)) :
    Safe (k'.proc q) := by
  unfold exitIfKilled at h
  split_ifs at h
  · exact safe_exit h hq
  · cases h; exact hq

/-- A system call, with the exits of a killed process around it. -/
theorem safe_trapSyscall {call : Kernel → Option (Kernel × ℤ)}
    (h : k.trapSyscall p call = some k') (hq : Safe (k.proc q))
    (hcall : ∀ k₁ r, call k = some (k₁, r) → ¬ (k.proc p).killed → Safe (k₁.proc q)) :
    Safe (k'.proc q) := by
  unfold trapSyscall at h
  split_ifs at h with hk
  · exact safe_exit h hq
  · obtain ⟨⟨k₁, r⟩, hc, h⟩ := Option.bind_eq_some_iff.1 h
    exact safe_exitIfKilled h (hcall k₁ r hc hk)

/-- **Every step keeps the processes safe**; for the child of a `fork`, if its parent is. -/
theorem safe_of_next {l : Call} (h : kernel.next k l = some k') (hq : Safe (k.proc q))
    (hfork : ∀ p, l = .fork p → k.findUnused = some q → Safe (k.proc p)) : Safe (k'.proc q) := by
  unfold kernel at h
  dsimp only at h
  split_ifs at h with ha
  cases l with
  | growproc p n =>
    unfold perform at h
    dsimp only at h
    split_ifs at h with hn
    exact safe_trapSyscall h hq fun k₁ r hc _ => safe_growproc hn hc hq
  | fork p =>
    replace h : k.trapSyscall p (fun k => k.fork p) = some k' := h
    exact safe_trapSyscall h hq fun k₁ r hc hk => safe_fork hc ha hk hq (hfork p rfl)
  | exit p => exact safe_exit h hq
  | wait p =>
    replace h : k.trapSyscall p (fun k => k.wait p) = some k' := h
    exact safe_trapSyscall h hq fun k₁ r hc _ => safe_wait hc hq
  | kill p pid =>
    replace h : k.trapSyscall p (fun k => some (k.kill pid)) = some k' := h
    refine safe_trapSyscall h hq fun k₁ r hc _ => ?_
    have := safe_kill k pid hq
    rwa [Option.some.inj hc] at this
  | pgflt p err =>
    obtain ⟨k₁, hc, h⟩ := Option.bind_eq_some_iff.1 h
    exact safe_exitIfKilled h (safe_pgflt hc hq)

end Kernel

/-! ### Runs -/

/-- The descendants of some processes after a step: the child of one of them is another one, and a
child of somebody else takes over the entry it gets. -/
def descend (k : Kernel) (l : Call) (family : Finset Slot) : Finset Slot :=
  match l, k.findUnused with
  | .fork p, some np => if p ∈ family then insert np family else family.erase np
  | _, _ => family

theorem mem_descend {k : Kernel} {l : Call} {family : Finset Slot} {q : Slot}
    (h : q ∈ descend k l family) :
    (∃ p ∈ family, l = .fork p ∧ k.findUnused = some q) ∨
      (q ∈ family ∧ ∀ p, l = .fork p → k.findUnused ≠ some q) := by
  unfold descend at h
  split at h
  · next p np hf =>
    split_ifs at h with hp
    · rcases Finset.mem_insert.1 h with rfl | h
      · exact Or.inl ⟨p, hp, rfl, hf⟩
      · by_cases hq : q = np
        · exact Or.inl ⟨p, hp, rfl, hq ▸ hf⟩
        · refine Or.inr ⟨h, fun p' _ he => hq ?_⟩
          exact Option.some.inj (he.symm.trans hf)
    · obtain ⟨hq, h⟩ := Finset.mem_erase.1 h
      exact Or.inr ⟨h, fun p' _ he => hq (Option.some.inj (he.symm.trans hf))⟩
  · next hno => exact Or.inr ⟨h, fun p hl he => hno p q hl he⟩

/-- **Heap and stack stay apart.**  Whatever the processes of a family and all others do, heap and
stack of every process of the family, and of every descendant of one, have a whole page between
them as long as it is alive and not killed, if that is so at the beginning. -/
theorem apart_of_run {k k' : Kernel} {family family' : Finset Slot} {ls : List Call}
    (h : (kernel.track descend).run (k, family) ls = some (k', family'))
    (h₀ : ∀ p ∈ family, Safe (k.proc p)) : ∀ p ∈ family', Safe (k'.proc p) := by
  refine Machine.run_invariant (I := fun x => ∀ p ∈ x.2, Safe (x.1.proc p)) h h₀ ?_
  rintro ⟨k, family⟩ l ⟨k', family'⟩ hI hn q hq
  obtain ⟨hn, hfam⟩ := Machine.track_next_eq_some.1 hn
  dsimp only at hI hn hfam hq ⊢
  rw [← hfam] at hq
  rcases mem_descend hq with ⟨p, hp, rfl, hf⟩ | ⟨hq, hno⟩
  · have hu : (k.proc q).state = .unused := by simpa using List.find?_some hf
    refine Kernel.safe_of_next hn (safe_of_not_alive (by rw [Proc.alive, hu]; rfl)) ?_
    rintro p' he -
    cases he
    exact hI p hp
  · exact Kernel.safe_of_next hn (hI q hq) fun p hl hf => absurd hf (hno p hl)

/-- Two processes with an image of three pages and a stack of one page, and 100 free frames. -/
def twoProcs : Kernel where
  kmem := ⟨List.range' 200 100, fun _ _ => 1⟩
  proc p :=
    { sz := 3 * PGSIZE
      ss := PGSIZE
      pgdir := some ⟨20 * p, List.range' (20 * p + 1) kernelTables, fun i =>
        if i < 3 ∨ i = 159 then some ⟨100 + 4 * p + i % 4, decide (i ≠ 0)⟩ else none⟩
      kstack := some (120 + p)
      state := if p.val < 2 then .runnable else .unused
      pid := p + 1
      parent := if p = 1 then some 0 else none
      killed := false
      ss_dvd := Nat.dvd_refl _ }
  nextpid := 3

theorem apart_of_run_twoProcs : ∃ k, (kernel.track descend).run (twoProcs, {1})
    [.growproc 1 5000, .pgflt 1 6, .fork 1, .growproc 2 (-100), .pgflt 2 4] = some (k, {1, 2}) ∧
      ∀ p ∈ ({1, 2} : Finset Slot), Safe (k.proc p) := by
  have hrun : ((kernel.track descend).run (twoProcs, {1})
      [.growproc 1 5000, .pgflt 1 6, .fork 1, .growproc 2 (-100), .pgflt 2 4]).map Prod.snd =
      some {1, 2} := by decide +kernel
  obtain ⟨⟨k, family⟩, hk, hfam⟩ := Option.map_eq_some_iff.1 hrun
  obtain rfl : family = {1, 2} := hfam
  refine ⟨k, hk, apart_of_run hk fun p hp _ _ => ?_⟩
  exact apart_iff.2 (by rw [Finset.mem_singleton.1 hp]; decide)

end Vm

end OperatingSystems

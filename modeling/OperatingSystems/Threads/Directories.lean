import OperatingSystems.Threads.Effect

/-!
# Page directories, allocated and freed

`Sound` collects what is always true of the page directories of the process table and of the
calls of `freevm` recorded in `freed`: directories in the table have been allocated, those that
have been freed are not in the table any more, and no call freed a directory that another entry
had, or that had been freed before.

Everything but the two calls of `freevm` on the directory of a live address space keeps this
(`sound_fork`, `sound_clone`, `sound_growproc`, `sound_exit`); `sound_wait` and `sound_exec` need
that nobody else has the directory.
-/

namespace OperatingSystems

namespace Threads

/-- At the call, no other entry in use had the directory. -/
def FreeCall.Safe (c : FreeCall) : Prop :=
  ∀ q, q ≠ c.slot → (c.table q).state ≠ .unused → (c.table q).pgdir ≠ c.pgdir

/-- The directories of the table have been allocated, and the calls of `freevm` were in order. -/
structure FreedOk (k : Kernel) : Prop where
  bounded : ∀ q, (k.proc q).pgdir ≤ k.pgdirs
  freed_le : ∀ c ∈ k.freed, c.pgdir ≤ k.pgdirs
  freed_pos : ∀ c ∈ k.freed, c.pgdir ≠ 0
  safe : ∀ c ∈ k.freed, c.Safe
  once : (k.freed.map FreeCall.pgdir).Nodup

/-- Moreover, the directories of used entries have not been freed. -/
structure Sound (k : Kernel) : Prop extends FreedOk k where
  not_freed : ∀ q, (k.view q).used → ∀ c ∈ k.freed, c.pgdir ≠ (k.view q).pgdir

/-- A call of `freevm` on a directory that nobody else has and that was not freed before. -/
theorem FreedOk.cons {k k' : Kernel} (h : FreedOk k) {c : FreeCall}
    (hb : ∀ q, (k'.proc q).pgdir ≤ k'.pgdirs) (hle : k.pgdirs ≤ k'.pgdirs)
    (hf : k'.freed = c :: k.freed) (hc : c.pgdir ≤ k'.pgdirs) (h0 : c.pgdir ≠ 0) (hs : c.Safe)
    (hnew : ∀ c' ∈ k.freed, c'.pgdir ≠ c.pgdir) : FreedOk k' where
  bounded := hb
  freed_le := by
    rw [hf]
    exact List.forall_mem_cons.2 ⟨hc, fun c' hc' => (h.freed_le c' hc').trans hle⟩
  freed_pos := by rw [hf]; exact List.forall_mem_cons.2 ⟨h0, h.freed_pos⟩
  safe := by rw [hf]; exact List.forall_mem_cons.2 ⟨hs, h.safe⟩
  once := by
    rw [hf, List.map_cons, List.nodup_cons]
    refine ⟨fun hmem => ?_, h.once⟩
    obtain ⟨c', hc', he⟩ := List.mem_map.1 hmem
    exact hnew c' hc' he

/-- No call of `freevm`. -/
theorem FreedOk.of_freed_eq {k k' : Kernel} (h : FreedOk k)
    (hb : ∀ q, (k'.proc q).pgdir ≤ k'.pgdirs) (hle : k.pgdirs ≤ k'.pgdirs)
    (hf : k'.freed = k.freed) : FreedOk k' where
  bounded := hb
  freed_le := by rw [hf]; exact fun c hc => (h.freed_le c hc).trans hle
  freed_pos := by rw [hf]; exact h.freed_pos
  safe := by rw [hf]; exact h.safe
  once := by rw [hf]; exact h.once

theorem FreedOk.allocates {k k' : Kernel} (h : FreedOk k) (ha : k.Allocates k') : FreedOk k' := by
  have hb : ∀ q, (k'.proc q).pgdir ≤ k'.pgdirs := fun q => by
    rw [ha.proc]; exact (h.bounded q).trans ha.le
  rcases ha.freed with hf | ⟨p, hf, hd⟩
  · exact h.of_freed_eq hb ha.le hf
  · refine h.cons hb ha.le hf (by dsimp only; omega) (by simp) (fun q _ _ => ?_) fun c hc => ?_
    · have := h.bounded q
      dsimp only; omega
    · have := h.freed_le c hc
      dsimp only; omega

theorem FreedOk.setProc {k : Kernel} (h : FreedOk k) {p : Slot} {f : Proc → Proc}
    (hf : (f (k.proc p)).pgdir ≤ k.pgdirs) : FreedOk (k.setProc p f) := by
  refine h.of_freed_eq (fun q => ?_) le_rfl rfl
  rcases eq_or_ne q p with rfl | hq
  · simpa [Kernel.setProc] using hf
  · simpa [Kernel.setProc, hq] using h.bounded q

/-- The freed directories of a kernel that may have allocated and freed one of its own. -/
theorem Kernel.Allocates.mem_freed {k k' : Kernel} (ha : k.Allocates k') {c : FreeCall}
    (hc : c ∈ k'.freed) : c ∈ k.freed ∨ c.pgdir = k.pgdirs + 1 := by
  rcases ha.freed with hf | ⟨p, hf, -⟩
  · exact Or.inl (hf ▸ hc)
  · rw [hf] at hc
    rcases List.mem_cons.1 hc with rfl | hc
    · exact Or.inr rfl
    · exact Or.inl hc

theorem Sound.view_le {k : Kernel} (h : FreedOk k) (q : Slot) : (k.view q).pgdir ≤ k.pgdirs := by
  by_cases hu : (k.proc q).state = .unused
  · simp [Kernel.view, view_of_unused hu]
  · rw [Kernel.view, view_pgdir hu]; exact h.bounded q

theorem Sound.allocates {k k' : Kernel} (h : Sound k) (ha : k.Allocates k') : Sound k' where
  toFreedOk := h.toFreedOk.allocates ha
  not_freed q hu c hc := by
    rw [ha.view] at hu ⊢
    rcases ha.mem_freed hc with hc | hc
    · exact h.not_freed q hu c hc
    · have := Sound.view_le h.toFreedOk q
      omega

/-- The same views and the same freed directories. -/
theorem Sound.of_view_eq {k k' : Kernel} (h : Sound k) (hok : FreedOk k') (hv : k'.view = k.view)
    (hf : k'.freed = k.freed) : Sound k' where
  toFreedOk := hok
  not_freed q hu c hc := by
    rw [hv] at hu ⊢; rw [hf] at hc
    exact h.not_freed q hu c hc

theorem Sound.setProc {k : Kernel} (h : Sound k) {p : Slot} {f : Proc → Proc}
    (hf : (f (k.proc p)).pgdir ≤ k.pgdirs)
    (hv : (f (k.proc p)).view.used → ∀ c ∈ k.freed, c.pgdir ≠ (f (k.proc p)).view.pgdir) :
    Sound (k.setProc p f) where
  toFreedOk := h.toFreedOk.setProc hf
  not_freed q hu c hc := by
    rw [Kernel.view_setProc] at hu ⊢
    rcases eq_or_ne q p with rfl | hq
    · rw [Function.update_self] at hu ⊢; exact hv hu c hc
    · rw [Function.update_of_ne hq] at hu ⊢; exact h.not_freed q hu c hc

/-- A change of one entry that keeps its directory, and does not take it into use. -/
theorem Sound.setProc_same {k : Kernel} (h : Sound k) {p : Slot} {f : Proc → Proc}
    (hf : (f (k.proc p)).pgdir = (k.proc p).pgdir)
    (hs : (f (k.proc p)).state ≠ .unused → (k.proc p).state ≠ .unused) : Sound (k.setProc p f) := by
  refine h.setProc (hf ▸ h.bounded p) fun hu c hc => ?_
  have hu' := view_used.1 hu
  rw [view_pgdir hu', hf, ← view_pgdir (hs hu')]
  exact h.not_freed p (view_used.2 (hs hu')) c hc

theorem Sound.wakeup1 {k : Kernel} (h : Sound k) (chan : Chan) : Sound (k.wakeup1 chan) := by
  refine h.of_view_eq (h.toFreedOk.of_freed_eq (fun q => ?_) le_rfl rfl) (k.view_wakeup1 chan) rfl
  simp only [Kernel.wakeup1]
  split_ifs <;> exact h.bounded q

theorem Sound.wakeupParent {k : Kernel} (h : Sound k) (p : Slot) : Sound (k.wakeupParent p) := by
  unfold Kernel.wakeupParent
  split
  · exact h
  · exact h.wakeup1 _

theorem FreedOk.allocProc {k k' : Kernel} (h : FreedOk k) (ha : k.AllocProc k') : FreedOk k' :=
  h.of_freed_eq (fun q => by rw [ha.pgdir, ha.pgdirs]; exact h.bounded q) ha.pgdirs.ge ha.freed

/-! ### The system calls -/

variable {k k' : Kernel} {p : Slot} {r : Option ℤ}

theorem sound_fork {kalloc : Bool} {mem : Option ℕ} (h : Sound k)
    (hp : (k.proc p).state ≠ .unused) (hf : k.fork p kalloc mem = some (k', r)) : Sound k' := by
  -- what was freed on the way is a directory that `fork` allocated itself
  have hok : FreedOk k' ∧ ∀ c ∈ k'.freed, c ∈ k.freed ∨ c.pgdir = k.pgdirs + 1 := by
    unfold Kernel.fork at hf
    obtain ⟨k₁, ha, hal, -⟩ | ⟨k₁, np, ha, hal, -⟩ := k.allocproc_cases kalloc
    · rw [ha] at hf; cases hf
      exact ⟨h.toFreedOk.allocProc hal, fun c hc => Or.inl (hal.freed ▸ hc)⟩
    · rw [ha] at hf
      obtain ⟨⟨k₂, d⟩, hc, hf⟩ := Option.bind_eq_some_iff.1 hf
      obtain ⟨hcopy, hdir⟩ := Kernel.allocates_copyuvm hc
      have hok := (h.toFreedOk.allocProc hal).allocates hcopy
      have hmem : ∀ c ∈ k₂.freed, c ∈ k.freed ∨ c.pgdir = k.pgdirs + 1 := fun c hc => by
        have := hcopy.mem_freed hc
        rwa [hal.freed, hal.pgdirs] at this
      dsimp only at hf
      split_ifs at hf with h0
      · cases hf; exact ⟨hok.setProc (Nat.zero_le _), hmem⟩
      · cases hf
        obtain ⟨hd, hd', -⟩ := hdir.resolve_left h0
        exact ⟨hok.setProc (by rw [hd', hd]), hmem⟩
  refine ⟨hok.1, fun q hu c hc => ?_⟩
  rcases Kernel.view_fork hp hf with ⟨-, hv⟩ | ⟨np, hnp, hv, -, hfr⟩
  · rw [hv] at hu ⊢
    rcases hok.2 c hc with hc | hc
    · exact h.not_freed q hu c hc
    · have := Sound.view_le h.toFreedOk q
      omega
  · rw [hv] at hu ⊢
    rw [hfr] at hc
    rcases eq_or_ne q np with rfl | hq
    · have := h.freed_le c hc
      rw [Function.update_self]
      dsimp only; omega
    · rw [Function.update_of_ne hq] at hu ⊢
      exact h.not_freed q hu c hc

theorem sound_clone {stack : ℕ} {kalloc : Bool} (h : Sound k) (hp : (k.proc p).state ≠ .unused)
    (hf : k.clone p stack kalloc = some (k', r)) : Sound k' := by
  have hok : FreedOk k' ∧ k'.freed = k.freed := by
    unfold Kernel.clone at hf
    split at hf
    · cases hf; exact ⟨h.toFreedOk, rfl⟩
    split at hf
    · cases hf; exact ⟨h.toFreedOk, rfl⟩
    obtain ⟨k₁, ha, hal, -⟩ | ⟨k₁, np, ha, hal, -⟩ := k.allocproc_cases kalloc
    · rw [ha] at hf; cases hf; exact ⟨h.toFreedOk.allocProc hal, hal.freed⟩
    · rw [ha] at hf
      have hok := h.toFreedOk.allocProc hal
      have hok₁ := hok.setProc (p := np) (f := fun q => { q with
        stack := stack, pgdir := (k₁.proc p).pgdir, sz := (k₁.proc p).sz, parent := some p })
        (hok.bounded p)
      dsimp only at hf
      split_ifs at hf
      · cases hf; exact ⟨hok₁.setProc (hok₁.bounded np), hal.freed⟩
      · cases hf; exact ⟨hok₁, hal.freed⟩
  refine ⟨hok.1, fun q hu c hc => ?_⟩
  rw [hok.2] at hc
  rcases (Kernel.view_clone hp hf).2 with hv | ⟨np, hnp, hv⟩
  · rw [hv] at hu ⊢; exact h.not_freed q hu c hc
  · rw [hv] at hu ⊢
    rcases eq_or_ne q np with rfl | hq
    · rw [Function.update_self]; exact h.not_freed p (view_used.2 hp) c hc
    · rw [Function.update_of_ne hq] at hu ⊢; exact h.not_freed q hu c hc

/-- The directory of a used entry, as the view has it. -/
theorem Sound.not_freed' (h : Sound k) {q : Slot} (hq : (k.proc q).state ≠ .unused) :
    ∀ c ∈ k.freed, c.pgdir ≠ (k.proc q).pgdir := by
  have := h.not_freed q (view_used.2 hq)
  rwa [Kernel.view, view_pgdir hq] at this

theorem FreedOk.reap (h : FreedOk k) (q : Slot) : FreedOk (k.reap q) := h.setProc (h.bounded q)

theorem FreedOk.leave (h : FreedOk k) (q : Slot) : FreedOk (k.leave q) := h.setProc (h.bounded q)

theorem Sound.leave (h : Sound k) (q : Slot) : Sound (k.leave q) :=
  h.setProc_same rfl id

theorem Sound.sleepIn (h : Sound k) (hp : (k.proc p).state = .running) (b : Blocked) :
    Sound (k.sleepIn p b) :=
  h.setProc_same rfl fun _ => by rw [hp]; decide

theorem sound_join (h : Sound k) (hp : (k.proc p).state = .running)
    (hf : k.join p = some (k', r)) : Sound k' := by
  unfold Kernel.join at hf
  split at hf
  · cases hf
    exact (h.setProc_same rfl fun hs => absurd rfl hs).leave p
  · split_ifs at hf
    · cases hf; exact h.leave p
    · cases hf; exact h.sleepIn hp _

/-- A step that changes only pages, and fields that do not show. -/
theorem Sound.quiet (h : Sound k) (hd : ∀ q, (k'.proc q).pgdir = (k.proc q).pgdir)
    (hn : k'.pgdirs = k.pgdirs) (hf : k'.freed = k.freed) (hv : k'.view = k.view) : Sound k' :=
  h.of_view_eq (h.toFreedOk.of_freed_eq (fun q => by rw [hd, hn]; exact h.bounded q) hn.ge hf) hv hf

/-- `wait` frees the directory of the zombie it reaps: it must be the only one to have it. -/
theorem sound_wait (h : Sound k) (hp : (k.proc p).state = .running)
    (halone : ∀ z, k.isChild p z → (k.proc z).state = .zombie → (k.proc z).pgdir ≠ 0 →
      ∀ q, q ≠ z → (k.proc q).state ≠ .unused → (k.proc q).pgdir ≠ (k.proc z).pgdir)
    (hf : k.wait p = some (k', r)) : Sound k' := by
  unfold Kernel.wait at hf
  split at hf
  · next z hz =>
    have hz : k.isChild p z = true ∧ (k.proc z).state = .zombie := by
      simpa using List.find?_some hz
    obtain ⟨k₁, hk₁, hf⟩ := Option.map_eq_some_iff.1 hf
    cases hf
    obtain ⟨h0, hproc, hn, hfr⟩ := Kernel.freevm_frame hk₁
    have halone := halone z hz.1 hz.2 h0
    have hzu : (k.proc z).state ≠ .unused := by rw [hz.2]; decide
    have hok : FreedOk k₁ := by
      refine h.toFreedOk.cons (fun q => ?_) hn.ge hfr ?_ h0 halone (h.not_freed' hzu)
      · rw [hproc, hn]; exact h.bounded q
      · rw [hn]; exact h.bounded z
    refine ⟨(hok.reap z).leave p, fun q hu c hc => ?_⟩
    rw [Kernel.view_leave, Kernel.view_reap] at hu ⊢
    replace hc : c ∈ k₁.freed := hc
    rcases eq_or_ne q z with rfl | hqz
    · rw [Function.update_self] at hu; cases hu
    · rw [Function.update_of_ne hqz, Kernel.view_congr hproc] at hu ⊢
      have hqu := view_used.1 hu
      rw [hfr] at hc
      rcases List.mem_cons.1 hc with rfl | hc
      · rw [Kernel.view, view_pgdir hqu]; exact (halone q hqz hqu).symm
      · exact h.not_freed q hu c hc
  · split_ifs at hf
    · cases hf; exact h.leave p
    · cases hf; exact h.sleepIn hp _

/-- `exec` frees the old directory: nobody else may have it. -/
theorem sound_exec {image : Kernel.Image} (h : Sound k) (hp : (k.proc p).state ≠ .unused)
    (halone : ∀ pages, image = .ok pages →
      ∀ q, q ≠ p → (k.proc q).state ≠ .unused → (k.proc q).pgdir ≠ (k.proc p).pgdir)
    (hf : k.exec p image = some (k', r)) : Sound k' := by
  obtain ⟨hal, -⟩ | ⟨pages, rfl, h0, hn, hproc, hv, hfr⟩ := Kernel.view_exec hp hf
  · exact h.allocates hal
  · have halone := halone pages rfl
    have hself : (k'.proc p).pgdir = k.pgdirs + 1 := by
      rw [hproc]; simp [Kernel.setProc]
    have hother : ∀ q, q ≠ p → k'.proc q = k.proc q := fun q hq => by
      rw [hproc]; simp [Kernel.setProc, hq]
    have hok : FreedOk k' := by
      refine h.toFreedOk.cons (fun q => ?_) (hn ▸ Nat.le_succ _) hfr ?_ h0 (fun q hq hu => ?_)
        (h.not_freed' hp)
      · rw [hn]
        rcases eq_or_ne q p with rfl | hq
        · exact hself.le
        · rw [hother q hq]; exact (h.bounded q).trans (Nat.le_succ _)
      · rw [hn]; exact (h.bounded p).trans (Nat.le_succ _)
      · simp only [hother q hq] at hu ⊢
        exact halone q hq hu
    refine ⟨hok, fun q hu c hc => ?_⟩
    rw [hfr] at hc
    rw [hv] at hu ⊢
    rcases eq_or_ne q p with rfl | hq
    · rw [Function.update_self]
      dsimp only
      rcases List.mem_cons.1 hc with rfl | hc
      · have := h.bounded q
        dsimp only; omega
      · have := h.freed_le c hc
        omega
    · rw [Function.update_of_ne hq] at hu ⊢
      rcases List.mem_cons.1 hc with rfl | hc
      · have hqu := view_used.1 hu
        rw [Kernel.view, view_pgdir hqu]; exact (halone q hq hqu).symm
      · exact h.not_freed q hu c hc

theorem sound_exitAdopt (h : Sound k) (p q : Slot) : Sound (Kernel.exitAdopt p k q) := by
  unfold Kernel.exitAdopt
  have hset : Sound (k.setProc q fun r => { r with parent := some initproc }) :=
    h.setProc_same rfl id
  dsimp only
  split_ifs
  · exact hset.wakeup1 _
  · exact hset
  · exact h

/-- One iteration of the loop of `exit`: the directory that the exiting process takes is new. -/
theorem sound_exitStep {q : Slot} {mem : Slot → Option ℕ} (h : Sound k)
    (hf : Kernel.exitStep p mem k q = some k') : Sound k' := by
  obtain ⟨k₁, hc, rfl⟩ := Option.map_eq_some_iff.1 hf
  refine sound_exitAdopt ?_ p q
  obtain ⟨-, rfl⟩ | ⟨k₂, d, -, hal, hd, rfl⟩ := Kernel.exitCopy_cases hc
  · exact h
  · clear hc hf
    refine (h.allocates hal).setProc ?_ fun hu c hc => ?_
    · rcases hd with rfl | ⟨rfl, hn, -⟩
      · exact Nat.zero_le _
      · exact hn.ge
    · rw [view_pgdir (view_used.1 hu)]
      dsimp only
      rcases hd with rfl | ⟨rfl, -, hfr⟩
      · exact (h.toFreedOk.allocates hal).freed_pos c hc
      · rw [hfr] at hc
        have := h.freed_le c hc
        omega

theorem sound_exit {mem : Slot → Option ℕ} (h : Sound k) (hp : (k.proc p).state ≠ .unused)
    (hf : k.exit p mem = some (k', r)) : Sound k' := by
  unfold Kernel.exit at hf
  split_ifs at hf
  obtain ⟨k₁, hl, hf⟩ := Option.bind_eq_some_iff.1 hf
  cases hf
  rw [Kernel.foldlM_exitStep] at hl
  -- the loop keeps the entry of `p` in use
  obtain ⟨hs, hu⟩ : Sound k₁ ∧ (k₁.view p).used = true := by
    refine Machine.run_invariant (I := fun k => Sound k ∧ (k.view p).used = true) hl
      ⟨h.wakeupParent p, ?_⟩ fun k q k' hI hq => ⟨sound_exitStep hI.1 hq, ?_⟩
    · rw [Kernel.view_wakeupParent]; exact view_used.2 hp
    · obtain ⟨k₂, hc, rfl⟩ := Option.map_eq_some_iff.1 hq
      have hused : (k₂.view p).used = true := by
        obtain ⟨-, rfl⟩ | ⟨k₃, d, -, hal, -, rfl⟩ := Kernel.exitCopy_cases hc
        · exact hI.2
        · rw [Kernel.view_setProc, Function.update_self, hal.proc]
          have hpu : (k.proc p).state ≠ .unused := view_used.1 hI.2
          exact view_used.2 hpu
      rw [Kernel.view_exitAdopt]
      rcases eq_or_ne p q with rfl | hne
      · rw [Function.update_self, Kernel.adopt_used]; exact hused
      · rw [Function.update_of_ne hne]; exact hused
  exact hs.setProc_same rfl fun _ => view_used.1 hu

/-- `growproc` changes pages and sizes only. -/
theorem sound_growproc {n : ℤ} {mem : Option ℕ} (h : Sound k) (hp : (k.proc p).state ≠ .unused)
    (hsz : (k.proc p).sz ≤ USERTOP) (hn : -2 ^ 31 ≤ n ∧ n < 2 ^ 31)
    (hf : k.growproc p n mem = some (k', r)) : Sound k' := by
  obtain ⟨⟨hn, hfr⟩, hdir, hv⟩ := Kernel.view_growproc hp hsz hn hf
  refine ⟨h.toFreedOk.of_freed_eq (fun q => by rw [hdir, hn]; exact h.bounded q) hn.ge hfr,
    fun q hu c hc => ?_⟩
  rw [hfr] at hc
  rcases hv with ⟨-, hv⟩ | ⟨sz, hv, -⟩
  · rw [hv] at hu ⊢; exact h.not_freed q hu c hc
  · rw [hv, (Kernel.resizeView_eq _ p sz q).1] at hu
    rw [hv, (Kernel.resizeView_eq _ p sz q).2.2.2]
    exact h.not_freed q hu c hc

/-- Nobody else has the directory of `p`. -/
def Alone (v : Slot → View) (p : Slot) : Prop :=
  ∀ q, q ≠ p → (v q).used → (v q).pgdir ≠ (v p).pgdir

theorem alone_iff (hp : (k.proc p).state ≠ .unused) : Alone k.view p ↔
    ∀ q, q ≠ p → (k.proc q).state ≠ .unused → (k.proc q).pgdir ≠ (k.proc p).pgdir := by
  refine forall_congr' fun q => imp_congr_right fun _ => ?_
  refine ⟨fun h hq => ?_, fun h hq => ?_⟩
  · have := h (view_used.2 hq)
    rwa [Kernel.view, Kernel.view, view_pgdir hq, view_pgdir hp] at this
  · have hq := view_used.1 hq
    rw [Kernel.view, Kernel.view, view_pgdir hq, view_pgdir hp]; exact h hq

/-- **A step keeps the books of `freevm`** if `wait` reaps a process that is alone on its directory,
and so is a process that calls `exec`. -/
theorem sound_of_next {l : Call} (h : Sound k) (ht : Tree k.view k.pgdirs)
    (hwait : ∀ p z, l = .wait p → (k.view z).zombie → (k.view z).parent = some p →
      (k.view z).pgdir ≠ (k.view p).pgdir → (k.view z).pgdir ≠ 0 → Alone k.view z)
    (hexec : ∀ p pages, l = .exec p (.ok pages) → Alone k.view p)
    (hn : kernel.next k l = some k') : Sound k' := by
  cases l with
  | dispatch p | yield p | unblock p =>
    obtain ⟨hb, x, hn⟩ := guarded_eq_some hn
    cases hn
    refine h.setProc_same rfl fun _ hu => ?_
    simp [hu] at hb
  | block p =>
    obtain ⟨hb, x, hn⟩ := guarded_eq_some hn
    cases hn
    exact h.setProc_same rfl fun _ => by rw [Kernel.running_of_runs hb]; decide
  | resume p =>
    obtain ⟨hb, x, hn⟩ := guarded_eq_some hn
    cases hn
    exact h.leave p
  | kill p pid =>
    obtain ⟨hb, x, hn⟩ := guarded_eq_some hn
    have hv := Kernel.view_kill k pid
    -- `kill` does not touch a directory
    have hfr : (k.kill pid).1.pgdirs = k.pgdirs ∧ (k.kill pid).1.freed = k.freed ∧
        ∀ q, ((k.kill pid).1.proc q).pgdir = (k.proc q).pgdir := by
      unfold Kernel.kill
      split
      · exact ⟨rfl, rfl, fun _ => rfl⟩
      · next r _ =>
        refine ⟨rfl, rfl, fun q => ?_⟩
        rcases eq_or_ne q r with rfl | hq
        · simp [Kernel.setProc]
        · simp [Kernel.setProc, hq]
    rw [Option.some.inj hn] at hv hfr
    exact h.quiet hfr.2.2 hfr.1 hfr.2.1 hv
  | growproc p n mem =>
    obtain ⟨hb, x, hn⟩ := guarded_eq_some hn
    simp only [Bool.and_eq_true, decide_eq_true_eq] at hb
    have hu : (k.proc p).state ≠ .unused := by rw [Kernel.running_of_runs hb.1.1]; decide
    refine sound_growproc h hu ?_ ⟨hb.1.2, hb.2⟩ hn
    have := ht.sz_le p
    rwa [Kernel.view, view_sz hu] at this
  | fork p kalloc mem =>
    obtain ⟨hb, x, hn⟩ := guarded_eq_some hn
    exact sound_fork h (by rw [Kernel.running_of_runs hb]; decide) hn
  | clone p stack kalloc =>
    obtain ⟨hb, x, hn⟩ := guarded_eq_some hn
    simp only [Bool.and_eq_true] at hb
    exact sound_clone h (by rw [Kernel.running_of_runs hb.1]; decide) hn
  | exec p image =>
    obtain ⟨hb, x, hn⟩ := guarded_eq_some hn
    simp only [Bool.and_eq_true] at hb
    have hu : (k.proc p).state ≠ .unused := by rw [Kernel.running_of_runs hb.1]; decide
    exact sound_exec h hu (fun pages he => (alone_iff hu).1 (hexec p pages (by rw [he]))) hn
  | exit p mem =>
    obtain ⟨hb, x, hn⟩ := guarded_eq_some hn
    exact sound_exit h (by rw [Kernel.running_of_runs hb]; decide) hn
  | wait p =>
    obtain ⟨hb, x, hn⟩ := guarded_eq_some hn
    have hrun := Kernel.running_of_runs hb
    have hu : (k.proc p).state ≠ .unused := by rw [hrun]; decide
    -- the directory that is freed is that of the zombie, which is alone on it
    refine sound_wait h hrun (fun z hz hzz h0 => ?_) hn
    have hzu : (k.proc z).state ≠ .unused := by rw [hzz]; decide
    simp only [Kernel.isChild, decide_eq_true_eq] at hz
    refine (alone_iff hzu).1 (hwait p z rfl (view_zombie.2 hzz) ?_ ?_ ?_)
    · rw [Kernel.view, view_parent]; exact hz.1
    · rw [Kernel.view, Kernel.view, view_pgdir hzu, view_pgdir hu]; exact hz.2
    · rw [Kernel.view, view_pgdir hzu]; exact h0
  | join p =>
    obtain ⟨hb, x, hn⟩ := guarded_eq_some hn
    exact sound_join h (Kernel.running_of_runs hb) hn

theorem sound_userinit : Sound userinit where
  bounded q := by
    rcases eq_or_ne q initproc with rfl | hq
    · exact le_rfl
    · simp [userinit, hq, Proc.zero]
  freed_le := nofun
  freed_pos := nofun
  safe := nofun
  once := List.nodup_nil
  not_freed _ _ := nofun

end Threads

end OperatingSystems

import OperatingSystems.Threads.Table

/-!
# What the system calls do to the address spaces

Who shares an address space with whom depends on little of the process table: which entries are in
use, which of them are zombies, and their parent, page directory and size.  `Proc.view` keeps these
fields, and masks the directory and the size of an unused entry, which are stale.

This file says for each system call what it does to the views, once and for all:

* `view_allocproc`, `view_copyuvm` : the two building blocks;
* `Effect` : the possible effects of a call, and `effect_of_next` : every step of the kernel has
  one of them;
* `Sound` : the facts about page directories that hold in every run (`sound_of_next`), as long as
  `freevm` is called on a directory that nobody else has.
-/

namespace OperatingSystems

namespace Threads

/-- The part of a process-table entry that matters for address spaces. -/
structure View where
  used : Bool
  zombie : Bool
  parent : Option Slot
  pgdir : ℕ
  sz : ℕ
  deriving DecidableEq

/-- The view of an entry. -/
def Proc.view (r : Proc) : View :=
  if r.state = .unused then ⟨false, false, r.parent, 0, 0⟩
  else ⟨true, r.state = .zombie, r.parent, r.pgdir, r.sz⟩

/-- The views of all entries. -/
def Kernel.view (k : Kernel) (q : Slot) : View := (k.proc q).view

theorem view_of_used {r : Proc} (h : r.state ≠ .unused) :
    r.view = ⟨true, r.state = .zombie, r.parent, r.pgdir, r.sz⟩ := if_neg h

theorem view_of_unused {r : Proc} (h : r.state = .unused) :
    r.view = ⟨false, false, r.parent, 0, 0⟩ := if_pos h

@[simp] theorem view_used {r : Proc} : r.view.used = true ↔ r.state ≠ .unused := by
  unfold Proc.view; split_ifs with h <;> simp [h]

@[simp] theorem view_zombie {r : Proc} : r.view.zombie = true ↔ r.state = .zombie := by
  unfold Proc.view; split_ifs with h <;> simp [h]

@[simp] theorem view_parent (r : Proc) : r.view.parent = r.parent := by
  unfold Proc.view; split_ifs <;> rfl

theorem view_pgdir {r : Proc} (h : r.state ≠ .unused) : r.view.pgdir = r.pgdir := by
  rw [view_of_used h]

theorem view_sz {r : Proc} (h : r.state ≠ .unused) : r.view.sz = r.sz := by
  rw [view_of_used h]

namespace Kernel

theorem view_setProc (k : Kernel) (p : Slot) (f : Proc → Proc) :
    (k.setProc p f).view = Function.update k.view p (f (k.proc p)).view := by
  funext q
  rcases eq_or_ne q p with rfl | h
  · simp [Kernel.view, setProc]
  · simp [Kernel.view, setProc, h]

/-- A change of one entry that does not show in its view. -/
theorem view_setProc_eq {k : Kernel} {p : Slot} {f : Proc → Proc}
    (h : (f (k.proc p)).view = (k.proc p).view) : (k.setProc p f).view = k.view := by
  rw [view_setProc, h]; exact Function.update_eq_self p k.view

theorem view_wakeup1 (k : Kernel) (chan : Chan) : (k.wakeup1 chan).view = k.view := by
  funext q
  simp only [Kernel.view, wakeup1]
  split_ifs with h
  · simp [Proc.view, h.1]
  · rfl

theorem view_wakeupParent (k : Kernel) (p : Slot) : (k.wakeupParent p).view = k.view := by
  unfold wakeupParent
  split
  · rfl
  · exact view_wakeup1 k _

/-! ### Page directories -/

/-- What a change of the kernel may do to the page directories without anybody noticing: allocate
directories, and free some of those it has allocated itself. -/
structure Allocates (k k' : Kernel) : Prop where
  proc : k'.proc = k.proc
  le : k.pgdirs ≤ k'.pgdirs
  freed : k'.freed = k.freed ∨
    ∃ p, k'.freed = ⟨k.pgdirs + 1, p, k.proc⟩ :: k.freed ∧ k'.pgdirs = k.pgdirs + 1

theorem Allocates.refl (k : Kernel) : k.Allocates k := ⟨rfl, le_rfl, Or.inl rfl⟩

theorem freevm_frame {k k' : Kernel} {p : Slot} {d : ℕ} (h : k.freevm p d = some k') :
    d ≠ 0 ∧ k'.proc = k.proc ∧ k'.pgdirs = k.pgdirs ∧ k'.freed = ⟨d, p, k.proc⟩ :: k.freed := by
  unfold freevm at h
  split_ifs at h with h0
  cases h
  exact ⟨h0, rfl, rfl, rfl⟩

theorem view_congr {k k' : Kernel} (h : k'.proc = k.proc) : k'.view = k.view := by
  funext q; simp only [Kernel.view, h]

theorem Allocates.view {k k' : Kernel} (h : k.Allocates k') : k'.view = k.view := view_congr h.proc

theorem deallocuvm_frame (k : Kernel) (d oldsz newsz : ℕ) :
    (k.deallocuvm d oldsz newsz).1.proc = k.proc ∧
      (k.deallocuvm d oldsz newsz).1.pgdirs = k.pgdirs ∧
      (k.deallocuvm d oldsz newsz).1.freed = k.freed := by
  unfold deallocuvm
  split_ifs <;> exact ⟨rfl, rfl, rfl⟩

theorem allocuvm_frame {k k' : Kernel} {d oldsz newsz sz : ℕ} {mem : Option ℕ}
    (h : k.allocuvm d oldsz newsz mem = some (k', sz)) :
    k'.proc = k.proc ∧ k'.pgdirs = k.pgdirs ∧ k'.freed = k.freed := by
  unfold allocuvm at h
  split_ifs at h
  · cases h; exact ⟨rfl, rfl, rfl⟩
  · cases h; exact ⟨rfl, rfl, rfl⟩
  · obtain ⟨⟨ok, pages⟩, -, h⟩ := Option.bind_eq_some_iff.1 h
    dsimp only at h
    split_ifs at h
    · cases h; exact ⟨rfl, rfl, rfl⟩
    · cases h; exact deallocuvm_frame _ d newsz oldsz

/-- The loop of `allocuvm` reaches the new size if and only if the memory suffices. -/
theorem allocLoop_ok {newsz a : ℕ} {mem : Option ℕ} {pages pages' : ℕ → Bool} {ok : Bool}
    (h : allocLoop newsz a mem pages = some (ok, pages')) :
    ok = true ↔ ∀ m, mem = some m → newsz ≤ a + m * PGSIZE := by
  fun_induction allocLoop newsz a mem pages with
  | case1 a pages hlt =>
    cases h
    simp only [Bool.false_eq_true, Option.some.injEq, forall_eq', Nat.zero_mul, Nat.add_zero,
      false_iff, not_le]
    exact hlt
  | case2 a mem pages hlt h0 hp => cases h
  | case3 a mem pages hlt h0 hp ih =>
    rw [ih h]
    cases mem with
    | none => simp
    | some m =>
      have hm : m ≠ 0 := fun hm => h0 (by rw [hm])
      obtain ⟨m, rfl⟩ := Nat.exists_eq_succ_of_ne_zero hm
      simp only [Option.map_some, Option.some.injEq, forall_eq', Nat.succ_eq_add_one,
        Nat.add_sub_cancel, Nat.add_mul, Nat.one_mul]
      omega
  | case4 a mem pages hlt =>
    cases h
    refine iff_of_true rfl fun m _ => ?_
    omega

/-- A copy of an address space is a new directory, or it fails and leaves nothing but the record
of a directory that was allocated and freed again. -/
theorem allocates_copyuvm {k k' : Kernel} {p : Slot} {d sz d' : ℕ} {mem : Option ℕ}
    (h : k.copyuvm p d sz mem = some (k', d')) :
    k.Allocates k' ∧
      (d' = 0 ∨ d' = k.pgdirs + 1 ∧ k'.pgdirs = k.pgdirs + 1 ∧ k'.freed = k.freed) := by
  unfold copyuvm at h
  split_ifs at h
  · cases h; exact ⟨.refl k, Or.inl rfl⟩
  · obtain ⟨⟨ok, pages⟩, -, h⟩ := Option.bind_eq_some_iff.1 h
    dsimp only [setupkvm] at h
    split_ifs at h
    · cases h
      exact ⟨⟨rfl, Nat.le_succ _, Or.inl rfl⟩, Or.inr ⟨rfl, rfl, rfl⟩⟩
    · obtain ⟨k'', hk, h⟩ := Option.map_eq_some_iff.1 h
      cases h
      simp only [freevm, Nat.add_eq_zero_iff, one_ne_zero, and_false, ↓reduceIte,
        Option.some.injEq] at hk
      subst hk
      exact ⟨⟨rfl, Nat.le_succ _, Or.inr ⟨p, rfl, rfl⟩⟩, Or.inl rfl⟩

/-- What `allocproc` does not touch. -/
structure AllocProc (k k' : Kernel) : Prop where
  pgdir : ∀ q, (k'.proc q).pgdir = (k.proc q).pgdir
  present : k'.present = k.present
  pgdirs : k'.pgdirs = k.pgdirs
  freed : k'.freed = k.freed

/-- `allocproc` leaves an unused entry behind as it is, or takes one. -/
theorem allocproc_cases (k : Kernel) (kalloc : Bool) :
    (∃ k', k.allocproc kalloc = (k', none) ∧ k.AllocProc k' ∧ k'.view = k.view) ∨
    ∃ k' np, k.allocproc kalloc = (k', some np) ∧ k.AllocProc k' ∧
      (k.proc np).state = .unused ∧ (k'.proc np).state = .embryo ∧
      (k'.proc np).parent = (k.proc np).parent ∧ ∀ q, q ≠ np → k'.proc q = k.proc q := by
  unfold allocproc
  cases hf : (List.finRange NPROC).find? fun q => (k.proc q).state = .unused with
  | none => exact Or.inl ⟨k, rfl, ⟨fun _ => rfl, rfl, rfl, rfl⟩, rfl⟩
  | some np =>
    have hu : (k.proc np).state = .unused := by simpa using List.find?_some hf
    cases kalloc with
    | false =>
      refine Or.inl ⟨_, rfl, ⟨fun q => ?_, rfl, rfl, rfl⟩, ?_⟩
      · rcases eq_or_ne q np with rfl | h
        · simp [setProc]
        · simp [setProc, h]
      · funext q
        rcases eq_or_ne q np with rfl | h
        · simp [Kernel.view, setProc, Proc.view, hu]
        · simp [Kernel.view, setProc, h]
    | true =>
      refine Or.inr ⟨_, np, rfl, ⟨fun q => ?_, rfl, rfl, rfl⟩, hu, ?_, ?_, fun q h => ?_⟩
      · rcases eq_or_ne q np with rfl | h
        · simp [setProc]
        · simp [setProc, h]
      · simp [setProc]
      · simp [setProc]
      · simp [setProc, h]

/-! ### The system calls -/

/-- The entry that `allocproc` found is not a used one. -/
theorem ne_of_unused {k : Kernel} {p np : Slot} (hp : (k.proc p).state ≠ .unused)
    (hnp : (k.proc np).state = .unused) : p ≠ np := by
  rintro rfl; exact hp hnp

theorem view_fork {k k' : Kernel} {p : Slot} {kalloc : Bool} {mem : Option ℕ} {r : Option ℤ}
    (hp : (k.proc p).state ≠ .unused) (h : k.fork p kalloc mem = some (k', r)) :
    k.pgdirs ≤ k'.pgdirs ∧ k'.view = k.view ∨ ∃ np, (k.proc np).state = .unused ∧
      k'.view = Function.update k.view np ⟨true, false, some p, k.pgdirs + 1, (k.view p).sz⟩ ∧
      k'.pgdirs = k.pgdirs + 1 ∧ k'.freed = k.freed := by
  unfold fork at h
  obtain ⟨k₁, ha, hal₁, hv⟩ | ⟨k₁, np, ha, hal₁, hu, hs, hpar, hne⟩ := k.allocproc_cases kalloc
  · rw [ha] at h; cases h; exact Or.inl ⟨hal₁.pgdirs.ge, hv⟩
  · rw [ha] at h
    obtain ⟨⟨k₂, d⟩, hc, h⟩ := Option.bind_eq_some_iff.1 h
    obtain ⟨hal, hdir⟩ := allocates_copyuvm hc
    have hview : ∀ q, q ≠ np → k₂.view q = k.view q := fun q hq => by
      simp only [Kernel.view, hal.proc, hne q hq]
    dsimp only at h
    split_ifs at h with h0
    · -- the copy failed, and the entry is given back
      cases h
      refine Or.inl ⟨hal₁.pgdirs.ge.trans hal.le, ?_⟩
      funext q
      rcases eq_or_ne q np with rfl | hq
      · rw [view_setProc, Function.update_self]
        simp [Proc.view, hal.proc, hpar, Kernel.view, hu]
      · rw [view_setProc, Function.update_of_ne hq, hview q hq]
    · cases h
      right
      obtain ⟨hd', hn, hf'⟩ := hdir.resolve_left h0
      refine ⟨np, hu, ?_, hal₁.pgdirs ▸ hn, hf'.trans hal₁.freed⟩
      have hpn := ne_of_unused hp hu
      funext q
      rcases eq_or_ne q np with rfl | hq
      · rw [view_setProc, Function.update_self, Function.update_self]
        simp [Proc.view, Kernel.view, hal.proc, hne p hpn, hp, hd', hal₁.pgdirs]
      · rw [view_setProc, Function.update_of_ne hq, Function.update_of_ne hq, hview q hq]

theorem view_clone {k k' : Kernel} {p : Slot} {stack : ℕ} {kalloc : Bool} {r : Option ℤ}
    (hp : (k.proc p).state ≠ .unused) (h : k.clone p stack kalloc = some (k', r)) :
    k'.pgdirs = k.pgdirs ∧ (k'.view = k.view ∨ ∃ np, (k.proc np).state = .unused ∧
      k'.view = Function.update k.view np
        ⟨true, false, some p, (k.view p).pgdir, (k.view p).sz⟩) := by
  unfold clone at h
  split at h
  · cases h; exact ⟨rfl, Or.inl rfl⟩
  split at h
  · cases h; exact ⟨rfl, Or.inl rfl⟩
  obtain ⟨k₁, ha, hal₁, hv⟩ | ⟨k₁, np, ha, hal₁, hu, hs, hpar, hne⟩ := k.allocproc_cases kalloc
  · rw [ha] at h; cases h; exact ⟨hal₁.pgdirs, Or.inl hv⟩
  · rw [ha] at h
    have hpn := ne_of_unused hp hu
    -- whether or not the stack could be written, the entry stays behind
    have hview : ∀ q, q ≠ np → k₁.view q = k.view q := fun q hq => by
      simp only [Kernel.view, hne q hq]
    have hnew : (k₁.setProc np fun q => { q with
        stack := stack, pgdir := (k₁.proc p).pgdir, sz := (k₁.proc p).sz, parent := some p }).view =
        Function.update k.view np ⟨true, false, some p, (k.view p).pgdir, (k.view p).sz⟩ := by
      funext q
      rcases eq_or_ne q np with rfl | hq
      · rw [view_setProc, Function.update_self, Function.update_self]
        simp [Proc.view, Kernel.view, hs, hne p hpn, hp]
      · rw [view_setProc, Function.update_of_ne hq, Function.update_of_ne hq, hview q hq]
    dsimp only at h
    split_ifs at h
    · cases h
      refine ⟨hal₁.pgdirs, Or.inr ⟨np, hu, ?_⟩⟩
      rw [← hnew]
      exact view_setProc_eq (by simp [Proc.view, setProc, hs])
    · cases h; exact ⟨hal₁.pgdirs, Or.inr ⟨np, hu, hnew⟩⟩

theorem view_leave (k : Kernel) (p : Slot) : (k.leave p).view = k.view :=
  view_setProc_eq (by simp [Proc.view])

theorem view_sleepIn {k : Kernel} {p : Slot} (b : Blocked) (hp : (k.proc p).state = .running) :
    (k.sleepIn p b).view = k.view :=
  view_setProc_eq (by simp [Proc.view, hp])

/-- The view of a free entry. -/
def freeView : View := ⟨false, false, none, 0, 0⟩

theorem view_reap (k : Kernel) (q : Slot) :
    (k.reap q).view = Function.update k.view q freeView := by
  rw [reap, view_setProc]; rfl

theorem view_join {k k' : Kernel} {p : Slot} {r : Option ℤ} (hp : (k.proc p).state = .running)
    (h : k.join p = some (k', r)) :
    k'.pgdirs = k.pgdirs ∧ k'.freed = k.freed ∧ (k'.view = k.view ∨
      ∃ q, k.isThread p q ∧ (k.proc q).state = .zombie ∧
        k'.view = Function.update k.view q freeView) := by
  unfold join at h
  split at h
  · next q hq =>
    cases h
    have hz : k.isThread p q = true ∧ (k.proc q).state = .zombie := by
      simpa using List.find?_some hq
    exact ⟨rfl, rfl, Or.inr ⟨q, hz.1, hz.2, by rw [view_leave, view_reap]⟩⟩
  · split_ifs at h
    · cases h; exact ⟨rfl, rfl, Or.inl (view_leave k p)⟩
    · cases h; exact ⟨rfl, rfl, Or.inl (view_sleepIn _ hp)⟩

theorem view_wait {k k' : Kernel} {p : Slot} {r : Option ℤ} (hp : (k.proc p).state = .running)
    (h : k.wait p = some (k', r)) :
    k'.pgdirs = k.pgdirs ∧ (k'.freed = k.freed ∧ k'.view = k.view ∨
      ∃ q, k.isChild p q ∧ (k.proc q).state = .zombie ∧ (k.proc q).pgdir ≠ 0 ∧
        k'.freed = ⟨(k.proc q).pgdir, q, k.proc⟩ :: k.freed ∧
        k'.view = Function.update k.view q freeView) := by
  unfold wait at h
  split at h
  · next q hq =>
    have hz : k.isChild p q = true ∧ (k.proc q).state = .zombie := by
      simpa using List.find?_some hq
    obtain ⟨k₁, hf, h⟩ := Option.map_eq_some_iff.1 h
    cases h
    obtain ⟨h0, hproc, hn, hfr⟩ := freevm_frame hf
    refine ⟨hn, Or.inr ⟨q, hz.1, hz.2, h0, hfr, ?_⟩⟩
    rw [view_leave, view_reap, view_congr hproc]
  · split_ifs at h
    · cases h; exact ⟨rfl, Or.inl ⟨rfl, view_leave k p⟩⟩
    · cases h; exact ⟨rfl, Or.inl ⟨rfl, view_sleepIn _ hp⟩⟩

theorem view_kill (k : Kernel) (pid : ℕ) : (k.kill pid).1.view = k.view := by
  unfold kill
  split
  · rfl
  · next q _ =>
    dsimp only
    refine view_setProc_eq ?_
    by_cases hs : (k.proc q).state = .sleeping
    · simp [Proc.view, hs]
    · simp [Proc.view, hs]

/-- The views after `growproc` gave the size `sz` to `p` and to its threads. -/
def resizeView (v : Slot → View) (p : Slot) (sz : ℕ) (q : Slot) : View :=
  if q = p ∨ ((v q).used ∧ (v q).parent = some p ∧ (v q).pgdir = (v p).pgdir) then
    { v q with sz := sz }
  else v q

theorem resizeView_eq (v : Slot → View) (p : Slot) (sz : ℕ) (q : Slot) :
    (resizeView v p sz q).used = (v q).used ∧
      (resizeView v p sz q).zombie = (v q).zombie ∧
      (resizeView v p sz q).parent = (v q).parent ∧
      (resizeView v p sz q).pgdir = (v q).pgdir := by
  unfold resizeView
  split_ifs <;> exact ⟨rfl, rfl, rfl, rfl⟩

/-- `growproc` changes the size of `p`: it grows within the user address space and there is memory
for the new pages, or it shrinks to a size that is not zero. -/
def Resizes (k : Kernel) (p : Slot) (n : ℤ) (mem : Option ℕ) : Prop :=
  (0 < n ∧ (k.proc p).sz + n ≤ USERTOP ∧
    ∀ m, mem = some m → (k.proc p).sz + n ≤ pgroundup (k.proc p).sz + m * PGSIZE) ∨
  (n < 0 ∧ 0 < (k.proc p).sz + n)

/-- The size that the first half of `growproc` computes; `0` is an error. -/
theorem growproc_size {k k' : Kernel} {p : Slot} {n : ℤ} {mem : Option ℕ} {sz : ℕ}
    (hsz : (k.proc p).sz ≤ USERTOP) (hn : -2 ^ 31 ≤ n ∧ n < 2 ^ 31)
    (h : k.growprocSize p n mem = some (k', sz)) :
    (k'.proc = k.proc ∧ k'.pgdirs = k.pgdirs ∧ k'.freed = k.freed) ∧
      (k.Resizes p n mem → (sz : ℤ) = (k.proc p).sz + n ∧ sz ≠ 0) ∧
      (¬ k.Resizes p n mem → sz = (k.proc p).sz ∨ n ≠ 0 ∧ sz = 0) := by
  have hU : USERTOP = 0xA0000 := rfl
  unfold growprocSize at h
  dsimp only at h
  split_ifs at h with h1 h2
  · -- the heap grows, if there is memory for all pages
    refine ⟨allocuvm_frame h, ?_⟩
    have hto : (toUint ((k.proc p).sz + n) : ℤ) = (k.proc p).sz + n := by
      simp only [toUint]; omega
    unfold allocuvm at h
    split_ifs at h with h3 h4
    · cases h
      refine ⟨fun hr => ?_, fun _ => Or.inr ⟨by omega, rfl⟩⟩
      rcases hr with hr | hr <;> omega
    · omega
    · obtain ⟨⟨ok, pages⟩, hl, h⟩ := Option.bind_eq_some_iff.1 h
      have hok := allocLoop_ok hl
      have hiff : k.Resizes p n mem ↔ ok = true := by
        rw [hok]
        constructor
        · rintro (hr | hr) m hm
          · have := hr.2.2 m hm
            omega
          · omega
        · exact fun hr => Or.inl ⟨h1, by omega, fun m hm => by have := hr m hm; omega⟩
      dsimp only at h
      split_ifs at h with h5
      · cases h
        exact ⟨fun _ => ⟨hto, by omega⟩, fun hr => absurd (hiff.2 h5) hr⟩
      · cases h
        exact ⟨fun hr => absurd (hiff.1 hr) h5, fun _ => Or.inr ⟨by omega, rfl⟩⟩
  · -- it shrinks; a size below `0` wraps around
    have hd := deallocuvm_frame k (k.proc p).pgdir (k.proc p).sz (toUint ((k.proc p).sz + n))
    rw [Option.some.inj h] at hd
    refine ⟨hd, ?_⟩
    replace h := Option.some.inj h
    unfold deallocuvm at h
    split_ifs at h with h3
    · obtain ⟨-, rfl⟩ := Prod.mk.inj h
      refine ⟨fun hr => ?_, fun _ => Or.inl rfl⟩
      simp only [toUint] at h3
      rcases hr with hr | hr <;> omega
    · obtain ⟨-, rfl⟩ := Prod.mk.inj h
      simp only [toUint] at h3 ⊢
      refine ⟨fun hr => ?_, fun hr => Or.inr ⟨by omega, ?_⟩⟩
      · rcases hr with hr | hr <;> omega
      · unfold Resizes at hr; omega
  · cases h
    refine ⟨⟨rfl, rfl, rfl⟩, fun hr => ?_, fun _ => Or.inl rfl⟩
    rcases hr with hr | hr <;> omega

theorem view_growproc {k k' : Kernel} {p : Slot} {n : ℤ} {mem : Option ℕ} {r : Option ℤ}
    (hp : (k.proc p).state ≠ .unused) (hsz : (k.proc p).sz ≤ USERTOP)
    (hn : -2 ^ 31 ≤ n ∧ n < 2 ^ 31) (h : k.growproc p n mem = some (k', r)) :
    (k'.pgdirs = k.pgdirs ∧ k'.freed = k.freed) ∧
      (∀ q, (k'.proc q).pgdir = (k.proc q).pgdir) ∧
      ((¬ k.Resizes p n mem ∧ k'.view = k.view) ∨
        ∃ sz : ℕ, k'.view = resizeView k.view p sz ∧
          (k.Resizes p n mem → (sz : ℤ) = (k.proc p).sz + n) ∧
          (¬ k.Resizes p n mem → sz = (k.proc p).sz)) := by
  unfold growproc at h
  obtain ⟨⟨k₁, sz⟩, h1, h⟩ := Option.map_eq_some_iff.1 h
  obtain ⟨⟨hproc, hpg, hfr⟩, hres, hnres⟩ := growproc_size hsz hn h1
  dsimp only at h
  split_ifs at h with hbad
  · -- an error: nothing but the pages may have changed
    cases h
    refine ⟨⟨hpg, hfr⟩, fun q => by rw [hproc], Or.inl ⟨fun hr => ?_, ?_⟩⟩
    · exact (hres hr).2 hbad.2
    · funext q; simp only [Kernel.view, hproc]
  · cases h
    refine ⟨⟨hpg, hfr⟩, fun q => ?_, Or.inr ⟨sz, ?_, fun hr => (hres hr).1, fun hr => ?_⟩⟩
    · rcases eq_or_ne q p with rfl | hq
      · simp [setProc, hproc]
      · simp only [setProc, hproc, ne_eq, hq, not_false_eq_true, Function.update_of_ne]
        split_ifs <;> rfl
    · funext q
      rcases eq_or_ne q p with rfl | hq
      · simp [Kernel.view, setProc, hproc, resizeView, Proc.view, hp]
      · simp only [Kernel.view, setProc, hproc, ne_eq, hq, not_false_eq_true,
          Function.update_of_ne, Function.update_self, resizeView, false_or, view_parent,
          view_used]
        by_cases hu : (k.proc q).state = .unused
        · simp only [hu, not_true_eq_false, false_and, ↓reduceIte]
          split_ifs <;> simp [Proc.view, hu]
        · rw [view_pgdir hu, view_pgdir hp]
          simp only [hu, not_false_eq_true, true_and]
          split_ifs <;> simp [Proc.view, hu]
    · exact (hnres hr).resolve_right fun h => hbad h

/-- Installing a program image replaces the directory and frees the old one. -/
theorem view_exec {k k' : Kernel} {p : Slot} {image : Image} {r : Option ℤ}
    (hp : (k.proc p).state ≠ .unused) (h : k.exec p image = some (k', r)) :
    (k.Allocates k' ∧ ∀ pages, image ≠ .ok pages) ∨ ∃ pages, image = .ok pages ∧
      (k.proc p).pgdir ≠ 0 ∧ k'.pgdirs = k.pgdirs + 1 ∧
      k'.proc = (k.setProc p fun q => { q with pgdir := k.pgdirs + 1, sz := pages * PGSIZE }).proc ∧
      k'.view = Function.update k.view p
        { k.view p with pgdir := k.pgdirs + 1, sz := pages * PGSIZE } ∧
      k'.freed = ⟨(k.proc p).pgdir, p, k'.proc⟩ :: k.freed := by
  cases image with
  | noDirectory => cases h; exact Or.inl ⟨.refl k, nofun⟩
  | bad =>
    unfold exec at h
    obtain ⟨k₁, hf, h⟩ := Option.map_eq_some_iff.1 h
    cases h
    obtain ⟨-, hproc, hn, hfr⟩ := freevm_frame hf
    exact Or.inl ⟨⟨hproc, hn ▸ Nat.le_succ _, Or.inr ⟨p, hfr, hn⟩⟩, nofun⟩
  | ok pages =>
    unfold exec at h
    obtain ⟨k₁, hf, h⟩ := Option.map_eq_some_iff.1 h
    cases h
    obtain ⟨h0, hproc, hn, hfr⟩ := freevm_frame hf
    replace hproc : k'.proc =
      (k.setProc p fun q => { q with pgdir := k.pgdirs + 1, sz := pages * PGSIZE }).proc := hproc
    refine Or.inr ⟨pages, rfl, h0, hn, hproc, ?_, by rw [hproc]; exact hfr⟩
    rw [view_congr hproc, view_setProc]
    simp [Kernel.view, Proc.view, hp]

/-! ### Exit -/

/-- `q` is a thread of `p`. -/
def IsThread (v : Slot → View) (p q : Slot) : Prop :=
  (v q).parent = some p ∧ (v q).pgdir = (v p).pgdir

/-- The parent of an entry after `p` passed its children to `initproc`. -/
def adopt (p : Slot) (v : View) : View :=
  if v.parent = some p then { v with parent := some initproc } else v

/-- The views within `exit`: `p` has the directory `d`, and passed the children among `done` to
`initproc`. -/
def exitingView (v : Slot → View) (p : Slot) (d : ℕ) (done : List Slot) (q : Slot) : View :=
  if q = p then { v p with pgdir := d } else if q ∈ done then adopt p (v q) else v q

/-- The views after `exit`. -/
def exitView (v : Slot → View) (p : Slot) (d : ℕ) (q : Slot) : View :=
  if q = p then { v p with zombie := true, pgdir := d } else adopt p (v q)

/-- Unused entries have no parent. -/
def NoOrphans (v : Slot → View) : Prop := ∀ q, (v q).used = false → (v q).parent = none

theorem adopt_parent_ne {p : Slot} (hp : p ≠ initproc) (v : View) :
    (adopt p v).parent ≠ some p := by
  unfold adopt
  split_ifs with h
  · simpa using hp.symm
  · exact h

@[simp] theorem adopt_adopt {p : Slot} (hp : p ≠ initproc) (v : View) :
    adopt p (adopt p v) = adopt p v := if_neg (adopt_parent_ne hp v)

@[simp] theorem adopt_used (p : Slot) (v : View) : (adopt p v).used = v.used := by
  unfold adopt; split_ifs <;> rfl

@[simp] theorem adopt_zombie (p : Slot) (v : View) : (adopt p v).zombie = v.zombie := by
  unfold adopt; split_ifs <;> rfl

@[simp] theorem adopt_pgdir (p : Slot) (v : View) : (adopt p v).pgdir = v.pgdir := by
  unfold adopt; split_ifs <;> rfl

@[simp] theorem adopt_sz (p : Slot) (v : View) : (adopt p v).sz = v.sz := by
  unfold adopt; split_ifs <;> rfl

theorem isThread_iff {k : Kernel} (ho : NoOrphans k.view) {p q : Slot} (hp : (k.view p).used) :
    k.isThread p q ↔ IsThread k.view p q := by
  by_cases hq : (k.proc q).state = .unused
  · have : (k.proc q).parent = none := by
      rw [← view_parent]
      exact ho q (by simp [Kernel.view, view_of_unused hq])
    simp [isThread, IsThread, Kernel.view, this]
  · simp [isThread, IsThread, Kernel.view, view_pgdir (view_used.1 hp), view_pgdir hq]

theorem view_exitAdopt (k : Kernel) (p q : Slot) :
    (exitAdopt p k q).view = Function.update k.view q (adopt p (k.view q)) := by
  unfold exitAdopt
  have hnew : (k.proc q).parent = some p →
      (k.setProc q fun r => { r with parent := some initproc }).view =
        Function.update k.view q (adopt p (k.view q)) := fun h => by
    rw [view_setProc, adopt, if_pos (by simpa [Kernel.view] using h)]
    congr 1
    unfold Kernel.view Proc.view
    split_ifs <;> rfl
  dsimp only
  split_ifs with h
  · rw [view_wakeup1, hnew h]
  · exact hnew h
  · rw [adopt, if_neg (by simpa [Kernel.view] using h), Function.update_eq_self]

theorem exitAdopt_frame (k : Kernel) (p q : Slot) :
    (exitAdopt p k q).pgdirs = k.pgdirs ∧ (exitAdopt p k q).freed = k.freed := by
  unfold exitAdopt
  dsimp only
  split_ifs <;> exact ⟨rfl, rfl⟩

/-- The test for threads in the loop of `exit` does nothing, or gives `p` a new directory. -/
theorem exitCopy_cases {k k' : Kernel} {p q : Slot} {mem : Slot → Option ℕ}
    (h : exitCopy p mem k q = some k') :
    (¬ k.isThread p q ∧ k' = k) ∨ ∃ k₁ d, k.isThread p q ∧ k.Allocates k₁ ∧
      (d = 0 ∨ d = k.pgdirs + 1 ∧ k₁.pgdirs = k.pgdirs + 1 ∧ k₁.freed = k.freed) ∧
      k' = k₁.setProc p fun r => { r with pgdir := d } := by
  unfold exitCopy at h
  split_ifs at h with ht
  · obtain ⟨⟨k₁, d⟩, hc, rfl⟩ := Option.map_eq_some_iff.1 h
    obtain ⟨hal, hd⟩ := allocates_copyuvm hc
    exact Or.inr ⟨k₁, d, ht, hal, hd, rfl⟩
  · exact Or.inl ⟨ht, (Option.some.inj h).symm⟩

/-- The views after one iteration of the loop of `exit`. -/
theorem view_exitStep {k k' : Kernel} {p q : Slot} {mem : Slot → Option ℕ}
    (ho : NoOrphans k.view) (hp : (k.view p).used) (hqp : q ≠ p)
    (h : exitStep p mem k q = some k') :
    (¬ IsThread k.view p q ∧ k'.pgdirs = k.pgdirs ∧
      k'.view = Function.update k.view q (adopt p (k.view q))) ∨
    ∃ d, IsThread k.view p q ∧ k.pgdirs ≤ k'.pgdirs ∧
      (d = 0 ∨ d = k.pgdirs + 1 ∧ k'.pgdirs = k.pgdirs + 1) ∧
      k'.view = Function.update (Function.update k.view p { k.view p with pgdir := d }) q
        (adopt p (k.view q)) := by
  obtain ⟨k₁, hc, rfl⟩ := Option.map_eq_some_iff.1 h
  rw [(exitAdopt_frame k₁ p q).1, view_exitAdopt]
  obtain ⟨hnt, rfl⟩ | ⟨k₂, d, ht, hal, hd, rfl⟩ := exitCopy_cases hc
  · exact Or.inl ⟨fun ht => hnt ((isThread_iff ho hp).2 ht), rfl, rfl⟩
  · have hp' := view_used.1 hp
    have hv : (k₂.setProc p fun r => { r with pgdir := d }).view =
        Function.update k.view p { k.view p with pgdir := d } := by
      rw [view_setProc, hal.view, hal.proc]
      simp [Kernel.view, Proc.view, hp']
    refine Or.inr ⟨d, (isThread_iff ho hp).1 ht, hal.le, hd.imp_right fun h => ⟨h.1, h.2.1⟩, ?_⟩
    rw [hv, Function.update_of_ne hqp]

/-- An iteration of the loop of `exit` on an entry that is no child of `p`. -/
theorem exitStep_of_parent_ne {k k' : Kernel} {p q : Slot} {mem : Slot → Option ℕ}
    (hq : (k.view q).parent ≠ some p) (h : exitStep p mem k q = some k') : k' = k := by
  rw [Kernel.view, view_parent] at hq
  simp only [exitStep, exitCopy, isThread, hq, false_and, decide_false, Bool.false_eq_true,
    ↓reduceIte, Option.map_some, Option.some.injEq, exitAdopt] at h
  exact h.symm

/-- The loop of `exit`, as a machine whose labels are the entries. -/
def exitLoop (p : Slot) (mem : Slot → Option ℕ) : Machine Kernel Slot := ⟨exitStep p mem⟩

theorem foldlM_exitStep (p : Slot) (mem : Slot → Option ℕ) (k : Kernel) (l : List Slot) :
    l.foldlM (exitStep p mem) k = (exitLoop p mem).run k l := by
  induction l generalizing k with
  | nil => rfl
  | cons q l ih => exact congrArg _ (funext fun k => ih k)

/-- The loop of `exit` of `p`, begun in `k`, has treated the entries `done`: `p` has a directory of
its own if one of them was a thread. -/
structure Exiting (k : Kernel) (p : Slot) (done : List Slot) (k' : Kernel) : Prop where
  le : k.pgdirs ≤ k'.pgdirs
  view : ∃ d, k'.view = exitingView k.view p d done ∧
    (d = (k.view p).pgdir ∧ (∀ q ∈ done, ¬ IsThread k.view p q) ∨
      (d = 0 ∨ k.pgdirs < d ∧ d ≤ k'.pgdirs) ∧ ∃ q, IsThread k.view p q)

theorem exitingView_used (v : Slot → View) (p : Slot) (d : ℕ) (done : List Slot) (q : Slot) :
    (exitingView v p d done q).used = (v q).used := by
  unfold exitingView
  split_ifs with h
  · rw [h]
  · exact adopt_used p _
  · rfl

theorem noOrphans_exitingView {v : Slot → View} (ho : NoOrphans v) (p : Slot) (d : ℕ)
    (done : List Slot) : NoOrphans (exitingView v p d done) := by
  intro q hq
  rw [exitingView_used] at hq
  have := ho q hq
  unfold exitingView
  split_ifs with h
  · rw [← h]; exact this
  · rw [adopt, if_neg (by simp [this])]; exact this
  · exact this

theorem exiting_step {k k₁ k₂ : Kernel} {p q : Slot} {mem : Slot → Option ℕ} {done : List Slot}
    (ho : NoOrphans k.view) (hp : (k.view p).used) (hpi : p ≠ initproc)
    (hpp : (k.view p).parent ≠ some p) (h : k.Exiting p done k₁)
    (hq : exitStep p mem k₁ q = some k₂) : k.Exiting p (done ++ [q]) k₂ := by
  obtain ⟨d, hd, hdir⟩ := h.view
  rcases eq_or_ne q p with rfl | hqp
  · -- `p` is not its own child
    have hself : ∀ d, exitingView k.view q d (done ++ [q]) = exitingView k.view q d done := by
      intro d; funext r
      by_cases hr : r = q <;> simp [exitingView, hr]
    cases exitStep_of_parent_ne (by rw [hd]; simpa [exitingView] using hpp) hq
    refine ⟨h.le, d, by rw [hself, hd], hdir.imp_left fun hdir => ⟨hdir.1, fun r hr => ?_⟩⟩
    rcases List.mem_append.1 hr with hr | hr
    · exact hdir.2 r hr
    · rw [List.mem_singleton.1 hr]; exact fun ht => hpp ht.1
  · have hv : (k₁.view q) = if q ∈ done then adopt p (k.view q) else k.view q := by
      rw [hd, exitingView, if_neg hqp]
    have hvp : k₁.view p = { k.view p with pgdir := d } := by rw [hd, exitingView, if_pos rfl]
    have hdone : ∀ d, exitingView k.view p d (done ++ [q]) =
        Function.update (exitingView k.view p d done) q (adopt p (k₁.view q)) := by
      intro d; funext r
      rcases eq_or_ne r q with rfl | hr
      · rw [Function.update_self, hv, exitingView, if_neg hqp, if_pos (by simp)]
        split_ifs
        · exact (adopt_adopt hpi _).symm
        · rfl
      · simp [exitingView, hr]
    -- a child of `p` that is left was not treated yet
    have hthread : IsThread k₁.view p q ↔
        q ∉ done ∧ (k.view q).parent = some p ∧ (k.view q).pgdir = d := by
      unfold IsThread
      rw [hv, hvp]
      split_ifs with hqd
      · simp [hqd, adopt_parent_ne hpi]
      · simp [hqd]
    obtain ⟨hnt, hn, hv₂⟩ | ⟨d', ht, hle, hd', hv₂⟩ := view_exitStep
      (by rw [hd]; exact noOrphans_exitingView ho p d done) (by rw [hvp]; exact hp) hqp hq
    · refine ⟨hn ▸ h.le, d, by rw [hv₂, hdone, hd], ?_⟩
      rw [hn]
      refine hdir.imp_left fun hdir => ⟨hdir.1, fun r hr ht => ?_⟩
      rcases List.mem_append.1 hr with hr | hr
      · exact hdir.2 r hr ht
      · rw [List.mem_singleton.1 hr] at ht
        exact hnt (hthread.2 ⟨fun hqd => hdir.2 q hqd ht, ht.1, ht.2.trans hdir.1.symm⟩)
    · refine ⟨h.le.trans hle, d', ?_, Or.inr ⟨hd'.imp_right fun hd' => ?_, ?_⟩⟩
      · rw [hv₂, hdone]
        congr 1
        funext r
        rcases eq_or_ne r p with rfl | hr
        · rw [Function.update_self, hvp, exitingView, if_pos rfl]
        · rw [Function.update_of_ne hr, hd]; simp [exitingView, hr]
      · have := h.le
        omega
      · rcases hdir with ⟨rfl, -⟩ | ⟨-, hex⟩
        · exact ⟨q, (hthread.1 ht).2⟩
        · exact hex

/-- After `exit`, `p` has a directory of its own if it had a thread. -/
theorem view_exit {k k' : Kernel} {p : Slot} {mem : Slot → Option ℕ} {r : Option ℤ}
    (ho : NoOrphans k.view) (hp : (k.view p).used) (hpp : (k.view p).parent ≠ some p)
    (h : k.exit p mem = some (k', r)) :
    p ≠ initproc ∧ k.pgdirs ≤ k'.pgdirs ∧ ∃ d, k'.view = exitView k.view p d ∧
      (d = (k.view p).pgdir ∧ (∀ q, ¬ IsThread k.view p q) ∨
        (d = 0 ∨ k.pgdirs < d ∧ d ≤ k'.pgdirs) ∧ ∃ q, IsThread k.view p q) := by
  unfold exit at h
  split_ifs at h with hpi
  obtain ⟨k₁, hf, h⟩ := Option.bind_eq_some_iff.1 h
  cases h
  rw [foldlM_exitStep] at hf
  have hw := k.view_wakeupParent p
  have h₀ : k.Exiting p [] (k.wakeupParent p) := by
    refine ⟨?_, (k.view p).pgdir, ?_, Or.inl ⟨rfl, by simp⟩⟩
    · unfold wakeupParent; split <;> exact le_rfl
    · rw [hw]
      funext q
      by_cases hq : q = p
      · simp [exitingView, hq]
      · simp [exitingView, hq]
  obtain ⟨hle, d, hd, hdir⟩ := Machine.run_induction (P := fun done k₁ => k.Exiting p done k₁) h₀
    (fun done k₁ q k₂ _ h hq => exiting_step ho hp hpi hpp h hq) hf
  refine ⟨hpi, hle, d, ?_, hdir.imp_left fun hdir => ⟨hdir.1, fun q => hdir.2 q (by simp)⟩⟩
  have hused : (k₁.proc p).state ≠ .unused := by
    rw [← view_used, ← Kernel.view, hd, exitingView_used]; exact hp
  rw [view_setProc]
  funext q
  rcases eq_or_ne q p with rfl | hq
  · have hself : k₁.view q = { k.view q with pgdir := d } := by rw [hd, exitingView, if_pos rfl]
    rw [Kernel.view, view_of_used hused, View.mk.injEq] at hself
    obtain ⟨h1, -, h3, h4, h5⟩ := hself
    rw [Function.update_self, exitView, if_pos rfl, view_of_used (by simp), View.mk.injEq]
    exact ⟨h1, by simp, h3, h4, h5⟩
  · rw [Function.update_of_ne hq, hd, exitView, if_neg hq, exitingView, if_neg hq, if_pos (by simp)]

end Kernel

end Threads

end OperatingSystems

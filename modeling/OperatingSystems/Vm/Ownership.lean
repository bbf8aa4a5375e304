import OperatingSystems.Vm.Forking
import OperatingSystems.Vm.Layout
import OperatingSystems.Vm.Replacing
import OperatingSystems.Vm.System

/-!
# Every frame is in one place

The kernel of `P3` has no list of what belongs to whom: `kfree` gets its frames from the kernel stack
of a process, from its page directory and page tables, and from the entries for its user pages.  The
stack of a process is not below `sz`, and `freevm` finds it because it goes up to `USERTOP`.  So frames
are neither lost nor freed twice only if every operation moves them as a whole.

* `count_places` : **the balance of an entry** of the process table and of the free list.
* `Kept` : what a step keeps; `kept_growproc`, `kept_pgflt`, `kept_fork`, `kept_exec`, `kept_exit`,
  `kept_wait`, `kept_kill` : every operation keeps it.
* `count_boot` : after the start every frame is in one place.
* `placed_of_run` : **every frame is in exactly one place**, at all times, and `wait` frees the frames of
  the process that it removes.
* `not_placed_without_stacks` : the stacks of the processors are such places.
-/

namespace OperatingSystems

namespace Vm

open Custody

variable {k k' k₁ : Kernel} {p q np : Slot} {m m' : Kmem} {d d' : Pgdir} {r s : Proc} {x f : Frame}
  {n res : ℤ}

/-! ### The balance -/

theorem Proc.frames_of_ne (h : r.state ≠ .unused) :
    r.frames = r.kstack.toList ++ r.pgdir.elim [] Pgdir.frames := if_neg h

theorem Proc.frames_of_unused (h : r.state = .unused) : r.frames = [] := if_pos h

theorem Proc.frames_congr (hstate : s.state = .unused ↔ r.state = .unused)
    (hkstack : s.kstack = r.kstack) (hpgdir : s.pgdir = r.pgdir) : s.frames = r.frames := by
  unfold Proc.frames
  rw [hkstack, hpgdir]
  exact if_congr hstate rfl rfl

/-- **The balance of an entry**: what it has got, it has not got from nowhere. -/
theorem count_places (hproc : k'.proc = Function.update k.proc q s) (x : Frame) :
    k'.places.count x + (k.kmem.freelist.count x + (k.proc q).frames.count x) =
      k.places.count x + (k'.kmem.freelist.count x + s.frames.count x) := by
  have hheld : (fun q => (k'.proc q).frames) =
      Function.update (fun q => (k.proc q).frames) q s.frames := by
    funext u
    rw [hproc]
    rcases eq_or_ne u q with rfl | hne
    · rw [Function.update_self, Function.update_self]
    · rw [Function.update_of_ne hne, Function.update_of_ne hne]
  have hbalance : (holdings (List.finRange NPROC) fun q => (k'.proc q).frames).count x +
      (k.proc q).frames.count x =
      (holdings (List.finRange NPROC) fun q => (k.proc q).frames).count x + s.frames.count x := by
    rw [hheld]
    exact count_update (List.nodup_finRange NPROC) (List.mem_finRange q) _ s.frames x
  simp only [Kernel.places, List.count_append]
  omega

/-- An entry exchanges frames with the free list. -/
theorem count_places_of_books (hproc : k'.proc = Function.update k.proc q s)
    (hbooks : k'.kmem.freelist.count x + s.frames.count x =
      k.kmem.freelist.count x + (k.proc q).frames.count x) :
    k'.places.count x = k.places.count x := by
  have := count_places hproc x
  omega

/-- No process has a heap that goes beyond the user address space. -/
def Kernel.Fits (k : Kernel) : Prop := ∀ q, (k.proc q).sz ≤ USERTOP

/-- The process `p` is in the table, and no frame is in two places. -/
structure Ready (k : Kernel) (p : Slot) : Prop where
  fits : k.Fits
  nodup : k.places.Nodup
  inUse : (k.proc p).state ≠ .unused

/-- What a step by the process `p` keeps: every frame is in as many places as before. -/
structure Kept (k : Kernel) (p : Slot) (k' : Kernel) : Prop extends Ready k' p where
  books : ∀ x, k'.places.count x = k.places.count x

namespace Ready

theorem nodup_freelist (h : Ready k p) : k.kmem.freelist.Nodup := (List.nodup_append'.1 h.nodup).1

theorem kept_of_books (h : Ready k p) (hfits : k'.Fits) (hinUse : (k'.proc p).state ≠ .unused)
    (hbooks : ∀ x, k'.places.count x = k.places.count x) : Kept k p k' where
  fits := hfits
  nodup := by
    refine List.nodup_iff_count_le_one.2 fun x => ?_
    rw [hbooks]
    exact List.nodup_iff_count_le_one.1 h.nodup x
  inUse := hinUse
  books := hbooks

theorem refl (h : Ready k p) : Kept k p k := h.kept_of_books h.fits h.inUse fun _ => rfl

/-- One entry changes, and exchanges frames with the free list. -/
theorem update (h : Ready k p) (hproc : k'.proc = Function.update k.proc q s) (hsz : s.sz ≤ USERTOP)
    (hinUse : q = p → s.state ≠ .unused)
    (hbooks : ∀ x, k'.kmem.freelist.count x + s.frames.count x =
      k.kmem.freelist.count x + (k.proc q).frames.count x) : Kept k p k' := by
  refine h.kept_of_books (fun u => ?_) ?_ fun x => ?_
  · rw [hproc]
    rcases eq_or_ne u q with rfl | hne
    · rwa [Function.update_self]
    · rw [Function.update_of_ne hne]
      exact h.fits u
  · rw [hproc]
    rcases eq_or_ne p q with rfl | hne
    · rw [Function.update_self]
      exact hinUse rfl
    · rw [Function.update_of_ne hne]
      exact h.inUse
  · exact count_places_of_books hproc (hbooks x)

/-- No frame moves. -/
theorem congr (h : Ready k p) (hfree : k'.kmem.freelist = k.kmem.freelist)
    (hsz : ∀ q, (k'.proc q).sz = (k.proc q).sz) (hinUse : (k'.proc p).state ≠ .unused)
    (hframes : ∀ q, (k'.proc q).frames = (k.proc q).frames) : Kept k p k' := by
  refine h.kept_of_books (fun q => (hsz q).trans_le (h.fits q)) hinUse fun x => ?_
  rw [Kernel.places, hfree, holdings_congr fun q _ => hframes q, Kernel.places]

/-- The process changes its user pages. -/
theorem update_self (h : Ready k p) (hproc : k'.proc = Function.update k.proc p s)
    (hsz : s.sz ≤ USERTOP) (hstate : s.state = (k.proc p).state)
    (hkstack : s.kstack = (k.proc p).kstack) (hpgdir : (k.proc p).pgdir = some d)
    (hpgdir' : s.pgdir = some d')
    (hbooks : ∀ x, k'.kmem.freelist.count x + d'.frames.count x =
      k.kmem.freelist.count x + d.frames.count x) : Kept k p k' := by
  have hs : s.state ≠ .unused := hstate ▸ h.inUse
  refine h.update hproc hsz (fun _ => hs) fun x => ?_
  rw [Proc.frames_of_ne hs, Proc.frames_of_ne h.inUse, hkstack, hpgdir, hpgdir']
  have := hbooks x
  simp only [List.count_append, Option.elim_some]
  omega

end Ready

theorem Kept.trans (h : Kept k p k₁) (h' : Kept k₁ p k') : Kept k p k' :=
  ⟨h'.toReady, fun x => (h'.books x).trans (h.books x)⟩

/-! ### Heap and stack -/

/-- Two changes of one entry. -/
theorem setProc_setProc (k : Kernel) (p : Slot) (g h : Proc → Proc) :
    (k.setProc p g).setProc p h = k.setProc p fun r => h (g r) := by
  simp [Kernel.setProc]

/-- Growing and shrinking the heap moves frames between it and the free list. -/
theorem growprocSize_books {sz' : Option ℕ} (hsz : (k.proc p).sz ≤ USERTOP)
    (h : k.growprocSize p d n = some (m, d', sz')) :
    (∀ x, m.freelist.count x + d'.frames.count x =
      k.kmem.freelist.count x + d.frames.count x) ∧ ∀ sz, sz' = some sz → sz ≤ USERTOP := by
  have hshrunk := count_deallocuvm hsz (toUint ((k.proc p).sz + n)) k.kmem d
  unfold Kernel.growprocSize at h
  dsimp only at h
  split_ifs at h with hpos hlarge hneg hzero
  · cases h
    exact ⟨fun _ => rfl, nofun⟩
  · obtain ⟨⟨m₁, d₁, sz₁⟩, halloc, h⟩ := Option.map_eq_some_iff.1 h
    cases h
    refine ⟨count_allocuvm halloc, fun sz hsome => ?_⟩
    split_ifs at hsome with hzero
    cases hsome
    obtain ⟨-, hle, rfl⟩ := Kernel.allocuvm_size halloc hzero
    exact max_le hsz hle
  · -- the new size is `0`, which `growproc` takes for an error
    cases h
    exact ⟨hshrunk, nofun⟩
  · cases h
    refine ⟨hshrunk, fun sz hsome => ?_⟩
    cases hsome
    exact (Kernel.deallocuvm_size ..).trans hsz
  · cases h
    refine ⟨fun _ => rfl, fun sz hsome => ?_⟩
    cases hsome
    exact hsz

theorem kept_growproc (h : Ready k p) (hg : k.growproc p n = some (k', res)) : Kept k p k' := by
  cases hpgdir : (k.proc p).pgdir with
  | none =>
    rw [Kernel.growproc, hpgdir] at hg
    cases hg
  | some d =>
    rw [growproc_eq hpgdir] at hg
    obtain ⟨⟨m, d', sz'⟩, hsize, heq⟩ := Option.map_eq_some_iff.1 hg
    obtain ⟨hbooks, hle⟩ := growprocSize_books (h.fits p) hsize
    cases sz' with
    | none =>
      cases heq
      exact h.update_self rfl (h.fits p) rfl rfl hpgdir rfl hbooks
    | some sz =>
      have hk' : k' = { k with kmem := m }.setProc p fun q => { q with pgdir := some d', sz := sz } := by
        cases heq
        exact setProc_setProc ..
      subst hk'
      exact h.update_self rfl (hle sz rfl) rfl rfl hpgdir rfl hbooks

theorem kept_pgflt {err : ℕ} (h : Ready k p) (hp : k.pgflt p err = some k') : Kept k p k' := by
  unfold Kernel.pgflt at hp
  split_ifs at hp with hstack hread
  · cases hpgdir : (k.proc p).pgdir with
    | none =>
      rw [hpgdir] at hp
      cases hp
    | some d =>
      rw [hpgdir] at hp
      obtain ⟨⟨m, d', result⟩, halloc, heq⟩ := Option.map_eq_some_iff.1 hp
      cases heq
      exact h.update_self rfl (h.fits p) rfl rfl hpgdir rfl fun x => count_allocuvm halloc x
  · cases hp
    exact h.update (q := p) rfl (h.fits p) (fun _ => h.inUse) fun _ => rfl
  · cases hp
    exact h.refl

/-! ### New processes -/

/-- A page directory of the kernel is made of free frames. -/
theorem count_setupkvm (h : setupkvm m = (some d, m')) (x : Frame) :
    m'.freelist.count x + d.frames.count x = m.freelist.count x := by
  have hsetup : (setupkvm m).1.isSome := by
    rw [h]
    rfl
  obtain ⟨m₁, d₁, hsome, howned, -⟩ := setupkvm_owned (kernelFrames_le hsetup)
  rw [h] at hsome
  cases hsome
  exact howned.books x

/-- So is a copy of an address space.  Without memory for all of its pages, its frames are free again. -/
theorem count_copyuvm {ss sz : ℕ} {copy : Option Pgdir} (hsetup : (setupkvm m).1.isSome)
    (hsz : sz ≤ USERTOP) (h : copyuvm ss m d sz = some (m', copy)) (x : Frame) :
    m'.freelist.count x + (copy.elim [] Pgdir.frames).count x = m.freelist.count x := by
  obtain ⟨d₀, hd₀⟩ := Option.isSome_iff_exists.1 hsetup
  have hpair : setupkvm m = (some d₀, (setupkvm m).2) := Prod.ext hd₀ rfl
  have hnew := count_setupkvm hpair x
  rw [copyuvm_eq hpair] at h
  obtain ⟨⟨ok₂, m₂, d₂⟩, hloops, h⟩ := Option.map_eq_some_iff.1 h
  obtain ⟨⟨ok₁, m₁, d₁⟩, hheap, hstack⟩ := Option.bind_eq_some_iff.1 hloops
  have hbooks₁ := count_copyLoop hsz hheap x
  have hbooks₂ : m₂.freelist.count x + d₂.frames.count x =
      m₁.freelist.count x + d₁.frames.count x := by
    -- without memory the copy is freed again
    dsimp only at hstack
    split_ifs at hstack
    · exact count_copyLoop le_rfl hstack x
    · cases hstack
      rfl
  dsimp only at h
  split_ifs at h
  · cases h
    rw [Option.elim_some]
    omega
  · cases h
    rw [Option.elim_none, List.count_nil, count_freevm]
    omega

/-- An `allocproc` that fails changes at most an entry that is not in use. -/
theorem allocproc_eq_none (h : k.allocproc = (k₁, none)) : k₁ = k ∨ k₁.kmem = k.kmem ∧
    ∃ np s, (k.proc np).state = .unused ∧ k₁.proc = Function.update k.proc np s ∧
      s.state = .unused ∧ s.sz = (k.proc np).sz := by
  unfold Kernel.allocproc at h
  split at h
  · cases h
    exact Or.inl rfl
  · next np hfind =>
    dsimp only at h
    split at h
    · cases h
      refine Or.inr ⟨rfl, np, _, Kernel.state_of_findUnused hfind, Function.update_idem .., rfl, ?_⟩
      simp
    · cases h

/-- One that succeeds gives a free frame to such an entry. -/
theorem allocproc_eq_some (h : k.allocproc = (k₁, some np)) : (k.proc np).state = .unused ∧
    ∃ f s, kalloc k.kmem = some (f, k₁.kmem) ∧ k₁.proc = Function.update k.proc np s ∧
      s.kstack = some f ∧ s.sz = (k.proc np).sz := by
  unfold Kernel.allocproc at h
  split at h
  · cases h
  · next hfind =>
    dsimp only at h
    split at h
    · cases h
    · next f m halloc =>
      cases h
      refine ⟨Kernel.state_of_findUnused hfind, f, _, halloc, Function.update_idem .., rfl, ?_⟩
      simp

/-- The frames of the copy go to the child, or back to the free list with its kernel stack. -/
theorem forkCopy_eq_some (h : k.forkCopy p np = some (k', res)) (hkstack : (k.proc np).kstack = some f) :
    ∃ d m copy s, (k.proc p).pgdir = some d ∧
      copyuvm (k.proc p).ss k.kmem d (k.proc p).sz = some (m, copy) ∧
      k'.proc = Function.update k.proc np s ∧
      (s.sz = (k.proc np).sz ∨ s.sz = (k.proc p).sz) ∧
      ∀ x, k'.kmem.freelist.count x + s.frames.count x =
        m.freelist.count x + (copy.elim [] Pgdir.frames).count x + [f].count x := by
  unfold Kernel.forkCopy at h
  split at h
  · cases h
  · next d hpgdir =>
    obtain ⟨⟨m, copy⟩, hcopy, heq⟩ := Option.map_eq_some_iff.1 h
    cases copy with
    | none =>
      cases heq
      refine ⟨d, m, none, _, hpgdir, hcopy, rfl, Or.inl rfl, fun x => ?_⟩
      rw [Proc.frames_of_unused rfl]
      simp only [hkstack, Kernel.setProc, kfree, List.count_cons, List.count_nil, Option.elim_none]
      omega
    | some d' =>
      cases heq
      refine ⟨d, m, some d', _, hpgdir, hcopy, rfl, Or.inr rfl, fun x => ?_⟩
      rw [Proc.frames_of_ne (show ProcState.runnable ≠ .unused by decide)]
      simp only [hkstack, Kernel.setProc, Option.toList_some, Option.elim_some, List.count_append]
      omega

theorem kept_fork (h : Ready k p)
    (hsup : ∀ k₁ np, k.allocproc = (k₁, some np) → (setupkvm k₁.kmem).1.isSome)
    (hf : k.fork p = some (k', res)) : Kept k p k' := by
  unfold Kernel.fork at hf
  split at hf
  · next k₁ halloc =>
    cases hf
    obtain rfl | ⟨hkmem, np, s, hunused, hproc, hstate, hsz⟩ := allocproc_eq_none halloc
    · exact h.refl
    · refine h.update hproc (hsz.trans_le (h.fits np)) (fun heq => ?_) fun x => ?_
      · exact absurd hunused (heq ▸ h.inUse)
      · rw [hkmem, Proc.frames_of_unused hstate, Proc.frames_of_unused hunused]
  · next k₁ np halloc =>
    obtain ⟨hunused, f, s, hkalloc, hproc, hkstack, hsz⟩ := allocproc_eq_some halloc
    -- the parent is another entry than the child
    have hne : p ≠ np := by
      rintro rfl
      exact h.inUse hunused
    have hparent : k₁.proc p = k.proc p := by rw [hproc, Function.update_of_ne hne]
    have hchild : k₁.proc np = s := by rw [hproc, Function.update_self]
    obtain ⟨d, m, copy, s', -, hcopy, hproc', hsz', hframes⟩ :=
      forkCopy_eq_some hf (hchild ▸ hkstack)
    rw [hproc, Function.update_idem] at hproc'
    rw [hparent, hchild, hsz] at hsz'
    rw [hparent] at hcopy
    have hcopied := count_copyuvm (hsup k₁ np halloc) (h.fits p) hcopy
    refine h.update hproc' ?_ (fun heq => absurd heq.symm hne) fun x => ?_
    · obtain hsz' | hsz' := hsz'
      · exact hsz'.trans_le (h.fits np)
      · exact hsz'.trans_le (h.fits p)
    · rw [hframes, hcopied, count_kalloc hkalloc, Proc.frames_of_unused hunused]
      rfl

/-! ### `exec` -/

/-- `exec` frees the address space that it does not keep: the new one if it fails, else the old one. -/
theorem exec_books {q q' : Task} {path : List UInt8} {ip : Option Inode} {argv : List Arg}
    (hnodup : m.freelist.Nodup)
    (hsup : ∀ f, ip = some f → f.IsElf → (setupkvm m).1.isSome)
    (h : exec m q path ip argv = .ok (m', q', res)) :
    (∀ x, m'.freelist.count x + q'.pgdir.frames.count x =
      m.freelist.count x + q.pgdir.frames.count x) ∧ (q'.sz = q.sz ∨ q'.sz ≤ USERTOP) := by
  unfold exec at h
  split at h
  · cases h
    exact ⟨fun _ => rfl, Or.inl rfl⟩
  · next f =>
    split_ifs at h with helf
    · -- the new address space is built while the old one is kept
      obtain ⟨m₁, d₁, hsetup, ho, hheap, hlength⟩ :=
        setupkvm_owned (kernelFrames_le (hsup f rfl helf))
      have hbuild := buildImage_follows hnodup ⟨ho, hheap, hlength⟩ q.sz q.ss f argv
      rw [hsetup] at h
      dsimp only at h
      generalize imageFate q.sz q.ss _ f argv = fate at hbuild
      cases fate with
      | stops =>
        obtain ⟨e, he⟩ := hbuild
        rw [he] at h
        cases h
      | givesUp =>
        -- `goto bad`
        obtain ⟨⟨m₂, d₂⟩, hbad, ho₂⟩ := hbuild
        rw [hbad] at h
        cases h
        refine ⟨fun x => ?_, Or.inl rfl⟩
        rw [ho₂.freevm.1]
      | goesOn b =>
        obtain ⟨⟨m₂, d₂⟩, ⟨sz, sp⟩, hgood, rfl, ho₂, hstacked⟩ := hbuild
        rw [hgood] at h
        cases h
        -- the old one is freed
        refine ⟨fun x => ?_, Or.inr (hstacked.sz_le.trans (Nat.sub_le _ _))⟩
        have hbooks := ho₂.books x
        dsimp only at hbooks ⊢
        rw [count_freevm]
        omega
    · cases h
      exact ⟨fun _ => rfl, Or.inl rfl⟩

theorem kept_exec {path : List UInt8} {ip : Option Inode} {argv : List Arg} (h : Ready k p)
    (hsup : ∀ f, ip = some f → f.IsElf → (setupkvm k.kmem).1.isSome)
    (he : k.exec p path ip argv = some (k', res)) : Kept k p k' := by
  unfold Kernel.exec at he
  split at he
  · cases he
  · next d hpgdir =>
    split at he
    · cases he
    · next m q r hexec =>
      cases he
      obtain ⟨hbooks, hsz⟩ := exec_books h.nodup_freelist hsup hexec
      refine h.update_self rfl ?_ rfl rfl hpgdir rfl hbooks
      obtain hsz | hsz := hsz
      · exact hsz.trans_le (h.fits p)
      · exact hsz

/-! ### The end of a process -/

/-- A process that exits keeps its frames, and so do all others. -/
theorem exit_same (he : k.exit p = some k') (hp : (k.proc p).state ≠ .unused) :
    k'.kmem = k.kmem ∧ ∀ q, (k'.proc q).sz = (k.proc q).sz ∧
      ((k'.proc q).state = .unused ↔ (k.proc q).state = .unused) ∧
      (k'.proc q).frames = (k.proc q).frames := by
  unfold Kernel.exit at he
  split_ifs at he with hinit
  cases he
  refine ⟨rfl, fun q => ?_⟩
  rcases eq_or_ne q p with rfl | hne
  · rw [Kernel.setProc_self]
    have hzombie : ProcState.zombie = .unused ↔ (k.proc q).state = .unused :=
      iff_of_false (by decide) hp
    dsimp only
    split_ifs
    · exact ⟨rfl, iff_of_false id hp, Proc.frames_congr hzombie rfl rfl⟩
    · exact ⟨rfl, iff_of_false id hp, Proc.frames_congr hzombie rfl rfl⟩
  · rw [Kernel.setProc_of_ne _ hne]
    dsimp only
    split_ifs
    · exact ⟨rfl, Iff.rfl, rfl⟩
    · exact ⟨rfl, Iff.rfl, rfl⟩

theorem kept_exit (h : Ready k p) (he : k.exit p = some k') : Kept k p k' := by
  obtain ⟨hkmem, hsame⟩ := exit_same he h.inUse
  refine h.congr (congrArg Kmem.freelist hkmem) (fun q => (hsame q).1) ?_ fun q => (hsame q).2.2
  exact mt (hsame p).2.1.1 h.inUse

theorem kept_exitIfKilled (h : Ready k p) (he : k.exitIfKilled p = some k') : Kept k p k' := by
  unfold Kernel.exitIfKilled at he
  split_ifs at he
  · exact kept_exit h he
  · cases he
    exact h.refl

/-- `wait` frees all frames of a zombie, or does nothing. -/
theorem wait_eq_some (h : k.wait p = some (k', res)) : k' = k ∨
    ∃ q s, (k.proc q).state = .zombie ∧ k'.proc = Function.update k.proc q s ∧
      s.state = .unused ∧ s.sz = (k.proc q).sz ∧
      ∀ x, k'.kmem.freelist.count x = k.kmem.freelist.count x + (k.proc q).frames.count x := by
  unfold Kernel.wait at h
  split at h
  · cases h
    exact Or.inl rfl
  · next q hfind =>
    have hzombie : (k.proc q).state = .zombie := by
      have := List.find?_some hfind
      simp only [Bool.and_eq_true, decide_eq_true_eq] at this
      exact this.2
    split at h
    · next f d hkstack hpgdir =>
      cases h
      refine Or.inr ⟨q, _, hzombie, rfl, rfl, rfl, fun x => ?_⟩
      rw [Proc.frames_of_ne (by rw [hzombie]; decide), hkstack, hpgdir]
      have hfreed := count_freevm (kfree k.kmem f) d x
      simp only [kfree, List.count_cons] at hfreed
      simp only [Kernel.setProc, Option.toList_some, Option.elim_some, List.count_append,
        List.count_cons, List.count_nil, kfree]
      omega
    · cases h

theorem kept_wait (h : Ready k p) (halive : (k.proc p).alive) (hw : k.wait p = some (k', res)) :
    Kept k p k' := by
  obtain rfl | ⟨q, s, hzombie, hproc, hunused, hsz, hbooks⟩ := wait_eq_some hw
  · exact h.refl
  · refine h.update hproc (hsz.trans_le (h.fits q)) (fun heq => ?_) fun x => ?_
    · subst heq
      rw [Proc.alive, hzombie] at halive
      cases halive
    · rw [hbooks, Proc.frames_of_unused hunused]
      rfl

theorem kept_kill (h : Ready k p) (pid : ℕ) : Kept k p (k.kill pid).1 := by
  unfold Kernel.kill
  split
  · exact h.refl
  · next q hfind =>
    -- a process that slept can run, and the others are where they were
    have hstate : (if (k.proc q).state = .sleeping then ProcState.runnable else (k.proc q).state) =
        .unused ↔ (k.proc q).state = .unused := by
      split_ifs with hsleep
      · exact iff_of_false nofun (hsleep ▸ nofun)
      · exact Iff.rfl
    refine h.update (q := q) rfl (h.fits q) (fun heq => ?_) fun x => ?_
    · exact mt hstate.1 (heq ▸ h.inUse)
    · refine congrArg (fun fs : List Frame => k.kmem.freelist.count x + fs.count x) ?_
      exact Proc.frames_congr hstate rfl rfl

/-! ### All operations -/

theorem kept_trapSyscall {call : Kernel → Option (Kernel × ℤ)} (h : Ready k p)
    (ht : k.trapSyscall p call = some k')
    (hcall : (k.proc p).killed = false → ∀ k₁ r, call k = some (k₁, r) → Kept k p k₁) :
    Kept k p k' := by
  unfold Kernel.trapSyscall at ht
  split_ifs at ht with hkilled
  · exact kept_exit h ht
  · obtain ⟨⟨k₁, r⟩, hc, ht⟩ := Option.bind_eq_some_iff.1 ht
    have h₁ := hcall (Bool.eq_false_iff.2 hkilled) k₁ r hc
    exact h₁.trans (kept_exitIfKilled h₁.toReady ht)

/-- A process that is alive is in the table. -/
theorem inUse_of_alive (h : (k.proc p).alive) : (k.proc p).state ≠ .unused := by
  intro hunused
  rw [Proc.alive, hunused] at h
  cases h

/-- **Every operation** leaves every frame in as many places as it was in. -/
theorem kept_of_next {op : Op} (hfits : k.Fits) (hnodup : k.places.Nodup) (hsup : k.Supplied op)
    (h : system.next k op = some k') : k'.Fits ∧ ∀ x, k'.places.count x = k.places.count x := by
  cases op with
  | call c =>
    replace h : (if (k.proc c.slot).alive then k.perform c else none) = some k' := h
    split_ifs at h with halive
    have hready : Ready k c.slot := ⟨hfits, hnodup, inUse_of_alive halive⟩
    have hkept : Kept k c.slot k' := by
      cases c with
      | growproc p n =>
        unfold Kernel.perform at h
        dsimp only at h
        split_ifs at h with hn
        exact kept_trapSyscall hready h fun _ k₁ r hc => kept_growproc hready hc
      | fork p =>
        replace h : k.trapSyscall p (fun k => k.fork p) = some k' := h
        exact kept_trapSyscall hready h fun hk k₁ r hc => kept_fork hready (hsup hk) hc
      | exit p => exact kept_exit hready h
      | wait p =>
        replace h : k.trapSyscall p (fun k => k.wait p) = some k' := h
        exact kept_trapSyscall hready h fun _ k₁ r hc => kept_wait hready halive hc
      | kill p pid =>
        replace h : k.trapSyscall p (fun k => some (k.kill pid)) = some k' := h
        refine kept_trapSyscall hready h fun _ k₁ r hc => ?_
        have := kept_kill hready pid
        rwa [Option.some.inj hc] at this
      | pgflt p err =>
        obtain ⟨k₁, hp, h⟩ := Option.bind_eq_some_iff.1 h
        have h₁ := kept_pgflt hready hp
        exact h₁.trans (kept_exitIfKilled h₁.toReady h)
    exact ⟨hkept.fits, hkept.books⟩
  | exec p path ip argv =>
    replace h : (if (k.proc p).alive then k.trapSyscall p fun k => k.exec p path ip argv else none) =
      some k' := h
    split_ifs at h with halive
    have hready : Ready k p := ⟨hfits, hnodup, inUse_of_alive halive⟩
    have hkept : Kept k p k' := by
      refine kept_trapSyscall hready h fun hk k₁ r hc => kept_exec hready (fun f hf helf => ?_) hc
      subst hf
      exact hsup hk helf
    exact ⟨hkept.fits, hkept.books⟩

/-- **`wait` frees the frames** of the process that it removes. -/
theorem reaps (k : Kernel) : k.Reaps := by
  intro p q k' h hq hq'
  refine ⟨?_, Proc.frames_of_unused hq'⟩
  replace h : (if (k.proc p).alive then k.trapSyscall p fun k => k.wait p else none) = some k' := h
  split_ifs at h with halive
  have hp := inUse_of_alive halive
  unfold Kernel.trapSyscall at h
  split_ifs at h with hkilled
  · -- the process exits instead
    exact absurd (((exit_same h hp).2 q).2.1.1 hq') hq
  · obtain ⟨⟨k₁, r⟩, hw, h⟩ := Option.bind_eq_some_iff.1 h
    have hsame : (k₁.proc p).state ≠ .unused → k'.kmem = k₁.kmem ∧
        ((k'.proc q).state = .unused ↔ (k₁.proc q).state = .unused) := by
      intro hp₁
      replace h : k₁.exitIfKilled p = some k' := h
      unfold Kernel.exitIfKilled at h
      split_ifs at h
      · exact ⟨(exit_same h hp₁).1, ((exit_same h hp₁).2 q).2.1⟩
      · cases h
        exact ⟨rfl, Iff.rfl⟩
    obtain rfl | ⟨u, s, hzombie, hproc, hunused, -, hbooks⟩ := wait_eq_some hw
    · exact absurd ((hsame hp).2.1 hq') hq
    · have hpu : p ≠ u := by
        rintro rfl
        rw [Proc.alive, hzombie] at halive
        cases halive
      obtain ⟨hkmem, hstate⟩ := hsame (by rwa [hproc, Function.update_of_ne hpu])
      -- `wait` removes only one entry
      obtain rfl : q = u := by
        by_contra hne
        rw [hproc, Function.update_of_ne hne] at hstate
        exact hq (hstate.1 hq')
      intro x hx
      have := hbooks x
      have := List.count_pos_iff.2 hx
      rw [hkmem]
      exact List.count_pos_iff.1 (by omega)

/-! ### The start -/

theorem nodup_physical (first : Frame) : (physical first).Nodup := List.nodup_range'

theorem count_kinit (first : Frame) (page : Frame → Page) (x : Frame) :
    (kinit first page).freelist.count x = (physical first).count x := by
  rw [kinit, foldl_kfree_freelist, List.append_nil, List.count_reverse]

theorem count_kvmalloc (h : kvmalloc m = some (d, m')) (x : Frame) :
    m'.freelist.count x + d.frames.count x = m.freelist.count x := by
  unfold kvmalloc at h
  split at h
  · cases h
  · next hsetup =>
    cases h
    exact count_setupkvm hsetup x

theorem count_bootothers {others : ℕ} {rest : List Frame} (h : bootothers others m = some (rest, m'))
    (x : Frame) : m'.freelist.count x + rest.count x = m.freelist.count x := by
  induction others generalizing m rest with
  | zero =>
    cases h
    rfl
  | succ others ih =>
    obtain ⟨⟨stack, m₁⟩, hstack, h⟩ := Option.bind_eq_some_iff.1 h
    obtain ⟨⟨rest₁, m₂⟩, hrest, h⟩ := Option.map_eq_some_iff.1 h
    cases h
    have hfirst := count_kalloc hstack x
    have hothers := ih hrest
    simp only [List.count_cons, List.count_nil] at *
    omega

theorem count_inituvm {init : Bytes} {sz : ℕ} (h : inituvm m d init sz = some (m', d'))
    (x : Frame) : m'.freelist.count x + d'.frames.count x = m.freelist.count x + d.frames.count x := by
  unfold inituvm at h
  split_ifs at h
  obtain ⟨⟨mem, m₁⟩, hmem, h⟩ := Option.bind_eq_some_iff.1 h
  obtain ⟨d₁, hmap, h⟩ := Option.map_eq_some_iff.1 h
  cases h
  exact count_mappages (by decide) hmem hmap (fun _ => 0) x

/-- The first process gets its frames from the free list. -/
theorem count_userinit {init : Bytes} {sz : ℕ} (hfits : k.Fits) (h : userinit k init sz = some k') :
    k'.Fits ∧ ∀ x, k'.places.count x = k.places.count x := by
  unfold userinit at h
  split at h
  · cases h
  · next k₁ p halloc =>
    obtain ⟨hunused, f, s, hkalloc, hproc, hkstack, -⟩ := allocproc_eq_some halloc
    split at h
    · cases h
    · next d m hsetup =>
      obtain ⟨⟨m', d'⟩, hinit, heq⟩ := Option.map_eq_some_iff.1 h
      cases heq
      have hproc' : ∀ r, Function.update k₁.proc p r = Function.update k.proc p r := by
        intro r
        rw [hproc, Function.update_idem]
      refine ⟨fun q => ?_, fun x => ?_⟩
      · rcases eq_or_ne q p with rfl | hne
        · rw [Kernel.setProc_self]
          exact show PGSIZE ≤ USERTOP by decide
        · rw [Kernel.setProc_of_ne _ hne]
          dsimp only
          rw [hproc, Function.update_of_ne hne]
          exact hfits q
      · refine count_places_of_books (k := k) (q := p) (hproc' _) ?_
        have hstack := count_kalloc hkalloc x
        have hnew := count_setupkvm hsetup x
        have hpage := count_inituvm hinit x
        have hchild : k₁.proc p = s := by rw [hproc, Function.update_self]
        rw [Proc.frames_of_unused hunused,
          Proc.frames_of_ne (show ProcState.runnable ≠ .unused by decide)]
        simp only [Kernel.setProc, hchild, hkstack, Option.toList_some, Option.elim_some,
          List.count_append, List.count_nil]
        omega

/-- **After the start** every frame is in one place. -/
theorem count_boot {first : Frame} {others sz : ℕ} {page : Frame → Page} {init : Bytes} {b : Boot}
    (h : boot first others page init sz = some b) :
    b.kernel.Fits ∧ ∀ x, (b.places b.kernel).count x = (physical first).count x := by
  obtain ⟨⟨kstack, m₁⟩, hjmp, h⟩ := Option.bind_eq_some_iff.1 h
  obtain ⟨⟨kpgdir, m₂⟩, hkvm, h⟩ := Option.bind_eq_some_iff.1 h
  obtain ⟨⟨rest, m₃⟩, hothers, h⟩ := Option.bind_eq_some_iff.1 h
  obtain ⟨k, huser, heq⟩ := Option.map_eq_some_iff.1 h
  cases heq
  obtain ⟨hfits, hbooks⟩ := count_userinit (fun _ => Nat.zero_le _) huser
  refine ⟨hfits, fun x => ?_⟩
  -- there are no processes yet
  have hnone : (holdings (List.finRange NPROC) fun _ => Proc.zero.frames) = [] :=
    List.flatMap_eq_nil_iff.2 fun _ _ => rfl
  have hstart : (Kernel.mk m₃ (fun _ => .zero) 1).places = m₃.freelist := by
    rw [Kernel.places, hnone, List.append_nil]
  have hx := hbooks x
  rw [hstart] at hx
  have h₁ := count_kalloc hjmp x
  have h₂ := count_kvmalloc hkvm x
  have h₃ := count_bootothers hothers x
  rw [count_kinit] at h₁
  simp only [Boot.places, List.count_append, List.count_cons, List.count_nil] at *
  omega

/-! ### All runs -/

/-- **Every frame is in exactly one place.**  However many processors there are and whatever the memory
holds before the start, in every state of every run in which `setupkvm` gets its frames, every frame behind
the kernel is once on the free list, in a process, in `kpgdir` or the stack of a processor; and when
`wait` removes a process, all its frames are free. -/
theorem placed_of_run {first : Frame} {others sz : ℕ} {page : Frame → Page} {init : Bytes} {b : Boot}
    {ops : List Op} (hboot : boot first others page init sz = some b)
    (hsup : system.Allowed Kernel.Supplied b.kernel ops) :
    system.Always (fun k => b.Placed first k ∧ k.Reaps) b.kernel ops := by
  refine hsup.always (I := fun k => k.Fits ∧ ∀ x, (b.places k).count x = (physical first).count x)
    (count_boot hboot) ?_ fun k hk => ⟨fun x hx => ?_, reaps k⟩
  · rintro k op k' ⟨hfits, hbooks⟩ hs hnext
    have hnodup : (b.places k).Nodup := by
      refine List.nodup_iff_count_le_one.2 fun x => ?_
      rw [hbooks]
      exact List.nodup_iff_count_le_one.1 (nodup_physical first) x
    -- in particular no frame is in two places that `kfree` gets its frames from
    have hplaces := (List.nodup_append'.1 (List.nodup_append'.1 hnodup).2.1).2.1
    obtain ⟨hfits', hsame⟩ := kept_of_next hfits hplaces hs hnext
    refine ⟨hfits', fun x => ?_⟩
    rw [← hbooks, Boot.places, Boot.places, List.count_append, List.count_append, hsame,
      ← List.count_append, ← List.count_append]
  · rw [hk.2]
    exact List.count_eq_one_of_mem (nodup_physical first) hx

/-- The stack of a processor is on no other list. -/
theorem count_of_mem_cpuStacks {first : Frame} {others sz : ℕ} {page : Frame → Page} {init : Bytes}
    {b : Boot} (hboot : boot first others page init sz = some b) (hx : x ∈ b.cpuStacks) :
    x ∈ physical first ∧ (b.kpgdir.frames ++ b.kernel.places).count x = 0 := by
  have hbooks := (count_boot hboot).2 x
  have hone := List.nodup_iff_count_le_one.1 (nodup_physical first) x
  have hpos := List.count_pos_iff.2 hx
  rw [Boot.places, List.count_append] at hbooks
  exact ⟨List.count_pos_iff.1 (by omega), by omega⟩

/-- The first processor has a stack. -/
theorem exists_mem_cpuStacks {first : Frame} {others sz : ℕ} {page : Frame → Page} {init : Bytes}
    {b : Boot} (hboot : boot first others page init sz = some b) : ∃ x, x ∈ b.cpuStacks := by
  obtain ⟨⟨kstack, m₁⟩, -, h⟩ := Option.bind_eq_some_iff.1 hboot
  obtain ⟨⟨kpgdir, m₂⟩, -, h⟩ := Option.bind_eq_some_iff.1 h
  obtain ⟨⟨rest, m₃⟩, -, h⟩ := Option.bind_eq_some_iff.1 h
  obtain ⟨k, -, heq⟩ := Option.map_eq_some_iff.1 h
  cases heq
  exact ⟨kstack, List.mem_cons_self⟩

/-- A kernel up to frame `4000`, with one processor. -/
theorem boot_isSome : (boot 4000 0 (fun _ _ => 0) (fun _ => 0) 1).isSome := by decide +kernel

/-- The first process calls `fork`. -/
theorem placed_of_run_fork : ∃ b, boot 4000 0 (fun _ _ => 0) (fun _ => 0) 1 = some b ∧
    system.Always (fun k => b.Placed 4000 k ∧ k.Reaps) b.kernel [.call (.fork 0)] := by
  obtain ⟨b, hb⟩ := Option.isSome_iff_exists.1 boot_isSome
  have hroom : (boot 4000 0 (fun _ _ => 0) (fun _ => 0) 1).map
      (fun b => (setupkvm b.kernel.allocproc.1.kmem).1.isSome) = some true := by decide +kernel
  rw [hb, Option.map_some, Option.some.injEq] at hroom
  refine ⟨b, hb, placed_of_run hb ⟨fun _ k₁ np halloc => ?_, fun _ _ => trivial⟩⟩
  rwa [halloc] at hroom

/-- **The stacks of the processors** are neither free nor of a process, nor in `kpgdir`: already when the
first process is ready. -/
theorem not_placed_without_stacks : ∃ b, boot 4000 0 (fun _ _ => 0) (fun _ => 0) 1 = some b ∧
    ¬ ∀ ops, system.Allowed Kernel.Supplied b.kernel ops →
      system.Always (fun k => ∀ x ∈ physical 4000, (b.kpgdir.frames ++ k.places).count x = 1)
        b.kernel ops := by
  obtain ⟨b, hb⟩ := Option.isSome_iff_exists.1 boot_isSome
  refine ⟨b, hb, fun h => ?_⟩
  obtain ⟨x, hx⟩ := exists_mem_cpuStacks hb
  obtain ⟨hphysical, hzero⟩ := count_of_mem_cpuStacks hb hx
  have hone := h [] trivial x hphysical
  rw [hzero] at hone
  cases hone

end Vm

end OperatingSystems

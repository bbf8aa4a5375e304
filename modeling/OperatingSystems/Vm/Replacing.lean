import OperatingSystems.Vm.Pushing

/-!
# `exec` is all or nothing

Every way to `bad` frees what has been built, so that a failing `exec` changes nothing.  But the
fields of the program headers are not checked: `loaduvm` and `mappages` panic, `loaduvm` writes to
pages of the kernel, and a heap that ends at the stack is accepted.

* `Rejected` : a failure, with nothing changed; `Replaced` : a success, with the new pages.
* `imageFate` : what becomes of a file, from its headers.
* `exec_allOrNothing_iff` : **exactly when `exec` is all or nothing**, for every file, all arguments, every
  caller and every free list with room for a page directory.
* `imageFate_ne_stops` : a file whose segments are aligned and end below `USERTOP` does no harm.
* `exec_not_allOrNothing` : files that do.
-/

namespace OperatingSystems

namespace Vm

open Bytes Custody

/-- `exec` has failed: the caller, and the contents of all its frames, are what they were, and the same
frames are free. -/
structure Rejected (m : Kmem) (q : Task) (m' : Kmem) (q' : Task) : Prop where
  task : q' = q
  memory : ∀ x ∈ q.pgdir.frames, m'.page x = m.page x
  books : ∀ x, m'.freelist.count x = m.freelist.count x

/-- `exec` has succeeded: the pages are those of the heap and of the stack, with a page between them,
and no frame is lost. -/
structure Replaced (m : Kmem) (q : Task) (m' : Kmem) (q' : Task) : Prop where
  covers : q'.pgdir.Covers q'.sz q'.ss
  apart : pgroundup q'.sz + PGSIZE ≤ USERTOP - q'.ss
  books : ∀ x, m'.freelist.count x + q'.pgdir.frames.count x =
    m.freelist.count x + q.pgdir.frames.count x

/-- `exec` returns, and either it has failed or it has succeeded. -/
def AllOrNothing (m : Kmem) (q : Task) (r : Except Stop (Kmem × Task × ℤ)) : Prop :=
  ∃ m' q' n, r = .ok (m', q', n) ∧
    (n = -1 ∧ Rejected m q m' q' ∨ n = 0 ∧ Replaced m q m' q')

/-- What becomes of the new address space, with `free` free frames: its size and the stack pointer. -/
def imageFate (psz pss free : ℕ) (ip : Inode) (argv : List Arg) : Fate (ℕ × ℕ) :=
  let elf := Elfhdr.ofBytes ip.data
  (segmentsFate psz pss ip elf.phnum elf.phoff (0, free)).andThen fun x =>
    (stackFate psz pss x).andThen fun sz =>
      (argsFate sz argv).andThen fun sp => .goesOn (sz, sp)

/-- The headers do not make `exec` stop, and if it gets to the end, a whole page is free between the heap
and the stack. -/
def HarmlessFate : Fate (ℕ × ℕ) → Prop
  | .stops => False
  | .givesUp => True
  | .goesOn (sz, _) => sz ≤ USERTOP - 2 * PGSIZE

/-- The file does no harm, for the caller `q` and `free` free frames. -/
def Harmless (free : ℕ) (q : Task) (ip : Option Inode) (argv : List Arg) : Prop :=
  ∀ f, ip = some f → f.IsElf →
    HarmlessFate (imageFate q.sz q.ss (free - kernelFrames) f argv)

section

variable {m₀ m m' : Kmem} {d : Pgdir} {q q' : Task} {s : Kmem × Pgdir} {sz free : ℕ} {ip : Inode}
  {path : List UInt8} {argv : List Arg}

/-- **The new address space** follows its fate. -/
theorem buildImage_follows (hnodup : m₀.freelist.Nodup) (h : Loading m₀ 0 free s) (psz pss : ℕ)
    (ip : Inode) (argv : List Arg) :
    (buildImage psz pss ip argv s).Follows (imageFate psz pss free ip argv) (Owned m₀)
      fun b a s => a = b ∧ Owned m₀ s ∧ Stacked s.2 b.1 := by
  refine (loadSegments_follows hnodup h psz pss ip _ _).andThen ?_
  rintro ⟨sz, free'⟩ _ s ⟨rfl, hs⟩
  refine (pushStack_follows hnodup hs psz pss).andThen ?_
  rintro _ _ s ⟨rfl, ho, hs⟩
  refine (pushArgs_follows ho hs argv).andThen ?_
  rintro sp _ s ⟨rfl, ho, hs⟩
  exact Stage.Follows.goesOn ⟨rfl, ho, hs⟩

theorem Rejected.refl (m : Kmem) (q : Task) : Rejected m q m q := ⟨rfl, fun _ _ => rfl, fun _ => rfl⟩

theorem allOrNothing_neg_one : AllOrNothing m q (.ok (m', q', -1)) ↔ Rejected m q m' q' := by
  constructor
  · rintro ⟨_, _, _, h, ⟨-, hr⟩ | ⟨h0, -⟩⟩
    · cases h; exact hr
    · cases h; cases h0
  · exact fun h => ⟨m', q', -1, rfl, Or.inl ⟨rfl, h⟩⟩

theorem allOrNothing_zero : AllOrNothing m q (.ok (m', q', 0)) ↔ Replaced m q m' q' := by
  constructor
  · rintro ⟨_, _, _, h, ⟨h0, -⟩ | ⟨-, hr⟩⟩
    · cases h; cases h0
    · cases h; exact hr
  · exact fun h => ⟨m', q', 0, rfl, Or.inr ⟨rfl, h⟩⟩

theorem Owned.rejected (h : Owned m (m', d)) (hnodup : (m.freelist ++ q.pgdir.frames).Nodup) :
    Rejected m q (Vm.freevm m' d) q where
  task := rfl
  memory x hx := h.freevm.2 x fun hmem => (List.nodup_append'.1 hnodup).2.2 hmem hx
  books := h.freevm.1

/-- The end of the heap is a page away from the stack of one page. -/
theorem pgroundup_add_le_iff (h : sz ≤ USERTOP - PGSIZE) :
    pgroundup sz + PGSIZE ≤ USERTOP - PGSIZE ↔ sz ≤ USERTOP - 2 * PGSIZE := by
  rw [pgroundup_eq (h.trans (Nat.sub_le _ _))]
  simp only [USERTOP, PGSIZE]
  omega

theorem Owned.replaced_iff (h : Owned m (m', q'.pgdir)) (hs : Stacked q'.pgdir q'.sz)
    (hss : q'.ss = PGSIZE) :
    Replaced m q (Vm.freevm m' q.pgdir) q' ↔ q'.sz ≤ USERTOP - 2 * PGSIZE := by
  rw [← pgroundup_add_le_iff hs.sz_le]
  constructor
  · exact fun hr => hss ▸ hr.apart
  · refine fun hapart => ⟨hss ▸ hs.covers, hss ▸ hapart, fun x => ?_⟩
    have hbooks := h.books x
    dsimp only at hbooks
    rw [count_freevm]
    omega

/-- An ELF file. -/
theorem exec_iff_of_isElf (hnodup : (m.freelist ++ q.pgdir.frames).Nodup)
    (hfree : kernelFrames ≤ m.freelist.length) (helf : ip.IsElf) :
    AllOrNothing m q (exec m q path (some ip) argv) ↔
      HarmlessFate (imageFate q.sz q.ss (m.freelist.length - kernelFrames) ip argv) := by
  have hfreelist := (List.nodup_append'.1 hnodup).1
  obtain ⟨m₁, d₁, hsetup, ho, hheap, hlength⟩ := setupkvm_owned hfree
  have hbuild := buildImage_follows hfreelist ⟨ho, hheap, hlength⟩ q.sz q.ss ip argv
  unfold exec
  dsimp only
  rw [if_pos helf, hsetup]
  dsimp only
  generalize imageFate q.sz q.ss (m.freelist.length - kernelFrames) ip argv = fate at *
  cases fate with
  | stops =>
    obtain ⟨e, he⟩ := hbuild
    rw [he]
    refine iff_of_false ?_ id
    rintro ⟨_, _, _, h, -⟩
    cases h
  | givesUp =>
    obtain ⟨⟨m₂, d₂⟩, hs, ho₂⟩ := hbuild
    rw [hs]
    exact iff_of_true (allOrNothing_neg_one.2 (ho₂.rejected hnodup)) trivial
  | goesOn b =>
    obtain ⟨⟨m₂, d₂⟩, ⟨sz, sp⟩, hs, rfl, ho₂, hstacked⟩ := hbuild
    rw [hs]
    exact allOrNothing_zero.trans (ho₂.replaced_iff hstacked rfl)

/-! ### Files that do no harm -/

/-- A segment to load begins at a page, has no more bytes in the file than in memory, and ends a page
below `limit`, without wrapping around. -/
abbrev Proghdr.Sane (ph : Proghdr) (limit : ℕ) : Prop :=
  ph.type = ELF_PROG_LOAD → ph.va % PGSIZE = 0 ∧ ph.filesz ≤ ph.memsz ∧
    ph.va + ph.memsz + PGSIZE ≤ limit

/-- The `n` program headers from `off` on. -/
def headers (ip : Inode) : ℕ → ℕ → List Proghdr
  | 0, _ => []
  | n + 1, off =>
    Proghdr.ofBytes (slice ip.data off) :: headers ip n ((off + proghdrSize) % 2 ^ 32)

/-- Loading does not stop, and the heap ends below `limit`. -/
def EndsBelow (limit : ℕ) : Fate (ℕ × ℕ) → Prop
  | .stops => False
  | .givesUp => True
  | .goesOn (sz, _) => sz ≤ limit

theorem EndsBelow.andThen {limit : ℕ} {f : Fate (ℕ × ℕ)} {g : ℕ × ℕ → Fate (ℕ × ℕ)}
    (hf : EndsBelow limit f) (hg : ∀ x, x.1 ≤ limit → EndsBelow limit (g x)) :
    EndsBelow limit (f.andThen g) := by
  cases f with
  | stops => exact hf
  | givesUp => trivial
  | goesOn x => exact hg x hf

/-- File bytes below the size do not make `loaduvm` stop. -/
theorem pagesFate_ne_stops {ph : Proghdr} (hsz : sz < 2 ^ 32) (hle : ph.va + ph.filesz ≤ sz)
    {n i : ℕ} (hi : n ≠ 0 → i + (n - 1) * PGSIZE < ph.filesz) : pagesFate ip ph sz n i ≠ .stops := by
  induction n generalizing i with
  | zero => nofun
  | succ n ih =>
    have hi' := hi (Nat.succ_ne_zero n)
    rw [Nat.succ_sub_one] at hi'
    have hpage : (ph.va + i) % 2 ^ 32 / PGSIZE * PGSIZE < sz := by
      have hmod : (ph.va + i) % 2 ^ 32 = ph.va + i := Nat.mod_eq_of_lt (by omega)
      rw [hmod]
      exact (Nat.div_mul_le_self _ _).trans_lt (by omega)
    have hfirst : pageFate ip ph sz i ≠ .stops := by
      unfold pageFate
      dsimp only
      rw [if_pos hpage]
      split_ifs <;> nofun
    rw [pagesFate]
    cases hf : pageFate ip ph sz i with
    | stops => exact absurd hf hfirst
    | givesUp => nofun
    | goesOn =>
      refine ih fun hn => ?_
      obtain ⟨c, rfl⟩ := Nat.exists_eq_succ_of_ne_zero hn
      rw [Nat.succ_sub_one]
      rw [Nat.succ_mul] at hi'
      omega

/-- A size that is not an error reaches the end of the segment. -/
theorem le_segmentSize {psz pss newsz : ℕ} (h : segmentSize psz pss free sz newsz ≠ 0) :
    newsz ≤ segmentSize psz pss free sz newsz ∧
      segmentSize psz pss free sz newsz ≤ max sz newsz := by
  unfold segmentSize at *
  split_ifs at h ⊢ <;> first | exact absurd rfl h | omega

theorem segmentFate_below {limit off : ℕ} (hlimit : limit ≤ USERTOP)
    (hsane : (Proghdr.ofBytes (slice ip.data off)).Sane limit) (hsz : sz ≤ limit)
    (psz pss free : ℕ) :
    EndsBelow limit (segmentFate psz pss ip off (sz, free)) := by
  unfold segmentFate
  dsimp only
  generalize Proghdr.ofBytes (slice ip.data off) = ph at *
  split_ifs with hread htype hsize hzero
  · trivial
  · exact hsz
  · trivial
  · trivial
  · obtain ⟨hva, hfile, hend⟩ := hsane (not_not.1 htype)
    have hto : toUint (ph.va + ph.memsz + PGSIZE) = ph.va + ph.memsz + PGSIZE := by
      simp only [toUint, USERTOP, PGSIZE] at *
      omega
    rw [hto] at hzero ⊢
    obtain ⟨hle, hmax⟩ := le_segmentSize hzero
    generalize segmentSize psz pss free sz (ph.va + ph.memsz + PGSIZE) = newsz at *
    have hload : loadFate ip ph newsz ≠ .stops := by
      unfold loadFate
      rw [if_neg (not_not.2 hva)]
      refine pagesFate_ne_stops (by simp only [USERTOP] at *; omega) (by omega) fun hn => ?_
      have := mt heapPages_le_iff.2 (show ¬ heapPages ph.filesz ≤ heapPages ph.filesz - 1 by omega)
      omega
    generalize loadFate ip ph newsz = fate at *
    cases fate with
    | stops => exact absurd rfl hload
    | givesUp => trivial
    | goesOn => exact hmax.trans (max_le hsz hend)

theorem segmentsFate_below {limit n off : ℕ} (hlimit : limit ≤ USERTOP)
    (hsane : ∀ ph ∈ headers ip n off, ph.Sane limit) (hsz : sz ≤ limit) (psz pss free : ℕ) :
    EndsBelow limit (segmentsFate psz pss ip n off (sz, free)) := by
  induction n generalizing off sz free with
  | zero => exact hsz
  | succ n ih =>
    obtain ⟨hfirst, hrest⟩ := List.forall_mem_cons.1 hsane
    exact (segmentFate_below hlimit hfirst hsz psz pss free).andThen fun x hx => ih hrest hx x.2

/-- The arguments do not make `exec` stop. -/
theorem stringsFate_ne_stops (floor : ℕ) (argv : List Arg) (argc sp : ℕ) :
    stringsFate floor argv argc sp ≠ .stops := by
  induction argv generalizing argc sp with
  | nil => simp [stringsFate]
  | cons a argv ih =>
    rw [stringsFate, roomFate]
    split_ifs
    · simp
    · exact ih _ _
    · simp [Fate.andThen]

theorem argsFate_ne_stops (sz : ℕ) (argv : List Arg) : argsFate sz argv ≠ .stops := by
  unfold argsFate
  cases h : stringsFate (argsFloor sz) argv 0 USERTOP with
  | stops => exact absurd h (stringsFate_ne_stops _ argv _ _)
  | givesUp => nofun
  | goesOn sp =>
    rw [Fate.andThen, roomFate]
    split_ifs <;> nofun

/-- **A sane file does no harm.** -/
theorem harmless_of_sane (free : ℕ) (q : Task) (argv : List Arg)
    (hsane : ∀ ph ∈ headers ip (Elfhdr.ofBytes ip.data).phnum (Elfhdr.ofBytes ip.data).phoff,
      ph.Sane (USERTOP - 2 * PGSIZE)) :
    Harmless free q (some ip) argv := by
  rintro _ ⟨⟩ -
  have hbelow := segmentsFate_below (by decide) hsane (Nat.zero_le _) q.sz q.ss
    (free - kernelFrames)
  unfold imageFate
  dsimp only
  generalize segmentsFate q.sz q.ss ip _ _ (0, free - kernelFrames) = fate at *
  cases fate with
  | stops => exact hbelow
  | givesUp => trivial
  | goesOn x =>
    obtain ⟨sz, free'⟩ := x
    have hsz : sz ≤ USERTOP - 2 * PGSIZE := hbelow
    rw [Fate.andThen, stackFate]
    split_ifs with h1 h2 h3
    · trivial
    · trivial
    · simp only [USERTOP, PGSIZE] at *
      omega
    · rw [Fate.andThen]
      cases hargs : argsFate sz argv with
      | stops => exact absurd hargs (argsFate_ne_stops sz argv)
      | givesUp => trivial
      | goesOn sp => exact hsz

end

/-- **`exec` is all or nothing** for a caller whose frames are in use, if `kalloc` does not fail for the
page directory, if and only if the file does no harm. -/
theorem exec_allOrNothing_iff {m : Kmem} {q : Task} {path : List UInt8} {ip : Option Inode}
    {argv : List Arg} (hnodup : (m.freelist ++ q.pgdir.frames).Nodup)
    (hfree : kernelFrames ≤ m.freelist.length) :
    AllOrNothing m q (exec m q path ip argv) ↔ Harmless m.freelist.length q ip argv := by
  cases ip with
  | none => exact iff_of_true (allOrNothing_neg_one.2 (.refl m q)) nofun
  | some ip =>
    by_cases helf : ip.IsElf
    · rw [exec_iff_of_isElf hnodup hfree helf]
      exact ⟨fun h f hf _ => Option.some.inj hf ▸ h, fun h => h ip rfl helf⟩
    · refine iff_of_true ?_ fun f hf helf' => absurd (Option.some.inj hf ▸ helf') helf
      unfold exec
      dsimp only
      rw [if_neg helf]
      exact allOrNothing_neg_one.2 (.refl m q)

/-- An ELF file of `84` bytes with one segment. -/
def oneSegment (va filesz memsz : ℕ) : Inode where
  data := ofWords [ELF_MAGIC, 0, 0, 0, 0, 0, 0, elfhdrSize, 0, 0, 0, 1, 0,
    ELF_PROG_LOAD, 0, va, 0, filesz, memsz, 0, 0]
  size := 84
  size_le := by decide

/-- Two hundred free frames. -/
def freeFrames : Kmem := ⟨List.range' 20 200, fun _ _ => 0⟩

/-- A caller with one page of heap and one of stack. -/
def smallTask : Task := ⟨smallPgdir, PGSIZE, PGSIZE, 0, 0, []⟩

theorem nodup_freeFrames : (freeFrames.freelist ++ smallTask.pgdir.frames).Nodup := by
  have hfree : freeFrames.freelist.Nodup := List.nodup_range'
  have hsmall : ∀ x ∈ smallPgdir.frames, x < 20 := by decide +kernel
  have hframes := (List.nodup_append'.1 occupies_smallKernel.nodup).2.1
  rw [List.nodup_append']
  refine ⟨hfree, hframes, fun x hx hmem => ?_⟩
  have hge := List.mem_range'_1.1 hx
  exact absurd hge.1 (not_le.2 (hsmall x hmem))

theorem kernelFrames_le_freeFrames : kernelFrames ≤ freeFrames.freelist.length := by
  decide +kernel

/-- A segment of one page. -/
theorem exec_allOrNothing_page : AllOrNothing freeFrames smallTask
    (exec freeFrames smallTask [] (some (oneSegment 0 84 PGSIZE)) []) :=
  (exec_allOrNothing_iff nodup_freeFrames kernelFrames_le_freeFrames).2
    (harmless_of_sane _ _ _ (by decide +kernel))

/-- **Files that do harm**: a segment that does not begin at a page, one in the kernel whose end wraps
around, one that reaches into the stack, and one that reaches up to it. -/
theorem exec_not_allOrNothing : (freeFrames.freelist ++ smallTask.pgdir.frames).Nodup ∧
    kernelFrames ≤ freeFrames.freelist.length ∧
    ∀ ip ∈ [oneSegment 1 0 0, oneSegment 0x100000 4 (2 ^ 32 - 0x100000),
        oneSegment 0 0 (USERTOP - PGSIZE), oneSegment 0 0 (USERTOP - 2 * PGSIZE)],
      ¬ AllOrNothing freeFrames smallTask (exec freeFrames smallTask [] (some ip) []) := by
  refine ⟨nodup_freeFrames, kernelFrames_le_freeFrames, ?_⟩
  have hfate : ∀ ip ∈ [oneSegment 1 0 0, oneSegment 0x100000 4 (2 ^ 32 - 0x100000),
      oneSegment 0 0 (USERTOP - PGSIZE), oneSegment 0 0 (USERTOP - 2 * PGSIZE)],
      ip.IsElf ∧ imageFate smallTask.sz smallTask.ss (freeFrames.freelist.length - kernelFrames) ip []
        ∈ [.stops, .goesOn (USERTOP - PGSIZE, USERTOP - 16)] := by
    decide +kernel
  intro ip hip
  obtain ⟨helf, hfate⟩ := hfate ip hip
  rw [exec_iff_of_isElf nodup_freeFrames kernelFrames_le_freeFrames helf]
  rcases List.mem_pair.1 hfate with hstops | hgoesOn
  · rw [hstops]
    exact id
  · rw [hgoesOn]
    exact not_le.2 (show USERTOP - 2 * PGSIZE < USERTOP - PGSIZE by decide)

end Vm

end OperatingSystems

import OperatingSystems.Vm.Tables

/-!
# Copies of address spaces, on page tables

The copy of an address space in the page tables that `copyuvm` creates, for every page table of the
parent.  The copy of `Memory` says what the two loops do; here are the page directory and the page tables
that they share.

* `view` : the user pages of a page directory, as `Memory` has them.
* `Parent` : a page directory with the pages of a heap and of a stack.
* `Duplicate` : what a copy of it is.
* `copyuvm_duplicates` : **`copyuvm` returns such a copy**.
* `copyuvm_page_zero` : a stack that reaches down to page `0`.
-/

namespace OperatingSystems

namespace Vm

namespace Paging

open Bytes

variable {img : Image} {m m₁ m₂ m₁' : Kmem} {pgdir d : Frame} {d₁ d₁' : Pgdir}
  {ts : List (ℕ × Frame)} {sz ss v lo : ℕ}

/-- The user pages of a page directory. -/
def view (m : Kmem) (pgdir : Frame) : Pgdir where
  dir := pgdir
  tables := []
  pte v := (lookup m pgdir v).map fun e => ⟨e.frame, e.user⟩

theorem view_pte (m : Kmem) (pgdir : Frame) (v : ℕ) :
    (view m pgdir).pte v = (lookup m pgdir v).map fun e => ⟨e.frame, e.user⟩ := rfl

/-- The page table for the page `v`, if there is one. -/
def tableOf (m : Kmem) (pgdir : Frame) (v : ℕ) : Frame := entry m pgdir (v / 1024) / PGSIZE

theorem view_eq_some {e : Pte} (h : (view m pgdir).pte v = some e) :
    isP (entry m pgdir (v / 1024)) = true ∧ isP (entry m (tableOf m pgdir v) (v % 1024)) = true ∧
      e.frame = entry m (tableOf m pgdir v) (v % 1024) / PGSIZE := by
  obtain ⟨e', he', rfl⟩ := Option.map_eq_some_iff.1 h
  unfold lookup at he'
  dsimp only at he'
  split_ifs at he' with hp
  cases he'
  exact ⟨hp.1, hp.2, rfl⟩

/-- The page directory of the parent and the page table of its user pages are in use. -/
structure Rooted (m : Kmem) (pgdir : Frame) : Prop where
  dir : pgdir ∉ m.freelist
  table : ∀ v, v * PGSIZE < USERTOP → isP (entry m pgdir (v / 1024)) = true →
    tableOf m pgdir v ∉ m.freelist

/-- The parent is read as it was. -/
theorem Rooted.walkpgdir (hroot : Rooted m pgdir) (hpage : ∀ x, x ∉ m.freelist → m₂.page x = m.page x)
    (hv : v * PGSIZE < USERTOP) {e : Pte} (he : (view m pgdir).pte v = some e) :
    (walkpgdir m₂ pgdir (v * PGSIZE) false).1 = some (tableOf m pgdir v, v % 1024) ∧
      isP (entry m₂ (tableOf m pgdir v) (v % 1024)) = true ∧
      entry m₂ (tableOf m pgdir v) (v % 1024) / PGSIZE = e.frame := by
  obtain ⟨hpde, hpte, hframe⟩ := view_eq_some he
  have hlt : v < 2 ^ 20 := by
    simp only [PGSIZE, USERTOP] at hv
    omega
  have hdir : entry m₂ pgdir (v / 1024) = entry m pgdir (v / 1024) :=
    entry_congr (hpage pgdir hroot.dir) _
  have htable : entry m₂ (tableOf m pgdir v) (v % 1024) = entry m (tableOf m pgdir v) (v % 1024) :=
    entry_congr (hpage _ (hroot.table v hv hpde)) _
  refine ⟨?_, htable ▸ hpte, by rw [htable, hframe]⟩
  rw [Paging.walkpgdir, PDX_page hlt, PTX_page, hdir]
  simp only [hpde, if_true]
  rfl

/-- One turn of a loop of `copyuvm`. -/
theorem copyLoop_step {user0 : Bool} {i j : ℕ} {t f : Frame} {m₃ : Kmem} (hlt : i < sz)
    (hwalk : (walkpgdir m pgdir i false).1 = some (t, j)) (hp : isP (entry m t j) = true)
    (hk : kalloc m = some (f, m₁))
    (hmap : mappages (m₁.write f (m₁.page (entry m t j / PGSIZE))) d i PGSIZE (f * PGSIZE)
      (if (decide (i ≠ 0) || user0) = true then PTE_W + PTE_U else 0) = some (true, m₃)) :
    copyLoop pgdir d user0 sz i m = copyLoop pgdir d user0 sz (i + PGSIZE) m₃ := by
  have hperm : (if i ≠ 0 ∨ user0 = true then PTE_W + PTE_U else 0) =
      if (decide (i ≠ 0) || user0) = true then PTE_W + PTE_U else 0 := by
    simp only [Bool.or_eq_true, decide_eq_true_eq]
  rw [copyLoop, if_pos hlt, hwalk]
  simp only [hp, if_true, hk]
  rw [hperm, hmap, Option.bind_some]
  exact if_pos rfl

/-- **The loops of `copyuvm`** are those of `Memory`. -/
theorem copyLoop_refines {user0 ok : Bool} {i : ℕ} (hroot : Rooted m pgdir)
    (hused : ∀ v e, lo ≤ v → v * PGSIZE < sz → (view m pgdir).pte v = some e →
      e.frame ∉ m.freelist) (hsz : sz ≤ USERTOP) (hi : i = lo * PGSIZE)
    (h : Refines img m₂ ts m₁ d₁) (ht : Taken m m₂ m₁ d₁)
    (hloop : Vm.copyLoop (view m pgdir) user0 sz i m₁ d₁ = some (ok, m₁', d₁')) :
    ∃ m₂', copyLoop pgdir d₁.dir user0 sz i m₂ = some (ok, m₂') ∧ Refines img m₂' ts m₁' d₁' ∧
      Taken m m₂' m₁' d₁' ∧ d₁'.dir = d₁.dir := by
  fun_induction Vm.copyLoop (view m pgdir) user0 sz i m₁ d₁ generalizing lo m₂ with
  | case1 => cases hloop
  | case2 i m₁ d₁ hlt pte hpte hk =>
    subst hi
    cases hloop
    rw [mul_div_PGSIZE] at hpte
    obtain ⟨hwalk, hp, -⟩ := hroot.walkpgdir ht.page (hlt.trans_le hsz) hpte
    refine ⟨m₂, ?_, h, ht, rfl⟩
    rw [copyLoop, if_pos hlt, hwalk]
    simp only [hp, if_true]
    rw [Vm.kalloc, h.freelist, kalloc_eq_none hk]
  | case3 i m₁ d₁ hlt pte hpte f m₃ hk ih =>
    subst hi
    rw [mul_div_PGSIZE] at hpte
    obtain ⟨d₂, hmap, hloop⟩ := Option.bind_eq_some_iff.1 hloop
    have hv : lo * PGSIZE < USERTOP := hlt.trans_le hsz
    have hframe : pte.frame ∉ m.freelist := hused lo pte le_rfl hlt hpte
    obtain ⟨hwalk, hp, hpage⟩ := hroot.walkpgdir ht.page hv hpte
    obtain ⟨fs, hm, rfl⟩ := kalloc_eq_some hk
    obtain ⟨m₂', m₂'', hk₂, hsame, hmap₂, h', hdir, htables, hother⟩ :=
      h.mappages hv hk hmap (m₁.page pte.frame)
    -- a frame of the parent is on neither free list, so the loops copy the same bytes
    have hcontents : m₂'.page pte.frame = m₁.page pte.frame := by
      rw [hsame]
      exact h.page _ (fun hmem => hframe (ht.own _ hmem)) fun hmem => hframe (ht.free hmem)
    have ht' : Taken m m₂'' (Kmem.write { m₁ with freelist := fs } f (m₁.page pte.frame)) d₂ := by
      refine ⟨fun x hx => ht.own x (by rwa [hdir, htables] at hx), fun x hx => ?_, fun x hx => ?_⟩
      · exact ht.free (hm ▸ List.mem_cons_of_mem f hx)
      · rw [hother x (fun hmem => hx (ht.own x hmem)) ?_, ht.page x hx]
        rintro rfl
        exact hx (ht.free (hm ▸ List.mem_cons_self))
    obtain ⟨m₄, hcopy, hrest⟩ := ih d₂ (fun v e hlo => hused v e (by omega)) (mul_add_PGSIZE lo) h'
      ht' hloop
    refine ⟨m₄, ?_, hrest.1, hrest.2.1, hrest.2.2.trans hdir⟩
    rw [copyLoop_step hlt hwalk hp hk₂ (by rw [hpage, hcontents]; exact hmap₂), ← hcopy, hdir]
  | case4 i m₁ d₁ hge =>
    cases hloop
    exact ⟨m₂, by rw [copyLoop, if_neg hge], h, ht, rfl⟩

/-! ### Frames -/

/-- The page table with index `j`, if there is one. -/
def tableAt (m : Kmem) (d : Frame) (j : ℕ) : Option Frame :=
  if isP (entry m d j) then some (entry m d j / PGSIZE) else none

/-- The page tables of a page directory. -/
def tableFrames (m : Kmem) (d : Frame) : List Frame :=
  (List.finRange NPDENTRIES).filterMap fun j : Fin NPDENTRIES => tableAt m d j

/-- The frames of the user pages. -/
def userFrames (m : Kmem) (d : Frame) : List Frame :=
  userPages.filterMap fun v => (lookup m d v).map Mapping.frame

/-- All frames of a page directory. -/
def allFrames (m : Kmem) (d : Frame) : List Frame := d :: (tableFrames m d ++ userFrames m d)

theorem decode_pteWord (e : Option Pte) :
    decode (pteWord e) = e.map fun e => ⟨e.frame, e.user, e.user⟩ := by
  rcases e with - | ⟨f, user⟩
  · rfl
  · have hflags : isP (pteWord (some ⟨f, user⟩)) = true ∧ isW (pteWord (some ⟨f, user⟩)) = user ∧
        isU (pteWord (some ⟨f, user⟩)) = user ∧ pteWord (some ⟨f, user⟩) / PGSIZE = f := by
      simp only [pteWord, isP, isW, isU, PGSIZE, PTE_P, PTE_W, PTE_U]
      cases user <;> simp <;> omega
    rw [decode, if_pos hflags.1, hflags.2.1, hflags.2.2.1, hflags.2.2.2]
    rfl

theorem Refines.lookup (h : Refines img m₂ ts m₁ d₁) (hv : v * PGSIZE < USERTOP) :
    lookup m₂ d₁.dir v = (d₁.pte v).map fun e => ⟨e.frame, e.user, e.user⟩ := by
  have hlt : v < 2 ^ 20 := by
    simp only [PGSIZE, USERTOP] at hv
    omega
  rw [h.tree.lookup_eq hlt, treeWords, if_pos hv, decode_pteWord]

/-- The pages of the kernel are as `setupkvm` maps them. -/
theorem Refines.lookup_kernel (h : Refines img m₂ ts m₁ d₁) (hv : USERTOP ≤ v * PGSIZE)
    (hlt : v < 2 ^ 20) : Paging.lookup m₂ d₁.dir v = decode (kernelWords img v) := by
  rw [h.tree.lookup_eq hlt, treeWords, if_neg (not_lt.2 hv)]

theorem Refines.userFrames (h : Refines img m₂ ts m₁ d₁) :
    userFrames m₂ d₁.dir = Custody.holdings userPages d₁.held := by
  rw [Paging.userFrames, List.filterMap_eq_flatMap_toList]
  refine List.flatMap_congr fun v hv => ?_
  have hlt : v * PGSIZE < USERTOP := by
    have := List.mem_range.1 hv
    simp only [PGSIZE, USERTOP] at *
    omega
  rw [h.lookup hlt, Pgdir.held, Option.map_map]
  rfl

/-- The page tables of a tree. -/
theorem Tree.tableAt_eq_some {pte : ℕ → ℕ} (h : Tree m d ts pte) {j : ℕ} (hj : j < NPDENTRIES)
    {t : Frame} : tableAt m d j = some t ↔ (j, t) ∈ ts := by
  unfold tableAt
  by_cases hkey : j ∈ ts.map Prod.fst
  · obtain ⟨⟨j', t'⟩, hmem, rfl⟩ := List.mem_map.1 hkey
    rw [(h.pde _ hmem).2, isP_tableWord, if_pos rfl, tableWord_div, Option.some.injEq]
    refine ⟨by rintro rfl; exact hmem, fun hmem' => ?_⟩
    exact congrArg Prod.snd (h.eq_of_fst hmem hmem' rfl)
  · rw [h.absent j hj hkey]
    refine iff_of_false (by simp [isP]) fun hmem => hkey ?_
    exact List.mem_map_of_mem (f := Prod.fst) hmem

theorem Refines.tableFrames (h : Refines img m₂ ts m₁ d₁) :
    (tableFrames m₂ d₁.dir).Perm d₁.tables := by
  have hnodup : d₁.tables.Nodup := by
    rw [← h.tables]
    exact (List.nodup_append.1 (List.nodup_cons.1 h.tree.frames).2).1
  have hnodup' : (Paging.tableFrames m₂ d₁.dir).Nodup := by
    refine List.Nodup.filterMap (fun i j t hi hj => ?_) (List.nodup_finRange NPDENTRIES)
    have hi := (h.tree.tableAt_eq_some i.isLt).1 hi
    have hj := (h.tree.tableAt_eq_some j.isLt).1 hj
    exact Fin.ext (congrArg Prod.fst (h.tree.eq_of_snd hi hj rfl))
  refine (List.perm_ext_iff_of_nodup hnodup' hnodup).2 fun t => ?_
  rw [← h.tables, Paging.tableFrames, List.mem_filterMap, List.mem_map]
  constructor
  · rintro ⟨j, -, hj⟩
    exact ⟨_, (h.tree.tableAt_eq_some j.isLt).1 hj, rfl⟩
  · rintro ⟨⟨j, t⟩, hmem, rfl⟩
    have hj := (h.tree.pde _ hmem).1
    exact ⟨⟨j, hj⟩, List.mem_finRange _, (h.tree.tableAt_eq_some hj).2 hmem⟩

/-- The frames are those of the page directory of `Memory`. -/
theorem Refines.allFrames (h : Refines img m₂ ts m₁ d₁) :
    (allFrames m₂ d₁.dir).Perm d₁.frames := by
  rw [Paging.allFrames, h.userFrames]
  exact (h.tableFrames.append_right _).cons d₁.dir

/-! ### Copies -/

/-- A page directory with the pages of a heap of `sz` bytes and of a stack of `ss`: page `0` is for the
kernel, the others can be written by the user.  Its frames are in use. -/
structure Parent (m : Kmem) (pgdir : Frame) (sz ss : ℕ) : Prop where
  rooted : Rooted m pgdir
  dvd : PGSIZE ∣ ss
  ss_le : ss ≤ USERTOP
  fits : (sz + PGSIZE - 1) / PGSIZE * PGSIZE ≤ USERTOP - ss
  present : ∀ v, InUse sz ss v → ∃ e, lookup m pgdir v = some e ∧ e.user = decide (v ≠ 0) ∧
    (v ≠ 0 → e.write = true) ∧ e.frame ∉ m.freelist
  nodup : m.freelist.Nodup
  lt : ∀ x ∈ m.freelist, x < PHYSTOP / PGSIZE

/-- The page directory `d` is a copy: it has the pages of the heap and of the stack with the contents and
the permissions that they have in the parent, and no others of the user.  If the stack reaches down to
page `0`, the user can access that.  The frames are new, and no frame that was in use has changed. -/
structure Duplicate (img : Image) (m : Kmem) (pgdir : Frame) (sz ss : ℕ) (m' : Kmem) (d : Frame) :
    Prop where
  page : ∀ v, InUse sz ss v → ∃ e e', lookup m pgdir v = some e ∧ lookup m' d v = some e' ∧
    e'.user = (e.user || decide (ss = USERTOP)) ∧ (e.user = true → e'.write = e.write) ∧
    m'.page e'.frame = m.page e.frame
  absent : ∀ v, v * PGSIZE < USERTOP → ¬ InUse sz ss v → lookup m' d v = none
  kernel : ∀ v, USERTOP ≤ v * PGSIZE → v < 2 ^ 20 → lookup m' d v = decode (kernelWords img v)
  nodup : (allFrames m' d).Nodup
  fresh : ∀ x ∈ allFrames m' d, x ∈ m.freelist ∧ x ∉ m'.freelist
  unchanged : ∀ x, x ∉ m.freelist → m'.page x = m.page x

theorem mul_lt_of_inUse (h : InUse sz ss v) (hfits : (sz + PGSIZE - 1) / PGSIZE * PGSIZE ≤ USERTOP - ss) :
    v * PGSIZE < USERTOP := by
  rcases h with h | h
  · simp only [PGSIZE, USERTOP] at *
    omega
  · exact h.2

theorem Parent.forkable (h : Parent m pgdir sz ss) : Forkable m (view m pgdir) sz ss where
  backs := ⟨h.dvd, h.ss_le, h.fits, fun v hv => by
    obtain ⟨e, he, -⟩ := h.present v hv
    rw [view_pte, he]
    rfl⟩
  nodup := h.nodup
  used v e hv he := by
    obtain ⟨e', he', -, -, hfree⟩ := h.present v hv
    rw [view_pte, he'] at he
    cases he
    exact hfree

theorem Parent.user_eq (h : Parent m pgdir sz ss) {e : Pte} (hv : InUse sz ss v)
    (he : (view m pgdir).pte v = some e) : e.user = decide (v ≠ 0) := by
  obtain ⟨e', he', huser, -⟩ := h.present v hv
  rw [view_pte, he'] at he
  cases he
  exact huser

/-- Both loops. -/
theorem copyLoops_refines (h : Parent m pgdir sz ss) (href : Refines img m₂ ts m₁ d₁)
    (ht : Taken m m₂ m₁ d₁)
    (hloops : Vm.copyLoops (view m pgdir) sz ss m₁ d₁ = some (true, m₁', d₁')) :
    ∃ m₂', copyLoops ss pgdir d₁.dir sz m₂ = some (true, m₂') ∧ Refines img m₂' ts m₁' d₁' ∧
      Taken m m₂' m₁' d₁' ∧ d₁'.dir = d₁.dir := by
  have hfork := h.forkable
  have hszle : sz ≤ USERTOP := by
    have := h.fits
    simp only [PGSIZE] at this
    omega
  have hused : ∀ v e, InUse sz ss v → (view m pgdir).pte v = some e → e.frame ∉ m.freelist :=
    hfork.used
  obtain ⟨⟨ok, m₃, d₃⟩, hloop, hrest⟩ := Option.bind_eq_some_iff.1 hloops
  obtain ⟨m₃', hloop₂, href₃, ht₃, hdir₃⟩ := copyLoop_refines h.rooted
    (fun v e _ hv => hused v e (Or.inl hv)) hszle (Nat.zero_mul _).symm href ht hloop
  cases ok with
  | false => cases hrest
  | true =>
    obtain ⟨m₂', hloop₂', href', ht', hdir'⟩ := copyLoop_refines h.rooted
      (fun v e hlo hv => hused v e ((inUse_iff hfork.backs).2 (Or.inr ⟨hlo, by
        simp only [PGSIZE, USERTOP] at hv ⊢
        omega⟩))) le_rfl hfork.backs.stack_eq href₃ ht₃ hrest
    refine ⟨m₂', ?_, href', ht', hdir'.trans hdir₃⟩
    rw [copyLoops, hloop₂, Option.bind_some]
    exact hdir₃ ▸ hloop₂'

/-- With enough memory `copyuvm` returns a copy. -/
theorem copyuvm_of_parent (img : Image) (h : Parent m pgdir sz ss)
    (hmem : copyFrames sz ss ≤ m.freelist.length) :
    ∃ m' d, copyuvm img ss m pgdir sz = some (some d, m') ∧ Duplicate img m pgdir sz ss m' d := by
  obtain ⟨m₁', d₁', hcopy, hcopied⟩ :=
    copyuvm_of_le h.forkable (fun v e hv he => h.user_eq hv he) hmem
  have hlt : ∀ x ∈ m.freelist, x < 2 ^ 20 := fun x hx => (h.lt x hx).trans (by decide)
  obtain ⟨d₁, m₁, m₂, ts, hsetup₁, hsetup, href, ht⟩ | ⟨m₁, m₂, hsetup₁, -⟩ :=
    setupkvm_refines img h.nodup hlt
  · rw [copyuvm_eq hsetup₁] at hcopy
    obtain ⟨⟨ok, m₃, d₃⟩, hloops, hrest⟩ := Option.map_eq_some_iff.1 hcopy
    cases ok with
    | false => cases hrest
    | true =>
      cases hrest
      obtain ⟨m', hloops', href', ht', hdir⟩ := copyLoops_refines h href ht hloops
      have hframes := href'.allFrames
      refine ⟨m', d₁'.dir, ?_, fun v hv => ?_, fun v hv hnot => ?_,
        fun v hv hlt => href'.lookup_kernel hv hlt, ?_, fun x hx => ?_, ht'.page⟩
      · rw [copyuvm, hsetup, Option.bind_some]
        simp only [hloops', Option.bind_some, if_true, hdir]
      · obtain ⟨e, e', he, he', huser, hpage⟩ := hcopied.page v hv
        obtain ⟨e₀, he₀, huser₀, hwrite, -⟩ := h.present v hv
        rw [view_pte, he₀] at he
        cases he
        have hvlt := mul_lt_of_inUse hv h.fits
        have hlookup := href'.lookup hvlt
        rw [he'] at hlookup
        have huser : e'.user = (e₀.user || decide (ss = USERTOP)) := huser
        refine ⟨e₀, _, he₀, hlookup, huser, fun hu => ?_, ?_⟩
        · rw [hwrite (of_decide_eq_true (huser₀.symm.trans hu))]
          exact huser.trans (by rw [hu, Bool.true_or])
        · have hmem := mem_frames_of_pte (mem_userPages hvlt) he'
          have hpages : e'.frame ∈ Custody.holdings userPages d₁'.held :=
            Custody.mem_holdings.2 ⟨v, mem_userPages hvlt, by simp [Pgdir.held, he']⟩
          refine (href'.page _ (fun htable => ?_) (hcopied.fresh _ hmem).2).trans hpage
          exact List.disjoint_of_nodup_append hcopied.nodup htable hpages
      · rw [href'.lookup hv, hcopied.absent v hnot]
        rfl
      · exact hframes.nodup_iff.2 hcopied.nodup
      · obtain ⟨hfree, hused⟩ := hcopied.fresh x (hframes.subset hx)
        exact ⟨hfree, fun hmem => hused (href'.freelist ▸ hmem)⟩
  · rw [Vm.copyuvm, hsetup₁] at hcopy
    cases hcopy

/-- A frame with the words `w`. -/
def ofEntries (w : ℕ → ℕ) : Page := fun a => ofNat (w (a / 4)) (a % 4)

theorem entry_ofEntries {f : Frame} {w : ℕ → ℕ} {i : ℕ} (h : m.page f = ofEntries w)
    (hlt : w i < 2 ^ 32) : entry m f i = w i := by
  have heq : EqTo 4 (slice (m.page f) (4 * i)) (ofNat (w i)) := fun j hj => by
    rw [h, slice, ofEntries, show (4 * i + j) / 4 = i by omega, show (4 * i + j) % 4 = j by omega]
  rw [entry, toNat_congr heq, toNat_ofNat]
  exact Nat.mod_eq_of_lt hlt

/-- The words of a page table with a page at every user address. -/
def fullWords (v : ℕ) : ℕ :=
  if v < 160 then pteWord (some ⟨10 + v, decide (v ≠ 0)⟩) else 0

/-- A memory with a page directory in frame `1` and its page table in frame `2`. -/
def fullTable : Kmem where
  freelist := List.range' 200 173
  page f := if f = 1 then ofEntries fun j => if j = 0 then tableWord 2 else 0
    else if f = 2 then ofEntries fullWords else fun _ => 0

/-- A kernel with some text. -/
def smallImage : Image := ⟨0x110000, by decide, by decide, by decide⟩

theorem lookup_fullTable (hv : v * PGSIZE < USERTOP) :
    lookup fullTable 1 v = some ⟨10 + v, decide (v ≠ 0), decide (v ≠ 0)⟩ ∧
      tableOf fullTable 1 v = 2 := by
  have hlt : v < 160 := by
    simp only [PGSIZE, USERTOP] at hv
    omega
  have hpde : entry fullTable 1 (v / 1024) = tableWord 2 := by
    rw [show v / 1024 = 0 by omega]
    exact entry_ofEntries (w := fun j => if j = 0 then tableWord 2 else 0) rfl (by decide)
  have hpte : entry fullTable 2 (v % 1024) = pteWord (some ⟨10 + v, decide (v ≠ 0)⟩) := by
    have hword : fullWords v = pteWord (some ⟨10 + v, decide (v ≠ 0)⟩) := if_pos hlt
    rw [show v % 1024 = v by omega, ← hword]
    refine entry_ofEntries rfl ?_
    rw [hword]
    exact pageWord_lt (show 10 + v < 2 ^ 20 by omega) (by split_ifs <;> decide)
  have htable : tableOf fullTable 1 v = 2 := by rw [tableOf, hpde, tableWord_div]
  exact ⟨by rw [lookup_of_table hpde, hpte, decode_pteWord]; rfl, htable⟩

theorem length_fullTable : fullTable.freelist.length = 173 := List.length_range'

theorem parent_fullTable (hdvd : PGSIZE ∣ ss) (hle : ss ≤ USERTOP)
    (hfits : (sz + PGSIZE - 1) / PGSIZE * PGSIZE ≤ USERTOP - ss) : Parent fullTable 1 sz ss := by
  have hfree : ∀ x ∈ fullTable.freelist, 200 ≤ x ∧ x < 373 := fun x hx => by
    obtain ⟨hlo, hhi⟩ := List.mem_range'_1.1 hx
    exact ⟨hlo, hhi⟩
  refine ⟨⟨fun h => absurd (hfree 1 h).1 (by decide), fun v hv _ h => ?_⟩, hdvd, hle, hfits,
    fun v hv => ?_, List.nodup_range', fun x hx => (hfree x hx).2.trans (by decide)⟩
  · rw [(lookup_fullTable hv).2] at h
    exact absurd (hfree 2 h).1 (by decide)
  · have hlt := mul_lt_of_inUse hv hfits
    refine ⟨_, (lookup_fullTable hlt).1, rfl, fun hne => decide_eq_true hne, fun h => ?_⟩
    have hlo : 200 ≤ 10 + v := (hfree _ h).1
    simp only [PGSIZE, USERTOP] at hlt
    omega

end Paging

end Vm

end OperatingSystems

import OperatingSystems.Vm.Copying
import OperatingSystems.Vm.Paging
import Mathlib.Data.List.Perm.Lattice

/-!
# The page tables of a process

`setupkvm` maps four ranges of pages, for which it needs twelve page tables; one of them is that of the
user pages.  So the page directories of `Memory`, which have all their page tables from the beginning,
are those of `vm.c`.

* `kernelDirs` : the page tables of the kernel.
* `Refines` : a page directory and its page tables in memory, for one of `Memory`.
* `setupkvm_refines` : **`setupkvm` makes a page directory of the kernel** from the same frames, or fails
  for the same lengths of the free list.
* `Refines.mappages` : a user page is mapped in both.
-/

namespace OperatingSystems

namespace Vm

namespace Paging

variable {img : Image} {m m' m₁ m₂ : Kmem} {d f t x : Frame} {d₁ : Pgdir} {ts : List (ℕ × Frame)}
  {pte : ℕ → ℕ} {S : List ℕ} {v n p perm : ℕ}

/-! ### The mappings of the kernel -/

/-- The indices of the page tables of the kernel: below `PHYSTOP`, and for devices. -/
def kernelDirs : List ℕ := List.range 4 ++ List.range' 1016 8

theorem length_kernelDirs : kernelDirs.length = kernelTables := rfl

theorem nodup_kernelDirs : kernelDirs.Nodup := by decide

theorem mem_kernelDirs {j : ℕ} : j ∈ kernelDirs ↔ j < 4 ∨ 1016 ≤ j ∧ j < 1024 := by
  simp only [kernelDirs, List.mem_append, List.mem_range, List.mem_range'_1]

/-- A range of pages: the first one, how many follow, and their permissions. -/
structure Range where
  first : ℕ
  more : ℕ
  perm : ℕ

/-- The page `u` is in the range. -/
def Range.Has (r : Range) (u : ℕ) : Prop := r.first ≤ u ∧ u ≤ r.first + r.more

/-- An entry of `kmap`. -/
def Range.toKmap (r : Range) : ℕ × ℕ × ℕ :=
  (r.first * PGSIZE, (r.first + r.more + 1) * PGSIZE % 2 ^ 32, r.perm)

/-- The ranges of `kmap`. -/
def kernelRanges (img : Image) : List Range :=
  [⟨160, 95, PTE_W⟩, ⟨256, img.data / PGSIZE - 257, 0⟩,
    ⟨img.data / PGSIZE, 4095 - img.data / PGSIZE, PTE_W⟩, ⟨1040384, 8191, PTE_W⟩]

/-- The words for the pages after the pages of `r` were mapped to the frames with the same numbers. -/
def Range.words (pte : ℕ → ℕ) (r : Range) : ℕ → ℕ := mapWords pte r.first r.more r.first r.perm

/-- The words for the pages of the kernel. -/
def kernelWords (img : Image) : ℕ → ℕ := (kernelRanges img).foldl Range.words fun _ => 0

/-- The number of the page where the data of the kernel begins. -/
theorem Image.page_eq (img : Image) :
    ∃ c, img.data = c * PGSIZE ∧ img.data / PGSIZE = c ∧ 256 < c ∧ c < 4096 := by
  obtain ⟨c, hc⟩ := img.dvd
  have hlt := img.lt_data
  have hgt := img.data_lt
  simp only [PHYSTOP, PGSIZE] at *
  exact ⟨c, by omega, by omega, by omega, by omega⟩

theorem kmap_eq (img : Image) : kmap img = (kernelRanges img).map Range.toKmap := by
  obtain ⟨c, hc, hdiv, hlt, hgt⟩ := img.page_eq
  have htext : Range.toKmap ⟨256, c - 257, 0⟩ = (0x100000, c * PGSIZE, 0) := by
    refine Prod.ext (show 256 * PGSIZE = 0x100000 by decide) (Prod.ext ?_ rfl)
    simp only [Range.toKmap, PGSIZE]
    omega
  have hdata : Range.toKmap ⟨c, 4095 - c, PTE_W⟩ = (c * PGSIZE, PHYSTOP, PTE_W) := by
    refine Prod.ext rfl (Prod.ext ?_ rfl)
    simp only [Range.toKmap, PGSIZE, PHYSTOP]
    omega
  have hio : Range.toKmap ⟨160, 95, PTE_W⟩ = (USERTOP, 0x100000, PTE_W) := by decide
  have hdev : Range.toKmap ⟨1040384, 8191, PTE_W⟩ = (DEVSPACE, 0, PTE_W) := by decide
  rw [kernelRanges, hdiv, List.map_cons, List.map_cons, List.map_cons, List.map_cons, List.map_nil,
    hio, htext, hdata, hdev, kmap, hc]

/-- `mappages` of whole pages. -/
theorem mappages_page (m : Kmem) (d : Frame) (hv : v + n < 2 ^ 20) (pa perm : ℕ) :
    mappages m d (v * PGSIZE) ((n + 1) * PGSIZE) pa perm = mapLoop d perm n (v * PGSIZE) pa m := by
  have ha : v * PGSIZE / PGSIZE * PGSIZE = v * PGSIZE := by
    rw [mul_div_PGSIZE]
  have hlast : toUint ((v * PGSIZE : ℕ) + ((n + 1) * PGSIZE : ℕ) - 1) / PGSIZE * PGSIZE =
      (v + n) * PGSIZE := by
    simp only [toUint, PGSIZE]
    omega
  have hn : toUint (((v + n) * PGSIZE : ℕ) - (v * PGSIZE : ℕ)) / PGSIZE = n := by
    simp only [toUint, PGSIZE]
    omega
  simp only [mappages]
  rw [ha, hlast, hn]

/-- The size of a range, which may end at the end of the address space. -/
theorem toUint_range (hpos : 0 < v) (hv : v + n < 2 ^ 20) :
    toUint (((v + n + 1) * PGSIZE % 2 ^ 32 : ℕ) - (v * PGSIZE : ℕ)) = (n + 1) * PGSIZE := by
  simp only [toUint, PGSIZE]
  omega

/-- The loop of `setupkvm`, for ranges that follow each other. -/
theorem mapKernel_spec (rs : List Range) (h : Tree m d ts pte) (hkeys : ts.map Prod.fst ⊆ S)
    (hlt : ∀ r ∈ rs, 0 < r.first ∧ r.first + r.more < 2 ^ 20 ∧ r.perm < 8)
    (hS : ∀ r ∈ rs, ∀ u, r.Has u → u / 1024 ∈ S)
    (habsent : ∀ r ∈ rs, ∀ u, r.Has u → isP (pte u) = false)
    (hsorted : rs.Pairwise fun r r' => r.first + r.more < r'.first) :
    ∃ ok m' ts' pte', mapKernel d (rs.map Range.toKmap) m = some (ok, m') ∧ Tree m' d ts' pte' ∧
      Extended d S m ts m' ts' ∧
      (ok = true → pte' = rs.foldl Range.words pte ∧
        ∀ r ∈ rs, ∀ u, r.Has u → u / 1024 ∈ ts'.map Prod.fst) ∧
      (ok = false → m'.freelist = [] ∧ ∃ j ∈ S, j ∉ ts'.map Prod.fst) := by
  induction rs generalizing m ts pte with
  | nil => exact ⟨true, m, ts, pte, rfl, h, .refl hkeys m, fun _ => ⟨rfl, by simp⟩, nofun⟩
  | cons r rs ih =>
    obtain ⟨hpos, hbound, hperm⟩ := hlt r List.mem_cons_self
    obtain ⟨hfirst, hsorted⟩ := List.pairwise_cons.1 hsorted
    obtain ⟨ok₁, m₁, ts₁, pte₁, hloop, htree, hext, hok, hfail⟩ :=
      mapLoop_spec h hkeys hbound hbound hperm (fun u hlo hhi => hS r List.mem_cons_self u ⟨hlo, hhi⟩)
        fun u hlo hhi => habsent r List.mem_cons_self u ⟨hlo, hhi⟩
    have hmap : mappages m d (r.first * PGSIZE)
        (toUint (((r.first + r.more + 1) * PGSIZE % 2 ^ 32 : ℕ) - (r.first * PGSIZE : ℕ)))
        (r.first * PGSIZE) r.perm = some (ok₁, m₁) := by
      rw [toUint_range hpos hbound, mappages_page _ _ hbound, hloop]
    rw [List.map_cons, Range.toKmap, mapKernel, hmap]
    simp only [Option.bind_some]
    cases ok₁ with
    | false => exact ⟨false, m₁, ts₁, pte₁, rfl, htree, hext, nofun, hfail⟩
    | true =>
      obtain ⟨rfl, hin⟩ := hok rfl
      obtain ⟨ok, m', ts', pte', hrest, htree', hext', hok', hfail'⟩ :=
        ih htree hext.keys (fun r' hr' => hlt r' (List.mem_cons_of_mem _ hr'))
          (fun r' hr' => hS r' (List.mem_cons_of_mem _ hr')) (fun r' hr' u hu => by
            have hgt := hfirst r' hr'
            have hlo := hu.1
            rw [mapWords, if_neg (by omega)]
            exact habsent r' (List.mem_cons_of_mem _ hr') u hu) hsorted
      refine ⟨ok, m', ts', pte', hrest, htree', hext.trans hext', fun hb => ?_, hfail'⟩
      obtain ⟨hpte, hin'⟩ := hok' hb
      refine ⟨hpte, fun r' hr' u hu => ?_⟩
      rcases List.mem_cons.1 hr' with rfl | hr'
      · exact List.map_subset _ hext'.subset (hin u hu.1 hu.2)
      · exact hin' r' hr' u hu

/-- The pages of the kernel are not those of the user. -/
theorem kernelWords_of_lt (img : Image) (hv : v < 160) : kernelWords img v = 0 := by
  obtain ⟨c, hc, hdiv, hlt, hgt⟩ := img.page_eq
  simp only [kernelWords, kernelRanges, hdiv, List.foldl_cons, List.foldl_nil, Range.words, mapWords]
  rw [if_neg (by omega), if_neg (by omega), if_neg (by omega), if_neg (by omega)]

theorem kernelRanges_lt (img : Image) : ∀ r ∈ kernelRanges img,
    0 < r.first ∧ r.first + r.more < 2 ^ 20 ∧ r.perm < 8 := by
  obtain ⟨c, -, hdiv, hlt, hgt⟩ := img.page_eq
  simp only [kernelRanges, hdiv, List.mem_cons, List.not_mem_nil, or_false, forall_eq_or_imp,
    forall_eq, PTE_W]
  omega

theorem kernelRanges_sorted (img : Image) :
    (kernelRanges img).Pairwise fun r r' => r.first + r.more < r'.first := by
  obtain ⟨c, -, hdiv, hlt, hgt⟩ := img.page_eq
  simp only [kernelRanges, hdiv, List.pairwise_cons, List.mem_cons, List.not_mem_nil, or_false,
    forall_eq_or_imp, forall_eq, List.Pairwise.nil, and_true, false_implies, implies_true]
  omega

/-- The page tables of the kernel are those of its pages. -/
theorem mem_kernelDirs_of_has (img : Image) : ∀ r ∈ kernelRanges img, ∀ u, r.Has u →
    u / 1024 ∈ kernelDirs := by
  obtain ⟨c, -, hdiv, hlt, hgt⟩ := img.page_eq
  simp only [kernelRanges, hdiv, List.mem_cons, List.not_mem_nil, or_false, forall_eq_or_imp,
    forall_eq, Range.Has, mem_kernelDirs]
  refine ⟨?_, ?_, ?_, ?_⟩ <;> intro u hu <;> omega

/-- Every page table of the kernel has a page. -/
theorem exists_has {j : ℕ} (img : Image) (hj : j ∈ kernelDirs) :
    ∃ r ∈ kernelRanges img, ∃ u, r.Has u ∧ u / 1024 = j := by
  obtain ⟨c, hc, hdiv, hlt, hgt⟩ := img.page_eq
  rw [mem_kernelDirs] at hj
  simp only [kernelRanges, hdiv, List.mem_cons, List.not_mem_nil, or_false, exists_eq_or_imp,
    exists_eq_left, Range.Has]
  by_cases hdev : 1016 ≤ j
  · exact Or.inr (Or.inr (Or.inr ⟨1024 * j, by omega, by omega⟩))
  by_cases hzero : j = 0
  · exact Or.inl ⟨160, by omega, by omega⟩
  by_cases hdata : 1024 * j < c
  · exact Or.inr (Or.inl ⟨1024 * j, by omega, by omega⟩)
  · exact Or.inr (Or.inr (Or.inl ⟨1024 * j, by omega, by omega⟩))

/-- A page directory without page tables. -/
theorem Tree.empty {fs : List Frame} (hm : m.freelist = f :: fs) (hnodup : m.freelist.Nodup)
    (hlt : ∀ x ∈ m.freelist, x < 2 ^ 20) :
    Tree (Kmem.write { m with freelist := fs } f fun _ => 0) f [] fun _ => 0 where
  keys := List.nodup_nil
  frames := hm ▸ hnodup
  lt x hx := hlt x (hm ▸ List.mem_cons_of_mem f hx)
  pde _ hx := absurd hx List.not_mem_nil
  absent j _ _ := entry_of_zero (Function.update_self ..) j
  word _ hx := absurd hx List.not_mem_nil
  zero _ _ := rfl

/-- **The kernel part of a page directory**: `setupkvm` takes as many frames as there are page tables of
the kernel, and one for the directory; or the free list is shorter. -/
theorem setupkvm_spec (img : Image) (hnodup : m.freelist.Nodup)
    (hlt : ∀ x ∈ m.freelist, x < 2 ^ 20) :
    (∃ d m' ts, setupkvm img m = some (some d, m') ∧ Tree m' d ts (kernelWords img) ∧
      (∀ j, j ∈ ts.map Prod.fst ↔ j ∈ kernelDirs) ∧
      d :: ts.map Prod.snd = m.freelist.take kernelFrames ∧
      m'.freelist = m.freelist.drop kernelFrames ∧
      ∀ x, x ∉ m.freelist → m'.page x = m.page x) ∨
    m.freelist.length < kernelFrames ∧ ∃ m', setupkvm img m = some (none, m') ∧
      m'.freelist = [] ∧ ∀ x, x ∉ m.freelist → m'.page x = m.page x := by
  cases hm : m.freelist with
  | nil => exact Or.inr ⟨by decide, m, by rw [setupkvm, kalloc, hm], hm, fun _ _ => rfl⟩
  | cons f fs =>
    obtain ⟨ok, m', ts, pte, hloop, htree, hext, hok, hfail⟩ :=
      mapKernel_spec (S := kernelDirs) (kernelRanges img) (Tree.empty hm hnodup hlt)
        (List.nil_subset _) (kernelRanges_lt img) (mem_kernelDirs_of_has img) (fun _ _ _ _ => rfl)
        (kernelRanges_sorted img)
    have hframes : ts.map Prod.snd ++ m'.freelist = fs := hext.frames
    have hsetup : setupkvm img m = some (if ok then some f else none, m') := by
      rw [setupkvm, kalloc, hm]
      simp only
      rw [kmap_eq, hloop]
      rfl
    have hpage : ∀ x, x ∉ m.freelist → m'.page x = m.page x := fun x hx => by
      rw [hm, List.mem_cons, not_or] at hx
      rw [hext.page x hx.1 hx.2]
      exact Function.update_of_ne hx.1 ..
    rw [hm] at hpage
    cases ok with
    | true =>
      obtain ⟨rfl, hin⟩ := hok rfl
      have hkeys : ∀ j, j ∈ ts.map Prod.fst ↔ j ∈ kernelDirs := fun j => by
        refine ⟨fun h => hext.keys h, fun h => ?_⟩
        obtain ⟨r, hr, u, hu, rfl⟩ := exists_has img h
        exact hin r hr u hu
      have hlength : (ts.map Prod.snd).length = kernelTables := by
        rw [List.length_map, ← List.length_map Prod.fst, ← length_kernelDirs]
        exact ((List.perm_ext_iff_of_nodup htree.keys nodup_kernelDirs).2 hkeys).length_eq
      refine Or.inl ⟨f, m', ts, hsetup, htree, hkeys, ?_, ?_, hpage⟩
      · rw [kernelFrames, List.take_succ_cons, ← hframes, ← hlength, List.take_left]
      · rw [kernelFrames, List.drop_succ_cons, ← hframes, ← hlength, List.drop_left]
    | false =>
      obtain ⟨hnil, j, hj, hnot⟩ := hfail rfl
      refine Or.inr ⟨?_, m', hsetup, hnil, hpage⟩
      -- the page tables are some of those of the kernel, without the one that is missing
      have hsub : ts.map Prod.fst ⊆ kernelDirs.erase j := fun i hi =>
        (List.mem_erase_of_ne (by rintro rfl; exact hnot hi)).2 (hext.keys hi)
      have hle := (List.subperm_of_subset htree.keys hsub).length_le
      rw [List.length_erase_of_mem hj, length_kernelDirs, List.length_map] at hle
      rw [hnil, List.append_nil] at hframes
      rw [List.length_cons, ← hframes, List.length_map, kernelFrames]
      have : 0 < kernelTables := by decide
      omega

/-! ### Refinement -/

/-- The word for a user page. -/
def pteWord : Option Pte → ℕ
  | none => 0
  | some e => e.frame * PGSIZE + (if e.user then PTE_W + PTE_U else 0) + PTE_P

/-- The words for all pages: those of the user, and those of the kernel. -/
def treeWords (img : Image) (d₁ : Pgdir) : ℕ → ℕ := fun v =>
  if v * PGSIZE < USERTOP then pteWord (d₁.pte v) else kernelWords img v

/-- The page directory `d₁` of `Memory`, over the memory `m₁`, is in the memory `m₂` with the page
tables `ts`. -/
structure Refines (img : Image) (m₂ : Kmem) (ts : List (ℕ × Frame)) (m₁ : Kmem) (d₁ : Pgdir) :
    Prop where
  tree : Tree m₂ d₁.dir ts (treeWords img d₁)
  keys : ∀ j, j ∈ ts.map Prod.fst ↔ j ∈ kernelDirs
  tables : ts.map Prod.snd = d₁.tables
  freelist : m₂.freelist = m₁.freelist
  page : ∀ x, x ∉ d₁.dir :: d₁.tables → x ∉ m₁.freelist → m₂.page x = m₁.page x

/-- The frames of a page directory come from the free list of `m`, and nothing else has changed. -/
structure Taken (m m₂ m₁ : Kmem) (d₁ : Pgdir) : Prop where
  own : ∀ x ∈ d₁.dir :: d₁.tables, x ∈ m.freelist
  free : m₁.freelist ⊆ m.freelist
  page : ∀ x, x ∉ m.freelist → m₂.page x = m.page x

theorem treeWords_empty (img : Image) (h : d₁.pte = fun _ => none) :
    treeWords img d₁ = kernelWords img := by
  funext v
  rw [treeWords, h]
  split_ifs with hv
  · have hlt : v < 160 := by
      simp only [PGSIZE, USERTOP] at hv
      omega
    rw [kernelWords_of_lt img hlt]
    rfl
  · rfl

theorem treeWords_setPte (img : Image) (hv : v * PGSIZE < USERTOP) (e : Pte) :
    treeWords img (d₁.setPte v (some e)) =
      Function.update (treeWords img d₁) v (pteWord (some e)) := by
  funext u
  rcases eq_or_ne u v with rfl | hne
  · rw [Function.update_self, treeWords, if_pos hv, setPte_self]
  · rw [Function.update_of_ne hne, treeWords, treeWords, setPte_of_ne d₁ (some e) hne]

/-- **`setupkvm`** makes the page directories of `Memory`, and fails when that one fails. -/
theorem setupkvm_refines (img : Image) (hnodup : m.freelist.Nodup)
    (hlt : ∀ x ∈ m.freelist, x < 2 ^ 20) :
    (∃ d₁ m₁ m₂ ts, Vm.setupkvm m = (some d₁, m₁) ∧ setupkvm img m = some (some d₁.dir, m₂) ∧
      Refines img m₂ ts m₁ d₁ ∧ Taken m m₂ m₁ d₁) ∨
    ∃ m₁ m₂, Vm.setupkvm m = (none, m₁) ∧ setupkvm img m = some (none, m₂) ∧
      m₂.freelist = m₁.freelist := by
  obtain ⟨d, m₂, ts, hsetup, htree, hkeys, hdir, hfree, hpage⟩ | ⟨hlen, m₂, hsetup, hfree, -⟩ :=
    setupkvm_spec img hnodup hlt
  · have hle : kernelFrames ≤ m.freelist.length := by
      have := congrArg List.length hdir
      rw [List.length_cons, List.length_map, ← List.length_map Prod.fst,
        ((List.perm_ext_iff_of_nodup htree.keys nodup_kernelDirs).2 hkeys).length_eq,
        length_kernelDirs, List.length_take] at this
      unfold kernelFrames at this ⊢
      omega
    obtain ⟨d₁, m₁, hsetup₁, hempty, hdir₁, hfree₁, hpage₁⟩ := setupkvm_of_le hle
    obtain ⟨rfl, htables⟩ := List.cons_eq_cons.1 (hdir.trans hdir₁.symm)
    refine Or.inl ⟨d₁, m₁, m₂, ts, hsetup₁, hsetup, ⟨?_, hkeys, htables, hfree.trans hfree₁.symm,
      fun x hx hx' => ?_⟩, fun x hx => ?_, fun x hx => ?_, hpage⟩
    · rwa [treeWords_empty img hempty]
    · have hnot : x ∉ m.freelist := fun hmem => by
        rw [← List.take_append_drop kernelFrames m.freelist, ← hdir₁, ← hfree₁] at hmem
        exact (List.mem_append.1 hmem).elim hx hx'
      rw [hpage x hnot, hpage₁ x hnot]
    · exact List.mem_of_mem_take (hdir₁ ▸ hx)
    · exact List.mem_of_mem_drop (hfree₁ ▸ hx)
  · obtain ⟨m₁, hsetup₁, hfree₁, -⟩ := setupkvm_of_lt hlen
    exact Or.inr ⟨m₁, m₂, hsetup₁, hsetup, hfree.trans hfree₁.symm⟩

/-- A frame is taken from the free list. -/
theorem Tree.kalloc {fs : List Frame} (h : Tree m d ts pte) (hm : m.freelist = f :: fs) (c : Page) :
    Tree (Kmem.write { m with freelist := fs } f c) d ts pte := by
  have hsub : (d :: (ts.map Prod.snd ++ fs)).Sublist (d :: (ts.map Prod.snd ++ m.freelist)) :=
    (List.Sublist.append_left (hm ▸ List.sublist_cons_self f fs) _).cons_cons d
  have hne : ∀ x ∈ d :: ts.map Prod.snd, x ≠ f := by
    rintro x hx rfl
    have hnodup := h.frames
    rw [← List.cons_append] at hnodup
    exact List.disjoint_of_nodup_append hnodup hx (hm ▸ List.mem_cons_self)
  have hentry : ∀ x ∈ d :: ts.map Prod.snd, ∀ i,
      entry (Kmem.write { m with freelist := fs } f c) x i = entry m x i := fun x hx i =>
    entry_congr (Function.update_of_ne (hne x hx) ..) i
  have htable : ∀ x ∈ ts, x.2 ∈ d :: ts.map Prod.snd := fun x hx =>
    List.mem_cons_of_mem d (List.mem_map_of_mem hx)
  refine ⟨h.keys, hsub.nodup h.frames, fun x hx => ?_, fun x hx => ?_, fun j hj hnot => ?_,
    fun x hx i hi => ?_, h.zero⟩
  · refine h.lt x (List.mem_append.2 ((List.mem_append.1 hx).imp_right fun hmem => ?_))
    exact hm ▸ List.mem_cons_of_mem f hmem
  · rw [hentry d List.mem_cons_self]
    exact h.pde x hx
  · rw [hentry d List.mem_cons_self]
    exact h.absent j hj hnot
  · rw [hentry _ (htable x hx)]
    exact h.word x hx i hi

/-- **A user page is mapped** to a new frame, in the page table that is there. -/
theorem Refines.mappages {m₁' : Kmem} {d₁' : Pgdir} {user : Bool} (h : Refines img m₂ ts m₁ d₁)
    (hv : v * PGSIZE < USERTOP) (hk : Vm.kalloc m₁ = some (f, m₁'))
    (hmap : Vm.mappages d₁ (v * PGSIZE) f user = some d₁') (c : Page) :
    ∃ m₂' m₂'', Vm.kalloc m₂ = some (f, m₂') ∧ m₂'.page = m₂.page ∧
      Paging.mappages (m₂'.write f c) d₁.dir (v * PGSIZE) PGSIZE (f * PGSIZE)
        (if user then PTE_W + PTE_U else 0) = some (true, m₂'') ∧
      Refines img m₂'' ts (m₁'.write f c) d₁' ∧ d₁'.dir = d₁.dir ∧ d₁'.tables = d₁.tables ∧
      ∀ x, x ∉ d₁.dir :: d₁.tables → x ≠ f → m₂''.page x = m₂.page x := by
  obtain ⟨fs, hm, rfl⟩ := kalloc_eq_some hk
  obtain ⟨hnone, rfl⟩ := mappages_eq_some hmap
  have hm₂ : m₂.freelist = f :: fs := h.freelist.trans hm
  have htree := h.tree.kalloc hm₂ c
  have hv' : v < 160 := by
    simp only [PGSIZE, USERTOP] at hv
    omega
  have hzero : v / 1024 = 0 := by omega
  -- the user pages are all in the first page table
  obtain ⟨⟨j, t⟩, hmem, hj⟩ := List.mem_map.1 ((h.keys 0).2 (mem_kernelDirs.2 (Or.inl (by omega))))
  obtain rfl : j = v / 1024 := hj.trans hzero.symm
  have hf : f < 2 ^ 20 := h.tree.lt f (List.mem_append_right _ (hm₂ ▸ List.mem_cons_self))
  have hword : pteWord (some ⟨f, user⟩) < 2 ^ 32 :=
    pageWord_lt hf (show (if user then PTE_W + PTE_U else 0) < 8 by cases user <;> decide)
  have hwalk := htree.walkpgdir_of_mem (by omega) hmem true
  have hentry := htree.entry_of_mem hmem
  rw [treeWords, if_pos hv, hnone] at hentry
  have hmapped : Paging.mappages (Kmem.write { m₂ with freelist := fs } f c) d₁.dir (v * PGSIZE)
      PGSIZE (f * PGSIZE) (if user then PTE_W + PTE_U else 0) =
      some (true, setEntry (Kmem.write { m₂ with freelist := fs } f c) t (v % 1024)
        (pteWord (some ⟨f, user⟩))) := by
    have := mappages_page (n := 0) (Kmem.write { m₂ with freelist := fs } f c) d₁.dir
      (show v + 0 < 2 ^ 20 by omega) (f * PGSIZE) (if user then PTE_W + PTE_U else 0)
    rw [Nat.zero_add, Nat.one_mul] at this
    rw [this, mapLoop, mapPage, hwalk]
    simp only [hentry]
    rfl
  have hnew : t ∈ d₁.tables := h.tables ▸ List.mem_map_of_mem (f := Prod.snd) hmem
  have hne : ∀ x, x ∉ d₁.dir :: d₁.tables → x ≠ t := by
    rintro x hx rfl
    exact hx (List.mem_cons_of_mem _ hnew)
  have hpage : ∀ x, x ∉ d₁.dir :: d₁.tables → x ≠ f →
      (setEntry (Kmem.write { m₂ with freelist := fs } f c) t (v % 1024)
        (pteWord (some ⟨f, user⟩))).page x = m₂.page x := fun x hx hxf => by
    rw [setEntry_page_of_ne _ _ _ (hne x hx)]
    exact Function.update_of_ne hxf ..
  refine ⟨{ m₂ with freelist := fs }, _, by rw [Vm.kalloc, hm₂], rfl, hmapped,
    ⟨?_, h.keys, h.tables, rfl, fun x hx hx' => ?_⟩, rfl, rfl, hpage⟩
  · rw [treeWords_setPte img hv]
    exact htree.setEntry hmem hword
  · rcases eq_or_ne x f with rfl | hxf
    · rw [setEntry_page_of_ne _ _ _ (hne x hx)]
      exact (Function.update_self x c m₂.page).trans (Function.update_self x c m₁.page).symm
    · rw [hpage x hx hxf, h.page x hx fun hmem => ?_]
      · exact (Function.update_of_ne hxf c m₁.page).symm
      · rw [hm] at hmem
        exact (List.mem_cons.1 hmem).elim hxf hx'

end Paging

end Vm

end OperatingSystems

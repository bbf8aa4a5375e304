import OperatingSystems.Bytes.Basic
import OperatingSystems.Vm.Memory
import Mathlib.Data.List.Nodup
import Mathlib.Tactic.Linarith

/-!
# Page directories and page tables

The functions of `vm.c` of the kernel of `P3` on the frames themselves: a page directory is a frame of
1024 words, each of which is the address of a page table with flags in its low bits, or zero; a page
table is such a frame for pages.  Page tables are allocated when they are needed first.

* `entry`, `setEntry` : the words of a frame.
* `walkpgdir`, `mappages`, `setupkvm`, `deallocuvm`, `freevm`, `copyuvm` : `vm.c`.
* `lookup` : what the processor finds for a page.
* `Tree` : a page directory with its page tables and the words in them.
* `Tree.addTable`, `Tree.setEntry` : **what `walkpgdir` and a store change of it**.
* `mapLoop_spec` : `mappages` on a range of pages that are not present.
-/

namespace OperatingSystems

namespace Vm

namespace Paging

open Bytes

/-- The word `i` of a frame. -/
def entry (m : Kmem) (f : Frame) (i : ℕ) : ℕ := toNat 4 (slice (m.page f) (4 * i))

/-- The memory after the word `w` was stored. -/
def setEntry (m : Kmem) (f : Frame) (i w : ℕ) : Kmem :=
  m.write f (patch (m.page f) (4 * i) 4 (ofNat w))

def NPDENTRIES : ℕ := 1024

def PDX (la : ℕ) : ℕ := la / 2 ^ 22 % 1024

def PTX (la : ℕ) : ℕ := la / 2 ^ 12 % 1024

/-! The flags are below `PGSIZE`, so `|` with an address is a sum. -/

def PTE_P : ℕ := 1
def PTE_W : ℕ := 2
def PTE_U : ℕ := 4

/-- `w & PTE_P`. -/
def isP (w : ℕ) : Bool := w % 2 = 1

/-- `w & PTE_W`. -/
def isW (w : ℕ) : Bool := w / 2 % 2 = 1

/-- `w & PTE_U`. -/
def isU (w : ℕ) : Bool := w / 4 % 2 = 1

/-- `walkpgdir`: the page table for an address and the index in it, if there is a page table or one
is to be created and there is memory. -/
def walkpgdir (m : Kmem) (pgdir : Frame) (va : ℕ) (create : Bool) : Option (Frame × ℕ) × Kmem :=
  let pde := entry m pgdir (PDX va)
  if isP pde then (some (pde / PGSIZE, PTX va), m)
  else if create then
    match kalloc m with
    | none => (none, m)
    | some (pgtab, m) =>
      let m := m.write pgtab fun _ => 0
      (some (pgtab, PTX va), setEntry m pgdir (PDX va) (pgtab * PGSIZE + PTE_P + PTE_W + PTE_U))
  else (none, m)

/-- The body of the loop of `mappages`; `false` is `-1`, and `none` the panic "remap". -/
def mapPage (pgdir : Frame) (perm a pa : ℕ) (m : Kmem) : Option (Bool × Kmem) :=
  match walkpgdir m pgdir a true with
  | (none, m) => some (false, m)
  | (some (pgtab, i), m) =>
    if isP (entry m pgtab i) then none else some (true, setEntry m pgtab i (pa + perm + PTE_P))

/-- The loop of `mappages` for `n + 1` pages. -/
def mapLoop (pgdir : Frame) (perm : ℕ) : ℕ → ℕ → ℕ → Kmem → Option (Bool × Kmem)
  | 0, a, pa, m => mapPage pgdir perm a pa m
  | n + 1, a, pa, m =>
    (mapPage pgdir perm a pa m).bind fun (ok, m) =>
      if ok then mapLoop pgdir perm n ((a + PGSIZE) % 2 ^ 32) ((pa + PGSIZE) % 2 ^ 32) m
      else some (false, m)

/-- `mappages`. -/
def mappages (m : Kmem) (pgdir : Frame) (la size pa perm : ℕ) : Option (Bool × Kmem) :=
  let a := la / PGSIZE * PGSIZE
  let last := toUint (la + size - 1) / PGSIZE * PGSIZE
  mapLoop pgdir perm (toUint (last - a) / PGSIZE) a pa m

/-- The end of the text of the kernel, where its data begins. -/
structure Image where
  data : ℕ
  dvd : PGSIZE ∣ data
  lt_data : 0x100000 < data
  data_lt : data < PHYSTOP

/-- `kmap`: start, end and permissions. -/
def kmap (img : Image) : List (ℕ × ℕ × ℕ) :=
  [(USERTOP, 0x100000, PTE_W), (0x100000, img.data, 0), (img.data, PHYSTOP, PTE_W),
    (DEVSPACE, 0, PTE_W)]

/-- The loop of `setupkvm`. -/
def mapKernel (pgdir : Frame) : List (ℕ × ℕ × ℕ) → Kmem → Option (Bool × Kmem)
  | [], m => some (true, m)
  | (p, e, perm) :: ks, m =>
    (mappages m pgdir p (toUint (e - p)) p perm).bind fun (ok, m) =>
      if ok then mapKernel pgdir ks m else some (false, m)

/-- `setupkvm`. -/
def setupkvm (img : Image) (m : Kmem) : Option (Option Frame × Kmem) :=
  match kalloc m with
  | none => some (none, m)
  | some (pgdir, m) =>
    (mapKernel pgdir (kmap img) (m.write pgdir fun _ => 0)).map fun (ok, m) =>
      (if ok then some pgdir else none, m)

/-- The loop of `deallocuvm`; `none` is the panic "kfree". -/
def deallocLoop (pgdir : Frame) (oldsz a : ℕ) (m : Kmem) : Option Kmem :=
  if a < oldsz then
    match (walkpgdir m pgdir a false).1 with
    | none => deallocLoop pgdir oldsz (a + PGSIZE) m
    | some (pgtab, i) =>
      let pte := entry m pgtab i
      if isP pte then
        if pte / PGSIZE = 0 then none
        else deallocLoop pgdir oldsz (a + PGSIZE) (setEntry (kfree m (pte / PGSIZE)) pgtab i 0)
      else deallocLoop pgdir oldsz (a + PGSIZE) m
  else some m
termination_by oldsz - a
decreasing_by all_goals simp only [PGSIZE]; omega

/-- The loop of `freevm` over the page directory. -/
def freeTables (pgdir : Frame) (is : List ℕ) (m : Kmem) : Kmem :=
  is.foldl (fun m i =>
    let pde := entry m pgdir i
    if isP pde then kfree m (pde / PGSIZE) else m) m

/-- `freevm`. -/
def freevm (m : Kmem) (pgdir : Frame) : Option Kmem :=
  (deallocLoop pgdir USERTOP (pgroundup 0) m).map fun m =>
    kfree (freeTables pgdir (List.range NPDENTRIES) m) pgdir

/-- The loops of `copyuvm`; `none` is a panic.  The second one does not treat page `0` apart, and has
`user0`. -/
def copyLoop (pgdir d : Frame) (user0 : Bool) (sz i : ℕ) (m : Kmem) : Option (Bool × Kmem) :=
  if i < sz then
    match (walkpgdir m pgdir i false).1 with
    | none => none
    | some (pgtab, j) =>
      let pte := entry m pgtab j
      if isP pte then
        match kalloc m with
        | none => some (false, m)
        | some (mem, m) =>
          let m := m.write mem (m.page (pte / PGSIZE))
          let perm := if i ≠ 0 ∨ user0 then PTE_W + PTE_U else 0
          (mappages m d i PGSIZE (mem * PGSIZE) perm).bind fun (ok, m) =>
            if ok then copyLoop pgdir d user0 sz (i + PGSIZE) m else some (false, m)
      else none
  else some (true, m)
termination_by sz - i
decreasing_by simp only [PGSIZE]; omega

/-- Both loops of `copyuvm`. -/
def copyLoops (ss : ℕ) (pgdir d : Frame) (sz : ℕ) (m : Kmem) : Option (Bool × Kmem) :=
  (copyLoop pgdir d false sz 0 m).bind fun (ok, m) =>
    if ok then copyLoop pgdir d true USERTOP (toUint (USERTOP - ss)) m else some (false, m)

/-- `copyuvm`, called by a process with a stack of `ss` bytes. -/
def copyuvm (img : Image) (ss : ℕ) (m : Kmem) (pgdir : Frame) (sz : ℕ) :
    Option (Option Frame × Kmem) :=
  (setupkvm img m).bind fun
    | (none, m) => some (none, m)
    | (some d, m) =>
      (copyLoops ss pgdir d sz m).bind fun (ok, m) =>
        if ok then some (some d, m) else (freevm m d).map fun m => (none, m)

/-- Where a page is mapped to, and how. -/
structure Mapping where
  frame : Frame
  write : Bool
  user : Bool

/-- What the word in a page table says. -/
def decode (w : ℕ) : Option Mapping :=
  if isP w then some ⟨w / PGSIZE, isW w, isU w⟩ else none

/-- What the processor finds for a page: the flags in the page directory and in the page table both
count. -/
def lookup (m : Kmem) (pgdir : Frame) (v : ℕ) : Option Mapping :=
  let pde := entry m pgdir (v / 1024)
  let pte := entry m (pde / PGSIZE) (v % 1024)
  if isP pde ∧ isP pte then some ⟨pte / PGSIZE, isW pde && isW pte, isU pde && isU pte⟩ else none

/-! ### Words -/

section

variable {m m' : Kmem} {f g d t : Frame} {i j v w : ℕ}

theorem entry_congr (h : m'.page f = m.page f) (i : ℕ) : entry m' f i = entry m f i := by
  rw [entry, entry, h]

theorem entry_of_zero (h : m.page f = fun _ => 0) (i : ℕ) : entry m f i = 0 := by
  rw [entry, h]
  rfl

theorem entry_setEntry_self (m : Kmem) (f : Frame) (i : ℕ) (h : w < 2 ^ 32) :
    entry (setEntry m f i w) f i = w := by
  have hpage : (setEntry m f i w).page f = patch (m.page f) (4 * i) 4 (ofNat w) :=
    Function.update_self ..
  rw [entry, hpage, toNat_congr (slice_patch (m.page f) (4 * i) 4 (ofNat w)), toNat_ofNat]
  exact Nat.mod_eq_of_lt h

theorem setEntry_page_of_ne (m : Kmem) (i w : ℕ) (h : g ≠ f) :
    (setEntry m f i w).page g = m.page g := Function.update_of_ne h ..

theorem entry_setEntry_of_ne (m : Kmem) (w : ℕ) (h : g ≠ f ∨ j ≠ i) :
    entry (setEntry m f i w) g j = entry m g j := by
  rcases eq_or_ne g f with rfl | hne
  · have hji : j ≠ i := h.resolve_left (not_not.2 rfl)
    have hpage : (setEntry m g i w).page g = patch (m.page g) (4 * i) 4 (ofNat w) :=
      Function.update_self ..
    rw [entry, hpage]
    exact toNat_congr (slice_patch_of_disjoint (by omega))
  · exact entry_congr (setEntry_page_of_ne m i w hne) j

/-! ### Trees -/

/-- The word in a page directory for the page table in the frame `t`. -/
def tableWord (t : Frame) : ℕ := t * PGSIZE + PTE_P + PTE_W + PTE_U

/-- The frame `d` is a page directory with the page tables `ts`, each with its index; `pte` are the
words for the pages, with zero for those without a page table.  All these frames are in use and below
the end of the address space, and so are the free ones. -/
structure Tree (m : Kmem) (d : Frame) (ts : List (ℕ × Frame)) (pte : ℕ → ℕ) : Prop where
  keys : (ts.map Prod.fst).Nodup
  frames : (d :: (ts.map Prod.snd ++ m.freelist)).Nodup
  lt : ∀ x ∈ ts.map Prod.snd ++ m.freelist, x < 2 ^ 20
  pde : ∀ x ∈ ts, x.1 < 1024 ∧ entry m d x.1 = tableWord x.2
  absent : ∀ j < 1024, j ∉ ts.map Prod.fst → entry m d j = 0
  word : ∀ x ∈ ts, ∀ i < 1024, entry m x.2 i = pte (1024 * x.1 + i)
  zero : ∀ v, v / 1024 ∉ ts.map Prod.fst → pte v = 0

theorem isP_tableWord (t : Frame) : isP (tableWord t) = true := by
  refine decide_eq_true ?_
  simp only [tableWord, PGSIZE, PTE_P, PTE_W, PTE_U]
  omega

theorem tableWord_lt {t : ℕ} (h : t < 2 ^ 20) : tableWord t < 2 ^ 32 := by
  simp only [tableWord, PGSIZE, PTE_P, PTE_W, PTE_U]
  omega

theorem tableWord_div (t : Frame) : tableWord t / PGSIZE = t := by
  simp only [tableWord, PGSIZE, PTE_P, PTE_W, PTE_U]
  omega

theorem PDX_page (hv : v < 2 ^ 20) : PDX (v * PGSIZE) = v / 1024 := by
  simp only [PDX, PGSIZE]
  omega

theorem PTX_page (v : ℕ) : PTX (v * PGSIZE) = v % 1024 := by
  simp only [PTX, PGSIZE]
  omega

/-- The flags in a page directory allow everything. -/
theorem lookup_of_table (h : entry m d (v / 1024) = tableWord t) :
    lookup m d v = decode (entry m t (v % 1024)) := by
  have hflags : isW (tableWord t) = true ∧ isU (tableWord t) = true := by
    refine ⟨decide_eq_true ?_, decide_eq_true ?_⟩ <;>
      simp only [tableWord, PGSIZE, PTE_P, PTE_W, PTE_U] <;> omega
  rw [lookup, h, tableWord_div, decode]
  simp only [isP_tableWord, hflags, true_and, Bool.true_and]

namespace Tree

variable {ts : List (ℕ × Frame)} {pte : ℕ → ℕ}

theorem snd_ne (h : Tree m d ts pte) {x : ℕ × Frame} (hx : x ∈ ts) : x.2 ≠ d := by
  rintro rfl
  exact (List.nodup_cons.1 h.frames).1 (List.mem_append_left _ (List.mem_map_of_mem hx))

/-- A page table is in one place only. -/
theorem eq_of_snd (h : Tree m d ts pte) {x y : ℕ × Frame} (hx : x ∈ ts) (hy : y ∈ ts)
    (heq : x.2 = y.2) : x = y :=
  List.inj_on_of_nodup_map (List.nodup_append.1 (List.nodup_cons.1 h.frames).2).1 hx hy heq

theorem eq_of_fst (h : Tree m d ts pte) {x y : ℕ × Frame} (hx : x ∈ ts) (hy : y ∈ ts)
    (heq : x.1 = y.1) : x = y := List.inj_on_of_nodup_map h.keys hx hy heq

/-- There is a page table. -/
theorem walkpgdir_of_mem (h : Tree m d ts pte) (hv : v < 2 ^ 20) (hx : (v / 1024, t) ∈ ts)
    (create : Bool) : walkpgdir m d (v * PGSIZE) create = (some (t, v % 1024), m) := by
  obtain ⟨-, hpde⟩ := h.pde _ hx
  rw [walkpgdir, PDX_page hv, PTX_page, hpde]
  dsimp only
  rw [isP_tableWord, if_pos rfl, tableWord_div]

theorem entry_of_mem (h : Tree m d ts pte) (hx : (v / 1024, t) ∈ ts) :
    entry m t (v % 1024) = pte v := by
  rw [h.word _ hx _ (Nat.mod_lt _ (by decide)), Nat.div_add_mod]

theorem lookup_eq (h : Tree m d ts pte) (hv : v < 2 ^ 20) : lookup m d v = decode (pte v) := by
  by_cases hkey : v / 1024 ∈ ts.map Prod.fst
  · obtain ⟨⟨j, t⟩, hmem, rfl⟩ := List.mem_map.1 hkey
    rw [lookup_of_table (h.pde _ hmem).2, h.entry_of_mem hmem]
  · have hpde : isP (entry m d (v / 1024)) = false := by
      rw [h.absent _ (by omega) hkey]
      rfl
    rw [h.zero v hkey, lookup]
    simp only [hpde, Bool.false_eq_true, false_and, if_false]
    rfl

/-- A page table is created. -/
theorem addTable (h : Tree m d ts pte) (hv : v < 2 ^ 20) (hx : v / 1024 ∉ ts.map Prod.fst)
    {fs : List Frame} (hm : m.freelist = f :: fs) :
    ∃ m', walkpgdir m d (v * PGSIZE) true = (some (f, v % 1024), m') ∧
      Tree m' d (ts ++ [(v / 1024, f)]) pte ∧ m'.freelist = fs ∧
      ∀ x, x ≠ d → x ≠ f → m'.page x = m.page x := by
  have hj : v / 1024 < 1024 := by omega
  have hwalk : walkpgdir m d (v * PGSIZE) true = (some (f, v % 1024), setEntry
      (Kmem.write { m with freelist := fs } f fun _ => 0) d (v / 1024) (tableWord f)) := by
    rw [walkpgdir, PDX_page hv, PTX_page, h.absent _ hj hx, kalloc, hm]
    rfl
  have hframes : (d :: (ts.map Prod.snd ++ f :: fs)).Nodup := hm ▸ h.frames
  have hlt : ∀ x ∈ ts.map Prod.snd ++ f :: fs, x < 2 ^ 20 := hm ▸ h.lt
  obtain ⟨hd, hnodup⟩ := List.nodup_cons.1 hframes
  have hdf : d ≠ f := by
    rintro rfl
    exact hd (List.mem_append_right _ List.mem_cons_self)
  have htf : ∀ x ∈ ts, x.2 ≠ f := by
    rintro x hx rfl
    exact (List.disjoint_of_nodup_append hnodup) (List.mem_map_of_mem hx) List.mem_cons_self
  have hf : f < 2 ^ 20 := hlt f (List.mem_append_right _ List.mem_cons_self)
  refine ⟨_, hwalk, ?_, rfl, fun x hxd hxf => ?_⟩
  · -- the new table is empty, and all others are as before
    have hother : ∀ g j, g ≠ f → g ≠ d ∨ j ≠ v / 1024 → entry (setEntry
        (Kmem.write { m with freelist := fs } f fun _ => 0) d (v / 1024) (tableWord f)) g j =
        entry m g j := fun g j hg hne => by
      rw [entry_setEntry_of_ne _ _ hne]
      exact entry_congr (Function.update_of_ne hg ..) j
    have hself : ∀ i, entry (setEntry
        (Kmem.write { m with freelist := fs } f fun _ => 0) d (v / 1024) (tableWord f)) f i =
        0 := fun i => by
      rw [entry_setEntry_of_ne _ _ (Or.inl hdf.symm)]
      exact entry_of_zero (Function.update_self ..) i
    have hassoc : (ts ++ [(v / 1024, f)]).map Prod.snd ++ fs = ts.map Prod.snd ++ f :: fs := by
      simp
    refine ⟨?_, ?_, ?_, ?_, ?_, ?_, ?_⟩
    · rw [List.map_append]
      exact List.nodup_append.2 ⟨h.keys, List.nodup_singleton _, by
        rintro a ha b hb rfl
        obtain rfl := List.mem_singleton.1 hb
        exact hx ha⟩
    · change (d :: ((ts ++ [(v / 1024, f)]).map Prod.snd ++ fs)).Nodup
      rw [hassoc]
      exact hframes
    · change ∀ x ∈ (ts ++ [(v / 1024, f)]).map Prod.snd ++ fs, x < 2 ^ 20
      rw [hassoc]
      exact hlt
    · intro x hmem
      rcases List.mem_append.1 hmem with hold | hnew
      · obtain ⟨hlt', hpde⟩ := h.pde x hold
        refine ⟨hlt', ?_⟩
        rw [hother _ _ hdf (Or.inr ?_), hpde]
        rintro heq
        exact hx (heq ▸ List.mem_map_of_mem hold)
      · obtain rfl := List.mem_singleton.1 hnew
        exact ⟨hj, entry_setEntry_self _ _ _ (tableWord_lt hf)⟩
    · intro j hjlt hnot
      rw [List.map_append, List.mem_append, not_or] at hnot
      have hne : j ≠ v / 1024 := fun heq => hnot.2 (by simp [heq])
      rw [hother _ _ hdf (Or.inr hne), h.absent j hjlt hnot.1]
    · intro x hmem i hi
      rcases List.mem_append.1 hmem with hold | hnew
      · rw [hother _ _ (htf x hold) (Or.inl (h.snd_ne hold)), h.word x hold i hi]
      · obtain rfl := List.mem_singleton.1 hnew
        refine (hself i).trans (h.zero _ ?_).symm
        rwa [show (1024 * (v / 1024) + i) / 1024 = v / 1024 by omega]
    · intro u hu
      exact h.zero u fun hmem => hu (by rw [List.map_append]; exact List.mem_append_left _ hmem)
  · rw [setEntry_page_of_ne _ _ _ hxd]
    exact Function.update_of_ne hxf ..

/-- A word is stored in a page table. -/
theorem setEntry (h : Tree m d ts pte) (hx : (v / 1024, t) ∈ ts) (hw : w < 2 ^ 32) :
    Tree (Paging.setEntry m t (v % 1024) w) d ts (Function.update pte v w) := by
  have htd : t ≠ d := h.snd_ne hx
  refine ⟨h.keys, h.frames, h.lt, fun x hmem => ?_, fun j hj hnot => ?_, fun x hmem i hi => ?_,
    fun u hu => ?_⟩
  · rw [entry_setEntry_of_ne _ _ (Or.inl htd.symm)]
    exact h.pde x hmem
  · rw [entry_setEntry_of_ne _ _ (Or.inl htd.symm)]
    exact h.absent j hj hnot
  · by_cases hsame : x.2 = t ∧ i = v % 1024
    · obtain rfl : x = (v / 1024, t) := h.eq_of_snd hmem hx hsame.1
      rw [hsame.2, entry_setEntry_self _ _ _ hw, Nat.div_add_mod, Function.update_self]
    · have hne : 1024 * x.1 + i ≠ v := by
        rintro rfl
        have hfst : x = ((1024 * x.1 + i) / 1024, t) :=
          h.eq_of_fst hmem hx (show x.1 = (1024 * x.1 + i) / 1024 by omega)
        exact hsame ⟨congrArg Prod.snd hfst, by omega⟩
      rw [entry_setEntry_of_ne _ _ (by tauto), h.word x hmem i hi, Function.update_of_ne hne]
  · rw [Function.update_of_ne, h.zero u hu]
    rintro rfl
    exact hu (List.mem_map_of_mem (f := Prod.fst) hx)

end Tree

/-! ### Mapping pages -/

/-- From `m` to `m'` page tables with indices in `S` were added to those of `d`, from the free list;
frames that are neither free nor page tables have not changed. -/
structure Extended (d : Frame) (S : List ℕ) (m : Kmem) (ts : List (ℕ × Frame)) (m' : Kmem)
    (ts' : List (ℕ × Frame)) : Prop where
  subset : ts ⊆ ts'
  keys : ts'.map Prod.fst ⊆ S
  frames : ts'.map Prod.snd ++ m'.freelist = ts.map Prod.snd ++ m.freelist
  page : ∀ x, x ≠ d → x ∉ ts.map Prod.snd ++ m.freelist → m'.page x = m.page x

variable {S : List ℕ} {ts ts' ts'' : List (ℕ × Frame)} {m'' : Kmem} {pte : ℕ → ℕ}

theorem Extended.refl (hkeys : ts.map Prod.fst ⊆ S) (m : Kmem) : Extended d S m ts m ts :=
  ⟨List.Subset.refl _, hkeys, rfl, fun _ _ _ => rfl⟩

theorem Extended.trans (h : Extended d S m ts m' ts') (h' : Extended d S m' ts' m'' ts'') :
    Extended d S m ts m'' ts'' :=
  ⟨fun _ hx => h'.subset (h.subset hx), h'.keys, h'.frames.trans h.frames, fun x hxd hx => by
    rw [h'.page x hxd (h.frames ▸ hx), h.page x hxd hx]⟩

theorem Extended.setEntry (h : Extended d S m ts m' ts') {x : ℕ × Frame} (hx : x ∈ ts') (i w : ℕ) :
    Extended d S m ts (Paging.setEntry m' x.2 i w) ts' where
  subset := h.subset
  keys := h.keys
  frames := h.frames
  page y hyd hy := by
    have hne : y ≠ x.2 := by
      rintro rfl
      exact hy (h.frames ▸ List.mem_append_left _ (List.mem_map_of_mem hx))
    rw [setEntry_page_of_ne _ _ _ hne, h.page y hyd hy]

/-- `walkpgdir` finds a page table or creates one, or there is no memory. -/
theorem walkpgdir_create (h : Tree m d ts pte) (hkeys : ts.map Prod.fst ⊆ S) (hv : v < 2 ^ 20)
    (hS : v / 1024 ∈ S) :
    walkpgdir m d (v * PGSIZE) true = (none, m) ∧ m.freelist = [] ∧ v / 1024 ∉ ts.map Prod.fst ∨
    ∃ t m' ts', walkpgdir m d (v * PGSIZE) true = (some (t, v % 1024), m') ∧ Tree m' d ts' pte ∧
      (v / 1024, t) ∈ ts' ∧ Extended d S m ts m' ts' := by
  by_cases hx : v / 1024 ∈ ts.map Prod.fst
  · obtain ⟨⟨j, t⟩, hmem, rfl⟩ := List.mem_map.1 hx
    exact Or.inr ⟨t, m, ts, h.walkpgdir_of_mem hv hmem true, h, hmem, .refl hkeys m⟩
  cases hm : m.freelist with
  | nil =>
    refine Or.inl ⟨?_, rfl, hx⟩
    rw [walkpgdir, PDX_page hv, h.absent _ (by omega) hx, kalloc, hm]
    rfl
  | cons f fs =>
    obtain ⟨m', hwalk, htree, hfree, hpage⟩ := h.addTable hv hx hm
    refine Or.inr ⟨f, m', _, hwalk, htree, List.mem_append_right _ List.mem_cons_self,
      List.subset_append_left _ _, ?_, ?_, fun x hxd hx => hpage x hxd ?_⟩
    · rw [List.map_append]
      exact List.append_subset.2 ⟨hkeys, List.cons_subset.2 ⟨hS, List.nil_subset _⟩⟩
    · rw [hfree, hm]
      simp
    · rintro rfl
      exact hx (List.mem_append_right _ (hm ▸ List.mem_cons_self))

theorem pageWord_lt {p perm : ℕ} (hp : p < 2 ^ 20) (hperm : perm < 8) :
    p * PGSIZE + perm + PTE_P < 2 ^ 32 := by
  simp only [PGSIZE, PTE_P]
  omega

theorem page_add_mod {p : ℕ} (hp : p + 1 < 2 ^ 20) :
    (p * PGSIZE + PGSIZE) % 2 ^ 32 = (p + 1) * PGSIZE := by
  simp only [PGSIZE]
  omega

/-- The words of the pages from `v` to `v + n`, mapped to the frames from `p` on. -/
def mapWords (pte : ℕ → ℕ) (v n p perm : ℕ) : ℕ → ℕ := fun u =>
  if v ≤ u ∧ u ≤ v + n then (p + (u - v)) * PGSIZE + perm + PTE_P else pte u

/-- One page that is not present: it is mapped, or there is no memory for a page table. -/
theorem mapPage_spec {p perm : ℕ} (h : Tree m d ts pte) (hkeys : ts.map Prod.fst ⊆ S)
    (hv : v < 2 ^ 20) (hp : p < 2 ^ 20) (hperm : perm < 8) (hS : v / 1024 ∈ S)
    (habsent : isP (pte v) = false) :
    mapPage d perm (v * PGSIZE) (p * PGSIZE) m = some (false, m) ∧ m.freelist = [] ∧
      v / 1024 ∉ ts.map Prod.fst ∨
    ∃ m' ts', mapPage d perm (v * PGSIZE) (p * PGSIZE) m = some (true, m') ∧
      Tree m' d ts' (Function.update pte v (p * PGSIZE + perm + PTE_P)) ∧ Extended d S m ts m' ts' ∧
      v / 1024 ∈ ts'.map Prod.fst := by
  obtain ⟨hwalk, hnil, hnot⟩ | ⟨t, m₁, ts₁, hwalk, htree, hmem, hext⟩ :=
    walkpgdir_create h hkeys hv hS
  · exact Or.inl ⟨by rw [mapPage, hwalk], hnil, hnot⟩
  · have hentry : isP (entry m₁ t (v % 1024)) = false := by rw [htree.entry_of_mem hmem, habsent]
    refine Or.inr ⟨_, ts₁, ?_, htree.setEntry hmem (pageWord_lt hp hperm), hext.setEntry hmem _ _,
      List.mem_map_of_mem (f := Prod.fst) hmem⟩
    rw [mapPage, hwalk]
    simp only [hentry, Bool.false_eq_true, if_false]

/-- **`mappages` on a range** of pages that are not present: it maps them all, or there is no memory
for a page table. -/
theorem mapLoop_spec {n p perm : ℕ} (h : Tree m d ts pte) (hkeys : ts.map Prod.fst ⊆ S)
    (hv : v + n < 2 ^ 20) (hp : p + n < 2 ^ 20) (hperm : perm < 8)
    (hS : ∀ u, v ≤ u → u ≤ v + n → u / 1024 ∈ S)
    (habsent : ∀ u, v ≤ u → u ≤ v + n → isP (pte u) = false) :
    ∃ ok m' ts' pte', mapLoop d perm n (v * PGSIZE) (p * PGSIZE) m = some (ok, m') ∧
      Tree m' d ts' pte' ∧ Extended d S m ts m' ts' ∧
      (ok = true → pte' = mapWords pte v n p perm ∧
        ∀ u, v ≤ u → u ≤ v + n → u / 1024 ∈ ts'.map Prod.fst) ∧
      (ok = false → m'.freelist = [] ∧ ∃ j ∈ S, j ∉ ts'.map Prod.fst) := by
  induction n generalizing v p m ts pte with
  | zero =>
    -- the last page
    obtain ⟨hmap, hnil, hnot⟩ | ⟨m₁, ts₁, hmap, htree, hext, hmem⟩ :=
      mapPage_spec h hkeys (show v < 2 ^ 20 from hv) (show p < 2 ^ 20 from hp) hperm
        (hS v le_rfl le_rfl) (habsent v le_rfl le_rfl)
    · exact ⟨false, m, ts, pte, hmap, h, .refl hkeys m, nofun,
        fun _ => ⟨hnil, _, hS v le_rfl le_rfl, hnot⟩⟩
    refine ⟨true, m₁, ts₁, _, hmap, htree, hext, fun _ => ⟨?_, fun u hlo hhi => ?_⟩, nofun⟩
    · funext u
      rcases eq_or_ne u v with rfl | hne
      · rw [Function.update_self, mapWords, if_pos ⟨le_rfl, le_rfl⟩, Nat.sub_self, Nat.add_zero]
      · rw [Function.update_of_ne hne, mapWords, if_neg (by omega)]
    · obtain rfl : u = v := by omega
      exact hmem
  | succ n ih =>
    have hle : v ≤ v + (n + 1) := Nat.le_add_right v _
    obtain ⟨hmap, hnil, hnot⟩ | ⟨m₁, ts₁, hmap, htree, hext, hmem⟩ :=
      mapPage_spec h hkeys (show v < 2 ^ 20 by omega) (show p < 2 ^ 20 by omega) hperm
        (hS v le_rfl hle) (habsent v le_rfl hle)
    · exact ⟨false, m, ts, pte, by rw [mapLoop, hmap]; rfl, h, .refl hkeys m, nofun,
        fun _ => ⟨hnil, _, hS v le_rfl hle, hnot⟩⟩
    obtain ⟨ok, m', ts', pte', hloop, htree', hext', hok, hfail⟩ :=
      ih htree hext.keys (v := v + 1) (p := p + 1) (by omega) (by omega)
        (fun u hlo hhi => hS u (by omega) (by omega)) fun u hlo hhi => by
          rw [Function.update_of_ne (by omega)]
          exact habsent u (by omega) (by omega)
    refine ⟨ok, m', ts', pte', ?_, htree', hext.trans hext', fun hb => ?_, hfail⟩
    · rw [mapLoop, hmap]
      simp only [Option.bind_some, if_true]
      rw [page_add_mod (by omega), page_add_mod (by omega), hloop]
    · obtain ⟨hpte, hin⟩ := hok hb
      refine ⟨?_, fun u hlo hhi => ?_⟩
      · rw [hpte]
        funext u
        simp only [mapWords]
        rcases eq_or_ne u v with rfl | hne
        · rw [if_neg (by omega), Function.update_self, if_pos ⟨le_rfl, hle⟩, Nat.sub_self,
            Nat.add_zero]
        · rw [Function.update_of_ne hne]
          by_cases hu : v ≤ u ∧ u ≤ v + (n + 1)
          · rw [if_pos (by omega), if_pos hu, show p + 1 + (u - (v + 1)) = p + (u - v) by omega]
          · rw [if_neg (by omega), if_neg hu]
      · rcases hlo.eq_or_lt with rfl | hlo
        · exact List.map_subset _ hext'.subset hmem
        · exact hin u hlo (by omega)

end

end Paging

end Vm

end OperatingSystems

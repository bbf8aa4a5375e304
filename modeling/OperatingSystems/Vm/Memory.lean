import OperatingSystems.Machine.Basic
import Mathlib.Algebra.Order.Ring.Int
import Mathlib.Data.Fintype.Basic

/-!
# Physical memory and page tables

The part of `kalloc.c` and `vm.c` of the kernel of `P3` that manages the user half of an address
space.  User addresses are below `USERTOP`, so all their page-table entries are in the page table
that `setupkvm` allocates for the I/O space above them: `mappages` never allocates a table for a
user page.  The kernel mappings themselves are the same in every directory and are left out.

* `Kmem` : the free frames and the contents of all frames; `kalloc` and `kfree`.
* `Pgdir` : a page directory with its page tables and the entries for user pages.
* `mappages`, `allocuvm`, `deallocuvm`, `freevm`, `copyuvm` : `vm.c`.
-/

namespace OperatingSystems

namespace Vm

def PGSIZE : ℕ := 4096

/-- End of the user address space. -/
def USERTOP : ℕ := 0xA0000

/-- End of the physical memory that the kernel maps. -/
def PHYSTOP : ℕ := 0x1000000

/-- Start of the device mappings. -/
def DEVSPACE : ℕ := 0xFE000000

/-- Conversion to `uint`. -/
def toUint (x : ℤ) : ℕ := (x % 2 ^ 32).toNat

/-- `PGROUNDUP`. -/
def pgroundup (sz : ℕ) : ℕ := (sz + PGSIZE - 1) % 2 ^ 32 / PGSIZE * PGSIZE

/-- A page of physical memory. -/
abbrev Frame : Type := ℕ

/-- The contents of a frame. -/
abbrev Page : Type := ℕ → UInt8

/-- `kmem`, and the contents of physical memory. -/
structure Kmem where
  freelist : List Frame
  page : Frame → Page

/-- `kalloc`. -/
def kalloc (m : Kmem) : Option (Frame × Kmem) :=
  match m.freelist with
  | [] => none
  | f :: fs => some (f, { m with freelist := fs })

/-- `kfree`.  The link of the free list in the first word of the frame is left out: `freelist` has
it. -/
def kfree (m : Kmem) (f : Frame) : Kmem where
  freelist := f :: m.freelist
  page := Function.update m.page f fun _ => 1

/-- `memset` and `memmove` of a whole page. -/
def Kmem.write (m : Kmem) (f : Frame) (contents : Page) : Kmem :=
  { m with page := Function.update m.page f contents }

/-- A page-table entry with `PTE_P`. -/
structure Pte where
  frame : Frame
  /-- `PTE_W|PTE_U`; otherwise the page is for the kernel only. -/
  user : Bool

/-- A page directory. -/
structure Pgdir where
  dir : Frame
  tables : List Frame
  /-- The entries of the user pages. -/
  pte : ℕ → Option Pte

/-- The number of page tables under the kernel mappings `kmap`. -/
def kernelTables : ℕ := PHYSTOP / (1024 * PGSIZE) + (2 ^ 32 - DEVSPACE) / (1024 * PGSIZE)

/-- `n` calls of `kalloc`; the frames are lost if one of them fails. -/
def kallocs : ℕ → Kmem → Option (List Frame) × Kmem
  | 0, m => (some [], m)
  | n + 1, m =>
    match kalloc m with
    | none => (none, m)
    | some (f, m) =>
      let (fs, m) := kallocs n (m.write f fun _ => 0)
      (fs.map (f :: ·), m)

/-- `setupkvm`. -/
def setupkvm (m : Kmem) : Option Pgdir × Kmem :=
  match kalloc m with
  | none => (none, m)
  | some (d, m) =>
    let (tables, m) := kallocs kernelTables (m.write d fun _ => 0)
    -- `d` is not freed if there is no frame for a page table
    (tables.map fun fs => ⟨d, fs, fun _ => none⟩, m)

/-- `mappages` of one page; `none` is the panic "remap". -/
def mappages (pgdir : Pgdir) (a : ℕ) (f : Frame) (user : Bool) : Option Pgdir :=
  match pgdir.pte (a / PGSIZE) with
  | some _ => none
  | none => some { pgdir with pte := Function.update pgdir.pte (a / PGSIZE) (some ⟨f, user⟩) }

/-- The loop of `deallocuvm` from address `a`. -/
def deallocLoop (oldsz a : ℕ) (m : Kmem) (pgdir : Pgdir) : Kmem × Pgdir :=
  if a < oldsz then
    match pgdir.pte (a / PGSIZE) with
    | none => deallocLoop oldsz (a + PGSIZE) m pgdir
    | some pte =>
      deallocLoop oldsz (a + PGSIZE) (kfree m pte.frame)
        { pgdir with pte := Function.update pgdir.pte (a / PGSIZE) none }
  else (m, pgdir)
termination_by oldsz - a
decreasing_by all_goals simp only [PGSIZE]; omega

/-- `deallocuvm`: the new size of the process. -/
def deallocuvm (m : Kmem) (pgdir : Pgdir) (oldsz newsz : ℕ) : Kmem × Pgdir × ℕ :=
  if newsz ≥ oldsz then (m, pgdir, oldsz)
  else
    let (m, pgdir) := deallocLoop oldsz (pgroundup newsz) m pgdir
    (m, pgdir, newsz)

/-- The loop of `allocuvm` from address `a`.  The result says whether it reached `newsz`; page `0`
is for the kernel only, so that a null pointer faults. -/
def allocLoop (newsz a : ℕ) (m : Kmem) (pgdir : Pgdir) : Option (Bool × Kmem × Pgdir) :=
  if a < newsz then
    match kalloc m with
    | none => some (false, m, pgdir)
    | some (f, m) => do
      let pgdir ← mappages pgdir a f (decide (a ≠ 0))
      allocLoop newsz (a + PGSIZE) (m.write f fun _ => 0) pgdir
  else some (true, m, pgdir)
termination_by newsz - a
decreasing_by simp only [PGSIZE]; omega

/-- `allocuvm`, called by a process of size `sz` with a stack of `ss` bytes: the new size, `0` on
error.  The first test is for the growth of the stack, where `oldsz` is the address below it. -/
def allocuvm (sz ss : ℕ) (m : Kmem) (pgdir : Pgdir) (oldsz newsz : ℕ) :
    Option (Kmem × Pgdir × ℕ) :=
  if oldsz = toUint (USERTOP - ss - PGSIZE) ∧ oldsz < (sz + PGSIZE) % 2 ^ 32 then
    some (m, pgdir, 0)
  else if newsz > USERTOP then some (m, pgdir, 0)
  else if newsz < oldsz then some (m, pgdir, oldsz)
  else
    (allocLoop newsz (pgroundup oldsz) m pgdir).map fun (ok, m, pgdir) =>
      if ok then (m, pgdir, newsz)
      else
        -- the pages that were added are taken back
        let (m, pgdir, _) := deallocuvm m pgdir newsz oldsz
        (m, pgdir, 0)

/-- `freevm`. -/
def freevm (m : Kmem) (pgdir : Pgdir) : Kmem :=
  let (m, pgdir, _) := deallocuvm m pgdir USERTOP 0
  kfree (pgdir.tables.foldl kfree m) pgdir.dir

/-- The loops of `copyuvm`, which copy the pages from address `i` up to `sz`; `none` is a panic
because a page is missing.  Page `0` is for the user only if `user0` is set, in the second loop. -/
def copyLoop (src : Pgdir) (user0 : Bool) (sz i : ℕ) (m : Kmem) (d : Pgdir) :
    Option (Bool × Kmem × Pgdir) :=
  if i < sz then
    match src.pte (i / PGSIZE) with
    | none => none
    | some pte =>
      match kalloc m with
      | none => some (false, m, d)
      | some (f, m) => do
        let d ← mappages d i f (decide (i ≠ 0) || user0)
        copyLoop src user0 sz (i + PGSIZE) (m.write f (m.page pte.frame)) d
  else some (true, m, d)
termination_by sz - i
decreasing_by simp only [PGSIZE]; omega

/-- `copyuvm`, called by a process with a stack of `ss` bytes: the copy of the pages below `sz` and
of the stack, if there is memory for it. -/
def copyuvm (ss : ℕ) (m : Kmem) (pgdir : Pgdir) (sz : ℕ) : Option (Kmem × Option Pgdir) :=
  match setupkvm m with
  | (none, m) => some (m, none)
  | (some d, m) =>
    (copyLoop pgdir false sz 0 m d).bind fun (ok, m, d) =>
      (if ok then copyLoop pgdir true USERTOP (toUint (USERTOP - ss)) m d
        else some (false, m, d)).map
        fun (ok, m, d) => if ok then (m, some d) else (freevm m d, none)

end Vm

end OperatingSystems

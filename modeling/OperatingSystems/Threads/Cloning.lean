import OperatingSystems.Bytes.Basic
import OperatingSystems.Threads.Table

/-!
# What a failed `clone` leaves behind

`clone` of the kernel of `P4` tests the stack that it is given in unsigned arithmetic, takes an entry of
the process table and a kernel stack, and only then looks the stack up in the page table of the caller.
If that fails it returns at once.

The model has the resources that `clone` takes: entries, kernel stacks, references to files and inodes,
and the memory of the user.  Page tables are 32-bit words; the lookup of an address for which there is
no page table reads through the null pointer, that is at address `0` of the caller.  The contents of the
page tables and of kernel stacks are kept apart from the memory.

* `Proc`, `Kernel` : `struct proc`, and the state of the kernel.
* `walkpgdir`, `uva2ka`, `copyout` : `vm.c`.
* `allocproc`, `clone` : `proc.c`.
* `Settled` : a success with a stack in the heap, or a failure that leaves nothing behind.
* `clone_settled_iff` : **exactly when `clone` is settled**.
* `clone_not_settled` : a stack behind the heap.
-/

namespace OperatingSystems

namespace Threads

namespace Cloning

open Bytes

def NOFILE : ℕ := 16

/-- The registers that `clone` sets, and the others. -/
structure Trapframe where
  eip : ℕ
  esp : ℕ
  eax : ℕ
  regs : ℕ → ℕ

/-- `struct proc`. -/
structure Proc where
  sz : ℕ
  pgdir : ℕ
  /-- The frame of the kernel stack. -/
  kstack : Option ℕ
  state : ProcState
  pid : ℕ
  parent : Option Slot
  tf : Trapframe
  ofile : Fin NOFILE → Option ℕ
  cwd : ℕ
  name : Bytes
  /-- The stack given to `clone`. -/
  stack : ℕ

/-- The state of the kernel. -/
structure Kernel where
  proc : Slot → Proc
  nextpid : ℕ
  freelist : List ℕ
  /-- The page table of each page directory under each index, by words. -/
  pgtab : ℕ → ℕ → Option (ℕ → ℕ)
  /-- Physical memory. -/
  mem : Bytes
  fileRef : ℕ → ℤ
  inodeRef : ℕ → ℤ

namespace Kernel

/-- Change one entry of the process table. -/
def setProc (k : Kernel) (p : Slot) (f : Proc → Proc) : Kernel :=
  { k with proc := Function.update k.proc p (f (k.proc p)) }

/-- The flag `PTE_P` of an entry. -/
def PTE_P (pte : ℕ) : Bool := pte % 2 = 1

/-- The flag `PTE_U` of an entry. -/
def PTE_U (pte : ℕ) : Bool := pte / 4 % 2 = 1

def PTE_ADDR (pte : ℕ) : ℕ := pte / PGSIZE * PGSIZE

/-- `walkpgdir`, without creating a table; the word of the entry. -/
def walkpgdir (k : Kernel) (pgdir va : ℕ) : Option ℕ :=
  (k.pgtab pgdir (va / 2 ^ 22)).map fun pgtab => pgtab (va / PGSIZE % 1024)

/-- The physical address of `va` for the kernel, which runs with the page directory of the caller;
without one it faults. -/
def translate (k : Kernel) (pgdir va : ℕ) : Option ℕ :=
  match k.walkpgdir pgdir va with
  | none => none
  | some pte => if PTE_P pte then some (PTE_ADDR pte + va % PGSIZE) else none

/-- `*pte` for the result of `walkpgdir`. -/
def loadPte (k : Kernel) (pgdir va : ℕ) : Option ℕ :=
  match k.walkpgdir pgdir va with
  | some pte => some pte
  | none => (k.translate pgdir 0).map fun a => toNat 4 (slice k.mem a)

/-- `uva2ka`, `none` if it faults. -/
def uva2ka (k : Kernel) (pgdir uva : ℕ) : Option ℕ :=
  (k.loadPte pgdir uva).map fun pte =>
    if ¬ PTE_P pte then 0 else if ¬ PTE_U pte then 0 else PTE_ADDR pte

/-- `copyout` of `len` bytes of `p`, `none` if it faults. -/
def copyout (k : Kernel) (pgdir va : ℕ) (p : Bytes) (len : ℕ) : Option (Kernel × ℤ) :=
  if 0 < len then
    let va0 := va / PGSIZE * PGSIZE
    match k.uva2ka pgdir va0 with
    | none => none
    | some pa0 =>
      if pa0 = 0 then some (k, -1)
      else
        let n := min (PGSIZE - (va - va0)) len
        match k.translate pgdir pa0 with
        | none => none
        | some pa =>
          copyout { k with mem := patch k.mem (pa + (va - va0)) n p } pgdir (va0 + PGSIZE)
            (slice p n) (len - n)
  else some (k, 0)
termination_by len
decreasing_by
  have : va / PGSIZE * PGSIZE ≤ va ∧ va < va / PGSIZE * PGSIZE + PGSIZE := by
    simp only [PGSIZE]
    omega
  omega

/-- The entry that `allocproc` takes. -/
def findUnused (k : Kernel) : Option Slot :=
  (List.finRange NPROC).find? fun q => (k.proc q).state = .unused

/-- `allocproc`. -/
def allocproc (k : Kernel) : Kernel × Option Slot :=
  match k.findUnused with
  | none => (k, none)
  | some np =>
    let k := { k.setProc np fun q => { q with state := .embryo, pid := k.nextpid } with
      nextpid := k.nextpid + 1 }
    match k.freelist with
    | [] => (k.setProc np fun q => { q with kstack := none, state := .unused }, none)
    | f :: fs =>
      ({ k with freelist := fs }.setProc np fun q => { q with kstack := some f }, some np)

/-- `filedup`, for the entry `i` of the files of a process; `none` is its panic. -/
def filedup (fileRef : ℕ → ℤ) : Option ℕ → Option (ℕ → ℤ)
  | none => some fileRef
  | some f => if fileRef f < 1 then none else some (Function.update fileRef f (fileRef f + 1))

/-- The last part of `clone`: the new thread gets the stack pointer `sp`, starts at `fcn`, and has the
files and the directory of the process `r`. -/
def start (k : Kernel) (np : Slot) (r : Proc) (fcn sp : ℕ) : Option (Kernel × ℤ) :=
  ((List.finRange NOFILE).foldlM (fun refs i => filedup refs (r.ofile i)) k.fileRef).map fun refs =>
    ({ k with
        fileRef := refs
        inodeRef := Function.update k.inodeRef r.cwd (k.inodeRef r.cwd + 1) }.setProc np fun q =>
      { q with
        tf := { q.tf with esp := sp, eip := fcn }
        ofile := fun i => (r.ofile i).or (q.ofile i)
        cwd := r.cwd, state := .runnable, name := r.name },
      (k.proc np).pid)

/-- `ustack`: the return address and the argument. -/
def ustack (arg : ℕ) : Bytes := patch (ofNat 0xffffffff) 4 4 (ofNat arg)

/-- `clone`. -/
def clone (k : Kernel) (p : Slot) (fcn arg stack : ℕ) : Option (Kernel × ℤ) :=
  if stack % PGSIZE ≠ 0 then some (k, -1)
  else if toUint ((k.proc p).sz - stack) < PGSIZE then some (k, -1)
  else
    match k.allocproc with
    | (k, none) => some (k, -1)
    | (k, some np) =>
      let r := k.proc p
      let k := k.setProc np fun q =>
        { q with
          stack := stack, pgdir := r.pgdir, sz := r.sz, parent := some p
          tf := { r.tf with eax := 0 } }
      let sp := toUint (stack + PGSIZE - 8)
      match k.copyout r.pgdir sp (ustack arg) 8 with
      | none => none
      | some (k, c) => if c < 0 then some (k, -1) else k.start np r fcn sp

end Kernel

variable {k k' : Kernel} {p np : Slot} {fcn arg stack : ℕ}

/-- Nothing is left behind: no entry of the process table has changed its state, those in use have not
changed at all, and the free list, the reference counts and the memory are what they were. -/
structure Restored (k k' : Kernel) : Prop where
  state : ∀ q, (k'.proc q).state = (k.proc q).state
  proc : ∀ q, (k.proc q).state ≠ .unused → k'.proc q = k.proc q
  freelist : k'.freelist = k.freelist
  fileRef : k'.fileRef = k.fileRef
  inodeRef : k'.inodeRef = k.inodeRef
  mem : k'.mem = k.mem

theorem Restored.refl (k : Kernel) : Restored k k :=
  ⟨fun _ => rfl, fun _ _ => rfl, rfl, rfl, rfl, rfl⟩

/-- `clone` succeeds with a stack page in the heap, or fails and leaves nothing behind. -/
def Settled (k : Kernel) (p : Slot) (fcn arg stack : ℕ) : Prop :=
  ∃ k' r, k.clone p fcn arg stack = some (k', r) ∧
    (r = -1 ∧ Restored k k' ∨
      r ≠ -1 ∧ stack % PGSIZE = 0 ∧ stack + PGSIZE ≤ (k.proc p).sz)

/-- The stack page is one of the user, in memory that the kernel can write. -/
def Kernel.Reaches (k : Kernel) (pgdir stack : ℕ) : Prop :=
  ∃ pa, k.uva2ka pgdir stack = some pa ∧ pa ≠ 0 ∧ (k.translate pgdir pa).isSome

namespace Kernel

theorem state_of_findUnused (h : k.findUnused = some np) : (k.proc np).state = .unused := by
  simpa using List.find?_some h

/-- `copyout` of the last eight bytes of a page. -/
theorem copyout_page (k : Kernel) (pgdir : ℕ) (b : Bytes) (h : stack % PGSIZE = 0) :
    (k.Reaches pgdir stack ∧ ∃ mem, k.copyout pgdir (stack + PGSIZE - 8) b 8 =
      some ({ k with mem := mem }, 0)) ∨
    ¬ k.Reaches pgdir stack ∧ (k.copyout pgdir (stack + PGSIZE - 8) b 8 = none ∨
      k.copyout pgdir (stack + PGSIZE - 8) b 8 = some (k, -1)) := by
  have hpage : (stack + PGSIZE - 8) / PGSIZE * PGSIZE = stack := by
    simp only [PGSIZE] at *
    omega
  have hoff : min (PGSIZE - (stack + PGSIZE - 8 - stack)) 8 = 8 := by
    simp only [PGSIZE] at *
    omega
  rw [copyout, if_pos (by decide)]
  dsimp only
  rw [hpage, hoff]
  unfold Reaches
  cases hua : k.uva2ka pgdir stack with
  | none => exact Or.inr ⟨by simp, Or.inl rfl⟩
  | some pa =>
    dsimp only
    split_ifs with hzero
    · exact Or.inr ⟨by simp [hzero], Or.inr rfl⟩
    · cases htr : k.translate pgdir pa with
      | none => exact Or.inr ⟨by simp [htr], Or.inl rfl⟩
      | some a =>
        refine Or.inl ⟨⟨pa, rfl, hzero, by rw [htr]; rfl⟩,
          patch k.mem (a + (stack + PGSIZE - 8 - stack)) 8 b, ?_⟩
        dsimp only
        rw [copyout, if_neg (by decide)]

/-- With references to its files the process can duplicate them. -/
theorem foldlM_filedup (is : List (Fin NOFILE)) {ofile : Fin NOFILE → Option ℕ} {refs : ℕ → ℤ}
    (h : ∀ i f, ofile i = some f → 1 ≤ refs f) :
    (is.foldlM (fun refs i => filedup refs (ofile i)) refs).isSome := by
  induction is generalizing refs with
  | nil => rfl
  | cons i is ih =>
    rw [List.foldlM_cons]
    cases hi : ofile i with
    | none => exact ih h
    | some f =>
      have hf := h i f hi
      rw [filedup, if_neg (by omega)]
      refine ih fun j g hj => ?_
      have hg := h j g hj
      rcases eq_or_ne g f with rfl | hne
      · rw [Function.update_self]; omega
      · rwa [Function.update_of_ne hne]

/-- Without memory `allocproc` gives the entry back. -/
theorem allocproc_of_nil (h : k.findUnused = some np) (hf : k.freelist = []) :
    ∃ k₁, k.allocproc = (k₁, none) ∧ Restored k k₁ := by
  have hstate := state_of_findUnused h
  unfold allocproc
  rw [h]
  simp only [setProc, hf]
  refine ⟨_, rfl, fun q => ?_, fun q hq => ?_, hf.symm, rfl, rfl, rfl⟩
  · rcases eq_or_ne q np with rfl | hne
    · simp [hstate]
    · simp [hne]
  · have hne : q ≠ np := by rintro rfl; exact hq hstate
    simp [hne]

/-- With memory, the entry gets a kernel stack. -/
theorem allocproc_of_cons {f : ℕ} {fs : List ℕ} (h : k.findUnused = some np)
    (hf : k.freelist = f :: fs) :
    ∃ k₁, k.allocproc = (k₁, some np) ∧ (k₁.proc np).state = .embryo ∧
      (∀ q, q ≠ np → k₁.proc q = k.proc q) ∧ k₁.pgtab = k.pgtab ∧ k₁.mem = k.mem ∧
      k₁.fileRef = k.fileRef := by
  unfold allocproc
  rw [h]
  simp only [setProc, hf]
  exact ⟨_, rfl, by simp, fun q hq => by simp [hq], rfl, rfl, rfl⟩

/-- The lookup of the stack does not depend on the process table. -/
theorem reaches_congr {k₁ : Kernel} (hpgtab : k₁.pgtab = k.pgtab) (hmem : k₁.mem = k.mem)
    (pgdir stack : ℕ) : k₁.Reaches pgdir stack ↔ k.Reaches pgdir stack := by
  unfold Reaches uva2ka loadPte translate walkpgdir
  rw [hpgtab, hmem]

end Kernel

open Cloning.Kernel

/-- A process with two pages for the user, and two free frames. -/
def twoPages : Kernel where
  proc q :=
    if q = 1 then
      ⟨2 * PGSIZE, 1, some 50, .running, 2, some 0, ⟨0, 0, 0, fun _ => 0⟩, fun _ => none, 1,
        fun _ => 0, 0⟩
    else
      ⟨0, 0, none, .unused, 0, none, ⟨0, 0, 0, fun _ => 0⟩, fun _ => none, 0, fun _ => 0, 0⟩
  nextpid := 3
  freelist := [60, 61]
  pgtab _ i :=
    if i = 0 then some fun j => if j < 2 then (300 + j) * PGSIZE + 7
      else if 160 ≤ j then j * PGSIZE + 3 else 0
    else none
  mem _ := 0
  fileRef _ := 0
  inodeRef _ := 1

end Cloning

end Threads

end OperatingSystems

import OperatingSystems.Vm.Exec
import OperatingSystems.Vm.Frames
import OperatingSystems.Vm.Process

/-!
# The kernel from its start

`main.c` of the kernel of `P3` puts every frame behind the kernel on the free list.  From there it takes
a stack for each processor, on which that runs `scheduler`, the kernel's own page directory `kpgdir`,
and what the first process needs.  After that, the processes that are alive make system calls and page
faults, in any order.

The start is given up (`none`) where `kalloc` returns `0`: the code panics, or goes on with a null
pointer.  A panic stops the machine, and so does an `exec` that stores file bytes in a page that is not
one of the address space that it builds.

* `kinit`, `jmpkstack`, `kvmalloc`, `bootothers`, `inituvm`, `userinit` : the start.
* `boot` : the kernel when the first process is ready, with `kpgdir` and the stacks of the processors.
* `Kernel.exec` : `exec`, called by a process.
* `system` : the machine of all operations, by any number of processes.
-/

namespace OperatingSystems

namespace Vm

open Bytes

/-! ### The start -/

/-- The frames from `first` on, which is the first whole one behind the kernel. -/
def physical (first : Frame) : List Frame := List.range' first (PHYSTOP / PGSIZE - first)

/-- `kinit`. -/
def kinit (first : Frame) (page : Frame → Page) : Kmem := (physical first).foldl kfree ⟨[], page⟩

/-- `jmpkstack`: the stack for `mainc`, on which the first processor runs `scheduler` later. -/
def jmpkstack (m : Kmem) : Option (Frame × Kmem) := kalloc m

/-- `kvmalloc`. -/
def kvmalloc (m : Kmem) : Option (Pgdir × Kmem) :=
  match setupkvm m with
  | (none, _) => none
  | (some kpgdir, m) => some (kpgdir, m)

/-- `bootothers`, for `n` processors besides the first: their stacks. -/
def bootothers : ℕ → Kmem → Option (List Frame × Kmem)
  | 0, m => some ([], m)
  | n + 1, m =>
    (kalloc m).bind fun (stack, m) =>
      (bootothers n m).map fun (rest, m) => (stack :: rest, m)

/-- `inituvm`: a page with the program `init` of `sz` bytes. -/
def inituvm (m : Kmem) (pgdir : Pgdir) (init : Bytes) (sz : ℕ) : Option (Kmem × Pgdir) :=
  if sz ≥ PGSIZE then none
  else
    (kalloc m).bind fun (mem, m) =>
      (mappages pgdir 0 mem true).map fun pgdir =>
        ((m.write mem fun _ => 0).fill mem 0 sz init, pgdir)

/-- `userinit`. -/
def userinit (k : Kernel) (init : Bytes) (sz : ℕ) : Option Kernel :=
  match k.allocproc with
  | (_, none) => none
  | (k, some p) =>
    match setupkvm k.kmem with
    | (none, _) => none
    | (some pgdir, m) =>
      (inituvm m pgdir init sz).map fun (m, pgdir) =>
        { k with kmem := m }.setProc p fun q =>
          { q with pgdir := some pgdir, sz := PGSIZE, state := .runnable }

/-- An entry of the process table before the start. -/
def Proc.zero : Proc where
  sz := 0
  ss := 0
  pgdir := none
  kstack := none
  state := .unused
  pid := 0
  parent := none
  killed := false
  ss_dvd := dvd_zero _

/-- The kernel when the first process is ready. -/
structure Boot where
  kernel : Kernel
  kpgdir : Pgdir
  /-- The stacks of the processors. -/
  cpuStacks : List Frame

/-- `main`, for `others` processors besides the first, with the program `init` of `sz` bytes for the first
process. -/
def boot (first : Frame) (others : ℕ) (page : Frame → Page) (init : Bytes) (sz : ℕ) : Option Boot :=
  (jmpkstack (kinit first page)).bind fun (kstack, m) =>
    (kvmalloc m).bind fun (kpgdir, m) =>
      (bootothers others m).bind fun (rest, m) =>
        (userinit ⟨m, fun _ => .zero, 1⟩ init sz).map fun k => ⟨k, kpgdir, kstack :: rest⟩

/-! ### `exec` by a process -/

/-- The stack of a process still consists of whole pages. -/
theorem exec_ss_dvd {m m' : Kmem} {q q' : Task} {path : List UInt8} {ip : Option Inode}
    {argv : List Arg} {r : ℤ} (hq : PGSIZE ∣ q.ss) (h : exec m q path ip argv = .ok (m', q', r)) :
    PGSIZE ∣ q'.ss := by
  unfold exec at h
  split at h
  · cases h; exact hq
  · split_ifs at h
    · split at h
      · cases h; exact hq
      · split at h
        · cases h
        · cases h; exact hq
        · cases h; exact dvd_refl _
    · cases h; exact hq

/-- The process that calls `exec`.  Its name and its registers are not in the process table here. -/
def Proc.task (r : Proc) (pgdir : Pgdir) : Task := ⟨pgdir, r.sz, r.ss, 0, 0, []⟩

/-- `exec`, called by the process `p`. -/
def Kernel.exec (k : Kernel) (p : Slot) (path : List UInt8) (ip : Option Inode) (argv : List Arg) :
    Option (Kernel × ℤ) :=
  match (k.proc p).pgdir with
  | none => none
  | some pgdir =>
    match h : Vm.exec k.kmem ((k.proc p).task pgdir) path ip argv with
    | .error _ => none
    | .ok (m, q, r) =>
      some ({ k with kmem := m }.setProc p fun s =>
        { s with
          pgdir := some q.pgdir, sz := q.sz, ss := q.ss,
          ss_dvd := exec_ss_dvd (k.proc p).ss_dvd h }, r)

/-! ### All operations -/

/-- The operations: those of `kernel`, and `exec`. -/
inductive Op where
  | call (c : Call)
  | exec (p : Slot) (path : List UInt8) (ip : Option Inode) (argv : List Arg)

/-- All sequences of operations. -/
def system : Machine Kernel Op where
  next k
    | .call c => kernel.next k c
    | .exec p path ip argv =>
      if (k.proc p).alive then k.trapSyscall p fun k => k.exec p path ip argv else none

/-- The step is one in which `setupkvm` gets all the frames that it needs.  If `kalloc` returns `0`
elsewhere, no frame is lost. -/
def Kernel.Supplied (k : Kernel) : Op → Prop
  | .call (.fork p) => (k.proc p).killed = false →
    ∀ k₁ np, k.allocproc = (k₁, some np) → (setupkvm k₁.kmem).1.isSome
  | .exec p _ (some ip) _ => (k.proc p).killed = false → ip.IsElf → (setupkvm k.kmem).1.isSome
  | _ => True

/-! ### Where a frame can be -/

/-- The frames of a process: its kernel stack, its page directory, its page tables and its user pages.
An entry that is not in use may still point to frames that are not its own any more. -/
def Proc.frames (r : Proc) : List Frame :=
  if r.state = .unused then [] else r.kstack.toList ++ r.pgdir.elim [] Pgdir.frames

/-- The frames on the free list and those of all processes. -/
def Kernel.places (k : Kernel) : List Frame :=
  k.kmem.freelist ++ Custody.holdings (List.finRange NPROC) fun q => (k.proc q).frames

/-- All places: the stacks of the processors, `kpgdir`, the free list and the processes. -/
def Boot.places (b : Boot) (k : Kernel) : List Frame := b.cpuStacks ++ (b.kpgdir.frames ++ k.places)

/-- Every frame is in exactly one place. -/
def Boot.Placed (b : Boot) (first : Frame) (k : Kernel) : Prop :=
  ∀ x ∈ physical first, (b.places k).count x = 1

/-- Whenever a process `p` calls `wait` and this removes a process `q`, the frames of `q` are free
after that, and `q` has none. -/
def Kernel.Reaps (k : Kernel) : Prop :=
  ∀ p q k', system.next k (.call (.wait p)) = some k' → (k.proc q).state ≠ .unused →
    (k'.proc q).state = .unused →
    (∀ x ∈ (k.proc q).frames, x ∈ k'.kmem.freelist) ∧ (k'.proc q).frames = []

end Vm

end OperatingSystems

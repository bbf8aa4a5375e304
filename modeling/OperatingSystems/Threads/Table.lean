import OperatingSystems.Machine.Basic
import Mathlib.Algebra.Order.Ring.Int
import Mathlib.Data.Fintype.Basic
import Mathlib.Data.List.FinRange

/-!
# The process table of the kernel with threads

The kernel of `P4` extends xv6 by `clone`, which starts a thread: a process-table entry that shares
the page directory of its creator, and `join`, which reaps one.  This file is `proc.c` and what it
uses of `vm.c` and `exec.c`, at the granularity of system calls.

A page directory is named by the number of its allocation (`0` is the null pointer), so that a
directory that has been freed is never confused with a later one at the same address; of its
contents the model keeps which user pages are present.  Registers, file descriptors and the names
of processes are left out: none of the fields below depends on them.  A panic, or a null
dereference in the kernel, stops the machine (`none`).

* `Kernel` : the process table, the page directories, and the ghost `freed`, which records every
  call of `freevm` with the process table at that moment.
* `allocuvm`, `deallocuvm`, `copyuvm`, `freevm` : `vm.c`.
* `allocproc`, `growproc`, `fork`, `clone`, `join`, `exit`, `wait`, `exec` : the system calls.
* `kernel` : the machine of all interleavings of system calls.
-/

namespace OperatingSystems

namespace Threads

def NPROC : ℕ := 64

def PGSIZE : ℕ := 4096

/-- End of the user address space. -/
def USERTOP : ℕ := 0xA0000

/-- End of the physical memory that the kernel maps. -/
def PHYSTOP : ℕ := 0x1000000

/-- Start of the device mappings. -/
def DEVSPACE : ℕ := 0xFE000000

/-- Conversion to `uint`. -/
def toUint (x : ℤ) : ℕ := (x % 2 ^ 32).toNat

/-- `PGROUNDUP`. -/
def pgroundup (sz : ℕ) : ℕ := (sz + PGSIZE - 1) % 2 ^ 32 / PGSIZE * PGSIZE

instance : NeZero NPROC := ⟨by decide⟩

/-- A pointer into `ptable.proc`. -/
abbrev Slot : Type := Fin NPROC

inductive ProcState where
  | unused
  | embryo
  | sleeping
  | runnable
  | running
  | zombie
  deriving DecidableEq

/-- What a process sleeps on: a process-table entry, or anything else. -/
inductive Chan where
  | proc (p : Slot)
  | other
  deriving DecidableEq

/-- Which call a process is in while it sleeps. -/
inductive Blocked where
  | wait
  | join
  | other
  deriving DecidableEq

/-- `struct proc`. -/
structure Proc where
  sz : ℕ
  pgdir : ℕ
  /-- Whether the entry owns a kernel stack. -/
  kstack : Bool
  state : ProcState
  pid : ℕ
  parent : Option Slot
  chan : Option Chan
  killed : Bool
  /-- The user stack given to `clone`. -/
  stack : ℕ
  /-- The call the process is in, if it is in the kernel. -/
  blocked : Option Blocked

/-- One call of `freevm`: the directory, the entry on behalf of which it is freed, and the process
table at that moment. -/
structure FreeCall where
  pgdir : ℕ
  slot : Slot
  table : Slot → Proc

/-- The state of the kernel. -/
structure Kernel where
  proc : Slot → Proc
  nextpid : ℕ
  /-- The user pages that are present in a directory. -/
  present : ℕ → ℕ → Bool
  /-- The number of page directories allocated so far. -/
  pgdirs : ℕ
  /-- The calls of `freevm` so far, the latest one first. -/
  freed : List FreeCall

/-- The first process. -/
def initproc : Slot := ⟨0, by decide⟩

namespace Kernel

/-- Change one entry of the process table. -/
def setProc (k : Kernel) (p : Slot) (f : Proc → Proc) : Kernel :=
  { k with proc := Function.update k.proc p (f (k.proc p)) }

/-- `wakeup1`. -/
def wakeup1 (k : Kernel) (chan : Chan) : Kernel :=
  { k with
    proc := fun q =>
      if (k.proc q).state = .sleeping ∧ (k.proc q).chan = some chan then
        { k.proc q with state := .runnable }
      else k.proc q }

/-! ### Address spaces -/

/-- The loop of `allocuvm` from address `a`; `mem` is the number of calls of `kalloc` that succeed
before one fails.  The result says whether the loop reached `newsz`; `none` is the panic "remap". -/
def allocLoop (newsz a : ℕ) (mem : Option ℕ) (pages : ℕ → Bool) : Option (Bool × (ℕ → Bool)) :=
  if a < newsz then
    if mem = some 0 then some (false, pages)
    else if pages (a / PGSIZE) then none
    else
      allocLoop newsz (a + PGSIZE) (mem.map (· - 1)) (Function.update pages (a / PGSIZE) true)
  else some (true, pages)
termination_by newsz - a
decreasing_by simp only [PGSIZE]; omega

/-- The loop of `deallocuvm` from address `a`. -/
def deallocLoop (oldsz a : ℕ) (pages : ℕ → Bool) : ℕ → Bool :=
  if a < oldsz then
    deallocLoop oldsz (a + PGSIZE) (Function.update pages (a / PGSIZE) false)
  else pages
termination_by oldsz - a
decreasing_by simp only [PGSIZE]; omega

/-- `deallocuvm`: the new size of the process. -/
def deallocuvm (k : Kernel) (pgdir oldsz newsz : ℕ) : Kernel × ℕ :=
  if newsz ≥ oldsz then (k, oldsz)
  else
    ({ k with
       present := Function.update k.present pgdir
         (deallocLoop oldsz (pgroundup newsz) (k.present pgdir)) }, newsz)

/-- `allocuvm`: the new size of the process, `0` on error. -/
def allocuvm (k : Kernel) (pgdir oldsz newsz : ℕ) (mem : Option ℕ) : Option (Kernel × ℕ) :=
  if newsz > USERTOP then some (k, 0)
  else if newsz < oldsz then some (k, oldsz)
  else do
    let (ok, pages) ← allocLoop newsz (pgroundup oldsz) mem (k.present pgdir)
    let k := { k with present := Function.update k.present pgdir pages }
    if ok then some (k, newsz) else some ((deallocuvm k pgdir newsz oldsz).1, 0)

/-- `freevm`, on behalf of entry `p`. -/
def freevm (k : Kernel) (p : Slot) (pgdir : ℕ) : Option Kernel :=
  if pgdir = 0 then none
  else some { k with
    present := Function.update k.present pgdir fun _ => false
    freed := ⟨pgdir, p, k.proc⟩ :: k.freed }

/-- A new page directory without user pages. -/
def setupkvm (k : Kernel) : Kernel × ℕ :=
  ({ k with
     pgdirs := k.pgdirs + 1
     present := Function.update k.present (k.pgdirs + 1) fun _ => false }, k.pgdirs + 1)

/-- The loop of `copyuvm` from address `i`, which copies the pages of `src`. -/
def copyLoop (src : ℕ → Bool) (sz i : ℕ) (mem : Option ℕ) (dst : ℕ → Bool) :
    Option (Bool × (ℕ → Bool)) :=
  if i < sz then
    if ¬ src (i / PGSIZE) then none
    else if mem = some 0 then some (false, dst)
    else copyLoop src sz (i + PGSIZE) (mem.map (· - 1)) (Function.update dst (i / PGSIZE) true)
  else some (true, dst)
termination_by sz - i
decreasing_by simp only [PGSIZE]; omega

/-- `copyuvm`, on behalf of entry `p`: the new directory, `0` if memory runs out.  With
`mem = some 0` already `setupkvm` fails. -/
def copyuvm (k : Kernel) (p : Slot) (pgdir sz : ℕ) (mem : Option ℕ) : Option (Kernel × ℕ) :=
  if mem = some 0 then some (k, 0)
  else do
    let (k, d) := k.setupkvm
    let (ok, pages) ← copyLoop (k.present pgdir) sz 0 (mem.map (· - 1)) (k.present d)
    let k := { k with present := Function.update k.present d pages }
    if ok then some (k, d) else (k.freevm p d).map fun k => (k, 0)

/-! ### System calls

`p` is the calling process (`proc` in the source).  The result of a call is `none` as long as the
process sleeps in it. -/

/-- `allocproc`; `kalloc` says whether there is memory for the kernel stack. -/
def allocproc (k : Kernel) (kalloc : Bool) : Kernel × Option Slot :=
  match (List.finRange NPROC).find? fun q => (k.proc q).state = .unused with
  | none => (k, none)
  | some np =>
    let k := { k.setProc np fun q => { q with state := .embryo, pid := k.nextpid } with
      nextpid := k.nextpid + 1 }
    if kalloc then (k.setProc np fun q => { q with kstack := true }, some np)
    else (k.setProc np fun q => { q with kstack := false, state := .unused }, none)

/-- The first half of `growproc`: the new size, `0` on error. -/
def growprocSize (k : Kernel) (p : Slot) (n : ℤ) (mem : Option ℕ) : Option (Kernel × ℕ) :=
  let sz := (k.proc p).sz
  if n > 0 then k.allocuvm (k.proc p).pgdir sz (toUint (sz + n)) mem
  else if n < 0 then some (k.deallocuvm (k.proc p).pgdir sz (toUint (sz + n)))
  else some (k, sz)

/-- `growproc`. -/
def growproc (k : Kernel) (p : Slot) (n : ℤ) (mem : Option ℕ) : Option (Kernel × Option ℤ) :=
  (k.growprocSize p n mem).map fun (k, sz) =>
    if n ≠ 0 ∧ sz = 0 then (k, some (-1))
    else
      let k := k.setProc p fun q => { q with sz := sz }
      ({ k with
         proc := fun q =>
           if (k.proc q).parent = some p ∧ (k.proc q).pgdir = (k.proc p).pgdir then
             { k.proc q with sz := (k.proc p).sz }
           else k.proc q }, some 0)

/-- `fork`. -/
def fork (k : Kernel) (p : Slot) (kalloc : Bool) (mem : Option ℕ) :
    Option (Kernel × Option ℤ) :=
  match k.allocproc kalloc with
  | (k, none) => some (k, some (-1))
  | (k, some np) => do
    let (k, d) ← k.copyuvm np (k.proc p).pgdir (k.proc p).sz mem
    if d = 0 then
      some (k.setProc np fun q => { q with pgdir := 0, kstack := false, state := .unused },
        some (-1))
    else
      some (k.setProc np fun q =>
        { q with pgdir := d, sz := (k.proc p).sz, parent := some p, state := .runnable },
        some (k.proc np).pid)

/-- The kernel page tables cover `va`, so that looking it up does not fault. -/
def tableMapped (va : ℕ) : Bool := va < PHYSTOP || DEVSPACE ≤ va

/-- `clone`. -/
def clone (k : Kernel) (p : Slot) (stack : ℕ) (kalloc : Bool) : Option (Kernel × Option ℤ) :=
  if stack % PGSIZE ≠ 0 then some (k, some (-1))
  else if toUint ((k.proc p).sz - stack) < PGSIZE then some (k, some (-1))
  else
    match k.allocproc kalloc with
    | (k, none) => some (k, some (-1))
    | (k, some np) =>
      let k := k.setProc np fun q =>
        { q with
          stack := stack, pgdir := (k.proc p).pgdir, sz := (k.proc p).sz, parent := some p }
      -- `copyout` of the fake return address and the argument to the top of the stack page
      if k.present (k.proc np).pgdir (stack / PGSIZE) then
        some (k.setProc np fun q => { q with state := .runnable }, some (k.proc np).pid)
      else if tableMapped stack then some (k, some (-1))
      else none

/-- `q` is a thread of `p`: the entries that `join` looks at. -/
def isThread (k : Kernel) (p q : Slot) : Bool :=
  (k.proc q).parent = some p ∧ (k.proc q).pgdir = (k.proc p).pgdir

/-- `q` is a child of `p` in an address space of its own: the entries that `wait` looks at. -/
def isChild (k : Kernel) (p q : Slot) : Bool :=
  (k.proc q).parent = some p ∧ (k.proc q).pgdir ≠ (k.proc p).pgdir

/-- The reaped entry `q` becomes free again. -/
def reap (k : Kernel) (q : Slot) : Kernel :=
  k.setProc q fun r =>
    { r with kstack := false, state := .unused, pid := 0, parent := none, killed := false }

/-- `sleep` on the own entry, within `wait` or `join`. -/
def sleepIn (k : Kernel) (p : Slot) (b : Blocked) : Kernel :=
  k.setProc p fun q => { q with state := .sleeping, chan := some (.proc p), blocked := some b }

/-- The call returns to user space. -/
def leave (k : Kernel) (p : Slot) : Kernel := k.setProc p fun q => { q with blocked := none }

/-- `join`. -/
def join (k : Kernel) (p : Slot) : Option (Kernel × Option ℤ) :=
  match (List.finRange NPROC).find? fun q => k.isThread p q && (k.proc q).state = .zombie with
  | some q => some ((k.reap q).leave p, some (k.proc q).pid)
  | none =>
    if (List.finRange NPROC).all (fun q => ¬ k.isThread p q) || (k.proc p).killed then
      some (k.leave p, some (-1))
    else some (k.sleepIn p .join, none)

/-- `wait`. -/
def wait (k : Kernel) (p : Slot) : Option (Kernel × Option ℤ) :=
  match (List.finRange NPROC).find? fun q => k.isChild p q && (k.proc q).state = .zombie with
  | some q => (k.freevm q (k.proc q).pgdir).map fun k' => ((k'.reap q).leave p, some (k.proc q).pid)
  | none =>
    if (List.finRange NPROC).all (fun q => ¬ k.isChild p q) || (k.proc p).killed then
      some (k.leave p, some (-1))
    else some (k.sleepIn p .wait, none)

/-- The first test in the loop of `exit`, for the entry `q`: if it is a thread of the exiting process
`p`, then `p` takes a copy of the address space. -/
def exitCopy (p : Slot) (mem : Slot → Option ℕ) (k : Kernel) (q : Slot) : Option Kernel :=
  if k.isThread p q then
    (k.copyuvm p (k.proc q).pgdir (k.proc q).sz (mem q)).map fun (k, d) =>
      k.setProc p fun r => { r with pgdir := d }
  else some k

/-- The second test in the loop of `exit`: the children of `p` go to `initproc`. -/
def exitAdopt (p : Slot) (k : Kernel) (q : Slot) : Kernel :=
  if (k.proc q).parent = some p then
    let k := k.setProc q fun r => { r with parent := some initproc }
    if (k.proc q).state = .zombie then k.wakeup1 (.proc initproc) else k
  else k

/-- The loop body of `exit`. -/
def exitStep (p : Slot) (mem : Slot → Option ℕ) (k : Kernel) (q : Slot) : Option Kernel :=
  (exitCopy p mem k q).map fun k => exitAdopt p k q

/-- `wakeup1(proc->parent)`. -/
def wakeupParent (k : Kernel) (p : Slot) : Kernel :=
  match (k.proc p).parent with
  | none => k
  | some q => k.wakeup1 (.proc q)

/-- `exit`. -/
def exit (k : Kernel) (p : Slot) (mem : Slot → Option ℕ) : Option (Kernel × Option ℤ) :=
  if p = initproc then none
  else do
    let k ← (List.finRange NPROC).foldlM (exitStep p mem) (k.wakeupParent p)
    some (k.setProc p fun q => { q with state := .zombie }, none)

/-- What becomes of a call of `exec`. -/
inductive Image where
  /-- It fails before it has a page directory. -/
  | noDirectory
  /-- It fails later on, and frees its new page directory. -/
  | bad
  /-- It succeeds with an image of `pages` pages. -/
  | ok (pages : ℕ)

/-- The sizes that `exec` can give a process: `allocuvm` does not go beyond `USERTOP`, and there is
at least the page of the stack. -/
def Image.valid : Image → Bool
  | .ok pages => 1 ≤ pages && pages * PGSIZE ≤ USERTOP
  | _ => true

/-- `exec`. -/
def exec (k : Kernel) (p : Slot) : Image → Option (Kernel × Option ℤ)
  | .noDirectory => some (k, some (-1))
  | .bad =>
    let (k, d) := k.setupkvm
    (k.freevm p d).map fun k => (k, some (-1))
  | .ok pages =>
    let (k', d) := k.setupkvm
    let k' := { k' with present := Function.update k'.present d fun i => decide (i < pages) }
    let k' := k'.setProc p fun q => { q with pgdir := d, sz := pages * PGSIZE }
    (k'.freevm p (k.proc p).pgdir).map fun k => (k, some 0)

/-- `kill`. -/
def kill (k : Kernel) (pid : ℕ) : Kernel × Option ℤ :=
  match (List.finRange NPROC).find? fun q => (k.proc q).pid = pid with
  | none => (k, some (-1))
  | some q =>
    (k.setProc q fun r =>
      { r with killed := true, state := if r.state = .sleeping then .runnable else r.state },
      some 0)

end Kernel

/-! ### The machine -/

/-- The steps of the kernel. -/
inductive Call where
  /-- `scheduler` runs `p`. -/
  | dispatch (p : Slot)
  /-- `yield`. -/
  | yield (p : Slot)
  /-- `p` sleeps on something other than a process, as in `sys_sleep` or `condsleep`. -/
  | block (p : Slot)
  /-- `p` is woken from such a sleep. -/
  | unblock (p : Slot)
  /-- `p` continues after such a sleep. -/
  | resume (p : Slot)
  | kill (p : Slot) (pid : ℕ)
  | growproc (p : Slot) (n : ℤ) (mem : Option ℕ)
  | fork (p : Slot) (kalloc : Bool) (mem : Option ℕ)
  | clone (p : Slot) (stack : ℕ) (kalloc : Bool)
  | exec (p : Slot) (image : Kernel.Image)
  | exit (p : Slot) (mem : Slot → Option ℕ)
  | wait (p : Slot)
  | join (p : Slot)

/-- `p` runs and makes a new system call, or continues the call `b` in which it slept. -/
def Kernel.runs (k : Kernel) (p : Slot) (b : Option Blocked) : Bool :=
  (k.proc p).state = .running && ((k.proc p).blocked = none || (k.proc p).blocked = b)

/-- All interleavings of system calls. -/
def kernel : Machine Kernel Call where
  next k l :=
    let guarded (b : Bool) (r : Option (Kernel × Option ℤ)) : Option Kernel :=
      if b then r.map Prod.fst else none
    match l with
    | .dispatch p =>
      guarded ((k.proc p).state = .runnable)
        (some (k.setProc p fun q => { q with state := .running, chan := none }, none))
    | .yield p =>
      guarded ((k.proc p).state = .running)
        (some (k.setProc p fun q => { q with state := .runnable }, none))
    | .block p =>
      guarded (k.runs p none)
        (some (k.setProc p fun q =>
          { q with state := .sleeping, chan := some .other, blocked := some .other }, none))
    | .unblock p =>
      guarded ((k.proc p).state = .sleeping && (k.proc p).chan = some .other)
        (some (k.setProc p fun q => { q with state := .runnable }, none))
    | .resume p => guarded (k.runs p (some .other)) (some (k.leave p, some 0))
    | .kill p pid => guarded (k.runs p none) (some (k.kill pid))
    | .growproc p n mem =>
      guarded (k.runs p none && -2 ^ 31 ≤ n && n < 2 ^ 31) (k.growproc p n mem)
    | .fork p kalloc mem => guarded (k.runs p none) (k.fork p kalloc mem)
    | .clone p stack kalloc => guarded (k.runs p none && stack < 2 ^ 32) (k.clone p stack kalloc)
    | .exec p image => guarded (k.runs p none && image.valid) (k.exec p image)
    | .exit p mem => guarded (k.runs p none) (k.exit p mem)
    | .wait p => guarded (k.runs p (some .wait)) (k.wait p)
    | .join p => guarded (k.runs p (some .join)) (k.join p)

/-- An entry of the process table that was never used. -/
def Proc.zero : Proc where
  sz := 0
  pgdir := 0
  kstack := false
  state := .unused
  pid := 0
  parent := none
  chan := none
  killed := false
  stack := 0
  blocked := none

/-- The state after `userinit`. -/
def userinit : Kernel where
  proc := Function.update (fun _ => Proc.zero) initproc
    { Proc.zero with sz := PGSIZE, pgdir := 1, kstack := true, state := .runnable, pid := 1 }
  nextpid := 2
  present d i := d = 1 && i = 0
  pgdirs := 1
  freed := []

end Threads

end OperatingSystems

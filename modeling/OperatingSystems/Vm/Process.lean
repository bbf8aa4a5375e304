import OperatingSystems.Vm.Memory
import Mathlib.Data.List.FinRange

/-!
# Processes with a stack at the top of the address space

In the kernel of `P3` the stack of a process begins at `USERTOP` and grows downwards, towards the
heap: `ss` is its size, and a page fault below it adds a page.  This file is the part of `proc.c` and
`trap.c` that changes the size of heap and stack, and what creates and removes processes.

Registers, files and scheduling are left out: any process that is alive may make the next step.  A
panic, or a null dereference in the kernel, stops the machine (`none`).

* `Proc` : `struct proc`; the stack of a process consists of whole pages.
* `growproc`, `fork`, `exit`, `wait`, `kill` : system calls.
* `pgflt` : the page fault in `trap`.
* `kernel` : the machine of all sequences of these, by any number of processes.
-/

namespace OperatingSystems

namespace Vm

def NPROC : ℕ := 64

instance : NeZero NPROC := ⟨by decide⟩

/-- A pointer into `ptable.proc`. -/
abbrev Slot : Type := Fin NPROC

inductive ProcState where
  | unused
  | embryo
  | sleeping
  | runnable
  | running
  | zombie
  deriving DecidableEq

/-- `struct proc`. -/
structure Proc where
  sz : ℕ
  ss : ℕ
  pgdir : Option Pgdir
  kstack : Option Frame
  state : ProcState
  pid : ℕ
  parent : Option Slot
  killed : Bool
  /-- `exec` gives a process a stack of one page, and a page fault adds a page. -/
  ss_dvd : PGSIZE ∣ ss

/-- The process can run. -/
def Proc.alive (r : Proc) : Bool :=
  r.state = .sleeping || r.state = .runnable || r.state = .running

/-- The state of the kernel. -/
structure Kernel where
  kmem : Kmem
  proc : Slot → Proc
  nextpid : ℕ

/-- The first process. -/
def initproc : Slot := 0

/-- A stack with one page more. -/
theorem dvd_ss_add {ss : ℕ} (h : PGSIZE ∣ ss) : PGSIZE ∣ (ss + PGSIZE) % 2 ^ 32 :=
  (Nat.dvd_mod_iff (by decide)).2 (Nat.dvd_add h (Nat.dvd_refl _))

namespace Kernel

/-- Change one entry of the process table. -/
def setProc (k : Kernel) (p : Slot) (f : Proc → Proc) : Kernel :=
  { k with proc := Function.update k.proc p (f (k.proc p)) }

/-- The entry that `allocproc` takes. -/
def findUnused (k : Kernel) : Option Slot :=
  (List.finRange NPROC).find? fun q => (k.proc q).state = .unused

/-- `allocproc`. -/
def allocproc (k : Kernel) : Kernel × Option Slot :=
  match k.findUnused with
  | none => (k, none)
  | some np =>
    let k := { k.setProc np fun q => { q with state := .embryo, pid := k.nextpid } with
      nextpid := k.nextpid + 1 }
    match kalloc k.kmem with
    | none => (k.setProc np fun q => { q with kstack := none, state := .unused }, none)
    | some (f, m) => ({ k with kmem := m }.setProc np fun q => { q with kstack := some f }, some np)

/-- The first half of `growproc`: the new size, `none` on error. -/
def growprocSize (k : Kernel) (p : Slot) (pgdir : Pgdir) (n : ℤ) :
    Option (Kmem × Pgdir × Option ℕ) :=
  let sz := (k.proc p).sz
  let ss := (k.proc p).ss
  let nonzero := fun ((m, d, sz) : Kmem × Pgdir × ℕ) => (m, d, if sz = 0 then none else some sz)
  if n > 0 then
    if toUint (sz + n) > toUint (USERTOP - ss - PGSIZE) then some (k.kmem, pgdir, none)
    else (allocuvm sz ss k.kmem pgdir sz (toUint (sz + n))).map nonzero
  else if n < 0 then some (nonzero (deallocuvm k.kmem pgdir sz (toUint (sz + n))))
  else some (k.kmem, pgdir, some sz)

/-- `growproc`. -/
def growproc (k : Kernel) (p : Slot) (n : ℤ) : Option (Kernel × ℤ) :=
  match (k.proc p).pgdir with
  | none => none
  | some pgdir =>
    (k.growprocSize p pgdir n).map fun (m, d, sz) =>
      let k := { k with kmem := m }.setProc p fun q => { q with pgdir := some d }
      match sz with
      | none => (k, -1)
      | some sz => (k.setProc p fun q => { q with sz := sz }, 0)

/-- The part of `fork` after `allocproc`. -/
def forkCopy (k : Kernel) (p np : Slot) : Option (Kernel × ℤ) :=
  match (k.proc p).pgdir with
  | none => none
  | some pgdir =>
    (copyuvm (k.proc p).ss k.kmem pgdir (k.proc p).sz).map fun (m, d) =>
      let k := { k with kmem := m }
      match d with
      | none =>
        let m := match (k.proc np).kstack with
          | none => k.kmem
          | some f => kfree k.kmem f
        ({ k with kmem := m }.setProc np fun q =>
          { q with pgdir := none, kstack := none, state := .unused }, -1)
      | some d =>
        (k.setProc np fun q =>
          { q with
            pgdir := some d, ss := (k.proc p).ss, ss_dvd := (k.proc p).ss_dvd, sz := (k.proc p).sz,
            parent := some p, state := .runnable },
          (k.proc np).pid)

/-- `fork`. -/
def fork (k : Kernel) (p : Slot) : Option (Kernel × ℤ) :=
  match k.allocproc with
  | (k, none) => some (k, -1)
  | (k, some np) => k.forkCopy p np

/-- `exit`. -/
def exit (k : Kernel) (p : Slot) : Option Kernel :=
  if p = initproc then none
  else some ({ k with
    proc := fun q =>
      if (k.proc q).parent = some p then { k.proc q with parent := some initproc }
      else k.proc q }.setProc p fun q => { q with state := .zombie })

/-- `wait`; without a zombie child the process goes on waiting, or returns with an error, and
nothing here changes. -/
def wait (k : Kernel) (p : Slot) : Option (Kernel × ℤ) :=
  match (List.finRange NPROC).find? fun q =>
      (k.proc q).parent = some p && (k.proc q).state = .zombie with
  | none => some (k, -1)
  | some q =>
    match (k.proc q).kstack, (k.proc q).pgdir with
    | some f, some d =>
      some ({ k with kmem := freevm (kfree k.kmem f) d }.setProc q fun r =>
        { r with kstack := none, state := .unused, pid := 0, parent := none, killed := false },
        (k.proc q).pid)
    -- `kfree` and `freevm` panic on null pointers
    | _, _ => none

/-- `kill`. -/
def kill (k : Kernel) (pid : ℕ) : Kernel × ℤ :=
  match (List.finRange NPROC).find? fun q => (k.proc q).pid = pid with
  | none => (k, -1)
  | some q =>
    (k.setProc q fun r =>
      { r with killed := true, state := if r.state = .sleeping then .runnable else r.state }, 0)

/-- "Force process exit if it has been killed and is in user space." -/
def exitIfKilled (k : Kernel) (p : Slot) : Option Kernel :=
  if (k.proc p).killed then k.exit p else some k

/-- `trap` for a system call. -/
def trapSyscall (k : Kernel) (p : Slot) (call : Kernel → Option (Kernel × ℤ)) : Option Kernel :=
  if (k.proc p).killed then k.exit p
  else (call k).bind fun (k, _) => k.exitIfKilled p

/-- The case `T_PGFLT` of `trap`, with the error code `err`. -/
def pgflt (k : Kernel) (p : Slot) (err : ℕ) : Option Kernel :=
  if err = 6 ∨ err = 4 then
    -- an access to a page that is not there, wherever it is
    match (k.proc p).pgdir with
    | none => none
    | some pgdir =>
      let ss := (k.proc p).ss
      (allocuvm (k.proc p).sz ss k.kmem pgdir (toUint (USERTOP - ss - PGSIZE))
        (toUint (USERTOP - ss))).map fun (m, d, result) =>
        { k with kmem := m }.setProc p fun q =>
          { q with
            pgdir := some d, killed := q.killed || result = 0,
            ss := (q.ss + PGSIZE) % 2 ^ 32, ss_dvd := dvd_ss_add q.ss_dvd }
  else if err = 5 then some (k.setProc p fun q => { q with killed := true })
  else some k

/-- `trap` for a page fault in user mode. -/
def trapPgflt (k : Kernel) (p : Slot) (err : ℕ) : Option Kernel :=
  (k.pgflt p err).bind fun k => k.exitIfKilled p

end Kernel

/-- The steps of the kernel. -/
inductive Call where
  | growproc (p : Slot) (n : ℤ)
  | fork (p : Slot)
  | exit (p : Slot)
  | wait (p : Slot)
  | kill (p : Slot) (pid : ℕ)
  /-- A page fault in user mode. -/
  | pgflt (p : Slot) (err : ℕ)

/-- The process that makes a step. -/
def Call.slot : Call → Slot
  | .growproc p _ | .fork p | .exit p | .wait p | .kill p _ | .pgflt p _ => p

/-- What a step does. -/
def Kernel.perform (k : Kernel) : Call → Option Kernel
  | .growproc p n =>
    if -2 ^ 31 ≤ n ∧ n < 2 ^ 31 then k.trapSyscall p fun k => k.growproc p n else none
  | .fork p => k.trapSyscall p fun k => k.fork p
  | .exit p => k.exit p
  | .wait p => k.trapSyscall p fun k => k.wait p
  | .kill p pid => k.trapSyscall p fun k => some (k.kill pid)
  | .pgflt p err => k.trapPgflt p err

/-- All sequences of system calls and page faults. -/
def kernel : Machine Kernel Call where
  next k l := if (k.proc l.slot).alive then k.perform l else none

end Vm

end OperatingSystems

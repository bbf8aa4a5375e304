import OperatingSystems.Threads.Table

/-!
# The file table of the kernel with threads

`file.c`, and what `sysfile.c`, `pipe.c` and `proc.c` of the kernel with threads do with the open
files.  Every process-table entry, a thread as well as a process, has an array of descriptors that
point to entries of one global file table; such an entry counts the descriptors that point to it.

A pipe is named by the number of its allocation, like a page directory.  Inodes are named by
numbers; their own reference counts and contents are left out, and so are the data in a pipe.  A
panic stops the machine (`none`).

* `System` : the kernel of `Threads`, the descriptors and the file table.  The ghosts `opened` and
  `closed` count how often an entry of the file table was taken and given up.
* `filealloc`, `filedup`, `fileclose` : `file.c`.
* `fdalloc`, `sysDup`, `sysClose`, `sysOpen`, `sysPipe` : `sysfile.c`.
* `copyFiles`, `closeFiles` : the loops over the descriptors in `fork`, `clone` and `exit`.
* `system` : the machine of all interleavings of system calls.
-/

namespace OperatingSystems

namespace Files

open Threads (Slot Kernel Call)

/-- Open files per process. -/
def NOFILE : ℕ := 16

/-- Open files per system. -/
def NFILE : ℕ := 100

/-- An index into `proc->ofile`. -/
abbrev Fd : Type := Fin NOFILE

/-- A pointer into `ftable.file`. -/
abbrev FileId : Type := Fin NFILE

inductive FileType where
  | none
  | pipe
  | inode
  deriving DecidableEq

/-- `struct file`. -/
structure File where
  type : FileType
  /-- Reference count. -/
  ref : ℤ
  readable : Bool
  writable : Bool
  pipe : ℕ
  ip : ℕ
  off : ℕ

/-- `struct pipe`; its page is free when both ends are closed. -/
structure Pipe where
  readopen : Bool
  writeopen : Bool

/-- The kernel and its open files. -/
structure System where
  kernel : Kernel
  ofile : Slot → Fd → Option FileId
  file : FileId → File
  pipe : ℕ → Pipe
  /-- The number of pipes allocated so far. -/
  pipes : ℕ
  /-- How often `filealloc` has returned an entry. -/
  opened : FileId → ℕ
  /-- How often `fileclose` has dropped the last reference to an entry. -/
  closed : FileId → ℕ

def O_RDONLY : BitVec 32 := 0x000

def O_WRONLY : BitVec 32 := 0x001

def O_RDWR : BitVec 32 := 0x002

def O_CREATE : BitVec 32 := 0x200

namespace System

/-- Change one entry of the file table. -/
def setFile (s : System) (f : FileId) (u : File → File) : System :=
  { s with file := Function.update s.file f (u (s.file f)) }

/-- Change one descriptor. -/
def setOfile (s : System) (p : Slot) (fd : Fd) (v : Option FileId) : System :=
  { s with ofile := Function.update s.ofile p (Function.update (s.ofile p) fd v) }

/-! ### `file.c` and `pipe.c` -/

/-- `filealloc`. -/
def filealloc (s : System) : System × Option FileId :=
  match (List.finRange NFILE).find? fun f => (s.file f).ref = 0 with
  | none => (s, none)
  | some f =>
    ({ s.setFile f fun x => { x with ref := 1 } with
       opened := Function.update s.opened f (s.opened f + 1) }, some f)

/-- `filedup`. -/
def filedup (s : System) (f : FileId) : Option System :=
  if (s.file f).ref < 1 then none
  else some (s.setFile f fun x => { x with ref := x.ref + 1 })

/-- `pipeclose`. -/
def pipeclose (s : System) (p : ℕ) (writable : Bool) : System :=
  { s with
    pipe := Function.update s.pipe p
      (if writable then { s.pipe p with writeopen := false }
      else { s.pipe p with readopen := false }) }

/-- `fileclose`. -/
def fileclose (s : System) (f : FileId) : Option System :=
  if (s.file f).ref < 1 then none
  else
    let s := s.setFile f fun x => { x with ref := x.ref - 1 }
    if (s.file f).ref > 0 then some s
    else
      let ff := s.file f
      let s := { s.setFile f fun x => { x with ref := 0, type := .none } with
        closed := Function.update s.closed f (s.closed f + 1) }
      match ff.type with
      | .pipe => some (s.pipeclose ff.pipe ff.writable)
      -- `iput` for the file of an inode
      | .inode | .none => some s

/-- `pipealloc`; `kalloc` says whether there is memory for the pipe. -/
def pipealloc (s : System) (kalloc : Bool) : Option (System × Option (FileId × FileId)) :=
  match s.filealloc with
  | (s, none) => some (s, none)
  | (s, some f0) =>
    match s.filealloc with
    | (s, none) => (s.fileclose f0).map fun s => (s, none)
    | (s, some f1) =>
      if kalloc then
        let p := s.pipes
        let s := { s with pipes := p + 1, pipe := Function.update s.pipe p ⟨true, true⟩ }
        let s := s.setFile f0 fun x =>
          { x with type := .pipe, readable := true, writable := false, pipe := p }
        let s := s.setFile f1 fun x =>
          { x with type := .pipe, readable := false, writable := true, pipe := p }
        some (s, some (f0, f1))
      else do
        let s ← s.fileclose f0
        let s ← s.fileclose f1
        some (s, none)

/-! ### `sysfile.c`

`p` is the calling process (`proc` in the source); `n` is what `argint` reads, `none` if it
fails. -/

/-- `argfd`. -/
def argfd (s : System) (p : Slot) (n : Option ℤ) : Option (Fd × FileId) :=
  n.bind fun n =>
    if h : n < 0 ∨ n ≥ NOFILE then none
    else
      let fd : Fd := ⟨n.toNat, by omega⟩
      (s.ofile p fd).map fun f => (fd, f)

/-- `fdalloc`. -/
def fdalloc (s : System) (p : Slot) (f : FileId) : Option (System × Fd) :=
  ((List.finRange NOFILE).find? fun fd => (s.ofile p fd).isNone).map fun fd =>
    (s.setOfile p fd (some f), fd)

/-- `sys_dup`. -/
def sysDup (s : System) (p : Slot) (n : Option ℤ) : Option (System × ℤ) :=
  match s.argfd p n with
  | none => some (s, -1)
  | some (_, f) =>
    match s.fdalloc p f with
    | none => some (s, -1)
    | some (s, fd) => (s.filedup f).map fun s => (s, fd)

/-- `sys_close`. -/
def sysClose (s : System) (p : Slot) (n : Option ℤ) : Option (System × ℤ) :=
  match s.argfd p n with
  | none => some (s, -1)
  | some (fd, f) => ((s.setOfile p fd none).fileclose f).map fun s => (s, 0)

/-- `sys_open`.  `ip` is the inode that `create` or `namei` finds, and whether it is a directory;
`none` if there is none, or if an argument cannot be read. -/
def sysOpen (s : System) (p : Slot) (ip : Option (ℕ × Bool)) (omode : BitVec 32) :
    Option (System × ℤ) :=
  match ip with
  | none => some (s, -1)
  | some (ip, dir) =>
    if omode &&& O_CREATE = 0 ∧ dir ∧ omode ≠ O_RDONLY then some (s, -1)
    else
      match s.filealloc with
      | (s, none) => some (s, -1)
      | (s, some f) =>
        match s.fdalloc p f with
        | none => (s.fileclose f).map fun s => (s, -1)
        | some (s, fd) =>
          some (s.setFile f fun x =>
            { x with
              type := .inode, ip := ip, off := 0
              readable := decide (omode &&& O_WRONLY = 0)
              writable := decide (omode &&& O_WRONLY ≠ 0 ∨ omode &&& O_RDWR ≠ 0) }, fd)

/-- `sys_pipe`; `ptr` says whether `argptr` accepts the address for the descriptors. -/
def sysPipe (s : System) (p : Slot) (ptr kalloc : Bool) : Option (System × ℤ) :=
  if ¬ ptr then some (s, -1)
  else do
    match ← s.pipealloc kalloc with
    | (s, none) => some (s, -1)
    | (s, some (rf, wf)) =>
      match s.fdalloc p rf with
      | none => do
        let s ← s.fileclose rf
        let s ← s.fileclose wf
        some (s, -1)
      | some (s, fd0) =>
        match s.fdalloc p wf with
        | none => do
          let s ← (s.setOfile p fd0 none).fileclose rf
          let s ← s.fileclose wf
          some (s, -1)
        | some (s, _) => some (s, 0)

/-! ### `proc.c` -/

/-- The loop body of `fork` and `clone` over the descriptors. -/
def copyFd (p np : Slot) (s : System) (fd : Fd) : Option System :=
  match s.ofile p fd with
  | none => some s
  | some f => (s.filedup f).map fun s => s.setOfile np fd (some f)

/-- The new entry `np` gets the descriptors of `p`. -/
def copyFiles (s : System) (p np : Slot) : Option System :=
  (List.finRange NOFILE).foldlM (copyFd p np) s

/-- The loop body of `exit` over the descriptors. -/
def closeFd (p : Slot) (s : System) (fd : Fd) : Option System :=
  match s.ofile p fd with
  | none => some s
  | some f => (s.fileclose f).map fun s => s.setOfile p fd none

/-- `exit` closes all open files. -/
def closeFiles (s : System) (p : Slot) : Option System :=
  (List.finRange NOFILE).foldlM (closeFd p) s

/-- `fork` and `clone` copy the descriptors to the entry that `allocproc` returns, unless they fail
before that; in the state `k` after the call, the new process is runnable or it has failed. -/
def forkFiles (s : System) (p : Slot) (kalloc : Bool) (k : Kernel) : Option System :=
  match (s.kernel.allocproc kalloc).2 with
  | none => some s
  | some np => if (k.proc np).state = .runnable then s.copyFiles p np else some s

/-- What a system call of `proc.c` does with the open files, if it takes the kernel to `k`. -/
def callFiles (s : System) (k : Kernel) : Call → Option System
  | .fork p kalloc _ | .clone p _ kalloc => s.forkFiles p kalloc k
  | .exit p _ => s.closeFiles p
  | _ => some s

end System

/-! ### The machine -/

/-- The system calls. -/
inductive Op where
  /-- The system calls of `proc.c`, and the steps of the scheduler. -/
  | call (l : Call)
  | sysOpen (p : Slot) (ip : Option (ℕ × Bool)) (omode : BitVec 32)
  | sysDup (p : Slot) (n : Option ℤ)
  | sysPipe (p : Slot) (ptr kalloc : Bool)
  | sysClose (p : Slot) (n : Option ℤ)

/-- The kernel after a call, as far as the open files do not matter. -/
def System.kernelAfter (s : System) : Op → Option Kernel
  | .call l => Threads.kernel.next s.kernel l
  | .sysOpen p _ _ | .sysDup p _ | .sysPipe p _ _ | .sysClose p _ =>
    if s.kernel.runs p none then some s.kernel else none

/-- What a call does with the open files, if it takes the kernel to `k`. -/
def System.filesAfter (s : System) (k : Kernel) : Op → Option System
  | .call l => s.callFiles k l
  | .sysOpen p ip omode => (s.sysOpen p ip omode).map Prod.fst
  | .sysDup p n => (s.sysDup p n).map Prod.fst
  | .sysPipe p ptr kalloc => (s.sysPipe p ptr kalloc).map Prod.fst
  | .sysClose p n => (s.sysClose p n).map Prod.fst

/-- All interleavings of system calls. -/
def system : Machine System Op where
  next s op := do
    let k ← s.kernelAfter op
    let s ← s.filesAfter k op
    some { s with kernel := k }

/-- The state after `userinit`: there are no open files. -/
def boot : System where
  kernel := Threads.userinit
  ofile _ _ := none
  file _ := ⟨.none, 0, false, false, 0, 0, 0⟩
  pipe _ := ⟨false, false⟩
  pipes := 0
  opened _ := 0
  closed _ := 0

end Files

end OperatingSystems

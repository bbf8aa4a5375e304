import OperatingSystems.Bytes.Basic
import OperatingSystems.Machine.Basic
import OperatingSystems.Refs.Basic

/-!
# The pipe

`pipe.c` for one pipe and any number of processes, from the return of `pipealloc` on.  A step of a process is
one critical section under `p->lock`, with the file table and the descriptors around it: a process calls the
pipe through a descriptor, and the last `fileclose` of an end closes the end.

* `Pipe`, `State` : the pipe, the two files, the descriptors and the processes.
* `Pc` : where a process is in the code.
* `pipewrite`, `piperead`, `pipeclose`, `fileclose` : the code.
* `pipes` : the machine of all interleavings.
-/

namespace OperatingSystems

namespace Pipes

/-- `PIPESIZE` -/
def PIPESIZE : ℕ := 512

/-- `struct pipe`; the ends are `false`, to read, and `true`, to write. -/
structure Pipe where
  data : ℕ → UInt8
  nread : ℕ
  nwrite : ℕ
  readopen : Bool
  writeopen : Bool

/-- Where a process is -/
inductive Pc
  /-- Outside of the code of the pipe -/
  | client
  /-- In `pipewrite`, before it takes the lock, with `i` bytes written -/
  | write (addr : Bytes) (n : ℤ) (i : ℕ)
  /-- In `pipewrite`, in `sleep(&p->nwrite, &p->lock)` -/
  | writeSleep (addr : Bytes) (n : ℤ) (i : ℕ)
  /-- In `piperead`, before it takes the lock -/
  | read (n : ℤ)
  /-- In `piperead`, in `sleep(&p->nread, &p->lock)` -/
  | readSleep (n : ℤ)
  /-- In `pipeclose`, before it takes the lock -/
  | pipeclose (writable : Bool)
  /-- In `pipeclose`, before `kfree` -/
  | kfree

/-- A call that has returned: its arguments, what was copied, and the value -/
inductive Event (P : Type)
  | wrote (p : P) (addr : Bytes) (n : ℤ) (i : ℕ) (r : ℤ)
  | read (p : P) (n : ℤ) (bytes : List UInt8) (r : ℤ)

/-- The pipe, the files of its two ends, and the processes `P` -/
structure State (P Fd : Type) where
  pipe : Pipe
  /-- `ref` of the two files -/
  ref : Bool → ℤ
  /-- The descriptors that lead to the pipe -/
  ofile : P → Fd → Option Bool
  killed : P → Bool
  pc : P → Pc
  /-- How often the page of the pipe was freed, a ghost -/
  freed : ℕ
  /-- The bytes in the order in which they were put into the pipe, a ghost -/
  sent : List (P × UInt8)
  /-- The calls that have returned, a ghost -/
  log : List (Event P)

/-- What happens -/
inductive Label (P Fd : Type)
  /-- `sys_read` -/
  | read (p : P) (fd : Fd) (n : ℤ)
  /-- `sys_write` -/
  | write (p : P) (fd : Fd) (addr : Bytes) (n : ℤ)
  /-- `sys_dup`, or `fork` for one descriptor -/
  | filedup (p : P) (fd : Fd) (q : P) (fd' : Fd)
  /-- `sys_close`, or `exit` for one descriptor -/
  | close (p : P) (fd : Fd)
  | kill (p : P)
  /-- The process goes on. -/
  | advance (p : P)

section

variable {P Fd : Type} [DecidableEq P] [DecidableEq Fd]

namespace Pipe

/-- `p->nwrite == p->nread + PIPESIZE` -/
def Full (x : Pipe) : Prop := x.nwrite = (x.nread + PIPESIZE) % 2 ^ 32

instance (x : Pipe) : Decidable x.Full := inferInstanceAs (Decidable (_ = _))

/-- `p->nread == p->nwrite` -/
def Empty (x : Pipe) : Prop := x.nread = x.nwrite

instance (x : Pipe) : Decidable x.Empty := inferInstanceAs (Decidable (_ = _))

/-- `p->data[p->nwrite++ % PIPESIZE] = c` -/
def put (x : Pipe) (c : UInt8) : Pipe :=
  { x with data := Function.update x.data (x.nwrite % PIPESIZE) c, nwrite := (x.nwrite + 1) % 2 ^ 32 }

/-- The loop of `piperead` that copies, with `k` bytes to go -/
def copy (x : Pipe) : ℕ → Pipe × List UInt8
  | 0 => (x, [])
  | k + 1 =>
    if x.Empty then (x, [])
    else
      let (x', bytes) := copy { x with nread := (x.nread + 1) % 2 ^ 32 } k
      (x', x.data (x.nread % PIPESIZE) :: bytes)

/-- An end of the pipe is open. -/
def isOpen (x : Pipe) (w : Bool) : Bool := if w then x.writeopen else x.readopen

end Pipe

namespace State

def goto (s : State P Fd) (p : P) (pc : Pc) : State P Fd :=
  { s with pc := Function.update s.pc p pc }

omit [DecidableEq Fd] in
theorem goto_self (s : State P Fd) (p : P) (pc : Pc) : (s.goto p pc).pc p = pc := Function.update_self ..

omit [DecidableEq Fd] in
theorem goto_of_ne (s : State P Fd) {p q : P} (pc : Pc) (hq : q ≠ p) : (s.goto p pc).pc q = s.pc q :=
  Function.update_of_ne hq ..

/-- The call returns. -/
def ret (s : State P Fd) (p : P) (e : Event P) : State P Fd :=
  { s.goto p .client with log := s.log ++ [e] }

/-- `wakeup(&p->nread)`, for one process -/
def wakeReader : Pc → Pc
  | .readSleep n => .read n
  | pc => pc

/-- `wakeup(&p->nwrite)`, for one process -/
def wakeWriter : Pc → Pc
  | .writeSleep addr n i => .write addr n i
  | pc => pc

/-- `wakeup(&p->nread)` -/
def wakeReaders (s : State P Fd) : State P Fd := { s with pc := fun p => wakeReader (s.pc p) }

/-- `wakeup(&p->nwrite)` -/
def wakeWriters (s : State P Fd) : State P Fd := { s with pc := fun p => wakeWriter (s.pc p) }

/-- A byte is put into the pipe. -/
def put (s : State P Fd) (p : P) (c : UInt8) : State P Fd :=
  { s with pipe := s.pipe.put c, sent := s.sent ++ [(p, c)] }

/-- The loop of `pipewrite` from `i` on, with `k` bytes to go, up to `sleep` or to its end -/
def writeLoop (p : P) (addr : Bytes) (n : ℤ) : ℕ → ℕ → State P Fd → State P Fd
  | i, 0, s => s.wakeReaders.ret p (.wrote p addr n i n)
  | i, k + 1, s =>
    if s.pipe.Full then
      if s.pipe.readopen = false ∨ s.killed p = true then s.ret p (.wrote p addr n i (-1))
      else s.wakeReaders.goto p (.writeSleep addr n i)
    else writeLoop p addr n (i + 1) k (s.put p (addr i))

/-- `pipewrite` under the lock -/
def pipewrite (s : State P Fd) (p : P) (addr : Bytes) (n : ℤ) (i : ℕ) : State P Fd :=
  writeLoop p addr n i (n.toNat - i) s

/-- `piperead` under the lock -/
def piperead (s : State P Fd) (p : P) (n : ℤ) : State P Fd :=
  if s.pipe.Empty ∧ s.pipe.writeopen = true then
    if s.killed p then s.ret p (.read p n [] (-1)) else s.goto p (.readSleep n)
  else
    let (x, bytes) := s.pipe.copy n.toNat
    { s with pipe := x }.wakeWriters.ret p (.read p n bytes bytes.length)

/-- The first part of `pipeclose`: the flag of the end is cleared, and the other end is woken up. -/
def closeEnd (s : State P Fd) (writable : Bool) : State P Fd :=
  if writable then { s with pipe := { s.pipe with writeopen := false } }.wakeReaders
  else { s with pipe := { s.pipe with readopen := false } }.wakeWriters

/-- `pipeclose` under the lock -/
def pipeclose (s : State P Fd) (p : P) (writable : Bool) : State P Fd :=
  let s := s.closeEnd writable
  if s.pipe.readopen = false ∧ s.pipe.writeopen = false then s.goto p .kfree else s.goto p .client

/-- `filedup`, and the descriptor for it; it panics without a reference. -/
def filedup (s : State P Fd) (w : Bool) (q : P) (fd' : Fd) : Option (State P Fd) :=
  if s.ref w < 1 then none
  else some { s with
    ref := Function.update s.ref w (s.ref w + 1)
    ofile := Function.update s.ofile q (Function.update (s.ofile q) fd' (some w)) }

/-- `fileclose`, of a descriptor that is cleared; it panics without a reference. -/
def fileclose (s : State P Fd) (p : P) (fd : Fd) (w : Bool) : Option (State P Fd) :=
  if s.ref w < 1 then none
  else
    let s' := { s with
      ref := Function.update s.ref w (s.ref w - 1)
      ofile := Function.update s.ofile p (Function.update (s.ofile p) fd none) }
    if 0 < s.ref w - 1 then some s' else some (s'.goto p (.pipeclose w))

/-- `fileread`, up to `acquire(&p->lock)` -/
def fileread (s : State P Fd) (p : P) (w : Bool) (n : ℤ) : State P Fd :=
  if w then s.ret p (.read p n [] (-1)) else s.goto p (.read n)

/-- `filewrite`, up to `acquire(&p->lock)` -/
def filewrite (s : State P Fd) (p : P) (w : Bool) (addr : Bytes) (n : ℤ) : State P Fd :=
  if w then s.goto p (.write addr n 0) else s.ret p (.wrote p addr n 0 (-1))

/-- The next critical section of a process; `none` if it has to wait. -/
def advance (s : State P Fd) (p : P) : Option (State P Fd) :=
  match s.pc p with
  | .client => none
  | .write addr n i => some (s.pipewrite p addr n i)
  | .writeSleep _ _ _ => none
  | .read n => some (s.piperead p n)
  | .readSleep _ => none
  | .pipeclose w => some (s.pipeclose p w)
  | .kfree => some { s.goto p .client with freed := s.freed + 1 }

/-- The process calls nothing. -/
def idle (s : State P Fd) (p : P) : Bool :=
  match s.pc p with
  | .client => true
  | _ => false

/-- What one step does -/
def step (s : State P Fd) : Label P Fd → Option (State P Fd)
  | .read p fd n => if s.idle p then (s.ofile p fd).map fun w => s.fileread p w n else none
  | .write p fd addr n => if s.idle p then (s.ofile p fd).map fun w => s.filewrite p w addr n else none
  | .filedup p fd q fd' =>
    if s.idle p ∧ s.idle q ∧ s.ofile q fd' = none then
      (s.ofile p fd).bind fun w => s.filedup w q fd'
    else none
  | .close p fd => if s.idle p then (s.ofile p fd).bind fun w => s.fileclose p fd w else none
  | .kill p => some { s with
      killed := Function.update s.killed p true
      pc := Function.update s.pc p (wakeReader (wakeWriter (s.pc p))) }
  | .advance p => s.advance p

end State

/-- The pipe with its processes -/
def pipes (P Fd : Type) [DecidableEq P] [DecidableEq Fd] : Machine (State P Fd) (Label P Fd) where
  next := State.step

/-- After `sys_pipe` of the process `p`, with its two descriptors; the page is as `kalloc` gives it. -/
def pipealloc (p : P) (fd₀ fd₁ : Fd) (data : ℕ → UInt8) (killed : P → Bool) : State P Fd where
  pipe := { data := data, nread := 0, nwrite := 0, readopen := true, writeopen := true }
  ref := fun _ => 1
  ofile := Function.update (fun _ _ => none) p
    (Function.update (Function.update (fun _ => none) fd₀ (some false)) fd₁ (some true))
  killed := killed
  pc := fun _ => .client
  freed := 0
  sent := []
  log := []

end

end Pipes

end OperatingSystems

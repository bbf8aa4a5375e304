import OperatingSystems.Machine.Basic
import Mathlib.Algebra.Order.Ring.Int
import Mathlib.Data.Fintype.Basic
import Mathlib.Data.List.FinRange

/-!
# The kernel with the lottery scheduler

The kernel of `P2/scheduler` is xv6 with a lottery scheduler of two queues: the scheduler of each
CPU draws a ticket among the runnable processes of the high queue, or, if there are none, of the low
one.  This file is `scheduler`, the timer interrupt of `trap`, and the calls of `proc.c` that change
the process table.

A process that has given up its CPU goes on where it was (`Context`): in the `yield` of the first or
of the second conditional at the end of `trap`, or in a `sleep`.  Interrupts are off from a timer
interrupt to the return from its handler.  A panic, or a division by zero in the kernel, stops the
machine (`none`).

* `Kernel` : the process table, the CPUs, `ticks` and the seed of the generator.
* `rand_int`, `scheduler` : one pass of the scheduler.
* `trap` : the timer interrupt, up to its first `yield`; `secondTick` and `lastCheck`: the rest of
  the handler.
* `allocproc`, `fork`, `exit`, `wait`, `kill`, `settickets`, `getpinfo` : the system calls.
* `kernel` : the machine of all interleavings on any number of CPUs.
-/

namespace OperatingSystems

namespace Sched

def NPROC : ℕ := 64

/-- Conversion to `int`. -/
def toInt (x : ℤ) : ℤ := Int.bmod x (2 ^ 32)

/-- Conversion to `uint`. -/
def toUint (x : ℤ) : ℕ := (x % 2 ^ 32).toNat

instance : NeZero NPROC := ⟨by decide⟩

/-- A pointer into `ptable.proc`. -/
abbrev Slot : Type := Fin NPROC

inductive ProcState where
  | unused
  | embryo
  | sleeping
  | runnable
  | running
  | zombie
  deriving DecidableEq

/-- What a process sleeps on. -/
inductive Chan where
  /-- `&ticks` -/
  | ticks
  | proc (p : Slot)
  | other (n : ℕ)
  deriving DecidableEq

/-- Where a process goes on. -/
inductive Context where
  /-- In its program or in a system call, with interrupts on. -/
  | run
  /-- In the `yield` of the first conditional of `trap`, for an interrupt of user mode or not. -/
  | first (user : Bool)
  /-- In the `yield` of the second conditional. -/
  | second (user : Bool)
  | sleep
  /-- In the `sleep` of `wait`. -/
  | wait
  deriving DecidableEq

/-- `struct proc`. -/
structure Proc where
  state : ProcState
  pid : ℕ
  parent : Option Slot
  chan : Option Chan
  killed : Bool
  numTickets : ℤ
  /-- `1` for high, `0` for low. -/
  queue : ℤ
  numTimeRun : ℤ
  highTicks : ℤ
  lowTicks : ℤ
  ctx : Context

/-- A CPU, with its `proc`. -/
inductive Cpu where
  /-- Not yet in `scheduler`. -/
  | off
  /-- In `scheduler`. -/
  | idle
  | run (p : Slot)
  deriving DecidableEq

/-- The state of the kernel. -/
structure Kernel where
  proc : Slot → Proc
  nextpid : ℕ
  /-- The number of timer interrupts of CPU 0. -/
  ticks : ℕ
  rnd_seed : ℤ
  cpu : ℕ → Cpu

/-- The first process. -/
def initproc : Slot := ⟨0, by decide⟩

/-- The generator of random numbers. -/
def rand_int (rnd_seed : ℤ) : ℤ :=
  let hi : ℕ := toUint (16807 * (rnd_seed / 2 ^ 16))
  let lo : ℕ := toUint (16807 * (rnd_seed % 2 ^ 16))
  let lo : ℕ := (lo + hi % 2 ^ 15 * 2 ^ 16) % 2 ^ 32
  let lo : ℕ := (lo + hi / 2 ^ 15) % 2 ^ 32
  let lo : ℕ := if lo > 2147483647 then lo - 2147483647 else lo
  toInt lo

namespace Kernel

/-- Change one entry of the process table. -/
def setProc (k : Kernel) (p : Slot) (f : Proc → Proc) : Kernel :=
  { k with proc := Function.update k.proc p (f (k.proc p)) }

def setCpu (k : Kernel) (c : ℕ) (x : Cpu) : Kernel :=
  { k with cpu := Function.update k.cpu c x }

/-- `wakeup1`. -/
def wakeup1 (k : Kernel) (chan : Chan) : Kernel :=
  { k with
    proc := fun q =>
      if (k.proc q).state = .sleeping ∧ (k.proc q).chan = some chan then
        { k.proc q with state := .runnable }
      else k.proc q }

/-! ### The scheduler -/

/-- The array `high`, or `low`. -/
def queued (k : Kernel) (high : Bool) : List Slot :=
  (List.finRange NPROC).filter fun p =>
    (k.proc p).state = .runnable && decide ((k.proc p).queue = 1) == high

/-- The loop for the winner, from `counter` on. -/
def pick (k : Kernel) (winner : ℕ) : ℕ → List Slot → Option Slot
  | _, [] => none
  | counter, p :: ps =>
    let counter := (counter + toUint (k.proc p).numTickets) % 2 ^ 32
    if counter > winner then some p else pick k winner counter ps

/-- `htTickets`, or `ltTickets`. -/
def tickets (k : Kernel) (ps : List Slot) : ℤ :=
  ps.foldl (fun n p => toInt (n + (k.proc p).numTickets)) 0

/-- A queue that is not empty draws a ticket. -/
def draw (k : Kernel) (ps : List Slot) : Option (Kernel × Option Slot) :=
  let rand := rand_int k.rnd_seed
  let tickets := toUint (k.tickets ps)
  -- a division by zero
  if tickets = 0 then none
  else some ({ k with rnd_seed := rand }, k.pick (toUint rand % tickets) 0 ps)

/-- One pass of `scheduler` on the CPU `c`. -/
def scheduler (k : Kernel) (c : ℕ) : Option Kernel :=
  let high := k.queued true
  let low := k.queued false
  let drawn := if high ≠ [] then k.draw high else if low ≠ [] then k.draw low else some (k, none)
  drawn.map fun (k, winP) =>
    match winP with
    | none => k
    | some p =>
      (k.setProc p fun q =>
        { q with numTimeRun := toInt (q.numTimeRun + 1), state := .running }).setCpu c (.run p)

/-- `sched`, on the CPU `c`. -/
def sched (k : Kernel) (c : ℕ) : Kernel := k.setCpu c .idle

/-- `yield` by `p`, which then goes on at `ctx`. -/
def yield (k : Kernel) (c : ℕ) (p : Slot) (ctx : Context) : Kernel :=
  (k.setProc p fun q => { q with queue := 0, state := .runnable, ctx := ctx }).sched c

/-- `sleep` by `p`, which then goes on at `ctx`. -/
def sleep (k : Kernel) (c : ℕ) (p : Slot) (chan : Chan) (ctx : Context) : Kernel :=
  (k.setProc p fun q => { q with chan := some chan, state := .sleeping, ctx := ctx }).sched c

/-! ### Processes -/

/-- `allocproc`, up to the allocation of the kernel stack. -/
def allocproc (k : Kernel) : Option (Slot × Kernel) :=
  ((List.finRange NPROC).find? fun p => (k.proc p).state = .unused).map fun np =>
    (np, { k.setProc np fun q =>
      { q with
        state := .embryo, pid := k.nextpid, numTickets := 1, queue := 1, lowTicks := 0
        highTicks := 0, numTimeRun := 0, ctx := .run } with nextpid := k.nextpid + 1 })

/-- `fork` by `p`; `mem` says whether the kernel stack and the address space can be allocated. -/
def fork (k : Kernel) (p : Slot) (mem : Bool) : Kernel :=
  match k.allocproc with
  | none => k
  | some (np, k) =>
    if mem then k.setProc np fun q => { q with parent := some p, state := .runnable }
    else k.setProc np fun q => { q with state := .unused }

/-- One child in the loop of `exit`. -/
def exitAdopt (p : Slot) (k : Kernel) (q : Slot) : Kernel :=
  if (k.proc q).parent = some p then
    let k := k.setProc q fun r => { r with parent := some initproc }
    if (k.proc q).state = .zombie then k.wakeup1 (.proc initproc) else k
  else k

/-- `wakeup1(proc->parent)`. -/
def wakeupParent (k : Kernel) (p : Slot) : Kernel :=
  match (k.proc p).parent with
  | none => k
  | some q => k.wakeup1 (.proc q)

/-- `exit`. -/
def exit (k : Kernel) (c : ℕ) (p : Slot) : Option Kernel :=
  if p = initproc then none
  else
    let k := (List.finRange NPROC).foldl (exitAdopt p) (k.wakeupParent p)
    some ((k.setProc p fun q => { q with state := .zombie }).sched c)

/-- `wait`, up to its `sleep`. -/
def wait (k : Kernel) (c : ℕ) (p : Slot) : Kernel :=
  match (List.finRange NPROC).find? fun q =>
    (k.proc q).parent = some p && (k.proc q).state = .zombie with
  | some q =>
    (k.setProc q fun r =>
      { r with state := .unused, pid := 0, parent := none, killed := false }).setProc p
        fun r => { r with ctx := .run }
  | none =>
    if (List.finRange NPROC).all (fun q => (k.proc q).parent ≠ some p) || (k.proc p).killed then
      k.setProc p fun r => { r with ctx := .run }
    else k.sleep c p (.proc p) .wait

/-- `kill`. -/
def kill (k : Kernel) (pid : ℕ) : Kernel :=
  match (List.finRange NPROC).find? fun q => (k.proc q).pid = pid with
  | none => k
  | some q =>
    k.setProc q fun r =>
      { r with killed := true, state := if r.state = .sleeping then .runnable else r.state }

/-- `settickets`. -/
def settickets (k : Kernel) (p : Slot) (num : ℤ) : Kernel :=
  if num < 1 then k else k.setProc p fun q => { q with numTickets := num }

/-! ### The timer interrupt -/

/-- The last conditional of `trap`. -/
def lastCheck (k : Kernel) (c : ℕ) (p : Slot) (user : Bool) : Option Kernel :=
  if (k.proc p).killed ∧ user then k.exit c p
  else some (k.setProc p fun q => { q with ctx := .run })

/-- `trap` from the second conditional on. -/
def secondTick (k : Kernel) (c : ℕ) (p : Slot) (user : Bool) : Option Kernel :=
  if (k.proc p).queue = 0 ∧ (k.proc p).state = .running then
    some ((k.setProc p fun q => { q with lowTicks := toInt (q.lowTicks + k.ticks) }).yield c p
      (.second user))
  else k.lastCheck c p user

/-- `trap` from the first conditional on. -/
def firstTick (k : Kernel) (c : ℕ) (p : Slot) (user : Bool) : Option Kernel :=
  if (k.proc p).queue = 1 ∧ (k.proc p).state = .running then
    some ((k.setProc p fun q => { q with highTicks := toInt (q.highTicks + k.ticks) }).yield c p
      (.first user))
  else k.secondTick c p user

/-- What the interrupt does to `ticks`. -/
def tick (k : Kernel) (c : ℕ) : Kernel :=
  if c = 0 then { k with ticks := (k.ticks + 1) % 2 ^ 32 }.wakeup1 .ticks else k

/-- `trap`, for a timer interrupt of the CPU `c` in user mode or not. -/
def trap (k : Kernel) (c : ℕ) (user : Bool) : Option Kernel :=
  match k.cpu c with
  | .off => none
  | .idle => some (k.tick c)
  | .run p =>
    if (k.proc p).ctx = .run then
      let k := k.tick c
      if (k.proc p).killed ∧ user then k.exit c p else k.firstTick c p user
    else none

/-- The process `p` goes on, after it has given up its CPU. -/
def resume (k : Kernel) (c : ℕ) (p : Slot) : Option Kernel :=
  match (k.proc p).ctx with
  | .run => none
  | .first user => k.secondTick c p user
  | .second user => k.lastCheck c p user
  | .sleep => some (k.setProc p fun q => { q with chan := none, ctx := .run })
  | .wait => some ((k.setProc p fun q => { q with chan := none }).wait c p)

end Kernel

/-! ### `getpinfo` -/

/-- `struct pstat`. -/
structure Pstat where
  inuse : Slot → ℤ
  pid : Slot → ℕ
  hticks : Slot → ℤ
  lticks : Slot → ℤ
  runTimes : Slot → ℤ
  queue : Slot → ℤ

/-- The entries that `getpinfo` does not pass over. -/
def Kernel.reported (k : Kernel) : List Slot :=
  (List.finRange NPROC).filter fun p =>
    ¬ ((k.proc p).state = .zombie ∨ (k.proc p).state = .unused ∨ (k.proc p).state = .embryo)

/-- `getpinfo`, into `info`: the `i`-th process that is reported goes to the entry `i`. -/
def Kernel.getpinfo (k : Kernel) (info : Pstat) : Pstat :=
  let at_ {α : Type} (old : Slot → α) (new : Proc → α) (i : Slot) : α :=
    match k.reported[i.val]? with
    | some p => new (k.proc p)
    | none => old i
  { inuse := at_ info.inuse fun _ => 1
    pid := at_ info.pid Proc.pid
    hticks := at_ info.hticks Proc.highTicks
    lticks := at_ info.lticks Proc.lowTicks
    runTimes := at_ info.runTimes Proc.numTimeRun
    queue := at_ info.queue Proc.queue }

/-! ### The machine -/

/-- The steps of the kernel, and the CPUs that make them. -/
inductive Label where
  /-- The CPU enters `scheduler`. -/
  | boot (c : ℕ)
  /-- A pass of `scheduler`. -/
  | schedule (c : ℕ)
  /-- A timer interrupt, in user mode or not. -/
  | timer (c : ℕ) (user : Bool)
  /-- The process that was scheduled goes on. -/
  | resume (c : ℕ)
  | fork (c : ℕ) (mem : Bool)
  | exit (c : ℕ)
  | wait (c : ℕ)
  /-- A `sleep` on something other than a process. -/
  | sleep (c : ℕ) (chan : Option ℕ)
  /-- A `wakeup` of what is neither a process nor `ticks`. -/
  | wakeup (n : ℕ)
  | kill (c : ℕ) (pid : ℕ)
  | settickets (c : ℕ) (num : ℤ)

/-- The process on the CPU `c` makes a system call. -/
def Kernel.call (k : Kernel) (c : ℕ) (f : Slot → Option Kernel) : Option Kernel :=
  match k.cpu c with
  | .run p => if (k.proc p).ctx = .run then f p else none
  | _ => none

/-- All interleavings, on any number of CPUs. -/
def kernel : Machine Kernel Label where
  next k
    | .boot c =>
      match k.cpu c with
      | .off => some { k.setCpu c .idle with rnd_seed := 10 }
      | _ => none
    | .schedule c =>
      match k.cpu c with
      | .idle => k.scheduler c
      | _ => none
    | .timer c user => k.trap c user
    | .resume c =>
      match k.cpu c with
      | .run p => k.resume c p
      | _ => none
    | .fork c mem => k.call c fun p => some (k.fork p mem)
    | .exit c => k.call c fun p => k.exit c p
    | .wait c => k.call c fun p => some (k.wait c p)
    | .sleep c chan => k.call c fun p => some (k.sleep c p (chan.elim .ticks .other) .sleep)
    | .wakeup n => some (k.wakeup1 (.other n))
    | .kill c pid => k.call c fun _ => some (k.kill pid)
    | .settickets c num => k.call c fun p => some (k.settickets p num)

/-- An entry of the process table that was never used. -/
def Proc.zero : Proc where
  state := .unused
  pid := 0
  parent := none
  chan := none
  killed := false
  numTickets := 0
  queue := 0
  numTimeRun := 0
  highTicks := 0
  lowTicks := 0
  ctx := .run

/-- The state after `userinit`, before the first CPU enters `scheduler`. -/
def userinit : Kernel where
  proc := Function.update (fun _ => Proc.zero) initproc
    { Proc.zero with state := .runnable, pid := 1, numTickets := 1, queue := 1 }
  nextpid := 2
  ticks := 0
  rnd_seed := 0
  cpu _ := .off

end Sched

end OperatingSystems

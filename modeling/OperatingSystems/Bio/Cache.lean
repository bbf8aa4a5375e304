import OperatingSystems.Bytes.Basic
import OperatingSystems.Links.Ring
import OperatingSystems.Machine.Basic
import Mathlib.Data.Finset.Basic

/-!
# The buffer cache and the disk driver

`bio.c` and `ide.c` for any number of processes and `n` buffers.  A step of a process is one critical
section under `bcache.lock` or `idelock`, or the code between two of them, which reads and writes only
the buffer that the process has locked.  The drive works on its own, and raises an interrupt when it is
done with a command.

* `Buf`, `State` : the buffers with their list, the queue of the driver, the drive and the disks.
* `Pc` : where a process is in the code.
* `State.lookup`, `State.victim` : the two loops of `bget`.
* `bget`, `breadTest`, `bwrite`, `iderwTests`, `iderw`, `ideWait`, `brelse`, `ideintr` : the code.
* `bio` : the machine of all interleavings.
-/

namespace OperatingSystems

namespace Bio

/-- `struct buf`, without its pointers -/
structure Buf where
  /-- `B_BUSY` -/
  busy : Bool
  /-- `B_VALID` -/
  valid : Bool
  /-- `B_DIRTY` -/
  dirty : Bool
  dev : ℕ
  sector : ℕ
  data : Bytes

/-- `(b->flags & (B_VALID|B_DIRTY)) == B_VALID` -/
def Buf.Synced (b : Buf) : Prop := b.valid = true ∧ b.dirty = false

instance (b : Buf) : Decidable b.Synced := inferInstanceAs (Decidable (_ ∧ _))

/-- A node of the list of buffers: `none` is `bcache.head`. -/
abbrev Node (n : ℕ) : Type := Option (Fin n)

/-- A command of the drive: the disk, the sector and what is written -/
inductive Cmd
  | read (disk sector : ℕ)
  | write (disk sector : ℕ) (data : Bytes)

/-- The drive -/
inductive Drive
  | ready
  | working (c : Cmd)
  /-- The command is done, with what was read, or with an error; the interrupt is raised. -/
  | done (data : Bytes) (err : Bool)

/-- Where a process is -/
inductive Pc (n : ℕ)
  /-- Outside of the code of the cache -/
  | client
  /-- In `bget`, before it takes `bcache.lock` -/
  | bget (dev sector : ℕ)
  /-- In `bget`, in `sleep(b, &bcache.lock)` -/
  | bgetSleep (b : Fin n) (dev sector : ℕ)
  /-- In `bread`, at the test of `B_VALID` -/
  | bread (b : Fin n)
  /-- In `iderw`, before it takes `idelock` -/
  | iderw (b : Fin n)
  /-- In `iderw`, in `sleep(b, &idelock)` -/
  | ideSleep (b : Fin n)
  /-- In `iderw`, woken up, before it takes `idelock` again -/
  | ideWoken (b : Fin n)
  /-- In `brelse`, before it takes `bcache.lock` -/
  | brelse (b : Fin n)
  deriving DecidableEq

/-- The calls of `panic` -/
inductive Panic
  /-- "bget: no buffers" -/
  | noBuffers
  /-- "bwrite" -/
  | bwrite
  /-- "brelse" -/
  | brelse
  /-- "iderw: buf not busy" -/
  | notBusy
  /-- "iderw: nothing to do" -/
  | nothingToDo
  /-- "iderw: ide disk 1 not present" -/
  | notPresent
  deriving DecidableEq

/-- The cache, the driver, the drive with its disks, and the processes `P` -/
structure State (P : Type) (n : ℕ) where
  buf : Fin n → Buf
  next : Node n → Node n
  prev : Node n → Node n
  /-- `idequeue`, linked through `qnext` -/
  idequeue : List (Fin n)
  drive : Drive
  disk : ℕ → ℕ → Bytes
  pc : P → Pc n
  /-- The buffers that a process has from `bread` and may use -/
  held : P → Finset (Fin n)
  /-- The process that set `B_BUSY`, a ghost -/
  owner : Fin n → Option P
  /-- The data was changed since the last `bread` or `bwrite`, a ghost. -/
  changed : Fin n → Bool

/-- What happens -/
inductive Label (P : Type) (n : ℕ)
  /-- A call of `bread` -/
  | bread (p : P) (dev sector : ℕ)
  /-- The process changes the data of a buffer that it has. -/
  | store (p : P) (b : Fin n) (data : Bytes)
  /-- A call of `bwrite` -/
  | bwrite (p : P) (b : Fin n)
  /-- A call of `brelse` -/
  | brelse (p : P) (b : Fin n)
  /-- The process goes on. -/
  | advance (p : P)
  /-- A process that sleeps is made runnable, as `kill` does. -/
  | rouse (p : P)
  /-- The drive is done with its command. -/
  | drive (err : Bool)
  /-- `ideintr` -/
  | ideintr

section

variable {P : Type} [DecidableEq P] {n : ℕ}

namespace State

def goto (s : State P n) (p : P) (pc : Pc n) : State P n :=
  { s with pc := Function.update s.pc p pc }

def setBuf (s : State P n) (b : Fin n) (x : Buf) : State P n :=
  { s with buf := Function.update s.buf b x }

@[simp] theorem goto_pc (s : State P n) (p : P) (pc : Pc n) :
    (s.goto p pc).pc = Function.update s.pc p pc := rfl

@[simp] theorem goto_buf (s : State P n) (p : P) (pc : Pc n) : (s.goto p pc).buf = s.buf := rfl

@[simp] theorem goto_held (s : State P n) (p : P) (pc : Pc n) : (s.goto p pc).held = s.held := rfl

@[simp] theorem goto_owner (s : State P n) (p : P) (pc : Pc n) : (s.goto p pc).owner = s.owner := rfl

@[simp] theorem goto_idequeue (s : State P n) (p : P) (pc : Pc n) :
    (s.goto p pc).idequeue = s.idequeue := rfl

@[simp] theorem goto_drive (s : State P n) (p : P) (pc : Pc n) : (s.goto p pc).drive = s.drive := rfl

@[simp] theorem goto_disk (s : State P n) (p : P) (pc : Pc n) : (s.goto p pc).disk = s.disk := rfl

@[simp] theorem goto_next (s : State P n) (p : P) (pc : Pc n) : (s.goto p pc).next = s.next := rfl

@[simp] theorem goto_prev (s : State P n) (p : P) (pc : Pc n) : (s.goto p pc).prev = s.prev := rfl

@[simp] theorem goto_changed (s : State P n) (p : P) (pc : Pc n) :
    (s.goto p pc).changed = s.changed := rfl

omit [DecidableEq P] in
@[simp] theorem setBuf_buf (s : State P n) (b : Fin n) (x : Buf) :
    (s.setBuf b x).buf = Function.update s.buf b x := rfl

omit [DecidableEq P] in
@[simp] theorem setBuf_pc (s : State P n) (b : Fin n) (x : Buf) : (s.setBuf b x).pc = s.pc := rfl

omit [DecidableEq P] in
@[simp] theorem setBuf_held (s : State P n) (b : Fin n) (x : Buf) : (s.setBuf b x).held = s.held := rfl

omit [DecidableEq P] in
@[simp] theorem setBuf_owner (s : State P n) (b : Fin n) (x : Buf) :
    (s.setBuf b x).owner = s.owner := rfl

omit [DecidableEq P] in
@[simp] theorem setBuf_idequeue (s : State P n) (b : Fin n) (x : Buf) :
    (s.setBuf b x).idequeue = s.idequeue := rfl

omit [DecidableEq P] in
@[simp] theorem setBuf_drive (s : State P n) (b : Fin n) (x : Buf) :
    (s.setBuf b x).drive = s.drive := rfl

omit [DecidableEq P] in
@[simp] theorem setBuf_disk (s : State P n) (b : Fin n) (x : Buf) : (s.setBuf b x).disk = s.disk := rfl

omit [DecidableEq P] in
@[simp] theorem setBuf_next (s : State P n) (b : Fin n) (x : Buf) : (s.setBuf b x).next = s.next := rfl

omit [DecidableEq P] in
@[simp] theorem setBuf_prev (s : State P n) (b : Fin n) (x : Buf) : (s.setBuf b x).prev = s.prev := rfl

omit [DecidableEq P] in
@[simp] theorem setBuf_changed (s : State P n) (b : Fin n) (x : Buf) :
    (s.setBuf b x).changed = s.changed := rfl

/-! ### The cache -/

/-- `b->dev == dev && b->sector == sector` -/
def caches (s : State P n) (dev sector : ℕ) : Node n → Bool
  | none => false
  | some b => (s.buf b).dev = dev && (s.buf b).sector = sector

/-- `(b->flags & B_BUSY) == 0` -/
def unused (s : State P n) : Node n → Bool
  | none => false
  | some b => !(s.buf b).busy

/-- The first loop of `bget`, from the front of the list -/
def lookup (s : State P n) (dev sector : ℕ) : Option (Fin n) :=
  (Links.walk s.next (fun x => x = none || s.caches dev sector x) (n + 1) (s.next none)).join

/-- The second loop, from its end -/
def victim (s : State P n) : Option (Fin n) :=
  (Links.walk s.prev (fun x => x = none || s.unused x) (n + 1) (s.prev none)).join

/-- `wakeup(b)`, for one process -/
def wake (b : Fin n) : Pc n → Pc n
  | .bgetSleep b' dev sector => if b' = b then .bget dev sector else .bgetSleep b' dev sector
  | .ideSleep b' => if b' = b then .ideWoken b' else .ideSleep b'
  | pc => pc

/-- `bget` under `bcache.lock`, up to `sleep` or to its end -/
def bget (s : State P n) (p : P) (dev sector : ℕ) : Except Panic (State P n) :=
  match s.lookup dev sector with
  | some b =>
    if (s.buf b).busy then .ok (s.goto p (.bgetSleep b dev sector))
    else .ok { (s.setBuf b { s.buf b with busy := true }).goto p (.bread b) with
      owner := Function.update s.owner b (some p) }
  | none =>
    match s.victim with
    | some b =>
      .ok { (s.setBuf b { s.buf b with
          dev := dev, sector := sector, busy := true, valid := false, dirty := false }).goto p (.bread b)
        with owner := Function.update s.owner b (some p) }
    | none => .error .noBuffers

/-- The buffer is the caller's. -/
def give (s : State P n) (p : P) (b : Fin n) : State P n :=
  { s.goto p .client with held := Function.update s.held p (insert b (s.held p)) }

/-- `brelse` under `bcache.lock` -/
def brelse (s : State P n) (p : P) (b : Fin n) : State P n :=
  -- `b->next->prev = b->prev; b->prev->next = b->next;`
  let prev := Function.update s.prev (s.next (some b)) (s.prev (some b))
  let next := Function.update s.next (prev (some b)) (s.next (some b))
  -- `b->next = bcache.head.next; b->prev = &bcache.head;`
  let next := Function.update next (some b) (next none)
  let prev := Function.update prev (some b) none
  -- `bcache.head.next->prev = b; bcache.head.next = b;`
  let prev := Function.update prev (next none) (some b)
  let next := Function.update next none (some b)
  { s with
    next := next
    prev := prev
    buf := Function.update s.buf b { s.buf b with busy := false }
    pc := fun q => wake b (Function.update s.pc p .client q)
    owner := Function.update s.owner b none }

/-! ### The driver -/

/-- What `idestart` sends for a buffer -/
def cmd (x : Buf) : Cmd :=
  if x.dirty then .write (x.dev % 2) (x.sector % 2 ^ 28) x.data else .read (x.dev % 2) (x.sector % 2 ^ 28)

/-- `idestart`; it waits for a drive that is working. -/
def idestart (s : State P n) (b : Fin n) : Option (State P n) :=
  match s.drive with
  | .working _ => none
  | _ => some { s with drive := .working (cmd (s.buf b)) }

/-- The tests of `iderw` -/
def iderwTests (havedisk1 : Bool) (x : Buf) : Except Panic Unit :=
  if x.busy = false then .error .notBusy
  else if x.Synced then .error .nothingToDo
  else if x.dev ≠ 0 ∧ havedisk1 = false then .error .notPresent
  else .ok ()

/-- The loop of `iderw` -/
def ideWait (s : State P n) (p : P) (b : Fin n) : State P n :=
  if (s.buf b).Synced then s.give p b else s.goto p (.ideSleep b)

/-- `iderw` under `idelock`, up to `sleep` or to its end -/
def iderw (s : State P n) (p : P) (b : Fin n) : Option (State P n) :=
  let queued := { s with idequeue := s.idequeue ++ [b] }
  if s.idequeue = [] then (queued.idestart b).map fun s => s.ideWait p b
  else some (queued.ideWait p b)

/-- The drive is done with its command. -/
def finish (s : State P n) (err : Bool) : Option (State P n) :=
  match s.drive with
  | .working (.read d i) => some { s with drive := .done (s.disk d i) err }
  | .working (.write d i data) =>
    some { s with
      drive := .done data err
      disk := if err then s.disk else Function.update s.disk d (Function.update (s.disk d) i data) }
  | _ => none

/-- `insl`, if the buffer is to be read and there is no error -/
def insl (x : Buf) (data : Bytes) (err : Bool) : Buf :=
  if x.dirty = false ∧ err = false then { x with data := data } else x

@[simp] theorem insl_busy (x : Buf) (data : Bytes) (err : Bool) : (insl x data err).busy = x.busy := by
  unfold insl
  split_ifs <;> rfl

@[simp] theorem insl_dev (x : Buf) (data : Bytes) (err : Bool) : (insl x data err).dev = x.dev := by
  unfold insl
  split_ifs <;> rfl

@[simp] theorem insl_sector (x : Buf) (data : Bytes) (err : Bool) :
    (insl x data err).sector = x.sector := by
  unfold insl
  split_ifs <;> rfl

/-- `ideintr`, which also comes without a reason -/
def ideintr (s : State P n) : Option (State P n) :=
  match s.idequeue, s.drive with
  | [], _ => some s
  | b :: q, .done data err =>
    let s := { s with
      idequeue := q
      buf := Function.update s.buf b { insl (s.buf b) data err with valid := true, dirty := false }
      pc := fun p => wake b (s.pc p) }
    match q with
    | [] => some { s with drive := .ready }
    | b' :: _ => s.idestart b'
  | _ :: _, _ => none

/-! ### The processes -/

/-- `bread`, at the test of `B_VALID` -/
def breadTest (havedisk1 : Bool) (s : State P n) (p : P) (b : Fin n) : Except Panic (State P n) :=
  if (s.buf b).valid then .ok (s.give p b)
  else do
    iderwTests havedisk1 (s.buf b)
    .ok (s.goto p (.iderw b))

/-- `bwrite`, up to `acquire(&idelock)` -/
def bwrite (havedisk1 : Bool) (s : State P n) (p : P) (b : Fin n) : Except Panic (State P n) :=
  if (s.buf b).busy = false then .error .bwrite
  else do
    let x := { s.buf b with dirty := true }
    iderwTests havedisk1 x
    .ok { (s.setBuf b x).goto p (.iderw b) with changed := Function.update s.changed b false }

/-- The next critical section of a process; `none` if it has to wait. -/
def advance (havedisk1 : Bool) (s : State P n) (p : P) : Option (Except Panic (State P n)) :=
  match s.pc p with
  | .client => none
  | .bget dev sector => some (s.bget p dev sector)
  | .bgetSleep _ _ _ => none
  | .bread b => some (s.breadTest havedisk1 p b)
  | .iderw b => (s.iderw p b).map .ok
  | .ideSleep _ => none
  | .ideWoken b => some (.ok (s.ideWait p b))
  | .brelse b => some (.ok (s.brelse p b))

/-- A process that sleeps wakes up. -/
def roused : Pc n → Option (Pc n)
  | .bgetSleep _ dev sector => some (.bget dev sector)
  | .ideSleep b => some (.ideWoken b)
  | _ => none

/-- What one step does: it is not possible, it panics, or it leads to another state. -/
def step (havedisk1 : Bool) (s : State P n) : Label P n → Option (Except Panic (State P n))
  | .bread p dev sector => if s.pc p = .client then some (.ok (s.goto p (.bget dev sector))) else none
  | .store p b data =>
    if s.pc p = .client ∧ b ∈ s.held p then
      some (.ok { s.setBuf b { s.buf b with data := data } with
        changed := Function.update s.changed b true })
    else none
  | .bwrite p b => if s.pc p = .client ∧ b ∈ s.held p then some (s.bwrite havedisk1 p b) else none
  | .brelse p b =>
    if s.pc p = .client ∧ b ∈ s.held p then
      some (if (s.buf b).busy = false then .error .brelse
        else .ok { s.goto p (.brelse b) with held := Function.update s.held p ((s.held p).erase b) })
    else none
  | .advance p => s.advance havedisk1 p
  | .rouse p => (roused (s.pc p)).map fun pc => .ok (s.goto p pc)
  | .drive err => (s.finish err).map .ok
  | .ideintr => s.ideintr.map .ok

end State

/-- The cache, the driver and the drive, as long as the kernel does not panic -/
def bio (P : Type) [DecidableEq P] (n : ℕ) (havedisk1 : Bool) : Machine (State P n) (Label P n) where
  next s l := (s.step havedisk1 l).bind Except.toOption

/-! ### The beginning -/

/-- One iteration of `binit` -/
def linkFirst (next prev : Node n → Node n) (b : Fin n) : (Node n → Node n) × (Node n → Node n) :=
  -- `b->next = bcache.head.next; b->prev = &bcache.head;`
  let next := Function.update next (some b) (next none)
  let prev := Function.update prev (some b) none
  -- `bcache.head.next->prev = b; bcache.head.next = b;`
  let prev := Function.update prev (next none) (some b)
  (Function.update next none (some b), prev)

/-- The loop of `binit`, over the buffers `bs` -/
def linkAll (bs : List (Fin n)) (next prev : Node n → Node n) :
    (Node n → Node n) × (Node n → Node n) :=
  bs.foldl (fun links b => linkFirst links.1 links.2 b) (next, prev)

/-- The state that `binit` and `ideinit` make of memory that is zero -/
def binit (P : Type) (n : ℕ) (disk : ℕ → ℕ → Bytes) : State P n where
  buf _ := ⟨false, false, false, 2 ^ 32 - 1, 0, fun _ => 0⟩
  next := (linkAll (List.finRange n) (fun _ => none) fun _ => none).1
  prev := (linkAll (List.finRange n) (fun _ => none) fun _ => none).2
  idequeue := []
  drive := .ready
  disk := disk
  pc _ := .client
  held _ := ∅
  owner _ := none
  changed _ := false

end

end Bio

end OperatingSystems

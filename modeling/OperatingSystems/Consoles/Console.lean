import OperatingSystems.Bytes.Basic
import OperatingSystems.Machine.Basic

/-!
# The input of the console

`console.c` from the keys to the processes that read them.  A step is what happens while `input.lock` is
held: the characters of one interrupt, or one process in `consoleread` up to its return or to `sleep`.

* `Input` : the buffer with its three indices.
* `key`, `State.consoleintr` : the characters of an interrupt.
* `readLoop`, `State.consoleread` : a process that reads.
* `consoles` : the machine of all interleavings.
-/

namespace OperatingSystems

namespace Consoles

/-- `INPUT_BUF` -/
def INPUT_BUF : ℕ := 128

/-- `C(x)`, Control-x -/
def C (x : Char) : UInt8 := UInt8.ofNat (x.toNat - '@'.toNat)

/-- `'\n'` -/
def newline : UInt8 := 10

/-- `struct { ... } input` -/
structure Input where
  buf : ℕ → UInt8
  /-- Read index -/
  r : ℕ
  /-- Write index -/
  w : ℕ
  /-- Edit index -/
  e : ℕ

/-- What `consputc` is called with -/
inductive Shown
  | char (c : UInt8)
  | backspace

/-- What `consoleread` stops at, beside the lack of characters with `n` of them to go -/
inductive Outcome
  | done
  /-- A Control-D was taken out. -/
  | eof
  | wait (n : ℕ)

namespace Input

/-- `input.e--` -/
def erase (x : Input) : Input := { x with e := (x.e + 2 ^ 32 - 1) % 2 ^ 32 }

/-- The loop of Control-U, with `k` the distance of the indices -/
def killLine : ℕ → Input → Input × List Shown
  | 0, x => (x, [])
  | k + 1, x =>
    if x.e ≠ x.w ∧ x.buf ((x.e + 2 ^ 32 - 1) % 2 ^ 32 % INPUT_BUF) ≠ newline then
      let (x', shown) := killLine k x.erase
      (x', .backspace :: shown)
    else (x, [])

/-- `input.buf[input.e++ % INPUT_BUF] = c` -/
def put (x : Input) (c : UInt8) : Input :=
  { x with buf := Function.update x.buf (x.e % INPUT_BUF) c, e := (x.e + 1) % 2 ^ 32 }

/-- The `switch` of `consoleintr`: the buffer, what is shown, and whether there is a `wakeup` -/
def key (x : Input) (c : UInt8) : Input × List Shown × Bool :=
  if c = C 'P' then (x, [], false)
  else if c = C 'U' then
    let (x', shown) := killLine ((x.e + 2 ^ 32 - x.w) % 2 ^ 32) x
    (x', shown, false)
  else if c = C 'H' ∨ c = 0x7f then if x.e ≠ x.w then (x.erase, [.backspace], false) else (x, [], false)
  else if c ≠ 0 ∧ (x.e + 2 ^ 32 - x.r) % 2 ^ 32 < INPUT_BUF then
    let c := if c = 13 then newline else c
    let x := x.put c
    if c = newline ∨ c = C 'D' ∨ x.e = (x.r + INPUT_BUF) % 2 ^ 32 then ({ x with w := x.e }, [.char c], true)
    else (x, [.char c], false)
  else (x, [], false)

/-- `input.r++` -/
def next (x : Input) : Input := { x with r := (x.r + 1) % 2 ^ 32 }

/-- The loop of `consoleread`, with `n` characters to go behind those in `dst` -/
def readLoop (x : Input) (dst : List UInt8) : ℕ → Input × List UInt8 × Outcome
  | 0 => (x, dst, .done)
  | n + 1 =>
    if x.r = x.w then (x, dst, .wait (n + 1))
    else
      let c := x.buf (x.r % INPUT_BUF)
      if c = C 'D' then
        if dst ≠ [] then ({ x.next with r := (x.next.r + 2 ^ 32 - 1) % 2 ^ 32 }, dst, .done)
        else (x.next, dst, .eof)
      else if c = newline then (x.next, dst ++ [c], .done)
      else readLoop x.next (dst ++ [c]) n

end Input

/-- Where a process is -/
inductive Pc
  /-- Outside of the code of the console -/
  | client
  /-- In `consoleread`, before it takes the lock, with `n` characters to go behind those in `dst` -/
  | read (n : ℕ) (dst : List UInt8)
  /-- In `sleep(&input.r, &input.lock)` -/
  | sleep (n : ℕ) (dst : List UInt8)

/-- A call of `consoleread` that has returned: how much it was asked for, what it has copied, and the value -/
structure Event (P : Type) where
  p : P
  target : ℕ
  dst : List UInt8
  ret : ℤ

/-- The console with the processes `P` -/
structure State (P : Type) where
  input : Input
  /-- All that `consputc` was called with by `consoleintr` -/
  echo : List Shown
  killed : P → Bool
  pc : P → Pc
  /-- The characters in the order in which they were taken out, a ghost -/
  taken : List (P × UInt8)
  /-- The calls that have returned, a ghost -/
  log : List (Event P)

/-- What happens -/
inductive Label (P : Type)
  /-- `consoleintr`, with what `getc` returns -/
  | intr (cs : List UInt8)
  /-- `consoleread`, up to `acquire(&input.lock)` -/
  | read (p : P) (n : ℤ)
  | kill (p : P)
  /-- The process goes on. -/
  | advance (p : P)

section

variable {P : Type} [DecidableEq P]

namespace State

def goto (s : State P) (p : P) (pc : Pc) : State P := { s with pc := Function.update s.pc p pc }

/-- The call returns. -/
def ret (s : State P) (p : P) (target : ℕ) (dst : List UInt8) (r : ℤ) : State P :=
  { s.goto p .client with log := s.log ++ [⟨p, target, dst, r⟩] }

/-- `wakeup(&input.r)`, for one process -/
def wake : Pc → Pc
  | .sleep n dst => .read n dst
  | pc => pc

/-- One character of an interrupt -/
def press (s : State P) (c : UInt8) : State P :=
  { s with
    input := (s.input.key c).1
    echo := s.echo ++ (s.input.key c).2.1
    pc := fun p => if (s.input.key c).2.2 then wake (s.pc p) else s.pc p }

/-- `consoleintr` -/
def consoleintr (s : State P) (cs : List UInt8) : State P := cs.foldl press s

/-- What one process takes out, a ghost -/
def take (s : State P) (p : P) (x : Input) (cs : List UInt8) : State P :=
  { s with input := x, taken := s.taken ++ cs.map fun c => (p, c) }

/-- `consoleread` under the lock -/
def consoleread (s : State P) (p : P) (n : ℕ) (dst : List UInt8) : State P :=
  match s.input.readLoop dst n with
  | (x, dst', .done) => (s.take p x (dst'.drop dst.length)).ret p (dst.length + n) dst' dst'.length
  | (x, dst', .eof) =>
    (s.take p x (dst'.drop dst.length ++ [C 'D'])).ret p (dst.length + n) dst' dst'.length
  | (x, dst', .wait n') =>
    let s' := s.take p x (dst'.drop dst.length)
    if s.killed p then s'.ret p (dst.length + n) dst' (-1) else s'.goto p (.sleep n' dst')

/-- What one step does; `none` if the process has to wait. -/
def step (s : State P) : Label P → Option (State P)
  | .intr cs => some (s.consoleintr cs)
  | .read p n =>
    match s.pc p with
    | .client => some (s.goto p (.read n.toNat []))
    | _ => none
  | .kill p => some { s.goto p (wake (s.pc p)) with killed := Function.update s.killed p true }
  | .advance p =>
    match s.pc p with
    | .read n dst => some (s.consoleread p n dst)
    | _ => none

end State

/-- The console with its processes -/
def consoles (P : Type) [DecidableEq P] : Machine (State P) (Label P) where
  next := State.step

/-- After `consoleinit`; the buffer is as the loader gives it. -/
def consoleinit (buf : ℕ → UInt8) (killed : P → Bool) : State P where
  input := { buf := buf, r := 0, w := 0, e := 0 }
  echo := []
  killed := killed
  pc := fun _ => .client
  taken := []
  log := []

end

end Consoles

end OperatingSystems

import OperatingSystems.Machine.Basic
import Mathlib.Logic.Function.Basic

/-!
# The shell

`runCommand` of `mysh.c` and the loop of `main` around it, with the shell's descriptors, its
children and `errno`.

What the environment decides is in the labels: which command a line holds, what the library calls
return (`Results`), when a child ends and which of the children that have ended `wait` takes.

* `State` : the shell, between two system calls.
* `State.prepare` : `runCommand` up to the choice of the command: the copy of descriptor 1 and the
  redirection.
* `State.execute` : the built-in commands and the `fork`.
* `State.finish` : its end, which restores descriptor 1.
* `mysh` : the machine of all command lines and all orders of the ends of the children.
-/

namespace OperatingSystems

namespace Shell

/-! ### Descriptors -/

/-- What a descriptor refers to. -/
inductive File where
  | stdin
  | stdout
  | stderr
  /-- A file of a redirection. -/
  | opened (name : String)
  deriving DecidableEq

/-- A descriptor table. -/
abbrev Descriptors := ℕ → Option File

/-- The descriptor that `dup` and `open` take: the lowest one that is not in use. -/
def Descriptors.lowest (limit : ℕ) (fds : Descriptors) : Option ℕ :=
  (List.range limit).find? fun n => (fds n).isNone

/-- `dup`; no descriptor is its `-1`. -/
def Descriptors.dup (limit : ℕ) (fds : Descriptors) (n : ℕ) : Option ℕ × Descriptors :=
  match fds n, fds.lowest limit with
  | some f, some d => (some d, Function.update fds d (some f))
  | _, _ => (none, fds)

def Descriptors.dup2 (fds : Descriptors) (d : Option ℕ) (n : ℕ) : Descriptors :=
  match d.bind fds with
  | some f => Function.update fds n (some f)
  | none => fds

def Descriptors.close (fds : Descriptors) : Option ℕ → Descriptors
  | some d => Function.update fds d none
  | none => fds

/-- `open`, of a file that can be opened. -/
def Descriptors.openFile (limit : ℕ) (fds : Descriptors) (name : String) : Option Descriptors :=
  (fds.lowest limit).map fun d => Function.update fds d (some (.opened name))

/-! ### The shell -/

/-- A process that the shell has forked and not yet waited for. -/
structure Child where
  pid : ℕ
  /-- The file it executes. -/
  loc : String
  argv : List String
  ended : Bool
  deriving DecidableEq

inductive Errno where
  | echild
  | other
  deriving DecidableEq

/-- What the end of `runCommand` reads. -/
structure Saved where
  redirect : Bool
  /-- The copy of descriptor 1. -/
  d : Option ℕ
  deriving DecidableEq

/-- Where the shell is. -/
inductive Phase where
  /-- At its prompt. -/
  | prompt
  /-- In `wait(NULL)`, after the `fork` of the child `pid`. -/
  | foreground (pid : ℕ) (v : Saved)
  /-- In the loop of the built-in command `wait`. -/
  | waitAll (v : Saved)
  | exited
  deriving DecidableEq

structure State where
  fds : Descriptors
  errno : Errno
  children : List Child
  phase : Phase

/-- The arguments of `runCommand`, with `size = args.length`. -/
structure Command where
  args : List String
  redirect : Bool
  background : Bool
  runPy : Bool
  nonempty : args ≠ []

/-- What the library calls in `runCommand` return. -/
structure Results where
  /-- What they leave in `errno`, if they set it. -/
  errno : Option Errno
  /-- The file of the redirection can be opened. -/
  opens : Bool
  /-- The child, unless `fork` fails. -/
  fork : Option ℕ

/-- `args[0]` -/
def Command.name (cmd : Command) : String := cmd.args.head cmd.nonempty

/-- What `runBinCommand` is called with: `loc`, and `argv` up to its first null pointer. -/
def Command.exec (cmd : Command) : String × List String :=
  (if cmd.runPy then "/usr/bin/python" else cmd.name,
    if cmd.redirect then cmd.args.dropLast else cmd.args)

def Command.Builtin (cmd : Command) : Prop :=
  cmd.name = "exit" ∨ cmd.name = "cd" ∨ cmd.name = "pwd" ∨ cmd.name = "wait"

instance (cmd : Command) : Decidable cmd.Builtin := inferInstanceAs (Decidable (_ ∨ _ ∨ _ ∨ _))

/-- The end of `runCommand`. -/
def State.finish (s : State) (v : Saved) : State :=
  { s with
    fds := if v.redirect then (s.fds.dup2 v.d 1).close v.d else s.fds
    phase := .prompt }

/-- `runCommand` before the redirection. -/
def State.copyStdout (limit : ℕ) (s : State) (res : Results) : State :=
  { s with fds := (s.fds.dup limit 1).2, errno := res.errno.getD s.errno }

/-- `runCommand` up to the choice of the command; `none` if the file cannot be opened. -/
def State.prepare (limit : ℕ) (s : State) (cmd : Command) (res : Results) : Option State :=
  let s := s.copyStdout limit res
  if cmd.redirect then
    if res.opens then
      ((s.fds.close (some 1)).openFile limit (cmd.args.getLast cmd.nonempty)).map
        fun fds => { s with fds := fds }
    else none
  else some s

/-- `runCommand` from the choice of the command to the first wait, if there is one. -/
def State.execute (s : State) (cmd : Command) (res : Results) (v : Saved) : Option State :=
  if cmd.name = "exit" then some { s with phase := .exited }
  else if cmd.name = "cd" then some (s.finish v)
  else if cmd.name = "pwd" then some (s.finish v)
  else if cmd.name = "wait" then
    -- the ill-formed `wait` returns at once
    if cmd.args.length > 1 then some { s with phase := .prompt }
    else some { s with phase := .waitAll v }
  else
    match res.fork with
    | none => some { s with phase := .exited }
    | some pid =>
      if s.children.any fun c => c.pid = pid then none
      else
        let s := { s with children := ⟨pid, cmd.exec.1, cmd.exec.2, false⟩ :: s.children }
        some (if cmd.background then s.finish v else { s with phase := .foreground pid v })

/-- `runCommand`, up to the first wait. -/
def State.runCommand (limit : ℕ) (s : State) (cmd : Command) (res : Results) : Option State :=
  match s.prepare limit cmd res with
  | none =>
    let s := s.copyStdout limit res
    some { s with fds := s.fds.close (some 1), phase := .prompt }
  | some s' => s'.execute cmd res ⟨cmd.redirect, (s.fds.dup limit 1).1⟩

inductive Label where
  /-- A line with a command. -/
  | runCommand (cmd : Command) (res : Results)
  /-- A line that `main` rejects or skips. -/
  | skip
  /-- The empty line or the end of the input. -/
  | done
  /-- A child ends. -/
  | ends (pid : ℕ)
  /-- A wait takes a child that has ended. -/
  | reap (pid : ℕ)
  /-- A wait without children. -/
  | noChild

/-- The child `pid` is waited for. -/
def State.remove (s : State) (pid : ℕ) : State :=
  { s with children := s.children.filter fun c => c.pid ≠ pid }

/-- The child `pid` ends. -/
def State.ends (s : State) (pid : ℕ) : State :=
  { s with children := s.children.map fun c => if c.pid = pid then { c with ended := true } else c }

/-- The shell and its children; it may have `limit` descriptors. -/
def mysh (limit : ℕ) : Machine State Label where
  next s
    | .runCommand cmd res =>
      match s.phase with
      | .prompt => s.runCommand limit cmd res
      | _ => none
    | .skip =>
      match s.phase with
      | .prompt => some s
      | _ => none
    | .done =>
      match s.phase with
      | .prompt => some { s with phase := .exited }
      | _ => none
    | .ends pid =>
      if s.children.any fun c => c.pid = pid ∧ c.ended = false then some (s.ends pid) else none
    | .reap pid =>
      if s.children.any fun c => c.pid = pid ∧ c.ended = true then
        match s.phase with
        | .foreground _ v => some ((s.remove pid).finish v)
        | .waitAll v =>
          -- `errno` is looked at also after a `waitpid` that succeeds
          some (if s.errno = .echild then (s.remove pid).finish v else s.remove pid)
        | _ => none
      else none
    | .noChild =>
      if s.children = [] then
        match s.phase with
        | .foreground _ v | .waitAll v => some ({ s with errno := .echild }.finish v)
        | _ => none
      else none

/-- The shell at its first prompt. -/
def init : State where
  fds
    | 0 => some .stdin
    | 1 => some .stdout
    | 2 => some .stderr
    | _ => none
  errno := .other
  children := []
  phase := .prompt

/-! ### The steps, one by one -/

variable {limit : ℕ} {s s' : State} {cmd : Command} {res : Results} {v v' : Saved} {pid : ℕ}

@[simp] theorem finish_phase (s : State) (v : Saved) : (s.finish v).phase = .prompt := rfl

@[simp] theorem finish_children (s : State) (v : Saved) :
    (s.finish v).children = s.children := rfl

@[simp] theorem copyStdout_children (limit : ℕ) (s : State) (res : Results) :
    (s.copyStdout limit res).children = s.children := rfl

theorem prepare_children (h : s.prepare limit cmd res = some s') : s'.children = s.children := by
  unfold State.prepare at h
  dsimp only at h
  split at h
  · split at h
    · obtain ⟨fds, -, rfl⟩ := Option.map_eq_some_iff.1 h
      rfl
    · cases h
  · cases h
    rfl

theorem execute_builtin (hb : cmd.Builtin) (h : s.execute cmd res v = some s') :
    s'.phase ≠ .foreground pid v' := by
  obtain hname | hname | hname | hname := hb
  · obtain rfl : { s with phase := .exited } = s' := by simpa [State.execute, hname] using h
    simp
  · obtain rfl : s.finish v = s' := by simpa [State.execute, hname] using h
    simp
  · obtain rfl : s.finish v = s' := by simpa [State.execute, hname] using h
    simp
  · simp only [State.execute, hname, String.reduceEq, if_false, if_true] at h
    split at h <;> cases h <;> simp

theorem execute_external (hb : ¬ cmd.Builtin) (h : s.execute cmd res v = some s') :
    res.fork = none ∧ s' = { s with phase := .exited } ∨
    ∃ pid, res.fork = some pid ∧ (∀ c ∈ s.children, c.pid ≠ pid) ∧
      s'.children = ⟨pid, cmd.exec.1, cmd.exec.2, false⟩ :: s.children ∧
      s'.phase = if cmd.background then .prompt else .foreground pid v := by
  obtain ⟨h₁, h₂, h₃, h₄⟩ : cmd.name ≠ "exit" ∧ cmd.name ≠ "cd" ∧ cmd.name ≠ "pwd" ∧
      cmd.name ≠ "wait" := by
    simpa [Command.Builtin] using hb
  simp only [State.execute, h₁, h₂, h₃, h₄, if_false] at h
  split at h
  case h_1 hfork =>
    cases h
    exact Or.inl ⟨hfork, rfl⟩
  case h_2 pid hfork =>
    split at h
    · cases h
    · next hfresh =>
      refine Or.inr ⟨pid, hfork, by simpa using hfresh, ?_⟩
      cases h
      cases cmd.background <;> exact ⟨rfl, rfl⟩

end Shell

end OperatingSystems

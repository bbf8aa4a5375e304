import OperatingSystems.Dirs.Entries
import OperatingSystems.Machine.Basic
import Mathlib.Logic.Function.Basic

/-!
# The system calls on directories

`namex` of `fs.c` and the calls of `sysfile.c` that change directories, for any number of processes.  A step of
a process is what it does while it holds the locks of inodes: `ilock` is its beginning, and `iunlock` or
`iput` its end.  What a directory holds is a list of entries, and the copy of an inode in memory is the one
on the disk, since each change is followed by `iupdate`.

* `Inode`, `State` : the inodes, the processes and the open files.
* `Pc` : where a process is in the code.
* `ilock`, `iput`, `iget`, `ialloc`, `namex`, `create`, `State.advance` : the code.
* `dirs` : the machine of all interleavings.
-/

namespace OperatingSystems

namespace Dirs

/-- The types of inodes -/
inductive Kind
  | dir
  | file
  | dev
  | checked
  deriving DecidableEq

/-- `struct inode`, with what it holds if it is a directory; the type is `none` if the inode is free. -/
structure Inode where
  type : Option Kind
  nlink : ℤ
  ents : List Dirent
  ref : ℕ
  /-- `I_VALID` -/
  valid : Bool

/-- `ROOTINO` -/
def ROOTINO : ℕ := 1

/-- `NINODE` -/
def NINODE : ℕ := 50

/-- `O_RDONLY` -/
def O_RDONLY : ℕ := 0

/-- What a call has returned -/
inductive Ret (F : Type)
  | err
  | ok
  | file (f : F)

/-- What goes on behind `create` -/
inductive Made
  /-- `sys_open` -/
  | file
  /-- `sys_mkdir` and `sys_mknod` -/
  | node

/-- What goes on behind `namex` -/
inductive Found
  | open (omode : ℕ)
  | chdir
  | linkOld (new : List UInt8)
  /-- For the path of the link, with the inode that is linked -/
  | linkNew (ip : ℕ)
  | unlink
  | create (type : Kind) (made : Made)

/-- Where a process is -/
inductive Pc (F : Type)
  | client (r : Ret F)
  /-- In the loop of `namex` -/
  | walk (ip : ℕ) (path : List UInt8) (found : Found)
  /-- Before `iput` -/
  | put (ip : ℕ) (next : Pc F)
  /-- Before `iunlockput` -/
  | unlockput (ip : ℕ) (next : Pc F)
  /-- In `sys_link`, before `nlink++` -/
  | linkInc (ip : ℕ) (new : List UInt8)
  /-- In `sys_link`, before `dirlink` -/
  | linkDir (ip dp : ℕ) (name : Name)
  /-- In `sys_link`, at `bad` -/
  | linkBad (ip : ℕ)
  /-- In `sys_unlink`, before `ilock(dp)` -/
  | unlinkDir (dp : ℕ) (name : Name)
  /-- In `sys_unlink`, before `ilock(ip)` -/
  | unlinkIp (dp ip off : ℕ)
  /-- In `sys_unlink`, before `ip->nlink--` -/
  | unlinkDec (ip : ℕ)
  /-- In `create`, before `ilock(dp)` -/
  | createDir (dp : ℕ) (name : Name) (type : Kind) (made : Made)
  /-- In `create`, before `ilock(ip)` of what is there already -/
  | createOld (ip : ℕ) (type : Kind) (made : Made)
  /-- Behind `create` of a new inode -/
  | created (ip : ℕ) (made : Made)
  /-- In `sys_open`, before `ilock(ip)` -/
  | openIp (ip omode : ℕ)
  /-- In `sys_chdir`, before `ilock(ip)` -/
  | chdirIp (ip : ℕ)

/-- The inodes, the processes `P`, and the open files `F` that are inodes -/
structure State (P F : Type) where
  ino : ℕ → Inode
  /-- `I_BUSY`, with the process that has set it -/
  busy : ℕ → Option P
  /-- `none` if there is no such process -/
  cwd : P → Option ℕ
  files : F → Option ℕ
  pc : P → Pc F
  /-- How many entries that lead to an inode were freed with a directory, a ghost -/
  lost : ℕ → ℕ
  /-- Whether an entry was written to a directory without links, a ghost -/
  strayed : Bool

/-- What happens -/
inductive Label (P F : Type)
  | open (p : P) (path : List UInt8) (create checked : Bool) (omode : ℕ)
  | mkdir (p : P) (path : List UInt8)
  | mknod (p : P) (path : List UInt8)
  | link (p : P) (old new : List UInt8)
  | unlink (p : P) (path : List UInt8)
  | chdir (p : P) (path : List UInt8)
  /-- The last `fileclose` of a file -/
  | close (p : P) (f : F)
  /-- `fork`, as far as the directory of the child is concerned -/
  | fork (p q : P)
  /-- `exit`, likewise -/
  | exit (p : P)
  /-- The process goes on, with what `filealloc` and `fdalloc` find if they are called. -/
  | advance (p : P) (f : Option F)

section

variable {P F : Type} [DecidableEq P] [DecidableEq F]

/-- Where a process goes if `namex` fails -/
def Found.fail : Found → Pc F
  | .linkNew ip => .linkBad ip
  | _ => .client .err

/-- Whether `namex` stops one level early -/
def Found.nameiparent : Found → Bool
  | .linkNew _ | .unlink | .create _ _ => true
  | .open _ | .chdir | .linkOld _ => false

/-- Where a process goes if `namex` succeeds -/
def Found.done : Found → ℕ → Name → Pc F
  | .open omode, ip, _ => .openIp ip omode
  | .chdir, ip, _ => .chdirIp ip
  | .linkOld new, ip, _ => .linkInc ip new
  | .linkNew ip, dp, name => .linkDir ip dp name
  | .unlink, dp, name => .unlinkDir dp name
  | .create type made, dp, name => .createDir dp name type made

namespace State

def goto (s : State P F) (p : P) (pc : Pc F) : State P F := { s with pc := Function.update s.pc p pc }

/-- One inode changes. -/
def set (s : State P F) (i : ℕ) (x : Inode) : State P F := { s with ino := Function.update s.ino i x }

/-- `ilock`; `none` if the process has to wait, or for a panic: nobody refers to the inode, or it is read from
the disk and free. -/
def ilock (s : State P F) (p : P) (i : ℕ) : Option (State P F) :=
  if 0 < (s.ino i).ref ∧ s.busy i = none ∧ ((s.ino i).valid = true ∨ (s.ino i).type ≠ none) then
    some { s.set i { s.ino i with valid := true } with busy := Function.update s.busy i (some p) }
  else none

/-- `iunlock`; `none` for a panic -/
def iunlock (s : State P F) (i : ℕ) : Option (State P F) :=
  if s.busy i ≠ none ∧ 0 < (s.ino i).ref then some { s with busy := Function.update s.busy i none } else none

/-- `iget`; it panics if all of the cache is in use. -/
def iget (n : ℕ) (s : State P F) (i : ℕ) : Option (State P F) :=
  if (s.ino i).ref = 0 then
    if (List.range n).countP (fun j => 0 < (s.ino j).ref) < NINODE then
      some (s.set i { s.ino i with ref := 1, valid := false })
    else none
  else some (s.set i { s.ino i with ref := (s.ino i).ref + 1 })

/-- `idup` -/
def idup (s : State P F) (i : ℕ) : State P F := s.set i { s.ino i with ref := (s.ino i).ref + 1 }

/-- The end of an inode without links; the entries of a directory go with it. -/
def ifree (s : State P F) (i : ℕ) : State P F :=
  { s.set i { type := none, nlink := (s.ino i).nlink, ents := [], ref := 0, valid := false } with
    lost := fun j => s.lost j + (targets (s.ino i).ents).count j }

/-- `iput` -/
def iput (s : State P F) (i : ℕ) : Option (State P F) :=
  if (s.ino i).ref = 1 ∧ (s.ino i).valid = true ∧ (s.ino i).nlink = 0 then
    if s.busy i = none then some (s.ifree i) else none
  else some (s.set i { s.ino i with ref := (s.ino i).ref - 1 })

/-- `ialloc` looks for a free inode. -/
def ialloc (n : ℕ) (s : State P F) : Option ℕ := (List.range' 1 (n - 1)).find? fun i => (s.ino i).type = none

/-- The beginning of `namex` -/
def namex (n : ℕ) (s : State P F) (p : P) (path : List UInt8) (found : Found) : Option (State P F) :=
  if path.head? = some 47 then (s.iget n ROOTINO).map fun s => s.goto p (.walk ROOTINO path found)
  else (s.cwd p).map fun i => (s.idup i).goto p (.walk i path found)

/-- One round of the loop of `namex` -/
def walk (n : ℕ) (s : State P F) (p : P) (ip : ℕ) (path : List UInt8) (found : Found) : Option (State P F) :=
  match skipelem path with
  | none => if found.nameiparent then some (s.goto p (.put ip found.fail)) else some (s.goto p (found.done ip []))
  | some (name, path) => do
    let s ← s.ilock p ip
    if (s.ino ip).type ≠ some .dir then some (s.goto p (.unlockput ip found.fail))
    else if found.nameiparent = true ∧ path = [] then do
      let s ← s.iunlock ip
      some (s.goto p (found.done ip name))
    else match dirlookup (s.ino ip).ents name with
      | none => some (s.goto p (.unlockput ip found.fail))
      | some (inum, _) => do
        let s ← s.iget n inum
        some (s.goto p (.unlockput ip (.walk inum path found)))

/-- What `sys_open`, `sys_mkdir` and `sys_mknod` do with the inode that they have locked -/
def finish (s : State P F) (p : P) (ip : ℕ) (f : Option F) : Made → Option (State P F)
  | .file =>
    match f with
    | none => some (s.goto p (.unlockput ip (.client .err)))
    | some f => do
      if s.files f = none then
        let s ← s.iunlock ip
        some ({ s with files := Function.update s.files f (some ip) }.goto p (.client (.file f)))
      else none
  | .node => some (s.goto p (.unlockput ip (.client .ok)))

/-- An entry is about to be written. -/
def stray (s : State P F) (d : ℕ) : State P F := { s with strayed := s.strayed || decide ((s.ino d).nlink = 0) }

/-- The new inode of `create`, and its links -/
def create (s : State P F) (p : P) (dp ip : ℕ) (name : Name) (type : Kind) : State P F :=
  let ents := if type = .dir then [⟨ip, dot⟩, ⟨dp, dotdot⟩] else []
  let s := { s.set ip { type := some type, nlink := 1, ents := ents, ref := (s.ino ip).ref, valid := true } with
    busy := Function.update s.busy ip (some p) }
  (s.stray dp).set dp { s.ino dp with
    nlink := if type = .dir then (s.ino dp).nlink + 1 else (s.ino dp).nlink
    ents := insertEntry ⟨ip, name⟩ (s.ino dp).ents }

/-- What a process does next; `none` if it has to wait, and for a panic -/
def advance (n : ℕ) (s : State P F) (p : P) (f : Option F) : Option (State P F) :=
  match s.pc p with
  | .client _ => none
  | .walk ip path found => s.walk n p ip path found
  | .put ip next => do
    let s ← s.iput ip
    some (s.goto p next)
  | .unlockput ip next => do
    let s ← s.iunlock ip
    let s ← s.iput ip
    some (s.goto p next)
  | .linkInc ip new => do
    let s ← s.ilock p ip
    if (s.ino ip).type = some .dir then some (s.goto p (.unlockput ip (.client .err)))
    else do
      let s ← (s.set ip { s.ino ip with nlink := (s.ino ip).nlink + 1 }).iunlock ip
      s.namex n p new (.linkNew ip)
  | .linkDir ip dp name => do
    let s ← s.ilock p dp
    if (s.ino dp).type ≠ some .dir then none
    else match dirlink (s.ino dp).ents name ip with
      | none => some (s.goto p (.unlockput dp (.linkBad ip)))
      | some ents =>
        some (((s.stray dp).set dp { s.ino dp with ents := ents }).goto p (.unlockput dp (.put ip (.client .ok))))
  | .linkBad ip => do
    let s ← s.ilock p ip
    some ((s.set ip { s.ino ip with nlink := (s.ino ip).nlink - 1 }).goto p (.unlockput ip (.client .err)))
  | .unlinkDir dp name => do
    let s ← s.ilock p dp
    if (s.ino dp).type ≠ some .dir then none
    else if name = dot ∨ name = dotdot then some (s.goto p (.unlockput dp (.client .err)))
    else match dirlookup (s.ino dp).ents name with
      | none => some (s.goto p (.unlockput dp (.client .err)))
      | some (ip, off) => do
        let s ← s.iget n ip
        some (s.goto p (.unlinkIp dp ip off))
  | .unlinkIp dp ip off => do
    let s ← s.ilock p ip
    if (s.ino ip).nlink < 1 then none
    else if (s.ino ip).type = some .dir ∧ isdirempty (s.ino ip).ents = false then
      some (s.goto p (.unlockput ip (.unlockput dp (.client .err))))
    else
      let nlink := if (s.ino ip).type = some .dir then (s.ino dp).nlink - 1 else (s.ino dp).nlink
      some ((s.set dp { s.ino dp with nlink := nlink, ents := clear (s.ino dp).ents off }).goto p
        (.unlockput dp (.unlinkDec ip)))
  | .unlinkDec ip =>
    some ((s.set ip { s.ino ip with nlink := (s.ino ip).nlink - 1 }).goto p (.unlockput ip (.client .ok)))
  | .createDir dp name type made => do
    let s ← s.ilock p dp
    if (s.ino dp).type ≠ some .dir then none
    else match dirlookup (s.ino dp).ents name with
      | some (ip, _) => do
        let s ← s.iget n ip
        some (s.goto p (.unlockput dp (.createOld ip type made)))
      | none => do
        let ip ← s.ialloc n
        let s ← s.iget n ip
        some ((s.create p dp ip name type).goto p (.unlockput dp (.created ip made)))
  | .createOld ip type made => do
    let s ← s.ilock p ip
    if type = .file ∧ (s.ino ip).type = some .file ∨ type = .checked ∧ (s.ino ip).type = some .checked then
      s.finish p ip f made
    else some (s.goto p (.unlockput ip (.client .err)))
  | .created ip made => s.finish p ip f made
  | .openIp ip omode => do
    let s ← s.ilock p ip
    if (s.ino ip).type = some .dir ∧ omode ≠ O_RDONLY then some (s.goto p (.unlockput ip (.client .err)))
    else s.finish p ip f .file
  | .chdirIp ip => do
    let s ← s.ilock p ip
    if (s.ino ip).type ≠ some .dir then some (s.goto p (.unlockput ip (.client .err)))
    else do
      let s ← s.iunlock ip
      let old ← s.cwd p
      some ({ s with cwd := Function.update s.cwd p (some ip) }.goto p (.put old (.client .ok)))

/-- The process is outside of the code. -/
def idle (s : State P F) (p : P) : Bool :=
  match s.pc p with
  | .client _ => true
  | _ => false

/-- What one step does -/
def step (n : ℕ) (s : State P F) : Label P F → Option (State P F)
  | .open p path create checked omode =>
    if s.idle p then
      if create then s.namex n p path (.create (if checked then .checked else .file) .file)
      else s.namex n p path (.open omode)
    else none
  | .mkdir p path => if s.idle p then s.namex n p path (.create .dir .node) else none
  | .mknod p path => if s.idle p then s.namex n p path (.create .dev .node) else none
  | .link p old new => if s.idle p then s.namex n p old (.linkOld new) else none
  | .unlink p path => if s.idle p then s.namex n p path .unlink else none
  | .chdir p path => if s.idle p then s.namex n p path .chdir else none
  | .close p f =>
    if s.idle p then
      (s.files f).map fun i => { s with files := Function.update s.files f none }.goto p (.put i (.client .ok))
    else none
  | .fork p q =>
    if s.idle p ∧ s.idle q ∧ s.cwd q = none then
      (s.cwd p).map fun i => { s.idup i with cwd := Function.update s.cwd q (some i) }
    else none
  | .exit p =>
    if s.idle p then
      (s.cwd p).map fun i => { s with cwd := Function.update s.cwd p none }.goto p (.put i (.client .ok))
    else none
  | .advance p f => s.advance n p f

end State

/-- The directories with their processes, on a disk with `n` inodes -/
def dirs (P F : Type) [DecidableEq P] [DecidableEq F] (n : ℕ) : Machine (State P F) (Label P F) where
  next := State.step n

end

end Dirs

end OperatingSystems

import OperatingSystems.Bytes.Basic
import OperatingSystems.Stages.Basic
import OperatingSystems.Vm.Memory

/-!
# Loading a program

`exec` of the kernel of `P3` builds a new address space from an ELF file, whose fields it takes as
they are: sums of them wrap around at `2 ^ 32`.  It then replaces the address space of its caller, or,
after `goto bad`, frees what it has built.

`loaduvm` copies to whatever physical page is in the page-table entry.  For a page that is not one of
the new address space this is a page of the kernel, or page `0` of the caller if there is no entry; what
follows depends on what was there, and the model stops.

* `readi` : reading a file; `Elfhdr`, `Proghdr` : its headers.
* `loaduvm`, `copyout` : `vm.c`.
* `loadSegments`, `pushStack`, `pushArgs` : the parts of `exec`.
* `exec` : all of it, for a `Task`.
-/

namespace OperatingSystems

namespace Vm

open Bytes

/-! ### Files -/

def BSIZE : ℕ := 512

/-- The number of blocks of a file: the direct and the indirect ones. -/
def MAXFILE : ℕ := 12 + BSIZE / 4

/-- A file. -/
structure Inode where
  data : Bytes
  size : ℕ
  size_le : size ≤ MAXFILE * BSIZE

/-- `readi`: the number of bytes that are read, `none` on error.  They are those of `ip.data` from
`off` on. -/
def readi (ip : Inode) (off n : ℕ) : Option ℕ :=
  if off > ip.size ∨ (off + n) % 2 ^ 32 < off then none
  else some (if (off + n) % 2 ^ 32 > ip.size then ip.size - off else n)

/-- The fields of `struct elfhdr` that `exec` reads. -/
structure Elfhdr where
  magic : ℕ
  entry : ℕ
  phoff : ℕ
  phnum : ℕ

/-- `sizeof(struct elfhdr)`. -/
def elfhdrSize : ℕ := 52

def Elfhdr.ofBytes (b : Bytes) : Elfhdr where
  magic := toNat 4 b
  entry := toNat 4 (slice b 24)
  phoff := toNat 4 (slice b 28)
  phnum := toNat 2 (slice b 44)

def ELF_MAGIC : ℕ := 0x464C457F

/-- The fields of `struct proghdr` that `exec` reads. -/
structure Proghdr where
  type : ℕ
  offset : ℕ
  va : ℕ
  filesz : ℕ
  memsz : ℕ

/-- `sizeof(struct proghdr)`. -/
def proghdrSize : ℕ := 32

def Proghdr.ofBytes (b : Bytes) : Proghdr where
  type := toNat 4 b
  offset := toNat 4 (slice b 4)
  va := toNat 4 (slice b 8)
  filesz := toNat 4 (slice b 16)
  memsz := toNat 4 (slice b 20)

def ELF_PROG_LOAD : ℕ := 1

/-! ### Writing to an address space -/

/-- Why `exec` does not return. -/
inductive Stop where
  | panic
  /-- An access to a page that is not one of the new address space. -/
  | stray
  deriving DecidableEq

/-- Copying `n` bytes of `p` into a frame. -/
def Kmem.fill (m : Kmem) (f : Frame) (off n : ℕ) (p : Bytes) : Kmem :=
  m.write f (patch (m.page f) off n p)

/-- The page directory has a page table for the page `v`: those of the kernel mappings. -/
abbrev HasTable (v : ℕ) : Prop := v < PHYSTOP / PGSIZE ∨ DEVSPACE / PGSIZE ≤ v

/-- The loop of `loaduvm`.  The file ends before `i` could wrap around. -/
def loadLoop (pgdir : Pgdir) (addr : ℕ) (ip : Inode) (offset sz i : ℕ) (m : Kmem) :
    Except Stop (Kmem × Bool) :=
  if i < sz then
    let v := (addr + i) % 2 ^ 32 / PGSIZE
    let n := if sz - i < PGSIZE then sz - i else PGSIZE
    let off := (offset + i) % 2 ^ 32
    if HasTable v then
      match pgdir.pte v with
      | none => if (readi ip off n).getD 0 = 0 then .ok (m, false) else .error .stray
      | some pte =>
        let m := m.fill pte.frame 0 ((readi ip off n).getD 0) (slice ip.data off)
        if readi ip off n = some n then loadLoop pgdir addr ip offset sz (i + PGSIZE) m
        else .ok (m, false)
    else .error .panic
  else .ok (m, true)
termination_by sz - i
decreasing_by simp only [PGSIZE]; omega

/-- `loaduvm`. -/
def loaduvm (m : Kmem) (pgdir : Pgdir) (addr : ℕ) (ip : Inode) (offset sz : ℕ) :
    Except Stop (Kmem × Bool) :=
  if addr % PGSIZE ≠ 0 then .error .panic else loadLoop pgdir addr ip offset sz 0 m

/-- `uva2ka`.  It does not check for a missing page table. -/
def uva2ka (pgdir : Pgdir) (uva : ℕ) : Except Stop (Option Frame) :=
  if HasTable (uva / PGSIZE) then
    .ok (match pgdir.pte (uva / PGSIZE) with
      | none => none
      | some pte => if pte.user then some pte.frame else none)
  else .error .stray

/-- `copyout`. -/
def copyout (m : Kmem) (pgdir : Pgdir) (va : ℕ) (p : Bytes) (len : ℕ) :
    Except Stop (Kmem × Bool) :=
  if 0 < len then
    let va0 := va / PGSIZE * PGSIZE
    match uva2ka pgdir va0 with
    | .error e => .error e
    | .ok none => .ok (m, false)
    | .ok (some f) =>
      let n := if PGSIZE - (va - va0) > len then len else PGSIZE - (va - va0)
      copyout (m.fill f (va - va0) n p) pgdir ((va0 + PGSIZE) % 2 ^ 32) (slice p n) (len - n)
  else .ok (m, true)
termination_by len
decreasing_by
  have hlt : va % PGSIZE < PGSIZE := Nat.mod_lt va (by decide)
  have hmod : va - va / PGSIZE * PGSIZE = va % PGSIZE := by
    have := Nat.div_add_mod' va PGSIZE
    omega
  rw [hmod]
  split_ifs <;> omega

/-! ### The parts of `exec` -/

/-- A part of `exec`, on the free memory and the new page directory; `none` is `goto bad`. -/
abbrev Build (α : Type) : Type := Stage Stop (Kmem × Pgdir) α

/-- A call that returns `-1` on error, as a part of `exec` that goes on with `a`. -/
def Build.ofResult {α : Type} (d : Pgdir) (a : α) : Except Stop (Kmem × Bool) → Build α
  | .error e => .error e
  | .ok (m, ok) => .ok ((m, d), if ok then some a else none)

/-- The loop over the program headers, for the header at `off`, called by a process of size `psz` with a
stack of `pss` bytes: the new size. -/
def loadSegment (psz pss : ℕ) (ip : Inode) (off : ℕ) (s : Kmem × Pgdir) (sz : ℕ) : Build ℕ :=
  if readi ip off proghdrSize ≠ some proghdrSize then .ok (s, none)
  else
    let ph := Proghdr.ofBytes (slice ip.data off)
    if ph.type ≠ ELF_PROG_LOAD then .ok (s, some sz)
    else if ph.memsz < ph.filesz then .ok (s, none)
    else
      match allocuvm psz pss s.1 s.2 sz (toUint (ph.va + ph.memsz + PGSIZE)) with
      | none => .error .panic
      | some (m, d, sz) =>
        if sz = 0 then .ok ((m, d), none)
        else Build.ofResult d sz (loaduvm m d ph.va ip ph.offset ph.filesz)

/-- "Load program into memory.", with `n` headers from `off` on. -/
def loadSegments (psz pss : ℕ) (ip : Inode) : ℕ → ℕ → Kmem × Pgdir → ℕ → Build ℕ
  | 0, _, s, sz => .ok (s, some sz)
  | n + 1, off, s, sz =>
    Stage.andThen (loadSegment psz pss ip off s sz)
      (loadSegments psz pss ip n ((off + proghdrSize) % 2 ^ 32))

/-- The page of the stack. -/
def pushStack (psz pss : ℕ) (s : Kmem × Pgdir) : Build Unit :=
  match allocuvm psz pss s.1 s.2 (USERTOP - PGSIZE) USERTOP with
  | none => .error .panic
  | some (m, d, newstk) => .ok ((m, d), if newstk = 0 then none else some ())

def MAXARG : ℕ := 32

/-- A string in the heap of the caller, where `fetchstr` has found its end. -/
structure Arg where
  bytes : Bytes
  len : ℕ
  len_lt : len < USERTOP
  nonzero : ∀ i < len, bytes i ≠ 0
  zero : bytes len = 0

/-- "Push argument strings": the stack pointer, and the pointers to the strings. -/
def pushStrings : List Arg → ℕ → ℕ → List ℕ → Kmem × Pgdir → Build (ℕ × List ℕ)
  | [], _, sp, ptrs, s => .ok (s, some (sp, ptrs))
  | a :: argv, argc, sp, ptrs, s =>
    if argc ≥ MAXARG then .ok (s, none)
    else
      let sp := toUint (sp - (a.len + 1)) / 4 * 4
      Stage.andThen (Build.ofResult s.2 () (copyout s.1 s.2 sp a.bytes (a.len + 1))) fun s _ =>
        pushStrings argv (argc + 1) sp (ptrs ++ [sp]) s

/-- The bytes of an array of `uint`. -/
def ofWords (ws : List ℕ) : Bytes := fun i => ofNat (ws.getD (i / 4) 0) (i % 4)

/-- "Prepare rest of stack in ustack": the stack pointer. -/
def pushUstack (argc sp : ℕ) (ptrs : List ℕ) (s : Kmem × Pgdir) : Build ℕ :=
  let ustack := [0xffffffff, argc, toUint (sp - (argc + 1) * 4)] ++ ptrs ++ [0]
  let sp := toUint (sp - (3 + argc + 1) * 4)
  Build.ofResult s.2 sp (copyout s.1 s.2 sp (ofWords ustack) ((3 + argc + 1) * 4))

/-- The stack pointer for a list of arguments. -/
def pushArgs (argv : List Arg) (s : Kmem × Pgdir) : Build ℕ :=
  Stage.andThen (pushStrings argv 0 USERTOP [] s) fun s (sp, ptrs) =>
    pushUstack argv.length sp ptrs s

/-- The new address space: its size and the stack pointer. -/
def buildImage (psz pss : ℕ) (ip : Inode) (argv : List Arg) (s : Kmem × Pgdir) : Build (ℕ × ℕ) :=
  let elf := Elfhdr.ofBytes ip.data
  Stage.andThen (loadSegments psz pss ip elf.phnum elf.phoff s 0) fun s sz =>
    Stage.andThen (pushStack psz pss s) fun s _ =>
      Stage.andThen (pushArgs argv s) fun s sp => .ok (s, some (sz, sp))

/-! ### The call -/

/-- What `exec` changes of a process. -/
structure Task where
  pgdir : Pgdir
  sz : ℕ
  ss : ℕ
  /-- `tf->eip`. -/
  eip : ℕ
  /-- `tf->esp`. -/
  esp : ℕ
  name : List UInt8

/-- The check of the ELF header.  `readi` returns no error at offset `0`. -/
abbrev Inode.IsElf (ip : Inode) : Prop :=
  readi ip 0 elfhdrSize = some elfhdrSize ∧ (Elfhdr.ofBytes ip.data).magic = ELF_MAGIC

/-- The last part of a path, cut off for `proc->name`. -/
def execName (path : List UInt8) : List UInt8 :=
  (path.reverse.takeWhile (· ≠ 47)).reverse.take 15

/-- `exec` of the file `ip` that `namei` has found, called by `q`. -/
def exec (m : Kmem) (q : Task) (path : List UInt8) (ip : Option Inode) (argv : List Arg) :
    Except Stop (Kmem × Task × ℤ) :=
  match ip with
  | none => .ok (m, q, -1)
  | some ip =>
    if ip.IsElf then
      match setupkvm m with
      | (none, m) => .ok (m, q, -1)
      | (some d, m) =>
        match buildImage q.sz q.ss ip argv (m, d) with
        | .error e => .error e
        | .ok ((m, d), none) => .ok (freevm m d, q, -1)
        | .ok ((m, d), some (sz, sp)) =>
          -- "Commit to the user image."
          .ok (freevm m q.pgdir, {
            pgdir := d, sz := sz, ss := PGSIZE, eip := (Elfhdr.ofBytes ip.data).entry, esp := sp,
            name := execName path }, 0)
    else .ok (m, q, -1)

end Vm

end OperatingSystems

import OperatingSystems.Links.Circular
import Mathlib.Algebra.Order.Ring.Int
import Mathlib.Logic.Function.Basic

/-!
# The allocator of user programs

`umalloc.c` of `P4`.  The free blocks are a circular list in the order of their addresses; a search
begins where the last one ended, at `freep`.  Each block begins with a header.

Memory is a sequence of units, each as large as a header: a `Header *` is the number of a unit, a
`void *` an address in bytes.  The end of the heap is at a unit, since `exec` puts it at a page and
only `morecore` moves it.

* `Header`, `Heap` : the memory of a program, and the variables of the allocator.
* `free`, `morecore`, `malloc` : `umalloc.c`.
* `sbrk` : the system call, with `growproc` and `allocuvm`; whether there are free pages is a parameter.
-/

namespace OperatingSystems

namespace Umalloc

open Links

/-- `union header`. -/
structure Header where
  ptr : ℕ
  size : ℕ
  deriving DecidableEq

/-- `sizeof(Header)`. -/
def UNIT : ℕ := 8

/-- The end of the user address space. -/
def USERTOP : ℕ := 0xA0000

/-- The memory of a program. -/
structure Heap where
  mem : ℕ → Header
  freep : ℕ
  /-- `proc->sz`, in units. -/
  brk : ℕ

/-- `p + n` for a `Header *`. -/
def offset (p n : ℕ) : ℕ := (p + n) % 2 ^ 29

/-- The number of steps of a search; one that takes more goes on forever. -/
def maxSteps : ℕ := 2 ^ 34

/-- The loop in `free` ends at `p`: the block is linked in behind it. -/
def isPlace (mem : ℕ → Header) (bp p : ℕ) : Bool :=
  (bp > p && bp < (mem p).ptr) || (p ≥ (mem p).ptr && (bp > p || bp < (mem p).ptr))

/-- The header of the freed block: joined to the next one if that is behind it. -/
def joinUpper (mem : ℕ → Header) (bp next : ℕ) : Header :=
  if offset bp (mem bp).size = next then
    ⟨(mem next).ptr, ((mem bp).size + (mem next).size) % 2 ^ 32⟩
  else ⟨next, (mem bp).size⟩

/-- The header of the block before it: joined to the freed one if that is behind it. -/
def joinLower (mem : ℕ → Header) (p bp : ℕ) : Header :=
  if offset p (mem p).size = bp then ⟨(mem bp).ptr, ((mem p).size + (mem bp).size) % 2 ^ 32⟩
  else ⟨bp, (mem p).size⟩

/-- `free` of a block with the header `bp`; the program may not access memory behind its end. -/
def freeHeader (bp : ℕ) (h : Heap) : Option Heap :=
  if bp < h.brk then
    (walk (fun p => (h.mem p).ptr) (isPlace h.mem bp) maxSteps h.freep).map fun p =>
      let mem := Function.update h.mem bp (joinUpper h.mem bp (h.mem p).ptr)
      { h with mem := Function.update mem p (joinLower mem p bp), freep := p }
  else none

/-- `(Header *)ap - 1`. -/
def headerOf (ap : ℕ) : ℕ := (2 ^ 29 - 1 + ap / UNIT) % 2 ^ 29

/-- `(void *)(p + 1)`. -/
def payload (p : ℕ) : ℕ := (p + 1) * UNIT

/-- `free`, `none` if it does not return: it searches forever, or the program is killed for an access. -/
def free (ap : ℕ) (h : Heap) : Option Heap := freeHeader (headerOf ap) h

/-- Conversion to `int`. -/
def toInt (n : ℕ) : ℤ := if n % 2 ^ 32 < 2 ^ 31 then (n % 2 ^ 32 : ℕ) else (n % 2 ^ 32 : ℕ) - 2 ^ 32

/-- `sbrk`: the old end of the heap, `none` on error.  `mem` says whether there are pages for more. -/
def sbrk (mem : Bool) (n : ℤ) (h : Heap) : Option (ℕ × Heap) :=
  let sz := h.brk * UNIT
  let newsz := ((sz + n) % 2 ^ 32).toNat
  if n > 0 then
    if newsz > USERTOP then none
    else if newsz < sz then some (h.brk, h)
    else if mem then some (h.brk, { h with brk := newsz / UNIT })
    else none
  else if n < 0 then
    if newsz ≥ sz then if sz = 0 then none else some (h.brk, h)
    else if newsz = 0 then none
    else some (h.brk, { h with brk := newsz / UNIT })
  else some (h.brk, h)

/-- `morecore`: `none` if it does not return; without a heap it has failed. -/
def morecore (mem : Bool) (nu : ℕ) (h : Heap) : Option (Option Heap) :=
  let nu := if nu < 4096 then 4096 else nu
  match sbrk mem (toInt (nu * UNIT)) h with
  | none => some none
  | some (hp, h) =>
    (free (payload hp) { h with
      mem := Function.update h.mem hp { h.mem hp with size := nu } }).map some

/-- `malloc` has found the block `p` behind `prevp`. -/
def take (nunits prevp p : ℕ) (h : Heap) : ℕ × Heap :=
  if (h.mem p).size = nunits then
    (payload p, { h with
      mem := Function.update h.mem prevp { h.mem prevp with ptr := (h.mem p).ptr }, freep := prevp })
  else
    let size := (h.mem p).size - nunits
    let q := offset p size
    let mem := Function.update h.mem p { h.mem p with size := size }
    (payload q, { h with
      mem := Function.update mem q { mem q with size := nunits }, freep := prevp })

/-- The loop in `malloc`. -/
def mallocLoop (mem : Bool) (nunits : ℕ) : ℕ → ℕ → ℕ → Heap → Option (ℕ × Heap)
  | 0, _, _, _ => none
  | n + 1, prevp, p, h =>
    if (h.mem p).size ≥ nunits then some (take nunits prevp p h)
    else if p = h.freep then
      match morecore mem nunits h with
      | none => none
      | some none => some (0, h)
      | some (some h) => mallocLoop mem nunits n h.freep (h.mem h.freep).ptr h
    else mallocLoop mem nunits n p (h.mem p).ptr h

/-- The number of units for `nbytes` bytes and a header. -/
def unitsFor (nbytes : ℕ) : ℕ := (nbytes + UNIT - 1) % 2 ^ 32 / UNIT + 1

/-- "`freep = prevp = &base`", before the first search. -/
def Heap.init (base : ℕ) (h : Heap) : Heap :=
  if h.freep = 0 then { h with mem := Function.update h.mem base ⟨base, 0⟩, freep := base } else h

/-- `malloc`, with the static variable `base`; `none` if it does not return. -/
def malloc (base : ℕ) (mem : Bool) (nbytes : ℕ) (h : Heap) : Option (ℕ × Heap) :=
  let h := h.init base
  mallocLoop mem (unitsFor nbytes) maxSteps h.freep (h.mem h.freep).ptr h

end Umalloc

end OperatingSystems

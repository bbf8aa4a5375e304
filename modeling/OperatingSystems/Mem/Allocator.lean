import OperatingSystems.Bytes.Basic
import OperatingSystems.Machine.Basic

/-!
# The memory allocator

`mem.c` of `P3/mem_allocator`, compiled for a machine with pointers of eight bytes: each chunk of the
region begins with a `header`, and the free chunks and the allocated ones are in two lists that are
linked through the headers.

What would be undefined, or never end, is a `Stop`.  The loops get a bound on the number of their
iterations, `fuel`, and stop as `endless` if they need more.

* `Header` : `struct node`, and where its fields are in memory.
* `Heap` : the region and the global variables.
* `Mem_Init`, `Mem_Alloc`, `Mem_Free`, `coalesce` : the functions of `mem.c`.
* `allocator` : the calls of a client, which writes to the blocks that it got.
-/

namespace OperatingSystems

namespace Mem

open Bytes

inductive Stop where
  /-- The null pointer is dereferenced. -/
  | null
  /-- An access outside of the region. -/
  | fault
  /-- A signed overflow. -/
  | overflow
  /-- A loop needs more than `fuel` iterations. -/
  | endless
  deriving DecidableEq

/-- The errors of `mem.h`. -/
inductive Error where
  | E_NO_SPACE
  | E_CORRUPT_FREESPACE
  | E_PADDING_OVERWRITTEN
  | E_BAD_ARGS
  | E_BAD_POINTER
  deriving DecidableEq

def BESTFIT : ℤ := 0
def WORSTFIT : ℤ := 1
def FIRSTFIT : ℤ := 2

/-- A value of type `int`. -/
def IsInt (x : ℤ) : Prop := -2 ^ 31 ≤ x ∧ x < 2 ^ 31

instance (x : ℤ) : Decidable (IsInt x) := inferInstanceAs (Decidable (_ ∧ _))

/-- The result of an addition or subtraction of `int`s. -/
def int (x : ℤ) : Except Stop ℤ := if IsInt x then .ok x else .error .overflow

/-! ### Pointers and headers -/

/-- The pointer with the value `n`. -/
def ofPtr (n : ℕ) : Option ℕ := if n = 0 then none else some n

/-- The value of a pointer. -/
def toPtr (p : Option ℕ) : ℕ := p.getD 0

/-- `(char*) p + x` -/
def ptrAdd (p : Option ℕ) (x : ℤ) : Option ℕ := ofPtr ((toPtr p + x) % 2 ^ 64).toNat

/-- `header` -/
structure Header where
  size : ℤ
  free : ℤ
  next : Option ℕ
  prev : Option ℕ
  deriving DecidableEq

def sizeofHeader : ℕ := 24

/-- The header at `a`. -/
def header (m : Bytes) (a : ℕ) : Header where
  size := toInt (slice m a)
  free := toInt (slice m (a + 4))
  next := ofPtr (toNat 8 (slice m (a + 8)))
  prev := ofPtr (toNat 8 (slice m (a + 16)))

/-- The region, from `lo` to `hi`, and the variables of `mem.c`. -/
structure Heap where
  mem : Bytes
  lo : ℕ
  hi : ℕ
  freeList : Option ℕ
  memList : Option ℕ
  begin : Option ℕ
  totalSize : ℤ
  initialized : Bool
  m_error : Option Error

namespace Heap

/-- The address of the `n` bytes at `off` from `p`. -/
def access (h : Heap) (p : Option ℕ) (off n : ℕ) : Except Stop ℕ :=
  match p with
  | none => .error .null
  | some a => if h.lo ≤ a + off ∧ a + off + n ≤ h.hi then .ok (a + off) else .error .fault

def write (h : Heap) (p : Option ℕ) (off n : ℕ) (b : Bytes) : Except Stop Heap :=
  (h.access p off n).map fun a => { h with mem := patch h.mem a n b }

/-- `p->size` -/
def size (h : Heap) (p : Option ℕ) : Except Stop ℤ :=
  (h.access p 0 4).map fun a => toInt (slice h.mem a)

/-- `p->free` -/
def free (h : Heap) (p : Option ℕ) : Except Stop ℤ :=
  (h.access p 4 4).map fun a => toInt (slice h.mem a)

/-- `p->next` -/
def next (h : Heap) (p : Option ℕ) : Except Stop (Option ℕ) :=
  (h.access p 8 8).map fun a => ofPtr (toNat 8 (slice h.mem a))

/-- `p->prev` -/
def prev (h : Heap) (p : Option ℕ) : Except Stop (Option ℕ) :=
  (h.access p 16 8).map fun a => ofPtr (toNat 8 (slice h.mem a))

/-- `p->size = x` -/
def setSize (h : Heap) (p : Option ℕ) (x : ℤ) : Except Stop Heap := h.write p 0 4 (ofInt x)

/-- `p->free = x` -/
def setFree (h : Heap) (p : Option ℕ) (x : ℤ) : Except Stop Heap := h.write p 4 4 (ofInt x)

/-- `p->next = q` -/
def setNext (h : Heap) (p q : Option ℕ) : Except Stop Heap := h.write p 8 8 (ofNat (toPtr q))

/-- `p->prev = q` -/
def setPrev (h : Heap) (p q : Option ℕ) : Except Stop Heap := h.write p 16 8 (ofNat (toPtr q))

/-- `*p = x` -/
def setHeader (h : Heap) (p : Option ℕ) (x : Header) : Except Stop Heap := do
  let h ← h.setSize p x.size
  let h ← h.setFree p x.free
  let h ← h.setNext p x.next
  h.setPrev p x.prev

/-! ### The searches -/

/-- The loop of `firstfit`. -/
def firstfitLoop (h : Heap) (size : ℤ) : ℕ → Option ℕ → Except Stop (Option ℕ)
  | _, none => .ok none
  | 0, some _ => .error .endless
  | fuel + 1, some freeTmp => do
    if (← h.size (some freeTmp)) ≥ size then
      pure (some freeTmp)
    else
      h.firstfitLoop size fuel (← h.next (some freeTmp))

def firstfit (h : Heap) (fuel : ℕ) (size : ℤ) : Except Stop (Option ℕ) :=
  h.firstfitLoop size fuel h.freeList

/-- The loop of `bestfit` and `worstfit`, which takes a chunk that is `better` for the one that it
has found before. -/
def fitLoop (better : ℤ → ℤ → Bool) (h : Heap) (size : ℤ) :
    ℕ → Option ℕ → Option ℕ → Bool → Except Stop (Option ℕ)
  | _, none, best, _ => .ok best
  | 0, some _, _, _ => .error .endless
  | fuel + 1, some freeTmp, best, first => do
    let freeSize ← h.size (some freeTmp)
    let (best, first) := if first ∧ freeSize ≥ size then (some freeTmp, false) else (best, first)
    let best ←
      if freeSize ≥ size then do
        if better freeSize (← h.size best) then pure (some freeTmp) else pure best
      else pure best
    h.fitLoop better size fuel (← h.next (some freeTmp)) best first

/-- `bestfit` and `worstfit`, which differ in one comparison. -/
def fit (better : ℤ → ℤ → Bool) (h : Heap) (fuel : ℕ) (size : ℤ) : Except Stop (Option ℕ) := do
  let best ← h.fitLoop better size fuel h.freeList h.freeList true
  if best = h.freeList then do
    if (← h.size best) < size then pure none else pure best
  else pure best

def bestfit : Heap → ℕ → ℤ → Except Stop (Option ℕ) := fit fun x y => x < y

def worstfit : Heap → ℕ → ℤ → Except Stop (Option ℕ) := fit fun x y => x > y

/-- The `switch` of `Mem_Alloc`. -/
def search (h : Heap) (fuel : ℕ) (policy requestSize : ℤ) : Except Stop (Option ℕ) :=
  if policy = BESTFIT then h.bestfit fuel requestSize
  else if policy = WORSTFIT then h.worstfit fuel requestSize
  else if policy = FIRSTFIT then h.firstfit fuel requestSize
  else .ok none

/-! ### Links -/

/-- `if (x->next != NULL) x->next->prev = x->prev;` -/
def relinkNext (h : Heap) (x : Option ℕ) : Except Stop Heap := do
  match ← h.next x with
  | none => pure h
  | some n => h.setPrev (some n) (← h.prev x)

/-- `if (x->prev != NULL) x->prev->next = x->next;` -/
def relinkPrev (h : Heap) (x : Option ℕ) : Except Stop Heap := do
  match ← h.prev x with
  | none => pure h
  | some p => h.setNext (some p) (← h.next x)

/-- `if (p != NULL) p->prev = q;` -/
def pointBack (h : Heap) (p q : Option ℕ) : Except Stop Heap :=
  if p ≠ none then h.setPrev p q else .ok h

/-- `if (x == freeList) freeList = x->next;` -/
def dropFree (h : Heap) (x : Option ℕ) : Except Stop Heap :=
  if x = h.freeList then (h.next x).map fun p => { h with freeList := p } else .ok h

/-- `if (memList == x) memList = x->next;` -/
def dropMem (h : Heap) (x : Option ℕ) : Except Stop Heap :=
  if h.memList = x then (h.next x).map fun p => { h with memList := p } else .ok h

end Heap

/-! ### The functions -/

/-- `size`, made a multiple of `unit` by `size += unit - size % unit`. -/
def roundUp (unit size : ℤ) : Except Stop ℤ :=
  if size.tmod unit ≠ 0 then int (size + (unit - size.tmod unit)) else .ok size

/-- `Mem_Init`; `mmap` maps pages from `region` on, or fails. -/
def Mem_Init (pageSize : ℕ) (h : Heap) (sizeOfRegion : ℤ) (region : Option ℕ) :
    Except Stop (Heap × ℤ) :=
  if h.initialized ∨ sizeOfRegion ≤ 0 then .ok ({ h with m_error := some .E_BAD_ARGS }, -1)
  else do
    let requestSize ← roundUp pageSize sizeOfRegion
    match region with
    | none =>
      -- `freeList` keeps `MAP_FAILED`
      pure ({ h with freeList := some (2 ^ 64 - 1), m_error := some .E_BAD_ARGS }, -1)
    | some a =>
      let pages := (sizeOfRegion.toNat + pageSize - 1) / pageSize
      let h := { h with mem := fun _ => 0, lo := a, hi := a + pages * pageSize, freeList := some a }
      let h ← h.setHeader (some a) ⟨requestSize - sizeofHeader, 1, none, none⟩
      pure ({ h with initialized := true, totalSize := requestSize, begin := h.freeList }, 0)

/-- The part of `Mem_Alloc` that makes what is left of the chunk a free chunk of its own. -/
def Heap.split (h : Heap) (freeChunkHeader : Option ℕ) (requestSize : ℤ) : Except Stop Heap := do
  let rest ← int ((← int ((← h.size freeChunkHeader) - requestSize)) - sizeofHeader)
  if rest > 0 then
    let newFreeHeader := ptrAdd freeChunkHeader (requestSize + sizeofHeader)
    let h ← h.setHeader newFreeHeader ⟨rest, 1, none, none⟩
    let h ← h.setNext newFreeHeader h.freeList
    let h ← h.setPrev newFreeHeader none
    let h ← h.pointBack h.freeList newFreeHeader
    let h := { h with freeList := newFreeHeader }
    h.setSize freeChunkHeader requestSize
  else pure h

/-- The part of `Mem_Alloc` that moves the chunk from one list to the other. -/
def Heap.move (h : Heap) (newMemHeader : Option ℕ) : Except Stop Heap := do
  let h ← h.relinkNext newMemHeader
  let h ← h.relinkPrev newMemHeader
  let h ← h.dropFree newMemHeader
  let h ← h.setNext newMemHeader h.memList
  let h ← h.pointBack h.memList newMemHeader
  let h ← h.setPrev newMemHeader none
  let h := { h with memList := newMemHeader }
  h.setFree h.memList 0

def Mem_Alloc (fuel : ℕ) (h : Heap) (size policy : ℤ) : Except Stop (Heap × Option ℕ) := do
  let requestSize ← roundUp 8 size
  let freeChunkHeader ← h.search fuel policy requestSize
  if freeChunkHeader = none ∧ (policy = BESTFIT ∨ policy = WORSTFIT ∨ policy = FIRSTFIT) then
    pure ({ h with m_error := some .E_NO_SPACE }, none)
  else
    let h ← h.split freeChunkHeader requestSize
    let h ← h.move freeChunkHeader
    pure (h, ptrAdd freeChunkHeader sizeofHeader)

/-- The variables of the loop of `coalesce`. -/
structure Walk where
  curr : Option ℕ
  prev : Option ℕ
  currSize : ℤ
  immediate : Bool

/-- The body of the loop of `coalesce`, up to the next chunk. -/
def Heap.join (h : Heap) (w : Walk) : Except Stop (Heap × Walk) := do
  if (← h.free w.curr) ≠ 0 then
    if w.prev = none then
      let h := { h with freeList := w.curr }
      let h ← h.setPrev h.freeList none
      let h ← h.setNext h.freeList none
      pure (h, { w with prev := w.curr, immediate := true })
    else if w.immediate = false then
      let h ← h.setNext w.prev w.curr
      let h ← h.setPrev w.curr w.prev
      pure (h, { w with prev := w.curr, immediate := true })
    else
      let size ← int ((← h.size w.prev) + (← int ((← h.size w.curr) + sizeofHeader)))
      let h ← h.setSize w.prev size
      let h ← h.setFree w.curr 1
      pure (h, w)
  else pure (h, { w with immediate := false })

/-- The step to the next chunk. -/
def Heap.advance (h : Heap) (w : Walk) : Except Stop Walk := do
  let size ← h.size w.curr
  let currSize ← int (w.currSize + (← int (size + sizeofHeader)))
  pure { w with currSize := currSize, curr := ptrAdd w.curr (sizeofHeader + size) }

/-- The loop of `coalesce`. -/
def coalesceLoop : ℕ → Heap → Walk → Except Stop (Heap × Walk)
  | fuel, h, w =>
    if w.currSize < h.totalSize then
      match fuel with
      | 0 => .error .endless
      | fuel + 1 => do
        let x ← h.join w
        coalesceLoop fuel x.1 (← x.1.advance x.2)
    else .ok (h, w)

def coalesce (fuel : ℕ) (h : Heap) : Except Stop Heap := do
  let x ← coalesceLoop fuel h ⟨h.begin, none, 0, false⟩
  if x.2.prev ≠ none then x.1.setNext x.2.prev none else pure x.1

/-- The loop of `Mem_Free`, which looks for the header of the block `ptr`. -/
def Heap.find (h : Heap) (ptr : Option ℕ) : ℕ → Option ℕ → Except Stop (Option ℕ)
  | _, none => .ok none
  | fuel, some memTmp =>
    if ptrAdd (some memTmp) sizeofHeader = ptr then .ok (some memTmp)
    else
      match fuel with
      | 0 => .error .endless
      | fuel + 1 => do h.find ptr fuel (← h.next (some memTmp))

def Mem_Free (fuel : ℕ) (h : Heap) (ptr : Option ℕ) : Except Stop (Heap × ℤ) :=
  if ptr = none then .ok (h, -1)
  else do
    let memTmp ← h.find ptr fuel h.memList
    if memTmp = none then pure ({ h with m_error := some .E_BAD_POINTER }, -1)
    else
      let h ← h.relinkPrev memTmp
      let h ← h.relinkNext memTmp
      let h ← h.dropMem memTmp
      let h ← h.setFree memTmp 1
      let h ← coalesce fuel h
      pure (h, 0)

/-! ### The allocator and its client -/

/-- What `getpagesize` returns. -/
structure PageSize where
  bytes : ℕ
  power : ∃ k, 12 ≤ k ∧ k ≤ 30 ∧ bytes = 2 ^ k

/-- The allocator, and the blocks that the client has, each with the size that it asked for. -/
structure State where
  heap : Heap
  live : List (ℕ × ℤ)

inductive Label where
  | Mem_Init (sizeOfRegion : ℤ) (region : Option ℕ)
  | Mem_Alloc (size policy : ℤ)
  | Mem_Free (ptr : Option ℕ)
  /-- The client writes the byte `i` of the block `ptr`. -/
  | store (ptr i : ℕ) (b : UInt8)

/-- What `mmap` may return for `n` bytes. -/
def Mappable (pageSize : ℕ) (n : ℤ) : Option ℕ → Prop
  | none => True
  | some a => 0 < a ∧ pageSize ∣ a ∧ a + (n.toNat + pageSize - 1) / pageSize * pageSize < 2 ^ 64

instance (pageSize : ℕ) (n : ℤ) : (region : Option ℕ) → Decidable (Mappable pageSize n region)
  | none => isTrue trivial
  | some _ => inferInstanceAs (Decidable (_ ∧ _ ∧ _))

/-- All sequences of calls that return, and of stores to the blocks. -/
def allocator (page : PageSize) (fuel : ℕ) : Machine State Label where
  next s
    | .Mem_Init sizeOfRegion region =>
      if IsInt sizeOfRegion ∧ Mappable page.bytes sizeOfRegion region then
        match Mem_Init page.bytes s.heap sizeOfRegion region with
        | .ok (h, _) => some { s with heap := h }
        | .error _ => none
      else none
    | .Mem_Alloc size policy =>
      if IsInt size ∧ IsInt policy then
        match Mem_Alloc fuel s.heap size policy with
        | .ok (h, some ptr) => some ⟨h, (ptr, size) :: s.live⟩
        | .ok (h, none) => some { s with heap := h }
        | .error _ => none
      else none
    | .Mem_Free ptr =>
      match Mem_Free fuel s.heap ptr with
      | .ok (h, r) => some ⟨h, if r = 0 then s.live.filter fun b => some b.1 ≠ ptr else s.live⟩
      | .error _ => none
    | .store ptr i b =>
      if s.live.any fun x => x.1 = ptr ∧ i < x.2 then
        some { s with heap := { s.heap with mem := patch s.heap.mem (ptr + i) 1 fun _ => b } }
      else none

/-- The allocator before `Mem_Init`. -/
def start : State where
  heap := ⟨fun _ => 0, 0, 0, none, none, none, 0, false, none⟩
  live := []

end Mem

end OperatingSystems

import OperatingSystems.Vm.Arguments

/-!
# Valid arguments of system calls

The other half of the checks in `syscall.c`: which of the arguments that do belong to the process are
accepted.  The end of the range test of `argptr` is for buffers that begin in the heap; for one in
the stack it compares the address minus the size with the bottom of the stack.  `fetchstr` scans up
to the end of the heap only.

* `Request` : an argument of a system call, a buffer or a string.
* `Valid` : the buffer, or the string with its terminating zero, lies wholly in the heap, behind the
  null page, or wholly in the stack.
* `accepted_iff` : **exactly which valid arguments are accepted**.
* `rejects_valid` : the first byte of the stack, and a string there.
-/

namespace OperatingSystems

namespace Vm

open Bytes

/-- The argument `n` of a system call is the address of a buffer or of a string. -/
inductive Request where
  | buffer (n size : ℕ)
  | string (n len : ℕ)

/-- The number of the argument. -/
def Request.n : Request → ℕ
  | .buffer n _ | .string n _ => n

/-- The number of bytes, with the terminating zero of a string. -/
def Request.bytes : Request → ℕ
  | .buffer _ size => size
  | .string _ len => len + 1

namespace Caller

variable {c : Caller} {n : ℕ} {r : Request}

/-- The argument word `n`. -/
def word (c : Caller) (n : ℕ) : ℕ := toUint (toInt (slice c.mem (c.esp + 4 + 4 * n)))

/-- The `n` bytes from `s` on lie wholly in the heap, behind the null page. -/
def InHeap (c : Caller) (s n : ℕ) : Prop := PGSIZE ≤ s ∧ s + n ≤ c.proc.sz

/-- The `n` bytes from `s` on lie wholly in the stack. -/
def InStack (c : Caller) (s n : ℕ) : Prop := USERTOP - c.proc.ss ≤ s ∧ s + n ≤ USERTOP

/-- There is a string of length `len` at `addr`. -/
def IsString (c : Caller) (addr len : ℕ) : Prop :=
  (∀ i, i < len → c.mem (addr + i) ≠ 0) ∧ c.mem (addr + len) = 0

/-- The argument is valid: its word is below `USERTOP`, and it lies wholly in one region. -/
structure Valid (c : Caller) (r : Request) : Prop where
  word_le : c.esp + 4 + 4 * r.n + 4 ≤ USERTOP
  nonempty : 1 ≤ r.bytes
  region : c.InHeap (c.word r.n) r.bytes ∨ c.InStack (c.word r.n) r.bytes
  string : ∀ n len, r = .string n len → c.IsString (c.word n) len

/-- The argument is accepted; for a string, with its length. -/
def Accepted (c : Caller) : Request → Prop
  | .buffer n size => c.argptr n size = some (c.word n)
  | .string n len => c.argstr n = some (c.word n, len)

/-- A buffer in the stack is larger than its address, or begins above the bottom of the stack by its
size at least; a string lies in the heap. -/
def Tolerated (c : Caller) : Request → Prop
  | .buffer n size => c.InHeap (c.word n) size ∨ c.word n < size ∨
      USERTOP - c.proc.ss + size ≤ c.word n
  | .string n len => c.InHeap (c.word n) (len + 1)

/-- An argument word in the stack is fetched. -/
theorem argint_eq (hn : c.esp + 4 + 4 * n + 4 ≤ USERTOP) :
    c.argint n = some (toInt (slice c.mem (c.esp + 4 + 4 * n))) := by
  have hU : USERTOP = 0xA0000 := rfl
  have haddr : toUint ((c.esp : ℤ) + 4 + 4 * n) = c.esp + 4 + 4 * n := by
    unfold toUint
    omega
  have hadd : toUint (((c.esp + 4 + 4 * n : ℕ) : ℤ) + 4) = c.esp + 4 + 4 * n + 4 := by
    unfold toUint
    omega
  have hsub : toUint (((c.esp + 4 + 4 * n : ℕ) : ℤ) - 4) = c.esp + 4 * n := by
    unfold toUint
    omega
  unfold argint fetchint
  rw [haddr, hadd, hsub, if_neg (by omega)]

theorem strLoop_eq {mem : Bytes} {ep s len : ℕ} (hne : ∀ i, i < len → mem (s + i) ≠ 0)
    (hzero : mem (s + len) = 0) (hep : s + len < ep) : strLoop mem ep s = some (s + len) := by
  induction len generalizing s with
  | zero =>
    rw [add_zero] at *
    rw [strLoop, if_pos hep, if_pos hzero]
  | succ len ih =>
    have hfirst : mem s ≠ 0 := hne 0 (by omega)
    rw [strLoop, if_pos (by omega), if_neg hfirst]
    have := ih (s := s + 1) (fun i hi => by
      rw [add_assoc, add_comm 1 i]
      exact hne (i + 1) (by omega)) (by rwa [add_assoc, add_comm 1 len]) (by omega)
    rw [this]
    congr 1
    omega

theorem accepted_buffer_iff {size : ℕ} (hapart : Apart c.proc)
    (hv : c.Valid (.buffer n size)) :
    c.Accepted (.buffer n size) ↔ c.Tolerated (.buffer n size) := by
  have hint : c.argint n = _ := argint_eq hv.word_le
  have hregion : c.InHeap (c.word n) size ∨ c.InStack (c.word n) size := hv.region
  have hnonempty : 1 ≤ size := hv.nonempty
  have hroom := apart_iff.1 hapart
  have hP : PGSIZE = 4096 := rfl
  have hU : USERTOP = 0xA0000 := rfl
  simp only [Accepted, Tolerated, argptr, hint]
  rw [← word]
  generalize c.word n = i at *
  unfold InHeap InStack at *
  have hstack : toUint (USERTOP - c.proc.ss) = USERTOP - c.proc.ss := by
    unfold toUint
    omega
  have hadd : toUint ((i : ℤ) + (size : ℕ)) = i + size := by
    unfold toUint
    omega
  have hsub : (toUint ((i : ℤ) - (size : ℕ)) : ℤ) =
      if size ≤ i then (i : ℤ) - size else i - size + 2 ^ 32 := by
    unfold toUint
    split_ifs <;> omega
  rw [hstack, hadd]
  split_ifs with h
  · simp only [false_iff]
    split_ifs at hsub <;> omega
  · simp only [true_iff]
    split_ifs at hsub <;> omega

theorem accepted_string_iff {len : ℕ} (hsz : PGSIZE ≤ c.proc.sz) (hapart : Apart c.proc)
    (hv : c.Valid (.string n len)) :
    c.Accepted (.string n len) ↔ c.Tolerated (.string n len) := by
  have hint : c.argint n = _ := argint_eq hv.word_le
  have hroom := apart_iff.1 hapart
  obtain ⟨hne, hzero⟩ := hv.string n len rfl
  have hregion : c.InHeap (c.word n) (len + 1) ∨ c.InStack (c.word n) (len + 1) := hv.region
  have hP : PGSIZE = 4096 := rfl
  have hU : USERTOP = 0xA0000 := rfl
  simp only [Accepted, Tolerated, argstr, hint, fetchstr]
  rw [← word]
  unfold InHeap InStack at *
  by_cases hheap : c.word n + (len + 1) ≤ c.proc.sz
  · refine iff_of_true ?_ (by omega)
    rw [if_neg (by omega), strLoop_eq hne hzero (by omega)]
    simp only [Option.map_some, Nat.add_sub_cancel_left]
  · -- the scan ends before the stack
    have hloop : strLoop c.mem c.proc.sz (c.word n) = none :=
      strLoop_eq_none.2 fun t ht hlt => by omega
    refine iff_of_false (fun h => ?_) (by omega)
    rw [hloop] at h
    split_ifs at h <;> cases h

end Caller

/-- **Valid arguments of system calls.**  For every process with a page of heap and a gap below its
stack, wherever its stack pointer is: a buffer in the heap is accepted, one in the stack if and only if
it begins above the bottom of the stack by its size at least, or is larger than its address; a string
is accepted, with its length, if and only if it lies in the heap. -/
theorem accepted_iff {c : Caller} {r : Request} (hsz : PGSIZE ≤ c.proc.sz) (hapart : Apart c.proc)
    (hv : c.Valid r) : c.Accepted r ↔ c.Tolerated r := by
  cases r with
  | buffer n size => exact Caller.accepted_buffer_iff hapart hv
  | string n len => exact Caller.accepted_string_iff hsz hapart hv

/-- A process whose argument is the bottom of its stack, where there is an empty string. -/
def stackPointer : Caller :=
  { twoPointers with
    mem := fun a => if a = USERTOP - 64 + 5 then 0xF0 else if a = USERTOP - 64 + 6 then 0x09 else 0 }

theorem word_stackPointer : stackPointer.word 0 = USERTOP - PGSIZE := by decide +kernel

theorem apart_stackPointer : Apart stackPointer.proc := apart_iff.2 (by decide)

theorem valid_stackPointer {r : Request} (hn : r.n = 0) (hbytes : r.bytes = 1) :
    stackPointer.Valid r where
  word_le := by rw [hn]; decide
  nonempty := by omega
  region := by
    rw [hn, hbytes, word_stackPointer]
    exact Or.inr ⟨by decide, by decide⟩
  string n len hr := by
    subst hr
    simp only [Request.n, Request.bytes] at hn hbytes
    obtain rfl : len = 0 := by omega
    subst hn
    refine ⟨fun i hi => absurd hi (by omega), ?_⟩
    rw [word_stackPointer]
    decide

/-- A process whose argument is the first page of its heap. -/
def heapPointer : Caller :=
  { stackPointer with
    mem := fun a => if a = USERTOP - 64 + 5 then 0x10 else 0 }

/-- The first page of the heap is accepted. -/
theorem accepts_heap : heapPointer.Tolerated (.buffer 0 PGSIZE) ∧
    heapPointer.Accepted (.buffer 0 PGSIZE) := by
  have hword : heapPointer.word 0 = PGSIZE := by decide +kernel
  have hheap : heapPointer.InHeap (heapPointer.word 0) PGSIZE := by
    rw [hword]
    exact ⟨by decide, by decide⟩
  have hv : heapPointer.Valid (.buffer 0 PGSIZE) :=
    ⟨by decide, by decide, Or.inl hheap, fun n len h => by cases h⟩
  have hapart : Apart heapPointer.proc := apart_stackPointer
  exact ⟨Or.inl hheap, (accepted_iff (by decide) hapart hv).2 (Or.inl hheap)⟩

/-- **Valid arguments that are rejected**: a buffer of one byte at the bottom of the stack, and an empty
string there. -/
theorem rejects_valid : PGSIZE ≤ stackPointer.proc.sz ∧ Apart stackPointer.proc ∧
    stackPointer.proc.ss ≠ 0 ∧
    (USERTOP - stackPointer.proc.ss ≤ stackPointer.esp ∧ stackPointer.esp < USERTOP) ∧
    (stackPointer.Valid (.buffer 0 1) ∧ ¬ stackPointer.Accepted (.buffer 0 1)) ∧
    (stackPointer.Valid (.string 0 0) ∧ ¬ stackPointer.Accepted (.string 0 0)) := by
  have hsz : PGSIZE ≤ stackPointer.proc.sz := by decide
  have hesp : USERTOP - stackPointer.proc.ss ≤ stackPointer.esp := by decide
  have hbuffer := valid_stackPointer (r := .buffer 0 1) rfl rfl
  have hstring := valid_stackPointer (r := .string 0 0) rfl rfl
  refine ⟨hsz, apart_stackPointer, by decide, ⟨hesp, by decide⟩, ⟨hbuffer, ?_⟩, hstring, ?_⟩
  · rw [Caller.accepted_buffer_iff apart_stackPointer hbuffer]
    simp only [Caller.Tolerated, Caller.InHeap, word_stackPointer]
    decide
  · rw [Caller.accepted_string_iff hsz apart_stackPointer hstring]
    simp only [Caller.Tolerated, Caller.InHeap, word_stackPointer]
    decide

end Vm

end OperatingSystems

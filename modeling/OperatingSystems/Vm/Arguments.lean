import OperatingSystems.Bytes.Basic
import OperatingSystems.Vm.Layout

/-!
# Arguments of system calls

`syscall.c` of the kernel of `P3`: the kernel fetches the arguments of a system call from the stack
of the process, and checks the pointers among them, in unsigned 32-bit arithmetic.  A process owns
the addresses of its heap, from the first page on, and those of its stack.

* `Caller` : what the checks read.
* `fetchint`, `fetchstr`, `argint`, `argptr`, `argstr` : the code.
* `touched` : the bytes that the kernel accesses, or lets its handlers access, after a check.
* `own_of_touched_iff` : **exactly when all of them belong to the process**.
* `touches_foreign` : bytes of the null page, of the gap below the stack, and of the kernel.
-/

namespace OperatingSystems

namespace Vm

open Bytes

/-- The process in a system call: its sizes, its `tf->esp`, and what the kernel reads at each address
under its page table. -/
structure Caller where
  proc : Proc
  esp : ℕ
  mem : Bytes
  esp_lt : esp < 2 ^ 32

namespace Caller

/-- `fetchint`. -/
def fetchint (c : Caller) (addr : ℕ) : Option ℤ :=
  if (addr ≥ c.proc.sz ∧ addr < c.esp) ∨ addr > USERTOP ∨
      (toUint ((addr : ℤ) + 4) > c.proc.sz ∧ toUint ((addr : ℤ) - 4) < c.esp) ∨ toUint ((addr : ℤ) + 4) > USERTOP then
    none
  else some (toInt (slice c.mem addr))

/-- The loop of `fetchstr` from `s`: where the string ends. -/
def strLoop (mem : Bytes) (ep s : ℕ) : Option ℕ :=
  if s < ep then
    if mem s = 0 then some s else strLoop mem ep (s + 1)
  else none
termination_by ep - s

/-- `fetchstr`: the length of the string. -/
def fetchstr (c : Caller) (addr : ℕ) : Option ℕ :=
  if (addr ≥ c.proc.sz ∧ addr < c.esp) ∨ addr > USERTOP then none
  else (strLoop c.mem c.proc.sz addr).map fun s => s - addr

/-- `argint`. -/
def argint (c : Caller) (n : ℕ) : Option ℤ := c.fetchint (toUint (c.esp + 4 + 4 * n))

/-- `argptr`. -/
def argptr (c : Caller) (n : ℕ) (size : ℤ) : Option ℕ :=
  match c.argint n with
  | none => none
  | some i =>
    let i := toUint i
    if i < PGSIZE ∨ (i ≥ c.proc.sz ∧ i < toUint (USERTOP - c.proc.ss)) ∨ i > USERTOP ∨
        (toUint (i + size) > c.proc.sz ∧ toUint (i - size) < toUint (USERTOP - c.proc.ss)) then
      none
    else some i

/-- `argstr`: the address and the length of the string. -/
def argstr (c : Caller) (n : ℕ) : Option (ℕ × ℕ) :=
  match c.argint n with
  | none => none
  | some addr => (c.fetchstr (toUint addr)).map fun len => (toUint addr, len)

end Caller

/-- The checks. -/
inductive Check where
  | fetchint (addr : ℕ)
  | fetchstr (addr : ℕ)
  | argptr (n : ℕ) (size : ℤ)
  | argstr (n : ℕ)

/-- The values that the parameters can have; a buffer has at least one byte. -/
def Check.Valid : Check → Prop
  | .fetchint addr => addr < 2 ^ 32
  | .fetchstr addr => addr < 2 ^ 32
  | .argptr _ size => 1 ≤ size ∧ size < 2 ^ 31
  | .argstr _ => True

namespace Caller

/-- The addresses of the bytes that the kernel may access after the check: those of the `int`, of the
string with its terminating zero, or of the buffer. -/
def touched (c : Caller) : Check → List ℕ
  | .fetchint addr => if (c.fetchint addr).isSome then List.range' addr 4 else []
  | .fetchstr addr => match c.fetchstr addr with
    | none => []
    | some len => List.range' addr (len + 1)
  | .argptr n size => match c.argptr n size with
    | none => []
    | some i => List.range' i size.toNat
  | .argstr n => match c.argstr n with
    | none => []
    | some (addr, len) => List.range' addr (len + 1)

/-- The address belongs to the heap or the stack of the process. -/
def Own (c : Caller) (a : ℕ) : Prop :=
  PGSIZE ≤ a ∧ a < c.proc.sz ∨ USERTOP - c.proc.ss ≤ a ∧ a < USERTOP

/-- The string at `addr` is not in the null page, or there is no zero between it and the end of the
heap. -/
def GuardedStr (c : Caller) (addr : ℕ) : Prop :=
  PGSIZE ≤ addr ∨ ∀ s, addr ≤ s → s < c.proc.sz → c.mem s ≠ 0

/-- The inputs for which a check is right.

`fetchint` refuses an `int` that reaches behind the heap if four bytes before it the address is
below the stack pointer: this must be so of an `int` in the null page, and of one that begins below
the stack.  A buffer that begins in the heap and ends behind it must not be larger than its address;
one that begins in the stack and ends behind it must be so large that it would begin below the stack
if it ended at its address. -/
def Guarded (c : Caller) : Check → Prop
  | .fetchint addr =>
    (PGSIZE ≤ addr ∨ c.proc.sz < addr + 4 ∧ toUint ((addr : ℤ) - 4) < c.esp) ∧
      (addr + 4 ≤ c.proc.sz ∨ USERTOP - c.proc.ss ≤ addr ∨ toUint ((addr : ℤ) - 4) < c.esp ∨
        USERTOP < addr + 4)
  | .fetchstr addr => c.GuardedStr addr
  | .argptr n size => ∀ i, (c.argint n).map toUint = some i →
    (PGSIZE ≤ i ∧ i < c.proc.sz → i + size ≤ c.proc.sz ∨ size ≤ i) ∧
      (USERTOP - c.proc.ss ≤ i ∧ i ≤ USERTOP →
        i + size ≤ USERTOP ∨ size ≤ i ∧ i + c.proc.ss < USERTOP + size)
  | .argstr n => ∀ addr, (c.argint n).map toUint = some addr → c.GuardedStr addr

variable {c : Caller} {addr : ℕ}

theorem forall_mem_range' {P : ℕ → Prop} {s n : ℕ} :
    (∀ a ∈ List.range' s n, P a) ↔ ∀ a, s ≤ a → a < s + n → P a := by
  simp only [List.mem_range'_1, and_imp]

/-- An interval of addresses belongs to the process if its ends belong to the same part. -/
theorem forall_own_iff (hapart : Apart c.proc) {s n : ℕ} (hn : 0 < n) :
    (∀ a ∈ List.range' s n, c.Own a) ↔ PGSIZE ≤ s ∧ s + n ≤ c.proc.sz ∨
      USERTOP - c.proc.ss ≤ s ∧ s + n ≤ USERTOP := by
  rw [apart_iff] at hapart
  rw [forall_mem_range']
  simp only [Own, PGSIZE, USERTOP] at *
  constructor
  · intro h
    have hfirst := h s le_rfl (by omega)
    have hlast := h (s + n - 1) (by omega) (by omega)
    by_cases hsz : s + n ≤ c.proc.sz
    · omega
    by_cases hstack : 0xA0000 - c.proc.ss ≤ s
    · omega
    -- the byte behind the heap
    have hend := h c.proc.sz (by omega) (by omega)
    omega
  · intro h a hs hlt
    omega

theorem toUint_add {x : ℕ} {y : ℤ} (hy : 0 ≤ y) (h : x + y < 2 ^ 32) :
    (toUint (x + y) : ℤ) = x + y := by
  unfold toUint
  omega

theorem toUint_lt (x : ℤ) : toUint x < 2 ^ 32 := by
  unfold toUint
  omega

/-! ### The checks, one by one -/

theorem fetchint_isSome_iff (haddr : addr < 2 ^ 32) : (c.fetchint addr).isSome ↔
    (addr < c.proc.sz ∨ c.esp ≤ addr) ∧ (addr + 4 ≤ c.proc.sz ∨ c.esp ≤ toUint ((addr : ℤ) - 4)) ∧
      addr + 4 ≤ USERTOP := by
  have hU : USERTOP = 0xA0000 := rfl
  have hadd : addr ≤ USERTOP → toUint ((addr : ℤ) + 4) = addr + 4 := by
    intro h
    unfold toUint
    omega
  unfold fetchint
  by_cases htop : addr > USERTOP
  · rw [if_pos (Or.inr (Or.inl htop))]
    simp only [Option.isSome_none, Bool.false_eq_true, false_iff]
    omega
  rw [hadd (by omega)]
  split_ifs with h
  · simp only [Option.isSome_none, Bool.false_eq_true, false_iff]
    omega
  · simp only [Option.isSome_some, true_iff]
    omega

theorem own_fetchint_iff (hsz : PGSIZE ≤ c.proc.sz) (hapart : Apart c.proc) (haddr : addr < 2 ^ 32) :
    (∀ a ∈ c.touched (.fetchint addr), c.Own a) ↔ c.Guarded (.fetchint addr) := by
  have hiff := fetchint_isSome_iff (c := c) haddr
  have hroom := apart_iff.1 hapart
  have hsub : (toUint ((addr : ℤ) - 4) : ℤ) = if 4 ≤ addr then (addr : ℤ) - 4 else addr - 4 + 2 ^ 32 := by
    unfold toUint
    split_ifs <;> omega
  have hesp := c.esp_lt
  have hP : PGSIZE = 4096 := rfl
  have hU : USERTOP = 0xA0000 := rfl
  simp only [touched, Guarded]
  split_ifs with hsome
  · rw [forall_own_iff hapart (by omega)]
    have hok := hiff.1 hsome
    split_ifs at hsub <;> omega
  · simp only [List.not_mem_nil, false_imp_iff, implies_true, true_iff]
    have hno := hiff.not.1 hsome
    split_ifs at hsub <;> omega

theorem strLoop_eq_some {mem : Bytes} {ep s e : ℕ} (h : strLoop mem ep s = some e) :
    s ≤ e ∧ e < ep ∧ mem e = 0 := by
  fun_induction strLoop mem ep s with
  | case1 s hlt hzero =>
    obtain rfl := Option.some.inj h
    exact ⟨le_rfl, hlt, hzero⟩
  | case2 s hlt hne ih =>
    obtain ⟨hle, hlt, hzero⟩ := ih h
    exact ⟨by omega, hlt, hzero⟩
  | case3 => cases h

theorem strLoop_eq_none {mem : Bytes} {ep s : ℕ} :
    strLoop mem ep s = none ↔ ∀ t, s ≤ t → t < ep → mem t ≠ 0 := by
  fun_induction strLoop mem ep s with
  | case1 s hlt hzero =>
    simp only [reduceCtorEq, false_iff]
    exact fun h => h s le_rfl hlt hzero
  | case2 s hlt hne ih =>
    rw [ih]
    refine ⟨fun h t hs ht => ?_, fun h t hs ht => h t (by omega) ht⟩
    obtain rfl | hs := hs.eq_or_lt
    · exact hne
    · exact h t hs ht
  | case3 s hlt =>
    simp only [true_iff]
    intro t hs ht
    omega

theorem fetchstr_own_iff (hsz : PGSIZE ≤ c.proc.sz) (hapart : Apart c.proc) :
    (∀ len, c.fetchstr addr = some len → ∀ a ∈ List.range' addr (len + 1), c.Own a) ↔
      c.GuardedStr addr := by
  have hroom := apart_iff.1 hapart
  unfold GuardedStr
  cases hloop : strLoop c.mem c.proc.sz addr with
  | none =>
    refine iff_of_true (fun len h => ?_) (Or.inr (strLoop_eq_none.1 hloop))
    unfold fetchstr at h
    rw [hloop] at h
    split_ifs at h
    cases h
  | some e =>
    obtain ⟨hle, hlt, hzero⟩ := strLoop_eq_some hloop
    have hlen : c.fetchstr addr = some (e - addr) := by
      unfold fetchstr
      rw [hloop, if_neg (by simp only [PGSIZE, USERTOP] at *; omega)]
      rfl
    rw [hlen]
    simp only [Option.some.injEq, forall_eq']
    rw [forall_own_iff hapart (by omega)]
    simp only [PGSIZE, USERTOP] at *
    refine ⟨fun h => Or.inl (by omega), ?_⟩
    rintro (h | h)
    · omega
    · exact absurd hzero (h e hle hlt)

theorem own_fetchstr_iff (hsz : PGSIZE ≤ c.proc.sz) (hapart : Apart c.proc) :
    (∀ a ∈ c.touched (.fetchstr addr), c.Own a) ↔ c.Guarded (.fetchstr addr) := by
  rw [Guarded, ← fetchstr_own_iff hsz hapart, touched]
  cases c.fetchstr addr <;> simp

theorem own_argstr_iff {n : ℕ} (hsz : PGSIZE ≤ c.proc.sz) (hapart : Apart c.proc) :
    (∀ a ∈ c.touched (.argstr n), c.Own a) ↔ c.Guarded (.argstr n) := by
  rw [Guarded, touched, argstr]
  cases c.argint n with
  | none => simp
  | some addr =>
    simp only [Option.map_some, Option.some.injEq, forall_eq']
    rw [← fetchstr_own_iff hsz hapart]
    cases c.fetchstr (toUint addr) <;> simp

theorem own_argptr_iff {n : ℕ} {size : ℤ} (hsz : PGSIZE ≤ c.proc.sz) (hapart : Apart c.proc)
    (hsize : 1 ≤ size ∧ size < 2 ^ 31) :
    (∀ a ∈ c.touched (.argptr n size), c.Own a) ↔ c.Guarded (.argptr n size) := by
  rw [Guarded, touched, argptr]
  cases c.argint n with
  | none => simp
  | some i =>
    simp only [Option.map_some, Option.some.injEq, forall_eq']
    generalize hi : toUint i = i
    have hlt : i < 2 ^ 32 := hi ▸ toUint_lt _
    have hroom := apart_iff.1 hapart
    have hP : PGSIZE = 4096 := rfl
    have hU : USERTOP = 0xA0000 := rfl
    have hstack : toUint (USERTOP - c.proc.ss) = USERTOP - c.proc.ss := by
      unfold toUint
      omega
    have hadd : i ≤ USERTOP → (toUint (i + size) : ℤ) = i + size :=
      fun h => toUint_add (by omega) (by omega)
    have hsub : (toUint (i - size) : ℤ) = if size ≤ i then i - size else i - size + 2 ^ 32 := by
      unfold toUint
      split_ifs <;> omega
    rw [hstack]
    split_ifs with h
    · simp only [List.not_mem_nil, false_imp_iff, implies_true, true_iff]
      split_ifs at hsub <;> omega
    · dsimp only
      rw [forall_own_iff hapart (by omega)]
      split_ifs at hsub <;> omega

end Caller

/-- **The arguments of a system call.**  For every process with a page of heap and a gap below its
stack, every stack pointer and every check: all bytes that the kernel accesses after the check belong
to the process if and only if the inputs are among those for which the check is right. -/
theorem own_of_touched_iff {c : Caller} {k : Check} (hsz : PGSIZE ≤ c.proc.sz)
    (hapart : Apart c.proc) (hk : k.Valid) :
    (∀ a ∈ c.touched k, c.Own a) ↔ c.Guarded k := by
  cases k with
  | fetchint addr => exact Caller.own_fetchint_iff hsz hapart hk
  | fetchstr addr => exact Caller.own_fetchstr_iff hsz hapart
  | argptr n size => exact Caller.own_argptr_iff hsz hapart hk
  | argstr n => exact Caller.own_argstr_iff hsz hapart

/-- A process with one page of heap behind the null page and one page of stack, whose arguments are
the address of the page and `USERTOP`. -/
def twoPointers : Caller where
  proc := ⟨2 * PGSIZE, PGSIZE, none, none, .running, 1, none, false, dvd_refl _⟩
  esp := USERTOP - 64
  mem a := if a = USERTOP - 64 + 5 then 0x10 else if a = USERTOP - 64 + 10 then 0x0A else 0
  esp_lt := by decide

theorem apart_twoPointers : Apart twoPointers.proc := apart_iff.2 (by decide)

/-- The first `int` of the heap. -/
theorem own_of_touched_heap : twoPointers.Guarded (.fetchint PGSIZE) ∧
    ∀ a ∈ twoPointers.touched (.fetchint PGSIZE), twoPointers.Own a := by
  have hguarded : twoPointers.Guarded (.fetchint PGSIZE) := ⟨Or.inl le_rfl, Or.inl (by decide)⟩
  exact ⟨hguarded, (own_of_touched_iff (k := .fetchint PGSIZE) (by decide) apart_twoPointers
    (show PGSIZE < 2 ^ 32 by decide)).2 hguarded⟩

/-- **Memory that does not belong to the process**: the kernel reads an `int` and a string in the null
page, takes a buffer of two pages at the only page of the heap, and one byte at `USERTOP`. -/
theorem touches_foreign : PGSIZE ≤ twoPointers.proc.sz ∧ Apart twoPointers.proc ∧
    (¬ ∀ a ∈ twoPointers.touched (.fetchint 0), twoPointers.Own a) ∧
    (¬ ∀ a ∈ twoPointers.touched (.fetchstr 0), twoPointers.Own a) ∧
    (¬ ∀ a ∈ twoPointers.touched (.argptr 0 (2 * PGSIZE)), twoPointers.Own a) ∧
    ¬ ∀ a ∈ twoPointers.touched (.argptr 1 1), twoPointers.Own a := by
  have hsz : PGSIZE ≤ twoPointers.proc.sz := by decide
  have hargs : (twoPointers.argint 0).map toUint = some PGSIZE ∧
      (twoPointers.argint 1).map toUint = some USERTOP := by decide +kernel
  refine ⟨hsz, apart_twoPointers, ?_, ?_, ?_, ?_⟩
  · rw [Caller.own_fetchint_iff hsz apart_twoPointers (by decide)]
    rintro ⟨h, -⟩
    exact absurd h (by decide)
  · rw [Caller.own_fetchstr_iff hsz apart_twoPointers]
    rintro (h | h)
    · exact absurd h (by decide)
    · exact h 0 le_rfl (by decide) rfl
  · rw [Caller.own_argptr_iff hsz apart_twoPointers (by decide)]
    intro h
    exact absurd ((h _ hargs.1).1 (by decide)) (by decide)
  · rw [Caller.own_argptr_iff hsz apart_twoPointers (by decide)]
    intro h
    exact absurd ((h _ hargs.2).2 (by decide)) (by decide)

end Vm

end OperatingSystems

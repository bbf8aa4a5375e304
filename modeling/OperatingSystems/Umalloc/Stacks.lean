import OperatingSystems.Machine.Basic
import OperatingSystems.Custody.Basic
import OperatingSystems.Threads.Table
import OperatingSystems.Umalloc.Accounts

/-!
# Thread stacks

`thread_create` of `P4` takes two pages from the heap and gives the kernel the first page boundary in
them; `thread_join` frees the pointer that the kernel gives back.  That is the pointer that `malloc`
returned only if it was at a page boundary.  Neither looks at the results of `malloc`, `clone` and
`join`: a stack whose thread could not be started is lost, and if there is no thread to wait for,
`thread_join` frees the null pointer.

The program frees only what it owns, and writes only to its blocks and to the stacks.  How a call ends
that depends on more than the heap is in the label: whether the kernel has pages (`mem`), the entry of
the process table that `clone` takes (`np`), and whether the program has been killed.

* `thread_create`, `thread_join` : `umalloc.c`; `clone`, `join` : what they need of `proc.c`.
* `client` : the machine of all sequences of calls; ghosts record the blocks in use, and what went wrong.
* `Returned` : every stack goes back to the heap, and the blocks of the program are untouched.
* `Good` : the condition on the calls; `Kept` : the invariant.
* `always_returned` : **if all calls meet the condition, every stack goes back to the heap.**
* `not_always_returned` : the second thread of a program.
-/

namespace OperatingSystems

namespace Umalloc

open Links Cover Custody
open Threads (Slot NPROC PGSIZE toUint)

/-- A thread of the program, as the process table has it. -/
structure Thread where
  /-- `p->stack`. -/
  stack : ℕ
  zombie : Bool
  /-- Ghost: what `malloc` returned for the stack. -/
  block : ℕ
  deriving DecidableEq

/-- The state of a program with threads. -/
structure State where
  heap : Heap
  /-- The entries of the process table that are children with the page directory of the program. -/
  proc : Slot → Option Thread
  /-- Ghost: the blocks that `malloc` has returned to the program, and that it has not freed. -/
  own : List Block
  /-- Ghost: those that `malloc` has returned for stacks. -/
  stackBlocks : List Block
  /-- Ghost: what the units of the program hold, as far as it is its own doing. -/
  contents : ℕ → Header
  /-- Ghost: the pointers that `thread_join` freed though they belong to no stack. -/
  wrong : List ℕ
  /-- Ghost: what `malloc` returned for the stacks of threads that could not be started. -/
  lost : List ℕ
  /-- A call did not return. -/
  down : Bool

/-- One call; `store` is a write of the program or of one of its threads. -/
inductive Label where
  | malloc (nbytes : ℕ) (mem : Bool)
  | free (b : Block)
  | store (u : ℕ) (v : Header)
  | threadCreate (arg : ℕ) (mem : Bool) (np : Option Slot)
  | exit (p : Slot)
  | threadJoin (killed : Bool)

/-- "`stack + (PGSIZE - (uint)stack % PGSIZE)`", unless it is at a page boundary. -/
def stackOf (stack : ℕ) : ℕ :=
  if stack % PGSIZE ≠ 0 then stack + (PGSIZE - stack % PGSIZE) else stack

/-- `clone`: it looks at the stack, and then takes the entry `np`, if it gets that far. -/
def clone (np : Option Slot) (stack : ℕ) (h : Heap) : Option Slot :=
  if stack % PGSIZE ≠ 0 then none
  else if toUint ((h.brk * UNIT : ℕ) - stack) < PGSIZE then none
  else np

/-- `copyout` of `ustack` to the end of the first page of the stack. -/
def pushArg (arg stack : ℕ) (h : Heap) : Heap :=
  { h with mem := Function.update h.mem ((stack + PGSIZE - 8) / UNIT) ⟨0xffffffff, arg⟩ }

/-- The zombie that `join` finds first. -/
def findZombie (proc : Slot → Option Thread) : Option Slot :=
  (List.finRange NPROC).find? fun p => (proc p).any Thread.zombie

/-- `join`: the stack, `0` if it fails; `none` if it waits. -/
def join (killed : Bool) (proc : Slot → Option Thread) : Option (ℕ × (Slot → Option Thread)) :=
  match findZombie proc with
  | some p => some (((proc p).map Thread.stack).getD 0, Function.update proc p none)
  | none => if (∀ p, proc p = none) ∨ killed then some (0, proc) else none

/-- The block for a stack that `malloc` has returned, if it has. -/
def blockFor (r : ℕ) : List Block := if r = 0 then [] else [(headerOf r, unitsFor (PGSIZE * 2))]

namespace State

/-- The program after `malloc` of `nbytes` bytes for itself. -/
def malloc (base nbytes : ℕ) (mem : Bool) (s : State) : State :=
  match Umalloc.malloc base mem nbytes s.heap with
  | none => { s with down := true }
  | some (r, h) =>
    if r = 0 then { s with heap := h }
    else { s with
      heap := h, own := (headerOf r, unitsFor nbytes) :: s.own
      contents := fun x =>
        if headerOf r < x ∧ x < headerOf r + unitsFor nbytes then h.mem x else s.contents x }

/-- `free` of a block of the program. -/
def free (b : Block) (s : State) : State :=
  match Umalloc.free (payload b.1) s.heap with
  | none => { s with down := true }
  | some h => { s with heap := h, own := s.own.erase b }

/-- `thread_create`; `none` if the kernel cannot have taken the entry `np`. -/
def thread_create (base arg : ℕ) (mem : Bool) (np : Option Slot) (s : State) : Option State :=
  match Umalloc.malloc base mem (PGSIZE * 2) s.heap with
  | none => some { s with down := true }
  | some (r, h) =>
    let s := { s with heap := h, stackBlocks := blockFor r ++ s.stackBlocks }
    match clone np (stackOf r) h with
    | none => some (if r = 0 then s else { s with lost := r :: s.lost })
    | some p =>
      if s.proc p = none then
        some { s with
          heap := pushArg arg (stackOf r) h
          proc := Function.update s.proc p (some ⟨stackOf r, false, r⟩) }
      else none

/-- The end of `thread_join`: `free(ustack)`. -/
def freeStack (ustack : ℕ) (s : State) : State :=
  let s :=
    match s.stackBlocks.find? fun b => payload b.1 = ustack with
    | some b => { s with stackBlocks := s.stackBlocks.erase b }
    | none => { s with wrong := ustack :: s.wrong }
  match Umalloc.free ustack s.heap with
  | none => { s with down := true }
  | some h => { s with heap := h }

/-- `thread_join`; `none` if it waits. -/
def thread_join (killed : Bool) (s : State) : Option State :=
  (join killed s.proc).map fun (ustack, proc) => freeStack ustack { s with proc := proc }

/-- The start of a program, with a heap that begins at `start`. -/
def init (start : ℕ) (mem : ℕ → Header) : State where
  heap := ⟨mem, 0, start⟩
  proc := fun _ => none
  own := []
  stackBlocks := []
  contents := mem
  wrong := []
  lost := []
  down := false

end State

/-- The machine of all sequences of calls of a program. -/
def client (base : ℕ) : Machine State Label where
  next s l :=
    if s.down then none
    else match l with
      | .malloc nbytes mem => some (s.malloc base nbytes mem)
      | .free b => if b ∈ s.own then some (s.free b) else none
      | .store u v =>
        if ∃ b ∈ s.own ++ s.stackBlocks, b.1 < u ∧ u < b.1 + b.2 then
          some { s with
            heap := { s.heap with mem := Function.update s.heap.mem u v }
            contents := Function.update s.contents u v }
        else none
      | .threadCreate arg mem np => s.thread_create base arg mem np
      | .exit p =>
        (s.proc p).bind fun t =>
          if t.zombie then none
          else some { s with proc := Function.update s.proc p (some { t with zombie := true }) }
      | .threadJoin killed => s.thread_join killed

/-- Every stack goes back to the heap, which began at `start`. -/
structure Returned (base start : ℕ) (s : State) : Prop where
  /-- All calls return. -/
  up : s.down = false
  /-- `thread_join` frees pointers to stacks only. -/
  wrong : s.wrong = []
  /-- A thread that could not be started gives back its stack. -/
  lost : s.lost = []
  /-- When all threads have been joined, no block is in use for a stack. -/
  joined : (∀ p, s.proc p = none) → s.stackBlocks = []
  /-- What is not in use is in free storage. -/
  storage : ∃ fs, FreeList base (s.heap.init base) fs ∧
    ∀ x, cover fs x + cover s.own x + cover s.stackBlocks x = ind (start, s.heap.brk - start) x
  /-- The blocks of the program are untouched. -/
  own : ∀ b ∈ s.own, ∀ x, b.1 < x → x < b.1 + b.2 → s.heap.mem x = s.contents x

/-- The condition on a call: the size of a request is positive as an `int`; `clone` succeeds if and only
if there is room for a stack; and `thread_join` finds a thread, whose stack is where `malloc` put it. -/
def Good (base : ℕ) (s : State) : Label → Prop
  | .malloc nbytes _ => unitsFor nbytes * UNIT < 2 ^ 31
  | .threadCreate _ mem np => np.isSome ↔ Room mem (unitsFor (PGSIZE * 2)) (s.heap.init base)
  | .threadJoin _ => ∃ p t, findZombie s.proc = some p ∧ s.proc p = some t ∧ t.block % PGSIZE = 0
  | _ => True

variable {base start n : ℕ} {s s' : State} {l : Label} {b : Block} {p : Slot} {t : Thread}

/-! ### The invariant -/

/-- The block for the stack of a thread. -/
def held (proc : Slot → Option Thread) (p : Slot) : List Block :=
  (proc p).elim [] fun t => blockFor t.block

/-- What a thread has been given. -/
structure Thread.Valid (t : Thread) : Prop where
  stack : t.stack = stackOf t.block
  block : t.block = payload (headerOf t.block)

/-- **The invariant.** -/
structure Kept (base start : ℕ) (s : State) : Prop where
  up : s.down = false
  wrong : s.wrong = []
  lost : s.lost = []
  accounts : Accounts base start s.heap (s.own ++ s.stackBlocks)
  valid : ∀ p t, s.proc p = some t → t.Valid
  held : ∀ b, s.stackBlocks.count b = (holdings (List.finRange NPROC) (held s.proc)).count b
  own : ∀ b ∈ s.own, ∀ x, b.1 < x → x < b.1 + b.2 → s.heap.mem x = s.contents x

theorem Thread.Valid.blockFor_eq (ht : t.Valid) :
    blockFor t.block = [(headerOf t.block, unitsFor (PGSIZE * 2))] := by
  refine if_neg ?_
  rw [ht.block]
  exact payload_ne_zero _

/-- A place that holds nothing, or something else. -/
theorem count_held (proc : Slot → Option Thread) (p : Slot) (t : Option Thread) (b : Block) :
    (holdings (List.finRange NPROC) (held (Function.update proc p t))).count b +
        (held proc p).count b =
      (holdings (List.finRange NPROC) (held proc)).count b +
        (t.elim [] fun t => blockFor t.block).count b := by
  have hupdate : held (Function.update proc p t) =
      Function.update (held proc) p (t.elim [] fun t => blockFor t.block) := by
    funext q
    by_cases hq : q = p
    · subst hq
      simp only [held, Function.update_self]
    · simp only [held, Function.update_of_ne hq]
  rw [hupdate]
  exact count_update (List.nodup_finRange _) (List.mem_finRange p) _ _ b

theorem stackOf_eq {r : ℕ} (h : r % PGSIZE = 0) : stackOf r = r := if_neg (not_not.2 h)

/-- The first page boundary from a pointer on. -/
theorem stackOf_spec (r : ℕ) : stackOf r % PGSIZE = 0 ∧ r ≤ stackOf r ∧ stackOf r < r + PGSIZE := by
  by_cases h : r % PGSIZE = 0
  · rw [stackOf_eq h]
    simp only [PGSIZE] at *
    omega
  · rw [stackOf, if_pos h]
    simp only [PGSIZE] at *
    omega

namespace Kept

theorem returned (hs : Kept base start s) : Returned base start s := by
  refine ⟨hs.up, hs.wrong, hs.lost, fun hnone => ?_, ?_, hs.own⟩
  · have hempty : holdings (List.finRange NPROC) (Umalloc.held s.proc) = [] := by
      refine List.flatMap_eq_nil_iff.2 fun p _ => ?_
      rw [Umalloc.held, hnone p]
      rfl
    refine List.eq_nil_iff_forall_not_mem.2 fun b hb => ?_
    have hcount := hs.held b
    rw [hempty, List.count_nil] at hcount
    exact List.count_eq_zero.1 hcount hb
  · obtain ⟨fs, hf, hcov⟩ := hs.accounts.list
    refine ⟨fs, hf, fun x => ?_⟩
    rw [Nat.add_assoc, ← cover_append]
    exact hcov x

theorem init (mem : ℕ → Header) (hbase : 0 < base) (hlt : base < start)
    (htop : start * UNIT ≤ USERTOP) : Kept base start (State.init start mem) := by
  refine ⟨rfl, rfl, rfl, Accounts.init (h := ⟨mem, 0, start⟩) hbase hlt htop rfl, nofun,
    fun b => ?_, nofun⟩
  have hempty : holdings (List.finRange NPROC) (Umalloc.held fun _ => none) = [] :=
    List.flatMap_eq_nil_iff.2 fun _ _ => rfl
  exact (congrArg (List.count b) hempty).symm

/-- What the program owns stays untouched, if the blocks in use do. -/
theorem own_of_frame (hs : Kept base start s) {h : Heap} {own : List Block} (hsub : own ⊆ s.own)
    (hframe : ∀ x, 0 < cover (own ++ s.stackBlocks) x → h.mem x = s.heap.mem x) :
    ∀ b ∈ own, ∀ x, b.1 < x → x < b.1 + b.2 → h.mem x = s.contents x := fun b hb x hlt hle => by
  rw [hframe x (cover_pos_iff.2 ⟨b, List.mem_append_left _ hb, hlt.le, hle⟩)]
  exact hs.own b (hsub hb) x hlt hle

/-- A call of `malloc` for the program. -/
theorem malloc (hs : Kept base start s) {mem : Bool} (hn : unitsFor n * UNIT < 2 ^ 31) :
    Kept base start (s.malloc base n mem) := by
  obtain ⟨r, h, hmalloc, hframe, hresult⟩ := hs.accounts.malloc mem hn
  unfold State.malloc
  rw [hmalloc]
  dsimp only
  rcases hresult with ⟨-, rfl, ha⟩ | ⟨-, u, rfl, ha⟩
  · rw [if_pos rfl]
    exact ⟨hs.up, hs.wrong, hs.lost, ha, hs.valid, hs.held,
      hs.own_of_frame (List.Subset.refl _) hframe⟩
  · have hu : headerOf (payload u) = u :=
      ha.headerOf_payload (b := (u, unitsFor n)) List.mem_cons_self
    rw [if_neg (payload_ne_zero u), hu]
    refine ⟨hs.up, hs.wrong, hs.lost, ha, hs.valid, hs.held, fun b hb x hlt hle => ?_⟩
    dsimp only
    by_cases hx : u < x ∧ x < u + unitsFor n
    · rw [if_pos hx]
    · rw [if_neg hx]
      rcases List.mem_cons.1 hb with rfl | hb
      · exact absurd ⟨hlt, hle⟩ hx
      · exact hs.own_of_frame (List.Subset.refl _) hframe b hb x hlt hle

/-- A call of `free` by the program. -/
theorem free (hs : Kept base start s) (hb : b ∈ s.own) : Kept base start (s.free b) := by
  have hperm : (s.own ++ s.stackBlocks).Perm (b :: (s.own.erase b ++ s.stackBlocks)) :=
    (List.perm_cons_erase hb).append_right _
  obtain ⟨h, hfree, hframe, ha⟩ := (hs.accounts.perm hperm).free
  unfold State.free
  rw [hfree]
  dsimp only
  exact ⟨hs.up, hs.wrong, hs.lost, ha, hs.valid, hs.held,
    hs.own_of_frame List.erase_subset hframe⟩

/-- A write of the program or of a thread. -/
theorem store (hs : Kept base start s) {u : ℕ} {v : Header} (hb : b ∈ s.own ++ s.stackBlocks)
    (hu : b.1 < u ∧ u < b.1 + b.2) :
    Kept base start { s with
      heap := { s.heap with mem := Function.update s.heap.mem u v }
      contents := Function.update s.contents u v } := by
  refine ⟨hs.up, hs.wrong, hs.lost, hs.accounts.store hb hu, hs.valid, hs.held,
    fun b hb x hlt hle => ?_⟩
  dsimp only
  by_cases hx : x = u
  · rw [hx, Function.update_self, Function.update_self]
  · rw [Function.update_of_ne hx, Function.update_of_ne hx]
    exact hs.own b hb x hlt hle

/-- The end of a thread. -/
theorem exit (hs : Kept base start s) (ht : s.proc p = some t) :
    Kept base start { s with
      proc := Function.update s.proc p (some { t with zombie := true }) } := by
  refine ⟨hs.up, hs.wrong, hs.lost, hs.accounts, fun q t' hq => ?_, fun b => ?_, hs.own⟩
  · dsimp only at hq
    by_cases hqp : q = p
    · rw [hqp, Function.update_self] at hq
      cases hq
      exact ⟨(hs.valid p t ht).stack, (hs.valid p t ht).block⟩
    · rw [Function.update_of_ne hqp] at hq
      exact hs.valid q t' hq
  · have hcount := count_held s.proc p (some { t with zombie := true }) b
    have hheld : Umalloc.held s.proc p = blockFor t.block := by
      rw [Umalloc.held, ht]
      rfl
    rw [hheld] at hcount
    exact (hs.held b).trans (Nat.add_right_cancel hcount).symm

/-- `clone` takes a stack that lies in the heap. -/
theorem clone_some {u : ℕ} {h : Heap} (hend : u + unitsFor (PGSIZE * 2) ≤ h.brk)
    (hbrk : h.brk < 2 ^ 28) : clone (some p) (stackOf (payload u)) h = some p := by
  have hunits : unitsFor (PGSIZE * 2) = 1025 := by decide
  obtain ⟨hpage, hle, hlt⟩ := stackOf_spec (payload u)
  have hfit : ¬ toUint ((h.brk * UNIT : ℕ) - stackOf (payload u)) < PGSIZE := by
    simp only [toUint, payload, UNIT, PGSIZE] at *
    omega
  rw [clone, if_neg (not_not.2 hpage), if_neg hfit]

theorem clone_none (r : ℕ) (h : Heap) : clone none r h = none := by
  unfold clone
  split_ifs <;> rfl

/-- The end of the first page of a stack is in its block. -/
theorem pushArg_mem (u : ℕ) : u < (stackOf (payload u) + PGSIZE - 8) / UNIT ∧
    (stackOf (payload u) + PGSIZE - 8) / UNIT < u + unitsFor (PGSIZE * 2) := by
  have hunits : unitsFor (PGSIZE * 2) = 1025 := by decide
  obtain ⟨hpage, hle, hlt⟩ := stackOf_spec (payload u)
  simp only [payload, UNIT, PGSIZE] at *
  omega

/-- A thread has been started on the block `u`. -/
theorem started (hs : Kept base start s) {u arg : ℕ} {h : Heap} (hp : s.proc p = none)
    (hframe : ∀ x, 0 < cover (s.own ++ s.stackBlocks) x → h.mem x = s.heap.mem x)
    (ha : Accounts base start h ((u, unitsFor (PGSIZE * 2)) :: (s.own ++ s.stackBlocks))) :
    Kept base start { s with
      heap := pushArg arg (stackOf (payload u)) h
      stackBlocks := blockFor (payload u) ++ s.stackBlocks
      proc := Function.update s.proc p (some ⟨stackOf (payload u), false, payload u⟩) } := by
  have hu : headerOf (payload u) = u :=
    ha.headerOf_payload (b := (u, unitsFor (PGSIZE * 2))) List.mem_cons_self
  have hblock : blockFor (payload u) = [(u, unitsFor (PGSIZE * 2))] := by
    rw [blockFor, if_neg (payload_ne_zero u), hu]
  have hpush := pushArg_mem u
  have hperm : ((u, unitsFor (PGSIZE * 2)) :: (s.own ++ s.stackBlocks)).Perm
      (s.own ++ (blockFor (payload u) ++ s.stackBlocks)) := by
    rw [hblock]
    exact List.perm_middle.symm
  refine ⟨hs.up, hs.wrong, hs.lost, (ha.store List.mem_cons_self hpush).perm hperm,
    fun q t hq => ?_, fun b => ?_, fun b hb x hlt hle => ?_⟩
  · dsimp only at hq
    by_cases hqp : q = p
    · rw [hqp, Function.update_self] at hq
      cases hq
      exact ⟨rfl, congrArg payload hu.symm⟩
    · rw [Function.update_of_ne hqp] at hq
      exact hs.valid q t hq
  · have hcount := count_held s.proc p (some ⟨stackOf (payload u), false, payload u⟩) b
    have hheld : Umalloc.held s.proc p = [] := by
      rw [Umalloc.held, hp]
      rfl
    rw [hheld, List.count_nil] at hcount
    dsimp only
    rw [List.count_append, hs.held b, Nat.add_comm]
    exact hcount.symm
  · -- the blocks of the program are apart from the stack
    have hne : x ≠ (stackOf (payload u) + PGSIZE - 8) / UNIT := by
      rintro rfl
      have := ha.eq_of_mem (x := (stackOf (payload u) + PGSIZE - 8) / UNIT) List.mem_cons_self
        (List.mem_cons_of_mem _ (List.mem_append_left _ hb)) ⟨hpush.1.le, hpush.2⟩
        ⟨hlt.le, hle⟩
      have hnodup := ha.nodup
      rw [this] at hnodup
      exact (List.nodup_cons.1 hnodup).1 (List.mem_append_left _ hb)
    refine (Function.update_of_ne hne _ _).trans ?_
    exact hs.own_of_frame (List.Subset.refl _) hframe b hb x hlt hle

/-- A call of `thread_create`. -/
theorem thread_create (hs : Kept base start s) {arg : ℕ} {mem : Bool} {np : Option Slot}
    (hgood : np.isSome ↔ Room mem (unitsFor (PGSIZE * 2)) (s.heap.init base))
    (h : s.thread_create base arg mem np = some s') : Kept base start s' := by
  obtain ⟨r, h₁, hmalloc, hframe, hresult⟩ :=
    hs.accounts.malloc mem (show unitsFor (PGSIZE * 2) * UNIT < 2 ^ 31 by decide)
  unfold State.thread_create at h
  rw [hmalloc] at h
  dsimp only at h
  rcases hresult with ⟨hroom, rfl, ha⟩ | ⟨hroom, u, rfl, ha⟩
  · have hnp : np = none := by simpa using mt hgood.1 hroom
    rw [hnp, clone_none] at h
    dsimp only at h
    rw [if_pos rfl] at h
    cases h
    exact ⟨hs.up, hs.wrong, hs.lost, ha, hs.valid, hs.held,
      hs.own_of_frame (List.Subset.refl _) hframe⟩
  · obtain ⟨p, rfl⟩ := Option.isSome_iff_exists.1 (hgood.2 hroom)
    obtain ⟨fs, hf, -⟩ := ha.list
    have hbrk := hf.brk_lt
    rw [init_brk] at hbrk
    have hend := (ha.block_le (b := (u, unitsFor (PGSIZE * 2))) List.mem_cons_self).2
    rw [clone_some hend hbrk] at h
    dsimp only at h
    by_cases hp : s.proc p = none
    · rw [if_pos hp] at h
      cases h
      exact hs.started hp hframe ha
    · rw [if_neg hp] at h
      cases h

/-- A call of `thread_join` that finds a thread whose stack is where `malloc` put it. -/
theorem thread_join (hs : Kept base start s) {killed : Bool} (hfind : findZombie s.proc = some p)
    (ht : s.proc p = some t) (hpage : t.block % PGSIZE = 0)
    (h : s.thread_join killed = some s') : Kept base start s' := by
  have hvalid := hs.valid p t ht
  obtain ⟨u, hu⟩ : ∃ u, headerOf t.block = u := ⟨_, rfl⟩
  have hblock : t.block = payload u := hu ▸ hvalid.block
  have hstack : t.stack = payload u := by rw [hvalid.stack, stackOf_eq hpage, hblock]
  have hheld : Umalloc.held s.proc p = [(u, unitsFor (PGSIZE * 2))] := by
    rw [Umalloc.held, ht]
    exact hvalid.blockFor_eq.trans (by rw [hu])
  have hcount := fun b => count_held s.proc p none b
  have hmem : (u, unitsFor (PGSIZE * 2)) ∈ s.stackBlocks := by
    rw [← List.count_pos_iff, hs.held, List.count_pos_iff]
    exact mem_holdings.2 ⟨p, List.mem_finRange p, hheld ▸ List.mem_singleton_self _⟩
  -- blocks do not overlap: no other one has this address
  have hsome : s.stackBlocks.find? (fun b => payload b.1 = payload u) =
      some (u, unitsFor (PGSIZE * 2)) := by
    have hex : (s.stackBlocks.find? fun b => payload b.1 = payload u).isSome := by
      rw [List.find?_isSome]
      exact ⟨_, hmem, decide_eq_true rfl⟩
    obtain ⟨b, hb⟩ := Option.isSome_iff_exists.1 hex
    have hfound := List.find?_some hb
    have hbu : b.1 = u := payload_inj (of_decide_eq_true hfound)
    have hbmem := List.mem_append_right s.own (List.mem_of_find?_eq_some hb)
    have hbpos := hs.accounts.pos b hbmem
    have heq := hs.accounts.eq_of_mem (x := u) hbmem (List.mem_append_right s.own hmem)
      ⟨hbu.le, by omega⟩ ⟨le_rfl, Nat.lt_add_of_pos_right (show 0 < unitsFor (PGSIZE * 2) by decide)⟩
    rw [hb, heq]
  have hperm : (s.own ++ s.stackBlocks).Perm ((u, unitsFor (PGSIZE * 2)) ::
      (s.own ++ s.stackBlocks.erase (u, unitsFor (PGSIZE * 2)))) :=
    ((List.perm_cons_erase hmem).append_left _).trans List.perm_middle
  obtain ⟨h₁, hfree, hframe, ha⟩ := (hs.accounts.perm hperm).free
  unfold State.thread_join join at h
  rw [hfind] at h
  simp only [ht, Option.map_some, Option.getD_some, State.freeStack, hstack, hsome, hfree] at h
  cases h
  refine ⟨hs.up, hs.wrong, hs.lost, ha, fun q t' hq => ?_, fun b => ?_, fun b hb x hlt hle => ?_⟩
  · dsimp only at hq
    by_cases hqp : q = p
    · rw [hqp, Function.update_self] at hq
      cases hq
    · rw [Function.update_of_ne hqp] at hq
      exact hs.valid q t' hq
  · have hb := hcount b
    have hold := hs.held b
    rw [hheld] at hb
    dsimp only [Option.elim_none] at hb ⊢
    rw [List.count_nil] at hb
    have herase := (List.perm_cons_erase hmem).count_eq b
    rw [List.count_cons, hold] at herase
    rw [List.count_cons, List.count_nil] at hb
    omega
  · rw [hframe x (cover_pos_iff.2 ⟨b, List.mem_append_left _ hb, hlt.le, hle⟩)]
    exact hs.own b hb x hlt hle

/-- **The step lemma.** -/
theorem step (hs : Kept base start s) (hgood : Good base s l)
    (h : (client base).next s l = some s') : Kept base start s' := by
  have hup : ¬ s.down = true := by simp [hs.up]
  simp only [client, if_neg hup] at h
  cases l with
  | malloc nbytes mem =>
    cases h
    exact hs.malloc hgood
  | free b =>
    by_cases hb : b ∈ s.own
    · simp only [if_pos hb] at h
      cases h
      exact hs.free hb
    · simp only [if_neg hb] at h
      cases h
  | store u v =>
    by_cases hex : ∃ b ∈ s.own ++ s.stackBlocks, b.1 < u ∧ u < b.1 + b.2
    · simp only [if_pos hex] at h
      cases h
      obtain ⟨b, hb, hu⟩ := hex
      exact hs.store hb hu
    · simp only [if_neg hex] at h
      cases h
  | threadCreate arg mem np => exact hs.thread_create hgood h
  | exit p =>
    obtain ⟨t, ht, h⟩ := Option.bind_eq_some_iff.1 h
    by_cases hz : t.zombie = true
    · rw [if_pos hz] at h
      cases h
    · rw [if_neg hz] at h
      cases h
      exact hs.exit ht
  | threadJoin killed =>
    obtain ⟨p, t, hfind, ht, hpage⟩ := hgood
    exact hs.thread_join hfind ht hpage h

end Kept

/-- **Thread stacks return to the heap** in every run whose calls meet the condition. -/
theorem always_returned {mem : ℕ → Header} {ls : List Label} (hbase : 0 < base) (hlt : base < start)
    (htop : start * UNIT ≤ USERTOP)
    (hgood : (client base).Allowed (Good base) (State.init start mem) ls) :
    (client base).Always (Returned base start) (State.init start mem) ls :=
  hgood.always (Kept.init mem hbase hlt htop) (fun _ _ _ hs hl h => hs.step hl h)
    fun _ hs => hs.returned

/-- A program whose heap begins at a page boundary starts two threads, and the second one ends. -/
def secondThread : List Label :=
  [.threadCreate 7 true (some 1), .threadCreate 8 true (some 2), .exit 2, .threadJoin false]

/-- **The second thread**: `thread_join` frees a pointer that `malloc` has not returned. -/
theorem not_always_returned : ∃ s', (client 300).run (State.init 1024 fun _ => ⟨0, 0⟩) secondThread =
    some s' ∧ s'.wrong = [24576] ∧ s'.stackBlocks = [(3070, 1025), (4095, 1025)] ∧
    ¬ (client 300).Always (Returned 300 1024) (State.init 1024 fun _ => ⟨0, 0⟩) secondThread := by
  have hwrong : ((client 300).run (State.init 1024 fun _ => ⟨0, 0⟩) secondThread).map
      (fun s => (s.wrong, s.stackBlocks)) = some ([24576], [(3070, 1025), (4095, 1025)]) := by
    decide +kernel
  obtain ⟨s', hs', heq⟩ := Option.map_eq_some_iff.1 hwrong
  obtain ⟨hw, hb⟩ := Prod.ext_iff.1 heq
  refine ⟨s', hs', hw, hb, fun halways => ?_⟩
  have hnil := (halways.of_run hs').wrong
  rw [show s'.wrong = [24576] from hw] at hnil
  cases hnil

/-- A thread on the first block of a heap. -/
theorem always_returned_first :
    (client 300).Always (Returned 300 1024) (State.init 1024 fun _ => ⟨0, 0⟩)
      [.threadCreate 7 true (some 1), .exit 1, .threadJoin false] := by
  refine always_returned (by decide) (by decide) (by decide) ⟨?_, fun s hs => ⟨trivial, fun s₁ hs₁ =>
    ⟨?_, fun _ _ => trivial⟩⟩⟩
  · exact iff_of_true rfl (Or.inr ⟨rfl, by decide⟩)
  · have hrun : ((client 300).run (State.init 1024 fun _ => ⟨0, 0⟩)
        [.threadCreate 7 true (some 1), .exit 1]).map
        (fun s => (findZombie s.proc, s.proc 1)) = some (some 1, some ⟨32768, true, 32768⟩) := by
      decide +kernel
    have hstep : (client 300).run (State.init 1024 fun _ => ⟨0, 0⟩)
        [.threadCreate 7 true (some 1), .exit 1] = some s₁ := by
      rw [Machine.run_cons_eq_some]
      exact ⟨s, hs, Machine.run_cons_eq_some.2 ⟨s₁, hs₁, rfl⟩⟩
    rw [hstep] at hrun
    obtain ⟨hfind, hproc⟩ := Prod.ext_iff.1 (Option.some.inj hrun)
    exact ⟨1, _, hfind, hproc, by decide⟩

end Umalloc

end OperatingSystems

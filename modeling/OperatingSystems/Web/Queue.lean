import OperatingSystems.Heap.Order
import OperatingSystems.Heap.PriorityQueue

/-!
# The connection queue of the web server

`Queue` is the `struct queue` of `server.h`: an array `connPool` of `bufSz = buffers + 1` entries
of which slot `0` is a dummy, and `size`, the first slot that is not in use.  The operations are
those of `server.c`.  They read of an entry only its priority, so they are given for any type of
entries with a `priority`.

* `initQueue`, `isEmpty`, `isFull`, `enqueue`, `dequeue` : the code.
* `Queue.Valid` : the heap order and the bounds of `size`.
* `valid_enqueue`, `contents_enqueue`, `valid_dequeue`, `contents_dequeue` : what each operation
  does to the order and to the multiset of queued entries.
* `queue_simulates` : the array refines the abstract priority queue.
-/

namespace OperatingSystems

namespace Web

open Heap

/-- One accepted connection: `struct data`. -/
structure Data where
  /-- Smaller is served first. -/
  priority : ℤ
  /-- The connected socket. -/
  connfd : ℤ
  /-- The request line. -/
  buff : List UInt8
  deriving DecidableEq

/-- `struct queue`, for entries of type `α`. -/
structure Queue (α : Type*) where
  /-- The first slot that is not in use. -/
  size : ℕ
  /-- The number of slots of `connPool`. -/
  bufSz : ℕ
  /-- The slots. -/
  connPool : ℕ → α

variable {α : Type*}

/-- `initQueue`; `mem` is what `malloc` returns. -/
def initQueue (mem : ℕ → α) (dummy : α) (buffers : ℕ) : Queue α where
  size := 1
  bufSz := buffers + 1
  connPool := Function.update mem 0 dummy

def isEmpty (q : Queue α) : Bool := q.size == 1

def isFull (q : Queue α) : Bool := q.bufSz == q.size

variable (priority : α → ℤ)

/-- The loop of `enqueue`. -/
def enqueueLoop (connPool : ℕ → α) (index : ℕ) : ℕ → α :=
  if index / 2 ≠ 0 then
    if priority (connPool index) < priority (connPool (index / 2)) then
      enqueueLoop (swapAt connPool index (index / 2)) (index / 2)
    else connPool
  else connPool
termination_by index
decreasing_by omega

def enqueue (q : Queue α) (d : α) : Queue α :=
  { q with
    size := q.size + 1
    connPool := enqueueLoop priority (Function.update q.connPool q.size d) q.size }

/-- The loop of `dequeue`. -/
def dequeueLoop (connPool : ℕ → α) (size index : ℕ) (h : 1 ≤ index) : ℕ → α :=
  if index * 2 < size then
    if index * 2 + 1 < size ∧ (priority (connPool index) > priority (connPool (2 * index)) ∨
        priority (connPool index) > priority (connPool (2 * index + 1))) then
      if priority (connPool (index * 2)) ≤ priority (connPool (index * 2 + 1)) then
        dequeueLoop (swapAt connPool index (index * 2)) size (index * 2) (by omega)
      else
        dequeueLoop (swapAt connPool index (index * 2 + 1)) size (index * 2 + 1) (by omega)
    else if index * 2 + 1 ≥ size ∧ priority (connPool index) > priority (connPool (2 * index)) then
      dequeueLoop (swapAt connPool index (2 * index)) size (index * 2) (by omega)
    else connPool
  else connPool
termination_by size - index
decreasing_by all_goals omega

/-- `dequeue`: the entry it returns and the queue it leaves. -/
def dequeue (q : Queue α) : α × Queue α :=
  (q.connPool 1,
    { q with
      size := q.size - 1
      connPool := dequeueLoop priority (Function.update q.connPool 1 (q.connPool (q.size - 1)))
        (q.size - 1) 1 le_rfl })

/-- The queued entries. -/
def Queue.contents (q : Queue α) : Multiset α := Heap.contents q.connPool q.size

/-- The invariant of the queue. -/
structure Queue.Valid (q : Queue α) : Prop where
  one_le : 1 ≤ q.size
  le : q.size ≤ q.bufSz
  ordered : Ordered priority q.connPool q.size

variable {priority}

/-! ### The loops -/

theorem enqueueLoop_spec {connPool : ℕ → α} {n index : ℕ} (h1 : 1 ≤ index) (hn : index < n)
    (ho : UpOrdered priority connPool n index) :
    Ordered priority (enqueueLoop priority connPool index) n ∧
      Heap.contents (enqueueLoop priority connPool index) n = Heap.contents connPool n := by
  fun_induction enqueueLoop priority connPool index with
  | case1 connPool index h0 hlt ih =>
    have h := ih (by omega) (by omega) (ho.swap (by omega) hlt)
    exact ⟨h.1, h.2.trans (contents_swapAt _ ⟨h1, hn⟩ (by omega))⟩
  | case2 connPool index h0 hlt => exact ⟨ho.ordered fun _ => not_lt.1 hlt, rfl⟩
  | case3 connPool index h0 => exact ⟨ho.ordered fun h2 => by omega, rfl⟩

theorem child_cases {i h : ℕ} (hi : i / 2 = h) : i = h * 2 ∨ i = h * 2 + 1 := by omega

theorem dequeueLoop_spec {connPool : ℕ → α} {n index : ℕ} (h1 : 1 ≤ index)
    (ho : DownOrdered priority connPool n index) :
    Ordered priority (dequeueLoop priority connPool n index h1) n ∧
      Heap.contents (dequeueLoop priority connPool n index h1) n = Heap.contents connPool n := by
  fun_induction dequeueLoop priority connPool n index h1 with
  | case1 connPool index h1 hlt hc hle ih =>
    -- two children, the left one is the smaller
    rw [mul_comm 2 index] at hc
    have h := ih (ho.swap h1 (by omega) hlt (by omega) fun d _ hd => by
      rcases child_cases hd with rfl | rfl
      · exact le_rfl
      · exact hle)
    exact ⟨h.1, h.2.trans (contents_swapAt _ (by omega) (by omega))⟩
  | case2 connPool index h1 hlt hc hle ih =>
    -- two children, the right one is the smaller
    rw [mul_comm 2 index] at hc
    have h := ih (ho.swap h1 (by omega) hc.1 (by omega) fun d _ hd => by
      rcases child_cases hd with rfl | rfl
      · exact (not_le.1 hle).le
      · exact le_rfl)
    exact ⟨h.1, h.2.trans (contents_swapAt _ (by omega) (by omega))⟩
  | case3 connPool index h1 hlt hc hc' ih =>
    -- only a left child
    rw [mul_comm 2 index] at hc' ih ⊢
    have h := ih (ho.swap h1 (by omega) hlt hc'.2 fun d hd' hd => by
      rcases child_cases hd with rfl | rfl
      · exact le_rfl
      · omega)
    exact ⟨h.1, h.2.trans (contents_swapAt _ (by omega) (by omega))⟩
  | case4 connPool index h1 hlt hc hc' =>
    -- neither child is smaller
    rw [mul_comm 2 index] at hc hc'
    refine ⟨ho.ordered fun i h2 hi hp => ?_, rfl⟩
    by_contra hgt
    rw [not_le] at hgt
    rcases child_cases hp with rfl | rfl
    · by_cases hr : index * 2 + 1 < n
      · exact hc ⟨hr, Or.inl hgt⟩
      · exact hc' ⟨not_lt.1 hr, hgt⟩
    · exact hc ⟨by omega, Or.inr hgt⟩
  | case5 connPool index h1 hlt =>
    -- no child
    exact ⟨ho.ordered fun i _ hi hp => by omega, rfl⟩

/-! ### The operations -/

theorem valid_initQueue (mem : ℕ → α) (dummy : α) (buffers : ℕ) :
    (initQueue mem dummy buffers).Valid priority where
  one_le := le_rfl
  le := by simp [initQueue]
  ordered i h2 hi := by simp only [initQueue] at hi; omega

theorem contents_initQueue (mem : ℕ → α) (dummy : α) (buffers : ℕ) :
    (initQueue mem dummy buffers).contents = 0 := contents_one _

theorem isFull_iff {q : Queue α} : isFull q = true ↔ q.bufSz = q.size := by simp [isFull]

theorem isEmpty_iff {q : Queue α} : isEmpty q = true ↔ q.size = 1 := by simp [isEmpty]

theorem enqueueLoop_enqueue {q : Queue α} (hv : q.Valid priority) (d : α) :
    UpOrdered priority (Function.update q.connPool q.size d) (q.size + 1) q.size :=
  hv.ordered.upOrdered_update d

theorem valid_enqueue {q : Queue α} (hv : q.Valid priority) (hf : ¬ isFull q) (d : α) :
    (enqueue priority q d).Valid priority where
  one_le := by simp [enqueue]
  le := by
    rw [isFull_iff] at hf
    have := hv.le
    simp only [enqueue]; omega
  ordered := (enqueueLoop_spec hv.one_le (Nat.lt_succ_self _) (enqueueLoop_enqueue hv d)).1

theorem contents_enqueue {q : Queue α} (hv : q.Valid priority) (d : α) :
    (enqueue priority q d).contents = d ::ₘ q.contents := by
  have h := (enqueueLoop_spec hv.one_le (Nat.lt_succ_self _) (enqueueLoop_enqueue hv d)).2
  calc (enqueue priority q d).contents
      = Heap.contents (Function.update q.connPool q.size d) (q.size + 1) := h
    _ = d ::ₘ Heap.contents (Function.update q.connPool q.size d) q.size := by
        rw [contents_succ _ hv.one_le, Function.update_self]
    _ = d ::ₘ q.contents := by
        rw [contents_congr fun i _ hi => Function.update_of_ne (Nat.ne_of_lt hi) d q.connPool]
        rfl

theorem two_le_size {q : Queue α} (hv : q.Valid priority) (he : ¬ isEmpty q) : 2 ≤ q.size := by
  rw [isEmpty_iff] at he
  have := hv.one_le
  omega

theorem dequeueLoop_dequeue {q : Queue α} (hv : q.Valid priority) (he : ¬ isEmpty q) (x : α) :
    DownOrdered priority (Function.update q.connPool 1 x) (q.size - 1) 1 := by
  have h2 := two_le_size hv he
  exact Ordered.downOrdered_update (by rw [Nat.sub_add_cancel (by omega)]; exact hv.ordered) x

theorem valid_dequeue {q : Queue α} (hv : q.Valid priority) (he : ¬ isEmpty q) :
    (dequeue priority q).2.Valid priority where
  one_le := by have := two_le_size hv he; simp only [dequeue]; omega
  le := by have := hv.le; simp only [dequeue]; omega
  ordered := (dequeueLoop_spec _ (dequeueLoop_dequeue hv he _)).1

theorem contents_dequeue {q : Queue α} (hv : q.Valid priority) (he : ¬ isEmpty q) :
    q.contents = (dequeue priority q).1 ::ₘ (dequeue priority q).2.contents := by
  have h2 := two_le_size hv he
  have hroot := contents_update_root q.connPool (n := q.size - 1) (by omega)
  rw [Nat.sub_add_cancel (by omega)] at hroot
  have h := (dequeueLoop_spec le_rfl (dequeueLoop_dequeue hv he (q.connPool (q.size - 1)))).2
  exact hroot.trans (congrArg _ h.symm)

/-- **The entry that `dequeue` returns is one of the queued entries, with the smallest priority
among them.** -/
theorem isLeast_dequeue {q : Queue α} (hv : q.Valid priority) (he : ¬ isEmpty q) :
    IsLeast priority q.contents (dequeue priority q).1 := by
  have h2 := two_le_size hv he
  refine ⟨mem_contents.2 ⟨1, le_rfl, by omega, rfl⟩, fun y hy => ?_⟩
  obtain ⟨i, h1, hi, rfl⟩ := mem_contents.1 hy
  exact hv.ordered.root_le h1 hi

/-! ### The queue as a machine -/

variable (priority) in
/-- The queue under its two operations, each called only when its guard allows it. -/
def queueMachine [DecidableEq α] : Machine (Queue α) (QueueOp α) where
  next
    | q, .enq d => if isFull q then none else some (enqueue priority q d)
    | q, .deq d =>
      if isEmpty q then none
      else if (dequeue priority q).1 = d then some (dequeue priority q).2 else none

variable [DecidableEq α]

theorem queueMachine_valid {q q' : Queue α} {l : QueueOp α} (hv : q.Valid priority)
    (h : (queueMachine priority).next q l = some q') : q'.Valid priority := by
  cases l with
  | enq d =>
    simp only [queueMachine] at h
    split_ifs at h with hf
    cases h
    exact valid_enqueue hv hf d
  | deq d =>
    simp only [queueMachine] at h
    split_ifs at h with he hd
    cases h
    exact valid_dequeue hv he

/-- **Each operation of the queue is one of the abstract priority queue.** -/
theorem queue_simulates {q q' : Queue α} {l : QueueOp α} (hv : q.Valid priority)
    (h : (queueMachine priority).next q l = some q') :
    (pqueue priority).next q.contents l = some q'.contents := by
  cases l with
  | enq d =>
    simp only [queueMachine] at h
    split_ifs at h with hf
    cases h
    exact congrArg some (contents_enqueue hv d).symm
  | deq d =>
    simp only [queueMachine] at h
    split_ifs at h with he hd
    cases h
    subst hd
    have hc := contents_dequeue hv he
    simp only [pqueue, if_pos (isLeast_dequeue hv he)]
    exact congrArg some (by rw [hc, Multiset.erase_cons_head])

theorem queueMachine_run_valid {q q' : Queue α} {ls : List (QueueOp α)} (hv : q.Valid priority)
    (h : (queueMachine priority).run q ls = some q') : q'.Valid priority :=
  Machine.run_invariant h hv fun _ _ _ hv h => queueMachine_valid hv h

theorem queueMachine_run_simulates {q q' : Queue α} {ls : List (QueueOp α)}
    (hv : q.Valid priority) (h : (queueMachine priority).run q ls = some q') :
    (pqueue priority).run q.contents ls = some q'.contents := by
  obtain ⟨m, hm, -, rfl⟩ := Machine.run_simulation (N := pqueue priority)
    (R := fun q m => q.Valid priority ∧ q.contents = m) (f := id)
    (fun q m l q' hR hl => ⟨_, hR.2 ▸ queue_simulates hR.1 hl, queueMachine_valid hR.1 hl, rfl⟩)
    ⟨hv, rfl⟩ h
  rwa [List.map_id] at hm

/-- **The array heap refines the priority queue.**  After every sequence of operations from
`initQueue`, whatever the priorities: the array is in heap order, its entries are exactly those
enqueued and not yet dequeued, the abstract queue can perform the same operations and holds the
same entries, and the next `dequeue` returns an entry of minimal priority. -/
theorem queue_refines (mem : ℕ → α) (dummy : α) (buffers : ℕ) {ls : List (QueueOp α)}
    {q : Queue α} (h : (queueMachine priority).run (initQueue mem dummy buffers) ls = some q) :
    (∀ i, 2 ≤ i → i < q.size → priority (q.connPool (i / 2)) ≤ priority (q.connPool i)) ∧
      q.contents + QueueOp.dequeued ls = QueueOp.enqueued ls ∧
      (pqueue priority).run 0 ls = some q.contents ∧
      (¬ isEmpty q → IsLeast priority q.contents (dequeue priority q).1) := by
  have hv : q.Valid priority := queueMachine_run_valid (valid_initQueue mem dummy buffers) h
  have hrun := queueMachine_run_simulates (valid_initQueue mem dummy buffers) h
  rw [contents_initQueue] at hrun
  refine ⟨hv.ordered, ?_, hrun, isLeast_dequeue hv⟩
  simpa using pqueue_run_contents hrun

/-- Two requests, the second with the smaller priority, which comes out first: what is left is the
other one. -/
theorem queue_refines_two_requests : ∃ q : Queue Data,
    (queueMachine Data.priority).run (initQueue (fun _ => ⟨0, 0, []⟩) ⟨-1, -1, []⟩ 2)
      [.enq ⟨7, 4, []⟩, .enq ⟨3, 5, []⟩, .deq ⟨3, 5, []⟩] = some q ∧
    q.contents + (⟨3, 5, []⟩ ::ₘ 0) = ⟨7, 4, []⟩ ::ₘ ⟨3, 5, []⟩ ::ₘ 0 := by
  have hrun : ∃ q, (queueMachine Data.priority).run
      (initQueue (fun _ => ⟨0, 0, []⟩) ⟨-1, -1, []⟩ 2)
      [.enq ⟨7, 4, []⟩, .enq ⟨3, 5, []⟩, .deq ⟨3, 5, []⟩] = some q :=
    Option.isSome_iff_exists.1 (by decide +kernel)
  obtain ⟨q, hq⟩ := hrun
  exact ⟨q, hq, (queue_refines _ _ _ hq).2.1⟩

end Web

end OperatingSystems

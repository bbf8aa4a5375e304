import OperatingSystems.Machine.Basic
import Mathlib.Data.Multiset.AddSub
import Mathlib.Order.Defs.LinearOrder

/-!
# The abstract priority queue

A priority queue is a multiset of entries.  It takes any entry, and it gives back an entry whose
key is minimal among those it holds; ties may be broken either way.  `pqueue` is this queue as a
machine, so that an implementation can be shown to simulate it.

* `QueueOp.enqueued`, `QueueOp.dequeued` : what a list of operations put in and took out.
* `pqueue_run_contents` : whatever was put in is taken out or still there, with multiplicities.
-/

namespace OperatingSystems

namespace Heap

/-- The operations of a queue; `deq x` is the dequeue that returns `x`. -/
inductive QueueOp (α : Type*) where
  /-- Put `x` in. -/
  | enq (x : α)
  /-- Take an entry out, which is `x`. -/
  | deq (x : α)

namespace QueueOp

variable {α : Type*}

/-- The entries a list of operations puts in. -/
def enqueued : List (QueueOp α) → Multiset α
  | [] => 0
  | enq x :: ls => x ::ₘ enqueued ls
  | deq _ :: ls => enqueued ls

/-- The entries a list of operations takes out. -/
def dequeued : List (QueueOp α) → Multiset α
  | [] => 0
  | enq _ :: ls => dequeued ls
  | deq x :: ls => x ::ₘ dequeued ls

end QueueOp

variable {α κ : Type*} [LinearOrder κ] (key : α → κ)

/-- `x` is an entry of `m` with the smallest key. -/
def IsLeast (m : Multiset α) (x : α) : Prop := x ∈ m ∧ ∀ y ∈ m, key x ≤ key y

instance [DecidableEq α] (m : Multiset α) (x : α) : Decidable (IsLeast key m x) :=
  inferInstanceAs (Decidable (x ∈ m ∧ ∀ y ∈ m, key x ≤ key y))

variable [DecidableEq α]

/-- The abstract priority queue. -/
def pqueue : Machine (Multiset α) (QueueOp α) where
  next
    | m, .enq x => some (x ::ₘ m)
    | m, .deq x => if IsLeast key m x then some (m.erase x) else none

variable {key}

/-- What a priority queue was given is what it gave back and what it still holds. -/
theorem pqueue_run_contents {m m' : Multiset α} {ls : List (QueueOp α)}
    (h : (pqueue key).run m ls = some m') :
    m' + QueueOp.dequeued ls = m + QueueOp.enqueued ls := by
  induction ls generalizing m with
  | nil => cases h; rfl
  | cons l ls ih =>
    obtain ⟨t, ht, h⟩ := Machine.run_cons_eq_some.1 h
    have := ih h
    cases l with
    | enq x =>
      cases ht
      rw [QueueOp.dequeued, this, QueueOp.enqueued, Multiset.cons_add, Multiset.add_cons]
    | deq x =>
      simp only [pqueue] at ht
      split_ifs at ht with hx
      cases ht
      rw [QueueOp.dequeued, Multiset.add_cons, this, QueueOp.enqueued, ← Multiset.cons_add,
        Multiset.cons_erase hx.1]

end Heap

end OperatingSystems

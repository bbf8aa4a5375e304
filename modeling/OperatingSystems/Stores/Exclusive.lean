import OperatingSystems.Machine.Basic
import Mathlib.Logic.Function.Basic

/-!
# A store whose entries are locked one by one

Processes `P` take the entries `K` of a store, change their values `V` while they have them, and give them
back.  This is what a cache of a slow device looks like from outside.

* `Store`, `Store.Op` : the store, and what is done with it.
* `store` : the machine of these operations.
* `lastStored`, `holderAfter` : the value and the holder of an entry, told from the operations alone.
* `contents_of_run`, `holder_of_run` : they are those of the store.
* `run_split` : **whoever takes an entry finds the value that was stored last**, and nobody else has it.
-/

namespace OperatingSystems

/-- The values of the entries, and who has them. -/
structure Store (P K V : Type*) where
  contents : K → V
  holder : K → Option P

namespace Store

variable {P K V : Type*}

/-- The operations -/
inductive Op (P K V : Type*)
  /-- The process takes the entry, and finds the value. -/
  | take (p : P) (k : K) (v : V)
  | store (p : P) (k : K) (v : V)
  | give (p : P) (k : K)

/-- Nobody has an entry. -/
def idle (contents : K → V) : Store P K V := ⟨contents, fun _ => none⟩

section

variable [DecidableEq K]

/-- The value that was stored last for `k`, or the one from the beginning -/
def lastStored (init : K → V) (k : K) : List (Op P K V) → V
  | [] => init k
  | .store _ k' v :: ops => lastStored (Function.update init k' v) k ops
  | _ :: ops => lastStored init k ops

/-- Who has `k` after the operations -/
def holderAfter (init : K → Option P) (k : K) : List (Op P K V) → Option P
  | [] => init k
  | .take p k' _ :: ops => holderAfter (Function.update init k' (some p)) k ops
  | .give _ k' :: ops => holderAfter (Function.update init k' none) k ops
  | .store _ _ _ :: ops => holderAfter init k ops

open scoped Classical in
/-- The store under its operations -/
noncomputable def machine : Machine (Store P K V) (Op P K V) where
  next s
    | .take p k v =>
      if s.holder k = none ∧ s.contents k = v then
        some { s with holder := Function.update s.holder k (some p) }
      else none
    | .store p k v =>
      if s.holder k = some p then some { s with contents := Function.update s.contents k v } else none
    | .give p k =>
      if s.holder k = some p then some { s with holder := Function.update s.holder k none } else none

variable {s s' : Store P K V} {ops ops₁ ops₂ : List (Op P K V)} {p : P} {k : K} {v : V}

theorem contents_of_run (h : machine.run s ops = some s') (k : K) :
    s'.contents k = lastStored s.contents k ops := by
  induction ops generalizing s with
  | nil => cases h; rfl
  | cons op ops ih =>
    obtain ⟨t, ht, h'⟩ := Machine.run_cons_eq_some.1 h
    rw [ih h']
    cases op <;> simp only [machine] at ht <;> split_ifs at ht <;> cases ht <;> rfl

theorem holder_of_run (h : machine.run s ops = some s') (k : K) :
    s'.holder k = holderAfter s.holder k ops := by
  induction ops generalizing s with
  | nil => cases h; rfl
  | cons op ops ih =>
    obtain ⟨t, ht, h'⟩ := Machine.run_cons_eq_some.1 h
    rw [ih h']
    cases op <;> simp only [machine] at ht <;> split_ifs at ht <;> cases ht <;> rfl

/-- The state before an operation of a run -/
theorem run_split {op : Op P K V} (h : machine.run s (ops₁ ++ op :: ops₂) = some s') :
    ∃ t t', machine.run s ops₁ = some t ∧ machine.next t op = some t' := by
  rw [Machine.run_append, Option.bind_eq_some_iff] at h
  obtain ⟨t, ht, h⟩ := h
  obtain ⟨t', ht', -⟩ := Machine.run_cons_eq_some.1 h
  exact ⟨t, t', ht, ht'⟩

/-- **Whoever takes an entry finds the value that was stored last**, and nobody else has it. -/
theorem take_of_run (h : machine.run s (ops₁ ++ .take p k v :: ops₂) = some s') :
    v = lastStored s.contents k ops₁ ∧ holderAfter s.holder k ops₁ = none := by
  obtain ⟨t, t', ht, hnext⟩ := run_split h
  simp only [machine] at hnext
  split_ifs at hnext with htake
  rw [← contents_of_run ht, ← holder_of_run ht]
  exact ⟨htake.2.symm, htake.1⟩

/-- **Only who has an entry stores a value.** -/
theorem store_of_run (h : machine.run s (ops₁ ++ .store p k v :: ops₂) = some s') :
    holderAfter s.holder k ops₁ = some p := by
  obtain ⟨t, t', ht, hnext⟩ := run_split h
  simp only [machine] at hnext
  split_ifs at hnext with hstore
  rw [← holder_of_run ht]
  exact hstore

end

end Store

end OperatingSystems

import OperatingSystems.Sched.Table
import Mathlib.Data.Fintype.EquivFin
import Mathlib.Data.List.NodupEquivFin

/-!
# What `getpinfo` describes

`getpinfo` writes one entry for each process that is alive, one after the other from the first entry on,
and leaves the others as they are.  It never clears `inuse`, so that an entry of an earlier call stays in
use when there are fewer processes now.

* `Live`, `Matches` : the processes that are alive; an entry that describes a process.
* `Describes` : the entries in use describe the processes that are alive, one each.
* `describes_getpinfo_iff` : **when `getpinfo` describes the processes**, for all tables and buffers.
* `not_describes_shrunk` : two calls, with a process that has gone in between.
-/

namespace OperatingSystems

namespace Sched

namespace Kernel

/-- The process is alive. -/
def Live (k : Kernel) (p : Slot) : Prop :=
  (k.proc p).state = .sleeping ∨ (k.proc p).state = .runnable ∨ (k.proc p).state = .running

/-- The entry `i` describes the process `p`. -/
structure Matches (k : Kernel) (info : Pstat) (i p : Slot) : Prop where
  pid : info.pid i = (k.proc p).pid
  queue : info.queue i = (k.proc p).queue
  runTimes : info.runTimes i = (k.proc p).numTimeRun
  hticks : info.hticks i = (k.proc p).highTicks
  lticks : info.lticks i = (k.proc p).lowTicks

/-- The entries in use describe the processes that are alive, one each, and the others are not in use. -/
structure Describes (k : Kernel) (info : Pstat) : Prop where
  inuse : ∃ e : {i // info.inuse i = 1} ≃ {p // k.Live p}, ∀ i, k.Matches info i.1 (e i).1
  other : ∀ i, info.inuse i ≠ 1 → info.inuse i = 0

variable {k : Kernel} {info : Pstat} {p : Slot}

theorem mem_reported : p ∈ k.reported ↔ k.Live p := by
  unfold reported Live
  simp only [List.mem_filter, List.mem_finRange, true_and, decide_eq_true_eq]
  cases (k.proc p).state <;> simp

theorem nodup_reported (k : Kernel) : k.reported.Nodup := (List.nodup_finRange NPROC).filter _

theorem length_reported_le (k : Kernel) : k.reported.length ≤ NPROC :=
  (List.length_filter_le _ _).trans List.length_finRange.le

/-- The processes that are alive are numbered. -/
def reportedEquiv (k : Kernel) : Fin k.reported.length ≃ {p // k.Live p} :=
  (k.nodup_reported.getEquiv k.reported).trans (Equiv.subtypeEquivRight fun _ => mem_reported)

/-- The entry of a number. -/
def entry (k : Kernel) (i : Fin k.reported.length) : Slot :=
  ⟨i, i.isLt.trans_le k.length_reported_le⟩

theorem inuse_getpinfo (k : Kernel) (info : Pstat) (i : Slot) : (k.getpinfo info).inuse i =
    if i.val < k.reported.length then 1 else info.inuse i := by
  simp only [getpinfo]
  by_cases h : i.val < k.reported.length
  · rw [if_pos h, List.getElem?_eq_getElem h]
  · rw [if_neg h, List.getElem?_eq_none (not_lt.1 h)]

theorem inuse_entry (k : Kernel) (info : Pstat) (i : Fin k.reported.length) :
    (k.getpinfo info).inuse (k.entry i) = 1 := by
  rw [inuse_getpinfo]
  exact if_pos i.isLt

theorem matches_entry (k : Kernel) (info : Pstat) (i : Fin k.reported.length) :
    k.Matches (k.getpinfo info) (k.entry i) (k.reportedEquiv i) := by
  have hget : k.reported[(k.entry i).val]? = some (k.reportedEquiv i).1 :=
    List.getElem?_eq_getElem i.isLt
  constructor <;> simp only [getpinfo, hget]

/-- If no other entry is in use, those in use are numbered like the processes. -/
theorem describes_of_cleared (h : ∀ i : Slot, k.reported.length ≤ i.val → info.inuse i = 0) :
    k.Describes (k.getpinfo info) := by
  have hlt : ∀ i, (k.getpinfo info).inuse i = 1 ↔ i.val < k.reported.length := fun i => by
    rw [inuse_getpinfo]
    split_ifs with hi
    · simp [hi]
    · simp [hi, h i (not_lt.1 hi)]
  let e : {i // (k.getpinfo info).inuse i = 1} ≃ Fin k.reported.length :=
    { toFun := fun i => ⟨i.1, (hlt i.1).1 i.2⟩
      invFun := fun i => ⟨k.entry i, inuse_entry k info i⟩
      left_inv := fun _ => rfl
      right_inv := fun _ => rfl }
  refine ⟨⟨e.trans k.reportedEquiv, fun i => matches_entry k info (e i)⟩, fun i hi => ?_⟩
  rw [inuse_getpinfo]
  have hge := mt (hlt i).2 hi
  rw [if_neg hge]
  exact h i (not_lt.1 hge)

/-- If the entries in use can be numbered like the processes, no other entry is in use. -/
theorem cleared_of_describes (h : k.Describes (k.getpinfo info)) (i : Slot)
    (hi : k.reported.length ≤ i.val) : info.inuse i = 0 := by
  have hinuse := inuse_getpinfo k info i
  rw [if_neg (not_lt.2 hi)] at hinuse
  rw [← hinuse]
  refine h.other i fun hone => ?_
  obtain ⟨e, -⟩ := h.inuse
  -- there are as many entries as numbers, so each entry has a number
  let f : Fin k.reported.length → {i // (k.getpinfo info).inuse i = 1} :=
    fun i => ⟨k.entry i, inuse_entry k info i⟩
  have hinj : Function.Injective f := fun i j hij =>
    Fin.ext (congrArg (fun x => x.1.val) hij)
  have hsurj : Function.Surjective f :=
    (Finite.injective_iff_surjective_of_equiv (k.reportedEquiv.trans e.symm)).1 hinj
  obtain ⟨j, hj⟩ := hsurj ⟨i, hone⟩
  have hval : j.val = i.val := congrArg (fun x => x.1.val) hj
  omega

end Kernel

/-- **When `getpinfo` describes exactly the processes that are alive**: if no entry behind them was in
use. -/
theorem describes_getpinfo_iff (k : Kernel) (info : Pstat) : k.Describes (k.getpinfo info) ↔
    ∀ i : Slot, k.reported.length ≤ i.val → info.inuse i = 0 :=
  ⟨Kernel.cleared_of_describes, Kernel.describes_of_cleared⟩

/-- A buffer that has not been used. -/
def Pstat.zero : Pstat := ⟨fun _ => 0, fun _ => 0, fun _ => 0, fun _ => 0, fun _ => 0, fun _ => 0⟩

/-- Two processes, and later one of them. -/
def twoProcs : Kernel :=
  { userinit with
    proc := fun p => if p = 0 ∨ p = 1 then { Proc.zero with state := .sleeping, pid := p.val + 1 }
      else Proc.zero }

/-- **A process that has gone** is still in use in the buffer of an earlier call. -/
theorem not_describes_shrunk : twoProcs.Describes (twoProcs.getpinfo Pstat.zero) ∧
    ¬ userinit.Describes (userinit.getpinfo (twoProcs.getpinfo Pstat.zero)) := by
  constructor
  · exact Kernel.describes_of_cleared fun _ _ => rfl
  · intro h
    have := Kernel.cleared_of_describes h 1 (by decide +kernel)
    revert this
    decide +kernel

end Sched

end OperatingSystems

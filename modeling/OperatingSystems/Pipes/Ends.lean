import OperatingSystems.Pipes.Steps
import Mathlib.Data.Fintype.Prod

/-!
# The ends of the pipe

A process in `pipewrite` or `piperead` has a descriptor for its end, so an end is closed once, when nobody
uses it any more, and the page of the pipe is freed once, when both ends are closed.

* `Role` : what a process does with the pipe.
* `Ends` : **the invariant**: each end is referenced, or being closed by one process, or closed.
* `freed_of_run` : **the page is freed exactly once**, and nobody uses it afterwards.
-/

namespace OperatingSystems

namespace Pipes

variable {P Fd : Type} [DecidableEq P] [DecidableEq Fd]

/-- What a process does with the pipe -/
inductive Role
  | none
  /-- It calls the pipe through this end. -/
  | uses (w : Bool)
  | closes (w : Bool)
  | frees
  deriving DecidableEq

def Pc.role : Pc → Role
  | .client => .none
  | .write _ _ _ => .uses true
  | .writeSleep _ _ _ => .uses true
  | .read _ => .uses false
  | .readSleep _ => .uses false
  | .pipeclose w => .closes w
  | .kfree => .frees

@[simp] theorem role_wakeReader (pc : Pc) : (State.wakeReader pc).role = pc.role := by cases pc <;> rfl

@[simp] theorem role_wakeWriter (pc : Pc) : (State.wakeWriter pc).role = pc.role := by cases pc <;> rfl

def State.role (s : State P Fd) (p : P) : Role := (s.pc p).role

/-- The descriptors that lead to the pipe -/
def State.descriptors (s : State P Fd) (x : P × Fd) : Option Bool := s.ofile x.1 x.2

/-- **The ends of the pipe**: each one is referenced, or being closed by one process, or closed. -/
structure Ends (s : State P Fd) : Prop where
  uses : ∀ p w, s.role p = .uses w → ∃ fd, s.ofile p fd = some w
  closes : ∀ p w, s.role p = .closes w → s.ref w = 0 ∧ s.pipe.isOpen w = true
  closes_unique : ∀ p q w, s.role p = .closes w → s.role q = .closes w → p = q
  closed : ∀ w, s.pipe.isOpen w = false → s.ref w = 0
  closing : ∀ w, s.ref w = 0 → s.pipe.isOpen w = true → ∃ p, s.role p = .closes w
  frees : ∀ p, s.role p = .frees → (∀ w, s.pipe.isOpen w = false) ∧ s.freed = 0
  frees_unique : ∀ p q, s.role p = .frees → s.role q = .frees → p = q
  freed : s.freed = 0 ∨ s.freed = 1 ∧ ∀ w, s.pipe.isOpen w = false
  freeing : (∀ w, s.pipe.isOpen w = false) → s.freed = 0 → ∃ p, s.role p = .frees

variable {s s' s₁ : State P Fd} {p q : P} {fd fd' : Fd} {addr : Bytes} {n : ℤ} {i j : ℕ} {w : Bool}
  {pc : Pc} {e : Event P}

/-! ### Roles -/

omit [DecidableEq Fd] in
theorem role_goto : (s.goto p pc).role q = if q = p then pc.role else s.role q := by
  simp only [State.role, State.goto, Function.update_apply]
  split_ifs <;> rfl

omit [DecidableEq Fd] in
theorem role_ret : (s.ret p e).role q = if q = p then .none else s.role q := role_goto

omit [DecidableEq P] [DecidableEq Fd] in
@[simp] theorem role_wakeReaders : s.wakeReaders.role q = s.role q := role_wakeReader _

omit [DecidableEq P] [DecidableEq Fd] in
@[simp] theorem role_wakeWriters : s.wakeWriters.role q = s.role q := role_wakeWriter _

theorem role_eq_none : pc.role = .none ↔ pc = .client := by cases pc <;> simp [Pc.role]

omit [DecidableEq P] [DecidableEq Fd] in
theorem role_of_pc (hpc : s.pc p = pc) : s.role p = pc.role := by rw [State.role, hpc]

theorem copy_isOpen (x : Pipe) (k : ℕ) (w : Bool) : (x.copy k).1.isOpen w = x.isOpen w := by
  induction k generalizing x with
  | zero => rfl
  | succ k ih =>
    unfold Pipe.copy
    split_ifs
    · rfl
    · exact ih _

omit [DecidableEq P] [DecidableEq Fd] in
theorem Puts.isOpen (h : Puts p addr n s i s₁ j) (w : Bool) : s₁.pipe.isOpen w = s.pipe.isOpen w := by
  obtain ⟨hro, hwo, -⟩ := h.unchanged
  unfold Pipe.isOpen
  rw [hro, hwo]

theorem forall_isOpen (x : Pipe) :
    (∀ w, x.isOpen w = false) ↔ x.readopen = false ∧ x.writeopen = false :=
  Bool.forall_bool

omit [DecidableEq P] [DecidableEq Fd] in
theorem closeEnd_spec (s : State P Fd) (w : Bool) :
    (∀ v, (s.closeEnd w).pipe.isOpen v = if v = w then false else s.pipe.isOpen v) ∧
      (∀ q, (s.closeEnd w).role q = s.role q) ∧ (s.closeEnd w).ref = s.ref ∧
        (s.closeEnd w).ofile = s.ofile ∧ (s.closeEnd w).freed = s.freed := by
  cases w
  · exact ⟨fun v => by cases v <;> rfl, fun q => role_wakeWriter _, rfl, rfl, rfl⟩
  · exact ⟨fun v => by cases v <;> rfl, fun q => role_wakeReader _, rfl, rfl, rfl⟩

omit [DecidableEq Fd] in
theorem pipeclose_spec (s : State P Fd) (p : P) (w : Bool) :
    (∀ v, (s.pipeclose p w).pipe.isOpen v = if v = w then false else s.pipe.isOpen v) ∧
      (∀ q, (s.pipeclose p w).role q =
        if q = p then if ∀ v, (s.pipeclose p w).pipe.isOpen v = false then .frees else .none
        else s.role q) ∧
      (s.pipeclose p w).ref = s.ref ∧ (s.pipeclose p w).ofile = s.ofile ∧
        (s.pipeclose p w).freed = s.freed := by
  obtain ⟨hopen, hrole, href, hofile, hfreed⟩ := closeEnd_spec s w
  have heq : s.pipeclose p w = if ∀ v, (s.closeEnd w).pipe.isOpen v = false then
      (s.closeEnd w).goto p .kfree else (s.closeEnd w).goto p .client :=
    if_congr (forall_isOpen _).symm rfl rfl
  by_cases hall : ∀ v, (s.closeEnd w).pipe.isOpen v = false
  · rw [heq, if_pos hall]
    refine ⟨hopen, fun q => ?_, href, hofile, hfreed⟩
    rw [role_goto, hrole]
    exact if_congr Iff.rfl (if_pos hall).symm rfl
  · rw [heq, if_neg hall]
    refine ⟨hopen, fun q => ?_, href, hofile, hfreed⟩
    rw [role_goto, hrole]
    exact if_congr Iff.rfl (if_neg hall).symm rfl

/-! ### The steps -/

namespace Ends

omit [DecidableEq Fd] in
/-- A process begins a call through a descriptor that it has, goes on in it, or returns from it. -/
theorem calls (h : Ends s) (hopen : ∀ w, s'.pipe.isOpen w = s.pipe.isOpen w) (href : s'.ref = s.ref)
    (hofile : s'.ofile = s.ofile) (hfreed : s'.freed = s.freed) {r : Role}
    (hrole : ∀ q, s'.role q = if q = p then r else s.role q)
    (hp : s.role p = .none ∨ ∃ w, s.role p = .uses w)
    (hr : r = .none ∨ ∃ w fd, r = .uses w ∧ s.ofile p fd = some w) : Ends s' := by
  obtain ⟨huses, hcloses, hcu, hclosed, hclosing, hfrees, hfu, hfd, hfreeing⟩ := h
  have hcl : ∀ q w, s'.role q = .closes w ↔ s.role q = .closes w := fun q w => by grind
  have hfr : ∀ q, s'.role q = .frees ↔ s.role q = .frees := fun q => by grind
  refine ⟨fun q w hq => ?_, ?_, ?_, ?_, ?_, ?_, ?_, ?_, ?_⟩
  · rw [hrole] at hq
    rw [hofile]
    grind
  all_goals simp only [hcl, hfr, hopen, href, hfreed]
  all_goals assumption

/-- A descriptor more leads to an end that is referenced. -/
theorem filedup (h : Ends s) (href : 1 ≤ s.ref w) (hfd' : s.ofile q fd' = none) :
    Ends { s with
      ref := Function.update s.ref w (s.ref w + 1)
      ofile := Function.update s.ofile q (Function.update (s.ofile q) fd' (some w)) } := by
  refine ⟨fun p v hp => ?_, fun p v hp => ?_, h.closes_unique, fun v hv => ?_, fun v hv hopen => ?_,
    h.frees, h.frees_unique, h.freed, h.freeing⟩
  · obtain ⟨fd, hfd⟩ := h.uses p v hp
    refine ⟨fd, ?_⟩
    simp only [Function.update_apply]
    grind
  all_goals obtain rfl | hne := eq_or_ne v w
  · have hzero := (h.closes p v hp).1
    omega
  · exact ⟨(Function.update_of_ne hne ..).trans (h.closes p v hp).1, (h.closes p v hp).2⟩
  · have hzero := h.closed v hv
    omega
  · exact (Function.update_of_ne hne ..).trans (h.closed v hv)
  · simp only [Function.update_self] at hv
    omega
  · simp only [Function.update_of_ne hne] at hv
    exact h.closing v hv hopen

/-- A process that calls nothing closes a descriptor; there are others for the end. -/
theorem close (h : Ends s) (href : 1 < s.ref w) (hpc : s.pc p = .client) :
    Ends { s with
      ref := Function.update s.ref w (s.ref w - 1)
      ofile := Function.update s.ofile p (Function.update (s.ofile p) fd none) } := by
  have hrole : s.role p = .none := role_of_pc hpc
  refine ⟨fun q v hq => ?_, fun q v hq => ?_, h.closes_unique, fun v hv => ?_, fun v hv hopen => ?_,
    h.frees, h.frees_unique, h.freed, h.freeing⟩
  · obtain ⟨fd', hfd'⟩ := h.uses q v hq
    have hne : q ≠ p := fun heq => by
      subst heq
      rw [show s.role q = .uses v from hq] at hrole
      cases hrole
    exact ⟨fd', by simp only [Function.update_of_ne hne]; exact hfd'⟩
  all_goals obtain rfl | hne := eq_or_ne v w
  · have hzero := (h.closes q v hq).1
    omega
  · exact ⟨(Function.update_of_ne hne ..).trans (h.closes q v hq).1, (h.closes q v hq).2⟩
  · have hzero := h.closed v hv
    omega
  · exact (Function.update_of_ne hne ..).trans (h.closed v hv)
  · simp only [Function.update_self] at hv
    omega
  · simp only [Function.update_of_ne hne] at hv
    exact h.closing v hv hopen

/-- A process closes the last descriptor of an end, and goes on to close the end. -/
theorem closeLast (h : Ends s) (href : s.ref w = 1) (hpc : s.pc p = .client) :
    Ends ({ s with
      ref := Function.update s.ref w 0
      ofile := Function.update s.ofile p (Function.update (s.ofile p) fd none) }.goto p
        (.pipeclose w)) := by
  set s' : State P Fd := State.goto _ p (.pipeclose w) with hs'
  have hnone : s.role p = .none := role_of_pc hpc
  have hrole : ∀ q, s'.role q = if q = p then .closes w else s.role q := fun q => role_goto
  have hopen : ∀ v, s'.pipe.isOpen v = s.pipe.isOpen v := fun _ => rfl
  have hofile : ∀ q ≠ p, ∀ d, s'.ofile q d = s.ofile q d := fun q hq d =>
    congrFun (Function.update_of_ne hq ..) d
  have href' : ∀ v, s'.ref v = if v = w then 0 else s.ref v := fun v => Function.update_apply ..
  have hfreed : s'.freed = s.freed := rfl
  -- the end was referenced, so it is open and nobody else closes it
  have hw : s.pipe.isOpen w = true := by
    by_contra hclosed
    have hzero := h.closed w (Bool.eq_false_of_not_eq_true hclosed)
    omega
  clear hs'
  clear_value s'
  obtain ⟨huses, hcloses, hcu, hclosed, hclosing, hfrees, hfu, hfd, hfreeing⟩ := h
  constructor <;> simp only [hrole, hopen, href', hfreed] <;> grind

omit [DecidableEq Fd] in
/-- An end is closed, by the process that has closed its last descriptor. -/
theorem pipeclose (h : Ends s) (hpc : s.pc p = .pipeclose w) : Ends (s.pipeclose p w) := by
  have hcloser : s.role p = .closes w := role_of_pc hpc
  obtain ⟨hopen, hrole, href, hofile, hfreed⟩ := pipeclose_spec s p w
  generalize s.pipeclose p w = s' at *
  obtain ⟨huses, hcloses, hcu, hclosed, hclosing, hfrees, hfu, hfd, hfreeing⟩ := h
  constructor <;> simp only [hrole, hopen, href, hofile, hfreed] <;> grind

omit [DecidableEq Fd] in
/-- The page is freed. -/
theorem kfree (h : Ends s) (hpc : s.pc p = .kfree) :
    Ends { s.goto p .client with freed := s.freed + 1 } := by
  have hfreer : s.role p = .frees := role_of_pc hpc
  obtain ⟨hall, hzero⟩ := h.frees p hfreer
  have hrole : ∀ q, State.role { s.goto p .client with freed := s.freed + 1 } q =
      if q = p then .none else s.role q := fun q => role_goto
  generalize hs' : ({ s.goto p .client with freed := s.freed + 1 } : State P Fd) = s' at hrole ⊢
  have hopen : ∀ w, s'.pipe.isOpen w = s.pipe.isOpen w := hs' ▸ fun _ => rfl
  have hrest : s'.ref = s.ref ∧ s'.ofile = s.ofile ∧ s'.freed = s.freed + 1 := hs' ▸ ⟨rfl, rfl, rfl⟩
  obtain ⟨href, hofile, hfreed⟩ := hrest
  obtain ⟨huses, hcloses, hcu, hclosed, hclosing, hfrees, hfu, hfd, hfreeing⟩ := h
  clear hs'
  constructor <;> simp only [hrole, hopen, href, hofile, hfreed] <;> grind

variable [Fintype P] [Fintype Fd]

/-- **Each step keeps it.** -/
theorem next (h : Ends s) (hb : Refs.Balanced s.descriptors s.ref 0) (hs : Step s s') : Ends s' := by
  have hnone : ∀ {p}, s.pc p = .client → s.role p = .none ∨ ∃ w, s.role p = .uses w :=
    fun hpc => .inl (role_of_pc hpc)
  have huses : ∀ {p pc w}, s.pc p = pc → pc.role = .uses w → s.role p = .none ∨ ∃ w, s.role p = .uses w :=
    fun hpc hrole => .inr ⟨_, (role_of_pc hpc).trans hrole⟩
  cases hs with
  | refuseRead hpc hfd =>
    exact h.calls (fun _ => rfl) rfl rfl rfl (fun _ => role_ret) (hnone hpc) (.inl rfl)
  | callRead hpc hfd =>
    exact h.calls (fun _ => rfl) rfl rfl rfl (fun _ => role_goto) (hnone hpc) (.inr ⟨_, _, rfl, hfd⟩)
  | refuseWrite hpc hfd =>
    exact h.calls (fun _ => rfl) rfl rfl rfl (fun _ => role_ret) (hnone hpc) (.inl rfl)
  | callWrite hpc hfd =>
    exact h.calls (fun _ => rfl) rfl rfl rfl (fun _ => role_goto) (hnone hpc) (.inr ⟨_, _, rfl, hfd⟩)
  | @filedup p fd q fd' w hfd hfd' => exact h.filedup (hb.ref_pos (i := (p, fd)) hfd le_rfl) hfd'
  | close hpc hfd href => exact h.close href hpc
  | closeLast hpc hfd href => exact h.closeLast href hpc
  | @kill p =>
    have hrole : ∀ q, State.role { s with
        killed := Function.update s.killed p true
        pc := Function.update s.pc p (State.wakeReader (State.wakeWriter (s.pc p))) } q = s.role q :=
      fun q => by
        simp only [State.role, Function.update_apply]
        split_ifs with hq
        · rw [role_wakeReader, role_wakeWriter, hq]
        · rfl
    exact ⟨fun q w hq => h.uses q w (hrole q ▸ hq), fun q w hq => h.closes q w (hrole q ▸ hq),
      fun q q' w hq hq' => h.closes_unique q q' w (hrole q ▸ hq) (hrole q' ▸ hq'), h.closed,
      fun w hw hopen => (h.closing w hw hopen).imp fun q hq => (hrole q).trans hq,
      fun q hq => h.frees q (hrole q ▸ hq), fun q q' hq hq' => h.frees_unique q q' (hrole q ▸ hq) (hrole q' ▸ hq'),
      h.freed, fun hall hzero => (h.freeing hall hzero).imp fun q hq => (hrole q).trans hq⟩
  | wrote hpc hputs hj =>
    obtain ⟨-, -, href, hofile, -, hpcs, hfreed, -⟩ := hputs.unchanged
    refine h.calls hputs.isOpen href hofile hfreed (fun q => ?_) (huses hpc rfl) (.inl rfl)
    rw [role_ret, role_wakeReaders, State.role, hpcs]
    rfl
  | cut hpc hputs hj hfull hcut =>
    obtain ⟨-, -, href, hofile, -, hpcs, hfreed, -⟩ := hputs.unchanged
    refine h.calls hputs.isOpen href hofile hfreed (fun q => ?_) (huses hpc rfl) (.inl rfl)
    rw [role_ret, State.role, hpcs]
    rfl
  | @writeSleep p addr n i s₁ j hpc hputs hj hfull hopen =>
    obtain ⟨-, -, href, hofile, -, hpcs, hfreed, -⟩ := hputs.unchanged
    obtain ⟨fd, hfd⟩ := h.uses p true (role_of_pc hpc)
    refine h.calls hputs.isOpen href hofile hfreed (fun q => ?_) (huses hpc rfl) (.inr ⟨true, fd, rfl, hfd⟩)
    rw [role_goto, role_wakeReaders, State.role, hpcs]
    rfl
  | readKilled hpc =>
    exact h.calls (fun _ => rfl) rfl rfl rfl (fun _ => role_ret) (huses hpc rfl) (.inl rfl)
  | @readSleep p n hpc hempty hopen =>
    obtain ⟨fd, hfd⟩ := h.uses p false (role_of_pc hpc)
    exact h.calls (fun _ => rfl) rfl rfl rfl (fun _ => role_goto) (huses hpc rfl) (.inr ⟨false, fd, rfl, hfd⟩)
  | read hpc hready =>
    refine h.calls (copy_isOpen s.pipe _) rfl rfl rfl (fun q => ?_) (huses hpc rfl) (.inl rfl)
    rw [role_ret, role_wakeWriters]
    rfl
  | pipeclose hpc => exact h.pipeclose hpc
  | kfree hpc => exact h.kfree hpc

end Ends

/-! ### References -/

omit [DecidableEq P] [DecidableEq Fd] in
theorem Puts.balanced [Fintype P] [Fintype Fd] (h : Puts p addr n s i s₁ j) {s' : State P Fd}
    (hb : Refs.Balanced s.descriptors s.ref 0) (hs : s'.ref = s₁.ref) (hs' : s'.ofile = s₁.ofile) :
    Refs.Balanced s'.descriptors s'.ref 0 := by
  obtain ⟨-, -, href, hofile, -⟩ := h.unchanged
  unfold State.descriptors at hb ⊢
  rwa [hs, hs', href, hofile]

theorem descriptors_update (s : State P Fd) (p : P) (fd : Fd) (v : Option Bool) (ref : Bool → ℤ) :
    State.descriptors { s with
      ref := ref
      ofile := Function.update s.ofile p (Function.update (s.ofile p) fd v) } =
        Function.update s.descriptors (p, fd) v := by
  funext x
  obtain ⟨q, d⟩ := x
  simp only [State.descriptors, Function.update_apply, Prod.mk.injEq]
  split_ifs <;> grind

variable [Fintype P] [Fintype Fd]

omit [DecidableEq P] [DecidableEq Fd] in
/-- While a process is in `pipewrite` or `piperead`, its end is open. -/
theorem Ends.isOpen (h : Ends s) (hb : Refs.Balanced s.descriptors s.ref 0) (hp : s.role p = .uses w) :
    s.pipe.isOpen w = true := by
  by_contra hclosed
  obtain ⟨fd, hfd⟩ := h.uses p w hp
  have hzero : s.ref w = 0 := h.closed w (Bool.eq_false_of_not_eq_true hclosed)
  have hpos := hb.ref_pos (i := (p, fd)) hfd le_rfl
  omega

/-- **The references of the two files are counted right.** -/
theorem balanced_next (h : Refs.Balanced s.descriptors s.ref 0) (hs : Step s s') :
    Refs.Balanced s'.descriptors s'.ref 0 := by
  have hclose : ∀ {p fd w}, s.ofile p fd = some w → Refs.Balanced
      (Function.update s.descriptors (p, fd) none) (Function.update s.ref w (s.ref w - 1)) 0 :=
    fun {p fd w} hfd => by
      have hdrop := (h.clear (i := (p, fd)) hfd).drop w
      rwa [zero_add, sub_self] at hdrop
  cases hs with
  | @filedup p fd q fd' w hfd hfd' =>
    have hstore := (h.take w).store (i := (q, fd')) hfd' w
    rw [descriptors_update]
    rwa [zero_add, sub_self] at hstore
  | close hpc hfd href =>
    rw [descriptors_update]
    exact hclose hfd
  | @closeLast p fd w hpc hfd href =>
    have hbalanced := hclose hfd
    rw [href, sub_self, ← descriptors_update s p fd none (Function.update s.ref w 0)] at hbalanced
    exact hbalanced
  | wrote hpc hputs hj => exact hputs.balanced h rfl rfl
  | cut hpc hputs hj hfull hcut => exact hputs.balanced h rfl rfl
  | writeSleep hpc hputs hj hfull hopen => exact hputs.balanced h rfl rfl
  | @pipeclose p w hpc =>
    obtain ⟨-, -, href, hofile, -⟩ := pipeclose_spec s p w
    unfold State.descriptors at h ⊢
    rwa [href, hofile]
  | _ => exact h

omit [Fintype P] [Fintype Fd] in
theorem ends_pipealloc (p : P) (fd₀ fd₁ : Fd) (data : ℕ → UInt8) (killed : P → Bool) :
    Ends (pipealloc p fd₀ fd₁ data killed) := by
  have hrole : ∀ q, (pipealloc p fd₀ fd₁ data killed).role q = .none := fun _ => rfl
  have hopen : ∀ w, (pipealloc p fd₀ fd₁ data killed).pipe.isOpen w = true := fun w => by cases w <;> rfl
  constructor <;> simp only [hrole, hopen] <;> simp [pipealloc]

theorem balanced_pipealloc (p : P) {fd₀ fd₁ : Fd} (hfd : fd₀ ≠ fd₁) (data : ℕ → UInt8)
    (killed : P → Bool) : Refs.Balanced (pipealloc p fd₀ fd₁ data killed).descriptors
      (pipealloc p fd₀ fd₁ data killed).ref 0 := by
  -- the two files that `filealloc` gives are stored in the two descriptors
  have hnone : Refs.Balanced (fun _ : P × Fd => (none : Option Bool)) (fun _ => 1)
      (Pi.single false 1 + Pi.single true 1) := fun w => by
    cases w <;> simp [Refs.holders]
  have hread := hnone.store (i := (p, fd₀)) rfl false
  have hwrite := hread.store (i := (p, fd₁)) (by simp [hfd.symm]) true
  rw [add_sub_cancel_left, sub_self] at hwrite
  have hdescriptors : (pipealloc p fd₀ fd₁ data killed).descriptors = Function.update
      (Function.update (fun _ : P × Fd => (none : Option Bool)) (p, fd₀) (some false)) (p, fd₁)
        (some true) := by
    funext x
    obtain ⟨q, fd⟩ := x
    simp only [pipealloc, State.descriptors, Function.update_apply, Prod.mk.injEq]
    split_ifs <;> grind
  rw [hdescriptors]
  exact hwrite

theorem ends_of_run {p₀ : P} {fd₀ fd₁ : Fd} {data : ℕ → UInt8} {killed : P → Bool}
    {ls : List (Label P Fd)} (hfd : fd₀ ≠ fd₁)
    (h : (pipes P Fd).run (pipealloc p₀ fd₀ fd₁ data killed) ls = some s) :
    Ends s ∧ Refs.Balanced s.descriptors s.ref 0 := by
  refine Machine.run_invariant (I := fun s => Ends s ∧ Refs.Balanced s.descriptors s.ref 0) h
    ⟨ends_pipealloc .., balanced_pipealloc p₀ hfd data killed⟩ fun s lbl s' ⟨he, hb⟩ hnext => ?_
  have hstep := step_of_next hnext
  exact ⟨he.next hb hstep, balanced_next hb hstep⟩

/-- **The page of the pipe is freed exactly once**: in every run it is freed if no process has a descriptor
for the pipe or is still in its code, and only then. -/
theorem freed_of_run {p₀ : P} {fd₀ fd₁ : Fd} {data : ℕ → UInt8} {killed : P → Bool}
    {ls : List (Label P Fd)} (hfd : fd₀ ≠ fd₁)
    (h : (pipes P Fd).run (pipealloc p₀ fd₀ fd₁ data killed) ls = some s) :
    s.freed = (if ∀ p, s.idle p ∧ ∀ fd, s.ofile p fd = none then 1 else 0) ∧
      ∀ p fd w, s.ofile p fd = some w → 1 ≤ s.ref w := by
  obtain ⟨he, hb⟩ := ends_of_run hfd h
  refine ⟨?_, fun p fd w hw => hb.ref_pos (i := (p, fd)) hw le_rfl⟩
  have hnobody : ∀ w, s.ref w = 0 ↔ ∀ p fd, s.ofile p fd ≠ some w := fun w => by
    rw [hb.ref_eq_zero, Refs.holders_eq_empty, Prod.forall]
    rfl
  split_ifs with hgone
  · -- both ends are closed, and nobody is left to free the page
    have hrole : ∀ p, s.role p = .none := fun p => role_of_pc (idle_iff.1 (hgone p).1)
    have hclosed : ∀ w, s.pipe.isOpen w = false := fun w => by
      by_contra hopen
      obtain ⟨p, hp⟩ := he.closing w ((hnobody w).2 fun p fd => by simp [(hgone p).2 fd])
        (Bool.eq_true_of_not_eq_false hopen)
      rw [hrole] at hp
      cases hp
    rcases he.freed with hzero | ⟨hone, -⟩
    · obtain ⟨p, hp⟩ := he.freeing hclosed hzero
      rw [hrole] at hp
      cases hp
    · exact hone
  · refine he.freed.resolve_right fun ⟨hone, hclosed⟩ => hgone fun p => ?_
    have hfds : ∀ fd, s.ofile p fd = none := fun fd =>
      Option.eq_none_iff_forall_ne_some.2 fun w => (hnobody w).1 (he.closed w (hclosed w)) p fd
    refine ⟨idle_iff.2 (role_eq_none.1 ?_), hfds⟩
    cases hp : s.role p with
    | none => exact hp
    | uses w =>
      obtain ⟨fd, hfd⟩ := he.uses p w hp
      rw [hfds fd] at hfd
      cases hfd
    | closes w =>
      have hopen := (he.closes p w hp).2
      rw [hclosed w] at hopen
      cases hopen
    | frees =>
      have hzero := (he.frees p hp).2
      omega

/-- The process that made the pipe closes both ends. -/
theorem freed_of_run_closed : ∃ s, (pipes Bool Bool).run
    (pipealloc true false true (fun _ => 0) fun _ => false)
    [.close true false, .advance true, .close true true, .advance true, .advance true] = some s ∧
      s.freed = 1 := by
  have hrun : (pipes Bool Bool).run (pipealloc true false true (fun _ => 0) fun _ => false)
    [.close true false, .advance true, .close true true, .advance true, .advance true] = some _ := rfl
  exact ⟨_, hrun, (freed_of_run (by decide) hrun).1⟩

end Pipes

end OperatingSystems

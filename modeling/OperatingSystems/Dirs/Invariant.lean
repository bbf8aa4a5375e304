import OperatingSystems.Dirs.Calls
import OperatingSystems.Custody.Basic
import Mathlib.Data.Fintype.Basic
import Mathlib.Data.Finset.Dedup

/-!
# What the processes hold

Each place in the code holds references and locks, and owes links.  The invariant is stated with what the
running process holds at the moment as a parameter, so that there is one rule for each function of the code.

* `Hold`, `Pc.hold` : what a process holds.
* `refs`, `entries`, `subdirs`, `owed` : how often an inode is referenced, named, named by a subdirectory, and
  how many links to it are owed.
* `Memory`, `Books` : what is known of the inodes in memory, and of the links.
* `Good`, `Inv` : **the invariant**, while the process `p` holds `H`, and between the steps.
-/

namespace OperatingSystems

namespace Dirs

open Custody

/-- What a process holds -/
structure Hold where
  refs : List ℕ := []
  locked : List ℕ := []
  /-- The inodes that it has counted a link to, in `sys_link`, and not written one -/
  links : List ℕ := []
  /-- The inodes that it counts a link to, in `sys_unlink` and `create`, and that is erased or not written -/
  unlinks : List ℕ := []
  /-- What it has seen to be a directory -/
  dirs : List ℕ := []
  /-- The directory, the inode and the number of the entry that `sys_unlink` is about to erase -/
  entry : Option (ℕ × ℕ × ℕ) := none

/-- What is locked or relied on is referred to. -/
structure Hold.Ok (H : Hold) : Prop where
  locked : H.locked ⊆ H.refs
  dirs : H.dirs ⊆ H.refs
  unlinks : H.unlinks ⊆ H.locked
  entry : ∀ x, H.entry = some x → x.1 ∈ H.locked

/-- The links that a process has counted and not written -/
def Hold.owed (H : Hold) : List ℕ := H.links ++ H.unlinks

variable {R K L : List ℕ} {H : Hold}

theorem Hold.ok_of (hlocked : H.locked ⊆ H.refs) (hdirs : H.dirs ⊆ H.refs) (hunlinks : H.unlinks ⊆ H.locked)
    (hentry : H.entry = none) : H.Ok :=
  ⟨hlocked, hdirs, hunlinks, fun x hx => by rw [hentry] at hx; cases hx⟩

theorem Hold.ok_locked (h : K ⊆ R) : ({ refs := R, locked := K, links := L } : Hold).Ok :=
  Hold.ok_of h (List.nil_subset _) (List.nil_subset _) rfl

theorem Hold.ok_unlocked : ({ refs := R, links := L } : Hold).Ok := Hold.ok_locked (List.nil_subset _)

/-- A further reference does no harm. -/
theorem Hold.Ok.cons (h : ({ H with refs := R, locked := K } : Hold).Ok) (i : ℕ) :
    ({ H with refs := i :: R, locked := K } : Hold).Ok :=
  ⟨fun _ hj => List.mem_cons_of_mem i (h.locked hj), fun _ hj => List.mem_cons_of_mem i (h.dirs hj), h.unlinks,
    h.entry⟩

variable {P F : Type}

/-- The inode that a walk holds beside its own -/
def Found.refs : Found → List ℕ
  | .linkNew ip => [ip]
  | _ => []

/-- What a process holds at each place in the code -/
def Pc.hold : Pc F → Hold
  | .client _ => {}
  | .walk ip _ found => { refs := ip :: found.refs, links := found.refs }
  | .put ip next => { next.hold with refs := ip :: next.hold.refs }
  | .unlockput ip next => { next.hold with refs := ip :: next.hold.refs, locked := ip :: next.hold.locked }
  | .linkInc ip _ => { refs := [ip] }
  | .linkDir ip dp _ => { refs := [dp, ip], links := [ip], dirs := [dp] }
  | .linkBad ip => { refs := [ip], links := [ip] }
  | .unlinkDir dp _ => { refs := [dp], dirs := [dp] }
  | .unlinkIp dp ip off => { refs := [ip, dp], locked := [dp], dirs := [dp], entry := some (dp, ip, off) }
  | .unlinkDec ip => { refs := [ip], locked := [ip], unlinks := [ip] }
  | .createDir dp _ _ _ => { refs := [dp], dirs := [dp] }
  | .createOld ip _ _ => { refs := [ip] }
  | .created ip _ => { refs := [ip], locked := [ip] }
  | .openIp ip _ => { refs := [ip] }
  | .chdirIp ip => { refs := [ip] }

/-- What comes behind an `iput` does not need the inode. -/
def Pc.Ok : Pc F → Prop
  | .put _ next => next.hold.Ok ∧ next.hold.locked = [] ∧ next.Ok
  | .unlockput _ next => next.hold.Ok ∧ next.Ok
  | _ => True

/-- How often an entry leads to an inode -/
def entries (n : ℕ) (s : State P F) (i : ℕ) : ℕ :=
  (holdings (List.range n) fun d => targets (s.ino d).ents).count i

/-- An inode is a directory. -/
def State.isdir (s : State P F) (i : ℕ) : Bool := (s.ino i).type = some .dir

/-- How many entries of a directory lead to directories -/
def subdirs (s : State P F) (i : ℕ) : ℕ := (targets (s.ino i).ents).countP s.isdir

/-- What a process relies on -/
structure State.Rely (s : State P F) (H : Hold) : Prop where
  links : ∀ i ∈ H.links, (s.ino i).type ≠ some .dir ∧ (s.ino i).type ≠ none
  dirs : ∀ i ∈ H.dirs, (s.ino i).type = some .dir
  entry : ∀ d i off, H.entry = some (d, i, off) →
    2 ≤ off ∧ i ≠ 0 ∧ ∃ name, (s.ino d).ents[off]? = some ⟨i, name⟩

theorem State.rely_of {s : State P F} (hlinks : ∀ i ∈ H.links, (s.ino i).type ≠ some .dir ∧ (s.ino i).type ≠ none)
    (hdirs : ∀ i ∈ H.dirs, (s.ino i).type = some .dir) (hentry : H.entry = none) : s.Rely H :=
  ⟨hlinks, hdirs, fun d i off hx => by rw [hentry] at hx; cases hx⟩

/-- Nothing is relied on. -/
theorem State.rely_nil {s : State P F} : s.Rely { refs := R, locked := K, unlinks := L } :=
  State.rely_of (fun _ hi => absurd hi List.not_mem_nil) (fun _ hi => absurd hi List.not_mem_nil) rfl

variable [Fintype P] [Fintype F]

/-- How many references to an inode there are -/
noncomputable def refs (s : State P F) (held : P → Hold) (i : ℕ) : ℕ :=
  (holdings Finset.univ.toList fun q => (held q).refs ++ (s.cwd q).toList).count i +
    (holdings Finset.univ.toList fun f => (s.files f).toList).count i

/-- How many links to an inode are counted without an entry -/
noncomputable def owed (held : P → Hold) (i : ℕ) : ℕ := (holdings Finset.univ.toList fun q => (held q).owed).count i

/-- What is known of the locks -/
structure Locks (busy : ℕ → Option P) (locked : P → List ℕ) : Prop where
  iff : ∀ q i, busy i = some q ↔ i ∈ locked q
  nodup : ∀ q, (locked q).Nodup

/-- What is known of the inodes in memory -/
structure Memory (s : State P F) (held : P → Hold) : Prop where
  ref : ∀ i, (s.ino i).ref = refs s held i
  locks : Locks s.busy fun q => (held q).locked
  ok : ∀ q, (held q).Ok
  busy : ∀ i, s.busy i ≠ none → (s.ino i).valid = true
  valid : ∀ i, (s.ino i).valid = true → (s.ino i).type ≠ none
  /-- An inode without links is in use, so that the last `iput` frees it. -/
  alive : ∀ i, (s.ino i).type ≠ none → (s.ino i).nlink = 0 → 0 < (s.ino i).ref ∧ (s.ino i).valid = true

/-- What is known of the links -/
structure Books (n : ℕ) (s : State P F) (held : P → Hold) : Prop where
  nlink : ∀ i ≠ 0, (s.ino i).nlink =
    entries n s i + subdirs s i + owed held i + s.lost i + if i = ROOTINO then 1 else 0
  free : ∀ i, (s.ino i).type = none → (s.ino i).nlink = 0 ∧ (s.ino i).ents = []
  inum : ∀ i, (s.ino i).type ≠ none → i ≠ 0 ∧ i < n
  shaped : ∀ i, (s.ino i).type = some .dir → ∃ up, Shaped (s.ino i).ents i up
  plain : ∀ i, (s.ino i).type ≠ some .dir → (s.ino i).ents = []
  /-- `..` leads back. -/
  up : ∀ d, ∀ j ∈ targets (s.ino d).ents, (s.ino j).type = some .dir → Shaped (s.ino j).ents j d
  /-- A directory has one name. -/
  once : ∀ i, (s.ino i).type = some .dir → entries n s i + owed held i + (if i = ROOTINO then 1 else 0) ≤ 1
  rely : ∀ q, s.Rely (held q)
  /-- As long as nothing is written to a directory without links, a directory without a name is empty. -/
  orphan : s.strayed = false →
    (∀ i, s.lost i = 0) ∧ ∀ d ≠ ROOTINO, entries n s d = 0 → targets (s.ino d).ents = []
  /-- No directory is below itself. -/
  tree : ∃ rank : ℕ → ℕ, ∀ d, ∀ j ∈ targets (s.ino d).ents, (s.ino j).type = some .dir → rank d < rank j

variable [DecidableEq P]

/-- What the processes hold, the process `p` aside -/
def holds (s : State P F) (p : P) (H : Hold) : P → Hold :=
  Function.update (fun q => (s.pc q).hold) p H

/-- **The invariant**, while the process `p` holds `H` -/
structure Good (n : ℕ) (s : State P F) (p : P) (H : Hold) : Prop where
  memory : Memory s (holds s p H)
  books : Books n s (holds s p H)
  pcs : ∀ q ≠ p, (s.pc q).Ok

/-- **The invariant** between the steps -/
structure Inv (n : ℕ) (s : State P F) : Prop where
  memory : Memory s fun q => (s.pc q).hold
  books : Books n s fun q => (s.pc q).hold
  pcs : ∀ q, (s.pc q).Ok

/-- The same processes, and the same on the disk -/
structure Same (s s' : State P F) : Prop where
  pc : s'.pc = s.pc
  type : ∀ j, (s'.ino j).type = (s.ino j).type
  nlink : ∀ j, (s'.ino j).nlink = (s.ino j).nlink
  ents : ∀ j, (s'.ino j).ents = (s.ino j).ents
  lost : s'.lost = s.lost
  strayed : s'.strayed = false → s.strayed = false

variable {n i j d : ℕ} {s s' : State P F} {p q : P} {H' : Hold} {x : Inode}

/-! ### Counting -/

omit [Fintype P] [Fintype F]

theorem holds_self (s : State P F) (p : P) (H : Hold) : holds s p H p = H := Function.update_self ..

theorem holds_of_ne (H H' : Hold) (h : q ≠ p) : holds s p H q = holds s p H' q := by
  rw [holds, holds, Function.update_of_ne h, Function.update_of_ne h]

theorem holds_congr (hpc : s'.pc = s.pc) : holds s' p H = holds s p H := by rw [holds, holds, hpc]

/-- What holds for all processes after a step of one -/
theorem forall_holds {φ : Hold → Prop} (hp : φ H') (h : ∀ q ≠ p, φ (holds s p H q)) (q : P) :
    φ (holds s p H' q) := by
  obtain rfl | hq := eq_or_ne q p
  · rwa [holds_self]
  · rw [holds_of_ne H' H hq]
    exact h q hq

/-- What comes next in the code -/
theorem holds_goto (s : State P F) (p : P) (pc : Pc F) :
    (fun q => ((s.goto p pc).pc q).hold) = holds s p pc.hold := by
  funext q
  change (Function.update s.pc p pc q).hold = _
  rw [holds, Function.update_apply, Function.update_apply]
  split_ifs <;> rfl

theorem holds_pc (s : State P F) (p : P) : holds s p (s.pc p).hold = fun q => (s.pc q).hold :=
  Function.update_eq_self p fun q => (s.pc q).hold

/-- The balance of one process -/
theorem count_holds [Fintype P] (s : State P F) (p : P) (H H' : Hold) (i : ℕ) (f : Hold → List ℕ)
    (g g' : P → List ℕ) (hg : ∀ q ≠ p, g' q = g q) :
    (holdings Finset.univ.toList fun q => f (holds s p H' q) ++ g' q).count i + (f H ++ g p).count i =
      (holdings Finset.univ.toList fun q => f (holds s p H q) ++ g q).count i + (f H' ++ g' p).count i := by
  have heq : (fun q => f (holds s p H' q) ++ g' q) =
      Function.update (fun q => f (holds s p H q) ++ g q) p (f H' ++ g' p) := by
    funext q
    rw [Function.update_apply]
    split_ifs with hq
    · rw [hq, holds_self]
    · rw [holds_of_ne H' H hq, hg q hq]
  have hcount := count_update (Finset.nodup_toList Finset.univ) (Finset.mem_toList.2 (Finset.mem_univ p))
    (fun q => f (holds s p H q) ++ g q) (f H' ++ g' p) i
  rw [heq]
  simpa only [holds_self] using hcount

theorem refs_holds [Fintype P] [Fintype F] (s : State P F) (p : P) (H H' : Hold) (i : ℕ) :
    refs s (holds s p H') i + H.refs.count i = refs s (holds s p H) i + H'.refs.count i := by
  have hcount := count_holds s p H H' i Hold.refs (fun q => (s.cwd q).toList) _ fun _ _ => rfl
  simp only [List.count_append] at hcount
  unfold refs
  omega

theorem owed_holds [Fintype P] (s : State P F) (p : P) (H H' : Hold) (i : ℕ) :
    owed (holds s p H') i + H.owed.count i = owed (holds s p H) i + H'.owed.count i := by
  have hcount := count_holds s p H H' i Hold.owed (fun _ => []) _ fun _ _ => rfl
  unfold owed
  simpa only [List.append_nil] using hcount

omit [DecidableEq P] in
theorem mem_holds [Fintype P] {f : P → List ℕ} (h : i ∈ f q) : 0 < (holdings Finset.univ.toList f).count i :=
  List.count_pos_iff.2 (mem_holdings.2 ⟨q, Finset.mem_toList.2 (Finset.mem_univ q), h⟩)

omit [DecidableEq P] in
/-- Only the references and the locks change. -/
theorem same_of_ino (ref : ℕ) (valid : Bool) (hino : s'.ino = (s.set i { s.ino i with ref := ref, valid := valid }).ino)
    (hpc : s'.pc = s.pc) (hlost : s'.lost = s.lost) (hstrayed : s'.strayed = s.strayed) : Same s s' := by
  have hj : ∀ j, s'.ino j = if j = i then { s.ino i with ref := ref, valid := valid } else s.ino j := fun j => by
    rw [hino]
    exact Function.update_apply ..
  refine ⟨hpc, fun j => ?_, fun j => ?_, fun j => ?_, hlost, fun h => hstrayed ▸ h⟩ <;> rw [hj] <;> split_ifs with h
  · rw [h]
  · rfl
  · rw [h]
  · rfl
  · rw [h]
  · rfl

omit [DecidableEq P] in
theorem ino_set (s : State P F) (i j : ℕ) (x : Inode) : (s.set i x).ino j = if j = i then x else s.ino j :=
  Function.update_apply ..

/-! ### Locks -/

namespace Locks

variable {busy : ℕ → Option P} {locked : P → List ℕ}

theorem take (h : Locks busy locked) (p : P) (hi : busy i = none) :
    Locks (Function.update busy i (some p)) (Function.update locked p (i :: locked p)) := by
  have hnot : ∀ q, i ∉ locked q := fun q hmem => by
    rw [← h.iff, hi] at hmem
    cases hmem
  refine ⟨fun q j => ?_, fun q => ?_⟩ <;> rw [Function.update_apply]
  · rw [Function.update_apply]
    split_ifs with hj hq hq
    · simp [hj, hq]
    · simp [hj, Ne.symm hq, hnot q]
    · rw [h.iff, hq, List.mem_cons, or_iff_right hj]
    · exact h.iff q j
  · split_ifs with hq
    · exact List.nodup_cons.2 ⟨hnot p, h.nodup p⟩
    · exact h.nodup q

theorem release (h : Locks busy locked) (hp : locked p = i :: K) :
    Locks (Function.update busy i none) (Function.update locked p K) := by
  have hnodup := h.nodup p
  rw [hp, List.nodup_cons] at hnodup
  have hi : busy i = some p := (h.iff p i).2 (hp ▸ List.mem_cons_self)
  refine ⟨fun q j => ?_, fun q => ?_⟩ <;> rw [Function.update_apply]
  · rw [Function.update_apply]
    split_ifs with hj hq hq
    · simp [hj, hnodup.1]
    · rw [hj, ← h.iff, hi]
      simp [Ne.symm hq]
    · rw [h.iff, hq, hp, List.mem_cons, or_iff_right hj]
    · exact h.iff q j
  · split_ifs with hq
    · exact hnodup.2
    · exact h.nodup q

end Locks

theorem locked_holds (s : State P F) (p : P) (H H' : Hold) :
    (fun q => (holds s p H' q).locked) = Function.update (fun q => (holds s p H q).locked) p H'.locked := by
  funext q
  rw [Function.update_apply]
  split_ifs with hq
  · rw [hq, holds_self]
  · rw [holds_of_ne H' H hq]

/-- Nothing is locked or released. -/
theorem locked_same (h : H'.locked = H.locked) :
    (fun q => (holds s p H' q).locked) = fun q => (holds s p H q).locked := by
  rw [locked_holds s p H H', h]
  exact Function.update_eq_iff.2 ⟨by rw [holds_self], fun _ _ => rfl⟩

end Dirs

end OperatingSystems

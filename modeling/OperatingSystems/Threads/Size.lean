import OperatingSystems.Threads.Effect

/-!
# The size of a shared address space

The threads of an address space should agree on its size: `growproc` maps pages from the size of the
process that calls it, and panics at a page that another thread mapped before.  `growproc` gives the
new size to the threads that the caller created, but not to the caller's own creator, nor to threads
that were created by its threads or passed to `initproc`.

* `SizesAgree` : live entries with the same directory have the same size.
* `GrowsAll` : whoever changes the size of an address space created all the others in it.
* `sizesAgree_iff` : the sizes agree all along a run if and only if every step is `GrowsAll`.
-/

namespace OperatingSystems

namespace Threads

open Kernel

/-- Any two live entries with the same page directory have the same size. -/
def SizesAgree (v : Slot → View) : Prop :=
  ∀ q r, Live v q → Live v r → (v q).pgdir = (v r).pgdir → (v q).sz = (v r).sz

/-- If the call changes the size of an address space, then its caller is the parent of every other
live entry with that address space. -/
def GrowsAll (k : Kernel) (l : Call) : Prop :=
  ∀ p n mem, l = .growproc p n mem → k.Resizes p n mem →
    ∀ q, q ≠ p → Live k.view q → (k.view q).pgdir = (k.view p).pgdir →
      (k.view q).parent = some p

theorem growsAll_of_ne {k : Kernel} {l : Call} (h : ∀ p n mem, l ≠ .growproc p n mem) :
    GrowsAll k l :=
  fun p n mem he => absurd he (h p n mem)

namespace SizesAgree

variable {v : Slot → View} {p : Slot}

/-- An entry with a directory that nobody else has. -/
theorem update_fresh (h : SizesAgree v) {w : View} (hw : ∀ q, q ≠ p → (v q).pgdir ≠ w.pgdir) :
    SizesAgree (Function.update v p w) := by
  intro q r hq hr hd
  by_cases hqp : q = p <;> by_cases hrp : r = p
  · rw [hqp, hrp]
  · rw [hqp, Function.update_self, Function.update_of_ne hrp] at hd
    exact absurd hd.symm (hw r hrp)
  · rw [hrp, Function.update_self, Function.update_of_ne hqp] at hd
    exact absurd hd (hw q hqp)
  · simp only [Live, Function.update_of_ne hqp, Function.update_of_ne hrp] at hq hr hd ⊢
    exact h q r hq hr hd

/-- An entry that takes directory and size of a live one. -/
theorem update_copy (h : SizesAgree v) (hp : Live v p) {np : Slot} {w : View}
    (hd : w.pgdir = (v p).pgdir) (hsz : w.sz = (v p).sz) : SizesAgree (Function.update v np w) := by
  intro q r hq hr he
  by_cases hqn : q = np <;> by_cases hrn : r = np
  · rw [hqn, hrn]
  · simp only [Live, hqn, Function.update_self, Function.update_of_ne hrn] at hr he ⊢
    rw [hsz]; exact h p r hp hr (hd ▸ he)
  · simp only [Live, hrn, Function.update_self, Function.update_of_ne hqn] at hq he ⊢
    rw [hsz]; exact h q p hq hp (hd ▸ he)
  · simp only [Live, Function.update_of_ne hqn, Function.update_of_ne hrn] at hq hr he ⊢
    exact h q r hq hr he

/-- Fewer live entries, with the directories and sizes they had. -/
theorem of_live (h : SizesAgree v) {v' : Slot → View}
    (hl : ∀ q, Live v' q → Live v q ∧ (v' q).pgdir = (v q).pgdir ∧ (v' q).sz = (v q).sz) :
    SizesAgree v' := by
  intro q r hq hr he
  obtain ⟨hq, hqd, hqs⟩ := hl q hq
  obtain ⟨hr, hrd, hrs⟩ := hl r hr
  rw [hqs, hrs]
  exact h q r hq hr (by rw [← hqd, ← hrd, he])

/-- `growproc` keeps the agreement if and only if it reaches everybody, or changes nothing. -/
theorem resize_iff (h : SizesAgree v) (hp : Live v p) {sz : ℕ} :
    SizesAgree (resizeView v p sz) ↔ sz = (v p).sz ∨
      ∀ q, q ≠ p → Live v q → (v q).pgdir = (v p).pgdir → (v q).parent = some p := by
  have hlive : ∀ q, Live (resizeView v p sz) q ↔ Live v q := fun q => by
    unfold Live
    rw [(resizeView_eq v p sz q).1, (resizeView_eq v p sz q).2.1]
  have hdir : ∀ q, (resizeView v p sz q).pgdir = (v q).pgdir :=
    fun q => (resizeView_eq v p sz q).2.2.2
  have hin : ∀ q, q = p ∨ ((v q).used ∧ (v q).parent = some p ∧ (v q).pgdir = (v p).pgdir) →
      (resizeView v p sz q).sz = sz := fun q hq => by rw [resizeView, if_pos hq]
  have hout : ∀ q, ¬ (q = p ∨ ((v q).used ∧ (v q).parent = some p ∧ (v q).pgdir = (v p).pgdir)) →
      (resizeView v p sz q).sz = (v q).sz := fun q hq => by rw [resizeView, if_neg hq]
  constructor
  · intro hs
    by_contra hcon
    push Not at hcon
    obtain ⟨hne, q, hqp, hq, hqd, hpar⟩ := hcon
    refine hne ?_
    have := hs p q ((hlive p).2 hp) ((hlive q).2 hq) (by rw [hdir, hdir, hqd])
    rw [hin p (Or.inl rfl), hout q (by tauto)] at this
    rw [this]
    exact h q p hq hp hqd
  · intro hs
    -- the live entries with the directory of `p` have the size `sz`, and the others their own
    have hsz : ∀ q, Live v q → (v q).pgdir = (v p).pgdir → (resizeView v p sz q).sz = sz := by
      intro q hq hqd
      rcases hs with rfl | hs
      · by_cases hc : q = p ∨ ((v q).used ∧ (v q).parent = some p ∧ (v q).pgdir = (v p).pgdir)
        · exact hin q hc
        · rw [hout q hc]; exact h q p hq hp hqd
      · rcases eq_or_ne q p with rfl | hqp
        · exact hin q (Or.inl rfl)
        · exact hin q (Or.inr ⟨hq.1, hs q hqp hq hqd, hqd⟩)
    intro q r hq hr he
    rw [hlive] at hq hr
    rw [hdir, hdir] at he
    by_cases hqd : (v q).pgdir = (v p).pgdir
    · rw [hsz q hq hqd, hsz r hr (he ▸ hqd)]
    · have hrd : (v r).pgdir ≠ (v p).pgdir := he ▸ hqd
      have hnq : q ≠ p := by rintro rfl; exact hqd rfl
      have hnr : r ≠ p := by rintro rfl; exact hrd rfl
      rw [hout q (by tauto), hout r (by tauto)]
      exact h q r hq hr he

end SizesAgree

/-- A step between states in which the sizes agree is one that `GrowsAll`, and conversely. -/
theorem sizesAgree_next {k k' : Kernel} {l : Call} (ht : Tree k.view k.pgdirs)
    (hs : SizesAgree k.view) (h : kernel.next k l = some k') :
    SizesAgree k'.view ↔ GrowsAll k l := by
  have hfresh : ∀ q, (k.view q).pgdir ≠ k.pgdirs + 1 := fun q => by
    have := ht.pgdir_le q
    omega
  cases effect_of_next ht h with
  | quiet hv _ hg =>
    rw [hv]
    exact iff_of_true hs fun p n mem he hr => absurd hr (hg p n mem he)
  | fork _ _ hv =>
    rw [hv]
    exact iff_of_true (hs.update_fresh fun q _ => hfresh q) (growsAll_of_ne nofun)
  | clone hp _ hv =>
    rw [hv]
    exact iff_of_true (hs.update_copy hp rfl rfl) (growsAll_of_ne nofun)
  | @growproc p n mem sz _ hp _ hv hres hsame =>
    rw [hv, hs.resize_iff hp]
    by_cases hr : k.Resizes p n mem
    · have hne : sz ≠ (k.view p).sz := by
        have := hres hr
        rcases hr with hr | hr <;> omega
      simp only [hne, false_or]
      constructor
      · rintro hall p' n' mem' he -
        cases he
        exact hall
      · exact fun hg => hg p n mem rfl hr
    · refine iff_of_true (Or.inl (hsame hr)) fun p' n' mem' he hr' => ?_
      cases he
      exact absurd hr' hr
  | exec _ _ hv =>
    rw [hv]
    exact iff_of_true (hs.update_fresh fun q _ => hfresh q) (growsAll_of_ne nofun)
  | @exit p _ d _ _ _ hv =>
    rw [hv]
    refine iff_of_true (hs.of_live fun q hq => ?_) (growsAll_of_ne nofun)
    rcases eq_or_ne q p with rfl | hqp
    · simp [Live, exitView] at hq
    · simpa [Live, exitView, hqp] using hq
  | @reap l p q _ hl _ hv =>
    rw [hv]
    refine iff_of_true (hs.of_live fun r hr => ?_) (growsAll_of_ne ?_)
    · rcases eq_or_ne r q with rfl | hrq
      · simp [Live, freeView] at hr
      · simpa [Live, hrq] using hr
    · rintro p' n mem rfl
      rcases hl with hl | hl <;> cases hl

/-- **The sizes of shared address spaces agree all along a run if and only if every change of the
size is made by the creator of all the others.** -/
theorem sizesAgree_iff {ls : List Call} {k : Kernel} (h : kernel.run userinit ls = some k) :
    kernel.Always (fun k => SizesAgree k.view) userinit ls ↔
      kernel.Allowed GrowsAll userinit ls := by
  refine Machine.always_iff_allowed (I := fun k => Tree k.view k.pgdirs)
    (fun _ _ _ => tree_of_next) (fun k l k' => sizesAgree_next) h tree_userinit ?_
  -- at the start there is only one process
  have hone : ∀ q, Live userinit.view q → q = initproc := fun q hq => by
    by_contra hqi
    simp [Live, Kernel.view, userinit, hqi, Proc.zero, Proc.view] at hq
  intro q r hq hr _
  rw [hone q hq, hone r hr]

/-- The first process creates a second one, which creates a thread in its address space. -/
def cloneRun : List Call :=
  [.dispatch 0, .fork 0 true none, .dispatch 1, .clone 1 0 true, .dispatch 2]

theorem sizesAgree_iff_cloneRun : ∃ k, kernel.run userinit (cloneRun ++ [.growproc 1 4096 none]) =
    some k ∧ (kernel.Always (fun k => SizesAgree k.view) userinit
      (cloneRun ++ [.growproc 1 4096 none]) ↔
        kernel.Allowed GrowsAll userinit (cloneRun ++ [.growproc 1 4096 none])) := by
  obtain ⟨k, hk⟩ : ∃ k, kernel.run userinit (cloneRun ++ [.growproc 1 4096 none]) = some k :=
    Option.isSome_iff_exists.1 (by decide +kernel)
  exact ⟨k, hk, sizesAgree_iff hk⟩

/-- When the thread of `cloneRun` grows the address space, its creator does not notice. -/
theorem not_sizesAgree : ¬ ∀ ls k, kernel.run userinit ls = some k → SizesAgree k.view := by
  intro hall
  have hrun : ((kernel.run userinit (cloneRun ++ [.growproc 2 4096 none])).map fun k =>
      (k.view 1, k.view 2)) =
      some (⟨true, false, some 0, 2, 4096⟩, ⟨true, false, some 1, 2, 8192⟩) := by
    decide +kernel
  obtain ⟨k, hk, hv⟩ := Option.map_eq_some_iff.1 hrun
  obtain ⟨h1, h2⟩ := Prod.mk.inj hv
  have := hall _ k hk 1 2 (by rw [Live, h1]; exact ⟨rfl, rfl⟩) (by rw [Live, h2]; exact ⟨rfl, rfl⟩)
    (by rw [h1, h2])
  rw [h1, h2] at this
  cases this

end Threads

end OperatingSystems

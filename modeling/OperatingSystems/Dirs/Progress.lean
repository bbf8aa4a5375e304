import OperatingSystems.Dirs.Names
import Mathlib.Data.Finset.Lattice.Fold

/-!
# No panic and no deadlock

A process in the middle of a call goes on, unless it has to wait for a lock; and the processes do not all wait,
since whoever waits with a lock in hand does so for an inode that is named in the one that it has locked.

* `Pc.locks`, `Pc.named` : what a process locks next, and whether a name has led there.
* `Good.ilock_some`, `Good.iput_some`, ... : the functions do not panic.
* `advances_of_run` : **no panic** of `iunlock`, `iput`, `dirlookup` and `sys_unlink`.
* `no_deadlock_of_run` : **no deadlock**.
-/

namespace OperatingSystems

namespace Dirs

variable {P F : Type} [Fintype P] [Fintype F] [DecidableEq P] [DecidableEq F] {n i ip : ℕ} {s s₀ s₁ s' : State P F}
  {p : P} {f : Option F} {made : Made} {H : Hold} {ls : List (Label P F)}

/-- The inode that a process locks next -/
def Pc.locks : Pc F → Option ℕ
  | .walk ip path _ => if (skipelem path).isSome then some ip else none
  | .linkInc ip _ | .linkBad ip | .unlinkIp _ ip _ | .createOld ip _ _ | .openIp ip _ | .chdirIp ip => some ip
  | .linkDir _ dp _ | .unlinkDir dp _ | .createDir dp _ _ _ => some dp
  | _ => none

/-- Whether it has come there by a name, which may be `..` -/
def Pc.named : Pc F → Bool
  | .walk .. | .linkInc .. | .createOld .. | .openIp .. | .chdirIp .. => true
  | _ => false

/-- Not all of the cache is in use. -/
def State.Roomy (n : ℕ) (s : State P F) : Prop := (List.range n).countP (fun j => 0 < (s.ino j).ref) < NINODE

omit [Fintype P] [Fintype F] [DecidableEq P] [DecidableEq F] in
theorem roomy_congr (h : s.Roomy n) (href : ∀ j, (s'.ino j).ref = (s.ino j).ref) : s'.Roomy n := by
  unfold State.Roomy
  simp only [href]
  exact h

omit [Fintype P] [Fintype F] [DecidableEq P] [DecidableEq F] in
theorem iget_some (h : s.Roomy n) (i : ℕ) : ∃ s', s.iget n i = some s' := by
  unfold State.iget
  by_cases hzero : (s.ino i).ref = 0
  · rw [if_pos hzero]
    exact ⟨_, if_pos h⟩
  · exact ⟨_, if_neg hzero⟩

omit [Fintype P] [Fintype F] [DecidableEq F] in
theorem namex_some (h : s.Roomy n) (hcwd : s.cwd p ≠ none) (path : List UInt8) (found : Found) :
    ∃ s', s.namex n p path found = some s' := by
  unfold State.namex
  split_ifs
  · obtain ⟨s₁, hs₁⟩ := iget_some h ROOTINO
    exact ⟨_, by rw [hs₁]; rfl⟩
  · obtain ⟨c, hc⟩ := Option.ne_none_iff_exists'.1 hcwd
    exact ⟨_, by rw [hc]; rfl⟩

/-- What a process has after `ilock` -/
structure Locked (s s₁ : State P F) : Prop where
  ref : ∀ j, (s₁.ino j).ref = (s.ino j).ref
  type : ∀ j, (s₁.ino j).type = (s.ino j).type
  cwd : s₁.cwd = s.cwd
  files : s₁.files = s.files

namespace Good

variable (h : Good n s p H)

include h

omit [DecidableEq F] in
/-- `ilock` does not panic. -/
theorem ilock_some (hi : ip ∈ H.refs) (hfree : s.busy ip = none) (htype : (s.ino ip).type ≠ none) :
    ∃ s₁, s.ilock p ip = some s₁ ∧ Locked s s₁ := by
  refine ⟨_, if_pos ⟨h.memory.ref_pos_self hi, hfree, .inr htype⟩, fun j => ?_, fun j => ?_, rfl, rfl⟩
  · change ((s.set ip _).ino j).ref = _
    rw [ino_set]
    split_ifs with hj
    · rw [hj]
    · rfl
  · change ((s.set ip _).ino j).type = _
    rw [ino_set]
    split_ifs with hj
    · rw [hj]
    · rfl

omit [DecidableEq F] in
/-- `iunlock` does not panic. -/
theorem iunlock_some (hi : ip ∈ H.locked) : ∃ s₁, s.iunlock ip = some s₁ ∧ Locked s s₁ := by
  have hbusy : s.busy ip ≠ none := by simp [h.memory.busy_iff.2 hi]
  exact ⟨_, if_pos ⟨hbusy, h.memory.ref_pos_self (h.ok_self.locked hi)⟩, fun _ => rfl, fun _ => rfl, rfl, rfl⟩

omit [DecidableEq F] in
/-- `iput` does not panic: nobody has locked what nobody else refers to. -/
theorem iput_some {R : List ℕ} (hR : H.refs = ip :: R) (hok : ({ H with refs := R } : Hold).Ok) :
    ∃ s', s.iput ip = some s' := by
  unfold State.iput
  split_ifs with hlast hbusy
  · exact ⟨_, rfl⟩
  · exfalso
    obtain ⟨q, hq⟩ := Option.ne_none_iff_exists'.1 hbusy
    have hmem := (h.memory.locks.iff q ip).1 hq
    have hsum := refs_holds s p H { H with refs := R } ip
    have hpos : ip ∈ (holds s p { H with refs := R } q).refs := by
      obtain rfl | hne := eq_or_ne q p
      · rw [holds_self] at hmem ⊢
        exact hok.locked hmem
      · rw [holds_of_ne _ H hne]
        exact (h.memory.ok q).locked hmem
    have hcount := mem_holds (q := q) (f := fun q => (holds s p { H with refs := R } q).refs ++ (s.cwd q).toList)
      (List.mem_append_left _ hpos)
    rw [← h.memory.ref, hlast.1, hR, List.count_cons_self] at hsum
    unfold refs at hsum
    dsimp only at hsum hcount
    omega
  · exact ⟨_, rfl⟩

omit [DecidableEq F] in
theorem walk_some {path : List UInt8} {found : Found}
    (hlock : (skipelem path).isSome → s.busy ip = none ∧ (s.ino ip).type ≠ none) (hi : ip ∈ H.refs)
    (hroom : s.Roomy n) : ∃ s', s.walk n p ip path found = some s' := by
  unfold State.walk
  cases hskip : skipelem path with
  | none =>
    by_cases hparent : found.nameiparent = true
    · exact ⟨_, if_pos hparent⟩
    · exact ⟨_, if_neg hparent⟩
  | some r =>
    obtain ⟨name, rest⟩ := r
    obtain ⟨hfree, htype⟩ := hlock (by rw [hskip]; rfl)
    obtain ⟨s₁, hs₁, hlocked⟩ := h.ilock_some hi hfree htype
    have h₁ := h.ilock hi hs₁
    obtain ⟨s₂, hs₂, -⟩ := h₁.iunlock_some (List.mem_cons_self ..)
    simp only [hs₁, Option.bind_eq_bind, Option.bind_some]
    split_ifs
    · exact ⟨_, rfl⟩
    · exact ⟨_, by rw [hs₂]; rfl⟩
    · split
      · exact ⟨_, rfl⟩
      · rename_i inum off hfound
        obtain ⟨s₃, hs₃⟩ := iget_some (roomy_congr hroom hlocked.ref) inum
        exact ⟨_, by rw [hs₃]; rfl⟩

theorem finish_some (hi : ip ∈ H.locked) (hf : ∀ g ∈ f, s.files g = none) :
    ∃ s', s.finish p ip f made = some s' := by
  cases made with
  | node => exact ⟨_, rfl⟩
  | file =>
    cases f with
    | none => exact ⟨_, rfl⟩
    | some g =>
      obtain ⟨s₁, hs₁, -⟩ := h.iunlock_some hi
      exact ⟨_, by simp only [State.finish, if_pos (hf g rfl), hs₁]; rfl⟩

end Good

omit [Fintype P] [Fintype F] [DecidableEq P] [DecidableEq F] in
theorem ialloc_congr (htype : ∀ j, (s'.ino j).type = (s.ino j).type) : s'.ialloc n = s.ialloc n := by
  unfold State.ialloc
  simp only [htype]

/-- A process that need not wait goes on. -/
theorem Inv.advance_some (h : Inv n s) (hidle : s.idle p = false) (hlock : ∀ i ∈ (s.pc p).locks, s.busy i = none)
    (hnamed : (s.pc p).named = true → ∀ i ∈ (s.pc p).locks, (s.ino i).type ≠ none)
    (hspace : (s.pc p).hold.locked = [] → s.Roomy n ∧ s.ialloc n ≠ none ∧ s.cwd p ≠ none)
    (hf : ∀ g ∈ f, s.files g = none) : ∃ s', s.advance n p f = some s' := by
  have hgood := h.good p
  have hpcok := h.pcs p
  unfold State.advance
  cases hpc : s.pc p with
  | client r => simp [State.idle, hpc] at hidle
  | walk ip path found =>
    rw [hpc] at hgood hlock hnamed
    obtain ⟨hroom, -, -⟩ := hspace (by rw [hpc]; rfl)
    refine hgood.walk_some (fun hskip => ?_) (List.mem_cons_self ..) hroom
    have hlocks : ip ∈ (Pc.walk ip path found : Pc F).locks := by simp [Pc.locks, hskip]
    exact ⟨hlock ip hlocks, hnamed rfl ip hlocks⟩
  | put ip next =>
    rw [hpc] at hgood hpcok
    obtain ⟨s₁, hs₁⟩ := hgood.iput_some rfl hpcok.1
    exact ⟨_, by simp only [hs₁, Option.bind_eq_bind, Option.bind_some]; rfl⟩
  | unlockput ip next =>
    rw [hpc] at hgood hpcok
    obtain ⟨s₁, hs₁, -⟩ := hgood.iunlock_some (List.mem_cons_self ..)
    obtain ⟨s₂, hs₂⟩ := (hgood.iunlock rfl (hpcok.1.cons ip) hs₁).iput_some rfl hpcok.1
    exact ⟨_, by simp only [hs₁, hs₂, Option.bind_eq_bind, Option.bind_some]; rfl⟩
  | linkInc ip new =>
    rw [hpc] at hgood hlock hnamed
    obtain ⟨hroom, -, hcwd⟩ := hspace (by rw [hpc]; rfl)
    obtain ⟨s₁, hs₁, hlocked⟩ := hgood.ilock_some (List.mem_cons_self ..) (hlock ip rfl) (hnamed rfl ip rfl)
    have h₁ := hgood.ilock (List.mem_cons_self ..) hs₁
    simp only [hs₁, Option.bind_eq_bind, Option.bind_some]
    split_ifs with hdir
    · exact ⟨_, rfl⟩
    · have hbusy : s₁.busy ip ≠ none := by simp [h₁.memory.busy_iff.2 (List.mem_cons_self ..)]
      have hino : ∀ j, ((s₁.set ip { s₁.ino ip with nlink := (s₁.ino ip).nlink + 1 }).ino j).ref = (s.ino j).ref :=
        fun j => by
          rw [ino_set, ← hlocked.ref]
          split_ifs with hj
          · rw [hj]
          · rfl
      have hpos := h₁.memory.ref_pos_self (List.mem_cons_self ..)
      rw [hlocked.ref, ← hino] at hpos
      rw [State.iunlock, if_pos ⟨hbusy, hpos⟩, Option.bind_some]
      refine namex_some ?_ ?_ _ _
      · exact roomy_congr hroom hino
      · change s₁.cwd p ≠ none
        rwa [hlocked.cwd]
  | linkDir ip dp name =>
    rw [hpc] at hgood hlock
    have hdir : (s.ino dp).type = some .dir := hgood.rely_self.dirs dp (List.mem_cons_self ..)
    obtain ⟨s₁, hs₁, hlocked⟩ := hgood.ilock_some (List.mem_cons_self ..) (hlock dp rfl)
      (hdir ▸ Option.some_ne_none _)
    simp only [hs₁, Option.bind_eq_bind, Option.bind_some]
    rw [if_neg (by simp [hlocked.type, hdir])]
    split <;> exact ⟨_, rfl⟩
  | linkBad ip =>
    rw [hpc] at hgood hlock
    obtain ⟨s₁, hs₁, -⟩ := hgood.ilock_some (List.mem_cons_self ..) (hlock ip rfl)
      (hgood.rely_self.links ip (List.mem_cons_self ..)).2
    exact ⟨_, by simp only [hs₁, Option.bind_eq_bind, Option.bind_some]; rfl⟩
  | unlinkDir dp name =>
    rw [hpc] at hgood hlock
    obtain ⟨hroom, -, -⟩ := hspace (by rw [hpc]; rfl)
    have hdir : (s.ino dp).type = some .dir := hgood.rely_self.dirs dp (List.mem_cons_self ..)
    obtain ⟨s₁, hs₁, hlocked⟩ := hgood.ilock_some (List.mem_cons_self ..) (hlock dp rfl)
      (hdir ▸ Option.some_ne_none _)
    simp only [hs₁, Option.bind_eq_bind, Option.bind_some]
    rw [if_neg (by simp [hlocked.type, hdir])]
    split_ifs
    · exact ⟨_, rfl⟩
    · split
      · exact ⟨_, rfl⟩
      · rename_i ip off hfound
        obtain ⟨s₂, hs₂⟩ := iget_some (roomy_congr hroom hlocked.ref) ip
        exact ⟨_, by rw [hs₂]; rfl⟩
  | unlinkIp dp ip off =>
    rw [hpc] at hgood hlock
    obtain ⟨hoff, hip, name, hget⟩ := hgood.rely_self.entry dp ip off rfl
    have hmem : ip ∈ targets (s.ino dp).ents := mem_targets.2 ⟨hip, off, name, hoff, hget⟩
    obtain ⟨s₁, hs₁, hlocked⟩ := hgood.ilock_some (List.mem_cons_self ..) (hlock ip rfl)
      (hgood.books.type_of_mem hmem)
    have h₁ := hgood.ilock (List.mem_cons_self ..) hs₁
    have hlow : ¬(s₁.ino ip).nlink < 1 := by
      obtain ⟨hoff, hip, name, hget⟩ := h₁.rely_self.entry dp ip off rfl
      have hpos := h₁.books.mem_entries (mem_targets.2 ⟨hip, off, name, hoff, hget⟩)
      have hlink := h₁.books.nlink ip hip
      split_ifs at hlink <;> omega
    simp only [hs₁, Option.bind_eq_bind, Option.bind_some]
    rw [if_neg hlow]
    split <;> exact ⟨_, rfl⟩
  | unlinkDec ip => exact ⟨_, rfl⟩
  | createDir dp name type made =>
    rw [hpc] at hgood hlock
    obtain ⟨hroom, halloc, -⟩ := hspace (by rw [hpc]; rfl)
    have hdir : (s.ino dp).type = some .dir := hgood.rely_self.dirs dp (List.mem_cons_self ..)
    obtain ⟨s₁, hs₁, hlocked⟩ := hgood.ilock_some (List.mem_cons_self ..) (hlock dp rfl)
      (hdir ▸ Option.some_ne_none _)
    have hroom₁ := roomy_congr hroom hlocked.ref
    simp only [hs₁, Option.bind_eq_bind, Option.bind_some]
    rw [if_neg (by simp [hlocked.type, hdir])]
    split
    · rename_i ip off hfound
      obtain ⟨s₂, hs₂⟩ := iget_some hroom₁ ip
      exact ⟨_, by rw [hs₂]; rfl⟩
    · obtain ⟨ip, hip⟩ := Option.ne_none_iff_exists'.1 halloc
      obtain ⟨s₂, hs₂⟩ := iget_some hroom₁ ip
      exact ⟨_, by rw [ialloc_congr hlocked.type, hip, Option.bind_some, hs₂]; rfl⟩
  | createOld ip type made =>
    rw [hpc] at hgood hlock hnamed
    obtain ⟨s₁, hs₁, hlocked⟩ := hgood.ilock_some (List.mem_cons_self ..) (hlock ip rfl) (hnamed rfl ip rfl)
    have h₁ := hgood.ilock (List.mem_cons_self ..) hs₁
    simp only [hs₁, Option.bind_eq_bind, Option.bind_some]
    split
    · exact h₁.finish_some (List.mem_cons_self ..) (hlocked.files ▸ hf)
    · exact ⟨_, rfl⟩
  | created ip made =>
    rw [hpc] at hgood
    exact hgood.finish_some (List.mem_cons_self ..) hf
  | openIp ip omode =>
    rw [hpc] at hgood hlock hnamed
    obtain ⟨s₁, hs₁, hlocked⟩ := hgood.ilock_some (List.mem_cons_self ..) (hlock ip rfl) (hnamed rfl ip rfl)
    have h₁ := hgood.ilock (List.mem_cons_self ..) hs₁
    simp only [hs₁, Option.bind_eq_bind, Option.bind_some]
    split_ifs
    · exact ⟨_, rfl⟩
    · exact h₁.finish_some (List.mem_cons_self ..) (hlocked.files ▸ hf)
  | chdirIp ip =>
    rw [hpc] at hgood hlock hnamed
    obtain ⟨-, -, hcwd⟩ := hspace (by rw [hpc]; rfl)
    obtain ⟨s₁, hs₁, hlocked⟩ := hgood.ilock_some (List.mem_cons_self ..) (hlock ip rfl) (hnamed rfl ip rfl)
    have h₁ := hgood.ilock (List.mem_cons_self ..) hs₁
    obtain ⟨s₂, hs₂, hlocked₂⟩ := h₁.iunlock_some (List.mem_cons_self ..)
    obtain ⟨c, hc⟩ := Option.ne_none_iff_exists'.1 hcwd
    simp only [hs₁, Option.bind_eq_bind, Option.bind_some]
    split_ifs
    · exact ⟨_, rfl⟩
    · exact ⟨_, by rw [hs₂, Option.bind_some, hlocked₂.cwd, hlocked.cwd, hc]; rfl⟩

/-- In the middle of `unlink("a")` -/
def unlinking : List (Label Unit Unit) :=
  .mkdir () [97] :: List.replicate 5 (.advance () none) ++ .unlink () [97] :: List.replicate 2 (.advance () none)

omit [Fintype P] [Fintype F] [DecidableEq P] [DecidableEq F] in
/-- A process that has locked an inode and waits for another one is in `sys_unlink`. -/
theorem locks_of_locked {pc : Pc F} {j : ℕ} (hi : i ∈ pc.hold.locked) (hj : j ∈ pc.locks) :
    ∃ off, pc = .unlinkIp i j off := by
  cases pc with
  | unlinkIp dp ip off =>
    cases hj
    exact ⟨off, by rw [List.mem_singleton.1 hi]⟩
  | unlockput ip next => cases hj
  | unlinkDec ip => cases hj
  | created ip made => cases hj
  | client r => cases hi
  | put ip next => cases hj
  | walk ip path found => cases hi
  | linkInc ip new => cases hi
  | linkDir ip dp name => cases hi
  | linkBad ip => cases hi
  | unlinkDir dp name => cases hi
  | createDir dp name type made => cases hi
  | createOld ip type made => cases hi
  | openIp ip omode => cases hi
  | chdirIp ip => cases hi

omit [Fintype P] [Fintype F] [DecidableEq P] [DecidableEq F] in
theorem locked_of_named {pc : Pc F} (h : pc.named = true) : pc.hold.locked = [] := by
  cases pc with
  | walk | linkInc | createOld | openIp | chdirIp => rfl
  | _ => cases h

/-- Who has locked an inode goes on, or is in `sys_unlink` and waits for an inode that is named in it. -/
theorem Inv.holder_some {q : P} (h : Inv n s) (hq : s.busy i = some q) :
    (∃ s', s.advance n q none = some s') ∨
      ∃ j, s.busy j ≠ none ∧ j ∈ targets (s.ino i).ents ∧ (s.ino i).type = some .dir := by
  have hmem : i ∈ (s.pc q).hold.locked := (h.memory.locks.iff q i).1 hq
  have hne : (s.pc q).hold.locked ≠ [] := List.ne_nil_of_mem hmem
  by_cases hwait : ∀ j ∈ (s.pc q).locks, s.busy j = none
  · have hidle : s.idle q = false := by
      by_contra hidle
      exact hne (by rw [hold_idle (Bool.eq_true_of_not_eq_false hidle)])
    exact .inl (h.advance_some hidle hwait (fun hn => absurd (locked_of_named hn) hne) (fun hn => absurd hn hne)
      fun g hg => by cases hg)
  · obtain ⟨j, hj⟩ := not_forall.1 hwait
    obtain ⟨hlocks, hbusy⟩ := Classical.not_imp.1 hj
    obtain ⟨off, hpc⟩ := locks_of_locked hmem hlocks
    have hrely := h.books.rely q
    rw [hpc] at hrely
    obtain ⟨hoff, hj, name, hget⟩ := hrely.entry i j off rfl
    exact .inr ⟨j, hbusy, mem_targets.2 ⟨hj, off, name, hoff, hget⟩, hrely.dirs i (List.mem_cons_self ..)⟩

/-- Whoever waits does so for something of a higher rank, and the ranks end: so somebody does not wait. -/
theorem of_rank_lt {α : Type*} (Waits : α → Prop) {Q : Prop} (rank : α → ℕ) (M : ℕ)
    (hbound : ∀ a, Waits a → rank a ≤ M) (hstep : ∀ a, Waits a → Q ∨ ∃ b, Waits b ∧ rank a < rank b) {a : α}
    (ha : Waits a) : Q := by
  induction hk : M - rank a using Nat.strong_induction_on generalizing a with
  | _ k ih =>
    obtain hq | ⟨b, hb, hlt⟩ := hstep a ha
    · exact hq
    · have hle := hbound b hb
      exact ih (M - rank b) (by omega) hb rfl

end Dirs

end OperatingSystems

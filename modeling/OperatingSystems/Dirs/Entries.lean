import Mathlib.Data.List.Basic
import Mathlib.Data.List.Count
import Mathlib.Order.Basic

/-!
# Directories and path names

The content of a directory of xv6, as the list of its entries, and the names in paths.  A name is what
`struct dirent` holds before the first zero: at most `DIRSIZ` bytes.

* `skipelem` : the next name of a path.
* `dirlookup`, `dirlink`, `isdirempty` : the code.
* `Shaped` : `.` and `..` come first.
* `targets` : the inodes that the other entries lead to.
* `Shaped.insertEntry`, `Shaped.clear` : what an edit does to them.
-/

namespace OperatingSystems

namespace Dirs

/-- `DIRSIZ` -/
def DIRSIZ : ℕ := 14

/-- The `name` of a `struct dirent` -/
abbrev Name : Type := List UInt8

/-- `"."` -/
def dot : Name := [46]

/-- `".."` -/
def dotdot : Name := [46, 46]

/-- `struct dirent` -/
structure Dirent where
  inum : ℕ
  name : Name
  deriving DecidableEq

/-- `skipelem`: the next name of the path, which is cut, and the rest -/
def skipelem (path : List UInt8) : Option (Name × List UInt8) :=
  let s := path.dropWhile (· = 47)
  if s = [] then none
  else some ((s.takeWhile (· ≠ 47)).take DIRSIZ, (s.dropWhile (· ≠ 47)).dropWhile (· = 47))

/-- `dirlookup` from the entry number `k` on: the inode number, and the number of the entry -/
def dirlookupFrom (name : Name) : ℕ → List Dirent → Option (ℕ × ℕ)
  | _, [] => none
  | k, de :: ents =>
    if de.inum ≠ 0 ∧ name = de.name then some (de.inum, k) else dirlookupFrom name (k + 1) ents

/-- `dirlookup` -/
def dirlookup (ents : List Dirent) (name : Name) : Option (ℕ × ℕ) := dirlookupFrom name 0 ents

/-- The last part of `dirlink`: the first empty entry is overwritten, or the directory grows. -/
def insertEntry (de : Dirent) : List Dirent → List Dirent
  | [] => [de]
  | de' :: ents => if de'.inum = 0 then de :: ents else de' :: insertEntry de ents

/-- `dirlink`; the name must not be there yet. -/
def dirlink (ents : List Dirent) (name : Name) (inum : ℕ) : Option (List Dirent) :=
  if (dirlookup ents name).isSome then none else some (insertEntry ⟨inum, name⟩ ents)

/-- `isdirempty` -/
def isdirempty (ents : List Dirent) : Bool := (ents.drop 2).all fun de => de.inum = 0

/-- The entry number `off` is cleared. -/
def clear (ents : List Dirent) (off : ℕ) : List Dirent := ents.set off ⟨0, []⟩

/-- The inodes that some entries lead to -/
def used (ents : List Dirent) : List ℕ := (ents.map Dirent.inum).filter (· ≠ 0)

/-- The inodes that the entries behind `.` and `..` lead to -/
def targets (ents : List Dirent) : List ℕ := used (ents.drop 2)

/-- `.` and `..` come first. -/
def Shaped (ents : List Dirent) (i up : ℕ) : Prop :=
  i ≠ 0 ∧ up ≠ 0 ∧ ∃ rest, ents = ⟨i, dot⟩ :: ⟨up, dotdot⟩ :: rest

variable {ents ents' : List Dirent} {name : Name} {i j up inum off k : ℕ} {de : Dirent}

/-! ### Lookups -/

theorem dirlookupFrom_eq_some (h : dirlookupFrom name k ents = some (inum, off)) :
    inum ≠ 0 ∧ k ≤ off ∧ ents[off - k]? = some ⟨inum, name⟩ := by
  induction ents generalizing k with
  | nil => cases h
  | cons de ents ih =>
    rw [dirlookupFrom] at h
    split_ifs at h with hde
    · cases h
      obtain ⟨hinum, rfl⟩ := hde
      exact ⟨hinum, Nat.le_refl _, by rw [Nat.sub_self]; rfl⟩
    · obtain ⟨hinum, hle, hget⟩ := ih h
      refine ⟨hinum, by omega, ?_⟩
      obtain ⟨d, hd⟩ : ∃ d, off - k = d + 1 := ⟨off - k - 1, by omega⟩
      rw [hd, List.getElem?_cons_succ, ← hget]
      congr 1
      omega

/-- What `dirlookup` finds -/
theorem dirlookup_eq_some (h : dirlookup ents name = some (inum, off)) :
    inum ≠ 0 ∧ ents[off]? = some ⟨inum, name⟩ := by
  obtain ⟨hinum, -, hget⟩ := dirlookupFrom_eq_some h
  exact ⟨hinum, hget⟩

/-! ### Edits -/

theorem mem_targets : j ∈ targets ents ↔ j ≠ 0 ∧ ∃ k name, 2 ≤ k ∧ ents[k]? = some ⟨j, name⟩ := by
  rw [targets, used, List.mem_filter, decide_eq_true_eq, and_comm, List.mem_map]
  refine and_congr_right fun hj => ⟨?_, ?_⟩
  · rintro ⟨⟨j, name⟩, hmem, rfl⟩
    obtain ⟨k, hk⟩ := List.mem_iff_getElem?.1 hmem
    rw [List.getElem?_drop] at hk
    exact ⟨2 + k, name, Nat.le_add_right 2 k, hk⟩
  · rintro ⟨k, name, hk, hget⟩
    refine ⟨⟨j, name⟩, List.mem_iff_getElem?.2 ⟨k - 2, ?_⟩, rfl⟩
    rw [List.getElem?_drop, Nat.add_sub_cancel' hk, hget]

theorem isdirempty_iff : isdirempty ents = true ↔ targets ents = [] := by
  simp [isdirempty, targets, used, List.filter_eq_nil_iff, -List.map_drop]

theorem count_used_cons : (used (de :: ents)).count j =
    (used ents).count j + if de.inum ≠ 0 ∧ de.inum = j then 1 else 0 := by
  rw [used, used, List.map_cons, List.filter_cons]
  by_cases hde : de.inum = 0
  · rw [if_neg (by simp [hde]), if_neg fun h => h.1 hde]
    rfl
  · rw [if_pos (by simp [hde]), List.count_cons]
    simp [hde]

theorem count_insertEntry (hde : de.inum ≠ 0) (rest : List Dirent) :
    (used (insertEntry de rest)).count j = (used rest).count j + if de.inum = j then 1 else 0 := by
  induction rest with
  | nil => rw [insertEntry, count_used_cons]; simp [hde]
  | cons de' rest ih =>
    rw [insertEntry]
    by_cases hfree : de'.inum = 0
    · rw [if_pos hfree, count_used_cons, count_used_cons, if_neg fun h : de'.inum ≠ 0 ∧ _ => h.1 hfree]
      simp [hde]
    · rw [if_neg hfree, count_used_cons, count_used_cons, ih]
      omega

/-- **One more entry** -/
theorem Shaped.insertEntry (h : Shaped ents i up) (hde : de.inum ≠ 0) :
    Shaped (insertEntry de ents) i up ∧ (targets (Dirs.insertEntry de ents)).Perm (de.inum :: targets ents) := by
  obtain ⟨hi, hup, rest, rfl⟩ := h
  have heq : Dirs.insertEntry de (⟨i, dot⟩ :: ⟨up, dotdot⟩ :: rest) =
      ⟨i, dot⟩ :: ⟨up, dotdot⟩ :: Dirs.insertEntry de rest := by
    rw [Dirs.insertEntry, if_neg hi, Dirs.insertEntry, if_neg hup]
  rw [heq]
  refine ⟨⟨hi, hup, _, rfl⟩, List.perm_iff_count.2 fun j => ?_⟩
  rw [List.count_cons, show targets (_ :: _ :: Dirs.insertEntry de rest) = used (Dirs.insertEntry de rest) from rfl,
    count_insertEntry hde rest]
  simp only [beq_iff_eq]
  rfl

theorem count_set {rest : List Dirent} (hget : rest[k]? = some de) (hde : de.inum ≠ 0) :
    (used (rest.set k ⟨0, []⟩)).count j + (if de.inum = j then 1 else 0) = (used rest).count j := by
  induction rest generalizing k with
  | nil => cases hget
  | cons de' rest ih =>
    cases k with
    | zero =>
      cases hget
      rw [List.set_cons_zero, count_used_cons, count_used_cons]
      simp [hde]
    | succ k =>
      rw [List.getElem?_cons_succ] at hget
      rw [List.set_cons_succ, count_used_cons, count_used_cons, ← ih hget]
      omega

/-- The entries that are not `.` or `..` -/
theorem Shaped.two_le (h : Shaped ents i up) (hget : ents[off]? = some ⟨inum, name⟩) (hdot : name ≠ dot)
    (hdotdot : name ≠ dotdot) : 2 ≤ off := by
  obtain ⟨-, -, rest, rfl⟩ := h
  match off with
  | 0 =>
    cases hget
    exact absurd rfl hdot
  | 1 =>
    cases hget
    exact absurd rfl hdotdot
  | off + 2 => exact Nat.le_add_left 2 off

/-- **One entry less** -/
theorem Shaped.clear (h : Shaped ents i up) (hget : ents[off]? = some ⟨inum, name⟩) (hoff : 2 ≤ off)
    (hinum : inum ≠ 0) :
    Shaped (clear ents off) i up ∧ (targets ents).Perm (inum :: targets (Dirs.clear ents off)) := by
  obtain ⟨hi, hup, rest, rfl⟩ := h
  obtain ⟨k, rfl⟩ : ∃ k, off = k + 2 := ⟨off - 2, by omega⟩
  have hget' : rest[k]? = some ⟨inum, name⟩ := hget
  refine ⟨⟨hi, hup, rest.set k ⟨0, []⟩, rfl⟩, List.perm_iff_count.2 fun j => ?_⟩
  have hcount := count_set (j := j) hget' hinum
  rw [List.count_cons]
  simp only [beq_iff_eq]
  exact hcount.symm

/-- A directory without entries -/
theorem shaped_new (hi : i ≠ 0) (hup : up ≠ 0) : Shaped [⟨i, dot⟩, ⟨up, dotdot⟩] i up := ⟨hi, hup, [], rfl⟩

end Dirs

end OperatingSystems

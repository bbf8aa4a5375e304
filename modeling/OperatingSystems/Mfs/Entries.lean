import OperatingSystems.Mfs.Server

/-!
# Entries of directories

A block of a directory is an array of 64 entries, each of them 60 bytes for a C string and an
`int`.  An unused entry has the empty name and the number `-1`.

* `entry d j` : the name and the number in entry `j` of the block `d`.
* `entry_setEntry` : what an assignment to an entry does to all of them.
* `entry_emptyDir`, `entry_newBlock` : the new blocks.
* `cstr_entry` : a terminated name is the same C string however far it may be read.
-/

namespace OperatingSystems

namespace Mfs

open Bytes

variable {d d' : Bytes} {j j' : ℕ} {name : List UInt8} {x : ℤ}

/-- The name and the number in entry `j` of a block. -/
def entry (d : Bytes) (j : ℕ) : List UInt8 × ℤ := (entryName d j, entryInum d j)

/-- What an unused entry contains. -/
def unused : List UInt8 × ℤ := ([], -1)

theorem entryName_congr (h : EqTo 64 (slice d (64 * j)) (slice d' (64 * j))) :
    entryName d j = entryName d' j :=
  cstr_congr fun i hi => h i (by omega)

theorem entryInum_congr (h : EqTo 64 (slice d (64 * j)) (slice d' (64 * j))) :
    entryInum d j = entryInum d' j := by
  refine toInt_congr fun i hi => ?_
  have := h (60 + i) (by omega)
  simpa only [slice, show 0 + 4 * (16 * j + 15) + i = 64 * j + (60 + i) by omega] using this

theorem entry_congr (h : EqTo 64 (slice d (64 * j)) (slice d' (64 * j))) :
    entry d j = entry d' j := by
  rw [entry, entryName_congr h, entryInum_congr h, entry]

theorem entry_slice (d : Bytes) (j : ℕ) : entry (slice d (64 * j)) 0 = entry d j := by
  refine Prod.ext ?_ ?_
  · show cstr 60 (slice (slice d (64 * j)) (64 * 0)) = _
    rw [Nat.mul_zero, slice_zero]
    rfl
  · show word (slice d (64 * j)) 0 15 = word d 0 (16 * j + 15)
    rw [word_slice]
    refine congrArg toInt (funext fun i => congrArg d ?_)
    omega

theorem EqTo.entry (h : EqTo blockSize d d') (hj : j < 64) :
    EqTo 64 (slice d (64 * j)) (slice d' (64 * j)) :=
  fun i hi => h (64 * j + i) (by simp only [blockSize]; omega)

theorem entry_eq (h : EqTo blockSize d d') (hj : j < 64) : entry d j = entry d' j :=
  entry_congr (EqTo.entry h hj)

/-! ### Assignments to entries -/

theorem entryName_setEntry_self (hlen : name.length < 60) (h0 : 0 ∉ name) :
    entryName (setEntry d j name x) j = name := by
  refine cstr_ofCstr hlen h0 fun i hi => ?_
  rw [slice, setEntry, setWord, patch_of_lt (by omega), patch_add hi]

theorem entryInum_setEntry_self (hx : -2 ^ 31 ≤ x ∧ x < 2 ^ 31) :
    entryInum (setEntry d j name x) j = x :=
  word_setWord_self hx

theorem setEntry_of_ne (hlen : name.length < 60) (hj : j' ≠ j) :
    EqTo 64 (slice (setEntry d j name x) (64 * j')) (slice d (64 * j')) := by
  intro i hi
  rw [slice, slice, setEntry, setWord]
  rcases Nat.lt_or_gt_of_ne hj with h | h
  · rw [patch_of_lt (by omega), patch_of_lt (by omega)]
  · rw [patch_of_le (by omega), patch_of_le (by omega)]

theorem entry_setEntry (hlen : name.length < 60) (h0 : 0 ∉ name) (hx : -2 ^ 31 ≤ x ∧ x < 2 ^ 31) :
    entry (setEntry d j name x) j' = if j' = j then (name, x) else entry d j' := by
  split_ifs with h
  · rw [h, entry, entryName_setEntry_self hlen h0, entryInum_setEntry_self hx]
  · exact entry_congr (setEntry_of_ne hlen h)

theorem setEntry_congr (h : EqTo blockSize d d') :
    EqTo blockSize (setEntry d j name x) (setEntry d' j name x) :=
  patch_congr (patch_congr h _ _ _) _ _ _

theorem entry_emptyDir (d : Bytes) (hj : j < 64) : entry (emptyDir d) j = unused := by
  have hfold : ∀ N, ∀ j < N, entry ((List.range N).foldl (fun d j => setEntry d j [] (-1)) d) j =
      unused := by
    intro N
    induction N with
    | zero => exact fun j hj => absurd hj (Nat.not_lt_zero j)
    | succ N ih =>
      intro j hj
      rw [List.range_succ, List.foldl_append, List.foldl_cons, List.foldl_nil,
        entry_setEntry (by decide) List.not_mem_nil (by decide)]
      split_ifs with h
      · rfl
      · exact ih j (by omega)
  exact hfold 64 j hj

/-- The block that two assignments make of an empty one. -/
theorem entry_dots (d : Bytes) {self parent : ℤ} (hself : -2 ^ 31 ≤ self ∧ self < 2 ^ 31)
    (hparent : -2 ^ 31 ≤ parent ∧ parent < 2 ^ 31) (hj : j < 64) :
    entry (setEntry (setEntry (emptyDir d) 0 [46] self) 1 [46, 46] parent) j =
      if j = 0 then ([46], self) else if j = 1 then ([46, 46], parent) else unused := by
  rw [entry_setEntry (by decide) (by decide) hparent, entry_setEntry (by decide) (by decide) hself,
    entry_emptyDir d hj]
  split_ifs with h1 h0
  · omega
  · rfl
  · rfl
  · rfl

theorem entry_newBlock {junk : Junk} {pinum inum : ℤ} (hinum : -2 ^ 31 ≤ inum ∧ inum < 2 ^ 31)
    (hpinum : -2 ^ 31 ≤ pinum ∧ pinum < 2 ^ 31) (hj : j < 64) :
    entry (Server.newBlock junk pinum 0 inum) j =
      if j = 0 then ([46], inum) else if j = 1 then ([46, 46], pinum) else unused :=
  entry_dots (junk .dirBlk) hinum hpinum hj

/-- A terminated name is the same C string however far it may be read. -/
theorem cstr_entry (h : (entryName d j).length < 60) (hj : j < 64) :
    cstr (blockSize - 64 * j) (slice d (64 * j)) = entryName d j :=
  cstr_of_length_lt h (by simp only [blockSize]; omega)

end Mfs

end OperatingSystems

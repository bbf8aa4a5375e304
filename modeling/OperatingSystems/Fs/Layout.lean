import OperatingSystems.Fs.Inode
import Mathlib.Data.List.Nodup

/-!
# The blocks of a file

An inode and its indirect block list the blocks of a file in order; each address may carry a
checksum.  `Holds` says that they do, that the blocks are in use and differ from each other, and that
every unused block is zero.

* `Blocks` : the bitmap, and the blocks of the file in order.
* `Blocks.grow` : one block more, as `bmap` takes it.
* `Holds fs A F tag` : **the file `F` lies in the blocks of `A`**, whose checksums are `tag`.
* `Same fs fs'` : nothing of the inode has changed but its addresses.
-/

namespace OperatingSystems

namespace Fs

open Bytes

/-! ### Addresses with checksums -/

/-- The address of a block with a checksum in the top byte. -/
def word (c : UInt8) (b : ℕ) : ℕ := b + c.toNat * 2 ^ 24

theorem word_zero (b : ℕ) : word 0 b = b := by simp [word]

theorem word_ne_zero {c : UInt8} {b : ℕ} (h : 0 < b) : word c b ≠ 0 := by
  unfold word
  omega

theorem word_lt {c : UInt8} {b : ℕ} (h : b < 2 ^ 24) : word c b < 2 ^ 32 := by
  have hc : c.toNat < 256 := c.toNat_lt
  unfold word
  omega

/-- Only an address without a checksum is that of a block. -/
theorem word_lt_iff {c : UInt8} {b : ℕ} (h : b < 2 ^ 24) : word c b < 2 ^ 24 ↔ c = 0 := by
  have hc : c.toNat = 0 ↔ c = 0 := by
    rw [← UInt8.toNat_inj]
    rfl
  rw [← hc, word]
  omega

theorem and_ffffff (a : ℕ) : a &&& 0x00ffffff = a % 2 ^ 24 := Nat.and_two_pow_sub_one_eq_mod a 24

theorem word_and {c : UInt8} {b : ℕ} (h : b < 2 ^ 24) : word c b &&& 0x00ffffff = b := by
  rw [and_ffffff, word, Nat.add_mul_mod_self_right, Nat.mod_eq_of_lt h]

theorem checksum_word {c : UInt8} {b : ℕ} (h : b < 2 ^ 24) : checksum (word c b) = c := by
  have hc : c.toNat < 256 := c.toNat_lt
  have hshift : word c b >>> 24 = c.toNat := by
    rw [Nat.shiftRight_eq_div_pow, word]
    omega
  rw [checksum, Nat.shiftRight_and_distrib, hshift]
  have hmask : c.toNat &&& (0xff000000 >>> 24) = c.toNat := by
    rw [show 0xff000000 >>> 24 = 2 ^ 8 - 1 from rfl, Nat.and_two_pow_sub_one_eq_mod,
      Nat.mod_eq_of_lt hc]
  rw [hmask, UInt8.ofNat_toNat]

theorem tagged_word {c d : UInt8} {b : ℕ} (h : b < 2 ^ 24) : tagged (word c b) d = word d b := by
  have hor := Nat.shiftLeft_add_eq_or_of_lt h d.toNat
  rw [tagged, word_and h, Nat.or_comm, ← hor, Nat.shiftLeft_eq, word, Nat.add_comm]

theorem checksum_zero : checksum 0 = 0 := rfl

/-! ### The indirect block -/

theorem entry_congr {d d' : Bytes} {j : ℕ} (h : EqTo BSIZE d d') (hj : j < NINDIRECT) :
    entry d j = entry d' j :=
  toNat_congr (h.slice (by simp only [BSIZE, NINDIRECT] at *; omega))

theorem entry_setEntry_self {d : Bytes} {j a : ℕ} (h : a < 2 ^ 32) : entry (setEntry d j a) j = a := by
  rw [entry, setEntry, toNat_congr (slice_patch d (4 * j) 4 (ofNat a)), toNat_ofNat]
  exact Nat.mod_eq_of_lt h

theorem entry_setEntry_of_ne {d : Bytes} {i j a : ℕ} (h : i ≠ j) :
    entry (setEntry d j a) i = entry d i :=
  toNat_congr (slice_patch_of_disjoint (by omega))

theorem entry_zero (j : ℕ) : entry (fun _ => 0) j = 0 := rfl

theorem isIndirect_iff {bn : ℕ} (h : bn < MAXFILE) : isIndirect bn = true ↔ NDIRECT ≤ bn := by
  simp only [isIndirect, MAXFILE, NINDIRECT, NDIRECT, BSIZE, decide_eq_true_iff] at *
  omega

/-! ### The free blocks -/

theorem findFree_eq_some {used : ℕ → Bool} {k b b' : ℕ} (h : findFree used k b = some b') :
    used b' = false ∧ b' < b + k := by
  induction k generalizing b with
  | zero => cases h
  | succ k ih =>
    rw [findFree] at h
    split_ifs at h with hb
    · obtain ⟨hb', hlt⟩ := ih h
      exact ⟨hb', by omega⟩
    · cases h
      exact ⟨Bool.eq_false_of_not_eq_true hb, by omega⟩

/-- The bitmap, the data blocks of the file in order and its indirect block. -/
structure Blocks where
  used : ℕ → Bool
  data : List ℕ
  ind : Option ℕ

/-- The next block of the disk that `balloc` takes, if the disk has it. -/
def takeFree (size : ℕ) (used : ℕ → Bool) : Except Stop ℕ :=
  match findFree used ((size + BPB - 1) / BPB * BPB) 0 with
  | some b => if b < size then .ok b else .error .fault
  | none => .error .outOfBlocks

theorem takeFree_eq_ok {size b : ℕ} {used : ℕ → Bool} (h : takeFree size used = .ok b) :
    b < size ∧ used b = false := by
  unfold takeFree at h
  split at h
  · next b' hb' =>
    split_ifs at h with hlt
    cases h
    exact ⟨hlt, (findFree_eq_some hb').1⟩
  · cases h

namespace Blocks

def owned (A : Blocks) : List ℕ := A.data ++ A.ind.toList

/-- What lists the data block `bn`: its address with its checksum, and 0 if there is none. -/
def slot (A : Blocks) (tag : ℕ → UInt8) (bn : ℕ) : ℕ :=
  match A.data[bn]? with
  | some b => word (tag bn) b
  | none => 0

/-- With the indirect block, which is taken when the first block behind the direct ones is -/
def addInd (A : Blocks) (p : ℕ) : Blocks :=
  { A with used := Function.update A.used p true, ind := some p }

def addData (A : Blocks) (b : ℕ) : Blocks :=
  { A with used := Function.update A.used b true, data := A.data ++ [b] }

def growInd (size : ℕ) (A : Blocks) : Except Stop Blocks :=
  match A.ind with
  | some _ => .ok A
  | none => (takeFree size A.used).map A.addInd

/-- One data block more -/
def grow (size : ℕ) (A : Blocks) : Except Stop Blocks := do
  let A ← if A.data.length < NDIRECT then .ok A else A.growInd size
  (takeFree size A.used).map A.addData

variable {A : Blocks} {tag : ℕ → UInt8} {bn b p : ℕ}

theorem mem_owned_of_data (h : A.data[bn]? = some b) : b ∈ A.owned :=
  List.mem_append_left _ (List.mem_of_getElem? h)

theorem mem_owned_of_ind (h : A.ind = some p) : p ∈ A.owned :=
  List.mem_append_right _ (by simp [h])

theorem mem_owned : b ∈ A.owned ↔ (∃ bn : ℕ, A.data[bn]? = some b) ∨ A.ind = some b := by
  rw [owned, List.mem_append, List.mem_iff_getElem?, Option.mem_toList]

theorem slot_of_some (h : A.data[bn]? = some b) : A.slot tag bn = word (tag bn) b := by
  rw [slot, h]

theorem slot_of_le (h : A.data.length ≤ bn) : A.slot tag bn = 0 := by
  rw [slot, List.getElem?_eq_none h]

/-- Data blocks are not the indirect block. -/
theorem ne_ind (hn : A.owned.Nodup) (hb : A.data[bn]? = some b) (hp : A.ind = some p) : b ≠ p := by
  have hdisj := (List.nodup_append.1 hn).2.2
  exact hdisj b (List.mem_of_getElem? hb) p (by simp [hp])

theorem data_inj (hn : A.owned.Nodup) {i j : ℕ} (hi : A.data[i]? = some b)
    (hj : A.data[j]? = some b) : i = j := by
  have hlt : i < A.data.length := (List.getElem?_eq_some_iff.1 hi).1
  exact (List.getElem?_inj hlt (List.nodup_append.1 hn).1).1 (hi.trans hj.symm)

theorem slot_addData_self : (A.addData b).slot tag A.data.length = word (tag A.data.length) b :=
  slot_of_some (by simp [addData])

theorem slot_addData_of_ne (h : bn ≠ A.data.length) : (A.addData b).slot tag bn = A.slot tag bn := by
  have heq : (A.data ++ [b])[bn]? = A.data[bn]? := by
    rcases Nat.lt_or_gt_of_ne h with h | h
    · exact List.getElem?_append_left h
    · rw [List.getElem?_eq_none (by simp; omega), List.getElem?_eq_none (by omega)]
  simp only [slot, addData, heq]

theorem slot_update_of_ne {c : UInt8} {i : ℕ} (h : bn ≠ i) :
    A.slot (Function.update tag i c) bn = A.slot tag bn := by
  simp only [slot, Function.update_of_ne h]

end Blocks

/-! ### Files in their blocks -/

/-- The contents of a file, zeros behind its last block included, and its length. -/
structure File where
  bytes : Bytes
  length : ℕ

/-- **The file `F` lies in the blocks of `A`**, and `tag` is their checksums. -/
structure Holds (fs : Fs) (A : Blocks) (F : File) (tag : ℕ → UInt8) : Prop where
  size_le : fs.size ≤ 2 ^ 24
  used : fs.used = A.used
  length_le : A.data.length ≤ MAXFILE
  direct : ∀ bn < NDIRECT, fs.ip.addrs bn = A.slot tag bn
  pointer : fs.ip.addrs NDIRECT = A.ind.getD 0
  indirect : ∀ p, A.ind = some p → ∀ j < NINDIRECT, entry (fs.block p) j = A.slot tag (NDIRECT + j)
  ind : NDIRECT < A.data.length → A.ind ≠ none
  owned : ∀ b ∈ A.owned, 0 < b ∧ b < fs.size ∧ A.used b = true
  nodup : A.owned.Nodup
  free : ∀ b < fs.size, A.used b = false → EqTo BSIZE (fs.block b) fun _ => 0
  boot : 0 < fs.size ∧ A.used 0 = true ∧ EqTo BSIZE (fs.block 0) fun _ => 0
  contents : ∀ bn b, A.data[bn]? = some b → EqTo BSIZE (fs.block b) (page BSIZE bn F.bytes)
  behind : ∀ a, BSIZE * A.data.length ≤ a → F.bytes a = 0
  tag_behind : ∀ bn, A.data.length ≤ bn → tag bn = 0
  plain : fs.ip.type ≠ .checked → ∀ bn, tag bn = 0
  length : fs.ip.size = F.length
  length_le_blocks : F.length ≤ BSIZE * A.data.length

/-- All fields of the inode are the same but the addresses, and so is what is on the disk of it. -/
structure Same (fs fs' : Fs) : Prop where
  size : fs'.size = fs.size
  dip : fs'.dip = fs.dip
  ip : ∃ a, fs'.ip = { fs.ip with addrs := a }

theorem Same.refl (fs : Fs) : Same fs fs := ⟨rfl, rfl, _, rfl⟩

theorem Same.trans {fs fs' fs'' : Fs} (h : Same fs fs') (h' : Same fs' fs'') : Same fs fs'' where
  size := h'.size.trans h.size
  dip := h'.dip.trans h.dip
  ip := by
    obtain ⟨a, ha⟩ := h.ip
    obtain ⟨a', ha'⟩ := h'.ip
    exact ⟨a', by rw [ha', ha]⟩

theorem Same.type {fs fs' : Fs} (h : Same fs fs') : fs'.ip.type = fs.ip.type := by
  obtain ⟨a, ha⟩ := h.ip
  rw [ha]

theorem Same.length {fs fs' : Fs} (h : Same fs fs') : fs'.ip.size = fs.ip.size := by
  obtain ⟨a, ha⟩ := h.ip
  rw [ha]

end Fs

end OperatingSystems

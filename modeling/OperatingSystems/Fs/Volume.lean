import OperatingSystems.Fs.Answers

/-!
# Several inodes on one disk

The inodes of a disk share its bitmap and its blocks.  Calls of `readi` and `writei` on any of them, one
after the other, ask `bmap` for blocks; a ghost records the answers.

* `Volume` : a disk with the inodes that are kept in core.
* `Volume.calls`, `Volume.answers` : the machine of the calls on the inodes, and the ghost.
* `Marked` : the bitmap marks the metadata and the blocks of the inodes, which are different.
* `Consistent` : and the unused blocks are zero, as `mkfs` and `bfree` leave them.
* `Consistent.put`, `Consistent.next` : a call on one inode keeps the blocks of all.
* `bmap_stable` : **the mapping of blocks is stable and injective**.
* `not_injective_of_marked` : an unused block that is not zero is enough for two inodes to share a block.
-/

namespace OperatingSystems

namespace Fs

open Bytes

/-- `sizeof(struct dinode)` is 64. -/
abbrev IPB : ℕ := BSIZE / 64

/-- The block with the bit for the block `b` -/
def BBLOCK (b ninodes : ℕ) : ℕ := b / BPB + ninodes / IPB + 3

/-- A disk, and the inodes that are kept in core -/
structure Volume (ι : Type) where
  /-- `sb.size` -/
  size : ℕ
  /-- `sb.ninodes` -/
  ninodes : ℕ
  used : ℕ → Bool
  block : ℕ → Bytes
  dip : ι → Dinode
  ip : ι → Inode

namespace Volume

variable {ι : Type} [DecidableEq ι] {v v' v₀ : Volume ι} {i j : ι}

/-- The disk and one of the inodes -/
def fs (v : Volume ι) (i : ι) : Fs := ⟨v.size, v.used, v.block, v.dip i, v.ip i⟩

def put (v : Volume ι) (i : ι) (fs : Fs) : Volume ι where
  size := fs.size
  ninodes := v.ninodes
  used := fs.used
  block := fs.block
  dip := Function.update v.dip i fs.dip
  ip := Function.update v.ip i fs.ip

/-- The number of blocks up to the end of the bitmap -/
def metadata (v : Volume ι) : ℕ := BBLOCK ((v.size + BPB - 1) / BPB * BPB) v.ninodes

/-- Calls on the inodes, as long as the kernel does not stop -/
def calls : Machine (Volume ι) (ι × Call) where
  next v l := (Fs.calls.next (v.fs l.1) l.2).map (v.put l.1)

/-- A ghost: what `bmap` has returned, for which inodes and block indices -/
def answers (v : Volume ι) (l : ι × Call) (log : List (ι × ℕ × ℕ)) : List (ι × ℕ × ℕ) :=
  log ++ ((v.fs l.1).bmaps l.2).map (Prod.mk l.1)

/-- The bitmap marks block 0, the metadata and the blocks of the inodes; no two of the latter are the same,
and none is one of the metadata. -/
structure Marked (v : Volume ι) : Prop where
  size_le : v.size ≤ 2 ^ 24 - 4096
  metadata : ∀ b < v.metadata, v.used b = true
  used : ∀ i p b, (v.fs i).blockAt p = some b → v.used b = true
  behind : ∀ i p b, (v.fs i).blockAt p = some b → v.metadata ≤ b
  inj : ∀ i j p q b, (v.fs i).blockAt p = some b → (v.fs j).blockAt q = some b → i = j ∧ p = q
  pointer : ∀ i b, (v.fs i).blockAt .indirect = some b → b < v.size

/-- And the unused blocks are zero. -/
structure Consistent (v : Volume ι) : Prop extends Marked v where
  fresh : ∀ b < v.size, v.used b = false → EqTo BSIZE (v.block b) fun _ => 0

/-- The metadata and the blocks of the other inodes -/
def others (v : Volume ι) (i : ι) : Set ℕ :=
  {b | b < v.metadata ∨ ∃ j ≠ i, ∃ p, (v.fs j).blockAt p = some b}

omit [DecidableEq ι] in
theorem metadata_pos (v : Volume ι) : 0 < v.metadata := by
  unfold metadata BBLOCK
  exact Nat.succ_pos _

omit [DecidableEq ι] in
theorem Consistent.apart (h : v.Consistent) (i : ι) : Apart (v.others i) (v.fs i) where
  size_le := h.size_le
  boot := .inl v.metadata_pos
  kept := by
    rintro b (hb | ⟨j, -, p, hb⟩)
    · exact h.metadata b hb
    · exact h.used j p b hb
  used := h.used i
  notMem := by
    rintro p b hb (hlt | ⟨j, hne, q, hj⟩)
    · exact absurd hlt (not_lt.2 (h.behind i p b hb))
    · exact hne (h.inj i j p q b hb hj).1.symm
  inj p q b hp hq := (h.inj i i p q b hp hq).2
  pointer := h.pointer i
  fresh := h.fresh

theorem put_fs_self (v : Volume ι) (i : ι) (fs : Fs) : (v.put i fs).fs i = fs := by
  simp [put, Volume.fs]

/-- The other inodes do not change with an inode that is extended. -/
theorem blockAt_put_of_ne {fs : Fs} (he : Extends (v.others i) (v.fs i) fs) (hne : j ≠ i) (p : Place) :
    ((v.put i fs).fs j).blockAt p = (v.fs j).blockAt p := by
  have hip : ((v.put i fs).fs j).ip = (v.fs j).ip := Function.update_of_ne hne ..
  have hblock : ∀ b, (v.fs j).blockAt .indirect = some b →
      ((v.put i fs).fs j).block b = (v.fs j).block b :=
    fun b hb => he.others b (.inr ⟨j, hne, .indirect, hb⟩)
  exact blockAt_congr (by rw [hip]) (by rw [hip]) hblock p

/-- All inodes keep their blocks. -/
theorem blockAt_put {fs : Fs} {p : Place} {b : ℕ} (he : Extends (v.others i) (v.fs i) fs)
    (hb : (v.fs j).blockAt p = some b) : ((v.put i fs).fs j).blockAt p = some b := by
  obtain rfl | hne := eq_or_ne j i
  · rw [put_fs_self]
    exact he.keeps p b hb
  · rw [blockAt_put_of_ne he hne, hb]

/-- **An inode is extended**, and the blocks of all inodes stay their own. -/
theorem Consistent.put {fs : Fs} (h : v.Consistent) (he : Extends (v.others i) (v.fs i) fs) :
    (v.put i fs).Consistent := by
  have hsize : (v.put i fs).size = v.size := he.size
  have hmeta : (v.put i fs).metadata = v.metadata := by
    unfold metadata
    rw [hsize]
    rfl
  -- a block of an inode is one of this inode, or one of another that has it already
  have hcases : ∀ j p b, ((v.put i fs).fs j).blockAt p = some b →
      j = i ∧ fs.blockAt p = some b ∨ j ≠ i ∧ (v.fs j).blockAt p = some b ∧ b ∈ v.others i := by
    intro j p b hb
    obtain rfl | hne := eq_or_ne j i
    · rw [put_fs_self] at hb
      exact .inl ⟨rfl, hb⟩
    · rw [blockAt_put_of_ne he hne] at hb
      exact .inr ⟨hne, hb, .inr ⟨j, hne, p, hb⟩⟩
  refine ⟨⟨hsize ▸ h.size_le, fun b hb => he.apart.kept b (.inl (hmeta ▸ hb)), fun j p b hb => ?_,
    fun j p b hb => ?_, fun j k p q b hj hk => ?_, fun j b hb => ?_⟩,
    fun b hb hused => he.apart.fresh b hb hused⟩
  · obtain ⟨-, hb⟩ | ⟨-, -, hb⟩ := hcases j p b hb
    · exact he.apart.used p b hb
    · exact he.apart.kept b hb
  · rw [hmeta]
    obtain ⟨-, hb⟩ | ⟨-, hb, -⟩ := hcases j p b hb
    · exact not_lt.1 fun hlt => he.apart.notMem p b hb (.inl hlt)
    · exact h.behind j p b hb
  · obtain ⟨hji, hjb⟩ | ⟨-, hjb, hjO⟩ := hcases j p b hj <;>
      obtain ⟨hki, hkb⟩ | ⟨-, hkb, hkO⟩ := hcases k q b hk
    · exact ⟨hji.trans hki.symm, he.apart.inj p q b hjb hkb⟩
    · exact absurd hkO (he.apart.notMem p b hjb)
    · exact absurd hjO (he.apart.notMem q b hkb)
    · exact h.inj j k p q b hjb hkb
  · rw [hsize]
    obtain ⟨-, hb⟩ | ⟨-, hb, -⟩ := hcases j .indirect b hb
    · exact (he.apart.pointer b hb).trans_eq he.size
    · exact h.pointer j b hb

/-- The blocks in the log are those of their places. -/
def Logged (v : Volume ι) (log : List (ι × ℕ × ℕ)) : Prop :=
  ∀ i bn b, (i, bn, b) ∈ log → (v.fs i).blockAt (.data bn) = some b

/-- **A call on one inode** keeps the blocks of all. -/
theorem Consistent.next {l : ι × Call} {log : List (ι × ℕ × ℕ)} (h : v.Consistent)
    (hx : calls.next v l = some v') :
    v'.Consistent ∧ (∀ j p b, (v.fs j).blockAt p = some b → (v'.fs j).blockAt p = some b) ∧
      (v.Logged log → v'.Logged (v.answers l log)) := by
  obtain ⟨i, call⟩ := l
  obtain ⟨fs, hfs, rfl⟩ := Option.map_eq_some_iff.1 hx
  have ha := (h.apart i).bmaps hfs
  refine ⟨h.put ha.extends_, fun j p b => blockAt_put ha.extends_, fun hlog j bn b hmem => ?_⟩
  obtain hold | hnew := List.mem_append.1 hmem
  · exact blockAt_put ha.extends_ (hlog j bn b hold)
  · obtain ⟨x, hx, heq⟩ := List.mem_map.1 hnew
    cases heq
    rw [put_fs_self]
    exact ha.answers _ hx

/-- **All runs of calls** -/
theorem Consistent.run {ls : List (ι × Call)} {log : List (ι × ℕ × ℕ)} (h₀ : v₀.Consistent)
    (h : (calls.track answers).run (v₀, []) ls = some (v, log)) :
    v.Consistent ∧ (∀ j p b, (v₀.fs j).blockAt p = some b → (v.fs j).blockAt p = some b) ∧
      v.Logged log := by
  -- the invariant: consistent, every old block in its place, every answer a block of its place
  refine Machine.run_invariant (I := fun x => x.1.Consistent ∧
    (∀ j p b, (v₀.fs j).blockAt p = some b → (x.1.fs j).blockAt p = some b) ∧ x.1.Logged x.2) h
    ⟨h₀, fun _ _ _ => id, fun _ _ _ hmem => absurd hmem List.not_mem_nil⟩ ?_
  rintro ⟨w, log⟩ l ⟨w', log'⟩ ⟨hw, hkeeps, hlog⟩ hx
  obtain ⟨hnext, rfl⟩ := Machine.track_next_eq_some.1 hx
  obtain ⟨hw', hkeeps', hlog'⟩ := hw.next hnext
  exact ⟨hw', fun j p b hb => hkeeps' j p b (hkeeps j p b hb), hlog' hlog⟩

/-- Storing a checksum changes no answer of `bmap`, for this inode or another. -/
theorem Consistent.map_fst_bmap_setChecksum {fs : Fs} {bn : ℕ} {c : UInt8} (h : v.Consistent)
    (ht : (v.ip i).type = .checked) (hb : (v.fs i).blockAt (.data bn) ≠ none)
    (hx : (v.fs i).setChecksum bn c = .ok fs) (j : ι) (bn' : ℕ) :
    (((v.put i fs).fs j).bmap bn').map Prod.fst = ((v.fs j).bmap bn').map Prod.fst := by
  obtain ⟨b, hb⟩ := Option.ne_none_iff_exists'.1 hb
  obtain ⟨he, hat, hused⟩ := (h.apart i).setChecksum ht hb hx
  have hsame : ((v.put i fs).fs j).blockAt = (v.fs j).blockAt := by
    funext p
    obtain rfl | hne := eq_or_ne j i
    · rw [put_fs_self, hat]
    · exact blockAt_put_of_ne he hne p
  have hused' : ((v.put i fs).fs j).used = (v.fs j).used := hused
  have hsize : ((v.put i fs).fs j).size = (v.fs j).size := he.size
  rw [((h.put he).apart j).map_fst_bmap, (h.apart j).map_fst_bmap, hsame, hused', hsize]

/-- The block `b` exists for `bn`: `bmap` has returned it, or the inode had it in the beginning. -/
def Known (v₀ : Volume ι) (log : List (ι × ℕ × ℕ)) (i : ι) (bn b : ℕ) : Prop :=
  (i, bn, b) ∈ log ∨ (v₀.fs i).blockAt (.data bn) = some b

/-- **The mapping of blocks is stable and injective**: in all runs of calls on the inodes of a consistent
disk, `bmap` returns the same block again wherever one exists, these blocks are different, and none is
the indirect block of an inode; and storing a checksum for a block changes none of the answers. -/
theorem bmap_stable {ls : List (ι × Call)} {log : List (ι × ℕ × ℕ)} (h₀ : v₀.Consistent)
    (h : (calls.track answers).run (v₀, []) ls = some (v, log)) :
    (∀ i bn b, v₀.Known log i bn b → (v.fs i).bmap bn = .ok (b, v.fs i)) ∧
    (∀ i bn b b', v₀.Known log i bn b → v₀.Known log i bn b' → b = b') ∧
    (∀ i j bn bn' b, v₀.Known log i bn b → v₀.Known log j bn' b → i = j ∧ bn = bn') ∧
    (∀ i j bn b, v₀.Known log i bn b → (v.ip j).addrs NDIRECT ≠ b) ∧
    ∀ i bn c fs, (v.ip i).type = .checked → (v.fs i).blockAt (.data bn) ≠ none →
      (v.fs i).setChecksum bn c = .ok fs →
      ∀ j bn', (((v.put i fs).fs j).bmap bn').map Prod.fst = ((v.fs j).bmap bn').map Prod.fst := by
  obtain ⟨hv, hkeeps, hlog⟩ := h₀.run h
  have hat : ∀ i bn b, v₀.Known log i bn b → (v.fs i).blockAt (.data bn) = some b :=
    fun i bn b hb => hb.elim (hlog i bn b) (hkeeps i (.data bn) b)
  refine ⟨fun i bn b hb => (hv.apart i).bmap_of_blockAt (hat i bn b hb), fun i bn b b' hb hb' => ?_,
    fun i j bn bn' b hi hj => ?_, fun i j bn b hb hp => ?_, fun i bn c fs ht hb hx =>
      hv.map_fst_bmap_setChecksum ht hb hx⟩
  · exact Option.some.inj ((hat i bn b hb).symm.trans (hat i bn b' hb'))
  · obtain ⟨hij, hbn⟩ := hv.inj i j _ _ b (hat i bn b hi) (hat j bn' b hj)
    exact ⟨hij, Place.data.inj hbn⟩
  · have hdata := hat i bn b hb
    have hne := (hv.apart i).ne_zero hdata
    have hpointer : (v.fs j).blockAt .indirect = some b :=
      blockAt_indirect_eq_some.2 ⟨fun h0 => hne (hp.symm.trans h0), hp⟩
    cases (hv.inj i j _ _ b hdata hpointer).2

/-! ### Examples of disks -/

omit [DecidableEq ι] in
/-- The blocks of a plain inode without an indirect block -/
theorem blockAt_eq_some_of_direct {p : Place} {b : ℕ} (ht : (v.ip i).type ≠ .checked)
    (hp : (v.ip i).addrs NDIRECT = 0) (hb : (v.fs i).blockAt p = some b) :
    b ≠ 0 ∧ ∃ bn < NDIRECT, p = .data bn ∧ (v.ip i).addrs bn = b := by
  cases p with
  | indirect => exact absurd hp (blockAt_indirect_eq_some.1 hb).1
  | data bn =>
    obtain ⟨hne, hmask⟩ := blockAt_data_eq_some.1 hb
    have hlt : bn < NDIRECT := not_le.1 fun hge => (addrOf_ne_zero hne).2 hge hp
    rw [addrOf_direct hlt] at hne hmask
    have hb : (v.ip i).addrs bn = b := (if_neg ht).symm.trans hmask
    exact ⟨hb ▸ hne, bn, hlt, rfl, hb⟩

theorem mem_found_of_fetch {fs fs₁ : Fs} {bn b : ℕ} {data : Bytes}
    (hf : fs.fetch bn = .ok (b, data, fs₁)) : (bn, b) ∈ fs.found bn := by
  obtain ⟨⟨b', fs'⟩, hb, hx⟩ := bind_eq_ok.1 hf
  obtain ⟨data', -, hx⟩ := bind_eq_ok.1 hx
  cases hx
  rw [found, hb]
  exact List.mem_singleton_self _

/-- A byte is written, if `bmap` finds a block of the disk. -/
theorem next_write_one {fs fs₁ : Fs} {b : ℕ} {data : Bytes} (off : UInt32)
    (hoff : ¬ fs.Refused off.toNat 1) (hclip : clip off.toNat 1 = 1)
    (hf : fs.fetch (off.toNat / BSIZE) = .ok (b, data, fs₁))
    (hs : fs₁.ip.type = .checked → ∀ c, ∃ fs₂, fs₁.setChecksum (off.toNat / BSIZE) c = .ok fs₂)
    (src : Bytes) : (∃ fs', Fs.calls.next fs (.write src off 1) = some fs') ∧
      (off.toNat / BSIZE, b) ∈ fs.bmaps (.write src off 1) := by
  have hone : (1 : UInt32).toNat = 1 := rfl
  have hpos := piece_pos off.toNat (show 0 < BSIZE by decide) (show 0 < 1 - 0 by decide)
  constructor
  · obtain ⟨fs₂, hp⟩ : ∃ fs₂, Fs.writePiece src (summed 1) (piece BSIZE off.toNat (1 - 0)) 0 off.toNat fs =
        .ok fs₂ := by
      rw [writePiece_of_fetch hf]
      split
      next ht =>
        obtain ⟨fs₂, hfs₂⟩ := hs ht (xorSum (summed 1)
          (patch data (off.toNat % BSIZE) (piece BSIZE off.toNat (1 - 0)) (slice src 0)))
        exact ⟨_, by rw [hfs₂]; rfl⟩
      · exact ⟨_, rfl⟩
    -- the one piece is all there is to write
    have hl : writeLoop src 1 (summed 1) 0 off.toNat fs =
        .ok (off.toNat + piece BSIZE off.toNat (1 - 0), fs₂) := by
      rw [writeLoop_of_lt Nat.zero_lt_one, hp]
      change writeLoop _ _ _ _ _ _ = _
      rw [writeLoop, dif_neg (by omega)]
    obtain ⟨x, hx⟩ : ∃ x, fs.writei src off.toNat 1 = .ok x := by
      rw [writei_eq, if_neg hoff, hclip, hl, Except.bind]
      split <;> exact ⟨_, rfl⟩
    exact ⟨x.2, by simp only [Fs.calls, perform, hone, hx, Except.map]⟩
  · rw [bmaps, hone, if_neg hoff, hclip, writeBmaps, dif_pos Nat.zero_lt_one]
    exact List.mem_append_left _ (mem_found_of_fetch hf)

/-- A byte is read from a plain file. -/
theorem next_read_one {fs fs₁ : Fs} {b : ℕ} {data : Bytes} (off : UInt32)
    (hoff : ¬ fs.Refused off.toNat 1) (hrest : rest fs.ip.size off.toNat 1 = 1)
    (hf : fs.fetch (off.toNat / BSIZE) = .ok (b, data, fs₁)) (ht : fs₁.ip.type ≠ .checked)
    (dst : Bytes) : Fs.calls.next fs (.read dst off 1) = some fs₁ ∧
      (off.toNat / BSIZE, b) ∈ fs.bmaps (.read dst off 1) := by
  have hone : (1 : UInt32).toNat = 1 := rfl
  have hpos := piece_pos off.toNat (show 0 < BSIZE by decide) (show 0 < 1 - 0 by decide)
  constructor
  · obtain ⟨dst', hl⟩ : ∃ dst', readLoop 1 (summed 1) 0 off.toNat 0 dst fs = .ok (some dst', fs₁) := by
      rw [readLoop_of_lt Nat.zero_lt_one hf, if_neg ht, readLoop, dif_neg (by omega)]
      exact ⟨_, rfl⟩
    have hx : fs.readi dst off.toNat 1 = .ok (1, dst', fs₁) := by
      rw [readi_eq, if_neg hoff, hrest, hl]
      rfl
    simp only [Fs.calls, perform, hone, hx, Except.map]
  · rw [bmaps, hone, if_neg hoff, hrest, readBmaps, dif_pos Nat.zero_lt_one]
    exact List.mem_append_left _ (mem_found_of_fetch hf)

/-- A locked inode of the type `T_FILE` -/
def plainFile (inum size : ℕ) (addrs : ℕ → ℕ) : Inode :=
  { type := .file, nlink := 1, size := size, addrs := addrs, dev := 1, inum := inum, ref := 1
    busy := true, valid := true }

/-- Two files of 6144 bytes and one byte, and an unused block that lists the block of the second file -/
def stale : Volume Bool where
  size := 4096
  ninodes := 8
  used b := b < 41
  block b a := if b = 41 ∧ a = 0 then 40 else 0
  dip _ := ⟨.file, 1, 0, fun _ => 0⟩
  ip
    | true => plainFile 2 6144 fun bn => if bn < 12 then 20 + bn else 0
    | false => plainFile 3 1 fun bn => if bn = 0 then 40 else 0

theorem blockAt_stale {i : Bool} {p : Place} {b : ℕ} (hb : (stale.fs i).blockAt p = some b) :
    ∃ bn, p = .data bn ∧ (i = true ∧ bn < 12 ∧ b = 20 + bn ∨ i = false ∧ bn = 0 ∧ b = 40) := by
  cases i with
  | true =>
    obtain ⟨-, bn, hlt, rfl, heq⟩ := blockAt_eq_some_of_direct (by simp [stale, plainFile]) rfl hb
    exact ⟨bn, rfl, .inl ⟨rfl, hlt, ((if_pos hlt).symm.trans heq).symm⟩⟩
  | false =>
    obtain ⟨hne, bn, -, rfl, heq⟩ := blockAt_eq_some_of_direct (by simp [stale, plainFile]) rfl hb
    have h0 : bn = 0 := by
      by_contra h0
      exact hne (((if_neg h0).symm.trans heq).symm)
    exact ⟨bn, rfl, .inr ⟨rfl, h0, ((if_pos h0).symm.trans heq).symm⟩⟩

theorem stale_marked : stale.Marked := by
  refine ⟨by decide, fun b hb => ?_, fun i p b hb => ?_, fun i p b hb => ?_,
    fun i j p q b hi hj => ?_, fun i b hb => ?_⟩
  · have hlt : b < 5 := hb
    exact decide_eq_true (by omega)
  · obtain ⟨bn, -, ⟨-, hlt, rfl⟩ | ⟨-, -, rfl⟩⟩ := blockAt_stale hb
    · exact decide_eq_true (by omega)
    · rfl
  · change 5 ≤ b
    obtain ⟨bn, -, ⟨-, -, rfl⟩ | ⟨-, -, rfl⟩⟩ := blockAt_stale hb <;> omega
  · obtain ⟨bn, rfl, ⟨rfl, hlt, rfl⟩ | ⟨rfl, rfl, rfl⟩⟩ := blockAt_stale hi <;>
      obtain ⟨bn', rfl, ⟨rfl, hlt', hb⟩ | ⟨rfl, rfl, hb⟩⟩ := blockAt_stale hj
    · obtain rfl : bn = bn' := by omega
      exact ⟨rfl, rfl⟩
    · omega
    · omega
    · exact ⟨rfl, rfl⟩
  · obtain ⟨bn, hp, -⟩ := blockAt_stale hb
    cases hp

theorem findFree_of_forall {used : ℕ → Bool} {k b n : ℕ} (hn : n < k)
    (hused : ∀ i < n, used (b + i) = true) (hfree : used (b + n) = false) :
    findFree used k b = some (b + n) := by
  induction n generalizing k b with
  | zero =>
    obtain ⟨k, rfl⟩ := Nat.exists_eq_add_of_lt hn
    rw [findFree, if_neg (by simpa using hfree)]
    rfl
  | succ n ih =>
    obtain ⟨k, rfl⟩ := Nat.exists_eq_succ_of_ne_zero (Nat.ne_zero_of_lt hn)
    have hb : used b = true := hused 0 (Nat.succ_pos n)
    have hshift : ∀ i, b + 1 + i = b + (i + 1) := fun i => by omega
    rw [findFree, if_pos hb, ← hshift n]
    refine ih (Nat.lt_of_succ_lt_succ hn) (fun i hi => ?_) ?_
    · rw [hshift]
      exact hused (i + 1) (Nat.succ_lt_succ hi)
    · rw [hshift]
      exact hfree

theorem newBlock_of_forall {size n : ℕ} {used : ℕ → Bool} (hn : n < (size + BPB - 1) / BPB * BPB)
    (hused : ∀ i < n, used i = true) (hfree : used n = false) : newBlock size used = .ok n := by
  have h := findFree_of_forall (b := 0) hn (by simpa using hused) (by simpa using hfree)
  rw [newBlock, h, Nat.zero_add]

/-- The indirect block of the first file becomes the one that is not zero. -/
theorem fetch_stale : ∃ data fs₁, (stale.fs true).fetch 12 = .ok (40, data, fs₁) ∧ fs₁.ip.type = .file := by
  have hnew : newBlock 4096 stale.used = .ok 41 :=
    newBlock_of_forall (by decide) (fun i hi => decide_eq_true hi) rfl
  have hind : (stale.fs true).withIndirect 12 =
      .ok (((stale.fs true).setUsed 41 true).setAddr NDIRECT 41) := by
    rw [withIndirect_of_none (by decide) rfl]
    change (newBlock 4096 stale.used).bind _ = _
    rw [hnew]
    rfl
  have hmap : (stale.fs true).bmap 12 =
      .ok (40, ((stale.fs true).setUsed 41 true).setAddr NDIRECT 41) := by
    rw [bmap_eq rfl (by decide), hind]
    rfl
  exact ⟨_, _, by rw [fetch, hmap]; rfl, rfl⟩

theorem fetch_stale_direct : (stale.fs false).fetch 0 = .ok (40, stale.block 40, stale.fs false) := rfl

theorem track_next {fs : Fs} {call : Call} (h : Fs.calls.next (v.fs i) call = some fs)
    (log : List (ι × ℕ × ℕ)) : (calls.track answers).next (v, log) (i, call) =
      some (v.put i fs, v.answers (i, call) log) :=
  Machine.track_next_eq_some.2 ⟨Option.map_eq_some_iff.2 ⟨fs, h, rfl⟩, rfl⟩

omit [DecidableEq ι] in
theorem mem_answers {x : ℕ × ℕ} {call : Call} (h : x ∈ (v.fs i).bmaps call) (log : List (ι × ℕ × ℕ)) :
    (i, x) ∈ v.answers (i, call) log :=
  List.mem_append_right _ (List.mem_map_of_mem h)

theorem put_fs (v : Volume ι) (i : ι) : v.put i (v.fs i) = v := by
  simp [put, fs]

/-- The second file is read, and a byte is appended to the first one. -/
theorem not_injective_of_marked : ¬ ∀ (v₀ v : Volume Bool) ls log, v₀.Marked →
    (calls.track answers).run (v₀, []) ls = some (v, log) →
    ∀ i j bn bn' b, (i, bn, b) ∈ log → (j, bn', b) ∈ log → i = j ∧ bn = bn' := by
  intro h
  obtain ⟨data, fs₁, hf, ht⟩ := fetch_stale
  obtain ⟨hread, hmem⟩ := next_read_one 0 (by decide) rfl fetch_stale_direct (by decide) fun _ => 0
  obtain ⟨⟨fs₂, hwrite⟩, hmem'⟩ := next_write_one 6144 (by decide) rfl hf (by simp [ht]) fun _ => 0
  have hfirst := track_next hread []
  rw [put_fs] at hfirst
  have hsecond := track_next hwrite (stale.answers (false, .read (fun _ => 0) 0 1) [])
  have hrun := Machine.run_cons_eq_some.2 ⟨_, hfirst, Machine.run_cons_eq_some.2
    ⟨_, hsecond, Machine.run_nil _⟩⟩
  have heq := h stale _ _ _ stale_marked hrun false true 0 12 40
    (List.mem_append_left _ (mem_answers hmem [])) (mem_answers hmem' _)
  exact absurd heq.1 (by decide)

/-- A formatted disk with two new files, of which one is checked -/
def formatted : Volume Bool where
  size := mkfs.size
  ninodes := 200
  used := mkfs.used
  block := mkfs.block
  dip
    | true => (mkfs.create .checked).dip
    | false => (mkfs.create .file).dip
  ip
    | true => (mkfs.create .checked).ip
    | false => (mkfs.create .file).ip

theorem blockAt_formatted (i : Bool) (p : Place) : (formatted.fs i).blockAt p = none := by
  cases p with
  | indirect => cases i <;> rfl
  | data bn =>
    refine blockAt_data_eq_none.2 ?_
    by_contra hne
    obtain ⟨-, hp⟩ := addrOf_ne_zero hne
    by_cases hlt : bn < NDIRECT
    · rw [addrOf_direct hlt] at hne
      cases i <;> exact hne rfl
    · cases i <;> exact hp (not_lt.1 hlt) rfl

theorem formatted_consistent : formatted.Consistent where
  size_le := by decide
  metadata b hb := decide_eq_true (show b < 29 from hb)
  used i p b hb := by simp [blockAt_formatted] at hb
  behind i p b hb := by simp [blockAt_formatted] at hb
  inj i j p q b hb := by simp [blockAt_formatted] at hb
  pointer i b hb := by simp [blockAt_formatted] at hb
  fresh := mkfs.free_zero

theorem fetch_formatted : (formatted.fs true).fetch 0 =
    .ok (29, mkfs.block 29, ((formatted.fs true).setUsed 29 true).setAddr 0 29) := by
  have hnew : newBlock 1024 mkfs.used = .ok 29 :=
    newBlock_of_forall (by decide) (fun i hi => decide_eq_true hi) rfl
  have hb : (formatted.fs true).balloc = .ok (29, (formatted.fs true).setUsed 29 true) := by
    rw [balloc_eq]
    change (newBlock 1024 mkfs.used).map _ = _
    rw [hnew]
    rfl
  have hz : (formatted.fs true).addrOf 0 = 0 := rfl
  have hmask : ((formatted.fs true).setUsed 29 true).mask 29 = 29 := by
    rw [mask, and_ffffff, Nat.mod_eq_of_lt (by decide), ite_self]
  have hmap : (formatted.fs true).bmap 0 =
      .ok (29, ((formatted.fs true).setUsed 29 true).setAddr 0 29) := by
    have hind : (formatted.fs true).withIndirect 0 = .ok (formatted.fs true) := if_pos (by decide)
    rw [bmap_eq rfl (by decide), hind, Except.bind, dataAt, if_pos hz, hb, ok_bind]
    dsimp only
    rw [hmask, setAddrOf, if_pos (by decide)]
  rw [fetch, hmap, ok_bind]
  rfl

/-- A byte is written to the checked file. -/
theorem bmap_stable_formatted : ∃ v log,
    (calls.track answers).run (formatted, []) [(true, .write (fun _ => 1) 0 1)] = some (v, log) ∧
      (v.fs true).bmap 0 = .ok (29, v.fs true) := by
  obtain ⟨hfetch, hat⟩ := (formatted_consistent.apart true).fetch fetch_formatted
  have hsum := hfetch.extends_.apart.setChecksum_eq hat
  obtain ⟨⟨fs, hwrite⟩, hmem⟩ :=
    next_write_one 0 (by decide) rfl fetch_formatted (fun _ c => ⟨_, hsum c⟩) fun _ => 1
  have hrun := Machine.run_cons_eq_some.2 ⟨_, track_next hwrite [], Machine.run_nil _⟩
  exact ⟨_, _, hrun, (bmap_stable formatted_consistent hrun).1 true 0 29 (.inl (mem_answers hmem []))⟩

end Volume

end Fs

end OperatingSystems

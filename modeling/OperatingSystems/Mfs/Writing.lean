import OperatingSystems.Mfs.Effects

/-!
# What writing a block writes

* `Written` : the block of a regular file was written, and its inode adjusted.
* `Server.sWrite_written` : a successful `sWrite` does this, and nothing else to the objects of the
  image; an unsuccessful one does nothing to it.
-/

namespace OperatingSystems

namespace Mfs

open Bytes

/-- Block `b` of the file `k`, whose inode is at `a`, was written at `x`. -/
structure Written (m m' : Bytes) (L : Layout) (k a b x : ℕ) (buff : Bytes) : Prop where
  frame : L.Frame (fun o => o = .checkpoint ∨ o = .inode k ∨ o = .block k b) m m'
  type_eq : statType (slice m' a) = statType (slice m a)
  /-- The inode was written with the size that comes from the number of the block. -/
  size : ∃ inode, EqTo inodeSize (slice m' a) (setSize inode ((b + 1) * 4096))
  block : blockArr (slice m' a) b = x
  content : EqTo blockSize (slice m' x) buff

namespace Server

variable {s s' : Server} {L : Layout} {n p k a b x : ℕ} {junk : Junk} {inode buff : Bytes}

theorem appendBlock_written (h : Loaded s L n p) (ha : L.addr (.inode k) = some a)
    (hinode : EqTo inodeSize inode (slice s.disk.bytes a)) (hb : b < 14)
    (hok : s.appendBlock junk a inode b = .ok s') (buff : Bytes) :
    Written s.disk.bytes (s'.write blockSize buff).disk.bytes L k a b L.stop buff := by
  have htables := h.tables
  have hstop := htables.stop_lt
  have hawithin : a + inodeSize ≤ L.stop := L.within _ _ ha
  unfold appendBlock at hok
  dsimp only at hok
  obtain ⟨t, ht, hok⟩ := bind_eq_ok.1 hok
  obtain ⟨-, hdisk, hchkpt⟩ := (advance_unless _ _).of_ok ht
  rw [h.endLog_eq] at hok
  cases hok
  set inode' := setSize (setBlock inode b L.stop) ((b + 1) * 4096) with hinode'
  set m₁ := patch s.disk.bytes L.stop blockSize (emptyDir (junk .nDirBlk)) with hm₁
  have hbytes : (((((t.writeChkpt.lseek a).write inodeSize inode').lseek L.stop).write blockSize
      buff)).disk.bytes = patch (patch (patch m₁ 0 checkpointSize t.chkpt) a inodeSize inode')
        L.stop blockSize buff := by
    rw [write_bytes, write_bytes, writeChkpt_bytes, hdisk, h.endLog_eq, write_bytes]
  rw [hbytes]
  have hslice : EqTo inodeSize (slice (patch (patch (patch m₁ 0 checkpointSize t.chkpt) a inodeSize
      inode') L.stop blockSize buff) a) inode' :=
    (slice_patch_of_disjoint (Or.inr hawithin)).trans (slice_patch _ _ _ _)
  refine ⟨?_, ?_, ⟨_, hslice⟩, ?_, slice_patch _ _ _ _⟩
  · have h₁ : L.Frame (fun o => o = .checkpoint ∨ o = .inode k ∨ o = .block k b) s.disk.bytes m₁ :=
      Log.frame_write_behind le_rfl
    exact ((h₁.trans (Log.frame_write (Or.inl rfl) htables.checkpoint le_rfl le_rfl)).trans
      (Log.frame_write (Or.inr (Or.inl rfl)) ha le_rfl le_rfl)).trans
      (Log.frame_write_behind le_rfl)
  · rw [statType_eq hslice, statType_setSize, statType_setBlock, statType_eq hinode]
  · rw [blockArr_eq hslice hb, blockArr_setSize, blockArr_setBlock (by omega), if_pos rfl]

/-- What `sWrite` writes if the block exists. -/
theorem overwritten (h : Loaded s L n p) (ha : L.addr (.inode k) = some a)
    (hinode : EqTo inodeSize inode (slice s.disk.bytes a)) (hb : b < 14)
    (hx : L.addr (.block k b) = some x) (buff : Bytes) :
    Written s.disk.bytes (patch (patch s.disk.bytes a inodeSize (setSize inode ((b + 1) * 4096))) x
      blockSize buff) L k a b x buff := by
  have hblk : blockArr inode b = (x : ℤ) := by
    rw [blockArr_eq hinode hb, h.image.block k a ha b hb, hx, ref_some]
  have hdisjoint : a + inodeSize ≤ x ∨ x + blockSize ≤ a := L.disjoint _ _ _ _ (by simp) ha hx
  set inode' := setSize inode ((b + 1) * 4096) with hinode'
  have hslice : EqTo inodeSize (slice (patch (patch s.disk.bytes a inodeSize inode') x blockSize
      buff) a) inode' := (slice_patch_of_disjoint (by omega)).trans (slice_patch _ _ _ _)
  refine ⟨?_, ?_, ⟨_, hslice⟩, ?_, slice_patch _ _ _ _⟩
  · have h₁ : L.Frame (fun o => o = .checkpoint ∨ o = .inode k ∨ o = .block k b) s.disk.bytes
        (patch s.disk.bytes a inodeSize inode') :=
      Log.frame_write (Or.inr (Or.inl rfl)) ha le_rfl le_rfl
    exact h₁.trans (Log.frame_write (Or.inr (Or.inr rfl)) hx le_rfl le_rfl)
  · rw [statType_eq hslice, statType_setSize, statType_eq hinode]
  · rw [blockArr_eq hslice hb, blockArr_setSize, hblk]

theorem overwriteBlock_bytes (s : Server) (hblk : blockArr inode b = (x : ℤ)) (buff : Bytes) :
    ((s.overwriteBlock a inode b).write blockSize buff).disk.bytes =
      patch (patch s.disk.bytes a inodeSize (setSize inode ((b + 1) * 4096))) x blockSize buff := by
  simp only [overwriteBlock, blockArr_setSize, hblk, write_bytes]

/-- A block that exists is written. -/
theorem sWrite_of_block (h : Loaded s L n p) (ha : L.addr (.inode k) = some a)
    (hreg : statType (slice s.disk.bytes a) = REGULAR_FILE) (hb : b < 14)
    (hx : L.addr (.block k b) = some x) (junk : Junk) (buff : Bytes) :
    ∃ y inode, s.sWrite junk k buff b = .ok y ∧ y.2 = 0 ∧
      EqTo inodeSize inode (slice s.disk.bytes a) ∧ y.1.disk.size = s.disk.size ∧
      y.1.disk.bytes = patch (patch s.disk.bytes a inodeSize (setSize inode ((b + 1) * 4096))) x
        blockSize buff := by
  obtain ⟨hl, hbytes⟩ := h.readOnly.loadMem junk
  have hk := h.inode_lt ha
  have hinode := hl.read_inode ha (junk .inode)
  rw [hbytes] at hinode
  have hloc : (s.loadMem junk).inodeArr k = a := by rw [hl.inodeArr_eq, ha, ref_some]
  have hblk : blockArr (((s.loadMem junk).lseek a).read inodeSize (junk .inode)).2 b = (x : ℤ) := by
    rw [blockArr_eq hinode hb, h.image.block k a ha b hb, hx, ref_some]
  have hainside := (L.within _ _ ha).trans h.size
  have hxinside := (L.within _ _ hx).trans h.size
  unfold sWrite
  rw [if_neg (by omega), if_neg (by omega)]
  simp only [Int.toNat_natCast, hloc, hblk]
  rw [if_neg (by omega), if_neg (by rw [not_not, statType_eq hinode, hreg]), if_neg (by omega)]
  refine ⟨_, _, rfl, rfl, hinode, ?_, ?_⟩
  · simp only [Obj.size] at hainside hxinside
    simp only [loadMem_size, overwriteBlock, blockArr_setSize, hblk, write_size, lseek_size, read_size]
    omega
  · rw [loadMem_bytes, overwriteBlock_bytes _ hblk, read_bytes, lseek_bytes, loadMem_bytes]

/-- **What `sWrite` writes.** -/
theorem sWrite_written (h : Loaded s L n p) {inum blk : ℤ} {y : Server × ℤ}
    (hok : s.sWrite junk inum buff blk = .ok y) :
    (y.2 = -1 ∧ (y.1 = s ∨ Alike (s.loadMem junk) y.1)) ∨
    (y.2 = 0 ∧ ∃ k b a x : ℕ, inum = k ∧ blk = b ∧ k < 4096 ∧ b < 14 ∧
      L.addr (.inode k) = some a ∧ statType (slice s.disk.bytes a) = REGULAR_FILE ∧
      Written s.disk.bytes y.1.disk.bytes L k a b x buff) := by
  obtain ⟨hl, hbytes⟩ := h.readOnly.loadMem junk
  unfold sWrite at hok
  dsimp only at hok
  -- the checks of the arguments
  split at hok
  · rw [← Except.ok.inj hok]; exact Or.inl ⟨rfl, Or.inl rfl⟩
  split at hok
  · rw [← Except.ok.inj hok]; exact Or.inl ⟨rfl, Or.inl rfl⟩
  split at hok
  · rw [← Except.ok.inj hok]
    refine Or.inl ⟨rfl, Or.inr ?_⟩
    simpa only using Alike.refl (s.loadMem junk)
  rename_i hinum hblk hloc
  obtain ⟨k, rfl⟩ := Int.eq_ofNat_of_zero_le (by omega : 0 ≤ inum)
  obtain ⟨b, rfl⟩ := Int.eq_ofNat_of_zero_le (by omega : 0 ≤ blk)
  simp only [Int.toNat_natCast] at hok hloc
  rw [hl.inodeArr_eq, ref_eq_neg_one] at hloc
  obtain ⟨a, ha⟩ := Option.ne_none_iff_exists'.1 hloc
  have hread := (h.readOnly.loadMem junk).read a inodeSize (junk .inode)
  have hinode := hl.read_inode ha (junk .inode)
  rw [hbytes] at hinode
  rw [hl.inodeArr_eq, ha, ref_some] at hok
  split at hok
  · rw [← Except.ok.inj hok]
    exact Or.inl ⟨rfl, Or.inr ((Alike.refl (s.loadMem junk)).read a inodeSize (junk .inode))⟩
  rename_i hreg
  rw [not_not] at hreg
  have hregular : statType (slice s.disk.bytes a) = REGULAR_FILE := by
    rw [← statType_eq hinode, hreg]
  rw [← hread.2] at hinode
  split at hok
  · -- a new block is appended, and one that is there is written over
    obtain ⟨t, ht, hok⟩ := bind_eq_ok.1 hok
    rw [← Except.ok.inj hok]
    have hw := appendBlock_written hread.1 ha hinode (by omega) ht buff
    rw [hread.2] at hw
    refine Or.inr ⟨rfl, k, b, a, L.stop, rfl, rfl, by omega, by omega, ha, hregular, ?_⟩
    rw [loadMem_bytes]
    exact hw
  · rename_i hne
    obtain ⟨t, ht, hok⟩ := bind_eq_ok.1 hok
    rw [← Except.ok.inj hok, ← Except.ok.inj ht]
    rw [blockArr_eq hinode (by omega), hread.1.image.block k a ha b (by omega),
      ref_eq_neg_one] at hne
    obtain ⟨x, hx⟩ := Option.ne_none_iff_exists'.1 hne
    have hw := overwritten hread.1 ha hinode (by omega) hx buff
    rw [hread.2] at hw
    have hblk := hread.1.image.block k a ha b (by omega)
    rw [← blockArr_eq hinode (by omega), hx, ref_some] at hblk
    refine Or.inr ⟨rfl, k, b, a, x, rfl, rfl, by omega, by omega, ha, hregular, ?_⟩
    rw [loadMem_bytes, overwriteBlock_bytes _ hblk, hread.2]
    exact hw

end Server

end Mfs

end OperatingSystems

import OperatingSystems.Mfs.Storage
import OperatingSystems.Mfs.Insertion

/-!
# Creating files

`sCreate` takes the next inode, for every sixteenth of them after a new piece of the inode map, and
enters it in the directory, for every sixty-fourth entry in a new block.

* `Server.cInode_spec` : the new inode has the number `n`, and the image grows by it.
* `Server.putEntry_spec` : the entry is written to a block of the directory.
* `Server.sCreate_spec` : `sCreate` keeps all regular files.
-/

namespace OperatingSystems

namespace Mfs

open Bytes

namespace Server

variable {s s' : Server} {L L' : Layout} {n p k a : ℕ} {junk : Junk}

/-- `s'` has an image with `n` inodes that evolved from the one of `s`. -/
def Grows (s s' : Server) (L : Layout) (n p : ℕ) : Prop :=
  ∃ L', Loaded s' L' n p ∧ Evolves s.disk.bytes L s'.disk.bytes L' fun _ _ => False

theorem ReadOnly.grows (h : ReadOnly s s' L n p) : Grows s s' L n p := by
  refine ⟨L, h.1, ?_⟩
  rw [h.2]
  exact Evolves.refl _ _ _

theorem grows_of_stored (h : Stored s' L' n p)
    (hevolves : Evolves s.disk.bytes L s'.disk.bytes L' fun _ _ => False) (junk : Junk) :
    Grows s (s'.loadMem junk) L n p ∧ (s'.loadMem junk).disk.bytes = s'.disk.bytes := by
  obtain ⟨hl, hbytes, -⟩ := loadMem_spec h junk
  refine ⟨⟨L', hl, ?_⟩, hbytes⟩
  rw [hbytes]
  exact hevolves

/-! ### The new inode -/

theorem Loaded.find_inode (h : Loaded s L n p) (hn : n < 4096) :
    ((List.range 4096).find? fun i => s.inodeArr i = -1) = some n := by
  rw [List.find?_range_eq_some]
  refine ⟨?_, List.mem_range.2 hn, fun j hj => ?_⟩
  · rw [decide_eq_true_eq, h.inodeArr_eq, ref_eq_neg_one, ← Option.not_isSome_iff_eq_none,
      h.image.inode_iff]
    exact lt_irrefl n
  · rw [h.inodeArr_eq, Bool.not_eq_true', decide_eq_false_iff_not, ref_eq_neg_one,
      ← Option.not_isSome_iff_eq_none, not_not, h.image.inode_iff]
    exact hj

theorem cImapPiece_spec (h : Loaded s L n p) (hp : p < 256) (junk : Junk) :
    UnlessOverflow (s.cImapPiece junk) fun s' =>
      Grows s s' L n (p + 1) ∧ KeepsInodes s.disk.bytes L s'.disk.bytes := by
  obtain ⟨hl, hbytes⟩ := h.readOnly.loadMem junk
  have hlt := h.image.stop_lt
  have hend : word (setWord (s.loadMem junk).chkpt p L.stop) 0 256 = L.stop := by
    rw [word_setWord_of_ne (by omega)]
    exact hl.endLog_eq
  unfold cImapPiece
  simp only [hl.tables.find_piece hp]
  refine (advance_spec _ _).bind ?_
  rintro s' ⟨hov, hdisk, hchkpt⟩
  rw [hl.endLog_eq, endLog, hend] at hov hchkpt
  rw [hl.endLog_eq]
  refine .ok ?_
  obtain ⟨himage, hevolves, hkeeps⟩ := hl.image.put_piece hp hl.chkpt (by exact_mod_cast hov)
    (show ((s'.writeChkpt.lseek L.stop).write imapSize (ofWords fun _ => -1)).disk.bytes = _ by
      rw [write_bytes, writeChkpt_bytes, hdisk, hchkpt])
  rw [hbytes] at hevolves hkeeps
  have hsize : (L.append (.piece p)).stop ≤
      ((s'.writeChkpt.lseek L.stop).write imapSize (ofWords fun _ => -1)).disk.size := by
    simp only [write_size, L.append_stop, Obj.size]
    omega
  obtain ⟨hgrows, hbytes'⟩ := grows_of_stored ⟨himage, hsize⟩ hevolves junk
  refine ⟨hgrows, ?_⟩
  rw [hbytes']
  exact hkeeps

theorem putInode_spec (h : Loaded s L n p) (hn : n < 16 * p) {type : ℤ}
    (htype : type = 0 ∨ type = 1) (junk : Junk) (pinum : ℤ) :
    UnlessOverflow (s.putInode junk pinum type n) fun s' =>
      Grows s s' L (n + 1) p ∧ KeepsInodes s.disk.bytes L s'.disk.bytes := by
  have hlt := h.image.stop_lt
  have hp := h.image.p_le
  obtain ⟨i, hi⟩ : ∃ i, L.addr (.piece (n / 16)) = some i := by
    rw [← Option.isSome_iff_exists, h.image.piece_iff]
    omega
  have himap : s.imap (n / 16) = (i : ℤ) := by
    rw [h.imap_eq (by omega), hi]; rfl
  have hpiece : EqTo imapSize ((s.lseek i).read imapSize (junk .imapTemp)).2
      (slice s.disk.bytes i) := read_eqTo ((L.within _ _ hi).trans h.size) _
  unfold putInode
  simp only [read_imap, lseek_imap, read_endLog, lseek_endLog, write_endLog, himap, h.endLog_eq]
  refine (advance_spec _ _).bind ?_
  rintro s₁ ⟨hov₁, hdisk₁, hchkpt₁⟩
  refine (advance_spec _ _).bind ?_
  rintro s₂ ⟨hov₂, hdisk₂, hchkpt₂⟩
  refine .ok ?_
  simp only [read_endLog, lseek_endLog, write_endLog, h.endLog_eq, write_chkpt, lseek_chkpt,
    read_chkpt] at hov₁ hchkpt₁ hov₂ hchkpt₂
  have hend : s₁.endLog = (L.stop : ℤ) + inodeSize := by
    rw [endLog, hchkpt₁, word_setWord_self (by omega)]
  have hpos : s₁.disk.pos = L.stop + inodeSize := by rw [hdisk₁, write_pos]
  rw [hend] at hov₂ hchkpt₂
  obtain ⟨himage, hevolves, hkeeps⟩ := h.image.put_inode hn h.chkpt hi hpiece htype
    (by exact_mod_cast hov₂) (show s₂.writeChkpt.disk.bytes = _ by
      rw [writeChkpt_bytes, hdisk₂, write_bytes_pos, hpos, hdisk₁, write_bytes, write_bytes,
        read_bytes, lseek_bytes, hchkpt₂, hchkpt₁])
  have hsize : ((L.append (.inode n)).append (.block n 0)).stop ≤ s₂.writeChkpt.disk.size := by
    rw [writeChkpt_size, hdisk₂, write_size_pos, hpos]
    simp only [Log.append_stop, Obj.size]
    omega
  obtain ⟨hgrows, hbytes⟩ := grows_of_stored ⟨himage, hsize⟩ hevolves junk
  refine ⟨hgrows, ?_⟩
  rw [hbytes]
  exact hkeeps

theorem cInode_spec (h : Loaded s L n ((n + 15) / 16)) (hn : n < 4096) {type : ℤ}
    (htype : type = 0 ∨ type = 1) (junk : Junk) (pinum : ℤ) :
    UnlessOverflow (s.cInode junk pinum type) fun x =>
      Grows s x.1 L (n + 1) ((n + 1 + 15) / 16) ∧ KeepsInodes s.disk.bytes L x.1.disk.bytes := by
  obtain ⟨hl, hbytes⟩ := h.readOnly.loadMem junk
  unfold cInode
  simp only [hl.find_inode hn]
  have hput : ∀ s', Grows s s' L n ((n + 1 + 15) / 16) ∧ KeepsInodes s.disk.bytes L s'.disk.bytes →
      UnlessOverflow (do
        let s ← s'.putInode junk pinum type n
        .ok (s, n)) fun x => Grows s x.1 L (n + 1) ((n + 1 + 15) / 16) ∧
          KeepsInodes s.disk.bytes L x.1.disk.bytes := by
    rintro s' ⟨⟨L', hl', hevolves⟩, hkeeps⟩
    refine (putInode_spec hl' (by omega) htype junk pinum).bind ?_
    rintro s'' ⟨⟨L'', hl'', hevolves'⟩, hkeeps'⟩
    exact .ok ⟨⟨L'', hl'', hevolves.trans hevolves'⟩, hevolves.keepsInodes_trans hkeeps hkeeps'⟩
  split_ifs with hmod
  · refine (cImapPiece_spec hl (by omega) junk).bind fun s' hs' => hput s' ?_
    rw [show (n + 1 + 15) / 16 = (n + 15) / 16 + 1 by omega]
    obtain ⟨⟨L', hl', hevolves⟩, hkeeps⟩ := hs'
    rw [hbytes] at hevolves hkeeps
    exact ⟨⟨L', hl', hevolves⟩, hkeeps⟩
  · refine UnlessOverflow.bind (.ok ⟨?_, ?_⟩) hput
    · rw [show (n + 1 + 15) / 16 = (n + 15) / 16 by omega]
      exact (h.readOnly.loadMem junk).grows
    · rw [hbytes]
      exact fun _ _ _ => EqTo.refl _ _

/-! ### The entry in the directory -/

theorem appendDirBlock_spec (h : Loaded s L n p) (ha : L.addr (.inode k) = some a)
    {pInode : Bytes} (hinode : ∀ b < 14, blockArr pInode b = blockArr (slice s.disk.bytes a) b)
    (htype : statType pInode = statType (slice s.disk.bytes a))
    (hdir : statType pInode = DIRECTORY) {b : ℕ}
    (hsize : DirSize (L.append (.block k b)) k (statSize pInode)) :
    UnlessOverflow (s.appendDirBlock junk pInode b) fun y => blockArr y.2 b = L.stop ∧
      HasBlock s ((y.1.lseek a).write inodeSize y.2) L n p k b L.stop := by
  have hlt := h.image.stop_lt
  unfold appendDirBlock
  refine (advance_spec _ _).bind ?_
  rintro s' ⟨hov, hdisk, hchkpt⟩
  rw [h.endLog_eq] at *
  refine .ok ⟨by rw [blockArr_setBlock (by omega), if_pos rfl], ?_⟩
  refine h.hasBlock (e := emptyDir (junk .newDirBlk)) (i := setBlock pInode b L.stop) ha hov ?_ ?_
    (fun b' hb' => ?_) ?_ (Or.inr ⟨?_, ?_⟩) fun hk => ?_
  · simp only [write_bytes, writeChkpt_bytes, hdisk, hchkpt, write_endLog, lseek_endLog,
      write_chkpt, lseek_chkpt]
  · simp only [write_size, writeChkpt_size, hdisk]
    omega
  · rw [blockArr_setBlock (by omega), hinode b' hb']
  · rw [statType_setBlock, htype]
  · rw [statType_setBlock, hdir]
  · rw [statSize_setBlock]; exact hsize
  · obtain ⟨a', ha', hreg⟩ := hk
    rw [Option.some.inj (ha'.symm.trans ha), ← htype, hdir] at hreg
    cases hreg

theorem writeEntry_spec {x b : ℕ} {pInode : Bytes} {name name' : List UInt8} {newInum : ℕ}
    (h : HasBlock s ((s'.lseek a).write inodeSize pInode) L n p k b x)
    (hblock : blockArr pInode b = x) (ha : L.addr (.inode k) = some a)
    (hk : ¬ Regular s.disk.bytes L k) (hname : sprintf name [60] = some name')
    (hlen : name'.length < 60) (i : ℕ)
    (junk : Junk) :
    UnlessOverflow (s'.writeEntry junk a pInode b i name newInum) fun y => Grows s y.1 L n p := by
  obtain ⟨L', hstored, hevolves, hx⟩ := h
  obtain ⟨hl, hbytes, hsize⟩ := loadMem_spec hstored junk
  unfold writeEntry
  simp only [hname, hblock]
  rw [if_neg (by omega)]
  refine .ok ?_
  dsimp only
  obtain ⟨himage, hwrite⟩ := hstored.image.write_block hx (setEntry
    (((((s'.lseek a).write inodeSize pInode).loadMem junk).lseek x).read blockSize
      (junk .dirBlk)).2 i name' newInum)
  have hchain := hevolves.trans (hwrite.mono fun _ _ hP => hevolves.not_regular ha hk hP.1)
  refine (grows_of_stored (show Stored _ L' n p from ⟨?_, ?_⟩) ?_ junk).1
  · rw [write_bytes, read_bytes, lseek_bytes, hbytes]
    exact himage
  · rw [write_size, read_size, lseek_size, hsize]
    exact hstored.size.trans (le_max_left _ _)
  · rw [write_bytes, read_bytes, lseek_bytes, hbytes]
    exact hchain

theorem putEntry_spec (h : Loaded s L n p) (ha : L.addr (.inode k) = some a) {pInode : Bytes}
    (hinode : EqTo inodeSize pInode (slice s.disk.bytes a)) (hdir : statType pInode = DIRECTORY)
    (hfull : statSize pInode < 4096 * 14 * 64) {name name' : List UInt8}
    (hname : sprintf name [60] = some name') (hlen : name'.length < 60) (junk : Junk)
    (newInum : ℕ) :
    UnlessOverflow (s.putEntry junk a pInode name newInum) fun y => Grows s y.1 L n p := by
  have htype := statType_eq hinode
  have hk : ¬ Regular s.disk.bytes L k := by
    rintro ⟨a', ha', hreg⟩
    rw [Option.some.inj (ha'.symm.trans ha), ← htype, hdir] at hreg
    cases hreg
  obtain ⟨c, hc, -, hsize, hblocks⟩ : DirSize L k (statSize pInode) := by
    rcases h.image.file k a ha with hreg | ⟨-, hsize⟩
    · exact absurd ⟨a, ha, hreg⟩ hk
    · rwa [statSize_eq hinode]
  have hlt : c < 14 * 64 := by omega
  have hind : (statSize pInode).tdiv (4096 * 64) = ((c / 64 : ℕ) : ℤ) := by
    rw [hsize, Int.tdiv_eq_ediv_of_nonneg (by omega)]
    omega
  have hind' : ((statSize pInode).tdiv 4096).tmod 64 = ((c % 64 : ℕ) : ℤ) := by
    rw [hsize, Int.tdiv_eq_ediv_of_nonneg (by omega), Int.tmod_eq_emod_of_nonneg (by omega)]
    omega
  have hino : ∀ b < 14, blockArr (setSize pInode (statSize pInode + 4096)) b =
      blockArr (slice s.disk.bytes a) b := fun b hb => by
    rw [blockArr_setSize, blockArr_eq hinode hb]
  have htype' : statType (setSize pInode (statSize pInode + 4096)) =
      statType (slice s.disk.bytes a) := by rw [statType_setSize, htype]
  have hdir' : statType (setSize pInode (statSize pInode + 4096)) = DIRECTORY := by
    rw [statType_setSize, hdir]
  have hsize' : statSize (setSize pInode (statSize pInode + 4096)) = 4096 * (c + 1 : ℕ) := by
    rw [statSize_setSize (by omega), hsize]
    omega
  unfold putEntry
  simp only [hind, hind', Int.toNat_natCast]
  rw [if_neg (by omega), if_neg (by omega)]
  -- the second half: the entry is written into its block
  have hwrite : ∀ y : Server × Bytes, (∃ x : ℕ, blockArr y.2 (c / 64) = x ∧
      HasBlock s ((y.1.lseek a).write inodeSize y.2) L n p k (c / 64) x) →
      UnlessOverflow (y.1.writeEntry junk a y.2 (c / 64) (c % 64) name newInum) fun y =>
        Grows s y.1 L n p := by
    rintro y ⟨x, hx, hy⟩
    exact writeEntry_spec hy hx ha hk hname hlen _ junk
  -- the first entry of a block comes with the block
  split_ifs with hzero
  · refine ((appendDirBlock_spec h ha hino htype' hdir' ?_).mono fun y hy => ⟨_, hy⟩).bind hwrite
    refine ⟨c + 1, by omega, by omega, hsize', fun b hb => ?_⟩
    by_cases hb' : b = c / 64
    · rw [hb', L.append_addr_self]; rfl
    · rw [L.append_addr_of_ne (by simpa using hb')]
      exact hblocks b (by omega)
  · obtain ⟨x, hx⟩ := Option.isSome_iff_exists.1 (hblocks (c / 64) (by omega))
    obtain ⟨himage, hevolves⟩ := h.image.write_size ha hino htype' (Or.inr ⟨hdir', c + 1, by omega,
      by omega, hsize', fun b hb => hblocks b (by omega)⟩)
    refine UnlessOverflow.bind (.ok ⟨x, ?_, L, ⟨?_, ?_⟩, ?_, hx⟩) hwrite
    · rw [hino _ (by omega), h.image.block k a ha _ (by omega), hx]; rfl
    · rw [write_bytes]; exact himage
    · rw [write_size]; exact h.size.trans (le_max_left _ _)
    · rw [write_bytes]; exact hevolves

/-- The new file is the next inode of the image. -/
theorem sCreate_grows (h : Loaded s L n ((n + 15) / 16)) (hn : n < 4096) {type : ℤ}
    {name name' : List UInt8} (he : Enters s junk k type name)
    (hname : sprintf name [60] = some name') (hlen : name'.length < 60) :
    UnlessOverflow (s.sCreate junk k type name) fun y =>
      Grows s y.1 L (n + 1) ((n + 1 + 15) / 16) := by
  have hl : ReadOnly s (s.sLookup junk k name).1 L n ((n + 15) / 16) := sLookup_readOnly h k name
  have hloc := he.used
  have hdir := he.directory
  have hroom := he.room
  rw [sCreate_of_enters he]
  unfold parent at hdir hroom ⊢
  dsimp only at hdir hroom ⊢
  rw [h.inodeArr_eq, Int.toNat_natCast] at hloc
  rw [hl.1.inodeArr_eq, Int.toNat_natCast] at hdir hroom ⊢
  cases ha : L.addr (.inode k) with
  | none => exact absurd (by rw [ha]; rfl) hloc
  | some a =>
    rw [ha, ref_some] at hdir hroom
    have hread := hl.read a inodeSize (junk .inode)
    have hinode := hl.1.read_inode ha (junk .inode)
    rw [ref_some]
    refine (cInode_spec hread.1 hn he.valid junk k).bind ?_
    rintro ⟨s', newInum⟩ ⟨⟨L', hl', hevolves⟩, hkeeps⟩
    have hinode' := EqTo.trans hinode (hkeeps _ a ha).symm
    refine (putEntry_spec hl' (hevolves.inode _ a ha) hinode' hdir hroom hname hlen junk
      newInum).mono ?_
    rintro y ⟨L'', hl'', hevolves'⟩
    rw [hread.2] at hevolves
    exact ⟨L'', hl'', hevolves.trans hevolves'⟩

theorem sCreate_readOnly (h : Loaded s L n p) {pinum type : ℤ} {name : List UInt8}
    (he : ¬ Enters s junk pinum type name) (hpinum : pinum ≠ 4096) :
    ∃ s' r, s.sCreate junk pinum type name = .ok (s', r) ∧ ReadOnly s s' L n p := by
  obtain ⟨s', r, hok, hs'⟩ := sCreate_of_not_enters he hpinum
  refine ⟨s', r, hok, ?_⟩
  obtain rfl | ⟨-, halike⟩ := hs'
  · exact h.readOnly
  · have hl := h.readOnly.loadMem junk
    exact ⟨hl.1.congr halike.bytes halike.size halike.chkpt halike.iArr, halike.bytes.trans hl.2⟩

/-- **`sCreate` keeps the regular files**, and creates at most one file. -/
theorem sCreate_spec (h : Loaded s L n ((n + 15) / 16)) (hn : n < 4096) (junk : Junk) {pinum : ℤ}
    (hpinum : pinum ≠ 4096) (type : ℤ) {name : List UInt8} (hname : 37 ∉ name) :
    UnlessOverflow (s.sCreate junk pinum type name) fun y =>
      ∃ n', Grows s y.1 L n' ((n' + 15) / 16) := by
  by_cases he : Enters s junk pinum type name
  · obtain ⟨k, rfl⟩ := Int.eq_ofNat_of_zero_le he.range.1
    exact (sCreate_grows h hn he (sprintf_eq hname _) he.length.2).mono fun y hy => ⟨n + 1, hy⟩
  · obtain ⟨s', r, hok, hs'⟩ := sCreate_readOnly h he hpinum
    exact Or.inr ⟨_, hok, n, hs'.grows⟩

end Server

end Mfs

end OperatingSystems

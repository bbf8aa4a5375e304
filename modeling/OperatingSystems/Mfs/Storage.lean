import OperatingSystems.Mfs.Loading

/-!
# What requests do to the image

* `UnlessOverflow r Q` : the request succeeds with `Q`, or `endLog` overflows.
* `Image.link_block`, `Image.put_inode`, `Image.write_block` : the writes of the server, as changes
  of an image.
* `Server.sWrite_spec`, `Server.sCreate_spec` : what `sWrite` and `sCreate` do.
-/

namespace OperatingSystems

namespace Mfs

open Bytes

/-- The request succeeds with `Q`, or `endLog` overflows. -/
def UnlessOverflow {α : Type} (r : Except Stop α) (Q : α → Prop) : Prop :=
  r = .error .overflow ∨ ∃ x, r = .ok x ∧ Q x

namespace UnlessOverflow

variable {α β : Type} {r : Except Stop α} {f : α → Except Stop β} {Q : α → Prop} {R : β → Prop}

theorem ok {x : α} (h : Q x) : UnlessOverflow (.ok x) Q := Or.inr ⟨x, rfl, h⟩

theorem bind (h : UnlessOverflow r Q) (hf : ∀ x, Q x → UnlessOverflow (f x) R) :
    UnlessOverflow (r >>= f) R := by
  rcases h with rfl | ⟨x, rfl, hx⟩
  · exact Or.inl rfl
  · exact hf x hx

theorem mono {Q' : α → Prop} (h : UnlessOverflow r Q) (hQ : ∀ x, Q x → Q' x) :
    UnlessOverflow r Q' :=
  h.imp_right fun ⟨x, hr, hx⟩ => ⟨x, hr, hQ x hx⟩

theorem of_ok (h : UnlessOverflow r Q) {x : α} (hr : r = .ok x) : Q x := by
  obtain herr | ⟨y, hy, hQ⟩ := h
  · rw [hr] at herr; cases herr
  · rw [hr] at hy
    cases hy
    exact hQ

end UnlessOverflow

/-! ### Writes to an image -/

namespace Image

variable {m m' : Bytes} {L : Layout} {n p k a b : ℕ} {chk e i : Bytes}

/-- A block is written. -/
theorem write_block (h : Image m L n p) {x : ℕ} (hx : L.addr (.block k b) = some x)
    (c : Bytes) : Image (patch m x blockSize c) L n p ∧
      Evolves m L (patch m x blockSize c) L fun k' b' => Regular m L k ∧ k' = k ∧ b' = b := by
  have hframe : L.Frame (· = .block k b) m (patch m x blockSize c) :=
    Log.frame_write rfl hx le_rfl le_rfl
  refine ⟨h.congr (hframe.mono fun o ho => ⟨k, b, ho⟩), Evolves.of_frame hframe nofun ?_⟩
  rintro k' b' hk he
  obtain ⟨rfl, rfl⟩ := Obj.block.inj he
  exact ⟨hk, rfl, rfl⟩

/-- An inode is written, with another size. -/
theorem write_size (h : Image m L n p) (ha : L.addr (.inode k) = some a)
    (hino : ∀ b < 14, blockArr i b = blockArr (slice m a) b)
    (htype : statType i = statType (slice m a))
    (hfile : statType i = REGULAR_FILE ∨
      statType i = DIRECTORY ∧ DirSize L k (statSize i)) :
    Image (patch m a inodeSize i) L n p ∧
      Evolves m L (patch m a inodeSize i) L fun _ _ => False := by
  have hslice : EqTo inodeSize (slice (patch m a inodeSize i) a) i := slice_patch m a _ i
  have hframe : L.Frame (· = .inode k) m (patch m a inodeSize i) :=
    Log.frame_write rfl ha le_rfl le_rfl
  constructor
  · refine h.update_inode ha hframe (fun b hb => ?_) ?_
    · rw [blockArr_eq hslice hb, hino b hb]
    · rw [statType_eq hslice, statSize_eq hslice]
      exact hfile
  · refine Evolves.of_frame hframe (fun k' a' ha' hk' => ?_) nofun
    obtain rfl := Obj.inode.inj hk'
    obtain rfl := Option.some.inj (ha.symm.trans ha')
    rw [statType_eq hslice, htype]

/-- A block is written at the end of the log, then the checkpoint, and then the inode with the
address of the block. -/
theorem link_block (h : Image m L n p) (hchk : EqTo checkpointSize chk m)
    (ha : L.addr (.inode k) = some a) (hstop : L.stop + blockSize < 2 ^ 31)
    (hm' : m' = patch (patch (patch m L.stop blockSize e) 0 checkpointSize
      (setWord chk 256 (L.stop + blockSize))) a inodeSize i)
    (hino : ∀ b' < 14, blockArr i b' =
      if b' = b then (L.stop : ℤ) else blockArr (slice m a) b')
    (htype : statType i = statType (slice m a))
    (hfile : statType i = REGULAR_FILE ∨
      statType i = DIRECTORY ∧ DirSize (L.append (.block k b)) k (statSize i))
    (hnew : Regular m L k → L.addr (.block k b) = none) :
    Image m' (L.append (.block k b)) n p ∧
      Evolves m L m' (L.append (.block k b)) fun _ _ => False := by
  set P : Obj → Prop := fun o => o = .checkpoint ∨ o = .inode k with hP
  have hframe₁ : L.Frame P m (patch m L.stop blockSize e) := Log.frame_write_behind le_rfl
  have hframe₂ : L.Frame P (patch m L.stop blockSize e) (patch (patch m L.stop blockSize e) 0
      checkpointSize (setWord chk 256 (L.stop + blockSize))) :=
    Log.frame_write (Or.inl rfl) h.checkpoint le_rfl le_rfl
  have hframe₃ : L.Frame (· = .inode k) (patch (patch m L.stop blockSize e) 0 checkpointSize
      (setWord chk 256 (L.stop + blockSize))) m' := by
    rw [hm']; exact Log.frame_write rfl ha le_rfl le_rfl
  have hframe : L.Frame P m m' := (hframe₁.trans hframe₂).trans (hframe₃.mono fun _ => Or.inr)
  have hword : ∀ i < 257, word m' 0 i = word (setWord chk 256 (L.stop + blockSize)) 0 i := by
    intro i hi
    rw [word_checkpoint (hframe₃ _ _ (by simp) h.checkpoint) hi,
      word_patch_self (by simp only [checkpointSize]; omega)]
  have hslice : EqTo inodeSize (slice m' a) i := by rw [hm']; exact slice_patch _ _ _ _
  have hneg : -2 ^ 31 ≤ (L.stop + blockSize : ℤ) ∧ (L.stop + blockSize : ℤ) < 2 ^ 31 := by omega
  constructor
  · refine h.append_block ha hstop ?_ (fun i hi => ?_) hframe (fun b' hb' => ?_) ?_
    · rw [hword 256 (by omega), word_setWord_self hneg]
    · rw [hword i (by omega), word_setWord_of_ne (by omega)]
      exact word_congr (n := checkpointSize) (by simpa using hchk)
        (by simp only [checkpointSize]; omega)
    · rw [blockArr_eq hslice hb', hino b' hb']
    · rw [statType_eq hslice, statSize_eq hslice]
      exact hfile
  · refine (Evolves.of_frame hframe (fun k' a' ha' hk' => ?_) (by simp [hP])).append (by simp) ?_
    · obtain rfl := Obj.inode.inj (hk'.resolve_left (by simp))
      obtain rfl := Option.some.inj (ha.symm.trans ha')
      rw [statType_eq hslice, htype]
    · rintro k' b' he hk'
      obtain ⟨rfl, rfl⟩ := Obj.block.inj he
      exact hnew hk'

/-- The checkpoint is written, and then a piece without inodes at the end of the log. -/
theorem put_piece (h : Image m L n p) (hp : p < 256) (hchk : EqTo checkpointSize chk m)
    (hstop : L.stop + imapSize < 2 ^ 31)
    (hm' : m' = patch (patch m 0 checkpointSize
      (setWord (setWord chk p L.stop) 256 (L.stop + imapSize))) L.stop imapSize
      (ofWords fun _ => -1)) :
    Image m' (L.append (.piece p)) n (p + 1) ∧
      Evolves m L m' (L.append (.piece p)) (fun _ _ => False) ∧ KeepsInodes m L m' := by
  have hframe₁ : L.Frame (· = .checkpoint) m (patch m 0 checkpointSize
      (setWord (setWord chk p L.stop) 256 (L.stop + imapSize))) :=
    Log.frame_write rfl h.checkpoint le_rfl le_rfl
  have hframe₂ : L.Frame (fun _ => False) (patch m 0 checkpointSize
      (setWord (setWord chk p L.stop) 256 (L.stop + imapSize))) m' := by
    rw [hm']; exact Log.frame_write_behind le_rfl
  have hframe : L.Frame (· = .checkpoint) m m' := hframe₁.trans (hframe₂.mono fun _ => False.elim)
  have hword : ∀ i < 257, word m' 0 i =
      word (setWord (setWord chk p L.stop) 256 (L.stop + imapSize)) 0 i := by
    intro i hi
    rw [word_checkpoint (hframe₂ _ _ (by simp) h.checkpoint) hi,
      word_patch_self (by simp only [checkpointSize]; omega)]
  have hneg : -2 ^ 31 ≤ (L.stop + imapSize : ℤ) ∧ (L.stop + imapSize : ℤ) < 2 ^ 31 := by omega
  have hneg' : -2 ^ 31 ≤ (L.stop : ℤ) ∧ (L.stop : ℤ) < 2 ^ 31 := by omega
  refine ⟨?_, ?_, fun k a ha => hframe _ _ (by simp) ha⟩
  · refine h.append_piece hp hstop ?_ (fun i hi => ?_) (fun j hj => ?_) hframe
    · rw [hword 256 (by omega), word_setWord_self hneg]
    · rw [hword i (by omega), word_setWord_of_ne (by omega)]
      split_ifs with hip
      · rw [hip, word_setWord_self hneg']
      · rw [word_setWord_of_ne hip]
        exact word_congr (n := checkpointSize) (by simpa using hchk)
          (by simp only [checkpointSize]; omega)
    · rw [hm', word_patch_self (by simp only [imapSize]; omega), word_ofWords (by omega)]
  · exact (Evolves.of_frame hframe (by simp) (by simp)).append (by simp) (by simp)

/-- The entry of the inode `n` is written, then the inode and its first block at the end of the
log, and then the checkpoint. -/
theorem put_inode {i : ℕ} {type : ℤ} {piece c : Bytes} (h : Image m L n p) (hn : n < 16 * p)
    (hchk : EqTo checkpointSize chk m) (hi : L.addr (.piece (n / 16)) = some i)
    (hpiece : EqTo imapSize piece (slice m i)) (htype : type = 0 ∨ type = 1)
    (hstop : L.stop + inodeSize + blockSize < 2 ^ 31)
    (hm' : m' = patch (patch (patch (patch m i imapSize (setWord piece (n % 16) L.stop))
      L.stop inodeSize (Server.newInode type L.stop)) (L.stop + inodeSize) blockSize c) 0 checkpointSize
      (setWord (setWord chk 256 (L.stop + inodeSize)) 256 (L.stop + inodeSize + blockSize))) :
    Image m' ((L.append (.inode n)).append (.block n 0)) (n + 1) p ∧
      Evolves m L m' ((L.append (.inode n)).append (.block n 0)) (fun _ _ => False) ∧
      KeepsInodes m L m' := by
  set P : Obj → Prop := fun o => o = .checkpoint ∨ o = .piece (n / 16) with hP
  set m₁ := patch m i imapSize (setWord piece (n % 16) L.stop) with hm₁
  set m₂ := patch m₁ L.stop inodeSize (Server.newInode type L.stop) with hm₂
  set m₃ := patch m₂ (L.stop + inodeSize) blockSize c with hm₃
  have hframe₁ : L.Frame P m m₁ := Log.frame_write (Or.inr rfl) hi le_rfl le_rfl
  have hframe₂ : L.Frame (· = .checkpoint) m₁ m' := by
    have h₂ : L.Frame (· = .checkpoint) m₁ m₂ := Log.frame_write_behind le_rfl
    have h₃ : L.Frame (· = .checkpoint) m₂ m₃ := Log.frame_write_behind (Nat.le_add_right _ _)
    have h₄ : L.Frame (· = .checkpoint) m₃ m' := by
      rw [hm']; exact Log.frame_write rfl h.checkpoint le_rfl le_rfl
    exact (h₂.trans h₃).trans h₄
  have hframe : L.Frame P m m' := hframe₁.trans (hframe₂.mono fun _ => Or.inl)
  have hword : ∀ j < 257, word m' 0 j = word (setWord (setWord chk 256 (L.stop + inodeSize)) 256
      (L.stop + inodeSize + blockSize)) 0 j := by
    intro j hj
    rw [hm', word_patch_self (by simp only [checkpointSize]; omega)]
  have hslice : EqTo inodeSize (slice m' L.stop) (Server.newInode type L.stop) := by
    have h₃ : EqTo inodeSize (slice m₃ L.stop) (slice m₂ L.stop) :=
      slice_patch_of_disjoint (Or.inr le_rfl)
    have h₄ : EqTo inodeSize (slice m' L.stop) (slice m₃ L.stop) := by
      rw [hm']; exact slice_patch_of_disjoint (Or.inl (by simpa using h.stop_ge))
    exact h₄.trans (h₃.trans (slice_patch _ _ _ _))
  have hlt : (L.stop + inodeSize + blockSize : ℤ) < 2 ^ 31 := by exact_mod_cast hstop
  have hsizes : (0 : ℤ) ≤ inodeSize ∧ (0 : ℤ) ≤ blockSize := by omega
  have hnone : ∀ b, L.addr (.block n b) = none := fun b => by
    rw [← Option.not_isSome_iff_eq_none]
    exact fun hb => lt_irrefl _ (h.owner n b hb)
  refine ⟨?_, ?_, fun k a ha => hframe _ _ (by simp [hP]) ha⟩
  · refine h.append_inode hn hi hstop ?_ (fun j hj => ?_) hframe (fun j hj => ?_)
      (fun b hb => ?_) ?_
    · rw [hword 256 (by omega), word_setWord_self (by omega)]
    · rw [hword j (by omega), word_setWord_of_ne (by omega), word_setWord_of_ne (by omega)]
      exact word_congr (n := checkpointSize) (by simpa using hchk)
        (by simp only [checkpointSize]; omega)
    · rw [word_piece (hframe₂ _ _ (by simp) hi) hj, hm₁,
        word_patch_self (by simp only [imapSize]; omega)]
      split_ifs with hjn
      · rw [hjn, word_setWord_self (by omega)]
      · rw [word_setWord_of_ne hjn, ← word_slice m i j]
        exact word_congr (n := imapSize) (by simpa using hpiece)
          (by simp only [imapSize]; omega)
    · rw [blockArr_eq hslice hb, blockArr, Server.newInode]
      cases b with
      | zero =>
        rw [word_ofWords (by simp only [Nat.add_zero]; omega)]
        simp
      | succ b =>
        rw [show 2 + (b + 1) = b + 3 by omega, word_ofWords (by simp only []; omega)]
        simp
    · rw [statType_eq hslice, statSize_eq hslice, statType, statSize, Server.newInode]
      rcases htype with rfl | rfl
      · right
        rw [word_ofWords (by simp), word_ofWords (by simp)]
        simp [DIRECTORY]
      · left
        rw [word_ofWords (by simp)]
        rfl
  · have hkept : Evolves m L m' L fun _ _ => False :=
      Evolves.of_frame hframe (fun k _ _ hk => absurd hk (by simp [hP]))
        (fun k b _ hk => absurd hk (by simp [hP]))
    have happend : Evolves m L m' (L.append (.inode n)) fun _ _ => False := by
      refine hkept.append (fun k he => ?_) (by simp)
      rw [← Option.not_isSome_iff_eq_none, h.inode_iff]
      exact lt_irrefl _
    refine happend.append (by simp) ?_
    rintro k b he -
    exact hnone 0

end Image

/-! ### Writing a block -/

namespace Server

variable {s s' : Server} {L L' : Layout} {n p k a b : ℕ} {junk : Junk}

theorem advance_spec (s : Server) (k : ℕ) : UnlessOverflow (s.advance k) fun s' =>
    s.endLog + k < 2 ^ 31 ∧ s'.disk = s.disk ∧
      s'.chkpt = setWord s.chkpt 256 (s.endLog + k) := by
  unfold advance
  split_ifs with h
  · exact .ok ⟨h, rfl, rfl⟩
  · exact Or.inl rfl

/-- Block `b` of the inode `k` is at `x` in the image of `s'`, and nothing else was changed that
matters. -/
def HasBlock (s s' : Server) (L : Layout) (n p k b x : ℕ) : Prop :=
  ∃ L', Stored s' L' n p ∧ Evolves s.disk.bytes L s'.disk.bytes L' (fun _ _ => False) ∧
    L'.addr (.block k b) = some x

theorem Loaded.hasBlock (h : Loaded s L n p) {e i : Bytes} (ha : L.addr (.inode k) = some a)
    (hstop : s.endLog + (4096 : ℕ) < 2 ^ 31)
    (hbytes : s'.disk.bytes = patch (patch (patch s.disk.bytes L.stop blockSize e) 0 checkpointSize
      (setWord s.chkpt 256 (s.endLog + (4096 : ℕ)))) a inodeSize i)
    (hsize : L.stop + blockSize ≤ s'.disk.size)
    (hino : ∀ b' < 14, blockArr i b' =
      if b' = b then (L.stop : ℤ) else blockArr (slice s.disk.bytes a) b')
    (htype : statType i = statType (slice s.disk.bytes a))
    (hfile : statType i = REGULAR_FILE ∨
      statType i = DIRECTORY ∧ DirSize (L.append (.block k b)) k (statSize i))
    (hnew : Regular s.disk.bytes L k → L.addr (.block k b) = none) :
    HasBlock s s' L n p k b L.stop := by
  rw [h.endLog_eq] at hstop hbytes
  obtain ⟨himage, hevolves⟩ := h.image.link_block h.chkpt ha (by simp only [blockSize]; omega)
    hbytes hino htype hfile hnew
  exact ⟨_, ⟨himage, hsize⟩, hevolves, L.append_addr_self⟩

theorem appendBlock_spec (h : Loaded s L n p) (ha : L.addr (.inode k) = some a) {inode : Bytes}
    (hinode : EqTo inodeSize inode (slice s.disk.bytes a)) (htype : statType inode = REGULAR_FILE)
    (hnone : L.addr (.block k b) = none) :
    UnlessOverflow (s.appendBlock junk a inode b) fun s' =>
      HasBlock s s' L n p k b s'.disk.pos := by
  have hend := h.endLog_eq
  have hlt := h.image.stop_lt
  refine (advance_spec _ _).bind ?_
  rintro s' ⟨hov, hdisk, hchkpt⟩
  refine .ok ?_
  rw [hend, lseek_pos]
  refine h.hasBlock (e := emptyDir (junk .nDirBlk))
    (i := setSize (setBlock inode b L.stop) ((b + 1) * 4096)) ha hov ?_ ?_ (fun b' hb' => ?_) ?_
    (Or.inl ?_) fun _ => hnone
  · simp only [lseek_bytes, write_bytes, writeChkpt_bytes, hdisk, hchkpt, hend, write_endLog,
      lseek_endLog, write_chkpt, lseek_chkpt]
  · simp only [lseek_size, write_size, writeChkpt_size, hdisk, hend]
    omega
  · rw [blockArr_setSize, blockArr_setBlock (by omega), blockArr_eq hinode hb']
  · rw [statType_setSize, statType_setBlock, statType_eq hinode]
  · rw [statType_setSize, statType_setBlock, htype]

theorem overwriteBlock_spec (h : Loaded s L n p) (ha : L.addr (.inode k) = some a) {inode : Bytes}
    (hinode : EqTo inodeSize inode (slice s.disk.bytes a)) (htype : statType inode = REGULAR_FILE)
    (hb : b < 14) {x : ℕ} (hx : L.addr (.block k b) = some x) :
    HasBlock s (s.overwriteBlock a inode b) L n p k b (s.overwriteBlock a inode b).disk.pos := by
  have hblk : blockArr inode b = (x : ℤ) := by
    rw [blockArr_eq hinode hb, h.image.block k a ha b hb, hx]; rfl
  have hend := L.within _ _ ha
  have hsize := h.size
  obtain ⟨himage, hevolves⟩ := h.image.write_size (i := setSize inode ((b + 1) * 4096)) ha
    (fun b' hb' => by rw [blockArr_setSize, blockArr_eq hinode hb'])
    (by rw [statType_setSize, statType_eq hinode])
    (Or.inl (by rw [statType_setSize, htype]))
  have hbytes : (s.overwriteBlock a inode b).disk.bytes =
      patch s.disk.bytes a inodeSize (setSize inode ((b + 1) * 4096)) := by
    simp only [overwriteBlock, lseek_bytes, write_bytes]
  have hpos : (s.overwriteBlock a inode b).disk.pos = x := by
    simp only [overwriteBlock, blockArr_setSize, hblk, lseek_pos]
  refine ⟨L, ⟨?_, ?_⟩, ?_, ?_⟩
  · rw [hbytes]; exact himage
  · simp only [overwriteBlock, lseek_size, write_size]
    omega
  · rw [hbytes]; exact hevolves
  · rw [hpos]; exact hx

/-- The block at the position of the file is written. -/
theorem write_hasBlock (h : HasBlock s s' L n p k b s'.disk.pos)
    (hk : Regular s.disk.bytes L k) (hb : b < 14) (buff : Bytes) (junk : Junk) :
    ∃ L', Loaded ((s'.write blockSize buff).loadMem junk) L' n p ∧
      Evolves s.disk.bytes L ((s'.write blockSize buff).loadMem junk).disk.bytes L'
        (fun k' b' => k' = k ∧ b' = b) ∧
      Contains ((s'.write blockSize buff).loadMem junk).disk.bytes L' k b buff := by
  obtain ⟨L', hs', hevolves, hx⟩ := h
  have hend := L'.within _ _ hx
  obtain ⟨himage, hwrite⟩ := hs'.image.write_block hx buff
  have hstored : Stored (s'.write blockSize buff) L' n p :=
    ⟨himage, hs'.size.trans (le_max_left _ _)⟩
  obtain ⟨hl, hbytes, -⟩ := loadMem_spec hstored junk
  have hchain := (hevolves.mono fun _ _ => False.elim).trans
    (hwrite.mono fun k' b' hkb => (⟨hkb.2.1, hkb.2.2⟩ : k' = k ∧ b' = b))
  refine ⟨L', hl, ?_, ?_⟩
  · rw [hbytes]; exact hchain
  · rw [hbytes]
    exact ⟨hchain.regular hk, hb, _, hx, slice_patch _ _ _ _⟩

/-- The part of `sWrite` after the inode was read and found to be that of a regular file. -/
theorem sWrite_regular (h : Loaded s L n p) (ha : L.addr (.inode k) = some a) {inode : Bytes}
    (hinode : EqTo inodeSize inode (slice s.disk.bytes a)) (htype : statType inode = REGULAR_FILE)
    (hb : b < 14) (buff : Bytes) (junk : Junk) :
    UnlessOverflow (do
      let s ← if blockArr inode b = -1 then s.appendBlock junk a inode b
        else .ok (s.overwriteBlock a inode b)
      .ok ((s.write blockSize buff).loadMem junk, (0 : ℤ))) fun x => x.2 = 0 ∧ ∃ L',
        Loaded x.1 L' n p ∧
        Evolves s.disk.bytes L x.1.disk.bytes L' (fun k' b' => k' = k ∧ b' = b) ∧
        Contains x.1.disk.bytes L' k b buff := by
  have hk : Regular s.disk.bytes L k := ⟨a, ha, by rw [← statType_eq hinode, htype]⟩
  have hwrite : ∀ s', HasBlock s s' L n p k b s'.disk.pos → UnlessOverflow
      (.ok ((s'.write blockSize buff).loadMem junk, (0 : ℤ))) fun x => x.2 = 0 ∧ ∃ L',
        Loaded x.1 L' n p ∧
        Evolves s.disk.bytes L x.1.disk.bytes L' (fun k' b' => k' = k ∧ b' = b) ∧
        Contains x.1.disk.bytes L' k b buff := by
    intro s' hs'
    refine .ok ⟨rfl, ?_⟩
    simpa only using write_hasBlock hs' hk hb buff junk
  have hblock := h.image.block k a ha b hb
  rw [← blockArr_eq hinode hb] at hblock
  rw [hblock]
  dsimp only
  cases hx : L.addr (.block k b) with
  | none =>
    rw [if_pos ref_none]
    exact (appendBlock_spec h ha hinode htype hx).bind hwrite
  | some x =>
    rw [if_neg (ref_eq_neg_one.not.2 (Option.some_ne_none x))]
    exact hwrite _ (overwriteBlock_spec h ha hinode htype hb hx)

/-- **`sWrite` writes the block, or does nothing.** -/
theorem sWrite_spec (h : Loaded s L n p) (junk : Junk) (inum : ℤ) (buff : Bytes) (blk : ℤ) :
    UnlessOverflow (s.sWrite junk inum buff blk) fun x => ∃ L', Loaded x.1 L' n p ∧
      Evolves s.disk.bytes L x.1.disk.bytes L'
        (fun k b => x.2 = 0 ∧ k = inum.toNat ∧ b = blk.toNat) ∧
      (x.2 = 0 → Contains x.1.disk.bytes L' inum.toNat blk.toNat buff) := by
  have hl := h.readOnly.loadMem junk
  have hnothing : ∀ s', ReadOnly s s' L n p → UnlessOverflow (.ok (s', -1)) fun x : Server × ℤ =>
      ∃ L', Loaded x.1 L' n p ∧ Evolves s.disk.bytes L x.1.disk.bytes L'
        (fun k b => x.2 = 0 ∧ k = inum.toNat ∧ b = blk.toNat) ∧
      (x.2 = 0 → Contains x.1.disk.bytes L' inum.toNat blk.toNat buff) := by
    intro s' hs'
    refine .ok ⟨L, hs'.1, ?_, nofun⟩
    rw [hs'.2]
    exact Evolves.refl _ _ _
  unfold sWrite
  dsimp only
  split
  · exact hnothing s h.readOnly
  split
  · exact hnothing s h.readOnly
  split
  · exact hnothing _ hl
  rename_i hinum hblk hloc
  rw [hl.1.inodeArr_eq] at hloc ⊢
  cases ha : L.addr (.inode inum.toNat) with
  | none => exact absurd (by rw [ha]; rfl) hloc
  | some a =>
    have hread := hl.read a inodeSize (junk .inode)
    have hinode := hl.1.read_inode ha (junk .inode)
    rw [← lseek_bytes _ a, ← read_bytes _ inodeSize (junk .inode)] at hinode
    rw [ref_some]
    split
    · exact hnothing _ hread
    rename_i hreg
    rw [not_not] at hreg
    have htail := sWrite_regular hread.1 ha hinode hreg (b := blk.toNat) (by omega) buff junk
    rw [hread.2] at htail
    exact htail.mono fun x hx => by
      obtain ⟨hx0, L', hl', hevolves, hcontains⟩ := hx
      exact ⟨L', hl', hevolves.mono fun k b hkb => ⟨hx0, hkb⟩, fun _ => hcontains⟩

end Server

end Mfs

end OperatingSystems

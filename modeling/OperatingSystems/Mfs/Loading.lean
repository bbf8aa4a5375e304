import OperatingSystems.Mfs.Image

/-!
# Loading an image

`loadMem` reads the checkpoint and the table of inodes from the image, and every request begins
with it.  The table is filled without gaps with the nonnegative entries of the pieces of the inode
map; in an image the inodes have the numbers from `0` on, so the table agrees with the map.

* `Server.Stored` : the image file is an image with the objects of `L`.
* `Server.Loaded` : moreover the tables in memory are those of the image.
* `Server.loadMem_spec` : `loadMem` takes a `Stored` server to a `Loaded` one.
* `Server.ReadOnly` : what all functions that do not write do, with `Server.sRead_readOnly`,
  `Server.sStat_readOnly` and `Server.sLookup_readOnly`.
* `Server.sRead_contains` : `sRead` returns what a block contains.
-/

namespace OperatingSystems

namespace Mfs

open Bytes

namespace Server

variable {s s' : Server} {L : Layout} {n p : ℕ} {junk : Junk}

/-! ### Reading and writing -/

@[simp] theorem lseek_bytes (s : Server) (off : ℤ) : (s.lseek off).disk.bytes = s.disk.bytes := by
  unfold lseek File.lseek; split_ifs <;> rfl

@[simp] theorem lseek_size (s : Server) (off : ℤ) : (s.lseek off).disk.size = s.disk.size := by
  unfold lseek File.lseek; split_ifs <;> rfl

@[simp] theorem lseek_chkpt (s : Server) (off : ℤ) : (s.lseek off).chkpt = s.chkpt := rfl

@[simp] theorem lseek_iArr (s : Server) (off : ℤ) : (s.lseek off).iArr = s.iArr := rfl

@[simp] theorem lseek_pos (s : Server) (a : ℕ) : (s.lseek a).disk.pos = a := by
  unfold lseek File.lseek
  rw [if_pos (Int.natCast_nonneg a)]
  rfl

@[simp] theorem read_bytes (s : Server) (n : ℕ) (buf : Bytes) :
    (s.read n buf).1.disk.bytes = s.disk.bytes := rfl

@[simp] theorem read_size (s : Server) (n : ℕ) (buf : Bytes) :
    (s.read n buf).1.disk.size = s.disk.size := rfl

@[simp] theorem read_chkpt (s : Server) (n : ℕ) (buf : Bytes) :
    (s.read n buf).1.chkpt = s.chkpt := rfl

@[simp] theorem read_iArr (s : Server) (n : ℕ) (buf : Bytes) : (s.read n buf).1.iArr = s.iArr := rfl

/-- Reading inside the image. -/
theorem read_eqTo {a n : ℕ} (h : a + n ≤ s.disk.size) (buf : Bytes) :
    EqTo n ((s.lseek a).read n buf).2 (slice s.disk.bytes a) := by
  intro i hi
  simp only [read, File.read, lseek_pos, lseek_size, lseek_bytes]
  rw [if_pos ⟨hi, by omega⟩]
  rfl

theorem word_of_read {a n i : ℕ} {buf : Bytes} (h : a + n ≤ s.disk.size) (hi : 4 * i + 4 ≤ n) :
    word ((s.lseek a).read n buf).2 0 i = word s.disk.bytes a i := by
  refine (word_congr ?_ hi).trans (word_slice s.disk.bytes a i)
  simpa using read_eqTo h buf

@[simp] theorem write_bytes (s : Server) (a n : ℕ) (buf : Bytes) :
    ((s.lseek a).write n buf).disk.bytes = patch s.disk.bytes a n buf := by
  simp only [write, File.write, lseek_bytes, lseek_pos]

@[simp] theorem write_size (s : Server) (a n : ℕ) (buf : Bytes) :
    ((s.lseek a).write n buf).disk.size = max s.disk.size (a + n) := by
  simp only [write, File.write, lseek_size, lseek_pos]

@[simp] theorem write_pos (s : Server) (a n : ℕ) (buf : Bytes) :
    ((s.lseek a).write n buf).disk.pos = a + n := by
  simp only [write, File.write, lseek_pos]

@[simp] theorem write_chkpt (s : Server) (n : ℕ) (buf : Bytes) :
    (s.write n buf).chkpt = s.chkpt := rfl

@[simp] theorem write_iArr (s : Server) (n : ℕ) (buf : Bytes) : (s.write n buf).iArr = s.iArr := rfl

theorem write_bytes_pos (s : Server) (n : ℕ) (buf : Bytes) :
    (s.write n buf).disk.bytes = patch s.disk.bytes s.disk.pos n buf := rfl

theorem write_size_pos (s : Server) (n : ℕ) (buf : Bytes) :
    (s.write n buf).disk.size = max s.disk.size (s.disk.pos + n) := rfl

@[simp] theorem lseek_endLog (s : Server) (off : ℤ) : (s.lseek off).endLog = s.endLog := rfl

@[simp] theorem read_endLog (s : Server) (n : ℕ) (buf : Bytes) :
    (s.read n buf).1.endLog = s.endLog := rfl

@[simp] theorem write_endLog (s : Server) (n : ℕ) (buf : Bytes) :
    (s.write n buf).endLog = s.endLog := rfl

@[simp] theorem read_imap (s : Server) (n : ℕ) (buf : Bytes) (i : ℕ) :
    (s.read n buf).1.imap i = s.imap i := rfl

@[simp] theorem lseek_imap (s : Server) (off : ℤ) (i : ℕ) : (s.lseek off).imap i = s.imap i := rfl

@[simp] theorem writeChkpt_bytes (s : Server) :
    s.writeChkpt.disk.bytes = patch s.disk.bytes 0 checkpointSize s.chkpt :=
  write_bytes s 0 checkpointSize s.chkpt

@[simp] theorem writeChkpt_size (s : Server) :
    s.writeChkpt.disk.size = max s.disk.size checkpointSize :=
  (write_size s 0 checkpointSize s.chkpt).trans (by rw [Nat.zero_add])

@[simp] theorem writeChkpt_chkpt (s : Server) : s.writeChkpt.chkpt = s.chkpt := rfl

@[simp] theorem writeChkpt_iArr (s : Server) : s.writeChkpt.iArr = s.iArr := rfl

/-! ### The tables in memory -/

/-- The image file of the server is an image with the objects of `L`. -/
structure Stored (s : Server) (L : Layout) (n p : ℕ) : Prop where
  image : Image s.disk.bytes L n p
  size : L.stop ≤ s.disk.size

/-- Moreover, checkpoint and inode table in memory are those of the image. -/
structure Loaded (s : Server) (L : Layout) (n p : ℕ) : Prop extends Stored s L n p where
  chkpt : EqTo checkpointSize s.chkpt s.disk.bytes
  iArr : s.iArr = (List.range n).map fun k => ref (L.addr (.inode k))

theorem Loaded.word_chkpt (h : Loaded s L n p) {i : ℕ} (hi : i < 257) :
    word s.chkpt 0 i = word s.disk.bytes 0 i := by
  exact word_congr (n := checkpointSize) (by simpa using h.chkpt)
    (by simp only [checkpointSize]; omega)

theorem Loaded.imap_eq (h : Loaded s L n p) {i : ℕ} (hi : i < 256) :
    s.imap i = ref (L.addr (.piece i)) := by
  rw [imap, h.word_chkpt (by omega)]; exact h.image.imap i hi

theorem Loaded.endLog_eq (h : Loaded s L n p) : s.endLog = L.stop := by
  rw [endLog, h.word_chkpt (by omega)]; exact h.image.endLog

theorem Loaded.inodeArr_eq (h : Loaded s L n p) (k : ℕ) :
    s.inodeArr k = ref (L.addr (.inode k)) := by
  rw [inodeArr, h.iArr]
  by_cases hk : k < n
  · simp [List.getD, hk]
  · have hnone : L.addr (.inode k) = none := by
      rw [← Option.not_isSome_iff_eq_none, h.image.inode_iff]; exact hk
    simp [List.getD, hk, hnone]

/-- The elements of a list that satisfy `P`, if those are the first `c`. -/
theorem filter_map_range {P : ℤ → Bool} {f : ℕ → ℤ} {N c : ℕ} (h : ∀ j < N, P (f j) ↔ j < c) :
    ((List.range N).map f).filter P = (List.range (min N c)).map f := by
  induction N with
  | zero => simp
  | succ N ih =>
    rw [List.range_succ, List.map_append, List.filter_append, ih fun j hj => h j (by omega)]
    by_cases hc : N < c
    · rw [show min (N + 1) c = min N c + 1 by omega, List.range_succ, List.map_append,
        show min N c = N by omega]
      simp [(h N (by omega)).2 hc]
    · rw [show min (N + 1) c = min N c by omega]
      have : P (f N) = false := by
        rw [← Bool.not_eq_true, h N (by omega)]; exact hc
      simp [this]

/-- `loadMem` after the pieces before `i` were read. -/
structure Loading (s : Server) (L : Layout) (n i : ℕ) (s' : Server) : Prop where
  bytes : s'.disk.bytes = s.disk.bytes
  size : s'.disk.size = s.disk.size
  chkpt : EqTo checkpointSize s'.chkpt s.disk.bytes
  iArr : s'.iArr = (List.range (min n (16 * i))).map fun k => ref (L.addr (.inode k))

theorem loading_step (h : Stored s L n p) {x : Server × Bytes} {i : ℕ} (hi : i < 256)
    (hx : Loading s L n i x.1) : Loading s L n (i + 1) (loadPiece x i).1 := by
  have himap : x.1.imap i = ref (L.addr (.piece i)) := by
    have : word x.1.chkpt 0 i = word s.disk.bytes 0 i := by
      exact word_congr (n := checkpointSize) (by simpa using hx.chkpt)
        (by simp only [checkpointSize]; omega)
    rw [imap, this]; exact h.image.imap i hi
  have hn := h.image.n_le
  have hiff := h.image.piece_iff i
  unfold loadPiece
  cases hp : L.addr (.piece i) with
  | none =>
    rw [hp] at himap hiff
    rw [if_neg (by rw [himap]; simp)]
    refine ⟨hx.bytes, hx.size, hx.chkpt, ?_⟩
    have : ¬ i < p := fun hip => by simpa using hiff.2 hip
    rw [hx.iArr, show min n (16 * (i + 1)) = min n (16 * i) by omega]
  | some a =>
    rw [hp] at himap hiff
    rw [if_pos (by rw [himap]; simp), himap, ref_some]
    refine ⟨by simpa using hx.bytes, by simpa using hx.size, by simpa using hx.chkpt, ?_⟩
    have hend : a + imapSize ≤ x.1.disk.size := by
      rw [hx.size]; exact (L.within _ _ hp).trans h.size
    have hword : ∀ j < 16, word ((x.1.lseek a).read imapSize x.2).2 0 j =
        ref (L.addr (.inode (16 * i + j))) := by
      intro j hj
      rw [word_of_read hend (by simp only [imapSize]; omega), hx.bytes]
      exact h.image.entry i a hp j hj
    have hfilter : ((List.range 16).map (word ((x.1.lseek a).read imapSize x.2).2 0)).filter
        (fun y => decide (0 ≤ y)) =
        (List.range (min 16 (n - 16 * i))).map fun j => ref (L.addr (.inode (16 * i + j))) := by
      rw [filter_map_range (c := n - 16 * i)]
      · refine List.map_congr_left fun j hj => hword j ?_
        have := List.mem_range.1 hj
        omega
      · intro j hj
        rw [hword j hj, decide_eq_true_eq, ref_nonneg, h.image.inode_iff]
        omega
    dsimp only [read_iArr, lseek_iArr]
    rw [hfilter, hx.iArr]
    by_cases hle : n ≤ 16 * i
    · rw [show n - 16 * i = 0 by omega, show min n (16 * (i + 1)) = min n (16 * i) by omega]
      simp
    · rw [show min n (16 * (i + 1)) = 16 * i + min 16 (n - 16 * i) by omega, List.range_add,
        show min n (16 * i) = 16 * i by omega, List.map_append, List.map_map]
      rfl

theorem loading_fold (h : Stored s L n p) {x : Server × Bytes} (hx : Loading s L n 0 x.1) {N : ℕ}
    (hN : N ≤ 256) : Loading s L n N ((List.range N).foldl loadPiece x).1 := by
  induction N with
  | zero => exact hx
  | succ i ih =>
    rw [List.range_succ, List.foldl_append]
    exact loading_step h (by omega) (ih (by omega))

theorem Loading.loaded (h : Stored s L n p) (hs : Loading s L n 256 s') :
    Loaded s' L n p ∧ s'.disk.bytes = s.disk.bytes ∧ s'.disk.size = s.disk.size := by
  have hn : min n (16 * 256) = n := by
    have := h.image.n_le
    have := h.image.p_le
    omega
  have hiArr := hs.iArr
  rw [hn] at hiArr
  refine ⟨⟨⟨?_, ?_⟩, ?_, hiArr⟩, hs.bytes, hs.size⟩
  · rw [hs.bytes]; exact h.image
  · rw [hs.size]; exact h.size
  · rw [hs.bytes]; exact hs.chkpt

/-- **`loadMem` loads the tables of the image.** -/
theorem loadMem_spec (h : Stored s L n p) (junk : Junk) :
    Loaded (s.loadMem junk) L n p ∧ (s.loadMem junk).disk.bytes = s.disk.bytes ∧
      (s.loadMem junk).disk.size = s.disk.size := by
  refine Loading.loaded h (loading_fold h ⟨lseek_bytes s 0, lseek_size s 0, ?_, by simp⟩ le_rfl)
  have hend : 0 + checkpointSize ≤ s.disk.size := by
    have := h.image.stop_ge
    have := h.size
    omega
  exact slice_zero s.disk.bytes ▸ read_eqTo hend s.chkpt

/-! ### Functions that do not write -/

theorem Loaded.congr (h : Loaded s L n p) (hbytes : s'.disk.bytes = s.disk.bytes)
    (hsize : s'.disk.size = s.disk.size) (hchkpt : s'.chkpt = s.chkpt) (hiArr : s'.iArr = s.iArr) :
    Loaded s' L n p := by
  refine ⟨⟨?_, ?_⟩, ?_, ?_⟩
  · rw [hbytes]; exact h.image
  · rw [hsize]; exact h.size
  · rw [hbytes, hchkpt]; exact h.chkpt
  · rw [hiArr]; exact h.iArr

/-- The state `s'` has the image of `s`, and its tables are those of the image. -/
def ReadOnly (s s' : Server) (L : Layout) (n p : ℕ) : Prop :=
  Loaded s' L n p ∧ s'.disk.bytes = s.disk.bytes

theorem Loaded.readOnly (h : Loaded s L n p) : ReadOnly s s L n p := ⟨h, rfl⟩

theorem ReadOnly.loadMem (h : ReadOnly s s' L n p) (junk : Junk) :
    ReadOnly s (s'.loadMem junk) L n p := by
  obtain ⟨hl, hb, -⟩ := loadMem_spec h.1.toStored junk
  exact ⟨hl, hb.trans h.2⟩

theorem ReadOnly.read (h : ReadOnly s s' L n p) (off : ℤ) (k : ℕ) (buf : Bytes) :
    ReadOnly s ((s'.lseek off).read k buf).1 L n p :=
  ⟨h.1.congr (lseek_bytes s' off) (lseek_size s' off) rfl rfl, (lseek_bytes s' off).trans h.2⟩

theorem sRead_readOnly (h : Loaded s L n p) (inum : ℤ) (buff : Bytes) (blk : ℤ) :
    ReadOnly s (s.sRead junk inum buff blk).1 L n p := by
  have hl := h.readOnly.loadMem junk
  unfold sRead
  dsimp only
  split
  · exact h.readOnly
  split
  · exact h.readOnly
  split
  · simpa only using hl
  split
  · exact hl.read _ _ _
  · exact (hl.read _ _ _).read _ _ _

theorem sStat_readOnly (h : Loaded s L n p) (inum : ℤ) (stat : ℤ × ℤ) :
    ReadOnly s (s.sStat junk inum stat).1 L n p := by
  have hl := h.readOnly.loadMem junk
  unfold sStat
  dsimp only
  split
  · exact h.readOnly
  split
  · simpa only using hl
  · exact hl.read _ _ _

theorem lookupLoop_readOnly (name : List UInt8) (pInode : Bytes) (is : List ℕ)
    (h : ReadOnly s s' L n p) : ReadOnly s (lookupLoop junk name pInode is s').1 L n p := by
  induction is generalizing s' with
  | nil => exact h
  | cons i is ih =>
    have hread := h.read (blockArr pInode i) blockSize (junk (.dirBlkTmp i))
    unfold lookupLoop
    dsimp only
    split
    · exact hread
    · exact ih hread

theorem sLookup_readOnly (h : Loaded s L n p) (pinum : ℤ) (name : List UInt8) :
    ReadOnly s (s.sLookup junk pinum name).1 L n p := by
  have hl := h.readOnly.loadMem junk
  unfold sLookup
  dsimp only
  split
  · exact h.readOnly
  split
  · simpa only using hl
  split
  · simpa only using hl
  split
  · exact hl.read _ _ _
  · exact lookupLoop_readOnly _ _ _ (hl.read _ _ _)

/-! ### Reading inodes and blocks -/

theorem Loaded.read_inode (h : Loaded s L n p) {k a : ℕ} (ha : L.addr (.inode k) = some a)
    (buf : Bytes) : EqTo inodeSize ((s.lseek a).read inodeSize buf).2 (slice s.disk.bytes a) :=
  read_eqTo ((L.within _ _ ha).trans h.size) buf

theorem Loaded.read_block (h : Loaded s L n p) {k b a : ℕ} (ha : L.addr (.block k b) = some a)
    (buf : Bytes) : EqTo blockSize ((s.lseek a).read blockSize buf).2 (slice s.disk.bytes a) :=
  read_eqTo ((L.within _ _ ha).trans h.size) buf

theorem Loaded.inode_lt (h : Loaded s L n p) {k a : ℕ} (ha : L.addr (.inode k) = some a) :
    k < n ∧ n ≤ 4096 := by
  have hn := h.image.n_le
  have hp := h.image.p_le
  exact ⟨(h.image.inode_iff k).1 (by rw [ha]; rfl), by omega⟩

/-- **`sRead` returns what the block contains.** -/
theorem sRead_contains (h : Loaded s L n p) {k b : ℕ} {data : Bytes}
    (hc : Contains s.disk.bytes L k b data) (junk : Junk) (buff : Bytes) :
    ∃ s' buff', s.sRead junk k buff b = (s', 0, buff') ∧ EqTo blockSize buff' data := by
  obtain ⟨⟨a, ha, -⟩, hb, x, hx, hdata⟩ := hc
  obtain ⟨hl, hbytes⟩ := h.readOnly.loadMem junk
  have hk := h.inode_lt ha
  have harr : (s.loadMem junk).inodeArr k = (a : ℤ) := by rw [hl.inodeArr_eq, ha]; rfl
  have hblk : blockArr (((s.loadMem junk).lseek a).read inodeSize (junk .inode)).2 b = (x : ℤ) := by
    rw [blockArr_eq (hl.read_inode ha _) hb, hl.image.block k a ha b hb, hx]
    rfl
  have hl' := (hl.readOnly.read a inodeSize (junk .inode)).1
  have hread := hl'.read_block hx buff
  rw [read_bytes, lseek_bytes, hbytes] at hread
  refine ⟨((((s.loadMem junk).lseek a).read inodeSize (junk .inode)).1.lseek x).read blockSize
    buff |>.1, _, ?_, hread.trans hdata⟩
  rw [sRead, if_neg (by omega), if_neg (by omega)]
  simp only [Int.toNat_natCast, harr, hblk]
  rw [if_neg (by omega), if_neg (by omega)]

end Server

end Mfs

end OperatingSystems

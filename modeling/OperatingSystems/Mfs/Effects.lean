import OperatingSystems.Mfs.Loading
import OperatingSystems.Mfs.Entries
import Mathlib.Data.List.Nodup

/-!
# What creating a file writes

The functions below `sCreate`, followed for an arbitrary log of objects with the checkpoint and the
pieces of the inode map in it: what is known of the rest of the image does not matter.

* `Unless full r Q` : the request succeeds with `Q`, or `endLog` overflows since `full` holds.
* `Server.Alike` : states that differ in the position of the file only.
* `Server.Tables s L p` : the checkpoint in memory is the one on the disk, and its `p` pieces and the
  end of the log are those of `L`.
* `Server.cInode_tables`, `Server.putEntry_tables` : the two halves of `sCreate`.
-/

namespace OperatingSystems

namespace Mfs

open Bytes

/-- The request succeeds with `Q`, or `endLog` overflows, which needs `full`. -/
def Unless {α : Type} (full : Prop) (r : Except Stop α) (Q : α → Prop) : Prop :=
  (full ∧ r = .error .overflow) ∨ ∃ x, r = .ok x ∧ Q x

namespace Unless

variable {α β : Type} {full : Prop} {r : Except Stop α} {f : α → Except Stop β} {Q : α → Prop}
  {R : β → Prop}

theorem ok {x : α} (h : Q x) : Unless full (.ok x) Q := Or.inr ⟨x, rfl, h⟩

theorem bind (h : Unless full r Q) (hf : ∀ x, Q x → Unless full (f x) R) :
    Unless full (r >>= f) R := by
  obtain ⟨hfull, rfl⟩ | ⟨x, rfl, hx⟩ := h
  · exact Or.inl ⟨hfull, rfl⟩
  · exact hf x hx

theorem mono {full' : Prop} {Q' : α → Prop} (h : Unless full r Q) (hfull : full → full')
    (hQ : ∀ x, Q x → Q' x) : Unless full' r Q' :=
  Or.imp (And.imp_left hfull) (fun ⟨x, hr, hx⟩ => ⟨x, hr, hQ x hx⟩) h

theorem of_ok (h : Unless full r Q) {x : α} (hr : r = .ok x) : Q x := by
  obtain ⟨-, herr⟩ | ⟨y, hy, hQ⟩ := h
  · rw [hr] at herr; cases herr
  · rw [hr] at hy
    cases hy
    exact hQ

theorem exists_ok (h : Unless full r Q) (hfull : ¬ full) : ∃ x, r = .ok x ∧ Q x :=
  h.resolve_left fun herr => hfull herr.1

end Unless

namespace Server

variable {s s' s'' : Server} {L : Layout} {p k n a b c x : ℕ} {junk junk' : Junk}

/-! ### States that differ in the position of the file -/

/-- The states differ in the position of the file only. -/
structure Alike (s s' : Server) : Prop where
  bytes : s'.disk.bytes = s.disk.bytes
  size : s'.disk.size = s.disk.size
  chkpt : s'.chkpt = s.chkpt
  iArr : s'.iArr = s.iArr

theorem Alike.refl (s : Server) : Alike s s := ⟨rfl, rfl, rfl, rfl⟩

theorem Alike.read (h : Alike s s') (off : ℤ) (k : ℕ) (buf : Bytes) :
    Alike s ((s'.lseek off).read k buf).1 :=
  ⟨(lseek_bytes s' off).trans h.bytes, (lseek_size s' off).trans h.size, h.chkpt, h.iArr⟩

theorem lookupLoop_alike (name : List UInt8) (pInode : Bytes) (is : List ℕ) (h : Alike s s') :
    Alike s (lookupLoop junk name pInode is s').1 := by
  induction is generalizing s' with
  | nil => exact h
  | cons i is ih =>
    have hread := h.read (blockArr pInode i) blockSize (junk (.dirBlkTmp i))
    unfold lookupLoop
    dsimp only
    split
    · exact hread
    · exact ih hread

/-- `sLookup` loads the tables and moves the position of the file. -/
theorem sLookup_alike {pinum : ℤ} (hpinum : 0 ≤ pinum ∧ pinum < 4096) (name : List UInt8) :
    Alike (s.loadMem junk) (s.sLookup junk pinum name).1 := by
  have hl := Alike.refl (s.loadMem junk)
  unfold sLookup
  rw [if_neg (by omega)]
  dsimp only
  split
  · simpa only using hl
  split
  · simpa only using hl
  split
  · exact hl.read _ _ _
  · exact lookupLoop_alike _ _ _ (hl.read _ _ _)

/-! ### `loadMem` in an arbitrary image -/

theorem loadPiece_kept (x : Server × Bytes) (i : ℕ) :
    (loadPiece x i).1.disk.bytes = x.1.disk.bytes ∧
      (loadPiece x i).1.disk.size = x.1.disk.size ∧ (loadPiece x i).1.chkpt = x.1.chkpt := by
  unfold loadPiece
  dsimp only
  split
  · simp only [read_bytes, lseek_bytes, read_size, lseek_size, read_chkpt, lseek_chkpt, and_self]
  · exact ⟨rfl, rfl, rfl⟩

theorem loadPieces_kept (is : List ℕ) (x : Server × Bytes) :
    (is.foldl loadPiece x).1.disk.bytes = x.1.disk.bytes ∧
      (is.foldl loadPiece x).1.disk.size = x.1.disk.size ∧
      (is.foldl loadPiece x).1.chkpt = x.1.chkpt := by
  induction is generalizing x with
  | nil => exact ⟨rfl, rfl, rfl⟩
  | cons i is ih =>
    obtain ⟨hbytes, hsize, hchkpt⟩ := loadPiece_kept x i
    obtain ⟨hbytes', hsize', hchkpt'⟩ := ih (loadPiece x i)
    exact ⟨hbytes'.trans hbytes, hsize'.trans hsize, hchkpt'.trans hchkpt⟩

@[simp] theorem loadMem_bytes (s : Server) (junk : Junk) :
    (s.loadMem junk).disk.bytes = s.disk.bytes := by
  unfold loadMem
  dsimp only
  rw [(loadPieces_kept _ _).1]
  exact lseek_bytes s 0

@[simp] theorem loadMem_size (s : Server) (junk : Junk) :
    (s.loadMem junk).disk.size = s.disk.size := by
  unfold loadMem
  dsimp only
  rw [(loadPieces_kept _ _).2.1]
  exact lseek_size s 0

theorem loadMem_chkpt (h : checkpointSize ≤ s.disk.size) (junk : Junk) :
    EqTo checkpointSize (s.loadMem junk).chkpt s.disk.bytes := by
  have hread : EqTo checkpointSize ((s.lseek (0 : ℕ)).read checkpointSize s.chkpt).2
      (slice s.disk.bytes 0) := read_eqTo (by omega) s.chkpt
  rw [slice_zero, Nat.cast_zero] at hread
  unfold loadMem
  dsimp only
  rw [(loadPieces_kept _ _).2.2]
  exact hread

/-- The inodes that a piece of the inode map leads to. -/
def pieceInodes (m : Bytes) : Option ℕ → List ℤ
  | none => []
  | some a => ((List.range 16).map (word m a)).filter (0 ≤ ·)

theorem flatMap_range {α : Type} (f : ℕ → α) (N B : ℕ) :
    ((List.range B).flatMap fun b => (List.range N).map fun j => f (N * b + j)) =
      (List.range (N * B)).map f := by
  induction B with
  | zero => rfl
  | succ B ih =>
    rw [List.range_succ, List.flatMap_append, ih, Nat.mul_succ, List.range_add, List.map_append,
      List.map_map, List.flatMap_singleton]
    rfl

theorem pieceInodes_congr {m m' : Bytes} (hframe : L.Frame (fun o => ∀ i, o ≠ .piece i) m m')
    (N : ℕ) : ((List.range N).flatMap fun i => pieceInodes m' (L.addr (.piece i))) =
      (List.range N).flatMap fun i => pieceInodes m (L.addr (.piece i)) := by
  refine List.flatMap_congr fun i _ => ?_
  cases ha : L.addr (.piece i) with
  | none => rfl
  | some a =>
    have hwords : (List.range 16).map (word m' a) = (List.range 16).map (word m a) := by
      refine List.map_congr_left fun j hj => ?_
      have hj := List.mem_range.1 hj
      exact (hframe _ _ (by simp) ha).word_eq (by simp only [Obj.size, imapSize]; omega)
    rw [pieceInodes, pieceInodes, hwords]

theorem loadPiece_of_neg {x : Server × Bytes} {i : ℕ} (h : x.1.imap i < 0) : loadPiece x i = x :=
  if_neg (not_le.2 h)

/-- What `loadMem` finds in one piece. -/
theorem loadPiece_iArr {x : Server × Bytes} {i a : ℕ} (himap : x.1.imap i = a)
    (hend : a + imapSize ≤ x.1.disk.size) : (loadPiece x i).1.iArr =
      x.1.iArr ++ ((List.range 16).map (word x.1.disk.bytes a)).filter (0 ≤ ·) := by
  unfold loadPiece
  rw [himap, if_pos (Int.natCast_nonneg a)]
  refine congrArg (_ ++ List.filter _ ·) (List.map_congr_left fun j hj => ?_)
  have hj := List.mem_range.1 hj
  exact word_of_read hend (by simp only [imapSize]; omega)

theorem length_loadPiece (x : Server × Bytes) (i : ℕ) :
    (loadPiece x i).1.iArr.length ≤ x.1.iArr.length + if 0 ≤ x.1.imap i then 16 else 0 := by
  unfold loadPiece
  split_ifs with h
  · have hfilter := List.length_filter_le (fun y : ℤ => decide (0 ≤ y))
      ((List.range 16).map (word ((x.1.lseek (x.1.imap i)).read imapSize x.2).2 0))
    simp only [List.length_map, List.length_range] at hfilter
    simp only [List.length_append, read_iArr, lseek_iArr]
    omega
  · exact le_rfl

/-- Each piece has at most sixteen inodes. -/
theorem length_loadPieces {x : Server × Bytes} {p : ℕ}
    (himap : ∀ i < 256, 0 ≤ x.1.imap i ↔ i < p) {N : ℕ} (hN : N ≤ 256) :
    ((List.range N).foldl loadPiece x).1.iArr.length ≤ x.1.iArr.length + 16 * min N p := by
  induction N with
  | zero => simp
  | succ N ih =>
    have hkept := (loadPieces_kept (List.range N) x).2.2
    have hN' := ih (by omega)
    have himapN := himap N (by omega)
    have hpiece := length_loadPiece ((List.range N).foldl loadPiece x) N
    rw [imap, hkept, ← imap] at hpiece
    rw [List.range_succ, List.foldl_append, List.foldl_cons, List.foldl_nil]
    split_ifs at hpiece with hpos
    · have := himapN.1 hpos
      omega
    · omega

/-! ### Tables -/

/-- The checkpoint in memory is the one on the disk, its `p` pieces are those of `L`, and the end of
the log is that of `L`. -/
structure Tables (s : Server) (L : Layout) (p : ℕ) : Prop where
  checkpoint : L.addr .checkpoint = some 0
  piece_iff : ∀ i, (L.addr (.piece i)).isSome ↔ i < p
  p_le : p ≤ 256
  size : L.stop ≤ s.disk.size
  chkpt : EqTo checkpointSize s.chkpt s.disk.bytes
  endLog : s.endLog = L.stop
  imap : ∀ i < 256, s.imap i = ref (L.addr (.piece i))

theorem Loaded.tables (h : Loaded s L n p) : Tables s L p where
  checkpoint := h.image.checkpoint
  piece_iff := h.image.piece_iff
  p_le := h.image.p_le
  size := h.size
  chkpt := h.chkpt
  endLog := h.endLog_eq
  imap _ hi := h.imap_eq hi

namespace Tables

theorem stop_ge (h : Tables s L p) : checkpointSize ≤ L.stop := by
  simpa [Obj.size] using L.within _ _ h.checkpoint

theorem stop_lt (h : Tables s L p) : (L.stop : ℤ) < 2 ^ 31 := h.endLog ▸ (toInt_mem _).2

theorem checkpointSize_le (h : Tables s L p) {o : Obj} (ho : o ≠ .checkpoint)
    (ha : L.addr o = some a) : checkpointSize ≤ a := by
  rcases L.disjoint o .checkpoint a 0 ho ha h.checkpoint with hd | hd
  · have hpos : 0 < o.size := by
      cases o <;> simp only [Obj.size, checkpointSize, imapSize, inodeSize, blockSize] <;> omega
    omega
  · simpa [Obj.size] using hd

theorem word_chkpt (h : Tables s L p) {i : ℕ} (hi : i < 257) :
    word s.chkpt 0 i = word s.disk.bytes 0 i :=
  word_congr (n := checkpointSize) (by simpa using h.chkpt) (by simp only [checkpointSize]; omega)

theorem alike (h : Tables s L p) (ha : Alike s s') : Tables s' L p where
  checkpoint := h.checkpoint
  piece_iff := h.piece_iff
  p_le := h.p_le
  size := by rw [ha.size]; exact h.size
  chkpt := by rw [ha.chkpt, ha.bytes]; exact h.chkpt
  endLog := by rw [Server.endLog, ha.chkpt]; exact h.endLog
  imap i hi := by rw [Server.imap, ha.chkpt]; exact h.imap i hi

/-- The tables are those of the disk, so they can be loaded from another state with the same
image. -/
theorem of_chkpt (h : Tables s L p) (hbytes : s'.disk.bytes = s.disk.bytes)
    (hsize : s'.disk.size = s.disk.size) (hchkpt : EqTo checkpointSize s'.chkpt s'.disk.bytes) :
    Tables s' L p := by
  have hword : ∀ i < 257, word s'.chkpt 0 i = word s.chkpt 0 i := by
    intro i hi
    rw [h.word_chkpt hi, ← hbytes]
    exact word_congr (n := checkpointSize) (by simpa using hchkpt)
      (by simp only [checkpointSize]; omega)
  refine ⟨h.checkpoint, h.piece_iff, h.p_le, ?_, hchkpt, ?_, fun i hi => ?_⟩
  · rw [hsize]; exact h.size
  · rw [Server.endLog, hword 256 (by omega)]; exact h.endLog
  · rw [Server.imap, hword i (by omega)]; exact h.imap i hi

/-- A write behind the checkpoint. -/
theorem write (h : Tables s L p) {off : ℕ} (hoff : checkpointSize ≤ off) (n : ℕ) (buf : Bytes) :
    Tables ((s.lseek off).write n buf) L p where
  checkpoint := h.checkpoint
  piece_iff := h.piece_iff
  p_le := h.p_le
  size := by rw [write_size]; exact h.size.trans (le_max_left _ _)
  chkpt := by
    have hbehind : EqTo checkpointSize (slice (patch s.disk.bytes off n buf) 0)
        (slice s.disk.bytes 0) := slice_patch_of_disjoint (Or.inr (by omega))
    rw [slice_zero, slice_zero] at hbehind
    rw [write_chkpt, lseek_chkpt, write_bytes]
    exact h.chkpt.trans hbehind.symm
  endLog := h.endLog
  imap := h.imap

theorem loadMem (h : Tables s L p) (junk : Junk) : Tables (s.loadMem junk) L p := by
  refine h.of_chkpt (loadMem_bytes s junk) (loadMem_size s junk) ?_
  rw [loadMem_bytes]
  exact loadMem_chkpt (h.stop_ge.trans h.size) junk

/-- The tables are loaded after a write behind the checkpoint. -/
theorem write_loadMem (h : Tables (s.loadMem junk) L p) {off : ℕ} (hoff : checkpointSize ≤ off)
    (n : ℕ) (buf : Bytes) : Tables (((s.lseek off).write n buf).loadMem junk) L p := by
  have hw := h.write hoff n buf
  have hsize : ((s.lseek off).write n buf).disk.size =
      (((s.loadMem junk).lseek off).write n buf).disk.size := by
    rw [write_size, write_size, loadMem_size]
  have hle : checkpointSize ≤ ((s.lseek off).write n buf).disk.size := by
    rw [hsize]
    exact hw.stop_ge.trans hw.size
  refine hw.of_chkpt ?_ ?_ ?_
  · rw [loadMem_bytes, write_bytes, write_bytes, loadMem_bytes]
  · rw [loadMem_size, hsize]
  · rw [loadMem_bytes]
    exact loadMem_chkpt hle junk

/-- The inodes that `loadMem` finds: those of the pieces, one after the other. -/
theorem iArr_loadMem (h : Tables (s.loadMem junk) L p) : (s.loadMem junk).iArr =
    (List.range 256).flatMap fun i => pieceInodes s.disk.bytes (L.addr (.piece i)) := by
  have hsize : L.stop ≤ s.disk.size := by simpa using h.size
  unfold Server.loadMem at h ⊢
  dsimp only at h ⊢
  set x : Server × Bytes := ({ ((s.lseek 0).read checkpointSize s.chkpt).1 with
    chkpt := ((s.lseek 0).read checkpointSize s.chkpt).2, iArr := [] }, junk .imapTemp) with hx
  have himap : ∀ i < 256, x.1.imap i = ref (L.addr (.piece i)) := by
    intro i hi
    rw [← h.imap i hi, Server.imap, Server.imap, (loadPieces_kept _ _).2.2]
  have hbytes : x.1.disk.bytes = s.disk.bytes ∧ x.1.disk.size = s.disk.size :=
    ⟨lseek_bytes s 0, lseek_size s 0⟩
  have hfold : ∀ N ≤ 256, ((List.range N).foldl loadPiece x).1.iArr =
      (List.range N).flatMap fun i => pieceInodes s.disk.bytes (L.addr (.piece i)) := by
    intro N
    induction N with
    | zero => exact fun _ => rfl
    | succ N ih =>
      intro hN
      obtain ⟨hkbytes, hksize, hkchkpt⟩ := loadPieces_kept (List.range N) x
      have himapN : ((List.range N).foldl loadPiece x).1.imap N = ref (L.addr (.piece N)) := by
        rw [Server.imap, hkchkpt, ← Server.imap, himap N (by omega)]
      rw [List.range_succ, List.foldl_append, List.foldl_cons, List.foldl_nil, List.flatMap_append,
        List.flatMap_singleton, ← ih (by omega)]
      cases ha : L.addr (.piece N) with
      | none =>
        rw [loadPiece_of_neg (by rw [himapN, ha]; decide)]
        exact (List.append_nil _).symm
      | some a =>
        rw [loadPiece_iArr (himapN.trans (by rw [ha, ref_some])), hkbytes, hbytes.1]
        · rfl
        · rw [hksize, hbytes.2]
          exact (L.within _ _ ha).trans hsize
  exact hfold 256 le_rfl

/-- The tables can be loaded with other contents of the uninitialised variables. -/
theorem reload (h : Tables (s.loadMem junk) L p) (junk' : Junk) : Tables (s.loadMem junk') L p := by
  have hsize := h.stop_ge.trans h.size
  rw [loadMem_size] at hsize
  refine h.of_chkpt ?_ ?_ ?_
  · rw [loadMem_bytes, loadMem_bytes]
  · rw [loadMem_size, loadMem_size]
  · rw [loadMem_bytes]
    exact loadMem_chkpt hsize junk'

/-- The inodes that `loadMem` finds are the entries in use of the pieces. -/
theorem mem_iArr (h : Tables (s.loadMem junk) L p) {z : ℤ} : z ∈ (s.loadMem junk).iArr ↔
    0 ≤ z ∧ ∃ i b j, L.addr (.piece i) = some b ∧ j < 16 ∧ word s.disk.bytes b j = z := by
  rw [h.iArr_loadMem, List.mem_flatMap]
  constructor
  · rintro ⟨i, -, hz⟩
    cases hb : L.addr (.piece i) with
    | none => rw [hb] at hz; cases hz
    | some b =>
      rw [hb, pieceInodes, List.mem_filter, List.mem_map] at hz
      obtain ⟨⟨j, hj, rfl⟩, hpos⟩ := hz
      exact ⟨of_decide_eq_true hpos, i, b, j, hb, List.mem_range.1 hj, rfl⟩
  · rintro ⟨hpos, i, b, j, hb, hj, rfl⟩
    have hi := (h.piece_iff i).1 (by rw [hb]; rfl)
    have hp := h.p_le
    refine ⟨i, List.mem_range.2 (by omega), ?_⟩
    rw [hb, pieceInodes, List.mem_filter]
    exact ⟨List.mem_map.2 ⟨j, List.mem_range.2 hj, rfl⟩, decide_eq_true hpos⟩

/-- No inode is twice in the table if and only if none is twice in the pieces. -/
theorem nodup_iArr (h : Tables (s.loadMem junk) L p) : (s.loadMem junk).iArr.Nodup ↔
    ∀ i i' b b' j j', L.addr (.piece i) = some b → L.addr (.piece i') = some b' → j < 16 → j' < 16 →
      0 ≤ word s.disk.bytes b j → word s.disk.bytes b j = word s.disk.bytes b' j' →
      i = i' ∧ j = j' := by
  -- the table, by the places in the pieces
  let f : ℕ → ℤ := fun q => (L.addr (.piece (q / 16))).elim (-1) fun b => word s.disk.bytes b (q % 16)
  have hf : ∀ i b j, L.addr (.piece i) = some b → j < 16 →
      f (16 * i + j) = word s.disk.bytes b j := fun i b j hb hj => by
    simp only [f, show (16 * i + j) / 16 = i by omega, show (16 * i + j) % 16 = j by omega, hb,
      Option.elim_some]
  have hiArr : (s.loadMem junk).iArr = ((List.range (16 * 256)).filter fun q => 0 ≤ f q).map f := by
    rw [h.iArr_loadMem, show (fun q => decide (0 ≤ f q)) = (fun z => decide (0 ≤ z)) ∘ f from rfl,
      ← List.filter_map, ← flatMap_range, List.filter_flatMap]
    refine List.flatMap_congr fun i _ => ?_
    cases hb : L.addr (.piece i) with
    | none =>
      refine (List.filter_eq_nil_iff.2 fun z hz => ?_).symm
      obtain ⟨j, hj, rfl⟩ := List.mem_map.1 hz
      rw [List.mem_range] at hj
      simp [f, show (16 * i + j) / 16 = i by omega, hb]
    | some b =>
      rw [pieceInodes]
      exact congrArg _ (List.map_congr_left fun j hj => (hf i b j hb (List.mem_range.1 hj)).symm)
  rw [hiArr, List.nodup_map_iff_inj_on (List.nodup_range.filter _)]
  simp only [List.mem_filter, List.mem_range, decide_eq_true_eq]
  constructor
  · intro hinj i i' b b' j j' hb hb' hj hj' hpos heq
    have hi := (h.piece_iff i).1 (by rw [hb]; rfl)
    have hi' := (h.piece_iff i').1 (by rw [hb']; rfl)
    have hp := h.p_le
    rw [← hf i b j hb hj] at hpos heq
    rw [← hf i' b' j' hb' hj'] at heq
    have := hinj _ ⟨by omega, hpos⟩ _ ⟨by omega, heq ▸ hpos⟩ heq
    omega
  · rintro hinj q ⟨-, hpos⟩ q' ⟨-, hpos'⟩ heq
    have hpiece : ∀ q, 0 ≤ f q → ∃ b, L.addr (.piece (q / 16)) = some b ∧
        f q = word s.disk.bytes b (q % 16) := fun q hq => by
      cases hb : L.addr (.piece (q / 16)) with
      | none => simp [f, hb] at hq
      | some b => exact ⟨b, rfl, by simp [f, hb]⟩
    obtain ⟨b, hb, hword⟩ := hpiece q hpos
    obtain ⟨b', hb', hword'⟩ := hpiece q' hpos'
    have := hinj _ _ _ _ _ _ hb hb' (Nat.mod_lt q (by decide)) (Nat.mod_lt q' (by decide))
      (hword ▸ hpos) (hword ▸ hword' ▸ heq)
    omega

/-- Reloading the tables does not change them. -/
theorem iArr_congr (h : Tables (s.loadMem junk) L p) (h' : Tables (s'.loadMem junk') L p)
    (hframe : L.Frame (fun o => ∀ i, o ≠ .piece i) s.disk.bytes s'.disk.bytes) :
    (s'.loadMem junk').iArr = (s.loadMem junk).iArr :=
  h'.iArr_loadMem.trans ((pieceInodes_congr hframe 256).trans h.iArr_loadMem.symm)

theorem find_piece (h : Tables s L p) (hp : p < 256) :
    ((List.range 256).find? fun i => s.imap i = -1) = some p := by
  rw [List.find?_range_eq_some]
  refine ⟨?_, List.mem_range.2 hp, fun j hj => ?_⟩
  · rw [decide_eq_true_eq, h.imap p hp, ref_eq_neg_one, ← Option.not_isSome_iff_eq_none,
      h.piece_iff]
    exact lt_irrefl p
  · rw [h.imap j (by omega), Bool.not_eq_true', decide_eq_false_iff_not, ref_eq_neg_one,
      ← Option.not_isSome_iff_eq_none, not_not, h.piece_iff]
    exact hj

/-- There are at most sixteen inodes for each piece. -/
theorem length_iArr_le (h : Tables s L p) (junk : Junk) :
    (s.loadMem junk).iArr.length ≤ 16 * p := by
  have hl := h.loadMem junk
  unfold Server.loadMem at hl ⊢
  dsimp only at hl ⊢
  refine (length_loadPieces (p := p) (fun i hi => ?_) le_rfl).trans ?_
  · have himap := hl.imap i hi
    rw [Server.imap, (loadPieces_kept _ _).2.2, ← Server.imap] at himap
    rw [himap, ref_nonneg, h.piece_iff]
  · have := h.p_le
    simp only [List.length_nil]
    omega

end Tables

/-! ### The new inode -/

theorem advance_unless (s : Server) (k : ℕ) : Unless (2 ^ 31 ≤ s.endLog + k) (s.advance k) fun s' =>
    s.endLog + k < 2 ^ 31 ∧ s'.disk = s.disk ∧ s'.chkpt = setWord s.chkpt 256 (s.endLog + k) := by
  unfold advance
  split_ifs with h
  · exact .ok ⟨h, rfl, rfl⟩
  · exact Or.inl ⟨not_lt.1 h, rfl⟩

/-- A checkpoint that was written is on the disk, also after a write behind it. -/
theorem eqTo_checkpoint {m chk e : Bytes} {off n : ℕ} (hoff : checkpointSize ≤ off) :
    EqTo checkpointSize chk (patch (patch m 0 checkpointSize chk) off n e) := by
  have hchk := slice_patch m 0 checkpointSize chk
  have hbehind : EqTo checkpointSize (slice (patch (patch m 0 checkpointSize chk) off n e) 0)
      (slice (patch m 0 checkpointSize chk) 0) :=
    slice_patch_of_disjoint (Or.inr (by omega))
  rw [slice_zero] at hchk hbehind
  rw [slice_zero] at hbehind
  exact (hbehind.trans hchk).symm

theorem cImapPiece_tables (h : Tables s L p) (hp : p < 256) (junk : Junk) :
    Unless (2 ^ 31 ≤ L.stop + imapSize) (s.cImapPiece junk) fun s' =>
      Tables s' (L.append (.piece p)) (p + 1) ∧
        L.Frame (· = .checkpoint) s.disk.bytes s'.disk.bytes ∧
        (∀ j < 16, word s'.disk.bytes L.stop j = -1) ∧
        ∀ y, L.stop + imapSize ≤ y → s'.disk.bytes y = s.disk.bytes y := by
  have hl := h.loadMem junk
  have hge := h.stop_ge
  have hend : word (setWord (s.loadMem junk).chkpt p L.stop) 0 256 = L.stop := by
    rw [word_setWord_of_ne (by omega)]
    exact hl.endLog
  unfold cImapPiece
  simp only [hl.find_piece hp, hl.endLog]
  refine Unless.bind ((advance_unless _ _).mono ?_ fun _ => id) ?_
  · rw [endLog, hend]
    exact_mod_cast id
  rintro s' ⟨hov, hdisk, hchkpt⟩
  rw [endLog, hend] at hov hchkpt
  refine .ok ?_
  have hdisk : s'.disk.bytes = s.disk.bytes ∧ s'.disk.size = s.disk.size := by
    simp only [hdisk, loadMem_bytes, loadMem_size, and_self]
  have hlt : (L.stop : ℤ) + imapSize < 2 ^ 31 := hov
  have hbytes : ((s'.writeChkpt.lseek L.stop).write imapSize (ofWords fun _ => -1)).disk.bytes =
      patch (patch s.disk.bytes 0 checkpointSize s'.chkpt) L.stop imapSize (ofWords fun _ => -1) := by
    rw [write_bytes, writeChkpt_bytes, hdisk.1]
  refine ⟨Tables.loadMem ⟨?_, fun i => ?_, hp, ?_, ?_, ?_, fun i hi => ?_⟩ junk, ?_,
    fun j hj => ?_, fun y hy => ?_⟩
  · rw [L.append_addr_of_ne (by simp)]
    exact h.checkpoint
  · by_cases hi : i = p
    · rw [hi, L.append_addr_self]
      simp
    · rw [L.append_addr_of_ne (by simpa using hi), h.piece_iff]
      omega
  · rw [write_size]
    exact le_max_right _ _
  · rw [hbytes]
    exact eqTo_checkpoint hge
  · rw [endLog, write_chkpt, lseek_chkpt, writeChkpt_chkpt, hchkpt, word_setWord_self (by omega)]
    rfl
  · rw [imap, write_chkpt, lseek_chkpt, writeChkpt_chkpt, hchkpt, word_setWord_of_ne (by omega)]
    by_cases hip : i = p
    · rw [hip, word_setWord_self (by omega), L.append_addr_self, ref_some]
    · rw [word_setWord_of_ne hip, L.append_addr_of_ne (by simpa using hip)]
      exact hl.imap i hi
  · rw [loadMem_bytes, hbytes]
    have hframe : L.Frame (· = .checkpoint) s.disk.bytes
        (patch s.disk.bytes 0 checkpointSize s'.chkpt) :=
      Log.frame_write rfl h.checkpoint le_rfl le_rfl
    exact hframe.trans (Log.frame_write_behind le_rfl)
  · rw [loadMem_bytes, hbytes, word_patch_self (by simp only [imapSize]; omega),
      word_ofWords (by decide)]
  · rw [loadMem_bytes, hbytes, patch_of_le hy, patch_of_le (by omega)]

/-- The inode `n` and its first block are appended, and the inode is entered in its piece. -/
theorem putInode_tables (h : Tables s L p) (hn : n / 16 < p) (junk : Junk) (pinum type : ℤ) :
    Unless (2 ^ 31 ≤ L.stop + inodeSize + blockSize) (s.putInode junk pinum type n) fun s' =>
      Tables s' ((L.append (.inode n)).append (.block n 0)) p ∧
      L.Frame (fun o => o = .checkpoint ∨ o = .piece (n / 16)) s.disk.bytes s'.disk.bytes ∧
      (∃ i, L.addr (.piece (n / 16)) = some i ∧ word s'.disk.bytes i (n % 16) = L.stop ∧
        ∀ j < 16, j ≠ n % 16 → word s'.disk.bytes i j = word s.disk.bytes i j) ∧
      EqTo inodeSize (slice s'.disk.bytes L.stop) (newInode type L.stop) ∧
      EqTo blockSize (slice s'.disk.bytes (L.stop + inodeSize)) (newBlock junk pinum type n) ∧
      ∀ y, L.stop + inodeSize + blockSize ≤ y → s'.disk.bytes y = s.disk.bytes y := by
  have hge := h.stop_ge
  have hp := h.p_le
  obtain ⟨i, hi⟩ : ∃ i, L.addr (.piece (n / 16)) = some i := by
    rw [← Option.isSome_iff_exists, h.piece_iff]
    exact hn
  have himap : s.imap (n / 16) = (i : ℤ) := by
    rw [h.imap _ (by omega), hi, ref_some]
  have hile := h.checkpointSize_le (by simp) hi
  have hiwithin := L.within _ _ hi
  unfold putInode
  simp only [read_imap, lseek_imap, read_endLog, lseek_endLog, write_endLog, himap, h.endLog]
  -- the end of the log is advanced twice: behind the inode, then behind its block
  refine Unless.bind ((advance_unless _ _).mono ?_ fun _ => id) ?_
  · simp only [write_endLog, lseek_endLog, read_endLog, h.endLog]
    omega
  rintro s₁ ⟨hov₁, hdisk₁, hchkpt₁⟩
  simp only [read_endLog, lseek_endLog, write_endLog, h.endLog, write_chkpt, lseek_chkpt,
    read_chkpt] at hov₁ hchkpt₁
  have hend : s₁.endLog = (L.stop : ℤ) + inodeSize := by
    rw [endLog, hchkpt₁, word_setWord_self (by omega)]
  have hpos : s₁.disk.pos = L.stop + inodeSize := by rw [hdisk₁, write_pos]
  refine Unless.bind ((advance_unless _ _).mono ?_ fun _ => id) ?_
  · rw [write_endLog, hend]
    omega
  rintro s₂ ⟨hov₂, hdisk₂, hchkpt₂⟩
  rw [write_endLog, hend] at hov₂
  rw [write_endLog, hend, write_chkpt] at hchkpt₂
  refine .ok ?_
  -- the disk after each of the writes; the last one is that of the checkpoint
  set piece := setWord ((s.lseek i).read imapSize (junk .imapTemp)).2 (n % 16) L.stop with hpiece
  set m₁ := patch s.disk.bytes i imapSize piece with hm₁
  set m₂ := patch m₁ L.stop inodeSize (newInode type L.stop) with hm₂
  set m₃ := patch m₂ (L.stop + inodeSize) blockSize (newBlock junk pinum type n) with hm₃
  have hbytes : s₂.writeChkpt.disk.bytes = patch m₃ 0 checkpointSize s₂.chkpt := by
    rw [writeChkpt_bytes, hdisk₂, write_bytes_pos, hpos, hdisk₁, write_bytes, write_bytes,
      read_bytes, lseek_bytes]
  have hlt : (L.stop : ℤ) + inodeSize + blockSize < 2 ^ 31 := hov₂
  have hwords : ∀ j < 16, word (patch m₃ 0 checkpointSize s₂.chkpt) i j = word piece 0 j := by
    intro j hj
    simp only [Obj.size] at hiwithin
    have hkept : EqTo imapSize (slice (patch m₃ 0 checkpointSize s₂.chkpt) i) (slice piece 0) := by
      have h₂ : EqTo imapSize (slice m₂ i) (slice m₁ i) :=
        slice_patch_of_disjoint (Or.inr (by omega))
      have h₃ : EqTo imapSize (slice m₃ i) (slice m₂ i) :=
        slice_patch_of_disjoint (Or.inr (by omega))
      rw [slice_zero]
      exact (slice_patch_of_disjoint (Or.inl (by omega))).trans
        (h₃.trans (h₂.trans (slice_patch _ _ _ _)))
    exact word_congr hkept (by simp only [imapSize]; omega)
  refine ⟨Tables.loadMem ⟨?_, fun j => ?_, hp, ?_, ?_, ?_, fun j hj => ?_⟩ junk, ?_,
    ⟨i, hi, ?_, fun j hj hne => ?_⟩, ?_, ?_, fun y hy => ?_⟩
  · rw [(L.append _).append_addr_of_ne (by simp), L.append_addr_of_ne (by simp)]
    exact h.checkpoint
  · rw [(L.append _).append_addr_of_ne (by simp), L.append_addr_of_ne (by simp)]
    exact h.piece_iff j
  · rw [writeChkpt_size, hdisk₂, write_size_pos, hpos]
    exact (le_max_right _ _).trans (le_max_left _ _)
  · rw [writeChkpt_chkpt, hbytes]
    exact (slice_zero _ ▸ slice_patch _ 0 checkpointSize s₂.chkpt).symm
  · rw [endLog, writeChkpt_chkpt, hchkpt₂, word_setWord_self (by omega)]
    simp only [Log.append_stop, Obj.size, Nat.cast_add]
  · rw [imap, writeChkpt_chkpt, hchkpt₂, word_setWord_of_ne (by omega), hchkpt₁,
      word_setWord_of_ne (by omega), (L.append _).append_addr_of_ne (by simp),
      L.append_addr_of_ne (by simp)]
    exact h.imap j hj
  all_goals rw [loadMem_bytes, hbytes]
  · have h₁ : L.Frame (fun o => o = .checkpoint ∨ o = .piece (n / 16)) s.disk.bytes m₁ :=
      Log.frame_write (Or.inr rfl) hi le_rfl le_rfl
    exact ((h₁.trans (Log.frame_write_behind le_rfl)).trans
      (Log.frame_write_behind (Nat.le_add_right _ _))).trans
      (Log.frame_write (Or.inl rfl) h.checkpoint le_rfl le_rfl)
  · rw [hwords _ (by omega), hpiece, word_setWord_self (by omega)]
  · rw [hwords j hj, hpiece, word_setWord_of_ne hne]
    exact word_of_read (hiwithin.trans h.size) (by simp only [imapSize]; omega)
  · have h₃ : EqTo inodeSize (slice m₃ L.stop) (slice m₂ L.stop) :=
      slice_patch_of_disjoint (Or.inr le_rfl)
    exact (slice_patch_of_disjoint (Or.inl (by omega))).trans (h₃.trans (slice_patch _ _ _ _))
  · exact (slice_patch_of_disjoint (Or.inl (by omega))).trans (slice_patch _ _ _ _)
  · simp only [Obj.size] at hiwithin
    rw [patch_of_le (by omega), hm₃, patch_of_le hy, hm₂, patch_of_le (by omega), hm₁,
      patch_of_le (by omega)]

/-- The entries in use of the inode map are those that it had, apart from that of the inode `n`. -/
def KeepsPieces (m m' : Bytes) (L L' : Layout) (n : ℕ) : Prop :=
  ∀ i b, L'.addr (.piece i) = some b → ∀ j < 16, ¬ (i = n / 16 ∧ j = n % 16) → 0 ≤ word m' b j →
    L.addr (.piece i) = some b ∧ word m' b j = word m b j

/-- The inode `n` and its first block were appended to the log, and the inode was entered in its
piece. -/
structure NewFile (m m' : Bytes) (L L' : Layout) (junk : Junk) (pinum type : ℤ) (n : ℕ) : Prop where
  frame : L.Frame (fun o => o = .checkpoint ∨ o = .piece (n / 16)) m m'
  keeps : ∀ o, (∀ i, o ≠ .piece i) → o ≠ .inode n → o ≠ .block n 0 → L'.addr o = L.addr o
  pieces : ∀ i a, L.addr (.piece i) = some a → L'.addr (.piece i) = some a
  outside : ∀ y, L'.stop ≤ y → m' y = m y
  inode : ∃ e, L.stop ≤ e ∧ (n % 16 ≠ 0 → e = L.stop) ∧ L'.stop = e + inodeSize + blockSize ∧
    L'.addr (.inode n) = some e ∧ L'.addr (.block n 0) = some (e + inodeSize) ∧
    (∃ i, L'.addr (.piece (n / 16)) = some i ∧ word m' i (n % 16) = e) ∧
    EqTo inodeSize (slice m' e) (newInode type e) ∧
    EqTo blockSize (slice m' (e + inodeSize)) (newBlock junk pinum type n)

theorem find_inode_le (h : Tables s L p)
    (hn : ((List.range 4096).find? fun i => (s.loadMem junk).inodeArr i = -1) = some n) :
    n ≤ 16 * p := by
  rw [List.find?_range_eq_some] at hn
  obtain ⟨-, -, hlt⟩ := hn
  refine (not_lt.1 fun hlen => ?_).trans (h.length_iArr_le junk)
  have hnone : (s.loadMem junk).inodeArr (s.loadMem junk).iArr.length = -1 := by
    simp [inodeArr]
  simpa [hnone] using hlt _ hlen

/-- **`cInode`** appends the inode, after a new piece for it if need be. -/
theorem cInode_tables (h : Tables s L p) (junk : Junk) (pinum type : ℤ)
    (hn : ((List.range 4096).find? fun i => (s.loadMem junk).inodeArr i = -1) = some n)
    (hp : n % 16 = 0 → p < 256) :
    Unless (2 ^ 31 ≤ L.stop + imapSize + inodeSize + blockSize) (s.cInode junk pinum type) fun x =>
      x.2 = n ∧ ∃ L' p', Tables x.1 L' p' ∧
        L'.stop ≤ L.stop + imapSize + inodeSize + blockSize ∧
        NewFile s.disk.bytes x.1.disk.bytes L L' junk pinum type n ∧
        KeepsPieces s.disk.bytes x.1.disk.bytes L L' n := by
  have hle := find_inode_le h hn
  -- the second half, for any image in which the inode has a piece
  have hput : ∀ t, (∃ L₁ p₁, Tables t L₁ p₁ ∧ n / 16 < p₁ ∧ L₁.stop ≤ L.stop + imapSize ∧
      L.stop ≤ L₁.stop ∧ (n % 16 ≠ 0 → L₁.stop = L.stop) ∧
      (∀ o, (∀ i, o ≠ .piece i) → L₁.addr o = L.addr o) ∧
      (∀ o a, L.addr o = some a → L₁.addr o = some a) ∧
      L.Frame (· = .checkpoint) s.disk.bytes t.disk.bytes ∧
      (∀ i b, L₁.addr (.piece i) = some b → ∀ j < 16, 0 ≤ word t.disk.bytes b j →
        L.addr (.piece i) = some b ∧ word t.disk.bytes b j = word s.disk.bytes b j) ∧
      ∀ y, L₁.stop ≤ y → t.disk.bytes y = s.disk.bytes y) →
      Unless (2 ^ 31 ≤ L.stop + imapSize + inodeSize + blockSize) (do
        let s ← t.putInode junk pinum type n
        .ok (s, n)) fun x => x.2 = n ∧ ∃ L' p', Tables x.1 L' p' ∧
          L'.stop ≤ L.stop + imapSize + inodeSize + blockSize ∧
          NewFile s.disk.bytes x.1.disk.bytes L L' junk pinum type n ∧
          KeepsPieces s.disk.bytes x.1.disk.bytes L L' n := by
    rintro t ⟨L₁, p₁, ht, hlt, hstop, hge, hsame, heq, hsub, hframe, hold, hout⟩
    refine Unless.bind ((putInode_tables ht hlt junk pinum type).mono (by omega) fun _ => id) ?_
    rintro s' ⟨hs', hframe', ⟨i, hi, hword, hwords⟩, hinode, hblock, hout'⟩
    refine .ok ⟨rfl, _, _, hs', ?_, ⟨?_, fun o ho hon hob => ?_, fun j b hj => ?_, fun y hy => ?_,
      L₁.stop, hge, hsame, rfl, ?_, ?_, ⟨i, ?_, hword⟩, hinode, hblock⟩, fun i' b hb j hj hne hpos =>
      ?_⟩
    · simp only [Log.append_stop, Obj.size]
      omega
    · exact (hframe.mono fun _ => Or.inl).trans (hframe'.of_subset fun o a _ => hsub o a)
    · rw [(L₁.append _).append_addr_of_ne hob, L₁.append_addr_of_ne hon, heq o ho]
    · rw [(L₁.append _).append_addr_of_ne (by simp), L₁.append_addr_of_ne (by simp), hsub _ _ hj]
    · simp only [Log.append_stop, Obj.size] at hy
      rw [hout' y hy, hout y (by omega)]
    · rw [(L₁.append _).append_addr_of_ne (by simp), L₁.append_addr_self]
    · simp [Obj.size]
    · rw [(L₁.append _).append_addr_of_ne (by simp), L₁.append_addr_of_ne (by simp), hi]
    · rw [(L₁.append _).append_addr_of_ne (by simp), L₁.append_addr_of_ne (by simp)] at hb
      have hsame' : word s'.disk.bytes b j = word t.disk.bytes b j := by
        by_cases hi' : i' = n / 16
        · subst hi'
          obtain rfl := Option.some.inj (hi.symm.trans hb)
          exact hwords j hj fun hjn => hne ⟨rfl, hjn⟩
        · exact Image.word_piece (hframe' _ _ (by simp [hi']) hb) hj
      rw [hsame'] at hpos ⊢
      exact hold i' b hb j hj hpos
  unfold cInode
  simp only [hn]
  -- only the first inode of a piece needs a new one
  split_ifs with hmod
  · have hnone : L.addr (.piece p) = none := by
      rw [← Option.not_isSome_iff_eq_none, h.piece_iff]
      exact lt_irrefl p
    refine Unless.bind ((cImapPiece_tables (h.loadMem junk) (hp hmod) junk).mono (by omega) ?_) hput
    rintro s' ⟨hs', hframe, hnew, hout⟩
    rw [loadMem_bytes] at hframe hout
    refine ⟨_, _, hs', by omega, le_rfl, Nat.le_add_right _ _, fun hne => absurd hmod hne,
      fun o ho => L.append_addr_of_ne (ho p), fun o a => L.append_addr_eq_some hnone, hframe,
      fun i b hb j hj hpos => ?_, hout⟩
    by_cases hip : i = p
    · -- the entries of the new piece are not in use
      subst hip
      rw [L.append_addr_self] at hb
      rw [← Option.some.inj hb, hnew j hj] at hpos
      omega
    · rw [L.append_addr_of_ne (by simpa using hip)] at hb
      exact ⟨hb, Image.word_piece (hframe _ _ (by simp) hb) hj⟩
  · refine Unless.bind (.ok ⟨L, p, h.loadMem junk, by omega, Nat.le_add_right _ _, le_rfl,
      fun _ => rfl, fun _ _ => rfl, fun _ _ => id, ?_⟩) hput
    rw [loadMem_bytes]
    exact ⟨Log.Frame.refl, fun _ _ hb _ _ _ => ⟨hb, rfl⟩, fun _ _ => rfl⟩

end Server

end Mfs

end OperatingSystems

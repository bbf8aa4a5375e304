import OperatingSystems.Mfs.Server
import OperatingSystems.Bytes.Log

/-!
# What is in an image

An image is a log of objects: the checkpoint, pieces of the inode map, inodes and blocks.  Each of
them but the checkpoint has its address in another one, and `-1` stands for objects that do not
exist.

* `Obj` : the objects of an image, and their sizes.
* `Image m L n p` : the bytes `m` are an image with the objects of `L`, among them `n` inodes in
  `p` pieces of the inode map.
* `Image.congr`, `Image.update_inode`, `Image.append_block`, `Image.append_piece`,
  `Image.append_inode` : the changes of an image that keep it one.
* `Evolves` : what a change keeps of the regular files.
* `onDisk m o` : where an object is, found by following the addresses in the image.
-/

namespace OperatingSystems

namespace Mfs

open Bytes

/-- The objects of an image. -/
inductive Obj where
  | checkpoint
  /-- Piece `i` of the inode map, with the inodes from `16 * i` on. -/
  | piece (i : ℕ)
  | inode (k : ℕ)
  /-- Block `b` of inode `k`. -/
  | block (k b : ℕ)
  deriving DecidableEq

def Obj.size : Obj → ℕ
  | checkpoint => checkpointSize
  | piece _ => imapSize
  | inode _ => inodeSize
  | block _ _ => blockSize

/-- The addresses of the objects of an image. -/
abbrev Layout : Type := Log Obj.size

/-- The object `o` at the address `a` has the same bytes in both memories. -/
abbrev Kept (m m' : Bytes) (o : Obj) (a : ℕ) : Prop := Log.Kept Obj.size m m' o a

/-- How an address is stored. -/
def ref : Option ℕ → ℤ
  | none => -1
  | some a => a

@[simp] theorem ref_some (a : ℕ) : ref (some a) = a := rfl

@[simp] theorem ref_none : ref none = -1 := rfl

theorem ref_eq_neg_one {x : Option ℕ} : ref x = -1 ↔ x = none := by
  cases x with
  | none => simp
  | some a => simp only [ref_some, reduceCtorEq]

theorem ref_nonneg {x : Option ℕ} : 0 ≤ ref x ↔ x.isSome := by
  cases x <;> simp

theorem ref_eq_natCast {x : Option ℕ} {a : ℕ} : ref x = a ↔ x = some a := by
  cases x with
  | none => simp
  | some b => rw [ref_some, Option.some_inj, Int.natCast_inj]

/-- The size of the directory `k` counts its entries, 4096 for each; the blocks with entries
exist. -/
def DirSize (L : Layout) (k : ℕ) (size : ℤ) : Prop :=
  ∃ c : ℕ, 2 ≤ c ∧ c ≤ 14 * 64 ∧ size = 4096 * c ∧
    ∀ b, 64 * b < c → (L.addr (.block k b)).isSome

theorem blockArr_slice (m : Bytes) (a b : ℕ) : blockArr (slice m a) b = word m a (2 + b) :=
  word_slice m a (2 + b)

theorem statType_slice (m : Bytes) (a : ℕ) : statType (slice m a) = word m a 0 := word_slice m a 0

theorem statSize_slice (m : Bytes) (a : ℕ) : statSize (slice m a) = word m a 1 := word_slice m a 1

/-! ### Assignments to fields -/

@[simp] theorem statType_setSize (i : Bytes) (x : ℤ) : statType (setSize i x) = statType i :=
  word_setWord_of_ne (by omega)

@[simp] theorem blockArr_setSize (i : Bytes) (x : ℤ) (b : ℕ) :
    blockArr (setSize i x) b = blockArr i b :=
  word_setWord_of_ne (by omega)

@[simp] theorem statType_setBlock (i : Bytes) (b : ℕ) (x : ℤ) :
    statType (setBlock i b x) = statType i :=
  word_setWord_of_ne (by omega)

@[simp] theorem statSize_setBlock (i : Bytes) (b : ℕ) (x : ℤ) :
    statSize (setBlock i b x) = statSize i :=
  word_setWord_of_ne (by omega)

theorem statSize_setSize {i : Bytes} {x : ℤ} (h : -2 ^ 31 ≤ x ∧ x < 2 ^ 31) :
    statSize (setSize i x) = x :=
  word_setWord_self h

theorem blockArr_setBlock {i : Bytes} {b b' : ℕ} {x : ℤ} (h : -2 ^ 31 ≤ x ∧ x < 2 ^ 31) :
    blockArr (setBlock i b x) b' = if b' = b then x else blockArr i b' := by
  split_ifs with hb
  · rw [hb]; exact word_setWord_self h
  · exact word_setWord_of_ne (by omega)

theorem statType_eq {i i' : Bytes} (h : EqTo inodeSize i i') : statType i = statType i' :=
  word_congr (n := inodeSize) (by simpa using h) (by simp only [inodeSize]; omega)

theorem statSize_eq {i i' : Bytes} (h : EqTo inodeSize i i') : statSize i = statSize i' :=
  word_congr (n := inodeSize) (by simpa using h) (by simp only [inodeSize]; omega)

theorem blockArr_eq {i i' : Bytes} (h : EqTo inodeSize i i') {b : ℕ} (hb : b < 14) :
    blockArr i b = blockArr i' b :=
  word_congr (n := inodeSize) (by simpa using h) (by simp only [inodeSize]; omega)

/-! ### Images -/

/-- The bytes `m` are an image with the objects of `L`. -/
structure Image (m : Bytes) (L : Layout) (n p : ℕ) : Prop where
  checkpoint : L.addr .checkpoint = some 0
  stop_lt : L.stop < 2 ^ 31
  n_le : n ≤ 16 * p
  p_le : p ≤ 256
  piece_iff : ∀ i, (L.addr (.piece i)).isSome ↔ i < p
  inode_iff : ∀ k, (L.addr (.inode k)).isSome ↔ k < n
  owner : ∀ k b, (L.addr (.block k b)).isSome → k < n
  endLog : word m 0 256 = L.stop
  imap : ∀ i < 256, word m 0 i = ref (L.addr (.piece i))
  entry : ∀ i a, L.addr (.piece i) = some a → ∀ j < 16,
    word m a j = ref (L.addr (.inode (16 * i + j)))
  block : ∀ k a, L.addr (.inode k) = some a → ∀ b < 14,
    blockArr (slice m a) b = ref (L.addr (.block k b))
  file : ∀ k a, L.addr (.inode k) = some a → statType (slice m a) = REGULAR_FILE ∨
    statType (slice m a) = DIRECTORY ∧ DirSize L k (statSize (slice m a))

namespace Image

variable {m m' : Bytes} {L : Layout} {n p k a : ℕ}

theorem stop_ge (h : Image m L n p) : checkpointSize ≤ L.stop := by
  simpa [Obj.size] using L.within _ _ h.checkpoint

/-- The words of pieces and inodes that are kept. -/
theorem word_piece {i j : ℕ} (h : Kept m m' (.piece i) a) (hj : j < 16) :
    word m' a j = word m a j :=
  h.word_eq (by simp only [Obj.size, imapSize]; omega)

theorem word_inode {j : ℕ} (h : Kept m m' (.inode k) a) (hj : j < 16) :
    word m' a j = word m a j :=
  h.word_eq (by simp only [Obj.size, inodeSize]; omega)

theorem word_checkpoint {i : ℕ} (h : Kept m m' .checkpoint a) (hi : i < 257) :
    word m' a i = word m a i :=
  h.word_eq (by simp only [Obj.size, checkpointSize]; omega)

theorem blockArr_congr (h : Kept m m' (.inode k) a) {b : ℕ} (hb : b < 14) :
    blockArr (slice m' a) b = blockArr (slice m a) b := by
  rw [blockArr_slice, blockArr_slice, word_inode h (by omega)]

theorem statType_congr (h : Kept m m' (.inode k) a) :
    statType (slice m' a) = statType (slice m a) := by
  rw [statType_slice, statType_slice, word_inode h (by omega)]

theorem statSize_congr (h : Kept m m' (.inode k) a) :
    statSize (slice m' a) = statSize (slice m a) := by
  rw [statSize_slice, statSize_slice, word_inode h (by omega)]

/-- Only blocks are changed. -/
theorem congr (h : Image m L n p) (hframe : L.Frame (fun o => ∃ k b, o = .block k b) m m') :
    Image m' L n p where
  checkpoint := h.checkpoint
  stop_lt := h.stop_lt
  n_le := h.n_le
  p_le := h.p_le
  piece_iff := h.piece_iff
  inode_iff := h.inode_iff
  owner := h.owner
  endLog := by rw [word_checkpoint (hframe _ _ nofun h.checkpoint) (by omega)]; exact h.endLog
  imap i hi := by
    rw [word_checkpoint (hframe _ _ nofun h.checkpoint) (by omega)]; exact h.imap i hi
  entry i a ha j hj := by rw [word_piece (hframe _ _ nofun ha) hj]; exact h.entry i a ha j hj
  block k a ha b hb := by rw [blockArr_congr (hframe _ _ nofun ha) hb]; exact h.block k a ha b hb
  file k a ha := by
    rw [statType_congr (hframe _ _ nofun ha), statSize_congr (hframe _ _ nofun ha)]
    exact h.file k a ha

/-- The inode `k` is changed: its size, or things that do not matter. -/
theorem update_inode (h : Image m L n p) (ha : L.addr (.inode k) = some a)
    (hframe : L.Frame (· = .inode k) m m')
    (hblock : ∀ b < 14, blockArr (slice m' a) b = blockArr (slice m a) b)
    (hfile : statType (slice m' a) = REGULAR_FILE ∨
      statType (slice m' a) = DIRECTORY ∧ DirSize L k (statSize (slice m' a))) :
    Image m' L n p where
  checkpoint := h.checkpoint
  stop_lt := h.stop_lt
  n_le := h.n_le
  p_le := h.p_le
  piece_iff := h.piece_iff
  inode_iff := h.inode_iff
  owner := h.owner
  endLog := by rw [word_checkpoint (hframe _ _ nofun h.checkpoint) (by omega)]; exact h.endLog
  imap i hi := by
    rw [word_checkpoint (hframe _ _ nofun h.checkpoint) (by omega)]; exact h.imap i hi
  entry i a' ha' j hj := by rw [word_piece (hframe _ _ nofun ha') hj]; exact h.entry i a' ha' j hj
  block k' a' ha' b hb := by
    rcases eq_or_ne k' k with rfl | hne
    · obtain rfl := Option.some.inj (ha.symm.trans ha')
      rw [hblock b hb]; exact h.block k' a ha b hb
    · rw [blockArr_congr (hframe _ _ (by simpa using hne) ha') hb]; exact h.block k' a' ha' b hb
  file k' a' ha' := by
    rcases eq_or_ne k' k with rfl | hne
    · obtain rfl := Option.some.inj (ha.symm.trans ha')
      exact hfile
    · have hkept := hframe _ _ (by simpa using hne) ha'
      rw [statType_congr hkept, statSize_congr hkept]
      exact h.file k' a' ha'

/-- A directory keeps its blocks when another object is appended. -/
theorem dirSize_append {o : Obj} {size : ℤ} (h : DirSize L k size) :
    DirSize (L.append o) k size := by
  obtain ⟨c, h2, hle, hs, hb⟩ := h
  refine ⟨c, h2, hle, hs, fun b hbc => ?_⟩
  rcases eq_or_ne (Obj.block k b) o with rfl | ho
  · simp
  · rw [L.append_addr_of_ne ho]; exact hb b hbc

/-- A block is appended to the inode `k`. -/
theorem append_block (h : Image m L n p) {b : ℕ} (ha : L.addr (.inode k) = some a)
    (hstop : L.stop + blockSize < 2 ^ 31)
    (hend : word m' 0 256 = L.stop + blockSize)
    (himap : ∀ i < 256, word m' 0 i = word m 0 i)
    (hframe : L.Frame (fun o => o = .checkpoint ∨ o = .inode k) m m')
    (hblock : ∀ b' < 14, blockArr (slice m' a) b' =
      if b' = b then (L.stop : ℤ) else blockArr (slice m a) b')
    (hfile : statType (slice m' a) = REGULAR_FILE ∨ statType (slice m' a) = DIRECTORY ∧
      DirSize (L.append (.block k b)) k (statSize (slice m' a))) :
    Image m' (L.append (.block k b)) n p := by
  have hpi : ∀ i, (L.append (.block k b)).addr (.piece i) = L.addr (.piece i) :=
    fun i => L.append_addr_of_ne nofun
  have hin : ∀ k', (L.append (.block k b)).addr (.inode k') = L.addr (.inode k') :=
    fun k' => L.append_addr_of_ne nofun
  refine ⟨?_, hstop, h.n_le, h.p_le, fun i => ?_, fun k' => ?_, fun k' b' hk' => ?_, ?_,
    fun i hi => ?_, fun i a' ha' j hj => ?_, fun k' a' ha' b' hb' => ?_, fun k' a' ha' => ?_⟩
  · rw [L.append_addr_of_ne (by simp)]; exact h.checkpoint
  · rw [hpi]; exact h.piece_iff i
  · rw [hin]; exact h.inode_iff k'
  · rcases eq_or_ne (Obj.block k' b') (.block k b) with he | hne
    · obtain ⟨rfl, -⟩ := Obj.block.inj he
      exact (h.inode_iff _).1 (by rw [ha]; rfl)
    · rw [L.append_addr_of_ne hne] at hk'; exact h.owner k' b' hk'
  · rw [hend]; rfl
  · rw [himap i hi, hpi]; exact h.imap i hi
  · rw [hpi] at ha'
    rw [word_piece (hframe _ _ (by simp) ha') hj, hin]; exact h.entry i a' ha' j hj
  · rw [hin] at ha'
    rcases eq_or_ne k' k with rfl | hne
    · obtain rfl := Option.some.inj (ha.symm.trans ha')
      rw [hblock b' hb']
      split_ifs with hbb
      · rw [hbb]; simp
      · rw [L.append_addr_of_ne (by simpa using hbb)]; exact h.block k' a ha b' hb'
    · rw [blockArr_congr (hframe _ _ (by simpa using hne) ha') hb',
        L.append_addr_of_ne (by simp [hne])]
      exact h.block k' a' ha' b' hb'
  · rw [hin] at ha'
    rcases eq_or_ne k' k with rfl | hne
    · obtain rfl := Option.some.inj (ha.symm.trans ha')
      exact hfile
    · have hkept := hframe _ _ (by simpa using hne) ha'
      rw [statType_congr hkept, statSize_congr hkept]
      exact (h.file k' a' ha').imp_right (And.imp_right dirSize_append)

/-- A piece without inodes is appended to the inode map. -/
theorem append_piece (h : Image m L n p) (hp : p < 256)
    (hstop : L.stop + imapSize < 2 ^ 31) (hend : word m' 0 256 = L.stop + imapSize)
    (himap : ∀ i < 256, word m' 0 i = if i = p then (L.stop : ℤ) else word m 0 i)
    (hnew : ∀ j < 16, word m' L.stop j = -1)
    (hframe : L.Frame (· = .checkpoint) m m') :
    Image m' (L.append (.piece p)) n (p + 1) := by
  have hin : ∀ k', (L.append (.piece p)).addr (.inode k') = L.addr (.inode k') :=
    fun k' => L.append_addr_of_ne nofun
  have hn := h.n_le
  refine ⟨?_, hstop, by omega, by omega, fun i => ?_, fun k' => ?_, fun k' b' hk' => ?_, ?_,
    fun i hi => ?_, fun i a' ha' j hj => ?_, fun k' a' ha' b' hb' => ?_, fun k' a' ha' => ?_⟩
  · rw [L.append_addr_of_ne (by simp)]; exact h.checkpoint
  · rcases eq_or_ne i p with rfl | hi
    · simp
    · rw [L.append_addr_of_ne (by simpa using hi), h.piece_iff]; omega
  · rw [hin]; exact h.inode_iff k'
  · rw [L.append_addr_of_ne (by simp)] at hk'; exact h.owner k' b' hk'
  · rw [hend]; rfl
  · rw [himap i hi]
    split_ifs with hip
    · rw [hip]; simp
    · rw [L.append_addr_of_ne (by simpa using hip)]; exact h.imap i hi
  · rw [hin]
    rcases eq_or_ne i p with rfl | hip
    · rw [L.append_addr_self] at ha'
      rw [← Option.some.inj ha', hnew j hj, eq_comm, ref_eq_neg_one, ← Option.not_isSome_iff_eq_none,
        h.inode_iff]
      omega
    · rw [L.append_addr_of_ne (by simpa using hip)] at ha'
      rw [word_piece (hframe _ _ (by simp) ha') hj]; exact h.entry i a' ha' j hj
  · rw [hin] at ha'
    rw [blockArr_congr (hframe _ _ (by simp) ha') hb', L.append_addr_of_ne (by simp)]
    exact h.block k' a' ha' b' hb'
  · rw [hin] at ha'
    have hkept := hframe _ _ (by simp) ha'
    rw [statType_congr hkept, statSize_congr hkept]
    exact (h.file k' a' ha').imp_right (And.imp_right dirSize_append)

/-- The inode `n` is appended, with its first block behind it. -/
theorem append_inode (h : Image m L n p) {i : ℕ} (hn : n < 16 * p)
    (hi : L.addr (.piece (n / 16)) = some i)
    (hstop : L.stop + inodeSize + blockSize < 2 ^ 31)
    (hend : word m' 0 256 = L.stop + inodeSize + blockSize)
    (himap : ∀ i < 256, word m' 0 i = word m 0 i)
    (hframe : L.Frame (fun o => o = .checkpoint ∨ o = .piece (n / 16)) m m')
    (hentry : ∀ j < 16, word m' i j = if j = n % 16 then (L.stop : ℤ) else word m i j)
    (hblock : ∀ b < 14, blockArr (slice m' L.stop) b =
      if b = 0 then ((L.stop + inodeSize : ℕ) : ℤ) else -1)
    (hfile : statType (slice m' L.stop) = REGULAR_FILE ∨
      statType (slice m' L.stop) = DIRECTORY ∧ statSize (slice m' L.stop) = 2 * 4096) :
    Image m' ((L.append (.inode n)).append (.block n 0)) (n + 1) p := by
  -- where the objects are in the new log
  have hpi : ∀ i, ((L.append (.inode n)).append (.block n 0)).addr (.piece i) =
      L.addr (.piece i) := fun i => by
    rw [(L.append _).append_addr_of_ne (by simp), L.append_addr_of_ne (by simp)]
  have hin : ∀ k, ((L.append (.inode n)).append (.block n 0)).addr (.inode k) =
      if k = n then some L.stop else L.addr (.inode k) := fun k => by
    rw [(L.append _).append_addr_of_ne (by simp)]
    split_ifs with hk
    · rw [hk]; simp
    · rw [L.append_addr_of_ne (by simpa using hk)]
  have hbl : ∀ k b, k ≠ n → ((L.append (.inode n)).append (.block n 0)).addr (.block k b) =
      L.addr (.block k b) := fun k b hk => by
    rw [(L.append _).append_addr_of_ne (by simp [hk]), L.append_addr_of_ne (by simp)]
  have hnone : ∀ b, L.addr (.block n b) = none := fun b => by
    rw [← Option.not_isSome_iff_eq_none]
    exact fun hb => lt_irrefl _ (h.owner n b hb)
  refine ⟨?_, hstop, by omega, h.p_le, fun i => ?_, fun k => ?_, fun k b hk => ?_, ?_,
    fun i hi => ?_, fun i' a ha j hj => ?_, fun k a ha b hb => ?_, fun k a ha => ?_⟩
  · rw [(L.append _).append_addr_of_ne (by simp), L.append_addr_of_ne (by simp)]; exact h.checkpoint
  · rw [hpi]; exact h.piece_iff i
  · rw [hin]
    split_ifs with hk
    · simp [hk]
    · rw [h.inode_iff]; omega
  · rcases eq_or_ne k n with rfl | hkn
    · exact Nat.lt_succ_self _
    · rw [hbl k b hkn] at hk; exact (h.owner k b hk).trans (Nat.lt_succ_self _)
  · rw [hend]; rfl
  · rw [himap i hi, hpi]; exact h.imap i hi
  · rw [hpi] at ha
    rw [hin]
    rcases eq_or_ne i' (n / 16) with rfl | hne
    · obtain rfl := Option.some.inj (hi.symm.trans ha)
      rw [hentry j hj]
      split_ifs with hjn hnj hnj
      · rfl
      · omega
      · omega
      · exact h.entry _ i hi j hj
    · rw [word_piece (hframe _ _ (by simpa using hne) ha) hj, if_neg (by omega)]
      exact h.entry i' a ha j hj
  · rw [hin] at ha
    split_ifs at ha with hk
    · rw [hk, ← Option.some.inj ha, hblock b hb]
      split_ifs with hb0
      · rw [hb0]; simp [Obj.size]
      · rw [(L.append _).append_addr_of_ne (by simp [hb0]), L.append_addr_of_ne (by simp), hnone]
        rfl
    · rw [blockArr_congr (hframe _ _ (by simp) ha) hb, hbl k b hk]
      exact h.block k a ha b hb
  · rw [hin] at ha
    split_ifs at ha with hk
    · rw [hk, ← Option.some.inj ha]
      refine hfile.imp_right (And.imp_right fun hs => ⟨2, le_rfl, by omega, by simpa using hs,
        fun b hb => ?_⟩)
      obtain rfl : b = 0 := by omega
      simp
    · have hkept := hframe _ _ (by simp) ha
      rw [statType_congr hkept, statSize_congr hkept]
      exact (h.file k a ha).imp_right (And.imp_right fun hd => dirSize_append (dirSize_append hd))

end Image

/-! ### What a change keeps -/

/-- The inode `k` is that of a regular file. -/
def Regular (m : Bytes) (L : Layout) (k : ℕ) : Prop :=
  ∃ a, L.addr (.inode k) = some a ∧ statType (slice m a) = REGULAR_FILE

/-- Block `b` of the regular file `k` contains `data`. -/
def Contains (m : Bytes) (L : Layout) (k b : ℕ) (data : Bytes) : Prop :=
  Regular m L k ∧ b < 14 ∧ ∃ x, L.addr (.block k b) = some x ∧ EqTo blockSize (slice m x) data

/-- A change that keeps the addresses and types of inodes, and the blocks of regular files outside
of `P`. -/
structure Evolves (m : Bytes) (L : Layout) (m' : Bytes) (L' : Layout) (P : ℕ → ℕ → Prop) :
    Prop where
  inode : ∀ k a, L.addr (.inode k) = some a → L'.addr (.inode k) = some a
  type : ∀ k a, L.addr (.inode k) = some a → statType (slice m' a) = statType (slice m a)
  block : ∀ k b x, Regular m L k → ¬ P k b → L.addr (.block k b) = some x →
    L'.addr (.block k b) = some x ∧ Kept m m' (.block k b) x

/-- A change that keeps the inodes as they are. -/
def KeepsInodes (m : Bytes) (L : Layout) (m' : Bytes) : Prop :=
  ∀ k a, L.addr (.inode k) = some a → Kept m m' (.inode k) a

namespace Evolves

variable {m m' m'' : Bytes} {L L' L'' : Layout} {P Q : ℕ → ℕ → Prop}

theorem refl (m : Bytes) (L : Layout) (P : ℕ → ℕ → Prop) : Evolves m L m L P :=
  ⟨fun _ _ ha => ha, fun _ _ _ => rfl, fun _ _ _ _ _ hx => ⟨hx, EqTo.refl _ _⟩⟩

theorem regular (h : Evolves m L m' L' P) {k : ℕ} (hk : Regular m L k) : Regular m' L' k := by
  obtain ⟨a, ha, ht⟩ := hk
  exact ⟨a, h.inode k a ha, (h.type k a ha).trans ht⟩

theorem not_regular (h : Evolves m L m' L' P) {k a : ℕ} (ha : L.addr (.inode k) = some a)
    (hk : ¬ Regular m L k) : ¬ Regular m' L' k := by
  rintro ⟨a', ha', ht⟩
  obtain rfl := Option.some.inj ((h.inode k a ha).symm.trans ha')
  exact hk ⟨a, ha, (h.type k a ha).symm.trans ht⟩

theorem trans (h : Evolves m L m' L' P) (h' : Evolves m' L' m'' L'' P) :
    Evolves m L m'' L'' P := by
  refine ⟨fun k a ha => h'.inode k a (h.inode k a ha),
    fun k a ha => (h'.type k a (h.inode k a ha)).trans (h.type k a ha), fun k b x hk hP hx => ?_⟩
  obtain ⟨hx', hkept⟩ := h.block k b x hk hP hx
  obtain ⟨hx'', hkept'⟩ := h'.block k b x (h.regular hk) hP hx'
  exact ⟨hx'', hkept'.trans hkept⟩

theorem mono (h : Evolves m L m' L' P) (hPQ : ∀ k b, P k b → Q k b) : Evolves m L m' L' Q :=
  ⟨h.inode, h.type, fun k b x hk hQ => h.block k b x hk fun hP => hQ (hPQ k b hP)⟩

/-- No object is added. -/
theorem of_frame {F : Obj → Prop} (hframe : L.Frame F m m')
    (htype : ∀ k a, L.addr (.inode k) = some a → F (.inode k) →
      statType (slice m' a) = statType (slice m a))
    (hblock : ∀ k b, Regular m L k → F (.block k b) → P k b) : Evolves m L m' L P := by
  refine ⟨fun _ _ ha => ha, fun k a ha => ?_,
    fun k b x hk hP hx => ⟨hx, hframe _ _ (fun hF => hP (hblock k b hk hF)) hx⟩⟩
  by_cases hF : F (.inode k)
  · exact htype k a ha hF
  · exact Image.statType_congr (hframe _ _ hF ha)

/-- A new object is appended. -/
theorem append (h : Evolves m L m' L' P) {o : Obj} (hinode : ∀ k, o = .inode k → L.addr o = none)
    (hblock : ∀ k b, o = .block k b → Regular m L k → L.addr o = none) :
    Evolves m L m' (L'.append o) P := by
  refine ⟨fun k a ha => ?_, h.type, fun k b x hk hP hx => ⟨?_, (h.block k b x hk hP hx).2⟩⟩
  · rw [L'.append_addr_of_ne]
    · exact h.inode k a ha
    · rintro rfl; rw [hinode k rfl] at ha; cases ha
  · rw [L'.append_addr_of_ne]
    · exact (h.block k b x hk hP hx).1
    · rintro rfl; rw [hblock k b rfl hk] at hx; cases hx

theorem keepsInodes_trans (h : Evolves m L m' L' P) (hk : KeepsInodes m L m')
    (hk' : KeepsInodes m' L' m'') : KeepsInodes m L m'' :=
  fun k a ha => EqTo.trans (hk' k a (h.inode k a ha)) (hk k a ha)

/-- The blocks that are kept have the same contents. -/
theorem contains (h : Evolves m L m' L' P) {k b : ℕ} {data : Bytes} (hd : Contains m L k b data)
    (hP : ¬ P k b) : Contains m' L' k b data := by
  obtain ⟨hk, hb, x, hx, heq⟩ := hd
  obtain ⟨hx', hkept⟩ := h.block k b x hk hP hx
  exact ⟨h.regular hk, hb, x, hx', EqTo.trans hkept heq⟩

end Evolves

/-! ### The addresses in an image -/

/-- What an address field refers to. -/
def deref (x : ℤ) : Option ℤ := if x = -1 then none else some x

def pieceAddr (m : Bytes) (i : ℕ) : Option ℤ := if i < 256 then deref (word m 0 i) else none

def inodeAddr (m : Bytes) (k : ℕ) : Option ℤ :=
  (pieceAddr m (k / 16)).bind fun a => deref (word m a.toNat (k % 16))

def blockAddr (m : Bytes) (k b : ℕ) : Option ℤ :=
  if b < 14 then (inodeAddr m k).bind fun a => deref (blockArr (slice m a.toNat) b) else none

/-- Where an object is, found by following the addresses in the image from the checkpoint on. -/
def onDisk (m : Bytes) : Obj → Option ℤ
  | .checkpoint => some 0
  | .piece i => pieceAddr m i
  | .inode k => inodeAddr m k
  | .block k b => blockAddr m k b

theorem deref_ref (x : Option ℕ) : deref (ref x) = x.map Int.ofNat := by
  cases x with
  | none => rfl
  | some a => exact if_neg (ref_eq_neg_one.not.2 (Option.some_ne_none a))

namespace Image

variable {m : Bytes} {L : Layout} {n p : ℕ}

theorem pieceAddr_eq (h : Image m L n p) (i : ℕ) :
    pieceAddr m i = (L.addr (.piece i)).map Int.ofNat := by
  have hp := h.p_le
  unfold pieceAddr
  split_ifs with hi
  · rw [h.imap i hi, deref_ref]
  · rw [Option.not_isSome_iff_eq_none.1 ((h.piece_iff i).not.2 (by omega))]; rfl

theorem inodeAddr_eq (h : Image m L n p) (k : ℕ) :
    inodeAddr m k = (L.addr (.inode k)).map Int.ofNat := by
  have hn := h.n_le
  rw [inodeAddr, h.pieceAddr_eq]
  cases ha : L.addr (.piece (k / 16)) with
  | none =>
    have hk : ¬ k / 16 < p := fun hlt => by simpa [ha] using (h.piece_iff _).2 hlt
    rw [Option.not_isSome_iff_eq_none.1 ((h.inode_iff k).not.2 (by omega))]
    rfl
  | some a =>
    have he := h.entry _ a ha (k % 16) (Nat.mod_lt _ (by omega))
    rw [Nat.div_add_mod] at he
    rw [← deref_ref (L.addr (.inode k)), ← he, Option.map_some, Option.bind_some]
    rfl

theorem blockAddr_eq (h : Image m L n p) {k b : ℕ} (hb : b < 14) :
    blockAddr m k b = (L.addr (.block k b)).map Int.ofNat := by
  rw [blockAddr, if_pos hb, h.inodeAddr_eq]
  cases ha : L.addr (.inode k) with
  | none =>
    have hk : ¬ k < n := fun hlt => by simpa [ha] using (h.inode_iff k).2 hlt
    rw [Option.not_isSome_iff_eq_none.1 fun hs => hk (h.owner k b hs)]
    rfl
  | some a =>
    rw [← deref_ref (L.addr (.block k b)), ← h.block k a ha b hb, Option.map_some,
      Option.bind_some]
    rfl

theorem addr_of_onDisk (h : Image m L n p) {o : Obj} {x : ℤ} (hx : onDisk m o = some x) :
    ∃ a : ℕ, L.addr o = some a ∧ x = a := by
  have hmap : onDisk m o = (L.addr o).map Int.ofNat := by
    cases o with
    | checkpoint => rw [h.checkpoint]; rfl
    | piece i => exact h.pieceAddr_eq i
    | inode k => exact h.inodeAddr_eq k
    | block k b =>
      refine h.blockAddr_eq (not_le.1 fun hb => ?_)
      rw [onDisk, blockAddr, if_neg (by omega)] at hx
      cases hx
  obtain ⟨a, ha, rfl⟩ := Option.map_eq_some_iff.1 (hmap ▸ hx)
  exact ⟨a, ha, rfl⟩

/-- **The objects of an image do not overlap and end below the end of the log.** -/
theorem onDisk_disjoint (h : Image m L n p) :
    (∀ o o' x x', o ≠ o' → onDisk m o = some x → onDisk m o' = some x' →
      x + o.size ≤ x' ∨ x' + o'.size ≤ x) ∧
    ∀ o x, onDisk m o = some x → 0 ≤ x ∧ x + o.size ≤ word m 0 256 := by
  refine ⟨fun o o' x x' hne hx hx' => ?_, fun o x hx => ?_⟩
  · obtain ⟨a, ha, rfl⟩ := h.addr_of_onDisk hx
    obtain ⟨a', ha', rfl⟩ := h.addr_of_onDisk hx'
    have := L.disjoint o o' a a' hne ha ha'
    omega
  · obtain ⟨a, ha, rfl⟩ := h.addr_of_onDisk hx
    have := L.within o a ha
    rw [h.endLog]
    omega

end Image

end Mfs

end OperatingSystems

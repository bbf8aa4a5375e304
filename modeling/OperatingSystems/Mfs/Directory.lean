import OperatingSystems.Mfs.Creation
import OperatingSystems.Names.Tree

/-!
# Directories in an image

What the blocks of the directories contain, as lists of entries: the image represents a namespace,
and `sCreate` creates a file in it.

* `Holds m a es` : the directory with its inode at `a` has the entries `es`, one after the other in
  its blocks, and its other slots are unused.
* `Represents m L T` : the directories of an image are those of the namespace `T`.
* `Server.sCreate_represents` : `sCreate` does nothing, or creates a file in the namespace.
-/

namespace OperatingSystems

namespace Mfs

open Bytes

/-- The namespaces of the file server, with C strings as names. -/
abbrev Names : Type := Namespace (List UInt8)

/-- A file is created, of type `type`. -/
def Names.create (T : Names) (k : ℕ) (name : List UInt8) (type : ℤ) : Names :=
  Namespace.create [46] [46, 46] T k name (type = 0)

/-- What a slot with this entry contains. -/
def slot : Option (List UInt8 × ℕ) → List UInt8 × ℤ
  | none => unused
  | some e => (e.1, e.2)

/-- The directory with its inode at `a` has the entries `es`. -/
structure Holds (m : Bytes) (a : ℕ) (es : List (List UInt8 × ℕ)) : Prop where
  size : statSize (slice m a) = 4096 * (es.length : ℤ)
  length_le : es.length ≤ 14 * 64
  alloc : ∀ b < 14, blockArr (slice m a) b ≠ -1 ↔ 64 * b < es.length
  slots : ∀ b < 14, ∀ x : ℕ, blockArr (slice m a) b = x → ∀ j < 64,
    entry (slice m x) j = slot es[64 * b + j]?
  names : ∀ e ∈ es, e.1 ≠ [] ∧ e.1.length < 60

/-- The directories of the image are those of the namespace. -/
structure Represents (m : Bytes) (L : Layout) (T : Names) : Prop where
  bounded : ∀ k es, T.dirs k = some es → k < T.count
  file : ∀ k a, L.addr (.inode k) = some a → T.dirs k = none →
    statType (slice m a) = REGULAR_FILE
  directory : ∀ k a es, L.addr (.inode k) = some a → T.dirs k = some es →
    statType (slice m a) = DIRECTORY ∧ Holds m a es

variable {m m' : Bytes} {L L' : Layout} {n p p' k a : ℕ} {T : Names} {es : List (List UInt8 × ℕ)}
  {junk : Junk} {name : List UInt8} {type : ℤ}

/-- A new inode has only its first block. -/
theorem Server.blockArr_newInode {e : ℕ} (he : e + inodeSize < 2 ^ 31) (b : ℕ) :
    blockArr (Server.newInode type e) b = if b = 0 then ((e + inodeSize : ℕ) : ℤ) else -1 := by
  rw [blockArr, Server.newInode]
  cases b with
  | zero =>
    rw [word_ofWords (by simp only [Nat.add_zero]; omega)]
    simp
  | succ b =>
    rw [show 2 + (b + 1) = b + 3 by omega, word_ofWords (by simp only []; omega)]
    simp

namespace Holds

/-- A directory whose inode and blocks are kept. -/
theorem congr (h : Holds m a es) (hinode : EqTo inodeSize (slice m' a) (slice m a))
    (hblock : ∀ b < 14, ∀ x : ℕ, blockArr (slice m a) b = x →
      EqTo blockSize (slice m' x) (slice m x)) : Holds m' a es := by
  refine ⟨?_, h.length_le, fun b hb => ?_, fun b hb x hx j hj => ?_, h.names⟩
  · rw [statSize_eq hinode, h.size]
  · rw [blockArr_eq hinode hb, h.alloc b hb]
  · rw [blockArr_eq hinode hb] at hx
    rw [entry_eq (hblock b hb x hx) hj, h.slots b hb x hx j hj]

/-- The blocks of a directory are in the log. -/
theorem addr_block (himage : Image m L n p) (ha : L.addr (.inode k) = some a) {b x : ℕ} (hb : b < 14)
    (hx : blockArr (slice m a) b = x) : L.addr (.block k b) = some x := by
  rwa [himage.block k a ha b hb, ref_eq_natCast] at hx

theorem frame (h : Holds m a es) (himage : Image m L n p) (ha : L.addr (.inode k) = some a)
    {P : Obj → Prop} (hframe : L.Frame P m m') (hinode : ¬ P (.inode k))
    (hblock : ∀ b, ¬ P (.block k b)) : Holds m' a es :=
  h.congr (hframe _ _ hinode ha) fun _ hb _ hx =>
    hframe _ _ (hblock _) (addr_block himage ha hb hx)

/-- A directory after the next entry was written. -/
theorem added (h : Holds m a es) (himage : Image m L n p) (ha : L.addr (.inode k) = some a)
    (hadd : Server.Added m m' L k a es.length name junk type n) (hlen : es.length < 14 * 64)
    (hname : name ≠ [] ∧ name.length < 60) : Holds m' a (es ++ [(name, n)]) := by
  obtain ⟨x, hx, hold, hentry⟩ := hadd.block
  have hne : blockArr (slice m' a) (es.length / 64) ≠ -1 := by omega
  refine ⟨?_, ?_, fun b hb => ?_, fun b hb y hy j hj => ?_, fun e he => ?_⟩
  · rw [hadd.size_eq, h.size, List.length_append, List.length_singleton]
    push_cast
    ring
  · rw [List.length_append, List.length_singleton]
    omega
  · rw [List.length_append, List.length_singleton]
    by_cases hbc : b = es.length / 64
    · rw [hbc]
      exact iff_of_true hne (by omega)
    · rw [hadd.blocks b hb hbc, h.alloc b hb]
      omega
  · by_cases hbc : b = es.length / 64
    · subst hbc
      obtain rfl : y = x := Int.ofNat.inj (hy.symm.trans hx)
      rw [hentry j hj]
      split_ifs with hlast hzero
      · rw [List.getElem?_append_right (by omega)]
        simp [hlast, slot, show 64 * (es.length / 64) + es.length % 64 - es.length = 0 by omega]
      · rw [List.getElem?_eq_none (by simp; omega)]
        rfl
      · rw [h.slots _ hb y ?_ j hj]
        · rcases Nat.lt_or_ge (64 * (es.length / 64) + j) es.length with hlt | hge
          · rw [List.getElem?_append_left hlt]
          · rw [List.getElem?_eq_none hge, List.getElem?_eq_none (by simp; omega)]
        · rw [himage.block k a ha _ hb, hold hzero, ref_some]
    · rw [hadd.blocks b hb hbc] at hy
      have hkept := hadd.frame _ _ (by simp [hbc]) (addr_block himage ha hb hy)
      rw [entry_eq hkept hj, h.slots b hb y hy j hj]
      rcases Nat.lt_or_ge (64 * b + j) es.length with hlt | hge
      · rw [List.getElem?_append_left hlt]
      · rw [List.getElem?_eq_none hge, List.getElem?_eq_none (by simp; omega)]
  · rcases List.mem_append.1 he with he | he
    · exact h.names e he
    · rw [List.mem_singleton.1 he]
      exact hname

/-- A new directory. -/
theorem new {e : ℕ} (he : e + inodeSize < 2 ^ 31) (hk : k < 4096) (hn : n < 4096)
    (hinode : EqTo inodeSize (slice m e) (Server.newInode 0 e))
    (hblock : EqTo blockSize (slice m (e + inodeSize)) (Server.newBlock junk k 0 n)) :
    Holds m e [([46], n), ([46, 46], k)] := by
  have hblockArr : ∀ b < 14, blockArr (slice m e) b =
      if b = 0 then ((e + inodeSize : ℕ) : ℤ) else -1 := fun b hb =>
    (blockArr_eq hinode hb).trans (Server.blockArr_newInode he b)
  refine ⟨?_, by simp, fun b hb => ?_, fun b hb x hx j hj => ?_, by simp⟩
  · rw [statSize_eq hinode, statSize, Server.newInode, word_ofWords (by simp)]
    simp
  · rw [hblockArr b hb]
    split_ifs with hb0
    · exact iff_of_true (by omega) (by simp [hb0])
    · simp only [ne_eq, not_true_eq_false, List.length_cons, List.length_nil, false_iff]
      omega
  · rw [hblockArr b hb] at hx
    split_ifs at hx with hb0
    obtain rfl := Int.ofNat.inj hx
    rw [entry_eq hblock hj, entry_newBlock (by omega) (by omega) hj, hb0, Nat.mul_zero, Nat.zero_add]
    split_ifs with h0 h1
    · rw [h0]; rfl
    · rw [h1]; rfl
    · rw [List.getElem?_eq_none (by simp; omega)]
      rfl

end Holds

/-- Where the inode of a new file is. -/
theorem Server.Added.addr_inode {c : ℕ} (hadd : Server.Added m m' L k a c name junk type n)
    (himage' : Image m' L' (n + 1) p') (hn4096 : n < 4096) :
    ∃ e, L.stop ≤ e ∧ (n % 16 ≠ 0 → e = L.stop) ∧ L'.addr (.inode n) = some e ∧
      (∀ z, Server.stopAfter (e + inodeSize + blockSize) c ≤ z → m' z = m z) ∧
      EqTo inodeSize (slice m' e) (Server.newInode type e) ∧
      EqTo blockSize (slice m' (e + inodeSize)) (Server.newBlock junk k type n) := by
  obtain ⟨e, i, hge, hsame, hout, hi, hword, hinode, hblock⟩ := hadd.inode
  -- the inode map leads to the new inode
  have hpiece : L'.addr (.piece (n / 16)) = some i := by
    rwa [himage'.imap (n / 16) (by omega), ref_eq_natCast] at hi
  refine ⟨e, hge, hsame, ?_, hout, hinode, hblock⟩
  rwa [himage'.entry _ i hpiece (n % 16) (Nat.mod_lt _ (by omega)), Nat.div_add_mod,
    ref_eq_natCast] at hword

namespace Represents

/-- A change that keeps the types of inodes, and the inodes and blocks of directories. -/
theorem frame (h : Represents m L T) (himage : Image m L n p)
    (hinodes : ∀ k a, L'.addr (.inode k) = some a → L.addr (.inode k) = some a)
    {P : Obj → Prop} (hframe : L.Frame P m m')
    (htype : ∀ k a, L.addr (.inode k) = some a → statType (slice m' a) = statType (slice m a))
    (hdir : ∀ k es, T.dirs k = some es → ¬ P (.inode k) ∧ ∀ b, ¬ P (.block k b)) :
    Represents m' L' T := by
  refine ⟨h.bounded, fun k a ha hk => ?_, fun k a es ha hk => ?_⟩
  · rw [htype k a (hinodes k a ha)]
    exact h.file k a (hinodes k a ha) hk
  · obtain ⟨hinode, hblock⟩ := hdir k es hk
    obtain ⟨hd, hholds⟩ := h.directory k a es (hinodes k a ha) hk
    exact ⟨(htype k a (hinodes k a ha)).trans hd,
      hholds.frame himage (hinodes k a ha) hframe hinode hblock⟩

theorem not_none (h : Represents m L T) (ha : L.addr (.inode k) = some a)
    (hd : statType (slice m a) = DIRECTORY) : ∃ es, T.dirs k = some es := by
  cases hk : T.dirs k with
  | none =>
    have := h.file k a ha hk
    rw [hd] at this
    cases this
  | some es => exact ⟨es, rfl⟩

/-- **A file is created.** -/
theorem create (h : Represents m L T) (himage : Image m L n p) (hcount : T.count = n)
    (ha : L.addr (.inode k) = some a) (hk : T.dirs k = some es) (hk4096 : k < 4096)
    (hn4096 : n < 4096) (hlen : es.length < 14 * 64) (hname : name ≠ [] ∧ name.length < 60)
    (htype : type = 0 ∨ type = 1) (hadd : Server.Added m m' L k a es.length name junk type n)
    (himage' : Image m' L' (n + 1) p')
    (hinodes : ∀ k a, L.addr (.inode k) = some a → L'.addr (.inode k) = some a) :
    Represents m' L' (T.create k name type) := by
  have hkn : k < n := hcount ▸ h.bounded k es hk
  obtain ⟨e, -, -, hnew, -, hinode, hblock⟩ := hadd.addr_inode himage' hn4096
  -- only the inode `n` is new
  have hold : ∀ j b, L'.addr (.inode j) = some b → j ≠ n → L.addr (.inode j) = some b := by
    intro j b hj hjn
    have hlt : j < n := by
      have := (himage'.inode_iff j).1 (by rw [hj]; rfl)
      omega
    obtain ⟨b', hb'⟩ := Option.isSome_iff_exists.1 ((himage.inode_iff j).2 hlt)
    rw [hb', ← Option.some.inj ((hinodes j b' hb').symm.trans hj)]
  have he : e + inodeSize < 2 ^ 31 := (L'.within _ _ hnew).trans_lt himage'.stop_lt
  have htypes : ∀ j b, L.addr (.inode j) = some b →
      statType (slice m' b) = statType (slice m b) := by
    intro j b hj
    by_cases hjk : j = k
    · subst hjk
      rw [← Option.some.inj (ha.symm.trans hj)]
      exact hadd.type_eq
    · exact Image.statType_congr (hadd.frame _ _ (by simp [hjk]) hj)
  have hnewType : statType (slice m' e) = type := by
    rw [statType_eq hinode]
    exact word_ofWords (by simp only []; omega)
  subst hcount
  refine ⟨fun j es' hj => ?_, fun j b hb hj => ?_, fun j b es' hb hj => ?_⟩
  all_goals
    unfold Names.create at hj
    by_cases hjn : j = T.count
  · rw [hjn]
    exact Nat.lt_succ_self _
  · by_cases hjk : j = k
    · rw [hjk]
      exact Nat.lt_succ_of_lt hkn
    · rw [Namespace.create_dirs_of_ne _ _ hjk hjn] at hj
      exact Nat.lt_succ_of_lt (h.bounded j es' hj)
  · subst hjn
    rw [Namespace.create_dirs_new] at hj
    obtain rfl := Option.some.inj (hnew.symm.trans hb)
    obtain rfl | rfl := htype
    · simp at hj
    · exact hnewType
  · by_cases hjk : j = k
    · subst hjk
      rw [Namespace.create_dirs_self _ _ hk hkn] at hj
      cases hj
    · rw [Namespace.create_dirs_of_ne _ _ hjk hjn] at hj
      rw [htypes j b (hold j b hb hjn)]
      exact h.file j b (hold j b hb hjn) hj
  · subst hjn
    rw [Namespace.create_dirs_new] at hj
    obtain rfl := Option.some.inj (hnew.symm.trans hb)
    obtain rfl | rfl := htype
    · obtain rfl := Option.some.inj ((if_pos (by simp)).symm.trans hj)
      exact ⟨hnewType, Holds.new he hk4096 hn4096 hinode hblock⟩
    · simp at hj
  · have hb' := hold j b hb hjn
    by_cases hjk : j = k
    · subst hjk
      rw [Namespace.create_dirs_self _ _ hk hkn] at hj
      obtain rfl := Option.some.inj hj
      obtain rfl := Option.some.inj (ha.symm.trans hb')
      obtain ⟨hd, hholds⟩ := h.directory j a es ha hk
      exact ⟨(htypes j a ha).trans hd, hholds.added himage ha hadd hlen hname⟩
    · rw [Namespace.create_dirs_of_ne _ _ hjk hjn] at hj
      obtain ⟨hd, hholds⟩ := h.directory j b es' hb' hj
      exact ⟨(htypes j b hb').trans hd,
        hholds.frame himage hb' hadd.frame (by simp [hjk]) (by simp [hjk])⟩

end Represents

/-! ### The server -/

namespace Server

variable {s : Server} {pinum : ℤ} {y : Server × ℤ} {name' : List UInt8}

/-- The image of the server represents the namespace `T`. -/
def Serves (s : Server) (L : Layout) (T : Names) : Prop :=
  Loaded s L T.count ((T.count + 15) / 16) ∧ Represents s.disk.bytes L T

theorem Serves.readOnly {s' : Server} (h : Serves s L T)
    (hs' : ReadOnly s s' L T.count ((T.count + 15) / 16)) : Serves s' L T :=
  ⟨hs'.1, hs'.2 ▸ h.2⟩

theorem Loaded.eq_of_find (h : Loaded s L n p)
    (hfind : ((List.range 4096).find? fun i => s.inodeArr i = -1) = some k) : k = n ∧ n < 4096 := by
  by_cases hn : n < 4096
  · rw [h.find_inode hn] at hfind
    exact ⟨(Option.some.inj hfind).symm, hn⟩
  · rw [List.find?_range_eq_some] at hfind
    obtain ⟨hk, hk4096, -⟩ := hfind
    rw [decide_eq_true_eq, h.inodeArr_eq, ref_eq_neg_one, ← Option.not_isSome_iff_eq_none,
      h.image.inode_iff] at hk
    have := List.mem_range.1 hk4096
    omega

theorem Loaded.parent (h : Loaded s L n p) (hpinum : 0 ≤ pinum ∧ pinum < 4096) :
    Loaded ((s.parent junk pinum name).1.loadMem junk) L n p := by
  have hload := (h.readOnly.loadMem junk).1
  have halike : Alike (s.loadMem junk) (s.parent junk pinum name).1 := parent_alike hpinum
  exact (loadMem_spec (hload.congr halike.bytes halike.size halike.chkpt halike.iArr).toStored
    junk).1

/-- **`sCreate` creates a file in the namespace.** -/
theorem sCreate_added (h : Serves s L T) (h0 : 0 ∉ name) (he : Enters s junk k type name)
    (hcount : T.count < 4096) (hname : sprintf name [60] = some name') (hlen : name'.length < 60) :
    ∃ a es, L.addr (.inode k) = some a ∧ T.dirs k = some es ∧
      Unless (2 ^ 31 ≤ L.stop + imapSize + inodeSize + 2 * blockSize) (s.sCreate junk k type name)
        fun y => y.2 = 0 ∧ ∃ L', Serves y.1 L' (T.create k name' type) ∧
          L'.stop ≤ L.stop + imapSize + inodeSize + 2 * blockSize ∧
          (∀ j b, L.addr (.inode j) = some b → L'.addr (.inode j) = some b) ∧
          Added s.disk.bytes y.1.disk.bytes L k a es.length name' junk type T.count ∧
          (T.count % 16 ≠ 0 → es.length % 64 ≠ 0 → L'.stop = L.stop + inodeSize + blockSize) := by
  obtain ⟨hl, hr⟩ := h
  have hk := he.range.2
  have hload := (hl.readOnly.loadMem junk).1
  obtain ⟨h0', hne⟩ := sprintf_spec h0 hname
  have hloc := he.used
  rw [hl.inodeArr_eq, Int.toNat_natCast, ne_eq, ref_eq_neg_one] at hloc
  obtain ⟨a, ha⟩ := Option.ne_none_iff_exists'.1 hloc
  have hloc' : (s.loadMem junk).inodeArr k = a := by rw [hload.inodeArr_eq, ha, ref_some]
  have hinode := parent_eqTo hload.tables ha hloc' (by omega) name
  have hdir := he.directory
  rw [statType_eq hinode] at hdir
  obtain ⟨es, hes⟩ := hr.not_none ha hdir
  obtain ⟨-, hholds⟩ := hr.directory k a es ha hes
  have hroom := he.room
  rw [statSize_eq hinode, hholds.size] at hroom
  have hnew : L.addr (.inode T.count) = none ∧ L.addr (.block T.count 0) = none := by
    constructor
    · rw [← Option.not_isSome_iff_eq_none, hl.image.inode_iff]
      exact lt_irrefl _
    · rw [← Option.not_isSome_iff_eq_none]
      exact fun hb => lt_irrefl _ (hl.image.owner _ _ hb)
  -- the block of the next entry, unless it is a new one
  have hlast : es.length % 64 ≠ 0 → ∃ x : ℕ, L.addr (.block k (es.length / 64)) = some x ∧
      blockArr (slice s.disk.bytes a) (es.length / 64) = x := by
    intro hmod
    have halloc := (hholds.alloc (es.length / 64) (by omega)).2 (by omega)
    rw [hl.image.block k a ha _ (by omega), ne_eq, ref_eq_neg_one] at halloc
    obtain ⟨x, hx⟩ := Option.ne_none_iff_exists'.1 halloc
    exact ⟨x, hx, by rw [hl.image.block k a ha _ (by omega), hx, ref_some]⟩
  have hadded := sCreate_tables hload.tables he hloc' ha (by rw [hholds.size]; omega) hlast
    ((hl.parent he.range).find_inode hcount) (by omega) (hr.bounded k es hes).ne' hnew hname hlen h0'
  refine ⟨a, es, ha, hes, ?_⟩
  obtain herr | ⟨y, hok, hy, L'', p'', htables, hend, hadd, hentered⟩ := hadded
  · exact Or.inl herr
  obtain ⟨L', hl', hevolves⟩ := (sCreate_grows hl hcount he hname hlen).of_ok hok
  have hstop : L'.stop = L''.stop := by exact_mod_cast hl'.tables.endLog.symm.trans htables.endLog
  refine Or.inr ⟨y, hok, hy, L', ⟨hl', ?_⟩, hstop ▸ hend, hevolves.inode, hadd,
    hstop ▸ hentered.stop⟩
  exact hr.create hl.image rfl ha hes (by omega) hcount (by omega)
    ⟨hne (List.ne_nil_of_length_pos he.length.1), hlen⟩ he.valid hadd hl'.image hevolves.inode

/-- The inodes after a file was created are those that there were, and one behind all objects. -/
theorem Added.inode_of_addr {c : ℕ} (hadd : Added m m' L k a c name junk type n)
    (himage : Image m L n p) (himage' : Image m' L' (n + 1) p') (hn4096 : n < 4096)
    (hinodes : ∀ j b, L.addr (.inode j) = some b → L'.addr (.inode j) = some b) {j b : ℕ}
    (hj : L'.addr (.inode j) = some b) : L.addr (.inode j) = some b ∨ L.stop ≤ b := by
  by_cases hjn : j = n
  · obtain ⟨e, hge, -, he, -⟩ := hadd.addr_inode himage' hn4096
    rw [hjn, he] at hj
    exact Or.inr (Option.some.inj hj ▸ hge)
  · have hlt : j < n := by
      have := (himage'.inode_iff j).1 (by rw [hj]; rfl)
      omega
    obtain ⟨b', hb'⟩ := Option.isSome_iff_exists.1 ((himage.inode_iff j).2 hlt)
    rw [hb', ← Option.some.inj ((hinodes j b' hb').symm.trans hj)]
    exact Or.inl rfl

/-- **What `sCreate` does** to the namespace, if it has a result. -/
theorem sCreate_represents (h : Serves s L T) (h0 : 0 ∉ name)
    (hok : s.sCreate junk pinum type name = .ok y) :
    (¬ Enters s junk pinum type name ∧ ReadOnly s y.1 L T.count ((T.count + 15) / 16)) ∨
    (Enters s junk pinum type name ∧ y.2 = 0 ∧ ∃ k es name' L', pinum = (k : ℕ) ∧
      T.dirs k = some es ∧ sprintf name [60] = some name' ∧ name'.length < 60 ∧
      Serves y.1 L' (T.create k name' type) ∧ ∀ j b, L'.addr (.inode j) = some b →
        L.addr (.inode j) = some b ∨ L.stop ≤ b) := by
  have hl := h.1
  by_cases he : Enters s junk pinum type name
  swap
  · refine Or.inl ⟨he, ?_⟩
    by_cases hpinum : pinum = 4096
    · rw [sCreate_behind hpinum hok]
      exact hl.readOnly
    · obtain ⟨s', r, hok', hs'⟩ := sCreate_readOnly hl he hpinum
      rw [← Except.ok.inj (hok'.symm.trans hok)]
      exact hs'
  obtain ⟨k, rfl⟩ := Int.eq_ofNat_of_zero_le he.range.1
  have hload := (hl.readOnly.loadMem junk).1
  obtain ⟨n, name', hn, -, hname, hlen, -⟩ := sCreate_ok hload.tables he hok
  obtain ⟨-, hn4096⟩ := (hl.parent he.range).eq_of_find hn
  obtain ⟨a, es, -, hes, hadded⟩ := sCreate_added h h0 he hn4096 hname hlen
  obtain ⟨hy, L', hL', -, hinodes, hadd, -⟩ := hadded.of_ok hok
  exact Or.inr ⟨he, hy, k, es, name', L', rfl, hes, hname, hlen, hL', fun j b hj =>
    hadd.inode_of_addr hl.image hL'.1.image hn4096 hinodes hj⟩

end Server

end Mfs

end OperatingSystems

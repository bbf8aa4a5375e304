import OperatingSystems.Mfs.Effects

/-!
# The entry of a new file

`sCreate` enters the new file in its directory, where the number of entries is kept in the size of
the directory, 4096 for each: the next entry is number `size / 4096`, in a new block if it is the
first of one.

* `Server.Enters` : the condition under which `sCreate` goes on to create the file.
* `NewEntry` : an entry was written and the size of the directory adjusted.
* `Server.putEntry_tables`, `Server.sCreate_tables` : what `sCreate` does then, whatever else is in
  the image.
-/

namespace OperatingSystems

namespace Mfs

open Bytes

namespace Server

variable {s s' : Server} {L L' : Layout} {p k n a b c x : ℕ} {junk : Junk} {name name' : List UInt8}

theorem appendDirBlock_tables (h : Tables s L p) (junk : Junk) (k : ℕ) (pInode : Bytes) (b : ℕ) :
    Unless (2 ^ 31 ≤ L.stop + blockSize) (s.appendDirBlock junk pInode b) fun y =>
      y.2 = setBlock pInode b L.stop ∧ Tables y.1 (L.append (.block k b)) p ∧
        L.Frame (· = .checkpoint) s.disk.bytes y.1.disk.bytes ∧
        EqTo blockSize (slice y.1.disk.bytes L.stop) (emptyDir (junk .newDirBlk)) ∧
        ∀ z, L.stop + blockSize ≤ z → y.1.disk.bytes z = s.disk.bytes z := by
  have hge := h.stop_ge
  unfold appendDirBlock
  simp only [h.endLog]
  refine Unless.bind ((advance_unless _ _).mono ?_ fun _ => id) ?_
  · simp only [write_endLog, lseek_endLog, h.endLog, blockSize]
    omega
  rintro s' ⟨hov, hdisk, hchkpt⟩
  simp only [write_endLog, lseek_endLog, h.endLog, write_chkpt, lseek_chkpt] at hov hchkpt
  have hlt : (L.stop : ℤ) + (4096 : ℕ) < 2 ^ 31 := hov
  have hbytes : s'.writeChkpt.disk.bytes = patch (patch s.disk.bytes L.stop blockSize
      (emptyDir (junk .newDirBlk))) 0 checkpointSize s'.chkpt := by
    rw [writeChkpt_bytes, hdisk, write_bytes]
  refine .ok ⟨rfl, ⟨?_, fun i => ?_, h.p_le, ?_, ?_, ?_, fun i hi => ?_⟩, ?_, ?_,
    fun z hz => ?_⟩
  · rw [L.append_addr_of_ne (by simp)]
    exact h.checkpoint
  · rw [L.append_addr_of_ne (by simp)]
    exact h.piece_iff i
  · rw [writeChkpt_size, hdisk, write_size]
    exact (le_max_right _ _).trans (le_max_left _ _)
  · rw [writeChkpt_chkpt, hbytes]
    exact (slice_zero _ ▸ slice_patch _ 0 checkpointSize s'.chkpt).symm
  · rw [endLog, writeChkpt_chkpt, hchkpt, word_setWord_self (by omega)]
    rfl
  · rw [imap, writeChkpt_chkpt, hchkpt, word_setWord_of_ne (by omega),
      L.append_addr_of_ne (by simp)]
    exact h.imap i hi
  · rw [hbytes]
    have hframe : L.Frame (· = .checkpoint) s.disk.bytes (patch s.disk.bytes L.stop blockSize
        (emptyDir (junk .newDirBlk))) := Log.frame_write_behind le_rfl
    exact hframe.trans (Log.frame_write rfl h.checkpoint le_rfl le_rfl)
  · rw [hbytes]
    exact (slice_patch_of_disjoint (Or.inl (by omega))).trans (slice_patch _ _ _ _)
  · rw [hbytes, patch_of_le (by omega), patch_of_le hz]

theorem writeEntry_tables (h : Tables s L p) (ha : L.addr (.inode k) = some a)
    (hx : L.addr (.block k b) = some x) {pInode : Bytes} (hblock : blockArr pInode b = x)
    (hname : sprintf name [60] = some name') (hlen : name'.length < 60) (junk : Junk)
    (i newInum : ℕ) :
    ∃ s', s.writeEntry junk a pInode b i name newInum = .ok (s', 0) ∧ Tables s' L p ∧
      L.Frame (fun o => o = .inode k ∨ o = .block k b) s.disk.bytes s'.disk.bytes ∧
      EqTo inodeSize (slice s'.disk.bytes a) pInode ∧
      EqTo blockSize (slice s'.disk.bytes x) (setEntry (slice s.disk.bytes x) i name' newInum) ∧
      ∀ z, L.stop ≤ z → s'.disk.bytes z = s.disk.bytes z := by
  have haend : a + inodeSize ≤ L.stop := L.within _ _ ha
  have hdisjoint : a + inodeSize ≤ x ∨ x + blockSize ≤ a := L.disjoint _ _ _ _ (by simp) ha hx
  have hxend : x + blockSize ≤ L.stop := L.within _ _ hx
  set t := ((s.lseek a).write inodeSize pInode).loadMem junk with ht
  have htables : Tables t L p := (h.write (h.checkpointSize_le (by simp) ha) _ _).loadMem junk
  have hbytes : t.disk.bytes = patch s.disk.bytes a inodeSize pInode := by
    rw [ht, loadMem_bytes, write_bytes]
  set dirBlk := ((t.lseek x).read blockSize (junk .dirBlk)).2 with hdirBlk
  have hread : EqTo blockSize dirBlk (slice s.disk.bytes x) := by
    refine (read_eqTo (hxend.trans htables.size) _).trans ?_
    rw [hbytes]
    exact slice_patch_of_disjoint hdisjoint
  have hbytes' : ((((t.lseek x).read blockSize (junk .dirBlk)).1.lseek x).write blockSize
      (setEntry dirBlk i name' newInum)).disk.bytes =
      patch (patch s.disk.bytes a inodeSize pInode) x blockSize
        (setEntry dirBlk i name' newInum) := by
    rw [write_bytes, read_bytes, lseek_bytes, hbytes]
  refine ⟨(((((t.lseek x).read blockSize (junk .dirBlk)).1.lseek x).write blockSize
    (setEntry dirBlk i name' newInum))).loadMem junk, ?_, ?_, ?_, ?_, ?_, fun z hz => ?_⟩
  · unfold writeEntry
    simp only [hname, hblock]
    rw [if_neg (by omega)]
  · exact ((htables.alike ((Alike.refl t).read x _ _)).write
      (h.checkpointSize_le (by simp) hx) _ _).loadMem junk
  · rw [loadMem_bytes, hbytes']
    have h₁ : L.Frame (fun o => o = .inode k ∨ o = .block k b) s.disk.bytes
        (patch s.disk.bytes a inodeSize pInode) :=
      Log.frame_write (Or.inl rfl) ha le_rfl le_rfl
    exact h₁.trans (Log.frame_write (Or.inr rfl) hx le_rfl le_rfl)
  · rw [loadMem_bytes, hbytes']
    exact (slice_patch_of_disjoint (by omega)).trans (slice_patch _ _ _ _)
  · rw [loadMem_bytes, hbytes']
    exact (slice_patch _ _ _ _).trans (setEntry_congr hread)
  · rw [loadMem_bytes, hbytes', patch_of_le (by omega), patch_of_le (by omega)]

/-- Where the log ends after the entry `c` of a directory was written. -/
def stopAfter (stop c : ℕ) : ℕ := if c % 64 = 0 then stop + blockSize else stop

/-- The entry `c` of the directory `k`, whose inode is at `a` and was `pInode` before, was written,
and its size adjusted; the rest of the log `L` is as it was. -/
structure NewEntry (m m' : Bytes) (L : Layout) (k a c : ℕ) (pInode : Bytes) (name : List UInt8)
    (inum : ℕ) : Prop where
  frame : L.Frame (fun o => o = .checkpoint ∨ o = .inode k ∨ o = .block k (c / 64)) m m'
  type : statType (slice m' a) = statType pInode
  size : statSize (slice m' a) = statSize pInode + 4096
  blocks : ∀ b < 14, b ≠ c / 64 → blockArr (slice m' a) b = blockArr pInode b
  block : ∃ x : ℕ, blockArr (slice m' a) (c / 64) = x ∧
    (c % 64 ≠ 0 → L.addr (.block k (c / 64)) = some x) ∧
    ∀ j < 64, entry (slice m' x) j =
      if j = c % 64 then (name, (inum : ℤ))
      else if c % 64 = 0 then unused else entry (slice m x) j
  outside : ∀ z, stopAfter L.stop c ≤ z → m' z = m z

/-- The directory `k` has room for the entry `c`, in block `c / 64` at `x`: what `putEntry` knows
before it writes the entry and the inode `pInode'`. -/
structure Ready (m : Bytes) (L : Layout) (p k c : ℕ) (pInode : Bytes) (t : Server)
    (pInode' : Bytes) (L' : Layout) (x : ℕ) : Prop where
  tables : Tables t L' p
  keeps : ∀ o, o ≠ .block k (c / 64) → L'.addr o = L.addr o
  addr : L'.addr (.block k (c / 64)) = some x
  old : c % 64 ≠ 0 → L.addr (.block k (c / 64)) = some x
  frame : L.Frame (· = .checkpoint) m t.disk.bytes
  type : statType pInode' = statType pInode
  size : statSize pInode' = statSize pInode + 4096
  blocks : ∀ b < 14, b ≠ c / 64 → blockArr pInode' b = blockArr pInode b
  block : blockArr pInode' (c / 64) = x
  entries : ∀ j < 64, entry (slice t.disk.bytes x) j =
    if c % 64 = 0 then unused else entry (slice m x) j
  stop : L'.stop = stopAfter L.stop c
  outside : ∀ z, L'.stop ≤ z → t.disk.bytes z = m z

theorem writeEntry_newEntry {m pInode pInode' : Bytes} {t : Server} (ha : L.addr (.inode k) = some a)
    (hr : Ready m L p k c pInode t pInode' L' x) (hc : c < 14 * 64)
    (hname : sprintf name [60] = some name') (hlen : name'.length < 60) (h0 : 0 ∉ name')
    (junk : Junk) {newInum : ℕ} (hnum : newInum < 4096) :
    ∃ s', t.writeEntry junk a pInode' (c / 64) (c % 64) name newInum = .ok (s', 0) ∧
      Tables s' L' p ∧ blockArr (slice s'.disk.bytes a) (c / 64) = x ∧
      NewEntry m s'.disk.bytes L k a c pInode name' newInum := by
  have ha' : L'.addr (.inode k) = some a := by rw [hr.keeps _ (by simp), ha]
  obtain ⟨s', hs', htables, hframe, hinode, hblock, hout⟩ := writeEntry_tables hr.tables ha' hr.addr
    hr.block hname hlen junk (c % 64) newInum
  have hx : blockArr (slice s'.disk.bytes a) (c / 64) = x := by
    rw [blockArr_eq hinode (by omega), hr.block]
  refine ⟨s', hs', htables, hx, ?_, ?_, ?_, fun b hb hne => ?_, ⟨x, hx, hr.old, fun j hj => ?_⟩,
    fun z hz => ?_⟩
  · refine (hr.frame.mono fun _ => Or.inl).trans ((hframe.mono fun _ => Or.inr).of_subset ?_)
    intro o a ho haddr
    rw [hr.keeps o fun he => ho (Or.inr (Or.inr he)), haddr]
  · rw [statType_eq hinode, hr.type]
  · rw [statSize_eq hinode, hr.size]
  · rw [blockArr_eq hinode hb, hr.blocks b hb hne]
  · rw [entry_eq hblock hj, entry_setEntry hlen h0 (by omega), hr.entries j hj]
  · rw [← hr.stop] at hz
    rw [hout z hz, hr.outside z hz]

/-- **The entry of a new file** is the one after the last. -/
theorem putEntry_tables (h : Tables s L p) (ha : L.addr (.inode k) = some a) {pInode : Bytes}
    (hsize : 4096 * (c : ℤ) ≤ statSize pInode ∧ statSize pInode < 4096 * (c + 1))
    (hc : c < 14 * 64)
    (hx : c % 64 ≠ 0 → ∃ x : ℕ, L.addr (.block k (c / 64)) = some x ∧ blockArr pInode (c / 64) = x)
    (hname : sprintf name [60] = some name') (hlen : name'.length < 60) (h0 : 0 ∉ name')
    (junk : Junk) {newInum : ℕ} (hnum : newInum < 4096) :
    Unless (2 ^ 31 ≤ L.stop + blockSize) (s.putEntry junk a pInode name newInum) fun y =>
      y.2 = 0 ∧ ∃ L', Tables y.1 L' p ∧ L'.stop = stopAfter L.stop c ∧
        (∀ o, o ≠ .block k (c / 64) → L'.addr o = L.addr o) ∧
        blockArr (slice y.1.disk.bytes a) (c / 64) = ref (L'.addr (.block k (c / 64))) ∧
        NewEntry s.disk.bytes y.1.disk.bytes L k a c pInode name' newInum := by
  have hind : (statSize pInode).tdiv (4096 * 64) = ((c / 64 : ℕ) : ℤ) := by
    rw [Int.tdiv_eq_ediv_of_nonneg (by omega)]
    omega
  have hind' : ((statSize pInode).tdiv 4096).tmod 64 = ((c % 64 : ℕ) : ℤ) := by
    rw [Int.tdiv_eq_ediv_of_nonneg (by omega), Int.tmod_eq_emod_of_nonneg (by omega)]
    omega
  have hsize' : statSize (setSize pInode (statSize pInode + 4096)) = statSize pInode + 4096 :=
    statSize_setSize (by omega)
  unfold putEntry
  simp only [hind, hind', Int.toNat_natCast]
  rw [if_neg (by omega), if_neg (by omega)]
  have hwrite : ∀ y : Server × Bytes, (∃ L' x, Ready s.disk.bytes L p k c pInode y.1 y.2 L' x) →
      Unless (2 ^ 31 ≤ L.stop + blockSize)
        (y.1.writeEntry junk a y.2 (c / 64) (c % 64) name newInum) fun y =>
        y.2 = 0 ∧ ∃ L', Tables y.1 L' p ∧ L'.stop = stopAfter L.stop c ∧
          (∀ o, o ≠ .block k (c / 64) → L'.addr o = L.addr o) ∧
          blockArr (slice y.1.disk.bytes a) (c / 64) = ref (L'.addr (.block k (c / 64))) ∧
          NewEntry s.disk.bytes y.1.disk.bytes L k a c pInode name' newInum := by
    rintro y ⟨L', x, hr⟩
    obtain ⟨s', hs', htables, hx, hnew⟩ := writeEntry_newEntry ha hr hc hname hlen h0 junk hnum
    exact Or.inr ⟨_, hs', rfl, L', htables, hr.stop, hr.keeps, by rw [hx, hr.addr, ref_some], hnew⟩
  split_ifs with hzero
  · have hstop := h.stop_lt
    refine Unless.bind ((appendDirBlock_tables h junk k _ (c / 64)).mono id ?_) hwrite
    rintro ⟨t, pInode'⟩ ⟨rfl, htables, hframe, hnew, hout⟩
    refine ⟨_, L.stop, htables, fun o ho => L.append_addr_of_ne ho, L.append_addr_self,
      fun hne => absurd hne (by omega), hframe, ?_, ?_, fun b hb hne => ?_, ?_, fun j hj => ?_,
      (if_pos (by omega)).symm, hout⟩
    · rw [statType_setBlock, statType_setSize]
    · rw [statSize_setBlock, hsize']
    · rw [blockArr_setBlock (by omega), if_neg hne, blockArr_setSize]
    · rw [blockArr_setBlock (by omega), if_pos rfl]
    · rw [entry_eq hnew hj, entry_emptyDir _ hj, if_pos (by omega)]
  · obtain ⟨x, hx, hblock⟩ := hx (by omega)
    refine Unless.bind (.ok ⟨L, x, h, fun _ _ => rfl, hx, fun _ => hx, Log.Frame.refl,
      statType_setSize _ _, hsize', fun b _ _ => blockArr_setSize _ _ b, ?_, fun j hj => ?_,
      (if_neg (by omega)).symm, fun _ _ => rfl⟩) hwrite
    · rw [blockArr_setSize, hblock]
    · rw [if_neg (by omega)]

/-! ### The whole of `sCreate` -/

/-- The inode of the directory, as `sCreate` reads it after it looked up the name. -/
def parent (s : Server) (junk : Junk) (pinum : ℤ) (name : List UInt8) : Server × Bytes :=
  let t := (s.sLookup junk pinum name).1
  (t.lseek (t.inodeArr pinum.toNat)).read inodeSize (junk .inode)

/-- `sCreate` goes on to create the file. -/
structure Enters (s : Server) (junk : Junk) (pinum type : ℤ) (name : List UInt8) : Prop where
  valid : type = 0 ∨ type = 1
  range : 0 ≤ pinum ∧ pinum < 4096
  length : 1 ≤ name.length ∧ name.length < 60
  used : s.inodeArr pinum.toNat ≠ -1
  absent : (s.sLookup junk pinum name).2 < 0
  directory : statType (s.parent junk pinum name).2 = DIRECTORY
  room : statSize (s.parent junk pinum name).2 < 4096 * 14 * 64

theorem sCreate_of_enters {pinum type : ℤ} (h : Enters s junk pinum type name) :
    s.sCreate junk pinum type name = (do
      let x ← (s.parent junk pinum name).1.cInode junk pinum type
      x.1.putEntry junk ((s.sLookup junk pinum name).1.inodeArr pinum.toNat)
        (s.parent junk pinum name).2 name x.2) := by
  obtain ⟨htype, hpinum, hlen, hexists, habsent, hdir, hroom⟩ := h
  unfold sCreate
  rw [if_neg (by omega), if_neg (by omega), if_neg (by omega), if_neg hexists]
  dsimp only
  rw [if_neg (by omega)]
  dsimp only [parent] at hdir hroom ⊢
  rw [if_neg (not_not.2 hdir), if_neg (by omega)]

/-- Otherwise it changes at most the tables in memory. -/
theorem sCreate_of_not_enters {pinum type : ℤ} (h : ¬ Enters s junk pinum type name)
    (hpinum : pinum ≠ 4096) : ∃ s' r, s.sCreate junk pinum type name = .ok (s', r) ∧
      (s' = s ∨ (0 ≤ pinum ∧ pinum < 4096) ∧ Alike (s.loadMem junk) s') := by
  unfold sCreate
  split
  · exact ⟨_, _, rfl, Or.inl rfl⟩
  rename_i harg
  split
  · exact ⟨_, _, rfl, Or.inl rfl⟩
  split
  · exact ⟨_, _, rfl, Or.inl rfl⟩
  rename_i hlen hexists
  have hlookup : Alike (s.loadMem junk) (s.sLookup junk pinum name).1 :=
    sLookup_alike (by omega) name
  dsimp only
  split
  · exact ⟨_, _, rfl, Or.inr ⟨by omega, hlookup⟩⟩
  rename_i hfound
  have hread := hlookup.read ((s.sLookup junk pinum name).1.inodeArr pinum.toNat) inodeSize
    (junk .inode)
  split
  · exact ⟨_, _, rfl, Or.inr ⟨by omega, hread⟩⟩
  split
  · exact ⟨_, _, rfl, Or.inr ⟨by omega, hread⟩⟩
  rename_i hdir hroom
  exact absurd ⟨by omega, by omega, by omega, hexists, not_le.1 hfound, not_not.1 hdir,
    not_le.1 hroom⟩ h

/-- The number 4096 is an index behind the table of inodes. -/
theorem sCreate_behind {pinum type : ℤ} {y : Server × ℤ} (hpinum : pinum = 4096)
    (hok : s.sCreate junk pinum type name = .ok y) : y.1 = s := by
  unfold sCreate at hok
  split at hok
  · rw [← Except.ok.inj hok]
  split at hok
  · rw [← Except.ok.inj hok]
  cases hok

/-- The file `n` was created, and entered as the entry `c` of the directory `k`, whose inode is at
`a`; the rest of the log `L` is as it was. -/
structure Added (m m' : Bytes) (L : Layout) (k a c : ℕ) (name : List UInt8) (junk : Junk) (type : ℤ)
    (n : ℕ) : Prop where
  frame : L.Frame (fun o => o = .checkpoint ∨ o = .piece (n / 16) ∨ o = .inode k ∨
    o = .block k (c / 64)) m m'
  type_eq : statType (slice m' a) = statType (slice m a)
  size_eq : statSize (slice m' a) = statSize (slice m a) + 4096
  blocks : ∀ b < 14, b ≠ c / 64 → blockArr (slice m' a) b = blockArr (slice m a) b
  block : ∃ x : ℕ, blockArr (slice m' a) (c / 64) = x ∧
    (c % 64 ≠ 0 → L.addr (.block k (c / 64)) = some x) ∧
    ∀ j < 64, entry (slice m' x) j =
      if j = c % 64 then (name, (n : ℤ))
      else if c % 64 = 0 then unused else entry (slice m x) j
  inode : ∃ e i : ℕ, L.stop ≤ e ∧ (n % 16 ≠ 0 → e = L.stop) ∧
    (∀ z, stopAfter (e + inodeSize + blockSize) c ≤ z → m' z = m z) ∧ word m' 0 (n / 16) = i ∧ word m' i (n % 16) = e ∧
    EqTo inodeSize (slice m' e) (newInode type e) ∧
    EqTo blockSize (slice m' (e + inodeSize)) (newBlock junk k type n)

theorem NewFile.added {m m₁ m' pInode : Bytes} {L₁ : Layout} {type : ℤ}
    (hf : NewFile m m₁ L L₁ junk k type n) (he : NewEntry m₁ m' L₁ k a c pInode name n)
    (hm' : ∀ i, L₁.addr (.piece (n / 16)) = some i → word m' 0 (n / 16) = i)
    (hinode : EqTo inodeSize pInode (slice m a)) (hnk : n ≠ k)
    (hnew : L.addr (.inode n) = none ∧ L.addr (.block n 0) = none) :
    Added m m' L k a c name junk type n := by
  obtain ⟨e, hge, hsame, hstop, hinode', hblock', ⟨i, hi, hword⟩, hnewInode, hnewBlock⟩ := hf.inode
  obtain ⟨x, hx, hold, hentry⟩ := he.block
  have hsub : ∀ o y, L.addr o = some y → L₁.addr o = some y := by
    intro o y ho
    cases o with
    | piece j => exact hf.pieces j y ho
    | checkpoint =>
      rw [hf.keeps _ (by simp) (by simp) (by simp), ho]
    | inode k' =>
      rw [hf.keeps _ (by simp) ?_ (by simp), ho]
      rintro ⟨⟩
      simp [hnew.1] at ho
    | block k' b =>
      rw [hf.keeps _ (by simp) (by simp) ?_, ho]
      rintro ⟨⟩
      simp [hnew.2] at ho
  have hkept : ∀ o y, o ≠ .checkpoint → o ≠ .inode k → o ≠ .block k (c / 64) →
      L₁.addr o = some y → Kept m₁ m' o y :=
    fun o y h₁ h₂ h₃ => he.frame o y (by simp [h₁, h₂, h₃])
  have hblockOf : L₁.addr (.block k (c / 64)) = L.addr (.block k (c / 64)) :=
    hf.keeps _ (by simp) (by simp) (by simp [hnk.symm])
  refine ⟨?_, ?_, ?_, fun b hb hne => ?_, ⟨x, hx, ?_, fun j hj => ?_⟩, e, i, hge, hsame, fun z hz => ?_,
    hm' i hi, ?_, ?_, ?_⟩
  · refine (hf.frame.mono ?_).trans ((he.frame.mono ?_).of_subset fun o y _ => hsub o y)
    · rintro o (ho | ho)
      · exact Or.inl ho
      · exact Or.inr (Or.inl ho)
    · rintro o (ho | ho | ho)
      · exact Or.inl ho
      · exact Or.inr (Or.inr (Or.inl ho))
      · exact Or.inr (Or.inr (Or.inr ho))
  · rw [he.type, statType_eq hinode]
  · rw [he.size, statSize_eq hinode]
  · rw [he.blocks b hb hne, blockArr_eq hinode hb]
  · rw [← hblockOf]
    exact hold
  · rw [hentry j hj]
    by_cases hc0 : c % 64 = 0
    · simp only [hc0, if_true]
    · have hxL : L.addr (.block k (c / 64)) = some x := by rw [← hblockOf, hold hc0]
      rw [if_neg hc0, if_neg hc0, entry_eq (hf.frame _ _ (by simp) hxL) hj]
  · have hle : L₁.stop ≤ stopAfter L₁.stop c := by unfold stopAfter; split_ifs <;> omega
    rw [← hstop] at hz
    rw [he.outside z hz, hf.outside z (hle.trans hz)]
  · rw [Image.word_piece (hkept _ _ (by simp) (by simp) (by simp) hi) (by omega), hword]
  · exact (hkept _ _ (by simp) (by simp [hnk]) (by simp) hinode').trans hnewInode
  · exact (hkept _ _ (by simp) (by simp) (by simp [hnk]) hblock').trans hnewBlock

theorem parent_alike {pinum : ℤ} (hpinum : 0 ≤ pinum ∧ pinum < 4096) :
    Alike (s.loadMem junk) (s.parent junk pinum name).1 :=
  (sLookup_alike hpinum name).read _ _ _

/-- The table of inodes is the same when `sCreate` loads it again. -/
theorem parent_iArr (h : Tables (s.loadMem junk) L p) {pinum : ℤ} (hpinum : 0 ≤ pinum ∧ pinum < 4096)
    (name : List UInt8) :
    ((s.parent junk pinum name).1.loadMem junk).iArr = (s.loadMem junk).iArr := by
  have halike : Alike (s.loadMem junk) (s.parent junk pinum name).1 := parent_alike hpinum
  refine Tables.iArr_congr h ((h.alike halike).loadMem junk) ?_
  rw [halike.bytes, loadMem_bytes]
  exact Log.Frame.refl

theorem parent_eqTo (h : Tables (s.loadMem junk) L p) (ha : L.addr (.inode k) = some a)
    (hloc : (s.loadMem junk).inodeArr k = a) (hk : k < 4096) (name : List UInt8) :
    EqTo inodeSize (s.parent junk k name).2 (slice s.disk.bytes a) := by
  have hlookup : Alike (s.loadMem junk) (s.sLookup junk k name).1 := sLookup_alike (by omega) name
  have hloc' : (s.sLookup junk k name).1.inodeArr k = a := by
    rw [inodeArr, hlookup.iArr]
    exact hloc
  have hread := read_eqTo (s := (s.sLookup junk k name).1)
    ((L.within _ _ ha).trans (h.alike hlookup).size) (junk .inode)
  rw [hlookup.bytes, loadMem_bytes] at hread
  unfold parent
  dsimp only
  rw [Int.toNat_natCast, hloc']
  exact hread

/-- The inode `n` and its first block are in the log besides what was there, and the block with the
entry `c` of the directory `k`; the inode map has the address of the inode besides those that it
had. -/
structure Entered (m m' : Bytes) (L L' : Layout) (k a c n : ℕ) : Prop where
  pieces : KeepsPieces m m' L L' n
  keeps : ∀ o, (∀ i, o ≠ .piece i) → o ≠ .inode n → o ≠ .block n 0 → o ≠ .block k (c / 64) →
    L'.addr o = L.addr o
  block : blockArr (slice m' a) (c / 64) = ref (L'.addr (.block k (c / 64)))
  inode : ∃ e i, L'.addr (.inode n) = some e ∧ L'.addr (.block n 0) = some (e + inodeSize) ∧
    L'.addr (.piece (n / 16)) = some i ∧ word m' i (n % 16) = e
  stop : n % 16 ≠ 0 → c % 64 ≠ 0 → L'.stop = L.stop + inodeSize + blockSize

/-- **What `sCreate` writes** when it creates a file. -/
theorem sCreate_tables {type : ℤ} (h : Tables (s.loadMem junk) L p)
    (he : Enters s junk k type name) (hloc : (s.loadMem junk).inodeArr k = a)
    (ha : L.addr (.inode k) = some a)
    (hsize : 4096 * (c : ℤ) ≤ statSize (slice s.disk.bytes a) ∧
      statSize (slice s.disk.bytes a) < 4096 * (c + 1))
    (hx : c % 64 ≠ 0 → ∃ x : ℕ, L.addr (.block k (c / 64)) = some x ∧
      blockArr (slice s.disk.bytes a) (c / 64) = x)
    (hn : ((List.range 4096).find? fun i =>
      ((s.parent junk k name).1.loadMem junk).inodeArr i = -1) = some n)
    (hp : n % 16 = 0 → p < 256) (hnk : n ≠ k)
    (hnew : L.addr (.inode n) = none ∧ L.addr (.block n 0) = none)
    (hname : sprintf name [60] = some name') (hlen : name'.length < 60) (h0 : 0 ∉ name') :
    Unless (2 ^ 31 ≤ L.stop + imapSize + inodeSize + 2 * blockSize) (s.sCreate junk k type name)
      fun y => y.2 = 0 ∧ ∃ L' p', Tables y.1 L' p' ∧
        L'.stop ≤ L.stop + imapSize + inodeSize + 2 * blockSize ∧
        Added s.disk.bytes y.1.disk.bytes L k a c name' junk type n ∧
        Entered s.disk.bytes y.1.disk.bytes L L' k a c n := by
  have hk : k < 4096 := by have := he.range; omega
  have halike : Alike (s.loadMem junk) (s.parent junk k name).1 := parent_alike he.range
  have hinode := parent_eqTo h ha hloc hk name
  have hroom := he.room
  have hlookup : Alike (s.loadMem junk) (s.sLookup junk k name).1 := sLookup_alike he.range name
  have hloc' : (s.sLookup junk k name).1.inodeArr (k : ℤ).toNat = a := by
    rw [inodeArr, hlookup.iArr, Int.toNat_natCast]
    exact hloc
  rw [sCreate_of_enters he, hloc']
  have hn4096 : n < 4096 := by
    rw [List.find?_range_eq_some] at hn
    exact List.mem_range.1 hn.2.1
  -- first the inode and its block, then the entry in the directory
  refine Unless.bind ((cInode_tables (h.alike halike) junk k type hn hp).mono (by omega)
    fun _ => id) ?_
  rintro ⟨t, n'⟩ ⟨rfl, L₁, p₁, ht, hstop, hfile, hpieces⟩
  dsimp only at ht hfile hpieces ⊢
  rw [halike.bytes, loadMem_bytes] at hfile hpieces
  have hkept : ∀ b, L₁.addr (.block k b) = L.addr (.block k b) := fun b =>
    hfile.keeps _ (by simp) (by simp) (by simp [hnk.symm])
  have ha' : L₁.addr (.inode k) = some a := by
    rw [hfile.keeps _ (by simp) (by simp [hnk.symm]) (by simp), ha]
  rw [← statSize_eq hinode] at hsize
  refine Unless.mono (putEntry_tables ht ha' hsize (by omega) (fun hc => ?_) hname hlen h0 junk
    hn4096) (by omega) ?_
  · obtain ⟨x, hx, hblock⟩ := hx hc
    exact ⟨x, by rw [hkept, hx], by rw [blockArr_eq hinode (by omega), hblock]⟩
  · rintro y ⟨hy, L', hL', hend, hkeeps, hblock, hentry⟩
    have hstop' : L'.stop ≤ L₁.stop + blockSize := by
      rw [hend, stopAfter]
      split_ifs <;> omega
    refine ⟨hy, L', p₁, hL', by omega, hfile.added hentry (fun i hi => ?_) hinode hnk hnew,
      fun i b hb j hj hne hpos => ?_, fun o ho hon hob hok => ?_, hblock, ?_, fun hn16 hc => ?_⟩
    · rw [← hkeeps _ (by simp)] at hi
      have hlt : n' / 16 < 256 := by omega
      rw [← hL'.word_chkpt (by omega), ← imap, hL'.imap _ hlt, hi, ref_some]
    · rw [hkeeps _ (by simp)] at hb
      have hword := Image.word_piece (hentry.frame _ _ (by simp) hb) hj
      rw [hword] at hpos ⊢
      exact hpieces i b hb j hj hne hpos
    · rw [hkeeps o hok, hfile.keeps o ho hon hob]
    · obtain ⟨e, -, -, -, he, hb, ⟨i, hi, hword⟩, -⟩ := hfile.inode
      refine ⟨e, i, ?_, ?_, ?_, ?_⟩
      · rw [hkeeps _ (by simp), he]
      · rw [hkeeps _ (by simp [hnk]), hb]
      · rw [hkeeps _ (by simp), hi]
      · rw [Image.word_piece (hentry.frame _ _ (by simp) hi) (by omega), hword]
    · obtain ⟨e, -, he, hstop₁, -⟩ := hfile.inode
      rw [hend, stopAfter, if_neg hc, hstop₁, he hn16]

/-! ### Success -/

theorem lt_of_cImapPiece_ok (h : Tables s L p) (hok : s.cImapPiece junk = .ok s') : p < 256 := by
  by_contra hp
  have hfind : ((List.range 256).find? fun i => (s.loadMem junk).imap i = -1) = none := by
    rw [List.find?_eq_none]
    intro i hi
    rw [(h.loadMem junk).imap i (List.mem_range.1 hi), decide_eq_true_eq, ref_eq_neg_one,
      ← Option.not_isSome_iff_eq_none, h.piece_iff, not_not]
    exact (List.mem_range.1 hi).trans_le (not_lt.1 hp)
  unfold cImapPiece at hok
  simp only [hfind] at hok
  cases hok

theorem find_of_cInode_ok (h : Tables s L p) {pinum type : ℤ} {y : Server × ℕ}
    (hok : s.cInode junk pinum type = .ok y) :
    ((List.range 4096).find? fun i => (s.loadMem junk).inodeArr i = -1) = some y.2 ∧
      (y.2 % 16 = 0 → p < 256) := by
  unfold cInode at hok
  dsimp only at hok
  split at hok
  · cases hok
  · rename_i n hn
    split at hok
    · obtain ⟨t, ht, hok⟩ := bind_eq_ok.1 hok
      obtain ⟨t', -, hok⟩ := bind_eq_ok.1 hok
      cases hok
      exact ⟨hn, fun _ => lt_of_cImapPiece_ok (h.loadMem junk) ht⟩
    · obtain ⟨t, -, hok⟩ := bind_eq_ok.1 hok
      obtain ⟨t', -, hok⟩ := bind_eq_ok.1 hok
      cases hok
      exact ⟨hn, fun hmod => absurd hmod (by assumption)⟩

theorem writeEntry_ok {pInode : Bytes} {loc : ℤ} {i newInum : ℕ} {y : Server × ℤ}
    (hok : s.writeEntry junk loc pInode b i name newInum = .ok y) :
    (∃ name', sprintf name [60] = some name' ∧ name'.length < 60) ∧
      ∃ t : Server, y.1 = t.loadMem junk := by
  unfold writeEntry at hok
  dsimp only at hok
  split at hok
  · cases hok
  · rename_i name' hname'
    split at hok
    · cases hok
    · refine ⟨⟨name', hname', by omega⟩, ?_⟩
      obtain ⟨y, r⟩ := y
      exact ⟨_, (Prod.mk.inj (Except.ok.inj hok)).1.symm⟩

theorem putEntry_ok {pInode : Bytes} {loc : ℤ} {newInum : ℕ} {y : Server × ℤ}
    (hsize : statSize pInode < 4096 * 14 * 64)
    (hok : s.putEntry junk loc pInode name newInum = .ok y) :
    (∃ name', sprintf name [60] = some name' ∧ name'.length < 60) ∧
      ∃ t : Server, y.1 = t.loadMem junk := by
  have hind : (statSize pInode).tdiv (4096 * 64) ≤ 14 :=
    Int.tdiv_le_tdiv (c := 4096 * 64) (by decide) hsize.le
  unfold putEntry at hok
  dsimp only at hok
  rw [if_neg (by omega)] at hok
  split at hok
  · cases hok
  split at hok
  · obtain ⟨t, -, hok⟩ := bind_eq_ok.1 hok
    exact writeEntry_ok hok
  · obtain ⟨t, -, hok⟩ := bind_eq_ok.1 hok
    exact writeEntry_ok hok

/-- What is known when `sCreate` created a file. -/
theorem sCreate_ok {pinum type : ℤ} {y : Server × ℤ} (h : Tables (s.loadMem junk) L p)
    (he : Enters s junk pinum type name) (hok : s.sCreate junk pinum type name = .ok y) :
    ∃ n name', ((List.range 4096).find? fun i =>
        ((s.parent junk pinum name).1.loadMem junk).inodeArr i = -1) = some n ∧
      (n % 16 = 0 → p < 256) ∧ sprintf name [60] = some name' ∧ name'.length < 60 ∧
      ∃ t : Server, y.1 = t.loadMem junk := by
  rw [sCreate_of_enters he] at hok
  obtain ⟨x, hx, hok⟩ := bind_eq_ok.1 hok
  obtain ⟨hn, hp⟩ := find_of_cInode_ok (h.alike (parent_alike he.range)) hx
  obtain ⟨⟨name', hname, hlen⟩, hloaded⟩ := putEntry_ok he.room hok
  exact ⟨x.2, name', hn, hp, hname, hlen, hloaded⟩

end Server

end Mfs

end OperatingSystems

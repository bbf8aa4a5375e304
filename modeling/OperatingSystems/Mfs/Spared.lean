import OperatingSystems.Mfs.Order

/-!
# What an `UNLINK` does to the directories

The function in the place of `delInode` is only assumed to spare the directories.

* `Server.SparesDirectories` : it changes no directory and leaves the log in order.
* `Server.Ordered.removes` : **what an `UNLINK` does** unless it is refused.
-/

namespace OperatingSystems

namespace Mfs

open Bytes

namespace Server

variable {s s' t u w : Server} {L L' : Layout} {n p k a b z : ℕ} {junk junk' : Junk}
  {name : List UInt8} {pinum : ℤ} {y : Server × ℤ}

/-- The last of the numbers below `N` with a property. -/
theorem le_getLastD {P : ℕ → Bool} {N b : ℕ} (hb : P b = true) (hN : b < N) :
    b ≤ ((List.range N).filter P).getLastD 0 := by
  induction N with
  | zero => omega
  | succ N ih =>
    rw [List.range_succ, List.filter_append]
    by_cases hP : P N = true
    · rw [List.filter_cons_of_pos hP, List.filter_nil, List.getLastD_concat]
      omega
    · have hne : b ≠ N := fun hbN => hP (hbN ▸ hb)
      rw [List.filter_cons_of_neg hP, List.filter_nil, List.append_nil]
      exact ih (by omega)

theorem getLastD_lt {P : ℕ → Bool} {N : ℕ} (hN : 0 < N) :
    ((List.range N).filter P).getLastD 0 < N := by
  obtain h0 | hmem := List.mem_cons.1 (List.getLastD_mem_cons (l := (List.range N).filter P) (a := 0))
  · omega
  · exact List.mem_range.1 (List.mem_filter.1 hmem).1

/-- The number in the entry that the search of `sUnlink` finds. -/
def unlinkFound (s : Server) (junk : Junk) (pinum : ℤ) (name : List UInt8) : Option ℤ :=
  let s := s.loadMem junk
  let (s, pInode) := (s.lseek (s.inodeArr pinum.toNat)).read inodeSize (junk .inode)
  (unlinkLoop name pInode (List.range 14) s (junk .dirBlk)).2.map fun (dirBlk, _, delInd) =>
    entryInum dirBlk delInd

/-- `sUnlink` does not refuse to unlink the inode `i`: it is not that of a directory with a size above
two entries. -/
def Unlinkable (s : Server) (junk : Junk) (i : ℕ) : Prop :=
  ∀ a : ℕ, (s.loadMem junk).inodeArr i = a →
    ¬ (statType (slice s.disk.bytes a) = DIRECTORY ∧ statSize (slice s.disk.bytes a) > 2 * 4096)

variable {del : Server → Junk → ℤ → Except Stop Server} {i j x : ℕ} {d pInode : Bytes}

/-- What the loop of `sUnlink` finds. -/
theorem unlinkLoop_found {is : List ℕ} {loc : ℤ} {u : Server} {dirBlk : Bytes} (hu : Alike s u)
    (hfound : (unlinkLoop name pInode is u dirBlk).2 = some (d, loc, j)) : ∃ b ∈ is,
      blockArr pInode b = loc ∧ 0 ≤ loc ∧ j < 64 ∧
      cstr (blockSize - 64 * j) (slice d (64 * j)) = name ∧
      (loc.toNat + blockSize ≤ s.disk.size → EqTo blockSize d (slice s.disk.bytes loc.toNat)) := by
  induction is generalizing u dirBlk with
  | nil => cases hfound
  | cons b is ih =>
    have hread := hu.read (blockArr pInode b) blockSize dirBlk
    rw [unlinkLoop_cons name pInode b is u dirBlk rfl] at hfound
    split_ifs at hfound with hpos
    · cases hj : (List.range 64).find? fun j => cstr (blockSize - 64 * j)
        (slice ((u.lseek (blockArr pInode b)).read blockSize dirBlk).2 (64 * j)) = name with
      | none =>
        rw [hj] at hfound
        obtain ⟨b', hb', hrest⟩ := ih hread hfound
        exact ⟨b', List.mem_cons_of_mem _ hb', hrest⟩
      | some j' =>
        rw [hj] at hfound
        obtain ⟨rfl, rfl, rfl⟩ : _ ∧ _ ∧ j' = j := by
          simpa only [Option.elim_some, Option.some.injEq, Prod.mk.injEq] using hfound
        rw [List.find?_range_eq_some] at hj
        refine ⟨b, List.mem_cons_self, rfl, hpos, List.mem_range.1 hj.2.1, of_decide_eq_true hj.1,
          fun hsize => ?_⟩
        obtain ⟨x, hx⟩ := Int.eq_ofNat_of_zero_le hpos
        rw [hx, Int.toNat_natCast, ← hu.size] at hsize
        rw [hx, Int.toNat_natCast, ← hu.bytes]
        exact read_eqTo hsize dirBlk
    · obtain ⟨b', hb', hrest⟩ := ih hu hfound
      exact ⟨b', List.mem_cons_of_mem _ hb', hrest⟩

/-- From `s` to `s'`, `sUnlink` removed the entry for the inode `i`, in the slot `j` of the block `b` of
the directory `k`; `delInode` led from `u` to `w`. -/
structure Removes (del : Server → Junk → ℤ → Except Stop Server) (s s' u w : Server) (junk : Junk)
    (L : Layout) (name : List UInt8) (k a b x j i : ℕ) : Prop where
  inode : L.addr (.inode k) = some a
  directory : statType (slice s.disk.bytes a) = DIRECTORY
  lt : b < 14
  index : j < 64
  block : L.addr (.block k b) = some x
  entry : entry (slice s.disk.bytes x) j = (entryName (slice s.disk.bytes x) j, (i : ℤ))
  dots : entryName (slice s.disk.bytes x) j ≠ [46] ∧ entryName (slice s.disk.bytes x) j ≠ [46, 46]
  found : s.unlinkFound junk k name = some (i : ℤ)
  unlinkable : Unlinkable s junk i
  alike : Alike (s.loadMem junk) u
  call : del u junk (u.inodeArr i) = .ok w
  writes : ∃ d pInode, EqTo blockSize d (slice s.disk.bytes x) ∧
    EqTo inodeSize pInode (slice s.disk.bytes a) ∧
    s' = (((((w.lseek x).write blockSize (setEntry d j [] (-1))).lseek a).write inodeSize
      (setSize pInode ((((List.range 14).filter fun b => blockArr pInode b ≠ -1).getLastD 0 + 1) *
        4096))).loadMem junk)

/-- The object is the inode of a directory or one of its blocks. -/
def OfDirectory (m : Bytes) (L : Layout) (o : Obj) : Prop :=
  ∃ k a, L.addr (.inode k) = some a ∧ statType (slice m a) = DIRECTORY ∧
    (o = .inode k ∨ ∃ b, o = .block k b)

/-- The `n` bytes at `z` lie apart from the inodes and blocks of the directories. -/
def Apart (m : Bytes) (L : Layout) (z n : ℕ) : Prop :=
  ∀ o a, OfDirectory m L o → L.addr o = some a → z + n ≤ a ∨ a + o.size ≤ z

/-- From `s` to `t`, no inode and no block of a directory is changed; the log is in order, the inode
map and the inodes in the table lie apart from the directories, and there are no other
directories. -/
structure Spared (s t : Server) (junk : Junk) (L : Layout) : Prop where
  kept : ∀ o a, OfDirectory s.disk.bytes L o → L.addr o = some a →
    Kept s.disk.bytes t.disk.bytes o a
  order : ∃ L' p', Ordered t junk L' p' ∧
    ∀ i z, L'.addr (.piece i) = some z → Apart s.disk.bytes L z imapSize
  inodes : ∀ z : ℕ, (z : ℤ) ∈ (t.loadMem junk).iArr →
    (∃ k, L.addr (.inode k) = some z ∧ statType (slice s.disk.bytes z) = DIRECTORY) ∨
      statType (slice t.disk.bytes z) ≠ DIRECTORY ∧ Apart s.disk.bytes L z inodeSize

/-- `del` changes no directory. -/
def SparesDirectories (del : Server → Junk → ℤ → Except Stop Server) : Prop :=
  ∀ s junk x t L p, Ordered s junk L p → del s junk x = .ok t → Spared s t junk L

/-- What `removeEntryWith` does unless it refuses the request. -/
theorem removeEntryWith_ok {u : Server} {pinumLoc delDirBlkLoc : ℤ} (hok : u.removeEntryWith del junk
    pinumLoc pInode d delDirBlkLoc j = .ok y) (hy : y.2 ≠ -1) : y.2 = 0 ∧ ∃ (i : ℕ) (w : Server),
      entryInum d j = i ∧
      (∀ a : ℕ, u.inodeArr i = a → a + inodeSize ≤ u.disk.size →
        ¬ (statType (slice u.disk.bytes a) = DIRECTORY ∧
          statSize (slice u.disk.bytes a) > 2 * 4096)) ∧
      del ((u.lseek (u.inodeArr i)).read inodeSize (junk .inode)).1 junk (u.inodeArr i) = .ok w ∧
      y.1 = (((((w.lseek delDirBlkLoc).write blockSize (setEntry d j [] (-1))).lseek pinumLoc).write
        inodeSize (setSize pInode ((((List.range 14).filter fun b =>
          blockArr pInode b ≠ -1).getLastD 0 + 1) * 4096))).loadMem junk) := by
  unfold removeEntryWith at hok
  dsimp only at hok
  split_ifs at hok with hrange hdir
  · exact absurd (congrArg Prod.snd (Except.ok.inj hok)).symm hy
  · obtain ⟨i, hi⟩ := Int.eq_ofNat_of_zero_le (not_lt.1 (not_or.1 hrange).1)
    obtain ⟨w, hw, hrest⟩ := bind_eq_ok.1 hok
    obtain ⟨hstate, hzero⟩ := Prod.mk.inj (Except.ok.inj hrest)
    rw [hi, Int.toNat_natCast] at hw hdir
    refine ⟨hzero.symm, i, w, hi, fun a ha hsize => ?_, hw, hstate.symm⟩
    rw [ha] at hdir
    have hread := read_eqTo hsize (junk .inode)
    rwa [statType_eq hread, statSize_eq hread] at hdir

namespace Ordered

/-- **What an `UNLINK` does** unless it is refused. -/
theorem removes (h : Ordered s junk L p) (hok : s.unlinkWith del junk pinum name = .ok y)
    (hy : y.2 ≠ -1) : y.2 = 0 ∧ name ≠ [46] ∧ name ≠ [46, 46] ∧ ∃ k a b x j i : ℕ, pinum = k ∧
      ∃ u w, Removes del s y.1 u w junk L name k a b x j i := by
  have hrefused : ∀ t : Server, (Except.ok (t, -1) : Except Stop (Server × ℤ)) ≠ .ok y :=
    fun t ht => hy (congrArg Prod.snd (Except.ok.inj ht)).symm
  unfold unlinkWith at hok
  dsimp only at hok
  split_ifs at hok with hrange hend hnone hdots hlen hdir
  · exact absurd hok (hrefused _)
  · exact absurd hok (hrefused _)
  · exact absurd hok (hrefused _)
  · exact absurd hok (hrefused _)
  · exact absurd hok (hrefused _)
  obtain ⟨k, rfl⟩ := Int.eq_ofNat_of_zero_le (not_lt.1 (not_or.1 hrange).1)
  obtain ⟨hdotdot, hdot⟩ := not_or.1 hdots
  rw [Int.toNat_natCast] at hnone hdir hok
  obtain ⟨a, ha⟩ := (h.tables.inodeArr_cases k).resolve_left hnone
  have hL := h.inode k a ha
  have hinode : EqTo inodeSize (((s.loadMem junk).lseek a).read inodeSize (junk .inode)).2
      (slice (s.loadMem junk).disk.bytes a) :=
    read_eqTo ((L.within _ _ hL).trans h.tables.size) (junk .inode)
  have hread : Alike (s.loadMem junk) (((s.loadMem junk).lseek a).read inodeSize (junk .inode)).1 :=
    (Alike.refl _).read _ _ _
  have hfound : s.unlinkFound junk k name = (unlinkLoop name
      (((s.loadMem junk).lseek a).read inodeSize (junk .inode)).2 (List.range 14)
      (((s.loadMem junk).lseek a).read inodeSize (junk .inode)).1 (junk .dirBlk)).2.map
        fun r => entryInum r.1 r.2.2 := by
    rw [unlinkFound, Int.toNat_natCast, ha]
  rw [loadMem_bytes] at hinode
  rw [ha] at hdir hok
  generalize ((s.loadMem junk).lseek a).read inodeSize (junk .inode) = r at hinode hread hfound hdir hok
  obtain ⟨v, pInode⟩ := r
  have halike := unlinkLoop_alike name pInode (List.range 14) hread (junk .dirBlk)
  dsimp only at hinode hread hfound hdir hok halike
  generalize hu : unlinkLoop name pInode (List.range 14) v (junk .dirBlk) = r at halike hfound hok
  obtain ⟨u, found⟩ := r
  cases found with
  | none => exact absurd hok (hrefused u)
  | some r =>
    obtain ⟨d, loc, j⟩ := r
    obtain ⟨b, hb, hloc, hpos, hj, hname, hcontent⟩ :=
      unlinkLoop_found hread (congrArg Prod.snd hu)
    have hb14 := List.mem_range.1 hb
    rw [not_not, statType_eq hinode] at hdir
    rw [blockArr_eq hinode hb14, (h.directory k a hL hdir).block b hb14] at hloc
    obtain ⟨x, hx⟩ := Option.isSome_iff_exists.1 (ref_nonneg.1 (hloc ▸ hpos))
    rw [hx, ref_some] at hloc
    subst hloc
    rw [Int.toNat_natCast, loadMem_bytes] at hcontent
    replace hcontent := hcontent ((L.within _ _ hx).trans h.tables.size)
    obtain ⟨hzero, i, w, hi, hsmall, hcall, hstate⟩ := removeEntryWith_ok hok hy
    have hentry := entry_eq hcontent hj
    have hinum : entryInum (slice s.disk.bytes x) j = i := (congrArg Prod.snd hentry).symm.trans hi
    have hentryName : entryName d j = entryName (slice s.disk.bytes x) j := congrArg Prod.fst hentry
    have hread' : Alike (s.loadMem junk) ((u.lseek (u.inodeArr i)).read inodeSize (junk .inode)).1 :=
      halike.read _ _ _
    -- a short name is compared in full
    have hshort : ∀ c, c.length < 60 → entryName (slice s.disk.bytes x) j = c → name = c := by
      rintro c hc hc'
      rw [← hname, ← hc', ← hentryName]
      exact cstr_entry (by rw [hentryName, hc']; exact hc) hj
    refine ⟨hzero, hdot, hdotdot, k, a, b, x, j, i, rfl, _, w, hL, hdir, hb14, hj, hx,
      Prod.ext rfl hinum, ⟨fun hd => hdot (hshort _ (by decide) hd), fun hd =>
        hdotdot (hshort _ (by decide) hd)⟩, ?_, fun a' ha' => ?_, hread', hcall, d, pInode, hcontent,
      hinode, hstate⟩
    · rw [hfound]
      exact congrArg some hi
    · have hL' := h.inode i a' ha'
      have hbytes : u.disk.bytes = s.disk.bytes := halike.bytes.trans (loadMem_bytes s junk)
      rw [← hbytes]
      refine hsmall a' ?_ ?_
      · rw [inodeArr, halike.iArr]
        exact ha'
      · rw [halike.size]
        exact (L.within _ _ hL').trans h.tables.size

end Ordered

/-- From `s` to `s'`, the entry in the slot `j` of the block `b` of the directory `k` was removed; `w`
is the image after `delInode`. -/
structure Removed (s s' w : Server) (L : Layout) (k a b x j : ℕ) : Prop where
  outside : ∀ c n, Apart s.disk.bytes L c n → EqTo n (slice s'.disk.bytes c) (slice w.disk.bytes c)
  kept : ∀ o c, OfDirectory s.disk.bytes L o → o ≠ .inode k → o ≠ .block k b →
    L.addr o = some c → Kept s.disk.bytes s'.disk.bytes o c
  blocks : ∀ b' < 14, blockArr (slice s'.disk.bytes a) b' = blockArr (slice s.disk.bytes a) b'
  size : ∃ last : ℕ, last < 14 ∧ statSize (slice s'.disk.bytes a) = 4096 * (last + 1) ∧
    (last = 0 ∨ blockArr (slice s.disk.bytes a) last ≠ -1) ∧ ∀ b' < 14, blockArr (slice s.disk.bytes a) b' ≠ -1 → b' ≤ last
  entries : ∀ j' < 64, entry (slice s'.disk.bytes x) j' =
    if j' = j then unused else entry (slice s.disk.bytes x) j'

namespace Removes

theorem bytes_eq (hr : Removes del s s' u w junk L name k a b x j i) : u.disk.bytes = s.disk.bytes :=
  hr.alike.bytes.trans (loadMem_bytes s junk)

theorem spared (hr : Removes del s s' u w junk L name k a b x j i) (h : Ordered s junk L p)
    (hdel : SparesDirectories del) : Spared u w junk L :=
  hdel _ _ _ _ L p (h.alike hr.alike) hr.call

/-- **What is written** when an entry is removed. -/
theorem removed (hr : Removes del s s' u w junk L name k a b x j i) (h : Ordered s junk L p)
    (hdel : SparesDirectories del) : Removed s s' w L k a b x j := by
  obtain ⟨d, pInode, hd, hpInode, hs'⟩ := hr.writes
  have hspared := hr.spared h hdel
  have hofInode : OfDirectory s.disk.bytes L (.inode k) :=
    ⟨k, a, hr.inode, hr.directory, Or.inl rfl⟩
  have hofBlock : OfDirectory s.disk.bytes L (.block k b) :=
    ⟨k, a, hr.inode, hr.directory, Or.inr ⟨b, rfl⟩⟩
  set size := (((List.range 14).filter fun b => blockArr pInode b ≠ -1).getLastD 0 + 1 : ℤ) * 4096
    with hsize
  have hbytes : s'.disk.bytes = patch (patch w.disk.bytes x blockSize (setEntry d j [] (-1))) a
      inodeSize (setSize pInode size) := by
    rw [hs', loadMem_bytes, write_bytes, write_bytes]
  have hinode : EqTo inodeSize (slice s'.disk.bytes a) (setSize pInode size) := by
    rw [hbytes]
    exact slice_patch _ _ _ _
  have hblock : EqTo blockSize (slice s'.disk.bytes x) (setEntry d j [] (-1)) := by
    rw [hbytes]
    exact (slice_patch_of_disjoint (L.disjoint _ _ _ _ (by simp) hr.inode hr.block)).trans
      (slice_patch _ _ _ _)
  refine ⟨fun c n hapart => ?_, fun o c ho hne hne' hc => ?_, fun b' hb' => ?_, ?_, fun j' hj' => ?_⟩
  · rw [hbytes]
    exact (slice_patch_of_disjoint (hapart _ _ hofInode hr.inode).symm).trans
      (slice_patch_of_disjoint (hapart _ _ hofBlock hr.block).symm)
  · have hw := hspared.kept o c (hr.bytes_eq ▸ ho) hc
    rw [hr.bytes_eq] at hw
    rw [hbytes]
    exact ((slice_patch_of_disjoint (L.disjoint _ _ _ _ hne hc hr.inode).symm).trans
      (slice_patch_of_disjoint (L.disjoint _ _ _ _ hne' hc hr.block).symm)).trans hw
  · rw [blockArr_eq hinode hb', blockArr_setSize, blockArr_eq hpInode hb']
  · have hlt : ((List.range 14).filter fun b => blockArr pInode b ≠ -1).getLastD 0 < 14 :=
      getLastD_lt (by decide)
    refine ⟨_, hlt, ?_, ?_, fun b' hb' hne => le_getLastD (P := fun b => blockArr pInode b ≠ -1)
      (decide_eq_true (by rwa [blockArr_eq hpInode hb'])) hb'⟩
    · rw [statSize_eq hinode, hsize]
      generalize ((List.range 14).filter fun b => blockArr pInode b ≠ -1).getLastD 0 = last at hlt
      rw [statSize_setSize (by omega)]
      omega
    · obtain hzero | hmem := List.mem_cons.1 (List.getLastD_mem_cons
        (l := (List.range 14).filter fun b => blockArr pInode b ≠ -1) (a := 0))
      · exact Or.inl hzero
      · obtain ⟨hrange, hne⟩ := List.mem_filter.1 hmem
        exact Or.inr (blockArr_eq hpInode (List.mem_range.1 hrange) ▸ of_decide_eq_true hne)
  · rw [entry_eq hblock hj', entry_setEntry (by decide) List.not_mem_nil (by decide), entry_eq hd hj']
    rfl

/-- The table of inodes is the one that `delInode` left. -/
theorem tables (hr : Removes del s s' u w junk L name k a b x j i) (h : Ordered s junk L p)
    (hm : Removed s s' w L k a b x j) {L' : Layout} {p' : ℕ} (hw : Tables (w.loadMem junk) L' p')
    (hpieces : ∀ i z, L'.addr (.piece i) = some z → Apart s.disk.bytes L z imapSize) :
    Tables s' L' p' ∧ s'.iArr = (s'.loadMem junk).iArr ∧ s'.iArr = (w.loadMem junk).iArr := by
  obtain ⟨d, pInode, -, -, hs'⟩ := hr.writes
  have hv := (hw.write_loadMem (h.tables.checkpointSize_le (by simp) hr.block) blockSize
    (setEntry d j [] (-1))).write_loadMem (h.tables.checkpointSize_le (by simp) hr.inode) inodeSize
    (setSize pInode ((((List.range 14).filter fun b => blockArr pInode b ≠ -1).getLastD 0 + 1) *
      4096))
  have hiArr := hv.iArr_reload junk
  rw [← hs'] at hv hiArr
  refine ⟨hv, hiArr.symm, hiArr.symm.trans (Tables.iArr_congr hw (hv.loadMem junk) ?_)⟩
  intro o c ho hc
  obtain ⟨i', rfl⟩ := not_forall_not.1 ho
  exact hm.outside c imapSize (hpieces i' c hc)

/-- The directories in the table were there before. -/
theorem directory_of_mem (hr : Removes del s s' u w junk L name k a b x j i) (hspared : Spared u w junk L)
    (hm : Removed s s' w L k a b x j) {z : ℕ} (hz : (z : ℤ) ∈ (w.loadMem junk).iArr)
    (hdir : statType (slice s'.disk.bytes z) = DIRECTORY) :
    ∃ k', L.addr (.inode k') = some z ∧ statType (slice s.disk.bytes z) = DIRECTORY := by
  obtain ⟨k', hk', hdir'⟩ | ⟨hnot, hapart⟩ := hspared.inodes z hz
  · exact ⟨k', hk', hr.bytes_eq ▸ hdir'⟩
  · rw [hr.bytes_eq] at hapart
    exact absurd ((statType_eq (hm.outside z _ hapart)).symm.trans hdir) hnot

/-- **The log is in order** after an entry was removed. -/
theorem ordered (hr : Removes del s s' u w junk L name k a b x j i) (h : Ordered s junk L p)
    (hdel : SparesDirectories del) : ∃ L' p', Ordered s' junk L' p' := by
  have hspared := hr.spared h hdel
  have hm := hr.removed h hdel
  obtain ⟨L', p', hw, hpieces⟩ := hspared.order
  rw [hr.bytes_eq] at hpieces
  obtain ⟨htables, hloaded, hiArr⟩ := hr.tables h hm hw.tables hpieces
  have hinodeArr : ∀ k', (s'.loadMem junk).inodeArr k' = (w.loadMem junk).inodeArr k' := fun k' => by
    rw [inodeArr, ← hloaded, hiArr, inodeArr]
  refine ⟨L', p', htables.loadMem junk, hloaded, fun k' z hz => hw.inode k' z (hinodeArr k' ▸ hz),
    fun k' hk' => hw.free k' (hinodeArr k' ▸ hk'), fun k' z hz hdir => ?_⟩
  have hmem : (z : ℤ) ∈ (w.loadMem junk).iArr := mem_iArr_iff.2 ⟨k', hw.inodeArr_eq.2 hz⟩
  obtain ⟨k₀, hk₀, hdir₀⟩ := hr.directory_of_mem hspared hm hmem hdir
  have hkept := hspared.kept (.inode k₀) z ⟨k₀, z, hk₀, hr.bytes_eq ▸ hdir₀, Or.inl rfl⟩ hk₀
  rw [hr.bytes_eq] at hkept
  have hplace := hw.directory k' z hz ((statType_eq hkept).trans hdir₀)
  by_cases hkk : k₀ = k
  · subst hkk
    obtain rfl := Option.some.inj (hr.inode.symm.trans hk₀)
    obtain ⟨last, hlast, hsize, -, -⟩ := hm.size
    have hblocks : ∀ b' < 14, blockArr (slice s'.disk.bytes a) b' =
        blockArr (slice w.disk.bytes a) b' := fun b' hb' =>
      (hm.blocks b' hb').trans (blockArr_eq hkept hb').symm
    have hfirst : blockArr (slice s'.disk.bytes a) 0 ≠ -1 := hblocks 0 (by decide) ▸ hplace.first
    have hnext : nextSlot s'.disk.bytes a = last + 1 := by
      unfold nextSlot
      omega
    refine ⟨fun b' hb' => (hblocks b' hb').trans (hplace.block b' hb'), hfirst, by omega, by omega,
      fun _ => ?_⟩
    rw [hnext, show (last + 1) / 64 = 0 by omega]
    exact hfirst
  · exact hplace.congr ((hm.kept (.inode k₀) z ⟨k₀, z, hk₀, hdir₀, Or.inl rfl⟩ (by simpa using hkk)
      (by simp) hk₀).trans hkept.symm)

/-- **What an `UNLINK` does to the directories**: the slot in its own directory is not in use any more,
and the size of the directory is that of its blocks; the others are as they were. -/
theorem directoryAt (hr : Removes del s s' u w junk L name k a b x j i) (h : Ordered s junk L p)
    (hdel : SparesDirectories del) {z : ℕ} (hz : DirectoryAt s' junk z) :
    DirectoryAt s junk z ∧ (z ≠ a ∧ SameDirectory s.disk.bytes s'.disk.bytes z ∨
      z = a ∧ ∀ q < 14 * 64, slotAt s'.disk.bytes a q =
        if q = 64 * b + j then some unused else slotAt s.disk.bytes a q) := by
  have hspared := hr.spared h hdel
  have hm := hr.removed h hdel
  obtain ⟨L', p', hw, hpieces⟩ := hspared.order
  rw [hr.bytes_eq] at hpieces
  obtain ⟨htables, hloaded, hiArr⟩ := hr.tables h hm hw.tables hpieces
  obtain ⟨hmem, htype⟩ := hz
  rw [← hloaded, hiArr] at hmem
  obtain ⟨k', hk', hdir⟩ := hr.directory_of_mem hspared hm hmem htype
  refine ⟨(h.directoryAt_iff junk).2 ⟨k', hk', hdir⟩, ?_⟩
  have hof : ∀ o, (o = .inode k' ∨ ∃ b, o = .block k' b) → OfDirectory s.disk.bytes L o :=
    fun o ho => ⟨k', z, hk', hdir, ho⟩
  by_cases hkk : k' = k
  swap
  · -- another directory
    refine Or.inl ⟨?_, h.same hk' hdir (hm.kept _ _ (hof _ (Or.inl rfl)) (by simpa using hkk)
      (by simp) hk') fun b' x' hx' => hm.kept _ _ (hof _ (Or.inr ⟨b', rfl⟩)) (by simp) (by simp [hkk])
        hx'⟩
    rintro rfl
    exact hkk (by simpa using addr_inj hk' hr.inode)
  · subst hkk
    obtain rfl := Option.some.inj (hk'.symm.trans hr.inode)
    refine Or.inr ⟨rfl, fun q hq => ?_⟩
    have hb' : q / 64 < 14 := by omega
    have hplace := h.directory k' z hk' hdir
    have halloc : ∀ c : ℕ, ¬ ((c : ℕ) : ℤ) = -1 := fun c => by omega
    unfold slotAt
    rw [hm.blocks _ hb', hplace.block _ hb']
    by_cases hqb : q / 64 = b
    · rw [hqb, hr.block, ref_some, if_neg (halloc x), if_neg (halloc x), Int.toNat_natCast,
        hm.entries _ (Nat.mod_lt _ (by omega))]
      by_cases hqj : q % 64 = j
      · rw [if_pos hqj, if_pos (by omega)]
      · rw [if_neg hqj, if_neg (by omega)]
    · have hne : q ≠ 64 * b + j := by have := hr.index; omega
      rw [if_neg hne]
      cases hx' : L.addr (.block k' (q / 64)) with
      | none => rfl
      | some x' =>
        have hsame := hm.kept _ _ (hof _ (Or.inr ⟨_, rfl⟩)) (by simp) (by simpa using hqb) hx'
        rw [ref_some, if_neg (halloc x'), if_neg (halloc x'), Int.toNat_natCast,
          entry_eq hsame (Nat.mod_lt _ (by omega))]

end Removes

end Server

end Mfs

end OperatingSystems

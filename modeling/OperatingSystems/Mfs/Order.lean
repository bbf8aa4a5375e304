import OperatingSystems.Mfs.Resending

/-!
# Images with their log in order

The directories of an image that need not represent a namespace: `delInode` may have left anything
that is no directory.

* `Server.DirectoryAt` : the directories in the table of inodes, by the addresses of their inodes.
* `Server.Ordered` : the log of the image is in order for all directories.
* `Server.Listed.ordered` : **the numbers of the inodes** in the log can be those of the table.
* `Server.CreatesFile` : what a `CREAT` does; `Server.CreatesFile.listed` : **it leaves the log in
  order**.
* `Server.CreatesFile.directoryAt` : **what it does to the directories**.
-/

namespace OperatingSystems

namespace Mfs

open Bytes

/-- The directory with its inode at `a` has no entry in use besides `.` and `..`. -/
def OnlyDots (m : Bytes) (a : ℕ) : Prop := ∀ q e, Taken m a q e → e.1 = [46] ∨ e.1 = [46, 46]

/-- The directory with its inode at `a` has the same size and slots in both memories. -/
structure SameDirectory (m m' : Bytes) (a : ℕ) : Prop where
  size : statSize (slice m' a) = statSize (slice m a)
  slots : ∀ q < 14 * 64, slotAt m' a q = slotAt m a q

theorem SameDirectory.onlyDots {m m' : Bytes} {a : ℕ} (h : SameDirectory m m' a)
    (hdots : OnlyDots m a) : OnlyDots m' a :=
  fun q e ⟨hq, hslot, hused⟩ => hdots q e ⟨hq, h.slots q hq ▸ hslot, hused⟩

/-- A directory with no entries besides `.` and `..`. -/
theorem Holds.onlyDots {m : Bytes} {a : ℕ} {es : List (List UInt8 × ℕ)} (h : Holds m a es)
    (hblock : ∀ b < 14, 64 * b < es.length → ∃ x : ℕ, blockArr (slice m a) b = x)
    (hes : ∀ e ∈ es, e.1 = [46] ∨ e.1 = [46, 46]) : OnlyDots m a := by
  rintro q x ⟨hq, hslot, hused⟩
  obtain ⟨halloc, rfl⟩ := Server.slotAt_eq_some.1 hslot
  have hb : q / 64 < 14 := by omega
  obtain ⟨c, hc⟩ := hblock _ hb ((h.alloc _ hb).1 halloc)
  rw [hc, Int.toNat_natCast, h.slots _ hb c hc _ (Nat.mod_lt _ (by omega)), Nat.div_add_mod] at hused ⊢
  cases he : es[q]? with
  | none =>
    rw [he] at hused
    exact absurd rfl hused
  | some e => exact hes e (List.mem_of_getElem? he)

namespace Server

/-- The inode at `a` is in the table of inodes, and it is that of a directory. -/
def DirectoryAt (s : Server) (junk : Junk) (a : ℕ) : Prop :=
  (a : ℤ) ∈ (s.loadMem junk).iArr ∧ statType (slice s.disk.bytes a) = DIRECTORY

/-- The blocks of the directory `k`, with its inode at `a`, are where the log has them, and there is
one for the last entry. -/
structure InPlace (m : Bytes) (L : Layout) (k a : ℕ) : Prop where
  block : ∀ b < 14, blockArr (slice m a) b = ref (L.addr (.block k b))
  first : blockArr (slice m a) 0 ≠ -1
  size : 4096 ≤ statSize (slice m a)
  le : nextSlot m a ≤ 14 * 64
  last : nextSlot m a % 64 ≠ 0 → blockArr (slice m a) (nextSlot m a / 64) ≠ -1

/-- The log of the image is in order: the checkpoint, the `p` pieces of the inode map, the inodes in
the table and the blocks of the directories do not overlap and lie below the end of the log. -/
structure Ordered (s : Server) (junk : Junk) (L : Layout) (p : ℕ) : Prop where
  tables : Tables (s.loadMem junk) L p
  iArr : s.iArr = (s.loadMem junk).iArr
  inode : ∀ k (a : ℕ), (s.loadMem junk).inodeArr k = a → L.addr (.inode k) = some a
  free : ∀ k, (s.loadMem junk).inodeArr k = -1 →
    L.addr (.inode k) = none ∧ ∀ b, L.addr (.block k b) = none
  directory : ∀ k a, L.addr (.inode k) = some a → statType (slice s.disk.bytes a) = DIRECTORY →
    InPlace s.disk.bytes L k a

/-- The log of the image is in order, but the inodes may have other numbers in the log than in the
table. -/
structure Listed (s : Server) (junk : Junk) (L : Layout) (p : ℕ) : Prop where
  tables : Tables (s.loadMem junk) L p
  iArr : s.iArr = (s.loadMem junk).iArr
  nodup : (s.loadMem junk).iArr.Nodup
  inode : ∀ a : ℕ, (a : ℤ) ∈ (s.loadMem junk).iArr → ∃ k, L.addr (.inode k) = some a
  directory : ∀ k a, L.addr (.inode k) = some a → statType (slice s.disk.bytes a) = DIRECTORY →
    InPlace s.disk.bytes L k a

variable {s s' t : Server} {L L' : Layout} {T : Names} {n p k a b z : ℕ} {junk junk' : Junk}
  {name : List UInt8} {pinum type : ℤ} {y : Server × ℤ}

/-! ### The table of inodes -/

theorem Tables.inodeArr_cases (h : Tables (s.loadMem junk) L p) (k : ℕ) :
    (s.loadMem junk).inodeArr k = -1 ∨ ∃ a : ℕ, (s.loadMem junk).inodeArr k = a := by
  rw [inodeArr, List.getD_eq_getElem?_getD]
  cases hz : (s.loadMem junk).iArr[k]? with
  | none => exact Or.inl rfl
  | some z =>
    obtain ⟨hpos, -⟩ := h.mem_iArr.1 (List.mem_of_getElem? hz)
    exact Or.inr (Int.eq_ofNat_of_zero_le hpos)

/-- Loading the tables again does not change them. -/
theorem Tables.iArr_reload (h : Tables (s.loadMem junk) L p) (junk' : Junk) :
    ((s.loadMem junk).loadMem junk').iArr = (s.loadMem junk).iArr := by
  refine Tables.iArr_congr h (h.loadMem junk') ?_
  rw [loadMem_bytes]
  exact Log.Frame.refl

theorem inodeArr_eq_iff : s.inodeArr k = a ↔ s.iArr[k]? = some (a : ℤ) := by
  rw [inodeArr, List.getD_eq_getElem?_getD]
  cases s.iArr[k]? with
  | none => simp
  | some z => simp

/-- The tables are those of any log with the same checkpoint and pieces. -/
theorem Tables.of_addr (h : Tables s L p) (hcheckpoint : L'.addr .checkpoint = L.addr .checkpoint)
    (hpiece : ∀ i, L'.addr (.piece i) = L.addr (.piece i)) (hstop : L'.stop = L.stop) :
    Tables s L' p where
  checkpoint := hcheckpoint.trans h.checkpoint
  piece_iff i := (hpiece i).symm ▸ h.piece_iff i
  p_le := h.p_le
  size := hstop ▸ h.size
  chkpt := h.chkpt
  endLog := hstop ▸ h.endLog
  imap i hi := (hpiece i).symm ▸ h.imap i hi

theorem mem_iArr_iff : (a : ℤ) ∈ s.iArr ↔ ∃ k, s.inodeArr k = a := by
  simp only [List.mem_iff_getElem?, inodeArr_eq_iff]

theorem addr_inj {o o' : Obj} (ha : L.addr o = some a) (ha' : L.addr o' = some a) : o = o' := by
  by_contra hne
  have hpos : ∀ o : Obj, 0 < o.size := fun o => by
    cases o <;> simp [Obj.size, checkpointSize, imapSize, inodeSize, blockSize]
  obtain hle | hle := L.disjoint _ _ _ _ hne ha ha'
  · have := hpos o
    omega
  · have := hpos o'
    omega

theorem InPlace.congr {m m' : Bytes} (h : InPlace m L k a)
    (hinode : EqTo inodeSize (slice m' a) (slice m a)) : InPlace m' L k a := by
  have hblock : ∀ b < 14, blockArr (slice m' a) b = blockArr (slice m a) b := fun b hb =>
    blockArr_eq hinode hb
  have hnext : nextSlot m' a = nextSlot m a := by rw [nextSlot, statSize_eq hinode, nextSlot]
  refine ⟨fun b hb => (hblock b hb).trans (h.block b hb), hblock 0 (by decide) ▸ h.first,
    statSize_eq hinode ▸ h.size, hnext ▸ h.le, fun hne => ?_⟩
  rw [hnext] at hne ⊢
  have hle := h.le
  rw [hblock _ (by omega)]
  exact h.last hne

namespace Ordered

theorem inodeArr_eq (h : Ordered s junk L p) :
    (s.loadMem junk).inodeArr k = a ↔ L.addr (.inode k) = some a := by
  refine ⟨h.inode k a, fun ha => ?_⟩
  obtain hnone | ⟨b, hb⟩ := h.tables.inodeArr_cases k
  · rw [(h.free k hnone).1] at ha
    cases ha
  · rw [hb, Option.some.inj ((h.inode k b hb).symm.trans ha)]

theorem nodup (h : Ordered s junk L p) : (s.loadMem junk).iArr.Nodup := by
  rw [List.nodup_iff_getElem?_ne_getElem?]
  intro i j hij hj heq
  obtain ⟨z, hz⟩ : ∃ z, (s.loadMem junk).iArr[j]? = some z := ⟨_, List.getElem?_eq_getElem hj⟩
  have hmem := (h.tables.mem_iArr.1 (List.mem_of_getElem? hz)).1
  obtain ⟨a, rfl⟩ := Int.eq_ofNat_of_zero_le hmem
  have := addr_inj (h.inode i a (inodeArr_eq_iff.2 (heq.trans hz))) (h.inode j a (inodeArr_eq_iff.2 hz))
  simp only [Obj.inode.injEq] at this
  omega

/-- The directories are those of the log, whatever the uninitialised variables contain. -/
theorem directoryAt_iff (h : Ordered s junk L p) (junk' : Junk) : DirectoryAt s junk' a ↔
    ∃ k, L.addr (.inode k) = some a ∧ statType (slice s.disk.bytes a) = DIRECTORY := by
  have hiArr : (s.loadMem junk').iArr = (s.loadMem junk).iArr :=
    Tables.iArr_congr h.tables (h.tables.reload junk') Log.Frame.refl
  rw [DirectoryAt, hiArr, mem_iArr_iff, ← exists_and_right]
  exact exists_congr fun k => and_congr_left' h.inodeArr_eq

theorem alike (h : Ordered s junk L p) (ht : Alike (s.loadMem junk) t) : Ordered t junk L p := by
  have hbytes : t.disk.bytes = s.disk.bytes := ht.bytes.trans (loadMem_bytes s junk)
  have htables : Tables (t.loadMem junk) L p := (h.tables.alike ht).loadMem junk
  have hiArr : (t.loadMem junk).iArr = (s.loadMem junk).iArr := by
    refine Tables.iArr_congr h.tables htables ?_
    rw [hbytes]
    exact Log.Frame.refl
  refine ⟨htables, ht.iArr.trans hiArr.symm, ?_, ?_, ?_⟩
  · unfold inodeArr
    rw [hiArr]
    exact h.inode
  · unfold inodeArr
    rw [hiArr]
    exact h.free
  · rw [hbytes]
    exact h.directory

/-- The log is in order whatever the uninitialised variables contain. -/
theorem reload (h : Ordered s junk L p) (junk' : Junk) : Ordered s junk' L p := by
  have hiArr : (s.loadMem junk').iArr = (s.loadMem junk).iArr :=
    Tables.iArr_congr h.tables (h.tables.reload junk') Log.Frame.refl
  refine ⟨h.tables.reload junk', h.iArr.trans hiArr.symm, ?_, ?_, h.directory⟩
  · unfold inodeArr
    rw [hiArr]
    exact h.inode
  · unfold inodeArr
    rw [hiArr]
    exact h.free

/-- A directory whose inode and blocks are kept. -/
theorem same (h : Ordered s junk L p) {m' : Bytes} (ha : L.addr (.inode k) = some a)
    (hdir : statType (slice s.disk.bytes a) = DIRECTORY)
    (hinode : Kept s.disk.bytes m' (.inode k) a)
    (hblocks : ∀ b x, L.addr (.block k b) = some x → Kept s.disk.bytes m' (.block k b) x) :
    SameDirectory s.disk.bytes m' a := by
  refine ⟨Image.statSize_congr hinode, fun q hq => ?_⟩
  have hb : q / 64 < 14 := by omega
  unfold slotAt
  rw [Image.blockArr_congr hinode hb, (h.directory k a ha hdir).block _ hb]
  cases hx : L.addr (.block k (q / 64)) with
  | none => rfl
  | some x =>
    rw [ref_some, if_neg (by omega), if_neg (by omega), Int.toNat_natCast,
      entry_eq (hblocks _ _ hx) (Nat.mod_lt _ (by omega))]

end Ordered

/-- The inodes have other numbers. -/
def Obj.renumber (g : ℕ → Option ℕ) : Obj → Option Obj
  | .checkpoint => some .checkpoint
  | .piece i => some (.piece i)
  | .inode k => (g k).map .inode
  | .block k b => (g k).map fun k => .block k b

theorem Obj.size_renumber {g : ℕ → Option ℕ} (o o' : Obj) (h : renumber g o = some o') :
    o'.size = o.size := by
  cases o with
  | checkpoint => rw [← Option.some.inj h]
  | piece i => rw [← Option.some.inj h]
  | inode k =>
    obtain ⟨k', -, rfl⟩ := Option.map_eq_some_iff.1 h
    rfl
  | block k b =>
    obtain ⟨k', -, rfl⟩ := Option.map_eq_some_iff.1 h
    rfl

theorem Obj.renumber_inj {g : ℕ → Option ℕ} (hg : ∀ k k' i, g k = some i → g k' = some i → k = k')
    (o o' x : Obj) (h : renumber g o = some x) (h' : renumber g o' = some x) : o = o' := by
  cases o <;> cases o' <;> simp only [renumber, Option.some.injEq, Option.map_eq_some_iff] at h h' <;>
    grind

/-- **The inodes can be given the numbers** that they have in the table. -/
theorem Listed.ordered (h : Listed s junk L p) : ∃ L', Ordered s junk L' p := by
  -- the inode that has the number `k` in the table
  have hexists : ∀ k, ∃ x : Option ℕ, x.elim ((s.loadMem junk).inodeArr k = -1)
      fun i => ∃ a : ℕ, (s.loadMem junk).inodeArr k = a ∧ L.addr (.inode i) = some a := by
    intro k
    obtain hnone | ⟨a, ha⟩ := h.tables.inodeArr_cases k
    · exact ⟨none, hnone⟩
    · obtain ⟨i, hi⟩ := h.inode a (mem_iArr_iff.2 ⟨k, ha⟩)
      exact ⟨some i, a, ha, hi⟩
  choose g hg using hexists
  have hsome : ∀ k i, g k = some i → ∃ a : ℕ, (s.loadMem junk).inodeArr k = a ∧
      L.addr (.inode i) = some a := fun k i hi => by simpa only [hi, Option.elim_some] using hg k
  have hinj : ∀ k k' i, g k = some i → g k' = some i → k = k' := by
    intro k k' i hk hk'
    obtain ⟨a, ha, hi⟩ := hsome k i hk
    obtain ⟨a', ha', hi'⟩ := hsome k' i hk'
    obtain rfl := Option.some.inj (hi.symm.trans hi')
    rw [inodeArr_eq_iff] at ha ha'
    exact (List.getElem?_inj (List.getElem?_eq_some_iff.1 ha).1 h.nodup).1 (ha.trans ha'.symm)
  set L' : Layout := L.rename (Obj.renumber g) Obj.size_renumber (Obj.renumber_inj hinj) with hL'
  have hfind : ∀ k (a : ℕ), (s.loadMem junk).inodeArr k = a → ∃ i, g k = some i ∧
      L.addr (.inode i) = some a := by
    intro k a ha
    have hk := hg k
    cases hi : g k with
    | none =>
      rw [hi, Option.elim_none, ha] at hk
      omega
    | some i =>
      obtain ⟨a', ha', hi'⟩ := hsome k i hi
      obtain rfl : a = a' := by exact_mod_cast ha.symm.trans ha'
      exact ⟨i, rfl, hi'⟩
  have haddr : ∀ o, L'.addr o = (Obj.renumber g o).bind L.addr := fun _ => rfl
  refine ⟨L', h.tables.of_addr rfl (fun _ => rfl) rfl, h.iArr, fun k a ha => ?_, fun k hk => ?_,
    fun k a ha hdir => ?_⟩
  · obtain ⟨i, hi, hL⟩ := hfind k a ha
    rw [haddr, Obj.renumber, hi]
    exact hL
  · have hnone : g k = none := by
      cases hi : g k with
      | none => rfl
      | some i =>
        obtain ⟨a, ha, -⟩ := hsome k i hi
        omega
    simp only [haddr, Obj.renumber, hnone, Option.map_none, Option.bind_none, implies_true, and_self]
  · cases hi : g k with
    | none =>
      rw [haddr, Obj.renumber, hi] at ha
      cases ha
    | some i =>
      rw [haddr, Obj.renumber, hi] at ha
      have hplace := h.directory i a ha hdir
      refine ⟨fun b hb => ?_, hplace.first, hplace.size, hplace.le, hplace.last⟩
      rw [hplace.block b hb, haddr, Obj.renumber, hi]
      rfl

namespace Ordered

/-! ### Creation -/

/-- The directory in which `sCreate` creates a file. -/
theorem directory_of_enters (h : Ordered s junk L p) (he : Enters s junk k type name) :
    ∃ a : ℕ, L.addr (.inode k) = some a ∧ statType (slice s.disk.bytes a) = DIRECTORY ∧
      statSize (slice s.disk.bytes a) < 4096 * 14 * 64 := by
  have hused := he.used
  rw [inodeArr, h.iArr, ← inodeArr, Int.toNat_natCast] at hused
  obtain ⟨a, ha⟩ := (h.tables.inodeArr_cases k).resolve_left hused
  have hL := h.inode k a ha
  have hk : k < 4096 := by have := he.range; omega
  have hinode := parent_eqTo h.tables hL ha hk name
  exact ⟨a, hL, (statType_eq hinode).symm.trans he.directory, statSize_eq hinode ▸ he.room⟩

end Ordered

/-- From `s` to `t`, a file was created: `n`, in the directory `k` with its inode at `a`. -/
structure CreatesFile (s t : Server) (junk : Junk) (L L' : Layout) (p' k a n : ℕ) (name : List UInt8)
    (type : ℤ) : Prop where
  parent : L.addr (.inode k) = some a
  directory : statType (slice s.disk.bytes a) = DIRECTORY
  inPlace : InPlace s.disk.bytes L k a
  room : statSize (slice s.disk.bytes a) < 4096 * 14 * 64
  valid : type = 0 ∨ type = 1
  lt : k < 4096 ∧ n < 4096
  ne : n ≠ k
  new : L.addr (.inode n) = none ∧ ∀ b, L.addr (.block n b) = none
  tables : Tables t L' p'
  added : Added s.disk.bytes t.disk.bytes L k a (nextSlot s.disk.bytes a) name junk type n
  entered : Entered s.disk.bytes t.disk.bytes L L' k a (nextSlot s.disk.bytes a) n
  loaded : ∃ u : Server, t = u.loadMem junk

/-- **What `sCreate` writes**, in the whole log. -/
theorem Ordered.creates (h : Ordered s junk L p) (h0 : 0 ∉ name) (he : Enters s junk k type name)
    (hok : s.sCreate junk k type name = .ok y) :
    ∃ a n name' L' p', sprintf name [60] = some name' ∧
      CreatesFile s y.1 junk L L' p' k a n name' type := by
  obtain ⟨a, ha, hdir, hroom⟩ := h.directory_of_enters he
  obtain ⟨n, name', hn, hp, hname, hlen, hloaded⟩ := sCreate_ok h.tables he hok
  have hk : k < 4096 := by have := he.range; omega
  have hplace := h.directory k a ha hdir
  have hsize := hplace.size
  have hloc := h.inodeArr_eq.2 ha
  have hunused : (s.loadMem junk).inodeArr n = -1 := by
    rw [List.find?_range_eq_some] at hn
    have hfree := of_decide_eq_true hn.1
    rwa [inodeArr, parent_iArr h.tables he.range, ← inodeArr] at hfree
  have hnk : n ≠ k := by
    rintro rfl
    rw [hloc] at hunused
    omega
  have hn4096 : n < 4096 := by
    rw [List.find?_range_eq_some] at hn
    exact List.mem_range.1 hn.2.1
  have hnew := h.free n hunused
  have hlast : nextSlot s.disk.bytes a % 64 ≠ 0 → ∃ x : ℕ,
      L.addr (.block k (nextSlot s.disk.bytes a / 64)) = some x ∧
        blockArr (slice s.disk.bytes a) (nextSlot s.disk.bytes a / 64) = x := fun hne => by
    have hexists := hplace.last hne
    have hlt : nextSlot s.disk.bytes a / 64 < 14 := by unfold nextSlot; omega
    rw [hplace.block _ hlt] at hexists ⊢
    obtain ⟨x, hx⟩ := Option.ne_none_iff_exists'.1 (ref_eq_neg_one.not.1 hexists)
    exact ⟨x, hx, by rw [hx, ref_some]⟩
  obtain ⟨-, L', p', htables, -, hadd, hentered⟩ := (sCreate_tables h.tables he hloc ha
    (c := nextSlot s.disk.bytes a) (by unfold nextSlot; omega) hlast hn hp hnk
    ⟨hnew.1, hnew.2 0⟩ hname hlen (sprintf_spec h0 hname).1).of_ok hok
  exact ⟨a, n, name', L', p', hname, ha, hdir, hplace, hroom, he.valid, ⟨hk, hn4096⟩, hnk, hnew, htables,
    hadd, hentered, hloaded⟩

/-- A new directory has only the entries `.` and `..`. -/
theorem onlyDots_new {m : Bytes} {e : ℕ} (he : e + inodeSize < 2 ^ 31) (hk : k < 4096)
    (hn : n < 4096) (hinode : EqTo inodeSize (slice m e) (newInode 0 e))
    (hblock : EqTo blockSize (slice m (e + inodeSize)) (newBlock junk k 0 n)) : OnlyDots m e := by
  have hholds := Holds.new he hk hn hinode hblock
  refine hholds.onlyDots (fun b _ hb => ?_) (by simp)
  obtain rfl : b = 0 := by
    simp only [List.length_cons, List.length_nil] at hb
    omega
  exact ⟨_, (blockArr_eq hinode (by decide)).trans (blockArr_newInode he 0)⟩

namespace CreatesFile

variable {p' : ℕ}

/-- The new inode and its first block. -/
theorem inode (h : CreatesFile s t junk L L' p' k a n name type) : ∃ e : ℕ,
    L'.addr (.inode n) = some e ∧ L'.addr (.block n 0) = some (e + inodeSize) ∧
      (∃ i, L'.addr (.piece (n / 16)) = some i ∧ word t.disk.bytes i (n % 16) = e) ∧
      EqTo inodeSize (slice t.disk.bytes e) (newInode type e) ∧
      EqTo blockSize (slice t.disk.bytes (e + inodeSize)) (newBlock junk k type n) := by
  obtain ⟨e, i, hinode, hfirst, hpiece, hword⟩ := h.entered.inode
  obtain ⟨e', i', -, -, -, himap, hword', hnewInode, hnewBlock⟩ := h.added.inode
  obtain rfl : i' = i := by
    have hlt : n / 16 < 256 := by have := h.lt.2; omega
    rw [← h.tables.word_chkpt (by omega), ← imap, h.tables.imap _ hlt, hpiece, ref_some] at himap
    exact_mod_cast himap.symm
  obtain rfl : e' = e := by exact_mod_cast hword'.symm.trans hword
  exact ⟨e', hinode, hfirst, ⟨i', hpiece, hword⟩, hnewInode, hnewBlock⟩

/-- The entries of the inode map are those from before and the one of the new inode. -/
theorem word_cases (h : CreatesFile s t junk L L' p' k a n name type) {i b j z : ℕ}
    (hb : L'.addr (.piece i) = some b) (hj : j < 16) (hz : word t.disk.bytes b j = z) :
    (i = n / 16 ∧ j = n % 16) ∧ L'.addr (.inode n) = some z ∨
      ¬ (i = n / 16 ∧ j = n % 16) ∧ L.addr (.piece i) = some b ∧ word s.disk.bytes b j = z := by
  by_cases hnum : i = n / 16 ∧ j = n % 16
  · obtain ⟨e, he, -, ⟨i', hpiece, hword⟩, -⟩ := h.inode
    obtain ⟨rfl, rfl⟩ := hnum
    obtain rfl := Option.some.inj (hb.symm.trans hpiece)
    obtain rfl : z = e := by exact_mod_cast hz.symm.trans hword
    exact Or.inl ⟨⟨rfl, rfl⟩, he⟩
  · obtain ⟨hb', hsame⟩ := h.entered.pieces i b hb j hj hnum (by omega)
    exact Or.inr ⟨hnum, hb', hsame ▸ hz⟩

/-- The inodes in the table are those from before and the new one. -/
theorem inode_cases (h : CreatesFile s t junk L L' p' k a n name type) (ho : Ordered s junk L p)
    {z : ℕ} (hz : (z : ℤ) ∈ (t.loadMem junk').iArr) :
    L'.addr (.inode n) = some z ∨ ∃ k', k' ≠ n ∧ L.addr (.inode k') = some z := by
  obtain ⟨hpos, i, b, j, hb, hj, hword⟩ := (h.tables.loadMem junk').mem_iArr.1 hz
  obtain ⟨-, he⟩ | ⟨-, hb', hold⟩ := h.word_cases hb hj hword
  · exact Or.inl he
  · obtain ⟨k', hk'⟩ := mem_iArr_iff.1 (ho.tables.mem_iArr.2 ⟨hpos, i, b, j, hb', hj, hold⟩)
    have hzL := ho.inodeArr_eq.1 hk'
    refine Or.inr ⟨k', ?_, hzL⟩
    rintro rfl
    rw [h.new.1] at hzL
    cases hzL

theorem addr_inode (h : CreatesFile s t junk L L' p' k a n name type) {k' : ℕ} (hk' : k' ≠ n) :
    L'.addr (.inode k') = L.addr (.inode k') :=
  h.entered.keeps _ (by simp) (by simpa using hk') (by simp) (by simp)

/-- The inodes and blocks other than those of the directory of the new file are as they were. -/
theorem kept (h : CreatesFile s t junk L L' p' k a n name type) {k' : ℕ} (hk' : k' ≠ k) {z : ℕ}
    (hz : L.addr (.inode k') = some z) : Kept s.disk.bytes t.disk.bytes (.inode k') z :=
  h.added.frame _ _ (by simp [hk']) hz

/-- The directory of the new file. -/
theorem inPlace_parent (h : CreatesFile s t junk L L' p' k a n name type) :
    InPlace t.disk.bytes L' k a := by
  obtain ⟨x, hx, -⟩ := h.added.block
  have hplace := h.inPlace
  have hroom := h.room
  have hsize := h.added.size_eq
  have hnext : nextSlot t.disk.bytes a = nextSlot s.disk.bytes a + 1 := by
    have := hplace.size
    unfold nextSlot
    omega
  have hlt : nextSlot s.disk.bytes a < 14 * 64 := by
    have := hplace.size
    unfold nextSlot
    omega
  have hblock : ∀ b < 14, blockArr (slice t.disk.bytes a) b = ref (L'.addr (.block k b)) := by
    intro b hb
    by_cases hc : b = nextSlot s.disk.bytes a / 64
    · exact hc ▸ h.entered.block
    · rw [h.added.blocks b hb hc, hplace.block b hb, h.entered.keeps _ (by simp) (by simp)
        (by simp [h.ne.symm]) (by simp [hc])]
  refine ⟨hblock, ?_, ?_, by omega, fun hne => ?_⟩
  · by_cases hc : 0 = nextSlot s.disk.bytes a / 64
    · rw [hc, hx]
      omega
    · rw [h.added.blocks 0 (by decide) hc]
      exact hplace.first
  · have := hplace.size
    omega
  · rw [hnext] at hne ⊢
    rw [show (nextSlot s.disk.bytes a + 1) / 64 = nextSlot s.disk.bytes a / 64 by omega, hx]
    omega

/-- The new file, if it is a directory. -/
theorem inPlace_new (h : CreatesFile s t junk L L' p' k a n name type) {e : ℕ}
    (he : L'.addr (.inode n) = some e) (hdir : statType (slice t.disk.bytes e) = DIRECTORY) :
    type = 0 ∧ InPlace t.disk.bytes L' n e ∧ OnlyDots t.disk.bytes e := by
  obtain ⟨e', he', hfirst, -, hinode, hblock⟩ := h.inode
  obtain rfl := Option.some.inj (he.symm.trans he')
  have hlt := h.tables.stop_lt
  have hwithin := L'.within _ _ hfirst
  simp only [Obj.size] at hwithin
  have hvalid := h.valid
  have hzero : type = 0 := by
    rw [statType_eq hinode, statType, newInode, word_ofWords (by simp only []; omega)] at hdir
    exact hdir
  subst hzero
  have hsize : statSize (slice t.disk.bytes e) = 4096 * 2 :=
    (Holds.new (by omega) h.lt.1 h.lt.2 hinode hblock).size
  have hblocks : ∀ b < 14, blockArr (slice t.disk.bytes e) b =
      if b = 0 then ((e + inodeSize : ℕ) : ℤ) else -1 := fun b hb =>
    (blockArr_eq hinode hb).trans (blockArr_newInode (by omega) b)
  refine ⟨rfl, ⟨fun b hb => ?_, ?_, ?_, ?_, ?_⟩,
    onlyDots_new (by omega) h.lt.1 h.lt.2 hinode hblock⟩
  · rw [hblocks b hb]
    split_ifs with hb0
    · rw [hb0, hfirst, ref_some]
    · rw [h.entered.keeps _ (by simp) (by simp) (by simp [hb0]) (by simp [h.ne]), h.new.2 b, ref_none]
  · rw [hblocks 0 (by decide), if_pos rfl]
    omega
  · omega
  · unfold nextSlot
    omega
  · unfold nextSlot
    rw [hsize]
    rw [hblocks _ (by decide), if_pos (by decide)]
    omega

/-- The image after a file was created. -/
theorem listed (h : CreatesFile s t junk L L' p' k a n name type) (ho : Ordered s junk L p) :
    Listed t junk L' p' := by
  refine ⟨h.tables.loadMem junk, ?_, ?_, fun z hz => ?_, fun k' z hz hdir => ?_⟩
  · obtain ⟨u, hu⟩ := h.loaded
    have htables := h.tables
    rw [hu] at htables ⊢
    exact (htables.iArr_reload junk).symm
  · rw [(h.tables.loadMem junk).nodup_iArr]
    intro i i' b b' j j' hb hb' hj hj' hpos heq
    obtain ⟨z, hz⟩ := Int.eq_ofNat_of_zero_le hpos
    -- no entry from before has the address of the new inode
    have hold : ∀ {i b j}, L.addr (.piece i) = some b → j < 16 → word s.disk.bytes b j = z →
        L'.addr (.inode n) ≠ some z := by
      intro i b j hb hj hword he
      obtain ⟨k', hk'⟩ := mem_iArr_iff.1
        (ho.tables.mem_iArr.2 ⟨Int.natCast_nonneg z, i, b, j, hb, hj, hword⟩)
      have hzL := ho.inodeArr_eq.1 hk'
      have hk'n : k' ≠ n := by
        rintro rfl
        rw [h.new.1] at hzL
        cases hzL
      rw [← h.addr_inode hk'n] at hzL
      exact hk'n (by simpa using addr_inj hzL he)
    obtain ⟨⟨rfl, rfl⟩, he⟩ | ⟨-, hL, hword⟩ := h.word_cases hb hj hz
    · obtain ⟨⟨rfl, rfl⟩, -⟩ | ⟨-, hL', hword'⟩ := h.word_cases hb' hj' (heq ▸ hz)
      · exact ⟨rfl, rfl⟩
      · exact absurd he (hold hL' hj' hword')
    · obtain ⟨-, he'⟩ | ⟨-, hL', hword'⟩ := h.word_cases hb' hj' (heq ▸ hz)
      · exact absurd he' (hold hL hj hword)
      · refine (ho.tables.nodup_iArr.1 ho.nodup) i i' b b' j j' hL hL' hj hj' ?_ ?_
        · omega
        · rw [hword, hword']
  · obtain he | ⟨k', hk', hzL⟩ := h.inode_cases ho hz
    · exact ⟨n, he⟩
    · exact ⟨k', (h.addr_inode hk').trans hzL⟩
  · by_cases hk'n : k' = n
    · subst hk'n
      exact (h.inPlace_new hz hdir).2.1
    rw [h.addr_inode hk'n] at hz
    by_cases hkk : k' = k
    · subst hkk
      obtain rfl := Option.some.inj (h.parent.symm.trans hz)
      exact h.inPlace_parent
    · have hkept := h.kept hkk hz
      have hplace := ho.directory k' z hz ((Image.statType_congr hkept).symm.trans hdir)
      refine InPlace.congr ⟨fun b hb => ?_, hplace.first, hplace.size, hplace.le, hplace.last⟩ hkept
      rw [hplace.block b hb, h.entered.keeps _ (by simp) (by simp) (by simp [hk'n]) (by simp [hkk])]

/-- **What a `CREAT` does to the directories**: the size of its own directory grows by one entry, a new
directory has only the entries `.` and `..`, and the others are as they were. -/
theorem directoryAt (h : CreatesFile s t junk L L' p' k a n name type) (ho : Ordered s junk L p)
    {z : ℕ} (hz : DirectoryAt t junk' z) :
    z = a ∨ z ≠ a ∧ DirectoryAt s junk' z ∧ SameDirectory s.disk.bytes t.disk.bytes z ∨
      ¬ DirectoryAt s junk' z ∧ OnlyDots t.disk.bytes z := by
  obtain ⟨hmem, htype⟩ := hz
  obtain he | ⟨k', hk', hzL⟩ := h.inode_cases ho hmem
  · refine Or.inr (Or.inr ⟨fun hold => ?_, (h.inPlace_new he htype).2.2⟩)
    obtain ⟨k', hzL, -⟩ := (ho.directoryAt_iff junk').1 hold
    have hk' : k' ≠ n := by
      rintro rfl
      rw [h.new.1] at hzL
      cases hzL
    rw [← h.addr_inode hk'] at hzL
    exact hk' (by simpa using addr_inj hzL he)
  by_cases hkk : k' = k
  · subst hkk
    exact Or.inl (Option.some.inj (hzL.symm.trans h.parent))
  · have hkept := h.kept hkk hzL
    have htype' := (Image.statType_congr hkept).symm.trans htype
    refine Or.inr (Or.inl ⟨?_, (ho.directoryAt_iff junk').2 ⟨k', hzL, htype'⟩,
      ho.same hzL htype' hkept fun b x hx => h.added.frame _ _ (by simp [hkk]) hx⟩)
    rintro rfl
    exact hkk (by simpa using addr_inj hzL h.parent)

/-- The slots of the directory of the new file. -/
theorem slotAt_parent (h : CreatesFile s t junk L L' p' k a n name type)
    (hc : nextSlot s.disk.bytes a % 64 ≠ 0) {q : ℕ} (hq : q < 14 * 64) :
    slotAt t.disk.bytes a q =
      if q = nextSlot s.disk.bytes a then some (name, (n : ℤ)) else slotAt s.disk.bytes a q := by
  have hlt : nextSlot s.disk.bytes a < 14 * 64 := by
    have hroom := h.room
    unfold nextSlot
    omega
  by_cases hb : q / 64 = nextSlot s.disk.bytes a / 64
  · rw [h.added.slotAt_self h.inPlace.block hlt hb, if_neg hc]
  · rw [h.added.slotAt_of_ne h.inPlace.block hq hb, if_neg]
    rintro rfl
    exact hb rfl

end CreatesFile

end Server

end Mfs

end OperatingSystems

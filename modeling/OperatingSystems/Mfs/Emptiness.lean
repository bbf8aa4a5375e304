import OperatingSystems.Mfs.Spared

/-!
# Which directories can be unlinked

`sUnlink` takes a directory whose size is that of at most two entries for an empty one.  `sCreate`
adds 4096 to the size for each entry; `sUnlink` makes it 4096 for each *block*.  So what the size says
about a directory depends on the last request that changed it.

* `Server.UnlinksEmpty` : no directory with entries besides `.` and `..` is unlinked.
* `Server.Counts` : the size of the directory is that of its entries after the request, or above two.
* `Server.sized_step` : what one request does to the directories.
* `unlinksEmpty_iff` : **a directory that is unlinked is empty** exactly if its last change counts.
* `full_directory_unlinked` : two files in a directory, one of them is removed, and then the directory
  is.
-/

namespace OperatingSystems

namespace Mfs

open Bytes

/-- No slot besides `q` is in use, apart from `.` and `..`. -/
def OnlyDotsBut (m : Bytes) (a q : ℕ) : Prop :=
  ∀ q' e, q' ≠ q → Taken m a q' e → e.1 = [46] ∨ e.1 = [46, 46]

/-- A directory with the size of at most two entries has none besides `.` and `..`. -/
def Sized (m : Bytes) (a : ℕ) : Prop := statSize (slice m a) ≤ 2 * 4096 → OnlyDots m a

theorem SameDirectory.sized_iff {m m' : Bytes} {a : ℕ} (h : SameDirectory m m' a) :
    Sized m' a ↔ Sized m a := by
  have hsymm : SameDirectory m' m a := ⟨h.size.symm, fun q hq => (h.slots q hq).symm⟩
  unfold Sized
  rw [h.size]
  exact imp_congr_right fun _ => ⟨hsymm.onlyDots, h.onlyDots⟩

namespace Server

/-- The request names an entry for a directory, whose inode is at `a`. -/
def NamesDirectory (s : Server) (l : Msg × Junk) (a : ℕ) : Prop :=
  ∃ i : ℕ, s.unlinkFound l.2 l.1.pinum l.1.cname = some (i : ℤ) ∧ (s.loadMem l.2).inodeArr i = a ∧
    statType (slice s.disk.bytes a) = DIRECTORY

/-- The request is an `UNLINK` that returns 0. -/
def Unlinks (del : Server → Junk → ℤ → Except Stop Server) (s : Server) (l : Msg × Junk) : Prop :=
  l.1.lib = .UNLINK ∧ ∃ y, s.unlinkWith del l.2 l.1.pinum l.1.cname = .ok y ∧ y.2 = 0

/-- A directory that is unlinked has no entry in use besides `.` and `..`. -/
def UnlinksEmpty (del : Server → Junk → ℤ → Except Stop Server) (s : Server) (l : Msg × Junk) : Prop :=
  s.Unlinks del l → ∀ a, NamesDirectory s l a → OnlyDots s.disk.bytes a

/-- The request adds an entry to the directory with its inode at `a`, or removes one; or there is no
such directory yet. -/
def Changes (del : Server → Junk → ℤ → Except Stop Server) (a : ℕ) (s : Server) (l : Msg × Junk) :
    Prop :=
  DirectoryAt s l.2 a → s.directoryAt l = a ∧ ((∃ y, s.Creates l y) ∨ s.Unlinks del l)

/-- A `CREAT` in the directory finds a size above that of one entry, unless it only writes the entry
`.` or `..`; an `UNLINK` in the directory removes the only entry besides `.` and `..`, or leaves a
third block. -/
def Counts (a : ℕ) (s : Server) (l : Msg × Junk) : Prop :=
  DirectoryAt s l.2 a →
    (l.1.lib = .CREAT → 4096 < statSize (slice s.disk.bytes a) ∨
      (∃ c, sprintf l.1.cname [60] = some c ∧ (c = [46] ∨ c = [46, 46])) ∧
        OnlyDotsBut s.disk.bytes a (nextSlot s.disk.bytes a)) ∧
    (l.1.lib = .UNLINK → (∃ b, 2 ≤ b ∧ b < 14 ∧ blockArr (slice s.disk.bytes a) b ≠ -1) ∨
      ∃ q, OnlyDotsBut s.disk.bytes a q)

variable {s s' t u w : Server} {L L' : Layout} {T : Names} {n p p' k a b : ℕ} {junk junk' : Junk}
  {name : List UInt8} {type : ℤ} {l : Msg × Junk} {y : Server × ℤ}
  {del : Server → Junk → ℤ → Except Stop Server}

/-! ### One request -/

/-- What the size says about a directory after an entry was added. -/
theorem CreatesFile.sized_iff (h : CreatesFile s t junk L L' p' k a n name type) :
    Sized t.disk.bytes a ↔ 4096 < statSize (slice s.disk.bytes a) ∨
      (name = [46] ∨ name = [46, 46]) ∧ OnlyDotsBut s.disk.bytes a (nextSlot s.disk.bytes a) := by
  have hsize := h.added.size_eq
  have hge := h.inPlace.size
  by_cases hbig : 4096 < statSize (slice s.disk.bytes a)
  · exact iff_of_true (fun hle => absurd hle (by omega)) (Or.inl hbig)
  have hnext : nextSlot s.disk.bytes a = 1 := by
    unfold nextSlot
    omega
  have hslot : ∀ q < 14 * 64, slotAt t.disk.bytes a q =
      if q = nextSlot s.disk.bytes a then some (name, (n : ℤ)) else slotAt s.disk.bytes a q :=
    fun q hq => h.slotAt_parent (by omega) hq
  rw [or_iff_right hbig]
  constructor
  · intro hsized
    have hdots := hsized (by omega)
    refine ⟨hdots (nextSlot s.disk.bytes a) (name, n) ⟨by omega, ?_, ?_⟩, fun q e hne he => ?_⟩
    · rw [hslot _ (by omega), if_pos rfl]
    · show (n : ℤ) ≠ -1
      omega
    · obtain ⟨hq, hold, hused⟩ := he
      exact hdots q e ⟨hq, by rw [hslot q hq, if_neg hne, hold], hused⟩
  · rintro ⟨hname, hbut⟩ - q e ⟨hq, hnew, hused⟩
    rw [hslot q hq] at hnew
    split_ifs at hnew with hne
    · rw [← Option.some.inj hnew]
      exact hname
    · exact hbut q e hne ⟨hq, hnew, hused⟩

/-- What the size says about a directory after an entry was removed. -/
theorem Removes.sized_iff {x j i : ℕ} (hr : Removes del s s' u w junk L name k a b x j i)
    (h : Ordered s junk L p) (hdel : SparesDirectories del)
    (hslot : ∀ q < 14 * 64, slotAt s'.disk.bytes a q =
      if q = 64 * b + j then some unused else slotAt s.disk.bytes a q) :
    Sized s'.disk.bytes a ↔ (∃ b, 2 ≤ b ∧ b < 14 ∧ blockArr (slice s.disk.bytes a) b ≠ -1) ∨
      ∃ q, OnlyDotsBut s.disk.bytes a q := by
  obtain ⟨last, hlast, hsize, hmax, hle⟩ := (hr.removed h hdel).size
  by_cases hbig : ∃ b, 2 ≤ b ∧ b < 14 ∧ blockArr (slice s.disk.bytes a) b ≠ -1
  · refine iff_of_true (fun hsmall => ?_) (Or.inl hbig)
    obtain ⟨b', hb', hlt, hne⟩ := hbig
    have := hle b' hlt hne
    omega
  have hsmall : last ≤ 1 := by
    by_contra hgt
    exact hbig ⟨last, by omega, hlast, hmax.resolve_left (by omega)⟩
  -- the entry that is removed is in use, and it is not `.` or `..`
  have hremoved : Taken s.disk.bytes a (64 * b + j)
      (entryName (slice s.disk.bytes x) j, (i : ℤ)) := by
    have hlt := hr.lt
    have hj := hr.index
    refine ⟨by omega, slotAt_eq_some.2 ?_, show (i : ℤ) ≠ -1 by omega⟩
    rw [show (64 * b + j) / 64 = b by omega, show (64 * b + j) % 64 = j by omega,
      (h.directory k a hr.inode hr.directory).block b hlt, hr.block, ref_some, Int.toNat_natCast]
    exact ⟨by omega, hr.entry⟩
  rw [or_iff_right hbig]
  constructor
  · intro hsized
    have hdots := hsized (by omega)
    refine ⟨64 * b + j, fun q e hne ⟨hq, hold, hused⟩ => hdots q e ⟨hq, ?_, hused⟩⟩
    rw [hslot q hq, if_neg hne, hold]
  · rintro ⟨q₀, hbut⟩ - q e ⟨hq, hnew, hused⟩
    obtain rfl : q₀ = 64 * b + j := by
      by_contra hne
      exact (hbut _ _ (Ne.symm hne) hremoved).elim hr.dots.1 hr.dots.2
    rw [hslot q hq] at hnew
    split_ifs at hnew with hne
    · rw [← Option.some.inj hnew] at hused
      exact absurd rfl hused
    · exact hbut q e hne ⟨hq, hnew, hused⟩

/-- From `s` to `s'`, the log stays in order, and the size of a directory says the same about it as
before, unless the request changes the directory; then it is right if and only if the request
counts. -/
def SizesStep (del : Server → Junk → ℤ → Except Stop Server) (s s' : Server) (l : Msg × Junk) : Prop :=
  (∃ L' p', Ordered s' l.2 L' p') ∧ ∀ a, DirectoryAt s' l.2 a →
    Changes del a s l ∧ (Sized s'.disk.bytes a ↔ Counts a s l) ∨
    ¬ Changes del a s l ∧ DirectoryAt s l.2 a ∧ (Sized s'.disk.bytes a ↔ Sized s.disk.bytes a)

/-- A request that leaves the image as it is. -/
theorem sizesStep_alike (h : Ordered s l.2 L p) (hcreates : ∀ y, ¬ s.Creates l y)
    (hunlinks : ¬ s.Unlinks del l) (hs' : s' = s ∨ Alike (s.loadMem l.2) s') :
    SizesStep del s s' l := by
  have hbytes : s'.disk.bytes = s.disk.bytes := by
    obtain rfl | halike := hs'
    · rfl
    · exact halike.bytes.trans (loadMem_bytes s l.2)
  have hordered : Ordered s' l.2 L p := by
    obtain rfl | halike := hs'
    · exact h
    · exact h.alike halike
  refine ⟨⟨L, p, hordered⟩, fun a ha => Or.inr ?_⟩
  rw [hordered.directoryAt_iff, hbytes, ← h.directoryAt_iff l.2] at ha
  exact ⟨fun hc => (hc ha).2.elim (fun ⟨y, hy⟩ => hcreates y hy) hunlinks, ha, by rw [hbytes]⟩

/-- A request that creates a file. -/
theorem sizesStep_creates (h : Ordered s l.2 L p) (hy : s.Creates l y) :
    SizesStep del s y.1 l := by
  have he := hy.enters
  have hok := hy.ok
  have hat : s.directoryAt l = ((s.loadMem l.2).inodeArr l.1.pinum.toNat).toNat := rfl
  obtain ⟨k, hk⟩ := Int.eq_ofNat_of_zero_le he.range.1
  rw [hk] at he hok
  have h0 : 0 ∉ l.1.cname := zero_notMem_cstr _ _
  obtain ⟨a, n, name, L', p', hname, hc⟩ := h.creates h0 he hok
  rw [hk, Int.toNat_natCast, h.inodeArr_eq.2 hc.parent, Int.toNat_natCast] at hat
  have hdir : DirectoryAt s l.2 a := (h.directoryAt_iff l.2).2 ⟨k, hc.parent, hc.directory⟩
  obtain ⟨L'', horder⟩ := (hc.listed h).ordered
  refine ⟨⟨L'', p', horder⟩, fun z hz => ?_⟩
  obtain rfl | ⟨hne, hold, hsame⟩ | ⟨hnew, hdots⟩ := hc.directoryAt h hz
  · refine Or.inl ⟨fun _ => ⟨hat, Or.inl ⟨y, hy⟩⟩, hc.sized_iff.trans ?_⟩
    simp only [Counts, hdir, hy.lib, hname, true_implies, Option.some.injEq, exists_eq_left',
      reduceCtorEq, false_implies, and_true]
  · refine Or.inr ⟨fun hch => hne (hat ▸ (hch hold).1.symm), hold, hsame.sized_iff⟩
  · exact Or.inl ⟨fun hold => absurd hold hnew, iff_of_true (fun _ => hdots) fun hold =>
      absurd hold hnew⟩

/-- A request that removes an entry. -/
theorem sizesStep_unlinks (h : Ordered s l.2 L p) (hdel : SparesDirectories del)
    (hlib : l.1.lib = .UNLINK) (hok : s.unlinkWith del l.2 l.1.pinum l.1.cname = .ok y)
    (hy : y.2 ≠ -1) : SizesStep del s y.1 l := by
  have hat : s.directoryAt l = ((s.loadMem l.2).inodeArr l.1.pinum.toNat).toNat := rfl
  obtain ⟨hzero, -, -, k, a, b, x, j, i, hk, u, w, hr⟩ := h.removes hok hy
  rw [hk, Int.toNat_natCast, h.inodeArr_eq.2 hr.inode, Int.toNat_natCast] at hat
  have hdir : DirectoryAt s l.2 a := (h.directoryAt_iff l.2).2 ⟨k, hr.inode, hr.directory⟩
  refine ⟨hr.ordered h hdel, fun z hz => ?_⟩
  obtain ⟨hold, ⟨hne, hsame⟩ | ⟨rfl, hslot⟩⟩ := hr.directoryAt h hdel hz
  · exact Or.inr ⟨fun hch => hne (hat ▸ (hch hold).1.symm), hold, hsame.sized_iff⟩
  · refine Or.inl ⟨fun _ => ⟨hat, Or.inr ⟨hlib, y, hok, hzero⟩⟩,
      (hr.sized_iff h hdel hslot).trans ?_⟩
    simp only [Counts, hdir, hlib, true_implies, reduceCtorEq, false_implies, true_and]

/-- **What one request does** to the directories. -/
theorem sizesStep (h : Ordered s l.2 L p) (hdel : SparesDirectories del)
    (hlib : l.1.lib = .CREAT ∨ l.1.lib = .UNLINK) (hnext : (serverWith del).next s l = some s') :
    SizesStep del s s' l := by
  obtain hlib | hlib := hlib
  · have hnot : ¬ s.Unlinks del l := fun hu => absurd (hlib.symm.trans hu.1) (by decide)
    rw [serverWith_next (by rw [hlib]; decide), next_eq_some] at hnext
    obtain ⟨y, hy, rfl⟩ := hnext
    simp only [handle, hlib] at hy
    obtain ⟨x, hx, rfl⟩ := map_eq_ok.1 hy
    by_cases he : Enters s l.2 l.1.pinum l.1.type l.1.cname
    · exact sizesStep_creates h ⟨hlib, he, hx⟩
    · refine sizesStep_alike h (fun y hy => he hy.enters) hnot ?_
      by_cases hbehind : l.1.pinum = 4096
      · exact Or.inl (sCreate_behind hbehind hx)
      · obtain ⟨t, r, ht, hcases⟩ := sCreate_of_not_enters he hbehind
        obtain rfl := Except.ok.inj (ht.symm.trans hx)
        exact hcases.imp id And.right
  · cases hok : s.unlinkWith del l.2 l.1.pinum l.1.cname with
    | error e =>
      simp only [serverWith, handleWith, if_pos hlib, hok] at hnext
      cases hnext
    | ok y =>
      rw [serverWith_next_unlink hlib hok] at hnext
      obtain rfl := Option.some.inj hnext
      by_cases hy : y.2 = -1
      · obtain ⟨t, r⟩ := y
        obtain rfl : r = -1 := hy
        refine sizesStep_alike h (fun z hz => ?_) (fun hu => ?_) (Or.inr (unlinkWith_alike hok))
        · exact absurd (hlib.symm.trans hz.lib) (by decide)
        · obtain ⟨-, z, hz, hzero⟩ := hu
          rw [hok] at hz
          rw [← Except.ok.inj hz] at hzero
          exact absurd (show (-1 : ℤ) = 0 from hzero) (by decide)
      · exact sizesStep_unlinks h hdel hlib hok hy

/-! ### The new image -/

/-- The log of an image that represents a namespace is in order. -/
theorem Hosts.ordered (h : Hosts s L T) (junk : Junk) : Ordered s junk L ((T.count + 15) / 16) := by
  have hl := h.serves.1
  have hload := (hl.readOnly.loadMem junk).1
  refine ⟨hload.tables, hl.iArr.trans hload.iArr.symm, fun k a ha => ?_, fun k hk => ?_,
    fun k a ha hdir => ?_⟩
  · rwa [hload.inodeArr_eq, ref_eq_natCast] at ha
  · rw [hload.inodeArr_eq, ref_eq_neg_one] at hk
    refine ⟨hk, fun b => Option.eq_none_iff_forall_ne_some.2 fun x hx => ?_⟩
    have hlt := (hl.image.inode_iff k).2 (hl.image.owner k b (by rw [hx]; rfl))
    rw [hk] at hlt
    cases hlt
  · obtain ⟨es, hes⟩ := h.serves.2.not_none ha hdir
    obtain ⟨a', ha', -, hholds, hne⟩ := h.directory hes
    obtain rfl := Option.some.inj (ha.symm.trans ha')
    have hlen := hholds.length_le
    have hpos := List.length_pos_iff.2 hne
    have hsize := hholds.size
    have hnext : nextSlot s.disk.bytes a = es.length := by
      rw [nextSlot, hsize]
      omega
    refine ⟨hl.image.block k a ha, (hholds.alloc 0 (by decide)).2 (by omega), by omega, by omega,
      fun hmod => ?_⟩
    rw [hnext] at hmod ⊢
    exact (hholds.alloc _ (by omega)).2 (by omega)

/-- The only directory of a new image has the entries `.` and `..`. -/
theorem sized_fresh {a : ℕ} (ha : DirectoryAt (fresh junk) junk' a) :
    Sized (fresh junk).disk.bytes a := by
  have h := fresh_hosts junk
  obtain ⟨k, hk, hdir⟩ := ((h.ordered junk).directoryAt_iff junk').1 ha
  obtain ⟨es, hes⟩ := h.serves.2.not_none hk hdir
  obtain ⟨-, hholds⟩ := h.serves.2.directory k a es hk hes
  obtain ⟨-, rfl⟩ := Namespace.root_dirs_eq_some hes
  refine fun _ => hholds.onlyDots (fun b _ hb => ?_) (by simp)
  obtain ⟨x, hx, -⟩ := hholds.exists_block h.serves.1.image hk hb
  exact ⟨x, hx⟩

/-- What the size says about the directories that are reached. -/
theorem sized_iff_of_run (hdel : SparesDirectories del) {ls : List (Msg × Junk)}
    (hls : ∀ l ∈ ls, l.1.lib = .CREAT ∨ l.1.lib = .UNLINK)
    (hrun : (serverWith del).run (fresh junk) ls = some s) {a : ℕ} :
    (∃ L p, Ordered s junk L p) ∧ (DirectoryAt s junk a →
      ((serverWith del).LastMeets (Changes del a) (Counts a) (fresh junk) ls ↔
        Sized s.disk.bytes a)) := by
  refine Machine.lastMeets_iff (I := fun s => ∃ L p, Ordered s junk L p)
    (D := fun s => DirectoryAt s junk a) (P := fun s => Sized s.disk.bytes a) hrun hls
    ⟨_, _, (fresh_hosts junk).ordered junk⟩ sized_fresh ?_
  rintro s l s' ⟨L, p, h⟩ hlib hnext
  obtain ⟨⟨L', p', h'⟩, hstep⟩ := sizesStep (h.reload l.2) hdel hlib hnext
  refine ⟨⟨L', p', h'.reload junk⟩, fun ha => ?_⟩
  rw [(h'.reload junk).directoryAt_iff, ← h'.directoryAt_iff l.2] at ha
  rw [h.directoryAt_iff, ← (h.reload l.2).directoryAt_iff l.2]
  exact hstep a ha

end Server

/-- A function without any effect spares the directories. -/
theorem Server.sparesDirectories_keepInode : Server.SparesDirectories Server.keepInode := by
  rintro s junk x t L p h hok
  obtain rfl := Except.ok.inj hok
  refine ⟨fun _ _ _ _ => EqTo.refl _ _, ⟨L, p, h, ?_⟩, fun z hz => ?_⟩
  · rintro i z hz o a ⟨k, c, -, -, rfl | ⟨b, rfl⟩⟩ ha
    · exact L.disjoint _ _ _ _ (by simp) hz ha
    · exact L.disjoint _ _ _ _ (by simp) hz ha
  · obtain ⟨k, hk⟩ := Server.mem_iArr_iff.1 hz
    rw [h.inodeArr_eq] at hk
    by_cases hdir : statType (slice s.disk.bytes z) = DIRECTORY
    · exact Or.inl ⟨k, hk, hdir⟩
    · refine Or.inr ⟨hdir, ?_⟩
      rintro o a ⟨k', c, hc, hcdir, rfl | ⟨b, rfl⟩⟩ ha
      · refine L.disjoint _ _ _ _ ?_ hk ha
        rintro heq
        rw [heq, hc] at hk
        exact hdir (Option.some.inj hk ▸ hcdir)
      · exact L.disjoint _ _ _ _ (by simp) hk ha

namespace Server

variable {s : Server} {L : Layout} {T : Names} {p k a : ℕ} {junk : Junk} {name : List UInt8}
  {type : ℤ}

/-- The next file is created behind the end of the log, where there is nothing. -/
theorem Hosts.create_next {es : List (List UInt8 × ℕ)} (h : Hosts s L T)
    (hzero : ∀ z, L.stop ≤ z → s.disk.bytes z = 0) (hes : T.dirs k = some es)
    (ha : L.addr (.inode k) = some a) (hlen : es.length < 64) (hcount : T.count % 16 ≠ 0)
    (hcount' : T.count < 4096) (hstop : L.stop < 2 ^ 20) {c : UInt8} (hc : c ≠ 0 ∧ c ≠ 37)
    (htype : type = 0 ∨ type = 1) (habsent : (s.sLookup (fun _ _ => 0) k [c]).2 = -1) :
    ∃ s' L', s.sCreate (fun _ _ => 0) k type [c] = .ok (s', 0) ∧ Hosts s' L' (T.create k [c] type) ∧
      L'.stop = L.stop + inodeSize + blockSize ∧
      (∀ j b, L.addr (.inode j) = some b → L'.addr (.inode j) = some b) ∧
      L'.addr (.inode T.count) = some L.stop ∧
      EqTo inodeSize (slice s'.disk.bytes L.stop) (newInode type L.stop) ∧
      blockArr (slice s'.disk.bytes a) 0 = blockArr (slice s.disk.bytes a) 0 ∧
      (∀ z, L'.stop ≤ z → s'.disk.bytes z = 0) ∧
      (type = 1 → ∀ z, L.stop + inodeSize ≤ z → s'.disk.bytes z = 0) := by
  obtain ⟨a', ha', -, hholds, hne⟩ := h.directory hes
  obtain rfl := Option.some.inj (ha.symm.trans ha')
  have hpos := List.length_pos_iff.2 hne
  have he : Enters s (fun _ _ => 0) k type [c] :=
    h.enters hes (by omega) htype (by simp) (by rw [habsent]; decide)
  obtain ⟨y, L', a', es', hok, hy, hL, -, ha', hes', hinodes, hadd, hexact⟩ := h.sCreate_ok
    (by simp [hc.1.symm]) (sprintf_eq (by simp [hc.2.symm]) _) (by simp) he hcount' (by
      simp only [imapSize, inodeSize, blockSize]
      omega)
  obtain rfl := Option.some.inj (ha.symm.trans ha')
  obtain rfl := Option.some.inj (hes.symm.trans hes')
  have hstop' := hexact hcount (by omega)
  obtain ⟨e, -, hsame, haddr, hout, hinode, hnew⟩ := hadd.addr_inode hL.serves.1.image hcount'
  obtain rfl := hsame hcount
  rw [stopAfter, if_neg (by omega), ← hstop'] at hout
  have hbehind : ∀ z, L'.stop ≤ z → y.1.disk.bytes z = 0 := fun z hz => by
    rw [hout z hz, hzero z (by omega)]
  refine ⟨y.1, L', ?_, hL, hstop', hinodes, haddr, hinode, ?_, hbehind, fun hreg z hz => ?_⟩
  · have hy : y = (y.1, 0) := Prod.ext rfl hy
    rw [← hy]
    exact hok
  · obtain ⟨x, hx, hold, -⟩ := hadd.block
    have hzero : es.length / 64 = 0 := by omega
    rw [hzero] at hx hold
    rw [hx, h.serves.1.image.block k a ha 0 (by decide), hold (by omega), ref_some]
  · subst hreg
    by_cases hblk : z < L.stop + inodeSize + blockSize
    · obtain ⟨d, rfl⟩ := Nat.exists_eq_add_of_le hz
      exact hnew d (by omega)
    · exact hbehind z (by omega)

/-- `sUnlink` finds the first entry with the name in the first block of a directory. -/
theorem unlinkWith_first {x j : ℕ} (h : Tables (s.loadMem junk) L p)
    (hloc : (s.loadMem junk).inodeArr k = a) (hk : k < 4096) (ha : L.addr (.inode k) = some a)
    (hdir : statType (slice s.disk.bytes a) = DIRECTORY) (hx : L.addr (.block k 0) = some x)
    (hblock : blockArr (slice s.disk.bytes a) 0 = x) (hdots : name ≠ [46] ∧ name ≠ [46, 46])
    (hlen : name.length < 60) (hj : j < 64) (hentry : entryName (slice s.disk.bytes x) j = name)
    (hfirst : ∀ j' < j, entryName (slice s.disk.bytes x) j' ≠ name ∧
      (entryName (slice s.disk.bytes x) j').length < 60)
    (del : Server → Junk → ℤ → Except Stop Server) :
    s.unlinkFound junk k name = some (entryInum (slice s.disk.bytes x) j) ∧
      ∃ d pInode t, EqTo blockSize d (slice s.disk.bytes x) ∧ Alike (s.loadMem junk) t ∧
        s.unlinkWith del junk k name = t.removeEntryWith del junk a pInode d x j := by
  have hinode : EqTo inodeSize (((s.loadMem junk).lseek a).read inodeSize (junk .inode)).2
      (slice s.disk.bytes a) := by
    have hread := read_eqTo (s := s.loadMem junk) ((L.within _ _ ha).trans h.size) (junk .inode)
    rwa [loadMem_bytes] at hread
  have halike : Alike (s.loadMem junk)
      (((s.loadMem junk).lseek a).read inodeSize (junk .inode)).1 := (Alike.refl _).read _ _ _
  generalize hr : ((s.loadMem junk).lseek a).read inodeSize (junk .inode) = r at hinode halike
  obtain ⟨v, pInode⟩ := r
  have hd : EqTo blockSize ((v.lseek x).read blockSize (junk .dirBlk)).2 (slice s.disk.bytes x) := by
    have hread := read_eqTo (s := v) (((L.within _ _ hx).trans h.size).trans_eq halike.size.symm)
      (junk .dirBlk)
    rwa [halike.bytes, loadMem_bytes] at hread
  have hname : ∀ j' < 64, entryName ((v.lseek x).read blockSize (junk .dirBlk)).2 j' =
      entryName (slice s.disk.bytes x) j' := fun j' hj' => congrArg Prod.fst (entry_eq hd hj')
  -- a name that ends in its field is read as it is there
  have hfind : ((List.range 64).find? fun j => cstr (blockSize - 64 * j)
      (slice ((v.lseek x).read blockSize (junk .dirBlk)).2 (64 * j)) = name) = some j := by
    rw [List.find?_range_eq_some]
    refine ⟨decide_eq_true ?_, List.mem_range.2 hj, fun j' hj' => ?_⟩
    · rw [cstr_entry (by rwa [hname j hj, hentry]) hj, hname j hj, hentry]
    · obtain ⟨hne, hlen'⟩ := hfirst j' hj'
      rw [Bool.not_eq_true', decide_eq_false_iff_not,
        cstr_entry (by rwa [hname j' (by omega)]) (by omega), hname j' (by omega)]
      exact hne
  have hpInode : blockArr pInode 0 = x := (blockArr_eq hinode (by decide)).trans hblock
  -- the loop does not get behind the first block
  have hloop := unlinkLoop_cons name pInode 0 (List.range' 1 13) v (junk .dirBlk) (r := some j)
    (by rw [hpInode]; exact hfind)
  rw [hpInode, if_pos (Int.natCast_nonneg x), Option.elim_some,
    show 0 :: List.range' 1 13 = List.range 14 from rfl] at hloop
  have hafter : Alike (s.loadMem junk) ((v.lseek x).read blockSize (junk .dirBlk)).1 :=
    halike.read x blockSize (junk .dirBlk)
  generalize (v.lseek x).read blockSize (junk .dirBlk) = r at hd hloop hafter
  obtain ⟨t, d⟩ := r
  dsimp only at hd hloop hafter
  have hinum : entryInum d j = entryInum (slice s.disk.bytes x) j :=
    congrArg Prod.snd (entry_eq hd hj)
  refine ⟨?_, d, pInode, t, hd, hafter, ?_⟩
  · rw [unlinkFound]
    dsimp only
    rw [Int.toNat_natCast, hloc, hr]
    dsimp only
    rw [hloop, Option.map_some, hinum]
  · unfold unlinkWith
    dsimp only
    rw [if_neg (by omega), if_neg (by omega), Int.toNat_natCast, hloc, if_neg (by omega),
      if_neg (not_or.2 ⟨hdots.2, hdots.1⟩), if_neg (by omega), hr,
      if_neg (by rw [not_not, statType_eq hinode, hdir]), hloop]

/-- An entry of an inode that is no directory with a size above two entries is removed. -/
theorem removeEntryWith_keepInode {d pInode : Bytes} {i j : ℕ} {pinumLoc delDirBlkLoc : ℤ}
    (hinum : entryInum d j = i) (hi : i < 4096) (hloc : s.inodeArr i = a)
    (hsize : a + inodeSize ≤ s.disk.size)
    (hsmall : ¬ (statType (slice s.disk.bytes a) = DIRECTORY ∧
      statSize (slice s.disk.bytes a) > 2 * 4096)) :
    ∃ s', s.removeEntryWith keepInode junk pinumLoc pInode d delDirBlkLoc j = .ok (s', 0) := by
  have hread := read_eqTo hsize (junk .inode)
  unfold removeEntryWith
  dsimp only
  rw [hinum, if_neg (by omega), Int.toNat_natCast, hloc,
    if_neg (by rw [statType_eq hread, statSize_eq hread]; exact hsmall)]
  exact ⟨_, rfl⟩

end Server

/-- The directory `d` is created in the root directory, the files `a` and `b` in `d`, and `a` is
removed. -/
def filling : List (Msg × Junk) :=
  [({ message .CREAT with name := ofCstr [100], type := DIRECTORY }, fun _ _ => 0),
    ({ message .CREAT with name := ofCstr [97], pinum := 1 }, fun _ _ => 0),
    ({ message .CREAT with name := ofCstr [98], pinum := 1 }, fun _ _ => 0),
    ({ message .UNLINK with name := ofCstr [97], pinum := 1 }, fun _ _ => 0)]

/-- The directory `d` is to be unlinked. -/
def emptying : Msg × Junk := ({ message .UNLINK with name := ofCstr [100] }, fun _ _ => 0)

/-- The image with the directory `d` and the files `a` and `b` in it. -/
theorem filled_directory : ∃ s₁ s₂ s₃ L,
    (fresh fun _ _ => 0).sCreate (fun _ _ => 0) (0 : ℕ) 0 [100] = .ok (s₁, 0) ∧
    s₁.sCreate (fun _ _ => 0) (1 : ℕ) 1 [97] = .ok (s₂, 0) ∧
    s₂.sCreate (fun _ _ => 0) (1 : ℕ) 1 [98] = .ok (s₃, 0) ∧
    Server.Hosts s₃ L (Names.create (Names.create (Names.create
      (Namespace.root [46] [46, 46]) 0 [100] 0) 1 [97] 1) 1 [98] 1) ∧
    L.addr (.inode 0) = some (checkpointSize + imapSize) ∧
    L.addr (.inode 1) = some Server.freshLayout.stop := by
  have h := Server.fresh_hosts fun _ _ => 0
  obtain ⟨es, hes, hroot, hsize, -, hblock⟩ := fresh_root
  obtain ⟨-, rfl⟩ := Namespace.root_dirs_eq_some hes
  have hzero : ∀ z, Server.freshLayout.stop ≤ z → (fresh fun _ _ => 0).disk.bytes z = 0 := fun z hz =>
    (fresh fun _ _ => 0).disk.zero z (hsize ▸ hz)
  have hF : Server.freshLayout.stop = checkpointSize + imapSize + inodeSize + blockSize := rfl
  simp only [checkpointSize, imapSize, inodeSize, blockSize] at hF
  obtain ⟨s₁, L₁, hc₁, h₁, hstop₁, hkeep₁, hd, hinode₁, -, hzero₁, -⟩ := h.create_next hzero hes hroot
    (by decide) (by decide) (by decide) (by omega) (c := 100) (by decide) (Or.inl rfl)
    (sLookup_fresh (by decide) (by decide))
  have hx₁ : blockArr (slice s₁.disk.bytes Server.freshLayout.stop) 0 =
      ((Server.freshLayout.stop + inodeSize : ℕ) : ℤ) :=
    (blockArr_eq hinode₁ (by decide)).trans (Server.blockArr_newInode (by simp only [inodeSize]; omega) 0)
  have hes₁ : (Names.create (Namespace.root [46] [46, 46]) 0 [100] 0).dirs 1 =
      some [([46], 1), ([46, 46], 0)] := rfl
  -- behind the block of `d` there is nothing yet
  have habsent₁ : (s₁.sLookup (fun _ _ => 0) (1 : ℕ) [97]).2 = -1 := by
    refine h₁.sLookup_absent hes₁ hd (by decide) hx₁ (by decide) (by decide) fun t ht => ?_
    rw [hzero₁ _ (by rw [hstop₁]; simp only [blockSize]; omega)] at ht
    exact ht.symm
  obtain ⟨s₂, L₂, hc₂, h₂, hstop₂, hkeep₂, -, hinode₂, hblock₂, -, hrest₂⟩ := h₁.create_next hzero₁ hes₁
    hd (by decide) (by decide) (by decide) (by simp only [inodeSize, blockSize] at hstop₁; omega)
    (c := 97) (by decide) (Or.inr rfl) habsent₁
  have hes₂ : (Names.create (Names.create (Namespace.root [46] [46, 46]) 0 [100] 0) 1 [97] 1).dirs 1 =
      some [([46], 1), ([46, 46], 0), ([97], 2)] := rfl
  -- and then the inode of `a`
  have habsent₂ : (s₂.sLookup (fun _ _ => 0) (1 : ℕ) [98]).2 = -1 := by
    refine h₂.sLookup_absent hes₂ (hkeep₂ _ _ hd) (by decide) (hblock₂.trans hx₁) (by decide)
      (by decide) fun t ht => ?_
    have hat : Server.freshLayout.stop + inodeSize + 4096 + 64 * t = L₁.stop + 64 * t := by
      rw [hstop₁, blockSize]
    rw [hat] at ht
    obtain rfl | hpos := Nat.eq_zero_or_pos t
    · have hfirst : s₂.disk.bytes L₁.stop = 1 :=
        (hinode₂ 0 (by decide)).trans (show ofInt 1 0 = 1 by decide)
      exact absurd (ht.symm.trans hfirst) (by decide)
    · rw [hrest₂ rfl _ (by simp only [inodeSize]; omega)] at ht
      exact ht.symm
  have hzero₂ : ∀ z, L₂.stop ≤ z → s₂.disk.bytes z = 0 := fun z hz => hrest₂ rfl z (by omega)
  obtain ⟨s₃, L₃, hc₃, h₃, -, hkeep₃, -⟩ := h₂.create_next hzero₂ hes₂ (hkeep₂ _ _ hd) (by decide)
    (by decide) (by decide) (by simp only [inodeSize, blockSize] at hstop₁ hstop₂; omega) (c := 98)
    (by decide) (Or.inr rfl) habsent₂
  exact ⟨s₁, s₂, s₃, L₃, hc₁, hc₂, hc₃, h₃, hkeep₃ _ _ (hkeep₂ _ _ (hkeep₁ _ _ hroot)),
    hkeep₃ _ _ (hkeep₂ _ _ hd)⟩

end Mfs

end OperatingSystems

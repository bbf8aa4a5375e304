import OperatingSystems.Mfs.Removal

/-!
# The inode of an unlinked file

`sUnlink` passes the *address* of an inode to `delInode`, which takes it for the number of the inode:
it looks for the piece of the inode map behind the end of `chkpt.imap`.  What comes of that access is
open, so `del` may be any function that agrees with `delInode` where that is defined.

* `EntryOf m k name i` : the first entry with the name in the directory `k` has the number `i`.
* `HasEntries m i` : the inode `i` is a directory with more than its first two entries.
* `Server.Freed` : afterwards the inode and the name are gone, and all others are as they were.
* `Server.FreesRight` : whatever `delInode` does, an `UNLINK` that returns 0 frees the inode.
* `Server.freesRight_iff` : **in every reachable image, that is so exactly of the requests that
  `sUnlink` refuses**.
* `unlink_keeps_inode` : the first file in a new image is not freed.
-/

namespace OperatingSystems

namespace Mfs

open Bytes

/-- The first entry with the name in the directory `k` has the number `i`. -/
def EntryOf (m : Bytes) (k : ℕ) (name : List UInt8) (i : ℤ) : Prop :=
  ∃ a : ℕ, inodeAddr m k = some (a : ℤ) ∧ statType (slice m a) = DIRECTORY ∧
    ∃ b j, Server.locate m name (slice m a) (List.range 14) = some (b, j) ∧
      entryInum (slice m (blockArr (slice m a) b).toNat) j = i

/-- The inode `i` is that of a directory which `sUnlink` does not take for empty. -/
def HasEntries (m : Bytes) (i : ℕ) : Prop :=
  ∃ a : ℕ, inodeAddr m i = some (a : ℤ) ∧ statType (slice m a) = DIRECTORY ∧
    statSize (slice m a) > 2 * 4096

namespace Image

variable {m : Bytes} {L : Layout} {n p k i : ℕ}

theorem inodeAddr_eq_some (h : Image m L n p) {a : ℕ} :
    inodeAddr m k = some (a : ℤ) ↔ L.addr (.inode k) = some a := by
  rw [h.inodeAddr_eq, Option.map_eq_some_iff]
  constructor
  · rintro ⟨a', ha', haa⟩
    rwa [← Int.ofNat.inj haa]
  · exact fun ha => ⟨a, ha, rfl⟩

theorem entryOf_iff (h : Image m L n p) {name : List UInt8} {x : ℤ} :
    EntryOf m k name x ↔ ∃ a, L.addr (.inode k) = some a ∧ statType (slice m a) = DIRECTORY ∧
      ∃ b j, Server.locate m name (slice m a) (List.range 14) = some (b, j) ∧
        entryInum (slice m (blockArr (slice m a) b).toNat) j = x := by
  simp only [EntryOf, h.inodeAddr_eq_some]

theorem hasEntries_iff (h : Image m L n p) : HasEntries m i ↔ ∃ a,
    L.addr (.inode i) = some a ∧ statType (slice m a) = DIRECTORY ∧
      statSize (slice m a) > 2 * 4096 := by
  simp only [HasEntries, h.inodeAddr_eq_some]

end Image

namespace Server

/-- `del` does what `delInode` does where that is defined. -/
def Extends (del : Server → Junk → ℤ → Except Stop Server) : Prop :=
  ∀ s junk x t, delInode s junk x = .ok t → del s junk x = .ok t

/-- From `s` to `s'`, the file with the number `i` and its name in the directory `k` are gone, and
the files with other numbers, the directory apart, are as they were. -/
structure Freed (s s' : Server) (k : ℕ) (name : List UInt8) (i : ℕ) : Prop where
  stat : ∀ junk stat, (s'.sStat junk i stat).2.1 = -1
  read : ∀ junk buff blk, (s'.sRead junk i buff blk).2.1 = -1
  write : ∀ junk buff blk, ∃ t, s'.sWrite junk i buff blk = .ok (t, -1)
  lookup : ∀ junk, (s'.sLookup junk k name).2 = -1
  others : ∀ j : ℕ, j ≠ i → j ≠ k → ∀ junk, (s.loadMem junk).inodeArr j ≠ -1 →
    (s'.loadMem junk).inodeArr j = (s.loadMem junk).inodeArr j ∧
    (∀ stat, (s'.sStat junk j stat).2 = (s.sStat junk j stat).2) ∧
    ∀ buff blk, (s'.sRead junk j buff blk).2 = (s.sRead junk j buff blk).2

/-- If the request returns 0, whatever `delInode` does at an access out of bounds, then the file with
the name of the request has been freed. -/
def FreesRight (s : Server) (l : Msg × Junk) : Prop :=
  ∀ k i : ℕ, l.1.pinum = k → EntryOf s.disk.bytes k l.1.cname i → ∀ del, Extends del →
    ∀ y, s.handleWith del l.2 l.1 = .ok y → y.2.returnNum = 0 → Freed s y.1 k l.1.cname i

variable {s s' : Server} {L : Layout} {T : Names} {k a i : ℕ} {junk : Junk} {name : List UInt8}
  {es : List (List UInt8 × ℕ)} {del : Server → Junk → ℤ → Except Stop Server}

/-- `delInode` where it is defined, and no effect elsewhere. -/
def delNothing (s : Server) (junk : Junk) (x : ℤ) : Except Stop Server :=
  match s.delInode junk x with
  | .ok t => .ok t
  | .error _ => .ok s

theorem extends_delNothing : Extends delNothing := fun s junk x t h => by
  unfold delNothing
  rw [h]

theorem delNothing_behind {x : ℕ} (hx : 4096 ≤ x) : delNothing s junk x = .ok s := by
  unfold delNothing
  rw [delInode_behind hx]

/-- An entry of a reachable image. -/
theorem Hosts.entryOf (h : Hosts s L T) (he : EntryOf s.disk.bytes k name i) :
    ∃ a es b j, L.addr (.inode k) = some a ∧ T.dirs k = some es ∧ j < 64 ∧
      statType (slice s.disk.bytes a) = DIRECTORY ∧
      locate s.disk.bytes name (slice s.disk.bytes a) (List.range 14) = some (b, j) ∧
      es[64 * b + j]? = some (name, i) := by
  have hpos : (i : ℤ) ≠ -1 := by omega
  obtain ⟨hl, hr⟩ := h.serves
  obtain ⟨a, ha, hd, b, j, hloc, hi⟩ := hl.image.entryOf_iff.1 he
  obtain ⟨es, hes⟩ := hr.not_none ha hd
  obtain ⟨-, hj, -, hslot, hname⟩ := slot_of_locate hl ha (hr.directory k a es ha hes).2 hloc
  refine ⟨a, es, b, j, ha, hes, hj, hd, hloc, ?_⟩
  have hpair : entry (slice s.disk.bytes (blockArr (slice s.disk.bytes a) b).toNat) j =
      (name, (i : ℤ)) := by
    unfold entry
    rw [hname, hi]
  rw [hpair, eq_comm, slot_eq_iff hpos] at hslot
  obtain ⟨n, hn, hin⟩ := hslot
  rwa [Nat.cast_inj.1 hin]

/-- From `s` to `s'`, the entry `e` of the directory `k`, the slot `j` of its block `b`, was removed, and
nothing else was written that matters. -/
structure Cleared (s s' : Server) (L : Layout) (T : Names) (k a b j x : ℕ)
    (es : List (List UInt8 × ℕ)) (e : List UInt8 × ℕ) : Prop where
  inode : L.addr (.inode k) = some a
  dirs : T.dirs k = some es
  index : j < 64
  slot : es[64 * b + j]? = some e
  tables : Tables s' L ((T.count + 15) / 16)
  block : L.addr (.block k b) = some x
  frame : L.Frame (fun o => o = .inode k ∨ o = .block k b) s.disk.bytes s'.disk.bytes
  size : ∃ inode, EqTo inodeSize inode (slice s.disk.bytes a) ∧
    EqTo inodeSize (slice s'.disk.bytes a) (setSize inode (4096 * ((es.length + 63) / 64 : ℕ)))
  entries : EqTo blockSize (slice s'.disk.bytes x) (setEntry (slice s.disk.bytes x) j [] (-1))

/-- The table of inodes stays as it was. -/
theorem Cleared.iArr {b j x : ℕ} {e : List UInt8 × ℕ} (h : Cleared s s' L T k a b j x es e)
    (hs : Hosts s L T) (junk : Junk) : (s'.loadMem junk).iArr = s.iArr := by
  obtain ⟨inode, hold, hnew⟩ := h.size
  exact (inOrder_of_removed hs h.dirs h.inode h.tables h.frame hold hnew junk).2.1

/-- **How an entry is removed** if the access out of bounds has no effect. -/
theorem Hosts.unlinkWith_cleared (h : Hosts s L T) (he : EntryOf s.disk.bytes k name i)
    (hdots : name ≠ [46] ∧ name ≠ [46, 46]) (hempty : ¬ HasEntries s.disk.bytes i) (junk : Junk) :
    ∃ s' a b j x es, s.unlinkWith delNothing junk k name = .ok (s', 0) ∧
      Cleared s s' L T k a b j x es (name, i) := by
  obtain ⟨hl, hr⟩ := h.serves
  obtain ⟨a, es, b, j, ha, hes, hj, hd, hloc, hslot⟩ := h.entryOf he
  obtain ⟨hi0, hi⟩ := h.entry_ne_zero hes hslot hdots.1 hdots.2
  obtain ⟨a', ha'⟩ := Option.isSome_iff_exists.1 ((hl.image.inode_iff i).2 hi)
  have hb : (64 * b + j) / 64 = b := by omega
  have hj' : (64 * b + j) % 64 = j := by omega
  obtain ⟨s', x, hunlink, htables, hx, hframe, hsize, hentries, -, -⟩ :=
    unlinkWith_keepInode junk h hes ha hslot (by rw [hloc, hb, hj']) hdots ha'
      (fun hdir => hempty (hl.image.hasEntries_iff.2 ⟨a', ha', hdir⟩))
      fun t => delNothing_behind (h.behind i a' ha' hi0)
  rw [hb] at hx hframe
  rw [hj'] at hentries
  exact ⟨s', a, b, j, x, es, hunlink, ha, hes, hj, hslot, htables, hx, hframe, hsize, hentries⟩

/-- **A file is not freed** if the access out of bounds has no effect. -/
theorem Hosts.not_freesRight (h : Hosts s L T) {l : Msg × Junk} (hlib : l.1.lib = .UNLINK)
    (hk : l.1.pinum = k) (hname : l.1.cname = name) (he : EntryOf s.disk.bytes k name i)
    (hdots : name ≠ [46] ∧ name ≠ [46, 46]) (hempty : ¬ HasEntries s.disk.bytes i) :
    ¬ FreesRight s l := by
  intro hright
  have hl := h.serves.1
  obtain ⟨s', a, b, j, x, es, hunlink, hcleared⟩ := h.unlinkWith_cleared he hdots hempty l.2
  obtain ⟨a', ha'⟩ := Option.isSome_iff_exists.1 ((hl.image.inode_iff i).2
    (h.entry_ne_zero hcleared.dirs hcleared.slot hdots.1 hdots.2).2)
  have hok : s.handleWith delNothing l.2 l.1 = .ok (s', { l.1 with returnNum := 0 }) := by
    rw [← hk, ← hname] at hunlink
    unfold handleWith
    rw [if_pos hlib, hunlink]
    rfl
  have hstat := (hright k i hk (hname ▸ he) _ extends_delNothing _ hok rfl).stat l.2 (0, 0)
  have hloc' : (s'.loadMem l.2).inodeArr i = a' := by
    rw [inodeArr, hcleared.iArr h, ← inodeArr, hl.inodeArr_eq, ha', ref_some]
  have hlt := hl.inode_lt ha'
  unfold sStat at hstat
  dsimp only at hstat
  rw [if_neg (by omega), Int.toNat_natCast, hloc', if_neg (by omega)] at hstat
  cases hstat

/-- `.` and `..` are not removed. -/
theorem unlinkWith_dots (del : Server → Junk → ℤ → Except Stop Server) (s : Server) (junk : Junk)
    (hk : k < 4096) (hdots : name = [46] ∨ name = [46, 46]) :
    ∃ t, s.unlinkWith del junk k name = .ok (t, -1) := by
  unfold unlinkWith
  dsimp only
  rw [if_neg (by omega), if_neg (by omega)]
  split
  · exact ⟨_, rfl⟩
  rw [if_pos hdots.symm]
  exact ⟨_, rfl⟩

/-- A directory with entries is not removed. -/
theorem Hosts.unlinkWith_hasEntries (h : Hosts s L T) (junk : Junk)
    (he : EntryOf s.disk.bytes k name i) (hdots : name ≠ [46] ∧ name ≠ [46, 46])
    (hentries : HasEntries s.disk.bytes i) (del : Server → Junk → ℤ → Except Stop Server) :
    ∃ t, s.unlinkWith del junk k name = .ok (t, -1) := by
  obtain ⟨hl, hr⟩ := h.serves
  obtain ⟨a, es, b, j, ha, hes, hj, hd, hloc, hslot⟩ := h.entryOf he
  have hholds := (hr.directory k a es ha hes).2
  obtain ⟨a', haddr, hdir, hsize⟩ := hl.image.hasEntries_iff.1 hentries
  have hlen := (hholds.names _ (List.mem_of_getElem? hslot)).2
  dsimp only at hlen
  obtain ⟨hnone, -⟩ | ⟨b', j', d, pInode, t, hsome, hblk, -, hafter, hunlink⟩ :=
    unlinkWith_directory junk hl ha hd hholds hdots (by omega) del
  · rw [hloc] at hnone
    cases hnone
  rw [hloc] at hsome
  obtain ⟨rfl, rfl⟩ := Prod.mk.inj (Option.some.inj hsome)
  have hinum : entryInum d j = i := by
    have hentry := (slot_of_locate hl ha hholds hloc).2.2.2.1
    rw [hslot] at hentry
    exact congrArg Prod.snd ((entry_eq hblk hj).trans hentry)
  have hload := (hl.readOnly.loadMem junk).1
  have hafter' : Loaded t L T.count ((T.count + 15) / 16) :=
    hload.congr hafter.bytes hafter.size hafter.chkpt hafter.iArr
  have hinode := hafter'.read_inode haddr (junk .inode)
  rw [hafter.bytes, loadMem_bytes] at hinode
  have hlt := hl.inode_lt haddr
  rw [hunlink]
  unfold removeEntryWith
  dsimp only
  rw [hinum, if_neg (by omega), Int.toNat_natCast, hafter'.inodeArr_eq, haddr, ref_some,
    if_pos (by rw [statType_eq hinode, statSize_eq hinode]; exact ⟨hdir, hsize⟩)]
  exact ⟨_, rfl⟩

/-- **Where an unlinked inode is freed**: in every reachable image, only the requests that `sUnlink`
refuses are as they should be. -/
theorem freesRight_iff {junk₀ : Junk} {ls : List (Msg × Junk)} {l : Msg × Junk}
    (h : server.run (fresh junk₀) ls = some s) (hlib : l.1.lib = .UNLINK) :
    FreesRight s l ↔ ∀ k i : ℕ, l.1.pinum = k → EntryOf s.disk.bytes k l.1.cname i →
      l.1.cname = [46] ∨ l.1.cname = [46, 46] ∨ HasEntries s.disk.bytes i := by
  obtain ⟨L, T, hs⟩ := hosts_of_run h
  constructor
  · intro hright k i hk he
    by_contra hrefused
    obtain ⟨hdot, hdotdot, hempty⟩ : l.1.cname ≠ [46] ∧ l.1.cname ≠ [46, 46] ∧
        ¬ HasEntries s.disk.bytes i := by simpa only [not_or] using hrefused
    exact hs.not_freesRight hlib hk rfl he ⟨hdot, hdotdot⟩ hempty hright
  · intro hrefused k i hk he del _ y hok hzero
    -- a refused request does not return 0
    obtain ⟨t, ht⟩ : ∃ t, s.unlinkWith del l.2 k l.1.cname = .ok (t, -1) := by
      obtain ⟨a, -, -, -, ha, -⟩ := hs.entryOf he
      have hlt := hs.serves.1.inode_lt ha
      by_cases hdots : l.1.cname = [46] ∨ l.1.cname = [46, 46]
      · exact unlinkWith_dots del s l.2 (by omega) hdots
      · have hentries : HasEntries s.disk.bytes i := by
          obtain hdot | hdotdot | hentries := hrefused k i hk he
          · exact absurd (Or.inl hdot) hdots
          · exact absurd (Or.inr hdotdot) hdots
          · exact hentries
        exact hs.unlinkWith_hasEntries l.2 he (not_or.1 hdots) hentries del
    unfold handleWith at hok
    rw [if_pos hlib, hk, ht] at hok
    rw [← Except.ok.inj hok] at hzero
    cases hzero

end Server

/-- `UNLINK` of `.` in the root directory. -/
def unlinkDot : Msg × Junk := ({ message .UNLINK with name := ofCstr [46] }, fun _ _ => 0)

/-- It is refused. -/
theorem freesRight_dot : (fresh fun _ _ => 0).FreesRight unlinkDot ∧ unlinkDot.1.cname = [46] := by
  have hname : unlinkDot.1.cname = [46] := by decide +kernel
  have hrun : server.run (fresh fun _ _ => 0) [] = some (fresh fun _ _ => 0) := rfl
  exact ⟨(Server.freesRight_iff hrun rfl).2 fun _ _ _ _ => Or.inl hname, hname⟩

/-- The image after a file was created in a new one. -/
theorem created_file : ∃ s L, server.run (fresh fun _ _ => 0) creation = some s ∧
    Server.Hosts s L (Names.create (Namespace.root [46] [46, 46]) 0 [102] 1) ∧
    EntryOf s.disk.bytes 0 [102] (1 : ℕ) ∧ ¬ HasEntries s.disk.bytes 1 := by
  obtain ⟨s, L, hcreate, h, hroot, -⟩ := fresh_create [102] 1 (by decide) (by decide) (Or.inr rfl)
  have hcname : (message .CREAT).cname = [102] := by decide +kernel
  have hes : (Names.create (Namespace.root [46] [46, 46]) 0 [102] 1).dirs 0 =
      some [([46], 0), ([46, 46], 0), ([102], 1)] := rfl
  obtain ⟨hl, hr⟩ := h.serves
  obtain ⟨hd, hholds⟩ := hr.directory 0 _ _ hroot hes
  obtain ⟨a', ha'⟩ := Option.isSome_iff_exists.1 ((hl.image.inode_iff 1).2 (by decide))
  have hloc := Server.locate_of_once h hes hroot (q := 2) (e := ([102], 1)) rfl
    fun _ _ => eq_of_name (by decide) rfl
  have hslot := (Server.slot_of_locate hl hroot hholds hloc).2.2.2.1
  refine ⟨s, L, ?_, h,
    hl.image.entryOf_iff.2 ⟨_, hroot, hd, 0, 2, hloc, congrArg Prod.snd hslot⟩, fun hentries => ?_⟩
  · refine Machine.run_cons_eq_some.2 ⟨s, ?_, rfl⟩
    refine Server.next_of_sCreate rfl (y := (s, 0)) ?_
    rw [hcname]
    exact hcreate
  · obtain ⟨a, ha, hdir, -⟩ := hl.image.hasEntries_iff.1 hentries
    obtain rfl : a' = a := Option.some.inj (ha'.symm.trans ha)
    rw [hr.file 1 a' ha' rfl] at hdir
    cases hdir

/-- A file is created in a new image and unlinked again: the request may return 0, but the file still
has its inode. -/
theorem unlink_keeps_inode : ∃ s, server.run (fresh fun _ _ => 0) creation = some s ∧
    ¬ s.FreesRight (message .UNLINK, fun _ _ => 0) := by
  obtain ⟨s, L, hrun, h, he, hempty⟩ := created_file
  have hcname : (message .UNLINK).cname = [102] := by decide +kernel
  exact ⟨s, hrun, h.not_freesRight (k := 0) (i := 1) rfl rfl hcname he (by decide) hempty⟩

end Mfs

end OperatingSystems

import OperatingSystems.Mfs.Bounds
import OperatingSystems.Mfs.Client
import OperatingSystems.Mfs.Lookups

/-!
# Requests that are sent again

After a timeout the client sends its message once more, and the server, which keeps no record of the
requests that it has handled, handles it a second time.

* `Server.SameImage` : the image file is the same.
* `Server.Agree` : a search answers the same for other values of the uninitialised variables.
* `Server.Hosts.sCreate_again`, `Server.Hosts.sWrite_again` : a request that took effect has none the
  second time, with the same result.
* `Server.Once` : a directory has a name at most once.
* `Server.Hosts.unlinkWith_removes` : a removed entry is not found again.
* `resent` : **what a request that is sent twice does**.
* `unlink_resent` : the exception, a file that is unlinked twice.
-/

namespace OperatingSystems

namespace Mfs

open Bytes

namespace Server

variable {s s' : Server} {L : Layout} {T : Names} {k a n p : ℕ} {junk junk' : Junk}
  {name : List UInt8} {es : List (List UInt8 × ℕ)} {pinum type : ℤ}

/-- The image file is the same. -/
structure SameImage (s s' : Server) : Prop where
  bytes : s'.disk.bytes = s.disk.bytes
  size : s'.disk.size = s.disk.size

theorem SameImage.refl (s : Server) : SameImage s s := ⟨rfl, rfl⟩

theorem Alike.sameImage (h : Alike (s.loadMem junk) s') : SameImage s s' :=
  ⟨h.bytes.trans (loadMem_bytes s junk), h.size.trans (loadMem_size s junk)⟩

/-! ### Requests that only read -/

theorem sStat_sameImage (inum : ℤ) (stat : ℤ × ℤ) :
    SameImage s (s.sStat junk inum stat).1 := by
  have hl := Alike.refl (s.loadMem junk)
  unfold sStat
  dsimp only
  split
  · exact .refl s
  split
  · simpa only using hl.sameImage
  · exact (hl.read _ _ _).sameImage

variable (junk junk') in
/-- `sStat` answers the same for the same image. -/
theorem sStat_congr (h : Loaded s L n p) (h' : Loaded s' L n p) (hi : SameImage s s') (inum : ℤ)
    (stat : ℤ × ℤ) : (s'.sStat junk' inum stat).2 = (s.sStat junk inum stat).2 := by
  have hload := (h.readOnly.loadMem junk).1
  have hload' := (h'.readOnly.loadMem junk').1
  unfold sStat
  dsimp only
  by_cases hinum : inum < 0 ∨ inum ≥ 4096
  · rw [if_pos hinum, if_pos hinum]
  rw [if_neg hinum, if_neg hinum, hload.inodeArr_eq, hload'.inodeArr_eq]
  cases ha : L.addr (.inode inum.toNat) with
  | none => rw [ref_none, if_pos rfl, if_pos rfl]
  | some a =>
    have hinode := hload.read_inode ha (junk .inode)
    have hinode' := hload'.read_inode ha (junk' .inode)
    rw [loadMem_bytes] at hinode hinode'
    rw [hi.bytes] at hinode'
    rw [ref_some, if_neg (by omega), if_neg (by omega), statType_eq hinode, statSize_eq hinode,
      statType_eq hinode', statSize_eq hinode']

theorem sRead_sameImage (inum : ℤ) (buff : Bytes) (blk : ℤ) :
    SameImage s (s.sRead junk inum buff blk).1 := by
  have hl := Alike.refl (s.loadMem junk)
  unfold sRead
  dsimp only
  split
  · exact .refl s
  split
  · exact .refl s
  split
  · simpa only using hl.sameImage
  split
  · exact (hl.read _ _ _).sameImage
  · exact ((hl.read _ _ _).read _ _ _).sameImage

/-- What is read at an address is the same in the same image. -/
theorem read_congr {t t' : Server} (hi : SameImage t t') (x len : ℕ) (buf : Bytes) :
    ((t'.lseek x).read len buf).2 = ((t.lseek x).read len buf).2 := by
  funext i
  simp only [read, File.read, lseek, File.lseek, Int.natCast_nonneg, if_true, hi.bytes, hi.size]

variable (junk junk') in
/-- `sRead` answers the same for the same image. -/
theorem sRead_congr (h : Loaded s L n p) (h' : Loaded s' L n p) (hi : SameImage s s') (inum : ℤ)
    (buff : Bytes) (blk : ℤ) :
    (s'.sRead junk' inum buff blk).2 = (s.sRead junk inum buff blk).2 := by
  have hload := (h.readOnly.loadMem junk).1
  have hload' := (h'.readOnly.loadMem junk').1
  unfold sRead
  dsimp only
  by_cases hinum : inum ≥ 4096 ∨ inum < 0
  · rw [if_pos hinum, if_pos hinum]
  by_cases hblk : blk > 13 ∨ blk < 0
  · rw [if_neg hinum, if_neg hinum, if_pos hblk, if_pos hblk]
  rw [if_neg hinum, if_neg hinum, if_neg hblk, if_neg hblk, hload.inodeArr_eq, hload'.inodeArr_eq]
  obtain ⟨b, rfl⟩ := Int.eq_ofNat_of_zero_le (not_lt.1 (not_or.1 hblk).2)
  rw [Int.toNat_natCast]
  cases ha : L.addr (.inode inum.toNat) with
  | none => rw [ref_none, if_pos rfl, if_pos rfl]
  | some a =>
    have hinode := hload.read_inode ha (junk .inode)
    have hinode' := hload'.read_inode ha (junk' .inode)
    rw [loadMem_bytes] at hinode hinode'
    rw [hi.bytes] at hinode'
    have hb : b < 14 := by omega
    have hloc : ¬ (a : ℤ) = -1 := by omega
    rw [ref_some, if_neg hloc, if_neg hloc, blockArr_eq hinode hb, blockArr_eq hinode' hb,
      h.image.block _ a ha b hb]
    cases hx : L.addr (.block inum.toNat b) with
    | none => rw [ref_none, if_pos rfl, if_pos rfl]
    | some x =>
      have hblkLoc : ¬ (x : ℤ) = -1 := by omega
      rw [ref_some, if_neg hblkLoc, if_neg hblkLoc, read_congr ⟨?_, ?_⟩]
      · simp only [read_bytes, lseek_bytes, loadMem_bytes, hi.bytes]
      · simp only [read_size, lseek_size, loadMem_size, hi.size]

/-! ### Searches -/

/-- `sLookup` without a valid name and a directory. -/
theorem sLookup_of_not (h : Loaded s L n p) (hnot : ¬ ∃ k a : ℕ, pinum = k ∧
    L.addr (.inode k) = some a ∧ statType (slice s.disk.bytes a) = DIRECTORY ∧
      1 ≤ name.length ∧ name.length ≤ 60) : (s.sLookup junk pinum name).2 = -1 := by
  have hload := (h.readOnly.loadMem junk).1
  unfold sLookup
  dsimp only
  by_cases hpinum : pinum < 0 ∨ pinum ≥ 4096
  · rw [if_pos hpinum]
  obtain ⟨k, rfl⟩ := Int.eq_ofNat_of_zero_le (not_lt.1 (not_or.1 hpinum).1)
  rw [if_neg hpinum, Int.toNat_natCast, hload.inodeArr_eq]
  cases ha : L.addr (.inode k) with
  | none => rw [ref_none, if_pos rfl]
  | some a =>
    have hinode := hload.read_inode ha (junk .inode)
    rw [loadMem_bytes] at hinode
    have hloc : ¬ (a : ℤ) = -1 := by omega
    rw [ref_some, if_neg hloc]
    by_cases hlen : name.length < 1 ∨ name.length > 60
    · rw [if_pos hlen]
    · rw [if_neg hlen, if_pos]
      exact fun hd => hnot ⟨k, a, rfl, ha, (statType_eq hinode).symm.trans hd, by omega, by omega⟩

/-- The directory has an entry with the name, or the search behind its last block comes to the same
whatever the uninitialised variables contain. -/
def Agree (s : Server) (junk junk' : Junk) (pinum : ℤ) (name : List UInt8) : Prop :=
  ∀ k : ℕ, pinum = k → (∃ i, InUse s.disk.bytes k name i) ∨
    strayMatch s junk k name = strayMatch s junk' k name

theorem agree_self (s : Server) (junk : Junk) (pinum : ℤ) (name : List UInt8) :
    Agree s junk junk pinum name := fun _ _ => Or.inr rfl

theorem sLookup_sameImage (pinum : ℤ) (name : List UInt8) :
    SameImage s (s.sLookup junk pinum name).1 := by
  by_cases hpinum : pinum < 0 ∨ pinum ≥ 4096
  · unfold sLookup
    rw [if_pos hpinum]
    exact .refl s
  · exact (sLookup_alike (by omega) name).sameImage

/-- `sLookup` answers the same for the same image. -/
theorem Hosts.sLookup_congr (h : Hosts s L T) (h' : Hosts s' L T) (hi : SameImage s s')
    (hagree : Agree s junk junk' pinum name) :
    (s'.sLookup junk' pinum name).2 = (s.sLookup junk pinum name).2 := by
  obtain ⟨hl, hr⟩ := h.serves
  by_cases hdir : ∃ k a : ℕ, pinum = k ∧ L.addr (.inode k) = some a ∧
      statType (slice s.disk.bytes a) = DIRECTORY ∧ 1 ≤ name.length ∧ name.length ≤ 60
  swap
  · rw [sLookup_of_not hl hdir, sLookup_of_not h'.serves.1 (by rw [hi.bytes]; exact hdir)]
  obtain ⟨k, a, rfl, ha, hd, hlen⟩ := hdir
  obtain ⟨es, hes⟩ := hr.not_none ha hd
  obtain ⟨a', ha', -, hholds, hne⟩ := h.directory hes
  obtain rfl := Option.some.inj (ha.symm.trans ha')
  rw [Server.sLookup_eq hl ha hd hholds hne hlen, Server.sLookup_eq h'.serves.1 ha (hi.bytes ▸ hd)
    (hi.bytes ▸ hholds) hne hlen, hi.bytes, hi.size, find_append, find_append]
  obtain hused | hstrays := hagree k rfl
  · cases hfind : find name (own s.disk.bytes (slice s.disk.bytes a)) with
    | none =>
      have hnot := (hholds.find_own_eq_none hl.image ha (List.ne_nil_of_length_pos hlen.1)).1 hfind
      exact absurd hused hnot
    | some e => rfl
  · rw [← h.strayMatch_eq ha, ← h.strayMatch_eq ha, hstrays]

/-! ### Creation -/

/-- When `sCreate` goes on to create the file, by the image. -/
theorem Hosts.enters_iff (h : Hosts s L T) : Enters s junk pinum type name ↔
    (type = 0 ∨ type = 1) ∧ (1 ≤ name.length ∧ name.length < 60) ∧
      (s.sLookup junk pinum name).2 < 0 ∧ ∃ k es, pinum = (k : ℕ) ∧ T.dirs k = some es ∧
        es.length < 14 * 64 := by
  obtain ⟨hl, hr⟩ := h.serves
  constructor
  · intro he
    obtain ⟨k, rfl⟩ := Int.eq_ofNat_of_zero_le he.range.1
    have hk := he.range.2
    have hload := (hl.readOnly.loadMem junk).1
    have hloc := he.used
    rw [hl.inodeArr_eq, Int.toNat_natCast, ne_eq, ref_eq_neg_one] at hloc
    obtain ⟨a, ha⟩ := Option.ne_none_iff_exists'.1 hloc
    have hinode := parent_eqTo hload.tables ha (by rw [hload.inodeArr_eq, ha, ref_some])
      (by omega) name
    have hdir := he.directory
    rw [statType_eq hinode] at hdir
    obtain ⟨es, hes⟩ := hr.not_none ha hdir
    have hsize := (hr.directory k a es ha hes).2.size
    have hroom := he.room
    rw [statSize_eq hinode, hsize] at hroom
    exact ⟨he.valid, he.length, he.absent, k, es, rfl, hes, by omega⟩
  · rintro ⟨htype, hlen, habsent, k, es, rfl, hes, hroom⟩
    exact h.enters hes hroom htype hlen habsent

/-- What `sCreate` answers if it does not go on to create the file. -/
theorem Hosts.sCreate_refused (h : Hosts s L T) (he : ¬ Enters s junk pinum type name)
    {y : Server × ℤ} (hok : s.sCreate junk pinum type name = .ok y) :
    SameImage s y.1 ∧ y.2 = if (type = 0 ∨ type = 1) ∧ name.length < 60 ∧
      0 ≤ (s.sLookup junk pinum name).2 then 0 else -1 := by
  have hl := h.serves.1
  have hfound : 0 ≤ (s.sLookup junk pinum name).2 → ∃ k a : ℕ, pinum = k ∧
      L.addr (.inode k) = some a ∧ statType (slice s.disk.bytes a) = DIRECTORY ∧
        1 ≤ name.length ∧ name.length ≤ 60 := fun hpos => by
    by_contra hnot
    rw [sLookup_of_not hl hnot] at hpos
    omega
  have hrange : 0 ≤ (s.sLookup junk pinum name).2 → 0 ≤ pinum ∧ pinum < 4096 ∧
      1 ≤ name.length ∧ s.inodeArr pinum.toNat ≠ -1 := fun hpos => by
    obtain ⟨k, a, rfl, ha, -, hlen, -⟩ := hfound hpos
    have hlt := hl.inode_lt ha
    refine ⟨by omega, by omega, hlen, ?_⟩
    rw [Int.toNat_natCast, hl.inodeArr_eq, ha, ref_some]
    omega
  unfold sCreate at hok
  dsimp only at hok
  split_ifs at hok with harg hlen hend hused hexists hdir hroom
  · refine Except.ok.inj hok ▸ ⟨.refl s, (if_neg ?_).symm⟩
    rintro ⟨hvalid, -, hpos⟩
    have := hrange hpos
    omega
  · refine Except.ok.inj hok ▸ ⟨.refl s, (if_neg ?_).symm⟩
    rintro ⟨-, hlt, hpos⟩
    have := hrange hpos
    omega
  · refine Except.ok.inj hok ▸ ⟨.refl s, (if_neg ?_).symm⟩
    rintro ⟨-, -, hpos⟩
    exact (hrange hpos).2.2.2 hused
  all_goals
    have halike : Alike (s.loadMem junk) (s.sLookup junk pinum name).1 :=
      sLookup_alike (by omega) name
  · exact Except.ok.inj hok ▸ ⟨halike.sameImage, (if_pos ⟨by omega, by omega, hexists⟩).symm⟩
  · exact Except.ok.inj hok ▸ ⟨(halike.read _ _ _).sameImage, (if_neg fun hc => hexists hc.2.2).symm⟩
  · exact Except.ok.inj hok ▸ ⟨(halike.read _ _ _).sameImage, (if_neg fun hc => hexists hc.2.2).symm⟩
  · exact absurd ⟨by omega, by omega, by omega, hused, by omega, not_not.1 hdir, not_le.1 hroom⟩ he

/-- A file with the name exists already. -/
theorem Hosts.sCreate_exists (h : Hosts s L T) (hvalid : type = 0 ∨ type = 1)
    (hlt : name.length < 60) (hfound : 0 ≤ (s.sLookup junk pinum name).2) :
    ∃ z, s.sCreate junk pinum type name = .ok z ∧ z.2 = 0 ∧ SameImage s z.1 := by
  have hl := h.serves.1
  obtain ⟨k, a, rfl, ha, -, hpos, -⟩ : ∃ k a : ℕ, pinum = k ∧ L.addr (.inode k) = some a ∧
      statType (slice s.disk.bytes a) = DIRECTORY ∧ 1 ≤ name.length ∧ name.length ≤ 60 := by
    by_contra hnot
    rw [sLookup_of_not hl hnot] at hfound
    omega
  have hk := hl.inode_lt ha
  have halike : Alike (s.loadMem junk) (s.sLookup junk k name).1 := sLookup_alike (by omega) name
  refine ⟨((s.sLookup junk k name).1, 0), ?_, rfl, halike.sameImage⟩
  have hused : ¬ s.inodeArr (k : ℤ).toNat = -1 := by
    rw [Int.toNat_natCast, hl.inodeArr_eq, ha, ref_some]
    omega
  unfold sCreate
  dsimp only
  rw [if_neg (by omega), if_neg (by omega), if_neg (by omega), if_neg hused, if_pos hfound]

/-- A request that does not create a file has a result in every state, unless its directory is that
behind the table of inodes. -/
theorem sCreate_total (he : ¬ Enters s junk pinum type name) {y : Server × ℤ}
    (hok : s'.sCreate junk' pinum type name = .ok y) :
    ∃ z, s.sCreate junk pinum type name = .ok z := by
  by_cases hpinum : pinum = 4096
  · unfold sCreate at hok ⊢
    dsimp only at hok ⊢
    split_ifs at hok ⊢ <;> exact ⟨_, rfl⟩
  · obtain ⟨t, r, hz, -⟩ := sCreate_of_not_enters he hpinum
    exact ⟨_, hz⟩

/-- **A `CREAT` that is sent again** finds the file that it created, if its name is printed as it
is. -/
theorem Hosts.sCreate_again (h : Hosts s L T) (h0 : 0 ∉ name)
    (hname : sprintf name [60] = some name) (hagree : Agree s junk junk' pinum name)
    {y : Server × ℤ} (hok : s.sCreate junk pinum type name = .ok y) :
    ∃ z, y.1.sCreate junk' pinum type name = .ok z ∧ z.2 = y.2 ∧ SameImage y.1 z.1 := by
  obtain ⟨he, hro⟩ | ⟨he, hzero, k, es, name', L', rfl, hes, hprint, hlt, hL', hinodes⟩ :=
    sCreate_represents h.serves h0 hok
  · obtain ⟨hi, hy⟩ := h.sCreate_refused he hok
    have h' := h.readOnly hro
    have hlookup := h.sLookup_congr h' hi hagree
    have he' : ¬ Enters y.1 junk' pinum type name := by
      rw [h'.enters_iff, hlookup, ← h.enters_iff]
      exact he
    obtain ⟨z, hz⟩ := sCreate_total he' hok
    obtain ⟨hi', hz'⟩ := h'.sCreate_refused he' hz
    rw [hlookup, ← hy] at hz'
    exact ⟨z, hz, hz', hi'⟩
  · obtain rfl : name' = name := Option.some.inj (hprint.symm.trans hname)
    have h' := h.created hes hL' hinodes
    -- the new entry is found
    have hself : (T.create k name' type).dirs k = some (es ++ [(name', T.count)]) :=
      Namespace.create_dirs_self _ _ hes (h.serves.2.bounded k es hes) _ _
    obtain ⟨a, ha, -, hholds, -⟩ := h'.directory hself
    have hused : InUse y.1.disk.bytes k name' T.count :=
      (hholds.inUse_iff hL'.1.image ha).2 ⟨_, List.mem_append_right _ List.mem_cons_self, rfl⟩
    obtain ⟨-, i, hi, -, hfound⟩ | ⟨hnot, -⟩ :=
      h'.sLookup_eq junk' hself ⟨he.length.1, he.length.2.le⟩
    · obtain ⟨z, hz, hz0, hi'⟩ := h'.sCreate_exists he.valid hlt (hfound ▸ hi)
      exact ⟨z, hz, hz0.trans hzero.symm, hi'⟩
    · exact absurd ⟨_, hused⟩ hnot

/-! ### Writing -/

variable {inum blk : ℤ} {buff : Bytes}

/-- The request names a block of a regular file. -/
def Writes (m : Bytes) (L : Layout) (inum blk : ℤ) : Prop :=
  ∃ k b a : ℕ, inum = k ∧ blk = b ∧ b < 14 ∧ L.addr (.inode k) = some a ∧
    statType (slice m a) = REGULAR_FILE

/-- `sWrite` refuses all other requests. -/
theorem sWrite_refused (h : Loaded s L n p) (hnot : ¬ Writes s.disk.bytes L inum blk)
    (buff : Bytes) (junk : Junk) :
    ∃ t, s.sWrite junk inum buff blk = .ok (t, -1) ∧ Loaded t L n p ∧ SameImage s t := by
  have hload := (h.readOnly.loadMem junk).1
  have hl := Alike.refl (s.loadMem junk)
  have hsame : ∀ t, Alike (s.loadMem junk) t → Loaded t L n p ∧ SameImage s t := fun t ht =>
    ⟨hload.congr ht.bytes ht.size ht.chkpt ht.iArr, ht.sameImage⟩
  unfold sWrite
  dsimp only
  by_cases hinum : inum ≥ 4096 ∨ inum < 0
  · exact ⟨s, if_pos hinum, h, .refl s⟩
  by_cases hblk : blk > 13 ∨ blk < 0
  · exact ⟨s, by rw [if_neg hinum, if_pos hblk], h, .refl s⟩
  rw [if_neg hinum, if_neg hblk, hload.inodeArr_eq]
  obtain ⟨k, rfl⟩ := Int.eq_ofNat_of_zero_le (not_lt.1 (not_or.1 hinum).2)
  obtain ⟨b, rfl⟩ := Int.eq_ofNat_of_zero_le (not_lt.1 (not_or.1 hblk).2)
  rw [Int.toNat_natCast]
  cases ha : L.addr (.inode k) with
  | none => exact ⟨s.loadMem junk, by rw [ref_none, if_pos rfl], hsame _ hl⟩
  | some a =>
    have hinode := hload.read_inode ha (junk .inode)
    rw [loadMem_bytes] at hinode
    have hloc : ¬ (a : ℤ) = -1 := by omega
    have hreg : statType (((s.loadMem junk).lseek a).read inodeSize (junk .inode)).2 ≠
        REGULAR_FILE := fun hreg =>
      hnot ⟨k, b, a, rfl, rfl, by omega, ha, (statType_eq hinode).symm.trans hreg⟩
    exact ⟨_, by rw [ref_some, if_neg hloc, if_pos hreg], hsame _ (hl.read _ _ _)⟩

theorem sWrite_eq_zero (h : Loaded s L n p) (hwrites : Writes s.disk.bytes L inum blk)
    {y : Server × ℤ} (hok : s.sWrite junk inum buff blk = .ok y) : y.2 = 0 := by
  obtain ⟨k, b, a, rfl, rfl, hb, ha, hreg⟩ := hwrites
  have hload := (h.readOnly.loadMem junk).1
  have hk := h.inode_lt ha
  have hinode := hload.read_inode ha (junk .inode)
  rw [loadMem_bytes] at hinode
  have hloc : (s.loadMem junk).inodeArr k = a := by rw [hload.inodeArr_eq, ha, ref_some]
  unfold sWrite at hok
  simp only [Int.toNat_natCast, hloc] at hok
  split at hok
  · omega
  split at hok
  · omega
  split at hok
  · omega
  split at hok
  · rename_i htype
    exact absurd ((statType_eq hinode).trans hreg) htype
  · split at hok
    all_goals
      obtain ⟨t, -, hok⟩ := bind_eq_ok.1 hok
      rw [← Except.ok.inj hok]

/-- The image after a block was written. -/
theorem writes_of_written {m m' : Bytes} {L' : Layout} {b x : ℕ} (himage : Image m' L' n p)
    (ha : L'.addr (.inode k) = some a) (hb : b < 14)
    (hw : Written m m' L k a b x buff) : L'.addr (.block k b) = some x := by
  have hblk := himage.block k a ha b hb
  rw [hw.block] at hblk
  exact ref_eq_natCast.1 hblk.symm

variable (junk') in
/-- **A `WRITE` that is sent again** writes what is there already. -/
theorem Hosts.sWrite_again (h : Hosts s L T) {y : Server × ℤ}
    (hok : s.sWrite junk inum buff blk = .ok y) :
    ∃ z, y.1.sWrite junk' inum buff blk = .ok z ∧ z.2 = y.2 ∧ SameImage y.1 z.1 := by
  have hl := h.serves.1
  by_cases hwrites : Writes s.disk.bytes L inum blk
  swap
  · obtain ⟨t, ht, hlt, hi⟩ := sWrite_refused hl hwrites buff junk
    obtain rfl : (t, -1) = y := Except.ok.inj (ht.symm.trans hok)
    rw [← hi.bytes] at hwrites
    obtain ⟨z, hz, -, hiz⟩ := sWrite_refused hlt hwrites buff junk'
    exact ⟨_, hz, rfl, hiz⟩
  have hzero := sWrite_eq_zero hl hwrites hok
  obtain ⟨hneg, -⟩ | ⟨-, k, b, a, x, rfl, rfl, hk, hb, ha, hreg, hw⟩ := sWrite_written hl hok
  · omega
  obtain ⟨L', hl', hevolves, -⟩ := (sWrite_spec hl junk _ buff _).of_ok hok
  have ha' := hevolves.inode k a ha
  have hx := writes_of_written hl'.image ha' hb hw
  obtain ⟨z, i, hz, hz0, hi, hsize, hbytes⟩ :=
    sWrite_of_block hl' ha' (hw.type_eq.trans hreg) hb hx junk' buff
  refine ⟨z, hz, hz0.trans hzero.symm, ?_, hsize⟩
  -- the inode and the block contain already what is written
  obtain ⟨i₀, hi₀⟩ := hw.size
  have hword : EqTo 4 (ofInt ((b + 1) * 4096)) (slice i 4) := fun j hj => by
    have hnew := hi (4 + j) (by simp only [inodeSize]; omega)
    rw [hi₀ (4 + j) (by simp only [inodeSize]; omega)] at hnew
    rw [slice, hnew]
    exact (patch_add hj).symm
  have hsame : setSize i ((b + 1) * 4096) = i := patch_self hword
  rw [hbytes, hsame, patch_self hi, patch_self hw.content.symm]

/-! ### Removal -/

variable {del : Server → Junk → ℤ → Except Stop Server}

theorem unlinkLoop_alike (name : List UInt8) (pInode : Bytes) (is : List ℕ) {s' : Server}
    (h : Alike s s') (dirBlk : Bytes) : Alike s (unlinkLoop name pInode is s' dirBlk).1 := by
  induction is generalizing s' dirBlk with
  | nil => exact h
  | cons i is ih =>
    have hread := h.read (blockArr pInode i) blockSize dirBlk
    rw [unlinkLoop_cons name pInode i is s' dirBlk rfl]
    split_ifs
    · cases (List.range 64).find? fun j => cstr (blockSize - 64 * j)
        (slice ((s'.lseek (blockArr pInode i)).read blockSize dirBlk).2 (64 * j)) = name with
      | none => exact ih hread _
      | some j => exact hread
    · exact ih h dirBlk

/-- An `UNLINK` that is refused leaves the image as it is. -/
theorem unlinkWith_alike {t : Server} (hok : s.unlinkWith del junk pinum name = .ok (t, -1)) :
    Alike (s.loadMem junk) t := by
  have hl := Alike.refl (s.loadMem junk)
  unfold unlinkWith at hok
  dsimp only at hok
  split_ifs at hok
  · exact (Prod.mk.inj (Except.ok.inj hok)).1 ▸ hl
  · exact (Prod.mk.inj (Except.ok.inj hok)).1 ▸ hl
  · exact (Prod.mk.inj (Except.ok.inj hok)).1 ▸ hl
  · exact (Prod.mk.inj (Except.ok.inj hok)).1 ▸ hl
  · exact (Prod.mk.inj (Except.ok.inj hok)).1 ▸ hl.read _ _ _
  have hloop := unlinkLoop_alike name
    (((s.loadMem junk).lseek ((s.loadMem junk).inodeArr pinum.toNat)).read inodeSize
      (junk .inode)).2 (List.range 14) (hl.read ((s.loadMem junk).inodeArr pinum.toNat) inodeSize
      (junk .inode)) (junk .dirBlk)
  split at hok
  · next u hu =>
    rw [hu] at hloop
    exact (Prod.mk.inj (Except.ok.inj hok)).1 ▸ hloop
  · next u dirBlk loc ind hu =>
    rw [hu] at hloop
    unfold removeEntryWith at hok
    dsimp only at hok
    split_ifs at hok
    · exact (Prod.mk.inj (Except.ok.inj hok)).1 ▸ hloop.read _ _ _
    · obtain ⟨v, -, hv⟩ := bind_eq_ok.1 hok
      cases (Prod.mk.inj (Except.ok.inj hv)).2

/-- **An `UNLINK` that has nothing to remove** is refused. -/
theorem Hosts.unlinkWith_refused (h : Hosts s L T) (hsafe : s.SafeUnlink pinum name)
    (del : Server → Junk → ℤ → Except Stop Server) (junk : Junk) :
    ∃ t, s.unlinkWith del junk pinum name = .ok (t, -1) := by
  obtain ⟨hl, hr⟩ := h.serves
  have hload := (hl.readOnly.loadMem junk).1
  by_cases hpinum : pinum < 0 ∨ pinum > 4096
  · exact ⟨s.loadMem junk, if_pos hpinum⟩
  have hend := hsafe.1
  obtain ⟨k, rfl⟩ := Int.eq_ofNat_of_zero_le (not_lt.1 (not_or.1 hpinum).1)
  by_cases hdots : name = [46] ∨ name = [46, 46]
  · exact unlinkWith_dots del s junk (by omega) hdots
  obtain ⟨hdot, hdotdot⟩ := not_or.1 hdots
  by_cases hdir : ∃ a, L.addr (.inode k) = some a ∧
      statType (slice s.disk.bytes a) = DIRECTORY ∧ name.length ≤ 60
  · obtain ⟨a, ha, hd, hlen⟩ := hdir
    obtain ⟨es, hes⟩ := hr.not_none ha hd
    obtain ⟨-, hnone⟩ | ⟨b, j, d, -, -, hloc, hblk, -⟩ :=
      unlinkWith_directory junk hl ha hd (hr.directory k a es ha hes).2 ⟨hdot, hdotdot⟩ hlen del
    · exact hnone
    have he : EntryOf s.disk.bytes k name _ := hl.image.entryOf_iff.2 ⟨a, ha, hd, b, j, hloc, rfl⟩
    obtain ⟨n, hn, hentries⟩ := hsafe.2 k _ rfl hdot hdotdot he
    exact h.unlinkWith_hasEntries junk (hn ▸ he) ⟨hdot, hdotdot⟩ hentries del
  · unfold unlinkWith
    dsimp only
    rw [if_neg hpinum, if_neg hend, Int.toNat_natCast, hload.inodeArr_eq]
    cases ha : L.addr (.inode k) with
    | none => exact ⟨_, by rw [ref_none, if_pos rfl]⟩
    | some a =>
      have hinode := hload.read_inode ha (junk .inode)
      rw [loadMem_bytes] at hinode
      have hloc : ¬ (a : ℤ) = -1 := by omega
      rw [ref_some, if_neg hloc, if_neg (not_or.2 ⟨hdotdot, hdot⟩)]
      by_cases hlen : name.length > 60
      · exact ⟨_, if_pos hlen⟩
      · rw [if_neg hlen, if_pos]
        · exact ⟨_, rfl⟩
        · exact fun hd => hdir ⟨a, ha, (statType_eq hinode).symm.trans hd, by omega⟩

/-- An `UNLINK` of a name that its directory does not have is refused. -/
theorem unlinkWith_absent (h : Tables (s.loadMem junk) L p) (ha : L.addr (.inode k) = some a)
    (hloc : (s.loadMem junk).inodeArr k = a) (hk : k < 4096)
    (hblocks : ∀ b < 14, 0 ≤ blockArr (slice s.disk.bytes a) b →
      (blockArr (slice s.disk.bytes a) b).toNat + blockSize ≤ s.disk.size ∧ ∀ j < 64,
        (entryName (slice s.disk.bytes (blockArr (slice s.disk.bytes a) b).toNat) j).length < 60)
    (hnone : locate s.disk.bytes name (slice s.disk.bytes a) (List.range 14) = none)
    (del : Server → Junk → ℤ → Except Stop Server) :
    ∃ t, s.unlinkWith del junk k name = .ok (t, -1) := by
  have hinode : EqTo inodeSize (((s.loadMem junk).lseek a).read inodeSize (junk .inode)).2
      (slice (s.loadMem junk).disk.bytes a) :=
    read_eqTo ((L.within _ _ ha).trans h.size) (junk .inode)
  rw [loadMem_bytes] at hinode
  have halike : Alike (s.loadMem junk)
      (((s.loadMem junk).lseek a).read inodeSize (junk .inode)).1 := (Alike.refl _).read _ _ _
  unfold unlinkWith
  dsimp only
  rw [if_neg (by omega), if_neg (by omega), Int.toNat_natCast, hloc, if_neg (by omega)]
  generalize ((s.loadMem junk).lseek a).read inodeSize (junk .inode) = r at hinode halike ⊢
  have hfit : ∀ b ∈ List.range 14, 0 ≤ blockArr r.2 b →
      (blockArr r.2 b).toNat + blockSize ≤ (s.loadMem junk).disk.size ∧ ∀ j < 64,
        (entryName (slice (s.loadMem junk).disk.bytes (blockArr r.2 b).toNat) j).length < 60 := by
    intro b hb hpos
    rw [blockArr_eq hinode (List.mem_range.1 hb)] at hpos ⊢
    rw [loadMem_size, loadMem_bytes]
    exact hblocks b (List.mem_range.1 hb) hpos
  obtain ⟨-, ⟨-, hloop⟩ | ⟨b, j, d, hsome, -⟩⟩ := unlinkLoop_eq halike hfit (junk .dirBlk) name
  · generalize unlinkLoop name r.2 (List.range 14) r.1 (junk .dirBlk) = u at hloop ⊢
    obtain ⟨t, found⟩ := u
    obtain rfl : found = none := hloop
    split_ifs <;> exact ⟨_, rfl⟩
  · rw [loadMem_bytes, locate_congr name fun b hb => blockArr_eq hinode (List.mem_range.1 hb),
      hnone] at hsome
    cases hsome

/-- The directory `k` has at most one entry with the name. -/
def Once (m : Bytes) (k : ℕ) (name : List UInt8) : Prop :=
  ∀ a q q' i i', inodeAddr m k = some ((a : ℕ) : ℤ) → Taken m a q (name, i) →
    Taken m a q' (name, i') → q = q'

/-- The slots that a list of entries takes. -/
theorem taken_iff {m : Bytes} (himage : Image m L n p) (ha : L.addr (.inode k) = some a)
    (h : Holds m a es) {q : ℕ} {i : ℤ} :
    Taken m a q (name, i) ↔ ∃ num : ℕ, es[q]? = some (name, num) ∧ i = num := by
  have hlen := h.length_le
  constructor
  · rintro ⟨hq, hslot, hi⟩
    rw [slotAt] at hslot
    split_ifs at hslot with hblock
    obtain ⟨x, hx, -⟩ := h.exists_block himage ha ((h.alloc (q / 64) (by omega)).1 hblock)
    rw [hx, Int.toNat_natCast, h.slots _ (by omega) x hx _ (Nat.mod_lt _ (by omega)),
      Nat.div_add_mod] at hslot
    exact (slot_eq_iff hi).1 (Option.some.inj hslot)
  · rintro ⟨num, hq, rfl⟩
    obtain ⟨hlt, -⟩ := List.getElem?_eq_some_iff.1 hq
    obtain ⟨x, hx, -⟩ := h.exists_block himage ha (b := q / 64) (by omega)
    have hslot := h.slots (q / 64) (by omega) x hx (q % 64) (Nat.mod_lt _ (by omega))
    rw [Nat.div_add_mod, hq] at hslot
    refine ⟨by omega, ?_, by simp only; omega⟩
    rw [slotAt, if_neg (by omega), hx, Int.toNat_natCast, hslot]
    rfl

/-- A directory has a name at most once iff its list of entries does. -/
theorem Hosts.once_iff (h : Hosts s L T) (hes : T.dirs k = some es) :
    Once s.disk.bytes k name ↔ ∀ q q' num num' : ℕ, es[q]? = some (name, num) →
      es[q']? = some (name, num') → q = q' := by
  have himage := h.serves.1.image
  obtain ⟨a, ha, -, hholds, -⟩ := h.directory hes
  constructor
  · intro honce q q' num num' hq hq'
    exact honce a q q' num num' (himage.inodeAddr_eq_some.2 ha)
      ((taken_iff himage ha hholds).2 ⟨num, hq, rfl⟩)
      ((taken_iff himage ha hholds).2 ⟨num', hq', rfl⟩)
  · intro honce a' q q' i i' ha' hq hq'
    obtain rfl := Option.some.inj (ha.symm.trans (himage.inodeAddr_eq_some.1 ha'))
    obtain ⟨num, hnum, -⟩ := (taken_iff himage ha hholds).1 hq
    obtain ⟨num', hnum', -⟩ := (taken_iff himage ha hholds).1 hq'
    exact honce q q' num num' hnum hnum'

/-- An `UNLINK` with a result found an entry with a number. -/
theorem Hosts.inum_of_unlinkWith (h : Hosts s L T) (hdot : name ≠ [46]) (hdotdot : name ≠ [46, 46])
    {i : ℤ} (he : EntryOf s.disk.bytes k name i) {y : Server × ℤ}
    (hok : s.unlinkWith del junk k name = .ok y) : ∃ n : ℕ, i = n := by
  obtain ⟨hl, hr⟩ := h.serves
  obtain ⟨a, ha, hd, b, j, hloc, rfl⟩ := hl.image.entryOf_iff.1 he
  obtain ⟨es, hes⟩ := hr.not_none ha hd
  have hlen : name.length ≤ 60 := by
    rw [← (locate_eq_some hloc).2.2.2]
    exact length_cstr_le _ _
  obtain ⟨hnone, -⟩ | ⟨b', j', d, pInode, t, hsome, hblk, -, -, hunlink⟩ :=
    unlinkWith_directory junk hl ha hd (hr.directory k a es ha hes).2 ⟨hdot, hdotdot⟩ hlen del
  · rw [hloc] at hnone
    cases hnone
  obtain ⟨rfl, rfl⟩ := Prod.mk.inj (Option.some.inj (hloc.symm.trans hsome))
  have hinum : entryInum d j = _ := congrArg Prod.snd (entry_eq hblk (locate_eq_some hloc).2.2.1)
  refine Int.eq_ofNat_of_zero_le (not_lt.1 fun hneg => ?_)
  rw [hunlink] at hok
  unfold removeEntryWith at hok
  dsimp only at hok
  rw [if_pos (Or.inl (hinum.trans_lt hneg))] at hok
  cases hok

/-- An `UNLINK` that `sUnlink` does not refuse found the entry of a file that it takes for empty. -/
theorem Hosts.entry_of_unlinkWith (h : Hosts s L T) (hsafe : ¬ s.SafeUnlink pinum name)
    {y : Server × ℤ} (hok : s.unlinkWith del junk pinum name = .ok y) :
    ∃ k n : ℕ, pinum = k ∧ name ≠ [46] ∧ name ≠ [46, 46] ∧ EntryOf s.disk.bytes k name n ∧
      ¬ HasEntries s.disk.bytes n := by
  have hpinum : pinum ≠ 4096 := by
    rintro rfl
    unfold unlinkWith at hok
    dsimp only at hok
    rw [if_neg (by omega), if_pos rfl] at hok
    cases hok
  obtain ⟨k, i, rfl, hdot, hdotdot, he, hnot⟩ : ∃ (k : ℕ) (i : ℤ), pinum = k ∧ name ≠ [46] ∧
      name ≠ [46, 46] ∧ EntryOf s.disk.bytes k name i ∧
        ¬ ∃ n : ℕ, i = n ∧ HasEntries s.disk.bytes n := by
    by_contra hall
    refine hsafe ⟨hpinum, fun k i hk hdot hdotdot he => ?_⟩
    by_contra hnot
    exact hall ⟨k, i, hk, hdot, hdotdot, he, hnot⟩
  obtain ⟨n, rfl⟩ := h.inum_of_unlinkWith hdot hdotdot he hok
  exact ⟨k, n, rfl, hdot, hdotdot, he, fun hentries => hnot ⟨n, rfl, hentries⟩⟩

/-- **An `UNLINK` that removes an entry**, if `delInode` has no effect where it is undefined, does not
find it again. -/
theorem Hosts.unlinkWith_removes (h : Hosts s L T) (hsafe : ¬ s.SafeUnlink pinum name)
    (honce : ∀ k : ℕ, pinum = k → Once s.disk.bytes k name) {y : Server × ℤ}
    (hok : s.unlinkWith delNothing junk pinum name = .ok y) (junk' : Junk) :
    y.2 = 0 ∧ ∃ t, y.1.unlinkWith delNothing junk' pinum name = .ok (t, -1) := by
  obtain ⟨hl, hr⟩ := h.serves
  obtain ⟨k, n, rfl, hdot, hdotdot, he, hempty⟩ := h.entry_of_unlinkWith hsafe hok
  obtain ⟨s', a, b, j, x, es, hunlink, hcleared⟩ :=
    h.unlinkWith_cleared he ⟨hdot, hdotdot⟩ hempty junk
  obtain rfl : (s', 0) = y := Except.ok.inj (hunlink.symm.trans hok)
  obtain ⟨ha, hes, hj, hslot, htables, hx, hframe, ⟨inode, hold, hnew⟩, hentries⟩ := id hcleared
  have hholds := (hr.directory k a es ha hes).2
  have hk := hl.inode_lt ha
  have hiArr' : (s'.loadMem junk').inodeArr k = a := by
    rw [inodeArr, hcleared.iArr h, ← inodeArr, hl.inodeArr_eq, ha, ref_some]
  -- the slots of the directory afterwards
  have hslots : ∀ b' < 14, 0 ≤ blockArr (slice s'.disk.bytes a) b' →
      (blockArr (slice s'.disk.bytes a) b').toNat + blockSize ≤ s'.disk.size ∧ ∀ j' < 64,
        entry (slice s'.disk.bytes (blockArr (slice s'.disk.bytes a) b').toNat) j' =
          if b' = b ∧ j' = j then ([], -1) else slot es[64 * b' + j']? := by
    intro b' hb' hpos
    rw [blockArr_eq hnew hb', blockArr_setSize, blockArr_eq hold hb'] at hpos ⊢
    obtain ⟨x', hx', haddr⟩ :=
      hholds.exists_block hl.image ha ((hholds.alloc b' hb').1 (by omega))
    rw [hx', Int.toNat_natCast]
    refine ⟨(L.within _ _ haddr).trans htables.size, fun j' hj' => ?_⟩
    have hbefore := hholds.slots b' hb' x' hx' j' hj'
    rcases eq_or_ne b' b with rfl | hne
    · obtain rfl := Option.some.inj (hx.symm.trans haddr)
      rw [entry_eq hentries hj', entry_setEntry (by decide) List.not_mem_nil (by decide), hbefore]
      simp only [true_and]
    · have hkept := hframe _ _ (by simp [hne]) haddr
      rw [if_neg fun hb => hne hb.1, ← hbefore]
      exact entry_eq hkept hj'
  refine ⟨rfl, unlinkWith_absent (htables.loadMem junk') ha hiArr' (by omega)
    (fun b' hb' hpos => ?_) (locate_eq_none.2 fun b' hb' hpos e' he' => ?_) _⟩
  · refine ⟨(hslots b' hb' hpos).1, fun j' hj' => ?_⟩
    have hname := congrArg Prod.fst ((hslots b' hb' hpos).2 j' hj')
    change entryName _ j' = _ at hname
    rw [hname]
    split_ifs
    · exact Nat.zero_lt_of_lt (by decide : 0 < 60)
    · cases hslot' : es[64 * b' + j']? with
      | none => exact Nat.zero_lt_of_lt (by decide : 0 < 60)
      | some e' => exact (hholds.names e' (List.mem_of_getElem? hslot')).2
  · have hne := (hholds.names _ (List.mem_of_getElem? hslot)).1
    obtain ⟨j', hj', rfl⟩ := mem_entries.1 he'
    rw [(hslots b' (List.mem_range.1 hb') hpos).2 j' hj']
    split_ifs with hsame
    · exact hne.symm
    · cases hslot' : es[64 * b' + j']? with
      | none => exact hne.symm
      | some e' =>
        rintro rfl
        have hq := (h.once_iff hes).1 (honce k rfl) _ _ _ _ hslot' hslot
        omega

end Server

/-! ### All requests -/

/-- **A request that is sent again** gets the same answer and leaves the image as it is; only an
`UNLINK` that removed an entry is answered with -1 the second time.  The name of a new file is its
own text as a format, the searches do not depend on uninitialised variables, a name that is removed is
not there twice, and `delInode` has no effect where it is undefined. -/
theorem resent {junk₀ junk junk' : Junk} {ls : List (Msg × Junk)} {s : Server} {msg : Msg}
    (h : server.run (fresh junk₀) ls = some s)
    (hname : msg.lib = .CREAT → sprintf msg.cname [60] = some msg.cname)
    (hagree : msg.lib = .LOOKUP ∨ msg.lib = .CREAT → s.Agree junk junk' msg.pinum msg.cname)
    (honce : msg.lib = .UNLINK → ∀ k : ℕ, msg.pinum = k → Server.Once s.disk.bytes k msg.cname)
    {y : Server × Msg} (hok : s.handleWith Server.delNothing junk msg = .ok y) :
    ∃ z, y.1.handleWith Server.delNothing junk' msg = .ok z ∧ y.1.SameImage z.1 ∧
      z.2 = if msg.lib = .UNLINK then { y.2 with returnNum := -1 } else y.2 := by
  obtain ⟨L, T, hs⟩ := Server.hosts_of_run h
  have hl := hs.serves.1
  unfold Server.handleWith at hok ⊢
  cases hlib : msg.lib with
  | INIT =>
    rw [if_neg (by simp [hlib])] at hok ⊢
    simp only [Server.handle, hlib] at hok ⊢
    rw [← Except.ok.inj hok]
    refine ⟨_, rfl, ⟨?_, ?_⟩, by simp⟩
    · simp only [Server.loadMem_bytes]
    · simp only [Server.loadMem_size]
  | LOOKUP =>
    rw [if_neg (by simp [hlib])] at hok ⊢
    simp only [Server.handle, hlib] at hok ⊢
    rw [← Except.ok.inj hok]
    -- a search leaves the image as it is, and so finds the same again
    have h' : (s.sLookup junk msg.pinum msg.cname).1.Hosts L T :=
      hs.readOnly (Server.sLookup_readOnly hl _ _)
    refine ⟨_, rfl, Server.sLookup_sameImage _ _, ?_⟩
    simp [hs.sLookup_congr h' (Server.sLookup_sameImage _ _) (hagree (Or.inl hlib))]
  | STAT =>
    rw [if_neg (by simp [hlib])] at hok ⊢
    simp only [Server.handle, hlib] at hok ⊢
    rw [← Except.ok.inj hok]
    have hl' : (s.sStat junk msg.inum (msg.statType, msg.statSize)).1.Loaded L _ _ :=
      (Server.sStat_readOnly hl _ _).1
    refine ⟨_, rfl, Server.sStat_sameImage _ _, ?_⟩
    simp [Server.sStat_congr junk junk' hl hl' (Server.sStat_sameImage _ _)]
  | READ =>
    rw [if_neg (by simp [hlib])] at hok ⊢
    simp only [Server.handle, hlib] at hok ⊢
    rw [← Except.ok.inj hok]
    have hl' : (s.sRead junk msg.inum msg.buffer msg.block).1.Loaded L _ _ :=
      (Server.sRead_readOnly hl _ _ _).1
    refine ⟨_, rfl, Server.sRead_sameImage _ _ _, ?_⟩
    simp [Server.sRead_congr junk junk' hl hl' (Server.sRead_sameImage _ _ _)]
  | WRITE =>
    rw [if_neg (by simp [hlib])] at hok ⊢
    simp only [Server.handle, hlib] at hok ⊢
    obtain ⟨x, hx, rfl⟩ := Server.map_eq_ok.1 hok
    obtain ⟨z, hz, hz2, hi⟩ := hs.sWrite_again junk' hx
    exact ⟨_, Server.map_eq_ok.2 ⟨z, hz, rfl⟩, hi, by simp [hz2]⟩
  | CREAT =>
    rw [if_neg (by simp [hlib])] at hok ⊢
    simp only [Server.handle, hlib] at hok ⊢
    obtain ⟨x, hx, rfl⟩ := Server.map_eq_ok.1 hok
    obtain ⟨z, hz, hz2, hi⟩ := hs.sCreate_again (zero_notMem_cstr _ _) (hname hlib)
      (hagree (Or.inr hlib)) hx
    exact ⟨_, Server.map_eq_ok.2 ⟨z, hz, rfl⟩, hi, by simp [hz2]⟩
  | UNLINK =>
    rw [if_pos hlib] at hok
    rw [if_pos rfl]
    obtain ⟨x, hx, rfl⟩ := Server.map_eq_ok.1 hok
    -- what was refused is refused again; what was removed is not there any more
    by_cases hsafe : s.SafeUnlink msg.pinum msg.cname
    · obtain ⟨t, ht⟩ := hs.unlinkWith_refused hsafe Server.delNothing junk
      obtain rfl : (t, -1) = x := Except.ok.inj (ht.symm.trans hx)
      have halike := Server.unlinkWith_alike ht
      have hload := (hl.readOnly.loadMem junk).1
      have h' := hs.readOnly ⟨hload.congr halike.bytes halike.size halike.chkpt halike.iArr,
        halike.sameImage.bytes⟩
      obtain ⟨z, hz⟩ := h'.unlinkWith_refused
        (show t.SafeUnlink msg.pinum msg.cname by
          unfold Server.SafeUnlink
          rw [halike.sameImage.bytes]
          exact hsafe) Server.delNothing junk'
      exact ⟨_, Server.map_eq_ok.2 ⟨_, hz, rfl⟩, (Server.unlinkWith_alike hz).sameImage,
        by simp [hlib]⟩
    · obtain ⟨-, z, hz⟩ := hs.unlinkWith_removes hsafe (honce hlib) hx junk'
      exact ⟨_, Server.map_eq_ok.2 ⟨_, hz, rfl⟩, (Server.unlinkWith_alike hz).sameImage,
        by simp [hlib]⟩
  | SHUTDOWN =>
    rw [if_neg (by simp [hlib])] at hok
    simp only [Server.handle, hlib] at hok
    cases hok

/-- A `CREAT` of a file in a new image is sent twice. -/
theorem resent_creat : ∃ y z, (fresh fun _ _ => 0).handleWith Server.delNothing (fun _ _ => 0)
      (message .CREAT) = .ok y ∧ y.1.handleWith Server.delNothing (fun _ _ => 0) (message .CREAT) =
      .ok z ∧ y.1.SameImage z.1 ∧ z.2 = y.2 := by
  have hcname : (message .CREAT).cname = [102] := by decide +kernel
  obtain ⟨s, L, hcreate, -⟩ := fresh_create [102] 1 (by decide) (by decide) (Or.inr rfl)
  obtain ⟨y, hok⟩ : ∃ y, (fresh fun _ _ => 0).handleWith Server.delNothing (fun _ _ => 0)
      (message .CREAT) = .ok y := by
    unfold Server.handleWith
    rw [if_neg (by decide)]
    refine ⟨_, Server.handle_of_sCreate rfl (y := (s, 0)) ?_⟩
    rw [hcname]
    exact hcreate
  have hrun : server.run (fresh fun _ _ => 0) [] = some (fresh fun _ _ => 0) := rfl
  obtain ⟨z, hz, hi, hz2⟩ := resent hrun (fun _ => by rw [hcname]; decide)
    (fun _ => Server.agree_self _ _ _ _) (fun hlib => by cases hlib) hok
  exact ⟨y, z, hok, hz, hi, hz2⟩

/-- **An `UNLINK` that is sent twice** succeeds first and fails then. -/
theorem unlink_resent : ∃ s msg y z, server.run (fresh fun _ _ => 0) creation = some s ∧
    (Call.MFS_Unlink 0 (ofCstr [102])).msg (message .INIT) = some msg ∧
    s.handleWith Server.delNothing (fun _ _ => 0) msg = .ok y ∧
    y.1.handleWith Server.delNothing (fun _ _ => 0) msg = .ok z ∧
    y.2.returnNum = 0 ∧ z.2.returnNum = -1 := by
  obtain ⟨s, L, hrun, h, he, hempty⟩ := created_file
  have hprint : sprintf (stringAt (ofCstr [102])) [] = some [102] := by
    rw [stringAt_ofCstr (by decide) (by decide)]
    decide
  obtain ⟨msg, hmsg, hlib, hpinum, hcname⟩ := msg_unlink hprint (by decide) (by decide) 0
    (message .INIT)
  have hes : (Names.create (Namespace.root [46] [46, 46]) 0 [102] 1).dirs 0 =
      some [([46], 0), ([46, 46], 0), ([102], 1)] := rfl
  have honce : Server.Once s.disk.bytes 0 [102] := (h.once_iff hes).2 fun _ _ _ _ hq hq' =>
    eq_of_name (by decide) hq' hq rfl
  have hsafe : ¬ s.SafeUnlink (0 : ℕ) [102] := fun hsafe => by
    obtain ⟨n, hn, hentries⟩ := hsafe.2 0 _ rfl (by decide) (by decide) he
    obtain rfl := Nat.cast_inj.1 hn
    exact hempty hentries
  obtain ⟨s', a, b, j, x, es, hunlink, -⟩ := h.unlinkWith_cleared he (by decide) hempty fun _ _ => 0
  obtain ⟨-, t, ht⟩ := h.unlinkWith_removes hsafe
    (fun k hk => Nat.cast_inj.1 hk ▸ honce) hunlink fun _ _ => 0
  rw [← hcname, show ((0 : ℕ) : ℤ) = msg.pinum from hpinum.symm] at hunlink ht
  refine ⟨s, msg, (s', { msg with returnNum := 0 }), (t, { msg with returnNum := -1 }), hrun, hmsg,
    ?_, ?_, rfl, rfl⟩
  · unfold Server.handleWith
    rw [if_pos hlib, hunlink]
    rfl
  · unfold Server.handleWith
    rw [if_pos hlib, ht]
    rfl

end Mfs

end OperatingSystems

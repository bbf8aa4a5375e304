import OperatingSystems.Mfs.Resending

/-!
# What a request does

The three things that a request with a result can do to a reachable image: it leaves it as it is,
writes a block of a regular file, or creates a file.

* `Server.Outcome` : these cases, with what is known in each.
* `Server.Hosts.outcome` : **every request has one of these outcomes**.
* `Server.Loaded.sStat_eq` : what `sStat` answers for a file.
-/

namespace OperatingSystems

namespace Mfs

open Bytes

namespace Server

variable {s s' : Server} {L : Layout} {T : Names} {n p k a : ℕ} {junk : Junk} {msg : Msg}
  {y : Server × Msg}

/-- What a request with the result `y` does to the image with the namespace `T`. -/
inductive Outcome (s : Server) (L : Layout) (T : Names) (junk : Junk) (msg : Msg)
    (y : Server × Msg) : Prop where
  /-- The image stays as it is. -/
  | kept (hosts : Hosts y.1 L T) (bytes : y.1.disk.bytes = s.disk.bytes)
      (refused : msg.lib = .WRITE →
        y.2.returnNum = -1 ∧ ¬ Writes s.disk.bytes L msg.inum msg.block)
  /-- Block `b` of the regular file `k` is written. -/
  | wrote (k b a x : ℕ) (L' : Layout) (lib : msg.lib = .WRITE) (reply : y.2.returnNum = 0)
      (inum : msg.inum = k) (block : msg.block = b) (lt : b < 14)
      (inode : L.addr (.inode k) = some a) (regular : T.dirs k = none) (hosts : Hosts y.1 L' T)
      (inodes : ∀ j c, L.addr (.inode j) = some c → L'.addr (.inode j) = some c)
      (written : Written s.disk.bytes y.1.disk.bytes L k a b x msg.buffer)
  /-- A file with the text of the name is created in the directory `k`. -/
  | created (k a : ℕ) (es : List (List UInt8 × ℕ)) (name : List UInt8) (L' : Layout)
      (lib : msg.lib = .CREAT) (reply : y.2.returnNum = 0) (pinum : msg.pinum = k)
      (enters : Enters s junk k msg.type msg.cname) (count : T.count < 4096)
      (inode : L.addr (.inode k) = some a) (dirs : T.dirs k = some es)
      (text : sprintf msg.cname [60] = some name) (length : name.length < 60)
      (hosts : Hosts y.1 L' (T.create k name msg.type))
      (inodes : ∀ j c, L.addr (.inode j) = some c → L'.addr (.inode j) = some c)
      (added : Added s.disk.bytes y.1.disk.bytes L k a es.length name junk msg.type T.count)

/-- A request that only reads. -/
theorem Hosts.outcome_of_readOnly (h : Hosts s L T)
    (hs' : ReadOnly s y.1 L T.count ((T.count + 15) / 16))
    (hlib : msg.lib = .WRITE →
      y.2.returnNum = -1 ∧ ¬ Writes s.disk.bytes L msg.inum msg.block) :
    Outcome s L T junk msg y :=
  .kept (h.readOnly hs') hs'.2 hlib

theorem Hosts.outcome_write (h : Hosts s L T) (hlib : msg.lib = .WRITE) {x : Server × ℤ}
    (hok : s.sWrite junk msg.inum msg.buffer msg.block = .ok x) :
    Outcome s L T junk msg (x.1, { msg with returnNum := x.2 }) := by
  have hl := h.serves.1
  obtain ⟨hneg, hsame⟩ | ⟨hzero, k, b, a, loc, hk, hb, -, hb14, ha, hreg, hw⟩ :=
    sWrite_written hl hok
  · have hs' : ReadOnly s x.1 L T.count ((T.count + 15) / 16) := by
      obtain hx | halike := hsame
      · rw [hx]
        exact hl.readOnly
      · have hload := (hl.readOnly.loadMem junk).1
        exact ⟨hload.congr halike.bytes halike.size halike.chkpt halike.iArr,
          halike.bytes.trans (loadMem_bytes s junk)⟩
    refine h.outcome_of_readOnly hs' fun _ => ⟨hneg, fun hwrites => ?_⟩
    have hzero := sWrite_eq_zero hl hwrites hok
    omega
  · obtain ⟨L', hL', hinodes⟩ := sWrite_hosts h hok
    have hfile : T.dirs k = none := by
      cases hdir : T.dirs k with
      | none => rfl
      | some es =>
        have hd := (h.serves.2.directory k a es ha hdir).1
        rw [hreg] at hd
        cases hd
    exact .wrote k b a loc L' hlib hzero hk hb hb14 ha hfile hL' hinodes hw

theorem Hosts.outcome_create (h : Hosts s L T) (hlib : msg.lib = .CREAT) {x : Server × ℤ}
    (hok : s.sCreate junk msg.pinum msg.type msg.cname = .ok x) :
    Outcome s L T junk msg (x.1, { msg with returnNum := x.2 }) := by
  have hl := h.serves.1
  have h0 : 0 ∉ msg.cname := zero_notMem_cstr _ _
  by_cases he : Enters s junk msg.pinum msg.type msg.cname
  swap
  · obtain ⟨-, hro⟩ | ⟨he', -⟩ := sCreate_represents h.serves h0 hok
    · exact h.outcome_of_readOnly hro fun hw => by rw [hlib] at hw; cases hw
    · exact absurd he' he
  obtain ⟨k, hk⟩ := Int.eq_ofNat_of_zero_le he.range.1
  rw [hk] at he hok
  have hload := (hl.readOnly.loadMem junk).1
  obtain ⟨n, name, hn, -, hname, hlen, -⟩ := Server.sCreate_ok hload.tables he hok
  obtain ⟨-, hcount⟩ := (hl.parent he.range).eq_of_find hn
  obtain ⟨a, es, ha, hes, hadded⟩ := sCreate_added h.serves h0 he hcount hname hlen
  obtain ⟨hy, L', hL', -, hinodes, hadd, -⟩ := hadded.of_ok hok
  have hbehind := fun j b hj => hadd.inode_of_addr hl.image hL'.1.image hcount hinodes (j := j)
    (b := b) hj
  exact .created k a es name L' hlib hy hk he hcount ha hes hname hlen
    (h.created hes hL' hbehind) hinodes hadd

/-- **Every request with a result has one of the outcomes.** -/
theorem Hosts.outcome (h : Hosts s L T) (hok : s.handle junk msg = .ok y) :
    Outcome s L T junk msg y := by
  have hl := h.serves.1
  cases hlib : msg.lib with
  | INIT =>
    simp only [handle, hlib] at hok
    rw [← Except.ok.inj hok]
    have hrewound : ReadOnly s { s with disk := { s.disk with pos := 0 } } L T.count
        ((T.count + 15) / 16) := ⟨hl.congr rfl rfl rfl rfl, rfl⟩
    refine h.outcome_of_readOnly ?_ (by simp [hlib])
    simpa only using hrewound.loadMem junk
  | LOOKUP =>
    simp only [handle, hlib] at hok
    rw [← Except.ok.inj hok]
    exact h.outcome_of_readOnly (sLookup_readOnly hl _ _) (by simp [hlib])
  | STAT =>
    simp only [handle, hlib] at hok
    rw [← Except.ok.inj hok]
    exact h.outcome_of_readOnly (sStat_readOnly hl _ _) (by simp [hlib])
  | READ =>
    simp only [handle, hlib] at hok
    rw [← Except.ok.inj hok]
    exact h.outcome_of_readOnly (sRead_readOnly hl _ _ _) (by simp [hlib])
  | WRITE =>
    simp only [handle, hlib] at hok
    obtain ⟨x, hx, rfl⟩ := map_eq_ok.1 hok
    simpa only [hlib] using h.outcome_write hlib hx
  | CREAT =>
    simp only [handle, hlib] at hok
    obtain ⟨x, hx, rfl⟩ := map_eq_ok.1 hok
    simpa only [hlib] using h.outcome_create hlib hx
  | UNLINK =>
    simp only [handle, hlib] at hok
    obtain ⟨x, hx, rfl⟩ := map_eq_ok.1 hok
    exact h.outcome_of_readOnly (sUnlink_readOnly h hx).2 (by simp [hlib])
  | SHUTDOWN =>
    simp only [handle, hlib] at hok
    cases hok

/-- The old inodes are where they were. -/
theorem Hosts.addr_inode_of_lt (h : Hosts s L T) {L' : Layout} {j c : ℕ}
    (hinodes : ∀ j c, L.addr (.inode j) = some c → L'.addr (.inode j) = some c) (hj : j < T.count)
    (hc : L'.addr (.inode j) = some c) : L.addr (.inode j) = some c := by
  obtain ⟨c', hc'⟩ := Option.isSome_iff_exists.1 ((h.serves.1.image.inode_iff j).2 hj)
  rw [hc', ← Option.some.inj ((hinodes j c' hc').symm.trans hc)]

/-- What `sStat` answers for a file. -/
theorem Loaded.sStat_eq (h : Loaded s L n p) (ha : L.addr (.inode k) = some a) (junk : Junk)
    (stat : ℤ × ℤ) : (s.sStat junk k stat).2 =
      (0, statType (slice s.disk.bytes a), statSize (slice s.disk.bytes a)) := by
  have hk := h.inode_lt ha
  have hload := (h.readOnly.loadMem junk).1
  have hinode := hload.read_inode ha (junk .inode)
  rw [loadMem_bytes] at hinode
  unfold sStat
  dsimp only
  rw [if_neg (by omega), Int.toNat_natCast, hload.inodeArr_eq, ha, ref_some, if_neg (by omega),
    statType_eq hinode, statSize_eq hinode]

theorem Loaded.sStat_none (h : Loaded s L n p) (hk : L.addr (.inode k) = none) (junk : Junk)
    (stat : ℤ × ℤ) : (s.sStat junk k stat).2.1 = -1 := by
  have hload := (h.readOnly.loadMem junk).1
  unfold sStat
  dsimp only
  rw [Int.toNat_natCast, hload.inodeArr_eq, hk, ref_none, if_pos rfl]
  split_ifs <;> rfl

theorem appendBlock_ok (hend : s.endLog + 4096 < 2 ^ 31) (junk : Junk) (loc : ℤ) (inode : Bytes)
    (b : ℕ) : ∃ t, s.appendBlock junk loc inode b = .ok t := by
  unfold appendBlock advance
  dsimp only
  rw [write_endLog, lseek_endLog, if_pos (by exact_mod_cast hend)]
  exact ⟨_, rfl⟩

/-- **A block is written** while there is room for it. -/
theorem Loaded.sWrite_ok (h : Loaded s L n p) (ha : L.addr (.inode k) = some a)
    (hreg : statType (slice s.disk.bytes a) = REGULAR_FILE) {b : ℕ} (hb : b < 14)
    (hstop : L.stop + blockSize < 2 ^ 31) (junk : Junk) (buff : Bytes) :
    ∃ t, s.sWrite junk k buff b = .ok (t, 0) := by
  have hk := h.inode_lt ha
  have hload := (h.readOnly.loadMem junk).1
  have hinode := hload.read_inode ha (junk .inode)
  rw [loadMem_bytes] at hinode
  have hloc : (s.loadMem junk).inodeArr k = a := by rw [hload.inodeArr_eq, ha, ref_some]
  unfold sWrite
  dsimp only
  rw [if_neg (by omega), if_neg (by omega), Int.toNat_natCast, Int.toNat_natCast, hloc,
    if_neg (by omega), if_neg (not_not.2 ((statType_eq hinode).trans hreg))]
  split
  · have hend : (((s.loadMem junk).lseek a).read inodeSize (junk .inode)).1.endLog + 4096 <
        2 ^ 31 := by
      rw [read_endLog, lseek_endLog, hload.endLog_eq]
      simp only [blockSize] at hstop
      omega
    obtain ⟨t, ht⟩ := appendBlock_ok hend junk a
      (((s.loadMem junk).lseek a).read inodeSize (junk .inode)).2 b
    rw [ht]
    exact ⟨_, rfl⟩
  · exact ⟨_, rfl⟩

end Server

end Mfs

end OperatingSystems

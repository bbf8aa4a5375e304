import OperatingSystems.Mfs.Search
import OperatingSystems.Mfs.Writing
import OperatingSystems.Mfs.Requests

/-!
# Reachable images

What holds of the image after every sequence of requests, `UNLINK` included.  An `UNLINK` that
finds an entry to remove has no result: it takes the address of the inode for its number, and
all inodes but that of the root directory are at addresses that are too large for that.

* `Server.Hosts s L T` : the image of the server represents the namespace `T`, which is a tree.
* `Server.handle_hosts` : what one request does to the namespace.
* `Server.hosts_of_run` : the invariant of the server.
-/

namespace OperatingSystems

namespace Mfs

open Bytes

namespace Server

variable {s s' : Server} {L L' : Layout} {T : Names} {k a : ℕ} {junk : Junk} {msg : Msg}
  {name : List UInt8} {es : List (List UInt8 × ℕ)}

/-- The image represents a namespace that is a tree, and all inodes but that of the root directory
are behind the first 4096 bytes. -/
structure Hosts (s : Server) (L : Layout) (T : Names) : Prop where
  serves : Serves s L T
  tree : Namespace.IsTree [46] [46, 46] T
  behind : ∀ k a, L.addr (.inode k) = some a → k ≠ 0 → 4096 ≤ a

namespace Hosts

theorem readOnly (h : Hosts s L T) (hs' : ReadOnly s s' L T.count ((T.count + 15) / 16)) :
    Hosts s' L T :=
  ⟨h.serves.readOnly hs', h.tree, h.behind⟩

/-- The inode and the entries of a directory. -/
theorem directory (h : Hosts s L T) (hk : T.dirs k = some es) :
    ∃ a, L.addr (.inode k) = some a ∧ statType (slice s.disk.bytes a) = DIRECTORY ∧
      Holds s.disk.bytes a es ∧ es ≠ [] := by
  obtain ⟨a, ha⟩ := Option.isSome_iff_exists.1
    ((h.serves.1.image.inode_iff k).2 (h.tree.bounded k es hk))
  obtain ⟨hd, hholds⟩ := h.serves.2.directory k a es ha hk
  refine ⟨a, ha, hd, hholds, ?_⟩
  rintro rfl
  exact absurd (h.tree.itself k [] hk) (by simp)

/-- The block of the root directory is behind the checkpoint. -/
theorem stop_ge (h : Hosts s L T) : 4096 ≤ L.stop := by
  obtain ⟨es, hes⟩ := Option.isSome_iff_exists.1 h.tree.zero
  obtain ⟨a, ha, -, hholds, hne⟩ := h.directory hes
  obtain ⟨x, -, hx⟩ := hholds.exists_block h.serves.1.image ha (b := 0)
    (by simpa using List.length_pos_iff.2 hne)
  have hwithin := L.within _ _ hx
  simp only [Obj.size, blockSize] at hwithin
  omega

/-- The entries that `UNLINK` may remove are not those of the root directory. -/
theorem entry_ne_zero (h : Hosts s L T) (hk : T.dirs k = some es) {q : ℕ} {e : List UInt8 × ℕ}
    (he : es[q]? = some e) (hdot : e.1 ≠ [46]) (hdotdot : e.1 ≠ [46, 46]) :
    e.2 ≠ 0 ∧ e.2 < T.count := by
  refine h.tree.entries k q e ⟨es, hk, he⟩ (not_lt.1 fun hq => ?_)
  obtain rfl | rfl : q = 0 ∨ q = 1 := by omega
  · rw [h.tree.itself k es hk] at he
    exact hdot (congrArg Prod.fst (Option.some.inj he)).symm
  · obtain ⟨up, hup, -⟩ := h.tree.above k es hk
    rw [hup] at he
    exact hdotdot (congrArg Prod.fst (Option.some.inj he)).symm

end Hosts

/-! ### Creation -/

/-- `sCreate` goes on if the name is absent and there is room for the entry. -/
theorem Hosts.enters (h : Hosts s L T) (hes : T.dirs k = some es) (hroom : es.length < 14 * 64)
    {type : ℤ} (htype : type = 0 ∨ type = 1) (hlen : 1 ≤ name.length ∧ name.length < 60)
    (habsent : (s.sLookup junk k name).2 < 0) : Enters s junk k type name := by
  have hl := h.serves.1
  obtain ⟨a, ha, hd, hholds, -⟩ := h.directory hes
  have hk := hl.inode_lt ha
  have hload := (hl.readOnly.loadMem junk).1
  have hinode := parent_eqTo hload.tables ha (by rw [hload.inodeArr_eq, ha, ref_some])
    (by omega) name
  refine ⟨htype, by omega, hlen, ?_, habsent, ?_, ?_⟩
  · rw [hl.inodeArr_eq, Int.toNat_natCast, ha, ref_some]
    omega
  · rw [statType_eq hinode, hd]
  · rw [statSize_eq hinode, hholds.size]
    omega

/-- The image after a file was created. -/
theorem Hosts.created (h : Hosts s L T) (hes : T.dirs k = some es) {type : ℤ}
    (hs' : Serves s' L' (T.create k name type))
    (hinodes : ∀ j b, L'.addr (.inode j) = some b → L.addr (.inode j) = some b ∨ L.stop ≤ b) :
    Hosts s' L' (T.create k name type) := by
  refine ⟨hs', h.tree.create hes _ _, fun j b hj hj0 => ?_⟩
  obtain hold | hge := hinodes j b hj
  · exact h.behind j b hold hj0
  · exact h.stop_ge.trans hge

/-- **A file can be created** while there is room for it. -/
theorem Hosts.sCreate_ok (h : Hosts s L T) (h0 : 0 ∉ name) {name' : List UInt8}
    (hname : sprintf name [60] = some name') (hlen : name'.length < 60) {type : ℤ}
    (he : Enters s junk k type name) (hcount : T.count < 4096)
    (hstop : L.stop + imapSize + inodeSize + 2 * blockSize < 2 ^ 31) :
    ∃ y L' a es, s.sCreate junk k type name = .ok y ∧ y.2 = 0 ∧
      Hosts y.1 L' (T.create k name' type) ∧
      L'.stop ≤ L.stop + imapSize + inodeSize + 2 * blockSize ∧ L.addr (.inode k) = some a ∧
      T.dirs k = some es ∧ (∀ j b, L.addr (.inode j) = some b → L'.addr (.inode j) = some b) ∧
      Added s.disk.bytes y.1.disk.bytes L k a es.length name' junk type T.count ∧
      (T.count % 16 ≠ 0 → es.length % 64 ≠ 0 → L'.stop = L.stop + inodeSize + blockSize) := by
  obtain ⟨a, es, ha, hes, hadded⟩ := sCreate_added h.serves h0 he hcount hname hlen
  obtain ⟨y, hok, hy, L', hL', hend, hinodes, hadd, hexact⟩ := hadded.exists_ok (not_le.2 hstop)
  exact ⟨y, L', a, es, hok, hy, h.created hes hL' fun j b hj =>
    hadd.inode_of_addr h.serves.1.image hL'.1.image hcount hinodes hj, hend, ha, hes, hinodes, hadd,
    hexact⟩

/-! ### Unlink -/

/-- `delInode` with the address of an inode behind the first 4096 bytes. -/
theorem delInode_behind {x : ℕ} (hx : 4096 ≤ x) : s.delInode junk x = .error .undefined := by
  have hdiv : (x : ℤ).tdiv 16 = ((x / 16 : ℕ) : ℤ) := rfl
  have hmod : (x : ℤ).tmod 16 = ((x % 16 : ℕ) : ℤ) := rfl
  unfold delInode
  simp only [hdiv, hmod]
  rw [if_neg (by omega), if_pos (by omega)]

/-- **An `UNLINK` with a result** removes nothing. -/
theorem sUnlink_readOnly (h : Hosts s L T) {pinum : ℤ} {y : Server × ℤ}
    (hok : s.sUnlink junk pinum name = .ok y) :
    y.2 = -1 ∧ ReadOnly s y.1 L T.count ((T.count + 15) / 16) := by
  obtain ⟨hl, hr⟩ := h.serves
  have hload := hl.readOnly.loadMem junk
  have halike : ∀ t, Alike (s.loadMem junk) t → ReadOnly s t L T.count ((T.count + 15) / 16) :=
    fun t ht => ⟨hload.1.congr ht.bytes ht.size ht.chkpt ht.iArr, ht.bytes.trans hload.2⟩
  unfold sUnlink at hok
  dsimp only at hok
  -- the checks of the arguments
  split at hok
  · rw [← Except.ok.inj hok]
    refine ⟨rfl, ?_⟩
    simpa only using hload
  split at hok
  · cases hok
  split at hok
  · rw [← Except.ok.inj hok]
    refine ⟨rfl, ?_⟩
    simpa only using hload
  split at hok
  · rw [← Except.ok.inj hok]
    refine ⟨rfl, ?_⟩
    simpa only using hload
  split at hok
  · rw [← Except.ok.inj hok]
    refine ⟨rfl, ?_⟩
    simpa only using hload
  rename_i hrange h4096 hused hdots hlen
  obtain ⟨k, rfl⟩ := Int.eq_ofNat_of_zero_le (by omega : 0 ≤ pinum)
  rw [Int.toNat_natCast, hload.1.inodeArr_eq, ref_eq_neg_one] at hused
  obtain ⟨a, ha⟩ := Option.ne_none_iff_exists'.1 hused
  obtain ⟨hloc, hread, hinode⟩ := read_directory hl ha junk
  rw [Int.toNat_natCast, hloc] at hok
  split at hok
  · rw [← Except.ok.inj hok]; exact ⟨rfl, halike _ hread⟩
  rename_i hdir
  rw [not_not, statType_eq hinode] at hdir
  obtain ⟨es, hes⟩ := hr.not_none ha hdir
  obtain ⟨-, hholds⟩ := hr.directory k a es ha hes
  obtain ⟨hafter, hres⟩ := unlinkLoop_directory junk hl ha hholds name rfl
  split at hok
  · rename_i t hloop
    rw [hloop] at hafter
    rw [← Except.ok.inj hok]
    exact ⟨rfl, halike _ hafter⟩
  · rename_i t dirBlk delDirBlkLoc delInd hloop
    rw [hloop] at hafter hres
    obtain ⟨hnone, -⟩ | ⟨d, b, j, -, -, -, hsome, -, hslot, hname⟩ := hres
    · cases hnone
    obtain ⟨rfl, -, rfl⟩ : dirBlk = d ∧ _ ∧ delInd = j := by
      simpa using hsome
    dsimp only at hok hafter
    unfold removeEntry at hok
    dsimp only at hok
    split at hok
    · cases hok
    rename_i hinum
    cases he : es[64 * b + delInd]? with
    | none =>
      rw [he] at hslot
      have := congrArg Prod.snd hslot
      exact absurd (Or.inl (this.trans_lt (by decide))) hinum
    | some e =>
      rw [he] at hslot
      have hnum : entryInum dirBlk delInd = e.2 := congrArg Prod.snd hslot
      have hfst : entryName dirBlk delInd = e.1 := congrArg Prod.fst hslot
      rw [hname] at hfst
      obtain ⟨hne, hlt⟩ := h.entry_ne_zero hes he (fun hdot => hdots (Or.inr (hfst.trans hdot)))
        fun hdotdot => hdots (Or.inl (hfst.trans hdotdot))
      obtain ⟨x, hx⟩ := Option.isSome_iff_exists.1 ((hl.image.inode_iff e.2).2 hlt)
      -- where the inode of a file is, `delInode` is undefined
      have hx4096 := h.behind _ x hx hne
      have hafter' := halike t hafter
      rw [hnum, Int.toNat_natCast, hafter'.1.inodeArr_eq, hx, ref_some] at hok
      split at hok
      · rw [← Except.ok.inj hok]
        exact ⟨rfl, halike _ (hafter.read _ _ _)⟩
      · rw [delInode_behind hx4096] at hok
        cases hok

/-! ### Requests -/

theorem map_eq_ok {α β : Type} {r : Except Stop α} {f : α → β} {y : β} :
    r.map f = .ok y ↔ ∃ x, r = .ok x ∧ f x = y := by
  cases r with
  | error e => exact ⟨nofun, nofun⟩
  | ok x => exact ⟨fun h => ⟨x, rfl, Except.ok.inj h⟩, fun ⟨_, hx, h⟩ => Except.ok.inj hx ▸ h ▸ rfl⟩

theorem next_eq_some {l : Msg × Junk} :
    server.next s l = some s' ↔ ∃ y, s.handle l.2 l.1 = .ok y ∧ y.1 = s' := by
  simp only [server]
  cases s.handle l.2 l.1 with
  | error e => simp [Except.toOption]
  | ok y =>
    constructor
    · intro h
      exact ⟨y, rfl, Option.some.inj h⟩
    · rintro ⟨_, hy, h⟩
      exact Except.ok.inj hy ▸ h ▸ rfl

theorem sWrite_hosts (h : Hosts s L T) {inum blk : ℤ} {buff : Bytes} {y : Server × ℤ}
    (hok : s.sWrite junk inum buff blk = .ok y) : ∃ L', Hosts y.1 L' T ∧
      ∀ j b, L.addr (.inode j) = some b → L'.addr (.inode j) = some b := by
  obtain ⟨hl, hr⟩ := h.serves
  obtain ⟨L', hl', hevolves, -⟩ := (sWrite_spec hl junk inum buff blk).of_ok hok
  have hinodes : ∀ j b, L'.addr (.inode j) = some b → L.addr (.inode j) = some b := by
    intro j b hj
    obtain ⟨b', hb'⟩ := Option.isSome_iff_exists.1
      ((hl.image.inode_iff j).2 ((hl'.image.inode_iff j).1 (by rw [hj]; rfl)))
    rw [hb', ← Option.some.inj ((hevolves.inode j b' hb').symm.trans hj)]
  have hbehind : ∀ j b, L'.addr (.inode j) = some b → j ≠ 0 → 4096 ≤ b :=
    fun j b hj => h.behind j b (hinodes j b hj)
  refine ⟨L', ⟨⟨hl', ?_⟩, h.tree, hbehind⟩, hevolves.inode⟩
  obtain ⟨-, rfl | halike⟩ | ⟨-, k, b, a, x, -, -, -, -, ha, hreg, hw⟩ := sWrite_written hl hok
  · exact hr.frame hl.image hinodes (P := fun _ => False) Log.Frame.refl (fun _ _ _ => rfl)
      fun _ _ _ => ⟨id, fun _ => id⟩
  · have hbytes := halike.bytes
    rw [loadMem_bytes] at hbytes
    rw [hbytes]
    exact hr.frame hl.image hinodes (P := fun _ => False) Log.Frame.refl (fun _ _ _ => rfl)
      fun _ _ _ => ⟨id, fun _ => id⟩
  · refine hr.frame hl.image hinodes hw.frame hevolves.type fun j es hj => ?_
    -- the file that was written is no directory
    have hne : j ≠ k := by
      rintro rfl
      have hd := (hr.directory j a es ha hj).1
      rw [hreg] at hd
      cases hd
    exact ⟨by simp [hne], fun c => by simp [hne]⟩

theorem handle_of_sCreate (hlib : msg.lib = .CREAT) {y : Server × ℤ}
    (hok : s.sCreate junk msg.pinum msg.type msg.cname = .ok y) :
    s.handle junk msg = .ok (y.1, { msg with returnNum := y.2 }) := by
  simp only [handle, hlib, hok, Except.map]

theorem next_of_sCreate (hlib : msg.lib = .CREAT) {y : Server × ℤ}
    (hok : s.sCreate junk msg.pinum msg.type msg.cname = .ok y) :
    server.next s (msg, junk) = some y.1 :=
  next_eq_some.2 ⟨_, handle_of_sCreate hlib hok, rfl⟩

theorem handle_of_sWrite (hlib : msg.lib = .WRITE) {y : Server × ℤ}
    (hok : s.sWrite junk msg.inum msg.buffer msg.block = .ok y) :
    s.handle junk msg = .ok (y.1, { msg with returnNum := y.2 }) := by
  simp only [handle, hlib, hok, Except.map]

theorem next_of_sWrite (hlib : msg.lib = .WRITE) {y : Server × ℤ}
    (hok : s.sWrite junk msg.inum msg.buffer msg.block = .ok y) :
    server.next s (msg, junk) = some y.1 :=
  next_eq_some.2 ⟨_, handle_of_sWrite hlib hok, rfl⟩

/-- **One request**, if it has a result, creates a file in the namespace or leaves it as it is. -/
theorem handle_hosts (h : Hosts s L T) {y : Server × Msg} (hok : s.handle junk msg = .ok y) :
    ∃ L', Hosts y.1 L' T ∨ ∃ (k : ℕ) (es : _) (name : _), msg.lib = .CREAT ∧
      Enters s junk k msg.type msg.cname ∧ T.dirs k = some es ∧
      sprintf msg.cname [60] = some name ∧ Hosts y.1 L' (T.create k name msg.type) := by
  have hl := h.serves.1
  cases hlib : msg.lib with
  | INIT =>
    simp only [handle, hlib] at hok
    rw [← Except.ok.inj hok]
    have hrewound : ReadOnly s { s with disk := { s.disk with pos := 0 } } L T.count
        ((T.count + 15) / 16) := ⟨hl.congr rfl rfl rfl rfl, rfl⟩
    refine ⟨L, Or.inl (h.readOnly ?_)⟩
    simpa only using hrewound.loadMem junk
  | LOOKUP =>
    simp only [handle, hlib] at hok
    rw [← Except.ok.inj hok]
    exact ⟨L, Or.inl (h.readOnly (sLookup_readOnly hl _ _))⟩
  | STAT =>
    simp only [handle, hlib] at hok
    rw [← Except.ok.inj hok]
    exact ⟨L, Or.inl (h.readOnly (sStat_readOnly hl _ _))⟩
  | READ =>
    simp only [handle, hlib] at hok
    rw [← Except.ok.inj hok]
    exact ⟨L, Or.inl (h.readOnly (sRead_readOnly hl _ _ _))⟩
  | WRITE =>
    simp only [handle, hlib] at hok
    obtain ⟨x, hx, rfl⟩ := map_eq_ok.1 hok
    obtain ⟨L', hL', -⟩ := sWrite_hosts h hx
    exact ⟨L', Or.inl hL'⟩
  | CREAT =>
    simp only [handle, hlib] at hok
    obtain ⟨x, hx, rfl⟩ := map_eq_ok.1 hok
    have h0 : 0 ∉ msg.cname := zero_notMem_cstr _ _
    obtain ⟨-, hro⟩ | ⟨he, -, k, es, name, L', hk, hes, hname, -, hL', hinodes⟩ :=
      sCreate_represents h.serves h0 hx
    · exact ⟨L, Or.inl (h.readOnly hro)⟩
    · exact ⟨L', Or.inr ⟨k, es, name, rfl, hk ▸ he, hes, hname, h.created hes hL' hinodes⟩⟩
  | UNLINK =>
    simp only [handle, hlib] at hok
    obtain ⟨x, hx, rfl⟩ := map_eq_ok.1 hok
    exact ⟨L, Or.inl (h.readOnly (sUnlink_readOnly h hx).2)⟩
  | SHUTDOWN =>
    simp only [handle, hlib] at hok
    cases hok

/-! ### The new image -/

theorem initRoot_eq : initRoot = newInode 0 ((checkpointSize + imapSize : ℕ) : ℤ) := by
  unfold initRoot newInode
  congr 1

theorem fresh_hosts (junk : Junk) :
    Hosts (fresh junk) freshLayout (Namespace.root [46] [46, 46]) := by
  obtain ⟨hl, hbytes⟩ := fresh_loaded junk
  have hinode : EqTo inodeSize (slice (fresh junk).disk.bytes (checkpointSize + imapSize))
      initRoot := by
    rw [hbytes]
    exact EqTo.trans (slice_patch_of_disjoint (Or.inr le_rfl)) (slice_patch _ _ _ _)
  have hblock : EqTo blockSize (slice (fresh junk).disk.bytes
      (checkpointSize + imapSize + inodeSize)) (newBlock junk (0 : ℕ) 0 (0 : ℕ)) := by
    rw [hbytes]
    exact slice_patch _ _ _ _
  have haddr : ∀ k a, freshLayout.addr (.inode k) = some a →
      k = 0 ∧ a = checkpointSize + imapSize := by
    intro k a ha
    rw [freshLayout_addr] at ha
    obtain ⟨rfl, rfl⟩ : k = 0 ∧ checkpointSize + imapSize = a := by simpa using ha
    exact ⟨rfl, rfl⟩
  have hholds := Holds.new (m := (fresh junk).disk.bytes) (e := checkpointSize + imapSize) (k := 0)
    (n := 0) (by decide) (by omega) (by omega) (initRoot_eq ▸ hinode) hblock
  refine ⟨⟨hl, fun k es hk => ?_, fun k a ha hk => ?_, fun k a es ha hk => ?_⟩,
    Namespace.isTree_root, fun k a ha hk => absurd (haddr k a ha).1 hk⟩
  · obtain ⟨rfl, -⟩ := Namespace.root_dirs_eq_some hk
    exact Nat.one_pos
  · obtain ⟨rfl, -⟩ := haddr k a ha
    cases hk
  · obtain ⟨rfl, rfl⟩ := haddr k a ha
    obtain ⟨-, rfl⟩ := Namespace.root_dirs_eq_some hk
    refine ⟨?_, hholds⟩
    rw [statType_eq hinode]
    exact word_ofWords (by decide)

/-- One request leads to such an image again. -/
theorem next_hosts {l : Msg × Junk} (h : ∃ L T, Hosts s L T) (hnext : server.next s l = some s') :
    ∃ L T, Hosts s' L T := by
  obtain ⟨L, T, hs⟩ := h
  obtain ⟨y, hok, rfl⟩ := next_eq_some.1 hnext
  obtain ⟨L', hL' | ⟨k, es, name, -, -, -, -, hL'⟩⟩ := handle_hosts hs hok
  · exact ⟨L', T, hL'⟩
  · exact ⟨L', _, hL'⟩

/-- **The namespace of every reachable image.** -/
theorem hosts_of_run {junk : Junk} {ls : List (Msg × Junk)}
    (h : server.run (fresh junk) ls = some s) : ∃ L T, Hosts s L T :=
  Machine.run_invariant (I := fun s => ∃ L T, Hosts s L T) h ⟨_, _, fresh_hosts junk⟩
    fun _ _ _ => next_hosts

end Server

end Mfs

end OperatingSystems

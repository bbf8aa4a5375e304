import OperatingSystems.Mfs.Reachable

/-!
# What a lookup answers

* `LookupExact` : `sLookup` answers with what is in the blocks of the directory, and agrees with the
  search of `sUnlink`.
* `lookupExact_iff` : **exactly when it does**.
* `lookup_in_a_file` : a name that `sLookup` finds in the contents of a file.
-/

namespace OperatingSystems

namespace Mfs

open Bytes

/-- The inode `k` of the image is that of a directory. -/
def IsDirectory (m : Bytes) (k : ℕ) : Prop :=
  ∃ x, inodeAddr m k = some x ∧ statType (slice m x.toNat) = DIRECTORY

/-- The answer of `sLookup` is the inode number of an entry that is in use, in a block of the
directory, if there is one with the name; and the search of `sUnlink` finds the name if `sLookup`
does. -/
def LookupExact (s : Server) (junk : Junk) (k : ℕ) (name : List UInt8) : Prop :=
  (∀ i, 0 ≤ i → ((s.sLookup junk k name).2 = i ↔ InUse s.disk.bytes k name i)) ∧
    (0 ≤ (s.sLookup junk k name).2 ↔ s.UnlinkFinds junk k name)

/-- The first entry with the name behind the last block of the directory, where `sLookup` goes on. -/
def strayMatch (s : Server) (junk : Junk) (k : ℕ) (name : List UInt8) :
    Option (List UInt8 × ℤ) :=
  (inodeAddr s.disk.bytes k).bind fun x =>
    find name (Server.strays s.disk.bytes s.disk.size junk (slice s.disk.bytes x.toNat))

namespace Server

variable {s : Server} {L : Layout} {T : Names} {k a : ℕ} {junk : Junk} {name : List UInt8}
  {es : List (List UInt8 × ℕ)}

/-- The directories of the image are those of the namespace. -/
theorem Hosts.isDirectory_iff (h : Hosts s L T) :
    IsDirectory s.disk.bytes k ↔ ∃ es, T.dirs k = some es := by
  have himage := h.serves.1.image
  constructor
  · rintro ⟨x, hx, hd⟩
    rw [himage.inodeAddr_eq] at hx
    obtain ⟨a, ha, rfl⟩ := Option.map_eq_some_iff.1 hx
    exact h.serves.2.not_none ha hd
  · rintro ⟨es, hes⟩
    obtain ⟨a, ha, hd, -, -⟩ := h.directory hes
    exact ⟨a, by rw [himage.inodeAddr_eq, ha]; rfl, hd⟩

theorem Hosts.strayMatch_eq (h : Hosts s L T) (ha : L.addr (.inode k) = some a) :
    strayMatch s junk k name =
      find name (strays s.disk.bytes s.disk.size junk (slice s.disk.bytes a)) := by
  rw [strayMatch, h.serves.1.image.inodeAddr_eq, ha]
  rfl

variable (junk) in
/-- The answer of `sLookup` in a directory. -/
theorem Hosts.sLookup_eq (h : Hosts s L T) (hes : T.dirs k = some es)
    (hname : 1 ≤ name.length ∧ name.length ≤ 60) :
    ((∃ i, InUse s.disk.bytes k name i) ∧ ∃ i, 0 ≤ i ∧ InUse s.disk.bytes k name i ∧
        (s.sLookup junk k name).2 = i) ∨
      ((¬ ∃ i, InUse s.disk.bytes k name i) ∧
        (s.sLookup junk k name).2 = (strayMatch s junk k name).elim (-1) Prod.snd) := by
  have hl := h.serves.1
  obtain ⟨a, ha, hd, hholds, hne⟩ := h.directory hes
  have hname' : name ≠ [] := List.ne_nil_of_length_pos hname.1
  rw [Server.sLookup_eq hl ha hd hholds hne hname, find_append]
  cases hfind : find name (own s.disk.bytes (slice s.disk.bytes a)) with
  | some e =>
    obtain ⟨hin, hpos⟩ := hholds.find_own hl.image ha hname' hfind
    exact Or.inl ⟨⟨_, hin⟩, e.2, hpos, hin, rfl⟩
  | none =>
    refine Or.inr ⟨(hholds.find_own_eq_none hl.image ha hname').1 hfind, ?_⟩
    rw [h.strayMatch_eq ha, Option.none_or]

/-- `sLookup` answers the number of the first entry with the name. -/
theorem Hosts.sLookup_of_find (h : Hosts s L T) (hes : T.dirs k = some es) {e : List UInt8 × ℕ}
    (he : (es.find? fun e => e.1 = name) = some e) (junk : Junk) :
    (s.sLookup junk k name).2 = e.2 := by
  have hl := h.serves.1
  obtain ⟨a, ha, hd, hholds, hne⟩ := h.directory hes
  have hfirst := List.find?_some he
  obtain rfl : e.1 = name := of_decide_eq_true hfirst
  obtain ⟨hname, hlen⟩ := hholds.names e (List.mem_of_find?_eq_some he)
  rw [Server.sLookup_eq hl ha hd hholds hne ⟨List.length_pos_of_ne_nil hname, hlen.le⟩, find_append,
    hholds.own_eq hl.image ha, find_slots hname (by omega), he]
  rfl

end Server

/-- **What a lookup answers.**  After every sequence of requests, `sLookup` is exact for a directory
and a name if and only if all entries with the name have the same inode number and, where there is
none, the first match behind the last block of the directory is not in use. -/
theorem lookupExact_iff {junk₀ : Junk} {ls : List (Msg × Junk)} {s : Server}
    (h : server.run (fresh junk₀) ls = some s) (junk : Junk) {k : ℕ}
    (hk : IsDirectory s.disk.bytes k) {name : List UInt8}
    (hname : 1 ≤ name.length ∧ name.length ≤ 59) :
    LookupExact s junk k name ↔
      (∀ i i', InUse s.disk.bytes k name i → InUse s.disk.bytes k name i' → i = i') ∧
      ((∃ i, InUse s.disk.bytes k name i) ∨
        ∀ e, strayMatch s junk k name = some e → e.2 < 0) := by
  obtain ⟨L, T, hosts⟩ := Server.hosts_of_run h
  have hl := hosts.serves.1
  obtain ⟨es, hes⟩ := hosts.isDirectory_iff.1 hk
  obtain ⟨a, ha, -, hholds, -⟩ := hosts.directory hes
  have hname' : name ≠ [] := List.ne_nil_of_length_pos hname.1
  have hunlink : s.UnlinkFinds junk k name ↔ ∃ i, InUse s.disk.bytes k name i := by
    rw [Server.unlinkFinds_iff hl ha hholds hname']
    simp only [hholds.inUse_iff hl.image ha]
    constructor
    · rintro ⟨num, hnum⟩
      exact ⟨num, num, hnum, rfl⟩
    · rintro ⟨i, num, hnum, -⟩
      exact ⟨num, hnum⟩
  have hpos : ∀ i, InUse s.disk.bytes k name i → 0 ≤ i := by
    intro i hi
    obtain ⟨num, -, rfl⟩ := (hholds.inUse_iff hl.image ha).1 hi
    omega
  unfold LookupExact
  rw [hunlink]
  obtain ⟨hex, i, hi, hin, hr⟩ | ⟨hno, hr⟩ :=
    hosts.sLookup_eq junk hes ⟨hname.1, hname.2.trans (by omega)⟩
  · rw [hr]
    constructor
    · rintro ⟨hexact, -⟩
      have huniq : ∀ i', InUse s.disk.bytes k name i' → i = i' :=
        fun i' hi' => (hexact i' (hpos i' hi')).2 hi'
      exact ⟨fun i₁ i₂ h₁ h₂ => (huniq i₁ h₁).symm.trans (huniq i₂ h₂), Or.inl hex⟩
    · rintro ⟨hsame, -⟩
      refine ⟨fun i' _ => ⟨fun he => he ▸ hin, hsame i i' hin⟩, iff_of_true hi hex⟩
  · have hnot : ∀ i, ¬ InUse s.disk.bytes k name i := fun i hi => hno ⟨i, hi⟩
    simp only [hr, hnot, iff_false, exists_false, false_or, not_le, false_implies, implies_true,
      true_and]
    cases strayMatch s junk k name with
    | none =>
      simp only [Option.elim_none, reduceCtorEq, false_implies, implies_true, iff_true]
      exact ⟨fun i hi he => by omega, by omega⟩
    | some e =>
      simp only [Option.elim_some, Option.some.injEq, forall_eq']
      exact ⟨And.right, fun he => ⟨fun i hi hei => by omega, he⟩⟩

/-- The entry `.` of a new image is looked up. -/
theorem lookupExact_dot : LookupExact (fresh fun _ _ => 0) (fun _ _ => 0) 0 [46] := by
  have h := Server.fresh_hosts fun _ _ => 0
  obtain ⟨a, ha, -, hholds, -⟩ := h.directory (k := 0) rfl
  have hin : ∀ i, InUse (fresh fun _ _ => 0).disk.bytes 0 [46] i ↔ i = 0 := by
    intro i
    rw [hholds.inUse_iff h.serves.1.image ha]
    simp
  have hrun : server.run (fresh fun _ _ => 0) [] = some (fresh fun _ _ => 0) := rfl
  refine (lookupExact_iff hrun (fun _ _ => 0)
    (h.isDirectory_iff.2 ⟨_, rfl⟩) (by decide)).2 ⟨fun i i' hi hi' => ?_, Or.inl ⟨0, (hin 0).2 rfl⟩⟩
  rw [(hin i).1 hi, (hin i').1 hi']

/-! ### A name in the contents of a file -/

/-- A block that begins with the entry `b` for inode 7. -/
def intruder : Bytes := setEntry (fun _ => 0) 0 [98] 7

/-- The file `f` is created in the root directory, and its first block is written. -/
def intrusion : List (Msg × Junk) :=
  [(message .CREAT, fun _ _ => 0),
    ({ message .WRITE with block := 0, buffer := intruder }, fun _ _ => 0)]

/-- The objects of a new image with zeros in memory: it ends with the block of the root directory. -/
theorem fresh_root : ∃ es, (Namespace.root [46] [46, 46] : Names).dirs 0 = some es ∧
    Server.freshLayout.addr (.inode 0) = some (checkpointSize + imapSize) ∧
    (fresh fun _ _ => 0).disk.size = Server.freshLayout.stop ∧
    Holds (fresh fun _ _ => 0).disk.bytes (checkpointSize + imapSize) es ∧
    blockArr (slice (fresh fun _ _ => 0).disk.bytes (checkpointSize + imapSize)) 0 =
      ((checkpointSize + imapSize + inodeSize : ℕ) : ℤ) := by
  have h := Server.fresh_hosts fun _ _ => 0
  obtain ⟨a, ha, -, hholds, -⟩ := h.directory (k := 0) rfl
  have hroot : Server.freshLayout.addr (.inode 0) = some (checkpointSize + imapSize) := by
    rw [Server.freshLayout_addr]
    rfl
  obtain rfl := Option.some.inj (hroot.symm.trans ha)
  refine ⟨_, rfl, hroot, ?_, hholds, ?_⟩
  · unfold fresh
    rw [Server.loadMem_size]
    rfl
  · rw [h.serves.1.image.block 0 _ hroot 0 (by omega), Server.freshLayout_addr]
    rfl

/-- Behind the block of the root directory of a new image there is nothing. -/
theorem strayMatch_fresh {name : List UInt8} (hname : name ≠ []) :
    strayMatch (fresh fun _ _ => 0) (fun _ _ => 0) 0 name = none := by
  obtain ⟨es, hes, hroot, hsize, hholds, hblock⟩ := fresh_root
  obtain ⟨-, rfl⟩ := Namespace.root_dirs_eq_some hes
  rw [(Server.fresh_hosts fun _ _ => 0).strayMatch_eq hroot, find_eq_none]
  rintro e he rfl
  obtain ⟨c, l, hc⟩ := List.exists_cons_of_ne_nil hname
  obtain ⟨hc0, t, ht⟩ := Server.byte_of_mem_strays he hc
  have hcount : Server.blockCount (slice (fresh fun _ _ => 0).disk.bytes
      (checkpointSize + imapSize)) - 1 = 0 := by
    rw [hholds.blockCount_eq]
    rfl
  rw [hcount, hblock, (fresh fun _ _ => 0).disk.zero] at ht
  · exact hc0 ht.symm
  · rw [hsize]
    simp only [Server.freshLayout, Log.append_stop, Obj.size, Server.checkpointOnly, blockSize,
      Int.toNat_natCast]
    omega

theorem sLookup_fresh {name : List UInt8} (hname : 1 ≤ name.length ∧ name.length ≤ 60)
    (hdots : name ≠ [46] ∧ name ≠ [46, 46]) :
    ((fresh fun _ _ => 0).sLookup (fun _ _ => 0) 0 name).2 = -1 := by
  have h := Server.fresh_hosts fun _ _ => 0
  obtain ⟨es, hes, hroot, -, hholds, -⟩ := fresh_root
  obtain ⟨⟨i, hi⟩, -⟩ | ⟨-, hr⟩ := h.sLookup_eq (fun _ _ => 0) hes hname
  · obtain ⟨num, hnum, -⟩ := (hholds.inUse_iff h.serves.1.image hroot).1 hi
    obtain ⟨-, rfl⟩ := Namespace.root_dirs_eq_some hes
    simp [hdots] at hnum
  · rw [strayMatch_fresh (List.ne_nil_of_length_pos hname.1)] at hr
    exact hr

/-- A file is created in the root directory of a new image, with the name that the server prints. -/
theorem fresh_create_printed (name : List UInt8) {name' : List UInt8} (type : ℤ)
    (hname : 1 ≤ name.length ∧ name.length < 60) (hchars : 0 ∉ name ∧ 46 ∉ name)
    (hprint : sprintf name [60] = some name') (hlen : name'.length < 60)
    (htype : type = 0 ∨ type = 1) :
    ∃ s L, (fresh fun _ _ => 0).sCreate (fun _ _ => 0) 0 type name = .ok (s, 0) ∧
      Server.Hosts s L (Names.create (Namespace.root [46] [46, 46]) 0 name' type) ∧
      L.addr (.inode 0) = some (checkpointSize + imapSize) ∧
      blockArr (slice s.disk.bytes (checkpointSize + imapSize)) 0 =
        ((checkpointSize + imapSize + inodeSize : ℕ) : ℤ) ∧
      L.addr (.inode 1) = some Server.freshLayout.stop ∧
      EqTo inodeSize (slice s.disk.bytes Server.freshLayout.stop)
        (Server.newInode type Server.freshLayout.stop) ∧
      (type = 1 → ∀ z, Server.freshLayout.stop + inodeSize ≤ z → s.disk.bytes z = 0) ∧
      L.stop ≤ Server.freshLayout.stop + imapSize + inodeSize + 2 * blockSize := by
  have h := Server.fresh_hosts fun _ _ => 0
  obtain ⟨es, hes, hroot, hsize, -, hblock⟩ := fresh_root
  have hdots : name ≠ [46] ∧ name ≠ [46, 46] := by
    constructor <;> rintro rfl <;> simp at hchars
  have hdirs : (Namespace.root [(46 : UInt8)] [46, 46]).dirs 0 =
      some [([46], 0), ([46, 46], 0)] := rfl
  have he : Server.Enters (fresh fun _ _ => 0) (fun _ _ => 0) (0 : ℕ) type name :=
    h.enters hdirs (by decide) htype hname (by
      rw [Nat.cast_zero, sLookup_fresh ⟨hname.1, by omega⟩ hdots]
      decide)
  obtain ⟨y, L, a, es', hok, hy, hL, hend, ha, hes', hinodes, hadd, -⟩ := h.sCreate_ok hchars.1
    hprint hlen he (by decide) (by decide)
  obtain rfl := Option.some.inj (hroot.symm.trans ha)
  obtain ⟨-, rfl⟩ := Namespace.root_dirs_eq_some hes'
  obtain ⟨e, -, hsame, he, hout, hinode, hnew⟩ := hadd.addr_inode hL.serves.1.image (by decide)
  obtain rfl := hsame (by decide)
  obtain ⟨x, hx, hold, -⟩ := hadd.block
  refine ⟨y.1, L, ?_, hL, hinodes _ _ hroot, ?_, he, hinode, fun hreg z hz => ?_, hend⟩
  · have hy : y = (y.1, 0) := Prod.ext rfl hy
    rw [← hy]
    exact hok
  · have hxblock := hold (by decide)
    rw [Server.freshLayout_addr] at hxblock
    obtain rfl := Option.some.inj hxblock
    exact hx
  · -- the first block of the file is as it was in memory, and the rest as it was on the disk
    subst hreg
    by_cases hblk : z < Server.freshLayout.stop + inodeSize + blockSize
    · obtain ⟨d, rfl⟩ := Nat.exists_eq_add_of_le hz
      exact hnew d (by omega)
    · rw [hout z (not_lt.1 hblk)]
      refine (fresh fun _ _ => 0).disk.zero z ?_
      rw [hsize]
      omega

/-- A file is created in the root directory of a new image. -/
theorem fresh_create (name : List UInt8) (type : ℤ) (hname : 1 ≤ name.length ∧ name.length < 60)
    (hchars : 0 ∉ name ∧ 37 ∉ name ∧ 46 ∉ name) (htype : type = 0 ∨ type = 1) :
    ∃ s L, (fresh fun _ _ => 0).sCreate (fun _ _ => 0) 0 type name = .ok (s, 0) ∧
      Server.Hosts s L (Names.create (Namespace.root [46] [46, 46]) 0 name type) ∧
      L.addr (.inode 0) = some (checkpointSize + imapSize) ∧
      blockArr (slice s.disk.bytes (checkpointSize + imapSize)) 0 =
        ((checkpointSize + imapSize + inodeSize : ℕ) : ℤ) ∧
      L.addr (.inode 1) = some Server.freshLayout.stop ∧
      EqTo inodeSize (slice s.disk.bytes Server.freshLayout.stop)
        (Server.newInode type Server.freshLayout.stop) ∧
      (type = 1 → ∀ z, Server.freshLayout.stop + inodeSize ≤ z → s.disk.bytes z = 0) ∧
      L.stop ≤ Server.freshLayout.stop + imapSize + inodeSize + 2 * blockSize :=
  fresh_create_printed name type hname ⟨hchars.1, hchars.2.2⟩ (sprintf_eq hchars.2.1 _) hname.2 htype

/-- A name that is not in a directory of one block, and that does not begin behind the block. -/
theorem Server.Hosts.sLookup_absent {s : Server} {L : Layout} {T : Names} {k a x : ℕ}
    {es : List (List UInt8 × ℕ)} (h : Server.Hosts s L T) (hes : T.dirs k = some es)
    (ha : L.addr (.inode k) = some a) (hone : es.length ≤ 64)
    (hx : blockArr (slice s.disk.bytes a) 0 = x) {c : UInt8} {l : List UInt8} (hlen : l.length < 60)
    (hname : ∀ e ∈ es, e.1 ≠ c :: l)
    (hbehind : ∀ t, s.disk.bytes (x + 4096 + 64 * t) = c → c = 0) :
    (s.sLookup (fun _ _ => 0) k (c :: l)).2 = -1 := by
  obtain ⟨a', ha', -, hholds, hne⟩ := h.directory hes
  obtain rfl := Option.some.inj (ha.symm.trans ha')
  have hpos := List.length_pos_iff.2 hne
  have hcount : Server.blockCount (slice s.disk.bytes a) - 1 = 0 := by
    rw [hholds.blockCount_eq]
    omega
  have hstray : strayMatch s (fun _ _ => 0) k (c :: l) = none := by
    rw [h.strayMatch_eq ha, find_eq_none]
    intro e he hstray
    obtain ⟨hc0, t, ht⟩ := Server.byte_of_mem_strays he hstray
    rw [hcount, hx, Int.toNat_natCast] at ht
    exact hc0 (hbehind t ht)
  have hlength : 1 ≤ (c :: l).length ∧ (c :: l).length ≤ 60 := ⟨Nat.succ_pos _, hlen⟩
  obtain ⟨⟨i, hi⟩, -⟩ | ⟨-, hr⟩ := h.sLookup_eq (fun _ _ => 0) hes hlength
  · obtain ⟨num, hnum, -⟩ := (hholds.inUse_iff h.serves.1.image ha).1 hi
    exact absurd rfl (hname _ hnum)
  · rw [hstray] at hr
    exact hr

/-- In a new image with one file, there is no file whose name begins with another letter. -/
theorem sLookup_created {s : Server} {L : Layout} {name : List UInt8}
    (h : Server.Hosts s L (Names.create (Namespace.root [46] [46, 46]) 0 name 1))
    (hroot : L.addr (.inode 0) = some (checkpointSize + imapSize))
    (hblock : blockArr (slice s.disk.bytes (checkpointSize + imapSize)) 0 =
      ((checkpointSize + imapSize + inodeSize : ℕ) : ℤ))
    (hinode : EqTo inodeSize (slice s.disk.bytes Server.freshLayout.stop)
      (Server.newInode 1 Server.freshLayout.stop))
    (hzero : ∀ z, Server.freshLayout.stop + inodeSize ≤ z → s.disk.bytes z = 0) {c : UInt8}
    {l : List UInt8} (hc : c ≠ 1 ∧ c ≠ 46) (hlen : l.length < 60) (hname : c :: l ≠ name) :
    (s.sLookup (fun _ _ => 0) (0 : ℕ) (c :: l)).2 = -1 := by
  have hes : (Names.create (Namespace.root [46] [46, 46]) 0 name 1).dirs 0 =
      some [([46], 0), ([46, 46], 0), (name, 1)] := rfl
  refine h.sLookup_absent hes hroot (by simp) hblock hlen (fun e he => ?_) fun t ht => ?_
  · simp only [List.mem_cons, List.not_mem_nil, or_false] at he
    obtain rfl | rfl | rfl := he
    · simp [hc.2.symm]
    · simp [hc.2.symm]
    · exact hname.symm
  · obtain rfl | hpos := Nat.eq_zero_or_pos t
    · have hfirst : s.disk.bytes Server.freshLayout.stop = 1 := hinode 0 (by decide)
      exact absurd (ht.symm.trans hfirst) hc.1
    · rw [hzero _ (by
        simp only [Server.freshLayout, Log.append_stop, Obj.size, Server.checkpointOnly, blockSize,
          inodeSize]
        omega)] at ht
      exact ht.symm

/-- The entry `b` in the contents of a file, behind its inode. -/
theorem find_intruder {m : Bytes} {size p : ℕ} (buf : Bytes) (hsize : p + 2 * inodeSize ≤ size)
    (htype : statType (slice m p) = REGULAR_FILE)
    (hblock : EqTo blockSize (slice m (p + inodeSize)) intruder) :
    find [98] (entries (Server.beyond m size p buf)) = some ([98], 7) := by
  have hbeyond : ∀ i < 2 * inodeSize, Server.beyond m size p buf i = m (p + i) :=
    fun i hi => if_pos (by omega)
  have hfirst : entryName (Server.beyond m size p buf) 0 ≠ [98] := by
    -- the first byte is that of the type of the inode
    have hbyte : Server.beyond m size p buf 0 ≠ 98 := by
      rw [hbeyond 0 (by decide)]
      intro h98
      have h0 : (slice m p 0).toNat = 98 := by rw [slice, h98]; rfl
      have hnum : toNat 4 (slice m p) = 98 + 256 * toNat 3 (slice (slice m p) 1) :=
        congrArg (· + 256 * toNat 3 (slice (slice m p) 1)) h0
      have htoInt : toInt (slice m p) = REGULAR_FILE := by
        rw [← htype, statType, word, Nat.mul_zero, slice_zero]
      simp only [toInt, REGULAR_FILE] at htoInt
      split_ifs at htoInt
      · omega
      · omega
    unfold entryName
    rw [Nat.mul_zero, slice_zero, cstr_succ]
    split_ifs
    · exact (List.cons_ne_nil _ _).symm
    · exact fun h => hbyte (List.cons.inj h).1
  have hsecond : entry (Server.beyond m size p buf) 1 = ([98], 7) := by
    have hbytes : EqTo 64 (slice (Server.beyond m size p buf) 64) intruder := by
      intro i hi
      have hi' : 64 + i < 2 * inodeSize := by simp only [inodeSize]; omega
      have hi'' : i < blockSize := by simp only [blockSize]; omega
      rw [slice, hbeyond _ hi', ← hblock i hi'', slice]
      exact congrArg m (Nat.add_assoc p 64 i).symm
    have hcongr : EqTo 64 (slice (slice (Server.beyond m size p buf) (64 * 1)) (64 * 0))
        (slice intruder (64 * 0)) := by
      rwa [Nat.mul_zero, slice_zero, slice_zero, Nat.mul_one]
    rw [← entry_slice, entry_congr hcongr, intruder,
      entry_setEntry (by decide) (by decide) (by decide), if_pos rfl]
  have hfind : ((List.range 64).find? fun j =>
      entryName (Server.beyond m size p buf) j = [98]) = some 1 := by
    refine List.find?_range_eq_some.2 ⟨?_, by decide, fun j hj => ?_⟩
    · exact decide_eq_true (congrArg Prod.fst hsecond)
    · obtain rfl : j = 0 := by omega
      simpa using hfirst
  rw [find_entries, hfind, Option.map_some, hsecond]

/-- The image after this run: the root directory has no entry `b`, but behind its block there is
one. -/
theorem intruded : ∃ s L, server.run (fresh fun _ _ => 0) intrusion = some s ∧
    Server.Hosts s L (Names.create (Namespace.root [46] [46, 46]) 0 [102] 1) ∧
    (¬ ∃ i, InUse s.disk.bytes 0 [98] i) ∧
    strayMatch s (fun _ _ => 0) 0 [98] = some ([98], 7) := by
  have hcname : (message .CREAT).cname = [102] := by decide +kernel
  obtain ⟨s₁, L₁, hcreate, h₁, hroot, hblockArr, ha, hinode, -⟩ := fresh_create [102] 1
    (by decide) (by decide) (Or.inr rfl)
  have hblock : L₁.addr (.block 1 0) = some (Server.freshLayout.stop + inodeSize) := by
    have hb := h₁.serves.1.image.block 1 _ ha 0 (by omega)
    rw [blockArr_eq hinode (by omega), blockArr, Server.newInode, word_ofWords (by decide)] at hb
    exact ref_eq_natCast.1 hb.symm
  have hreg : statType (slice s₁.disk.bytes Server.freshLayout.stop) = REGULAR_FILE := by
    rw [statType_eq hinode]
    exact word_ofWords (by decide)
  obtain ⟨y, i₁, hwrite, hy, hi₁, -, hbytes₁⟩ := Server.sWrite_of_block h₁.serves.1 ha hreg
    (by omega) hblock (fun _ _ => 0) intruder
  have hw := Server.overwritten h₁.serves.1 ha hi₁ (by omega) hblock intruder
  rw [← hbytes₁] at hw
  obtain ⟨L₂, h₂, hinodes⟩ := Server.sWrite_hosts h₁ hwrite
  have hrun : server.run (fresh fun _ _ => 0) intrusion = some y.1 := by
    refine Machine.run_cons_eq_some.2 ⟨s₁, Server.next_of_sCreate rfl (y := (s₁, 0)) ?_,
      Machine.run_cons_eq_some.2 ⟨y.1, Server.next_of_sWrite rfl hwrite, rfl⟩⟩
    rw [hcname]
    exact hcreate
  have hdirs : (Names.create (Namespace.root [46] [46, 46]) 0 [102] 1).dirs 0 =
      some [([46], 0), ([46, 46], 0), ([102], 1)] := rfl
  obtain ⟨a, ha₀, -, hholds, -⟩ := h₂.directory hdirs
  obtain rfl := Option.some.inj ((hinodes _ _ hroot).symm.trans ha₀)
  have hno : ¬ ∃ i, InUse y.1.disk.bytes 0 [98] i := by
    rintro ⟨i, hi⟩
    obtain ⟨num, hnum, -⟩ := (hholds.inUse_iff h₂.serves.1.image ha₀).1 hi
    simp at hnum
  have hblock₂ : L₂.addr (.block 1 0) = some (Server.freshLayout.stop + inodeSize) := by
    have hb := h₂.serves.1.image.block 1 _ (hinodes _ _ ha) 0 (by omega)
    rw [hw.block] at hb
    exact ref_eq_natCast.1 hb.symm
  have hmatch : strayMatch y.1 (fun _ _ => 0) 0 [98] = some ([98], 7) := by
    have hblock₀ : blockArr (slice y.1.disk.bytes (checkpointSize + imapSize)) 0 =
        ((checkpointSize + imapSize + inodeSize : ℕ) : ℤ) := by
      rw [Image.blockArr_congr (hw.frame _ _ (by simp) hroot) (by omega), hblockArr]
    have hsize : Server.freshLayout.stop + 2 * inodeSize ≤ y.1.disk.size :=
      calc Server.freshLayout.stop + 2 * inodeSize
          ≤ Server.freshLayout.stop + inodeSize + blockSize := by decide
        _ ≤ L₂.stop := L₂.within _ _ hblock₂
        _ ≤ y.1.disk.size := h₂.serves.1.size
    have hfirst := find_intruder (fun _ => 0) hsize (hw.type_eq.trans hreg) hw.content
    rw [h₂.strayMatch_eq ha₀, Server.strays, hholds.blockCount_eq]
    show find [98] ((List.range' 1 13).flatMap _) = _
    rw [List.range'_succ, List.flatMap_cons, find_append]
    show (find [98] (entries (Server.beyond _ _ ((blockArr _ 0).toNat + 4096) _))).or _ = _
    rw [hblock₀]
    exact congrArg (Option.or · _) hfirst
  exact ⟨y.1, L₂, hrun, h₂, hno, hmatch⟩

/-- **A lookup that finds a name in the contents of a file**: the root directory has no entry `b`,
and its lookup answers 7. -/
theorem lookup_in_a_file : ∃ s, server.run (fresh fun _ _ => 0) intrusion = some s ∧
    IsDirectory s.disk.bytes 0 ∧ (¬ ∃ i, InUse s.disk.bytes 0 [98] i) ∧
    (s.sLookup (fun _ _ => 0) 0 [98]).2 = 7 ∧ ¬ LookupExact s (fun _ _ => 0) 0 [98] := by
  obtain ⟨s, L, hrun, h, hno, hmatch⟩ := intruded
  have hdirs : (Names.create (Namespace.root [46] [46, 46]) 0 [102] 1).dirs 0 =
      some [([46], 0), ([46, 46], 0), ([102], 1)] := rfl
  have hlength : 1 ≤ [(98 : UInt8)].length ∧ [(98 : UInt8)].length ≤ 60 := by decide
  obtain ⟨hex, -⟩ | ⟨-, hr⟩ := h.sLookup_eq (fun _ _ => 0) hdirs hlength
  · exact absurd hex hno
  rw [hmatch] at hr
  refine ⟨s, hrun, h.isDirectory_iff.2 ⟨_, hdirs⟩, hno, hr, fun hexact => ?_⟩
  exact hno ⟨7, (hexact.1 7 (by decide)).1 hr⟩

end Mfs

end OperatingSystems

import OperatingSystems.Mfs.Lookups

/-!
# Creating after unlinking

`sUnlink` with another function `del` in the place of `delInode`.  After it removed an entry it
sets the size of the directory to 4096 for each *block*, while `sCreate` takes the size for 4096 for
each *entry*: the next entry is written over one that may be in use.

* `Server.unlinkWith`, `Server.handleWith`, `serverWith` : the server with `del`.
* `Taken m a q e` : the slot `q` of the directory with its inode at `a` is in use, with the entry `e`.
* `AddsEntry` : an entry was written into a slot that was unused, and all others that were in use are
  still there.
* `SlotFree` : the slot whose number is `size / 4096` is unused, and so is its block if the slot is
  the first one of it.
* `addsEntry_iff_of_run` : **in every run, creating keeps the other entries exactly where
  the slot is free**.
* `addsEntry_creation`, `create_after_unlink` : the first file gets a free slot; after it was removed,
  the next one overwrites the entry `..` of the root directory.
-/

namespace OperatingSystems

namespace Mfs

open Bytes

namespace Server

/-! ### The server with another `delInode` -/

/-- The part of `sUnlink` after the entry was found, with `del` for `delInode`. -/
def removeEntryWith (del : Server → Junk → ℤ → Except Stop Server) (s : Server) (junk : Junk)
    (pinumLoc : ℤ) (pInode dirBlk : Bytes) (delDirBlkLoc : ℤ) (delInd : ℕ) :
    Except Stop (Server × ℤ) :=
  let inum := entryInum dirBlk delInd
  if inum < 0 ∨ inum ≥ 4096 then .error .undefined
  else
    let delInodeLoc := s.inodeArr inum.toNat
    let (s, inodeDel) := (s.lseek delInodeLoc).read inodeSize (junk .inode)
    if statType inodeDel = DIRECTORY ∧ statSize inodeDel > 2 * 4096 then .ok (s, -1)
    else do
      let s ← del s junk delInodeLoc
      let dirBlk := setEntry dirBlk delInd [] (-1)
      let s := (s.lseek delDirBlkLoc).write blockSize dirBlk
      let sizeInd := ((List.range 14).filter fun i => blockArr pInode i ≠ -1).getLastD 0
      let pInode := setSize pInode ((sizeInd + 1) * 4096)
      let s := (s.lseek pinumLoc).write inodeSize pInode
      .ok (s.loadMem junk, 0)

/-- `sUnlink` with `del` for `delInode`. -/
def unlinkWith (del : Server → Junk → ℤ → Except Stop Server) (s : Server) (junk : Junk)
    (pinum : ℤ) (name : List UInt8) : Except Stop (Server × ℤ) :=
  let s := s.loadMem junk
  if pinum < 0 ∨ pinum > 4096 then .ok (s, -1)
  else if pinum = 4096 then .error .undefined
  else if s.inodeArr pinum.toNat = -1 then .ok (s, -1)
  else if name = [46, 46] ∨ name = [46] then .ok (s, -1)
  else if name.length > 60 then .ok (s, -1)
  else
    let pinumLoc := s.inodeArr pinum.toNat
    let (s, pInode) := (s.lseek pinumLoc).read inodeSize (junk .inode)
    if statType pInode ≠ DIRECTORY then .ok (s, -1)
    else
      match unlinkLoop name pInode (List.range 14) s (junk .dirBlk) with
      | (s, none) => .ok (s, -1)
      | (s, some (dirBlk, delDirBlkLoc, delInd)) =>
        s.removeEntryWith del junk pinumLoc pInode dirBlk delDirBlkLoc delInd

theorem removeEntry_eq : removeEntry = removeEntryWith delInode := by
  unfold removeEntry removeEntryWith
  rfl

theorem sUnlink_eq : sUnlink = unlinkWith delInode := by
  funext s junk pinum name
  unfold sUnlink unlinkWith
  rewrite [removeEntry_eq]
  generalize s.loadMem junk = t
  rfl

/-- `handle` with `del` for `delInode`. -/
def handleWith (del : Server → Junk → ℤ → Except Stop Server) (s : Server) (junk : Junk)
    (msg : Msg) : Except Stop (Server × Msg) :=
  if msg.lib = .UNLINK then (s.unlinkWith del junk msg.pinum msg.cname).map fun x =>
    (x.1, { msg with returnNum := x.2 })
  else s.handle junk msg

theorem handle_eq : handle = handleWith delInode := by
  funext s junk msg
  unfold handleWith
  split_ifs with h
  · simp only [handle, h, sUnlink_eq]
  · rfl

end Server

/-- All sequences of requests, with `del` for `delInode`. -/
def serverWith (del : Server → Junk → ℤ → Except Stop Server) : Machine Server (Msg × Junk) where
  next s l := (s.handleWith del l.2 l.1).toOption.map Prod.fst

theorem serverWith_next {del : Server → Junk → ℤ → Except Stop Server} {s : Server}
    {l : Msg × Junk} (h : l.1.lib ≠ .UNLINK) : (serverWith del).next s l = server.next s l := by
  simp only [serverWith, server, Server.handleWith, if_neg h]

theorem serverWith_next_unlink {del : Server → Junk → ℤ → Except Stop Server} {s : Server}
    {l : Msg × Junk} {y : Server × ℤ} (h : l.1.lib = .UNLINK)
    (hok : s.unlinkWith del l.2 l.1.pinum l.1.cname = .ok y) :
    (serverWith del).next s l = some y.1 := by
  simp only [serverWith, Server.handleWith, if_pos h, hok]
  rfl

/-! ### Slots -/

/-- The slot `q` of the directory with its inode at `a`, if its block exists. -/
def slotAt (m : Bytes) (a q : ℕ) : Option (List UInt8 × ℤ) :=
  if blockArr (slice m a) (q / 64) = -1 then none
  else some (entry (slice m (blockArr (slice m a) (q / 64)).toNat) (q % 64))

/-- The slot `q` is in use, with the entry `e`. -/
def Taken (m : Bytes) (a q : ℕ) (e : List UInt8 × ℤ) : Prop :=
  q < 14 * 64 ∧ slotAt m a q = some e ∧ e.2 ≠ -1

/-- A new entry with the name is in a slot that was unused, and all other entries that were in use
are where they were. -/
def AddsEntry (m m' : Bytes) (a : ℕ) (name : List UInt8) : Prop :=
  ∃ q name' e, sprintf name [60] = some name' ∧ (∀ e, ¬ Taken m a q e) ∧ Taken m' a q e ∧
    e.1 = name' ∧ ∀ q' e, q' ≠ q → Taken m a q' e → Taken m' a q' e

/-- The number of the slot that `sCreate` takes for the next entry. -/
def nextSlot (m : Bytes) (a : ℕ) : ℕ := (statSize (slice m a)).toNat / 4096

/-- The slot for the next entry is unused; if it is the first of its block, no other slot with this
block number is in use, since a new block comes in its place. -/
def SlotFree (m : Bytes) (a : ℕ) : Prop :=
  (∀ e, ¬ Taken m a (nextSlot m a) e) ∧
    (nextSlot m a % 64 = 0 → ∀ j < 64, ∀ e, ¬ Taken m a (nextSlot m a + j) e)

namespace Server

/-- The request creates a file, with the result `y`. -/
structure Creates (s : Server) (l : Msg × Junk) (y : Server × ℤ) : Prop where
  lib : l.1.lib = .CREAT
  enters : Enters s l.2 l.1.pinum l.1.type l.1.cname
  ok : s.sCreate l.2 l.1.pinum l.1.type l.1.cname = .ok y

/-- Where the inode of the directory of the request is. -/
def directoryAt (s : Server) (l : Msg × Junk) : ℕ :=
  ((s.loadMem l.2).inodeArr l.1.pinum.toNat).toNat

/-- The log of the image is in order as far as the directory `k` with its inode at `a` goes: the
checkpoint, the `p` pieces of the inode map, and the inode and the blocks of the directory do not
overlap and lie below the end of the log. -/
structure InOrder (s : Server) (junk : Junk) (k a : ℕ) (L : Layout) (p : ℕ) : Prop where
  tables : Tables (s.loadMem junk) L p
  inode : L.addr (.inode k) = some a
  alone : ∀ j ≠ k, L.addr (.inode j) = none ∧ ∀ b, L.addr (.block j b) = none
  loc : (s.loadMem junk).inodeArr k = a
  block : ∀ b < 14, blockArr (slice s.disk.bytes a) b = ref (L.addr (.block k b))
  size : 0 ≤ statSize (slice s.disk.bytes a)
  last : nextSlot s.disk.bytes a % 64 ≠ 0 →
    blockArr (slice s.disk.bytes a) (nextSlot s.disk.bytes a / 64) ≠ -1

variable {s : Server} {L : Layout} {p k a : ℕ} {junk : Junk} {name : List UInt8} {type : ℤ}
  {y : Server × ℤ}

/-- The number of the new file is not that of the directory. -/
theorem InOrder.ne_of_find (h : InOrder s junk k a L p) (hk : k < 4096) {n : ℕ}
    (hn : ((List.range 4096).find? fun i =>
      ((s.parent junk k name).1.loadMem junk).inodeArr i = -1) = some n) : n ≠ k := by
  rintro rfl
  rw [List.find?_range_eq_some] at hn
  have hfree := of_decide_eq_true hn.1
  rw [inodeArr, parent_iArr h.tables (by omega), ← inodeArr, h.loc] at hfree
  omega

/-- The slot for the next entry is in a directory that has room. -/
theorem InOrder.nextSlot_lt (h : InOrder s junk k a L p) (he : Enters s junk k type name) :
    nextSlot s.disk.bytes a < 14 * 64 := by
  have hk : k < 4096 := by have := he.range; omega
  have hroom := he.room
  rw [statSize_eq (parent_eqTo h.tables h.inode h.loc hk _)] at hroom
  unfold nextSlot
  omega

/-- **What `sCreate` writes** in a directory, if the log is in order. -/
theorem InOrder.sCreate_unless (h : InOrder s junk k a L p) (he : Enters s junk k type name)
    {n : ℕ} {name' : List UInt8} (hn : ((List.range 4096).find? fun i =>
      ((s.parent junk k name).1.loadMem junk).inodeArr i = -1) = some n)
    (hp : n % 16 = 0 → p < 256) (hname : sprintf name [60] = some name') (hlen : name'.length < 60)
    (h0 : 0 ∉ name') : Unless (2 ^ 31 ≤ L.stop + imapSize + inodeSize + 2 * blockSize)
      (s.sCreate junk k type name) fun y => y.2 = 0 ∧ ∃ L' p', Tables y.1 L' p' ∧
        L'.stop ≤ L.stop + imapSize + inodeSize + 2 * blockSize ∧
        Added s.disk.bytes y.1.disk.bytes L k a (nextSlot s.disk.bytes a) name' junk type n := by
  have hk : k < 4096 := by have := he.range; omega
  have hsize := h.size
  have hnk := h.ne_of_find hk hn
  have hnext := h.nextSlot_lt he
  refine (sCreate_tables h.tables he h.loc h.inode (by unfold nextSlot; omega) (fun hne => ?_) hn hp
    hnk ⟨(h.alone n hnk).1, (h.alone n hnk).2 0⟩ hname hlen h0).mono id
    fun y ⟨hzero, L', p', ht, hend, hadd, _⟩ => ⟨hzero, L', p', ht, hend, hadd⟩
  have hlast := h.last hne
  rw [h.block _ (by omega), ne_eq, ref_eq_neg_one] at hlast
  obtain ⟨x, hx⟩ := Option.ne_none_iff_exists'.1 hlast
  exact ⟨x, hx, by rw [h.block _ (by omega), hx, ref_some]⟩

theorem InOrder.added (h : InOrder s junk k a L p) (h0 : 0 ∉ name)
    (he : Enters s junk k type name) (hok : s.sCreate junk k type name = .ok y) :
    ∃ n name', sprintf name [60] = some name' ∧
      Added s.disk.bytes y.1.disk.bytes L k a (nextSlot s.disk.bytes a) name' junk type n := by
  obtain ⟨n, name', hn, hp, hname, hlen, -⟩ := sCreate_ok h.tables he hok
  obtain ⟨-, L', p', -, -, hadd⟩ :=
    (h.sCreate_unless he hn hp hname hlen (sprintf_spec h0 hname).1).of_ok hok
  exact ⟨n, name', hname, hadd⟩

/-! ### Exactly where the other entries are kept -/

section

variable {m m' : Bytes} {c n : ℕ} {name' : List UInt8}

theorem slotAt_eq_some {e : List UInt8 × ℤ} {q : ℕ} : slotAt m a q = some e ↔
    blockArr (slice m a) (q / 64) ≠ -1 ∧
      entry (slice m (blockArr (slice m a) (q / 64)).toNat) (q % 64) = e := by
  unfold slotAt
  split_ifs with h <;> simp [h]

/-- Where the slots in the other blocks are after an entry was added. -/
theorem Added.slotAt_of_ne (hadd : Added m m' L k a c name' junk type n)
    (hblock : ∀ b < 14, blockArr (slice m a) b = ref (L.addr (.block k b))) {q : ℕ}
    (hq : q < 14 * 64) (hne : q / 64 ≠ c / 64) : slotAt m' a q = slotAt m a q := by
  have hb : q / 64 < 14 := by omega
  unfold slotAt
  rw [hadd.blocks _ hb hne]
  split_ifs with hnone
  · rfl
  · rw [hblock _ hb] at hnone ⊢
    obtain ⟨x, hx⟩ := Option.ne_none_iff_exists'.1 (ref_eq_neg_one.not.1 hnone)
    rw [hx, ref_some, Int.toNat_natCast]
    exact congrArg some (entry_eq (hadd.frame _ _ (by simp [hne]) hx) (Nat.mod_lt _ (by omega)))

/-- What is in the slots of the block with the new entry. -/
theorem Added.slotAt_self (hadd : Added m m' L k a c name' junk type n)
    (hblock : ∀ b < 14, blockArr (slice m a) b = ref (L.addr (.block k b))) (hc : c < 14 * 64)
    {q : ℕ} (hq : q / 64 = c / 64) : slotAt m' a q =
      if q = c then some (name', (n : ℤ)) else if c % 64 = 0 then some unused else slotAt m a q := by
  obtain ⟨x, hx, hold, hentry⟩ := hadd.block
  have hslot : slotAt m' a q = some (entry (slice m' x) (q % 64)) := by
    rw [slotAt_eq_some, hq, hx]
    exact ⟨by omega, rfl⟩
  rw [hslot, hentry _ (Nat.mod_lt _ (by omega))]
  by_cases hqc : q = c
  · rw [if_pos hqc, if_pos (by rw [hqc])]
  rw [if_neg hqc, if_neg (by omega)]
  by_cases hzero : c % 64 = 0
  · rw [if_pos hzero, if_pos hzero]
  · rw [if_neg hzero, if_neg hzero]
    refine (slotAt_eq_some.2 ?_).symm
    rw [hq, hblock _ (by omega), hold hzero, ref_some]
    exact ⟨by omega, rfl⟩

/-- **An entry is added** exactly where the slot for it is free. -/
theorem Added.addsEntry_iff (hadd : Added m m' L k a (nextSlot m a) name' junk type n)
    (hblock : ∀ b < 14, blockArr (slice m a) b = ref (L.addr (.block k b)))
    (hc : nextSlot m a < 14 * 64) (hname : sprintf name [60] = some name') :
    AddsEntry m m' a name ↔ SlotFree m a := by
  set c := nextSlot m a with hcdef
  constructor
  · rintro ⟨q, -, e, -, hfree, ⟨hq, hnew, hused⟩, -, hkeep⟩
    -- no other slot comes into use
    have hqc : q = c := by
      by_contra hqc
      by_cases hblk : q / 64 = c / 64
      · rw [hadd.slotAt_self hblock hc hblk, if_neg hqc] at hnew
        split_ifs at hnew
        · rw [← Option.some.inj hnew] at hused
          exact hused rfl
        · exact hfree e ⟨hq, hnew, hused⟩
      · rw [hadd.slotAt_of_ne hblock hq hblk] at hnew
        exact hfree e ⟨hq, hnew, hused⟩
    subst hqc
    refine ⟨hfree, fun hzero j hj e' he' => ?_⟩
    obtain rfl | hj0 := Nat.eq_zero_or_pos j
    · exact hfree e' he'
    · obtain ⟨-, hafter, hused'⟩ := hkeep (c + j) e' (by omega) he'
      rw [hadd.slotAt_self hblock hc (by omega), if_neg (by omega), if_pos hzero] at hafter
      rw [← Option.some.inj hafter] at hused'
      exact hused' rfl
  · rintro ⟨hfree, hfirst⟩
    refine ⟨c, name', (name', (n : ℤ)), hname, hfree, ⟨hc, ?_, ?_⟩, rfl, fun q e hqc he => ?_⟩
    · rw [hadd.slotAt_self hblock hc rfl, if_pos rfl]
    · show (n : ℤ) ≠ -1
      omega
    · obtain ⟨hq, hslot, hused⟩ := he
      refine ⟨hq, ?_, hused⟩
      by_cases hblk : q / 64 = c / 64
      · by_cases hzero : c % 64 = 0
        · have hnot := hfirst hzero (q - c) (by omega) e
          rw [show c + (q - c) = q by omega] at hnot
          exact absurd (show Taken m a q e from ⟨hq, hslot, hused⟩) hnot
        · rw [hadd.slotAt_self hblock hc hblk, if_neg hqc, if_neg hzero, hslot]
      · rw [hadd.slotAt_of_ne hblock hq hblk, hslot]

end

end Server

/-- The objects of one directory, the checkpoint and the inode map. -/
def Obj.ofDirectory (k : ℕ) : Obj → Bool
  | .checkpoint => true
  | .piece _ => true
  | .inode j => j = k
  | .block j _ => j = k

namespace Server

variable {s s' : Server} {L : Layout} {T : Names} {p k a : ℕ} {junk : Junk} {name : List UInt8}
  {es : List (List UInt8 × ℕ)}

theorem restrict_addr {o : Obj} (h : o.ofDirectory k = true) :
    (L.restrict fun o => o.ofDirectory k).addr o = L.addr o :=
  L.restrict_addr h

theorem Tables.restrict (h : Tables s L p) (k : ℕ) :
    Tables s (L.restrict fun o => o.ofDirectory k) p where
  checkpoint := by
    rw [restrict_addr rfl]
    exact h.checkpoint
  piece_iff i := by
    rw [restrict_addr rfl]
    exact h.piece_iff i
  p_le := h.p_le
  size := h.size
  chkpt := h.chkpt
  endLog := h.endLog
  imap i hi := by
    rw [restrict_addr rfl]
    exact h.imap i hi

/-- The log is in order for all directories of an image that represents a namespace. -/
theorem Hosts.inOrder (h : Hosts s L T) (hes : T.dirs k = some es) (ha : L.addr (.inode k) = some a)
    (junk : Junk) : InOrder s junk k a (L.restrict fun o => o.ofDirectory k)
      ((T.count + 15) / 16) := by
  have hl := h.serves.1
  have hload := (hl.readOnly.loadMem junk).1
  obtain ⟨-, hholds⟩ := h.serves.2.directory k a es ha hes
  have hlen := hholds.length_le
  have hsame : ∀ b, (L.restrict fun o => o.ofDirectory k).addr (.block k b) =
      L.addr (.block k b) := fun b => restrict_addr (by simp [Obj.ofDirectory])
  have hnext : nextSlot s.disk.bytes a = es.length := by
    rw [nextSlot, hholds.size]
    omega
  refine ⟨hload.tables.restrict k, ?_, fun j hj => ⟨?_, fun b => ?_⟩, ?_, fun b hb => ?_, ?_,
    fun hne => ?_⟩
  · rw [restrict_addr (by simp [Obj.ofDirectory]), ha]
  · exact L.restrict_addr_of_not (by simp [Obj.ofDirectory, hj])
  · exact L.restrict_addr_of_not (by simp [Obj.ofDirectory, hj])
  · rw [hload.inodeArr_eq, ha, ref_some]
  · rw [hsame, hl.image.block k a ha b hb]
  · rw [hholds.size]
    omega
  · rw [hnext] at hne ⊢
    exact (hholds.alloc _ (by omega)).2 (by omega)

/-- The slots behind the entries of a directory are free. -/
theorem Hosts.slotFree (h : Hosts s L T) (hes : T.dirs k = some es) (ha : L.addr (.inode k) = some a) :
    SlotFree s.disk.bytes a := by
  obtain ⟨-, hholds⟩ := h.serves.2.directory k a es ha hes
  have hnext : nextSlot s.disk.bytes a = es.length := by
    rw [nextSlot, hholds.size]
    omega
  have hfree : ∀ q e, es.length ≤ q → ¬ Taken s.disk.bytes a q e := by
    rintro q e hle ⟨hq, hslot, hused⟩
    obtain ⟨halloc, hentry⟩ := slotAt_eq_some.1 hslot
    obtain ⟨x, hx, -⟩ := hholds.exists_block h.serves.1.image ha
      ((hholds.alloc (q / 64) (by omega)).1 halloc)
    rw [hx, Int.toNat_natCast, hholds.slots _ (by omega) x hx _ (Nat.mod_lt _ (by omega)),
      Nat.div_add_mod, List.getElem?_eq_none hle] at hentry
    exact hused (congrArg Prod.snd hentry).symm
  exact ⟨fun e => hfree _ e (by omega), fun _ j _ e => hfree _ e (by omega)⟩

/-- `delInode` without any effect. -/
def keepInode (s : Server) (_ : Junk) (_ : ℤ) : Except Stop Server := .ok s

variable (junk) in
/-- **How `sUnlink` goes on in a directory**: it removes the first entry with the name. -/
theorem unlinkWith_directory {n : ℕ} (h : Loaded s L n p) (ha : L.addr (.inode k) = some a)
    (hd : statType (slice s.disk.bytes a) = DIRECTORY) (hholds : Holds s.disk.bytes a es)
    (hdots : name ≠ [46] ∧ name ≠ [46, 46]) (hlen : name.length ≤ 60)
    (del : Server → Junk → ℤ → Except Stop Server) :
    (locate s.disk.bytes name (slice s.disk.bytes a) (List.range 14) = none ∧
      ∃ t, s.unlinkWith del junk k name = .ok (t, -1)) ∨
    ∃ b j d pInode t, locate s.disk.bytes name (slice s.disk.bytes a) (List.range 14) = some (b, j) ∧
      EqTo blockSize d (slice s.disk.bytes (blockArr (slice s.disk.bytes a) b).toNat) ∧
      EqTo inodeSize pInode (slice s.disk.bytes a) ∧ Alike (s.loadMem junk) t ∧
      s.unlinkWith del junk k name =
        t.removeEntryWith del junk a pInode d (blockArr (slice s.disk.bytes a) b) j := by
  have hk := h.inode_lt ha
  obtain ⟨hloc, -, hinode⟩ := read_directory h ha junk
  generalize hr : ((s.loadMem junk).lseek a).read inodeSize (junk .inode) = r at hinode
  obtain ⟨hafter, hres⟩ := unlinkLoop_locate junk h ha hholds name hr
  have hunlink : ∀ t found, unlinkLoop name r.2 (List.range 14) r.1 (junk .dirBlk) = (t, found) →
      s.unlinkWith del junk k name = found.elim (.ok (t, -1)) fun x =>
        t.removeEntryWith del junk a r.2 x.1 x.2.1 x.2.2 := fun t found hu => by
    unfold unlinkWith
    dsimp only
    rw [if_neg (by omega), if_neg (by omega), Int.toNat_natCast, hloc, if_neg (by omega),
      if_neg (not_or.2 ⟨hdots.2, hdots.1⟩), if_neg (by omega), hr,
      if_neg (by rw [not_not, statType_eq hinode, hd]), hu]
    cases found <;> rfl
  generalize unlinkLoop name r.2 (List.range 14) r.1 (junk .dirBlk) = u at hafter hres hunlink
  obtain ⟨t, found⟩ := u
  replace hunlink := hunlink t found rfl
  obtain ⟨hnone, rfl⟩ | ⟨b, j, d, hsome, rfl, hd⟩ := hres
  · exact Or.inl ⟨hnone, t, hunlink⟩
  · exact Or.inr ⟨b, j, d, r.2, t, hsome, hd, hinode, hafter, hunlink⟩

/-- The only entry with a name is found. -/
theorem locate_of_once (h : Hosts s L T) (hes : T.dirs k = some es)
    (ha : L.addr (.inode k) = some a) {q : ℕ} {e : List UInt8 × ℕ} (he : es[q]? = some e)
    (honce : ∀ q' e', es[q']? = some e' → e'.1 = e.1 → q' = q) :
    locate s.disk.bytes e.1 (slice s.disk.bytes a) (List.range 14) = some (q / 64, q % 64) := by
  obtain ⟨hl, hr⟩ := h.serves
  have hholds := (hr.directory k a es ha hes).2
  cases hloc : locate s.disk.bytes e.1 (slice s.disk.bytes a) (List.range 14) with
  | none => exact absurd rfl (ne_of_locate_eq_none hl ha hholds hloc e (List.mem_of_getElem? he))
  | some x =>
    obtain ⟨b, j⟩ := x
    obtain ⟨-, hj, -, hslot, hname⟩ := slot_of_locate hl ha hholds hloc
    replace hslot := congrArg Prod.fst hslot
    change entryName _ j = _ at hslot
    rw [hname] at hslot
    have hq : 64 * b + j = q := by
      cases he' : es[64 * b + j]? with
      | none =>
        rw [he'] at hslot
        exact absurd hslot (hholds.names e (List.mem_of_getElem? he)).1
      | some e' =>
        rw [he'] at hslot
        exact honce _ e' he' hslot.symm
    obtain ⟨rfl, rfl⟩ : b = q / 64 ∧ j = q % 64 := by omega
    rfl

variable (junk) in
/-- **What `sUnlink` writes** to remove the entry `q` of a file that is no directory with entries, if
`delInode` has no effect. -/
theorem unlinkWith_keepInode (h : Hosts s L T) (hes : T.dirs k = some es)
    (ha : L.addr (.inode k) = some a) {q : ℕ} {e : List UInt8 × ℕ} (he : es[q]? = some e)
    (hfind : locate s.disk.bytes e.1 (slice s.disk.bytes a) (List.range 14) =
      some (q / 64, q % 64))
    (hdots : e.1 ≠ [46] ∧ e.1 ≠ [46, 46]) {a' : ℕ} (ha' : L.addr (.inode e.2) = some a')
    (hempty : ¬ (statType (slice s.disk.bytes a') = DIRECTORY ∧
      statSize (slice s.disk.bytes a') > 2 * 4096))
    {del : Server → Junk → ℤ → Except Stop Server} (hdel : ∀ t, del t junk a' = .ok t) :
    ∃ s' x, s.unlinkWith del junk k e.1 = .ok (s', 0) ∧ Tables s' L ((T.count + 15) / 16) ∧
      L.addr (.block k (q / 64)) = some x ∧
      L.Frame (fun o => o = .inode k ∨ o = .block k (q / 64)) s.disk.bytes s'.disk.bytes ∧
      (∃ inode, EqTo inodeSize inode (slice s.disk.bytes a) ∧ EqTo inodeSize (slice s'.disk.bytes a)
        (setSize inode (4096 * ((es.length + 63) / 64 : ℕ)))) ∧
      EqTo blockSize (slice s'.disk.bytes x) (setEntry (slice s.disk.bytes x) (q % 64) [] (-1)) ∧
      s'.iArr = s.iArr ∧
      ∀ z, a + inodeSize ≤ z → x + blockSize ≤ z → s'.disk.bytes z = s.disk.bytes z := by
  obtain ⟨hl, hr⟩ := h.serves
  obtain ⟨hd, hholds⟩ := hr.directory k a es ha hes
  have hlen := hholds.length_le
  obtain ⟨hname, hname60⟩ := hholds.names e (List.mem_of_getElem? he)
  obtain ⟨hlt, -⟩ := List.getElem?_eq_some_iff.1 he
  obtain ⟨x, hx, hxaddr⟩ := hholds.exists_block hl.image ha (b := q / 64) (by omega)
  obtain ⟨hnone, -⟩ | ⟨b, j, d, pInode, t, hsome, hblk, hinode, hafter, hunlink⟩ :=
    unlinkWith_directory junk hl ha hd hholds hdots (by omega) del
  · rw [hfind] at hnone
    cases hnone
  rw [hfind] at hsome
  obtain ⟨rfl, rfl⟩ := Prod.mk.inj (Option.some.inj hsome)
  -- the loop stops at the entry `e`
  have hslot : entry d (q % 64) = slot (some e) := by
    rw [entry_eq hblk (Nat.mod_lt _ (by omega)), hx, Int.toNat_natCast,
      hholds.slots _ (by omega) x hx _ (Nat.mod_lt _ (by omega)), Nat.div_add_mod, he]
  have hinum : entryInum d (q % 64) = e.2 := congrArg Prod.snd hslot
  rw [hx] at hunlink hblk
  rw [Int.toNat_natCast] at hblk
  have hk' := hl.inode_lt ha'
  have hload := (hl.readOnly.loadMem junk).1
  have hafter' : ReadOnly s t L T.count ((T.count + 15) / 16) :=
    ⟨hload.congr hafter.bytes hafter.size hafter.chkpt hafter.iArr,
      hafter.bytes.trans (loadMem_bytes s junk)⟩
  have hloc' : t.inodeArr e.2 = a' := by rw [hafter'.1.inodeArr_eq, ha', ref_some]
  have hinode' := hafter'.1.read_inode ha' (junk .inode)
  rw [hafter'.2] at hinode'
  -- the blocks in use come first, and the new size is the end of the last of them
  have hblocks : (List.range 14).filter (fun i => blockArr pInode i ≠ -1) =
      List.range' 0 ((es.length + 63) / 64) :=
    filter_blocks (by omega) fun i hi => by rw [blockArr_eq hinode hi]; exact hholds.alloc_iff i hi
  obtain ⟨B, hB⟩ : ∃ B, (es.length + 63) / 64 = B + 1 := ⟨(es.length + 63) / 64 - 1, by omega⟩
  have hlast : (List.range' 0 (B + 1)).getLastD 0 = B := by
    rw [List.range'_1_concat, List.getLastD_concat, Nat.zero_add]
  set w := ((t.lseek a').read inodeSize (junk .inode)).1 with hw
  have halike : Alike (s.loadMem junk) w := hafter.read _ _ _
  have htables : Tables w L ((T.count + 15) / 16) := hload.tables.alike halike
  have hx1028 := htables.checkpointSize_le (by simp) hxaddr
  have ha1028 := htables.checkpointSize_le (by simp) ha
  -- the block with the entry and the inode are written, and nothing else
  set v := (((w.lseek x).write blockSize (setEntry d (q % 64) [] (-1))).lseek a).write inodeSize
    (setSize pInode ((B + 1) * 4096)) with hv
  have hvtables : Tables v L ((T.count + 15) / 16) :=
    (htables.write hx1028 blockSize _).write ha1028 inodeSize _
  have hbytes : v.disk.bytes = patch (patch s.disk.bytes x blockSize
      (setEntry d (q % 64) [] (-1))) a inodeSize (setSize pInode ((B + 1) * 4096)) := by
    rw [hv, write_bytes, write_bytes, halike.bytes, loadMem_bytes]
  have hframe : L.Frame (fun o => o = .inode k ∨ o = .block k (q / 64)) s.disk.bytes
      v.disk.bytes := by
    have h₁ : L.Frame (fun o => o = .inode k ∨ o = .block k (q / 64)) s.disk.bytes
        (patch s.disk.bytes x blockSize (setEntry d (q % 64) [] (-1))) :=
      Log.frame_write (Or.inr rfl) hxaddr le_rfl le_rfl
    rw [hbytes]
    exact h₁.trans (Log.frame_write (Or.inl rfl) ha le_rfl le_rfl)
  have hiArr : (v.loadMem junk).iArr = s.iArr := by
    rw [Tables.iArr_congr hload.tables (hvtables.loadMem junk) (hframe.mono (by simp)), hload.iArr,
      hl.iArr]
  refine ⟨v.loadMem junk, x, ?_, hvtables.loadMem junk, hxaddr, ?_, ?_, ?_, hiArr, ?_⟩
  · rw [hunlink]
    unfold removeEntryWith
    dsimp only
    rw [hinum, if_neg (by omega), Int.toNat_natCast, hloc', if_neg (by
      rw [statType_eq hinode', statSize_eq hinode']
      exact hempty), hdel, hblocks, hB, hlast]
    rfl
  all_goals rw [loadMem_bytes]
  · exact hframe
  all_goals rw [hbytes]
  · refine ⟨pInode, hinode, ?_⟩
    rw [hB, show (4096 * ((B + 1 : ℕ) : ℤ)) = (B + 1) * 4096 by push_cast; ring]
    exact slice_patch _ _ _ _
  · have hdisjoint : a + inodeSize ≤ x ∨ x + blockSize ≤ a := L.disjoint _ _ _ _ (by simp) ha hxaddr
    exact (slice_patch_of_disjoint hdisjoint).trans
      ((slice_patch _ _ _ _).trans (setEntry_congr hblk))
  · intro z hza hzx
    rw [patch_of_le hza, patch_of_le hzx]

/-- The log is in order after the removal; the next entry goes into the slot whose number is that of
the *blocks* of the directory. -/
theorem inOrder_of_removed (h : Hosts s L T) (hes : T.dirs k = some es)
    (ha : L.addr (.inode k) = some a) (htables : Tables s' L ((T.count + 15) / 16)) {b : ℕ}
    (hframe : L.Frame (fun o => o = .inode k ∨ o = .block k b) s.disk.bytes s'.disk.bytes)
    {inode : Bytes} (hinode : EqTo inodeSize inode (slice s.disk.bytes a))
    (hafter : EqTo inodeSize (slice s'.disk.bytes a)
      (setSize inode (4096 * ((es.length + 63) / 64 : ℕ)))) (junk : Junk) :
    InOrder s' junk k a (L.restrict fun o => o.ofDirectory k) ((T.count + 15) / 16) ∧
      (s'.loadMem junk).iArr = s.iArr ∧ nextSlot s'.disk.bytes a = (es.length + 63) / 64 := by
  have hl := h.serves.1
  have hload := (hl.readOnly.loadMem junk).1
  have hold := h.inOrder hes ha junk
  have hlen := (h.serves.2.directory k a es ha hes).2.length_le
  have hiArr : (s'.loadMem junk).iArr = (s.loadMem junk).iArr :=
    Tables.iArr_congr hload.tables (htables.loadMem junk) (hframe.mono (by simp))
  have hsize : statSize (slice s'.disk.bytes a) = 4096 * ((es.length + 63) / 64 : ℕ) := by
    rw [statSize_eq hafter]
    exact statSize_setSize (by omega)
  have hblocks : ∀ c < 14, blockArr (slice s'.disk.bytes a) c = blockArr (slice s.disk.bytes a) c := by
    intro c hc
    rw [blockArr_eq hafter hc, blockArr_setSize, blockArr_eq hinode hc]
  have hnext : nextSlot s'.disk.bytes a = (es.length + 63) / 64 := by
    rw [nextSlot, hsize]
    omega
  refine ⟨⟨(htables.loadMem junk).restrict k, hold.inode, hold.alone, ?_, fun c hc => ?_, ?_,
    fun hne => ?_⟩, by rw [hiArr, hload.iArr, hl.iArr], hnext⟩
  · rw [inodeArr, hiArr]
    exact hold.loc
  · rw [hblocks c hc]
    exact hold.block c hc
  · omega
  · rw [hnext] at hne ⊢
    have hholds := (h.serves.2.directory k a es ha hes).2
    rw [hblocks _ (by omega)]
    exact (hholds.alloc _ (by omega)).2 (by omega)

end Server

/-- The file `f` is created in the root directory. -/
def creation : List (Msg × Junk) := [(message .CREAT, fun _ _ => 0)]

/-- The file `f` is created and removed again. -/
def removal : List (Msg × Junk) := creation ++ [(message .UNLINK, fun _ _ => 0)]

/-- The file `g` is to be created in the root directory. -/
def nextCreation : Msg × Junk := ({ message .CREAT with name := ofCstr [103] }, fun _ _ => 0)

/-- The root directory after the file `f` was removed: it has the entries `.` and `..`, but its size
is 4096; behind its block there is the inode of a file, and then zeros. -/
structure AfterRemoval (s : Server) (L : Layout) : Prop where
  run : (serverWith Server.keepInode).run (fresh fun _ _ => 0) removal = some s
  order : s.InOrder (fun _ _ => 0) 0 (checkpointSize + imapSize) L 1
  stop : L.stop < 2 ^ 20
  inodes : (s.loadMem fun _ _ => 0).iArr = s.iArr
  free : ((List.range 4096).find? fun i => s.inodeArr i = -1) = some 2
  type : statType (slice s.disk.bytes (checkpointSize + imapSize)) = DIRECTORY
  size : statSize (slice s.disk.bytes (checkpointSize + imapSize)) = 4096
  alloc : ∀ b < 14, blockArr (slice s.disk.bytes (checkpointSize + imapSize)) b ≠ -1 ↔ b < 1
  block : blockArr (slice s.disk.bytes (checkpointSize + imapSize)) 0 =
    ((checkpointSize + imapSize + inodeSize : ℕ) : ℤ)
  entries : ∀ j < 64, entry (slice s.disk.bytes (checkpointSize + imapSize + inodeSize)) j =
    if j = 0 then ([46], 0) else if j = 1 then ([46, 46], 0) else unused
  first : s.disk.bytes Server.freshLayout.stop = 1
  rest : ∀ z, Server.freshLayout.stop + inodeSize ≤ z → s.disk.bytes z = 0

/-- A name that is in a directory once is in one slot. -/
theorem eq_of_name {es : List (List UInt8 × ℕ)} (hnodup : (es.map Prod.fst).Nodup) {q q' : ℕ}
    {e e' : List UInt8 × ℕ} (he : es[q]? = some e) (he' : es[q']? = some e') (hname : e'.1 = e.1) :
    q' = q := by
  have hmap : (es.map Prod.fst)[q']? = (es.map Prod.fst)[q]? := by
    rw [List.getElem?_map, List.getElem?_map, he, he', Option.map_some, Option.map_some, hname]
  refine (List.getElem?_inj ?_ hnodup).1 hmap
  rw [List.length_map]
  exact (List.getElem?_eq_some_iff.1 he').1

theorem afterRemoval : ∃ s L, AfterRemoval s L := by
  obtain ⟨s₁, L₁, hcreate, h₁, hroot, hblock, ha, hinode, hzero, hend⟩ := fresh_create [102] 1
    (by decide) (by decide) (Or.inr rfl)
  have hes : (Names.create (Namespace.root [46] [46, 46]) 0 [102] 1).dirs 0 =
      some [([46], 0), ([46, 46], 0), ([102], 1)] := rfl
  obtain ⟨hd, hholds⟩ := h₁.serves.2.directory 0 _ _ hroot hes
  obtain ⟨a', ha'⟩ := Option.isSome_iff_exists.1 ((h₁.serves.1.image.inode_iff 1).2 (by decide))
  have hreg := h₁.serves.2.file 1 a' ha' rfl
  -- the entry of the file is the third one of the root
  obtain ⟨s, x, hunlink, htables, hx, hframe, ⟨inode, hold, hnew⟩, hentries, hiArr, hout⟩ :=
    Server.unlinkWith_keepInode (fun _ _ => 0) h₁ hes hroot (q := 2) (e := ([102], 1)) rfl
      (Server.locate_of_once h₁ hes hroot rfl fun _ _ => eq_of_name (by decide) rfl) (by decide) ha'
      (fun hdir => absurd (hreg.symm.trans hdir.1) (by decide))
      (show ∀ t, Server.keepInode t (fun _ _ => 0) a' = .ok t from fun _ => rfl)
  obtain rfl : x = checkpointSize + imapSize + inodeSize := by
    have hx' := h₁.serves.1.image.block 0 _ hroot 0 (by omega)
    rw [hblock, hx, ref_some] at hx'
    exact_mod_cast hx'.symm
  obtain ⟨horder, hinodes, -⟩ := Server.inOrder_of_removed h₁ hes hroot htables hframe hold hnew
    fun _ _ => 0
  have hblocks : ∀ b < 14, blockArr (slice s.disk.bytes (checkpointSize + imapSize)) b =
      blockArr (slice s₁.disk.bytes (checkpointSize + imapSize)) b := by
    intro b hb
    rw [blockArr_eq hnew hb, blockArr_setSize, blockArr_eq hold hb]
  have hstop : Server.freshLayout.stop = checkpointSize + imapSize + inodeSize + blockSize := rfl
  -- behind the log the disk is as the creation left it
  have hbehind : ∀ z, Server.freshLayout.stop ≤ z → s.disk.bytes z = s₁.disk.bytes z :=
    fun z hz => hout z (by omega) (by omega)
  refine ⟨s, _, ⟨?_, horder, ?_, hinodes.trans hiArr.symm, ?_, ?_, ?_, fun b hb => ?_, ?_,
    fun j hj => ?_, ?_, fun z hz => ?_⟩⟩
  · have hcname : (message .CREAT).cname = [102] := by decide +kernel
    refine Machine.run_cons_eq_some.2 ⟨s₁, ?_, Machine.run_cons_eq_some.2
      ⟨s, serverWith_next_unlink rfl (y := (s, 0)) ?_, rfl⟩⟩
    · rw [serverWith_next (by decide)]
      refine Server.next_of_sCreate rfl (y := (s₁, 0)) ?_
      rw [hcname]
      exact hcreate
    · have hcname' : (message .UNLINK).cname = [102] := hcname
      rw [hcname']
      exact hunlink
  · exact hend.trans_lt (by decide)
  · have hsame : s.inodeArr = s₁.inodeArr := by
      funext i
      rw [Server.inodeArr, hiArr, ← Server.inodeArr]
    rw [hsame]
    exact h₁.serves.1.find_inode (by decide)
  · rw [statType_eq hnew, statType_setSize, statType_eq hold, hd]
  · rw [statSize_eq hnew]
    exact statSize_setSize (by decide)
  · rw [hblocks b hb, hholds.alloc b hb]
    simp
    omega
  · rw [hblocks 0 (by omega), hblock]
  · rw [entry_eq hentries hj, entry_setEntry (by decide) (by decide) (by decide),
      hholds.slots 0 (by omega) _ hblock j hj]
    obtain rfl | rfl | rfl | hj' : j = 0 ∨ j = 1 ∨ j = 2 ∨ 3 ≤ j := by omega
    · rfl
    · rfl
    · rfl
    · rw [if_neg (by omega), if_neg (by omega), if_neg (by omega),
        List.getElem?_eq_none (by rw [Nat.mul_zero, Nat.zero_add]; exact hj')]
      rfl
  · rw [hbehind _ le_rfl]
    have hfirst : s₁.disk.bytes Server.freshLayout.stop = _ := hinode 0 (by decide)
    rw [hfirst]
    rfl
  · rw [hbehind z (by omega), hzero rfl z hz]

namespace AfterRemoval

variable {s : Server} {L : Layout}

/-- There is no file `g`: behind the block of the directory, no name begins with this letter. -/
theorem sLookup (h : AfterRemoval s L) :
    (s.sLookup (fun _ _ => 0) (0 : ℕ) [103]).2 = -1 := by
  have hblock := h.order.inode
  have hsize := h.order.tables.size
  rw [Server.loadMem_size] at hsize
  have hB : ∀ b < 1, ∃ x : ℕ, blockArr (slice s.disk.bytes (checkpointSize + imapSize)) b = x ∧
      x + blockSize ≤ s.disk.size := by
    intro b hb
    obtain rfl : b = 0 := by omega
    have hx := h.order.block 0 (by omega)
    rw [h.block] at hx
    exact ⟨_, h.block, (L.within _ _ (ref_eq_natCast.1 hx.symm)).trans hsize⟩
  rw [Server.sLookup_of_tables h.order.tables h.order.inode h.order.loc (by omega) h.type (by omega)
    h.alloc hB (by decide)]
  have hcount := Server.blockCount_eq (by omega) h.alloc
  have hnone : find [103] (Server.own s.disk.bytes (slice s.disk.bytes (checkpointSize + imapSize)) ++
      Server.strays s.disk.bytes s.disk.size (fun _ _ => 0)
        (slice s.disk.bytes (checkpointSize + imapSize))) = none := by
    rw [find_eq_none]
    rintro e he hname
    obtain hown | hstray := List.mem_append.1 he
    · rw [Server.own, hcount] at hown
      obtain ⟨b, hb, hown⟩ := List.mem_flatMap.1 hown
      obtain rfl : b = 0 := by simpa using hb
      obtain ⟨j, hj, rfl⟩ := mem_entries.1 hown
      rw [h.block, Int.toNat_natCast, h.entries j hj] at hname
      split_ifs at hname <;> cases hname
    · obtain ⟨-, t, ht⟩ := Server.byte_of_mem_strays hstray hname
      rw [hcount, h.block, Int.toNat_natCast] at ht
      obtain rfl | hpos := Nat.eq_zero_or_pos t
      · exact absurd (h.first.symm.trans ht) (by decide)
      · rw [h.rest _ (by
          simp only [Server.freshLayout, Log.append_stop, Obj.size, Server.checkpointOnly, blockSize,
            inodeSize]
          omega)] at ht
        exact absurd ht (by decide)
  rw [hnone]
  rfl

/-- The file `g` can be created. -/
theorem creates (h : AfterRemoval s L) : ∃ y, s.Creates nextCreation y ∧
    Server.Added s.disk.bytes y.1.disk.bytes L 0 (checkpointSize + imapSize) 1 [103]
      (fun _ _ => 0) REGULAR_FILE 2 := by
  have hcname : nextCreation.1.cname = [103] := by decide +kernel
  have hinode := Server.parent_eqTo h.order.tables h.order.inode h.order.loc (by omega) [103]
  have he : Server.Enters s (fun _ _ => 0) (0 : ℕ) REGULAR_FILE [103] := by
    refine ⟨by decide, by decide, by decide, ?_, ?_, ?_, ?_⟩
    · have hloc := h.order.loc
      rw [Server.inodeArr, h.inodes, ← Server.inodeArr] at hloc
      rw [Int.toNat_natCast, hloc]
      decide
    · rw [h.sLookup]
      decide
    · rw [statType_eq hinode, h.type]
    · rw [statSize_eq hinode, h.size]
      decide
  have hn : ((List.range 4096).find? fun i =>
      ((s.parent (fun _ _ => 0) (0 : ℕ) [103]).1.loadMem fun _ _ => 0).inodeArr i = -1) =
      some 2 := by
    rw [← h.free]
    refine find?_congr fun i _ => ?_
    rw [Server.inodeArr, Server.parent_iArr h.order.tables (by omega), h.inodes, ← Server.inodeArr]
  have hstop := h.stop
  have hprint : sprintf [103] [60] = some [103] := by decide
  obtain ⟨y, hok, -, -, -, -, -, hadd⟩ := (h.order.sCreate_unless he hn (by omega) hprint
    (by decide) (by decide)).exists_ok (by
      simp only [imapSize, inodeSize, blockSize]
      omega)
  refine ⟨y, ⟨rfl, ?_, ?_⟩, ?_⟩
  · rw [hcname]
    exact he
  · rw [hcname]
    exact hok
  · rwa [nextSlot, h.size] at hadd

end AfterRemoval

end Mfs

end OperatingSystems

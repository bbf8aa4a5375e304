import OperatingSystems.Mfs.Freeing

/-!
# The array accesses of the server

Every access of the functions of `server.c` to the arrays `chkpt.imap`, `iArr.inodeArr`,
`imap_t.inodeArr`, `blockArr` and `dirArr` and, where it is printed, to `name`, in their order; an
access that is repeated with the same index is listed once.  The lists follow the functions of the model.  The accesses of `loadMem` are
listed apart from those of its callers, for whatever state it is called in.

* `Access`, `Access.InBounds` : an access, and whether its index is within the array.
* `Server.loadAccesses` : the accesses of `loadMem`, and `Server.loadAccesses_sound` : they are
  in bounds, whatever the image contains.
* `Server.accesses` : the accesses of the handler of a message.
* `Server.sRead_sound`, `Server.sWrite_sound`, `Server.sStat_sound`, `Server.sLookup_sound` : reading,
  writing and searching stay in bounds in every state.
-/

namespace OperatingSystems

namespace Mfs

open Bytes

/-- The arrays of the server. -/
inductive Arr where
  /-- `chkpt.imap` -/
  | imap
  /-- `iArr.inodeArr` -/
  | inodeArr
  /-- `imap_t.inodeArr` -/
  | piece
  | blockArr
  | dirArr
  /-- The name of an entry of `dirArr`. -/
  | name

/-- The number of elements. -/
def Arr.length : Arr → ℕ
  | .imap => 256
  | .inodeArr => 4096
  | .piece => 16
  | .blockArr => 14
  | .dirArr => 64
  | .name => 60

/-- An access to an array; the index is `none` if nothing is known of it. -/
structure Access where
  arr : Arr
  index : Option ℤ

namespace Access

/-- The index is within the array. -/
def InBounds (x : Access) : Prop := ∃ i, x.index = some i ∧ 0 ≤ i ∧ i < x.arr.length

/-- The access to element `i`. -/
def elem (arr : Arr) (i : ℤ) : Access := ⟨arr, some i⟩

/-- The accesses to the first `n` elements. -/
def upTo (arr : Arr) (n : ℕ) : List Access := (List.range n).map fun i : ℕ => elem arr i

/-- All the accesses are in bounds. -/
def Sound (xs : List Access) : Prop := ∀ x ∈ xs, x.InBounds

@[simp] theorem inBounds_elem {arr : Arr} {i : ℤ} :
    (elem arr i).InBounds ↔ 0 ≤ i ∧ i < arr.length := by simp [InBounds, elem]

@[simp] theorem not_inBounds_none {arr : Arr} : ¬ (⟨arr, none⟩ : Access).InBounds := by
  simp [InBounds]

@[simp] theorem sound_nil : Sound [] := nofun

@[simp] theorem sound_cons {x : Access} {xs : List Access} :
    Sound (x :: xs) ↔ x.InBounds ∧ Sound xs := List.forall_mem_cons

@[simp] theorem sound_append {xs ys : List Access} : Sound (xs ++ ys) ↔ Sound xs ∧ Sound ys :=
  List.forall_mem_append

theorem sound_upTo {arr : Arr} {n : ℕ} (h : n ≤ arr.length) : Sound (upTo arr n) := by
  intro x hx
  obtain ⟨i, hi, rfl⟩ := List.mem_map.1 hx
  have hlt := List.mem_range.1 hi
  rw [inBounds_elem]
  omega

end Access

open Access

namespace Server

/-! ### `loadMem` -/

/-- The loop of `loadMem` over the entries `js` of a piece, with `k` inodes in the table. -/
def entryAccesses (imapTemp : Bytes) : List ℕ → ℕ → List Access
  | [], _ => []
  | j :: js, k =>
    elem .piece j ::
      if word imapTemp 0 j ≥ 0 then elem .inodeArr k :: entryAccesses imapTemp js (k + 1)
      else entryAccesses imapTemp js k

/-- The loop of `loadMem` over the pieces. -/
def pieceAccesses : List ℕ → Server × Bytes → List Access
  | [], _ => []
  | i :: is, x =>
    elem .imap i ::
      ((if x.1.imap i ≥ 0 then
        entryAccesses ((x.1.lseek (x.1.imap i)).read imapSize x.2).2 (List.range 16) x.1.iArr.length
      else []) ++ pieceAccesses is (loadPiece x i))

/-- `loadMem`. -/
def loadAccesses (s : Server) (junk : Junk) : List Access :=
  let (s, chkpt) := (s.lseek 0).read checkpointSize s.chkpt
  upTo .inodeArr 4096 ++
    pieceAccesses (List.range 256) ({ s with chkpt := chkpt, iArr := [] }, junk .imapTemp)

/-! ### The other functions -/

/-- `sRead`. -/
def sReadAccesses (s : Server) (junk : Junk) (inum blk : ℤ) : List Access :=
  if inum ≥ 4096 ∨ inum < 0 then []
  else if blk > 13 ∨ blk < 0 then []
  else
    elem .inodeArr inum ::
      if (s.loadMem junk).inodeArr inum.toNat = -1 then [] else [elem .blockArr blk]

/-- `sWrite`. -/
def sWriteAccesses (s : Server) (junk : Junk) (inum blk : ℤ) : List Access :=
  if inum ≥ 4096 ∨ inum < 0 then []
  else if blk > 13 ∨ blk < 0 then []
  else
    let s := s.loadMem junk
    let loc := s.inodeArr inum.toNat
    elem .inodeArr inum ::
      if loc = -1 then []
      else
        let inode := ((s.lseek loc).read inodeSize (junk .inode)).2
        if statType inode ≠ REGULAR_FILE then []
        else
          elem .blockArr blk :: if blockArr inode blk.toNat = -1 then upTo .dirArr 64 else []

/-- `sStat`. -/
def sStatAccesses (inum : ℤ) : List Access :=
  if inum < 0 ∨ inum ≥ 4096 then [] else [elem .inodeArr inum]

/-- The loop of `sLookup`. -/
def lookupAccesses (junk : Junk) (name : List UInt8) (pInode : Bytes) :
    List ℕ → Server → List Access
  | [], _ => []
  | i :: is, s =>
    let (s, dirBlkTmp) := (s.lseek (blockArr pInode i)).read blockSize (junk (.dirBlkTmp i))
    elem .blockArr i ::
      match (List.range 64).find? fun j => entryName dirBlkTmp j = name.take 60 with
      | some j => upTo .dirArr (j + 1)
      | none => upTo .dirArr 64 ++ lookupAccesses junk name pInode is s

/-- `sLookup`. -/
def sLookupAccesses (s : Server) (junk : Junk) (pinum : ℤ) (name : List UInt8) : List Access :=
  if pinum < 0 ∨ pinum ≥ 4096 then []
  else
    let s := s.loadMem junk
    elem .inodeArr pinum ::
      if s.inodeArr pinum.toNat = -1 then []
      else if name.length < 1 ∨ name.length > 60 then []
      else
        let (s, pInode) := (s.lseek (s.inodeArr pinum.toNat)).read inodeSize (junk .inode)
        if statType pInode ≠ DIRECTORY then []
        else lookupAccesses junk name pInode (List.range 14) s

/-- `cImapPiece`; without a free piece `nImapInd` is not initialised. -/
def cImapPieceAccesses (s : Server) (junk : Junk) : List Access :=
  match (List.range 256).find? fun i => (s.loadMem junk).imap i = -1 with
  | none => upTo .imap 256 ++ [⟨.imap, none⟩]
  | some i => upTo .imap (i + 1) ++ upTo .piece 16

/-- `cInode`; without a free entry `nInodeNum` is not initialised. -/
def cInodeAccesses (s : Server) (junk : Junk) (type : ℤ) : List Access :=
  let s := s.loadMem junk
  match (List.range 4096).find? fun i => s.inodeArr i = -1 with
  | none => upTo .inodeArr 4096 ++ [⟨.imap, none⟩]
  | some n =>
    upTo .inodeArr (n + 1) ++ (if n % 16 = 0 then s.cImapPieceAccesses junk else []) ++
      [elem .imap (n / 16 : ℕ), elem .piece (n % 16 : ℕ)] ++ upTo .blockArr 14 ++
      if type = 0 then upTo .dirArr 64 else []

/-- The part of `sCreate` after `cInode`; `sprintf` writes the text of the name and a zero. -/
def putEntryAccesses (pInode : Bytes) (name : List UInt8) : List Access :=
  let size := statSize pInode
  let iDirBlkInd := size.tdiv (4096 * 64)
  let dirBlkInd := (size.tdiv 4096).tmod 64
  if iDirBlkInd > 14 then []
  else
    (if dirBlkInd = 0 then elem .blockArr iDirBlkInd :: upTo .dirArr 64 else []) ++
      elem .blockArr iDirBlkInd :: elem .dirArr dirBlkInd ::
        [⟨.name, (sprintf name [60]).map fun text => (text.length : ℤ)⟩]

/-- `sCreate`. -/
def sCreateAccesses (s : Server) (junk : Junk) (pinum type : ℤ) (name : List UInt8) : List Access :=
  if (type ≠ 0 ∧ type ≠ 1) ∨ pinum < 0 ∨ pinum > 4096 then []
  else if name.length < 1 ∨ name.length ≥ 60 then []
  else
    elem .inodeArr pinum ::
      if pinum = 4096 then []
      else if s.inodeArr pinum.toNat = -1 then []
      else
        s.sLookupAccesses junk pinum name ++
          if (s.sLookup junk pinum name).2 ≥ 0 then []
          else
            let (s, pInode) := s.parent junk pinum name
            if statType pInode ≠ DIRECTORY then []
            else if statSize pInode ≥ 4096 * 14 * 64 then []
            else s.cInodeAccesses junk type ++ putEntryAccesses pInode name

/-- `delImap`. -/
def delImapAccesses (imapInd : ℕ) : List Access := [elem .imap imapInd]

/-- `delInode`; its loop looks at an entry before it compares the index. -/
def delInodeAccesses (s : Server) (junk : Junk) (inum : ℤ) : List Access :=
  let imapInd := inum.tdiv 16
  let imapInIndex := inum.tmod 16
  if imapInIndex < 0 then []
  else
    elem .imap imapInd ::
      if imapInd < 0 ∨ imapInd ≥ 256 then []
      else
        let imapTmp := ((s.lseek (s.imap imapInd.toNat)).read imapSize (junk .imapTemp)).2
        let imapTmp := setWord imapTmp imapInIndex.toNat (-1)
        elem .piece imapInIndex ::
          (match (List.range 16).find? fun i => ¬ word imapTmp 0 i > 0 with
          | some i => upTo .piece (i + 1)
          | none => upTo .piece 17) ++
          if word imapTmp 0 0 > 0 then [] else delImapAccesses imapInd.toNat

/-- The loop of `sUnlink`; the entry with the name is looked up in the table of inodes. -/
def unlinkLoopAccesses (name : List UInt8) (pInode : Bytes) :
    List ℕ → Server → Bytes → List Access
  | [], _, _ => []
  | i :: is, s, dirBlk =>
    elem .blockArr i ::
      if blockArr pInode i ≥ 0 then
        let (s, dirBlk) := (s.lseek (blockArr pInode i)).read blockSize dirBlk
        match (List.range 64).find? fun j =>
            cstr (blockSize - 64 * j) (slice dirBlk (64 * j)) = name with
        | some j => upTo .dirArr (j + 1) ++ [elem .inodeArr (entryInum dirBlk j)]
        | none => upTo .dirArr 64 ++ unlinkLoopAccesses name pInode is s dirBlk
      else unlinkLoopAccesses name pInode is s dirBlk

/-- The part of `sUnlink` after the entry was found. -/
def removeEntryAccesses (s : Server) (junk : Junk) (dirBlk : Bytes) (delInd : ℕ) : List Access :=
  let inum := entryInum dirBlk delInd
  if inum < 0 ∨ inum ≥ 4096 then []
  else
    let delInodeLoc := s.inodeArr inum.toNat
    let (s, inodeDel) := (s.lseek delInodeLoc).read inodeSize (junk .inode)
    if statType inodeDel = DIRECTORY ∧ statSize inodeDel > 2 * 4096 then []
    else s.delInodeAccesses junk delInodeLoc ++ elem .dirArr delInd :: upTo .blockArr 14

/-- `sUnlink`. -/
def sUnlinkAccesses (s : Server) (junk : Junk) (pinum : ℤ) (name : List UInt8) : List Access :=
  let s := s.loadMem junk
  if pinum < 0 ∨ pinum > 4096 then []
  else
    elem .inodeArr pinum ::
      if pinum = 4096 then []
      else if s.inodeArr pinum.toNat = -1 then []
      else if name = [46, 46] ∨ name = [46] then []
      else if name.length > 60 then []
      else
        let (s, pInode) := (s.lseek (s.inodeArr pinum.toNat)).read inodeSize (junk .inode)
        if statType pInode ≠ DIRECTORY then []
        else
          unlinkLoopAccesses name pInode (List.range 14) s (junk .dirBlk) ++
            match unlinkLoop name pInode (List.range 14) s (junk .dirBlk) with
            | (_, none) => []
            | (s, some (dirBlk, _, delInd)) => s.removeEntryAccesses junk dirBlk delInd

/-- The accesses of the handler of a message.  For `INIT`, the loop of `initImage` after that over
the table of inodes begins with the index where that one ends. -/
def accesses (s : Server) (junk : Junk) (msg : Msg) : List Access :=
  match msg.lib with
  | .INIT => upTo .inodeArr 4096 ++ [elem .imap 4096]
  | .LOOKUP => s.sLookupAccesses junk msg.pinum msg.cname
  | .STAT => sStatAccesses msg.inum
  | .WRITE => s.sWriteAccesses junk msg.inum msg.block
  | .READ => s.sReadAccesses junk msg.inum msg.block
  | .CREAT => s.sCreateAccesses junk msg.pinum msg.type msg.cname
  | .UNLINK => s.sUnlinkAccesses junk msg.pinum msg.cname
  | .SHUTDOWN => []

/-! ### What is always in bounds -/

variable {s : Server} {junk : Junk} {inum blk pinum : ℤ} {name : List UInt8}

theorem entryAccesses_sound (imapTemp : Bytes) {js : List ℕ} (hjs : ∀ j ∈ js, j < 16) {k : ℕ}
    (hk : k + js.length ≤ 4096) : Sound (entryAccesses imapTemp js k) := by
  induction js generalizing k with
  | nil => exact sound_nil
  | cons j js ih =>
    have hj := hjs j List.mem_cons_self
    have hjs' : ∀ j ∈ js, j < 16 := fun i hi => hjs i (List.mem_cons_of_mem _ hi)
    rw [List.length_cons] at hk
    unfold entryAccesses
    rw [sound_cons, inBounds_elem]
    refine ⟨⟨by omega, by simp only [Arr.length]; omega⟩, ?_⟩
    split_ifs
    · rw [sound_cons, inBounds_elem]
      exact ⟨⟨by omega, by simp only [Arr.length]; omega⟩, ih hjs' (by omega)⟩
    · exact ih hjs' (by omega)

theorem pieceAccesses_sound (n i : ℕ) (hi : i + n = 256) (x : Server × Bytes)
    (hx : x.1.iArr.length ≤ 16 * i) : Sound (pieceAccesses (List.range' i n) x) := by
  induction n generalizing i x with
  | zero => exact sound_nil
  | succ n ih =>
    have hlen := length_loadPiece x i
    have hle : (loadPiece x i).1.iArr.length ≤ x.1.iArr.length + 16 :=
      hlen.trans (Nat.add_le_add_left (by split_ifs <;> omega) _)
    rw [List.range'_succ]
    unfold pieceAccesses
    rw [sound_cons, inBounds_elem, sound_append]
    refine ⟨⟨by omega, by simp only [Arr.length]; omega⟩, ?_, ih (i + 1) (by omega) _ (by omega)⟩
    split_ifs
    · exact entryAccesses_sound _ (fun j hj => List.mem_range.1 hj)
        (by rw [List.length_range]; omega)
    · exact sound_nil

/-- **`loadMem` stays in bounds**, whatever the image contains. -/
theorem loadAccesses_sound (s : Server) (junk : Junk) : Sound (s.loadAccesses junk) := by
  unfold loadAccesses
  dsimp only
  rw [sound_append, List.range_eq_range']
  exact ⟨sound_upTo le_rfl, pieceAccesses_sound 256 0 rfl _ le_rfl⟩

theorem sRead_sound : Sound (s.sReadAccesses junk inum blk) := by
  unfold sReadAccesses
  split_ifs with hinum hblk
  · exact sound_nil
  · exact sound_nil
  all_goals simp only [sound_cons, inBounds_elem, sound_nil, Arr.length, and_true]
  · omega
  · exact ⟨⟨by omega, by omega⟩, by omega, by omega⟩

theorem sWrite_sound : Sound (s.sWriteAccesses junk inum blk) := by
  unfold sWriteAccesses
  dsimp only
  split_ifs with hinum hblk
  · exact sound_nil
  · exact sound_nil
  all_goals simp only [sound_cons, inBounds_elem, sound_nil, Arr.length, and_true]
  · omega
  · omega
  · exact ⟨⟨by omega, by omega⟩, ⟨by omega, by omega⟩, sound_upTo le_rfl⟩
  · exact ⟨⟨by omega, by omega⟩, by omega, by omega⟩

theorem sStat_sound : Sound (sStatAccesses inum) := by
  unfold sStatAccesses
  split_ifs
  · exact sound_nil
  · simp only [sound_cons, inBounds_elem, sound_nil, Arr.length, and_true]
    omega

theorem lookupAccesses_sound {pInode : Bytes} {is : List ℕ} (his : ∀ i ∈ is, i < 14) :
    Sound (lookupAccesses junk name pInode is s) := by
  induction is generalizing s with
  | nil => exact sound_nil
  | cons i is ih =>
    have hi := his i List.mem_cons_self
    unfold lookupAccesses
    dsimp only
    rw [sound_cons, inBounds_elem]
    refine ⟨⟨by omega, by simp only [Arr.length]; omega⟩, ?_⟩
    split
    · next j hj =>
      have hlt := List.mem_range.1 (List.mem_of_find?_eq_some hj)
      exact sound_upTo (by simp only [Arr.length]; omega)
    · exact sound_append.2 ⟨sound_upTo le_rfl, ih fun i hi => his i (List.mem_cons_of_mem _ hi)⟩

theorem sLookup_sound : Sound (s.sLookupAccesses junk pinum name) := by
  unfold sLookupAccesses
  dsimp only
  split_ifs with hpinum
  · exact sound_nil
  all_goals
    rw [sound_cons, inBounds_elem]
    refine ⟨⟨by omega, by simp only [Arr.length]; omega⟩, ?_⟩
  · exact sound_nil
  · exact sound_nil
  · exact sound_nil
  · exact lookupAccesses_sound fun i hi => List.mem_range.1 hi

end Server

end Mfs

end OperatingSystems

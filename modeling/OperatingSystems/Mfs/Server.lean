import OperatingSystems.Bytes.Basic
import OperatingSystems.Machine.Basic
import OperatingSystems.Mfs.Format

/-!
# The MFS file server

`server.c` of `P5`: a file system in one image file.  The image begins with the checkpoint, which
points to the pieces of the inode map, which point to the inodes, which point to the blocks; new
objects are appended at `endLog`.

The structures `checkpoint_t`, `imap_t`, `inode_t` and `dir_t` are kept as their bytes, so that
variables and file contents are the same thing; all their fields but the names in a directory are
of type `int`.  What an uninitialised variable contains is part of the request (`Junk`).

* `File` : the open image file with its position.
* `Server` : the global variables.
* `loadMem`, `sRead`, `sWrite`, `sUnlink`, `sStat`, `sLookup`, `sCreate`, `cImapPiece`, `delInode`,
  `delImap`, `cInode`, `handle` : the functions of `server.c`.
* `fresh` : the state after `initImage` wrote a new image.
* `server` : the machine of all sequences of requests.
-/

namespace OperatingSystems

namespace Mfs

open Bytes

/-! ### The image file -/

/-- An open file; behind its end there are zeros, as after a seek and a write. -/
structure File where
  bytes : Bytes
  size : ℕ
  pos : ℕ
  zero : ∀ a, size ≤ a → bytes a = 0

namespace File

/-- `lseek`, which fails for a negative offset. -/
def lseek (f : File) (off : ℤ) : File := if 0 ≤ off then { f with pos := off.toNat } else f

/-- `read` of at most `n` bytes into `buf`. -/
def read (f : File) (n : ℕ) (buf : Bytes) : File × Bytes :=
  ({ f with pos := f.pos + min n (f.size - f.pos) },
    fun i => if i < n ∧ f.pos + i < f.size then f.bytes (f.pos + i) else buf i)

/-- `write`. -/
def write (f : File) (n : ℕ) (buf : Bytes) : File where
  bytes := patch f.bytes f.pos n buf
  size := max f.size (f.pos + n)
  pos := f.pos + n
  zero a h := by
    rw [patch_of_le ((le_max_right _ _).trans h)]
    exact f.zero a ((le_max_left _ _).trans h)

end File

/-! ### The structures -/

/-- `sizeof(checkpoint_t)`: `imap[256]` and `endLog`. -/
def checkpointSize : ℕ := 1028

/-- `sizeof(imap_t)`: `inodeArr[16]`. -/
def imapSize : ℕ := 64

/-- `sizeof(inode_t)`: `stat.type`, `stat.size` and `blockArr[14]`. -/
def inodeSize : ℕ := 64

/-- `sizeof(dir_t)`, and the size of a block: 64 entries of `name[60]` and `inum`. -/
def blockSize : ℕ := 4096

/-- `MFS_DIRECTORY`. -/
def DIRECTORY : ℤ := 0

/-- `MFS_REGULAR_FILE`. -/
def REGULAR_FILE : ℤ := 1

def statType (inode : Bytes) : ℤ := word inode 0 0

def statSize (inode : Bytes) : ℤ := word inode 0 1

def blockArr (inode : Bytes) (b : ℕ) : ℤ := word inode 0 (2 + b)

def setSize (inode : Bytes) (x : ℤ) : Bytes := setWord inode 1 x

def setBlock (inode : Bytes) (b : ℕ) (x : ℤ) : Bytes := setWord inode (2 + b) x

/-- `dirArr[j].name`, up to its terminating zero if there is one. -/
def entryName (dir : Bytes) (j : ℕ) : List UInt8 := cstr 60 (slice dir (64 * j))

def entryInum (dir : Bytes) (j : ℕ) : ℤ := word dir 0 (16 * j + 15)

/-- `sprintf(dirArr[j].name, …)` with the result `name`, and `dirArr[j].inum = inum`. -/
def setEntry (dir : Bytes) (j : ℕ) (name : List UInt8) (inum : ℤ) : Bytes :=
  setWord (patch dir (64 * j) (name.length + 1) (ofCstr name)) (16 * j + 15) inum

/-- The loop that makes all entries of a directory block invalid; the rest of the names stays as
it was in memory. -/
def emptyDir (dir : Bytes) : Bytes :=
  (List.range 64).foldl (fun dir j => setEntry dir j [] (-1)) dir

/-! ### The state -/

/-- Why a request has no result. -/
inductive Stop where
  /-- An array access out of bounds, or the use of an uninitialised variable. -/
  | undefined
  /-- An overflow of `endLog`. -/
  | overflow
  /-- The server exits. -/
  | exit
  deriving DecidableEq

/-- The local variables that are used before they are initialised as a whole. -/
inductive Local where
  | imapTemp
  | inode
  | dirBlk
  /-- The variable `dirBlkTmp` in round `i` of the loop of `sLookup`. -/
  | dirBlkTmp (i : ℕ)
  | nDirBlk
  | newDirBlk
  | nBlk

/-- The contents of uninitialised variables. -/
abbrev Junk : Type := Local → Bytes

/-- The global variables of the server. -/
structure Server where
  disk : File
  chkpt : Bytes
  /-- `inodeArr`, without the entries `-1` that fill the rest of it. -/
  iArr : List ℤ

namespace Server

def lseek (s : Server) (off : ℤ) : Server := { s with disk := s.disk.lseek off }

def read (s : Server) (n : ℕ) (buf : Bytes) : Server × Bytes :=
  ({ s with disk := (s.disk.read n buf).1 }, (s.disk.read n buf).2)

def write (s : Server) (n : ℕ) (buf : Bytes) : Server := { s with disk := s.disk.write n buf }

/-- `chkpt.imap[i]`. -/
def imap (s : Server) (i : ℕ) : ℤ := word s.chkpt 0 i

/-- `chkpt.endLog`. -/
def endLog (s : Server) : ℤ := word s.chkpt 0 256

/-- `iArr.inodeArr[i]`. -/
def inodeArr (s : Server) (i : ℕ) : ℤ := s.iArr.getD i (-1)

/-- `chkpt.endLog += n`. -/
def advance (s : Server) (n : ℕ) : Except Stop Server :=
  if s.endLog + n < 2 ^ 31 then .ok { s with chkpt := setWord s.chkpt 256 (s.endLog + n) }
  else .error .overflow

/-- Write the checkpoint to the beginning of the image. -/
def writeChkpt (s : Server) : Server := (s.lseek 0).write checkpointSize s.chkpt

/-! ### The functions of the server -/

/-- The loop body of `loadMem`; the second component is `imapTemp`. -/
def loadPiece (x : Server × Bytes) (i : ℕ) : Server × Bytes :=
  if x.1.imap i ≥ 0 then
    let (s, imapTemp) := (x.1.lseek (x.1.imap i)).read imapSize x.2
    -- an entry that is not in use has no place in `inodeArr`
    ({ s with iArr := s.iArr ++ ((List.range 16).map (word imapTemp 0)).filter (0 ≤ ·) }, imapTemp)
  else x

/-- `loadMem`. -/
def loadMem (s : Server) (junk : Junk) : Server :=
  let (s, chkpt) := (s.lseek 0).read checkpointSize s.chkpt
  ((List.range 256).foldl loadPiece
    ({ s with chkpt := chkpt, iArr := [] }, junk .imapTemp)).1

/-- `sRead`: the result, and the contents of `buff`. -/
def sRead (s : Server) (junk : Junk) (inum : ℤ) (buff : Bytes) (blk : ℤ) : Server × ℤ × Bytes :=
  if inum ≥ 4096 ∨ inum < 0 then (s, -1, buff)
  else if blk > 13 ∨ blk < 0 then (s, -1, buff)
  else
    let s := s.loadMem junk
    if s.inodeArr inum.toNat = -1 then (s, -1, buff)
    else
      let (s, inode) := (s.lseek (s.inodeArr inum.toNat)).read inodeSize (junk .inode)
      if blockArr inode blk.toNat = -1 then (s, -1, buff)
      else
        let (s, buff) := (s.lseek (blockArr inode blk.toNat)).read blockSize buff
        (s, 0, buff)

/-- The branch of `sWrite` for a block that does not exist: it is appended to the log. -/
def appendBlock (s : Server) (junk : Junk) (inodeLoc : ℤ) (inode : Bytes) (blk : ℕ) :
    Except Stop Server := do
  let endLogTmp := s.endLog
  let s := (s.lseek s.endLog).write blockSize (emptyDir (junk .nDirBlk))
  let s ← s.advance 4096
  let s := s.writeChkpt
  let inode := setSize (setBlock inode blk endLogTmp) ((blk + 1) * 4096)
  let s := (s.lseek inodeLoc).write inodeSize inode
  .ok (s.lseek endLogTmp)

/-- The branch of `sWrite` for a block that exists. -/
def overwriteBlock (s : Server) (inodeLoc : ℤ) (inode : Bytes) (blk : ℕ) : Server :=
  let inode := setSize inode ((blk + 1) * 4096)
  let s := (s.lseek inodeLoc).write inodeSize inode
  s.lseek (blockArr inode blk)

/-- `sWrite`. -/
def sWrite (s : Server) (junk : Junk) (inum : ℤ) (buff : Bytes) (blk : ℤ) :
    Except Stop (Server × ℤ) :=
  if inum ≥ 4096 ∨ inum < 0 then .ok (s, -1)
  else if blk > 13 ∨ blk < 0 then .ok (s, -1)
  else
    let s := s.loadMem junk
    let loc := s.inodeArr inum.toNat
    if loc = -1 then .ok (s, -1)
    else
      let (s, inode) := (s.lseek loc).read inodeSize (junk .inode)
      if statType inode ≠ REGULAR_FILE then .ok (s, -1)
      else do
        let s ←
          if blockArr inode blk.toNat = -1 then s.appendBlock junk loc inode blk.toNat
          else .ok (s.overwriteBlock loc inode blk.toNat)
        .ok ((s.write blockSize buff).loadMem junk, 0)

/-- `sStat`: the result, and `type` and `size`. -/
def sStat (s : Server) (junk : Junk) (inum : ℤ) (stat : ℤ × ℤ) : Server × ℤ × ℤ × ℤ :=
  if inum < 0 ∨ inum ≥ 4096 then (s, -1, stat)
  else
    let s := s.loadMem junk
    if s.inodeArr inum.toNat = -1 then (s, -1, stat)
    else
      let (s, inode) := (s.lseek (s.inodeArr inum.toNat)).read inodeSize (junk .inode)
      (s, 0, statType inode, statSize inode)

/-- The loop of `sLookup` over the blocks of the directory.  For a block that does not exist
`lseek` fails, and the next 4096 bytes of the image are searched. -/
def lookupLoop (junk : Junk) (name : List UInt8) (pInode : Bytes) : List ℕ → Server → Server × ℤ
  | [], s => (s, -1)
  | i :: is, s =>
    let (s, dirBlkTmp) := (s.lseek (blockArr pInode i)).read blockSize (junk (.dirBlkTmp i))
    match (List.range 64).find? fun j => entryName dirBlkTmp j = name.take 60 with
    | some j => (s, entryInum dirBlkTmp j)
    | none => lookupLoop junk name pInode is s

/-- `sLookup`. -/
def sLookup (s : Server) (junk : Junk) (pinum : ℤ) (name : List UInt8) : Server × ℤ :=
  if pinum < 0 ∨ pinum ≥ 4096 then (s, -1)
  else
    let s := s.loadMem junk
    if s.inodeArr pinum.toNat = -1 then (s, -1)
    else if name.length < 1 ∨ name.length > 60 then (s, -1)
    else
      let (s, pInode) := (s.lseek (s.inodeArr pinum.toNat)).read inodeSize (junk .inode)
      if statType pInode ≠ DIRECTORY then (s, -1)
      else lookupLoop junk name pInode (List.range 14) s

/-- `cImapPiece`. -/
def cImapPiece (s : Server) (junk : Junk) : Except Stop Server :=
  let s := s.loadMem junk
  match (List.range 256).find? fun i => s.imap i = -1 with
  -- all pieces are there, and `nImapInd` has no value
  | none => .error .undefined
  | some nImapInd => do
    let loc := s.endLog
    let s ← { s with chkpt := setWord s.chkpt nImapInd loc }.advance imapSize
    let s := s.writeChkpt
    .ok (((s.lseek loc).write imapSize (ofWords fun _ => -1)).loadMem junk)

/-- The inode that `cInode` writes, and whose first block comes right behind it. -/
def newInode (type endLog : ℤ) : Bytes :=
  ofWords fun
    | 0 => type
    | 1 => if type = 0 then 2 * 4096 else 0
    | 2 => endLog + inodeSize
    | _ => -1

/-- The first block of a new file: a directory with the entries `.` and `..`, or what `malloc`
returns. -/
def newBlock (junk : Junk) (pinum type inum : ℤ) : Bytes :=
  if type = 0 then
    setEntry (setEntry (emptyDir (junk .dirBlk)) 0 [46] inum) 1 [46, 46] pinum
  else junk .nBlk

/-- The part of `cInode` after the number of the new inode and its piece of the inode map are
known. -/
def putInode (s : Server) (junk : Junk) (pinum type : ℤ) (n : ℕ) : Except Stop Server := do
  let (s, imapTmp) := (s.lseek (s.imap (n / 16))).read imapSize (junk .imapTemp)
  let s := (s.lseek (s.imap (n / 16))).write imapSize (setWord imapTmp (n % 16) s.endLog)
  let s := (s.lseek s.endLog).write inodeSize (newInode type s.endLog)
  let s ← s.advance inodeSize
  let s := s.write blockSize (newBlock junk pinum type n)
  let s ← s.advance blockSize
  .ok (s.writeChkpt.loadMem junk)

/-- `cInode`: the number of the new inode. -/
def cInode (s : Server) (junk : Junk) (pinum type : ℤ) : Except Stop (Server × ℕ) :=
  let s := s.loadMem junk
  match (List.range 4096).find? fun i => s.inodeArr i = -1 with
  -- all numbers are in use, and `nInodeNum` has no value
  | none => .error .undefined
  | some n => do
    let s ← if n % 16 = 0 then s.cImapPiece junk else .ok s
    let s ← s.putInode junk pinum type n
    .ok (s, n)

/-- The part of `sCreate` that appends a block to the directory. -/
def appendDirBlock (s : Server) (junk : Junk) (pInode : Bytes) (b : ℕ) :
    Except Stop (Server × Bytes) := do
  let pInode := setBlock pInode b s.endLog
  let s := (s.lseek s.endLog).write blockSize (emptyDir (junk .newDirBlk))
  let s ← s.advance 4096
  .ok (s.writeChkpt, pInode)

/-- The part of `sCreate` that writes the inode of the directory, and the entry `dirBlkInd` of its
block `iDirBlkInd`. -/
def writeEntry (s : Server) (junk : Junk) (pinumLoc : ℤ) (pInode : Bytes)
    (iDirBlkInd dirBlkInd : ℕ) (name : List UInt8) (newInum : ℕ) : Except Stop (Server × ℤ) :=
  let s := ((s.lseek pinumLoc).write inodeSize pInode).loadMem junk
  let (s, dirBlk) := (s.lseek (blockArr pInode iDirBlkInd)).read blockSize (junk .dirBlk)
  -- the name is the format, and `60` its argument
  match sprintf name [60] with
  | none => .error .undefined
  | some name =>
    if name.length ≥ 60 then .error .undefined
    else
      let dirBlk := setEntry dirBlk dirBlkInd name newInum
      let s := (s.lseek (blockArr pInode iDirBlkInd)).write blockSize dirBlk
      .ok (s.loadMem junk, 0)

/-- The part of `sCreate` after `cInode`, which enters the new file in the directory. -/
def putEntry (s : Server) (junk : Junk) (pinumLoc : ℤ) (pInode : Bytes) (name : List UInt8)
    (newInum : ℕ) : Except Stop (Server × ℤ) :=
  let size := statSize pInode
  let iDirBlkInd := size.tdiv (4096 * 64)
  let dirBlkInd := (size.tdiv 4096).tmod 64
  -- the test lets `14` pass, which is behind `blockArr`
  if iDirBlkInd > 14 then .ok (s, -1)
  else if iDirBlkInd = 14 ∨ iDirBlkInd < 0 ∨ dirBlkInd < 0 then .error .undefined
  else do
    let pInode := setSize pInode (size + 4096)
    let (s, pInode) ←
      if dirBlkInd = 0 then s.appendDirBlock junk pInode iDirBlkInd.toNat else .ok (s, pInode)
    s.writeEntry junk pinumLoc pInode iDirBlkInd.toNat dirBlkInd.toNat name newInum

/-- `sCreate`. -/
def sCreate (s : Server) (junk : Junk) (pinum type : ℤ) (name : List UInt8) :
    Except Stop (Server × ℤ) :=
  if (type ≠ 0 ∧ type ≠ 1) ∨ pinum < 0 ∨ pinum > 4096 then .ok (s, -1)
  else if name.length < 1 ∨ name.length ≥ 60 then .ok (s, -1)
  -- the first test lets `4096` pass, which is behind `inodeArr`
  else if pinum = 4096 then .error .undefined
  else if s.inodeArr pinum.toNat = -1 then .ok (s, -1)
  else
    let (s, found) := s.sLookup junk pinum name
    if found ≥ 0 then .ok (s, 0)
    else
      let pinumLoc := s.inodeArr pinum.toNat
      let (s, pInode) := (s.lseek pinumLoc).read inodeSize (junk .inode)
      if statType pInode ≠ DIRECTORY then .ok (s, -1)
      else if statSize pInode ≥ 4096 * 14 * 64 then .ok (s, -1)
      else do
        let (s, newInum) ← s.cInode junk pinum type
        s.putEntry junk pinumLoc pInode name newInum

/-- `delImap`. -/
def delImap (s : Server) (junk : Junk) (imapInd : ℕ) : Server :=
  let s := s.loadMem junk
  { s with chkpt := setWord s.chkpt imapInd (-1) }.writeChkpt.loadMem junk

/-- `delInode`, which `sUnlink` calls with the address of the inode. -/
def delInode (s : Server) (junk : Junk) (inum : ℤ) : Except Stop Server :=
  let imapInd := inum.tdiv 16
  let imapInIndex := inum.tmod 16
  if imapInIndex < 0 then .ok s
  else if imapInd < 0 ∨ imapInd ≥ 256 then .error .undefined
  else
    let (s, imapTmp) := (s.lseek (s.imap imapInd.toNat)).read imapSize (junk .imapTemp)
    let imapTmp := setWord imapTmp imapInIndex.toNat (-1)
    -- the loop counts the entries at the beginning that are positive
    if word imapTmp 0 0 > 0 then
      .ok (((s.lseek (s.imap imapInd.toNat)).write imapSize imapTmp).loadMem junk)
    else .ok ((s.delImap junk imapInd.toNat).loadMem junk)

/-- The loop of `sUnlink` over the blocks of the directory: the block, its address, and the index
of the entry with the name. -/
def unlinkLoop (name : List UInt8) (pInode : Bytes) : List ℕ → Server → Bytes →
    Server × Option (Bytes × ℤ × ℕ)
  | [], s, _ => (s, none)
  | i :: is, s, dirBlk =>
    if blockArr pInode i ≥ 0 then
      let (s, dirBlk) := (s.lseek (blockArr pInode i)).read blockSize dirBlk
      match (List.range 64).find? fun j =>
          cstr (blockSize - 64 * j) (slice dirBlk (64 * j)) = name with
      | some j => (s, some (dirBlk, blockArr pInode i, j))
      | none => unlinkLoop name pInode is s dirBlk
    else unlinkLoop name pInode is s dirBlk

/-- The part of `sUnlink` after the entry was found. -/
def removeEntry (s : Server) (junk : Junk) (pinumLoc : ℤ) (pInode dirBlk : Bytes)
    (delDirBlkLoc : ℤ) (delInd : ℕ) : Except Stop (Server × ℤ) :=
  let inum := entryInum dirBlk delInd
  if inum < 0 ∨ inum ≥ 4096 then .error .undefined
  else
    let delInodeLoc := s.inodeArr inum.toNat
    let (s, inodeDel) := (s.lseek delInodeLoc).read inodeSize (junk .inode)
    if statType inodeDel = DIRECTORY ∧ statSize inodeDel > 2 * 4096 then .ok (s, -1)
    else do
      -- the argument is the address of the inode, not its number
      let s ← s.delInode junk delInodeLoc
      let dirBlk := setEntry dirBlk delInd [] (-1)
      let s := (s.lseek delDirBlkLoc).write blockSize dirBlk
      let sizeInd := ((List.range 14).filter fun i => blockArr pInode i ≠ -1).getLastD 0
      let pInode := setSize pInode ((sizeInd + 1) * 4096)
      let s := (s.lseek pinumLoc).write inodeSize pInode
      .ok (s.loadMem junk, 0)

/-- `sUnlink`. -/
def sUnlink (s : Server) (junk : Junk) (pinum : ℤ) (name : List UInt8) :
    Except Stop (Server × ℤ) :=
  let s := s.loadMem junk
  if pinum < 0 ∨ pinum > 4096 then .ok (s, -1)
  else if pinum = 4096 then .error .undefined
  else if s.inodeArr pinum.toNat = -1 then .ok (s, -1)
  else if name = [46, 46] ∨ name = [46] then .ok (s, -1)
  else if name.length > 60 then .ok (s, -1)
  else
    let pinumLoc := s.inodeArr pinum.toNat
    let (s, pInode) := (s.lseek pinumLoc).read inodeSize (junk .inode)
    if statType pInode ≠ DIRECTORY then .ok (s, -1)
    else
      match unlinkLoop name pInode (List.range 14) s (junk .dirBlk) with
      | (s, none) => .ok (s, -1)
      | (s, some (dirBlk, delDirBlkLoc, delInd)) =>
        s.removeEntry junk pinumLoc pInode dirBlk delDirBlkLoc delInd

end Server

/-! ### Messages -/

/-- `lib_t`. -/
inductive Lib where
  | INIT
  | LOOKUP
  | STAT
  | WRITE
  | READ
  | CREAT
  | UNLINK
  | SHUTDOWN
  deriving DecidableEq

/-- `msg_t`, of which the server uses all fields but `regDir`. -/
structure Msg where
  name : Bytes
  buffer : Bytes
  inum : ℤ
  block : ℤ
  type : ℤ
  returnNum : ℤ
  pinum : ℤ
  statType : ℤ
  statSize : ℤ
  lib : Lib

/-- The C string at `name`, which runs on into `buffer` if `name` has no terminating zero. -/
def Msg.cname (m : Msg) : List UInt8 :=
  cstr (60 + 4096) fun i => if i < 60 then m.name i else m.buffer (i - 60)

namespace Server

/-- `handle`: the reply is the message with some of its fields changed.  (The client library sends
no `INIT`; the loop in `initImage` that follows the table of inodes is not entered.) -/
def handle (s : Server) (junk : Junk) (msg : Msg) : Except Stop (Server × Msg) :=
  let reply := fun ((s, r) : Server × ℤ) => (s, { msg with returnNum := r })
  match msg.lib with
  | .INIT => .ok (reply (({ s with disk := { s.disk with pos := 0 } }.loadMem junk), 0))
  | .LOOKUP => .ok (reply (s.sLookup junk msg.pinum msg.cname))
  | .STAT =>
    let (s, r, type, size) := s.sStat junk msg.inum (msg.statType, msg.statSize)
    .ok (s, { msg with returnNum := r, statType := type, statSize := size })
  | .WRITE => (s.sWrite junk msg.inum msg.buffer msg.block).map reply
  | .READ =>
    let (s, r, buffer) := s.sRead junk msg.inum msg.buffer msg.block
    .ok (s, { msg with returnNum := r, buffer := buffer })
  | .CREAT => (s.sCreate junk msg.pinum msg.type msg.cname).map reply
  | .UNLINK => (s.sUnlink junk msg.pinum msg.cname).map reply
  | .SHUTDOWN => .error .exit

end Server

/-! ### The new image -/

/-- The checkpoint of a new image. -/
def initChkpt : Bytes := ofWords fun
  | 0 => checkpointSize
  | 256 => checkpointSize + imapSize + inodeSize + blockSize
  | _ => -1

/-- The piece of the inode map of a new image. -/
def initImap : Bytes := ofWords fun
  | 0 => checkpointSize + imapSize
  | _ => -1

/-- The inode of the root directory. -/
def initRoot : Bytes := ofWords fun
  | 0 => DIRECTORY
  | 1 => 2 * 4096
  | 2 => checkpointSize + imapSize + inodeSize
  | _ => -1

/-- The block of the root directory. -/
def initDir (junk : Junk) : Bytes :=
  setEntry (setEntry (emptyDir (junk .dirBlk)) 0 [46] 0) 1 [46, 46] 0

/-- The state after `initImage` created the image and loaded it: the checkpoint, the first piece of
the inode map, the inode of the root directory and its first block. -/
def fresh (junk : Junk) : Server :=
  let s : Server := ⟨⟨fun _ => 0, 0, 0, fun _ _ => rfl⟩, initChkpt, []⟩
  ((((s.write checkpointSize initChkpt).write imapSize initImap).write inodeSize initRoot).write
    blockSize (initDir junk)).loadMem junk

/-- All sequences of requests; with each comes what the uninitialised variables contain. -/
def server : Machine Server (Msg × Junk) where
  next s l := (s.handle l.2 l.1).toOption.map Prod.fst

end Mfs

end OperatingSystems

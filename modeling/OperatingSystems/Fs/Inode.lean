import OperatingSystems.Bytes.Pages
import Mathlib.Logic.Function.Basic

/-!
# The inode layer of the file system

`kernel/fs.c` for one inode that is not a device: its copy in the cache, its copy on the disk, the
bitmap and the data blocks.  In an inode of the type `T_CHECKED` the top byte of an address holds a
checksum of the block.

* `Fs` : the disk and the inode.
* `Fs.bread`, `Fs.bwrite`, `Fs.balloc`, `Fs.bfree` : blocks.
* `Fs.iupdate`, `Fs.iget`, `Fs.ilock`, `Fs.iput` : the cache.
* `Fs.bmap`, `Fs.itrunc`, `Fs.stati`, `Fs.readi`, `Fs.writei` : contents.
-/

namespace OperatingSystems

open Bytes

namespace Fs

abbrev BSIZE : ℕ := 512
abbrev NDIRECT : ℕ := 12
abbrev NINDIRECT : ℕ := BSIZE / 4
abbrev MAXFILE : ℕ := NDIRECT + NINDIRECT
abbrev BPB : ℕ := BSIZE * 8

/-- The types of inodes other than devices; `free` is 0. -/
inductive Kind
  | free
  | dir
  | file
  | checked
  deriving DecidableEq

/-- How the kernel stops: the calls of `panic`, and an access to a block that the disk does not
have, with which the driver does what the hardware does. -/
inductive Stop
  /-- "balloc: out of blocks" -/
  | outOfBlocks
  /-- "freeing free block" -/
  | freeingFreeBlock
  /-- "bmap: out of range" -/
  | outOfRange
  /-- "ilock" -/
  | ilock
  /-- "ilock: no type" -/
  | noType
  /-- "iunlock" -/
  | iunlock
  /-- "iput busy" -/
  | iputBusy
  | fault
  deriving DecidableEq

/-- `struct dinode` -/
structure Dinode where
  type : Kind
  nlink : ℕ
  size : ℕ
  addrs : ℕ → ℕ

/-- `struct inode`, with the flags `I_BUSY` and `I_VALID`. -/
structure Inode extends Dinode where
  dev : ℕ
  inum : ℕ
  ref : ℕ
  busy : Bool
  valid : Bool

/-- `struct stat` -/
structure Stat where
  dev : ℕ
  ino : ℕ
  type : Kind
  nlink : ℕ
  size : ℕ
  checksum : UInt8

end Fs

open Fs

/-- The disk and one inode of it. -/
structure Fs where
  /-- `sb.size` -/
  size : ℕ
  /-- The bitmap. -/
  used : ℕ → Bool
  block : ℕ → Bytes
  /-- The inode on the disk. -/
  dip : Dinode
  /-- The inode in the cache. -/
  ip : Inode

namespace Fs

/-! ### Blocks -/

/-- `bread`, which returns the contents of a block -/
def bread (fs : Fs) (b : ℕ) : Except Stop Bytes :=
  if b < fs.size then .ok (fs.block b) else .error .fault

/-- `bwrite`, of a block that was read -/
def bwrite (fs : Fs) (b : ℕ) (data : Bytes) : Fs :=
  { fs with block := Function.update fs.block b data }

def setUsed (fs : Fs) (b : ℕ) (u : Bool) : Fs :=
  { fs with used := Function.update fs.used b u }

@[simp] theorem bwrite_block (fs : Fs) (b : ℕ) (d : Bytes) :
    (fs.bwrite b d).block = Function.update fs.block b d := rfl

@[simp] theorem bwrite_used (fs : Fs) (b : ℕ) (d : Bytes) : (fs.bwrite b d).used = fs.used := rfl

@[simp] theorem bwrite_size (fs : Fs) (b : ℕ) (d : Bytes) : (fs.bwrite b d).size = fs.size := rfl

@[simp] theorem bwrite_ip (fs : Fs) (b : ℕ) (d : Bytes) : (fs.bwrite b d).ip = fs.ip := rfl

@[simp] theorem setUsed_block (fs : Fs) (b : ℕ) (u : Bool) : (fs.setUsed b u).block = fs.block := rfl

@[simp] theorem setUsed_used (fs : Fs) (b : ℕ) (u : Bool) :
    (fs.setUsed b u).used = Function.update fs.used b u := rfl

@[simp] theorem setUsed_size (fs : Fs) (b : ℕ) (u : Bool) : (fs.setUsed b u).size = fs.size := rfl

@[simp] theorem setUsed_ip (fs : Fs) (b : ℕ) (u : Bool) : (fs.setUsed b u).ip = fs.ip := rfl

/-- The first unused block among the `k` blocks from `b` on. -/
def findFree (used : ℕ → Bool) : ℕ → ℕ → Option ℕ
  | 0, _ => none
  | k + 1, b => if used b then findFree used k (b + 1) else some b

/-- `balloc`: the loops go over all bits of the blocks of the bitmap. -/
def balloc (fs : Fs) : Except Stop (ℕ × Fs) :=
  match findFree fs.used ((fs.size + BPB - 1) / BPB * BPB) 0 with
  | some b => .ok (b, fs.setUsed b true)
  | none => .error .outOfBlocks

def bzero (fs : Fs) (b : ℕ) : Except Stop Fs := do
  let _ ← fs.bread b
  .ok (fs.bwrite b fun _ => 0)

def bfree (fs : Fs) (b : ℕ) : Except Stop Fs := do
  let fs ← fs.bzero b
  if fs.used b then .ok (fs.setUsed b false) else .error .freeingFreeBlock

/-! ### Inodes -/

def iupdate (fs : Fs) : Fs := { fs with dip := fs.ip.toDinode }

/-- `iget`: an inode without references may have lost its place to another one. -/
def iget (fs : Fs) : Fs :=
  if fs.ip.ref > 0 then { fs with ip := { fs.ip with ref := fs.ip.ref + 1 } }
  else { fs with ip := { fs.ip with ref := 1, busy := false, valid := false } }

/-- `ilock`, once the inode is not busy -/
def ilock (fs : Fs) : Except Stop Fs :=
  if fs.ip.ref < 1 then .error .ilock
  else if fs.ip.valid then .ok { fs with ip := { fs.ip with busy := true } }
  else if fs.dip.type = .free then .error .noType
  else .ok { fs with ip := { fs.ip with toDinode := fs.dip, busy := true, valid := true } }

def iunlock (fs : Fs) : Except Stop Fs :=
  if fs.ip.busy = false ∨ fs.ip.ref < 1 then .error .iunlock
  else .ok { fs with ip := { fs.ip with busy := false } }

def setAddr (fs : Fs) (i a : ℕ) : Fs :=
  { fs with ip := { fs.ip with addrs := Function.update fs.ip.addrs i a } }

@[simp] theorem setAddr_addrs (fs : Fs) (i a : ℕ) :
    (fs.setAddr i a).ip.addrs = Function.update fs.ip.addrs i a := rfl

@[simp] theorem setAddr_block (fs : Fs) (i a : ℕ) : (fs.setAddr i a).block = fs.block := rfl

@[simp] theorem setAddr_used (fs : Fs) (i a : ℕ) : (fs.setAddr i a).used = fs.used := rfl

@[simp] theorem setAddr_size (fs : Fs) (i a : ℕ) : (fs.setAddr i a).size = fs.size := rfl

@[simp] theorem setAddr_type (fs : Fs) (i a : ℕ) : (fs.setAddr i a).ip.type = fs.ip.type := rfl

def setSize (fs : Fs) (n : ℕ) : Fs := { fs with ip := { fs.ip with size := n } }

/-! ### Contents -/

/-- `a[j]` -/
def entry (data : Bytes) (j : ℕ) : ℕ := toNat 4 (slice data (4 * j))

def setEntry (data : Bytes) (j a : ℕ) : Bytes := patch data (4 * j) 4 (ofNat a)

/-- `addr &= 0x00ffffff`, if the type is `T_CHECKED` -/
def mask (fs : Fs) (addr : ℕ) : ℕ :=
  if fs.ip.type = .checked then addr &&& 0x00ffffff else addr

/-- `ip->addrs[i]`, with a new block if there is none -/
def addrAt (fs : Fs) (i : ℕ) : Except Stop (ℕ × Fs) :=
  if fs.ip.addrs i = 0 then do
    let (addr, fs) ← fs.balloc
    .ok (addr, fs.setAddr i addr)
  else .ok (fs.ip.addrs i, fs)

/-- The entry `a[bn]` of the indirect block -/
def entryAt (fs : Fs) (ind bn : ℕ) : Except Stop (ℕ × Fs) := do
  let data ← fs.bread ind
  if entry data bn = 0 then do
    let (addr, fs) ← fs.balloc
    .ok (addr, fs.bwrite ind (setEntry data bn addr))
  else .ok (entry data bn, fs)

def bmap (fs : Fs) (bn : ℕ) : Except Stop (ℕ × Fs) :=
  if bn < NDIRECT then do
    let (addr, fs) ← fs.addrAt bn
    .ok (fs.mask addr, fs)
  else if bn - NDIRECT < NINDIRECT then do
    let (ind, fs) ← fs.addrAt NDIRECT
    let (addr, fs) ← fs.entryAt ind (bn - NDIRECT)
    .ok (fs.mask addr, fs)
  else .error .outOfRange

/-- `bmapi = bmap(ip, bn)` and `bp = bread(ip->dev, bmapi)`, as `readi` and `writei` have them -/
def fetch (fs : Fs) (bn : ℕ) : Except Stop (ℕ × Bytes × Fs) := do
  let (b, fs) ← fs.bmap bn
  let data ← fs.bread b
  .ok (b, data, fs)

/-- The first loop of `itrunc` -/
def truncDirect : ℕ → ℕ → Fs → Except Stop Fs
  | 0, _, fs => .ok fs
  | k + 1, i, fs =>
    if fs.ip.addrs i ≠ 0 then do
      let fs ← fs.bfree (fs.ip.addrs i)
      truncDirect k (i + 1) (fs.setAddr i 0)
    else truncDirect k (i + 1) fs

/-- The second loop -/
def truncIndirect (data : Bytes) : ℕ → ℕ → Fs → Except Stop Fs
  | 0, _, fs => .ok fs
  | k + 1, j, fs =>
    if entry data j ≠ 0 then do
      let fs ← fs.bfree (entry data j)
      truncIndirect data k (j + 1) fs
    else truncIndirect data k (j + 1) fs

def itrunc (fs : Fs) : Except Stop Fs := do
  let fs ← truncDirect NDIRECT 0 fs
  if fs.ip.addrs NDIRECT ≠ 0 then do
    let data ← fs.bread (fs.ip.addrs NDIRECT)
    let fs ← truncIndirect data NINDIRECT 0 fs
    let fs ← fs.bfree (fs.ip.addrs NDIRECT)
    .ok ((fs.setAddr NDIRECT 0).setSize 0).iupdate
  else .ok (fs.setSize 0).iupdate

def iput (fs : Fs) : Except Stop Fs :=
  if fs.ip.ref = 1 ∧ fs.ip.valid ∧ fs.ip.nlink = 0 then
    if fs.ip.busy then .error .iputBusy
    else do
      let fs ← itrunc { fs with ip := { fs.ip with busy := true } }
      let fs := iupdate { fs with ip := { fs.ip with type := .free } }
      .ok { fs with ip := { fs.ip with busy := false, valid := false, ref := fs.ip.ref - 1 } }
  else .ok { fs with ip := { fs.ip with ref := fs.ip.ref - 1 } }

/-- The top byte of an address -/
def checksum (a : ℕ) : UInt8 := UInt8.ofNat ((a &&& 0xff000000) >>> 24)

/-- `a &= 0x00ffffff; a |= checksum2`, where `checksum2` is `c << 24` -/
def tagged (a : ℕ) (c : UInt8) : ℕ := (a &&& 0x00ffffff) ||| (c.toNat <<< 24)

def stati (fs : Fs) (st : Stat) : Except Stop Stat :=
  let st := { st with
    dev := fs.ip.dev, ino := fs.ip.inum, type := fs.ip.type, nlink := fs.ip.nlink,
    size := fs.ip.size }
  if fs.ip.type = .checked then do
    let data ← fs.bread (fs.ip.addrs NDIRECT)
    let direct := xorSum NDIRECT fun i => checksum (fs.ip.addrs i)
    let indirect := xorSum (BSIZE / 4) fun j => checksum (entry data j)
    .ok { st with checksum := direct ^^^ indirect }
  else .ok st

/-- `bn < NINDIRECT` after `bn -= NDIRECT`, a comparison of unsigned numbers in both functions -/
def isIndirect (bn : ℕ) : Bool := (bn + 2 ^ 32 - NDIRECT) % 2 ^ 32 < NINDIRECT

/-- `checksum1` of `readi`: it keeps its value of the block before, if neither test holds. -/
def storedChecksum (fs : Fs) (bn : ℕ) (checksum1 : UInt8) : Except Stop UInt8 :=
  let checksum1 := if bn < NDIRECT then checksum (fs.ip.addrs bn) else checksum1
  if isIndirect bn then do
    let data ← fs.bread (fs.ip.addrs NDIRECT)
    .ok (checksum (entry data (bn - NDIRECT)))
  else .ok checksum1

/-- The loop of `readi`; no result is the `return -1`. -/
def readLoop (n nbytes tot off : ℕ) (checksum1 : UInt8) (dst : Bytes) (fs : Fs) :
    Except Stop (Option Bytes × Fs) :=
  if _ : tot < n then do
    let (_, data, fs) ← fs.fetch (off / BSIZE)
    let m := min (n - tot) (BSIZE - off % BSIZE)
    let dst := patch dst tot m (slice data (off % BSIZE))
    if fs.ip.type = .checked then do
      let checksum1 ← fs.storedChecksum (off / BSIZE) checksum1
      if checksum1 ≠ xorSum nbytes data then .ok (none, fs)
      else readLoop n nbytes (tot + m) (off + m) checksum1 dst fs
    else readLoop n nbytes (tot + m) (off + m) checksum1 dst fs
  else .ok (some dst, fs)
termination_by n - tot
decreasing_by all_goals
  have := Nat.mod_lt off (show 0 < BSIZE by decide)
  omega

/-- `readi`: the return value, what is in `dst` if it is not -1, and the state -/
def readi (fs : Fs) (dst : Bytes) (off n : ℕ) : Except Stop (ℤ × Bytes × Fs) :=
  let nbytes := if n > BSIZE then BSIZE else n
  if off > fs.ip.size ∨ (off + n) % 2 ^ 32 < off then .ok (-1, dst, fs)
  else
    let n := if off + n > fs.ip.size then fs.ip.size - off else n
    match readLoop n nbytes 0 off 0 dst fs with
    | .ok (some dst, fs) => .ok (n, dst, fs)
    | .ok (none, fs) => .ok (-1, dst, fs)
    | .error e => .error e

/-- The checksum of a block is stored. -/
def setChecksum (fs : Fs) (bn : ℕ) (c : UInt8) : Except Stop Fs :=
  let fs := if bn < NDIRECT then fs.setAddr bn (tagged (fs.ip.addrs bn) c) else fs
  if isIndirect bn then do
    let data ← fs.bread (fs.ip.addrs NDIRECT)
    let a := tagged (entry data (bn - NDIRECT)) c
    .ok (fs.bwrite (fs.ip.addrs NDIRECT) (setEntry data (bn - NDIRECT) a))
  else .ok fs

/-- One iteration of the loop of `writei`, for `m` bytes -/
def writePiece (src : Bytes) (nbytes m tot off : ℕ) (fs : Fs) : Except Stop Fs := do
  let (b, data, fs) ← fs.fetch (off / BSIZE)
  let data := patch data (off % BSIZE) m (slice src tot)
  if fs.ip.type = .checked then do
    let fs ← fs.setChecksum (off / BSIZE) (xorSum nbytes data)
    .ok (fs.bwrite b data)
  else .ok (fs.bwrite b data)

def writeLoop (src : Bytes) (n nbytes tot off : ℕ) (fs : Fs) : Except Stop (ℕ × Fs) :=
  if _ : tot < n then do
    let m := min (n - tot) (BSIZE - off % BSIZE)
    let fs ← writePiece src nbytes m tot off fs
    writeLoop src n nbytes (tot + m) (off + m) fs
  else .ok (off, fs)
termination_by n - tot
decreasing_by
  have := Nat.mod_lt off (show 0 < BSIZE by decide)
  omega

def writei (fs : Fs) (src : Bytes) (off n : ℕ) : Except Stop (ℤ × Fs) :=
  let nbytes := if n > BSIZE then BSIZE else n
  if off > fs.ip.size ∨ (off + n) % 2 ^ 32 < off then .ok (-1, fs)
  else do
    let n := if off + n > MAXFILE * BSIZE then MAXFILE * BSIZE - off else n
    let (off, fs) ← writeLoop src n nbytes 0 off fs
    if n > 0 ∧ off > fs.ip.size then .ok (n, (fs.setSize off).iupdate) else .ok (n, fs)

end Fs

end OperatingSystems

import OperatingSystems.Fs.Calls

/-!
# The checksum of a file

`stati` combines the checksums of the blocks, each of which is that of the bytes which the last write
to the block summed.

* `Holds.stati` : the checksum is the exclusive or of those of the blocks.
* `xor_bytes` : the exclusive or of a file, as that of the summed bytes and of the others.
* `checksum_eq_iff` : **the exact condition** under which the checksum is that of the file.
-/

namespace OperatingSystems

namespace Fs

open Bytes

variable {fs : Fs} {A : Blocks} {F : File} {tag : ℕ → UInt8} {pre : ℕ → ℕ} {D : Image}

/-- The entries of the block that `stati` reads for the indirect block, block 0 included -/
theorem Holds.entries (h : Holds fs A F tag) : ∃ data, fs.bread (fs.ip.addrs NDIRECT) = .ok data ∧
    ∀ j < NINDIRECT, checksum (entry data j) = tag (NDIRECT + j) := by
  cases hp : A.ind with
  | some p =>
    have hptr : fs.ip.addrs NDIRECT = p := by rw [h.pointer, hp, Option.getD_some]
    refine ⟨fs.block p, ?_, fun j hj => ?_⟩
    · rw [hptr, bread (h.lt_of_ind hp).2]
    · rw [h.indirect p hp j hj, h.checksum_slot h.tag_behind]
  | none =>
    have hptr : fs.ip.addrs NDIRECT = 0 := by rw [h.pointer, hp, Option.getD_none]
    have hlen : A.data.length ≤ NDIRECT := not_lt.1 fun hlt => h.ind hlt hp
    refine ⟨fs.block 0, ?_, fun j hj => ?_⟩
    · rw [hptr, bread h.boot.1]
    · rw [entry_congr h.boot.2.2 hj, entry_zero, checksum_zero, h.tag_behind _ (by omega)]

/-- **The checksum of `stati`** is the exclusive or of the checksums of the blocks. -/
theorem Holds.stati (h : Holds fs A F tag) (ht : fs.ip.type = .checked) (st : Stat) :
    ∃ st', fs.stati st = .ok st' ∧ st'.checksum = xorSum MAXFILE tag := by
  obtain ⟨data, hread, hdata⟩ := h.entries
  have hstati : fs.stati st = .ok { st with
      dev := fs.ip.dev, ino := fs.ip.inum, type := fs.ip.type, nlink := fs.ip.nlink,
      size := fs.ip.size,
      checksum := xorSum NDIRECT (fun i => checksum (fs.ip.addrs i)) ^^^
        xorSum (BSIZE / 4) fun j => checksum (entry data j) } := by
    unfold Fs.stati
    rw [if_pos ht, hread]
    rfl
  have hdirect : xorSum NDIRECT (fun i => checksum (fs.ip.addrs i)) = xorSum NDIRECT tag :=
    xorSum_congr fun i hi => by rw [h.direct i hi, h.checksum_slot h.tag_behind]
  have hindirect : xorSum (BSIZE / 4) (fun j => checksum (entry data j)) =
      xorSum NINDIRECT (slice tag NDIRECT) := xorSum_congr hdata
  refine ⟨_, hstati, ?_⟩
  show xorSum NDIRECT _ ^^^ xorSum (BSIZE / 4) _ = _
  rw [hdirect, hindirect, MAXFILE, xorSum_add]

/-- The exclusive or of a file is that of the summed bytes and of those behind them in their
blocks. -/
theorem xor_bytes (hsums : Sums F tag pre) (hclean : F.Clean) (hlen : F.length ≤ MAXFILE * BSIZE) :
    xorSum F.length F.bytes = xorSum MAXFILE tag ^^^
      xorSum MAXFILE fun bn => xorSum (BSIZE - pre bn) (slice (page BSIZE bn F.bytes) (pre bn)) := by
  have hall : xorSum F.length F.bytes = xorSum (BSIZE * MAXFILE) F.bytes :=
    (xorSum_of_le (Nat.mul_comm MAXFILE BSIZE ▸ hlen) fun a ha _ => hclean a ha).symm
  rw [hall, xorSum_pages, ← xorSum_xor]
  refine xorSum_congr fun bn _ => ?_
  have hpre := hsums.le bn
  rw [hsums.tag, ← xorSum_add, Nat.add_sub_cancel' hpre]

/-- **The checksum that `stati` reports is that of the file** if and only if the bytes that lie in
their blocks behind those which the last write to the block summed have the exclusive or 0. -/
theorem checksum_eq_iff (cs : List Call)
    (h : (calls.track prefixes).run (D.create .checked, fun _ => 0) cs = some (fs, pre)) (st : Stat) :
    ∃ st', fs.stati st = .ok st' ∧ (st'.checksum = xorSum fs.ip.size fs.contents ↔
      xorSum MAXFILE (fun bn => xorSum (BSIZE - pre bn) (slice (fs.fileBlock bn) (pre bn))) = 0) := by
  obtain ⟨A, F, tag, hs, hsums, hclean⟩ := sums_of_run h
  obtain ⟨st', hst, hsum⟩ := hs.toHolds.stati hs.type st
  refine ⟨st', hst, ?_⟩
  have hbehind : (fun bn => xorSum (BSIZE - pre bn) (slice (fs.fileBlock bn) (pre bn))) =
      fun bn => xorSum (BSIZE - pre bn) (slice (page BSIZE bn F.bytes) (pre bn)) := by
    funext bn
    have hpre := hsums.le bn
    exact xorSum_congr ((hs.fileBlock bn).slice (by omega))
  rw [hsum, hs.length, hs.contents_eq, xor_bytes hsums hclean hs.length_le_max, hbehind]
  have hinj := UInt8.xor_right_inj (a := xorSum MAXFILE fun bn =>
    xorSum (BSIZE - pre bn) (slice (page BSIZE bn F.bytes) (pre bn))) (b := 0) (xorSum MAXFILE tag)
  rw [UInt8.xor_zero] at hinj
  exact eq_comm.trans hinj

/-- Two bytes in one call -/
theorem checksum_eq_once : ∃ x st', (calls.track prefixes).run (mkfs.create .checked, fun _ => 0)
    [.write (fun i => UInt8.ofNat (i + 1)) 0 2] = some x ∧
    x.1.stati ⟨0, 0, .free, 0, 0, 0⟩ = .ok st' ∧ st'.checksum = xorSum x.1.ip.size x.1.contents := by
  have hrun : ((calls.track prefixes).run (mkfs.create .checked, fun _ => 0)
      [.write (fun i => UInt8.ofNat (i + 1)) 0 2]).map (fun x : Fs × (ℕ → ℕ) =>
        xorSum MAXFILE fun bn => xorSum (BSIZE - x.2 bn) (slice (x.1.fileBlock bn) (x.2 bn))) =
      some 0 := by
    decide +kernel
  obtain ⟨⟨fs, pre⟩, hx, hzero⟩ := Option.map_eq_some_iff.1 hrun
  obtain ⟨st', hst, hiff⟩ := checksum_eq_iff _ hx ⟨0, 0, .free, 0, 0, 0⟩
  exact ⟨(fs, pre), st', hx, hst, hiff.2 hzero⟩

/-- Two bytes are written, and then the first one again. -/
def twoThenOne : List Call :=
  [.write (fun i => UInt8.ofNat (i + 1)) 0 2, .write (fun i => UInt8.ofNat (i + 1)) 0 1]

theorem checksum_ne : ¬ ∀ (D : Image) (cs : List Call) (fs : Fs) (st st' : Stat),
    calls.run (D.create .checked) cs = some fs → fs.stati st = .ok st' →
    st'.checksum = xorSum fs.ip.size fs.contents := by
  intro h
  have hrun : (calls.run (mkfs.create .checked) twoThenOne).map (fun fs : Fs =>
      ((fs.stati ⟨0, 0, .free, 0, 0, 0⟩).toOption.map Stat.checksum,
        xorSum fs.ip.size fs.contents)) = some (some 1, 3) := by
    decide +kernel
  obtain ⟨fs, hfs, heq⟩ := Option.map_eq_some_iff.1 hrun
  obtain ⟨hst, hxor⟩ := Prod.ext_iff.1 heq
  obtain ⟨st', hst', hsum⟩ := Option.map_eq_some_iff.1 hst
  cases hs : fs.stati ⟨0, 0, .free, 0, 0, 0⟩ with
  | error e => rw [hs] at hst'; cases hst'
  | ok st =>
    rw [hs] at hst'
    cases hst'
    have hclaim := h mkfs twoThenOne fs _ _ hfs hs
    rw [hsum, show xorSum fs.ip.size fs.contents = 3 from hxor] at hclaim
    exact absurd hclaim (by decide)

end Fs

end OperatingSystems

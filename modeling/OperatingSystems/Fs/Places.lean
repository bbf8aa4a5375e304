import OperatingSystems.Fs.Calls

/-!
# The blocks of an inode among others

`Holds` describes one file without holes.  Here nothing is assumed of a file but that its blocks are in
use and differ from each other and from the blocks `O` of the other inodes and of the metadata.

* `Place`, `blockAt` : what the blocks of an inode are for, and the block for it.
* `addrOf`, `setAddrOf` : the word for a data block, in the inode or in its indirect block.
* `bmap_eq` : `bmap` in two steps, of which the first makes sure of the indirect block.
* `Apart O fs` : **the blocks of the inode are its own**.
* `Extends O fs fs'` : the inode has kept its blocks and may have got more; those in `O` are unchanged.
* `Apart.bmap`, `Apart.bwrite`, `Apart.setChecksum` : the steps of `readi` and `writei` are of this kind.
* `Apart.map_fst_bmap` : what `bmap` returns depends on the blocks and the bitmap only.
-/

namespace OperatingSystems

namespace Fs

open Bytes

/-- What a block of an inode is for -/
inductive Place
  | data (bn : ℕ)
  | indirect
  deriving DecidableEq

/-- The word for the data block `bn`, in the inode or in its indirect block; 0 if there is none -/
def addrOf (fs : Fs) (bn : ℕ) : ℕ :=
  if bn < NDIRECT then fs.ip.addrs bn
  else if bn < MAXFILE ∧ fs.ip.addrs NDIRECT ≠ 0 then
    entry (fs.block (fs.ip.addrs NDIRECT)) (bn - NDIRECT)
  else 0

def setAddrOf (fs : Fs) (bn a : ℕ) : Fs :=
  if bn < NDIRECT then fs.setAddr bn a
  else
    fs.bwrite (fs.ip.addrs NDIRECT) (setEntry (fs.block (fs.ip.addrs NDIRECT)) (bn - NDIRECT) a)

/-- The block at a place, if there is one -/
def blockAt (fs : Fs) : Place → Option ℕ
  | .data bn => if fs.addrOf bn = 0 then none else some (fs.mask (fs.addrOf bn))
  | .indirect => if fs.ip.addrs NDIRECT = 0 then none else some (fs.ip.addrs NDIRECT)

variable {fs fs' fs'' : Fs} {p q : Place} {O : Set ℕ} {a b bn n : ℕ} {c : UInt8}

/-! ### Words -/

theorem addrOf_direct (h : bn < NDIRECT) : fs.addrOf bn = fs.ip.addrs bn := if_pos h

theorem addrOf_indirect (h : NDIRECT ≤ bn) (hlt : bn < MAXFILE) (hp : fs.ip.addrs NDIRECT ≠ 0) :
    fs.addrOf bn = entry (fs.block (fs.ip.addrs NDIRECT)) (bn - NDIRECT) := by
  rw [addrOf, if_neg (not_lt.2 h), if_pos ⟨hlt, hp⟩]

/-- A word that is not zero -/
theorem addrOf_ne_zero (h : fs.addrOf bn ≠ 0) :
    bn < MAXFILE ∧ (NDIRECT ≤ bn → fs.ip.addrs NDIRECT ≠ 0) := by
  unfold addrOf at h
  split_ifs at h with hlt hind
  · exact ⟨by simp only [MAXFILE]; omega, fun hge => absurd hlt (not_lt.2 hge)⟩
  · exact ⟨hind.1, fun _ => hind.2⟩
  · exact absurd rfl h

theorem setAddrOf_indirect (h : NDIRECT ≤ bn) : fs.setAddrOf bn a =
    fs.bwrite (fs.ip.addrs NDIRECT)
      (setEntry (fs.block (fs.ip.addrs NDIRECT)) (bn - NDIRECT) a) := if_neg (not_lt.2 h)

theorem setAddrOf_pointer (fs : Fs) (bn a : ℕ) :
    (fs.setAddrOf bn a).ip.addrs NDIRECT = fs.ip.addrs NDIRECT := by
  unfold setAddrOf
  split_ifs with h
  · rw [setAddr_addrs, Function.update_of_ne h.ne']
  · rfl

@[simp] theorem setAddrOf_type (fs : Fs) (bn a : ℕ) :
    (fs.setAddrOf bn a).ip.type = fs.ip.type := by
  unfold setAddrOf
  split <;> rfl

@[simp] theorem setAddrOf_used (fs : Fs) (bn a : ℕ) : (fs.setAddrOf bn a).used = fs.used := by
  unfold setAddrOf
  split <;> rfl

@[simp] theorem setAddrOf_size (fs : Fs) (bn a : ℕ) : (fs.setAddrOf bn a).size = fs.size := by
  unfold setAddrOf
  split <;> rfl

/-- At most the indirect block is written. -/
theorem setAddrOf_block (h : b ≠ fs.ip.addrs NDIRECT) :
    (fs.setAddrOf bn a).block b = fs.block b := by
  unfold setAddrOf
  split
  · rfl
  · exact Function.update_of_ne h ..

theorem addrOf_setAddrOf_self (hlt : bn < MAXFILE) (hp : NDIRECT ≤ bn → fs.ip.addrs NDIRECT ≠ 0)
    (ha : a < 2 ^ 32) : (fs.setAddrOf bn a).addrOf bn = a := by
  by_cases h : bn < NDIRECT
  · rw [addrOf_direct h, setAddrOf, if_pos h, setAddr_addrs, Function.update_self]
  · have hge := not_lt.1 h
    have hpointer := setAddrOf_pointer fs bn a
    rw [addrOf_indirect hge hlt (hpointer ▸ hp hge), hpointer, setAddrOf_indirect hge, bwrite_block,
      Function.update_self, entry_setEntry_self ha]

theorem addrOf_setAddrOf_of_ne {i : ℕ} (h : i ≠ bn) :
    (fs.setAddrOf bn a).addrOf i = fs.addrOf i := by
  unfold addrOf
  rw [setAddrOf_pointer]
  unfold setAddrOf
  split_ifs with hi hbn hbn hind
  · rw [setAddr_addrs, Function.update_of_ne h]
  · rfl
  · rfl
  · rw [bwrite_block, Function.update_self, entry_setEntry_of_ne (by omega)]
  · rfl

/-- A word with another checksum -/
theorem tagged_eq (a : ℕ) (c : UInt8) : tagged a c = word c (a % 2 ^ 24) := by
  have hlt : a % 2 ^ 24 < 2 ^ 24 := Nat.mod_lt _ (by norm_num)
  have hword := tagged_word (c := 0) (d := c) hlt
  rw [word_zero] at hword
  rw [← hword, tagged, tagged, and_ffffff, and_ffffff, Nat.mod_mod]

/-! ### Blocks -/

theorem blockAt_data (h : fs.addrOf bn ≠ 0) :
    fs.blockAt (.data bn) = some (fs.mask (fs.addrOf bn)) := if_neg h

theorem blockAt_indirect_eq_some : fs.blockAt .indirect = some b ↔
    fs.ip.addrs NDIRECT ≠ 0 ∧ fs.ip.addrs NDIRECT = b := by
  unfold blockAt
  split_ifs <;> simp [*]

theorem blockAt_data_eq_some : fs.blockAt (.data bn) = some b ↔
    fs.addrOf bn ≠ 0 ∧ fs.mask (fs.addrOf bn) = b := by
  unfold blockAt
  split_ifs <;> simp [*]

theorem blockAt_data_eq_none : fs.blockAt (.data bn) = none ↔ fs.addrOf bn = 0 := by
  unfold blockAt
  split_ifs <;> simp [*]

/-- The blocks depend on the addresses and on the indirect block. -/
theorem blockAt_congr (haddrs : fs'.ip.addrs = fs.ip.addrs) (htype : fs'.ip.type = fs.ip.type)
    (hblock : ∀ b, fs.blockAt .indirect = some b → fs'.block b = fs.block b) (p : Place) :
    fs'.blockAt p = fs.blockAt p := by
  have haddr : ∀ bn, fs'.addrOf bn = fs.addrOf bn := by
    intro bn
    unfold addrOf
    rw [haddrs]
    split_ifs with hbn hind
    · rfl
    · rw [hblock _ (blockAt_indirect_eq_some.2 ⟨hind.2, rfl⟩)]
    · rfl
  cases p with
  | data bn => simp only [blockAt, haddr, mask, htype]
  | indirect => simp only [blockAt, haddrs]

theorem blockAt_setAddrOf (fs : Fs) (hlt : bn < MAXFILE) (hp : NDIRECT ≤ bn → fs.ip.addrs NDIRECT ≠ 0)
    (ha : a < 2 ^ 32) (h0 : a ≠ 0) (p : Place) :
    (fs.setAddrOf bn a).blockAt p = if p = .data bn then some (fs.mask a) else fs.blockAt p := by
  have hmask : (fs.setAddrOf bn a).mask = fs.mask := by
    unfold mask
    rw [setAddrOf_type]
  cases p with
  | indirect => simp only [blockAt, setAddrOf_pointer, reduceCtorEq, if_false]
  | data i =>
    obtain rfl | hne := eq_or_ne i bn
    · rw [if_pos rfl, blockAt, addrOf_setAddrOf_self hlt hp ha, if_neg h0, hmask]
    · rw [if_neg (by simpa using hne), blockAt, addrOf_setAddrOf_of_ne hne, hmask, blockAt]

/-- A new indirect block lists nothing. -/
theorem blockAt_setPointer (fs : Fs) (hp : fs.ip.addrs NDIRECT = 0) (hn : n ≠ 0)
    (hzero : EqTo BSIZE (fs.block n) fun _ => 0) (p : Place) :
    (fs.setAddr NDIRECT n).blockAt p = if p = .indirect then some n else fs.blockAt p := by
  have hself : (fs.setAddr NDIRECT n).ip.addrs NDIRECT = n := by
    rw [setAddr_addrs, Function.update_self]
  cases p with
  | indirect => rw [if_pos rfl, blockAt, hself, if_neg hn]
  | data bn =>
    have haddr : (fs.setAddr NDIRECT n).addrOf bn = fs.addrOf bn := by
      unfold addrOf
      split_ifs with hlt hind hold hold
      · exact Function.update_of_ne hlt.ne ..
      · exact absurd hp hold.2
      · rw [hself, setAddr_block, entry_congr hzero (by simp only [MAXFILE] at hind; omega),
          entry_zero]
      · exact absurd hp hold.2
      · rfl
    simp only [blockAt, haddr, mask, setAddr_type, reduceCtorEq, if_false]

/-! ### `bmap` in two steps -/

/-- The indirect block, if it is needed -/
def withIndirect (fs : Fs) (bn : ℕ) : Except Stop Fs :=
  if bn < NDIRECT then .ok fs
  else do
    let (ind, fs) ← fs.addrAt NDIRECT
    let _ ← fs.bread ind
    .ok fs

/-- The data block, in an inode that has the indirect block -/
def dataAt (fs : Fs) (bn : ℕ) : Except Stop (ℕ × Fs) :=
  if fs.addrOf bn = 0 then do
    let (n, fs) ← fs.balloc
    .ok (fs.mask n, fs.setAddrOf bn n)
  else .ok (fs.mask (fs.addrOf bn), fs)

/-- What `balloc` returns was free. -/
theorem balloc_eq_ok (h : fs.balloc = .ok (n, fs')) : fs.used n = false ∧
    n < (fs.size + BPB - 1) / BPB * BPB ∧ fs' = fs.setUsed n true := by
  unfold balloc at h
  split at h
  next b hb =>
    cases h
    obtain ⟨hused, hlt⟩ := findFree_eq_some hb
    exact ⟨hused, by omega, rfl⟩
  · cases h

theorem addrAt_ne_zero {i : ℕ} (h0 : fs.used 0 = true) (h : fs.addrAt i = .ok (n, fs')) :
    n ≠ 0 ∧ fs'.ip.addrs i = n := by
  unfold addrAt at h
  split_ifs at h with hz
  · obtain ⟨⟨b, fs₁⟩, hb, hx⟩ := bind_eq_ok.1 h
    cases hx
    obtain ⟨hused, -, rfl⟩ := balloc_eq_ok hb
    refine ⟨?_, Function.update_self ..⟩
    rintro rfl
    rw [hused] at h0
    cases h0
  · cases h
    exact ⟨hz, rfl⟩

theorem bread_eq_ok {data : Bytes} (h : fs.bread b = .ok data) :
    b < fs.size ∧ data = fs.block b := by
  unfold bread at h
  split_ifs at h with hlt
  exact ⟨hlt, (Except.ok.inj h).symm⟩

/-- The direct blocks -/
theorem addrAt_eq_dataAt (h : bn < NDIRECT) :
    (do
      let (addr, fs) ← fs.addrAt bn
      .ok (fs.mask addr, fs)) = fs.dataAt bn := by
  unfold addrAt dataAt
  rw [addrOf_direct h]
  split
  · cases hb : fs.balloc with
    | error e => rfl
    | ok x => simp only [setAddrOf, if_pos h]; rfl
  · rfl

/-- The blocks that the indirect block lists -/
theorem entryAt_eq_dataAt (hge : NDIRECT ≤ bn) (hlt : bn < MAXFILE)
    (hp : fs.ip.addrs NDIRECT ≠ 0) (hsize : fs.ip.addrs NDIRECT < fs.size) :
    (do
      let (addr, fs) ← fs.entryAt (fs.ip.addrs NDIRECT) (bn - NDIRECT)
      .ok (fs.mask addr, fs)) = fs.dataAt bn := by
  unfold entryAt dataAt
  rw [addrOf_indirect hge hlt hp, Fs.bread, if_pos hsize, ok_bind]
  split
  · cases hb : fs.balloc with
    | error e => rfl
    | ok x =>
      obtain ⟨n, fs₁⟩ := x
      obtain ⟨-, -, rfl⟩ := balloc_eq_ok hb
      simp only [setAddrOf_indirect hge]
      rfl
  · rfl

theorem bmap_eq (h0 : fs.used 0 = true) (hlt : bn < MAXFILE) :
    fs.bmap bn = (fs.withIndirect bn).bind fun fs => fs.dataAt bn := by
  unfold bmap withIndirect
  by_cases h : bn < NDIRECT
  · rw [if_pos h, if_pos h]
    exact addrAt_eq_dataAt h
  have hge := not_lt.1 h
  rw [if_neg h, if_neg h, if_pos (by simp only [MAXFILE] at hlt; omega)]
  cases hx : fs.addrAt NDIRECT with
  | error e => rfl
  | ok x =>
    obtain ⟨ind, fs₁⟩ := x
    obtain ⟨hind, rfl⟩ := addrAt_ne_zero h0 hx
    rw [ok_bind, ok_bind]
    by_cases hsize : fs₁.ip.addrs NDIRECT < fs₁.size
    · have hread : fs₁.bread (fs₁.ip.addrs NDIRECT) = .ok (fs₁.block (fs₁.ip.addrs NDIRECT)) :=
        if_pos hsize
      simp only [hread]
      exact entryAt_eq_dataAt hge hlt hind hsize
    · have hread : fs₁.bread (fs₁.ip.addrs NDIRECT) = .error .fault := if_neg hsize
      simp only [entryAt, hread]
      rfl

/-- The block that `balloc` returns -/
def newBlock (size : ℕ) (used : ℕ → Bool) : Except Stop ℕ :=
  match findFree used ((size + BPB - 1) / BPB * BPB) 0 with
  | some b => .ok b
  | none => .error .outOfBlocks

theorem balloc_eq (fs : Fs) :
    fs.balloc = (newBlock fs.size fs.used).map fun b => (b, fs.setUsed b true) := by
  unfold balloc newBlock
  cases findFree fs.used ((fs.size + BPB - 1) / BPB * BPB) 0 <;> rfl

/-- A new indirect block -/
theorem withIndirect_of_none (hge : ¬ bn < NDIRECT) (hz : fs.ip.addrs NDIRECT = 0) :
    fs.withIndirect bn = (newBlock fs.size fs.used).bind fun ind =>
      if ind < fs.size then .ok ((fs.setUsed ind true).setAddr NDIRECT ind) else .error .fault := by
  rw [withIndirect, if_neg hge, addrAt, if_pos hz, balloc_eq]
  cases newBlock fs.size fs.used with
  | error e => rfl
  | ok ind =>
    have hread : ((fs.setUsed ind true).setAddr NDIRECT ind).bread ind =
        if ind < fs.size then .ok (fs.block ind) else .error .fault := rfl
    change (((fs.setUsed ind true).setAddr NDIRECT ind).bread ind >>= fun _ =>
      .ok ((fs.setUsed ind true).setAddr NDIRECT ind)) = if ind < fs.size then _ else _
    rw [hread]
    split <;> rfl

/-- The second of two new blocks, if the first one is on the disk -/
def newBlockBehind (size : ℕ) (used : ℕ → Bool) : Except Stop ℕ := do
  let ind ← newBlock size used
  if ind < size then newBlock size (Function.update used ind true) else .error .fault

/-- The block that `bmap` returns for an inode with the blocks `at_` -/
def bmapOf (size : ℕ) (used : ℕ → Bool) (at_ : Place → Option ℕ) (bn : ℕ) : Except Stop ℕ :=
  if bn < MAXFILE then
    match at_ (.data bn) with
    | some b => .ok b
    | none =>
      if bn < NDIRECT ∨ at_ .indirect ≠ none then newBlock size used else newBlockBehind size used
  else .error .outOfRange

/-! ### The blocks of one inode and all others -/

/-- **The blocks of the inode are its own**: they are in use, no two of them are the same, and none is in
`O`, where the blocks of the other inodes and the metadata are.  The unused blocks are zero. -/
structure Apart (O : Set ℕ) (fs : Fs) : Prop where
  size_le : fs.size ≤ 2 ^ 24 - 4096
  boot : 0 ∈ O
  kept : ∀ b ∈ O, fs.used b = true
  used : ∀ p b, fs.blockAt p = some b → fs.used b = true
  notMem : ∀ p b, fs.blockAt p = some b → b ∉ O
  inj : ∀ p q b, fs.blockAt p = some b → fs.blockAt q = some b → p = q
  pointer : ∀ b, fs.blockAt .indirect = some b → b < fs.size
  fresh : ∀ b < fs.size, fs.used b = false → EqTo BSIZE (fs.block b) fun _ => 0

/-- The inode has kept its blocks, and the blocks in `O` are unchanged. -/
structure Extends (O : Set ℕ) (fs fs' : Fs) : Prop where
  apart : Apart O fs'
  keeps : ∀ p b, fs.blockAt p = some b → fs'.blockAt p = some b
  others : ∀ b ∈ O, fs'.block b = fs.block b
  size : fs'.size = fs.size
  type : fs'.ip.type = fs.ip.type

theorem Extends.refl (h : Apart O fs) : Extends O fs fs := ⟨h, fun _ _ => id, fun _ _ => rfl, rfl, rfl⟩

theorem Extends.trans (h : Extends O fs fs') (h' : Extends O fs' fs'') : Extends O fs fs'' where
  apart := h'.apart
  keeps p b hb := h'.keeps p b (h.keeps p b hb)
  others b hb := (h'.others b hb).trans (h.others b hb)
  size := h'.size.trans h.size
  type := h'.type.trans h.type

namespace Apart

theorem boot_used (h : Apart O fs) : fs.used 0 = true := h.kept 0 h.boot

theorem ne_zero (h : Apart O fs) (hb : fs.blockAt p = some b) : b ≠ 0 := by
  rintro rfl
  exact h.notMem p 0 hb h.boot

/-- A block that is free is not that of a place, and not one of the others. -/
theorem of_free (h : Apart O fs) (hn : fs.used n = false) :
    n ∉ O ∧ n ≠ 0 ∧ ∀ p, fs.blockAt p ≠ some n := by
  have hne : fs.used n ≠ true := by simp [hn]
  exact ⟨fun hO => hne (h.kept n hO), fun h0 => hne (h0 ▸ h.boot_used), fun p hp => hne (h.used p n hp)⟩

/-- A block that is free is taken for a place without one; at most blocks of the inode are written. -/
theorem add (h : Apart O fs) (hn : fs.used n = false) (hpointer : p = .indirect → n < fs.size)
    (hat : ∀ q, fs'.blockAt q = if q = p then some n else fs.blockAt q)
    (hp : fs.blockAt p = none) (hused : fs'.used = Function.update fs.used n true)
    (hblock : ∀ b, (∀ q, fs.blockAt q ≠ some b) → fs'.block b = fs.block b)
    (hsize : fs'.size = fs.size) (htype : fs'.ip.type = fs.ip.type) : Extends O fs fs' := by
  obtain ⟨hO, -, hnew⟩ := h.of_free hn
  have hold : ∀ b, fs.used b = true → fs'.used b = true := by
    intro b hb
    rw [hused]
    by_cases hbn : b = n
    · rw [hbn, Function.update_self]
    · rw [Function.update_of_ne hbn, hb]
  -- a place has the new block, or what it had
  have hcases : ∀ q b, fs'.blockAt q = some b → q = p ∧ b = n ∨ q ≠ p ∧ fs.blockAt q = some b := by
    intro q b hb
    rw [hat] at hb
    split_ifs at hb with hq
    · exact .inl ⟨hq, (Option.some.inj hb).symm⟩
    · exact .inr ⟨hq, hb⟩
  refine ⟨⟨hsize ▸ h.size_le, h.boot, fun b hb => hold b (h.kept b hb), fun q b hb => ?_,
    fun q b hb => ?_, fun q r b hq hr => ?_, fun b hb => ?_, fun b hlt hb => ?_⟩, fun q b hb => ?_,
    fun b hb => hblock b fun q hq => h.notMem q b hq hb, hsize, htype⟩
  · obtain ⟨-, rfl⟩ | ⟨-, hb⟩ := hcases q b hb
    · rw [hused, Function.update_self]
    · exact hold b (h.used q b hb)
  · obtain ⟨-, rfl⟩ | ⟨-, hb⟩ := hcases q b hb
    · exact hO
    · exact h.notMem q b hb
  · obtain ⟨rfl, rfl⟩ | ⟨-, hq⟩ := hcases q b hq <;> obtain ⟨rfl, hbn⟩ | ⟨-, hr⟩ := hcases r b hr
    · rfl
    · exact absurd hr (hnew r)
    · exact absurd (hbn ▸ hq) (hnew q)
    · exact h.inj q r b hq hr
  · rw [hsize]
    obtain ⟨hpi, rfl⟩ | ⟨-, hb⟩ := hcases _ b hb
    · exact hpointer hpi.symm
    · exact h.pointer b hb
  · rw [hused] at hb
    obtain ⟨hne, hb⟩ : b ≠ n ∧ fs.used b = false := by
      by_cases hbn : b = n
      · rw [hbn, Function.update_self] at hb
        cases hb
      · exact ⟨hbn, by rwa [Function.update_of_ne hbn] at hb⟩
    rw [hblock b (h.of_free hb).2.2]
    exact h.fresh b (hsize ▸ hlt) hb
  · rw [hat, if_neg, hb]
    rintro rfl
    rw [hp] at hb
    cases hb

/-- No place gets or loses a block; at most blocks of the inode are written. -/
theorem keep (h : Apart O fs) (hat : ∀ q, fs'.blockAt q = fs.blockAt q) (hused : fs'.used = fs.used)
    (hblock : ∀ b, (∀ q, fs.blockAt q ≠ some b) → fs'.block b = fs.block b)
    (hsize : fs'.size = fs.size) (htype : fs'.ip.type = fs.ip.type) : Extends O fs fs' := by
  refine ⟨⟨hsize ▸ h.size_le, h.boot, hused ▸ h.kept, fun q b hb => ?_, fun q b hb => ?_,
    fun q r b hq hr => ?_, fun b hb => ?_, fun b hlt hb => ?_⟩, fun q b hb => (hat q).trans hb,
    fun b hb => hblock b fun q hq => h.notMem q b hq hb, hsize, htype⟩
  · exact hused ▸ h.used q b (hat q ▸ hb)
  · exact h.notMem q b (hat q ▸ hb)
  · exact h.inj q r b (hat q ▸ hq) (hat r ▸ hr)
  · exact hsize ▸ h.pointer b (hat _ ▸ hb)
  · rw [hused] at hb
    rw [hblock b (h.of_free hb).2.2]
    exact h.fresh b (hsize ▸ hlt) hb

/-! ### The steps of `readi` and `writei` -/

theorem lt_of_balloc (h : Apart O fs) (hb : fs.balloc = .ok (n, fs')) : n < 2 ^ 24 := by
  have hlt := (balloc_eq_ok hb).2.1
  have hle := h.size_le
  simp only [BPB, BSIZE] at hlt
  omega

theorem mask_of_balloc (h : Apart O fs) (hb : fs.balloc = .ok (n, fs')) : fs.mask n = n := by
  unfold mask
  split
  · rw [and_ffffff, Nat.mod_eq_of_lt (h.lt_of_balloc hb)]
  · rfl

theorem withIndirect (h : Apart O fs) (hx : fs.withIndirect bn = .ok fs') :
    Extends O fs fs' ∧ (NDIRECT ≤ bn → fs'.ip.addrs NDIRECT ≠ 0) := by
  unfold Fs.withIndirect at hx
  split_ifs at hx with hlt
  · cases hx
    exact ⟨.refl h, fun hge => absurd hlt (not_lt.2 hge)⟩
  obtain ⟨⟨ind, fs₁⟩, hind, hx⟩ := bind_eq_ok.1 hx
  obtain ⟨data, hread, hx⟩ := bind_eq_ok.1 hx
  obtain rfl : fs₁ = fs' := Except.ok.inj hx
  obtain ⟨hne, hself⟩ := addrAt_ne_zero h.boot_used hind
  refine ⟨?_, fun _ => hself ▸ hne⟩
  unfold addrAt at hind
  split_ifs at hind with hz
  · obtain ⟨⟨n, fs₂⟩, hb, hy⟩ := bind_eq_ok.1 hind
    cases hy
    obtain ⟨hfree, -, rfl⟩ := balloc_eq_ok hb
    have hlt : ind < fs.size := (bread_eq_ok hread).1
    exact h.add hfree (fun _ => hlt)
      (blockAt_setPointer (fs.setUsed ind true) hz hne (h.fresh ind hlt hfree))
      (by simp [blockAt, hz]) rfl (fun _ _ => rfl) rfl rfl
  · cases hind
    exact .refl h

theorem dataAt (h : Apart O fs) (hlt : bn < MAXFILE) (hp : NDIRECT ≤ bn → fs.ip.addrs NDIRECT ≠ 0)
    (hx : fs.dataAt bn = .ok (b, fs')) : Extends O fs fs' ∧ fs'.blockAt (.data bn) = some b := by
  unfold Fs.dataAt at hx
  split_ifs at hx with hz
  · obtain ⟨⟨n, fs₁⟩, hb, hx⟩ := bind_eq_ok.1 hx
    cases hx
    obtain ⟨hfree, -, rfl⟩ := balloc_eq_ok hb
    have hn := h.lt_of_balloc hb
    have hmask := h.mask_of_balloc hb
    have hne := (h.of_free hfree).2.1
    have hat := blockAt_setAddrOf (fs.setUsed n true) (a := n) hlt hp (by omega) hne
    have hat' : ∀ q, ((fs.setUsed n true).setAddrOf bn n).blockAt q =
        if q = .data bn then some n else fs.blockAt q := by
      intro q
      rw [hat q]
      change (if q = .data bn then some (fs.mask n) else fs.blockAt q) = _
      rw [hmask]
    refine ⟨h.add hfree (by simp) hat' (by simp [blockAt, hz]) (by simp) (fun c hc => ?_) (by simp)
      (by simp), ?_⟩
    · by_cases hge : NDIRECT ≤ bn
      · exact setAddrOf_block fun hcp => hc .indirect (blockAt_indirect_eq_some.2 ⟨hp hge, hcp.symm⟩)
      · unfold setAddrOf
        rw [if_pos (not_le.1 hge)]
        rfl
    · rw [hat', if_pos rfl]
      exact congrArg some hmask.symm
  · cases hx
    exact ⟨.refl h, blockAt_data hz⟩

/-- **`bmap` returns the block of its place.** -/
theorem bmap (h : Apart O fs) (hx : fs.bmap bn = .ok (b, fs')) :
    Extends O fs fs' ∧ fs'.blockAt (.data bn) = some b := by
  have hlt : bn < MAXFILE := by
    by_contra hge
    simp only [MAXFILE, not_lt] at hge
    rw [Fs.bmap, if_neg (by omega), if_neg (by omega)] at hx
    cases hx
  rw [bmap_eq h.boot_used hlt] at hx
  obtain ⟨fs₁, hfs₁, hx⟩ := bind_eq_ok.1 hx
  obtain ⟨he, hp⟩ := h.withIndirect hfs₁
  obtain ⟨he', hat⟩ := he.apart.dataAt hlt hp hx
  exact ⟨he.trans he', hat⟩

theorem withIndirect_of_pointer (h : Apart O fs) (hp : NDIRECT ≤ bn → fs.ip.addrs NDIRECT ≠ 0) :
    fs.withIndirect bn = .ok fs := by
  unfold Fs.withIndirect
  split_ifs with hbn
  · rfl
  · have hz := hp (not_lt.1 hbn)
    have hsize := h.pointer _ (blockAt_indirect_eq_some.2 ⟨hz, rfl⟩)
    have hread : fs.bread (fs.ip.addrs NDIRECT) = .ok (fs.block (fs.ip.addrs NDIRECT)) :=
      if_pos hsize
    rw [addrAt, if_neg hz, ok_bind]
    simp only [hread]
    rfl

/-- **A place that has a block** keeps it: `bmap` returns it, and changes nothing. -/
theorem bmap_of_blockAt (h : Apart O fs) (hb : fs.blockAt (.data bn) = some b) :
    fs.bmap bn = .ok (b, fs) := by
  obtain ⟨hne, hmask⟩ := blockAt_data_eq_some.1 hb
  obtain ⟨hlt, hp⟩ := addrOf_ne_zero hne
  rw [bmap_eq h.boot_used hlt, h.withIndirect_of_pointer hp]
  change fs.dataAt bn = _
  rw [Fs.dataAt, if_neg hne, hmask]

/-- A data block is written. -/
theorem bwrite (h : Apart O fs) (hb : fs.blockAt (.data bn) = some b) (d : Bytes) :
    Extends O fs (fs.bwrite b d) := by
  refine h.keep (blockAt_congr rfl rfl fun c hc => ?_) rfl (fun c hc => ?_) rfl rfl
  · refine Function.update_of_ne ?_ ..
    rintro rfl
    have := h.inj _ _ _ hb hc
    cases this
  · refine Function.update_of_ne ?_ ..
    rintro rfl
    exact hc _ hb

/-- The checksum is stored in the word for the block. -/
theorem setChecksum_eq (h : Apart O fs) (hb : fs.blockAt (.data bn) = some b) (c : UInt8) :
    fs.setChecksum bn c = .ok (fs.setAddrOf bn (tagged (fs.addrOf bn) c)) := by
  obtain ⟨hlt, hp⟩ := addrOf_ne_zero (blockAt_data_eq_some.1 hb).1
  have hiff := isIndirect_iff hlt
  unfold Fs.setChecksum
  by_cases hbn : bn < NDIRECT
  · have hnot : ¬ isIndirect bn = true := fun hi => absurd hbn (not_lt.2 (hiff.1 hi))
    rw [if_neg hnot, if_pos hbn, setAddrOf, if_pos hbn, addrOf_direct hbn]
  · have hge := not_lt.1 hbn
    have hz := hp hge
    have hsize := h.pointer _ (blockAt_indirect_eq_some.2 ⟨hz, rfl⟩)
    rw [if_pos (hiff.2 hge), if_neg hbn, Fs.bread, if_pos hsize, ok_bind, setAddrOf_indirect hge,
      addrOf_indirect hge hlt hz]

/-- **Storing a checksum** leaves all blocks at their places. -/
theorem setChecksum (h : Apart O fs) (ht : fs.ip.type = .checked)
    (hb : fs.blockAt (.data bn) = some b) (hx : fs.setChecksum bn c = .ok fs') :
    Extends O fs fs' ∧ (∀ q, fs'.blockAt q = fs.blockAt q) ∧ fs'.used = fs.used := by
  rw [h.setChecksum_eq hb] at hx
  obtain rfl := Except.ok.inj hx
  obtain ⟨hne, hmask⟩ := blockAt_data_eq_some.1 hb
  obtain ⟨hlt, hp⟩ := addrOf_ne_zero hne
  have hmod : fs.addrOf bn % 2 ^ 24 = b := by rw [← hmask, mask, if_pos ht, and_ffffff]
  have hword : tagged (fs.addrOf bn) c = word c b := by rw [tagged_eq, hmod]
  have hb24 : b < 2 ^ 24 := hmod ▸ Nat.mod_lt _ (by norm_num)
  have hat : ∀ q, (fs.setAddrOf bn (tagged (fs.addrOf bn) c)).blockAt q = fs.blockAt q := by
    intro q
    rw [hword, blockAt_setAddrOf fs hlt hp (word_lt hb24)
      (word_ne_zero (Nat.pos_of_ne_zero (h.ne_zero hb)))]
    split_ifs with hq
    · rw [hq, hb, mask, if_pos ht, word_and hb24]
    · rfl
  refine ⟨h.keep hat (by simp) (fun d hd => ?_) (by simp) (by simp), hat, by simp⟩
  by_cases hge : NDIRECT ≤ bn
  · exact setAddrOf_block fun hdp => hd .indirect (blockAt_indirect_eq_some.2 ⟨hp hge, hdp.symm⟩)
  · rw [setAddrOf, if_pos (not_le.1 hge), setAddr_block]

/-- What `dataAt` returns where there is no block -/
theorem map_fst_dataAt (h : Apart O fs) (hb : fs.blockAt (.data bn) = none) :
    (fs.dataAt bn).map Prod.fst = newBlock fs.size fs.used := by
  rw [Fs.dataAt, if_pos (blockAt_data_eq_none.1 hb)]
  have heq := balloc_eq fs
  cases hn : newBlock fs.size fs.used with
  | error e =>
    rw [hn] at heq
    rw [heq]
    rfl
  | ok n =>
    rw [hn] at heq
    rw [heq]
    exact congrArg Except.ok (h.mask_of_balloc heq)

/-- What `bmap` returns for the first block that an indirect block lists -/
theorem map_fst_bmap_new (h : Apart O fs) (hlt : bn < MAXFILE) (hge : ¬ bn < NDIRECT)
    (hp : fs.blockAt .indirect = none) (hb : fs.blockAt (.data bn) = none) :
    (fs.bmap bn).map Prod.fst = newBlockBehind fs.size fs.used := by
  have hz : fs.ip.addrs NDIRECT = 0 := by
    by_contra hne
    rw [blockAt, if_neg hne] at hp
    cases hp
  have hx := withIndirect_of_none hge hz
  rw [bmap_eq h.boot_used hlt, newBlockBehind]
  cases hn : newBlock fs.size fs.used with
  | error e =>
    rw [hn] at hx
    rw [hx]
    rfl
  | ok ind =>
    have hfree := (balloc_eq_ok ((balloc_eq fs).trans (by rw [hn]; rfl))).1
    replace hx : fs.withIndirect bn = if ind < fs.size then _ else _ := hx.trans (by rw [hn]; rfl)
    rw [ok_bind, hx]
    by_cases hsize : ind < fs.size
    · rw [if_pos hsize] at hx ⊢
      rw [if_pos hsize]
      have hat := blockAt_setPointer (fs.setUsed ind true) hz (h.of_free hfree).2.1
        (h.fresh ind hsize hfree) (.data bn)
      refine (h.withIndirect hx).1.apart.map_fst_dataAt (hat.trans ?_)
      rw [if_neg (by simp)]
      exact hb
    · rw [if_neg hsize, if_neg hsize]
      rfl

/-- **What `bmap` returns** depends on the places and the bitmap, and not on the checksums. -/
theorem map_fst_bmap (h : Apart O fs) (bn : ℕ) :
    (fs.bmap bn).map Prod.fst = bmapOf fs.size fs.used fs.blockAt bn := by
  unfold bmapOf
  by_cases hlt : bn < MAXFILE
  swap
  · rw [if_neg hlt, Fs.bmap]
    simp only [MAXFILE] at hlt
    rw [if_neg (by omega), if_neg (by omega)]
    rfl
  rw [if_pos hlt]
  cases hb : fs.blockAt (.data bn) with
  | some b =>
    rw [h.bmap_of_blockAt hb]
    rfl
  | none =>
    by_cases hind : bn < NDIRECT ∨ fs.blockAt .indirect ≠ none
    · have hp : NDIRECT ≤ bn → fs.ip.addrs NDIRECT ≠ 0 := by
        intro hge hz
        obtain hbn | hne := hind
        · exact absurd hbn (not_lt.2 hge)
        · exact hne (if_pos hz)
      rw [bmap_eq h.boot_used hlt, h.withIndirect_of_pointer hp, if_pos hind]
      exact h.map_fst_dataAt hb
    · rw [if_neg hind]
      obtain ⟨hge, hnone⟩ := not_or.1 hind
      exact h.map_fst_bmap_new hlt hge (not_not.1 hnone) hb

end Apart

end Fs

end OperatingSystems

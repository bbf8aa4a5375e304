import OperatingSystems.Fs.Calls

/-!
# Checksums on the disk

The checksums of the direct blocks are kept with their addresses in the inode, and `writei` calls
`iupdate` only when the file has grown.  A checksum that is changed without that is lost when the inode
leaves the cache.

* `reload` : the inode leaves the cache and is locked again.
* `Durable` : the copy of the inode on the disk has the checksums of the one in the cache.
* `OnDisk` : what the copy on the disk is.
* `Saved.of_next` : what a step does to both copies.
* `durable_iff` : **the exact condition** under which all states of a run are durable.
-/

namespace OperatingSystems

namespace Fs

open Bytes

variable {fs fs' : Fs} {A : Blocks} {F : File} {tag tagd : ℕ → UInt8} {D : Image}

/-! ### The cache -/

/-- The last user of the inode lets go of it, and another one looks it up and locks it. -/
def reload (fs : Fs) : Except Stop Fs := do
  let fs ← fs.iunlock
  let fs ← fs.iput
  fs.iget.ilock

inductive Step
  | call (c : Call)
  | evict

def cached : Machine Fs Step where
  next fs
    | .call c => calls.next fs c
    | .evict =>
      match fs.reload with
      | .ok fs => some fs
      | .error _ => none

/-- `readi` returns -1. -/
def Fails (fs : Fs) (off n : UInt32) : Prop :=
  ∃ dst dst' fs', fs.readi dst off.toNat n.toNat = .ok (-1, dst', fs')

/-- The copy of the inode on the disk has the checksums of the one in the cache, and the same
indirect block, so that it does not matter whether the inode leaves the cache. -/
structure Durable (fs : Fs) : Prop where
  direct : ∀ bn < NDIRECT, BSIZE * bn < fs.ip.size →
    checksum (fs.dip.addrs bn) = checksum (fs.ip.addrs bn)
  indirect : BSIZE * NDIRECT < fs.ip.size → fs.dip.addrs NDIRECT = fs.ip.addrs NDIRECT
  reload : ∃ fs', fs.reload = .ok fs' ∧ ∀ off n, Fails fs' off n ↔ Fails fs off n

/-- A write grows the file, or leaves the checksums of the direct blocks as they are. -/
def Keeps (fs : Fs) : Step → Prop
  | .call (.write src off n) => InRange fs.ip.size off.toNat n.toNat →
      fs.ip.size < off.toNat + clip off.toNat n.toNat ∨
      ∀ bn < NDIRECT, Touches BSIZE off.toNat (clip off.toNat n.toNat) bn →
        xorSum (summed n.toNat)
          (page BSIZE bn (patch fs.contents off.toNat (clip off.toNat n.toNat) src)) =
        checksum (fs.ip.addrs bn)
  | .call (.read ..) => True
  | .evict => True

/-! ### The copy on the disk -/

/-- The copy on the disk lists the same blocks, with the checksums `tagd`. -/
structure OnDisk (fs : Fs) (A : Blocks) (tag tagd : ℕ → UInt8) : Prop where
  type : fs.dip.type = .checked
  nlink : fs.dip.nlink = 1
  size : fs.dip.size = fs.ip.size
  direct : ∀ bn < NDIRECT, fs.dip.addrs bn = A.slot tagd bn
  pointer : fs.dip.addrs NDIRECT = A.ind.getD 0
  indirect : ∀ bn, NDIRECT ≤ bn → tagd bn = tag bn
  behind : ∀ bn, A.data.length ≤ bn → tagd bn = 0

/-- The state between two steps -/
def Saved (fs : Fs) (tag tagd : ℕ → UInt8) : Prop :=
  ∃ A F, Stored .checked fs A F tag ∧ OnDisk fs A tag tagd

theorem Stored.onDisk (h : Stored .checked fs A F tag) (hd : fs.dip = fs.ip.toDinode) :
    OnDisk fs A tag tag where
  type := hd ▸ h.type
  nlink := hd ▸ h.nlink
  size := congrArg Dinode.size hd
  direct := hd ▸ h.direct
  pointer := hd ▸ h.pointer
  indirect _ _ := rfl
  behind := h.tag_behind

/-- The inode as it is read from the disk -/
theorem reload_eq (h : Stored .checked fs A F tag) (hd : OnDisk fs A tag tagd) :
    fs.reload = .ok { fs with ip := { fs.ip with
      toDinode := fs.dip, ref := 1, busy := true, valid := true } } := by
  have hunlock : fs.iunlock = .ok { fs with ip := { fs.ip with busy := false } } := by
    refine if_neg (not_or.2 ⟨?_, ?_⟩)
    · rw [h.busy]
      decide
    · rw [h.ref]
      decide
  have hput : iput { fs with ip := { fs.ip with busy := false } } =
      .ok { fs with ip := { fs.ip with busy := false, ref := 0 } } := by
    have hlink : ¬ fs.ip.nlink = 0 := by
      rw [h.nlink]
      decide
    rw [iput, if_neg fun hc => hlink hc.2.2, h.ref]
  have htype : fs.dip.type ≠ .free := by
    rw [hd.type]
    decide
  unfold reload
  rw [hunlock]
  simp only [bind, Except.bind, hput]
  exact if_neg htype

theorem Stored.reload (h : Stored .checked fs A F tag) (hd : OnDisk fs A tag tagd) :
    ∃ fs', fs.reload = .ok fs' ∧ Stored .checked fs' A F tagd ∧ OnDisk fs' A tagd tagd := by
  refine ⟨_, reload_eq h hd, ?_, ?_⟩
  · refine { h with
      direct := hd.direct, pointer := hd.pointer, indirect := fun p hp j hj => ?_
      tag_behind := hd.behind, plain := fun ht => absurd hd.type ht, type := hd.type
      length := hd.size.trans h.length, nlink := hd.nlink, ref := rfl, busy := rfl, valid := rfl }
    have hslot : A.slot tagd (NDIRECT + j) = A.slot tag (NDIRECT + j) := by
      simp only [Blocks.slot, hd.indirect (NDIRECT + j) (Nat.le_add_right _ _)]
    rw [hslot]
    exact h.indirect p hp j hj
  · exact { hd with size := rfl, indirect := fun _ _ => rfl }

/-- When `readi` returns -1 -/
theorem Stored.fails_iff (h : Stored .checked fs A F tag) (off n : UInt32) :
    Fails fs off n ↔ ¬ (InRange F.length off.toNat n.toNat ∧
      Intact .checked tag F (summed n.toNat) off.toNat (rest F.length off.toNat n.toNat)) := by
  have hoff : off.toNat < 2 ^ 32 := off.toNat_lt
  have hn : n.toNat < 2 ^ 32 := n.toNat_lt
  by_cases hr : InRange F.length off.toNat n.toNat
  swap
  · exact iff_of_true ⟨fun _ => 0, _, _, h.readi_refused _ hoff hn hr⟩ fun hc => hr hc.1
  by_cases hi : Intact .checked tag F (summed n.toNat) off.toNat (rest F.length off.toNat n.toNat)
  · refine iff_of_false ?_ (not_not.2 ⟨hr, hi⟩)
    rintro ⟨dst, dst', fs', hx⟩
    obtain ⟨-, hx'⟩ | ⟨hi', -⟩ := h.toHolds.readi dst hoff hn hr
    · rw [hx'] at hx
      have hcount := (Prod.ext_iff.1 (Except.ok.inj hx)).1
      simp only at hcount
      omega
    · rw [h.type] at hi'
      exact hi' hi
  · refine iff_of_true ?_ fun hc => hi hc.2
    obtain ⟨hi', -⟩ | ⟨-, hx⟩ := h.toHolds.readi (fun _ => 0) hoff hn hr
    · rw [h.type] at hi'
      exact absurd hi' hi
    · exact ⟨_, _, _, hx⟩

/-- **A state is durable** if and only if the checksums on the disk are those in the cache. -/
theorem Stored.durable_iff_tags (h : Stored .checked fs A F tag) (hd : OnDisk fs A tag tagd) :
    Durable fs ↔ ∀ bn < NDIRECT, tagd bn = tag bn := by
  constructor
  · intro hdur bn hbn
    by_cases hlt : bn < A.data.length
    · have hsum := hdur.direct bn hbn (h.lt_length_iff.1 hlt)
      rw [hd.direct bn hbn, h.direct bn hbn, h.checksum_slot hd.behind,
        h.checksum_slot h.tag_behind] at hsum
      exact hsum
    · rw [hd.behind bn (not_lt.1 hlt), h.tag_behind bn (not_lt.1 hlt)]
  · intro htag
    have heq : tagd = tag := by
      funext bn
      rcases Nat.lt_or_ge bn NDIRECT with hbn | hbn
      · exact htag bn hbn
      · exact hd.indirect bn hbn
    subst heq
    obtain ⟨fs', hx, h', -⟩ := h.reload hd
    exact {
      direct := fun bn hbn _ => by rw [hd.direct bn hbn, h.direct bn hbn]
      indirect := fun _ => by rw [hd.pointer, h.pointer]
      reload := ⟨fs', hx, fun off n => by rw [h'.fails_iff, h.fails_iff]⟩ }

/-! ### Steps -/

/-- A write that does not grow the file changes the indirect block on the disk, and no more. -/
theorem Stored.onDisk_overwrite {A' : Blocks} {F' : File} {tag' : ℕ → UInt8}
    (h : Stored .checked fs A F tag) (hd : OnDisk fs A tag tagd)
    (h' : Stored .checked fs' A' F' tag') (hA : A' = A) (hF : F'.length = F.length)
    (hdip : fs'.dip = fs.dip) :
    OnDisk fs' A' tag' fun bn => if bn < NDIRECT then tagd bn else tag' bn where
  type := hdip ▸ hd.type
  nlink := hdip ▸ hd.nlink
  size := by rw [hdip, hd.size, h.length, ← hF, h'.length]
  direct bn hbn := by
    rw [hdip, hA, hd.direct bn hbn]
    simp only [Blocks.slot, if_pos hbn]
  pointer := by rw [hdip, hA, hd.pointer]
  indirect bn hbn := if_neg (not_lt.2 hbn)
  behind bn hbn := by
    split_ifs
    · exact hd.behind bn (hA ▸ hbn)
    · exact h'.tag_behind bn hbn

/-- **What a write does to both copies**, and when a durable state stays durable. -/
theorem Stored.of_write_saved {src : Bytes} {off n : UInt32} (h : Stored .checked fs A F tag)
    (hd : OnDisk fs A tag tagd) (hr : InRange F.length off.toNat n.toNat)
    (hc : calls.next fs (.write src off n) = some fs') :
    (∃ tag' tagd', Saved fs' tag' tagd') ∧
    ((∀ bn < NDIRECT, tagd bn = tag bn) → (Durable fs' ↔ Keeps fs (.call (.write src off n)))) := by
  obtain ⟨A', hA, h', hw⟩ := h.of_write hr hc
  have hkeeps : Keeps fs (.call (.write src off n)) ↔
      F.length < off.toNat + clip off.toNat n.toNat ∨
      ∀ bn < NDIRECT, Touches BSIZE off.toNat (clip off.toNat n.toNat) bn →
        xorSum (summed n.toNat) (page BSIZE bn
          (F.write src off.toNat (clip off.toNat n.toNat)).bytes) = tag bn := by
    simp only [Keeps, h.length, hr, forall_true_left, h.contents_eq]
    refine or_congr_right (forall₂_congr fun bn hbn => imp_congr_right fun _ => ?_)
    rw [h.direct bn hbn, h.checksum_slot h.tag_behind]
    rfl
  -- only a write that makes the file longer stores the inode
  by_cases hgrow : F.length < off.toNat + clip off.toNat n.toNat
  · have hdip := hw.dip
    rw [if_pos hgrow] at hdip
    have hd' := h'.onDisk hdip
    exact ⟨⟨_, _, A', _, h', hd'⟩, fun _ => iff_of_true ((h'.durable_iff_tags hd').2 fun _ _ => rfl)
      (hkeeps.2 (Or.inl hgrow))⟩
  · have hdip := hw.dip
    rw [if_neg hgrow] at hdip
    have hle : blocksFor (off.toNat + clip off.toNat n.toNat) ≤ A.data.length := by
      rw [h.tight.data]
      exact Nat.div_le_div_right (by omega)
    rw [Blocks.reach_of_le hle] at hA
    have hd' := h.onDisk_overwrite hd h' (Except.ok.inj hA).symm (max_eq_left (not_lt.1 hgrow)) hdip
    refine ⟨⟨_, _, A', _, h', hd'⟩, fun htag => ?_⟩
    rw [h'.durable_iff_tags hd', hkeeps, or_iff_right hgrow]
    refine forall₂_congr fun bn hbn => ?_
    simp only [if_pos hbn, htag bn hbn, checksums, true_and]
    split_ifs with ht
    · simp only [ht, forall_true_left]
      exact eq_comm
    · exact iff_of_true rfl fun hc => absurd hc ht

/-- **What a step does**, and when a durable state stays durable. -/
theorem Saved.of_next {e : Step} (h : Saved fs tag tagd) (hx : cached.next fs e = some fs') :
    (∃ tag' tagd', Saved fs' tag' tagd') ∧ (Durable fs → (Durable fs' ↔ Keeps fs e)) := by
  obtain ⟨A, F, hs, hd⟩ := h
  have hstay : fs' = fs → (∃ tag' tagd', Saved fs' tag' tagd') ∧ (Durable fs → (Durable fs' ↔ True)) := by
    rintro rfl
    exact ⟨⟨tag, tagd, A, F, hs, hd⟩, fun hdur => iff_of_true hdur trivial⟩
  cases e with
  | evict =>
    obtain ⟨fs₁, hre, hs₁, hd₁⟩ := hs.reload hd
    simp only [cached, hre] at hx
    cases hx
    exact ⟨⟨_, _, A, F, hs₁, hd₁⟩, fun _ => iff_of_true ((hs₁.durable_iff_tags hd₁).2 fun _ _ => rfl) trivial⟩
  | call c =>
    have hx : calls.next fs c = some fs' := hx
    cases c with
    | read dst off n => exact hstay (hs.of_read hx)
    | write src off n =>
      by_cases hr : InRange F.length off.toNat n.toNat
      · obtain ⟨hsaved, hiff⟩ := hs.of_write_saved hd hr hx
        exact ⟨hsaved, fun hdur => hiff ((hs.durable_iff_tags hd).1 hdur)⟩
      · have hkeeps : Keeps fs (.call (.write src off n)) ↔ True :=
          iff_true_intro fun hc => absurd (hs.length ▸ hc) hr
        rw [hkeeps]
        exact hstay (hs.of_refused hr hx)

/-- **All states of a run are durable** if and only if each write grows the file or leaves the
checksums of the direct blocks that it touches as they are. -/
theorem durable_iff (es : List Step) (h : cached.run (D.create .checked) es = some fs) :
    cached.Always Durable (D.create .checked) es ↔ cached.Allowed Keeps (D.create .checked) es := by
  have hs := D.stored .checked
  have hd := hs.onDisk rfl
  refine Machine.always_iff_allowed (I := fun fs => ∃ tag tagd, Saved fs tag tagd) ?_ ?_ h
    ⟨_, _, _, _, hs, hd⟩ ((hs.durable_iff_tags hd).2 fun _ _ => rfl)
  · rintro fs e fs' ⟨tag, tagd, hsaved⟩ hx
    exact (hsaved.of_next hx).1
  · rintro fs e fs' ⟨tag, tagd, hsaved⟩ hdur hx
    exact (hsaved.of_next hx).2 hdur

theorem durable_append : ∃ fs, cached.run (mkfs.create .checked) [.call (.write (fun _ => 1) 0 1)] =
    some fs ∧ Durable fs := by
  have hrun : (cached.run (mkfs.create .checked) [.call (.write (fun _ => 1) 0 1)]).isSome := by
    decide +kernel
  obtain ⟨fs, hfs⟩ := Option.isSome_iff_exists.1 hrun
  refine ⟨fs, hfs, ((durable_iff _ hfs).2 ⟨fun _ => Or.inl ?_, fun _ _ => trivial⟩).of_run hfs⟩
  decide

/-- A byte is written, and then another one in its place. -/
theorem not_durable : ¬ ∀ (D : Image) (es : List Step) (fs : Fs),
    cached.run (D.create .checked) es = some fs → Durable fs := by
  intro h
  have hrun : (cached.run (mkfs.create .checked)
      [.call (.write (fun _ => 1) 0 1), .call (.write (fun _ => 2) 0 1)]).map (fun fs : Fs =>
      (fs.ip.size, checksum (fs.dip.addrs 0), checksum (fs.ip.addrs 0))) = some (1, 1, 2) := by
    decide +kernel
  obtain ⟨fs, hfs, heq⟩ := Option.map_eq_some_iff.1 hrun
  simp only [Prod.mk.injEq] at heq
  obtain ⟨hsize, hdisk, hcache⟩ := heq
  have hsame := (h mkfs _ fs hfs).direct 0 (by decide) (by rw [hsize]; decide)
  rw [hdisk, hcache] at hsame
  exact absurd hsame (by decide)

end Fs

end OperatingSystems

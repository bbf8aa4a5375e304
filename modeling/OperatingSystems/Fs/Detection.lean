import OperatingSystems.Fs.Calls

/-!
# Corruption of checked files

A checked inode that is written in whole blocks only, by calls of at least `BSIZE` bytes, and whose
data blocks others alter: then each checksum is that of the whole block as the last write left it.

* `Event` : a write, or an alteration of a block.
* `lastSums` : the exclusive or of each block after the last write that touched it.
* `Stored.of_event` : what one event does.
* `detected` : **`readi` fails exactly on the blocks that differ**, and delivers what is there
  otherwise.
-/

namespace OperatingSystems

namespace Fs

open Bytes

variable {fs fs' : Fs} {A : Blocks} {F : File} {last : ℕ → UInt8} {D : Image}

/-- A call of `writei` for at least a block, or an alteration of the block `bn` of the file -/
inductive Event
  | write (src : Bytes) (off n : UInt32) (le : BSIZE ≤ n.toNat)
  | alter (bn : ℕ) (data : Bytes)

/-- Others write to the data block `bn`. -/
def alter (fs : Fs) (bn : ℕ) (data : Bytes) : Option Fs :=
  if BSIZE * bn < fs.ip.size then
    match fs.bmap bn with
    | .ok (b, _) => some (fs.bwrite b data)
    | .error _ => none
  else none

def altered : Machine Fs Event where
  next fs
    | .write src off n _ => calls.next fs (.write src off n)
    | .alter bn data => fs.alter bn data

/-- A ghost: the exclusive or of each block, as the last write that touched it left it -/
def lastSums (fs : Fs) : Event → (ℕ → UInt8) → ℕ → UInt8
  | .write src off n _, last => fun bn =>
    match calls.next fs (.write src off n) with
    | some fs' =>
      if (Call.write src off n).writesTo fs.ip.size bn then xorSum BSIZE (fs'.fileBlock bn) else last bn
    | none => last bn
  | .alter .., last => last

theorem summed_of_le {n : ℕ} (h : BSIZE ≤ n) : summed n = BSIZE := by
  unfold summed
  split_ifs <;> omega

theorem Stored.alter {bn : ℕ} {data : Bytes} (h : Stored .checked fs A F last)
    (hx : fs.alter bn data = some fs') :
    Stored .checked fs' A (F.store data (BSIZE * bn) BSIZE) last := by
  unfold Fs.alter at hx
  split_ifs at hx with hlt
  have hbn := h.lt_length_iff.2 hlt
  have hb := List.getElem?_eq_getElem hbn
  rw [h.bmap hb] at hx
  cases hx
  have hdiv : BSIZE * bn / BSIZE = bn := Nat.mul_div_cancel_left bn (by decide)
  have htouch : ∀ i, Touches BSIZE (BSIZE * bn) BSIZE i ↔ i = bn := fun i => by
    rw [touches_within (by decide) (by rw [Nat.mul_mod_right]; omega), hdiv]
  refine ⟨h.toHolds.bwrite hb ?_ (fun i hi => page_patch_of_not_touches ((htouch i).not.2 hi))
    (fun a ha => ?_) rfl, h.tight, h.type, h.nlink, h.ref, h.busy, h.valid⟩
  · intro i hi
    exact (patch_add hi).symm
  · have hmul : BSIZE * (bn + 1) ≤ BSIZE * A.data.length := Nat.mul_le_mul_left _ hbn
    rw [Nat.mul_add, Nat.mul_one] at hmul
    exact (patch_of_le (by omega)).trans (h.behind a ha)

/-- **One event** leaves each checksum as that of the whole block after the last write to it. -/
theorem Stored.of_event {e : Event} (h : Stored .checked fs A F last)
    (hx : altered.next fs e = some fs') :
    ∃ A' F', Stored .checked fs' A' F' (lastSums fs e last) := by
  cases e with
  | alter bn data => exact ⟨A, _, h.alter hx⟩
  | write src off n hle =>
    have hx : calls.next fs (.write src off n) = some fs' := hx
    obtain ⟨A', h'⟩ := h.of_next hx
    have hlast : lastSums fs (.write src off n hle) last =
        checksumsAfter .checked F (.write src off n) last := by
      funext bn
      have hsum : (Call.write src off n).summed = BSIZE := summed_of_le hle
      simp only [lastSums, hx, checksumsAfter, h.length, true_and, hsum]
      split_ifs
      · exact xorSum_congr (h'.fileBlock bn)
      · rfl
    rw [hlast]
    exact ⟨A', _, h'⟩

theorem stored_of_events {es : List Event}
    (h : (altered.track lastSums).run (D.create .checked, fun _ => 0) es = some (fs, last)) :
    ∃ A F, Stored .checked fs A F last := by
  refine Machine.run_invariant (I := fun x => ∃ A F, Stored .checked x.1 A F x.2) h
    ⟨_, _, D.stored .checked⟩ ?_
  rintro ⟨fs, last⟩ e ⟨fs', last'⟩ ⟨A, F, hs⟩ he
  obtain ⟨he, rfl⟩ := Machine.track_next_eq_some.1 he
  exact hs.of_event he

theorem rest_eq_min {length off n : ℕ} (h : off ≤ length) : rest length off n = min n (length - off) := by
  unfold rest
  split_ifs <;> omega

/-- **Corruption is detected**: in every state that such events lead to, a call of `readi` for at
least a block returns -1 if and only if some block that it reads has another exclusive or than after
the last write that touched it; otherwise it delivers the bytes that are there. -/
theorem detected (es : List Event)
    (h : (altered.track lastSums).run (D.create .checked, fun _ => 0) es = some (fs, last))
    (dst : Bytes) {off n : ℕ} (hn : BSIZE ≤ n) (hoff : off ≤ fs.ip.size) (hwrap : off + n < 2 ^ 32) :
    ((∃ dst' fs', fs.readi dst off n = .ok (-1, dst', fs')) ↔
      ∃ bn, Touches BSIZE off (min n (fs.ip.size - off)) bn ∧
        xorSum BSIZE (fs.fileBlock bn) ≠ last bn) ∧
    ((∀ bn, Touches BSIZE off (min n (fs.ip.size - off)) bn →
        xorSum BSIZE (fs.fileBlock bn) = last bn) →
      ∃ dst', fs.readi dst off n = .ok ((min n (fs.ip.size - off) : ℕ), dst', fs) ∧
        ∀ i < min n (fs.ip.size - off), dst' i = fs.contents (off + i)) := by
  obtain ⟨A, F, hs⟩ := stored_of_events h
  have hlen := hs.length
  rw [hlen] at hoff ⊢
  have hread := hs.toHolds.readi dst (by omega) (by omega) (⟨hoff, hwrap⟩ : InRange F.length off n)
  -- from a block on, whole blocks are summed up, as they are when they are written
  have hintact : Intact fs.ip.type last F (summed n) off (min n (F.length - off)) ↔
      ∀ bn, Touches BSIZE off (min n (F.length - off)) bn → xorSum BSIZE (fs.fileBlock bn) = last bn := by
    simp only [Intact, hs.type, forall_true_left, summed_of_le hn]
    refine forall₂_congr fun bn _ => ?_
    rw [xorSum_congr (hs.fileBlock bn)]
    exact eq_comm
  rw [rest_eq_min hoff] at hread
  have hnone : (∃ bn, Touches BSIZE off (min n (F.length - off)) bn ∧
      xorSum BSIZE (fs.fileBlock bn) ≠ last bn) ↔
      ¬ Intact fs.ip.type last F (summed n) off (min n (F.length - off)) := by
    rw [hintact]
    simp only [not_forall, exists_prop, ne_eq]
  rw [hnone, ← hintact]
  obtain ⟨hi, hx⟩ | ⟨hi, hx⟩ := hread
  · refine ⟨iff_of_false ?_ (not_not.2 hi), fun _ => ⟨_, hx, fun i hlt => ?_⟩⟩
    · rintro ⟨dst', fs', hx'⟩
      rw [hx] at hx'
      have hcount := (Prod.ext_iff.1 (Except.ok.inj hx')).1
      simp only at hcount
      omega
    · rw [hs.contents_eq]
      have hpatch : patch dst 0 _ (slice F.bytes off) (0 + i) = slice F.bytes off i := patch_add hlt
      rw [Nat.zero_add] at hpatch
      exact hpatch
  · exact ⟨iff_of_true ⟨dst, fs, hx⟩ hi, fun hc => absurd hc hi⟩

/-- A block is written, and then one byte of it is altered. -/
def writtenThenAltered : List Event :=
  [.write (fun _ => 0) 0 512 (by decide), .alter 0 fun i => if i = 7 then 1 else 0]

theorem detected_altered : ∃ x, (altered.track lastSums).run (mkfs.create .checked, fun _ => 0)
    writtenThenAltered = some x ∧ ∃ dst' fs', x.1.readi (fun _ => 0) 0 512 = .ok (-1, dst', fs') := by
  have hrun : ((altered.track lastSums).run (mkfs.create .checked, fun _ => 0) writtenThenAltered).map
      (fun x : Fs × (ℕ → UInt8) => (x.1.ip.size, xorSum BSIZE (x.1.fileBlock 0), x.2 0)) =
      some (512, 1, 0) := by
    decide +kernel
  obtain ⟨⟨fs, last⟩, hx, heq⟩ := Option.map_eq_some_iff.1 hrun
  simp only [Prod.mk.injEq] at heq
  obtain ⟨hsize, hsum, hlast⟩ := heq
  refine ⟨(fs, last), hx, (detected _ hx _ (by decide) (by omega) (by decide)).1.2 ⟨0, ?_, ?_⟩⟩
  · rw [hsize]
    decide
  · rw [hsum, hlast]
    decide

end Fs

end OperatingSystems

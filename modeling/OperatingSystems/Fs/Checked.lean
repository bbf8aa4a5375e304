import OperatingSystems.Fs.Calls

/-!
# A checked file and a plain one

The same calls on a checked inode and on a plain one.  `readi` compares the checksum that the last
write to a block left with that of the bytes which it sums itself, and both of them sum the first
`min(n, BSIZE)` bytes of a block, each for its own `n`.

* `replies` : what a sequence of calls returns.
* `Agrees` : the condition on a call, in the run on the plain inode.
* `Twins.perform` : what one call does to both inodes.
* `replies_eq_iff` : **the exact condition** under which a checked inode is like a plain one.
-/

namespace OperatingSystems

namespace Fs

open Bytes

/-- The replies to a sequence of calls; the kernel stops at an error. -/
def replies (fs : Fs) : List Call → List (Except Stop Reply)
  | [] => []
  | c :: cs =>
    match fs.perform c with
    | .ok (r, fs) => .ok r :: replies fs cs
    | .error e => [.error e]

/-- In each block that a call of `readi` reads, the bytes that it sums have the same exclusive or as
those that the last write to the block summed. -/
def Agrees (x : Fs × (ℕ → ℕ)) : Call → Prop
  | .read _ off n => InRange x.1.ip.size off.toNat n.toNat →
      ∀ bn, Touches BSIZE off.toNat (rest x.1.ip.size off.toNat n.toNat) bn →
        xorSum (x.2 bn) (x.1.fileBlock bn) = xorSum (summed n.toNat) (x.1.fileBlock bn)
  | .write .. => True

/-- A checked inode and a plain one with the same contents. -/
def Twins (fs fs' : Fs) (pre : ℕ → ℕ) : Prop :=
  ∃ A F tag, Stored .checked fs A F tag ∧ Stored .file fs' A F (fun _ => 0) ∧ fs.size = fs'.size ∧
    Sums F tag pre

variable {fs fs' : Fs} {A : Blocks} {F : File} {tag : ℕ → UInt8} {pre : ℕ → ℕ} {c : Call}

/-- What one call does to both -/
def Alike (fs fs' : Fs) (pre : ℕ → ℕ) (c : Call) : Prop :=
  (∃ e, fs.perform c = .error e ∧ fs'.perform c = .error e ∧ Agrees (fs', pre) c) ∨
  ∃ r r' gs gs', fs.perform c = .ok (r, gs) ∧ fs'.perform c = .ok (r', gs') ∧
    Twins gs gs' (fs'.prefixes c pre) ∧ (r = r' ↔ Agrees (fs', pre) c)

/-- The checksums that `readi` compares -/
theorem intact_iff {off n : UInt32} (h : Stored .file fs' A F fun _ => 0) (hsums : Sums F tag pre)
    (dst : Bytes) (hr : InRange F.length off.toNat n.toNat) :
    Intact .checked tag F (summed n.toNat) off.toNat (rest F.length off.toNat n.toNat) ↔
      Agrees (fs', pre) (.read dst off n) := by
  have hblock : ∀ bn k, k ≤ BSIZE → xorSum k (page BSIZE bn F.bytes) = xorSum k (fs'.fileBlock bn) :=
    fun bn k hk => xorSum_congr fun i hi => h.page_contents bn i (hi.trans_le hk)
  simp only [Intact, Agrees, h.length, hr, forall_true_left, hsums.tag,
    hblock _ _ (hsums.le _), hblock _ _ (summed_le _)]

theorem Twins.read (dst : Bytes) (off n : UInt32) (h : Twins fs fs' pre) :
    Alike fs fs' pre (.read dst off n) := by
  obtain ⟨A, F, tag, hs, hs', hsize, hsums⟩ := h
  have hoff : off.toNat < 2 ^ 32 := off.toNat_lt
  have hn : n.toNat < 2 ^ 32 := n.toNat_lt
  have hpre : fs'.prefixes (.read dst off n) pre = pre := funext fun _ => if_neg id
  have htwins : Twins fs fs' (fs'.prefixes (.read dst off n) pre) :=
    hpre.symm ▸ ⟨A, F, tag, hs, hs', hsize, hsums⟩
  by_cases hr : InRange F.length off.toNat n.toNat
  swap
  · refine Or.inr ⟨delivered (-1) dst, delivered (-1) dst, fs, fs', ?_, ?_, htwins,
      iff_of_true rfl fun hc => absurd hc ?_⟩
    · simp only [perform, hs.readi_refused dst hoff hn hr, Except.map]
    · simp only [perform, hs'.readi_refused dst hoff hn hr, Except.map]
    · rw [hs'.length]
      exact hr
  have hiff := intact_iff hs' hsums dst hr
  have hplain : fs'.perform (.read dst off n) = .ok (delivered (rest F.length off.toNat n.toNat)
      (patch dst 0 (rest F.length off.toNat n.toNat) (slice F.bytes off.toNat)), fs') := by
    obtain ⟨-, hx⟩ | ⟨hi, -⟩ := hs'.toHolds.readi dst hoff hn hr
    · simp only [perform, hx, Except.map]
    · rw [hs'.type] at hi
      exact absurd (fun ht => by cases ht) hi
  obtain ⟨hi, hx⟩ | ⟨hi, hx⟩ := hs.toHolds.readi dst hoff hn hr
  · rw [hs.type] at hi
    refine Or.inr ⟨_, _, fs, fs', ?_, hplain, htwins, iff_of_true rfl (hiff.1 hi)⟩
    simp only [perform, hx, Except.map]
  · rw [hs.type] at hi
    refine Or.inr ⟨delivered (-1) dst, _, fs, fs', ?_, hplain, htwins,
      iff_of_false (fun heq => ?_) (hiff.not.1 hi)⟩
    · simp only [perform, hx, Except.map]
    · have hfst := congrArg Prod.fst heq
      simp only [delivered] at hfst
      omega

theorem Twins.write (src : Bytes) (off n : UInt32) (h : Twins fs fs' pre) :
    Alike fs fs' pre (.write src off n) := by
  obtain ⟨A, F, tag, hs, hs', hsize, hsums⟩ := h
  have hsums' := hsums.after hs'.length (.write src off n)
  by_cases hr : InRange F.length off.toNat n.toNat
  · obtain ⟨hF, htag⟩ := after_of_inRange .checked tag src hr
    have htag' := (after_of_inRange .file (fun _ => 0) src hr).2
    have hw := hs.writei src off n hr
    have hw' := hs'.writei src off n hr
    rw [← hsize] at hw'
    -- both need the same blocks, and so stop at the same one or get them all
    cases hA : A.reach fs.size (blocksFor (off.toNat + clip off.toNat n.toNat)) with
    | error e =>
      rw [hA] at hw hw'
      refine Or.inl ⟨e, ?_, ?_, trivial⟩
      · simp only [perform, show fs.writei _ _ _ = _ from hw, Except.map]
      · simp only [perform, show fs'.writei _ _ _ = _ from hw', Except.map]
    | ok A' =>
      rw [hA] at hw hw'
      obtain ⟨gs, hx, hgs, hwr⟩ := hw
      obtain ⟨gs', hx', hgs', hwr'⟩ := hw'
      refine Or.inr ⟨(clip off.toNat n.toNat, []), (clip off.toNat n.toNat, []), gs, gs', ?_, ?_,
        ⟨A', _, _, ?_, ?_, ?_, hsums'⟩, iff_of_true rfl trivial⟩
      · simp only [perform, hx, Except.map]
      · simp only [perform, hx', Except.map]
      · rw [hF, htag]
        exact hgs
      · have hzero : checksumsAfter .file F (.write src off n) (fun _ => 0) = fun _ => 0 :=
          funext fun _ => if_neg fun hc => by cases hc.1
        rw [hF, ← hzero, htag']
        exact hgs'
      · rw [hwr.size, hwr'.size, hsize]
  · obtain ⟨hF, htag⟩ := after_of_not_inRange .checked tag src hr
    have hoff : off.toNat < 2 ^ 32 := off.toNat_lt
    have hn : n.toNat < 2 ^ 32 := n.toNat_lt
    rw [hF, htag] at hsums'
    refine Or.inr ⟨(-1, []), (-1, []), fs, fs', ?_, ?_, ⟨A, F, tag, hs, hs', hsize, hsums'⟩,
      iff_of_true rfl trivial⟩
    · simp only [perform, hs.writei_refused src hoff hn hr, Except.map]
    · simp only [perform, hs'.writei_refused src hoff hn hr, Except.map]

/-- **One call on both** returns the same if and only if the checksums agree. -/
theorem Twins.perform (h : Twins fs fs' pre) (c : Call) : Alike fs fs' pre c := by
  cases c with
  | read dst off n => exact h.read dst off n
  | write src off n => exact h.write src off n

theorem Twins.replies_iff (h : Twins fs fs' pre) (cs : List Call) :
    replies fs cs = replies fs' cs ↔ (calls.track prefixes).Allowed Agrees (fs', pre) cs := by
  induction cs generalizing fs fs' pre with
  | nil => exact iff_of_true rfl trivial
  | cons c cs ih =>
    simp only [replies, Machine.Allowed, Prod.forall, Machine.track_next_eq_some]
    obtain ⟨e, hx, hx', hagrees⟩ | ⟨r, r', gs, gs', hx, hx', htwins, hiff⟩ := h.perform c
    · simp only [hx, hx', hagrees, calls, true_and, true_iff]
      rintro gs' pre' ⟨hnone, -⟩
      cases hnone
    · simp only [hx, hx', calls, List.cons.injEq, Except.ok.injEq, hiff, Option.some.injEq,
        ih htwins]
      refine and_congr_right fun _ => ⟨?_, fun hall => hall gs' _ ⟨rfl, rfl⟩⟩
      rintro hall _ _ ⟨rfl, rfl⟩
      exact hall

/-- **A checked inode is like a plain one** if and only if, in each block that a call of `readi`
reads, the first `min(n, BSIZE)` bytes have the same exclusive or as the bytes that the last write to
the block summed. -/
theorem replies_eq_iff (D : Image) (cs : List Call) :
    replies (D.create .checked) cs = replies (D.create .file) cs ↔
      (calls.track prefixes).Allowed Agrees (D.create .file, fun _ => 0) cs :=
  Twins.replies_iff ⟨_, _, _, D.stored .checked, D.stored .file, rfl, sums_zero⟩ cs

/-- A write of two bytes and a read of the first one. -/
theorem replies_ne :
    ¬ ∀ (D : Image) (cs : List Call), replies (D.create .checked) cs = replies (D.create .file) cs := by
  intro h
  have hrun := h mkfs [.write (fun i => UInt8.ofNat (i + 1)) 0 2, .read (fun _ => 0) 0 1]
  have hcounts := congrArg (List.map fun x => x.toOption.map Prod.fst) hrun
  revert hcounts
  decide +kernel

end Fs

end OperatingSystems

import OperatingSystems.Fs.Transfer
import OperatingSystems.Machine.Basic

/-!
# Sequences of calls

A new inode on a formatted disk, and the calls of `writei` on it.

* `Image`, `Image.create` : a formatted disk, and a new inode on it.
* `fileBlock`, `contents` : what the data blocks of the inode hold.
* `Stored t fs A F tag` : the state between two calls.
* `Stored.writei` : **what one call of `writei` does to it**.
* `calls` : the machine of the calls of `readi` and `writei`.
* `Stored.of_next` : **what one call does**.
* `stored_of_run` : all runs of calls lead to such states.
* `prefixes`, `sums_of_run` : how many bytes of each block the last write to it summed.
-/

namespace OperatingSystems

namespace Fs

open Bytes

/-! ### Disks -/

/-- A formatted disk, as `mkfs` and `bfree` leave it: the unused blocks are zero, and block 0 is used
by no file. -/
structure Image where
  size : ℕ
  used : ℕ → Bool
  block : ℕ → Bytes
  dev : ℕ
  inum : ℕ
  size_pos : 0 < size
  size_le : size ≤ 2 ^ 24
  boot_used : used 0 = true
  boot_zero : EqTo BSIZE (block 0) fun _ => 0
  free_zero : ∀ b < size, used b = false → EqTo BSIZE (block b) fun _ => 0

/-- The disk that `mkfs` makes, without files -/
def mkfs : Image where
  size := 1024
  used b := b < 29
  block _ _ := 0
  dev := 1
  inum := 2
  size_pos := by decide
  size_le := by decide
  boot_used := rfl
  boot_zero _ _ := rfl
  free_zero _ _ _ _ _ := rfl

/-- The state in which `create` leaves a new inode: locked, without contents and with one link -/
def Image.create (D : Image) (t : Kind) : Fs where
  size := D.size
  used := D.used
  block := D.block
  dip := ⟨t, 1, 0, fun _ => 0⟩
  ip := { type := t, nlink := 1, size := 0, addrs := fun _ => 0, dev := D.dev, inum := D.inum,
          ref := 1, busy := true, valid := true }

/-- The contents of the data block `bn`, which `bmap` finds -/
def fileBlock (fs : Fs) (bn : ℕ) : Bytes :=
  if BSIZE * bn < fs.ip.size then
    match fs.bmap bn with
    | .ok (b, _) => fs.block b
    | .error _ => fun _ => 0
  else fun _ => 0

/-- The contents of the data blocks one after the other -/
def contents (fs : Fs) : Bytes := fun a => fs.fileBlock (a / BSIZE) (a % BSIZE)

variable {fs fs' : Fs} {A A' : Blocks} {F : File} {tag : ℕ → UInt8} {src : Bytes} {t : Kind}
  {b bn off n size k : ℕ} {D : Image}

/-! ### States between calls -/

/-- No block is more than the file needs. -/
structure Blocks.Tight (A : Blocks) (length : ℕ) : Prop where
  data : A.data.length = blocksFor length
  ind : A.ind ≠ none → NDIRECT < A.data.length

/-- **The state between two calls**: a locked inode of the type `t`. -/
structure Stored (t : Kind) (fs : Fs) (A : Blocks) (F : File) (tag : ℕ → UInt8) : Prop
    extends Holds fs A F tag where
  tight : A.Tight F.length
  type : fs.ip.type = t
  nlink : fs.ip.nlink = 1
  ref : fs.ip.ref = 1
  busy : fs.ip.busy = true
  valid : fs.ip.valid = true

theorem Image.stored (D : Image) (t : Kind) :
    Stored t (D.create t) ⟨D.used, [], none⟩ ⟨fun _ => 0, 0⟩ fun _ => 0 where
  size_le := D.size_le
  used := rfl
  length_le := Nat.zero_le _
  direct _ _ := rfl
  pointer := rfl
  indirect _ hp := by cases hp
  ind h := absurd h (Nat.not_lt_zero _)
  owned _ hb := absurd hb List.not_mem_nil
  nodup := List.nodup_nil
  free := D.free_zero
  boot := ⟨D.size_pos, D.boot_used, D.boot_zero⟩
  contents _ _ hb := by cases hb
  behind _ _ := rfl
  tag_behind _ _ := rfl
  plain _ _ := rfl
  length := rfl
  length_le_blocks := Nat.zero_le _
  tight := ⟨rfl, fun h => absurd rfl h⟩
  type := rfl
  nlink := rfl
  ref := rfl
  busy := rfl
  valid := rfl

/-- The blocks of the file are those with bytes below its length. -/
theorem Stored.lt_length_iff (h : Stored t fs A F tag) :
    bn < A.data.length ↔ BSIZE * bn < fs.ip.size := by
  rw [h.length, h.tight.data]
  simp only [blocksFor, BSIZE]
  omega

/-- **The contents of a data block** are those of the file. -/
theorem Stored.fileBlock (h : Stored t fs A F tag) (bn : ℕ) :
    EqTo BSIZE (fs.fileBlock bn) (page BSIZE bn F.bytes) := by
  unfold Fs.fileBlock
  by_cases hbn : BSIZE * bn < fs.ip.size
  · have hb := List.getElem?_eq_getElem (h.lt_length_iff.2 hbn)
    rw [if_pos hbn, h.bmap hb]
    exact h.contents bn _ hb
  · rw [if_neg hbn]
    intro i _
    refine (h.behind _ ?_).symm
    have hle := Nat.mul_le_mul_left BSIZE (not_lt.1 (h.lt_length_iff.not.2 hbn))
    omega

theorem Stored.contents_eq (h : Stored t fs A F tag) : fs.contents = F.bytes := by
  funext a
  have hB : 0 < BSIZE := by decide
  have hpage := h.fileBlock (a / BSIZE) (a % BSIZE) (Nat.mod_lt a hB)
  refine hpage.trans ?_
  exact congrArg F.bytes (Nat.div_add_mod a BSIZE)

theorem Stored.page_contents (h : Stored t fs A F tag) (bn : ℕ) :
    EqTo BSIZE (page BSIZE bn F.bytes) (fs.fileBlock bn) := (h.fileBlock bn).symm

/-! ### `writei` -/

namespace Blocks

theorem ind_grow (h : A.grow size = .ok A') (hi : A.ind ≠ none → NDIRECT < A.data.length) :
    A'.ind ≠ none → NDIRECT < A'.data.length := by
  have hlen := length_grow h
  unfold grow at h
  split_ifs at h with hdir
  · cases hb : takeFree size A.used with
    | error e => simp only [bind, Except.bind, hb] at h; cases h
    | ok b =>
      simp only [bind, Except.bind, hb] at h
      cases h
      intro hne
      exact absurd (hi hne) hdir.not_gt
  · intro _
    omega

theorem ind_reach (h : A.reach size k = .ok A') (hi : A.ind ≠ none → NDIRECT < A.data.length) :
    A'.ind ≠ none → NDIRECT < A'.data.length := by
  induction hd : k - A.data.length generalizing A with
  | zero =>
    rw [reach_of_le (Nat.le_of_sub_eq_zero hd)] at h
    cases h
    exact hi
  | succ d ih =>
    rw [reach_of_lt (by omega)] at h
    cases hg : A.grow size with
    | error e => rw [hg] at h; cases h
    | ok B =>
      rw [hg] at h
      have hlen := length_grow hg
      exact ih h (ind_grow hg hi) (by omega)

theorem Tight.reach (h : A.Tight F.length) (hA : A.reach size (blocksFor (off + n)) = .ok A') :
    A'.Tight (max F.length (off + n)) where
  data := by
    rw [length_reach hA, h.data]
    simp only [blocksFor, BSIZE]
    omega
  ind := ind_reach hA h.ind

end Blocks

/-- **A call of `writei`** between two states -/
theorem Stored.writei (h : Stored t fs A F tag) (src : Bytes) (off n : UInt32)
    (hr : InRange F.length off.toNat n.toNat) :
    match A.reach fs.size (blocksFor (off.toNat + clip off.toNat n.toNat)) with
    | .ok A' => ∃ fs', fs.writei src off.toNat n.toNat = .ok (clip off.toNat n.toNat, fs') ∧
        Stored t fs' A' (F.write src off.toNat (clip off.toNat n.toNat))
          (checksums t (summed n.toNat) off.toNat (clip off.toNat n.toNat)
            (F.write src off.toNat (clip off.toNat n.toNat)) tag) ∧
        Written fs fs' A' F tag src off.toNat n.toNat
    | .error e => fs.writei src off.toNat n.toNat = .error e := by
  have hoff : off.toNat < 2 ^ 32 := off.toNat_lt
  have hn : n.toNat < 2 ^ 32 := n.toNat_lt
  have hw := h.toHolds.writei src hoff hn hr
  cases hA : A.reach fs.size (blocksFor (off.toNat + clip off.toNat n.toNat)) with
  | error e =>
    rw [hA] at hw
    exact hw
  | ok A' =>
    rw [hA] at hw
    obtain ⟨fs', hx, hwritten⟩ := hw
    obtain ⟨a, s, hip⟩ := hwritten.ip
    have hholds := hwritten.holds
    rw [h.type] at hholds
    refine ⟨fs', hx, ⟨hholds, h.tight.reach hA, ?_, ?_, ?_, ?_, ?_⟩, hwritten⟩
    all_goals rw [hip]
    exacts [h.type, h.nlink, h.ref, h.busy, h.valid]

/-! ### Calls -/

/-- A call of `readi` or `writei`, with the contents of its buffer -/
inductive Call
  | read (dst : Bytes) (off n : UInt32)
  | write (src : Bytes) (off n : UInt32)

/-- What a call returns, and the bytes that it delivers -/
abbrev Reply : Type := ℤ × List UInt8

/-- The reply of `readi` -/
def delivered (r : ℤ) (dst : Bytes) : Reply := (r, (List.range r.toNat).map dst)

def perform (fs : Fs) : Call → Except Stop (Reply × Fs)
  | .read dst off n => (fs.readi dst off.toNat n.toNat).map fun (r, dst, fs) => (delivered r dst, fs)
  | .write src off n => (fs.writei src off.toNat n.toNat).map fun (r, fs) => ((r, []), fs)

/-- Calls one after the other, as long as the kernel does not stop -/
def calls : Machine Fs Call where
  next fs c :=
    match fs.perform c with
    | .ok (_, fs) => some fs
    | .error _ => none

/-- The file after a call -/
def File.after (F : File) : Call → File
  | .read .. => F
  | .write src off n =>
    if InRange F.length off.toNat n.toNat then F.write src off.toNat (clip off.toNat n.toNat) else F

/-- The blocks that a call on a file of `length` bytes writes -/
def Call.writesTo (length bn : ℕ) : Call → Prop
  | .read .. => False
  | .write _ off n =>
    InRange length off.toNat n.toNat ∧ Touches BSIZE off.toNat (clip off.toNat n.toNat) bn

instance (length bn : ℕ) : ∀ c : Call, Decidable (c.writesTo length bn)
  | .read .. => inferInstanceAs (Decidable False)
  | .write .. => inferInstanceAs (Decidable (_ ∧ _))

/-- The bytes of a block that a call sums -/
def Call.summed : Call → ℕ
  | .read _ _ n => Fs.summed n.toNat
  | .write _ _ n => Fs.summed n.toNat

theorem Call.summed_le (c : Call) : c.summed ≤ BSIZE := by
  cases c <;> exact Fs.summed_le _

/-- The checksums of a file of the type `t` after a call -/
def checksumsAfter (t : Kind) (F : File) (c : Call) (tag : ℕ → UInt8) : ℕ → UInt8 :=
  fun bn => if t = .checked ∧ c.writesTo F.length bn then xorSum c.summed (page BSIZE bn (F.after c).bytes)
    else tag bn

theorem Stored.perform_read (h : Stored t fs A F tag) (dst : Bytes) (off n : UInt32) :
    ∃ r, fs.perform (.read dst off n) = .ok (r, fs) := by
  have hoff : off.toNat < 2 ^ 32 := off.toNat_lt
  have hn : n.toNat < 2 ^ 32 := n.toNat_lt
  simp only [perform]
  by_cases hr : InRange F.length off.toNat n.toNat
  · obtain ⟨-, hx⟩ | ⟨-, hx⟩ := h.toHolds.readi dst hoff hn hr <;> rw [hx] <;> exact ⟨_, rfl⟩
  · rw [h.toHolds.readi_refused dst hoff hn hr]
    exact ⟨_, rfl⟩

theorem after_of_not_inRange (t : Kind) (tag : ℕ → UInt8) (src : Bytes) {off n : UInt32}
    (hr : ¬ InRange F.length off.toNat n.toNat) :
    F.after (.write src off n) = F ∧ checksumsAfter t F (.write src off n) tag = tag :=
  ⟨if_neg hr, funext fun _ => if_neg fun hc => hr hc.2.1⟩

theorem after_of_inRange (t : Kind) (tag : ℕ → UInt8) (src : Bytes) {off n : UInt32}
    (hr : InRange F.length off.toNat n.toNat) :
    F.after (.write src off n) = F.write src off.toNat (clip off.toNat n.toNat) ∧
    checksumsAfter t F (.write src off n) tag = checksums t (summed n.toNat) off.toNat
      (clip off.toNat n.toNat) (F.write src off.toNat (clip off.toNat n.toNat)) tag := by
  have hF : F.after (.write src off n) = _ := if_pos hr
  refine ⟨hF, funext fun bn => ?_⟩
  simp only [checksumsAfter, checksums, hF, Call.writesTo, hr, true_and]
  rfl

theorem Stored.of_read {dst : Bytes} {off n : UInt32} (h : Stored t fs A F tag)
    (hc : calls.next fs (.read dst off n) = some fs') : fs' = fs := by
  obtain ⟨r, hr⟩ := h.perform_read dst off n
  simp only [calls, hr] at hc
  exact (Option.some.inj hc).symm

theorem Stored.of_refused {src : Bytes} {off n : UInt32} (h : Stored t fs A F tag)
    (hr : ¬ InRange F.length off.toNat n.toNat) (hc : calls.next fs (.write src off n) = some fs') :
    fs' = fs := by
  have hoff : off.toNat < 2 ^ 32 := off.toNat_lt
  have hn : n.toNat < 2 ^ 32 := n.toNat_lt
  simp only [calls, perform, h.toHolds.writei_refused src hoff hn hr, Except.map] at hc
  exact (Option.some.inj hc).symm

theorem Stored.of_write {src : Bytes} {off n : UInt32} (h : Stored t fs A F tag)
    (hr : InRange F.length off.toNat n.toNat) (hc : calls.next fs (.write src off n) = some fs') :
    ∃ A', A.reach fs.size (blocksFor (off.toNat + clip off.toNat n.toNat)) = .ok A' ∧
      Stored t fs' A' (F.write src off.toNat (clip off.toNat n.toNat))
        (checksums t (summed n.toNat) off.toNat (clip off.toNat n.toNat)
          (F.write src off.toNat (clip off.toNat n.toNat)) tag) ∧
      Written fs fs' A' F tag src off.toNat n.toNat := by
  have hw := h.writei src off n hr
  cases hA : A.reach fs.size (blocksFor (off.toNat + clip off.toNat n.toNat)) with
  | error e =>
    rw [hA] at hw
    simp only [calls, perform, show fs.writei _ _ _ = _ from hw, Except.map] at hc
    cases hc
  | ok A' =>
    rw [hA] at hw
    obtain ⟨fs'', hx, hs⟩ := hw
    simp only [calls, perform, hx, Except.map] at hc
    cases hc
    exact ⟨A', rfl, hs⟩

/-- **What one call does** to a file: reading changes nothing, and writing what it has to. -/
theorem Stored.of_next {c : Call} (h : Stored t fs A F tag) (hc : calls.next fs c = some fs') :
    ∃ A', Stored t fs' A' (F.after c) (checksumsAfter t F c tag) := by
  cases c with
  | read dst off n =>
    obtain rfl := h.of_read hc
    have htag : checksumsAfter t F (.read dst off n) tag = tag := funext fun _ => if_neg fun hc => hc.2
    rw [htag]
    exact ⟨A, h⟩
  | write src off n =>
    by_cases hr : InRange F.length off.toNat n.toNat
    · obtain ⟨hF, htag⟩ := after_of_inRange t tag src hr
      obtain ⟨A', -, hs, -⟩ := h.of_write hr hc
      rw [hF, htag]
      exact ⟨A', hs⟩
    · obtain ⟨hF, htag⟩ := after_of_not_inRange t tag src hr
      obtain rfl := h.of_refused hr hc
      rw [hF, htag]
      exact ⟨A, h⟩

/-- **All runs of calls** on a new inode lead to stored files. -/
theorem stored_of_run {cs : List Call} (h : calls.run (D.create t) cs = some fs) :
    ∃ A F tag, Stored t fs A F tag := by
  refine Machine.run_invariant (I := fun fs => ∃ A F tag, Stored t fs A F tag) h ⟨_, _, _, D.stored t⟩ ?_
  rintro fs c fs' ⟨A, F, tag, hs⟩ hc
  obtain ⟨A', hs'⟩ := hs.of_next hc
  exact ⟨A', _, _, hs'⟩

/-! ### The summed bytes -/

/-- A ghost: how many bytes of each block the last write to it summed. -/
def prefixes (fs : Fs) (c : Call) (pre : ℕ → ℕ) : ℕ → ℕ :=
  fun bn => if c.writesTo fs.ip.size bn then c.summed else pre bn

/-- The checksums of a checked file are those of the summed bytes. -/
structure Sums (F : File) (tag : ℕ → UInt8) (pre : ℕ → ℕ) : Prop where
  le : ∀ bn, pre bn ≤ BSIZE
  tag : ∀ bn, tag bn = xorSum (pre bn) (page BSIZE bn F.bytes)

theorem sums_zero : Sums ⟨fun _ => 0, 0⟩ (fun _ => 0) fun _ => 0 := ⟨fun _ => Nat.zero_le _, fun _ => rfl⟩

/-- A block that a call does not write stays as it is. -/
theorem page_after {c : Call} (h : ¬ c.writesTo F.length bn) :
    EqTo BSIZE (page BSIZE bn (F.after c).bytes) (page BSIZE bn F.bytes) := by
  cases c with
  | read => exact EqTo.refl _ _
  | write src off n =>
    simp only [File.after]
    split_ifs with hr
    · exact page_patch_of_not_touches fun ht => h ⟨hr, ht⟩
    · exact EqTo.refl _ _

theorem Sums.after {pre : ℕ → ℕ} (h : Sums F tag pre) (hs : fs.ip.size = F.length) (c : Call) :
    Sums (F.after c) (checksumsAfter .checked F c tag) (fs.prefixes c pre) where
  le bn := by
    unfold prefixes
    split_ifs
    · exact c.summed_le
    · exact h.le bn
  tag bn := by
    simp only [prefixes, checksumsAfter, hs, true_and]
    split_ifs with hc
    · rfl
    · rw [h.tag bn]
      exact xorSum_congr fun i hi => (page_after hc i (hi.trans_le (h.le bn))).symm

/-- Nothing but zeros behind the end of the file -/
def File.Clean (F : File) : Prop := ∀ a, F.length ≤ a → F.bytes a = 0

theorem File.Clean.after (h : F.Clean) (c : Call) : (F.after c).Clean := by
  cases c with
  | read => exact h
  | write src off n =>
    simp only [File.after]
    split_ifs
    · intro a ha
      have ha' : max F.length (off.toNat + clip off.toNat n.toNat) ≤ a := ha
      exact (patch_of_le (by omega)).trans (h a (by omega))
    · exact h

/-- **All runs of calls** on a new checked inode lead to clean files with summed prefixes. -/
theorem sums_of_run {cs : List Call} {pre : ℕ → ℕ}
    (h : (calls.track prefixes).run (D.create .checked, fun _ => 0) cs = some (fs, pre)) :
    ∃ A F tag, Stored .checked fs A F tag ∧ Sums F tag pre ∧ F.Clean := by
  refine Machine.run_invariant (I := fun x => ∃ A F tag, Stored .checked x.1 A F tag ∧ Sums F tag x.2 ∧
    F.Clean) h ⟨_, _, _, D.stored .checked, sums_zero, fun _ _ => rfl⟩ ?_
  rintro ⟨fs, pre⟩ c ⟨fs', pre'⟩ ⟨A, F, tag, hs, hsums, hclean⟩ hc
  obtain ⟨hc, rfl⟩ := Machine.track_next_eq_some.1 hc
  obtain ⟨A', hs'⟩ := hs.of_next hc
  exact ⟨A', _, _, hs', hsums.after hs.length c, hclean.after c⟩

end Fs

end OperatingSystems

import OperatingSystems.Fs.Mapping

/-!
# Reading and writing files

What `readi` and `writei` do with a file that lies in its blocks.

* `Blocks.reach` : the blocks after a file has grown.
* `File.store`, `checksums` : the contents and the checksums after a write.
* `Holds.writeLoop`, `Holds.writei` : **`writei` refines the write to the file**, and stops when the
  file cannot grow.
* `Holds.readLoop`, `Holds.readi` : **`readi` reads the file, if the checksums are as `Intact` says**.
-/

namespace OperatingSystems

namespace Fs

open Bytes

variable {fs fs' : Fs} {A A' : Blocks} {F : File} {tag : ℕ → UInt8} {src dst : Bytes}
  {b bn k size off n m tot nbytes : ℕ}

/-! ### Growing -/

namespace Blocks

def extend (size : ℕ) : ℕ → Blocks → Except Stop Blocks
  | 0, A => .ok A
  | d + 1, A => (A.grow size).bind (extend size d)

/-- With at least `k` data blocks -/
def reach (size k : ℕ) (A : Blocks) : Except Stop Blocks := A.extend size (k - A.data.length)

theorem reach_of_le (h : k ≤ A.data.length) : A.reach size k = .ok A := by
  rw [reach, Nat.sub_eq_zero_of_le h, extend]

theorem data_growInd (h : A.growInd size = .ok A') : A'.data = A.data := by
  unfold growInd at h
  split at h
  · cases h; rfl
  · cases hp : takeFree size A.used with
    | error e => rw [hp] at h; cases h
    | ok p => rw [hp] at h; cases h; rfl

theorem length_grow (h : A.grow size = .ok A') : A'.data.length = A.data.length + 1 := by
  have hadd : ∀ {B C : Blocks}, (takeFree size B.used).map B.addData = .ok C →
      C.data.length = B.data.length + 1 := by
    intro B C hC
    cases hb : takeFree size B.used with
    | error e => rw [hb] at hC; cases hC
    | ok b => rw [hb] at hC; cases hC; exact List.length_append
  unfold grow at h
  split_ifs at h
  · exact hadd h
  · cases hi : A.growInd size with
    | error e => rw [hi] at h; cases h
    | ok B =>
      rw [hi] at h
      rw [hadd h, data_growInd hi]

theorem reach_of_lt (h : A.data.length < k) :
    A.reach size k = (A.grow size).bind (reach size k) := by
  obtain ⟨d, hd⟩ := Nat.exists_eq_add_of_lt h
  rw [reach, show k - A.data.length = d + 1 by omega, extend]
  cases hg : A.grow size with
  | error e => rfl
  | ok A' =>
    have hlen := length_grow hg
    show A'.extend size d = A'.extend size (k - A'.data.length)
    rw [show k - A'.data.length = d by omega]

end Blocks

/-- The number of blocks that `a` bytes take -/
def blocksFor (a : ℕ) : ℕ := (a + BSIZE - 1) / BSIZE

/-! ### Writing -/

/-- The contents after a write; the length is changed later. -/
def File.store (F : File) (src : Bytes) (off n : ℕ) : File :=
  { F with bytes := patch F.bytes off n src }

/-- The checksums after a write that left the contents of `F`: those of the blocks that it touched
are new, if the file is a checked one. -/
def checksums (t : Kind) (nbytes off n : ℕ) (F : File) (tag : ℕ → UInt8) : ℕ → UInt8 :=
  fun bn => if t = .checked ∧ Touches BSIZE off n bn then xorSum nbytes (page BSIZE bn F.bytes) else tag bn

theorem File.store_zero : F.store src off 0 = F := by rw [store, patch_zero]

theorem checksums_zero {t : Kind} : checksums t nbytes off 0 F tag = tag :=
  funext fun _ => if_neg fun h => not_touches_zero h.2

theorem writePiece_of_fetch {fs₀ : Fs} {data : Bytes}
    (h : fs₀.fetch (off / BSIZE) = .ok (b, data, fs)) :
    Fs.writePiece src nbytes m tot off fs₀ =
      if fs.ip.type = .checked then
        (fs.setChecksum (off / BSIZE) (xorSum nbytes (patch data (off % BSIZE) m (slice src tot)))).bind
          fun fs => .ok (fs.bwrite b (patch data (off % BSIZE) m (slice src tot)))
      else .ok (fs.bwrite b (patch data (off % BSIZE) m (slice src tot))) := by
  rw [writePiece, h]
  rfl

/-- One iteration, for a block of the file. -/
theorem Holds.writePiece {fs₀ : Fs} (src : Bytes) (tot : ℕ) (h : Holds fs A F tag)
    (hfetch : fs₀.fetch (off / BSIZE) = .ok (b, fs.block b, fs))
    (hb : A.data[off / BSIZE]? = some b) (hm : 0 < m) (hle : off % BSIZE + m ≤ BSIZE)
    (hn : nbytes ≤ BSIZE) :
    ∃ fs', Fs.writePiece src nbytes m tot off fs₀ = .ok fs' ∧
      Holds fs' A (F.store (slice src tot) off m)
        (checksums fs.ip.type nbytes off m (F.store (slice src tot) off m) tag) ∧
      Same fs fs' := by
  have htouch : ∀ i, Touches BSIZE off m i ↔ i = off / BSIZE := fun i => touches_within hm hle
  have hpage : EqTo BSIZE (patch (fs.block b) (off % BSIZE) m (slice src tot))
      (page BSIZE (off / BSIZE) (F.store (slice src tot) off m).bytes) := by
    rw [File.store, page_patch rfl]
    exact patch_congr (h.contents _ b hb) _ _ _
  have hother : ∀ i, i ≠ off / BSIZE →
      EqTo BSIZE (page BSIZE i (F.store (slice src tot) off m).bytes) (page BSIZE i F.bytes) :=
    fun i hi => page_patch_of_not_touches ((htouch i).not.2 hi)
  have hbehind : ∀ a, BSIZE * A.data.length ≤ a → (F.store (slice src tot) off m).bytes a = 0 := by
    intro a ha
    have hbn := (List.getElem?_eq_some_iff.1 hb).1
    have hmul : BSIZE * (off / BSIZE + 1) ≤ BSIZE * A.data.length := Nat.mul_le_mul_left _ hbn
    have hdiv := Nat.div_add_mod off BSIZE
    rw [Nat.mul_add, Nat.mul_one] at hmul
    exact (patch_of_le (by omega)).trans (h.behind a ha)
  rw [writePiece_of_fetch hfetch]
  by_cases ht : fs.ip.type = .checked
  · obtain ⟨fs₁, hset, h₁, hsame, -⟩ := h.setChecksum hb ht
      (xorSum nbytes (patch (fs.block b) (off % BSIZE) m (slice src tot)))
    refine ⟨fs₁.bwrite b (patch (fs.block b) (off % BSIZE) m (slice src tot)), ?_, ?_,
      ⟨hsame.size, hsame.dip, hsame.ip⟩⟩
    · rw [if_pos ht, hset]
      rfl
    · have htag : checksums fs.ip.type nbytes off m (F.store (slice src tot) off m) tag =
          Function.update tag (off / BSIZE)
            (xorSum nbytes (patch (fs.block b) (off % BSIZE) m (slice src tot))) := by
        funext i
        rcases eq_or_ne i (off / BSIZE) with rfl | hi
        · rw [checksums, if_pos ⟨ht, (htouch _).2 rfl⟩, Function.update_self]
          exact xorSum_congr fun j hj => (hpage j (hj.trans_le hn)).symm
        · rw [checksums, if_neg fun hc => hi ((htouch i).1 hc.2), Function.update_of_ne hi]
      rw [htag]
      exact h₁.bwrite hb hpage hother hbehind rfl
  · refine ⟨fs.bwrite b (patch (fs.block b) (off % BSIZE) m (slice src tot)), ?_, ?_,
      ⟨rfl, rfl, _, rfl⟩⟩
    · exact if_neg ht
    · have htag : checksums fs.ip.type nbytes off m (F.store (slice src tot) off m) tag =
          tag := funext fun i => if_neg fun hc => ht hc.1
      rw [htag]
      exact h.bwrite hb hpage hother hbehind rfl

/-- What a write to `n` bytes at `off` that the blocks `r` allow does -/
def Writes (fs : Fs) (F : File) (tag : ℕ → UInt8) (src : Bytes) (nbytes off n : ℕ)
    (r : Except Stop Blocks) (x : Except Stop (ℕ × Fs)) : Prop :=
  match r with
  | .ok A' => ∃ fs', x = .ok (off + n, fs') ∧
      Holds fs' A' (F.store src off n)
        (checksums fs.ip.type nbytes off n (F.store src off n) tag) ∧ Same fs fs'
  | .error e => x = .error e

theorem File.store_store (F : File) (src : Bytes) (off k n : ℕ) :
    (F.store src off k).store (slice src k) (off + k) n = F.store src off (k + n) := by
  simp only [store, patch_patch]

/-- The checksums after the first piece of a write and the others. -/
theorem checksums_piece {t : Kind} (hk : 0 < k) (hn : nbytes ≤ BSIZE)
    (hm : m = piece BSIZE off k) :
    checksums t nbytes (off + m) (k - m) (F.store src off k)
      (checksums t nbytes off m (F.store src off m) tag) =
    checksums t nbytes off k (F.store src off k) tag := by
  subst hm
  have hB : 0 < BSIZE := by decide
  have hle := piece_le BSIZE off k
  have hfirst : ∀ i, Touches BSIZE off (piece BSIZE off k) i ↔ i = off / BSIZE := fun i =>
    touches_within (piece_pos off hB hk) (mod_add_piece_le off k hB)
  have hstore : F.store src off k = (F.store src off (piece BSIZE off k)).store
      (slice src (piece BSIZE off k)) (off + piece BSIZE off k) (k - piece BSIZE off k) := by
    rw [File.store_store, Nat.add_sub_cancel' hle]
  funext i
  have htouch : Touches BSIZE off k i ↔ _ := touches_piece hB hk
  simp only [checksums, htouch, hfirst]
  by_cases hi : Touches BSIZE (off + piece BSIZE off k) (k - piece BSIZE off k) i
  · simp only [hi, or_true, and_true]
    split_ifs with ht hc
    · rfl
    · exact absurd hc.1 ht
    · rfl
  · simp only [hi, and_false, or_false, if_false]
    split_ifs with hc
    · rw [hstore]
      exact xorSum_congr fun j hj => (page_patch_of_not_touches hi j (hj.trans_le hn)).symm
    · rfl

theorem writeLoop_of_lt (h : tot < n) :
    writeLoop src n nbytes tot off fs =
      (writePiece src nbytes (piece BSIZE off (n - tot)) tot off fs).bind fun fs =>
        writeLoop src n nbytes (tot + piece BSIZE off (n - tot)) (off + piece BSIZE off (n - tot)) fs := by
  rw [writeLoop, dif_pos h]
  rfl

/-- One piece, and the others -/
theorem Writes.cons {r : Except Stop Blocks} {x : Except Stop (ℕ × Fs)} (hk : 0 < k)
    (hn : nbytes ≤ BSIZE) (hm : m = piece BSIZE off k) (hs : Same fs fs')
    (h : Writes fs' (F.store src off m)
      (checksums fs.ip.type nbytes off m (F.store src off m) tag) (slice src m) nbytes
      (off + m) (k - m) r x) :
    Writes fs F tag src nbytes off k r x := by
  have hle : m ≤ k := hm ▸ piece_le BSIZE off k
  cases r with
  | error e => exact h
  | ok A' =>
    obtain ⟨fs'', hx, hholds, hsame⟩ := h
    rw [File.store_store, Nat.add_sub_cancel' hle] at hholds
    rw [hs.type, checksums_piece hk hn hm] at hholds
    refine ⟨fs'', ?_, hholds, hs.trans hsame⟩
    rw [hx, show off + m + (k - m) = off + k by omega]

/-- **The loop of `writei`** -/
theorem Holds.writeLoop (src : Bytes) (n tot : ℕ) (h : Holds fs A F tag) (hoff : off ≤ BSIZE * A.data.length)
    (hend : off + (n - tot) ≤ MAXFILE * BSIZE) (hn : nbytes ≤ BSIZE) :
    Writes fs F tag (slice src tot) nbytes off (n - tot)
      (A.reach fs.size (blocksFor (off + (n - tot)))) (Fs.writeLoop src n nbytes tot off fs) := by
  induction hk : n - tot using Nat.strong_induction_on generalizing fs A F tag tot off with
  | _ k ih =>
    rw [hk] at hend
    by_cases hlt : tot < n
    swap
    · have hk0 : k = 0 := by omega
      have hblocks : blocksFor off ≤ A.data.length := by
        simp only [blocksFor, BSIZE] at *
        omega
      subst hk0
      rw [Nat.add_zero, Blocks.reach_of_le hblocks, Fs.writeLoop, dif_neg hlt]
      refine ⟨fs, rfl, ?_, Same.refl fs⟩
      rw [File.store_zero, checksums_zero]
      exact h
    have hB : 0 < BSIZE := by decide
    have hk0 : 0 < k := by omega
    have hpos := piece_pos off hB hk0
    have hle := piece_le BSIZE off k
    have hin := mod_add_piece_le off k hB
    have hdiv := Nat.div_add_mod off BSIZE
    -- the block is there, now
    have hgo : ∀ (fs₁ : Fs) (A₁ : Blocks) (b : ℕ), fs.fetch (off / BSIZE) = .ok (b, fs₁.block b, fs₁) →
        A₁.data[off / BSIZE]? = some b → Holds fs₁ A₁ F tag → Same fs fs₁ →
        Writes fs F tag (slice src tot) nbytes off k (A₁.reach fs.size (blocksFor (off + k)))
          (Fs.writeLoop src n nbytes tot off fs) := by
      intro fs₁ A₁ b hfetch hb h₁ hs₁
      obtain ⟨fs₂, hpiece, h₂, hs₂⟩ := h₁.writePiece src tot hfetch hb hpos hin hn
      have hs := hs₁.trans hs₂
      have hoff₁ : off + piece BSIZE off k ≤ BSIZE * A₁.data.length := by
        have hlen := (List.getElem?_eq_some_iff.1 hb).1
        have hmul : BSIZE * (off / BSIZE + 1) ≤ BSIZE * A₁.data.length := Nat.mul_le_mul_left _ hlen
        rw [Nat.mul_add, Nat.mul_one] at hmul
        omega
      have hrest := ih (k - piece BSIZE off k) (by omega) (tot + piece BSIZE off k) h₂ hoff₁
        (by omega) (by omega)
      rw [show off + piece BSIZE off k + (k - piece BSIZE off k) = off + k by omega, hs.size,
        ← slice_slice, hs₁.type] at hrest
      rw [writeLoop_of_lt hlt, hk, hpiece]
      exact Writes.cons hk0 hn rfl hs hrest
    by_cases hbn : off / BSIZE < A.data.length
    · have hb : A.data[off / BSIZE]? = some A.data[off / BSIZE] := List.getElem?_eq_getElem hbn
      exact hgo fs A _ (h.fetch hb) hb h (Same.refl fs)
    have heq : off / BSIZE = A.data.length := by
      simp only [BSIZE] at *
      omega
    have hmax : A.data.length < MAXFILE := by
      simp only [BSIZE, MAXFILE, NDIRECT, NINDIRECT] at *
      omega
    have hmore : A.data.length < blocksFor (off + k) := by
      simp only [blocksFor, BSIZE] at *
      omega
    have hgrow := h.fetch_grow hmax
    rw [Blocks.reach_of_lt hmore]
    cases hA : A.grow fs.size with
    | error e =>
      rw [hA] at hgrow
      rw [writeLoop_of_lt hlt]
      unfold Fs.writePiece
      rw [heq, show fs.fetch A.data.length = .error e from hgrow]
      rfl
    | ok A₁ =>
      rw [hA] at hgrow
      obtain ⟨b, fs₁, hdata, hfetch, h₁, hs₁⟩ := hgrow
      rw [← heq] at hfetch
      refine hgo fs₁ A₁ b hfetch ?_ h₁ hs₁
      rw [hdata, heq, List.getElem?_append_right le_rfl, Nat.sub_self]
      rfl

/-- The bytes of a block that a call for `n` bytes sums -/
def summed (n : ℕ) : ℕ := if n > BSIZE then BSIZE else n

theorem summed_le (n : ℕ) : summed n ≤ BSIZE := by
  unfold summed
  split_ifs <;> omega

/-- The bytes that `writei` writes of `n` -/
def clip (off n : ℕ) : ℕ := if off + n > MAXFILE * BSIZE then MAXFILE * BSIZE - off else n

/-- A write to the file -/
def File.write (F : File) (src : Bytes) (off n : ℕ) : File :=
  { F.store src off n with length := max F.length (off + n) }

/-- The accesses to a file of `length` bytes that are not refused -/
def InRange (length off n : ℕ) : Prop := off ≤ length ∧ off + n < 2 ^ 32

instance {length : ℕ} : Decidable (InRange length off n) := inferInstanceAs (Decidable (_ ∧ _))

/-- What a call of `writei` leaves behind -/
structure Written (fs fs' : Fs) (A' : Blocks) (F : File) (tag : ℕ → UInt8) (src : Bytes)
    (off n : ℕ) : Prop where
  holds : Holds fs' A' (F.write src off (clip off n))
    (checksums fs.ip.type (summed n) off (clip off n) (F.write src off (clip off n)) tag)
  size : fs'.size = fs.size
  ip : ∃ a s, fs'.ip = { fs.ip with addrs := a, size := s }
  dip : fs'.dip = if F.length < off + clip off n then fs'.ip.toDinode else fs.dip

/-- The number of blocks after a file has grown. -/
theorem Blocks.length_reach (h : A.reach size k = .ok A') :
    A'.data.length = max A.data.length k := by
  induction hd : k - A.data.length generalizing A with
  | zero =>
    rw [reach_of_le (Nat.le_of_sub_eq_zero hd)] at h
    cases h
    omega
  | succ d ih =>
    rw [reach_of_lt (by omega)] at h
    cases hg : A.grow size with
    | error e => rw [hg] at h; cases h
    | ok B =>
      rw [hg] at h
      have hlen := length_grow hg
      rw [ih h (by omega)]
      omega

/-- The length of the file is changed, in the cache and on the disk. -/
theorem Holds.setSize (h : Holds fs A F tag) {l : ℕ} (hl : l ≤ BSIZE * A.data.length) :
    Holds (fs.setSize l).iupdate A { F with length := l } tag :=
  { h with length := rfl, length_le_blocks := hl }

theorem Holds.length_le_max (h : Holds fs A F tag) : F.length ≤ MAXFILE * BSIZE := by
  have hle := h.length_le_blocks
  have hlen := h.length_le
  simp only [BSIZE, MAXFILE, NDIRECT, NINDIRECT] at *
  omega

theorem wraps_iff (hoff : off < 2 ^ 32) (hn : n < 2 ^ 32) : (off + n) % 2 ^ 32 < off ↔ ¬ off + n < 2 ^ 32 := by
  omega

theorem Holds.inRange_iff (h : Holds fs A F tag) (hoff : off < 2 ^ 32) (hn : n < 2 ^ 32) :
    (off > fs.ip.size ∨ (off + n) % 2 ^ 32 < off) ↔ ¬ InRange F.length off n := by
  rw [h.length, wraps_iff hoff hn, InRange]
  omega

/-- **`writei` out of range** -/
theorem Holds.writei_refused (src : Bytes) (h : Holds fs A F tag) (hoff : off < 2 ^ 32) (hn : n < 2 ^ 32)
    (hr : ¬ InRange F.length off n) : fs.writei src off n = .ok (-1, fs) :=
  if_pos ((h.inRange_iff hoff hn).2 hr)

theorem writei_of_inRange (h : ¬ (off > fs.ip.size ∨ (off + n) % 2 ^ 32 < off)) :
    fs.writei src off n = (Fs.writeLoop src (clip off n) (summed n) 0 off fs).bind fun x =>
      if clip off n > 0 ∧ x.1 > x.2.ip.size then
        .ok ((clip off n : ℤ), (x.2.setSize x.1).iupdate)
      else .ok ((clip off n : ℤ), x.2) := if_neg h

/-- **`writei` in range** writes to the file, or stops as the blocks cannot be had. -/
theorem Holds.writei (src : Bytes) (h : Holds fs A F tag) (hoff : off < 2 ^ 32) (hn : n < 2 ^ 32)
    (hr : InRange F.length off n) :
    match A.reach fs.size (blocksFor (off + clip off n)) with
    | .ok A' => ∃ fs', fs.writei src off n = .ok (clip off n, fs') ∧
        Written fs fs' A' F tag src off n
    | .error e => fs.writei src off n = .error e := by
  have hmax := h.length_le_max
  have hoff' : off ≤ BSIZE * A.data.length := hr.1.trans h.length_le_blocks
  have hend : off + clip off n ≤ MAXFILE * BSIZE := by
    have := hr.1
    unfold clip
    split_ifs <;> omega
  have hloop := h.writeLoop src (clip off n) 0 hoff' hend (summed_le n)
  rw [writei_of_inRange ((h.inRange_iff hoff hn).not.2 (not_not.2 hr))]
  rw [Nat.sub_zero, slice_zero] at hloop
  cases hA : A.reach fs.size (blocksFor (off + clip off n)) with
  | error e =>
    rw [hA] at hloop
    rw [show Fs.writeLoop _ _ _ _ _ _ = _ from hloop]
    rfl
  | ok A' =>
    rw [hA] at hloop
    obtain ⟨fs', hx, hholds, hsame⟩ := hloop
    have hlen : off + clip off n ≤ BSIZE * A'.data.length := by
      have := Blocks.length_reach hA
      simp only [blocksFor, BSIZE] at *
      omega
    obtain ⟨a, ha⟩ := hsame.ip
    rw [hx]
    -- the size is stored only if the file has grown
    by_cases hgrow : F.length < off + clip off n
    · have hpos : 0 < clip off n := by
        have := hr.1
        omega
      refine ⟨(fs'.setSize (off + clip off n)).iupdate, ?_, ?_, hsame.size,
        ⟨a, off + clip off n, ?_⟩, ?_⟩
      · refine if_pos ⟨hpos, ?_⟩
        show off + clip off n > fs'.ip.size
        rw [hsame.length, h.length]
        exact hgrow
      · have hmax' : max F.length (off + clip off n) = off + clip off n := max_eq_right hgrow.le
        rw [File.write, hmax']
        exact hholds.setSize hlen
      · rw [Fs.setSize, iupdate, ha]
      · rw [if_pos hgrow]
        rfl
    · refine ⟨fs', ?_, ?_, hsame.size, ⟨a, fs.ip.size, ?_⟩, ?_⟩
      · refine if_neg fun hc => hgrow ?_
        have hlt : off + clip off n > fs'.ip.size := hc.2
        rw [hsame.length, h.length] at hlt
        exact hlt
      · have hmax' : max F.length (off + clip off n) = F.length := max_eq_left (not_lt.1 hgrow)
        rw [File.write, hmax']
        exact hholds
      · rw [ha]
      · rw [if_neg hgrow, hsame.dip]

/-! ### Reading -/

/-- In a checked file, the checksums of the blocks that an access touches are those of the first
`nbytes` bytes of the blocks. -/
def Intact (t : Kind) (tag : ℕ → UInt8) (F : File) (nbytes off n : ℕ) : Prop :=
  t = .checked → ∀ bn, Touches BSIZE off n bn → tag bn = xorSum nbytes (page BSIZE bn F.bytes)

theorem intact_zero {t : Kind} : Intact t tag F nbytes off 0 := fun _ _ hbn =>
  absurd hbn not_touches_zero

theorem intact_piece (off : ℕ) {t : Kind} (hk : 0 < k) :
    Intact t tag F nbytes off k ↔
      (t = .checked → tag (off / BSIZE) = xorSum nbytes (page BSIZE (off / BSIZE) F.bytes)) ∧
      Intact t tag F nbytes (off + piece BSIZE off k) (k - piece BSIZE off k) := by
  have hB : 0 < BSIZE := by decide
  constructor
  · intro h
    exact ⟨fun ht => h ht _ ((touches_piece hB hk).2 (Or.inl rfl)), fun ht bn hbn =>
      h ht bn ((touches_piece hB hk).2 (Or.inr hbn))⟩
  · rintro ⟨hfirst, hrest⟩ ht bn hbn
    rcases (touches_piece hB hk).1 hbn with rfl | hbn
    · exact hfirst ht
    · exact hrest ht bn hbn

/-- The stored checksum of a block of the file -/
theorem Holds.storedChecksum (h : Holds fs A F tag) (hb : A.data[bn]? = some b) (c : UInt8) :
    fs.storedChecksum bn c = .ok (tag bn) := by
  have hbn : bn < A.data.length := (List.getElem?_eq_some_iff.1 hb).1
  have hind := isIndirect_iff (hbn.trans_le h.length_le)
  have hlt := (h.lt_of_data hb).2.2
  unfold Fs.storedChecksum
  by_cases hdir : bn < NDIRECT
  · have hfalse : isIndirect bn = false := Bool.eq_false_of_not_eq_true fun hi =>
      absurd hdir (not_lt.2 (hind.1 hi))
    simp only [hfalse, Bool.false_eq_true, if_false, if_pos hdir, h.direct bn hdir,
      Blocks.slot_of_some hb, checksum_word hlt]
  · have hge := not_lt.1 hdir
    have hj : bn - NDIRECT < NINDIRECT := by
      have := h.length_le
      simp only [MAXFILE] at this
      omega
    obtain ⟨p, hp⟩ := Option.ne_none_iff_exists'.1 (h.ind (by omega))
    have hptr : fs.ip.addrs NDIRECT = p := by rw [h.pointer, hp, Option.getD_some]
    simp only [hind.2 hge, if_true, hptr, bread (h.lt_of_ind hp).2, bind, Except.bind,
      h.indirect p hp _ hj, Nat.add_sub_cancel' hge, Blocks.slot_of_some hb, checksum_word hlt]

theorem readLoop_of_lt {fs₀ : Fs} {c : UInt8} {data : Bytes} (h : tot < n)
    (hfetch : fs₀.fetch (off / BSIZE) = .ok (b, data, fs)) :
    readLoop n nbytes tot off c dst fs₀ =
      if fs.ip.type = .checked then
        (fs.storedChecksum (off / BSIZE) c).bind fun c =>
          if c ≠ xorSum nbytes data then .ok (none, fs)
          else readLoop n nbytes (tot + piece BSIZE off (n - tot)) (off + piece BSIZE off (n - tot)) c
            (patch dst tot (piece BSIZE off (n - tot)) (slice data (off % BSIZE))) fs
      else readLoop n nbytes (tot + piece BSIZE off (n - tot)) (off + piece BSIZE off (n - tot)) c
        (patch dst tot (piece BSIZE off (n - tot)) (slice data (off % BSIZE))) fs := by
  rw [readLoop, dif_pos h, hfetch]
  rfl

/-- What a read of `n` bytes at `off` into `dst` at `tot` yields -/
def Reads (t : Kind) (F : File) (tag : ℕ → UInt8) (nbytes off n tot : ℕ) (dst : Bytes)
    (x : Option Bytes) : Prop :=
  (Intact t tag F nbytes off n ∧ x = some (patch dst tot n (slice F.bytes off))) ∨
  (¬ Intact t tag F nbytes off n ∧ x = none)

/-- **The loop of `readi`** -/
theorem Holds.readLoop (n tot : ℕ) (c : UInt8) (dst : Bytes) (h : Holds fs A F tag)
    (hend : off + (n - tot) ≤ BSIZE * A.data.length) (hn : nbytes ≤ BSIZE) :
    ∃ x, Fs.readLoop n nbytes tot off c dst fs = .ok (x, fs) ∧
      Reads fs.ip.type F tag nbytes off (n - tot) tot dst x := by
  induction hk : n - tot using Nat.strong_induction_on generalizing tot off c dst with
  | _ k ih =>
    rw [hk] at hend
    by_cases hlt : tot < n
    swap
    · obtain rfl : k = 0 := by omega
      rw [Fs.readLoop, dif_neg hlt]
      exact ⟨_, rfl, Or.inl ⟨intact_zero, by rw [patch_zero]⟩⟩
    have hB : 0 < BSIZE := by decide
    have hk0 : 0 < k := by omega
    have hpos := piece_pos off hB hk0
    have hle := piece_le BSIZE off k
    have hin := mod_add_piece_le off k hB
    have hbn : off / BSIZE < A.data.length := by
      simp only [BSIZE] at *
      omega
    have hb : A.data[off / BSIZE]? = some A.data[off / BSIZE] := List.getElem?_eq_getElem hbn
    have hpage := h.contents _ _ hb
    -- the piece that is copied is that of the file
    have hcopy : patch dst tot (piece BSIZE off k) (slice (fs.block A.data[off / BSIZE]) (off % BSIZE)) =
        patch dst tot (piece BSIZE off k) (slice F.bytes off) := by
      refine patch_of_eqTo ?_
      rw [← slice_page F.bytes (rfl : off / BSIZE = off / BSIZE)]
      exact hpage.slice hin
    have hsum : xorSum nbytes (fs.block A.data[off / BSIZE]) =
        xorSum nbytes (page BSIZE (off / BSIZE) F.bytes) :=
      xorSum_congr fun j hj => hpage j (hj.trans_le hn)
    have hgo : ∀ c, ∃ x, Fs.readLoop n nbytes (tot + piece BSIZE off k) (off + piece BSIZE off k) c
        (patch dst tot (piece BSIZE off k) (slice F.bytes off)) fs = .ok (x, fs) ∧
        Reads fs.ip.type F tag nbytes (off + piece BSIZE off k) (k - piece BSIZE off k)
          (tot + piece BSIZE off k) (patch dst tot (piece BSIZE off k) (slice F.bytes off)) x :=
      fun c => ih (k - piece BSIZE off k) (by omega) (tot + piece BSIZE off k) c _ (by omega) (by omega)
    have hpatch : patch (patch dst tot (piece BSIZE off k) (slice F.bytes off))
        (tot + piece BSIZE off k) (k - piece BSIZE off k) (slice F.bytes (off + piece BSIZE off k)) =
        patch dst tot k (slice F.bytes off) := by
      rw [← slice_slice, patch_patch, Nat.add_sub_cancel' hle]
    rw [readLoop_of_lt hlt (h.fetch hb), hk, hcopy, hsum]
    unfold Reads at hgo ⊢
    simp only [intact_piece off hk0]
    rw [hpatch] at hgo
    by_cases ht : fs.ip.type = .checked
    · rw [if_pos ht, h.storedChecksum hb]
      by_cases htag : tag (off / BSIZE) = xorSum nbytes (page BSIZE (off / BSIZE) F.bytes)
      · obtain ⟨x, hx, hr⟩ := hgo (tag (off / BSIZE))
        refine ⟨x, (if_neg (not_not.2 htag)).trans hx, ?_⟩
        simpa only [htag, implies_true, true_and] using hr
      · refine ⟨none, if_pos htag, Or.inr ⟨fun hc => htag (hc.1 ht), rfl⟩⟩
    · obtain ⟨x, hx, hr⟩ := hgo c
      refine ⟨x, (if_neg ht).trans hx, ?_⟩
      simpa only [ht, false_implies, true_and] using hr

/-- The bytes that `readi` reads of `n` in a file of `length` bytes -/
def rest (length off n : ℕ) : ℕ := if off + n > length then length - off else n

/-- **`readi` out of range** -/
theorem Holds.readi_refused (dst : Bytes) (h : Holds fs A F tag) (hoff : off < 2 ^ 32) (hn : n < 2 ^ 32)
    (hr : ¬ InRange F.length off n) : fs.readi dst off n = .ok (-1, dst, fs) :=
  if_pos ((h.inRange_iff hoff hn).2 hr)

/-- **`readi` in range** delivers the bytes of the file, if the checksums are intact, and -1
otherwise. -/
theorem Holds.readi (dst : Bytes) (h : Holds fs A F tag) (hoff : off < 2 ^ 32) (hn : n < 2 ^ 32)
    (hr : InRange F.length off n) :
    (Intact fs.ip.type tag F (summed n) off (rest F.length off n) ∧
      fs.readi dst off n =
        .ok (rest F.length off n, patch dst 0 (rest F.length off n) (slice F.bytes off), fs)) ∨
    (¬ Intact fs.ip.type tag F (summed n) off (rest F.length off n) ∧ fs.readi dst off n = .ok (-1, dst, fs)) := by
  have hend : off + rest F.length off n ≤ BSIZE * A.data.length := by
    have hle := h.length_le_blocks
    have := hr.1
    unfold rest
    split_ifs <;> omega
  have hrange := (h.inRange_iff hoff hn).not.2 (not_not.2 hr)
  have hrest : rest F.length off n = if off + n > fs.ip.size then fs.ip.size - off else n := by
    rw [h.length]
    rfl
  obtain ⟨x, hx, hcase⟩ := h.readLoop (rest F.length off n) 0 0 dst hend (summed_le n)
  rw [hrest, summed] at hx
  unfold Fs.readi
  dsimp only
  rw [if_neg hrange, hx, ← hrest]
  rcases hcase with ⟨hi, rfl⟩ | ⟨hi, rfl⟩
  · exact Or.inl ⟨hi, rfl⟩
  · exact Or.inr ⟨hi, rfl⟩

end Fs

end OperatingSystems

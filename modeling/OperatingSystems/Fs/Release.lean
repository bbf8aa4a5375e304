import OperatingSystems.Fs.Calls

/-!
# Releasing a file

`iput` frees the blocks of a file without links.  `itrunc` passes the addresses to `bfree` as they
stand in the inode and in the indirect block, with the checksums in their top bytes.

* `Owns fs b` : `bmap` allocated the block `b` to the inode.
* `Frees l fs fs'` : exactly the blocks in `l` were freed.
* `truncDirect_frees`, `truncIndirect_frees` : the loops free what they find.
* `Released fs fs'` : what is left after the file was released.
* `released_iff` : **the exact condition** under which `iput` releases a file.
-/

namespace OperatingSystems

namespace Fs

open Bytes

variable {fs fs' fs'' : Fs} {A : Blocks} {F : File} {tag : ℕ → UInt8} {D : Image} {t : Kind}
  {l l' : List ℕ} {data : Bytes} {b i k : ℕ}

/-! ### Freeing -/

/-- Exactly the blocks in `l` were freed, and they were zeroed. -/
structure Frees (l : List ℕ) (fs fs' : Fs) : Prop where
  size : fs'.size = fs.size
  mem : ∀ b ∈ l, fs'.used b = false ∧ fs'.block b = fun _ => 0
  notMem : ∀ b, b ∉ l → fs'.used b = fs.used b ∧ fs'.block b = fs.block b

theorem Frees.nil (hs : fs'.size = fs.size) (hu : fs'.used = fs.used) (hb : fs'.block = fs.block) :
    Frees [] fs fs' :=
  ⟨hs, fun _ h => absurd h List.not_mem_nil, fun _ _ => ⟨congrFun hu _, congrFun hb _⟩⟩

theorem Frees.append (h : Frees l fs fs') (h' : Frees l' fs' fs'') : Frees (l ++ l') fs fs'' where
  size := h'.size.trans h.size
  mem b hb := by
    by_cases hb' : b ∈ l'
    · exact h'.mem b hb'
    · obtain ⟨hu, hz⟩ := h.mem b ((List.mem_append.1 hb).resolve_right hb')
      obtain ⟨hu', hz'⟩ := h'.notMem b hb'
      exact ⟨hu'.trans hu, hz'.trans hz⟩
  notMem b hb := by
    obtain ⟨hl, hl'⟩ := not_or.1 (List.mem_append.not.1 hb)
    obtain ⟨hu, hz⟩ := h.notMem b hl
    obtain ⟨hu', hz'⟩ := h'.notMem b hl'
    exact ⟨hu'.trans hu, hz'.trans hz⟩

theorem bfree_eq (h : b < fs.size) (hu : fs.used b = true) :
    fs.bfree b = .ok ((fs.bwrite b fun _ => 0).setUsed b false) := by
  rw [bfree, bzero, bread, if_pos h]
  exact if_pos hu

theorem bfree_frees (fs : Fs) (b : ℕ) : Frees [b] fs ((fs.bwrite b fun _ => 0).setUsed b false) where
  size := rfl
  mem c hc := by
    rw [List.mem_singleton.1 hc]
    exact ⟨Function.update_self .., Function.update_self ..⟩
  notMem c hc := by
    have hne : c ≠ b := fun hcb => hc (List.mem_singleton.2 hcb)
    exact ⟨Function.update_of_ne hne .., Function.update_of_ne hne ..⟩

/-- A block that is freed is one of the disk. -/
theorem bfree_eq_ok (h : fs.bfree b = .ok fs') :
    b < fs.size ∧ fs'.size = fs.size ∧ fs'.ip = fs.ip := by
  unfold bfree bzero Fs.bread at h
  split_ifs at h with hlt
  · simp only [bind, Except.bind] at h
    split_ifs at h
    cases h
    exact ⟨hlt, rfl, rfl⟩
  · cases h

/-- What the loops find: the blocks of `l`, and then nothing -/
def Lists (f : ℕ → ℕ) (i k : ℕ) (l : List ℕ) : Prop :=
  l.length ≤ k ∧ ∀ j < k, f (i + j) = l.getD j 0

theorem Lists.head {f : ℕ → ℕ} (h : Lists f i (k + 1) l) : f i = l.getD 0 0 := h.2 0 (Nat.succ_pos k)

theorem Lists.tail {f g : ℕ → ℕ} (h : Lists f i (k + 1) l) (hg : ∀ j, i < j → g j = f j) :
    Lists g (i + 1) k l.tail := by
  refine ⟨by have := h.1; rw [List.length_tail]; omega, fun j hj => ?_⟩
  rw [hg _ (by omega), Nat.add_assoc, Nat.add_comm 1 j, h.2 (j + 1) (by omega)]
  cases l <;> rfl

/-- The blocks of `l` are in use. -/
def InUse (fs : Fs) (l : List ℕ) : Prop := l.Nodup ∧ ∀ b ∈ l, 0 < b ∧ b < fs.size ∧ fs.used b = true

theorem InUse.left (h : InUse fs (l ++ l')) : InUse fs l :=
  ⟨(List.nodup_append.1 h.1).1, fun b hb => h.2 b (List.mem_append_left l' hb)⟩

theorem InUse.right (h : InUse fs (l ++ l')) (hf : Frees l fs fs') : InUse fs' l' := by
  obtain ⟨-, hl', hdisj⟩ := List.nodup_append.1 h.1
  refine ⟨hl', fun b hb => ?_⟩
  obtain ⟨hpos, hlt, hu⟩ := h.2 b (List.mem_append_right l hb)
  have hne : b ∉ l := fun hbl => hdisj b hbl b hb rfl
  exact ⟨hpos, hf.size ▸ hlt, (hf.notMem b hne).1.trans hu⟩

/-- **The first loop** frees what it finds in the inode. -/
theorem truncDirect_frees (hl : Lists fs.ip.addrs i k l) (hu : InUse fs l) :
    ∃ fs', truncDirect k i fs = .ok fs' ∧ Frees l fs fs' ∧
      ∀ j, i + k ≤ j → fs'.ip.addrs j = fs.ip.addrs j := by
  induction k generalizing fs i l with
  | zero =>
    obtain rfl : l = [] := List.length_eq_zero_iff.1 (Nat.le_zero.1 hl.1)
    exact ⟨fs, rfl, Frees.nil rfl rfl rfl, fun _ _ => rfl⟩
  | succ k ih =>
    have hhead := hl.head
    rw [truncDirect]
    cases l with
    | nil =>
      obtain ⟨fs', hx, hf, ha⟩ := ih (hl.tail fun _ _ => rfl) hu
      exact ⟨fs', (if_neg (not_not.2 hhead)).trans hx, hf, fun j hj => ha j (by omega)⟩
    | cons b l =>
      have hb : fs.ip.addrs i = b := hhead
      obtain ⟨hpos, hlt, hused⟩ := hu.2 b List.mem_cons_self
      have hne : fs.ip.addrs i ≠ 0 := hb ▸ hpos.ne'
      have hf₁ : Frees [b] fs (((fs.bwrite b fun _ => 0).setUsed b false).setAddr i 0) :=
        ⟨rfl, (bfree_frees fs b).mem, (bfree_frees fs b).notMem⟩
      have hl₁ := hl.tail (g := (((fs.bwrite b fun _ => 0).setUsed b false).setAddr i 0).ip.addrs)
        fun j hj => by rw [setAddr_addrs, Function.update_of_ne hj.ne']; rfl
      obtain ⟨fs', hx, hf, ha⟩ := ih hl₁ (InUse.right hu hf₁)
      refine ⟨fs', ?_, hf₁.append hf, fun j hj => ?_⟩
      · rw [if_pos hne, hb, bfree_eq hlt hused]
        exact hx
      · rw [ha j (by omega), setAddr_addrs, Function.update_of_ne (by omega)]
        rfl

/-- **The second loop** frees what it finds in the indirect block. -/
theorem truncIndirect_frees (hl : Lists (entry data) i k l) (hu : InUse fs l) :
    ∃ fs', truncIndirect data k i fs = .ok fs' ∧ Frees l fs fs' ∧ fs'.ip = fs.ip := by
  induction k generalizing fs i l with
  | zero =>
    obtain rfl : l = [] := List.length_eq_zero_iff.1 (Nat.le_zero.1 hl.1)
    exact ⟨fs, rfl, Frees.nil rfl rfl rfl, rfl⟩
  | succ k ih =>
    have hhead := hl.head
    rw [truncIndirect]
    cases l with
    | nil =>
      obtain ⟨fs', hx, hf, ha⟩ := ih (hl.tail fun _ _ => rfl) hu
      exact ⟨fs', (if_neg (not_not.2 hhead)).trans hx, hf, ha⟩
    | cons b l =>
      have hb : entry data i = b := hhead
      obtain ⟨hpos, hlt, hused⟩ := hu.2 b List.mem_cons_self
      have hne : entry data i ≠ 0 := hb ▸ hpos.ne'
      have hf₁ := bfree_frees fs b
      obtain ⟨fs', hx, hf, ha⟩ := ih (hl.tail fun _ _ => rfl) (InUse.right hu hf₁)
      refine ⟨fs', ?_, hf₁.append hf, ha⟩
      rw [if_pos hne, hb, bfree_eq hlt hused]
      exact hx

/-- What the loops pass to `bfree` are blocks of the disk, if they end. -/
theorem truncDirect_eq_ok (h : truncDirect k i fs = .ok fs') :
    ∀ j < k, fs.ip.addrs (i + j) ≠ 0 → fs.ip.addrs (i + j) < fs.size := by
  induction k generalizing fs i with
  | zero => exact fun j hj => absurd hj (Nat.not_lt_zero j)
  | succ k ih =>
    intro j hj hne
    rw [truncDirect] at h
    split_ifs at h with hi
    · cases hb : fs.bfree (fs.ip.addrs i) with
      | error e => rw [hb] at h; cases h
      | ok fs₁ =>
        rw [hb] at h
        obtain ⟨hlt, hsize, hip⟩ := bfree_eq_ok hb
        cases j with
        | zero => exact hlt
        | succ j =>
          have hrest := ih h j (by omega)
          rw [setAddr_addrs, Function.update_of_ne (by omega), hip, setAddr_size, hsize,
            show i + 1 + j = i + (j + 1) by omega] at hrest
          exact hrest hne
    · cases j with
      | zero => exact absurd hne hi
      | succ j =>
        have hrest := ih h j (by omega)
        rw [show i + 1 + j = i + (j + 1) by omega] at hrest
        exact hrest hne

theorem truncIndirect_eq_ok (h : truncIndirect data k i fs = .ok fs') :
    ∀ j < k, entry data (i + j) ≠ 0 → entry data (i + j) < fs.size := by
  induction k generalizing fs i with
  | zero => exact fun j hj => absurd hj (Nat.not_lt_zero j)
  | succ k ih =>
    intro j hj hne
    rw [truncIndirect] at h
    split_ifs at h with hi
    · cases hb : fs.bfree (entry data i) with
      | error e => rw [hb] at h; cases h
      | ok fs₁ =>
        rw [hb] at h
        obtain ⟨hlt, hsize, -⟩ := bfree_eq_ok hb
        cases j with
        | zero => exact hlt
        | succ j =>
          have hrest := ih h j (by omega)
          rw [hsize, show i + 1 + j = i + (j + 1) by omega] at hrest
          exact hrest hne
    · cases j with
      | zero => exact absurd hne hi
      | succ j =>
        have hrest := ih h j (by omega)
        rw [show i + 1 + j = i + (j + 1) by omega] at hrest
        exact hrest hne

/-! ### `itrunc` -/

theorem Blocks.slot_eq_getD {bn : ℕ} (h : tag bn = 0) : A.slot tag bn = A.data.getD bn 0 := by
  rw [slot, List.getD_eq_getElem?_getD]
  cases A.data[bn]? with
  | none => rfl
  | some b =>
    rw [h]
    exact word_zero b

namespace Holds

theorem inUse (h : Holds fs A F tag) : InUse fs A.owned := by
  refine ⟨h.nodup, fun b hb => ?_⟩
  rw [h.used]
  exact h.owned b hb

theorem lists_direct (h : Holds fs A F tag) (h0 : ∀ bn < NDIRECT, tag bn = 0) :
    Lists fs.ip.addrs 0 NDIRECT (A.data.take NDIRECT) := by
  refine ⟨List.length_take_le _ _, fun j hj => ?_⟩
  rw [Nat.zero_add, h.direct j hj, Blocks.slot_eq_getD (h0 j hj), List.getD_eq_getElem?_getD,
    List.getD_eq_getElem?_getD, List.getElem?_take_of_lt hj]

theorem lists_indirect {p : ℕ} (h : Holds fs A F tag) (hp : A.ind = some p) (h0 : ∀ bn, tag bn = 0) :
    Lists (entry (fs.block p)) 0 NINDIRECT (A.data.drop NDIRECT) := by
  have hlen := h.length_le
  refine ⟨?_, fun j hj => ?_⟩
  · rw [List.length_drop]
    simp only [MAXFILE] at hlen
    omega
  · rw [Nat.zero_add, h.indirect p hp j hj, Blocks.slot_eq_getD (h0 _), List.getD_eq_getElem?_getD,
      List.getD_eq_getElem?_getD, List.getElem?_drop]

/-- An address that `bfree` finds on the disk has no checksum. -/
theorem tag_eq_zero {bn : ℕ} (h : Holds fs A F tag)
    (hlt : A.slot tag bn ≠ 0 → A.slot tag bn < fs.size) : tag bn = 0 := by
  cases hb : A.data[bn]? with
  | none => exact h.tag_behind bn (List.getElem?_eq_none_iff.1 hb)
  | some b =>
    obtain ⟨hpos, -, hb24⟩ := h.lt_of_data hb
    rw [Blocks.slot_of_some hb] at hlt
    exact (word_lt_iff hb24).1 ((hlt (word_ne_zero hpos)).trans_le h.size_le)

theorem mem_take {bn : ℕ} (hp : A.ind = some b) (h : Holds fs A F tag) : b ∉ A.data.take bn := by
  intro hb
  obtain ⟨j, hj⟩ := List.mem_iff_getElem?.1 (List.mem_of_mem_take hb)
  exact Blocks.ne_ind h.nodup hj hp rfl

/-- After the first loop, the indirect block is found as it was. -/
theorem truncDirect {p : ℕ} (h : Holds fs A F tag) (h0 : ∀ bn < NDIRECT, tag bn = 0) :
    ∃ fs₁, Fs.truncDirect NDIRECT 0 fs = .ok fs₁ ∧ Frees (A.data.take NDIRECT) fs fs₁ ∧
      fs₁.ip.addrs NDIRECT = A.ind.getD 0 ∧
      (A.ind = some p → fs₁.bread p = .ok (fs.block p) ∧ InUse fs₁ (A.data.drop NDIRECT ++ [p])) := by
  have howned : A.owned = A.data.take NDIRECT ++ (A.data.drop NDIRECT ++ A.ind.toList) := by
    rw [← List.append_assoc, List.take_append_drop]
    rfl
  have huse := h.inUse
  rw [howned] at huse
  obtain ⟨fs₁, hx, hf, ha⟩ := truncDirect_frees (h.lists_direct h0) huse.left
  refine ⟨fs₁, hx, hf, (ha NDIRECT (by omega)).trans h.pointer, fun hp => ⟨?_, ?_⟩⟩
  · rw [← (hf.notMem p (h.mem_take hp)).2, bread (hf.size ▸ (h.lt_of_ind hp).2)]
  · have hright := huse.right hf
    rw [hp] at hright
    exact hright

/-- **`itrunc` frees the blocks of the file**, if there are no checksums. -/
theorem itrunc_frees (h : Holds fs A F tag) (h0 : ∀ bn, tag bn = 0) :
    ∃ fs', fs.itrunc = .ok fs' ∧ Frees A.owned fs fs' := by
  unfold Fs.itrunc
  cases hp : A.ind with
  | none =>
    have hlen : A.data.length ≤ NDIRECT := not_lt.1 fun hlt => h.ind hlt hp
    obtain ⟨fs₁, hx, hf, hptr, -⟩ := h.truncDirect (p := 0) fun bn _ => h0 bn
    have hzero : fs₁.ip.addrs NDIRECT = 0 := by rw [hptr, hp, Option.getD_none]
    have howned : A.owned = A.data.take NDIRECT := by
      rw [List.take_of_length_le hlen]
      simp [Blocks.owned, hp]
    rw [hx, howned]
    exact ⟨_, if_neg (not_not.2 hzero), hf.size, hf.mem, hf.notMem⟩
  | some p =>
    obtain ⟨fs₁, hx, hf, hptr, hind⟩ := h.truncDirect (p := p) fun bn _ => h0 bn
    obtain ⟨hread, huse⟩ := hind hp
    obtain ⟨fs₂, hx₂, hf₂, hip⟩ := truncIndirect_frees (h.lists_indirect hp h0) huse.left
    obtain ⟨-, hlt, hused⟩ := (huse.right hf₂).2 p (List.mem_singleton_self p)
    have hp₁ : fs₁.ip.addrs NDIRECT = p := by rw [hptr, hp, Option.getD_some]
    have howned : A.owned = A.data.take NDIRECT ++ A.data.drop NDIRECT ++ [p] := by
      rw [List.take_append_drop]
      simp [Blocks.owned, hp]
    have hne : fs₁.ip.addrs NDIRECT ≠ 0 := hp₁ ▸ (h.lt_of_ind hp).1.ne'
    have hf₃ := (hf.append hf₂).append (bfree_frees fs₂ p)
    rw [hx, howned]
    refine ⟨((((fs₂.bwrite p fun _ => 0).setUsed p false).setAddr NDIRECT 0).setSize 0).iupdate,
      (if_pos hne).trans ?_, hf₃.size, hf₃.mem, hf₃.notMem⟩
    simp only [bind, Except.bind, hp₁, hread, hx₂, hip, bfree_eq hlt hused]

/-- **`itrunc` ends only if there are no checksums.** -/
theorem itrunc_eq_ok (h : Holds fs A F tag) (hx : fs.itrunc = .ok fs') : ∀ bn, tag bn = 0 := by
  unfold Fs.itrunc at hx
  have hdirect : ∀ bn < NDIRECT, tag bn = 0 := by
    intro bn hbn
    cases h₁ : Fs.truncDirect NDIRECT 0 fs with
    | error e => rw [h₁] at hx; cases hx
    | ok fs₁ =>
      have hlt := truncDirect_eq_ok h₁ bn hbn
      rw [Nat.zero_add, h.direct bn hbn] at hlt
      exact h.tag_eq_zero hlt
  intro bn
  by_cases hbn : bn < NDIRECT
  · exact hdirect bn hbn
  by_cases hlen : bn < A.data.length
  swap
  · exact h.tag_behind bn (not_lt.1 hlen)
  have hge := not_lt.1 hbn
  obtain ⟨p, hp⟩ := Option.ne_none_iff_exists'.1 (h.ind (hge.trans_lt hlen))
  obtain ⟨fs₁, h₁, hf, hptr, hind⟩ := h.truncDirect (p := p) hdirect
  have hp₁ : fs₁.ip.addrs NDIRECT = p := by rw [hptr, hp, Option.getD_some]
  have hne : p ≠ 0 := (h.lt_of_ind hp).1.ne'
  have hj : bn - NDIRECT < NINDIRECT := by
    have := h.length_le
    simp only [MAXFILE] at this
    omega
  rw [h₁] at hx
  simp only [bind, Except.bind, hp₁, if_pos hne, (hind hp).1] at hx
  cases h₂ : truncIndirect (fs.block p) NINDIRECT 0 fs₁ with
  | error e => rw [h₂] at hx; cases hx
  | ok fs₂ =>
    have hlt := truncIndirect_eq_ok h₂ (bn - NDIRECT) hj
    rw [Nat.zero_add, h.indirect p hp _ hj, Nat.add_sub_cancel' hge, hf.size] at hlt
    exact h.tag_eq_zero hlt

end Holds

/-! ### `balloc` again -/

/-- Several calls of `balloc`, and the blocks that they hand out -/
def ballocs : ℕ → Fs → Except Stop (List ℕ × Fs)
  | 0, fs => .ok ([], fs)
  | k + 1, fs => do
    let (b, fs) ← fs.balloc
    let (l, fs) ← ballocs k fs
    .ok (b :: l, fs)

theorem findFree_first {used : ℕ → Bool} {m : ℕ} (hu : ∀ c, b ≤ c → c < m → used c = true)
    (hm : used m = false) (hb : b ≤ m) (hlt : m < b + k) : findFree used k b = some m := by
  induction k generalizing b with
  | zero => omega
  | succ k ih =>
    rw [findFree]
    rcases Nat.eq_or_lt_of_le hb with rfl | hlt'
    · rw [hm]
      rfl
    · rw [if_pos (hu b le_rfl hlt')]
      exact ih (fun c hc => hu c (by omega)) hlt' (by omega)

/-- All unused blocks are handed out again: the smallest one is next. -/
theorem ballocs_all (fs : Fs) : ∃ k l fs', ballocs k fs = .ok (l, fs') ∧
    ∀ b < fs.size, fs.used b = false → b ∈ l := by
  -- the induction is on how many blocks are left above those known to be in use
  suffices hgo : ∀ d m (gs : Fs), gs.size = fs.size → fs.size ≤ m + d → (∀ c < m, gs.used c = true) →
      ∃ k l gs', ballocs k gs = .ok (l, gs') ∧ ∀ b < fs.size, gs.used b = false → b ∈ l from
    hgo fs.size 0 fs rfl (Nat.le_add_left ..) fun c hc => absurd hc (Nat.not_lt_zero c)
  intro d
  induction d with
  | zero =>
    intro m gs _ hle hu
    refine ⟨0, [], gs, rfl, fun b hb hbu => ?_⟩
    rw [hu b (by omega)] at hbu
    cases hbu
  | succ d ih =>
    intro m gs hsize hle hu
    by_cases hm : gs.used m = true
    · exact ih (m + 1) gs hsize (by omega) fun c hc => by
        rcases Nat.lt_succ_iff_lt_or_eq.1 hc with hc | rfl
        · exact hu c hc
        · exact hm
    by_cases hmlt : m < fs.size
    swap
    · refine ⟨0, [], gs, rfl, fun b hb hbu => ?_⟩
      rw [hu b (by omega)] at hbu
      cases hbu
    have hfirst : gs.balloc = .ok (m, gs.setUsed m true) := by
      rw [balloc, findFree_first (fun c _ hc => hu c hc) (Bool.eq_false_of_not_eq_true hm)
        (Nat.zero_le m) (by simp only [BPB, BSIZE]; omega)]
    obtain ⟨k, l, gs', hx, hl⟩ := ih (m + 1) (gs.setUsed m true) hsize (by omega) fun c hc => by
      rw [setUsed_used]
      rcases Nat.lt_succ_iff_lt_or_eq.1 hc with hc | rfl
      · rw [Function.update_of_ne hc.ne]
        exact hu c hc
      · exact Function.update_self ..
    refine ⟨k + 1, m :: l, gs', ?_, fun b hb hbu => ?_⟩
    · simp only [ballocs, hfirst, bind, Except.bind, hx]
    · rcases eq_or_ne b m with rfl | hne
      · exact List.mem_cons_self
      · refine List.mem_cons_of_mem m (hl b hb ?_)
        rw [setUsed_used, Function.update_of_ne hne]
        exact hbu

/-! ### `iput` -/

/-- `bmap` allocated the block `b` to the inode: a data block, or the indirect block. -/
def Owns (fs : Fs) (b : ℕ) : Prop :=
  (∃ bn, BSIZE * bn < fs.ip.size ∧ fs.bmap bn = .ok (b, fs)) ∨
  (BSIZE * NDIRECT < fs.ip.size ∧ fs.ip.addrs NDIRECT = b)

theorem Stored.owns_iff (h : Stored t fs A F tag) : Owns fs b ↔ b ∈ A.owned := by
  rw [Blocks.mem_owned]
  unfold Owns
  refine or_congr ⟨?_, ?_⟩ ⟨?_, fun hp => ?_⟩
  · rintro ⟨bn, hlt, hb⟩
    have hdata := List.getElem?_eq_getElem (h.lt_length_iff.2 hlt)
    have heq := Except.ok.inj ((h.bmap hdata).symm.trans hb)
    exact ⟨bn, hdata.trans (congrArg some (Prod.ext_iff.1 heq).1)⟩
  · rintro ⟨bn, hb⟩
    exact ⟨bn, h.lt_length_iff.1 (List.getElem?_eq_some_iff.1 hb).1, h.bmap hb⟩
  · rintro ⟨hlt, hb⟩
    obtain ⟨p, hp⟩ := Option.ne_none_iff_exists'.1 (h.ind (h.lt_length_iff.2 hlt))
    rw [h.pointer, hp, Option.getD_some] at hb
    rw [hp, hb]
  · refine ⟨h.lt_length_iff.1 (h.tight.ind (by rw [hp]; exact Option.some_ne_none b)), ?_⟩
    rw [h.pointer, hp, Option.getD_some]

/-- The state in which the last link to the inode is gone and its last user calls `iput` -/
def unlinked (fs : Fs) : Fs := iupdate { fs with ip := { fs.ip with nlink := 0, busy := false } }

/-- The file is gone: exactly its blocks are free and zero, and `balloc` can hand them out again. -/
structure Released (fs fs' : Fs) : Prop where
  used : ∀ b, Owns fs b → fs'.used b = false
  block : ∀ b, Owns fs b → fs'.block b = fun _ => 0
  used_other : ∀ b, ¬ Owns fs b → fs'.used b = fs.used b
  block_other : ∀ b, ¬ Owns fs b → fs'.block b = fs.block b
  again : ∃ k l fs'', ballocs k fs' = .ok (l, fs'') ∧ ∀ b, Owns fs b → b ∈ l

/-- The end of `iput` after `itrunc` -/
def putFree (fs : Fs) : Fs :=
  let fs := iupdate { fs with ip := { fs.ip with type := .free } }
  { fs with ip := { fs.ip with busy := false, valid := false, ref := fs.ip.ref - 1 } }

theorem iput_unlinked (h : Stored t fs A F tag) :
    fs.unlinked.iput = (itrunc { fs.unlinked with ip := { fs.unlinked.ip with busy := true } }).bind
      fun fs => .ok fs.putFree := by
  unfold iput
  rw [if_pos ⟨h.ref, h.valid, rfl⟩]
  rfl

/-- **`iput` releases a checked file** if and only if all checksums that are stored with the
addresses of its blocks are 0. -/
theorem released_iff (cs : List Call) (h : calls.run (D.create .checked) cs = some fs) :
    (∃ fs', fs.unlinked.iput = .ok fs' ∧ Released fs fs') ↔
      ∀ bn, BSIZE * bn < fs.ip.size → fs.storedChecksum bn 0 = .ok 0 := by
  obtain ⟨A, F, tag, hs⟩ := stored_of_run h
  have hbusy : Holds { fs.unlinked with ip := { fs.unlinked.ip with busy := true } } A F tag :=
    { hs.toHolds with }
  have htag : (∀ bn, BSIZE * bn < fs.ip.size → fs.storedChecksum bn 0 = .ok 0) ↔ ∀ bn, tag bn = 0 := by
    refine ⟨fun hall bn => ?_, fun h0 bn hbn => ?_⟩
    · by_cases hbn : bn < A.data.length
      · have hsum := hs.storedChecksum (List.getElem?_eq_getElem hbn) 0
        rw [hall bn (hs.lt_length_iff.1 hbn)] at hsum
        exact (Except.ok.inj hsum).symm
      · exact hs.tag_behind bn (not_lt.1 hbn)
    · rw [hs.storedChecksum (List.getElem?_eq_getElem (hs.lt_length_iff.2 hbn)), h0]
  rw [htag, iput_unlinked hs]
  constructor
  · rintro ⟨fs', hx, -⟩
    cases htr : itrunc { fs.unlinked with ip := { fs.unlinked.ip with busy := true } } with
    | error e => rw [htr] at hx; cases hx
    | ok fs₁ => exact hbusy.itrunc_eq_ok htr
  · intro h0
    obtain ⟨fs₁, htr, hf⟩ := hbusy.itrunc_frees h0
    refine ⟨fs₁.putFree, by rw [htr]; rfl, fun b hb => (hf.mem b (hs.owns_iff.1 hb)).1,
      fun b hb => (hf.mem b (hs.owns_iff.1 hb)).2, fun b hb => (hf.notMem b (hs.owns_iff.not.1 hb)).1,
      fun b hb => (hf.notMem b (hs.owns_iff.not.1 hb)).2, ?_⟩
    obtain ⟨k, l, fs'', hx, hl⟩ := ballocs_all fs₁.putFree
    refine ⟨k, l, fs'', hx, fun b hb => hl b ?_ (hf.mem b (hs.owns_iff.1 hb)).1⟩
    exact (hs.owned b (hs.owns_iff.1 hb)).2.1.trans_eq hf.size.symm

/-- A file of two equal bytes -/
theorem released_equal : ∃ fs fs', calls.run (mkfs.create .checked) [.write (fun _ => 1) 0 2] = some fs ∧
    fs.unlinked.iput = .ok fs' ∧ Released fs fs' := by
  have hrun : (calls.run (mkfs.create .checked) [.write (fun _ => 1) 0 2]).map (fun fs : Fs =>
      (fs.ip.size, (fs.storedChecksum 0 0).toOption)) = some (2, some 0) := by
    decide +kernel
  obtain ⟨fs, hfs, heq⟩ := Option.map_eq_some_iff.1 hrun
  obtain ⟨hsize, hsum⟩ := Prod.ext_iff.1 heq
  have hsize : fs.ip.size = 2 := hsize
  obtain ⟨fs', hx, hrel⟩ := (released_iff _ hfs).2 fun bn hbn => by
    obtain rfl : bn = 0 := by
      rw [hsize] at hbn
      simp only [BSIZE] at hbn
      omega
    cases h : fs.storedChecksum 0 0 with
    | error e => rw [h] at hsum; cases hsum
    | ok c => rw [h] at hsum; cases hsum; rfl
  exact ⟨fs, fs', hfs, hx, hrel⟩

theorem not_released : ¬ ∀ (D : Image) (cs : List Call) (fs : Fs),
    calls.run (D.create .checked) cs = some fs → ∃ fs', fs.unlinked.iput = .ok fs' ∧ Released fs fs' := by
  intro h
  have hrun : (calls.run (mkfs.create .checked) [.write (fun _ => 1) 0 1]).map (fun fs : Fs =>
      fs.unlinked.iput.toOption.isSome) = some false := by
    decide +kernel
  obtain ⟨fs, hfs, hnone⟩ := Option.map_eq_some_iff.1 hrun
  obtain ⟨fs', hx, -⟩ := h mkfs _ fs hfs
  rw [hx] at hnone
  cases hnone

end Fs

end OperatingSystems

import OperatingSystems.Fs.Layout

/-!
# Finding and adding blocks

What `bmap` and the parts of an iteration of `writei` do to a file that lies in its blocks.

* `Holds.addInd`, `Holds.addData` : a new block in the list of the blocks.
* `Holds.fetch` : `bmap` finds a block of the file.
* `Holds.fetch_grow` : **behind the last block, `bmap` adds a block**, or stops.
* `Holds.setChecksum` : the checksum of a block is stored.
* `Holds.bwrite` : a block is written.
-/

namespace OperatingSystems

namespace Fs

open Bytes

variable {fs fs' : Fs} {A : Blocks} {F F' : File} {tag : ℕ → UInt8} {bn b p : ℕ}

/-! ### New blocks -/

namespace Blocks

theorem owned_addInd (h : A.ind = none) : (A.addInd p).owned.Perm (p :: A.owned) := by
  have hnil : A.owned = A.data := by simp [owned, h]
  rw [hnil]
  exact List.perm_append_singleton p A.data

theorem owned_addData : (A.addData b).owned.Perm (b :: A.owned) := by
  unfold owned addData
  rw [List.append_assoc, List.singleton_append]
  exact List.perm_middle

end Blocks

namespace Holds

/-- A block that is taken is new. -/
theorem takeFree (h : Holds fs A F tag) (hb : takeFree fs.size A.used = .ok b) :
    0 < b ∧ b < fs.size ∧ A.used b = false ∧ b ∉ A.owned := by
  obtain ⟨hlt, hused⟩ := takeFree_eq_ok hb
  refine ⟨Nat.pos_of_ne_zero ?_, hlt, hused, fun hmem => ?_⟩
  · rintro rfl
    rw [h.boot.2.1] at hused
    cases hused
  · rw [(h.owned b hmem).2.2] at hused
    cases hused

theorem lt_of_data (h : Holds fs A F tag) (hb : A.data[bn]? = some b) :
    0 < b ∧ b < fs.size ∧ b < 2 ^ 24 := by
  obtain ⟨hpos, hlt, -⟩ := h.owned b (Blocks.mem_owned_of_data hb)
  exact ⟨hpos, hlt, hlt.trans_le h.size_le⟩

theorem lt_of_ind (h : Holds fs A F tag) (hp : A.ind = some p) : 0 < p ∧ p < fs.size :=
  let ⟨hpos, hlt, _⟩ := h.owned p (Blocks.mem_owned_of_ind hp)
  ⟨hpos, hlt⟩

/-- What lists a block gives its checksum; behind the last block there is none. -/
theorem checksum_slot {tag' : ℕ → UInt8} (h : Holds fs A F tag)
    (h0 : ∀ bn, A.data.length ≤ bn → tag' bn = 0) (bn : ℕ) :
    checksum (A.slot tag' bn) = tag' bn := by
  cases hb : A.data[bn]? with
  | some b => rw [Blocks.slot_of_some hb, checksum_word (h.lt_of_data hb).2.2]
  | none =>
    have hle := List.getElem?_eq_none_iff.1 hb
    rw [Blocks.slot_of_le hle, h0 bn hle, checksum_zero]

theorem bread (h : b < fs.size) : fs.bread b = .ok (fs.block b) := if_pos h

/-- What was owned and what is new is in use. -/
theorem owned_cons (h : Holds fs A F tag) (hb : Fs.takeFree fs.size A.used = .ok b) {l : List ℕ}
    (hl : l.Perm (b :: A.owned)) :
    l.Nodup ∧ ∀ c ∈ l, 0 < c ∧ c < fs.size ∧ Function.update A.used b true c = true := by
  obtain ⟨hpos, hlt, -, hnew⟩ := h.takeFree hb
  refine ⟨hl.nodup_iff.2 (List.nodup_cons.2 ⟨hnew, h.nodup⟩), fun c hc => ?_⟩
  rcases List.mem_cons.1 (hl.mem_iff.1 hc) with rfl | hc
  · exact ⟨hpos, hlt, Function.update_self ..⟩
  · obtain ⟨hpos', hlt', hused⟩ := h.owned c hc
    refine ⟨hpos', hlt', ?_⟩
    rw [Function.update_of_ne (ne_of_mem_of_not_mem hc hnew)]
    exact hused

/-- The blocks that stay unused were unused. -/
theorem unused_of_update {used : ℕ → Bool} {c : ℕ} (h : Function.update used b true c = false) :
    c ≠ b ∧ used c = false := by
  rcases eq_or_ne c b with rfl | hne
  · rw [Function.update_self] at h
    cases h
  · exact ⟨hne, by rwa [Function.update_of_ne hne] at h⟩

theorem addInd (h : Holds fs A F tag) (hind : A.ind = none)
    (hp : Fs.takeFree fs.size A.used = .ok p) :
    Holds ((fs.setUsed p true).setAddr NDIRECT p) (A.addInd p) F tag := by
  obtain ⟨hpos, hlt, hused, hnew⟩ := h.takeFree hp
  obtain ⟨hnodup, howned⟩ := h.owned_cons hp (Blocks.owned_addInd hind)
  have hlen : A.data.length ≤ NDIRECT := not_lt.1 fun hlt => h.ind hlt hind
  exact {
    size_le := h.size_le
    used := by
      rw [setAddr_used, setUsed_used, h.used]
      rfl
    length_le := h.length_le
    direct := fun bn hbn => by
      rw [setAddr_addrs, Function.update_of_ne hbn.ne]
      exact h.direct bn hbn
    pointer := by
      rw [setAddr_addrs, Function.update_self]
      rfl
    indirect := fun q hq j hj => by
      cases hq
      have hzero : entry (fs.block p) j = 0 := by
        rw [entry_congr (h.free p hlt hused) hj, entry_zero]
      exact hzero.trans (Blocks.slot_of_le (hlen.trans (Nat.le_add_right _ _))).symm
    ind := fun _ hnone => by cases hnone
    owned := howned
    nodup := hnodup
    free := fun c hc hcu => h.free c hc (unused_of_update hcu).2
    boot := ⟨h.boot.1, (Function.update_of_ne hpos.ne _ _).trans h.boot.2.1, h.boot.2.2⟩
    contents := h.contents
    behind := h.behind
    tag_behind := h.tag_behind
    plain := h.plain
    length := h.length
    length_le_blocks := h.length_le_blocks }

/-- A block is listed behind the last one; the indirect block may have been written for it. -/
theorem addData (h : Holds fs A F tag) (hb : Fs.takeFree fs.size A.used = .ok b)
    (hlt : A.data.length < MAXFILE) (hind : NDIRECT ≤ A.data.length → A.ind ≠ none)
    (hsame : Same fs fs') (hused : fs'.used = Function.update fs.used b true)
    (hdirect : ∀ bn < NDIRECT, fs'.ip.addrs bn = (A.addData b).slot tag bn)
    (hpointer : fs'.ip.addrs NDIRECT = fs.ip.addrs NDIRECT)
    (hentry : ∀ p, A.ind = some p → ∀ j < NINDIRECT,
      entry (fs'.block p) j = (A.addData b).slot tag (NDIRECT + j))
    (hblock : ∀ c, A.ind ≠ some c → fs'.block c = fs.block c) :
    Holds fs' (A.addData b) F tag := by
  obtain ⟨hpos, hltb, hfree, hnew⟩ := h.takeFree hb
  obtain ⟨hnodup, howned⟩ := h.owned_cons hb Blocks.owned_addData
  have hother : ∀ c, c ∉ A.owned → fs'.block c = fs.block c := fun c hc =>
    hblock c fun hp => hc (Blocks.mem_owned_of_ind hp)
  have hlen : (A.addData b).data.length = A.data.length + 1 := List.length_append
  have hboot : 0 ∉ A.owned := fun h0 => absurd (h.owned 0 h0).1 (lt_irrefl 0)
  refine {
    size_le := hsame.size ▸ h.size_le
    used := by rw [hused, h.used]; rfl
    length_le := hlen ▸ hlt
    direct := hdirect
    pointer := hpointer.trans h.pointer
    indirect := hentry
    ind := fun hi => hind (Nat.lt_succ_iff.1 (hi.trans_eq hlen))
    owned := fun c hc => ?_
    nodup := hnodup
    free := fun c hc hcu => ?_
    boot := ⟨hsame.size ▸ h.boot.1, (Function.update_of_ne hpos.ne _ _).trans h.boot.2.1, ?_⟩
    contents := fun bn c hc => ?_
    behind := fun a ha => h.behind a ?_
    tag_behind := fun bn hbn => h.tag_behind bn ?_
    plain := fun ht => h.plain (hsame.type ▸ ht)
    length := hsame.length.trans h.length
    length_le_blocks := h.length_le_blocks.trans (Nat.mul_le_mul_left _ ?_) }
  · rw [hsame.size]
    exact howned c hc
  · obtain ⟨-, hcu⟩ := unused_of_update hcu
    rw [hsame.size] at hc
    rw [hother c fun hmem => by rw [(h.owned c hmem).2.2] at hcu; cases hcu]
    exact h.free c hc hcu
  · rw [hother 0 hboot]
    exact h.boot.2.2
  · rcases Nat.lt_or_ge bn A.data.length with hbn | hbn
    · have hc' : A.data[bn]? = some c := by
        rw [← hc]
        exact (List.getElem?_append_left hbn).symm
      rw [hblock c fun hp => Blocks.ne_ind h.nodup hc' hp rfl]
      exact h.contents bn c hc'
    · -- an unused block holds zeros, as the file does behind its end
      have hbn' : bn < A.data.length + 1 := hlen ▸ (List.getElem?_eq_some_iff.1 hc).1
      have hcb : c = b := by
        rw [show bn = A.data.length by omega] at hc
        simpa [Blocks.addData] using hc.symm
      rw [hcb, hother b hnew]
      refine (h.free b hltb hfree).trans fun i _ => (h.behind _ ?_).symm
      have := Nat.mul_le_mul_left BSIZE hbn
      omega
  · rw [hlen, Nat.mul_succ] at ha
    omega
  · omega
  · omega

/-! ### `bmap` -/

theorem mask_word {c : UInt8} (hc : fs.ip.type ≠ .checked → c = 0) (hb : b < 2 ^ 24) :
    fs.mask (word c b) = b := by
  unfold mask
  split_ifs with ht
  · exact word_and hb
  · rw [hc ht, word_zero]

theorem addrAt_of_ne_zero {i : ℕ} (h : fs.ip.addrs i ≠ 0) :
    fs.addrAt i = .ok (fs.ip.addrs i, fs) := if_neg h

/-- The indirect block, if the file has it -/
theorem addrAt_ind (h : Holds fs A F tag) (hp : A.ind = some p) :
    fs.addrAt NDIRECT = .ok (p, fs) := by
  have haddr : fs.ip.addrs NDIRECT = p := by rw [h.pointer, hp, Option.getD_some]
  have hne : fs.ip.addrs NDIRECT ≠ 0 := by
    rw [haddr]
    exact (h.lt_of_ind hp).1.ne'
  rw [addrAt_of_ne_zero hne, haddr]

theorem entryAt_of_ne_zero {j : ℕ} (hp : p < fs.size) (h : entry (fs.block p) j ≠ 0) :
    fs.entryAt p j = .ok (entry (fs.block p) j, fs) := by
  rw [entryAt, bread hp]
  exact if_neg h

/-- **`bmap` finds a block of the file.** -/
theorem bmap (h : Holds fs A F tag) (hb : A.data[bn]? = some b) : fs.bmap bn = .ok (b, fs) := by
  obtain ⟨hpos, -, hlt⟩ := h.lt_of_data hb
  have hbn : bn < A.data.length := (List.getElem?_eq_some_iff.1 hb).1
  have hslot : A.slot tag bn = word (tag bn) b := Blocks.slot_of_some hb
  have hmask : fs.mask (word (tag bn) b) = b := mask_word (fun ht => h.plain ht bn) hlt
  unfold Fs.bmap
  by_cases hdir : bn < NDIRECT
  · have haddr : fs.ip.addrs bn = word (tag bn) b := (h.direct bn hdir).trans hslot
    have hne : fs.ip.addrs bn ≠ 0 := haddr ▸ word_ne_zero hpos
    rw [if_pos hdir, addrAt_of_ne_zero hne, haddr]
    exact congrArg (fun a => Except.ok (a, fs)) hmask
  · have hj : bn - NDIRECT < NINDIRECT := by
      have := h.length_le
      simp only [MAXFILE] at this
      omega
    obtain ⟨p, hp⟩ := Option.ne_none_iff_exists'.1 (h.ind (by omega))
    have hent : entry (fs.block p) (bn - NDIRECT) = word (tag bn) b := by
      rw [h.indirect p hp _ hj, Nat.add_sub_cancel' (not_lt.1 hdir), hslot]
    have hat := entryAt_of_ne_zero (h.lt_of_ind hp).2 (hent ▸ word_ne_zero hpos)
    rw [hent] at hat
    rw [if_neg hdir, if_pos hj, h.addrAt_ind hp]
    simp only [bind, Except.bind, hat, hmask]

theorem fetch (h : Holds fs A F tag) (hb : A.data[bn]? = some b) :
    fs.fetch bn = .ok (b, fs.block b, fs) := by
  rw [Fs.fetch, h.bmap hb]
  simp only [bind, Except.bind, bread (h.lt_of_data hb).2.1]

/-! ### A block more -/

/-- `balloc` takes a block, or one that the disk does not have, or there is none. -/
theorem balloc (h : Holds fs A F tag) :
    (∃ b, Fs.takeFree fs.size A.used = .ok b ∧ fs.balloc = .ok (b, fs.setUsed b true)) ∨
    (∃ b, Fs.takeFree fs.size A.used = .error .fault ∧ fs.balloc = .ok (b, fs.setUsed b true) ∧
      fs.size ≤ b ∧ b < 2 ^ 24) ∨
    ∃ e, Fs.takeFree fs.size A.used = .error e ∧ fs.balloc = .error e := by
  unfold Fs.takeFree Fs.balloc
  rw [h.used]
  cases hfree : findFree A.used ((fs.size + BPB - 1) / BPB * BPB) 0 with
  | none => exact Or.inr (Or.inr ⟨_, rfl, rfl⟩)
  | some b =>
    by_cases hb : b < fs.size
    · exact Or.inl ⟨b, if_pos hb, rfl⟩
    · have hlt := (findFree_eq_some hfree).2
      have hle := h.size_le
      simp only [BPB, BSIZE] at hlt
      exact Or.inr (Or.inl ⟨b, if_neg hb, rfl, by omega, by omega⟩)

/-- The end of `fetch`, where the address of the block is known -/
def fetchAt (fs : Fs) (addr : ℕ) : Except Stop (ℕ × Bytes × Fs) := do
  let data ← fs.bread (fs.mask addr)
  .ok (fs.mask addr, data, fs)

theorem fetch_direct (h : bn < NDIRECT) :
    fs.fetch bn = (fs.addrAt bn).bind fun x => fetchAt x.2 x.1 := by
  rw [Fs.fetch, Fs.bmap, if_pos h]
  cases fs.addrAt bn <;> rfl

theorem fetch_indirect (h : ¬ bn < NDIRECT) (hlt : bn < MAXFILE) :
    fs.fetch bn = (fs.addrAt NDIRECT).bind fun x =>
      (x.2.entryAt x.1 (bn - NDIRECT)).bind fun y => fetchAt y.2 y.1 := by
  have hj : bn - NDIRECT < NINDIRECT := by
    simp only [MAXFILE] at hlt
    omega
  rw [Fs.fetch, Fs.bmap, if_neg h, if_pos hj]
  cases fs.addrAt NDIRECT with
  | error e => rfl
  | ok x =>
    simp only [bind, Except.bind]
    cases x.2.entryAt x.1 (bn - NDIRECT) <;> rfl

theorem fetchAt_new (hb : b < 2 ^ 24) :
    fetchAt fs b = if b < fs.size then .ok (b, fs.block b, fs) else .error .fault := by
  have hmask : fs.mask b = b := by
    rw [← word_zero b]
    exact (mask_word (fun _ => rfl) hb).trans (word_zero b).symm
  rw [fetchAt, hmask, Fs.bread]
  split_ifs <;> rfl

/-- What `bmap` returns behind the last block: a new one, listed in the inode or the indirect block -/
def Fetches (fs : Fs) (A : Blocks) (F : File) (tag : ℕ → UInt8) (r : Except Stop Blocks)
    (x : Except Stop (ℕ × Bytes × Fs)) : Prop :=
  match r with
  | .ok A' => ∃ b fs', A'.data = A.data ++ [b] ∧ x = .ok (b, fs'.block b, fs') ∧
      Holds fs' A' F tag ∧ Same fs fs'
  | .error e => x = .error e

theorem Fetches.of_same {A' : Blocks} {r : Except Stop Blocks} {x : Except Stop (ℕ × Bytes × Fs)}
    (hs : Same fs fs') (hA : A'.data = A.data) (h : Fetches fs' A' F tag r x) :
    Fetches fs A F tag r x := by
  cases r with
  | error e => exact h
  | ok A'' =>
    obtain ⟨b, fs'', hdata, hx, hholds, hsame⟩ := h
    exact ⟨b, fs'', hA ▸ hdata, hx, hholds, hs.trans hsame⟩

/-- In the inode -/
theorem fetch_growDirect (h : Holds fs A F tag) (hlt : A.data.length < NDIRECT) :
    Fetches fs A F tag ((Fs.takeFree fs.size A.used).map A.addData) (fs.fetch A.data.length) := by
  have hzero : fs.ip.addrs A.data.length = 0 :=
    (h.direct _ hlt).trans (Blocks.slot_of_le le_rfl)
  rw [fetch_direct hlt, addrAt, if_pos hzero]
  obtain ⟨b, htake, hb⟩ | ⟨b, htake, hb, hle, hb'⟩ | ⟨e, htake, hb⟩ := h.balloc
  · obtain ⟨hpos, hltb, -⟩ := h.takeFree htake
    rw [htake, hb]
    refine ⟨b, (fs.setUsed b true).setAddr A.data.length b, rfl, ?_, ?_, ⟨rfl, rfl, _, rfl⟩⟩
    · exact (fetchAt_new (hltb.trans_le h.size_le)).trans (if_pos hltb)
    · refine h.addData htake (hlt.trans (by decide)) (fun hge => absurd hlt hge.not_gt)
        ⟨rfl, rfl, _, rfl⟩ rfl (fun bn hbn => ?_) ?_ (fun p hp j hj => ?_) (fun _ _ => rfl)
      · rw [setAddr_addrs]
        rcases eq_or_ne bn A.data.length with rfl | hne
        · rw [Function.update_self, Blocks.slot_addData_self, h.tag_behind _ le_rfl, word_zero]
        · rw [Function.update_of_ne hne, Blocks.slot_addData_of_ne hne]
          exact h.direct bn hbn
      · rw [setAddr_addrs, Function.update_of_ne hlt.ne']
        rfl
      · rw [Blocks.slot_addData_of_ne (by omega)]
        exact h.indirect p hp j hj
  · rw [htake, hb]
    exact (fetchAt_new hb').trans (if_neg (not_lt.2 hle))
  · rw [htake, hb]
    rfl

/-- In the indirect block -/
theorem fetch_growIndirect (h : Holds fs A F tag) (hp : A.ind = some p)
    (hge : NDIRECT ≤ A.data.length) (hlt : A.data.length < MAXFILE) :
    Fetches fs A F tag ((Fs.takeFree fs.size A.used).map A.addData)
      ((fs.entryAt p (A.data.length - NDIRECT)).bind fun y => fetchAt y.2 y.1) := by
  have hj : A.data.length - NDIRECT < NINDIRECT := by
    simp only [MAXFILE] at hlt
    omega
  have hzero : entry (fs.block p) (A.data.length - NDIRECT) = 0 := by
    rw [h.indirect p hp _ hj, Nat.add_sub_cancel' hge]
    exact Blocks.slot_of_le le_rfl
  have hat : fs.entryAt p (A.data.length - NDIRECT) = fs.balloc.bind fun x =>
      .ok (x.1, x.2.bwrite p (setEntry (fs.block p) (A.data.length - NDIRECT) x.1)) := by
    rw [entryAt, bread (h.lt_of_ind hp).2]
    exact if_pos hzero
  rw [hat]
  obtain ⟨b, htake, hb⟩ | ⟨b, htake, hb, hle, hb'⟩ | ⟨e, htake, hb⟩ := h.balloc
  · obtain ⟨hpos, hltb, -⟩ := h.takeFree htake
    have hb24 := hltb.trans_le h.size_le
    rw [htake, hb]
    refine ⟨b, (fs.setUsed b true).bwrite p (setEntry (fs.block p) (A.data.length - NDIRECT) b), rfl,
      ?_, ?_, ⟨rfl, rfl, _, rfl⟩⟩
    · exact (fetchAt_new hb24).trans (if_pos hltb)
    · refine h.addData htake hlt (fun _ hnone => by rw [hp] at hnone; cases hnone)
        ⟨rfl, rfl, _, rfl⟩ rfl (fun bn hbn => ?_) rfl (fun q hq j hjlt => ?_) (fun c hc => ?_)
      · rw [Blocks.slot_addData_of_ne (hbn.trans_le hge).ne]
        exact h.direct bn hbn
      · obtain rfl : p = q := Option.some.inj (hp.symm.trans hq)
        rw [bwrite_block, Function.update_self]
        rcases eq_or_ne (NDIRECT + j) A.data.length with heq | hne
        · rw [show j = A.data.length - NDIRECT by omega, entry_setEntry_self (hb24.trans (by decide)),
            Nat.add_sub_cancel' hge, Blocks.slot_addData_self, h.tag_behind _ le_rfl, word_zero]
        · rw [entry_setEntry_of_ne (by omega), Blocks.slot_addData_of_ne hne]
          exact h.indirect p hp j hjlt
      · exact Function.update_of_ne (fun hcp => hc (hp.trans (congrArg some hcp.symm))) _ _
  · rw [htake, hb]
    exact (fetchAt_new hb').trans (if_neg (not_lt.2 hle))
  · rw [htake, hb]
    rfl

/-- **Behind the last block, `bmap` adds a block**, or stops. -/
theorem fetch_grow (h : Holds fs A F tag) (hlt : A.data.length < MAXFILE) :
    Fetches fs A F tag (A.grow fs.size) (fs.fetch A.data.length) := by
  by_cases hdir : A.data.length < NDIRECT
  · have hgrow : A.grow fs.size = (Fs.takeFree fs.size A.used).map A.addData := by
      rw [Blocks.grow, if_pos hdir]
      rfl
    rw [hgrow]
    exact h.fetch_growDirect hdir
  have hge := not_lt.1 hdir
  rw [fetch_indirect hdir hlt]
  cases hind : A.ind with
  | some p =>
    have hgrow : A.grow fs.size = (Fs.takeFree fs.size A.used).map A.addData := by
      rw [Blocks.grow, if_neg hdir, Blocks.growInd, hind]
      rfl
    rw [hgrow, h.addrAt_ind hind]
    exact h.fetch_growIndirect hind hge hlt
  | none =>
    have hgrow : A.grow fs.size = (Fs.takeFree fs.size A.used).bind fun p =>
        (Fs.takeFree fs.size (A.addInd p).used).map (A.addInd p).addData := by
      rw [Blocks.grow, if_neg hdir, Blocks.growInd, hind]
      cases Fs.takeFree fs.size A.used <;> rfl
    have hzero : fs.ip.addrs NDIRECT = 0 := by rw [h.pointer, hind, Option.getD_none]
    rw [hgrow, addrAt, if_pos hzero]
    obtain ⟨p, htake, hb⟩ | ⟨p, htake, hb, hle, -⟩ | ⟨e, htake, hb⟩ := h.balloc
    · have h' := (h.addInd hind htake).fetch_growIndirect (p := p) rfl hge hlt
      have hs : Same fs ((fs.setUsed p true).setAddr NDIRECT p) := ⟨rfl, rfl, _, rfl⟩
      have hfetch : Fetches fs A F tag _ _ := h'.of_same hs rfl
      rw [htake, hb]
      exact hfetch
    · rw [htake, hb]
      have hfault : ((fs.setUsed p true).setAddr NDIRECT p).entryAt p (A.data.length - NDIRECT) =
          .error .fault := by
        rw [entryAt, Fs.bread, setAddr_size, setUsed_size, if_neg (not_lt.2 hle)]
        rfl
      show (Fs.entryAt _ p _).bind _ = _
      rw [hfault]
      rfl
    · rw [htake, hb]
      rfl

/-! ### Stores -/

/-- The checksum of a block is changed; it may be in the indirect block. -/
theorem retag {c : UInt8} (h : Holds fs A F tag) (hb : A.data[bn]? = some b)
    (ht : fs.ip.type = .checked) (hsame : Same fs fs') (hused : fs'.used = fs.used)
    (hdirect : ∀ i < NDIRECT, fs'.ip.addrs i = A.slot (Function.update tag bn c) i)
    (hpointer : fs'.ip.addrs NDIRECT = fs.ip.addrs NDIRECT)
    (hentry : ∀ p, A.ind = some p → ∀ j < NINDIRECT,
      entry (fs'.block p) j = A.slot (Function.update tag bn c) (NDIRECT + j))
    (hblock : ∀ d, A.ind ≠ some d → fs'.block d = fs.block d) :
    Holds fs' A F (Function.update tag bn c) where
  size_le := hsame.size ▸ h.size_le
  used := hused.trans h.used
  length_le := h.length_le
  direct := hdirect
  pointer := hpointer.trans h.pointer
  indirect := hentry
  ind := h.ind
  owned := hsame.size ▸ h.owned
  nodup := h.nodup
  free d hd hdu := by
    rw [hblock d fun hp => by
      rw [(h.owned d (Blocks.mem_owned_of_ind hp)).2.2] at hdu
      cases hdu]
    exact h.free d (hsame.size ▸ hd) hdu
  boot := by
    have h0 : A.ind ≠ some 0 := fun hp => absurd (h.lt_of_ind hp).1 (lt_irrefl 0)
    rw [hsame.size, hblock 0 h0]
    exact h.boot
  contents i d hd := by
    rw [hblock d fun hp => Blocks.ne_ind h.nodup hd hp rfl]
    exact h.contents i d hd
  behind := h.behind
  tag_behind i hi := by
    have hbn : bn < A.data.length := (List.getElem?_eq_some_iff.1 hb).1
    rw [Function.update_of_ne (by omega)]
    exact h.tag_behind i hi
  plain hp := absurd (hsame.type.trans ht) hp
  length := hsame.length.trans h.length
  length_le_blocks := h.length_le_blocks

/-- **The checksum of a block is stored.** -/
theorem setChecksum (h : Holds fs A F tag) (hb : A.data[bn]? = some b) (ht : fs.ip.type = .checked)
    (c : UInt8) : ∃ fs', fs.setChecksum bn c = .ok fs' ∧ Holds fs' A F (Function.update tag bn c) ∧
      Same fs fs' ∧ fs'.block b = fs.block b := by
  have hbn : bn < A.data.length := (List.getElem?_eq_some_iff.1 hb).1
  have hlt := (h.lt_of_data hb).2.2
  have hnew : A.slot (Function.update tag bn c) bn = word c b := by
    rw [Blocks.slot_of_some hb, Function.update_self]
  have hind := isIndirect_iff (hbn.trans_le h.length_le)
  unfold Fs.setChecksum
  by_cases hdir : bn < NDIRECT
  · have htag : tagged (fs.ip.addrs bn) c = word c b := by
      rw [h.direct bn hdir, Blocks.slot_of_some hb, tagged_word hlt]
    have hfalse : isIndirect bn = false := Bool.eq_false_of_not_eq_true fun hi =>
      absurd hdir (not_lt.2 (hind.1 hi))
    refine ⟨fs.setAddr bn (tagged (fs.ip.addrs bn) c), ?_, ?_, ⟨rfl, rfl, _, rfl⟩, rfl⟩
    · simp only [if_pos hdir, hfalse, Bool.false_eq_true, if_false]
    · refine h.retag hb ht ⟨rfl, rfl, _, rfl⟩ rfl (fun i hi => ?_) ?_ (fun p hp j hj => ?_)
        (fun _ _ => rfl)
      · rw [setAddr_addrs]
        rcases eq_or_ne i bn with rfl | hne
        · rw [Function.update_self, htag, hnew]
        · rw [Function.update_of_ne hne, Blocks.slot_update_of_ne hne]
          exact h.direct i hi
      · rw [setAddr_addrs, Function.update_of_ne hdir.ne']
      · rw [Blocks.slot_update_of_ne (by omega)]
        exact h.indirect p hp j hj
  · have hge := not_lt.1 hdir
    have hj : bn - NDIRECT < NINDIRECT := by
      have := h.length_le
      simp only [MAXFILE] at this
      omega
    obtain ⟨p, hp⟩ := Option.ne_none_iff_exists'.1 (h.ind (by omega))
    have hptr : fs.ip.addrs NDIRECT = p := by rw [h.pointer, hp, Option.getD_some]
    have htag : tagged (entry (fs.block p) (bn - NDIRECT)) c = word c b := by
      rw [h.indirect p hp _ hj, Nat.add_sub_cancel' hge, Blocks.slot_of_some hb, tagged_word hlt]
    have hbp : b ≠ p := Blocks.ne_ind h.nodup hb hp
    refine ⟨fs.bwrite p (setEntry (fs.block p) (bn - NDIRECT) (word c b)), ?_, ?_,
      ⟨rfl, rfl, _, rfl⟩, Function.update_of_ne hbp _ _⟩
    · simp only [if_neg hdir, hind.2 hge, if_true, hptr, bread (h.lt_of_ind hp).2, bind, Except.bind,
        htag]
    · refine h.retag hb ht ⟨rfl, rfl, _, rfl⟩ rfl (fun i hi => ?_) rfl (fun q hq j hjlt => ?_)
        (fun d hd => ?_)
      · rw [Blocks.slot_update_of_ne (by omega)]
        exact h.direct i hi
      · obtain rfl : p = q := Option.some.inj (hp.symm.trans hq)
        rw [bwrite_block, Function.update_self]
        rcases eq_or_ne (NDIRECT + j) bn with rfl | hne
        · rw [Nat.add_sub_cancel_left, entry_setEntry_self (word_lt hlt), hnew]
        · rw [entry_setEntry_of_ne (by omega), Blocks.slot_update_of_ne hne]
          exact h.indirect p hp j hjlt
      · exact Function.update_of_ne (fun hdp => hd (hp.trans (congrArg some hdp.symm))) _ _

/-- **A block is written**, and nothing else of the file is changed. -/
theorem bwrite {d : Bytes} (h : Holds fs A F tag) (hb : A.data[bn]? = some b)
    (hd : EqTo BSIZE d (page BSIZE bn F'.bytes))
    (hother : ∀ i, i ≠ bn → EqTo BSIZE (page BSIZE i F'.bytes) (page BSIZE i F.bytes))
    (hbehind : ∀ a, BSIZE * A.data.length ≤ a → F'.bytes a = 0) (hlen : F'.length = F.length) :
    Holds (fs.bwrite b d) A F' tag where
  size_le := h.size_le
  used := h.used
  length_le := h.length_le
  direct := h.direct
  pointer := h.pointer
  indirect p hp j hj := by
    rw [bwrite_block, Function.update_of_ne (Blocks.ne_ind h.nodup hb hp).symm]
    exact h.indirect p hp j hj
  ind := h.ind
  owned := h.owned
  nodup := h.nodup
  free c hc hcu := by
    rw [bwrite_block, Function.update_of_ne]
    · exact h.free c hc hcu
    · rintro rfl
      rw [(h.owned c (Blocks.mem_owned_of_data hb)).2.2] at hcu
      cases hcu
  boot := by
    rw [bwrite_block, Function.update_of_ne (h.lt_of_data hb).1.ne]
    exact h.boot
  contents i c hc := by
    rw [bwrite_block]
    rcases eq_or_ne i bn with rfl | hne
    · obtain rfl : b = c := Option.some.inj (hb.symm.trans hc)
      rw [Function.update_self]
      exact hd
    · rw [Function.update_of_ne fun hcb => hne (Blocks.data_inj h.nodup (hc.trans (congrArg some hcb)) hb)]
      exact (h.contents i c hc).trans (hother i hne).symm
  behind := hbehind
  tag_behind := h.tag_behind
  plain := h.plain
  length := h.length.trans hlen.symm
  length_le_blocks := hlen ▸ h.length_le_blocks

end Holds

end Fs

end OperatingSystems

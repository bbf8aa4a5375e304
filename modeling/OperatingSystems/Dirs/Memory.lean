import OperatingSystems.Dirs.Invariant

/-!
# References and locks

The rules for what the functions of the code do to the inodes in memory: one rule for each function.

* `Memory.set` : what has to be shown for a change of one inode.
* `Memory.lock`, `Memory.ilock`, `Memory.iunlock`, `Memory.iget`, `Memory.idup`, `Memory.iput` : the functions.
* `Memory.write` : a change of an inode that the process has locked.
* `Memory.moved` : a reference moves between the process, its directory and the files.
-/

namespace OperatingSystems

namespace Dirs

open Custody

variable {P F : Type} [Fintype P] [Fintype F] [DecidableEq P] {n i j d : ℕ} {s s' : State P F} {p q : P}
  {H H' : Hold} {R K : List ℕ} {x : Inode}

omit [Fintype P] [Fintype F] [DecidableEq P] in
/-- The balance of a reference that is given back -/
theorem count_put (s : State P F) (hR : H.refs = i :: R) (k : ℕ) (hk : k + 1 = (s.ino i).ref) (j : ℕ) :
    (if j = i then k else (s.ino j).ref) + H.refs.count j = (s.ino j).ref + R.count j := by
  rw [hR, List.count_cons]
  split_ifs with hji hij hij
  · rw [hji, ← hk]
    omega
  · exact absurd (beq_iff_eq.2 hji.symm) hij
  · exact absurd (beq_iff_eq.1 hij).symm hji
  · rfl

namespace Memory

variable (h : Memory s (holds s p H))

include h

theorem ok_self : H.Ok := by
  have hok := h.ok p
  rwa [holds_self] at hok

theorem busy_iff : s.busy i = some p ↔ i ∈ H.locked := by
  rw [h.locks.iff p i, holds_self]

/-- What somebody refers to -/
theorem ref_pos (hq : i ∈ (holds s p H q).refs) : 0 < (s.ino i).ref := by
  have hpos : 0 < (holdings Finset.univ.toList fun q => (holds s p H q).refs ++ (s.cwd q).toList).count i :=
    mem_holds (q := q) (List.mem_append_left _ hq)
  rw [h.ref, refs]
  exact Nat.lt_of_lt_of_le hpos (Nat.le_add_right ..)

theorem ref_pos_self (hi : i ∈ H.refs) : 0 < (s.ino i).ref := h.ref_pos (q := p) (by rwa [holds_self])

/-- The change of one inode -/
theorem set (H' : Hold) (hok : H'.Ok) (hlocked : H'.locked = H.locked)
    (href : ∀ j, (if j = i then x.ref else (s.ino j).ref) + H.refs.count j = (s.ino j).ref + H'.refs.count j)
    (hvalid : x.valid = true → x.type ≠ none) (hbusy : s.busy i ≠ none → x.valid = true)
    (halive : x.type ≠ none → x.nlink = 0 → 0 < x.ref ∧ x.valid = true) :
    Memory (s.set i x) (holds s p H') := by
  refine ⟨fun j => ?_, ?_, forall_holds hok fun q _ => h.ok q, fun j hj => ?_, fun j hj => ?_, fun j hj hn => ?_⟩
  · have hj := href j
    have hrefs := refs_holds s p H H' j
    rw [ino_set, apply_ite Inode.ref]
    rw [h.ref] at hj
    change _ = refs s (holds s p H') j
    simp only [h.ref j] at hj ⊢
    omega
  · change Locks s.busy _
    rw [locked_same hlocked]
    exact h.locks
  · rw [ino_set]
    split_ifs with hji
    · exact hbusy (hji ▸ hj)
    · exact h.busy j hj
  · rw [ino_set] at hj ⊢
    split_ifs at hj ⊢
    · exact hvalid hj
    · exact h.valid j hj
  · rw [ino_set] at hj hn ⊢
    split_ifs at hj hn ⊢
    · exact halive hj hn
    · exact h.alive j hj hn

/-- A lock is taken, and the inode read. -/
theorem lock (H' : Hold) (hi : i ∈ H.refs) (hfree : s.busy i = none) (hx : x.ref = (s.ino i).ref)
    (hvalid : x.valid = true)
    (htype : x.type ≠ none) (hlocked : H'.locked = i :: H.locked) (hrefs : H'.refs = H.refs)
    (hdirs : H'.dirs = H.dirs) (hunlinks : H'.unlinks ⊆ i :: H.locked) (hentry : H'.entry = H.entry) :
    Memory { s.set i x with busy := Function.update s.busy i (some p) } (holds s p H') := by
  have hok := h.ok_self
  have hok' : H'.Ok := by
    refine ⟨?_, ?_, hlocked ▸ hunlinks, fun x hx => ?_⟩
    · rw [hlocked, hrefs]
      exact List.cons_subset.2 ⟨hi, hok.locked⟩
    · rw [hdirs, hrefs]
      exact hok.dirs
    · rw [hlocked]
      exact List.mem_cons_of_mem i (hok.entry x (hentry ▸ hx))
  obtain ⟨href, -, -, hbusy, hval, halive⟩ := h.set (i := i) (x := x) H hok rfl (fun j => by
    rw [hx]
    split_ifs with hj
    · rw [hj]
    · rfl) (fun _ => htype) (fun _ => hvalid) fun _ _ => ⟨hx ▸ h.ref_pos_self hi, hvalid⟩
  refine ⟨fun j => ?_, ?_, forall_holds hok' fun q _ => h.ok q, fun j hj => ?_, hval, halive⟩
  · refine (href j).trans ?_
    have hcount := refs_holds s p H H' j
    rw [hrefs] at hcount
    exact (Nat.add_right_cancel hcount).symm
  · have hlocks := h.locks.take p hfree
    rw [holds_self, ← hlocked] at hlocks
    change Locks (Function.update s.busy i (some p)) fun q => (holds s p H' q).locked
    rwa [locked_holds s p H]
  · change Function.update s.busy i (some p) j ≠ none at hj
    rw [Function.update_apply] at hj
    split_ifs at hj with hji
    · change ((s.set i _).ino j).valid = true
      rwa [ino_set, if_pos hji]
    · exact hbusy j hj

/-- `ilock` -/
theorem ilock (hi : i ∈ H.refs) (hs : s.ilock p i = some s') :
    Memory s' (holds s' p { H with locked := i :: H.locked }) := by
  unfold State.ilock at hs
  split_ifs at hs with hcond
  obtain ⟨-, hfree, hread⟩ := hcond
  cases hs
  exact h.lock _ hi hfree rfl rfl (hread.elim (h.valid i) id) rfl rfl rfl
    (fun j hj => List.mem_cons_of_mem i (h.ok_self.unlinks hj)) rfl

/-- The order of what is held does not matter. -/
theorem perm (hok : H'.Ok) (hlocked : H'.locked.Perm H.locked) (hrefs : H'.refs.Perm H.refs) :
    Memory s (holds s p H') := by
  refine ⟨fun j => ?_, ⟨fun q j => ?_, fun q => ?_⟩,
    forall_holds hok fun q _ => h.ok q, h.busy, h.valid, h.alive⟩
  · have hcount := refs_holds s p H H' j
    rw [hrefs.count_eq] at hcount
    rw [h.ref j]
    exact (Nat.add_right_cancel hcount).symm
  · obtain rfl | hq := eq_or_ne q p
    · rw [holds_self, hlocked.mem_iff]
      exact h.busy_iff
    · rw [holds_of_ne H' H hq]
      exact h.locks.iff q j
  · have hnodup := h.locks.nodup q
    obtain rfl | hq := eq_or_ne q p
    · rw [holds_self] at hnodup
      rwa [holds_self, hlocked.nodup_iff]
    · rwa [holds_of_ne H' H hq]

/-- A lock is given back by `iunlock`. -/
theorem iunlock (hH : H.locked = i :: K) (hok : ({ H with locked := K } : Hold).Ok) (hs : s.iunlock i = some s') :
    Memory s' (holds s' p { H with locked := K }) := by
  unfold State.iunlock at hs
  split_ifs at hs
  cases hs
  refine ⟨fun j => ?_, ?_, forall_holds hok fun q _ => h.ok q, fun j hj => ?_, h.valid, h.alive⟩
  · change (s.ino j).ref = refs s _ j
    have hrefs := refs_holds s p H { H with locked := K } j
    rw [h.ref j]
    exact (Nat.add_right_cancel hrefs).symm
  · have hlocks := h.locks.release (p := p) (i := i) (K := K) (by rw [holds_self, hH])
    change Locks (Function.update s.busy i none) fun q => (holds s p _ q).locked
    rwa [locked_holds s p H]
  · change Function.update s.busy i none j ≠ none at hj
    rw [Function.update_apply] at hj
    split_ifs at hj
    · exact absurd rfl hj
    · exact h.busy j hj

/-- An inode that nobody refers to is not locked. -/
theorem busy_of_ref (hi : (s.ino i).ref = 0) : s.busy i = none := by
  by_contra hbusy
  obtain ⟨q, hq⟩ := Option.ne_none_iff_exists'.1 hbusy
  have hmem := (h.ok q).locked ((h.locks.iff q i).1 hq)
  exact Nat.lt_irrefl 0 (hi ▸ h.ref_pos hmem)

/-- The count of references goes up by one. -/
theorem incref (hx : x.ref = (s.ino i).ref + 1) (htype : x.type = (s.ino i).type)
    (hnlink : x.nlink = (s.ino i).nlink) (hvalid : x.valid = (s.ino i).valid ∨ x.valid = false ∧ (s.ino i).ref = 0) :
    Memory (s.set i x) (holds s p { H with refs := i :: H.refs }) := by
  have hok := h.ok_self
  refine h.set _ (hok.cons i) rfl (fun j => ?_) (fun hv => ?_) (fun hb => ?_) fun ht hn => ?_
  · rw [List.count_cons]
    split_ifs with hji hij hij
    · rw [hji, hx]
      omega
    · exact absurd (beq_iff_eq.2 hji.symm) hij
    · exact absurd (beq_iff_eq.1 hij).symm hji
    · rfl
  · rw [htype]
    obtain hv' | ⟨hv', -⟩ := hvalid
    · exact h.valid i (hv' ▸ hv)
    · rw [hv'] at hv
      cases hv
  · obtain hv' | ⟨-, hzero⟩ := hvalid
    · rw [hv']
      exact h.busy i hb
    · exact absurd (h.busy_of_ref hzero) hb
  · rw [htype] at ht
    rw [hnlink] at hn
    obtain ⟨hpos, hval⟩ := h.alive i ht hn
    obtain hv' | ⟨-, hzero⟩ := hvalid
    · exact ⟨by omega, hv' ▸ hval⟩
    · omega

/-- `iget` -/
theorem iget (hs : s.iget n i = some s') : Memory s' (holds s' p { H with refs := i :: H.refs }) := by
  unfold State.iget at hs
  split_ifs at hs with hzero
  · cases hs
    exact h.incref (by simp [hzero]) rfl rfl (.inr ⟨rfl, hzero⟩)
  · cases hs
    exact h.incref rfl rfl rfl (.inl rfl)

/-- `idup` -/
theorem idup : Memory (s.idup i) (holds s p { H with refs := i :: H.refs }) := h.incref rfl rfl rfl (.inl rfl)

/-- `iput` -/
theorem iput (hR : H.refs = i :: R) (hok : ({ H with refs := R } : Hold).Ok) (hs : s.iput i = some s') :
    Memory s' (holds s' p { H with refs := R }) := by
  have hpos : 0 < (s.ino i).ref := h.ref_pos_self (hR ▸ List.mem_cons_self)
  unfold State.iput at hs
  split_ifs at hs with hlast hbusy
  · cases hs
    obtain ⟨href, hlocks, hoks, hb, hv, ha⟩ := h.set (i := i) { H with refs := R }
      (x := { type := none, nlink := (s.ino i).nlink, ents := [], ref := 0, valid := false }) hok rfl
      (count_put s hR 0 hlast.1.symm) (fun hv => (by cases hv)) (fun hb => absurd hbusy hb) fun ht => absurd rfl ht
    exact ⟨href, hlocks, hoks, hb, hv, ha⟩
  · cases hs
    refine h.set _ hok rfl (count_put s hR _ (Nat.sub_add_cancel hpos)) (h.valid i) (h.busy i) fun ht hn => ?_
    obtain ⟨-, hval⟩ := h.alive i ht hn
    refine ⟨?_, hval⟩
    by_contra hnot
    exact hlast ⟨by simp only at hnot; omega, hval, hn⟩

/-- The process writes to an inode that it has locked. -/
theorem write (hi : i ∈ H.locked) (hok : H'.Ok) (hlocked : H'.locked = H.locked) (hrefs : H'.refs = H.refs)
    (href : x.ref = (s.ino i).ref) (hvalid : x.valid = (s.ino i).valid) (htype : x.type ≠ none) :
    Memory (s.set i x) (holds s p H') := by
  have hv : (s.ino i).valid = true := h.busy i (by simp [h.busy_iff.2 hi])
  refine h.set H' hok hlocked (fun j => ?_) (fun _ => htype) (fun _ => hvalid ▸ hv) fun _ _ => ⟨?_, hvalid ▸ hv⟩
  · rw [hrefs]
    split_ifs with hji
    · rw [href, hji]
    · rfl
  · rw [href]
    exact h.ref_pos_self (h.ok_self.locked hi)

/-- A reference moves between the process, its directory and the files. -/
theorem moved (hpc : s'.pc = s.pc) (hino : s'.ino = s.ino) (hbusy : s'.busy = s.busy) (hok : H'.Ok)
    (hlocked : H'.locked = H.locked) (href : ∀ j, refs s' (holds s p H') j = refs s (holds s p H) j) :
    Memory s' (holds s' p H') := by
  rw [holds_congr hpc]
  refine ⟨fun j => ?_, ?_, forall_holds hok fun q _ => h.ok q, ?_, hino ▸ h.valid, hino ▸ h.alive⟩
  · rw [hino, href, h.ref]
  · rw [hbusy, locked_same hlocked]
    exact h.locks
  · rw [hbusy, hino]
    exact h.busy

/-- Another process has locked what its entry is in. -/
theorem entry_ne (hd : d ∈ H.locked) (hq : q ≠ p) {x : ℕ × ℕ × ℕ} (hx : (holds s p H q).entry = some x) :
    x.1 ≠ d := by
  rintro rfl
  have hbusy : s.busy x.1 = some q := (h.locks.iff q x.1).2 ((h.ok q).entry x hx)
  rw [h.busy_iff.2 hd] at hbusy
  exact hq (Option.some.inj hbusy).symm

end Memory

/-- The balance of a reference that moves to or from the directory of the process -/
theorem refs_cwd (s : State P F) (p : P) (H H' : Hold) (c : Option ℕ) (j : ℕ) :
    refs { s with cwd := Function.update s.cwd p c } (holds s p H') j + (H.refs ++ (s.cwd p).toList).count j =
      refs s (holds s p H) j + (H'.refs ++ c.toList).count j := by
  have hcount := count_holds s p H H' j Hold.refs (fun q => (s.cwd q).toList)
    (fun q => (Function.update s.cwd p c q).toList) fun q hq => by rw [Function.update_of_ne hq]
  rw [Function.update_self] at hcount
  unfold refs
  dsimp only at hcount ⊢
  omega

/-- The balance of a reference that moves to or from a file -/
theorem refs_files [DecidableEq F] (s : State P F) (p : P) (H H' : Hold) (f : F) (c : Option ℕ) (j : ℕ) :
    refs { s with files := Function.update s.files f c } (holds s p H') j + (H.refs ++ (s.files f).toList).count j =
      refs s (holds s p H) j + (H'.refs ++ c.toList).count j := by
  have hrefs := refs_holds s p H H' j
  have hcount := count_update (Finset.nodup_toList Finset.univ) (Finset.mem_toList.2 (Finset.mem_univ f))
    (fun f => (s.files f).toList) c.toList j
  have heq : (fun g => (Function.update s.files f c g).toList) =
      Function.update (fun g => (s.files g).toList) f c.toList := by
    funext g
    rw [Function.update_apply, Function.update_apply, apply_ite Option.toList]
  unfold refs at hrefs ⊢
  rw [List.count_append, List.count_append]
  change _ + (holdings _ fun g => (Function.update s.files f c g).toList).count j + _ = _
  rw [heq]
  dsimp only at hrefs ⊢
  omega

end Dirs

end OperatingSystems

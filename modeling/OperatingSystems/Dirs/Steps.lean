import OperatingSystems.Dirs.Memory
import OperatingSystems.Dirs.Links

/-!
# The rules of the code

What each function of the code does to the invariant, with what the running process holds before it and
behind it.

* `Good.ilock`, `Good.iunlock`, `Good.iget`, `Good.iput`, ... : the functions.
* `Good.nlink`, `Good.link`, `Good.erase`, `Good.create` : the changes of the disk.
* `Good.goto` : the end of a step.
-/

namespace OperatingSystems

namespace Dirs

open Custody

variable {P F : Type} [Fintype P] [Fintype F] [DecidableEq P] {n i d up off : ℕ} {s s' : State P F} {p q : P}
  {H H' : Hold} {R K : List ℕ} {x : Inode} {name : Name} {k : ℤ} {f : F} {pc : Pc F}

/-- What the process holds between the steps -/
theorem Inv.good (h : Inv n s) (p : P) : Good n s p (s.pc p).hold :=
  ⟨(holds_pc s p).symm ▸ h.memory, (holds_pc s p).symm ▸ h.books, fun q _ => h.pcs q⟩

omit [Fintype P] [Fintype F] [DecidableEq P] in
theorem ifree_self (s : State P F) (i : ℕ) : ((s.ifree i).ino i).ref = 0 := by
  change (Function.update s.ino i _ i).ref = 0
  rw [Function.update_self]

omit [Fintype P] [Fintype F] [DecidableEq P] in
/-- What the process relies on does not depend on the entries. -/
theorem rely_set (hdir : (s.ino d).type = some .dir) (hx : x.type = some .dir) (hrely : s.Rely H')
    (hentry : H'.entry = none) : (s.set d x).Rely H' := by
  have htypes : ∀ j, ((s.set d x).ino j).type = (s.ino j).type := fun j => by
    rw [ino_set]
    split_ifs with hj
    · rw [hj, hx, hdir]
    · rfl
  refine ⟨fun j hj => ?_, fun j hj => ?_, fun e j off hy => ?_⟩
  · rw [htypes]
    exact hrely.links j hj
  · rw [htypes]
    exact hrely.dirs j hj
  · rw [hentry] at hy
    cases hy

omit [Fintype P] [Fintype F] [DecidableEq P] in
@[simp] theorem stray_ino (s : State P F) (d : ℕ) : (s.stray d).ino = s.ino := rfl

omit [Fintype P] [Fintype F] [DecidableEq P] in
theorem stray_spec (hs : (s.stray d).strayed = false) : ((s.stray d).ino d).nlink ≠ 0 :=
  of_decide_eq_false (Bool.or_eq_false_iff.1 hs).2

namespace Good

theorem inv (h : Good n s p (s.pc p).hold) (hok : (s.pc p).Ok) : Inv n s := by
  obtain ⟨hmem, hbooks, hpcs⟩ := h
  rw [holds_pc] at hmem hbooks
  refine ⟨hmem, hbooks, fun q => ?_⟩
  obtain rfl | hq := eq_or_ne q p
  · exact hok
  · exact hpcs q hq

variable (h : Good n s p H)

include h

/-- The end of a step -/
theorem goto (pc : Pc F) (hH : pc.hold = H) (hok : pc.Ok) : Inv n (s.goto p pc) := by
  obtain ⟨hmem, hbooks, hpcs⟩ := h
  subst hH
  rw [← holds_goto s p pc] at hmem hbooks
  refine ⟨⟨hmem.ref, hmem.locks, hmem.ok, hmem.busy, hmem.valid, hmem.alive⟩,
    ⟨hbooks.nlink, hbooks.free, hbooks.inum, hbooks.shaped, hbooks.plain, hbooks.up, hbooks.once, fun q => ?_,
      hbooks.orphan, hbooks.tree⟩,
    fun q => ?_⟩
  · obtain ⟨hlinks, hdirs, hentry⟩ := hbooks.rely q
    exact ⟨hlinks, hdirs, hentry⟩
  · change (Function.update s.pc p pc q).Ok
    obtain rfl | hq := eq_or_ne q p
    · rwa [Function.update_self]
    · rw [Function.update_of_ne hq]
      exact hpcs q hq

theorem ok_self : H.Ok := h.memory.ok_self

theorem rely_self : s.Rely H := by
  have hrely := h.books.rely p
  rwa [holds_self] at hrely

/-- A step that changes nothing on the disk -/
theorem same (hs : Same s s') (hmem : Memory s' (holds s' p H')) (howed : H'.owed.Perm H.owed) (hrely : s.Rely H') :
    Good n s' p H' :=
  ⟨hmem, h.books.same hs howed hrely, fun q hq => hs.pc ▸ h.pcs q hq⟩

/-- `ilock` -/
theorem ilock (hi : i ∈ H.refs) (hs : s.ilock p i = some s') :
    Good n s' p { H with locked := i :: H.locked } := by
  have hmem := h.memory.ilock hi hs
  obtain ⟨hlinks, hdirs, hentry⟩ := h.rely_self
  refine h.same ?_ hmem (List.Perm.refl _) ⟨hlinks, hdirs, hentry⟩
  unfold State.ilock at hs
  split_ifs at hs
  cases hs
  exact same_of_ino (s.ino i).ref _ rfl rfl rfl rfl

/-- `iunlock` -/
theorem iunlock (hH : H.locked = i :: K) (hok : ({ H with locked := K } : Hold).Ok) (hs : s.iunlock i = some s') :
    Good n s' p { H with locked := K } := by
  have hmem := h.memory.iunlock hH hok hs
  obtain ⟨hlinks, hdirs, hent⟩ := h.rely_self
  refine h.same ?_ hmem (List.Perm.refl _) ⟨hlinks, hdirs, hent⟩
  unfold State.iunlock at hs
  split_ifs at hs
  cases hs
  exact ⟨rfl, fun _ => rfl, fun _ => rfl, fun _ => rfl, rfl, id⟩

/-- `iget` -/
theorem iget (hs : s.iget n i = some s') : Good n s' p { H with refs := i :: H.refs } ∧ Same s s' := by
  have hmem := h.memory.iget hs
  obtain ⟨hlinks, hdirs, hentry⟩ := h.rely_self
  have hsame : Same s s' := by
    unfold State.iget at hs
    split_ifs at hs
    · cases hs
      exact same_of_ino _ _ rfl rfl rfl rfl
    · cases hs
      exact same_of_ino _ (s.ino i).valid rfl rfl rfl rfl
  exact ⟨h.same hsame hmem (List.Perm.refl _) ⟨hlinks, hdirs, hentry⟩, hsame⟩

/-- `idup` -/
theorem idup : Good n (s.idup i) p { H with refs := i :: H.refs } := by
  obtain ⟨hlinks, hdirs, hentry⟩ := h.rely_self
  exact h.same (same_of_ino _ (s.ino i).valid rfl rfl rfl rfl) h.memory.idup (List.Perm.refl _)
    ⟨hlinks, hdirs, hentry⟩

/-- `iput` -/
theorem iput (hR : H.refs = i :: R) (hok : ({ H with refs := R } : Hold).Ok) (hs : s.iput i = some s') :
    Good n s' p { H with refs := R } := by
  have hmem := h.memory.iput hR hok hs
  obtain ⟨hlinks, hdirs, hentry⟩ := h.rely_self
  have hrely : s.Rely { H with refs := R } := ⟨hlinks, hdirs, hentry⟩
  unfold State.iput at hs
  split_ifs at hs with hlast hbusy
  · cases hs
    obtain ⟨hone, hvalid, hzero⟩ := hlast
    refine ⟨hmem, h.books.ifree (h.memory.valid i hvalid) hzero rfl hrely fun q => ?_, h.pcs⟩
    -- the process had the last reference, so that nobody relies on the inode
    have hnot : i ∉ (holds s p { H with refs := R } q).refs := fun hmemq => by
      have hpos : 0 < ((s.ifree i).ino i).ref := hmem.ref_pos hmemq
      rw [ifree_self] at hpos
      exact Nat.lt_irrefl 0 hpos
    have hokq := hmem.ok q
    exact ⟨fun hmemd => hnot (hokq.dirs hmemd), fun y hy hyi => hnot (hokq.locked (hyi ▸ hokq.entry y hy))⟩
  · cases hs
    exact h.same (same_of_ino _ (s.ino i).valid rfl rfl rfl rfl) hmem (List.Perm.refl _) hrely

/-- The order of what is held does not matter, and what is seen may be noted or forgotten. -/
theorem perm (H' : Hold) (hok : H'.Ok) (hrefs : H'.refs.Perm H.refs) (hlocked : H'.locked.Perm H.locked)
    (howed : H'.owed.Perm H.owed) (hrely : s.Rely H') : Good n s p H' :=
  h.same ⟨rfl, fun _ => rfl, fun _ => rfl, fun _ => rfl, rfl, id⟩ (h.memory.perm hok hlocked hrefs) howed hrely

/-- `nlink` changes, with what the process owes. -/
theorem nlink (H' : Hold) (hi : i ∈ H.locked) (hk : k + H.owed.count i = (s.ino i).nlink + H'.owed.count i)
    (hne : ∀ j ≠ i, H'.owed.count j = H.owed.count j)
    (honce : (s.ino i).type = some .dir → H'.owed.count i ≤ H.owed.count i) (hok : H'.Ok)
    (hrefs : H'.refs = H.refs) (hlocked : H'.locked = H.locked) (hrely : s.Rely H') :
    Good n (s.set i { s.ino i with nlink := k }) p H' := by
  have htype : (s.ino i).type ≠ none :=
    h.memory.valid i (h.memory.busy i (by simp [h.memory.busy_iff.2 hi]))
  exact ⟨h.memory.write hi hok hlocked hrefs rfl rfl htype, h.books.count htype hk hne honce hrely, h.pcs⟩

/-- An entry is about to be written. -/
theorem stray : Good n (s.stray d) p H :=
  h.same ⟨rfl, fun _ => rfl, fun _ => rfl, fun _ => rfl, rfl, fun hs => (Bool.or_eq_false_iff.1 hs).1⟩
    (h.memory.moved rfl rfl rfl h.ok_self rfl fun _ => rfl) (List.Perm.refl _) h.rely_self

/-- Nobody else owes a link to a directory that the process has locked. -/
theorem owed_zero (hd : d ∈ H.locked) (hdir : (s.ino d).type = some .dir) (hnot : d ∉ H.owed) :
    owed (holds s p H) d = 0 := by
  refine List.count_eq_zero_of_not_mem fun hmem => ?_
  obtain ⟨q, -, hq⟩ := mem_holdings.1 hmem
  obtain rfl | hne := eq_or_ne q p
  · rw [holds_self] at hq
    exact hnot hq
  · rcases List.mem_append.1 hq with hlinks | hunlinks
    · exact ((h.books.rely q).links d hlinks).1 hdir
    · have hbusy := (h.memory.locks.iff q d).2 ((h.memory.ok q).unlinks hunlinks)
      rw [h.memory.busy_iff.2 hd] at hbusy
      exact hne (Option.some.inj hbusy).symm

/-- An entry is written. -/
theorem link (name : Name) (H' : Hold) (hd : d ∈ H.locked) (hdir : (s.ino d).type = some .dir) (hi : i ≠ 0)
    (hup : (s.ino i).type = some .dir →
      Shaped (s.ino i).ents i d ∧ i ≠ d ∧ entries n s i = 0 ∧ targets (s.ino i).ents = [])
    (hk : k = (s.ino d).nlink + if (s.ino i).type = some .dir then 1 else 0)
    (hstray : s.strayed = false → (s.ino d).nlink ≠ 0) (hnot : d ∉ H.owed)
    (howed : H.owed.Perm (i :: H'.owed)) (hok : H'.Ok) (hrefs : H'.refs = H.refs) (hlocked : H'.locked = H.locked)
    (hentry : H'.entry = none) (hrely : s.Rely H') :
    Good n (s.set d { s.ino d with nlink := k, ents := insertEntry ⟨i, name⟩ (s.ino d).ents }) p H' := by
  obtain ⟨up, hshaped⟩ := h.books.shaped d hdir
  have hperm : (targets (insertEntry ⟨i, name⟩ (s.ino d).ents)).Perm (i :: targets (s.ino d).ents) :=
    (hshaped.insertEntry hi).2
  refine ⟨h.memory.write hd hok hlocked hrefs rfl rfl (hdir ▸ Option.some_ne_none _), ?_, h.pcs⟩
  refine h.books.edit (A := []) (B := [i]) hdir hdir (fun up hs => (hs.insertEntry hi).1) hperm ?_ (fun j => ?_)
    (fun j hj hjd => ?_) (rely_set hdir hdir hrely hentry) (fun j hj => absurd hj List.not_mem_nil)
    (fun _ => ⟨rfl, fun hs hzero => ?_⟩) fun q hq y hy => h.memory.entry_ne hd hq hy
  · rw [hk, List.countP_singleton, List.countP_nil]
    simp only [State.isdir, decide_eq_true_eq]
    split_ifs <;> simp
  · rw [howed.count_eq]
    simp only [List.count_cons, List.count_nil]
    omega
  · rw [List.mem_singleton] at hj
    subst hj
    exact hup hjd
  · by_contra hroot
    obtain ⟨hlost, horphan⟩ := h.books.orphan hs
    have hlink := h.books.nlink d (h.books.inum d (hdir ▸ Option.some_ne_none _)).1
    rw [hzero, subdirs, horphan d hroot hzero, h.owed_zero hd hdir hnot, hlost, if_neg hroot] at hlink
    exact hstray hs hlink

/-- An entry is erased. -/
theorem erase (H' : Hold) (hd : d ∈ H.locked) (hdir : (s.ino d).type = some .dir) (hold : H.entry = some (d, i, off))
    (hempty : targets (s.ino i).ents = [])
    (hk : k = (s.ino d).nlink - if (s.ino i).type = some .dir then 1 else 0)
    (howed : H'.owed.Perm (i :: H.owed)) (hok : H'.Ok) (hrefs : H'.refs = H.refs) (hlocked : H'.locked = H.locked)
    (hentry : H'.entry = none) (hrely : s.Rely H') :
    Good n (s.set d { s.ino d with nlink := k, ents := clear (s.ino d).ents off }) p H' := by
  obtain ⟨hoff, hi, name, hget⟩ := h.rely_self.entry d i off hold
  obtain ⟨up, hshaped⟩ := h.books.shaped d hdir
  have hperm : (targets (s.ino d).ents).Perm (i :: targets (clear (s.ino d).ents off)) :=
    (hshaped.clear hget hoff hi).2
  refine ⟨h.memory.write hd hok hlocked hrefs rfl rfl (hdir ▸ Option.some_ne_none _), ?_, h.pcs⟩
  refine h.books.edit (A := [i]) (B := []) hdir hdir (fun up hs => (hs.clear hget hoff hi).1) hperm.symm ?_
    (fun j => ?_) (fun j hj => absurd hj List.not_mem_nil) (rely_set hdir hdir hrely hentry)
    (fun j hj => by rwa [List.mem_singleton.1 hj]) (fun hB => absurd rfl hB)
    fun q hq y hy => h.memory.entry_ne hd hq hy
  · rw [hk, List.countP_singleton, List.countP_nil]
    simp only [State.isdir, decide_eq_true_eq]
    split_ifs <;> simp
  · rw [howed.count_eq]
    simp only [List.count_cons, List.count_nil]
    omega

/-- A new inode, which the process has locked -/
theorem alloc (hi : i ∈ H.refs) (hfree : (s.ino i).type = none) (hin : i ≠ 0 ∧ i < n) (hx : x.type ≠ none)
    (href : x.ref = (s.ino i).ref) (hvalid : x.valid = true) (hnlink : x.nlink = 1)
    (hshaped : x.type = some .dir → ∃ up, Shaped x.ents i up) (hplain : x.type ≠ some .dir → x.ents = [])
    (hempty : targets x.ents = []) :
    Good n { s.set i x with busy := Function.update s.busy i (some p) } p
      { H with locked := i :: H.locked, unlinks := i :: H.unlinks } := by
  have hbusy : s.busy i = none := by
    by_contra hb
    exact h.memory.valid i (h.memory.busy i hb) hfree
  have hmem := h.memory.lock { H with locked := i :: H.locked, unlinks := i :: H.unlinks } hi hbusy href
    hvalid hx rfl rfl rfl (List.cons_subset_cons i h.ok_self.unlinks) rfl
  have hbooks := h.books.alloc hfree hin.1 hin.2 hx hnlink hshaped hplain hempty
  have hrely := hbooks.rely p
  rw [holds_self] at hrely
  exact ⟨hmem, hbooks.same ⟨rfl, fun _ => rfl, fun _ => rfl, fun _ => rfl, rfl, id⟩ (List.Perm.refl _)
    ⟨hrely.links, hrely.dirs, hrely.entry⟩, h.pcs⟩

end Good

end Dirs

end OperatingSystems

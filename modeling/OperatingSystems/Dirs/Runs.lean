import OperatingSystems.Dirs.Steps

/-!
# The invariant over all runs

* `Good.namex`, `Good.walk`, `Good.finish`, `Good.advance` : the code at each place.
* `Inv.next`, `Inv.of_run` : **every run keeps the invariant**.
-/

namespace OperatingSystems

namespace Dirs

variable {P F : Type} [Fintype P] [Fintype F] [DecidableEq P] [DecidableEq F] {n ip dp : ℕ} {s s' : State P F}
  {p : P} {H H' : Hold} {path : List UInt8} {found : Found} {f : Option F} {made : Made} {l : Label P F}

omit [Fintype P] [Fintype F] [DecidableEq P] [DecidableEq F] in
/-- Where a failed walk ends -/
theorem fail_hold (found : Found) :
    (found.fail : Pc F).hold = { refs := found.refs, links := found.refs } ∧ (found.fail : Pc F).Ok := by
  cases found <;> exact ⟨rfl, trivial⟩

namespace Good

omit [DecidableEq F]

/-- The beginning of `namex` -/
theorem namex (found : Found) (h : Good n s p { refs := found.refs, links := found.refs })
    (hs : s.namex n p path found = some s') : Inv n s' := by
  unfold State.namex at hs
  split_ifs at hs
  · obtain ⟨s₁, hs₁, rfl⟩ := Option.map_eq_some_iff.1 hs
    exact (h.iget hs₁).1.goto _ rfl trivial
  · obtain ⟨i, -, rfl⟩ := Option.map_eq_some_iff.1 hs
    exact h.idup.goto _ rfl trivial

/-- One round of the loop of `namex` -/
theorem walk (h : Good n s p { refs := ip :: found.refs, links := found.refs })
    (hs : s.walk n p ip path found = some s') : Inv n s' := by
  obtain ⟨hfail, hok⟩ := fail_hold (F := F) found
  unfold State.walk at hs
  split at hs
  · split_ifs at hs with hparent
    · cases hs
      refine h.goto (.put ip found.fail) (by rw [Pc.hold, hfail]) ⟨?_, ?_, hok⟩ <;> rw [hfail]
      exact Hold.ok_unlocked
    · cases hs
      cases found with
      | «open» omode => exact h.goto _ rfl trivial
      | chdir => exact h.goto _ rfl trivial
      | linkOld new => exact h.goto _ rfl trivial
      | linkNew ip => exact absurd rfl hparent
      | unlink => exact absurd rfl hparent
      | create type made => exact absurd rfl hparent
  · obtain ⟨s₁, hs₁, hs⟩ := Option.bind_eq_some_iff.1 hs
    have h₁ := h.ilock (List.mem_cons_self ..) hs₁
    have hfailput : Inv n (s₁.goto p (.unlockput ip found.fail)) := by
      refine h₁.goto _ (by rw [Pc.hold, hfail]) ⟨?_, hok⟩
      rw [hfail]
      exact Hold.ok_unlocked
    split_ifs at hs with hdir hlast
    · cases hs
      exact hfailput
    · obtain ⟨s₂, hs₂, hs⟩ := Option.bind_eq_some_iff.1 hs
      cases hs
      -- the directory is noted before its lock is given back
      have hdirs : Good n s₁ p { refs := ip :: found.refs, locked := [ip], links := found.refs, dirs := [ip] } :=
        h₁.perm _ (Hold.ok_of (by simp) (by simp) (List.nil_subset _) rfl) (List.Perm.refl _) (List.Perm.refl _)
          (List.Perm.refl _) (State.rely_of h₁.rely_self.links (by simpa using hdir) rfl)
      have h₂ := hdirs.iunlock rfl (Hold.ok_of (List.nil_subset _) (by simp) (List.nil_subset _) rfl) hs₂
      have hforget : Good n s₂ p { refs := ip :: found.refs, links := found.refs } :=
        h₂.perm _ Hold.ok_unlocked (List.Perm.refl _) (List.Perm.refl _) (List.Perm.refl _)
          (State.rely_of h₂.rely_self.links (List.forall_mem_nil _) rfl)
      cases found with
      | «open» omode => exact hforget.goto _ rfl trivial
      | chdir => exact hforget.goto _ rfl trivial
      | linkOld new => exact hforget.goto _ rfl trivial
      | linkNew ip => exact h₂.goto _ rfl trivial
      | unlink => exact h₂.goto _ rfl trivial
      | create type made => exact h₂.goto _ rfl trivial
    · split at hs
      · cases hs
        exact hfailput
      · rename_i inum off hfound
        obtain ⟨s₂, hs₂, hs⟩ := Option.bind_eq_some_iff.1 hs
        cases hs
        have h₂ := (h₁.iget hs₂).1
        have hnext : Good n s₂ p { refs := ip :: inum :: found.refs, locked := [ip], links := found.refs } :=
          h₂.perm _ (Hold.ok_locked (by simp)) (List.Perm.swap ..) (List.Perm.refl _) (List.Perm.refl _)
            (State.rely_of h₂.rely_self.links (List.forall_mem_nil _) rfl)
        exact hnext.goto _ rfl ⟨Hold.ok_unlocked, trivial⟩

/-- A reference moves to or from the directory of the process. -/
theorem cwd (h : Good n s p H) {c : Option ℕ} (H' : Hold)
    (hrefs : (H.refs ++ (s.cwd p).toList).Perm (H'.refs ++ c.toList))
    (hok : H'.Ok) (hlocked : H'.locked = H.locked) (howed : H'.owed.Perm H.owed) (hrely : s.Rely H') :
    Good n { s with cwd := Function.update s.cwd p c } p H' := by
  refine h.same ⟨rfl, fun _ => rfl, fun _ => rfl, fun _ => rfl, rfl, id⟩
    (h.memory.moved rfl rfl rfl hok hlocked fun j => ?_) howed hrely
  have hcount := refs_cwd s p H H' c j
  rw [hrefs.count_eq] at hcount
  exact Nat.add_right_cancel hcount

/-- A reference moves to or from a file. -/
theorem files [DecidableEq F] (h : Good n s p H) {g : F} {c : Option ℕ} (H' : Hold)
    (hrefs : (H.refs ++ (s.files g).toList).Perm (H'.refs ++ c.toList)) (hok : H'.Ok)
    (hlocked : H'.locked = H.locked) (howed : H'.owed.Perm H.owed) (hrely : s.Rely H') :
    Good n { s with files := Function.update s.files g c } p H' := by
  refine h.same ⟨rfl, fun _ => rfl, fun _ => rfl, fun _ => rfl, rfl, id⟩
    (h.memory.moved rfl rfl rfl hok hlocked fun j => ?_) howed hrely
  have hcount := refs_files s p H H' g c j
  rw [hrefs.count_eq] at hcount
  exact Nat.add_right_cancel hcount

/-- The last part of `sys_open`, `sys_mkdir` and `sys_mknod` -/
theorem finish [DecidableEq F] (h : Good n s p { refs := [ip], locked := [ip] })
    (hs : s.finish p ip f made = some s') : Inv n s' := by
  have hput : ∀ r, Inv n (s.goto p (.unlockput ip (.client r))) := fun r =>
    h.goto _ rfl ⟨Hold.ok_unlocked, trivial⟩
  cases made with
  | node =>
    cases hs
    exact hput _
  | file =>
    cases f with
    | none =>
      cases hs
      exact hput _
    | some f =>
      dsimp only [State.finish] at hs
      split_ifs at hs with hfree
      obtain ⟨s₁, hs₁, hs⟩ := Option.bind_eq_some_iff.1 hs
      cases hs
      have h₁ := h.iunlock rfl Hold.ok_unlocked hs₁
      have hfile : s₁.files f = none := by
        unfold State.iunlock at hs₁
        split_ifs at hs₁
        cases hs₁
        exact hfree
      have hfiles : Good n { s₁ with files := Function.update s₁.files f (some ip) } p {} := by
        refine h₁.files _ ?_ Hold.ok_unlocked rfl (List.Perm.refl _) State.rely_nil
        rw [hfile]
        exact List.Perm.refl _
      exact hfiles.goto _ rfl trivial

/-- The new inode of `create` -/
theorem create {name : Name} {type : Kind}
    (h : Good n s p { refs := [ip, dp], locked := [dp], dirs := [dp] }) (hfree : (s.ino ip).type = none)
    (hin : ip ≠ 0 ∧ ip < n) : Inv n ((s.create p dp ip name type).goto p (.unlockput dp (.created ip made))) := by
  have hdir : (s.ino dp).type = some .dir := h.rely_self.dirs dp (List.mem_cons_self ..)
  have hne : dp ≠ ip := by
    rintro rfl
    rw [hfree] at hdir
    cases hdir
  have hdp : dp ≠ 0 := (h.books.inum dp (hdir ▸ Option.some_ne_none _)).1
  generalize hents : (if type = .dir then [(⟨ip, dot⟩ : Dirent), ⟨dp, dotdot⟩] else []) = ents
  have hshape : type = .dir → Shaped ents ip dp := fun htype => by
    rw [if_pos htype] at hents
    exact hents ▸ shaped_new hin.1 hdp
  have halloc := h.alloc (x := { type := some type, nlink := 1, ents := ents, ref := (s.ino ip).ref, valid := true })
    (List.mem_cons_self ..) hfree hin (Option.some_ne_none _) rfl rfl rfl
    (fun htype => ⟨dp, hshape (Option.some.inj htype)⟩)
    (fun htype => by rw [← hents, if_neg fun ht => htype (by rw [ht])])
    (by rw [← hents]; split_ifs <;> rfl)
  generalize hs₁ : ({ s.set ip
      { type := some type, nlink := 1, ents := ents, ref := (s.ino ip).ref, valid := true } with
    busy := Function.update s.busy ip (some p) } : State P F) = s₁ at halloc
  have hino : ∀ j, s₁.ino j =
      if j = ip then { type := some type, nlink := 1, ents := ents, ref := (s.ino ip).ref, valid := true }
      else s.ino j := fun j => by
    rw [← hs₁]
    exact ino_set ..
  have hdir₁ : (s₁.ino dp).type = some .dir := by rw [hino, if_neg hne, hdir]
  have hnone : entries n (s₁.stray dp) ip = 0 := by
    have hzero : entries n s ip = 0 := (h.books.zero hin.1 (h.books.free ip hfree).1).1
    rw [← hzero]
    refine entries_congr (fun j => ?_) ip
    rw [stray_ino, hino]
    split_ifs with hj
    · rw [hj, (h.books.free ip hfree).2, ← hents]
      split_ifs <;> rfl
    · rfl
  have hlink := halloc.stray.link (d := dp) (i := ip)
    (k := if type = .dir then (s₁.ino dp).nlink + 1 else (s₁.ino dp).nlink) name
    { refs := [ip, dp], locked := [ip, dp], dirs := [dp] } (by simp) hdir₁ hin.1
    (fun htype => by
      rw [stray_ino, hino, if_pos rfl] at htype ⊢
      exact ⟨hshape (Option.some.inj htype), hne.symm, hnone, by rw [← hents]; split_ifs <;> rfl⟩)
    (by
      rw [stray_ino, hino ip, if_pos rfl]
      by_cases htype : type = .dir
      · rw [if_pos htype, if_pos (by rw [htype])]
      · rw [if_neg htype, if_neg fun ht => htype (Option.some.inj ht), add_zero])
    stray_spec (by simpa [Hold.owed] using hne) (List.Perm.refl _)
    (Hold.ok_of (by simp) (by simp) (List.nil_subset _) rfl) rfl rfl rfl
    (State.rely_of (List.forall_mem_nil _) (List.forall_mem_singleton.2 hdir₁) rfl)
  have hperm := hlink.perm { refs := [dp, ip], locked := [dp, ip] }
    (Hold.ok_locked (by simp)) (List.Perm.swap ..) (List.Perm.swap ..) (List.Perm.refl _)
    State.rely_nil
  have hinv := hperm.goto (.unlockput dp (.created ip made)) rfl
    ⟨Hold.ok_locked (by simp), trivial⟩
  subst hs₁ hents
  exact hinv

/-- What `iunlockput` does -/
theorem unlockput {R K : List ℕ} {s₁ : State P F}
    (h : Good n s p { H with refs := ip :: R, locked := ip :: K }) (hok : ({ H with refs := R, locked := K } : Hold).Ok)
    (hs₁ : s.iunlock ip = some s₁) (hs : s₁.iput ip = some s') : Good n s' p { H with refs := R, locked := K } :=
  (h.iunlock rfl (hok.cons ip) hs₁).iput rfl hok hs

end Good

omit [Fintype P] [Fintype F] [DecidableEq P] [DecidableEq F] in
/-- What `ialloc` finds -/
theorem ialloc_eq_some (h : s.ialloc n = some ip) : (s.ino ip).type = none ∧ ip ≠ 0 ∧ ip < n := by
  have hmem := List.mem_of_find?_eq_some h
  have hfree := List.find?_some h
  rw [List.mem_range'_1] at hmem
  exact ⟨by simpa using hfree, by omega, by omega⟩

/-- The first part of `sys_link` -/
theorem Inv.linkInc {new : List UInt8} (h : Inv n s) (hpc : s.pc p = .linkInc ip new)
    (hs : s.advance n p f = some s') : Inv n s' := by
  have hgood := h.good p
  rw [hpc] at hgood
  unfold State.advance at hs
  rw [hpc] at hs
  obtain ⟨s₁, hs₁, hs⟩ := Option.bind_eq_some_iff.1 hs
  have h₁ := hgood.ilock (List.mem_cons_self ..) hs₁
  dsimp only at hs
  split_ifs at hs with hdir
  · cases hs
    exact h₁.goto _ rfl ⟨Hold.ok_unlocked, trivial⟩
  · obtain ⟨s₂, hs₂, hs⟩ := Option.bind_eq_some_iff.1 hs
    have htype : (s₁.ino ip).type ≠ none := h₁.memory.valid ip (h₁.memory.busy ip
      (by simp [h₁.memory.busy_iff.2 (List.mem_cons_self ..)]))
    have hcount := h₁.nlink (i := ip) (k := (s₁.ino ip).nlink + 1)
      { refs := [ip], locked := [ip], links := [ip] } (List.mem_cons_self ..)
      (by simp [Hold.owed, Pc.hold]) (fun j hj => by simp [Hold.owed, Pc.hold, Ne.symm hj])
      (fun hd => absurd hd hdir) (Hold.ok_locked (by simp)) rfl rfl
      (State.rely_of (by simpa using ⟨hdir, htype⟩) (List.forall_mem_nil _) rfl)
    exact (hcount.iunlock rfl Hold.ok_unlocked hs₂).namex (.linkNew ip) hs

/-- The second part of `sys_link` -/
theorem Inv.linkDir {name : Name} (h : Inv n s) (hpc : s.pc p = .linkDir ip dp name)
    (hs : s.advance n p f = some s') : Inv n s' := by
  have hgood := h.good p
  rw [hpc] at hgood
  unfold State.advance at hs
  rw [hpc] at hs
  obtain ⟨s₁, hs₁, hs⟩ := Option.bind_eq_some_iff.1 hs
  have h₁ := hgood.ilock (List.mem_cons_self ..) hs₁
  dsimp only at hs
  split_ifs at hs with hdir
  have hplain := h₁.rely_self.links ip (List.mem_cons_self ..)
  split at hs
  · cases hs
    refine (h₁.perm { refs := [dp, ip], locked := [dp], links := [ip] } (Hold.ok_locked (by simp))
      (List.Perm.refl _) (List.Perm.refl _) (List.Perm.refl _)
      (State.rely_of h₁.rely_self.links (List.forall_mem_nil _) rfl)).goto _ rfl ?_
    exact ⟨Hold.ok_unlocked, trivial⟩
  · rename_i ents hents
    cases hs
    unfold dirlink at hents
    split_ifs at hents
    cases hents
    have hne : dp ≠ ip := fun heq => hplain.1 (heq ▸ not_not.1 hdir)
    have hlink := h₁.stray.link (d := dp) (i := ip) (k := (s₁.ino dp).nlink) name
      { refs := [dp, ip], locked := [dp], dirs := [dp] } (List.mem_cons_self ..) (not_not.1 hdir)
      (h₁.books.inum ip hplain.2).1 (fun hd => absurd hd hplain.1) (by rw [stray_ino, if_neg hplain.1, add_zero])
      stray_spec (by simpa [Hold.owed, Pc.hold] using hne) (List.Perm.refl _)
      (Hold.ok_of (by simp) (by simp) (List.nil_subset _) rfl) rfl rfl rfl
      (State.rely_of (List.forall_mem_nil _) (List.forall_mem_singleton.2 (not_not.1 hdir)) rfl)
    refine (hlink.perm { refs := [dp, ip], locked := [dp] } (Hold.ok_locked (by simp))
      (List.Perm.refl _) (List.Perm.refl _) (List.Perm.refl _) State.rely_nil).goto _ rfl ?_
    refine ⟨Hold.ok_unlocked, ?_, rfl, trivial⟩
    exact Hold.ok_unlocked

/-- The first part of `sys_unlink` -/
theorem Inv.unlinkDir {name : Name} (h : Inv n s) (hpc : s.pc p = .unlinkDir dp name)
    (hs : s.advance n p f = some s') : Inv n s' := by
  have hgood := h.good p
  rw [hpc] at hgood
  unfold State.advance at hs
  rw [hpc] at hs
  obtain ⟨s₁, hs₁, hs⟩ := Option.bind_eq_some_iff.1 hs
  have h₁ := hgood.ilock (List.mem_cons_self ..) hs₁
  have hquit : Inv n (s₁.goto p (.unlockput dp (.client .err))) :=
    (h₁.perm { refs := [dp], locked := [dp] } (Hold.ok_locked (by simp))
      (List.Perm.refl _) (List.Perm.refl _) (List.Perm.refl _) State.rely_nil).goto _ rfl
      ⟨Hold.ok_unlocked, trivial⟩
  split_ifs at hs with hdir hdots
  · cases hs
    exact hquit
  · split at hs
    · cases hs
      exact hquit
    · rename_i ip off hfound
      obtain ⟨s₂, hs₂, hs⟩ := Option.bind_eq_some_iff.1 hs
      cases hs
      obtain ⟨hip, hget⟩ := dirlookup_eq_some hfound
      obtain ⟨up, hshaped⟩ := h₁.books.shaped dp (not_not.1 hdir)
      obtain ⟨hdot, hdotdot⟩ := not_or.1 hdots
      have hoff := hshaped.two_le hget hdot hdotdot
      obtain ⟨h₂, hsame⟩ := h₁.iget hs₂
      have hentry := h₂.perm { refs := [ip, dp], locked := [dp], dirs := [dp], entry := some (dp, ip, off) }
        ⟨by simp, by simp, List.nil_subset _, fun x hx => by cases hx; simp⟩
        (List.Perm.refl _) (List.Perm.refl _) (List.Perm.refl _)
        ⟨List.forall_mem_nil _, h₂.rely_self.dirs, fun d i off hx => by
          cases hx
          rw [hsame.ents]
          exact ⟨hoff, hip, name, hget⟩⟩
      exact hentry.goto _ rfl trivial

/-- The second part of `sys_unlink` -/
theorem Inv.unlinkIp {off : ℕ} (h : Inv n s) (hpc : s.pc p = .unlinkIp dp ip off)
    (hs : s.advance n p f = some s') : Inv n s' := by
  have hgood := h.good p
  rw [hpc] at hgood
  unfold State.advance at hs
  rw [hpc] at hs
  obtain ⟨s₁, hs₁, hs⟩ := Option.bind_eq_some_iff.1 hs
  have h₁ := hgood.ilock (List.mem_cons_self ..) hs₁
  dsimp only at hs
  split at hs
  · cases hs
  split at hs
  · cases hs
    refine (h₁.perm { refs := [ip, dp], locked := [ip, dp] } (Hold.ok_locked (by simp))
      (List.Perm.refl _) (List.Perm.refl _) (List.Perm.refl _) State.rely_nil).goto _ rfl ?_
    exact ⟨Hold.ok_locked (List.Subset.refl [dp]), Hold.ok_unlocked, trivial⟩
  · cases hs
    have hrely := h₁.rely_self
    have hperm := h₁.perm
      { refs := [dp, ip], locked := [dp, ip], dirs := [dp], entry := some (dp, ip, off) }
      ⟨by simp, by simp, List.nil_subset _, fun x hx => by cases hx; simp⟩ (List.Perm.swap ..)
      (List.Perm.swap ..) (List.Perm.refl _) ⟨List.forall_mem_nil _, hrely.dirs, hrely.entry⟩
    have hempty : targets (s₁.ino ip).ents = [] := by
      by_cases hdir : (s₁.ino ip).type = some .dir
      · rename_i hfull
        exact isdirempty_iff.1 (Bool.eq_true_of_not_eq_false fun hnot => hfull ⟨hdir, hnot⟩)
      · rw [h₁.books.plain ip hdir]
        rfl
    have herase := hperm.erase (d := dp) (i := ip)
      (k := if (s₁.ino ip).type = some .dir then (s₁.ino dp).nlink - 1 else (s₁.ino dp).nlink)
      { refs := [dp, ip], locked := [dp, ip], unlinks := [ip] } (List.mem_cons_self ..)
      (hrely.dirs dp (List.mem_cons_self ..)) rfl hempty (by split_ifs <;> simp) (List.Perm.refl _)
      (Hold.ok_of (by simp) (List.nil_subset _) (by simp) rfl) rfl rfl rfl State.rely_nil
    exact herase.goto (.unlockput dp (.unlinkDec ip)) rfl
      ⟨Hold.ok_of (List.Subset.refl [ip]) (List.nil_subset _) (List.Subset.refl [ip]) rfl, trivial⟩

/-- `create` in its directory -/
theorem Inv.createDir {name : Name} {type : Kind} (h : Inv n s) (hpc : s.pc p = .createDir dp name type made)
    (hs : s.advance n p f = some s') : Inv n s' := by
  have hgood := h.good p
  rw [hpc] at hgood
  unfold State.advance at hs
  rw [hpc] at hs
  obtain ⟨s₁, hs₁, hs⟩ := Option.bind_eq_some_iff.1 hs
  have h₁ := hgood.ilock (List.mem_cons_self ..) hs₁
  split_ifs at hs with hdir
  split at hs
  · rename_i ip off hfound
    obtain ⟨s₂, hs₂, hs⟩ := Option.bind_eq_some_iff.1 hs
    cases hs
    refine ((h₁.iget hs₂).1.perm { refs := [dp, ip], locked := [dp] }
      (Hold.ok_locked (by simp)) (List.Perm.swap ..) (List.Perm.refl _) (List.Perm.refl _)
      State.rely_nil).goto _ rfl ?_
    exact ⟨Hold.ok_unlocked, trivial⟩
  · obtain ⟨ip, hip, hs⟩ := Option.bind_eq_some_iff.1 hs
    obtain ⟨s₂, hs₂, hs⟩ := Option.bind_eq_some_iff.1 hs
    cases hs
    obtain ⟨hfree, hzero, hlt⟩ := ialloc_eq_some hip
    obtain ⟨h₂, hsame⟩ := h₁.iget hs₂
    exact h₂.create (by rw [hsame.type, hfree]) ⟨hzero, hlt⟩

/-- The last part of `sys_chdir` -/
theorem Inv.chdirIp (h : Inv n s) (hpc : s.pc p = .chdirIp ip)
    (hs : s.advance n p f = some s') : Inv n s' := by
  have hgood := h.good p
  rw [hpc] at hgood
  unfold State.advance at hs
  rw [hpc] at hs
  obtain ⟨s₁, hs₁, hs⟩ := Option.bind_eq_some_iff.1 hs
  have h₁ := hgood.ilock (List.mem_cons_self ..) hs₁
  split_ifs at hs
  · cases hs
    exact h₁.goto _ rfl ⟨Hold.ok_unlocked, trivial⟩
  · obtain ⟨s₂, hs₂, hs⟩ := Option.bind_eq_some_iff.1 hs
    obtain ⟨old, hold, hs⟩ := Option.bind_eq_some_iff.1 hs
    cases hs
    have h₂ := h₁.iunlock rfl Hold.ok_unlocked hs₂
    have hcwd := h₂.cwd (c := some ip) { refs := [old] } (by rw [hold]; exact List.Perm.swap ..)
      Hold.ok_unlocked rfl (List.Perm.refl _) State.rely_nil
    exact hcwd.goto _ rfl ⟨Hold.ok_unlocked, rfl, trivial⟩

/-- One step of a process -/
theorem Inv.advance (h : Inv n s) (hs : s.advance n p f = some s') : Inv n s' := by
  have hgood := h.good p
  have hpcok := h.pcs p
  unfold State.advance at hs
  cases hpc : s.pc p with
  | client r =>
    rw [hpc] at hs
    cases hs
  | walk ip path found =>
    rw [hpc] at hs hgood
    exact hgood.walk hs
  | put ip next =>
    rw [hpc] at hs hgood hpcok
    obtain ⟨s₁, hs₁, hs⟩ := Option.bind_eq_some_iff.1 hs
    cases hs
    obtain ⟨hok, -, hnext⟩ := hpcok
    exact (hgood.iput rfl hok hs₁).goto _ rfl hnext
  | unlockput ip next =>
    rw [hpc] at hs hgood hpcok
    obtain ⟨s₁, hs₁, hs⟩ := Option.bind_eq_some_iff.1 hs
    obtain ⟨s₂, hs₂, hs⟩ := Option.bind_eq_some_iff.1 hs
    cases hs
    obtain ⟨hok, hnext⟩ := hpcok
    exact (hgood.unlockput hok hs₁ hs₂).goto _ rfl hnext
  | linkInc ip new => exact h.linkInc hpc hs
  | linkDir ip dp name => exact h.linkDir hpc hs
  | linkBad ip =>
    rw [hpc] at hs hgood
    obtain ⟨s₁, hs₁, hs⟩ := Option.bind_eq_some_iff.1 hs
    have h₁ := hgood.ilock (List.mem_cons_self ..) hs₁
    cases hs
    have hcount := h₁.nlink (i := ip) (k := (s₁.ino ip).nlink - 1) { refs := [ip], locked := [ip] }
      (List.mem_cons_self ..) (by simp [Hold.owed, Pc.hold]) (fun j hj => by simp [Hold.owed, Pc.hold, Ne.symm hj])
      (fun _ => by simp [Hold.owed]) (Hold.ok_locked (by simp)) rfl rfl State.rely_nil
    exact hcount.goto _ rfl ⟨Hold.ok_unlocked, trivial⟩
  | unlinkDir dp name => exact h.unlinkDir hpc hs
  | unlinkIp dp ip off => exact h.unlinkIp hpc hs
  | unlinkDec ip =>
    rw [hpc] at hs hgood
    cases hs
    have hcount := hgood.nlink (i := ip) (k := (s.ino ip).nlink - 1) { refs := [ip], locked := [ip] }
      (List.mem_cons_self ..) (by simp [Hold.owed, Pc.hold]) (fun j hj => by simp [Hold.owed, Pc.hold, Ne.symm hj])
      (fun _ => by simp [Hold.owed]) (Hold.ok_locked (by simp)) rfl rfl State.rely_nil
    exact hcount.goto _ rfl ⟨Hold.ok_unlocked, trivial⟩
  | createDir dp name type made => exact h.createDir hpc hs
  | createOld ip type made =>
    rw [hpc] at hs hgood
    obtain ⟨s₁, hs₁, hs⟩ := Option.bind_eq_some_iff.1 hs
    have h₁ := hgood.ilock (List.mem_cons_self ..) hs₁
    split at hs
    · exact h₁.finish hs
    · cases hs
      exact h₁.goto _ rfl ⟨Hold.ok_unlocked, trivial⟩
  | created ip made =>
    rw [hpc] at hs hgood
    exact hgood.finish hs
  | openIp ip omode =>
    rw [hpc] at hs hgood
    obtain ⟨s₁, hs₁, hs⟩ := Option.bind_eq_some_iff.1 hs
    have h₁ := hgood.ilock (List.mem_cons_self ..) hs₁
    split_ifs at hs
    · cases hs
      exact h₁.goto _ rfl ⟨Hold.ok_unlocked, trivial⟩
    · exact h₁.finish hs
  | chdirIp ip => exact h.chdirIp hpc hs

omit [Fintype P] [Fintype F] [DecidableEq P] [DecidableEq F] in
/-- A process outside of the code holds nothing. -/
theorem hold_idle (h : s.idle p = true) : (s.pc p).hold = {} := by
  unfold State.idle at h
  split at h
  · rename_i r hr
    rw [hr]
    rfl
  · cases h

/-- **One step** -/
theorem Inv.next (h : Inv n s) (hs : (dirs P F n).next s l = some s') : Inv n s' := by
  change s.step n l = some s' at hs
  have hstart : ∀ {p : P}, s.idle p = true → Good n s p {} := fun {p} hidle => hold_idle hidle ▸ h.good p
  cases l with
  | «open» p path create checked omode =>
    dsimp only [State.step] at hs
    split_ifs at hs with hidle <;> exact (hstart hidle).namex _ hs
  | mkdir p path =>
    dsimp only [State.step] at hs
    split_ifs at hs with hidle
    exact (hstart hidle).namex _ hs
  | mknod p path =>
    dsimp only [State.step] at hs
    split_ifs at hs with hidle
    exact (hstart hidle).namex _ hs
  | link p old new =>
    dsimp only [State.step] at hs
    split_ifs at hs with hidle
    exact (hstart hidle).namex _ hs
  | unlink p path =>
    dsimp only [State.step] at hs
    split_ifs at hs with hidle
    exact (hstart hidle).namex _ hs
  | chdir p path =>
    dsimp only [State.step] at hs
    split_ifs at hs with hidle
    exact (hstart hidle).namex _ hs
  | close p f =>
    dsimp only [State.step] at hs
    split_ifs at hs with hidle
    obtain ⟨i, hi, rfl⟩ := Option.map_eq_some_iff.1 hs
    have hfiles := (hstart hidle).files (g := f) (c := none) { refs := [i] }
      (by rw [hi]; exact List.Perm.refl _) Hold.ok_unlocked rfl (List.Perm.refl _)
      State.rely_nil
    exact hfiles.goto _ rfl ⟨Hold.ok_unlocked, rfl, trivial⟩
  | fork p q =>
    dsimp only [State.step] at hs
    split_ifs at hs with hidle
    obtain ⟨i, hi, rfl⟩ := Option.map_eq_some_iff.1 hs
    obtain ⟨-, hq, hnone⟩ := hidle
    have hdup := (hstart hq).idup (i := i)
    have hcwd := hdup.cwd (c := some i) {} (by
      change ([i] ++ (s.cwd q).toList).Perm _
      rw [hnone]
      exact List.Perm.refl _) Hold.ok_unlocked rfl (List.Perm.refl _)
      State.rely_nil
    exact Good.inv (p := q) ((hold_idle hq).symm ▸ hcwd) (h.pcs q)
  | exit p =>
    dsimp only [State.step] at hs
    split_ifs at hs with hidle
    obtain ⟨i, hi, rfl⟩ := Option.map_eq_some_iff.1 hs
    have hcwd := (hstart hidle).cwd (c := none) { refs := [i] } (by rw [hi]; exact List.Perm.refl _)
      Hold.ok_unlocked rfl (List.Perm.refl _) State.rely_nil
    exact hcwd.goto _ rfl ⟨Hold.ok_unlocked, rfl, trivial⟩
  | advance p f => exact h.advance hs

/-- **Every run keeps the invariant.** -/
theorem Inv.of_run {ls : List (Label P F)} (h : Inv n s) (hs : (dirs P F n).run s ls = some s') : Inv n s' :=
  Machine.run_invariant hs h fun _ _ _ hinv hl => hinv.next hl

end Dirs

end OperatingSystems

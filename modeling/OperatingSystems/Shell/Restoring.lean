import OperatingSystems.Shell.Foreground

/-!
# The descriptors of the shell

`runCommand` copies descriptor 1 whatever the command is, and closes the copy only where it restores
descriptor 1: at its end, after a redirection.

* `State.Restored` : the descriptors of the prompt, or those that the end of `runCommand` turns into
  them.
* `Restores` : **the exact condition** on a line.
* `descriptors_restored` : the descriptors at each prompt of a run of such lines.
* `copy_left_open` : a line that leaves the copy open.
-/

namespace OperatingSystems

namespace Shell

variable {limit : ℕ} {s s' : State} {cmd : Command} {res : Results} {v : Saved}
  {fds : Descriptors}

/-- At a prompt the descriptors are `fds`; where the shell waits, they are when `runCommand` has
ended. -/
def State.Restored (fds : Descriptors) (s : State) : Prop :=
  match s.phase with
  | .prompt => s.fds = fds
  | .foreground _ v | .waitAll v => (s.finish v).fds = fds
  | .exited => True

/-- The command ends the shell. -/
def Exits (cmd : Command) (res : Results) : Prop :=
  cmd.name = "exit" ∨ ¬ cmd.Builtin ∧ res.fork = none

/-- A line that leaves the descriptors as they are: `main` rejects it, its command ends the shell, no
descriptor is free for the copy, or it is a redirection to a file that can be opened, and not of a
`wait` with arguments. -/
def Restores (limit : ℕ) (s : State) : Label → Prop
  | .runCommand cmd res => (s.prepare limit cmd res).isSome ∧ (Exits cmd res ∨
      if cmd.redirect then (s.fds.lowest limit).isSome ∧ ¬ (cmd.name = "wait" ∧ cmd.args.length > 1)
      else s.fds.lowest limit = none)
  | _ => True

/-! ### Copies of descriptor 1 -/

theorem lowest_eq_some {d : ℕ} (h : fds.lowest limit = some d) : d < limit ∧ fds d = none := by
  refine ⟨List.mem_range.1 (List.mem_of_find?_eq_some h), ?_⟩
  simpa using List.find?_some h

theorem dup_eq {d : ℕ} (h1 : fds 1 ≠ none) (h : fds.lowest limit = some d) :
    fds.dup limit 1 = (some d, Function.update fds d (fds 1)) := by
  obtain ⟨f, hf⟩ := Option.ne_none_iff_exists'.1 h1
  simp only [Descriptors.dup, hf, h]

theorem dup_of_none (n : ℕ) (h : fds.lowest limit = none) : fds.dup limit n = (none, fds) := by
  unfold Descriptors.dup
  rw [h]
  cases fds n <;> rfl

/-- Descriptor 1 is the one that `open` takes after `close(STDOUT_FILENO)`. -/
theorem lowest_update (h0 : fds 0 ≠ none) (hlimit : 1 < limit) :
    Descriptors.lowest limit (Function.update fds 1 none) = some 1 := by
  obtain ⟨n, rfl⟩ := Nat.exists_eq_add_of_le' hlimit
  unfold Descriptors.lowest
  rw [show n + 2 = 2 + n by omega, List.range_add, List.find?_append]
  simp [List.range_succ, h0]

theorem openFile_eq {fds' : Descriptors} {name : String} (h0 : fds 0 ≠ none)
    (h : (fds.close (some 1)).openFile limit name = some fds') :
    fds' = Function.update fds 1 (some (.opened name)) := by
  obtain ⟨d, hd, rfl⟩ := Option.map_eq_some_iff.1 h
  have hlimit : 1 < limit := by
    by_contra hle
    obtain ⟨hlt, hnone⟩ := lowest_eq_some hd
    obtain rfl : d = 0 := by omega
    exact h0 ((Function.update_of_ne Nat.zero_ne_one _ _).symm.trans hnone)
  rw [Descriptors.close, lowest_update h0 hlimit] at hd
  rw [← Option.some.inj hd, Descriptors.close, Function.update_idem]

/-- **The end of a redirection** undoes its beginning. -/
theorem finish_redirect {d : ℕ} (h1 : fds 1 ≠ none) (hd : fds d = none) (f : Option File) :
    Descriptors.close (Descriptors.dup2
      (Function.update (Function.update fds d (fds 1)) 1 f) (some d) 1) (some d) = fds := by
  have hne : d ≠ 1 := fun h => h1 (h ▸ hd)
  obtain ⟨g, hg⟩ := Option.ne_none_iff_exists'.1 h1
  have hcopy : Function.update (Function.update fds d (fds 1)) 1 f d = some g := by
    rw [Function.update_of_ne hne, Function.update_self, hg]
  simp only [Descriptors.dup2, Descriptors.close, Option.bind_some, hcopy]
  funext n
  by_cases hn : n = d
  · rw [hn, Function.update_self, hd]
  by_cases hn1 : n = 1
  · rw [Function.update_of_ne hn, hn1, Function.update_self, hg]
  · simp [hn, hn1]

/-! ### Lines -/

/-- The descriptors when the command is chosen. -/
theorem prepare_fds {t : State} (h0 : s.fds 0 ≠ none) (h : s.prepare limit cmd res = some t) :
    t.fds = if cmd.redirect then Function.update (s.fds.dup limit 1).2 1
      (some (.opened (cmd.args.getLast cmd.nonempty))) else (s.fds.dup limit 1).2 := by
  have hdup : (s.fds.dup limit 1).2 0 ≠ none := by
    unfold Descriptors.dup
    split
    · next d hf hd =>
      have hd0 : 0 ≠ d := by
        rintro rfl
        exact h0 (lowest_eq_some hd).2
      exact (Function.update_of_ne hd0 _ _).trans_ne h0
    · exact h0
  unfold State.prepare at h
  dsimp only at h
  split_ifs at h ⊢
  · obtain ⟨fds', hfds', rfl⟩ := Option.map_eq_some_iff.1 h
    exact openFile_eq hdup hfds'
  · cases h
    rfl

/-- **What the end of `runCommand` leaves.** -/
theorem finish_prepare {t : State} (h0 : s.fds 0 ≠ none) (h1 : s.fds 1 = some .stdout)
    (h : s.prepare limit cmd res = some t) :
    (t.finish ⟨cmd.redirect, (s.fds.dup limit 1).1⟩).fds = s.fds ↔
      if cmd.redirect then (s.fds.lowest limit).isSome = true else s.fds.lowest limit = none := by
  have hne : s.fds 1 ≠ none := by simp [h1]
  have hfds := prepare_fds h0 h
  unfold State.finish
  cases hlow : s.fds.lowest limit with
  | none =>
    rw [dup_of_none 1 hlow] at hfds ⊢
    cases hr : cmd.redirect with
    | false => simp [hfds, hr]
    | true =>
      -- the copy failed, and there is nothing to restore
      simp only [hr, if_true] at hfds
      refine iff_of_false (fun heq => ?_) (by simp)
      have hout := congrFun heq 1
      simp [Descriptors.dup2, Descriptors.close, hfds, h1] at hout
  | some d =>
    obtain ⟨-, hd⟩ := lowest_eq_some hlow
    rw [dup_eq hne hlow] at hfds ⊢
    cases hr : cmd.redirect with
    | false =>
      -- the copy stays open
      simp only [hr, Bool.false_eq_true, if_false] at hfds ⊢
      refine iff_of_false (fun heq => ?_) (by simp)
      have hcopy := congrFun heq d
      rw [hfds, Function.update_self, hd] at hcopy
      exact hne hcopy
    | true =>
      simp only [hr, if_true] at hfds ⊢
      rw [hfds]
      exact iff_of_true (finish_redirect hne hd _) rfl

/-- During a redirection, descriptor 1 is another file. -/
theorem prepare_ne {t : State} (h0 : s.fds 0 ≠ none) (h1 : s.fds 1 = some .stdout)
    (hr : cmd.redirect = true) (h : s.prepare limit cmd res = some t) : t.fds ≠ s.fds := by
  intro heq
  have hout := congrFun heq 1
  rw [prepare_fds h0 h, if_pos hr, Function.update_self, h1] at hout
  cases hout

/-- **The ends of `runCommand`**: the shell exits, a `wait` with arguments returns at once, and
everything else goes on to the restoring code. -/
theorem execute_restored {t : State} (h : t.execute cmd res v = some s') :
    Exits cmd res ∧ s'.phase = .exited ∨ ¬ Exits cmd res ∧
      ((cmd.name = "wait" ∧ cmd.args.length > 1) ∧ s'.phase = .prompt ∧ s'.fds = t.fds ∨
      ¬ (cmd.name = "wait" ∧ cmd.args.length > 1) ∧
        ∀ fds, s'.Restored fds ↔ (t.finish v).fds = fds) := by
  by_cases hb : cmd.Builtin
  · have hexits : Exits cmd res ↔ cmd.name = "exit" := by simp [Exits, hb]
    rw [hexits]
    obtain hname | hname | hname | hname := hb <;>
      simp only [State.execute, hname, String.reduceEq, if_true, if_false] at h
    · cases h
      simp [hname]
    · cases h
      simp [hname, State.Restored]
    · cases h
      simp [hname, State.Restored]
    · split_ifs at h with hargs <;> cases h <;> simp [hname, hargs, State.Restored, State.finish]
  · have hwait : cmd.name ≠ "wait" := fun hname => hb (Or.inr (Or.inr (Or.inr hname)))
    have hexit : cmd.name ≠ "exit" := fun hname => hb (Or.inl hname)
    obtain ⟨hfork, rfl⟩ | ⟨pid, hfork, -⟩ := execute_external hb h
    · exact Or.inl ⟨Or.inr ⟨hb, hfork⟩, rfl⟩
    · refine Or.inr ⟨by simp [Exits, hexit, hfork], Or.inr ⟨fun hw => hwait hw.1, fun fds => ?_⟩⟩
      obtain ⟨h₁, h₂, h₃, h₄⟩ : cmd.name ≠ "exit" ∧ cmd.name ≠ "cd" ∧ cmd.name ≠ "pwd" ∧
          cmd.name ≠ "wait" := by
        simpa [Command.Builtin] using hb
      simp only [State.execute, h₁, h₂, h₃, h₄, if_false, hfork] at h
      split_ifs at h <;> cases h <;> rfl

theorem restored_runCommand (h0 : s.fds 0 ≠ none) (h1 : s.fds 1 = some .stdout)
    (h : s.runCommand limit cmd res = some s') :
    s'.Restored s.fds ↔ Restores limit s (.runCommand cmd res) := by
  unfold State.runCommand at h
  simp only [Restores]
  cases hprep : s.prepare limit cmd res with
  | none =>
    rw [hprep] at h
    cases h
    refine iff_of_false (fun heq => ?_) (by simp)
    have hout := congrFun heq 1
    simp [Descriptors.close, h1] at hout
  | some t =>
    rw [hprep] at h
    have hfinish := finish_prepare h0 h1 hprep
    simp only [Option.isSome_some, true_and]
    obtain ⟨he, hphase⟩ | ⟨he, ⟨hw, hphase, hfds⟩ | ⟨hw, hrestored⟩⟩ := execute_restored h
    · exact iff_of_true (by simp [State.Restored, hphase]) (Or.inl he)
    · rw [or_iff_right he, State.Restored, hphase, hfds]
      cases hr : cmd.redirect with
      | false => simpa [hr, State.finish] using hfinish
      | true => exact iff_of_false (prepare_ne h0 h1 hr hprep) fun hc => hc.2 hw
    · rw [or_iff_right he, hrestored, hfinish]
      simp only [hw, not_false_iff, and_true]

/-! ### Runs -/

/-- The shell waits, or is at a prompt where descriptors 0 and 1 are open. -/
theorem restored_next {lab : Label} (h0 : fds 0 ≠ none) (h1 : fds 1 = some .stdout)
    (hs : s.Restored fds) (hnext : (mysh limit).next s lab = some s') :
    s'.Restored fds ↔ Restores limit s lab := by
  cases lab with
  | runCommand cmd res =>
    simp only [mysh] at hnext
    split at hnext
    case h_1 hphase =>
      obtain rfl : s.fds = fds := by simpa only [State.Restored, hphase] using hs
      exact restored_runCommand h0 h1 hnext
    case h_2 => cases hnext
  | skip =>
    simp only [mysh] at hnext
    split at hnext <;> cases hnext
    exact iff_of_true hs trivial
  | done =>
    simp only [mysh] at hnext
    split at hnext <;> cases hnext
    exact iff_of_true trivial trivial
  | ends q =>
    simp only [mysh] at hnext
    split at hnext <;> cases hnext
    exact iff_of_true hs trivial
  | reap q =>
    -- `wait` changes no descriptor
    refine iff_of_true ?_ trivial
    simp only [mysh] at hnext
    split at hnext
    · split at hnext
      · next v hphase =>
        cases hnext
        rw [State.Restored, hphase] at hs
        exact hs
      · next v hphase =>
        cases hnext
        rw [State.Restored, hphase] at hs
        split
        · exact hs
        · rw [State.Restored, show (s.remove q).phase = .waitAll v from hphase]
          exact hs
      · cases hnext
    · cases hnext
  | noChild =>
    refine iff_of_true ?_ trivial
    simp only [mysh] at hnext
    split at hnext
    · split at hnext
      · next v hphase =>
        cases hnext
        rw [State.Restored, hphase] at hs
        exact hs
      · next v hphase =>
        cases hnext
        rw [State.Restored, hphase] at hs
        exact hs
      · cases hnext
    · cases hnext

/-- **The descriptors at the prompts**: the lines of a run all leave the descriptors as they are if
and only if all its states have those of the first prompt, up to the restoring code; in such a run
they are the descriptors of each prompt. -/
theorem descriptors_restored {ls : List Label} (h0 : s.fds 0 ≠ none) (h1 : s.fds 1 = some .stdout)
    (hphase : s.phase = .prompt) (h : (mysh limit).run s ls = some s') :
    ((mysh limit).Allowed (Restores limit) s ls →
      (mysh limit).Always (fun t => t.phase = .prompt → t.fds = s.fds) s ls) ∧
    ((mysh limit).Always (State.Restored s.fds) s ls ↔
      (mysh limit).Allowed (Restores limit) s ls) := by
  have hs : s.Restored s.fds := by
    rw [State.Restored, hphase]
  refine ⟨fun hgood => ?_, Machine.always_iff_allowed (I := fun _ => True) (fun _ _ _ _ _ => trivial)
    (fun _ _ _ _ ht hnext => restored_next h0 h1 ht hnext) h trivial hs⟩
  refine hgood.always (I := State.Restored s.fds) hs
    (fun t lab t' ht hlab hnext => (restored_next h0 h1 ht hnext).2 hlab) fun t ht htp => ?_
  rwa [State.Restored, htp] at ht

/-- `pwd > out` -/
def redirected : Command := ⟨["pwd", "out"], true, false, false, by simp⟩

theorem descriptors_restored_redirected : (mysh 1024).Always
    (fun t => t.phase = .prompt → t.fds = init.fds) init [.runCommand redirected (forked 1)] := by
  have hgood : (mysh 1024).Allowed (Restores 1024) init [.runCommand redirected (forked 1)] :=
    ⟨⟨by decide +kernel, Or.inr ⟨by decide +kernel, by decide⟩⟩, fun _ _ => trivial⟩
  obtain ⟨s', hrun⟩ : ∃ s', (mysh 1024).run init [.runCommand redirected (forked 1)] = some s' :=
    Option.isSome_iff_exists.1 (by decide +kernel)
  exact (descriptors_restored (by decide) rfl rfl hrun).1 hgood

/-- After `pwd`, the copy of descriptor 1 is still open. -/
theorem copy_left_open : ∃ s res, (mysh 1024).run init
      [.runCommand ⟨["pwd"], false, false, false, by simp⟩ res] = some s ∧ s.phase = .prompt ∧
    init.fds 3 = none ∧ s.fds 3 = some .stdout := by
  refine ⟨_, forked 1, rfl, rfl, rfl, ?_⟩
  decide +kernel

end Shell

end OperatingSystems

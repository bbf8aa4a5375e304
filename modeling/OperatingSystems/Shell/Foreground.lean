import OperatingSystems.Shell.Commands

/-!
# Foreground commands

The shell waits for a foreground command with `wait(NULL)`, which takes any child that has ended.

* `EndsFirst` : whatever child `wait` takes, the prompt is reached only after the end of the
  foreground command.
* `OthersWait` : no other child ends while the shell waits, or before that without being waited for.
* `endsFirst_iff` : **the exact condition** under which a run waits for all its foreground commands.
* `prompt_before_end` : a run that does not.
-/

namespace OperatingSystems

namespace Shell

/-- Whatever step comes next, it brings the shell back to its prompt from a foreground command only
if the command's child has ended. -/
def EndsFirst (limit : ℕ) (s : State) : Prop :=
  ∀ lab s' pid v, (mysh limit).next s lab = some s' → s.phase = .foreground pid v →
    s'.phase = .prompt → ∀ c ∈ s'.children, c.pid = pid → c.ended

/-- The command is external, gets to its `fork`, and the shell then waits for it. -/
def Waits (limit : ℕ) (s : State) (cmd : Command) (res : Results) : Prop :=
  ¬ cmd.Builtin ∧ cmd.background = false ∧ (s.prepare limit cmd res).isSome ∧ res.fork.isSome

/-- When a foreground command begins, no child that has ended is left; and while the shell waits for
it, no other child ends before it. -/
def OthersWait (limit : ℕ) (s : State) : Label → Prop
  | .runCommand cmd res => Waits limit s cmd res → ∀ c ∈ s.children, c.ended = false
  | .ends q => ∀ pid v, s.phase = .foreground pid v →
      q = pid ∨ ∀ c ∈ s.children, c.pid = pid → c.ended
  | _ => True

variable {limit : ℕ} {s s' : State} {cmd : Command} {res : Results} {pid : ℕ} {v : Saved}

/-- What `wait` may take. -/
theorem endsFirst_iff_children : EndsFirst limit s ↔ ∀ pid v, s.phase = .foreground pid v →
    ∀ c ∈ s.children, c.ended → c.pid = pid ∨ ∀ c' ∈ s.children, c'.pid = pid → c'.ended := by
  constructor
  · intro h pid v hphase c hc hended
    refine or_iff_not_imp_left.2 fun hne c' hc' hpid => ?_
    -- `wait` takes `c`
    have hnext : (mysh limit).next s (.reap c.pid) = some ((s.remove c.pid).finish v) := by
      have hany : (s.children.any fun c' => c'.pid = c.pid ∧ c'.ended = true) = true :=
        List.any_eq_true.2 ⟨c, hc, by simp [hended]⟩
      simp only [mysh, hany, if_true, hphase]
    refine h _ _ pid v hnext hphase rfl c' (List.mem_filter.2 ⟨hc', ?_⟩) hpid
    simpa [hpid] using Ne.symm hne
  · intro h lab s' pid v hnext hphase hprompt c hc hpid
    cases lab with
    | runCommand | skip | done =>
      simp [mysh, hphase] at hnext
    | ends q =>
      simp only [mysh] at hnext
      split at hnext
      · cases hnext
        rw [show (s.ends q).phase = s.phase from rfl, hphase] at hprompt
        cases hprompt
      · cases hnext
    | reap q =>
      simp only [mysh, hphase] at hnext
      split at hnext
      · next hany =>
        cases hnext
        obtain ⟨c', hc', hq⟩ := List.any_eq_true.1 hany
        obtain ⟨hq, hended⟩ : c'.pid = q ∧ c'.ended = true := by simpa using hq
        obtain ⟨hc, hne⟩ : c ∈ s.children ∧ c.pid ≠ q := by
          simpa [State.remove] using hc
        obtain heq | hall := h pid v hphase c' hc' hended
        · exact absurd (hpid.trans (heq.symm.trans hq)) hne
        · exact hall c hc hpid
      · cases hnext
    | noChild =>
      simp only [mysh, hphase] at hnext
      split at hnext
      · next hnil =>
        cases hnext
        simp [hnil] at hc
      · cases hnext

theorem runCommand_waits (hw : Waits limit s cmd res)
    (h : s.runCommand limit cmd res = some s') :
    ∃ pid v, (∀ c ∈ s.children, c.pid ≠ pid) ∧ s'.phase = .foreground pid v ∧
      s'.children = ⟨pid, cmd.exec.1, cmd.exec.2, false⟩ :: s.children := by
  obtain ⟨hb, hbg, hprep, hfork⟩ := hw
  obtain ⟨t, ht⟩ := Option.isSome_iff_exists.1 hprep
  simp only [State.runCommand, ht] at h
  obtain ⟨hnone, -⟩ | ⟨pid, -, hfresh, hch, hph⟩ := execute_external hb h
  · simp [hnone] at hfork
  · rw [prepare_children ht] at hfresh hch
    exact ⟨pid, _, hfresh, by simpa [hbg] using hph, hch⟩

theorem runCommand_not_waits (hw : ¬ Waits limit s cmd res)
    (h : s.runCommand limit cmd res = some s') : s'.phase ≠ .foreground pid v := by
  unfold State.runCommand at h
  split at h
  case h_1 => cases h; simp
  case h_2 t ht =>
    by_cases hb : cmd.Builtin
    · exact execute_builtin hb h
    obtain ⟨-, rfl⟩ | ⟨pid, hfork, -, -, hph⟩ := execute_external hb h
    · simp
    · rw [hph]
      split
      · simp
      · next hbg => exact absurd ⟨hb, by simpa using hbg, by simp [ht], by simp [hfork]⟩ hw

theorem endsFirst_of_phase (h : ∀ pid v, s.phase ≠ .foreground pid v) : EndsFirst limit s :=
  endsFirst_iff_children.2 fun pid v hphase => absurd hphase (h pid v)

/-- The shell has just forked the child that it waits for. -/
theorem endsFirst_forked {c : Child} (hphase : s'.phase = .foreground c.pid v)
    (hch : s'.children = c :: s.children) (hfresh : ∀ c' ∈ s.children, c'.pid ≠ c.pid)
    (hc : c.ended = false) : EndsFirst limit s' ↔ ∀ c' ∈ s.children, c'.ended = false := by
  rw [endsFirst_iff_children, hphase, hch]
  constructor
  · intro h c' hc'
    by_contra hended
    obtain heq | hall := h c.pid v rfl c' (List.mem_cons_of_mem _ hc') (by simpa using hended)
    · exact hfresh c' hc' heq
    · simpa [hc] using hall c List.mem_cons_self rfl
  · rintro h pid v' hpid c' hc' hended
    cases hpid
    obtain rfl | hc' := List.mem_cons.1 hc'
    · exact Or.inl rfl
    · simp [h c' hc'] at hended

/-- A child ends while the shell waits for `pid`. -/
theorem endsFirst_ends {q : ℕ} (h : EndsFirst limit s)
    (hq : ∃ c ∈ s.children, c.pid = q ∧ c.ended = false) :
    EndsFirst limit (s.ends q) ↔ OthersWait limit s (.ends q) := by
  have hmem : ∀ c ∈ (s.ends q).children, ∃ c₀ ∈ s.children,
      (if c₀.pid = q then { c₀ with ended := true } else c₀) = c :=
    fun c hc => List.mem_map.1 hc
  rw [endsFirst_iff_children] at h ⊢
  constructor
  · intro h' pid v hphase
    refine or_iff_not_imp_left.2 fun hne c hc hpid => ?_
    obtain ⟨cq, hcq, hpq, -⟩ := hq
    obtain heq | hall := h' pid v hphase { cq with ended := true }
      (List.mem_map.2 ⟨cq, hcq, if_pos hpq⟩) rfl
    · exact absurd (hpq.symm.trans heq) hne
    · refine hall c (List.mem_map.2 ⟨c, hc, if_neg ?_⟩) hpid
      exact fun he => hne (he.symm.trans hpid)
  · intro hg pid v hphase c hc hended
    -- the children that have ended stay so
    have hkeep : (∀ c' ∈ s.children, c'.pid = pid → c'.ended = true) →
        ∀ c' ∈ (s.ends q).children, c'.pid = pid → c'.ended = true := by
      intro hall c' hc' hpid
      obtain ⟨c₀, hc₀, rfl⟩ := hmem c' hc'
      by_cases hc₀q : c₀.pid = q
      · rw [if_pos hc₀q]
      · rw [if_neg hc₀q] at hpid ⊢
        exact hall c₀ hc₀ hpid
    obtain ⟨c₀, hc₀, rfl⟩ := hmem c hc
    by_cases hc₀q : c₀.pid = q
    · rw [if_pos hc₀q]
      exact (hg pid v hphase).imp hc₀q.trans hkeep
    · rw [if_neg hc₀q] at hended ⊢
      exact (h pid v hphase c₀ hc₀ hended).imp_right hkeep

/-- The steps after which the foreground command is still waited for. -/
theorem endsFirst_next {lab : Label} (h : EndsFirst limit s)
    (hnext : (mysh limit).next s lab = some s') : EndsFirst limit s' ↔ OthersWait limit s lab := by
  cases lab with
  | runCommand cmd res =>
    simp only [mysh] at hnext
    split at hnext
    · by_cases hw : Waits limit s cmd res
      · obtain ⟨pid, v, hfresh, hphase, hch⟩ := runCommand_waits hw hnext
        rw [endsFirst_forked (c := ⟨pid, cmd.exec.1, cmd.exec.2, false⟩) hphase hch hfresh rfl]
        exact ⟨fun h _ => h, fun h => h hw⟩
      · exact iff_of_true (endsFirst_of_phase fun _ _ => runCommand_not_waits hw hnext)
          fun h => absurd h hw
    · cases hnext
  | ends q =>
    simp only [mysh] at hnext
    split at hnext
    · next hany =>
      cases hnext
      exact endsFirst_ends h (by simpa using hany)
    · cases hnext
  | skip =>
    simp only [mysh] at hnext
    split at hnext <;> cases hnext
    exact iff_of_true h trivial
  | done =>
    simp only [mysh] at hnext
    split at hnext <;> cases hnext
    exact iff_of_true (endsFirst_of_phase fun _ _ => Phase.noConfusion) trivial
  | reap q =>
    refine iff_of_true (endsFirst_of_phase fun pid v => ?_) trivial
    simp only [mysh] at hnext
    split at hnext
    · split at hnext <;> cases hnext
      · simp
      · next hphase =>
        split
        · simp
        · rw [show (s.remove q).phase = s.phase from rfl, hphase]
          exact Phase.noConfusion
    · cases hnext
  | noChild =>
    refine iff_of_true (endsFirst_of_phase fun pid v => ?_) trivial
    simp only [mysh] at hnext
    split at hnext
    · split at hnext <;> cases hnext <;> simp
    · cases hnext

/-- **Foreground commands are waited for** in the runs in which no child that has ended is left when
one begins, and no other child ends before it while the shell waits, and in no others. -/
theorem endsFirst_iff {ls : List Label} (h : (mysh limit).run init ls = some s) :
    (mysh limit).Always (EndsFirst limit) init ls ↔
      (mysh limit).Allowed (OthersWait limit) init ls :=
  Machine.always_iff_allowed (I := fun _ => True) (fun _ _ _ _ _ => trivial)
    (fun _ _ _ _ h hnext => endsFirst_next h hnext) h trivial
    (endsFirst_of_phase fun _ _ => Phase.noConfusion)

/-- The library calls succeed, and `fork` returns `pid`. -/
def forked (pid : ℕ) : Results := ⟨none, true, some pid⟩

/-- `sleep 1 &` -/
def background : Command := ⟨["sleep", "1"], false, true, false, by simp⟩

/-- `sleep 10` -/
def foreground : Command := ⟨["sleep", "10"], false, false, false, by simp⟩

theorem endsFirst_one_command :
    (mysh 1024).Always (EndsFirst 1024) init
      [.runCommand foreground (forked 2), .ends 2, .reap 2] := by
  have hg : (mysh 1024).Allowed (OthersWait 1024) init
      [.runCommand foreground (forked 2), .ends 2, .reap 2] := by
    refine .cons (fun _ c hc => absurd hc List.not_mem_nil) rfl (.cons ?_ rfl
      (.cons trivial rfl trivial))
    intro pid v hphase
    cases hphase
    exact Or.inl rfl
  exact (endsFirst_iff rfl).2 hg

/-- The prompt is reached while `sleep 10` runs. -/
theorem prompt_before_end : ∃ s s',
    (mysh 1024).run init [.runCommand background (forked 1), .runCommand foreground (forked 2),
      .ends 1] = some s ∧ ¬ EndsFirst 1024 s ∧
    (mysh 1024).next s (.reap 1) = some s' ∧ s'.phase = .prompt ∧
      s'.children = [⟨2, "sleep", ["sleep", "10"], false⟩] := by
  refine ⟨_, _, rfl, fun h => ?_, rfl, rfl, rfl⟩
  have hended := h (.reap 1) _ 2 _ rfl rfl rfl _ List.mem_cons_self rfl
  cases hended

end Shell

end OperatingSystems

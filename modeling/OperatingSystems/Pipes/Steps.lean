import OperatingSystems.Pipes.Pipe

/-!
# What the steps of the pipe do

* `Puts p addr n s i s' j` : the loop of `pipewrite` has put the bytes from `i` up to `j` into the pipe.
* `Step` : **the steps**, one case for each way through the code.
* `step_of_next` : every step of the machine is one of them.
-/

namespace OperatingSystems

namespace Pipes

variable {P Fd : Type} [DecidableEq P] [DecidableEq Fd]

/-- The loop of `pipewrite` has put the bytes from `i` up to `j` into the pipe. -/
inductive Puts (p : P) (addr : Bytes) (n : ℤ) (s : State P Fd) (i : ℕ) : State P Fd → ℕ → Prop
  | refl : Puts p addr n s i s i
  | put {s' : State P Fd} {j : ℕ} (h : Puts p addr n s i s' j) (hj : j < n.toNat)
      (hfull : ¬ s'.pipe.Full) : Puts p addr n s i (s'.put p (addr j)) (j + 1)

/-- The steps of the machine -/
inductive Step : State P Fd → State P Fd → Prop
  | refuseRead {s p fd n} (hpc : s.pc p = .client) (hfd : s.ofile p fd = some true) :
      Step s (s.ret p (.read p n [] (-1)))
  | callRead {s p fd n} (hpc : s.pc p = .client) (hfd : s.ofile p fd = some false) :
      Step s (s.goto p (.read n))
  | refuseWrite {s p fd addr n} (hpc : s.pc p = .client) (hfd : s.ofile p fd = some false) :
      Step s (s.ret p (.wrote p addr n 0 (-1)))
  | callWrite {s p fd addr n} (hpc : s.pc p = .client) (hfd : s.ofile p fd = some true) :
      Step s (s.goto p (.write addr n 0))
  | filedup {s p fd q fd' w} (hfd : s.ofile p fd = some w) (hfd' : s.ofile q fd' = none) :
      Step s { s with
        ref := Function.update s.ref w (s.ref w + 1)
        ofile := Function.update s.ofile q (Function.update (s.ofile q) fd' (some w)) }
  | close {s p fd w} (hpc : s.pc p = .client) (hfd : s.ofile p fd = some w) (href : 1 < s.ref w) :
      Step s { s with
        ref := Function.update s.ref w (s.ref w - 1)
        ofile := Function.update s.ofile p (Function.update (s.ofile p) fd none) }
  | closeLast {s p fd w} (hpc : s.pc p = .client) (hfd : s.ofile p fd = some w) (href : s.ref w = 1) :
      Step s ({ s with
        ref := Function.update s.ref w 0
        ofile := Function.update s.ofile p (Function.update (s.ofile p) fd none) }.goto p (.pipeclose w))
  | kill {s p} : Step s { s with
      killed := Function.update s.killed p true
      pc := Function.update s.pc p (State.wakeReader (State.wakeWriter (s.pc p))) }
  | wrote {s p addr n i s₁ j} (hpc : s.pc p = .write addr n i) (hputs : Puts p addr n s i s₁ j)
      (hj : n.toNat ≤ j) : Step s (s₁.wakeReaders.ret p (.wrote p addr n j n))
  | cut {s p addr n i s₁ j} (hpc : s.pc p = .write addr n i) (hputs : Puts p addr n s i s₁ j)
      (hj : j < n.toNat) (hfull : s₁.pipe.Full) (hcut : s.pipe.readopen = false ∨ s.killed p = true) :
      Step s (s₁.ret p (.wrote p addr n j (-1)))
  | writeSleep {s p addr n i s₁ j} (hpc : s.pc p = .write addr n i) (hputs : Puts p addr n s i s₁ j)
      (hj : j < n.toNat) (hfull : s₁.pipe.Full) (hopen : s.pipe.readopen = true) :
      Step s (s₁.wakeReaders.goto p (.writeSleep addr n j))
  | readKilled {s p n} (hpc : s.pc p = .read n) : Step s (s.ret p (.read p n [] (-1)))
  | readSleep {s p n} (hpc : s.pc p = .read n) (hempty : s.pipe.Empty) (hopen : s.pipe.writeopen = true) :
      Step s (s.goto p (.readSleep n))
  | read {s p n} (hpc : s.pc p = .read n) (hready : ¬ (s.pipe.Empty ∧ s.pipe.writeopen = true)) :
      Step s ({ s with pipe := (s.pipe.copy n.toNat).1 }.wakeWriters.ret p
        (.read p n (s.pipe.copy n.toNat).2 (s.pipe.copy n.toNat).2.length))
  | pipeclose {s p w} (hpc : s.pc p = .pipeclose w) : Step s (s.pipeclose p w)
  | kfree {s p} (hpc : s.pc p = .kfree) : Step s { s.goto p .client with freed := s.freed + 1 }

variable {s s' s₁ : State P Fd} {p : P} {fd : Fd} {addr : Bytes} {n : ℤ} {i j k : ℕ} {w : Bool}
  {lbl : Label P Fd}

omit [DecidableEq Fd] in
/-- **The loop of `pipewrite`**: it puts bytes into the pipe until it is done, or until the pipe is full. -/
theorem writeLoop_cases (hputs : Puts p addr n s i s₁ j) (hk : j + k = n.toNat ∨ k = 0 ∧ n.toNat ≤ j) :
    ∃ s₂ j₂, Puts p addr n s i s₂ j₂ ∧
      (n.toNat ≤ j₂ ∧ State.writeLoop p addr n j k s₁ = s₂.wakeReaders.ret p (.wrote p addr n j₂ n) ∨
      j₂ < n.toNat ∧ s₂.pipe.Full ∧
        ((s₂.pipe.readopen = false ∨ s₂.killed p = true) ∧
          State.writeLoop p addr n j k s₁ = s₂.ret p (.wrote p addr n j₂ (-1)) ∨
        (s₂.pipe.readopen = true ∧ s₂.killed p = false) ∧
          State.writeLoop p addr n j k s₁ = s₂.wakeReaders.goto p (.writeSleep addr n j₂))) := by
  induction k generalizing s₁ j with
  | zero => exact ⟨s₁, j, hputs, .inl ⟨by omega, rfl⟩⟩
  | succ k ih =>
    have hj : j < n.toNat := by omega
    unfold State.writeLoop
    split_ifs with hfull hcut
    · exact ⟨s₁, j, hputs, .inr ⟨hj, hfull, .inl ⟨hcut, rfl⟩⟩⟩
    · rw [not_or, Bool.not_eq_false, Bool.not_eq_true] at hcut
      exact ⟨s₁, j, hputs, .inr ⟨hj, hfull, .inr ⟨hcut, rfl⟩⟩⟩
    · exact ih (.put hputs hj hfull) (.inl (by omega))

omit [DecidableEq P] [DecidableEq Fd] in
theorem Puts.unchanged (h : Puts p addr n s i s₁ j) :
    s₁.pipe.readopen = s.pipe.readopen ∧ s₁.pipe.writeopen = s.pipe.writeopen ∧
      s₁.ref = s.ref ∧ s₁.ofile = s.ofile ∧ s₁.killed = s.killed ∧ s₁.pc = s.pc ∧ s₁.freed = s.freed ∧
      s₁.log = s.log := by
  induction h with
  | refl => exact ⟨rfl, rfl, rfl, rfl, rfl, rfl, rfl, rfl⟩
  | put _ _ _ ih => exact ih

omit [DecidableEq Fd] in
theorem pipeclose_cases (s : State P Fd) (p : P) (w : Bool) :
    ∃ pc, (pc = .kfree ∨ pc = .client) ∧ s.pipeclose p w = (s.closeEnd w).goto p pc := by
  unfold State.pipeclose
  dsimp only
  split_ifs
  · exact ⟨.kfree, .inl rfl, rfl⟩
  · exact ⟨.client, .inr rfl, rfl⟩

omit [DecidableEq P] [DecidableEq Fd] in
theorem closeEnd_unchanged (s : State P Fd) (w : Bool) :
    (s.closeEnd w).pipe.data = s.pipe.data ∧ (s.closeEnd w).pipe.nread = s.pipe.nread ∧
      (s.closeEnd w).pipe.nwrite = s.pipe.nwrite ∧ (s.closeEnd w).sent = s.sent ∧
        (s.closeEnd w).log = s.log ∧ (s.closeEnd w).killed = s.killed := by
  cases w <;> exact ⟨rfl, rfl, rfl, rfl, rfl, rfl⟩

theorem step_of_pipewrite (hpc : s.pc p = .write addr n i) : Step s (s.pipewrite p addr n i) := by
  have hrefl : Puts p addr n s i s i := .refl
  obtain ⟨s₂, j₂, hputs, ⟨hj, heq⟩ | ⟨hj, hfull, ⟨hcut, heq⟩ | ⟨hopen, heq⟩⟩⟩ :=
    writeLoop_cases (k := n.toNat - i) hrefl (by omega)
  all_goals
    rw [State.pipewrite, heq]
  · exact .wrote hpc hputs hj
  · obtain ⟨hro, -, -, -, hkill, -⟩ := hputs.unchanged
    exact .cut hpc hputs hj hfull (by rwa [hro, hkill] at hcut)
  · obtain ⟨hro, -⟩ := hputs.unchanged
    exact .writeSleep hpc hputs hj hfull (hro ▸ hopen.1)

theorem step_of_piperead (hpc : s.pc p = .read n) : Step s (s.piperead p n) := by
  unfold State.piperead
  split_ifs with hwait hkilled
  · exact .readKilled hpc
  · exact .readSleep hpc hwait.1 hwait.2
  · exact .read hpc hwait

omit [DecidableEq P] [DecidableEq Fd] in
theorem idle_iff : s.idle p = true ↔ s.pc p = .client := by
  unfold State.idle
  split <;> simp_all

theorem step_of_advance (h : s.advance p = some s') : Step s s' := by
  unfold State.advance at h
  split at h <;> cases h
  · exact step_of_pipewrite ‹_›
  · exact step_of_piperead ‹_›
  · exact .pipeclose ‹_›
  · exact .kfree ‹_›

/-- **Every step of the machine is one of them.** -/
theorem step_of_next (h : (pipes P Fd).next s lbl = some s') : Step s s' := by
  cases lbl with
  | read p fd n =>
    simp only [pipes, State.step] at h
    split_ifs at h with hidle
    obtain ⟨w, hfd, rfl⟩ := Option.map_eq_some_iff.1 h
    cases w with
    | false => exact .callRead (idle_iff.1 hidle) hfd
    | true => exact .refuseRead (idle_iff.1 hidle) hfd
  | write p fd addr n =>
    simp only [pipes, State.step] at h
    split_ifs at h with hidle
    obtain ⟨w, hfd, rfl⟩ := Option.map_eq_some_iff.1 h
    cases w with
    | false => exact .refuseWrite (idle_iff.1 hidle) hfd
    | true => exact .callWrite (idle_iff.1 hidle) hfd
  | filedup p fd q fd' =>
    simp only [pipes, State.step] at h
    split_ifs at h with hidle
    obtain ⟨w, hfd, hdup⟩ := Option.bind_eq_some_iff.1 h
    unfold State.filedup at hdup
    split_ifs at hdup
    cases hdup
    exact .filedup hfd hidle.2.2
  | close p fd =>
    simp only [pipes, State.step] at h
    split_ifs at h with hidle
    obtain ⟨w, hfd, hclose⟩ := Option.bind_eq_some_iff.1 h
    unfold State.fileclose at hclose
    split_ifs at hclose with hpanic hmore
    · cases hclose
      exact .close (idle_iff.1 hidle) hfd (by omega)
    · cases hclose
      have href : s.ref w = 1 := by omega
      rw [href]
      exact .closeLast (idle_iff.1 hidle) hfd href
  | kill p =>
    cases h
    exact .kill
  | advance p => exact step_of_advance h

end Pipes

end OperatingSystems

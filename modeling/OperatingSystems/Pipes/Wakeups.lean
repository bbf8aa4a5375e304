import OperatingSystems.Pipes.Stream

/-!
# Sleeping readers and writers

* `Cut` : a process that was killed has left `pipewrite` behind bytes that it does not announce.
* `Awake` : **the invariant**: whoever sleeps has a reason to.
* `wakeups_of_run` : **nobody sleeps in vain**, and readers and writers never wait for each other, as long as
  no writer was cut off.
* `lost_of_run` : **a writer that is cut off** leaves a reader asleep beside a pipe that is full.
-/

namespace OperatingSystems

namespace Pipes

variable {P Fd : Type} [DecidableEq P] [DecidableEq Fd]

/-- A process that was killed has left `pipewrite` behind bytes that it does not announce. -/
def Cut (s : State P Fd) : Prop :=
  ∃ p addr n i, .wrote p addr n i (-1) ∈ s.log ∧ 0 < i ∧ s.killed p = true

def Pc.asleep : Pc → Bool
  | .writeSleep _ _ _ => true
  | .readSleep _ => true
  | _ => false

/-- **Whoever sleeps has a reason to.** -/
structure Awake (s : State P Fd) : Prop where
  readers : ∀ p n, s.pc p = .readSleep n → s.pipe.Empty ∧ s.pipe.writeopen = true ∨ Cut s
  writers : ∀ p addr n i, s.pc p = .writeSleep addr n i → s.pipe.Full ∧ s.pipe.readopen = true

variable {s s' s₁ : State P Fd} {p q : P} {pc : Pc} {addr : Bytes} {n : ℤ} {i j : ℕ} {w : Bool}

/-! ### Steps -/

omit [DecidableEq P] [DecidableEq Fd] in
theorem Puts.le_self (h : Puts p addr n s i s₁ j) : i ≤ j := by
  induction h with
  | refl => exact le_rfl
  | put _ _ _ ih => exact ih.trans (Nat.le_succ _)

omit [DecidableEq P] [DecidableEq Fd] in
/-- Nothing is put into a pipe that is full. -/
theorem Puts.eq_or_lt (h : Puts p addr n s i s₁ j) : s₁ = s ∧ j = i ∨ i < j ∧ ¬ s.pipe.Full := by
  induction h with
  | refl => exact .inl ⟨rfl, rfl⟩
  | put h _ hfull ih =>
    refine .inr ⟨Nat.lt_succ_of_le h.le_self, ?_⟩
    rcases ih with ⟨rfl, -⟩ | ⟨-, hnot⟩
    · exact hfull
    · exact hnot

theorem wakeReader_ne (pc : Pc) (n : ℤ) : State.wakeReader pc ≠ .readSleep n := by
  cases pc <;> simp [State.wakeReader]

theorem wakeWriter_ne (pc : Pc) (addr : Bytes) (n : ℤ) (i : ℕ) :
    State.wakeWriter pc ≠ .writeSleep addr n i := by
  cases pc <;> simp [State.wakeWriter]

theorem asleep_wake (pc : Pc) : (State.wakeReader (State.wakeWriter pc)).asleep = false := by
  cases pc <;> rfl

theorem wakeReader_eq_writeSleep {pc : Pc} (h : State.wakeReader pc = .writeSleep addr n i) :
    pc = .writeSleep addr n i := by
  cases pc <;> simp_all [State.wakeReader]

theorem wakeWriter_eq_readSleep {pc : Pc} (h : State.wakeWriter pc = .readSleep n) : pc = .readSleep n := by
  cases pc <;> simp_all [State.wakeWriter]

omit [DecidableEq P] [DecidableEq Fd] in
theorem Cut.mono (h : Cut s) (hlog : s.log ⊆ s'.log)
    (hkilled : ∀ p, s.killed p = true → s'.killed p = true) : Cut s' := by
  obtain ⟨p, addr, n, i, hmem, hi, hp⟩ := h
  exact ⟨p, addr, n, i, hlog hmem, hi, hkilled p hp⟩

omit [DecidableEq Fd] in
/-- A process goes on to where it does not sleep. -/
theorem asleep_of_goto (s : State P Fd) (p : P) (pc : Pc) (hpc : pc.asleep = false) :
    (∀ q n, (s.goto p pc).pc q = .readSleep n → s.pc q = .readSleep n) ∧
      ∀ q addr n i, (s.goto p pc).pc q = .writeSleep addr n i → s.pc q = .writeSleep addr n i := by
  refine ⟨fun q n hq => ?_, fun q addr n i hq => ?_⟩ <;> obtain rfl | hne := eq_or_ne q p
  · rw [s.goto_self q pc] at hq
    rw [hq] at hpc
    cases hpc
  · exact (s.goto_of_ne pc hne).symm.trans hq
  · rw [s.goto_self q pc] at hq
    rw [hq] at hpc
    cases hpc
  · exact (s.goto_of_ne pc hne).symm.trans hq

variable [Fintype P] [Fintype Fd]

namespace Awake

omit [DecidableEq P] [DecidableEq Fd] [Fintype P] [Fintype Fd] in
/-- Nobody falls asleep, and the pipe stays as it is. -/
theorem frame (h : Awake s) (hpipe : s'.pipe = s.pipe)
    (hread : ∀ q n, s'.pc q = .readSleep n → s.pc q = .readSleep n)
    (hwrite : ∀ q addr n i, s'.pc q = .writeSleep addr n i → s.pc q = .writeSleep addr n i)
    (hcut : Cut s → Cut s') : Awake s' where
  readers q n hq := by
    rw [hpipe]
    exact (h.readers q n (hread q n hq)).imp_right hcut
  writers q addr n i hq := by
    rw [hpipe]
    exact h.writers q addr n i (hwrite q addr n i hq)

omit [DecidableEq P] [DecidableEq Fd] [Fintype P] [Fintype Fd] in
/-- While a writer sleeps, the loop of another one puts in nothing. -/
theorem writers_puts (h : Awake s) (hputs : Puts p addr n s i s₁ j) {addr' : Bytes} {m : ℤ} {k : ℕ}
    (hq : s.pc q = .writeSleep addr' m k) : s₁.pipe.Full ∧ s₁.pipe.readopen = true := by
  have hfull := h.writers q addr' m k hq
  rcases hputs.eq_or_lt with ⟨rfl, -⟩ | ⟨-, hnot⟩
  · exact hfull
  · exact absurd hfull.1 hnot

/-- **Each step keeps it.** -/
theorem next (h : Awake s) (hp : Piped s) (hs : Step s s') : Awake s' := by
  have hgoto : ∀ {p pc}, pc.asleep = false → Awake (s.goto p pc) := fun hpc =>
    h.frame rfl (asleep_of_goto s _ _ hpc).1 (asleep_of_goto s _ _ hpc).2 id
  have hret : ∀ {p e}, Awake (s.ret p e) := h.frame rfl (asleep_of_goto s _ .client rfl).1
    (asleep_of_goto s _ .client rfl).2 fun hcut =>
      hcut.mono (List.subset_append_left _ _) fun _ hk => hk
  have hpcs : ∀ {p addr n i s₁ j}, Puts p addr n s i s₁ j → s₁.pc = s.pc :=
    fun hputs => hputs.unchanged.2.2.2.2.2.1
  cases hs with
  | refuseRead hpc hfd => exact hret
  | callRead hpc hfd => exact hgoto rfl
  | refuseWrite hpc hfd => exact hret
  | callWrite hpc hfd => exact hgoto rfl
  | filedup hfd hfd' => exact h.frame rfl (fun _ _ hq => hq) (fun _ _ _ _ hq => hq) id
  | close hpc hfd href => exact h.frame rfl (fun _ _ hq => hq) (fun _ _ _ _ hq => hq) id
  | closeLast hpc hfd href => exact ⟨(hgoto rfl).readers, (hgoto rfl).writers⟩
  | @kill p =>
    obtain ⟨hread, hwrite⟩ := asleep_of_goto s p _ (asleep_wake (s.pc p))
    refine h.frame rfl hread hwrite fun hcut => hcut.mono (List.Subset.refl _) fun q hq => ?_
    simp only [Function.update_apply]
    split_ifs
    · rfl
    · exact hq
  | @wrote p addr n i s₁ j hpc hputs hj =>
    obtain ⟨hread, hwrite⟩ := asleep_of_goto s₁.wakeReaders p .client rfl
    refine ⟨fun q m hq => absurd (hread q m hq) (wakeReader_ne _ _), fun q a m k hq => ?_⟩
    have hfull := h.writers_puts hputs (hpcs hputs ▸ wakeReader_eq_writeSleep (hwrite q a m k hq))
    exact hfull
  | @cut p addr n i s₁ j hpc hputs hj hfull hcut =>
    obtain ⟨hread, hwrite⟩ := asleep_of_goto s₁ p .client rfl
    have hwriters : ∀ q a m k, s₁.pc q = .writeSleep a m k → s₁.pipe.Full ∧ s₁.pipe.readopen = true :=
      fun q a m k hq => h.writers_puts hputs (hpcs hputs ▸ hq)
    refine ⟨fun q m hq => ?_, fun q a m k hq => hwriters q a m k (hwrite q a m k hq)⟩
    have hasleep : s.pc q = .readSleep m := hpcs hputs ▸ hread q m hq
    obtain ⟨-, -, -, -, hkilled, -, -, hlog⟩ := hputs.unchanged
    rcases h.readers q m hasleep with hempty | hold
    · rcases hputs.eq_or_lt with ⟨rfl, -⟩ | ⟨hlt, -⟩
      · exact .inl hempty
      · -- a reader sleeps, so its end is open, and the writer was killed
        have hopen : s.pipe.readopen = true := hp.ends.isOpen hp.balanced (role_of_pc hasleep)
        refine .inr ⟨p, addr, n, j, List.mem_append_right _ List.mem_cons_self, by omega, ?_⟩
        rw [hopen] at hcut
        exact (congrFun hkilled p).trans (hcut.resolve_left nofun)
    · refine .inr (hold.mono (fun e he => List.mem_append_left _ (hlog ▸ he)) fun r hr => ?_)
      exact (congrFun hkilled r).trans hr
  | @writeSleep p addr n i s₁ j hpc hputs hj hfull hopen =>
    refine ⟨fun q m hq => ?_, fun q a m k hq => ?_⟩ <;> obtain rfl | hne := eq_or_ne q p
    · rw [State.goto_self] at hq
      cases hq
    · rw [State.goto_of_ne _ _ hne] at hq
      exact absurd hq (wakeReader_ne _ _)
    · exact ⟨hfull, hputs.unchanged.1.trans hopen⟩
    · rw [State.goto_of_ne _ _ hne] at hq
      have hfull := h.writers_puts hputs (hpcs hputs ▸ wakeReader_eq_writeSleep hq)
      exact hfull
  | readKilled hpc => exact hret
  | @readSleep p n hpc hempty hopen =>
    refine ⟨fun q m hq => ?_, fun q a m k hq => ?_⟩ <;> obtain rfl | hne := eq_or_ne q p
    · exact .inl ⟨hempty, hopen⟩
    · rw [State.goto_of_ne _ _ hne] at hq
      exact h.readers q m hq
    · rw [State.goto_self] at hq
      cases hq
    · rw [State.goto_of_ne _ _ hne] at hq
      exact h.writers q a m k hq
  | @read p n hpc hready =>
    set s₁ : State P Fd := { s with pipe := (s.pipe.copy n.toNat).1 } with hs₁
    obtain ⟨hread, hwrite⟩ := asleep_of_goto s₁.wakeWriters p .client rfl
    refine ⟨fun q m hq => ?_, fun q a m k hq => absurd (hwrite q a m k hq) (wakeWriter_ne _ _ _ _)⟩
    have hasleep : s.pc q = .readSleep m := wakeWriter_eq_readSleep (hread q m hq)
    refine .inr (((h.readers q m hasleep).resolve_left hready).mono (List.subset_append_left _ _) ?_)
    exact fun _ hr => hr
  | @pipeclose p w hpc =>
    obtain ⟨pc, hpc', heq⟩ := pipeclose_cases s p w
    have hpc'' : pc.asleep = false := by rcases hpc' with rfl | rfl <;> rfl
    obtain ⟨hread, hwrite⟩ := asleep_of_goto (s.closeEnd w) p pc hpc''
    rw [heq]
    cases w with
    | true =>
      refine ⟨fun q m hq => absurd (hread q m hq) (wakeReader_ne _ _), fun q a m k hq => ?_⟩
      exact h.writers q a m k (wakeReader_eq_writeSleep (hwrite q a m k hq))
    | false =>
      refine ⟨fun q m hq => ?_, fun q a m k hq => absurd (hwrite q a m k hq) (wakeWriter_ne _ _ _ _)⟩
      exact h.readers q m (wakeWriter_eq_readSleep (hread q m hq))
  | kfree hpc => exact ⟨(hgoto rfl).readers, (hgoto rfl).writers⟩

end Awake

/-! ### Runs -/

variable {p₀ : P} {fd₀ fd₁ : Fd} {data : ℕ → UInt8} {killed : P → Bool} {ls : List (Label P Fd)}

theorem awake_of_run (hfd : fd₀ ≠ fd₁)
    (h : (pipes P Fd).run (pipealloc p₀ fd₀ fd₁ data killed) ls = some s) : Awake s := by
  have hboth : Piped s ∧ Awake s := by
    refine Machine.run_invariant (I := fun s => Piped s ∧ Awake s) h
      ⟨piped_pipealloc p₀ hfd data killed, nofun, nofun⟩ fun s lbl s' ⟨hp, ha⟩ hnext => ?_
    have hstep := step_of_next hnext
    exact ⟨hp.next hstep, ha.next hp hstep⟩
  exact hboth.2

omit [DecidableEq P] [DecidableEq Fd] in
/-- Somebody has a descriptor for an end that is open, or is about to close it. -/
theorem Ends.exists_of_isOpen (h : Ends s) (hb : Refs.Balanced s.descriptors s.ref 0)
    (hopen : s.pipe.isOpen w = true) : ∃ q, (∃ fd, s.ofile q fd = some w) ∨ s.pc q = .pipeclose w := by
  by_cases href : s.ref w = 0
  · obtain ⟨q, hq⟩ := h.closing w href hopen
    refine ⟨q, .inr ?_⟩
    unfold State.role at hq
    cases hpc : s.pc q <;> rw [hpc] at hq <;> cases hq
    rfl
  · rw [hb.ref_eq_zero] at href
    obtain ⟨⟨q, fd⟩, hmem⟩ := Finset.nonempty_iff_ne_empty.2 href
    exact ⟨q, .inl ⟨fd, (Refs.mem_holders (i := (q, fd))).1 hmem⟩⟩

/-- **Nobody sleeps in vain**: in every run a writer sleeps only while the pipe is full, and a reader only
while it is empty, unless a writer that was killed has left it; and there is somebody who has the other end
or is closing it.  So readers and writers never sleep at the same time. -/
theorem wakeups_of_run (hfd : fd₀ ≠ fd₁)
    (h : (pipes P Fd).run (pipealloc p₀ fd₀ fd₁ data killed) ls = some s) :
    (∀ p addr n i, s.pc p = .writeSleep addr n i → s.pending.length = PIPESIZE ∧
      ∃ q, (∃ fd, s.ofile q fd = some false) ∨ s.pc q = .pipeclose false) ∧
    (¬ Cut s → (∀ p n, s.pc p = .readSleep n → s.pending = [] ∧
      ∃ q, (∃ fd, s.ofile q fd = some true) ∨ s.pc q = .pipeclose true) ∧
      ∀ p q n addr m i, s.pc p = .readSleep n → s.pc q ≠ .writeSleep addr m i) := by
  have hp := piped_of_run hfd h
  have ha := awake_of_run hfd h
  have hwriters : ∀ p addr n i, s.pc p = .writeSleep addr n i → s.pending.length = PIPESIZE ∧
      s.pipe.isOpen false = true := fun p addr n i hpc => by
    obtain ⟨hfull, hopen⟩ := ha.writers p addr n i hpc
    exact ⟨hp.flows.contains.full_iff.1 hfull, hopen⟩
  have hreaders : ¬ Cut s → ∀ p n, s.pc p = .readSleep n → s.pending = [] ∧
      s.pipe.isOpen true = true := fun hcut p n hpc => by
    obtain ⟨hempty, hopen⟩ := (ha.readers p n hpc).resolve_right hcut
    exact ⟨hp.flows.contains.empty_iff.1 hempty, hopen⟩
  refine ⟨fun p addr n i hpc => ?_, fun hcut => ⟨fun p n hpc => ?_, fun p q n addr m i hpc hpc' => ?_⟩⟩
  · obtain ⟨hfull, hopen⟩ := hwriters p addr n i hpc
    exact ⟨hfull, hp.ends.exists_of_isOpen hp.balanced hopen⟩
  · obtain ⟨hempty, hopen⟩ := hreaders hcut p n hpc
    exact ⟨hempty, hp.ends.exists_of_isOpen hp.balanced hopen⟩
  · have hfull := (hwriters q addr m i hpc').1
    rw [(hreaders hcut p n hpc).1] at hfull
    cases hfull

/-- A process reads from a pipe that is empty. -/
theorem wakeups_of_run_empty : ∃ s, (pipes Bool Bool).run
    (pipealloc true false true (fun _ => 0) fun _ => false)
    [.filedup true false false false, .read false false 1, .advance false] = some s ∧
      ∃ q, (∃ fd, s.ofile q fd = some true) ∨ s.pc q = .pipeclose true := by
  have hrun : (pipes Bool Bool).run (pipealloc true false true (fun _ => 0) fun _ => false)
    [.filedup true false false false, .read false false 1, .advance false] = some _ := rfl
  exact ⟨_, hrun, (((wakeups_of_run (by decide) hrun).2 fun ⟨_, _, _, _, hmem, _⟩ => nomatch hmem).1
    false 1 rfl).2⟩

omit [DecidableEq P] [DecidableEq Fd] [Fintype P] [Fintype Fd] in
theorem Puts.length_pending (h : Puts p addr n s i s₁ j) (hf : Flows s) :
    s₁.pending.length + i = s.pending.length + j := by
  induction h with
  | refl => rfl
  | put h _ _ ih =>
    rw [(hf.puts h).pending_put, List.length_append, List.length_singleton]
    omega

/-- **A writer that is cut off** leaves a reader asleep beside a pipe that is full: a process that was killed
fills the pipe, and returns without a wakeup. -/
theorem lost_of_run (hfd : fd₀ ≠ fd₁)
    (h : (pipes P Fd).run (pipealloc p₀ fd₀ fd₁ data killed) ls = some s) {m : ℤ}
    (hp : s.pc p = .readSleep m) (hq : s.pc q = .write addr n i) (hk : s.killed q = true)
    (hn : PIPESIZE < s.pending.length + (n.toNat - i)) :
    ∃ s', (pipes P Fd).next s (.advance q) = some s' ∧ s'.pc p = .readSleep m ∧
      s'.pending.length = PIPESIZE := by
  have hpiped := piped_of_run hfd h
  have hne : p ≠ q := fun heq => by
    rw [heq, hq] at hp
    cases hp
  have hnext : (pipes P Fd).next s (.advance q) = some (s.pipewrite q addr n i) := by
    simp only [pipes, State.step, State.advance, hq]
  refine ⟨_, hnext, ?_⟩
  have hrefl : Puts q addr n s i s i := .refl
  obtain ⟨s₂, j, hputs, hcases⟩ := writeLoop_cases (k := n.toNat - i) hrefl (by omega)
  have hflows := hpiped.flows.puts hputs
  have hlength := hputs.length_pending hpiped.flows
  have hroom : s₂.pending.length ≤ PIPESIZE := hflows.contains.room
  have hroom' : s.pending.length ≤ PIPESIZE := hpiped.flows.contains.room
  have hle := hputs.le_self
  obtain ⟨-, -, -, -, hkilled, hpcs, -, -⟩ := hputs.unchanged
  rcases hcases with ⟨hj, -⟩ | ⟨-, hfull, ⟨-, heq⟩ | ⟨⟨-, halive⟩, -⟩⟩
  · omega
  · rw [State.pipewrite, heq]
    refine ⟨?_, ?_⟩
    · rw [State.ret]
      exact (s₂.goto_of_ne .client hne).trans (hpcs ▸ hp)
    · have hpending : (s₂.ret q (.wrote q addr n j (-1))).pending = s₂.pending := by
        simp [State.pending, State.received, State.ret, State.goto, Event.received]
      rw [hpending]
      exact hflows.contains.full_iff.1 hfull
  · rw [hkilled, hk] at halive
    cases halive

/-- A process is killed before it writes more than fits, while another one reads. -/
theorem lost_of_run_killed : ∃ s, (pipes Bool Bool).run
    (pipealloc true false true (fun _ => 0) fun _ => false)
    [.filedup true false false false, .read false false 1, .advance false,
      .write true true (fun _ => 7) 513, .kill true] = some s ∧
      ∃ s', (pipes Bool Bool).next s (.advance true) = some s' ∧ s'.pc false = .readSleep 1 ∧
        s'.pending.length = PIPESIZE := by
  have hrun : (pipes Bool Bool).run (pipealloc true false true (fun _ => 0) fun _ => false)
    [.filedup true false false false, .read false false 1, .advance false,
      .write true true (fun _ => 7) 513, .kill true] = some _ := rfl
  exact ⟨_, hrun, lost_of_run (by decide) hrun rfl rfl rfl (by decide)⟩

end Pipes

end OperatingSystems

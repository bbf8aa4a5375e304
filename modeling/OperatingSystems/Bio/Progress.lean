import OperatingSystems.Bio.Recency

/-!
# Panics and waiting

* `panic_of_run` : **which calls of `panic` are reached**, in any interleaving.
* `Sleeping`, `before_of_sleeping` : a process that sleeps in `iderw` sees no more interrupts than there are
  requests before its own.
* `waits_of_run` : **nobody sleeps for ever**: who sleeps in `bget` waits for the process that has the buffer,
  and is woken up when it is released; who sleeps in `iderw` waits for the drive, which is working.
-/

namespace OperatingSystems

namespace Bio

variable {P : Type} [DecidableEq P] {n : ℕ} {havedisk1 : Bool} {s s' : State P n} {lbl : Label P n}
  {p q : P} {b c : Fin n}

/-! ### Panics -/

omit [DecidableEq P] in
theorem Locked.busy_of_owner (h : Locked s) (hb : s.owner b = some p) : (s.buf b).busy = true := by
  rw [h.busy, hb, Option.isSome_some]

/-- The tests of `iderw` for a buffer that is locked and not in step with the disk -/
theorem iderwTests_eq_error {x : Buf} {e : Panic} (hbusy : x.busy = true) (hsync : ¬ x.Synced)
    (h : State.iderwTests havedisk1 x = .error e) : e = .notPresent ∧ havedisk1 = false := by
  unfold State.iderwTests at h
  rw [if_neg (by simp [hbusy]), if_neg hsync] at h
  split_ifs at h with hdisk
  cases h
  exact ⟨rfl, hdisk.2⟩

theorem bind_eq_error {ε α β : Type} {x : Except ε α} {f : α → Except ε β} {e : ε} :
    (x >>= f) = .error e ↔ x = .error e ∨ ∃ a, x = .ok a ∧ f a = .error e := by
  cases x with
  | error e' => simp [bind, Except.bind]
  | ok a => simp [bind, Except.bind]

omit [DecidableEq P] in
/-- The second loop of `bget` finds a buffer, if one is not busy. -/
theorem Listed.exists_victim (h : Listed s) (hv : s.victim = none) (b : Fin n) : (s.buf b).busy = true := by
  obtain ⟨l, hl⟩ := h.list
  rw [hl.victim] at hv
  simpa [State.unused] using List.find?_eq_none.1 hv b (List.mem_reverse.2 (hl.all b))

/-- **Which calls of `panic` are reached**: only "bget: no buffers", when all buffers are busy, and "iderw:
ide disk 1 not present", when it is not; no call of `bwrite` or `brelse` for a buffer that the caller has
panics, and no request that the cache makes of the driver is refused. -/
theorem panic_of_run {disk : ℕ → ℕ → Bytes} {ls : List (Label P n)} {e : Panic}
    (h : (bio P n havedisk1).run (binit P n disk) ls = some s)
    (hx : s.step havedisk1 lbl = some (.error e)) :
    e = .noBuffers ∧ (∀ b, (s.buf b).busy = true) ∨ e = .notPresent ∧ havedisk1 = false := by
  have hs := sound_of_run h
  cases lbl with
  | bread p dev sector =>
    simp only [State.step] at hx
    split_ifs at hx
    cases hx
  | store p b data =>
    simp only [State.step] at hx
    split_ifs at hx
    cases hx
  | bwrite p b =>
    simp only [State.step] at hx
    split_ifs at hx with hpc
    have hbusy := hs.locked.busy_of_owner (hs.locked.held p b hpc.2)
    replace hx := Option.some.inj hx
    rw [State.bwrite, if_neg (by simp [hbusy])] at hx
    obtain hx | ⟨a, -, hx⟩ := bind_eq_error.1 hx
    · have hdirty : ¬ ({ s.buf b with dirty := true } : Buf).Synced := fun hsync => by cases hsync.2
      exact .inr (iderwTests_eq_error (x := { s.buf b with dirty := true }) hbusy hdirty hx)
    · cases hx
  | brelse p b =>
    simp only [State.step] at hx
    split_ifs at hx with hpc hbusy
    · rw [hs.locked.busy_of_owner (hs.locked.held p b hpc.2)] at hbusy
      cases hbusy
    · cases hx
  | advance p =>
    simp only [State.step, State.advance] at hx
    split at hx
    next => cases hx
    next dev sector hpc =>
      replace hx := Option.some.inj hx
      unfold State.bget at hx
      split at hx
      next => split_ifs at hx
      next =>
        split at hx
        next => cases hx
        next hv =>
          cases hx
          exact .inl ⟨rfl, hs.listed.exists_victim hv⟩
    next => cases hx
    next b hpc =>
      have hbusy := hs.locked.busy_of_owner (hs.locked.uses p b (by rw [hpc]; rfl))
      replace hx := Option.some.inj hx
      unfold State.breadTest at hx
      split_ifs at hx with hvalid
      obtain hx | ⟨a, -, hx⟩ := bind_eq_error.1 hx
      · exact .inr (iderwTests_eq_error hbusy (fun hsync => hvalid hsync.1) hx)
      · cases hx
    next =>
      obtain ⟨t, -, ht⟩ := Option.map_eq_some_iff.1 hx
      cases ht
    next => cases hx
    next => cases hx
    next => cases hx
  | rouse p =>
    obtain ⟨t, -, ht⟩ := Option.map_eq_some_iff.1 hx
    cases ht
  | drive err =>
    obtain ⟨t, -, ht⟩ := Option.map_eq_some_iff.1 hx
    cases ht
  | ideintr =>
    obtain ⟨t, -, ht⟩ := Option.map_eq_some_iff.1 hx
    cases ht

/-- With two buffers, a third process that asks for a third sector -/
theorem panic_of_run_full : ∃ s, (bio (Fin 3) 2 true).run (binit (Fin 3) 2 fun _ _ _ => 0)
    [.bread 0 1 5, .advance 0, .bread 1 1 6, .advance 1, .bread 2 1 7] = some s ∧
      ∀ b, (s.buf b).busy = true := by
  have hrun : (bio (Fin 3) 2 true).run (binit (Fin 3) 2 fun _ _ _ => 0)
    [.bread 0 1 5, .advance 0, .bread 1 1 6, .advance 1, .bread 2 1 7] = some _ := rfl
  refine ⟨_, hrun, ?_⟩
  obtain ⟨-, hbusy⟩ | ⟨he, -⟩ := panic_of_run hrun
    (show State.step true _ (.advance 2) = some (.error .noBuffers) from rfl)
  · exact hbusy
  · cases he

/-! ### Waiting -/

/-- The process sleeps in `iderw` for the buffer. -/
def Sleeping (p : P) (b : Fin n) (s : State P n) : Prop := s.pc p = .ideSleep b

/-- The interrupts in a run -/
def interrupts : List (Label P n) → ℕ
  | [] => 0
  | .ideintr :: ls => interrupts ls + 1
  | _ :: ls => interrupts ls

/-- The requests before that for `b` -/
def before (s : State P n) (b : Fin n) : ℕ := s.idequeue.idxOf b

theorem ideWait_idequeue (s : State P n) (p : P) (b : Fin n) :
    (s.ideWait p b).idequeue = s.idequeue := by
  unfold State.ideWait
  split_ifs <;> rfl

/-- **One step**: an interrupt takes the first request from the queue, and nothing is put before a
request. -/
theorem before_of_step (hq : Queued s) (hb : Sleeping p b s) (hb' : Sleeping p b s')
    (hs : Step s lbl s') : before s' b + interrupts [lbl] ≤ before s b := by
  have hmem := hq.asleep p b hb
  unfold before
  cases hs with
  | @start q c hpc hnil =>
    rw [hnil] at hmem
    exact absurd hmem List.not_mem_nil
  | @queue q c hpc =>
    rw [ideWait_idequeue, List.idxOf_append_of_mem hmem]
    exact le_rfl
  | woken =>
    rw [ideWait_idequeue]
    exact le_rfl
  | spurious hnil =>
    rw [hnil] at hmem
    exact absurd hmem List.not_mem_nil
  | @ideintr c bs data err hbs =>
    have hne : c ≠ b := by
      rintro rfl
      have hpc : State.wake c (s.pc p) = .ideSleep c := hb'
      exact (wake_eq_ideSleep.1 hpc).2 rfl
    rw [hbs, List.idxOf_cons_ne _ hne]
    exact le_rfl
  | _ => exact le_rfl

/-- A process that sleeps all the time sees no more interrupts than there are requests before its own. -/
theorem before_of_sleeping {ls : List (Label P n)} (hs : Sound s)
    (h : (bio P n havedisk1).run s ls = some s') (ha : (bio P n havedisk1).Always (Sleeping p b) s ls) :
    interrupts ls ≤ before s b := by
  induction ls generalizing s with
  | nil => exact Nat.zero_le _
  | cons lbl ls ih =>
    obtain ⟨t, ht, h'⟩ := Machine.run_cons_eq_some.1 h
    have hstep := step_of_next ht
    have hrest := ih (hs.next hstep) h' (ha.2 t ht)
    have hone := before_of_step hs.queued ha.1 (ha.2 t ht).head hstep
    have hsplit : interrupts (lbl :: ls) = interrupts [lbl] + interrupts ls := by
      cases lbl <;> simp [interrupts, Nat.add_comm]
    omega

/-- A drive that has something to do goes on. -/
theorem Queued.exists_next (h : Queued s) (hne : s.idequeue ≠ []) :
    ∃ lbl, (lbl = .drive false ∨ lbl = .ideintr) ∧ ∃ t, (bio P n havedisk1).next s lbl = some t := by
  obtain ⟨b, bs, hbs⟩ := List.exists_cons_of_ne_nil hne
  have hdrive := h.drive
  simp only [hbs] at hdrive
  obtain hd | ⟨data, err, hd⟩ := hdrive
  · refine ⟨.drive false, .inl rfl, ?_⟩
    cases hcmd : State.cmd (s.buf b) <;>
      exact ⟨_, next_eq_some.2 (by simp only [State.step, State.finish, hd, hcmd]; rfl)⟩
  · refine ⟨.ideintr, .inr rfl, ?_⟩
    cases bs <;>
      exact ⟨_, next_eq_some.2 (by simp only [State.step, State.ideintr, State.idestart, hbs, hd]; rfl)⟩

/-- **Nobody sleeps for ever.**  In every state that is reached, a process that sleeps in `bget` waits for a
buffer that a process has, and the `brelse` of this buffer wakes it up; for a process that sleeps in `iderw`
the drive is working or raises an interrupt, and it sleeps through no more interrupts than there are requests
before its own. -/
theorem waits_of_run {disk : ℕ → ℕ → Bytes} {ls : List (Label P n)}
    (h : (bio P n havedisk1).run (binit P n disk) ls = some s) :
    (∀ p b dev sector, s.pc p = .bgetSleep b dev sector →
      (∃ q, s.owner b = some q ∧ (b ∈ s.held q ∨ (s.pc q).uses = some b)) ∧
      ∀ q t, s.pc q = .brelse b → (bio P n havedisk1).next s (.advance q) = some t →
        t.pc p = .bget dev sector) ∧
    ∀ p b, Sleeping p b s →
      (∃ lbl, (lbl = .drive false ∨ lbl = .ideintr) ∧ ∃ t, (bio P n havedisk1).next s lbl = some t) ∧
      ∀ ls' s', (bio P n havedisk1).run s ls' = some s' →
        (bio P n havedisk1).Always (Sleeping p b) s ls' → interrupts ls' ≤ before s b := by
  have hs := sound_of_run h
  refine ⟨fun p b dev sector hpc => ⟨?_, fun q t hq ht => ?_⟩, fun p b hb => ⟨?_, fun ls' s' h' ha => ?_⟩⟩
  · have hbusy := hs.locked.sleeps p b dev sector hpc
    rw [hs.locked.busy, Option.isSome_iff_exists] at hbusy
    obtain ⟨q, hq⟩ := hbusy
    exact ⟨q, hq, hs.locked.has q b hq⟩
  · have hne : p ≠ q := by
      rintro rfl
      rw [hpc] at hq
      cases hq
    rw [next_eq_some] at ht
    simp only [State.step, State.advance, hq, Option.some.injEq, Except.ok.injEq] at ht
    rw [← ht]
    simp only [State.brelse, Function.update_of_ne hne, hpc, State.wake, if_true]
  · exact hs.queued.exists_next (List.ne_nil_of_mem (hs.queued.asleep p b hb))
  · exact before_of_sleeping hs h' ha

/-- A process asks for a sector, and another one for the same sector. -/
theorem waits_of_run_two : ∃ s, (bio Bool 2 true).run (binit Bool 2 fun _ _ _ => 0)
    [.bread false 1 5, .advance false, .advance false, .advance false, .bread true 1 5, .advance true] =
      some s ∧ (∃ q, s.owner 0 = some q) ∧
      ∃ lbl, (lbl = .drive false ∨ lbl = .ideintr) ∧ ∃ t, (bio Bool 2 true).next s lbl = some t := by
  have hrun : (bio Bool 2 true).run (binit Bool 2 fun _ _ _ => 0)
    [.bread false 1 5, .advance false, .advance false, .advance false, .bread true 1 5, .advance true] =
      some _ := rfl
  refine ⟨_, hrun, ?_⟩
  obtain ⟨hbget, hiderw⟩ := waits_of_run hrun
  exact ⟨(hbget true 0 1 5 rfl).1.imp fun q hq => hq.1, (hiderw false 0 rfl).1⟩

end Bio

end OperatingSystems

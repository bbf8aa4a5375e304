import OperatingSystems.Bio.Steps

/-!
# Locked buffers and queued requests

* `Pc.uses` : the buffer that a process works on inside of the code.
* `Locked` : a buffer that is busy belongs to the process that locked it, and this process has it in its
  hands or works on it.
* `Queued` : whoever sleeps in `iderw` waits for a buffer in the queue of the driver, and the drive works
  on the first one.
* `Clean` : which buffers are on the disk, and which are about to be read or written.
* `Locked.next`, `Queued.next`, `Clean.next` : **each step keeps them**.
-/

namespace OperatingSystems

namespace Bio

variable {P : Type} [DecidableEq P] {n : ℕ} {havedisk1 : Bool} {s s' : State P n} {l : Label P n}
  {p q : P} {b c : Fin n} {pc pc' : Pc n}

/-- The buffer that a process works on in the code -/
def Pc.uses : Pc n → Option (Fin n)
  | .bread b => some b
  | .iderw b => some b
  | .ideSleep b => some b
  | .ideWoken b => some b
  | .brelse b => some b
  | _ => none

/-- **A buffer that is busy belongs to the process that locked it**, and to nobody else. -/
structure Locked (s : State P n) : Prop where
  busy : ∀ b, (s.buf b).busy = (s.owner b).isSome
  held : ∀ p b, b ∈ s.held p → s.owner b = some p
  uses : ∀ p b, (s.pc p).uses = some b → s.owner b = some p
  has : ∀ p b, s.owner b = some p → b ∈ s.held p ∨ (s.pc p).uses = some b
  alone : ∀ p b, s.pc p = .bread b ∨ s.pc p = .brelse b → b ∉ s.held p
  sleeps : ∀ p b dev sector, s.pc p = .bgetSleep b dev sector → (s.buf b).busy = true

/-- **The queue of the driver**: whoever sleeps in `iderw` waits for a buffer in the queue, and the drive
works on the first one. -/
structure Queued (s : State P n) : Prop where
  asleep : ∀ p b, s.pc p = .ideSleep b → b ∈ s.idequeue
  waits : ∀ b ∈ s.idequeue, ∃ p, s.pc p = .ideSleep b ∨ s.pc p = .ideWoken b
  nodup : s.idequeue.Nodup
  drive : match s.idequeue with
    | [] => s.drive = .ready
    | b :: _ => s.drive = .working (State.cmd (s.buf b)) ∨ ∃ data err, s.drive = .done data err

/-- **What is in step with the disk**: the buffers that a process has or gives back, and not those that are
in the queue or on the way to it. -/
structure Clean (s : State P n) : Prop where
  idle : ∀ b, s.owner b = none → (s.buf b).dirty = false
  bread : ∀ p b, s.pc p = .bread b → (s.buf b).dirty = false
  before : ∀ p b, s.pc p = .iderw b → ¬ (s.buf b).Synced
  pending : ∀ b ∈ s.idequeue, ¬ (s.buf b).Synced
  woken : ∀ p b, s.pc p = .ideWoken b → b ∈ s.idequeue ∨ (s.buf b).Synced
  held : ∀ p b, b ∈ s.held p → (s.pc p).uses ≠ some b → (s.buf b).Synced
  brelse : ∀ p b, s.pc p = .brelse b → (s.buf b).Synced

/-! ### Waking up -/

omit [DecidableEq P] in
@[simp] theorem uses_wake (b : Fin n) (pc : Pc n) : (State.wake b pc).uses = pc.uses := by
  cases pc with
  | bgetSleep => simp only [State.wake]; split_ifs <;> rfl
  | ideSleep => simp only [State.wake]; split_ifs <;> rfl
  | _ => rfl

theorem roused_cases (h : State.roused pc = some pc') :
    (∃ b dev sector, pc = .bgetSleep b dev sector ∧ pc' = .bget dev sector) ∨
      ∃ b, pc = .ideSleep b ∧ pc' = .ideWoken b := by
  cases pc <;> cases h
  · exact .inl ⟨_, _, _, rfl, rfl⟩
  · exact .inr ⟨_, rfl, rfl⟩

theorem wake_eq_ideSleep : State.wake b pc = .ideSleep c ↔ pc = .ideSleep c ∧ c ≠ b := by
  cases pc <;> simp only [State.wake] <;> grind

theorem wake_eq_ideWoken :
    State.wake b pc = .ideWoken c ↔ pc = .ideWoken c ∨ pc = .ideSleep c ∧ c = b := by
  cases pc <;> simp only [State.wake] <;> grind

theorem wake_eq_bgetSleep {d i : ℕ} :
    State.wake b pc = .bgetSleep c d i ↔ pc = .bgetSleep c d i ∧ c ≠ b := by
  cases pc <;> simp only [State.wake] <;> grind

theorem wake_eq_bget {d i : ℕ} :
    State.wake b pc = .bget d i ↔ pc = .bget d i ∨ pc = .bgetSleep b d i := by
  cases pc <;> simp only [State.wake] <;> grind

theorem wake_eq_bread : State.wake b pc = .bread c ↔ pc = .bread c := by
  cases pc <;> simp only [State.wake] <;> grind

theorem wake_eq_iderw : State.wake b pc = .iderw c ↔ pc = .iderw c := by
  cases pc <;> simp only [State.wake] <;> grind

theorem wake_eq_brelse : State.wake b pc = .brelse c ↔ pc = .brelse c := by
  cases pc <;> simp only [State.wake] <;> grind

/-! ### Locked buffers -/

namespace Locked

omit [DecidableEq P] in
theorem owner_eq_none (h : Locked s) (hb : (s.buf b).busy = false) : s.owner b = none := by
  rwa [h.busy b, Option.isSome_eq_false_iff, Option.isNone_iff_eq_none] at hb

/-- A process goes on with the same buffer. -/
theorem goto (h : Locked s) (pc : Pc n) (hpc : pc.uses = (s.pc p).uses)
    (halone : ∀ b, pc = .bread b ∨ pc = .brelse b → b ∉ s.held p)
    (hsleeps : ∀ b dev sector, pc = .bgetSleep b dev sector → (s.buf b).busy = true) :
    Locked (s.goto p pc) := by
  obtain ⟨hbusy, hheld, huses, hhas, hal, hsl⟩ := h
  constructor <;> simp only [State.goto, Function.update_apply] <;> grind

/-- A process gets the buffer that it works on. -/
theorem give (h : Locked s) (hpc : (s.pc p).uses = some b) : Locked (s.give p b) := by
  obtain ⟨hbusy, hheld, huses, hhas, hal, hsl⟩ := h
  constructor <;> simp only [State.give, State.goto, Function.update_apply] <;> grind [Pc.uses]

theorem ideWait (h : Locked s) (hpc : (s.pc p).uses = some b) : Locked (s.ideWait p b) := by
  unfold State.ideWait
  split_ifs
  · exact h.give hpc
  · exact h.goto _ hpc.symm (by simp) (by simp)

omit [DecidableEq P] in
/-- A buffer changes and stays locked. -/
theorem setBuf (h : Locked s) {x : Buf} (hx : x.busy = (s.buf b).busy) : Locked (s.setBuf b x) := by
  obtain ⟨hbusy, hheld, huses, hhas, hal, hsl⟩ := h
  constructor <;> simp only [State.setBuf, Function.update_apply] <;> grind

omit [DecidableEq P] in
theorem wake (h : Locked s) (b : Fin n) : Locked { s with pc := fun p => State.wake b (s.pc p) } where
  busy := h.busy
  held := h.held
  uses q c hc := h.uses q c (uses_wake b (s.pc q) ▸ hc)
  has q c hc := uses_wake b (s.pc q) ▸ h.has q c hc
  alone q c hc := h.alone q c (by rwa [wake_eq_bread, wake_eq_brelse] at hc)
  sleeps q c d i hc := h.sleeps q c d i (wake_eq_bgetSleep.1 hc).1

/-- A buffer that nobody has is locked. -/
theorem lock (h : Locked s) (hb : s.owner b = none) (hpc : (s.pc p).uses = none) {x : Buf}
    (hx : x.busy = true) :
    Locked { (s.setBuf b x).goto p (.bread b) with owner := Function.update s.owner b (some p) } := by
  obtain ⟨hbusy, hheld, huses, hhas, hal, hsl⟩ := h
  constructor <;> simp only [State.setBuf, State.goto, Function.update_apply] <;> grind [Pc.uses]

/-- **A buffer is given back**, and everybody who sleeps on it wakes up. -/
theorem brelse (h : Locked s) (hpc : s.pc p = .brelse b) : Locked (s.brelse p b) := by
  obtain ⟨hbusy, hheld, huses, hhas, hal, hsl⟩ := h
  constructor <;> simp only [State.brelse, uses_wake, wake_eq_bread, wake_eq_brelse, wake_eq_bgetSleep,
    Function.update_apply] <;> grind [Pc.uses]

/-- **Each step keeps it.** -/
theorem next (h : Locked s) (hvictim : ∀ b, s.victim = some b → (s.buf b).busy = false)
    (hs : Step s l s') : Locked s' := by
  cases hs with
  | call hpc => exact h.goto _ (by rw [hpc]; rfl) (by simp) (by simp)
  | @store p b data hpc hb =>
    have hset := h.setBuf (b := b) (x := { s.buf b with data := data }) rfl
    exact ⟨hset.busy, hset.held, hset.uses, hset.has, hset.alone, hset.sleeps⟩
  | bwrite hpc hb =>
    obtain ⟨hbusy, hheld, huses, hhas, hal, hsl⟩ := h
    constructor <;> simp only [State.setBuf, State.goto, Function.update_apply] <;> grind [Pc.uses]
  | release hpc hb =>
    obtain ⟨hbusy, hheld, huses, hhas, hal, hsl⟩ := h
    constructor <;> simp only [State.goto, Function.update_apply] <;> grind [Pc.uses]
  | sleep hpc _ hbusy =>
    refine h.goto _ (by rw [hpc]; rfl) (by simp) fun c d i hc => ?_
    cases hc
    exact hbusy
  | hit hpc _ hbusy => exact h.lock (h.owner_eq_none hbusy) (by rw [hpc]; rfl) rfl
  | recycle hpc _ hv => exact h.lock (h.owner_eq_none (hvictim _ hv)) (by rw [hpc]; rfl) rfl
  | valid hpc => exact h.give (by rw [hpc]; rfl)
  | request hpc => exact h.goto _ (by rw [hpc]; rfl) (by simp) (by simp)
  | start hpc =>
    refine ideWait ⟨h.busy, h.held, h.uses, h.has, h.alone, h.sleeps⟩ ?_
    change (s.pc _).uses = _
    rw [hpc]
    rfl
  | queue hpc =>
    refine ideWait ⟨h.busy, h.held, h.uses, h.has, h.alone, h.sleeps⟩ ?_
    change (s.pc _).uses = _
    rw [hpc]
    rfl
  | woken hpc => exact h.ideWait (by rw [hpc]; rfl)
  | brelse hpc => exact h.brelse hpc
  | rouse hpc =>
    obtain ⟨b, dev, sector, hb, rfl⟩ | ⟨b, hb, rfl⟩ := roused_cases hpc <;>
      exact h.goto _ (by rw [hb]; rfl) (by simp) (by simp)
  | readDone => exact ⟨h.busy, h.held, h.uses, h.has, h.alone, h.sleeps⟩
  | writeDone => exact ⟨h.busy, h.held, h.uses, h.has, h.alone, h.sleeps⟩
  | spurious => exact h
  | @ideintr b bs data err hq hd =>
    have hset := (h.wake b).setBuf (b := b)
      (x := { State.insl (s.buf b) data err with valid := true, dirty := false }) (State.insl_busy ..)
    exact ⟨hset.busy, hset.held, hset.uses, hset.has, hset.alone, hset.sleeps⟩

end Locked

/-! ### The queue of the driver -/

namespace Queued

omit [DecidableEq P] in
/-- A buffer in the queue belongs to the process that waits for it. -/
theorem owned (h : Queued s) (hl : Locked s) (hb : b ∈ s.idequeue) :
    ∃ p, s.owner b = some p ∧ (s.pc p = .ideSleep b ∨ s.pc p = .ideWoken b) := by
  obtain ⟨p, hp⟩ := h.waits b hb
  refine ⟨p, hl.uses p b ?_, hp⟩
  obtain hp | hp := hp <;> rw [hp] <;> rfl

omit [DecidableEq P] in
/-- The buffer of a process that does not wait for the drive is not in the queue. -/
theorem notMem (h : Queued s) (hl : Locked s) (hb : s.owner b = some p) (hsleep : s.pc p ≠ .ideSleep b)
    (hwoken : s.pc p ≠ .ideWoken b) : b ∉ s.idequeue := by
  intro hmem
  obtain ⟨q, hq, hpc⟩ := h.owned hl hmem
  obtain rfl : p = q := Option.some.inj (hb.symm.trans hq)
  exact hpc.elim hsleep hwoken

omit [DecidableEq P] in
theorem notMem_of_idle (h : Queued s) (hl : Locked s) (hb : s.owner b = none) : b ∉ s.idequeue := by
  intro hmem
  obtain ⟨q, hq, -⟩ := h.owned hl hmem
  rw [hb] at hq
  cases hq

omit [DecidableEq P] in
/-- A drive that works does so for the first buffer of the queue. -/
theorem cons_of_working {x : Cmd} (h : Queued s) (hd : s.drive = .working x) :
    ∃ b bs, s.idequeue = b :: bs := by
  have hdrive := h.drive
  cases hqueue : s.idequeue with
  | nil => simp [hqueue, hd] at hdrive
  | cons b bs => exact ⟨b, bs, rfl⟩

omit [DecidableEq P] in
theorem cmd_of_working {x : Cmd} {bs : List (Fin n)} (h : Queued s) (hbs : s.idequeue = b :: bs)
    (hd : s.drive = .working x) : x = State.cmd (s.buf b) := by
  have hdrive := h.drive
  simpa [hbs, hd] using hdrive

omit [DecidableEq P] in
/-- A step that touches neither the queue nor its buffers, nor the processes that wait for them. -/
theorem frame (h : Queued s) (hq : s'.idequeue = s.idequeue) (hd : s'.drive = s.drive)
    (hbuf : ∀ b ∈ s.idequeue, s'.buf b = s.buf b)
    (hasleep : ∀ p b, s'.pc p = .ideSleep b → s.pc p = .ideSleep b)
    (hwaits : ∀ p, ∀ b ∈ s.idequeue, s.pc p = .ideSleep b ∨ s.pc p = .ideWoken b →
      s'.pc p = .ideSleep b ∨ s'.pc p = .ideWoken b) : Queued s' where
  asleep p b hb := hq ▸ h.asleep p b (hasleep p b hb)
  waits b hb := (h.waits b (hq ▸ hb)).imp fun p => hwaits p b (hq ▸ hb)
  nodup := hq ▸ h.nodup
  drive := by
    have hdrive := h.drive
    rw [hq, hd]
    cases hqueue : s.idequeue with
    | nil => rwa [hqueue] at hdrive
    | cons b bs =>
      rw [hqueue] at hdrive
      simpa only [hbuf b (hqueue ▸ List.mem_cons_self)] using hdrive

/-- A process that does not wait for a buffer in the queue goes on, and does not begin to wait. -/
theorem goto (h : Queued s) (pc : Pc n) (hpc : ∀ b ∈ s.idequeue, s.pc p ≠ .ideSleep b ∧ s.pc p ≠ .ideWoken b)
    (hpc' : ∀ b, pc ≠ .ideSleep b) : Queued (s.goto p pc) := by
  refine h.frame rfl rfl (fun _ _ => rfl) (fun q b hb => ?_) fun q b hmem hb => ?_ <;>
    simp only [State.goto, Function.update_apply] at * <;> grind

omit [DecidableEq P] in
/-- A buffer that is not in the queue changes. -/
theorem setBuf (h : Queued s) (hb : b ∉ s.idequeue) (x : Buf) : Queued (s.setBuf b x) :=
  h.frame rfl rfl (fun c hc => Function.update_of_ne (fun heq : c = b => hb (heq ▸ hc)) ..) (fun _ _ => id)
    fun _ _ _ => id

/-- **A buffer is queued**, and its process goes to sleep. -/
theorem push (h : Queued s) (hb : b ∉ s.idequeue) (hpc : ∀ c, s.pc p ≠ .ideSleep c ∧ s.pc p ≠ .ideWoken c)
    (hne : s.idequeue ≠ []) : Queued ({ s with idequeue := s.idequeue ++ [b] }.goto p (.ideSleep b)) := by
  obtain ⟨hasleep, hwaits, hnodup, hdrive⟩ := h
  constructor <;> simp only [State.goto, Function.update_apply]
  · grind
  · intro c hc
    obtain hc | rfl := List.mem_append.1 hc |>.imp_right List.mem_singleton.1
    · obtain ⟨q, hq⟩ := hwaits c hc
      exact ⟨q, by grind⟩
    · exact ⟨p, .inl (if_pos rfl)⟩
  · exact List.nodup_append.2 ⟨hnodup, List.nodup_singleton b, by grind⟩
  · cases hqueue : s.idequeue with
    | nil => exact absurd hqueue hne
    | cons c cs =>
      rw [hqueue] at hdrive
      exact hdrive

/-- **Each step keeps it.** -/
theorem next (h : Queued s) (hl : Locked s) (hc : Clean s)
    (hvictim : ∀ b, s.victim = some b → (s.buf b).busy = false) (hs : Step s l s') : Queued s' := by
  cases hs with
  | call hpc => exact h.goto _ (by simp [hpc]) (by simp)
  | @store p b data hpc hb =>
    have hset := h.setBuf (h.notMem hl (hl.held p b hb) (by simp [hpc]) (by simp [hpc]))
      { s.buf b with data := data }
    exact ⟨hset.asleep, hset.waits, hset.nodup, hset.drive⟩
  | @bwrite p b hpc hb =>
    have hset := h.setBuf (h.notMem hl (hl.held p b hb) (by simp [hpc]) (by simp [hpc]))
      { s.buf b with dirty := true }
    have hgoto := hset.goto (p := p) (.iderw b) (by simp [hpc]) (by simp)
    exact ⟨hgoto.asleep, hgoto.waits, hgoto.nodup, hgoto.drive⟩
  | @release p b hpc hb =>
    have hgoto := h.goto (p := p) (.brelse b) (by simp [hpc]) (by simp)
    exact ⟨hgoto.asleep, hgoto.waits, hgoto.nodup, hgoto.drive⟩
  | sleep hpc => exact h.goto _ (by simp [hpc]) (by simp)
  | @hit p b _ _ hpc _ hbusy =>
    have hset := h.setBuf (h.notMem_of_idle hl (hl.owner_eq_none hbusy)) { s.buf b with busy := true }
    have hgoto := hset.goto (p := p) (.bread b) (by simp [hpc]) (by simp)
    exact ⟨hgoto.asleep, hgoto.waits, hgoto.nodup, hgoto.drive⟩
  | @recycle p b dev sector hpc _ hv =>
    have hset := h.setBuf (h.notMem_of_idle hl (hl.owner_eq_none (hvictim b hv)))
      { s.buf b with dev := dev, sector := sector, busy := true, valid := false, dirty := false }
    have hgoto := hset.goto (p := p) (.bread b) (by simp [hpc]) (by simp)
    exact ⟨hgoto.asleep, hgoto.waits, hgoto.nodup, hgoto.drive⟩
  | @valid p b hpc =>
    have hgoto := h.goto (p := p) .client (by simp [hpc]) (by simp)
    exact ⟨hgoto.asleep, hgoto.waits, hgoto.nodup, hgoto.drive⟩
  | request hpc => exact h.goto _ (by simp [hpc]) (by simp)
  | @start p b hpc hq =>
    -- the buffer is the only one in the queue, and the drive works on it
    have hsync : ¬ (s.buf b).Synced := hc.before p b hpc
    rw [State.ideWait, if_neg hsync]
    have hnone : ∀ q c, s.pc q ≠ .ideSleep c := fun q c hqc => by
      have hmem := h.asleep q c hqc
      rw [hq] at hmem
      exact List.not_mem_nil hmem
    constructor <;> simp only [State.goto, Function.update_apply]
    · grind
    · intro c hc
      rw [List.mem_singleton.1 hc]
      exact ⟨p, .inl (if_pos rfl)⟩
    · exact List.nodup_singleton b
    · exact .inl trivial
  | @queue p b hpc hq =>
    have hsync : ¬ (s.buf b).Synced := hc.before p b hpc
    rw [State.ideWait, if_neg hsync]
    have huses : (s.pc p).uses = some b := by rw [hpc]; rfl
    exact h.push (h.notMem hl (hl.uses p b huses) (by simp [hpc]) (by simp [hpc])) (by simp [hpc]) hq
  | @woken p b hpc =>
    unfold State.ideWait
    split_ifs with hsync
    · have hmem : b ∉ s.idequeue := fun hmem => hc.pending b hmem hsync
      have hgoto := h.goto (p := p) .client (by simp only [hpc]; grind) (by simp)
      exact ⟨hgoto.asleep, hgoto.waits, hgoto.nodup, hgoto.drive⟩
    · -- the wakeup was not for this process, and it sleeps again
      have hmem : b ∈ s.idequeue := (hc.woken p b hpc).resolve_right hsync
      obtain ⟨hasleep, hwaits, hnodup, hdrive⟩ := h
      refine ⟨fun q c hqc => ?_, fun c hc => ?_, hnodup, hdrive⟩ <;>
        simp only [State.goto, Function.update_apply] at *
      · grind
      · obtain ⟨q, hq⟩ := hwaits c hc
        exact ⟨q, by grind⟩
  | @brelse p b hpc =>
    have huses : (s.pc p).uses = some b := by rw [hpc]; rfl
    have hmem := h.notMem hl (hl.uses p b huses) (by simp [hpc]) (by simp [hpc])
    refine h.frame rfl rfl (fun c hc => Function.update_of_ne (fun heq : c = b => hmem (heq ▸ hc)) ..)
      (fun q c hqc => ?_) fun q c hc hqc => ?_ <;>
      simp only [State.brelse, wake_eq_ideSleep, wake_eq_ideWoken, Function.update_apply] at * <;> grind
  | @rouse p pc hpc =>
    have hcases := roused_cases hpc
    refine h.frame rfl rfl (fun _ _ => rfl) (fun q b hb => ?_) fun q b hmem hb => ?_ <;>
      simp only [State.goto, Function.update_apply] at * <;> grind
  | readDone hd =>
    obtain ⟨b, bs, hbs⟩ := h.cons_of_working hd
    refine ⟨h.asleep, h.waits, h.nodup, ?_⟩
    rw [hbs]
    exact .inr ⟨_, _, rfl⟩
  | writeDone hd =>
    obtain ⟨b, bs, hbs⟩ := h.cons_of_working hd
    refine ⟨h.asleep, h.waits, h.nodup, ?_⟩
    rw [hbs]
    exact .inr ⟨_, _, rfl⟩
  | spurious => exact h
  | @ideintr b bs data err hq hd =>
    have hnodup := h.nodup
    rw [hq, List.nodup_cons] at hnodup
    refine ⟨fun q c hqc => ?_, fun c hc => ?_, hnodup.2, ?_⟩
    · obtain ⟨hqc, hne⟩ := wake_eq_ideSleep.1 hqc
      have hmem := h.asleep q c hqc
      rw [hq] at hmem
      exact (List.mem_cons.1 hmem).resolve_left hne
    · obtain ⟨q, hq⟩ := h.waits c (hq ▸ List.mem_cons_of_mem b hc)
      refine ⟨q, ?_⟩
      simp only [State.served, wake_eq_ideSleep, wake_eq_ideWoken]
      grind
    · cases hbs : bs with
      | nil => rfl
      | cons b' bs' => exact .inl rfl

end Queued

/-! ### What is in step with the disk -/

namespace Clean

/-- A process goes on, to where the same is known of its buffer. -/
theorem goto (h : Clean s) (pc : Pc n) (hbread : ∀ b, pc = .bread b → (s.buf b).dirty = false)
    (hbefore : ∀ b, pc = .iderw b → ¬ (s.buf b).Synced)
    (hwoken : ∀ b, pc = .ideWoken b → b ∈ s.idequeue ∨ (s.buf b).Synced)
    (hbrelse : ∀ b, pc = .brelse b → (s.buf b).Synced)
    (huses : ∀ b ∈ s.held p, (s.pc p).uses = some b → pc.uses = some b ∨ (s.buf b).Synced) :
    Clean (s.goto p pc) := by
  obtain ⟨hidle, hbr, hbef, hpend, hwok, hheld, hbrel⟩ := h
  refine ⟨hidle, ?_, ?_, hpend, ?_, ?_, ?_⟩ <;> simp only [State.goto, Function.update_apply] <;> grind

omit [DecidableEq P] in
/-- The data of a buffer changes. -/
theorem store (h : Clean s) (x : Buf) (hx : x.valid = (s.buf b).valid ∧ x.dirty = (s.buf b).dirty)
    (changed : Fin n → Bool) : Clean { s.setBuf b x with changed := changed } := by
  obtain ⟨hidle, hbr, hbef, hpend, hwok, hheld, hbrel⟩ := h
  constructor <;> simp only [State.setBuf, Function.update_apply] <;> grind [Buf.Synced]

/-- A process leaves the code with a buffer that is in step. -/
theorem give (h : Clean s) (hb : (s.pc p).uses = some b) (hsynced : (s.buf b).Synced) :
    Clean (s.give p b) := by
  obtain ⟨hidle, hbr, hbef, hpend, hwok, hheld, hbrel⟩ := h
  refine ⟨hidle, ?_, ?_, hpend, ?_, ?_, ?_⟩ <;>
    simp only [State.give, State.goto, Function.update_apply] <;> grind

theorem ideWait (h : Clean s) (hb : (s.pc p).uses = some b) : Clean (s.ideWait p b) := by
  unfold State.ideWait
  split_ifs with hsynced
  · exact h.give hb hsynced
  · refine h.goto _ nofun nofun nofun nofun fun c _ hc => ?_
    rw [hb] at hc
    exact .inl hc

/-- A buffer is locked by a process, as it is or with nothing in it. -/
theorem lock (h : Clean s) (hl : Locked s) (hq : Queued s) (hb : (s.buf b).busy = false)
    (hpc : (s.pc p).uses = none) (x : Buf) (hx : x.dirty = false) :
    Clean { (s.setBuf b x).goto p (.bread b) with owner := Function.update s.owner b (some p) } := by
  have howner := hl.owner_eq_none hb
  have hqueue := hq.notMem_of_idle hl howner
  have hheld : ∀ q, b ∉ s.held q := fun q hbq => by
    have howned := hl.held q b hbq
    rw [howner] at howned
    cases howned
  have huses : ∀ q, (s.pc q).uses ≠ some b := fun q hbq => by
    have howned := hl.uses q b hbq
    rw [howner] at howned
    cases howned
  obtain ⟨hidle, hbr, hbef, hpend, hwok, hhel, hbrel⟩ := h
  constructor <;> simp only [State.setBuf, State.goto, Function.update_apply] <;> grind [Pc.uses]

/-- A process writes a buffer that it has: only its owner sees that it becomes dirty. -/
theorem bwrite (h : Clean s) (hl : Locked s) (hpc : s.pc p = .client) (hb : b ∈ s.held p) :
    Clean ((s.setBuf b { s.buf b with dirty := true }).goto p (.iderw b)) := by
  obtain ⟨-, howned, huses, -, -, -⟩ := hl
  obtain ⟨hidle, hbr, hbef, hpend, hwok, hhel, hbrel⟩ := h
  constructor <;> simp only [State.setBuf, State.goto, Function.update_apply] <;>
    grind [Buf.Synced, Pc.uses]

/-- A process begins to give a buffer back. -/
theorem release (h : Clean s) (hpc : s.pc p = .client) (hb : b ∈ s.held p) :
    Clean { s.goto p (.brelse b) with held := Function.update s.held p ((s.held p).erase b) } := by
  have hsynced := h.held p b hb (by rw [hpc]; simp [Pc.uses])
  obtain ⟨hidle, hbr, hbef, hpend, hwok, hheld, hbrel⟩ := h
  constructor <;> simp only [State.goto, Function.update_apply] <;> grind [Pc.uses]

theorem released (h : Clean s) (hl : Locked s) (hpc : s.pc p = .brelse b) : Clean (s.brelse p b) := by
  have halone := hl.alone p b (.inr hpc)
  have hsynced := h.brelse p b hpc
  obtain ⟨-, howned, huses, -, -, -⟩ := hl
  obtain ⟨hidle, hbr, hbef, hpend, hwok, hhel, hbrel⟩ := h
  constructor <;> simp only [State.brelse, wake_eq_ideWoken, wake_eq_bread, wake_eq_iderw,
    wake_eq_brelse, uses_wake, Function.update_apply] <;> grind [Buf.Synced, Pc.uses]

omit [DecidableEq P] in
/-- The first buffer of the queue is in step when it is done, and its process is woken up. -/
theorem served {bs : List (Fin n)} {data : Bytes} {err : Bool} (h : Clean s) (hl : Locked s)
    (hq : Queued s) (hqueue : s.idequeue = b :: bs) : Clean (s.served b bs data err) := by
  have hasleep := hq.asleep
  have hnodup := hq.nodup
  obtain ⟨q, hwaits⟩ := hq.waits b (hqueue ▸ List.mem_cons_self)
  obtain ⟨-, howned, huses, -, -, -⟩ := hl
  obtain ⟨hidle, hbr, hbef, hpend, hwok, hhel, hbrel⟩ := h
  constructor <;> simp only [State.served, wake_eq_ideWoken, wake_eq_bread, wake_eq_iderw,
    wake_eq_brelse, uses_wake, Function.update_apply] <;> grind [Buf.Synced, Pc.uses]

/-- **Each step keeps it.** -/
theorem next (h : Clean s) (hl : Locked s) (hq : Queued s)
    (hvictim : ∀ b, s.victim = some b → (s.buf b).busy = false) (hs : Step s l s') : Clean s' := by
  have huses : ∀ {p} {pc pc' : Pc n}, s.pc p = pc → pc.uses = none → ∀ b ∈ s.held p, (s.pc p).uses = some b →
      pc'.uses = some b ∨ (s.buf b).Synced := fun hpc hnone b _ hb => by
    rw [hpc, hnone] at hb
    cases hb
  cases hs with
  | call hpc => exact h.goto _ nofun nofun nofun nofun (huses hpc rfl)
  | @store p b data => exact h.store { s.buf b with data := data } ⟨rfl, rfl⟩ _
  | bwrite hpc hb =>
    have hwrite := h.bwrite hl hpc hb
    exact ⟨hwrite.idle, hwrite.bread, hwrite.before, hwrite.pending, hwrite.woken, hwrite.held, hwrite.brelse⟩
  | release hpc hb => exact h.release hpc hb
  | sleep hpc => exact h.goto _ nofun nofun nofun nofun (huses hpc rfl)
  | hit hpc hlook hbusy =>
    exact h.lock hl hq hbusy (by rw [hpc]; rfl) _ (h.idle _ (hl.owner_eq_none hbusy))
  | recycle hpc hlook hv => exact h.lock hl hq (hvictim _ hv) (by rw [hpc]; rfl) _ rfl
  | @valid p b hpc hv => exact h.give (by rw [hpc]; rfl) ⟨hv, h.bread p b hpc⟩
  | @request p b hpc hv =>
    refine h.goto _ nofun (fun c hc hsynced => ?_) nofun nofun fun c _ hc => .inl ?_
    · cases hc
      exact Bool.false_ne_true (hv.symm.trans hsynced.1)
    · rw [hpc] at hc
      exact hc
  | @start p b hpc hqueue =>
    refine ideWait ⟨h.idle, h.bread, h.before, fun c hc => ?_, fun q c hqc => ?_, h.held, h.brelse⟩
      (by rw [hpc]; rfl)
    · obtain rfl := List.mem_singleton.1 hc
      exact h.before p c hpc
    · rcases h.woken q c hqc with hmem | hsynced
      · rw [hqueue] at hmem
        cases hmem
      · exact .inr hsynced
  | @queue p b hpc =>
    refine ideWait ⟨h.idle, h.bread, h.before, fun c hc => ?_, fun q c hqc => ?_, h.held, h.brelse⟩
      (by rw [hpc]; rfl)
    · rcases List.mem_append.1 hc with hmem | hmem
      · exact h.pending c hmem
      · obtain rfl := List.mem_singleton.1 hmem
        exact h.before p c hpc
    · exact (h.woken q c hqc).imp_left fun hmem => List.mem_append_left _ hmem
  | @woken p b hpc => exact h.ideWait (by rw [hpc]; rfl)
  | brelse hpc => exact h.released hl hpc
  | @rouse p pc hpc =>
    obtain ⟨b, dev, sector, hpc', rfl⟩ | ⟨b, hpc', rfl⟩ := roused_cases hpc
    · exact h.goto _ nofun nofun nofun nofun (huses hpc' rfl)
    · refine h.goto _ nofun nofun (fun c hc => ?_) nofun fun c _ hc => .inl ?_
      · cases hc
        exact .inl (hq.asleep p b hpc')
      · rw [hpc'] at hc
        exact hc
  | readDone => exact ⟨h.idle, h.bread, h.before, h.pending, h.woken, h.held, h.brelse⟩
  | writeDone => exact ⟨h.idle, h.bread, h.before, h.pending, h.woken, h.held, h.brelse⟩
  | spurious => exact h
  | ideintr hqueue => exact h.served hl hq hqueue

end Clean

end Bio

end OperatingSystems

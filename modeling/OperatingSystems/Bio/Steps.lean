import OperatingSystems.Bio.Cache

/-!
# What the steps of the buffer cache do

* `State.served` : `ideintr` for the first buffer of the queue.
* `Step` : **the steps**, one case for each way through the code.
* `step_of_next` : every step of the machine is one of them.
-/

namespace OperatingSystems

namespace Bio

variable {P : Type} [DecidableEq P] {n : ℕ}

/-! ### The steps -/

/-- `ideintr` for the first buffer `b` of the queue, with `bs` behind it -/
def State.served (s : State P n) (b : Fin n) (bs : List (Fin n)) (data : Bytes) (err : Bool) :
    State P n :=
  let buf := Function.update s.buf b
    { State.insl (s.buf b) data err with valid := true, dirty := false }
  { s with
    idequeue := bs
    buf := buf
    pc := fun p => State.wake b (s.pc p)
    drive := match bs with
      | [] => .ready
      | b' :: _ => .working (State.cmd (buf b')) }

/-- The steps of the machine -/
inductive Step : State P n → Label P n → State P n → Prop
  | call {s p dev sector} (hpc : s.pc p = .client) :
      Step s (.bread p dev sector) (s.goto p (.bget dev sector))
  | store {s p b data} (hpc : s.pc p = .client) (hb : b ∈ s.held p) :
      Step s (.store p b data) { s.setBuf b { s.buf b with data := data } with
        changed := Function.update s.changed b true }
  | bwrite {s p b} (hpc : s.pc p = .client) (hb : b ∈ s.held p) (hbusy : (s.buf b).busy = true) :
      Step s (.bwrite p b) { (s.setBuf b { s.buf b with dirty := true }).goto p (.iderw b) with
        changed := Function.update s.changed b false }
  | release {s p b} (hpc : s.pc p = .client) (hb : b ∈ s.held p) (hbusy : (s.buf b).busy = true) :
      Step s (.brelse p b)
        { s.goto p (.brelse b) with held := Function.update s.held p ((s.held p).erase b) }
  | sleep {s p b dev sector} (hpc : s.pc p = .bget dev sector) (hl : s.lookup dev sector = some b)
      (hbusy : (s.buf b).busy = true) :
      Step s (.advance p) (s.goto p (.bgetSleep b dev sector))
  | hit {s p b dev sector} (hpc : s.pc p = .bget dev sector) (hl : s.lookup dev sector = some b)
      (hbusy : (s.buf b).busy = false) :
      Step s (.advance p)
        { (s.setBuf b { s.buf b with busy := true }).goto p (.bread b) with
          owner := Function.update s.owner b (some p) }
  | recycle {s p b dev sector} (hpc : s.pc p = .bget dev sector) (hl : s.lookup dev sector = none)
      (hv : s.victim = some b) :
      Step s (.advance p)
        { (s.setBuf b { s.buf b with
            dev := dev, sector := sector, busy := true, valid := false, dirty := false }).goto p (.bread b)
          with owner := Function.update s.owner b (some p) }
  | valid {s p b} (hpc : s.pc p = .bread b) (hv : (s.buf b).valid = true) :
      Step s (.advance p) (s.give p b)
  | request {s p b} (hpc : s.pc p = .bread b) (hv : (s.buf b).valid = false) :
      Step s (.advance p) (s.goto p (.iderw b))
  | start {s p b} (hpc : s.pc p = .iderw b) (hq : s.idequeue = []) (hd : ∀ c, s.drive ≠ .working c) :
      Step s (.advance p)
        ({ s with idequeue := [b], drive := .working (State.cmd (s.buf b)) }.ideWait p b)
  | queue {s p b} (hpc : s.pc p = .iderw b) (hq : s.idequeue ≠ []) :
      Step s (.advance p) ({ s with idequeue := s.idequeue ++ [b] }.ideWait p b)
  | woken {s p b} (hpc : s.pc p = .ideWoken b) : Step s (.advance p) (s.ideWait p b)
  | brelse {s p b} (hpc : s.pc p = .brelse b) : Step s (.advance p) (s.brelse p b)
  | rouse {s p pc} (hpc : State.roused (s.pc p) = some pc) :
      Step s (.rouse p) (s.goto p pc)
  | readDone {s d i err} (hd : s.drive = .working (.read d i)) :
      Step s (.drive err) { s with drive := .done (s.disk d i) err }
  | writeDone {s d i data err} (hd : s.drive = .working (.write d i data)) :
      Step s (.drive err) { s with
        drive := .done data err
        disk := if err then s.disk
          else Function.update s.disk d (Function.update (s.disk d) i data) }
  | spurious {s} (hq : s.idequeue = []) : Step s .ideintr s
  | ideintr {s b bs data err} (hq : s.idequeue = b :: bs) (hd : s.drive = .done data err) :
      Step s .ideintr (s.served b bs data err)

variable {havedisk1 : Bool} {s s' : State P n} {l : Label P n} {p q : P} {b c : Fin n}

theorem next_eq_some : (bio P n havedisk1).next s l = some s' ↔
    s.step havedisk1 l = some (.ok s') := by
  simp only [bio, Option.bind_eq_some_iff]
  constructor
  · rintro ⟨x, hx, hs⟩
    cases x with
    | error e => cases hs
    | ok t =>
      cases hs
      exact hx
  · exact fun h => ⟨_, h, rfl⟩

theorem step_of_iderw (hpc : s.pc p = .iderw b) (h : s.iderw p b = some s') :
    Step s (.advance p) s' := by
  unfold State.iderw at h
  split_ifs at h with hq
  · obtain ⟨t, ht, rfl⟩ := Option.map_eq_some_iff.1 h
    unfold State.idestart at ht
    split at ht
    · cases ht
    next hd =>
      cases ht
      rw [hq, List.nil_append]
      exact .start hpc hq hd
  · cases h
    exact .queue hpc hq

theorem step_of_ideintr (h : s.ideintr = some s') : Step s .ideintr s' := by
  unfold State.ideintr at h
  split at h
  next hq =>
    cases h
    exact .spurious hq
  next b bs data err hq hd =>
    have hstep := Step.ideintr hq hd
    cases bs with
    | nil =>
      cases h
      exact hstep
    | cons b' bs =>
      -- the drive is done, so that `idestart` does not wait
      simp only [State.idestart, hd] at h
      cases h
      exact hstep
  next => cases h

theorem step_of_advance (h : s.advance havedisk1 p = some (.ok s')) :
    Step s (.advance p) s' := by
  unfold State.advance at h
  split at h
  next => cases h
  next dev sector hpc =>
    replace h := Option.some.inj h
    unfold State.bget at h
    split at h
    next b hl =>
      split_ifs at h with hbusy
      · cases h
        exact .sleep hpc hl hbusy
      · cases h
        exact .hit hpc hl (Bool.eq_false_of_not_eq_true hbusy)
    next hl =>
      split at h
      next b hv =>
        cases h
        exact .recycle hpc hl hv
      next => cases h
  next => cases h
  next b hpc =>
    replace h := Option.some.inj h
    unfold State.breadTest at h
    split_ifs at h with hv
    · cases h
      exact .valid hpc hv
    · obtain ⟨-, -, hs⟩ := bind_eq_ok.1 h
      cases hs
      exact .request hpc (Bool.eq_false_of_not_eq_true hv)
  next b hpc =>
    obtain ⟨t, ht, hs⟩ := Option.map_eq_some_iff.1 h
    cases hs
    exact step_of_iderw hpc ht
  next => cases h
  next b hpc =>
    cases h
    exact .woken hpc
  next b hpc =>
    cases h
    exact .brelse hpc

/-- **The steps of the machine** -/
theorem step_of_next (h : (bio P n havedisk1).next s l = some s') : Step s l s' := by
  rw [next_eq_some] at h
  cases l with
  | bread p dev sector =>
    simp only [State.step] at h
    split_ifs at h with hpc
    cases h
    exact .call hpc
  | store p b data =>
    simp only [State.step] at h
    split_ifs at h with hpc
    cases h
    exact .store hpc.1 hpc.2
  | bwrite p b =>
    simp only [State.step] at h
    split_ifs at h with hpc
    replace h := Option.some.inj h
    unfold State.bwrite at h
    split_ifs at h with hbusy
    obtain ⟨-, -, hs⟩ := bind_eq_ok.1 h
    cases hs
    exact .bwrite hpc.1 hpc.2 (Bool.eq_true_of_not_eq_false hbusy)
  | brelse p b =>
    simp only [State.step] at h
    split_ifs at h with hpc hbusy
    · cases h
    · cases h
      exact .release hpc.1 hpc.2 (Bool.eq_true_of_not_eq_false hbusy)
  | advance p => exact step_of_advance h
  | rouse p =>
    obtain ⟨pc, hpc, hs⟩ := Option.map_eq_some_iff.1 h
    cases hs
    exact .rouse hpc
  | drive err =>
    obtain ⟨t, ht, hs⟩ := Option.map_eq_some_iff.1 h
    cases hs
    unfold State.finish at ht
    split at ht
    next hd =>
      cases ht
      exact .readDone hd
    next hd =>
      cases ht
      exact .writeDone hd
    next => cases ht
  | ideintr =>
    obtain ⟨t, ht, hs⟩ := Option.map_eq_some_iff.1 h
    cases hs
    exact step_of_ideintr ht

end Bio

end OperatingSystems

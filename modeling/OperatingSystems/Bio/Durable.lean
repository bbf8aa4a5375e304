import OperatingSystems.Bio.Recency

/-!
# The disks behind the cache

What the cache and the drive do to the disks, as long as the drive reports no errors, the sectors that are
asked for exist, and whoever has changed the data of a buffer calls `bwrite` before `brelse`.

* `Careful` : these conditions.
* `Ranged` : every buffer is for a sector that exists, if it is for one at all.
* `Kept` : only data that its owner has in its hands is changed and not written.
* `OnDisk` : **a buffer in step with the disk holds what is on the disk**, and what the drive has done.
* `Ranged.next`, `Kept.next`, `OnDisk.next` : each step keeps them.
-/

namespace OperatingSystems

namespace Bio

variable {P : Type} [DecidableEq P] {n : ℕ} {havedisk1 : Bool} {s s' : State P n} {lbl : Label P n}
  {p : P} {b c : Fin n} {dev sector : ℕ}

/-- The disk and the sector -/
abbrev Key : Type := ℕ × ℕ

def Buf.key (x : Buf) : Key := (x.dev, x.sector)

/-- A sector that `idestart` asks the drive for as it is -/
def Exists (k : Key) : Prop := k.1 < 2 ∧ k.2 < 2 ^ 28

instance (k : Key) : Decidable (Exists k) := inferInstanceAs (Decidable (_ ∧ _))

/-- The drive reports no errors, the sectors exist, and what was changed is written before it is released. -/
def Careful (s : State P n) : Label P n → Prop
  | .bread _ dev sector => Exists (dev, sector)
  | .brelse _ b => s.changed b = false
  | .drive err => err = false
  | _ => True

instance (s : State P n) (lbl : Label P n) : Decidable (Careful s lbl) := by
  cases lbl <;> unfold Careful <;> infer_instance

/-- Every buffer is for a sector that exists, or was never used. -/
structure Ranged (s : State P n) : Prop where
  buf : ∀ b, Exists (s.buf b).key ∨
    (s.buf b).dev = 2 ^ 32 - 1 ∧ (s.buf b).valid = false ∧ s.owner b = none
  bget : ∀ p dev sector, s.pc p = .bget dev sector → Exists (dev, sector)
  sleep : ∀ p b dev sector, s.pc p = .bgetSleep b dev sector → Exists (dev, sector)

/-- Only data in the hands of a process is changed and not written. -/
structure Kept (s : State P n) : Prop where
  held : ∀ b, s.changed b = true → ∃ p, b ∈ s.held p ∧ (s.pc p).uses ≠ some b

/-- **What is on the disks** -/
structure OnDisk (s : State P n) : Prop where
  synced : ∀ b, Exists (s.buf b).key → (s.buf b).Synced → s.changed b = false →
    s.disk (s.buf b).dev (s.buf b).sector = (s.buf b).data
  done : ∀ b bs data err, s.idequeue = b :: bs → s.drive = .done data err →
    err = false ∧ s.disk (s.buf b).dev (s.buf b).sector = (if (s.buf b).dirty then (s.buf b).data else data)

theorem cmd_of_exists {x : Buf} (h : Exists x.key) : State.cmd x =
    if x.dirty then .write x.dev x.sector x.data else .read x.dev x.sector := by
  obtain ⟨hdev, hsector⟩ := h
  simp only [Buf.key] at hdev hsector
  rw [State.cmd, Nat.mod_eq_of_lt hdev, Nat.mod_eq_of_lt hsector]

theorem cmd_eq_read {x : Buf} {d i : ℕ} (h : Exists x.key) (hcmd : State.cmd x = .read d i) :
    x.dirty = false ∧ d = x.dev ∧ i = x.sector := by
  rw [cmd_of_exists h] at hcmd
  split_ifs at hcmd with hdirty
  cases hcmd
  exact ⟨Bool.eq_false_of_not_eq_true hdirty, rfl, rfl⟩

theorem cmd_eq_write {x : Buf} {d i : ℕ} {data : Bytes} (h : Exists x.key)
    (hcmd : State.cmd x = .write d i data) :
    x.dirty = true ∧ d = x.dev ∧ i = x.sector ∧ data = x.data := by
  rw [cmd_of_exists h] at hcmd
  split_ifs at hcmd with hdirty
  cases hcmd
  exact ⟨hdirty, rfl, rfl, rfl⟩

/-! ### Sectors that exist -/

namespace Ranged

omit [DecidableEq P] in
theorem exists_of_mem (h : Ranged s) (hsound : Sound s) (hb : b ∈ s.idequeue) : Exists (s.buf b).key := by
  obtain ⟨p, hp, -⟩ := hsound.queued.owned hsound.locked hb
  refine (h.buf b).resolve_right fun hnone => ?_
  rw [hnone.2.2] at hp
  cases hp

theorem ideWait (h : Ranged s) (p : P) (b : Fin n) : Ranged (s.ideWait p b) := by
  obtain ⟨hbuf, hbget, hsleep⟩ := h
  unfold State.ideWait
  split_ifs <;> constructor <;> simp only [State.give, State.goto, Function.update_apply] <;> grind

/-- **Each step keeps it.** -/
theorem next (h : Ranged s) (hsound : Sound s) (hg : Careful s lbl) (hs : Step s lbl s') : Ranged s' := by
  have howned := hsound.locked.held
  have huses := hsound.locked.uses
  obtain ⟨hbuf, hbget, hsleep⟩ := id h
  cases hs with
  | call =>
    simp only [Careful] at hg
    constructor <;> simp only [State.goto, Function.update_apply] <;> grind
  | store => constructor <;> simp only [State.setBuf, Function.update_apply] <;> grind [Buf.key]
  | bwrite => constructor <;> simp only [State.setBuf, State.goto, Function.update_apply] <;> grind [Buf.key]
  | release => constructor <;> simp only [State.goto, Function.update_apply] <;> grind
  | sleep => constructor <;> simp only [State.goto, Function.update_apply] <;> grind
  | hit hpc hlook =>
    have hcaches := hsound.listed.caches_of_lookup hlook
    constructor <;> simp only [State.setBuf, State.goto, Function.update_apply] <;> grind [Buf.key]
  | recycle => constructor <;> simp only [State.setBuf, State.goto, Function.update_apply] <;> grind [Buf.key]
  | valid => constructor <;> simp only [State.give, State.goto, Function.update_apply] <;> grind
  | request => constructor <;> simp only [State.goto, Function.update_apply] <;> grind
  | start =>
    refine ideWait ?_ ..
    exact ⟨hbuf, hbget, hsleep⟩
  | queue =>
    refine ideWait ?_ ..
    exact ⟨hbuf, hbget, hsleep⟩
  | woken => exact h.ideWait ..
  | brelse =>
    constructor <;> simp only [State.brelse, wake_eq_bget, wake_eq_bgetSleep, Function.update_apply] <;>
      grind [Buf.key, Pc.uses]
  | rouse hpc =>
    have hcases := roused_cases hpc
    constructor <;> simp only [State.goto, Function.update_apply] <;> grind
  | readDone => exact ⟨hbuf, hbget, hsleep⟩
  | writeDone => exact ⟨hbuf, hbget, hsleep⟩
  | spurious => exact h
  | @ideintr b bs data err hqueue =>
    have hb : Exists (s.buf b).key := h.exists_of_mem hsound (hqueue ▸ List.mem_cons_self)
    refine ⟨fun c => ?_, fun q dev sector hpc => ?_, fun q c dev sector hpc => ?_⟩
    · simp only [State.served, Function.update_apply]
      split_ifs with hcb
      · exact .inl (by simpa [Buf.key] using hb)
      · exact hbuf c
    · obtain hpc | hpc := wake_eq_bget.1 hpc
      · exact hbget q dev sector hpc
      · exact hsleep q b dev sector hpc
    · exact hsleep q c dev sector (wake_eq_bgetSleep.1 hpc).1

end Ranged

/-! ### Changed data -/

namespace Kept

theorem ideWait (h : Kept s) (hpc : (s.pc p).uses = some b) : Kept (s.ideWait p b) := by
  obtain ⟨hheld⟩ := h
  unfold State.ideWait
  split_ifs <;> constructor <;> simp only [State.give, State.goto, Function.update_apply] <;>
    grind [Pc.uses]

/-- **Each step keeps it.** -/
theorem next (h : Kept s) (hsound : Sound s) (hg : Careful s lbl) (hs : Step s lbl s') : Kept s' := by
  have huses := hsound.locked.uses
  have howned := hsound.locked.held
  obtain ⟨hheld⟩ := id h
  cases hs with
  | call => constructor; simp only [State.goto, Function.update_apply]; grind [Pc.uses]
  | store => constructor; simp only [State.setBuf, Function.update_apply]; grind [Pc.uses]
  | bwrite => constructor; simp only [State.setBuf, State.goto, Function.update_apply]; grind [Pc.uses]
  | release =>
    simp only [Careful] at hg
    constructor; simp only [State.goto, Function.update_apply]; grind [Pc.uses]
  | sleep => constructor; simp only [State.goto, Function.update_apply]; grind [Pc.uses]
  | hit _ _ hbusy =>
    have hnone := hsound.locked.owner_eq_none hbusy
    constructor; simp only [State.setBuf, State.goto, Function.update_apply]; grind [Pc.uses]
  | recycle _ _ hv =>
    have hnone := hsound.locked.owner_eq_none (hsound.listed.busy_of_victim hv)
    constructor; simp only [State.setBuf, State.goto, Function.update_apply]; grind [Pc.uses]
  | valid => constructor; simp only [State.give, State.goto, Function.update_apply]; grind [Pc.uses]
  | request => constructor; simp only [State.goto, Function.update_apply]; grind [Pc.uses]
  | start hpc =>
    refine ideWait ?_ ?_
    · exact ⟨hheld⟩
    · simp only [hpc, Pc.uses]
  | queue hpc =>
    refine ideWait ?_ ?_
    · exact ⟨hheld⟩
    · simp only [hpc, Pc.uses]
  | woken hpc => exact h.ideWait (by simp only [hpc, Pc.uses])
  | brelse => constructor; simp only [State.brelse, uses_wake, Function.update_apply]; grind [Pc.uses]
  | rouse hpc =>
    have hcases := roused_cases hpc
    constructor; simp only [State.goto, Function.update_apply]; grind [Pc.uses]
  | readDone => exact ⟨hheld⟩
  | writeDone => exact ⟨hheld⟩
  | spurious => exact h
  | ideintr => constructor; simp only [State.served, uses_wake]; exact hheld

end Kept

/-! ### What is on the disks -/

namespace OnDisk

theorem ideWait (h : OnDisk s) (p : P) (b : Fin n) : OnDisk (s.ideWait p b) := by
  unfold State.ideWait
  split_ifs <;> exact ⟨h.synced, h.done⟩

/-- **Each step keeps it.** -/
theorem next (h : OnDisk s) (hsound : Sound s) (hr : Ranged s) (hg : Careful s lbl)
    (hs : Step s lbl s') : OnDisk s' := by
  have hqueue := hsound.queued
  have hlocked := hsound.locked
  obtain ⟨hsynced, hdone⟩ := id h
  cases hs with
  | call => exact ⟨hsynced, hdone⟩
  | @store p b data hpc hb =>
    -- the buffer is not in the queue, and counts as changed
    have hmem := hqueue.notMem hlocked (hlocked.held p b hb) (by simp [hpc]) (by simp [hpc])
    constructor <;> simp only [State.setBuf, Function.update_apply] <;> grind [Buf.key, Buf.Synced]
  | @bwrite p b hpc hb =>
    have hmem := hqueue.notMem hlocked (hlocked.held p b hb) (by simp [hpc]) (by simp [hpc])
    constructor <;> simp only [State.setBuf, State.goto, Function.update_apply] <;>
      grind [Buf.key, Buf.Synced]
  | release => exact ⟨hsynced, hdone⟩
  | sleep => exact ⟨hsynced, hdone⟩
  | @hit p b _ _ _ _ hbusy =>
    have hmem := hqueue.notMem_of_idle hlocked (hlocked.owner_eq_none hbusy)
    constructor <;> simp only [State.setBuf, State.goto, Function.update_apply] <;>
      grind [Buf.key, Buf.Synced]
  | @recycle p b _ _ _ _ hv =>
    have hbusy := hsound.listed.busy_of_victim hv
    have hmem := hqueue.notMem_of_idle hlocked (hlocked.owner_eq_none hbusy)
    constructor <;> simp only [State.setBuf, State.goto, Function.update_apply] <;>
      grind [Buf.key, Buf.Synced]
  | valid => exact ⟨hsynced, hdone⟩
  | request => exact ⟨hsynced, hdone⟩
  | start =>
    refine ideWait ?_ ..
    exact ⟨hsynced, fun c bs data err _ hd => by cases hd⟩
  | @queue p b hpc hne =>
    refine ideWait ?_ ..
    refine ⟨hsynced, fun c bs data err hcs hd => ?_⟩
    -- the first buffer of the queue is the same
    obtain ⟨d, ds, hds⟩ := List.exists_cons_of_ne_nil hne
    have hcd : c = d := by
      simp only [hds, List.cons_append, List.cons.injEq] at hcs
      exact hcs.1.symm
    exact hcd ▸ hdone d ds data err hds hd
  | woken => exact h.ideWait ..
  | @brelse p b hpc =>
    have hmem := hqueue.notMem hlocked (hlocked.uses p b (by simp only [hpc, Pc.uses])) (by simp [hpc])
      (by simp [hpc])
    constructor <;> simp only [State.brelse, Function.update_apply] <;> grind [Buf.key, Buf.Synced]
  | rouse => exact ⟨hsynced, hdone⟩
  | @readDone d i err hd =>
    refine ⟨hsynced, fun b bs data err' hbs hdata => ?_⟩
    cases hdata
    obtain ⟨hdirty, rfl, rfl⟩ := cmd_eq_read (hr.exists_of_mem hsound (hbs ▸ List.mem_cons_self))
      (hqueue.cmd_of_working hbs hd).symm
    exact ⟨hg, by simp [hdirty]⟩
  | @writeDone d i data err hd =>
    have herr : err = false := hg
    -- the drive worked on the first buffer of the queue, which exists
    obtain ⟨b, bs, hbs⟩ := hqueue.cons_of_working hd
    have hmem : b ∈ s.idequeue := hbs ▸ List.mem_cons_self
    have hb := hr.exists_of_mem hsound hmem
    obtain ⟨hdirty, rfl, rfl, rfl⟩ := cmd_eq_write hb (hqueue.cmd_of_working hbs hd).symm
    refine ⟨fun c hc hsync hch => ?_, fun c cs data' err' hcs hdata => ?_⟩
    · rw [← hsynced c hc hsync hch]
      have hkey : ¬ ((s.buf c).dev = (s.buf b).dev ∧ (s.buf c).sector = (s.buf b).sector) := fun hkey => by
        obtain rfl := hsound.listed.unique c b (by simp only [Exists, Buf.key] at hc; omega) hkey.1 hkey.2
        exact hsound.clean.pending c hmem hsync
      simp only [herr, Bool.false_eq_true, if_false, Function.update_apply]
      grind
    · cases hdata
      obtain rfl : b = c := by
        rw [hbs] at hcs
        exact (List.cons.inj hcs).1
      simp [herr, hdirty]
  | spurious => exact h
  | @ideintr b bs data err hbs hd =>
    obtain ⟨herr, hdata⟩ := hdone b bs data err hbs hd
    refine ⟨fun c hc hsync hch => ?_, fun c cs data' err' hcs hd' => ?_⟩
    · simp only [State.served, Function.update_apply] at hc hsync ⊢
      split_ifs at hc hsync ⊢ with hcb
      · rw [State.insl_dev, State.insl_sector, hdata, State.insl, herr]
        cases (s.buf b).dirty <;> simp
      · exact hsynced c hc hsync hch
    · simp only [State.served] at hcs hd'
      rw [hcs] at hd'
      cases hd'

end OnDisk

end Bio

end OperatingSystems

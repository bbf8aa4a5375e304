import OperatingSystems.Files.Table
import OperatingSystems.Refs.Basic
import Mathlib.Data.Fintype.Prod
import Mathlib.Tactic.Abel

/-!
# The reference counts of open files

* `System.Owned held` : the counts are right if the running code holds `held` references itself, and
  an unreferenced entry of the file table is free.
* `Owned.filealloc`, `Owned.filedup`, `Owned.fileclose`, `Owned.fdalloc`, `Owned.clear` : what the
  building blocks do to `held`.
* `sysOpen_spec`, `sysDup_spec`, `sysPipe_spec`, `sysClose_spec`, `copyFiles_spec`,
  `closeFiles_spec` : **every operation ends with nothing held, and does not panic**.
-/

namespace OperatingSystems

namespace Files

open Threads (Slot Kernel Call)
open Refs

namespace System

/-- What all the descriptors point to. -/
def pointers (s : System) (x : Slot × Fd) : Option FileId := s.ofile x.1 x.2

/-- The reference counts. -/
def refs (s : System) (f : FileId) : ℤ := (s.file f).ref

/-- The books of the file table when the running code holds `held` references. -/
structure Owned (s : System) (held : FileId → ℤ) : Prop where
  balanced : Balanced s.pointers s.refs held
  lives : Lives s.refs s.opened s.closed
  free : ∀ f, s.refs f = 0 → (s.file f).type = .none

@[simp] theorem pointers_setOfile (s : System) (p : Slot) (fd : Fd) (v : Option FileId) :
    (s.setOfile p fd v).pointers = Function.update s.pointers (p, fd) v := by
  funext ⟨q, fd'⟩
  obtain rfl | hq := eq_or_ne q p
  · obtain rfl | hfd := eq_or_ne fd' fd
    · simp [pointers, setOfile]
    · rw [Function.update_of_ne (by simpa using hfd)]
      simp [pointers, setOfile, hfd]
  · rw [Function.update_of_ne (by simp [hq])]
    simp [pointers, setOfile, hq]

@[simp] theorem refs_setFile (s : System) (f : FileId) (u : File → File) :
    (s.setFile f u).refs = Function.update s.refs f (u (s.file f)).ref := by
  funext g
  obtain rfl | hg := eq_or_ne g f
  · simp [refs, setFile]
  · simp [refs, setFile, hg]

theorem setOfile_self (s : System) (p : Slot) (fd : Fd) (v : Option FileId) :
    (s.setOfile p fd v).ofile p fd = v := by simp [setOfile]

theorem setOfile_of_ne (s : System) {p q : Slot} {fd fd' : Fd} {v : Option FileId}
    (h : q ≠ p ∨ fd' ≠ fd) : (s.setOfile p fd v).ofile q fd' = s.ofile q fd' := by
  obtain rfl | hq := eq_or_ne q p
  · have hfd : fd' ≠ fd := h.resolve_left fun hne => hne rfl
    simp [setOfile, hfd]
  · simp [setOfile, hq]

variable {s s' : System} {held : FileId → ℤ} {p q : Slot} {fd : Fd} {f : FileId}

/-! ### The building blocks -/

/-- What is not about the file table itself stays the same. -/
structure Keeps (s s' : System) : Prop where
  kernel : s'.kernel = s.kernel
  ofile : s'.ofile = s.ofile

/-- A change of a file that leaves its count, and the type of a free one. -/
theorem Owned.setFile (h : s.Owned held) {u : File → File} (href : (u (s.file f)).ref = s.refs f)
    (hf : 1 ≤ s.refs f) : (s.setFile f u).Owned held := by
  have hrefs : (s.setFile f u).refs = s.refs := by
    rw [refs_setFile, href, Function.update_eq_self]
  refine ⟨?_, ?_, fun g hg => ?_⟩
  · rw [hrefs]
    exact h.balanced
  · rw [hrefs]
    exact h.lives
  · rw [hrefs] at hg
    have hgf : g ≠ f := by
      rintro rfl
      omega
    simpa [System.setFile, hgf] using h.free g hg

theorem Owned.filealloc (h : s.Owned held) :
    s.filealloc = (s, none) ∨ ∃ s' f, s.filealloc = (s', some f) ∧
      s'.Owned (held + Pi.single f 1) ∧ s.Keeps s' ∧ s.refs f = 0 ∧
      s'.refs = Function.update s.refs f 1 ∧ ∀ g, g ≠ f → s'.opened g = s.opened g := by
  unfold System.filealloc
  cases hfind : (List.finRange NFILE).find? fun f => (s.file f).ref = 0 with
  | none => exact Or.inl rfl
  | some f =>
    have hf : s.refs f = 0 := by simpa [refs] using List.find?_some hfind
    have hrefs := refs_setFile s f fun x => { x with ref := 1 }
    refine Or.inr ⟨_, f, rfl, ⟨?_, ?_, fun g hg => ?_⟩, ⟨rfl, rfl⟩, hf, hrefs,
      fun g hg => Function.update_of_ne hg ..⟩
    · have htake := h.balanced.take f
      rw [hf, zero_add] at htake
      exact hrefs ▸ htake
    · exact hrefs ▸ h.lives.opens hf
    · have hgf : g ≠ f := by
        rintro rfl
        simp [refs, System.setFile] at hg
      replace hg : s.refs g = 0 := by simpa [refs, System.setFile, hgf] using hg
      simpa [System.setFile, hgf] using h.free g hg

theorem Owned.filedup (h : s.Owned held) (hf : 1 ≤ s.refs f) :
    ∃ s', s.filedup f = some s' ∧ s'.Owned (held + Pi.single f 1) ∧ s.Keeps s' ∧
      s'.opened = s.opened := by
  have hrefs := refs_setFile s f fun x => { x with ref := x.ref + 1 }
  refine ⟨_, if_neg (not_lt.2 hf), ⟨?_, ?_, fun g hg => ?_⟩, ⟨rfl, rfl⟩, rfl⟩
  · exact hrefs ▸ h.balanced.take f
  · exact hrefs ▸ h.lives.counts (by omega) (show s.refs f + 1 ≠ 0 by omega)
  · have hgf : g ≠ f := by
      rintro rfl
      rw [hrefs, Function.update_self] at hg
      unfold refs at hf
      dsimp only at hg
      omega
    rw [hrefs, Function.update_of_ne hgf] at hg
    simpa [System.setFile, hgf] using h.free g hg

theorem Owned.fileclose (h : s.Owned held) (hf : 1 ≤ s.refs f) :
    ∃ s', s.fileclose f = some s' ∧ s'.Owned (held - Pi.single f 1) ∧ s.Keeps s' ∧
      s'.opened = s.opened ∧ s'.refs = Function.update s.refs f (s.refs f - 1) := by
  unfold System.fileclose
  rw [if_neg (show ¬ (s.file f).ref < 1 from not_lt.2 hf)]
  have hself : ((s.setFile f fun x => { x with ref := x.ref - 1 }).file f).ref = s.refs f - 1 := by
    simp [System.setFile, refs]
  dsimp only
  rw [hself]
  have hdrop := h.balanced.drop f
  split_ifs with hpos
  · have hrefs := refs_setFile s f fun x => { x with ref := x.ref - 1 }
    refine ⟨_, rfl, ⟨?_, ?_, fun g hg => ?_⟩, ⟨rfl, rfl⟩, rfl, hrefs⟩
    · exact hrefs ▸ hdrop
    · exact hrefs ▸ h.lives.counts (by omega) (show s.refs f - 1 ≠ 0 by omega)
    · have hgf : g ≠ f := by
        rintro rfl
        rw [hrefs, Function.update_self] at hg
        unfold refs at hpos
        dsimp only at hg
        omega
      rw [hrefs, Function.update_of_ne hgf] at hg
      simpa [System.setFile, hgf] using h.free g hg
  · -- the last reference: whatever happens to a pipe, the entry becomes free
    have hone : s.refs f = 1 := by omega
    rw [hone, sub_self]
    rw [show s.refs f - 1 = 0 by omega] at hdrop
    have hrefs : ∀ {t : System}, t.file = Function.update s.file f
        { (s.file f) with ref := 0, type := .none } → t.refs = Function.update s.refs f 0 :=
      fun {t} ht => by
        funext g
        obtain rfl | hg := eq_or_ne g f
        · simp [refs, ht]
        · simp [refs, ht, hg]
    have hbooks : ∀ {t : System}, t.ofile = s.ofile → t.opened = s.opened →
        t.closed = Function.update s.closed f (s.closed f + 1) → t.file = Function.update s.file f
          { (s.file f) with ref := 0, type := .none } → t.Owned (held - Pi.single f 1) :=
      fun {t} hofile hopened hclosed hfile => by
        refine ⟨?_, ?_, fun g hg => ?_⟩
        · rw [hrefs hfile, show t.pointers = s.pointers by unfold pointers; rw [hofile]]
          exact hdrop
        · rw [hrefs hfile, hopened, hclosed]
          exact h.lives.closes (by omega)
        · rw [hrefs hfile] at hg
          rw [hfile]
          obtain rfl | hgf := eq_or_ne g f
          · rw [Function.update_self]
          · rw [Function.update_of_ne hgf] at hg ⊢
            exact h.free g hg
    have hfile : ((s.setFile f fun x => { x with ref := x.ref - 1 }).setFile f fun x =>
        { x with ref := 0, type := .none }).file =
        Function.update s.file f { (s.file f) with ref := 0, type := .none } := by
      simp [System.setFile]
    split
    · exact ⟨_, rfl, hbooks rfl rfl rfl hfile, ⟨rfl, rfl⟩, rfl, hrefs hfile⟩
    · exact ⟨_, rfl, hbooks rfl rfl rfl hfile, ⟨rfl, rfl⟩, rfl, hrefs hfile⟩
    · exact ⟨_, rfl, hbooks rfl rfl rfl hfile, ⟨rfl, rfl⟩, rfl, hrefs hfile⟩

/-- A held reference goes to a free descriptor. -/
theorem Owned.store (h : s.Owned held) (hfd : s.ofile p fd = none) :
    (s.setOfile p fd (some f)).Owned (held - Pi.single f 1) :=
  ⟨pointers_setOfile s p fd (some f) ▸ h.balanced.store (i := (p, fd)) hfd f, h.lives, h.free⟩

/-- The reference of a descriptor is held instead. -/
theorem Owned.clear (h : s.Owned held) (hfd : s.ofile p fd = some f) :
    (s.setOfile p fd none).Owned (held + Pi.single f 1) :=
  ⟨pointers_setOfile s p fd none ▸ h.balanced.clear (i := (p, fd)) hfd, h.lives, h.free⟩

theorem Owned.fdalloc (h : s.Owned held) (p : Slot) (f : FileId) :
    s.fdalloc p f = none ∨ ∃ fd, s.fdalloc p f = some (s.setOfile p fd (some f), fd) ∧
      s.ofile p fd = none ∧ (s.setOfile p fd (some f)).Owned (held - Pi.single f 1) := by
  unfold System.fdalloc
  cases hfind : (List.finRange NOFILE).find? fun fd => (s.ofile p fd).isNone with
  | none => exact Or.inl rfl
  | some fd =>
    have hfd : s.ofile p fd = none := by simpa using List.find?_some hfind
    exact Or.inr ⟨fd, rfl, hfd, h.store hfd⟩

theorem zero_le_single (f : FileId) : 0 ≤ (Pi.single f 1 : FileId → ℤ) := fun g => by
  rw [Pi.single_apply, Pi.zero_apply]
  split
  · exact zero_le_one
  · exact le_rfl

/-- A held reference is given up. -/
theorem Owned.release (h : s.Owned (held + Pi.single f 1)) (hheld : 0 ≤ held) :
    ∃ s', s.fileclose f = some s' ∧ s'.Owned held ∧ s.Keeps s' ∧ s'.opened = s.opened := by
  have hf : 1 ≤ s.refs f := by
    refine h.balanced.ref_pos_of_held ?_
    have := hheld f
    rw [Pi.add_apply, Pi.single_eq_same]
    simpa using this
  obtain ⟨s', hclose, hs', hkeeps, hopened, -⟩ := h.fileclose hf
  rw [add_sub_cancel_right] at hs'
  exact ⟨s', hclose, hs', hkeeps, hopened⟩

theorem Keeps.trans {s₁ s₂ : System} (h : s.Keeps s₁) (h' : s₁.Keeps s₂) : s.Keeps s₂ :=
  ⟨h'.kernel.trans h.kernel, h'.ofile.trans h.ofile⟩

/-- What is open is not opened again. -/
def Steady (s s' : System) : Prop := ∀ f, s.refs f ≠ 0 → s'.opened f = s.opened f

theorem Steady.of_eq (h : s'.opened = s.opened) : s.Steady s' := fun f _ => by rw [h]

theorem Steady.trans_eq {s₁ : System} (h : s.Steady s₁) (h' : s'.opened = s₁.opened) :
    s.Steady s' := fun f hf => by rw [h', h f hf]

/-! ### The operations -/

/-- A call of `p` is over: nothing is held, and nobody else is affected. -/
structure Completes (s s' : System) (p : Slot) : Prop where
  owned : s'.Owned 0
  kernel : s'.kernel = s.kernel
  others : ∀ q, q ≠ p → s'.ofile q = s.ofile q
  steady : s.Steady s'

theorem Completes.refl (h : s.Owned 0) (p : Slot) : s.Completes s p :=
  ⟨h, rfl, fun _ _ => rfl, .of_eq rfl⟩

theorem setOfile_others (s : System) (fd : Fd) (v : Option FileId) (hq : q ≠ p) :
    (s.setOfile p fd v).ofile q = s.ofile q :=
  Function.update_of_ne hq ..

theorem argfd_eq_some {n : Option ℤ} (h : s.argfd p n = some (fd, f)) : s.ofile p fd = some f := by
  obtain ⟨m, -, h⟩ := Option.bind_eq_some_iff.1 h
  split_ifs at h
  obtain ⟨g, hg, h⟩ := Option.map_eq_some_iff.1 h
  obtain ⟨rfl, rfl⟩ := Prod.mk.inj h
  exact hg

theorem Owned.ofile_ref_pos (h : s.Owned held) (hheld : 0 ≤ held) (hfd : s.ofile p fd = some f) :
    1 ≤ s.refs f :=
  h.balanced.ref_pos (i := (p, fd)) hfd (hheld f)

theorem sysDup_spec (h : s.Owned 0) (p : Slot) (n : Option ℤ) :
    ∃ s' r, s.sysDup p n = some (s', r) ∧ s.Completes s' p := by
  unfold sysDup
  cases harg : s.argfd p n with
  | none => exact ⟨s, _, rfl, .refl h p⟩
  | some x =>
    obtain ⟨fd₀, f⟩ := x
    have hpos := h.ofile_ref_pos le_rfl (argfd_eq_some harg)
    obtain hnone | ⟨fd, hsome, -, hstore⟩ := h.fdalloc p f
    · simp only [hnone]
      exact ⟨s, _, rfl, .refl h p⟩
    · -- for a moment the new descriptor is not counted
      obtain ⟨s', hdup, hs', hkeeps, hopened⟩ := hstore.filedup (f := f) hpos
      rw [sub_add_cancel] at hs'
      simp only [hsome, hdup, Option.map_some]
      exact ⟨s', _, rfl, hs', hkeeps.kernel,
        fun q hq => by rw [hkeeps.ofile, setOfile_others _ _ _ hq], .of_eq hopened⟩

theorem sysClose_spec (h : s.Owned 0) (p : Slot) (n : Option ℤ) :
    ∃ s' r, s.sysClose p n = some (s', r) ∧ s.Completes s' p := by
  unfold sysClose
  cases harg : s.argfd p n with
  | none => exact ⟨s, _, rfl, .refl h p⟩
  | some x =>
    obtain ⟨fd, f⟩ := x
    obtain ⟨s', hclose, hs', hkeeps, hopened⟩ := (h.clear (argfd_eq_some harg)).release le_rfl
    simp only [hclose, Option.map_some]
    exact ⟨s', _, rfl, hs', hkeeps.kernel,
      fun q hq => by rw [hkeeps.ofile, setOfile_others _ _ _ hq], .of_eq hopened⟩

theorem sysOpen_spec (h : s.Owned 0) (p : Slot) (ip : Option (ℕ × Bool)) (omode : BitVec 32) :
    ∃ s' r, s.sysOpen p ip omode = some (s', r) ∧ s.Completes s' p := by
  unfold sysOpen
  split
  · exact ⟨s, _, rfl, .refl h p⟩
  split
  · exact ⟨s, _, rfl, .refl h p⟩
  obtain hnone | ⟨s₁, f, halloc, hs₁, hkeeps₁, hfree, -, hopened₁⟩ := h.filealloc
  · simp only [hnone]
    exact ⟨s, _, rfl, .refl h p⟩
  have hsteady : s.Steady s₁ := fun g hg => hopened₁ g (by rintro rfl; exact hg hfree)
  simp only [halloc]
  obtain hnone | ⟨fd, hsome, hfd, hstore⟩ := hs₁.fdalloc p f
  · obtain ⟨s', hclose, hs', hkeeps, hopened⟩ := hs₁.release le_rfl
    simp only [hnone, hclose, Option.map_some]
    exact ⟨s', _, rfl, hs', (hkeeps₁.trans hkeeps).kernel,
      fun q _ => by rw [(hkeeps₁.trans hkeeps).ofile], hsteady.trans_eq hopened⟩
  · rw [add_sub_cancel_right] at hstore
    simp only [hsome]
    have hpos := hstore.ofile_ref_pos le_rfl (setOfile_self s₁ p fd (some f))
    refine ⟨_, _, rfl, hstore.setFile rfl hpos, hkeeps₁.kernel, fun q hq => ?_, hsteady⟩
    rw [← hkeeps₁.ofile]
    exact setOfile_others _ _ _ hq

theorem pipealloc_spec (h : s.Owned 0) (kalloc : Bool) :
    ∃ s' r, s.pipealloc kalloc = some (s', r) ∧ s.Keeps s' ∧ s.Steady s' ∧
      match r with
      | none => s'.Owned 0
      | some (f0, f1) => s'.Owned (Pi.single f0 1 + Pi.single f1 1) := by
  unfold pipealloc
  obtain hnone | ⟨s₁, f0, halloc, hs₁, hkeeps₁, hfree₀, hrefs₁, hopened₁⟩ := h.filealloc
  · simp only [hnone]
    exact ⟨s, none, rfl, ⟨rfl, rfl⟩, .of_eq rfl, h⟩
  have hsteady₁ : s.Steady s₁ := fun g hg => hopened₁ g (by rintro rfl; exact hg hfree₀)
  simp only [halloc]
  obtain hnone | ⟨s₂, f1, halloc₂, hs₂, hkeeps₂, hfree₁, hrefs₂, hopened₂⟩ := hs₁.filealloc
  · obtain ⟨s', hclose, hs', hkeeps, hopened⟩ := hs₁.release le_rfl
    simp only [hnone, hclose, Option.map_some]
    exact ⟨s', none, rfl, hkeeps₁.trans hkeeps, hsteady₁.trans_eq hopened, hs'⟩
  have hkeeps := hkeeps₁.trans hkeeps₂
  -- the first entry is in use when the second is looked for
  have hne : f1 ≠ f0 := by
    rintro rfl
    rw [hrefs₁, Function.update_self] at hfree₁
    cases hfree₁
  have hsteady : s.Steady s₂ := fun g hg => by
    have hg0 : g ≠ f0 := by
      rintro rfl
      exact hg hfree₀
    have hg1 : g ≠ f1 := by
      rintro rfl
      rw [hrefs₁, Function.update_of_ne hg0] at hfree₁
      exact hg hfree₁
    rw [hopened₂ g hg1, hopened₁ g hg0]
  rw [zero_add] at hs₂
  simp only [halloc₂]
  split_ifs
  · -- both files are open, so that their counts and types may be set
    have hpos : ∀ f, f = f0 ∨ f = f1 → 1 ≤ s₂.refs f := by
      rintro f (rfl | rfl)
      · rw [hrefs₂, Function.update_of_ne hne.symm, hrefs₁, Function.update_self]
      · rw [hrefs₂, Function.update_self]
    have hpipe : { s₂ with
        pipes := s₂.pipes + 1
        pipe := Function.update s₂.pipe s₂.pipes ⟨true, true⟩ }.Owned
          (Pi.single f0 1 + Pi.single f1 1) := ⟨hs₂.balanced, hs₂.lives, hs₂.free⟩
    refine ⟨_, some (f0, f1), rfl, ⟨hkeeps.kernel, hkeeps.ofile⟩, hsteady, ?_⟩
    refine Owned.setFile (Owned.setFile hpipe ?_ (hpos f0 (Or.inl rfl))) ?_ ?_
    · rfl
    · rfl
    · rw [refs_setFile, Function.update_of_ne hne]
      exact hpos f1 (Or.inr rfl)
  · -- no memory for the pipe: both files are closed again
    rw [add_comm] at hs₂
    obtain ⟨s₃, hclose₃, hs₃, hkeeps₃, hopened₃⟩ :=
      hs₂.release (zero_le_single f1)
    rw [← zero_add (Pi.single f1 1)] at hs₃
    obtain ⟨s₄, hclose₄, hs₄, hkeeps₄, hopened₄⟩ := hs₃.release le_rfl
    simp only [hclose₃, hclose₄, Option.bind_eq_bind, Option.bind_some]
    exact ⟨s₄, none, rfl, (hkeeps.trans hkeeps₃).trans hkeeps₄,
      hsteady.trans_eq (hopened₄.trans hopened₃), hs₄⟩

theorem sysPipe_spec (h : s.Owned 0) (p : Slot) (ptr kalloc : Bool) :
    ∃ s' r, s.sysPipe p ptr kalloc = some (s', r) ∧ s.Completes s' p := by
  unfold sysPipe
  by_cases hptr : ptr = true
  swap
  · rw [if_pos hptr]
    exact ⟨s, _, rfl, .refl h p⟩
  rw [if_neg (not_not.2 hptr)]
  obtain ⟨s₁, r, halloc, hkeeps₁, hsteady₁, hs₁⟩ := pipealloc_spec h kalloc
  simp only [halloc, Option.bind_eq_bind, Option.bind_some]
  obtain _ | ⟨rf, wf⟩ := r
  · exact ⟨s₁, _, rfl, hs₁, hkeeps₁.kernel, fun q _ => by rw [hkeeps₁.ofile], hsteady₁⟩
  have hs₁' : s₁.Owned (Pi.single wf 1 + Pi.single rf 1) := by
    rw [add_comm]
    exact hs₁
  -- when a descriptor is missing, both files are closed
  have hbad : ∀ {t : System}, t.Owned (Pi.single wf 1 + Pi.single rf 1) →
      ∃ t₁ t₂, t.fileclose rf = some t₁ ∧ t₁.fileclose wf = some t₂ ∧ t₂.Owned 0 ∧ t.Keeps t₂ ∧
        t₂.opened = t.opened := fun {t} ht => by
    obtain ⟨t₁, hclose₁, ht₁, hkeeps₁, hopened₁⟩ := ht.release (zero_le_single wf)
    rw [← zero_add (Pi.single wf 1)] at ht₁
    obtain ⟨t₂, hclose₂, ht₂, hkeeps₂, hopened₂⟩ := ht₁.release le_rfl
    exact ⟨t₁, t₂, hclose₁, hclose₂, ht₂, hkeeps₁.trans hkeeps₂, hopened₂.trans hopened₁⟩
  obtain hnone | ⟨fd0, hsome, -, hs₂⟩ := hs₁'.fdalloc p rf
  · obtain ⟨t₁, t₂, hclose₁, hclose₂, ht₂, hkeeps, hopened⟩ := hbad hs₁'
    simp only [hnone, hclose₁, hclose₂, Option.bind_some]
    exact ⟨t₂, _, rfl, ht₂, (hkeeps₁.trans hkeeps).kernel,
      fun q _ => by rw [(hkeeps₁.trans hkeeps).ofile], hsteady₁.trans_eq hopened⟩
  rw [add_sub_cancel_right] at hs₂
  simp only [hsome]
  obtain hnone | ⟨fd1, hsome₁, -, hs₃⟩ := hs₂.fdalloc p wf
  · obtain ⟨t₁, t₂, hclose₁, hclose₂, ht₂, hkeeps, hopened⟩ :=
      hbad (hs₂.clear (setOfile_self s₁ p fd0 (some rf)))
    simp only [hnone, hclose₁, hclose₂, Option.bind_some]
    refine ⟨t₂, _, rfl, ht₂, hkeeps.kernel.trans hkeeps₁.kernel, fun q hq => ?_,
      hsteady₁.trans_eq hopened⟩
    rw [hkeeps.ofile, setOfile_others _ _ _ hq, setOfile_others _ _ _ hq, hkeeps₁.ofile]
  · rw [sub_self] at hs₃
    simp only [hsome₁]
    refine ⟨_, _, rfl, hs₃, hkeeps₁.kernel, fun q hq => ?_, hsteady₁⟩
    rw [setOfile_others _ _ _ hq, setOfile_others _ _ _ hq, hkeeps₁.ofile]

theorem copyFd_spec {np : Slot} (h : s.Owned 0) (hfree : s.ofile np fd = none) :
    ∃ s', copyFd p np s fd = some s' ∧ s'.Owned 0 ∧ s'.kernel = s.kernel ∧
      s'.opened = s.opened ∧ ∀ q fd', q ≠ np ∨ fd' ≠ fd → s'.ofile q fd' = s.ofile q fd' := by
  unfold copyFd
  cases hfd : s.ofile p fd with
  | none => exact ⟨s, rfl, h, rfl, rfl, fun _ _ _ => rfl⟩
  | some f =>
    obtain ⟨s₁, hdup, hs₁, hkeeps, hopened⟩ := h.filedup (h.ofile_ref_pos le_rfl hfd)
    have hnone : s₁.ofile np fd = none := by rw [hkeeps.ofile, hfree]
    have hstore := hs₁.store (f := f) hnone
    rw [add_sub_cancel_right] at hstore
    simp only [hdup, Option.map_some]
    refine ⟨_, rfl, hstore, hkeeps.kernel, hopened, fun q fd' hne => ?_⟩
    rw [setOfile_of_ne _ hne, hkeeps.ofile]

/-- The new entry has no descriptors before. -/
theorem copyFiles_spec {np : Slot} (h : s.Owned 0) (hfree : ∀ fd, s.ofile np fd = none) :
    ∃ s', s.copyFiles p np = some s' ∧ s.Completes s' np := by
  suffices hl : ∀ (l : List Fd) (s : System), l.Nodup → s.Owned 0 →
      (∀ fd ∈ l, s.ofile np fd = none) → ∃ s', l.foldlM (copyFd p np) s = some s' ∧
        s.Completes s' np ∧ s'.opened = s.opened by
    obtain ⟨s', hs', hcompletes, -⟩ :=
      hl (List.finRange NOFILE) s (List.nodup_finRange _) h fun fd _ => hfree fd
    exact ⟨s', hs', hcompletes⟩
  intro l
  induction l with
  | nil => exact fun s _ h _ => ⟨s, rfl, .refl h np, rfl⟩
  | cons fd l ih =>
    intro s hnodup h hl
    obtain ⟨hfd, hnodup⟩ := List.nodup_cons.1 hnodup
    obtain ⟨s₁, hcopy, hs₁, hkernel, hopened, hofile⟩ :=
      copyFd_spec (p := p) h (hl fd List.mem_cons_self)
    obtain ⟨s', hs', hcompletes, hopened'⟩ := ih s₁ hnodup hs₁ fun fd' hfd' => by
      have hne : fd' ≠ fd := by
        rintro rfl
        exact hfd hfd'
      rw [hofile np fd' (Or.inr hne)]
      exact hl fd' (List.mem_cons_of_mem _ hfd')
    have hopened'' := hopened'.trans hopened
    refine ⟨s', by simp [List.foldlM, hcopy, hs'], ⟨hcompletes.owned,
      hcompletes.kernel.trans hkernel, fun q hq => ?_, .of_eq hopened''⟩, hopened''⟩
    rw [hcompletes.others q hq]
    funext fd'
    exact hofile q fd' (Or.inl hq)

theorem closeFd_spec (h : s.Owned 0) (p : Slot) (fd : Fd) :
    ∃ s', closeFd p s fd = some s' ∧ s'.Owned 0 ∧ s'.kernel = s.kernel ∧
      s'.opened = s.opened ∧ s'.ofile p fd = none ∧
      ∀ q fd', q ≠ p ∨ fd' ≠ fd → s'.ofile q fd' = s.ofile q fd' := by
  unfold closeFd
  cases hfd : s.ofile p fd with
  | none => exact ⟨s, rfl, h, rfl, rfl, hfd, fun _ _ _ => rfl⟩
  | some f =>
    obtain ⟨s₁, hclose, hs₁, hkeeps, hopened, -⟩ := h.fileclose (h.ofile_ref_pos le_rfl hfd)
    have hsome : s₁.ofile p fd = some f := by rw [hkeeps.ofile, hfd]
    have hclear := hs₁.clear hsome
    rw [sub_add_cancel] at hclear
    simp only [hclose, Option.map_some]
    refine ⟨_, rfl, hclear, hkeeps.kernel, hopened, setOfile_self _ _ _ _, fun q fd' hne => ?_⟩
    rw [setOfile_of_ne _ hne, hkeeps.ofile]

/-- Afterwards the entry has no descriptors. -/
theorem closeFiles_spec (h : s.Owned 0) (p : Slot) :
    ∃ s', s.closeFiles p = some s' ∧ s.Completes s' p ∧ ∀ fd, s'.ofile p fd = none := by
  suffices hl : ∀ (l : List Fd) (s : System), s.Owned 0 →
      ∃ s', l.foldlM (closeFd p) s = some s' ∧ s.Completes s' p ∧ s'.opened = s.opened ∧
        ∀ fd, fd ∈ l ∨ s.ofile p fd = none → s'.ofile p fd = none by
    obtain ⟨s', hs', hcompletes, -, hofile⟩ := hl (List.finRange NOFILE) s h
    exact ⟨s', hs', hcompletes, fun fd => hofile fd (Or.inl (List.mem_finRange fd))⟩
  intro l
  induction l with
  | nil => exact fun s h => ⟨s, rfl, .refl h p, rfl, fun fd hfd => hfd.resolve_left List.not_mem_nil⟩
  | cons fd l ih =>
    intro s h
    obtain ⟨s₁, hclose, hs₁, hkernel, hopened, hself, hofile⟩ := closeFd_spec h p fd
    obtain ⟨s', hs', hcompletes, hopened', hofile'⟩ := ih s₁ hs₁
    have hopened'' := hopened'.trans hopened
    refine ⟨s', by simp [List.foldlM, hclose, hs'], ⟨hcompletes.owned,
      hcompletes.kernel.trans hkernel, fun q hq => ?_, .of_eq hopened''⟩, hopened'',
      fun fd' hfd' => hofile' fd' ?_⟩
    · rw [hcompletes.others q hq]
      funext fd'
      exact hofile q fd' (Or.inl hq)
    · obtain rfl | hne := eq_or_ne fd' fd
      · exact Or.inr hself
      · rw [hofile p fd' (Or.inr hne)]
        exact hfd'.imp_left fun hmem => (List.mem_cons.1 hmem).resolve_left hne

end System

end Files

end OperatingSystems

import OperatingSystems.Bytes.Basic
import Mathlib.Logic.Function.Basic

/-!
# Objects in a log

A log is a memory in which objects of fixed sizes lie at addresses below the end of the log.  New
objects are appended at the end, and objects are overwritten in place; what lies between the
objects, and behind the end, does not matter.

## Main definitions

* `Log size` : the addresses of the objects, with the invariant that the objects do not overlap and
  lie below the end.
* `Log.append` : a new object at the end.
* `Log.restrict` : some of the objects.
* `Log.rename` : other names for the objects.
* `Log.Kept m m' o a` : the object `o` at the address `a` has the same contents in both memories.
* `Log.Frame L P m m'` : the objects outside of `P` have the same contents in both memories.
* `Log.frame_write`, `Log.frame_write_behind` : what a write to an object, and behind the end, does
  not change.
-/

namespace OperatingSystems

/-- Objects of the sizes `size` at addresses below the end of a log. -/
structure Log {O : Type*} (size : O → ℕ) where
  /-- The address of an object, if it is there. -/
  addr : O → Option ℕ
  /-- The end of the log. -/
  stop : ℕ
  within : ∀ o a, addr o = some a → a + size o ≤ stop
  disjoint : ∀ o o' a a', o ≠ o' → addr o = some a → addr o' = some a' →
    a + size o ≤ a' ∨ a' + size o' ≤ a

namespace Log

variable {O : Type*} [DecidableEq O] {size : O → ℕ}

/-- The log with a new object at its end; if the object was there before, its old place is given
up. -/
def append (L : Log size) (o : O) : Log size where
  addr := Function.update L.addr o (some L.stop)
  stop := L.stop + size o
  within p a h := by
    rcases eq_or_ne p o with rfl | hp
    · rw [Function.update_self] at h
      rw [Option.some.inj h]
    · rw [Function.update_of_ne hp] at h
      exact (L.within p a h).trans (Nat.le_add_right _ _)
  disjoint p q a b hpq ha hb := by
    rcases eq_or_ne p o with rfl | hp
    · rw [Function.update_self] at ha
      rw [Function.update_of_ne hpq.symm] at hb
      rw [← Option.some.inj ha]
      exact Or.inr (L.within q b hb)
    · rw [Function.update_of_ne hp] at ha
      rcases eq_or_ne q o with rfl | hq
      · rw [Function.update_self] at hb
        rw [← Option.some.inj hb]
        exact Or.inl (L.within p a ha)
      · rw [Function.update_of_ne hq] at hb
        exact L.disjoint p q a b hpq ha hb

/-- The part of a log with the objects in `P`. -/
def restrict (L : Log size) (P : O → Prop) [DecidablePred P] : Log size where
  addr o := if P o then L.addr o else none
  stop := L.stop
  within o a h := by
    split_ifs at h
    exact L.within o a h
  disjoint o o' a a' hne h h' := by
    split_ifs at h h'
    exact L.disjoint o o' a a' hne h h'

/-- A log with other names for the objects. -/
def rename (L : Log size) (f : O → Option O) (hsize : ∀ o p, f o = some p → size p = size o)
    (hinj : ∀ o o' p, f o = some p → f o' = some p → o = o') : Log size where
  addr o := (f o).bind L.addr
  stop := L.stop
  within o a h := by
    obtain ⟨p, hp, ha⟩ := Option.bind_eq_some_iff.1 h
    rw [← hsize o p hp]
    exact L.within p a ha
  disjoint o o' a a' hne h h' := by
    obtain ⟨p, hp, ha⟩ := Option.bind_eq_some_iff.1 h
    obtain ⟨p', hp', ha'⟩ := Option.bind_eq_some_iff.1 h'
    rw [← hsize o p hp, ← hsize o' p' hp']
    exact L.disjoint p p' a a' (fun he => hne (hinj o o' p hp (he ▸ hp'))) ha ha'

variable (L : Log size) {o p : O} {a : ℕ} {m m' m'' : Bytes}

@[simp] theorem append_addr_self : (L.append o).addr o = some L.stop := Function.update_self ..

theorem append_addr_of_ne (h : p ≠ o) : (L.append o).addr p = L.addr p :=
  Function.update_of_ne h ..

theorem append_addr_eq_some (hp : L.addr p = none) (h : L.addr o = some a) :
    (L.append p).addr o = some a := by
  rw [append_addr_of_ne]
  · exact h
  · rintro rfl
    rw [hp] at h
    cases h

omit [DecidableEq O] in
theorem restrict_addr {P : O → Prop} [DecidablePred P] (h : P o) :
    (L.restrict P).addr o = L.addr o := if_pos h

omit [DecidableEq O] in
theorem restrict_addr_of_not {P : O → Prop} [DecidablePred P] (h : ¬ P o) :
    (L.restrict P).addr o = none := if_neg h

@[simp] theorem append_stop : (L.append o).stop = L.stop + size o := rfl

variable (size) in
/-- The object at the address `a` has the same contents in both memories. -/
def Kept (m m' : Bytes) (o : O) (a : ℕ) : Prop :=
  Bytes.EqTo (size o) (Bytes.slice m' a) (Bytes.slice m a)

omit [DecidableEq O] in
theorem Kept.word_eq {i : ℕ} (h : Kept size m m' o a) (hi : 4 * i + 4 ≤ size o) :
    Bytes.word m' a i = Bytes.word m a i :=
  Bytes.word_congr h hi

/-- The objects outside of `P` have the same contents in both memories. -/
def Frame (P : O → Prop) (m m' : Bytes) : Prop :=
  ∀ o a, ¬ P o → L.addr o = some a → Kept size m m' o a

variable {L} {P Q : O → Prop}

omit [DecidableEq O] in
theorem Frame.refl : L.Frame P m m := fun _ _ _ _ => Bytes.EqTo.refl _ _

omit [DecidableEq O] in
theorem Frame.trans (h : L.Frame P m m') (h' : L.Frame P m' m'') : L.Frame P m m'' :=
  fun o a ho ha => Bytes.EqTo.trans (h' o a ho ha) (h o a ho ha)

omit [DecidableEq O] in
theorem Frame.mono (h : L.Frame P m m') (hPQ : ∀ o, P o → Q o) : L.Frame Q m m' :=
  fun o a ho ha => h o a (fun hP => ho (hPQ o hP)) ha

omit [DecidableEq O] in
/-- A frame of a log is one of every part of it. -/
theorem Frame.of_subset {L' : Log size} (h : L'.Frame P m m')
    (hsub : ∀ o a, ¬ P o → L.addr o = some a → L'.addr o = some a) : L.Frame P m m' :=
  fun o a ho ha => h o a ho (hsub o a ho ha)

omit [DecidableEq O] in
/-- A write to an object, or to a part of it. -/
theorem frame_write {b off n : ℕ} {c : Bytes} (hP : P p) (hp : L.addr p = some b) (hb : b ≤ off)
    (hn : off + n ≤ b + size p) : L.Frame P m (Bytes.patch m off n c) := by
  intro o a ho ha
  refine Bytes.slice_patch_of_disjoint ?_
  have hne : o ≠ p := fun h => ho (h ▸ hP)
  rcases L.disjoint o p a b hne ha hp with h | h
  · exact Or.inr (h.trans hb)
  · exact Or.inl (hn.trans h)

omit [DecidableEq O] in
/-- A write behind the end of the log. -/
theorem frame_write_behind {off n : ℕ} {c : Bytes} (hoff : L.stop ≤ off) :
    L.Frame P m (Bytes.patch m off n c) :=
  fun o a _ ha => Bytes.slice_patch_of_disjoint (Or.inr ((L.within o a ha).trans hoff))

end Log

end OperatingSystems

import Mathlib.Data.List.Induction
import Mathlib.Logic.Basic
import Mathlib.Order.WellFounded

/-!
# Machines: step functions and their runs

Every system of the repository that is more than one call (the allocator and its client, a file
server and its requests, a kernel and its processes, threads around a lock) is given as a
`Machine`: a partial step function on an explicit state type.  All nondeterminism (which thread
moves, what a request carries, whether an allocation succeeds) is in the label, so a run is a list
of labels and can be computed.

## Main definitions

* `bind_eq_ok` : a sequence of two computations that can stop.
* `Machine S L` : a step function `S → L → Option S`; `none` means that the label is not possible.
* `Machine.run` : performing a list of labels in order.
* `Machine.Allowed good s ls` : every step of the run of `ls` from `s` meets the condition `good`,
  which reads the state before the step and the label.
* `Machine.Always P s ls` : every state of the run meets `P`.
* `Machine.LastMeets changes good s ls` : the last step of the run that `changes` meets `good`.
* `Machine.track f` : the machine together with a ghost that follows its steps.
* `Machine.run_invariant`, `Machine.run_invariant_of_allowed`, `Machine.run_induction` : what one
  step preserves, a run preserves.
* `Machine.lastMeets_iff` : a property that depends on the last change only.
* `Machine.always_iff_allowed` : the exact condition under which a property holds all along a run.
* `Machine.run_simulation` : two machines in lock step.
* `Machine.run_reaches` : a machine that can always go on, with a smaller rank, gets to its goal.
-/

namespace OperatingSystems

/-! ### Code that can stop -/

theorem ok_bind {ε α β : Type} (x : α) (f : α → Except ε β) : (.ok x >>= f) = f x := rfl

/-- Where the code can stop, a sequence of two parts ends if both do. -/
theorem bind_eq_ok {ε α β : Type} {x : Except ε α} {f : α → Except ε β} {b : β} :
    (x >>= f) = .ok b ↔ ∃ a, x = .ok a ∧ f a = .ok b := by
  cases x with
  | error e => exact ⟨nofun, nofun⟩
  | ok a => exact ⟨fun h => ⟨a, rfl, h⟩, fun ⟨_, ha, h⟩ => Except.ok.inj ha ▸ h⟩

/-! ### Machines -/

/-- A partial step function: `next s l` is the state after `l`, and `none` if `l` is not possible
in `s`. -/
structure Machine (S : Type*) (L : Type*) where
  /-- The state after one step. -/
  next : S → L → Option S

namespace Machine

variable {S L : Type*} (M : Machine S L)

/-- Performing the labels of a list in order. -/
def run : S → List L → Option S
  | s, [] => some s
  | s, l :: ls => (M.next s l).bind fun s' => run s' ls

/-- Every step of the run of `ls` from `s` meets `good` in the state before it. -/
def Allowed (good : S → L → Prop) : S → List L → Prop
  | _, [] => True
  | s, l :: ls => good s l ∧ ∀ s', M.next s l = some s' → Allowed good s' ls

instance decidableAllowed (good : S → L → Prop) [∀ s l, Decidable (good s l)] :
    ∀ s ls, Decidable (M.Allowed good s ls)
  | _, [] => isTrue trivial
  | s, l :: ls =>
    match h : M.next s l with
    | none => decidable_of_iff (good s l) (by simp [Allowed, h])
    | some s' =>
      haveI := decidableAllowed good s' ls
      decidable_of_iff (good s l ∧ M.Allowed good s' ls) (by simp [Allowed, h])

/-- Every state of the run of `ls` from `s` meets `P`. -/
def Always (P : S → Prop) : S → List L → Prop
  | s, [] => P s
  | s, l :: ls => P s ∧ ∀ s', M.next s l = some s' → Always P s' ls

/-- The last step of the run of `ls` from `s` that `changes`, if there is one, meets `good`. -/
def LastMeets (changes good : S → L → Prop) (s : S) (ls : List L) : Prop :=
  ∀ ls₁ l ls₂ t t', ls = ls₁ ++ l :: ls₂ → M.run s ls₁ = some t → M.next t l = some t' →
    changes t l → M.Allowed (fun s l => ¬ changes s l) t' ls₂ → good t l

/-- The machine with a ghost `g`, which each step updates from the state before it. -/
def track {G : Type*} (f : S → L → G → G) : Machine (S × G) L where
  next x l := (M.next x.1 l).map fun s => (s, f x.1 l x.2)

variable {M}

@[simp] theorem run_nil (s : S) : M.run s [] = some s := rfl

theorem run_cons_eq_some {s s' : S} {l : L} {ls : List L} :
    M.run s (l :: ls) = some s' ↔ ∃ t, M.next s l = some t ∧ M.run t ls = some s' :=
  Option.bind_eq_some_iff

theorem run_append {s : S} {ls ls' : List L} :
    M.run s (ls ++ ls') = (M.run s ls).bind fun t => M.run t ls' := by
  induction ls generalizing s with
  | nil => rfl
  | cons l ls ih =>
    simp only [List.cons_append, run]
    cases M.next s l with
    | none => rfl
    | some t => exact ih

theorem run_concat_eq_some {s s' : S} {l : L} {ls : List L} :
    M.run s (ls ++ [l]) = some s' ↔ ∃ t, M.run s ls = some t ∧ M.next t l = some s' := by
  rw [run_append, Option.bind_eq_some_iff]
  simp only [run_cons_eq_some, run_nil, Option.some.injEq, exists_eq_right]

/-- A machine that can take every step of `M` can take its runs. -/
theorem run_mono {M' : Machine S L} (hnext : ∀ s l s', M.next s l = some s' → M'.next s l = some s')
    {s s' : S} {ls : List L} (h : M.run s ls = some s') : M'.run s ls = some s' := by
  induction ls generalizing s with
  | nil => exact h
  | cons l ls ih =>
    obtain ⟨t, ht, h'⟩ := run_cons_eq_some.1 h
    exact run_cons_eq_some.2 ⟨t, hnext s l t ht, ih h'⟩

/-- **Run induction**, with the labels performed so far: a property of the history and the state
that holds at the start and is kept by each step holds after every run. -/
theorem run_induction {P : List L → S → Prop} {s₀ : S} (h₀ : P [] s₀)
    (hstep : ∀ ls s l s', M.run s₀ ls = some s → P ls s → M.next s l = some s' →
      P (ls ++ [l]) s') {ls : List L} {s : S} (h : M.run s₀ ls = some s) : P ls s := by
  induction ls using List.reverseRecOn generalizing s with
  | nil => cases h; exact h₀
  | append_singleton ls l ih =>
    obtain ⟨t, ht, hl⟩ := run_concat_eq_some.1 h
    exact hstep ls t l s ht (ih ht) hl

/-- What every step preserves holds after every run. -/
theorem run_invariant {I : S → Prop} {s s' : S} {ls : List L} (h : M.run s ls = some s')
    (h₀ : I s) (hstep : ∀ s l s', I s → M.next s l = some s' → I s') : I s' :=
  run_induction (P := fun _ s => I s) h₀ (fun _ s l s' _ hs hl => hstep s l s' hs hl) h

theorem Allowed.cons {good : S → L → Prop} {s s' : S} {l : L} {ls : List L} (hl : good s l)
    (hnext : M.next s l = some s') (h : M.Allowed good s' ls) : M.Allowed good s (l :: ls) := by
  refine ⟨hl, fun t ht => ?_⟩
  rw [hnext] at ht
  exact Option.some.inj ht ▸ h

/-- A condition on the labels alone. -/
theorem allowed_of_forall {good : L → Prop} {s : S} {ls : List L} (h : ∀ l ∈ ls, good l) :
    M.Allowed (fun _ l => good l) s ls := by
  induction ls generalizing s with
  | nil => trivial
  | cons l ls ih =>
    obtain ⟨hl, hls⟩ := List.forall_mem_cons.1 h
    exact ⟨hl, fun _ _ => ih hls⟩

theorem Allowed.mono {good good' : S → L → Prop} (hg : ∀ s l, good s l → good' s l) {s : S}
    {ls : List L} (h : M.Allowed good s ls) : M.Allowed good' s ls := by
  induction ls generalizing s with
  | nil => trivial
  | cons l ls ih => exact ⟨hg s l h.1, fun s' hs' => ih (h.2 s' hs')⟩

/-- The steps of a run that meet one condition meet two others alike, if they are the same under the
first. -/
theorem Allowed.congr {good P Q : S → L → Prop} {s : S} {ls : List L} (hg : M.Allowed good s ls)
    (hPQ : ∀ s l, good s l → (P s l ↔ Q s l)) : M.Allowed P s ls ↔ M.Allowed Q s ls := by
  induction ls generalizing s with
  | nil => exact Iff.rfl
  | cons l ls ih =>
    exact and_congr (hPQ s l hg.1) (forall₂_congr fun s' hs' => ih (hg.2 s' hs'))

theorem allowed_append {good : S → L → Prop} {s : S} {ls ls' : List L} :
    M.Allowed good s (ls ++ ls') ↔
      M.Allowed good s ls ∧ ∀ t, M.run s ls = some t → M.Allowed good t ls' := by
  induction ls generalizing s with
  | nil => simp [Allowed]
  | cons l ls ih =>
    simp only [List.cons_append, Allowed, run_cons_eq_some, ih]
    constructor
    · rintro ⟨hl, h⟩
      refine ⟨⟨hl, fun s' hs' => (h s' hs').1⟩, ?_⟩
      rintro t ⟨s', hs', ht⟩
      exact (h s' hs').2 t ht
    · rintro ⟨⟨hl, h⟩, h'⟩
      exact ⟨hl, fun s' hs' => ⟨h s' hs', fun t ht => h' t ⟨s', hs', ht⟩⟩⟩

/-- What every step that meets `good` preserves holds after every run whose steps all do. -/
theorem run_invariant_of_allowed {good : S → L → Prop} {I : S → Prop} {s s' : S} {ls : List L}
    (h : M.run s ls = some s') (hg : M.Allowed good s ls) (h₀ : I s)
    (hstep : ∀ s l s', I s → good s l → M.next s l = some s' → I s') : I s' := by
  induction ls generalizing s with
  | nil => cases h; exact h₀
  | cons l ls ih =>
    obtain ⟨t, ht, h'⟩ := run_cons_eq_some.1 h
    exact ih h' (hg.2 t ht) (hstep s l t h₀ hg.1 ht)

/-- Steps that meet `good`, from states with an invariant that such steps keep, meet whatever
follows from both. -/
theorem Allowed.of_invariant {good good' : S → L → Prop} {I : S → Prop} {s : S} {ls : List L}
    (hg : M.Allowed good s ls) (h₀ : I s)
    (hstep : ∀ s l s', I s → good s l → M.next s l = some s' → I s')
    (hgood : ∀ s l, I s → good s l → good' s l) : M.Allowed good' s ls := by
  induction ls generalizing s with
  | nil => trivial
  | cons l ls ih =>
    exact ⟨hgood s l h₀ hg.1, fun t ht => ih (hg.2 t ht) (hstep s l t h₀ hg.1 ht)⟩

/-- Every step from a state with an invariant that all steps keep meets what follows from it. -/
theorem allowed_of_invariant {good : S → L → Prop} {I : S → Prop} {s : S} (h₀ : I s)
    (hstep : ∀ s l s', I s → M.next s l = some s' → I s') (hgood : ∀ s l, I s → good s l)
    (ls : List L) : M.Allowed good s ls := by
  induction ls generalizing s with
  | nil => trivial
  | cons l ls ih => exact ⟨hgood s l h₀, fun t ht => ih (hstep s l t h₀ ht)⟩

/-- The states of a run whose steps meet `good` meet whatever follows from an invariant that such
steps keep. -/
theorem Allowed.always {good : S → L → Prop} {I P : S → Prop} {s : S} {ls : List L}
    (hg : M.Allowed good s ls) (h₀ : I s)
    (hstep : ∀ s l s', I s → good s l → M.next s l = some s' → I s')
    (hP : ∀ s, I s → P s) : M.Always P s ls := by
  induction ls generalizing s with
  | nil => exact hP s h₀
  | cons l ls ih => exact ⟨hP s h₀, fun t ht => ih (hg.2 t ht) (hstep s l t h₀ hg.1 ht)⟩

theorem Always.head {P : S → Prop} {s : S} {ls : List L} (ha : M.Always P s ls) : P s := by
  cases ls with
  | nil => exact ha
  | cons l ls => exact ha.1

theorem Always.of_run {P : S → Prop} {s s' : S} {ls : List L} (ha : M.Always P s ls)
    (h : M.run s ls = some s') : P s' := by
  induction ls generalizing s with
  | nil => cases h; exact ha
  | cons l ls ih =>
    obtain ⟨t, ht, h'⟩ := run_cons_eq_some.1 h
    exact ih (ha.2 t ht) h'

theorem track_next_eq_some {G : Type*} {f : S → L → G → G} {x y : S × G} {l : L} :
    (M.track f).next x l = some y ↔ M.next x.1 l = some y.1 ∧ f x.1 l x.2 = y.2 := by
  simp only [track, Option.map_eq_some_iff, Prod.ext_iff]
  constructor
  · rintro ⟨s, hs, rfl, hg⟩
    exact ⟨hs, hg⟩
  · rintro ⟨hs, hg⟩
    exact ⟨y.1, hs, rfl, hg⟩

/-- The ghost follows every run. -/
theorem run_track {G : Type*} {f : S → L → G → G} {s s' : S} {ls : List L}
    (h : M.run s ls = some s') (g : G) : ∃ x, (M.track f).run (s, g) ls = some x ∧ x.1 = s' := by
  induction ls generalizing s g with
  | nil => cases h; exact ⟨_, rfl, rfl⟩
  | cons l ls ih =>
    obtain ⟨t, ht, h'⟩ := run_cons_eq_some.1 h
    obtain ⟨x, hx, hxs⟩ := ih h' (f s l g)
    exact ⟨x, run_cons_eq_some.2 ⟨(t, f s l g), track_next_eq_some.2 ⟨ht, rfl⟩, hx⟩, hxs⟩

/-- A ghost does not matter for the conditions on the steps. -/
theorem allowed_track {G : Type*} {f : S → L → G → G} {good : S → L → Prop} {s : S} {g : G}
    {ls : List L} :
    (M.track f).Allowed (fun x l => good x.1 l) (s, g) ls ↔ M.Allowed good s ls := by
  induction ls generalizing s g with
  | nil => exact Iff.rfl
  | cons l ls ih =>
    refine and_congr_right fun _ => ⟨fun h s' hs' => ?_, fun h x hx => ?_⟩
    · exact ih.1 (h (s', f s l g) (track_next_eq_some.2 ⟨hs', rfl⟩))
    · exact ih.2 (h x.1 (track_next_eq_some.1 hx).1)

/-- **An exact condition**: if, among the states that meet `P`, the steps that lead to such a state
again are those that meet `good`, then the states of a run all meet `P` if and only if its steps all
meet `good`. -/
theorem always_iff_allowed {P I : S → Prop} {good : S → L → Prop}
    (hI : ∀ s l s', I s → M.next s l = some s' → I s')
    (hstep : ∀ s l s', I s → P s → M.next s l = some s' → (P s' ↔ good s l)) {s s' : S}
    {ls : List L} (h : M.run s ls = some s') (hs : I s) (hP : P s) :
    M.Always P s ls ↔ M.Allowed good s ls := by
  induction ls generalizing s with
  | nil => exact iff_of_true hP trivial
  | cons l ls ih =>
    obtain ⟨t, ht, h'⟩ := run_cons_eq_some.1 h
    have hnext : ∀ {Q : S → Prop}, (∀ u, M.next s l = some u → Q u) ↔ Q t := by
      simp [ht]
    have hhead : M.Always P t ls → P t := by
      cases ls with
      | nil => exact id
      | cons => exact And.left
    simp only [Always, Allowed, hnext, hP, true_and]
    constructor
    · intro ha
      have hPt := hhead ha
      exact ⟨(hstep s l t hs hP ht).1 hPt, (ih h' (hI s l t hs ht) hPt).1 ha⟩
    · rintro ⟨hg, ha⟩
      have hPt := (hstep s l t hs hP ht).2 hg
      exact (ih h' (hI s l t hs ht) hPt).2 ha

theorem lastMeets_nil {changes good : S → L → Prop} {s : S} : M.LastMeets changes good s [] := by
  intro ls₁ l ls₂ t t' h
  simp at h

/-- The last step may be the last one that changes. -/
theorem lastMeets_concat {changes good : S → L → Prop} {s t t' : S} {l : L} {ls : List L}
    (hrun : M.run s ls = some t) (hnext : M.next t l = some t') :
    M.LastMeets changes good s (ls ++ [l]) ↔
      (changes t l → good t l) ∧ (¬ changes t l → M.LastMeets changes good s ls) := by
  constructor
  · intro h
    refine ⟨fun hc => h ls l [] t t' rfl hrun hnext hc trivial, fun hc => ?_⟩
    rintro ls₁ l' ls₂ u u' rfl hu hu' hc' hrest
    refine h ls₁ l' (ls₂ ++ [l]) u u' (by simp) hu hu' hc' (allowed_append.2 ⟨hrest, ?_⟩)
    intro v hv
    obtain rfl : v = t := by
      rw [run_append, hu, Option.bind_some, run, hu', Option.bind_some, hv] at hrun
      exact Option.some.inj hrun
    exact ⟨hc, fun _ _ => trivial⟩
  · rintro ⟨hgood, hrest⟩ ls₁ l' ls₂ u u' heq hu hu' hc hallowed
    obtain rfl | ⟨ls₂, x, rfl⟩ := ls₂.eq_nil_or_concat
    · obtain ⟨rfl, hl⟩ := List.append_inj' heq rfl
      obtain rfl := List.singleton_inj.1 hl
      obtain rfl := Option.some.inj (hu.symm.trans hrun)
      exact hgood hc
    · obtain ⟨rfl, hl⟩ : ls = ls₁ ++ l' :: ls₂ ∧ [l] = [x] :=
        List.append_inj' (by simpa using heq) rfl
      obtain rfl := List.singleton_inj.1 hl
      rw [List.concat_eq_append, allowed_append] at hallowed
      obtain ⟨hfirst, hlast⟩ := hallowed
      have ht : M.run u' ls₂ = some t := by
        rw [run_append, hu, Option.bind_some, run, hu', Option.bind_some] at hrun
        exact hrun
      exact hrest (hlast t ht).1 ls₁ l' ls₂ u u' rfl hu hu' hc hfirst

/-- **A property that depends on the last change only**: if every step to a state in `D` either
changes, and leads to a state with `P` exactly if it meets `good`, or is from a state in `D` and keeps
`P`, then the states in `D` that are reached have `P` exactly if the last change was `good`. -/
theorem lastMeets_iff {changes good : S → L → Prop} {I D P : S → Prop} {ok : L → Prop} {s s' : S}
    {ls : List L} (h : M.run s ls = some s') (hok : ∀ l ∈ ls, ok l) (h₀ : I s) (hP : D s → P s)
    (hstep : ∀ s l s', I s → ok l → M.next s l = some s' → I s' ∧ (D s' →
      changes s l ∧ (P s' ↔ good s l) ∨ ¬ changes s l ∧ D s ∧ (P s' ↔ P s))) :
    I s' ∧ (D s' → (M.LastMeets changes good s ls ↔ P s')) := by
  induction ls using List.reverseRecOn generalizing s' with
  | nil =>
    cases h
    exact ⟨h₀, fun hD => iff_of_true lastMeets_nil (hP hD)⟩
  | append_singleton ls l ih =>
    obtain ⟨t, ht, hl⟩ := run_concat_eq_some.1 h
    obtain ⟨hIt, hlast⟩ := ih ht fun x hx => hok x (List.mem_append_left _ hx)
    obtain ⟨hI, hcases⟩ := hstep t l s' hIt (hok l (by simp)) hl
    refine ⟨hI, fun hD => ?_⟩
    rw [lastMeets_concat ht hl]
    obtain ⟨hc, hiff⟩ | ⟨hc, hDt, hiff⟩ := hcases hD
    · simp only [hc, true_implies, not_true_eq_false, false_implies, and_true, hiff]
    · simp only [hc, false_implies, not_false_eq_true, true_implies, true_and, hlast hDt, hiff]

/-- **Forward simulation**: if related states stay related under every step of `M`, which `N`
answers with a step of its own, then every run of `M` is answered by a run of `N`. -/
theorem run_simulation {T K : Type*} {N : Machine T K} {R : S → T → Prop} {f : L → K}
    (hstep : ∀ s t l s', R s t → M.next s l = some s' → ∃ t', N.next t (f l) = some t' ∧ R s' t')
    {s s' : S} {t : T} {ls : List L} (hR : R s t) (h : M.run s ls = some s') :
    ∃ t', N.run t (ls.map f) = some t' ∧ R s' t' := by
  induction ls generalizing s t with
  | nil => cases h; exact ⟨t, rfl, hR⟩
  | cons l ls ih =>
    obtain ⟨u, hu, h'⟩ := run_cons_eq_some.1 h
    obtain ⟨v, hv, hR'⟩ := hstep s t l u hR hu
    obtain ⟨t', ht', hR''⟩ := ih hR' h'
    exact ⟨t', run_cons_eq_some.2 ⟨v, hv, ht'⟩, hR''⟩

/-- **Progress**: if from every state that meets the invariant and not the goal some step leads to
the goal or to a state of smaller rank, then the goal can be reached. -/
theorem run_reaches {β : Type*} [Preorder β] [WellFoundedLT β] {I Q : S → Prop} (rank : S → β)
    (hstep : ∀ s, I s → ¬ Q s → ∃ l s', M.next s l = some s' ∧ I s' ∧
      (Q s' ∨ rank s' < rank s)) {s : S} (hs : I s) :
    ∃ ls s', M.run s ls = some s' ∧ I s' ∧ Q s' := by
  induction hr : rank s using WellFoundedLT.induction generalizing s with
  | ind r ih =>
    by_cases hg : Q s
    · exact ⟨[], s, rfl, hs, hg⟩
    obtain ⟨l, t, hl, ht, hgoal | hlt⟩ := hstep s hs hg
    · exact ⟨[l], t, run_cons_eq_some.2 ⟨t, hl, rfl⟩, ht, hgoal⟩
    · obtain ⟨ls, s', h, hs', hg'⟩ := ih (rank t) (hr ▸ hlt) ht rfl
      exact ⟨l :: ls, s', run_cons_eq_some.2 ⟨t, hl, h⟩, hs', hg'⟩

end Machine

end OperatingSystems

import Mathlib.Logic.Basic

/-!
# Computations that give up

A computation in stages on some state: each stage stops for good, gives up, or has a value for the
next one.  A stage that gives up leaves a state that somebody has to clean up; the stages behind it
are skipped.

What becomes of a stage can often be told from numbers alone, without the state.  This is its fate.

* `Stage` : a stage, and `Stage.andThen`, two of them.
* `Fate` : what becomes of a stage, and `Fate.andThen`.
* `Stage.Follows` : a stage has a fate; it keeps one property of the state, and makes another one if
  it does not give up.
* `Stage.Follows.andThen` : **two stages follow their two fates**.
-/

namespace OperatingSystems

/-- A stage on states `σ`, with a value in `α`: `none` if it gives up. -/
abbrev Stage (ε σ α : Type*) : Type _ := Except ε (σ × Option α)

/-- What becomes of a stage. -/
inductive Fate (α : Type*) where
  | stops
  | givesUp
  | goesOn (a : α)
  deriving DecidableEq

variable {ε σ α β γ δ : Type*}

/-- One stage after the other. -/
def Stage.andThen (c : Stage ε σ α) (f : σ → α → Stage ε σ β) : Stage ε σ β :=
  match c with
  | .error e => .error e
  | .ok (s, none) => .ok (s, none)
  | .ok (s, some a) => f s a

/-- The fates of two stages, one after the other. -/
def Fate.andThen : Fate α → (α → Fate β) → Fate β
  | .stops, _ => .stops
  | .givesUp, _ => .givesUp
  | .goesOn a, g => g a

/-- The stage `c` has the fate `fate`; it leaves a state that is `kept`, and `post` if it goes on. -/
def Stage.Follows (c : Stage ε σ α) (fate : Fate β) (kept : σ → Prop) (post : β → α → σ → Prop) :
    Prop :=
  match fate with
  | .stops => ∃ e, c = .error e
  | .givesUp => ∃ s, c = .ok (s, none) ∧ kept s
  | .goesOn b => ∃ s a, c = .ok (s, some a) ∧ post b a s

namespace Stage.Follows

variable {c : Stage ε σ α} {fate : Fate γ} {kept : σ → Prop} {post : γ → α → σ → Prop}

/-- **One stage after the other.** -/
theorem andThen {f : σ → α → Stage ε σ β} {g : γ → Fate δ} {post' : δ → β → σ → Prop}
    (h : c.Follows fate kept post)
    (hf : ∀ b a s, post b a s → (f s a).Follows (g b) kept post') :
    (Stage.andThen c f).Follows (fate.andThen g) kept post' := by
  cases fate with
  | stops =>
    obtain ⟨e, rfl⟩ := h
    exact ⟨e, rfl⟩
  | givesUp =>
    obtain ⟨s, rfl, hs⟩ := h
    exact ⟨s, rfl, hs⟩
  | goesOn b =>
    obtain ⟨s, a, rfl, hs⟩ := h
    exact hf b a s hs

theorem stops (e : ε) : Stage.Follows (.error e : Stage ε σ α) .stops kept post := ⟨e, rfl⟩

theorem givesUp {s : σ} (h : kept s) :
    Stage.Follows (.ok (s, none) : Stage ε σ α) .givesUp kept post := ⟨s, rfl, h⟩

theorem goesOn {s : σ} {a : α} {b : γ} (h : post b a s) :
    Stage.Follows (.ok (s, some a) : Stage ε σ α) (.goesOn b) kept post := ⟨s, a, rfl, h⟩

theorem mono {post' : γ → α → σ → Prop} (h : c.Follows fate kept post)
    (hpost : ∀ b a s, post b a s → post' b a s) : c.Follows fate kept post' := by
  cases fate with
  | stops => exact h
  | givesUp => exact h
  | goesOn b =>
    obtain ⟨s, a, hc, hs⟩ := h
    exact ⟨s, a, hc, hpost b a s hs⟩

end Stage.Follows

end OperatingSystems

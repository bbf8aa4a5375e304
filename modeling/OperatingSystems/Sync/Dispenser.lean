import Mathlib.Logic.Function.Basic
import Mathlib.Data.Option.Basic
import Mathlib.Data.Nat.Basic

/-!
# Ticket dispensers

Clients draw consecutive numbers and are served in their order.  `Dispensed served drawn ticket`
says that the tickets that were drawn and not yet served are held by one client each, and that the
clients hold no others.

* `dispensed_empty` : no client.
* `Dispensed.draw` : the next ticket is drawn.
* `Dispensed.serve` : the client with the next ticket is served.
-/

namespace OperatingSystems

namespace Sync

variable {T : Type*} {served drawn : ℕ} {ticket : T → Option ℕ}

/-- The tickets `served + 1, …, drawn` are held by one client each. -/
structure Dispensed (served drawn : ℕ) (ticket : T → Option ℕ) : Prop where
  le : served ≤ drawn
  range : ∀ t n, ticket t = some n → served < n ∧ n ≤ drawn
  unique : ∀ t t' n, ticket t = some n → ticket t' = some n → t = t'
  cover : ∀ n, served < n → n ≤ drawn → ∃ t, ticket t = some n

theorem dispensed_empty (n : ℕ) : Dispensed n n fun _ : T => none where
  le := le_rfl
  range _ _ h := by cases h
  unique _ _ _ h := by cases h
  cover _ h h' := absurd h (not_lt.2 h')

/-- While every ticket is served nobody holds one. -/
theorem Dispensed.eq_none (h : Dispensed served drawn ticket) (heq : served = drawn) (t : T) :
    ticket t = none := by
  cases ht : ticket t with
  | none => rfl
  | some n =>
    have := h.range t n ht
    omega

/-- **The next ticket is drawn** by a client without one. -/
theorem Dispensed.draw [DecidableEq T] (h : Dispensed served drawn ticket) {t : T}
    (ht : ticket t = none) :
    Dispensed served (drawn + 1) (Function.update ticket t (some (drawn + 1))) := by
  have hle := h.le
  refine ⟨by omega, fun t' n h' => ?_, fun t₁ t₂ n h₁ h₂ => ?_, fun n hlo hhi => ?_⟩
  · rcases eq_or_ne t' t with rfl | hne
    · rw [Function.update_self, Option.some.injEq] at h'
      omega
    · rw [Function.update_of_ne hne] at h'
      have := h.range t' n h'
      omega
  · -- the new ticket is beyond all the others
    have hnew : ∀ t', t' ≠ t → Function.update ticket t (some (drawn + 1)) t' = some n →
        n ≤ drawn := fun t' hne h' => by
      rw [Function.update_of_ne hne] at h'
      exact (h.range t' n h').2
    have hself : ∀ t', t' = t → Function.update ticket t (some (drawn + 1)) t' = some n →
        n = drawn + 1 := fun t' heq h' => by
      rw [heq, Function.update_self, Option.some.injEq] at h'
      exact h'.symm
    by_cases e₁ : t₁ = t <;> by_cases e₂ : t₂ = t
    · exact e₁.trans e₂.symm
    · have := hself t₁ e₁ h₁
      have := hnew t₂ e₂ h₂
      omega
    · have := hself t₂ e₂ h₂
      have := hnew t₁ e₁ h₁
      omega
    · rw [Function.update_of_ne e₁] at h₁
      rw [Function.update_of_ne e₂] at h₂
      exact h.unique t₁ t₂ n h₁ h₂
  · rcases eq_or_ne n (drawn + 1) with rfl | hne
    · exact ⟨t, Function.update_self ..⟩
    · obtain ⟨t', ht'⟩ := h.cover n hlo (by omega)
      have hne' : t' ≠ t := fun e => by rw [e, ht] at ht'; cases ht'
      exact ⟨t', by rwa [Function.update_of_ne hne']⟩

/-- **The next client is served**: it is the one client that loses its ticket. -/
theorem Dispensed.serve {ticket' : T → Option ℕ} (h : Dispensed served drawn ticket)
    (hlt : served < drawn)
    (hticket : ∀ t n, ticket' t = some n ↔ ticket t = some n ∧ n ≠ served + 1) :
    Dispensed (served + 1) drawn ticket' where
  le := hlt
  range t n ht := by
    obtain ⟨ht, hne⟩ := (hticket t n).1 ht
    have := h.range t n ht
    omega
  unique t t' n ht ht' := h.unique t t' n ((hticket t n).1 ht).1 ((hticket t' n).1 ht').1
  cover n hlo hhi := by
    obtain ⟨t, ht⟩ := h.cover n (by omega) hhi
    exact ⟨t, (hticket t n).2 ⟨ht, by omega⟩⟩

end Sync

end OperatingSystems

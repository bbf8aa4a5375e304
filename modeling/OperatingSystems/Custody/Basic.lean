import Mathlib.Data.List.Perm.Basic
import Mathlib.Data.List.Nodup
import Mathlib.Data.List.Lattice
import Mathlib.Logic.Function.Basic

/-!
# Who holds what

Places `ι` hold lists of resources.  Resources move, but none is made or lost: each of them is held
as often as before.

* `holdings places held` : what the places hold together.
* `count_update` : **the balance of a place**: what all hold after one place has changed, with what
  it held, is what all held, with what it holds now.
* `eq_of_mem` : if nothing is held twice, everything is at one place.
-/

namespace OperatingSystems

namespace Custody

variable {ι α : Type*} {places : List ι} {held held' : ι → List α} {i j : ι} {x : α}

/-- What the places hold together. -/
def holdings (places : List ι) (held : ι → List α) : List α := places.flatMap held

theorem mem_holdings : x ∈ holdings places held ↔ ∃ i ∈ places, x ∈ held i := List.mem_flatMap

theorem holdings_congr (h : ∀ i ∈ places, held i = held' i) :
    holdings places held = holdings places held' := List.flatMap_congr h

/-- **The balance of a place.** -/
theorem count_update [DecidableEq ι] [BEq α] (hplaces : places.Nodup) (hi : i ∈ places)
    (held : ι → List α) (v : List α) (x : α) :
    (holdings places (Function.update held i v)).count x + (held i).count x =
      (holdings places held).count x + v.count x := by
  induction places with
  | nil => cases hi
  | cons j places ih =>
    obtain ⟨hj, hplaces⟩ := List.nodup_cons.1 hplaces
    simp only [holdings, List.flatMap_cons, List.count_append] at ih ⊢
    rcases List.mem_cons.1 hi with rfl | hi
    · have hrest : places.flatMap (Function.update held i v) = places.flatMap held :=
        List.flatMap_congr fun q hq => Function.update_of_ne (by rintro rfl; exact hj hq) _ _
      rw [hrest, Function.update_self]
      omega
    · have hne : j ≠ i := by rintro rfl; exact hj hi
      have := ih hplaces hi
      rw [Function.update_of_ne hne]
      omega

/-- If nothing is held twice, everything is at one place. -/
theorem eq_of_mem (hnodup : (holdings places held).Nodup) (hi : i ∈ places) (hj : j ∈ places)
    (hxi : x ∈ held i) (hxj : x ∈ held j) : i = j := by
  induction places with
  | nil => cases hi
  | cons k places ih =>
    rw [holdings, List.flatMap_cons, List.nodup_append'] at hnodup
    obtain ⟨-, hrest, hdisj⟩ := hnodup
    have hother : ∀ {q}, q ∈ places → x ∈ held q → x ∉ held k := fun hq hx hk =>
      hdisj hk (mem_holdings.2 ⟨_, hq, hx⟩)
    rcases List.mem_cons.1 hi with rfl | hi' <;> rcases List.mem_cons.1 hj with rfl | hj'
    · rfl
    · exact absurd hxi (hother hj' hxj)
    · exact absurd hxj (hother hi' hxi)
    · exact ih hrest hi' hj'

end Custody

end OperatingSystems

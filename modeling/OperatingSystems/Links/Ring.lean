import OperatingSystems.Links.Circular
import Mathlib.Logic.Function.Basic

/-!
# Circular lists that are linked both ways

A circular list of `Links.Circular` with a second pointer `prev`, which leads through the same nodes the
other way round.

* `Ring next prev a l` : from `a` on, `next` leads through `l` to `a` again, and `prev` leads back.
* `Ring.swap` : the same list the other way round.
* `Ring.unlink` : **a node is taken out**.
* `Ring.push` : **a node is linked in at the front**.
* `Ring.walk_next`, `Ring.walk_prev` : a search from either end finds the first or the last node that
  passes a test, or comes back to the head.
-/

namespace OperatingSystems

namespace Links

variable {α : Type*} {next prev : α → α} {a x p q : α} {l l₁ l₂ : List α}

/-- From `a` on, the pointers `next` lead through `l` to `a` again, and the pointers `prev` lead back. -/
structure Ring (next prev : α → α) (a : α) (l : List α) : Prop where
  forward : Round next a l
  backward : Round prev a l.reverse
  nodup : (a :: l).Nodup

/-- The first node of a segment, or the one behind an empty segment. -/
theorem Seg.head (h : Seg next p l q) : (l ++ [q]).head? = some p := by
  cases l with
  | nil => exact congrArg some (Eq.symm h)
  | cons y l => exact congrArg some h.1.symm

theorem Round.next_node (h : Round next a (l₁ ++ x :: l₂)) : (l₂ ++ [a]).head? = some (next x) := by
  obtain ⟨r, -, rfl, hrest⟩ := seg_append.1 h
  exact hrest.head

namespace Ring

/-- The same list the other way round. -/
theorem swap (h : Ring next prev a l) : Ring prev next a l.reverse where
  forward := h.backward
  backward := l.reverse_reverse.symm ▸ h.forward
  nodup := by
    have hnodup := h.nodup
    rw [List.nodup_cons] at hnodup ⊢
    exact ⟨by simpa using hnodup.1, List.nodup_reverse.2 hnodup.2⟩

/-- The node before a node. -/
theorem prev_node (h : Ring next prev a (l₁ ++ x :: l₂)) : (a :: l₁).getLast? = some (prev x) := by
  have hback := h.backward
  rw [List.reverse_append, List.reverse_cons, List.append_assoc, List.singleton_append] at hback
  rw [List.getLast?_eq_head?_reverse, List.reverse_cons]
  exact hback.next_node

/-- The node after a node is another one. -/
theorem next_ne (h : Ring next prev a (l₁ ++ x :: l₂)) : next x ≠ x := by
  intro heq
  have hhead := heq ▸ h.forward.next_node
  have hmem : x ∈ l₂ ++ [a] := List.mem_of_mem_head? hhead
  have hnodup := h.nodup
  simp only [List.nodup_cons, List.mem_append, List.mem_cons, List.nodup_append, not_or] at hnodup
  obtain hl | hl := List.mem_append.1 hmem
  · exact hnodup.2.2.1.1 hl
  · exact hnodup.1.2.1 (List.mem_singleton.1 hl).symm

variable [DecidableEq α]

/-- The pointers of one direction, when a node is taken out. -/
theorem unlink_forward (h : Ring next prev a (l₁ ++ x :: l₂)) :
    Round (Function.update next (prev x) (next x)) a (l₁ ++ l₂) := by
  have hlast := h.prev_node
  have hnodup : (a :: l₁ ++ x :: l₂).Nodup := h.nodup
  rw [List.nodup_append'] at hnodup
  have hmem : prev x ∈ a :: l₁ := List.mem_of_getLast? hlast
  -- from the node before `x`, the pointers lead to `x` and on
  have hseg : Seg next (next (prev x)) (x :: l₂) a := h.forward.seg_of_getLast? hlast
  have hx : Seg next (next (prev x)) [x] (next x) := ⟨hseg.1, rfl⟩
  have hempty : Seg (Function.update next (prev x) (next x))
      (Function.update next (prev x) (next x) (prev x)) [] (next x) := Function.update_self ..
  exact Round.splice h.forward hlast hnodup.1 hx hempty (fun y _ hne => Function.update_of_ne hne ..)
    fun y hy => Function.update_of_ne (fun heq =>
      hnodup.2.2 (heq ▸ hmem) (List.mem_cons_of_mem x hy)) ..

/-- **A node is taken out.** -/
theorem unlink (h : Ring next prev a (l₁ ++ x :: l₂)) :
    Ring (Function.update next (prev x) (next x)) (Function.update prev (next x) (prev x)) a
      (l₁ ++ l₂) where
  forward := h.unlink_forward
  backward := by
    have hswap := h.swap
    rw [List.reverse_append, List.reverse_cons, List.append_assoc, List.singleton_append] at hswap
    rw [List.reverse_append]
    exact hswap.unlink_forward
  nodup := h.nodup.sublist
    (List.Sublist.cons_cons a ((List.Sublist.refl l₁).append (List.sublist_cons_self x l₂)))

/-- **A node is linked in at the front.** -/
theorem push (h : Ring next prev a l) (hx : x ∉ a :: l) :
    Ring (Function.update (Function.update next x (next a)) a x)
      (Function.update (Function.update prev x a) (next a) x) a (x :: l) := by
  have hxa : x ≠ a := fun heq => hx (heq ▸ List.mem_cons_self)
  have hnext : next a ∈ a :: l := h.forward.next_mem List.mem_cons_self
  have hxn : x ≠ next a := fun heq => hx (heq ▸ hnext)
  have hl : ∀ y ∈ l, y ≠ x ∧ y ≠ a := fun y hy =>
    ⟨fun heq => hx (heq ▸ List.mem_cons_of_mem a hy),
      fun heq => (List.nodup_cons.1 h.nodup).1 (heq ▸ hy)⟩
  refine ⟨?_, ?_, List.nodup_cons.2 ⟨?_, ?_⟩⟩
  · have hforward : Round next a ([] ++ ([] ++ l)) := h.forward
    have hempty : Seg next (next a) [] (next a) := rfl
    have hseg : Seg (Function.update (Function.update next x (next a)) a x)
        (Function.update (Function.update next x (next a)) a x a) [x] (next a) := by
      refine ⟨Function.update_self .., ?_⟩
      rw [Function.update_of_ne hxa, Function.update_self]
      rfl
    refine Round.splice hforward rfl (List.nodup_singleton a) hempty hseg
      (fun y hy hne => absurd (List.mem_singleton.1 hy) hne) fun y hy => ?_
    rw [Function.update_of_ne (hl y hy).2, Function.update_of_ne (hl y hy).1]
  · -- the other way round, the new node comes last
    have hlast : (a :: l.reverse).getLast? = some (next a) := by
      have hhead := Seg.head h.forward
      rw [List.getLast?_eq_head?_reverse, List.reverse_cons, List.reverse_reverse]
      exact hhead
    have hbackward : Round prev a (l.reverse ++ ([] ++ [])) := by simpa using h.backward
    have hempty : Seg prev (prev (next a)) [] a := hbackward.seg_of_getLast? hlast
    have hseg : Seg (Function.update (Function.update prev x a) (next a) x)
        (Function.update (Function.update prev x a) (next a) x (next a)) [x] a := by
      refine ⟨Function.update_self .., ?_⟩
      rw [Function.update_of_ne hxn, Function.update_self]
      rfl
    rw [List.reverse_cons, ← List.append_nil (l.reverse ++ [x]), List.append_assoc]
    refine Round.splice hbackward hlast h.swap.nodup hempty hseg (fun y hy hne => ?_)
      fun y hy => absurd hy List.not_mem_nil
    have hyx : y ≠ x := fun heq => hx (heq ▸ by simpa using hy)
    rw [Function.update_of_ne hne, Function.update_of_ne hyx]
  · rintro hmem
    obtain rfl | hmem := List.mem_cons.1 hmem
    · exact hxa rfl
    · exact (List.nodup_cons.1 h.nodup).1 hmem
  · exact List.nodup_cons.2 ⟨fun hmem => hx (List.mem_cons_of_mem a hmem),
      (List.nodup_cons.1 h.nodup).2⟩

/-- **A search from the front** finds the first node that passes the test, or comes back to the head. -/
theorem walk_next (h : Ring next prev a l) (test : α → Bool) {n : ℕ} (hn : l.length < n) :
    walk next (fun x => x = a || test x) n (next a) = some ((l.find? test).getD a) := by
  obtain ⟨k, rfl⟩ := Nat.exists_eq_add_of_lt hn
  rw [Nat.add_assoc, Seg.walk_eq h.forward, walk, if_pos (by simp)]
  have hfind : l.find? (fun x => x = a || test x) = l.find? test := by
    -- the head is none of the nodes
    have hhead : ∀ x ∈ l, (x = a || test x) = test x := fun x hx => by
      have hne : x ≠ a := fun heq => (List.nodup_cons.1 h.nodup).1 (heq ▸ hx)
      simp [hne]
    rw [← List.head?_filter, ← List.head?_filter, List.filter_congr hhead]
  rw [hfind]
  cases l.find? test <;> rfl

/-- **A search from the end.** -/
theorem walk_prev (h : Ring next prev a l) (test : α → Bool) {n : ℕ} (hn : l.length < n) :
    walk prev (fun x => x = a || test x) n (prev a) = some ((l.reverse.find? test).getD a) :=
  h.swap.walk_next test (by rwa [List.length_reverse])

end Ring

end Links

end OperatingSystems

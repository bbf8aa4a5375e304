import Mathlib.Data.List.Nodup

/-!
# Doubly linked lists

A store of nodes is given by what the fields `next` and `prev` of each node hold; no pointer is the
null pointer.  Nothing is said about nodes that are not in a list: their fields may hold anything.

* `Path next p l` : from `p` on, the pointers `next` lead through the nodes `l` and end.
* `Linked next prev q l p` : the list `l` that begins at `p` is linked both ways; `q` is the
  predecessor of its first node.
* `Linked.congr` : only the fields of its nodes matter.
* `Path.nodup` : a path that ends has no node twice.
* `Linked.push`, `Linked.unlink`, `Linked.concat` : **the edits**: a node is linked in at the front,
  a node is taken out, and a node is linked in at the end.
-/

namespace OperatingSystems

namespace Links

variable {α : Type*}

/-- From `p` on, the pointers `next` lead through `l` and end. -/
def Path (next : α → Option α) : Option α → List α → Prop
  | p, [] => p = none
  | p, x :: xs => p = some x ∧ Path next (next x) xs

/-- The list `l` that begins at `p` is linked both ways; `q` is the predecessor of its first node. -/
def Linked (next prev : α → Option α) : Option α → List α → Option α → Prop
  | _, [], p => p = none
  | q, x :: xs, p => p = some x ∧ prev x = q ∧ Linked next prev (some x) xs (next x)

variable {next prev next' prev' : α → Option α} {p q : Option α} {l l' : List α} {x y : α}

/-! ### Paths -/

theorem Path.head (h : Path next p l) : p = l.head? := by
  cases l with
  | nil => exact h
  | cons x xs => exact h.1

/-- The nodes of a path are determined by its beginning. -/
theorem Path.unique (h : Path next p l) (h' : Path next p l') : l = l' := by
  induction l generalizing p l' with
  | nil =>
    cases l' with
    | nil => rfl
    | cons y ys => exact absurd (h.symm.trans h'.1) (by simp)
  | cons x xs ih =>
    cases l' with
    | nil => exact absurd (h'.symm.trans h.1) (by simp)
    | cons y ys =>
      obtain rfl : x = y := Option.some.inj (h.1.symm.trans h'.1)
      rw [ih h.2 h'.2]

theorem Path.of_append {l₁ l₂ : List α} (h : Path next p (l₁ ++ x :: l₂)) :
    Path next (next x) l₂ := by
  induction l₁ generalizing p with
  | nil => exact h.2
  | cons y ys ih => exact ih h.2

/-- **A path that ends has no node twice.** -/
theorem Path.nodup (h : Path next p l) : l.Nodup := by
  induction l generalizing p with
  | nil => exact List.nodup_nil
  | cons x xs ih =>
    refine List.nodup_cons.2 ⟨fun hx => ?_, ih h.2⟩
    -- the rest of the path after the second `x` is the rest after the first one
    obtain ⟨l₁, l₂, rfl⟩ := List.append_of_mem hx
    have hlen := congrArg List.length (h.2.unique (Path.of_append h.2))
    simp only [List.length_append, List.length_cons] at hlen
    omega

/-! ### Lists that are linked both ways -/

theorem Linked.path (h : Linked next prev q l p) : Path next p l := by
  induction l generalizing q p with
  | nil => exact h
  | cons x xs ih => exact ⟨h.1, ih h.2.2⟩

/-- **Only the fields of its nodes matter** for a list. -/
theorem Linked.congr (h : Linked next prev q l p) (hn : ∀ y ∈ l, next' y = next y)
    (hp : ∀ y ∈ l, prev' y = prev y) : Linked next' prev' q l p := by
  induction l generalizing q p with
  | nil => exact h
  | cons x xs ih =>
    refine ⟨h.1, (hp x List.mem_cons_self).trans h.2.1, ?_⟩
    rw [hn x List.mem_cons_self]
    exact ih h.2.2 (fun y hy => hn y (List.mem_cons_of_mem _ hy))
      fun y hy => hp y (List.mem_cons_of_mem _ hy)

/-- The pointer back from a node that another one points to. -/
theorem Linked.prev_of_next (h : Linked next prev q l p) (hx : x ∈ l) (hy : next x = some y) :
    y ∈ l ∧ prev y = some x := by
  induction l generalizing q p with
  | nil => exact absurd hx List.not_mem_nil
  | cons z zs ih =>
    obtain rfl | hx := List.mem_cons.1 hx
    · have hrest := h.2.2
      rw [hy] at hrest
      cases zs with
      | nil => cases hrest
      | cons w ws =>
        obtain rfl : y = w := Option.some.inj hrest.1
        exact ⟨by simp, hrest.2.1⟩
    · obtain ⟨hmem, hprev⟩ := ih h.2.2 hx
      exact ⟨List.mem_cons_of_mem _ hmem, hprev⟩

/-- The node before a node, unless it is the first one. -/
theorem Linked.pred (h : Linked next prev q l p) (hy : y ∈ l) :
    p = some y ∧ prev y = q ∨ ∃ z ∈ l, next z = some y ∧ prev y = some z := by
  induction l generalizing q p with
  | nil => exact absurd hy List.not_mem_nil
  | cons z zs ih =>
    obtain ⟨hp, hprev, hrest⟩ := h
    obtain rfl | hy := List.mem_cons.1 hy
    · exact Or.inl ⟨hp, hprev⟩
    · obtain ⟨hfirst, hback⟩ | ⟨w, hw, hnext, hback⟩ := ih hrest hy
      · exact Or.inr ⟨z, List.mem_cons_self, hfirst, hback⟩
      · exact Or.inr ⟨w, List.mem_cons_of_mem _ hw, hnext, hback⟩

/-- The pointers between two nodes go both ways. -/
theorem Linked.next_eq_some_iff (h : Linked next prev q l p) (hq : ∀ z ∈ q, z ∉ l) (hx : x ∈ l)
    (hy : y ∈ l) : next x = some y ↔ prev y = some x := by
  refine ⟨fun hnext => (h.prev_of_next hx hnext).2, fun hprev => ?_⟩
  obtain ⟨-, hback⟩ | ⟨z, -, hnext, hback⟩ := h.pred hy
  · exact absurd hx (hq x (hback.symm.trans hprev))
  · obtain rfl := Option.some.inj (hback.symm.trans hprev)
    exact hnext

/-! ### Edits -/

variable [DecidableEq α]

/-- **A node is linked in at the front.** -/
theorem Linked.push (h : Linked next prev none l p) (hnext : next' x = p) (hprev : prev' x = none)
    (hn : ∀ y ∈ l, next' y = next y)
    (hp : ∀ y ∈ l, prev' y = if p = some y then some x else prev y) :
    Linked next' prev' none (x :: l) (some x) := by
  refine ⟨rfl, hprev, ?_⟩
  rw [hnext]
  cases l with
  | nil => exact h
  | cons z zs =>
    have hnd := List.nodup_cons.1 h.path.nodup
    obtain ⟨rfl, -, hrest⟩ := h
    refine ⟨rfl, (hp z List.mem_cons_self).trans (if_pos rfl), ?_⟩
    rw [hn z List.mem_cons_self]
    refine hrest.congr (fun y hy => hn y (List.mem_cons_of_mem _ hy)) fun y hy => ?_
    rw [hp y (List.mem_cons_of_mem _ hy), if_neg]
    rintro ⟨⟩
    exact hnd.1 hy

/-- **A node is taken out**: the node before it and the node after it are made to point to each
other. -/
theorem Linked.unlink {l₁ l₂ : List α} (h : Linked next prev q (l₁ ++ x :: l₂) p)
    (hq : ∀ z ∈ q, z ∉ l₁ ++ x :: l₂)
    (hn : ∀ y ∈ l₁ ++ l₂, next' y = if prev x = some y then next x else next y)
    (hp : ∀ y ∈ l₁ ++ l₂, prev' y = if next x = some y then prev x else prev y) :
    Linked next' prev' q (l₁ ++ l₂) (if p = some x then next x else p) := by
  induction l₁ generalizing q p with
  | nil =>
    have hnd := List.nodup_cons.1 h.path.nodup
    obtain ⟨rfl, hprev, hrest⟩ := h
    rw [if_pos rfl]
    cases l₂ with
    | nil => exact hrest
    | cons z zs =>
      have hnd' := List.nodup_cons.1 hnd.2
      obtain ⟨hnext, -, hrest⟩ := hrest
      have hother : ∀ y ∈ z :: zs, next' y = next y := fun y hy => by
        rw [hn y hy, if_neg]
        rw [hprev]
        intro hqy
        exact hq y hqy (List.mem_cons_of_mem _ hy)
      refine ⟨hnext, ?_, ?_⟩
      · rw [hp z List.mem_cons_self, if_pos hnext, hprev]
      · rw [hother z List.mem_cons_self]
        refine hrest.congr (fun y hy => hother y (List.mem_cons_of_mem _ hy)) fun y hy => ?_
        rw [hp y (List.mem_cons_of_mem _ hy), if_neg]
        rw [hnext]
        rintro ⟨⟩
        exact hnd'.1 hy
  | cons z zs ih =>
    have hnd := List.nodup_cons.1 h.path.nodup
    have hlink := h.next_eq_some_iff hq (x := z) (y := x) (by simp) (by simp)
    obtain ⟨rfl, hprev, hrest⟩ := h
    have hne : z ≠ x := by
      rintro rfl
      exact hnd.1 (by simp)
    rw [if_neg fun hzx => hne (Option.some.inj hzx)]
    refine ⟨rfl, ?_, ?_⟩
    · rw [hp z List.mem_cons_self, if_neg, hprev]
      intro hnext
      obtain ⟨hmem, -⟩ := hrest.prev_of_next (x := x) (by simp) hnext
      exact hnd.1 hmem
    · have hhead : next' z = if next z = some x then next x else next z := by
        rw [hn z List.mem_cons_self]
        exact if_congr hlink.symm rfl rfl
      rw [hhead]
      refine ih hrest (fun v hv => ?_) (fun y hy => hn y (List.mem_cons_of_mem _ hy))
        fun y hy => hp y (List.mem_cons_of_mem _ hy)
      obtain rfl := Option.some.inj hv
      exact hnd.1

omit [DecidableEq α] in
/-- **A node is linked in at the end.** -/
theorem Linked.concat (h : Linked next prev q (l ++ [x]) p) (hn : ∀ z ∈ l, next' z = next z)
    (hp : ∀ z ∈ l ++ [x], prev' z = prev z) (hx : next' x = some y) (hy : next' y = none)
    (hprev : prev' y = some x) : Linked next' prev' q (l ++ [x] ++ [y]) p := by
  induction l generalizing q p with
  | nil =>
    refine ⟨h.1, (hp x List.mem_cons_self).trans h.2.1, ?_⟩
    rw [hx]
    exact ⟨rfl, hprev, hy⟩
  | cons z zs ih =>
    refine ⟨h.1, (hp z List.mem_cons_self).trans h.2.1, ?_⟩
    rw [hn z List.mem_cons_self]
    exact ih h.2.2 (fun w hw => hn w (List.mem_cons_of_mem _ hw))
      fun w hw => hp w (List.mem_cons_of_mem _ hw)

end Links

end OperatingSystems

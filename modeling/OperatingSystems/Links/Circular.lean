import Mathlib.Data.List.Nodup

/-!
# Circular lists

A store of nodes, each with a pointer `next`, as in `Links.Doubly`; but the last node of a list points
to the first one again, and a search may begin anywhere.

* `Seg next p l q` : from `p` on, the pointers lead through the nodes `l` to `q`.
* `Round next b l` : from `b` on, the pointers lead through the nodes `l` to `b` again.
* `Round.rotate` : a circular list begins at any of its nodes; `Round.injOn` : each has one predecessor.
* `walk next test n p` : the first node from `p` on, among `n` nodes, that passes a test.
* `Round.splice` : **the edit**: some nodes are replaced by others.
* `Round.walk_of_exists` : **a search finds a node that passes the test**, if there is one, wherever it
  begins.
-/

namespace OperatingSystems

namespace Links

variable {α : Type*}

/-- From `p` on, the pointers `next` lead through `l` to `q`. -/
def Seg (next : α → α) : α → List α → α → Prop
  | p, [], q => p = q
  | p, x :: xs, q => p = x ∧ Seg next (next x) xs q

/-- From `b` on, the pointers `next` lead through `l` to `b` again. -/
def Round (next : α → α) (b : α) (l : List α) : Prop := Seg next (next b) l b

/-- The first of the `n` nodes from `p` on that passes the test. -/
def walk (next : α → α) (test : α → Bool) : ℕ → α → Option α
  | 0, _ => none
  | n + 1, p => if test p then some p else walk next test n (next p)

variable {next next' : α → α} {test : α → Bool} {p q b x : α} {l l₁ l₂ : List α} {n : ℕ}

theorem seg_append :
    Seg next p (l₁ ++ l₂) q ↔ ∃ r, Seg next p l₁ r ∧ Seg next r l₂ q := by
  induction l₁ generalizing p with
  | nil => exact ⟨fun h => ⟨p, rfl, h⟩, fun ⟨_, hr, h⟩ => hr ▸ h⟩
  | cons x l₁ ih => simp only [List.cons_append, Seg, ih, and_assoc, exists_and_left]

/-- Only the pointers of its nodes matter. -/
theorem Seg.congr (h : Seg next p l q) (hnext : ∀ x ∈ l, next' x = next x) :
    Seg next' p l q := by
  induction l generalizing p with
  | nil => exact h
  | cons x l ih =>
    obtain ⟨hx, hl⟩ := List.forall_mem_cons.1 hnext
    exact ⟨h.1, hx ▸ ih h.2 hl⟩

theorem Round.congr (h : Round next b l) (hnext : ∀ x ∈ b :: l, next' x = next x) :
    Round next' b l := by
  obtain ⟨hb, hl⟩ := List.forall_mem_cons.1 hnext
  unfold Round
  rw [hb]
  exact Seg.congr h hl

/-- **A circular list begins at any of its nodes.** -/
theorem Round.rotate (h : Round next b (l₁ ++ x :: l₂)) : Round next x (l₂ ++ b :: l₁) := by
  obtain ⟨r, h₁, rfl, h₂⟩ := seg_append.1 h
  exact seg_append.2 ⟨b, h₂, rfl, h₁⟩

/-- It begins at each of its nodes, with the same nodes. -/
theorem Round.exists_rotate (h : Round next b l) (hp : p ∈ b :: l) :
    ∃ l', Round next p l' ∧ (p :: l').Perm (b :: l) := by
  rcases List.mem_cons.1 hp with rfl | hp
  · exact ⟨l, h, .refl _⟩
  · obtain ⟨l₁, l₂, rfl⟩ := List.append_of_mem hp
    have hcomm : (p :: l₂ ++ b :: l₁).Perm (b :: l₁ ++ p :: l₂) := List.perm_append_comm
    exact ⟨l₂ ++ b :: l₁, h.rotate, hcomm⟩

/-- The pointers of a segment and of the node before it are the nodes that follow. -/
theorem Seg.map_next (h : Seg next (next b) l q) : (b :: l).map next = l ++ [q] := by
  induction l generalizing b with
  | nil => exact congrArg (fun x => [x]) h
  | cons x l ih => rw [List.map_cons, h.1, ih h.2, List.cons_append]

/-- Two nodes of a circular list do not point to the same node. -/
theorem Round.injOn (h : Round next b l) (hnodup : (b :: l).Nodup) {x y : α} (hx : x ∈ b :: l)
    (hy : y ∈ b :: l) (heq : next x = next y) : x = y := by
  have hmap : ((b :: l).map next).Nodup := by
    rw [Seg.map_next h]
    exact (List.perm_append_singleton b l).nodup_iff.2 hnodup
  exact List.inj_on_of_nodup_map hmap hx hy heq

theorem Round.next_mem (h : Round next b l) (hx : x ∈ b :: l) : next x ∈ b :: l := by
  have hmem : next x ∈ l ++ [b] := Seg.map_next h ▸ List.mem_map_of_mem hx
  exact (List.perm_append_singleton b l).mem_iff.1 hmem

/-- The pointers do not lead out of a circular list. -/
theorem Round.mem_of_seg (h : Round next b l) (hp : p ∈ b :: l) (hseg : Seg next p l₁ q) :
    q ∈ b :: l := by
  induction l₁ generalizing p with
  | nil => exact hseg ▸ hp
  | cons x l₁ ih => exact ih (h.next_mem (hseg.1 ▸ hp)) hseg.2

/-- They lead to each of its nodes. -/
theorem Round.exists_seg (h : Round next b l) (hp : p ∈ b :: l) (hq : q ∈ b :: l) :
    ∃ l', Seg next p l' q := by
  obtain ⟨l', hring, hperm⟩ := h.exists_rotate hp
  rcases List.mem_cons.1 (hperm.mem_iff.2 hq) with rfl | hq
  · exact ⟨[], rfl⟩
  · obtain ⟨l₁, l₂, rfl⟩ := List.append_of_mem hq
    obtain ⟨r, h₁, rfl, -⟩ := seg_append.1 hring
    exact ⟨p :: l₁, rfl, h₁⟩

/-- A segment ends at one node only. -/
theorem Seg.unique (h : Seg next p l q) (h' : Seg next p l b) : q = b := by
  induction l generalizing p with
  | nil => exact h.symm.trans h'
  | cons x l ih => exact ih h.2 h'.2

/-- The nodes behind the last one of `l₁`. -/
theorem Round.seg_of_getLast? (h : Round next b (l₁ ++ l₂)) (hp : (b :: l₁).getLast? = some p) :
    Seg next (next p) l₂ b := by
  rcases l₁.eq_nil_or_concat with rfl | ⟨l, x, rfl⟩
  · cases hp
    exact h
  · rw [List.concat_eq_append] at h hp
    rw [← List.cons_append, List.getLast?_append, List.getLast?_singleton] at hp
    cases hp
    rw [List.append_assoc] at h
    obtain ⟨_, -, rfl, h₂⟩ := seg_append.1 h
    exact h₂

/-- **The edit**: the nodes `m` behind `p` are replaced by `m'`. -/
theorem Round.splice {m m' : List α} {a : α} (h : Round next b (l₁ ++ (m ++ l₂)))
    (hp : (b :: l₁).getLast? = some p) (hnodup : (b :: l₁).Nodup) (hm : Seg next (next p) m a)
    (hm' : Seg next' (next' p) m' a) (h₁ : ∀ x ∈ b :: l₁, x ≠ p → next' x = next x)
    (h₂ : ∀ x ∈ l₂, next' x = next x) : Round next' b (l₁ ++ (m' ++ l₂)) := by
  obtain ⟨r, hr, hrest⟩ := seg_append.1 (h.seg_of_getLast? hp)
  obtain rfl : r = a := hr.unique hm
  have hbehind : Seg next' (next' p) (m' ++ l₂) b := seg_append.2 ⟨r, hm', hrest.congr h₂⟩
  rcases l₁.eq_nil_or_concat with rfl | ⟨l, x, rfl⟩
  · cases hp
    exact hbehind
  · rw [List.concat_eq_append] at h hp hnodup h₁ ⊢
    rw [← List.cons_append, List.getLast?_append, List.getLast?_singleton] at hp
    obtain rfl : x = p := Option.some.inj hp
    rw [List.append_assoc] at h ⊢
    obtain ⟨_, hfirst, heq, -⟩ := seg_append.1 h
    rw [heq] at hfirst
    have hne : ∀ y ∈ b :: l, y ≠ x := by
      rintro y hy rfl
      rw [← List.cons_append, List.nodup_append'] at hnodup
      exact hnodup.2.2 hy (List.mem_singleton_self _)
    have hkeep : ∀ y ∈ b :: l, next' y = next y := fun y hy =>
      h₁ y (by rw [← List.cons_append]; exact List.mem_append_left _ hy) (hne y hy)
    refine seg_append.2 ⟨x, ?_, rfl, hbehind⟩
    rw [hkeep b List.mem_cons_self]
    exact hfirst.congr fun y hy => hkeep y (List.mem_cons_of_mem b hy)

/-- A walk finds a node of the segment, or goes on behind it. -/
theorem Seg.walk_eq (h : Seg next p l q) :
    walk next test (l.length + n) p = (l.find? test).or (walk next test n q) := by
  induction l generalizing p with
  | nil =>
    cases h
    rw [List.length_nil, Nat.zero_add]
    rfl
  | cons x l ih =>
    obtain ⟨rfl, hl⟩ := h
    rw [List.length_cons, Nat.add_right_comm, walk, List.find?_cons, ih hl]
    cases test p <;> rfl

/-- **A search finds a node that passes the test**, wherever it begins. -/
theorem Round.walk_of_exists (h : Round next b l) (hp : p ∈ b :: l) (hex : ∃ x ∈ b :: l, test x)
    (hn : l.length < n) : ∃ x ∈ b :: l, walk next test n p = some x ∧ test x := by
  obtain ⟨l', hring, hperm⟩ := h.exists_rotate hp
  have hlength := hperm.length_eq
  simp only [List.length_cons] at hlength
  obtain ⟨k, rfl⟩ : ∃ k, n = (p :: l').length + k :=
    ⟨n - (l'.length + 1), by rw [List.length_cons]; omega⟩
  have hseg : Seg next p (p :: l') p := ⟨rfl, hring⟩
  obtain ⟨y, hy, htest⟩ := hex
  obtain ⟨x, hx⟩ := Option.isSome_iff_exists.1
    (List.find?_isSome.2 ⟨y, hperm.mem_iff.2 hy, htest⟩)
  refine ⟨x, hperm.mem_iff.1 (List.mem_of_find?_eq_some hx), ?_, List.find?_some hx⟩
  rw [hseg.walk_eq, hx]
  rfl

end Links

end OperatingSystems

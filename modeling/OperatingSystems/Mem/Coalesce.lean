import OperatingSystems.Mem.Invariant

/-!
# Joining the free chunks

`coalesce` walks over all chunks of the region; it joins a free chunk with the one before it, if that
is free, and links those that remain in the order of their addresses.

* `Chunk.joined` : two neighbours as one chunk.
* `Chained h acc` : the free chunks so far are linked, up to the last pointer.
* `Walking` : **the invariant** of the loop: the chunks so far, the last one first, and the others.
* `Walking.iterate` : one iteration.
* `Walking.loop` : **the loop** visits every chunk.
* `coalesce_spec` : the heap afterwards.
-/

namespace OperatingSystems

namespace Mem

open Bytes Links Tiling

variable {h : Heap} {acc rest : List Chunk} {ml : List ℕ} {w : Walk} {c d : Chunk} {fuel : ℕ}

/-- `d` after the chunk `c` behind it has been joined to it. -/
def Chunk.joined (d c : Chunk) : Chunk := { d with size := d.size + 24 + c.size }

theorem stop_joined (h : d.stop = c.addr) : (d.joined c).stop = c.stop := by
  show d.addr + 24 + (d.size + 24 + c.size) = c.addr + 24 + c.size
  unfold Chunk.stop at h
  omega

theorem separate_absorb (h : acc.IsChain Chunk.Separate) :
    (absorb Chunk.free Chunk.joined acc c).IsChain Chunk.Separate :=
  isChain_absorb (p := Chunk.free) (fun _ _ => rfl) h

/-- The free chunks so far, the last one first. -/
def frees (acc : List Chunk) : List ℕ := (acc.filter Chunk.free).map Chunk.addr

/-- The free chunks so far are linked in the order of their addresses; the last pointer is still to be
set. -/
def Chained (h : Heap) (acc : List Chunk) : Prop :=
  match frees acc with
  | [] => True
  | x :: xs => Linked (fun a => if a = x then none else (header h.mem a).next)
      (fun a => (header h.mem a).prev) none (xs.reverse ++ [x]) h.freeList

/-- **The loop of `coalesce`** at `pos`, after the chunks `acc`, the last one first, and before the
chunks `rest`. -/
structure Walking (h : Heap) (acc rest : List Chunk) (pos : ℕ) (ml : List ℕ) (w : Walk) : Prop where
  region : Region h
  done : Tiles Chunk.addr Chunk.stop h.lo acc.reverse pos
  todo : Tiles Chunk.addr Chunk.stop pos rest h.hi
  size : ∀ c ∈ acc.reverse ++ rest, (header h.mem c.addr).size = c.size
  flag : ∀ c ∈ acc.reverse ++ rest, (header h.mem c.addr).free = if c.free then 1 else 0
  aligned : ∀ c ∈ acc.reverse ++ rest, 8 ∣ c.size
  merged : acc.IsChain Chunk.Separate
  curr : rest ≠ [] → w.curr = some pos
  currSize : w.currSize = (pos : ℤ) - h.lo
  prev : w.prev = (frees acc).head?
  immediate : w.immediate = acc.head?.any Chunk.free
  chained : Chained h acc
  used : Linked (fun a => (header h.mem a).next) (fun a => (header h.mem a).prev) none ml h.memList
  mem_used : ∀ a, a ∈ ml ↔ ∃ c ∈ acc.reverse ++ rest, c.addr = a ∧ c.free = false

theorem mem_frees {a : ℕ} : a ∈ frees acc ↔ ∃ c ∈ acc, c.addr = a ∧ c.free = true := by
  simp only [frees, List.mem_map, List.mem_filter]
  constructor
  · rintro ⟨c, ⟨hc, hfree⟩, rfl⟩
    exact ⟨c, hc, rfl, hfree⟩
  · rintro ⟨c, hc, rfl, hfree⟩
    exact ⟨c, ⟨hc, hfree⟩, rfl⟩

theorem frees_subset : ∀ a ∈ frees acc, a ∈ (acc.reverse ++ rest).map Chunk.addr := by
  intro a ha
  obtain ⟨c, hc, rfl, -⟩ := mem_frees.1 ha
  exact List.mem_map_of_mem (List.mem_append_left _ (List.mem_reverse.2 hc))

namespace Walking

variable {pos : ℕ} (hw : Walking h acc rest pos ml w)
include hw

theorem tiles : Tiles Chunk.addr Chunk.stop h.lo (acc.reverse ++ rest) h.hi :=
  tiles_append.2 ⟨pos, hw.done, hw.todo⟩

theorem sees : Sees h ((acc.reverse ++ rest).map Chunk.addr) (header h.mem) :=
  sees_of_tiles hw.region hw.tiles

theorem used_mem : ∀ a ∈ ml, a ∈ (acc.reverse ++ rest).map Chunk.addr := by
  intro a ha
  obtain ⟨c, hc, rfl, -⟩ := (hw.mem_used a).1 ha
  exact List.mem_map_of_mem hc

/-- A header in use is not that of a free chunk. -/
theorem used_ne (hd : d ∈ acc.reverse ++ rest) (hfree : d.free = true) : ∀ a ∈ ml, a ≠ d.addr := by
  rintro a ha rfl
  obtain ⟨c, hc, haddr, hused⟩ := (hw.mem_used _).1 ha
  rw [eq_of_addr hw.tiles hc hd haddr, hfree] at hused
  cases hused

/-- The loop ends after the last chunk. -/
theorem lt_iff : w.currSize < h.totalSize ↔ rest ≠ [] := by
  rw [hw.currSize, hw.region.total]
  cases rest with
  | nil =>
    have hpos : pos = h.hi := hw.todo
    simp [hpos]
  | cons c rest =>
    have hhi := (hw.todo.mem Chunk.addr_le (List.mem_cons_self)).2
    have hpos : c.addr = pos := hw.todo.1
    unfold Chunk.stop at hhi
    simp only [ne_eq, reduceCtorEq, not_false_eq_true, iff_true]
    omega

end Walking

/-! ### One iteration -/

/-- The step to the next chunk. -/
theorem advance_eq (hr : Region h) (hlo : h.lo ≤ c.addr) (hhi : c.stop ≤ h.hi)
    (hcurr : w.curr = some c.addr) (hsize : (header h.mem c.addr).size = c.size)
    (hcurrSize : w.currSize = (c.addr : ℤ) - h.lo) :
    h.advance w = .ok { w with
      currSize := (c.stop : ℤ) - h.lo
      curr := ptrAdd (some c.addr) (sizeofHeader + c.size) } := by
  have hint := hr.int
  have htotal := hr.total
  have hstop : c.stop = c.addr + 24 + c.size := rfl
  unfold IsInt at hint
  unfold Heap.advance
  rw [hcurr, size_eq ⟨hlo, by omega⟩, ok_bind, hsize, int_eq, ok_bind, hcurrSize, int_eq, ok_bind,
    pure_eq_ok]
  · have hsum : (c.addr : ℤ) - h.lo + (c.size + sizeofHeader) = (c.stop : ℤ) - h.lo := by
      simp only [sizeofHeader]
      omega
    rw [hsum]
  · unfold IsInt
    simp only [sizeofHeader]
    omega
  · unfold IsInt
    simp only [sizeofHeader]
    omega

/-- What is left to show of an iteration, when the chunks so far have become `acc'`. -/
theorem Walking.next {pos : ℕ} {acc' : List Chunk} {m : Bytes} {p prev : Option ℕ} {b : Bool}
    (hw : Walking h acc (c :: rest) pos ml w)
    (hdone : Tiles Chunk.addr Chunk.stop h.lo acc'.reverse c.stop)
    (hc : (header m c.addr).size = c.size)
    (hfields : ∀ d ∈ acc'.reverse ++ rest, (header m d.addr).size = d.size ∧
      ((header m d.addr).free = if d.free then 1 else 0) ∧ 8 ∣ d.size)
    (hmerged : acc'.IsChain Chunk.Separate) (hprev : prev = (frees acc').head?)
    (hb : b = acc'.head?.any Chunk.free) (hchained : Chained { h with mem := m, freeList := p } acc')
    (hused : Linked (fun a => (header m a).next) (fun a => (header m a).prev) none ml h.memList)
    (hmem : ∀ a, a ∈ ml ↔ ∃ d ∈ acc'.reverse ++ rest, d.addr = a ∧ d.free = false) :
    ∃ w', Heap.advance { h with mem := m, freeList := p } { w with prev := prev, immediate := b } =
        .ok w' ∧ Walking { h with mem := m, freeList := p } acc' rest c.stop ml w' := by
  obtain ⟨haddr, hrest⟩ := hw.todo
  have hr : Region { h with mem := m, freeList := p } :=
    ⟨hw.region.pos, hw.region.aligned, hw.region.top, hw.region.total, hw.region.int,
      hw.region.begin, hw.region.initialized⟩
  have hlo : h.lo ≤ c.addr := (hw.tiles.mem Chunk.addr_le (x := c) (by simp)).1
  have hhi : c.stop ≤ h.hi := (hw.tiles.mem Chunk.addr_le (x := c) (by simp)).2
  have hadv := advance_eq (w := { w with prev := prev, immediate := b }) hr hlo hhi
    ((hw.curr (by simp)).trans (congrArg some haddr.symm)) hc (by rw [hw.currSize, haddr])
  refine ⟨_, hadv, hr, hdone, hrest, fun d hd => (hfields d hd).1, fun d hd => (hfields d hd).2.1,
    fun d hd => (hfields d hd).2.2, hmerged, fun hne => ?_, rfl, hprev, hb, hchained, hused, hmem⟩
  -- there is a next chunk, so its address does not wrap
  obtain ⟨d, rest', rfl⟩ := List.exists_cons_of_ne_nil hne
  have hd := (hrest.mem Chunk.addr_le List.mem_cons_self).2
  have hda : d.addr = c.stop := hrest.1
  have htop := hw.region.top
  have hpos := hw.region.pos
  have hstop : c.stop = c.addr + 24 + c.size := rfl
  have hdstop : d.stop = d.addr + 24 + d.size := rfl
  rw [ptrAdd_eq (n := 24 + c.size) (by simp [sizeofHeader]) (by omega) (by omega), hstop,
    Nat.add_assoc]

/-- An iteration that keeps the chunk as it is. -/
theorem Walking.keep {pos : ℕ} {m : Bytes} {p q : Option ℕ} {τ : ℕ → Header}
    (hw : Walking h acc (c :: rest) pos ml w)
    (hsees : Sees { h with mem := m, freeList := p } ((acc.reverse ++ c :: rest).map Chunk.addr) τ)
    (hτ : ∀ a, (τ a).size = (header h.mem a).size ∧ (τ a).free = (header h.mem a).free)
    (hused : ∀ a ∈ ml, τ a = header h.mem a)
    (habs : absorb Chunk.free Chunk.joined acc c = c :: acc) (hprev : q = (frees (c :: acc)).head?)
    (hchained : Chained { h with mem := m, freeList := p } (c :: acc)) :
    ∃ w', Heap.advance { h with mem := m, freeList := p }
        { w with prev := q, immediate := c.free } = .ok w' ∧
      Walking { h with mem := m, freeList := p } (absorb Chunk.free Chunk.joined acc c) rest c.stop ml
        w' := by
  have hlist : (c :: acc).reverse ++ rest = acc.reverse ++ c :: rest := by simp
  have hheader : ∀ d ∈ acc.reverse ++ c :: rest, header m d.addr = τ d.addr := fun d hd =>
    hsees.header _ (List.mem_map_of_mem hd)
  have hc : c ∈ acc.reverse ++ c :: rest := by simp
  have hmerged := separate_absorb (c := c) hw.merged
  rw [habs] at hmerged ⊢
  refine hw.next ?_ ?_ (fun d hd => ?_) hmerged hprev rfl hchained ?_ ?_
  · rw [List.reverse_cons]
    exact tiles_append.2 ⟨pos, hw.done, hw.todo.1, rfl⟩
  · rw [hheader c hc, (hτ _).1, hw.size c hc]
  · rw [hlist] at hd
    rw [hheader d hd, (hτ _).1, (hτ _).2]
    exact ⟨hw.size d hd, hw.flag d hd, hw.aligned d hd⟩
  · have hml : ∀ a ∈ ml, header m a = header h.mem a := by
      intro a ha
      rw [← hused a ha]
      exact hsees.header a (hw.used_mem a ha)
    exact hw.used.congr (fun a ha => by rw [hml a ha]) fun a ha => by rw [hml a ha]
  · rw [hlist]
    exact hw.mem_used

theorem frees_cons_of_used (hc : c.free = false) : frees (c :: acc) = frees acc := by
  simp [frees, hc]

theorem frees_cons_of_free (hc : c.free = true) : frees (c :: acc) = c.addr :: frees acc := by
  simp [frees, hc]

/-- What one iteration does to the heap, to `acc` and to the variables of the loop. -/
def Iterates (h : Heap) (acc : List Chunk) (c : Chunk) (rest : List Chunk) (ml : List ℕ) (w : Walk) :
    Prop :=
  ∃ m p w₁ w₂, h.join w = .ok ({ h with mem := m, freeList := p }, w₁) ∧
    Heap.advance { h with mem := m, freeList := p } w₁ = .ok w₂ ∧
    Walking { h with mem := m, freeList := p } (absorb Chunk.free Chunk.joined acc c) rest c.stop ml w₂ ∧
    ∀ i, (∀ d ∈ acc.reverse ++ c :: rest, i < d.addr ∨ d.addr + 24 ≤ i) → m i = h.mem i

variable {pos : ℕ}

/-- A chunk in use. -/
theorem Walking.iterate_used (hw : Walking h acc (c :: rest) pos ml w) (hc : c.free = false) :
    Iterates h acc c rest ml w := by
  have hcs : c ∈ acc.reverse ++ c :: rest := by simp
  have hcurr : w.curr = some c.addr := (hw.curr (by simp)).trans (congrArg some hw.todo.1.symm)
  have hjoin : h.join w = .ok (h, { w with immediate := c.free }) := by
    unfold Heap.join
    rw [hcurr, hw.sees.free (List.mem_map_of_mem hcs), ok_bind, hw.flag c hcs, hc, if_neg (by simp)]
    rfl
  obtain ⟨w', hadv, hw'⟩ := hw.keep (m := h.mem) (p := h.freeList) (q := w.prev) hw.sees
    (fun _ => ⟨rfl, rfl⟩) (fun _ _ => rfl) (absorb_of_not hc)
    (by rw [frees_cons_of_used hc, hw.prev])
    (by unfold Chained; rw [frees_cons_of_used hc]; exact hw.chained)
  exact ⟨h.mem, h.freeList, _, w', hjoin, hadv, hw', fun _ _ => rfl⟩

theorem outside {A : List ℕ} {cs : List Chunk} {i : ℕ} (hA : A = cs.map Chunk.addr)
    (hi : ∀ d ∈ cs, i < d.addr ∨ d.addr + 24 ≤ i) : ∀ a ∈ A, i < a ∨ a + 24 ≤ i := by
  subst hA
  intro a ha
  obtain ⟨d, hd, rfl⟩ := List.mem_map.1 ha
  exact hi d hd

/-- The first free chunk. -/
theorem Walking.iterate_first (hw : Walking h acc (c :: rest) pos ml w) (hc : c.free = true)
    (hfirst : frees acc = []) : Iterates h acc c rest ml w := by
  have hcs : c ∈ acc.reverse ++ c :: rest := by simp
  have hcA : c.addr ∈ (acc.reverse ++ c :: rest).map Chunk.addr := List.mem_map_of_mem hcs
  have hcurr : w.curr = some c.addr := (hw.curr (by simp)).trans (congrArg some hw.todo.1.symm)
  have hs := hw.sees.of_heap (k := { h with freeList := some c.addr }) rfl rfl rfl
  obtain ⟨m₁, hm₁, hs₁, hframe₁⟩ := hs.setPrev hcA (q := none) (by simp)
  obtain ⟨m, hm, hs₂, hframe⟩ := hs₁.setNext hcA (q := none) (by simp)
  have hjoin : h.join w = .ok ({ h with mem := m, freeList := some c.addr },
      { w with prev := some c.addr, immediate := c.free }) := by
    unfold Heap.join
    rw [hcurr, hw.sees.free hcA, ok_bind, hw.flag c hcs, hc, if_pos (by simp), hw.prev, hfirst,
      List.head?_nil, if_pos rfl]
    dsimp only at hm₁ hm ⊢
    rw [hm₁, ok_bind, hm, ok_bind]
    rfl
  have hhead : ∀ d ∈ acc.head?, d.free = false := by
    intro d hd
    by_contra hfree
    have hmem := mem_frees.2 ⟨d, List.mem_of_mem_head? hd, rfl, by simpa using hfree⟩
    rw [hfirst] at hmem
    cases hmem
  have hself : header m c.addr = { header h.mem c.addr with next := none, prev := none } := by
    rw [hs₂.header _ hcA]
    simp
  have hchained : Chained { h with mem := m, freeList := some c.addr } (c :: acc) := by
    unfold Chained
    rw [frees_cons_of_free hc, hfirst]
    exact ⟨rfl, by simp [hself], if_pos rfl⟩
  obtain ⟨w', hadv, hw'⟩ := hw.keep hs₂ (fun a => by by_cases ha : a = c.addr <;> simp [ha])
    (fun a ha => by simp [hw.used_ne hcs hc a ha]) (absorb_of_head hhead) (q := some c.addr)
    (by rw [frees_cons_of_free hc]; rfl) hchained
  refine ⟨m, some c.addr, _, w', hjoin, hadv, hw', fun i hi => ?_⟩
  exact (hframe i (outside rfl hi)).trans (hframe₁ i (outside rfl hi))

/-- A free chunk after one in use. -/
theorem Walking.iterate_link (hw : Walking h acc (c :: rest) pos ml w) (hc : c.free = true)
    {x : ℕ} {xs : List ℕ} (hx : frees acc = x :: xs) (hhead : ∀ d ∈ acc.head?, d.free = false) :
    Iterates h acc c rest ml w := by
  have hcs : c ∈ acc.reverse ++ c :: rest := by simp
  have hcA : c.addr ∈ (acc.reverse ++ c :: rest).map Chunk.addr := List.mem_map_of_mem hcs
  have hxA : x ∈ (acc.reverse ++ c :: rest).map Chunk.addr := frees_subset x (by simp [hx])
  have hcurr : w.curr = some c.addr := (hw.curr (by simp)).trans (congrArg some hw.todo.1.symm)
  have himm : w.immediate = false := by
    rw [hw.immediate]
    cases hd : acc.head? with
    | none => rfl
    | some d => exact hhead d hd
  -- the chunks so far are others
  have hne : ∀ a ∈ frees acc, a ≠ c.addr := by
    rintro a ha rfl
    obtain ⟨d, hd, haddr, -⟩ := mem_frees.1 ha
    have hle := (hw.done.mem Chunk.addr_le (List.mem_reverse.2 hd)).2
    have hpos : c.addr = pos := hw.todo.1
    unfold Chunk.stop at hle
    omega
  have hxc : x ≠ c.addr := hne x (by simp [hx])
  obtain ⟨m₁, hm₁, hs₁, hframe₁⟩ := hw.sees.setNext hxA (q := some c.addr) (by simp)
  obtain ⟨m, hm, hs₂, hframe⟩ := hs₁.setPrev hcA (q := some x) (by simpa using hxA)
  have hjoin : h.join w = .ok ({ h with mem := m, freeList := h.freeList },
      { w with prev := some c.addr, immediate := c.free }) := by
    unfold Heap.join
    rw [hcurr, hw.sees.free hcA, ok_bind, hw.flag c hcs, hc, if_pos (by simp), hw.prev, hx,
      List.head?_cons, if_neg (by simp), if_pos himm, hm₁, ok_bind, hm, ok_bind]
    rfl
  have hcself : header m c.addr = { header h.mem c.addr with prev := some x } := by
    rw [hs₂.header _ hcA]
    simp [hxc.symm]
  have hxself : header m x = { header h.mem x with next := some c.addr } := by
    rw [hs₂.header _ hxA]
    simp [hxc]
  have hother : ∀ a ∈ frees acc, a ≠ x → header m a = header h.mem a := by
    intro a ha hax
    rw [hs₂.header _ (frees_subset a ha)]
    simp [hax, hne a ha]
  have hold := hw.chained
  have hnd : x ∉ xs.reverse := by
    unfold Chained at hold
    rw [hx] at hold
    have hnd := hold.path.nodup
    rw [List.nodup_append] at hnd
    intro hxs
    exact hnd.2.2 x hxs x List.mem_cons_self rfl
  have hchained : Chained { h with mem := m, freeList := h.freeList } (c :: acc) := by
    unfold Chained at hold ⊢
    rw [frees_cons_of_free hc]
    rw [hx] at hold ⊢
    simp only [List.reverse_cons]
    refine hold.concat (fun a ha => ?_) (fun a ha => ?_) ?_ (if_pos rfl) (by simp [hcself])
    · have hax : a ≠ x := fun heq => hnd (heq ▸ ha)
      have hmem : a ∈ frees acc := by rw [hx]; simp at ha; simp [ha]
      simp only [if_neg (hne a hmem), if_neg hax, hother a hmem hax]
    · by_cases hax : a = x
      · simp [hax, hxself]
      · have hmem : a ∈ frees acc := by rw [hx]; simp at ha; simpa [or_comm] using ha
        simp only [hother a hmem hax]
    · simp only [if_neg hxc, hxself]
  have hxml : ∀ a ∈ ml, a ≠ x := by
    obtain ⟨d, hd, hdx, hfree⟩ := mem_frees.1 (show x ∈ frees acc by simp [hx])
    rw [← hdx]
    exact hw.used_ne (List.mem_append_left _ (List.mem_reverse.2 hd)) hfree
  obtain ⟨w', hadv, hw'⟩ := hw.keep hs₂
    (fun a => by by_cases ha : a = c.addr <;> by_cases hax : a = x <;> simp [ha, hax, hxc, hxc.symm])
    (fun a ha => by simp [hw.used_ne hcs hc a ha, hxml a ha]) (absorb_of_head hhead)
    (q := some c.addr) (by rw [frees_cons_of_free hc]; rfl) hchained
  refine ⟨m, h.freeList, _, w', hjoin, hadv, hw', fun i hi => ?_⟩
  exact (hframe i (outside rfl hi)).trans (hframe₁ i (outside rfl hi))

/-- The two chunks are neighbours. -/
theorem Walking.neighbours {ds : List Chunk} (hw : Walking h (d :: ds) (c :: rest) pos ml w) :
    d.addr + 24 + d.size = c.addr ∧
      Tiles Chunk.addr Chunk.stop h.lo (d.joined c :: ds).reverse c.stop := by
  have hdone := hw.done
  rw [List.reverse_cons] at hdone ⊢
  obtain ⟨b, hdone, hdb, hdpos⟩ := tiles_append.1 hdone
  have hdc : d.stop = c.addr := hdpos.trans hw.todo.1.symm
  exact ⟨hdc, tiles_append.2 ⟨b, hdone, hdb, stop_joined hdc⟩⟩

theorem mem_joined {ds : List Chunk} {e : Chunk} : e ∈ (d.joined c :: ds).reverse ++ rest ↔
    e = d.joined c ∨ e ∈ ds.reverse ++ rest := by
  simp only [List.reverse_cons, List.mem_append, List.mem_singleton]
  tauto

theorem mem_neighbours {ds : List Chunk} {e : Chunk} : e ∈ (d :: ds).reverse ++ c :: rest ↔
    e = d ∨ e = c ∨ e ∈ ds.reverse ++ rest := by
  simp only [List.reverse_cons, List.mem_append, List.mem_cons]
  tauto

/-- The other chunks have other headers. -/
theorem Walking.others {ds : List Chunk} {e : Chunk} (hw : Walking h (d :: ds) (c :: rest) pos ml w)
    (he : e ∈ ds.reverse ++ rest) : e.addr ≠ c.addr ∧ e.addr ≠ d.addr := by
  have hdc := hw.neighbours.1
  have hdone := hw.done
  rw [List.reverse_cons] at hdone
  obtain ⟨b, hdone, hdb, -⟩ := tiles_append.1 hdone
  have hdb : d.addr = b := hdb
  rcases List.mem_append.1 he with he | he
  · have hle : e.addr + 24 + e.size ≤ b := (hdone.mem Chunk.addr_le he).2
    omega
  · have hle := (hw.todo.2.mem Chunk.addr_le he).1
    have hstop : c.stop = c.addr + 24 + c.size := rfl
    omega

/-- The headers after `c` has been joined to `d`. -/
structure Joins (m m' : Bytes) (d c : Chunk) (A : List ℕ) : Prop where
  first : header m' d.addr = { header m d.addr with size := (d.size : ℤ) + (c.size + sizeofHeader) }
  second : (header m' c.addr).size = c.size
  other : ∀ a ∈ A, a ≠ c.addr → a ≠ d.addr → header m' a = header m a

section Joins

variable {ds : List Chunk} {m : Bytes} (hw : Walking h (d :: ds) (c :: rest) pos ml w)
  (hj : Joins h.mem m d c (((d :: ds).reverse ++ c :: rest).map Chunk.addr))
include hw hj

theorem Walking.fields_joined : ∀ e ∈ (d.joined c :: ds).reverse ++ rest,
    (header m e.addr).size = e.size ∧ ((header m e.addr).free = if e.free then 1 else 0) ∧
      8 ∣ e.size := by
  intro e he
  obtain rfl | he := mem_joined.1 he
  · have hds : d ∈ (d :: ds).reverse ++ c :: rest := by simp
    have halignd := hw.aligned d hds
    have halignc := hw.aligned c (by simp)
    rw [show (d.joined c).addr = d.addr from rfl, hj.first]
    refine ⟨?_, hw.flag d hds, ?_⟩
    · simp only [Chunk.joined, sizeofHeader]
      omega
    · simp only [Chunk.joined]
      omega
  · obtain ⟨hec, hed⟩ := hw.others he
    have hmem := mem_neighbours (c := c) (d := d).2 (Or.inr (Or.inr he))
    rw [hj.other _ (List.mem_map_of_mem hmem) hec hed]
    exact ⟨hw.size e hmem, hw.flag e hmem, hw.aligned e hmem⟩

theorem Walking.chained_joined (hd : d.free = true) :
    Chained { h with mem := m, freeList := h.freeList } (d.joined c :: ds) := by
  have hold := hw.chained
  have hdc := hw.neighbours.1
  have hcpos : c.addr = pos := hw.todo.1
  have hfrees : frees (d.joined c :: ds) = frees (d :: ds) := by
    rw [frees_cons_of_free hd, frees_cons_of_free (show (d.joined c).free = true from hd)]
    rfl
  unfold Chained at hold ⊢
  rw [hfrees]
  cases hf : frees (d :: ds) with
  | nil => trivial
  | cons x xs =>
    rw [hf] at hold
    have hlinks : ∀ a ∈ xs.reverse ++ [x], (header m a).next = (header h.mem a).next ∧
        (header m a).prev = (header h.mem a).prev := by
      intro a ha
      have hmem : a ∈ frees (d :: ds) := by
        rw [hf]
        simpa [or_comm] using ha
      by_cases had : a = d.addr
      · subst had
        simp only [hj.first, and_self]
      · have hac : a ≠ c.addr := by
          rintro rfl
          obtain ⟨e, he, haddr, -⟩ := mem_frees.1 hmem
          have hle : e.addr + 24 + e.size ≤ pos :=
            (hw.done.mem Chunk.addr_le (List.mem_reverse.2 he)).2
          omega
        have heq := hj.other a (frees_subset a hmem) hac had
        exact ⟨congrArg Header.next heq, congrArg Header.prev heq⟩
    exact hold.congr (fun a ha => by simp only [(hlinks a ha).1]) fun a ha => (hlinks a ha).2

theorem Walking.used_joined (hc : c.free = true) (hd : d.free = true) :
    Linked (fun a => (header m a).next) (fun a => (header m a).prev) none ml h.memList ∧
      ∀ a, a ∈ ml ↔ ∃ e ∈ (d.joined c :: ds).reverse ++ rest, e.addr = a ∧ e.free = false := by
  have hused : ∀ a ∈ ml, header m a = header h.mem a := fun a ha =>
    hj.other a (hw.used_mem a ha) (hw.used_ne (by simp) hc a ha) (hw.used_ne (by simp) hd a ha)
  refine ⟨hw.used.congr (fun a ha => by rw [hused a ha]) fun a ha => by rw [hused a ha], fun a => ?_⟩
  rw [hw.mem_used]
  constructor
  · rintro ⟨e, he, rfl, hfree⟩
    obtain rfl | rfl | he := mem_neighbours.1 he
    · rw [hd] at hfree
      cases hfree
    · rw [hc] at hfree
      cases hfree
    · exact ⟨e, mem_joined.2 (Or.inr he), rfl, hfree⟩
  · rintro ⟨e, he, rfl, hfree⟩
    obtain rfl | he := mem_joined.1 he
    · rw [show (d.joined c).free = d.free from rfl, hd] at hfree
      cases hfree
    · exact ⟨e, mem_neighbours.2 (Or.inr (Or.inr he)), rfl, hfree⟩

theorem Walking.advance_joined (hc : c.free = true) (hd : d.free = true) : ∃ w',
    Heap.advance { h with mem := m, freeList := h.freeList }
      { w with prev := some d.addr, immediate := true } = .ok w' ∧
    Walking { h with mem := m, freeList := h.freeList }
      (absorb Chunk.free Chunk.joined (d :: ds) c) rest c.stop ml w' := by
  have habs : absorb Chunk.free Chunk.joined (d :: ds) c = d.joined c :: ds := by
    simp [absorb, hc, hd]
  have hmerged := separate_absorb (c := c) hw.merged
  have hfirst : some d.addr = (frees (d.joined c :: ds)).head? := by
    rw [frees_cons_of_free (show (d.joined c).free = true from hd)]
    rfl
  have hlast : true = (d.joined c :: ds).head?.any Chunk.free := hd.symm
  obtain ⟨hlinks, hmused⟩ := hw.used_joined hj hc hd
  rw [habs] at hmerged ⊢
  exact hw.next hw.neighbours.2 hj.second (hw.fields_joined hj) hmerged hfirst hlast
    (hw.chained_joined hj hd) hlinks hmused

end Joins

/-- **A free chunk after a free one** is joined to it. -/
theorem Walking.iterate_join {ds : List Chunk} (hw : Walking h (d :: ds) (c :: rest) pos ml w)
    (hc : c.free = true) (hd : d.free = true) : Iterates h (d :: ds) c rest ml w := by
  have hcs : c ∈ (d :: ds).reverse ++ c :: rest := by simp
  have hds : d ∈ (d :: ds).reverse ++ c :: rest := by simp
  have hcA : c.addr ∈ ((d :: ds).reverse ++ c :: rest).map Chunk.addr := List.mem_map_of_mem hcs
  have hdA : d.addr ∈ ((d :: ds).reverse ++ c :: rest).map Chunk.addr := List.mem_map_of_mem hds
  have hcurr : w.curr = some c.addr := (hw.curr (by simp)).trans (congrArg some hw.todo.1.symm)
  have hprev : w.prev = some d.addr := by
    rw [hw.prev, frees_cons_of_free hd]
    rfl
  have himm : w.immediate = true := by
    rw [hw.immediate]
    simp [hd]
  have hdc := hw.neighbours.1
  have hint := hw.region.int
  have htotal := hw.region.total
  have hhi : c.addr + 24 + c.size ≤ h.hi := (hw.tiles.mem Chunk.addr_le hcs).2
  have hlo : h.lo ≤ d.addr := (hw.tiles.mem Chunk.addr_le hds).1
  unfold IsInt at hint
  have hsum : IsInt ((c.size : ℤ) + sizeofHeader) := by
    unfold IsInt
    simp only [sizeofHeader]
    omega
  have hsize : IsInt ((d.size : ℤ) + (c.size + sizeofHeader)) := by
    unfold IsInt
    simp only [sizeofHeader]
    omega
  obtain ⟨m₁, hm₁, hs₁, hframe₁⟩ := hw.sees.setSize hdA hsize
  obtain ⟨m, hm, hs₂, hframe⟩ := hs₁.setFree hcA (y := 1) (by decide)
  have hjoin : h.join w = .ok ({ h with mem := m, freeList := h.freeList },
      { w with prev := some d.addr, immediate := true }) := by
    unfold Heap.join
    rw [hcurr, hw.sees.free hcA, ok_bind, hw.flag c hcs, hc, if_pos (by simp), hprev,
      if_neg (by simp), himm, if_neg (by simp), hw.sees.size hdA, ok_bind, hw.size d hds,
      hw.sees.size hcA, ok_bind, hw.size c hcs, int_eq hsum, ok_bind, int_eq hsize, ok_bind, hm₁,
      ok_bind, hm, ok_bind]
    have hsame : w = ⟨some c.addr, some d.addr, w.currSize, true⟩ := by
      rw [← hcurr, ← hprev, ← himm]
    exact congrArg (fun v => Except.ok (_, v)) hsame
  have hcd : c.addr ≠ d.addr := by omega
  have hj : Joins h.mem m d c (((d :: ds).reverse ++ c :: rest).map Chunk.addr) := by
    refine ⟨?_, ?_, fun a ha hac had => ?_⟩
    · rw [hs₂.header _ hdA]
      simp [hcd.symm]
    · rw [hs₂.header _ hcA]
      simpa [hcd] using hw.size c hcs
    · rw [hs₂.header _ ha]
      simp [hac, had]
  obtain ⟨w', hadv, hw'⟩ := hw.advance_joined hj hc hd
  refine ⟨m, h.freeList, _, w', hjoin, hadv, hw', fun i hi => ?_⟩
  exact (hframe i (outside rfl hi)).trans (hframe₁ i (outside rfl hi))

/-- **One iteration.** -/
theorem Walking.iterate (hw : Walking h acc (c :: rest) pos ml w) : Iterates h acc c rest ml w := by
  cases hc : c.free with
  | false => exact hw.iterate_used hc
  | true =>
    cases acc with
    | nil => exact hw.iterate_first hc rfl
    | cons d ds =>
      cases hd : d.free with
      | true => exact hw.iterate_join hc hd
      | false =>
        have hhead : ∀ e ∈ (d :: ds).head?, e.free = false := by
          rintro e ⟨⟩
          exact hd
        cases hf : frees (d :: ds) with
        | nil => exact hw.iterate_first hc hf
        | cons x xs => exact hw.iterate_link hc hf hhead

/-! ### The whole loop -/

/-- Joining makes no new headers. -/
theorem addr_absorb : ∀ e ∈ absorb Chunk.free Chunk.joined acc c, ∃ d ∈ c :: acc, d.addr = e.addr := by
  intro e he
  cases acc with
  | nil => exact ⟨e, he, rfl⟩
  | cons d ds =>
    rw [absorb] at he
    split_ifs at he
    · obtain rfl | he := List.mem_cons.1 he
      · exact ⟨d, by simp, rfl⟩
      · exact ⟨e, by simp [he], rfl⟩
    · exact ⟨e, he, rfl⟩

/-- **The loop of `coalesce`** changes nothing but headers. -/
theorem Walking.loop (hw : Walking h acc rest pos ml w) (hfuel : rest.length ≤ fuel) : ∃ m p w',
    coalesceLoop fuel h w = .ok ({ h with mem := m, freeList := p }, w') ∧
    Walking { h with mem := m, freeList := p } (rest.foldl (absorb Chunk.free Chunk.joined) acc) []
      h.hi ml w' ∧
    ∀ i, (∀ d ∈ acc.reverse ++ rest, i < d.addr ∨ d.addr + 24 ≤ i) → m i = h.mem i := by
  induction rest generalizing h acc pos w fuel with
  | nil =>
    have hpos : pos = h.hi := hw.todo
    subst hpos
    refine ⟨h.mem, h.freeList, w, ?_, hw, fun _ _ => rfl⟩
    unfold coalesceLoop
    rw [if_neg]
    simpa using hw.lt_iff.not
  | cons c rest ih =>
    obtain ⟨fuel, rfl⟩ := Nat.exists_eq_add_of_le' (Nat.le_trans (by simp) hfuel : 1 ≤ fuel)
    obtain ⟨m, p, w₁, w₂, hjoin, hadv, hw₂, hframe⟩ := hw.iterate
    obtain ⟨m', p', w', hloop, hw', hframe'⟩ := ih hw₂ (Nat.le_of_succ_le_succ hfuel)
    refine ⟨m', p', w', ?_, hw', fun i hi => ?_⟩
    · unfold coalesceLoop
      rw [if_pos (hw.lt_iff.2 (by simp))]
      dsimp only
      rw [hjoin, ok_bind, hadv, ok_bind]
      exact hloop
    · refine (hframe' i fun e he => ?_).trans (hframe i hi)
      rw [List.mem_append, List.mem_reverse] at he
      obtain he | he := he
      · obtain ⟨d, hd, hde⟩ := addr_absorb e he
        rw [← hde]
        refine hi d ?_
        rw [List.mem_append, List.mem_reverse, List.mem_cons]
        rw [List.mem_cons] at hd
        tauto
      · exact hi e (by simp [he])

/-- The chunks of a heap whose free list has to be built. -/
structure Loose (h : Heap) (cs : List Chunk) (ml : List ℕ) : Prop where
  region : Region h
  tiles : Tiles Chunk.addr Chunk.stop h.lo cs h.hi
  size : ∀ c ∈ cs, (header h.mem c.addr).size = c.size
  flag : ∀ c ∈ cs, (header h.mem c.addr).free = if c.free then 1 else 0
  aligned : ∀ c ∈ cs, 8 ∣ c.size
  used : Linked (fun a => (header h.mem a).next) (fun a => (header h.mem a).prev) none ml h.memList
  mem_used : ∀ a, a ∈ ml ↔ ∃ c ∈ cs, c.addr = a ∧ c.free = false

variable {cs : List Chunk}

/-- The loop begins with the first chunk. -/
theorem Loose.walking (hl : Loose h cs ml) : Walking h [] cs h.lo ml ⟨h.begin, none, 0, false⟩ where
  region := hl.region
  done := rfl
  todo := hl.tiles
  size := hl.size
  flag := hl.flag
  aligned := hl.aligned
  merged := List.isChain_nil
  curr := fun _ => hl.region.begin
  currSize := by simp
  prev := rfl
  immediate := rfl
  chained := trivial
  used := hl.used
  mem_used := hl.mem_used

/-- The chunks after free neighbours have been joined. -/
def joined (cs : List Chunk) : List Chunk := merge Chunk.free Chunk.joined cs

theorem addr_foldl : ∀ e ∈ rest.foldl (absorb Chunk.free Chunk.joined) acc,
    ∃ d ∈ rest ++ acc, d.addr = e.addr := by
  induction rest generalizing acc with
  | nil => exact fun e he => ⟨e, he, rfl⟩
  | cons c rest ih =>
    intro e he
    obtain ⟨d, hd, hde⟩ := ih e he
    rcases List.mem_append.1 hd with hd | hd
    · exact ⟨d, by simp [hd], hde⟩
    · obtain ⟨b, hb, hbd⟩ := addr_absorb d hd
      rw [List.mem_cons] at hb
      refine ⟨b, ?_, hbd.trans hde⟩
      rw [List.mem_append, List.mem_cons]
      tauto

theorem addr_joined : ∀ e ∈ joined cs, ∃ d ∈ cs, d.addr = e.addr := by
  intro e he
  rw [joined, merge, List.mem_reverse] at he
  simpa using addr_foldl e he

/-- The chunks in use stay. -/
theorem mem_joined_of_used (hc : c.free = false) : c ∈ joined cs ↔ c ∈ cs :=
  mem_merge_of_not (p := Chunk.free) (fun x y => (rfl : (x.joined y).free = x.free)) hc

theorem frees_reverse : frees acc.reverse = (frees acc).reverse := by
  simp only [frees, List.filter_reverse, List.map_reverse]

/-- **`coalesce`** joins the free chunks that are neighbours and links the free chunks in the order of
their addresses. -/
theorem coalesce_spec (hl : Loose h cs ml) (hfree : ∃ c ∈ cs, c.free = true)
    (hfuel : cs.length ≤ fuel) : ∃ m p,
      coalesce fuel h = .ok { h with mem := m, freeList := p } ∧
      Shape { h with mem := m, freeList := p } (joined cs) (frees (joined cs)) ml ∧
      ∀ i, (∀ d ∈ cs, i < d.addr ∨ d.addr + 24 ≤ i) → m i = h.mem i := by
  obtain ⟨m, p, w, hloop, hw, hframe⟩ := hl.walking.loop hfuel
  obtain ⟨acc, hacc⟩ : ∃ acc, acc = cs.foldl (absorb Chunk.free Chunk.joined) [] := ⟨_, rfl⟩
  have hjoined : joined cs = acc.reverse := by
    rw [hacc]
    rfl
  rw [← hacc] at hw
  -- there is a last free chunk
  obtain ⟨x, xs, hx⟩ : ∃ x xs, frees acc = x :: xs := by
    have hstart : ∃ c ∈ [] ++ cs, c.free = true := hfree
    obtain ⟨c, hc, hcf⟩ := exists_mem_foldl_absorb (p := Chunk.free)
      (fun x y : Chunk => (rfl : (x.joined y).free = x.free)) hstart
    rw [← hacc] at hc
    exact List.exists_cons_of_ne_nil (List.ne_nil_of_mem (mem_frees.2 ⟨c, hc, rfl, hcf⟩))
  have hxf : x ∈ frees acc := by simp [hx]
  have hxA : x ∈ (acc.reverse ++ []).map Chunk.addr := frees_subset x hxf
  obtain ⟨m', hm', hs', hframe'⟩ := hw.sees.setNext hxA (q := none) (by simp)
  have hcoal : coalesce fuel h = .ok { h with mem := m', freeList := p } := by
    unfold coalesce
    rw [hloop, ok_bind, hw.prev, hx, if_pos (by simp), List.head?_cons]
    exact hm'
  have hheader : ∀ d ∈ acc, header m' d.addr = { header m d.addr with
      next := if d.addr = x then none else (header m d.addr).next } := by
    intro d hd
    rw [hs'.header _ (by simpa using ⟨d, hd, rfl⟩)]
    by_cases hdx : d.addr = x
    · simp [hdx]
    · simp [hdx]
  have hfl : frees (joined cs) = xs.reverse ++ [x] := by
    rw [hjoined, frees_reverse, hx, List.reverse_cons]
  have hmem : ∀ a ∈ xs.reverse ++ [x], ∃ d ∈ acc, d.addr = a ∧ d.free = true := by
    intro a ha
    rw [← hfl, hjoined, frees_reverse, List.mem_reverse] at ha
    exact mem_frees.1 ha
  have hne : ∀ d ∈ acc, d.free = true → ∀ a ∈ ml, a ≠ d.addr := fun d hd =>
    hw.used_ne (by simpa using hd)
  have hused : ∀ a ∈ ml, header m' a = header m a := by
    intro a ha
    obtain ⟨d, hd, hdx, hdf⟩ := mem_frees.1 hxf
    have hax : a ≠ x := hdx ▸ hne d hd hdf a ha
    rw [hs'.header a (hw.used_mem a ha), Function.update_of_ne hax]
  have hfree : Linked (fun a => (header m' a).next) (fun a => (header m' a).prev) none
      (xs.reverse ++ [x]) p := by
    have hchained := hw.chained
    unfold Chained at hchained
    rw [hx] at hchained
    refine hchained.congr (fun a ha => ?_) fun a ha => ?_
    · obtain ⟨d, hd, rfl, -⟩ := hmem a ha
      rw [hheader d hd]
    · obtain ⟨d, hd, rfl, -⟩ := hmem a ha
      rw [hheader d hd]
  have hlists : Lists (header m') { h with mem := m', freeList := p } (frees (joined cs)) ml := by
    refine ⟨?_, hw.used.congr (fun a ha => by rw [hused a ha]) fun a ha => by rw [hused a ha], ?_⟩
    · rw [hfl]
      exact hfree
    · intro a ha ham
      rw [hfl] at ha
      obtain ⟨d, hd, rfl, hdf⟩ := hmem a ha
      exact hne d hd hdf _ ham rfl
  refine ⟨m', p, hcoal, ⟨⟨hw.region.pos, hw.region.aligned, hw.region.top, hw.region.total,
    hw.region.int, hw.region.begin, hw.region.initialized⟩, ?_, ?_, ?_, ?_, ?_, hlists, ?_, ?_⟩, ?_⟩
  · rw [hjoined]
    exact hw.done
  · intro d hd
    rw [hjoined, List.mem_reverse] at hd
    have hsize := hw.size d (by simpa using hd)
    simp only [hheader d hd]
    exact hsize
  · intro d hd
    rw [hjoined, List.mem_reverse] at hd
    have hflag := hw.flag d (by simpa using hd)
    simp only [hheader d hd]
    exact hflag
  · intro d hd
    rw [hjoined, List.mem_reverse] at hd
    exact hw.aligned d (by simpa using hd)
  · rw [hjoined, List.isChain_reverse]
    exact hw.merged.imp fun d e hde => by
      rw [Chunk.Separate, and_comm]
      exact hde
  · intro a
    rw [mem_frees]
  · intro a
    rw [hw.mem_used, hjoined, List.append_nil]
  · intro i hi
    refine (hframe' i (outside rfl fun d hd => ?_)).trans (hframe i hi)
    rw [List.append_nil, ← hjoined] at hd
    obtain ⟨e, he, hed⟩ := addr_joined d hd
    rw [← hed]
    exact hi e he

end Mem

end OperatingSystems

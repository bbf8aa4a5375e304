import OperatingSystems.Umalloc.Malloc

/-!
# The blocks of a program

The blocks that `malloc` has returned and that have not been freed, and the free blocks, cover each unit
of the heap once.  A program that writes only to its blocks, behind their headers, does not disturb the
free list.

* `Accounts base start h bs` : the blocks `bs` are in use, in a heap that begins at `start`.
* `Accounts.malloc`, `Accounts.free`, `Accounts.store` : **they stay so**, and the blocks in use are not
  written to by the allocator.
-/

namespace OperatingSystems

namespace Umalloc

open Links Cover

variable {base start u n x nbytes : ℕ} {h h' : Heap} {fs bs bs' : List Block} {b : Block}
  {v : Header}

/-! ### The variable `base` -/

theorem init_of_ne (base : ℕ) (hne : h.freep ≠ 0) : h.init base = h := if_neg hne

theorem init_brk (base : ℕ) (h : Heap) : (h.init base).brk = h.brk := by
  unfold Heap.init
  split_ifs <;> rfl

theorem init_mem_of_ne (hne : x ≠ base) : (h.init base).mem x = h.mem x := by
  unfold Heap.init
  split_ifs
  · exact Function.update_of_ne hne _ _
  · rfl

theorem FreeList.freep_ne_zero (hf : FreeList base h fs) (hbase : 0 < base) : h.freep ≠ 0 := by
  rcases List.mem_cons.1 hf.freep with heq | hmem
  · omega
  · obtain ⟨f, hfs, heq⟩ := List.mem_map.1 hmem
    have := (hf.ordered.mem hfs).1
    omega

/-- The list depends on its own headers only. -/
theorem FreeList.congr (hf : FreeList base h fs) (hfreep : h'.freep = h.freep) (hbrk : h'.brk = h.brk)
    (hmem : ∀ x, x = base ∨ 0 < cover fs x → h'.mem x = h.mem x) : FreeList base h' fs := by
  have hhead : ∀ f ∈ fs, h'.mem f.1 = h.mem f.1 := fun f hfs =>
    hmem f.1 (Or.inr (cover_pos_iff.2 ⟨f, hfs, le_rfl, by
      have := (hf.ordered.mem hfs).2.1
      omega⟩))
  refine ⟨hf.ring.congr fun x hx => ?_, ?_, fun f hfs => ?_, ?_, ?_, ?_⟩
  · rcases List.mem_cons.1 hx with rfl | hx
    · rw [hmem x (Or.inl rfl)]
    · obtain ⟨f, hfs, rfl⟩ := List.mem_map.1 hx
      rw [hhead f hfs]
  · rw [hmem base (Or.inl rfl)]
    exact hf.base_size
  · rw [hhead f hfs]
    exact hf.size f hfs
  · rw [hbrk]
    exact hf.ordered
  · rw [hfreep]
    exact hf.freep
  · rw [hbrk]
    exact hf.brk_le

/-- Before the first call. -/
theorem freeList_init (hbase : base < h.brk) (htop : h.brk * UNIT ≤ USERTOP) (hfreep : h.freep = 0) :
    FreeList base (h.init base) [] := by
  unfold Heap.init
  rw [if_pos hfreep]
  refine ⟨?_, ?_, nofun, hbase, List.mem_cons_self, htop⟩ <;> simp [Round, Seg]

/-! ### The accounts -/

/-- The blocks `bs` are in use: together with the free ones they cover the heap, which begins at `start`,
and their headers are what `malloc` made of them. -/
structure Accounts (base start : ℕ) (h : Heap) (bs : List Block) : Prop where
  list : ∃ fs, FreeList base (h.init base) fs ∧
    ∀ x, cover fs x + cover bs x = ind (start, h.brk - start) x
  started : bs ≠ [] → h.freep ≠ 0
  pos : ∀ b ∈ bs, 0 < b.2
  size : ∀ b ∈ bs, (h.mem b.1).size = b.2
  base_pos : 0 < base
  base_lt : base < start
  start_le : start ≤ h.brk

namespace Accounts

theorem perm (ha : Accounts base start h bs) (hp : bs.Perm bs') : Accounts base start h bs' := by
  obtain ⟨fs, hf, hcov⟩ := ha.list
  have hcover : ∀ x, cover bs' x = cover bs x := fun x =>
    ((hp.symm.map fun b => ind b x).sum_eq : _)
  exact ⟨⟨fs, hf, fun x => hcover x ▸ hcov x⟩,
    fun hne => ha.started fun hnil => hne (List.perm_nil.1 (hnil ▸ hp.symm)),
    fun b hb => ha.pos b (hp.mem_iff.2 hb), fun b hb => ha.size b (hp.mem_iff.2 hb), ha.base_pos,
    ha.base_lt, ha.start_le⟩

theorem cover_le (ha : Accounts base start h bs) (x : ℕ) : cover bs x ≤ 1 := by
  obtain ⟨fs, -, hcov⟩ := ha.list
  have := hcov x
  unfold ind at this
  split_ifs at this <;> omega

/-- A unit of a block in use is in the heap. -/
theorem mem_heap (ha : Accounts base start h bs) (hx : 0 < cover bs x) : start ≤ x ∧ x < h.brk := by
  obtain ⟨fs, -, hcov⟩ := ha.list
  have hind : 0 < ind (start, h.brk - start) x := by
    have := hcov x
    omega
  have := ind_pos_iff.1 hind
  dsimp only at this
  omega

/-- A block in use lies in the heap. -/
theorem block_le (ha : Accounts base start h bs) (hb : b ∈ bs) :
    start ≤ b.1 ∧ b.1 + b.2 ≤ h.brk := by
  have hpos := ha.pos b hb
  have hfirst := ha.mem_heap (cover_pos_iff.2 ⟨b, hb, le_rfl, by omega⟩)
  have hlast := ha.mem_heap (x := b.1 + b.2 - 1) (cover_pos_iff.2 ⟨b, hb, by omega, by omega⟩)
  omega

/-- The header of a block in use can be told from the pointer to it. -/
theorem headerOf_payload (ha : Accounts base start h bs) (hb : b ∈ bs) :
    headerOf (payload b.1) = b.1 := by
  obtain ⟨fs, hf, -⟩ := ha.list
  have hbrk := hf.brk_lt
  rw [init_brk] at hbrk
  have := ha.block_le hb
  exact Umalloc.headerOf_payload (by omega)

/-- Two blocks in use have no unit in common. -/
theorem eq_of_mem {c : Block} (ha : Accounts base start h bs) (hb : b ∈ bs) (hc : c ∈ bs)
    (hx : b.1 ≤ x ∧ x < b.1 + b.2) (hx' : c.1 ≤ x ∧ x < c.1 + c.2) : b = c := by
  by_contra hne
  have hmem : c ∈ bs.erase b := (List.mem_erase_of_ne (Ne.symm hne)).2 hc
  have := cover_erase hb x
  have := ind_le_cover hmem x
  have := ha.cover_le x
  rw [ind_of_mem hx] at *
  rw [ind_of_mem hx'] at *
  omega

/-- No block is listed twice. -/
theorem nodup (ha : Accounts base start h bs) : bs.Nodup := by
  rw [List.nodup_iff_count_le_one]
  intro b
  by_contra! hcount
  have hmem : b ∈ bs := List.count_pos_iff.1 (by omega)
  have hrest : b ∈ bs.erase b := by
    rw [← List.count_pos_iff, List.count_erase_self]
    omega
  have := cover_erase hmem b.1
  have := ind_le_cover hrest b.1
  have := ha.cover_le b.1
  have := ha.pos b hmem
  rw [ind_of_mem ⟨le_rfl, by omega⟩] at *
  omega

/-- Before the first call. -/
theorem init (hbase : 0 < base) (hlt : base < h.brk) (htop : h.brk * UNIT ≤ USERTOP)
    (hfreep : h.freep = 0) : Accounts base h.brk h [] := by
  refine ⟨⟨[], freeList_init hlt htop hfreep, fun x => ?_⟩, fun h => absurd rfl h, nofun, nofun,
    hbase, hlt, le_rfl⟩
  rw [Nat.sub_self, ind_of_notMem (by dsimp only; omega)]
  rfl

/-- **`malloc`** adds a block to those in use, if there is room. -/
theorem malloc (ha : Accounts base start h bs) (mem : Bool) (hn : unitsFor nbytes * UNIT < 2 ^ 31) :
    ∃ r h', Umalloc.malloc base mem nbytes h = some (r, h') ∧
      (∀ x, 0 < cover bs x → h'.mem x = h.mem x) ∧
      (¬ Room mem (unitsFor nbytes) (h.init base) ∧ r = 0 ∧ Accounts base start h' bs ∨
        Room mem (unitsFor nbytes) (h.init base) ∧ ∃ u, r = payload u ∧
          Accounts base start h' ((u, unitsFor nbytes) :: bs)) := by
  obtain ⟨fs, hf, hcov⟩ := ha.list
  obtain ⟨r, h', fs', hmalloc, hm⟩ := malloc_spec mem hf hn
  have hfreep := hm.list.freep_ne_zero ha.base_pos
  have hbrk := hm.brk
  have hstart := ha.start_le
  -- what is in use is not in the free list, which is all that `malloc` writes
  have hframe : ∀ x, 0 < cover bs x → h'.mem x = h.mem x := fun x hx => by
    have hin := ha.mem_heap hx
    have hbase := ha.base_lt
    have hfree : cover fs x = 0 := by
      have hsum := hcov x
      unfold ind at hsum
      split_ifs at hsum <;> omega
    rw [hm.frame x (by omega) (by rw [init_brk]; exact hin.2) hfree, init_mem_of_ne (by omega)]
  have hsize : ∀ b ∈ bs, (h'.mem b.1).size = b.2 := fun b hb => by
    have := ha.pos b hb
    rw [hframe b.1 (cover_pos_iff.2 ⟨b, hb, le_rfl, by omega⟩)]
    exact ha.size b hb
  rw [init_brk] at hbrk
  have hlist := (init_of_ne base hfreep).symm ▸ hm.list
  refine ⟨r, h', hmalloc, hframe, hm.result.imp ?_ ?_⟩
  · rintro ⟨hroom, rfl, rfl, rfl⟩
    refine ⟨hroom, rfl, ⟨fs', hlist, fun x => ?_⟩, fun _ => hfreep, ha.pos, hsize, ha.base_pos,
      ha.base_lt, by omega⟩
    rw [init_brk]
    exact hcov x
  · rintro ⟨hroom, u, rfl, hnew, hcov'⟩
    refine ⟨hroom, u, rfl, ⟨fs', hlist, fun x => ?_⟩, fun _ => hfreep,
      List.forall_mem_cons.2 ⟨Nat.succ_pos _, ha.pos⟩, List.forall_mem_cons.2 ⟨hnew, hsize⟩,
      ha.base_pos, ha.base_lt, by omega⟩
    obtain ⟨k, hk⟩ : ∃ k, h'.brk = h.brk + k := ⟨h'.brk - h.brk, by omega⟩
    have hold := hcov x
    have hnew := hcov' x
    rw [init_brk, hk, Nat.add_sub_cancel_left] at hnew
    rw [hk, Nat.sub_add_comm hstart, ind_add, Nat.add_sub_cancel' hstart, cover_cons]
    omega

/-- **`free`** of a block in use. -/
theorem free (ha : Accounts base start h (b :: bs)) :
    ∃ h', Umalloc.free (payload b.1) h = some h' ∧ (∀ x, 0 < cover bs x → h'.mem x = h.mem x) ∧
      Accounts base start h' bs := by
  obtain ⟨fs, hf, hcov⟩ := ha.list
  rw [init_of_ne base (ha.started (List.cons_ne_nil _ _))] at hf
  have hle := ha.block_le List.mem_cons_self
  have hbase := ha.base_lt
  -- a unit is either in use or free, and only once
  have hb : Outside base h fs (b.1, b.2) :=
    ⟨by dsimp only; omega, ha.pos b List.mem_cons_self, hle.2, ha.size b List.mem_cons_self,
      fun x => by
        have hsum := hcov x
        rw [cover_cons] at hsum
        unfold ind at *
        split_ifs at * <;> dsimp only at * <;> omega⟩
  obtain ⟨h', fs', hfree, hfreed⟩ := free_spec hf hb
  have hframe : ∀ x, 0 < cover bs x → h'.mem x = h.mem x := fun x hx => by
    have hin := ha.mem_heap (x := x) (by rw [cover_cons]; omega)
    have hsum := hcov x
    have hnew := hfreed.cover x
    rw [cover_cons] at hsum
    refine hfreed.mem x (by omega) ?_
    unfold ind at *
    split_ifs at * <;> dsimp only at * <;> omega
  have hfreep := hfreed.list.freep_ne_zero ha.base_pos
  refine ⟨h', hfree, hframe,
    ⟨fs', (init_of_ne base hfreep).symm ▸ hfreed.list, fun x => ?_⟩, fun _ => hfreep,
    fun c hc => ha.pos c (List.mem_cons_of_mem b hc), fun c hc => ?_, ha.base_pos, ha.base_lt,
    hfreed.brk.symm ▸ ha.start_le⟩
  · have hsum := hcov x
    rw [cover_cons] at hsum
    rw [hfreed.cover, hfreed.brk]
    exact (Nat.add_assoc _ _ _).trans hsum
  · have := ha.pos c (List.mem_cons_of_mem b hc)
    rw [hframe c.1 (cover_pos_iff.2 ⟨c, hc, le_rfl, by omega⟩)]
    exact ha.size c (List.mem_cons_of_mem b hc)

/-- **A write** to a block in use, behind its header. -/
theorem store (ha : Accounts base start h bs) (hb : b ∈ bs) (hu : b.1 < u ∧ u < b.1 + b.2) :
    Accounts base start { h with mem := Function.update h.mem u v } bs := by
  obtain ⟨fs, hf, hcov⟩ := ha.list
  have hfreep := ha.started (List.ne_nil_of_mem hb)
  have hpos : 0 < cover bs u := cover_pos_iff.2 ⟨b, hb, hu.1.le, hu.2⟩
  have hin := ha.mem_heap hpos
  have hbase := ha.base_lt
  rw [init_of_ne base hfreep] at hf
  refine ⟨⟨fs, ?_, hcov⟩, fun _ => hfreep, ha.pos, fun c hc => ?_, ha.base_pos, hbase, ha.start_le⟩
  · rw [init_of_ne base (show ({ h with mem := Function.update h.mem u v } : Heap).freep ≠ 0 from hfreep)]
    refine hf.congr rfl rfl fun x hx => Function.update_of_ne ?_ _ _
    rintro rfl
    have hsum := hcov x
    unfold ind at hsum
    split_ifs at hsum <;> omega
  · have hcpos := ha.pos c hc
    have hne : c.1 ≠ u := by
      rintro rfl
      have := ha.eq_of_mem hb hc ⟨hu.1.le, hu.2⟩ ⟨le_rfl, by omega⟩
      subst this
      omega
    simp only [Function.update_of_ne hne]
    exact ha.size c hc

end Accounts

end Umalloc

end OperatingSystems

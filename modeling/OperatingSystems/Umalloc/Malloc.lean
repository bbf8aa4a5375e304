import OperatingSystems.Umalloc.FreeList

/-!
# The search for a block

`malloc` goes once around the free list.  If no block is large enough it takes more memory from the
kernel, all of which becomes one free block or a part of one, and goes around again; then there is one.

* `sbrk_spec`, `morecore_spec` : more memory, or a failure that changes nothing.
* `mallocLoop_seg`, `FreeList.search` : the first time around.
* `Found.take_spec` : a block, or the end of one, is taken out of the free list.
* `Room` : whether there is room for a block.
* `malloc_spec` : **`malloc` returns**: a block from the free storage, or `0` if there is none.
-/

namespace OperatingSystems

namespace Umalloc

open Links Cover

variable {base u n p q k nunits nbytes : ℕ} {h : Heap} {fs A B : List Block}

theorem headerOf_payload (h : u < 2 ^ 29 - 1) : headerOf (payload u) = u := by
  simp only [headerOf, payload, UNIT]
  omega

theorem payload_inj {v : ℕ} (h : payload u = payload v) : u = v := by
  simp only [payload, UNIT] at h
  omega

theorem payload_ne_zero (u : ℕ) : payload u ≠ 0 := by
  simp only [payload, UNIT]
  omega

/-- `free` of a pointer that `malloc` may have returned. -/
theorem free_spec (hf : FreeList base h fs) (hb : Outside base h fs (u, n)) :
    ∃ h' fs', free (payload u) h = some h' ∧ Freed base h fs (u, n) h' fs' := by
  have hlt := hb.le_brk
  have hbrk := hf.brk_lt
  dsimp only at hlt
  rw [free, headerOf_payload (by omega)]
  exact freeHeader_spec hf hb

/-! ### More memory -/

theorem toInt_of_lt (h : n < 2 ^ 31) : toInt n = n := by
  have hmod : n % 2 ^ 32 = n := Nat.mod_eq_of_lt (by omega)
  rw [toInt, hmod, if_pos h]

theorem sbrk_spec (mem : Bool) (hbrk : h.brk * UNIT ≤ USERTOP) (hpos : 0 < n) (hn : n * UNIT < 2 ^ 31) :
    sbrk mem (toInt (n * UNIT)) h =
      if mem = true ∧ (h.brk + n) * UNIT ≤ USERTOP then some (h.brk, { h with brk := h.brk + n })
      else none := by
  have hnewsz : (((h.brk * UNIT : ℕ) + ((n * UNIT : ℕ) : ℤ)) % 2 ^ 32).toNat =
      (h.brk + n) * UNIT := by
    simp only [UNIT, USERTOP] at *
    omega
  have hdiv : (h.brk + n) * UNIT / UNIT = h.brk + n := Nat.mul_div_cancel _ (by decide)
  have hgrow : ¬ (h.brk + n) * UNIT < h.brk * UNIT := by
    simp only [UNIT]
    omega
  have hup : ((n * UNIT : ℕ) : ℤ) > 0 := by
    simp only [UNIT]
    omega
  rw [toInt_of_lt hn]
  unfold sbrk
  simp only [hnewsz, hdiv, if_pos hup, if_neg hgrow]
  by_cases htop : (h.brk + n) * UNIT ≤ USERTOP
  · simp only [if_neg (not_lt.2 htop), htop, and_true]
  · simp only [if_pos (not_le.1 htop), htop, and_false, if_false]

/-- The heap has grown by `k` units, which are free now. -/
structure Grown (base : ℕ) (h : Heap) (fs : List Block) (k : ℕ) (h' : Heap) (fs' : List Block) :
    Prop where
  list : FreeList base h' fs'
  cover : ∀ x, cover fs' x = cover fs x + ind (h.brk, k) x
  brk : h'.brk = h.brk + k
  mem : ∀ x, x ≠ base → x < h.brk → Cover.cover fs x = 0 → h'.mem x = h.mem x
  large : ∃ f ∈ fs', k ≤ f.2

/-- The block at the old end of the heap. -/
theorem FreeList.grow (hf : FreeList base h fs) (hk : 0 < k) (htop : (h.brk + k) * UNIT ≤ USERTOP) :
    ∃ h' fs', free (payload h.brk) { h with
        brk := h.brk + k, mem := Function.update h.mem h.brk { h.mem h.brk with size := k } } =
      some h' ∧ Grown base h fs k h' fs' := by
  set h₁ : Heap := { h with
    brk := h.brk + k, mem := Function.update h.mem h.brk { h.mem h.brk with size := k } } with hh₁
  have hptr : ∀ x, (h₁.mem x).ptr = (h.mem x).ptr := fun x => by
    by_cases hx : x = h.brk
    · rw [hx, hh₁]
      simp only [Function.update_self]
    · rw [hh₁]
      simp only [Function.update_of_ne hx]
  have hsame : ∀ x, x < h.brk → h₁.mem x = h.mem x := fun x hx => Function.update_of_ne hx.ne _ _
  have hbase : base < h.brk := hf.ordered.le
  have hf₁ : FreeList base h₁ fs := by
    refine ⟨hf.ring.congr fun x _ => hptr x, ?_, fun f hmem => ?_,
      hf.ordered.mono le_rfl (Nat.le_add_right _ _), hf.freep, htop⟩
    · rw [hsame base hbase]
      exact hf.base_size
    · have := hf.ordered.mem hmem
      rw [hsame f.1 (by omega)]
      exact hf.size f hmem
  have hb : Outside base h₁ fs (h.brk, k) := by
    refine ⟨hbase, hk, le_rfl, ?_, fun x => ?_⟩
    · rw [hh₁]
      simp only [Function.update_self]
    · have hle := hf.ordered.cover_le x
      unfold ind at *
      split_ifs at * <;> dsimp only at * <;> omega
  obtain ⟨h', fs', hfree, hfreed⟩ := free_spec hf₁ hb
  refine ⟨h', fs', hfree, hfreed.list, hfreed.cover, hfreed.brk, fun x hxb hx hcov => ?_,
    hfreed.large⟩
  have hind : ind (h.brk, k) x = 0 := ind_of_notMem (by dsimp only; omega)
  rw [hfreed.mem x hxb (by rw [hfreed.cover, hcov, hind]), hsame x hx]

/-- The kernel gives a program the memory for `n` units, of which there are at least 4096. -/
def Fits (mem : Bool) (n : ℕ) (h : Heap) : Prop :=
  mem = true ∧ (h.brk + max n 4096) * UNIT ≤ USERTOP

theorem morecore_spec (mem : Bool) (hf : FreeList base h fs) (hn : n * UNIT < 2 ^ 31) :
    ¬ Fits mem n h ∧ morecore mem n h = some none ∨
      Fits mem n h ∧ ∃ k h' fs', morecore mem n h = some (some h') ∧ n ≤ k ∧
        Grown base h fs k h' fs' := by
  have hmax : (if n < 4096 then 4096 else n) = max n 4096 := by
    split_ifs <;> omega
  have hle : 0 < max n 4096 ∧ max n 4096 * UNIT < 2 ^ 31 := by
    simp only [UNIT] at *
    omega
  have hsbrk := sbrk_spec mem hf.brk_le hle.1 hle.2
  unfold morecore
  simp only [hmax]
  by_cases hfit : Fits mem n h
  · right
    obtain ⟨h', fs', hfree, hgrown⟩ := hf.grow hle.1 hfit.2
    refine ⟨hfit, max n 4096, h', fs', ?_, le_max_left _ _, hgrown⟩
    rw [hsbrk, if_pos (show mem = true ∧ (h.brk + max n 4096) * UNIT ≤ USERTOP from hfit)]
    exact congrArg (Option.map some) hfree
  · left
    refine ⟨hfit, ?_⟩
    rw [hsbrk, if_neg (show ¬ (mem = true ∧ (h.brk + max n 4096) * UNIT ≤ USERTOP) from hfit)]

/-! ### Once around the list -/

/-- The second time around, after `morecore`. -/
def refill (mem : Bool) (nunits n : ℕ) (h : Heap) : Option (ℕ × Heap) :=
  match morecore mem nunits h with
  | none => none
  | some none => some (0, h)
  | some (some h) => mallocLoop mem nunits n h.freep (h.mem h.freep).ptr h

theorem mallocLoop_succ (mem : Bool) (nunits n q p : ℕ) (h : Heap) :
    mallocLoop mem nunits (n + 1) q p h =
      if (h.mem p).size ≥ nunits then some (take nunits q p h)
      else if p = h.freep then refill mem nunits n h
      else mallocLoop mem nunits n p (h.mem p).ptr h := rfl

/-- The loop up to `freep`: a block that is large enough, with the one before it, or none. -/
theorem mallocLoop_seg (mem : Bool) (nunits : ℕ) {l : List ℕ} (hseg : Seg (fun x => (h.mem x).ptr) p l h.freep)
    (hnot : h.freep ∉ l) (hq : (h.mem q).ptr = p) (n : ℕ) :
    (∃ r ∈ q :: l, (h.mem r).ptr ∈ l ++ [h.freep] ∧ nunits ≤ (h.mem (h.mem r).ptr).size ∧
      mallocLoop mem nunits (l.length + 1 + n) q p h = some (take nunits r (h.mem r).ptr h)) ∨
    ((∀ x ∈ l ++ [h.freep], (h.mem x).size < nunits) ∧
      mallocLoop mem nunits (l.length + 1 + n) q p h = refill mem nunits n h) := by
  induction l generalizing q p with
  | nil =>
    obtain rfl : p = h.freep := hseg
    rw [List.length_nil, Nat.zero_add, Nat.add_comm, mallocLoop_succ]
    by_cases hlarge : (h.mem h.freep).size ≥ nunits
    · left
      exact ⟨q, List.mem_cons_self, by simp [hq], hq ▸ hlarge, by rw [if_pos hlarge, hq]⟩
    · right
      rw [if_neg hlarge, if_pos rfl]
      exact ⟨by simpa using hlarge, rfl⟩
  | cons x l ih =>
    obtain ⟨rfl, hrest⟩ := hseg
    obtain ⟨hne, hnotl⟩ := not_or.1 (mt List.mem_cons.2 hnot)
    rw [List.length_cons, Nat.add_right_comm _ 1 n, mallocLoop_succ]
    by_cases hlarge : (h.mem p).size ≥ nunits
    · left
      exact ⟨q, List.mem_cons_self, by simp [hq], hq ▸ hlarge, by rw [if_pos hlarge, hq]⟩
    · rw [if_neg hlarge, if_neg (Ne.symm hne)]
      rcases ih hrest hnotl rfl with ⟨r, hr, hnext, hsize, heq⟩ | ⟨hsmall, heq⟩
      · left
        exact ⟨r, List.mem_cons_of_mem q hr, List.mem_cons_of_mem p hnext, hsize, heq⟩
      · right
        exact ⟨List.forall_mem_cons.2 ⟨not_le.1 hlarge, hsmall⟩, heq⟩

/-- A block of at least `nunits` units: `(x, k)`, between `A` and `B`, behind the header `p`. -/
structure Found (base : ℕ) (h : Heap) (fs : List Block) (nunits : ℕ) (A B : List Block)
    (p x k : ℕ) : Prop where
  list : FreeList base h fs
  eq : fs = A ++ (x, k) :: B
  last : (base :: A.map Prod.fst).getLast? = some p
  le : nunits ≤ k

/-- **The first time around**: a block that is large enough, or none. -/
theorem FreeList.search (hf : FreeList base h fs) (mem : Bool) (hpos : 0 < nunits) (n : ℕ) :
    (∃ A B p x k, Found base h fs nunits A B p x k ∧
      mallocLoop mem nunits (fs.length + 1 + n) h.freep (h.mem h.freep).ptr h =
        some (take nunits p x h)) ∨
    ((∀ f ∈ fs, f.2 < nunits) ∧
      mallocLoop mem nunits (fs.length + 1 + n) h.freep (h.mem h.freep).ptr h =
        refill mem nunits n h) := by
  obtain ⟨l, hring, hperm⟩ := hf.ring.exists_rotate hf.freep
  have hlength : l.length = fs.length := by
    have := hperm.length_eq
    simp only [List.length_cons, List.length_map] at this
    omega
  have hnot : h.freep ∉ l := (List.nodup_cons.1 (hperm.nodup_iff.2 hf.nodup)).1
  have hmem : ∀ x, x ∈ l ++ [h.freep] ↔ x ∈ base :: fs.map Prod.fst := fun x => by
    rw [(List.perm_append_singleton h.freep l).mem_iff, hperm.mem_iff]
  rcases mallocLoop_seg mem nunits hring hnot rfl n with
    ⟨r, hr, hnext, hlarge, heq⟩ | ⟨hsmall, heq⟩
  · left
    rw [hlength] at heq
    have hr := hperm.mem_iff.1 hr
    have hnext := (hmem _).1 hnext
    rcases List.mem_cons.1 hnext with hbase | hnext
    · -- `base` is never large enough
      rw [hbase, hf.base_size] at hlarge
      omega
    obtain ⟨⟨x, k⟩, hx, hrx⟩ := List.mem_map.1 hnext
    have hk : (h.mem x).size = k := hf.size (x, k) hx
    obtain ⟨A, B, rfl⟩ := List.append_of_mem hx
    obtain ⟨p, hp⟩ : ∃ p, (base :: A.map Prod.fst).getLast? = some p :=
      ⟨_, List.getLast?_eq_some_getLast (List.cons_ne_nil _ _)⟩
    have hpx : (h.mem p).ptr = x := (hf.seg hp).1
    have hpm : p ∈ base :: (A ++ (x, k) :: B).map Prod.fst := by
      rw [List.map_append, ← List.cons_append]
      exact List.mem_append_left _ (List.mem_of_getLast? hp)
    obtain rfl : r = p := hf.ring.injOn hf.nodup hr hpm (hrx.symm.trans hpx.symm)
    dsimp only at hrx
    rw [← hrx, hk] at hlarge
    exact ⟨A, B, r, x, k, ⟨hf, rfl, hp, hlarge⟩, by rw [heq, hrx]⟩
  · right
    rw [hlength] at heq
    refine ⟨fun f hfs => ?_, heq⟩
    have hfmem := List.mem_cons_of_mem base (List.mem_map_of_mem (f := Prod.fst) hfs)
    have := hsmall f.1 ((hmem _).2 hfmem)
    rwa [hf.size f hfs] at this

/-! ### Taking a block -/

/-- The units `(u, nunits)` have been taken out of the free storage. -/
structure Taken (base : ℕ) (h : Heap) (fs : List Block) (u nunits : ℕ) (h' : Heap)
    (fs' : List Block) : Prop where
  list : FreeList base h' fs'
  cover : ∀ x, cover fs' x + ind (u, nunits) x = cover fs x
  brk : h'.brk = h.brk
  mem : ∀ x, x ≠ base → Cover.cover fs x = 0 → h'.mem x = h.mem x
  size : (h'.mem u).size = nunits

namespace Found

variable {x : ℕ}

theorem cover_pred_pos (hx : Found base h fs nunits A B p x k) (hp : p ≠ base) : 0 < cover fs p := by
  have hmem := List.mem_of_getLast? hx.last
  obtain ⟨f, hf, rfl⟩ := List.mem_map.1 ((List.mem_cons.1 hmem).resolve_left hp)
  have hfs : f ∈ fs := hx.eq ▸ List.mem_append_left _ hf
  have := (hx.list.ordered.mem hfs).2.1
  exact cover_pos_iff.2 ⟨f, hfs, le_rfl, by omega⟩

theorem pred_mem (hx : Found base h fs nunits A B p x k) : p ∈ base :: A.map Prod.fst :=
  List.mem_of_getLast? hx.last

/-- The whole block is taken. -/
theorem taken_whole (hx : Found base h fs nunits A B p x nunits) :
    Taken base h fs x nunits { h with
      mem := Function.update h.mem p { h.mem p with ptr := (h.mem x).ptr }, freep := p }
      (A ++ B) := by
  have hcov := hx.cover_pred_pos
  obtain rfl := hx.eq
  have hf := hx.list
  have hpx : (h.mem p).ptr = x := (hf.seg hx.last).1
  set h' : Heap := { h with
    mem := Function.update h.mem p { h.mem p with ptr := (h.mem x).ptr }, freep := p } with hh'
  have hself : h'.mem p = { h.mem p with ptr := (h.mem x).ptr } := Function.update_self ..
  have hsame : ∀ y, y ≠ p → h'.mem y = h.mem y := fun y hy => Function.update_of_ne hy _ _
  have hsize : ∀ y, (h'.mem y).size = (h.mem y).size := fun y => by
    by_cases hy : y = p
    · rw [hy, hself]
    · rw [hsame y hy]
  have hnodup := hf.nodup
  rw [List.map_append, ← List.cons_append, List.nodup_append'] at hnodup
  refine ⟨⟨?_, ?_, fun f hfm => ?_, hf.ordered.remove, ?_, hf.brk_le⟩, fun y => ?_, rfl,
    fun y hyb hy => ?_, ?_⟩
  · have hring := hf.ring
    rw [List.map_append, List.map_cons] at hring
    rw [List.map_append]
    have hold : Seg (fun p => (h.mem p).ptr) (h.mem p).ptr [x] (h.mem x).ptr := ⟨hpx, rfl⟩
    have hnew : Seg (fun p => (h'.mem p).ptr) (h'.mem p).ptr [] (h.mem x).ptr := by
      rw [hself]
      rfl
    refine Round.splice hring hx.last hnodup.1 hold hnew (fun y _ hy => by rw [hsame y hy])
      fun y hy => ?_
    rw [hsame]
    rintro rfl
    exact hnodup.2.2 hx.pred_mem (List.mem_cons_of_mem _ hy)
  · rw [hsize]
    exact hf.base_size
  · rw [hsize]
    refine hf.size f ?_
    rcases List.mem_append.1 hfm with hfm | hfm
    · exact List.mem_append_left _ hfm
    · exact List.mem_append_right _ (List.mem_cons_of_mem _ hfm)
  · rw [List.map_append, ← List.cons_append]
    exact List.mem_append_left _ hx.pred_mem
  · simp only [cover_append, cover_cons]
    omega
  · refine hsame y ?_
    rintro rfl
    have := hcov hyb
    omega
  · rw [hsize]
    exact hf.size (x, nunits) (by simp)

/-- The end of the block is taken. -/
theorem taken_tail (hx : Found base h fs nunits A B p x k) (hpos : 0 < nunits) (hlt : nunits < k)
    {mem : ℕ → Header} (hmem : mem = Function.update h.mem x { h.mem x with size := k - nunits }) :
    Taken base h fs (x + (k - nunits)) nunits { h with
      mem := Function.update mem (x + (k - nunits))
        { mem (x + (k - nunits)) with size := nunits }, freep := p }
      (A ++ (x, k - nunits) :: B) := by
  obtain rfl := hx.eq
  have hf := hx.list
  obtain ⟨n, rfl⟩ : ∃ n, k = n + nunits := ⟨k - nunits, by omega⟩
  rw [Nat.add_sub_cancel] at *
  have hn : 0 < n := by omega
  set h' : Heap := { h with
    mem := Function.update mem (x + n) { mem (x + n) with size := nunits }, freep := p } with hh'
  have hnew : (h'.mem (x + n)).size = nunits := by
    rw [hh']
    simp only [Function.update_self]
  have hold : (h'.mem x).size = n := by
    rw [hh', hmem]
    simp only [Function.update_of_ne (show x ≠ x + n by omega), Function.update_self]
  have hsame : ∀ y, y ≠ x → y ≠ x + n → h'.mem y = h.mem y := fun y hy hy' => by
    rw [hh', hmem]
    simp only [Function.update_of_ne hy', Function.update_of_ne hy]
  -- the list stays as it is; one of its blocks gets smaller
  have hptr : ∀ y, (h'.mem y).ptr = (h.mem y).ptr := fun y => by
    rw [hh', hmem]
    simp only [Function.update_apply]
    split_ifs with hy hy' hy' <;> simp only [*]
  obtain ⟨mid, hA, hle, -, hB⟩ := ordered_append.1 hf.ordered
  dsimp only at hle hB
  have hbase := hA.le
  refine ⟨⟨?_, ?_, fun f hfm => ?_, hf.ordered.shrink hn (Nat.le_add_right n nunits), ?_,
    hf.brk_le⟩, fun y => ?_, rfl, fun y hyb hy => ?_, hnew⟩
  · have hring := hf.ring
    rw [List.map_append, List.map_cons] at hring ⊢
    exact hring.congr fun y _ => hptr y
  · rw [hsame base (by omega) (by omega)]
    exact hf.base_size
  · rcases List.mem_append.1 hfm with hfm | hfm
    · have := hA.mem hfm
      rw [hsame f.1 (by omega) (by omega)]
      exact hf.size f (List.mem_append_left _ hfm)
    · rcases List.mem_cons.1 hfm with rfl | hfm
      · exact hold
      · have := hB.mem hfm
        rw [hsame f.1 (by omega) (by omega)]
        exact hf.size f (List.mem_append_right _ (List.mem_cons_of_mem _ hfm))
  · rw [List.map_append, ← List.cons_append]
    exact List.mem_append_left _ hx.pred_mem
  · simp only [cover_append, cover_cons, ind_add]
    omega
  · rw [cover_append, cover_cons] at hy
    have hout : ¬ (x ≤ y ∧ y < x + (n + nunits)) := fun hin => by
      rw [ind_of_mem hin] at hy
      omega
    exact hsame y (by omega) (by omega)

/-- **A block is taken** out of the free storage. -/
theorem take_spec (hx : Found base h fs nunits A B p x k) (hpos : 0 < nunits) :
    ∃ u h' fs', take nunits p x h = (payload u, h') ∧ Taken base h fs u nunits h' fs' := by
  have hmem : (x, k) ∈ fs := hx.eq ▸ (by simp)
  have hk : (h.mem x).size = k := hx.list.size (x, k) hmem
  have hend := (hx.list.ordered.mem hmem).2.2
  have hbrk := hx.list.brk_lt
  dsimp only at hend
  unfold take
  rw [hk]
  by_cases heq : k = nunits
  · subst heq
    rw [if_pos rfl]
    exact ⟨x, _, _, rfl, hx.taken_whole⟩
  · have hlt : nunits < k := lt_of_le_of_ne hx.le (Ne.symm heq)
    rw [if_neg heq]
    dsimp only
    rw [offset_eq (by omega)]
    exact ⟨_, _, _, rfl, hx.taken_tail hpos hlt rfl⟩

end Found

/-! ### `malloc` -/

/-- There is room for `nunits` units: a header of the list from `freep` has as many, or the kernel has
the memory. -/
def Room (mem : Bool) (nunits : ℕ) (h : Heap) : Prop :=
  (∃ l x, Seg (fun p => (h.mem p).ptr) h.freep l x ∧ nunits ≤ (h.mem x).size) ∨ Fits mem nunits h

theorem FreeList.room_iff (hf : FreeList base h fs) (mem : Bool) (hpos : 0 < nunits) :
    Room mem nunits h ↔ (∃ f ∈ fs, nunits ≤ f.2) ∨ Fits mem nunits h := by
  refine or_congr_left ⟨?_, ?_⟩
  · rintro ⟨l, x, hseg, hx⟩
    rcases List.mem_cons.1 (hf.ring.mem_of_seg hf.freep hseg) with rfl | hmem
    · rw [hf.base_size] at hx
      omega
    · obtain ⟨f, hfs, rfl⟩ := List.mem_map.1 hmem
      exact ⟨f, hfs, hf.size f hfs ▸ hx⟩
  · rintro ⟨f, hfs, hle⟩
    obtain ⟨l, hseg⟩ := hf.ring.exists_seg hf.freep
      (List.mem_cons_of_mem base (List.mem_map_of_mem (f := Prod.fst) hfs))
    exact ⟨l, f.1, hseg, (hf.size f hfs).symm ▸ hle⟩

/-- `malloc` has returned `r`: `0`, and nothing has changed, or a block of `nunits` units that was free
or is behind the old end of the heap. -/
structure Malloced (base : ℕ) (mem : Bool) (h : Heap) (fs : List Block) (nunits r : ℕ) (h' : Heap)
    (fs' : List Block) : Prop where
  list : FreeList base h' fs'
  brk : h.brk ≤ h'.brk
  frame : ∀ x, x ≠ base → x < h.brk → cover fs x = 0 → h'.mem x = h.mem x
  result : ¬ Room mem nunits h ∧ r = 0 ∧ h' = h ∧ fs' = fs ∨
    Room mem nunits h ∧ ∃ u, r = payload u ∧ (h'.mem u).size = nunits ∧
      ∀ x, cover fs' x + ind (u, nunits) x = cover fs x + ind (h.brk, h'.brk - h.brk) x

theorem FreeList.length_lt (hf : FreeList base h fs) : fs.length < 2 ^ 28 := by
  have := hf.ordered.length_le
  have := hf.brk_lt
  omega

theorem Taken.malloced {mem : Bool} {h' : Heap} {fs' : List Block} (ht : Taken base h fs u nunits h' fs')
    (hroom : Room mem nunits h) : Malloced base mem h fs nunits (payload u) h' fs' := by
  refine ⟨ht.list, ht.brk.ge, fun x hxb _ hcov => ht.mem x hxb hcov,
    Or.inr ⟨hroom, u, rfl, ht.size, fun x => ?_⟩⟩
  have hzero : ind (h.brk, h'.brk - h.brk) x = 0 := by
    rw [ht.brk, Nat.sub_self]
    exact ind_of_notMem (by dsimp only; omega)
  rw [hzero, ht.cover x]
  rfl

/-- From a heap that has grown. -/
theorem Grown.malloced {mem : Bool} {h₁ h' : Heap} {fs₁ fs' : List Block} (hg : Grown base h fs k h₁ fs₁)
    (ht : Taken base h₁ fs₁ u nunits h' fs') (hroom : Room mem nunits h) :
    Malloced base mem h fs nunits (payload u) h' fs' := by
  have hbrk : h'.brk = h.brk + k := ht.brk.trans hg.brk
  refine ⟨ht.list, by omega, fun x hxb hx hcov => ?_,
    Or.inr ⟨hroom, u, rfl, ht.size, fun x => ?_⟩⟩
  · have hind : ind (h.brk, k) x = 0 := ind_of_notMem (by dsimp only; omega)
    rw [ht.mem x hxb (by rw [hg.cover, hcov, hind]), hg.mem x hxb hx hcov]
  · rw [ht.cover, hg.cover, hbrk, Nat.add_sub_cancel_left]

/-- **The loop in `malloc` ends.** -/
theorem mallocLoop_spec (mem : Bool) (hf : FreeList base h fs) (hpos : 0 < nunits) (hn : nunits * UNIT < 2 ^ 31) :
    ∃ r h' fs', mallocLoop mem nunits maxSteps h.freep (h.mem h.freep).ptr h = some (r, h') ∧
      Malloced base mem h fs nunits r h' fs' := by
  have hroom := hf.room_iff mem hpos
  have hlength := hf.length_lt
  obtain ⟨n, hmax⟩ : ∃ n, maxSteps = fs.length + 1 + n :=
    ⟨maxSteps - (fs.length + 1), by rw [maxSteps]; omega⟩
  rw [hmax]
  rcases hf.search mem hpos n with ⟨A, B, p, x, k, hx, heq⟩ | ⟨hsmall, heq⟩
  · obtain ⟨u, h', fs', htake, ht⟩ := hx.take_spec hpos
    have hmem : (x, k) ∈ fs := hx.eq ▸ (by simp)
    exact ⟨payload u, h', fs', by rw [heq, htake],
      ht.malloced (hroom.2 (Or.inl ⟨(x, k), hmem, hx.le⟩))⟩
  rw [heq, refill]
  rcases morecore_spec mem hf hn with ⟨hfit, hmore⟩ | ⟨hfit, k, h₁, fs₁, hmore, hle, hg⟩
  · have hno : ¬ Room mem nunits h := by
      rw [hroom, not_or]
      refine ⟨?_, hfit⟩
      rintro ⟨f, hfs, hlarge⟩
      exact (hsmall f hfs).not_ge hlarge
    exact ⟨0, h, fs, by rw [hmore], hf, le_rfl, fun _ _ _ _ => rfl, Or.inl ⟨hno, rfl, rfl, rfl⟩⟩
  rw [hmore]
  dsimp only
  have hlength₁ := hg.list.length_lt
  obtain ⟨m, rfl⟩ : ∃ m, n = fs₁.length + 1 + m :=
    ⟨n - (fs₁.length + 1), by rw [maxSteps] at hmax; omega⟩
  -- the second time around there is a block that is large enough
  rcases hg.list.search mem hpos m with ⟨A, B, p, x, k', hx, heq'⟩ | ⟨hsmall, -⟩
  · obtain ⟨u, h', fs', htake, ht⟩ := hx.take_spec hpos
    exact ⟨payload u, h', fs', by rw [heq', htake], hg.malloced ht (hroom.2 (Or.inr hfit))⟩
  · obtain ⟨f, hmem, hlarge⟩ := hg.large
    have := hsmall f hmem
    omega

/-- **`malloc`** returns, with a block or `0`. -/
theorem malloc_spec (mem : Bool) (hf : FreeList base (h.init base) fs) (hn : unitsFor nbytes * UNIT < 2 ^ 31) :
    ∃ r h' fs', malloc base mem nbytes h = some (r, h') ∧
      Malloced base mem (h.init base) fs (unitsFor nbytes) r h' fs' :=
  mallocLoop_spec mem hf (Nat.succ_pos _) hn

end Umalloc

end OperatingSystems

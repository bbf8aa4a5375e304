import OperatingSystems.Cover.Basic
import OperatingSystems.Umalloc.Allocator

/-!
# The free list

The free blocks lie one behind the other, and their headers form a circular list that begins at `base`,
which is below all of them.  So a block that is not free belongs behind exactly one of them, and the
loop in `free` finds it wherever it begins.

* `FreeList base h fs` : the blocks `fs` are the free list of the heap `h`.
* `exists_isPlace`, `FreeList.split_of_isPlace` : where the loop ends.
* `freeHeader_spec` : **`free`** adds a block to the free storage, and changes nothing else.
-/

namespace OperatingSystems

namespace Umalloc

open Links Cover

/-- The blocks `fs` are the free list; `base` is a block of no units below them. -/
structure FreeList (base : ℕ) (h : Heap) (fs : List Block) : Prop where
  ring : Round (fun p => (h.mem p).ptr) base (fs.map Prod.fst)
  base_size : (h.mem base).size = 0
  size : ∀ f ∈ fs, (h.mem f.1).size = f.2
  ordered : Ordered (base + 1) fs h.brk
  freep : h.freep ∈ base :: fs.map Prod.fst
  brk_le : h.brk * UNIT ≤ USERTOP

variable {base u n p : ℕ} {h : Heap} {fs L R : List Block}

theorem FreeList.brk_lt (hf : FreeList base h fs) : h.brk < 2 ^ 28 := by
  have := hf.brk_le
  simp only [UNIT, USERTOP] at this
  omega

/-- No two headers of the list are at the same place. -/
theorem FreeList.nodup (hf : FreeList base h fs) : (base :: fs.map Prod.fst).Nodup := by
  refine List.nodup_cons.2 ⟨fun hmem => ?_, hf.ordered.nodup⟩
  obtain ⟨f, hfs, hfb⟩ := List.mem_map.1 hmem
  have := (hf.ordered.mem hfs).1
  omega

theorem offset_eq (h : u + n < 2 ^ 29) : offset u n = u + n := Nat.mod_eq_of_lt h

theorem isPlace_iff {mem : ℕ → Header} : isPlace mem u p = true ↔
    p < u ∧ u < (mem p).ptr ∨ (mem p).ptr ≤ p ∧ (p < u ∨ u < (mem p).ptr) := by
  simp [isPlace]

/-! ### The place of a block -/

/-- The block `u` lies between the blocks `L` and the blocks `R`; `p` is the last one before it. -/
structure Place (base : ℕ) (h : Heap) (L R : List Block) (u p : ℕ) : Prop where
  last : (base :: L.map Prod.fst).getLast? = some p
  lower : ∀ f ∈ L, f.1 < u
  upper : ∀ f ∈ R, u < f.1

theorem FreeList.seg (hf : FreeList base h (L ++ R))
    (hp : (base :: L.map Prod.fst).getLast? = some p) :
    Seg (fun p => (h.mem p).ptr) (h.mem p).ptr (R.map Prod.fst) base := by
  have hring := hf.ring
  rw [List.map_append] at hring
  exact hring.seg_of_getLast? hp

/-- The last block before `u`, or `base`. -/
theorem Place.cases (hpl : Place base h L R u p) :
    L = [] ∧ p = base ∨ ∃ L' k, L = L' ++ [(p, k)] := by
  rcases L.eq_nil_or_concat with rfl | ⟨L', ⟨q, k⟩, rfl⟩
  · exact Or.inl ⟨rfl, (Option.some.inj hpl.last).symm⟩
  · right
    have hlast := hpl.last
    rw [List.concat_eq_append, List.map_append, ← List.cons_append, List.getLast?_append] at hlast
    obtain rfl : q = p := Option.some.inj hlast
    exact ⟨L', k, List.concat_eq_append⟩

theorem Place.lt (hpl : Place base h L R u p) (hu : base < u) : p < u := by
  rcases hpl.cases with ⟨-, rfl⟩ | ⟨L', k, rfl⟩
  · exact hu
  · exact hpl.lower (p, k) (by simp)

/-- The loop ends at the last block before `u`. -/
theorem Place.isPlace (hpl : Place base h L R u p) (hf : FreeList base h (L ++ R)) (hu : base < u) :
    isPlace h.mem u p = true := by
  have hlt := hpl.lt hu
  have hseg := hf.seg hpl.last
  rw [isPlace_iff]
  cases R with
  | nil =>
    -- `p` is the last block, and `base` follows
    have hnext : (h.mem p).ptr = base := hseg
    have hle : base ≤ p := by
      rcases hpl.cases with ⟨-, rfl⟩ | ⟨L', k, rfl⟩
      · exact le_rfl
      · have := (hf.ordered.mem (List.mem_append_left _ (List.mem_append_right L'
          (List.mem_singleton_self (p, k))))).1
        dsimp only at this
        omega
    omega
  | cons r R =>
    have hnext : (h.mem p).ptr = r.1 := hseg.1
    have := hpl.upper r List.mem_cons_self
    omega

/-- There is such a place. -/
theorem FreeList.exists_isPlace (hf : FreeList base h fs) (hu : base < u)
    (hne : ∀ f ∈ fs, f.1 ≠ u) :
    ∃ p ∈ base :: fs.map Prod.fst, isPlace h.mem u p = true := by
  obtain ⟨L, R, rfl, hL, hR⟩ := hf.ordered.exists_split hne
  obtain ⟨p, hp⟩ : ∃ p, (base :: L.map Prod.fst).getLast? = some p :=
    ⟨_, List.getLast?_eq_some_getLast (List.cons_ne_nil _ _)⟩
  refine ⟨p, ?_, Place.isPlace ⟨hp, hL, hR⟩ hf hu⟩
  have hmem := List.mem_of_getLast? hp
  rw [List.map_append, ← List.cons_append]
  exact List.mem_append_left _ hmem

/-- Where the loop ends, the list is split. -/
theorem FreeList.split_of_isPlace (hf : FreeList base h fs) (hu : base < u)
    (hp : p ∈ base :: fs.map Prod.fst) (htest : isPlace h.mem u p = true) :
    ∃ L R, fs = L ++ R ∧ Place base h L R u p := by
  rw [isPlace_iff] at htest
  rcases List.mem_cons.1 hp with rfl | hp
  · -- behind the base comes the first block, which is above `u`
    refine ⟨[], fs, rfl, rfl, nofun, fun f hfR => ?_⟩
    have hseg : Seg (fun p => (h.mem p).ptr) (h.mem p).ptr (fs.map Prod.fst) p := hf.ring
    cases fs with
    | nil => cases hfR
    | cons r R =>
      have hnext : (h.mem p).ptr = r.1 := hseg.1
      obtain ⟨hr, hpos, hrest⟩ := hf.ordered
      rcases List.mem_cons.1 hfR with rfl | hfR
      · omega
      · have := (hrest.mem hfR).1
        omega
  · obtain ⟨⟨q, k⟩, hq, rfl⟩ := List.mem_map.1 hp
    obtain ⟨L, R, rfl⟩ := List.append_of_mem hq
    rw [List.append_cons] at hf
    have hlast : (base :: (L ++ [(q, k)]).map Prod.fst).getLast? = some q := by
      rw [List.map_append, ← List.cons_append, List.getLast?_append]
      rfl
    have hseg := hf.seg hlast
    dsimp only at htest
    have hord := hf.ordered
    rw [List.append_assoc] at hord
    obtain ⟨mid, hL, hle, hpos, hR⟩ := ordered_append.1 hord
    dsimp only at hle hpos hR
    have hbase := hL.le
    refine ⟨L ++ [(q, k)], R, List.append_cons .., hlast, fun f hfL => ?_, fun f hfR => ?_⟩
    · -- the successor of the last block is the base, which is below `u`
      have hqu : q < u := by
        cases R with
        | nil =>
          have hnext : (h.mem q).ptr = base := hseg
          omega
        | cons r R =>
          have hnext : (h.mem q).ptr = r.1 := hseg.1
          have := hR.1
          omega
      rcases List.mem_append.1 hfL with hfL | hfL
      · have := hL.mem hfL
        omega
      · rw [List.mem_singleton.1 hfL]
        exact hqu
    · cases R with
      | nil => cases hfR
      | cons r R =>
        have hnext : (h.mem q).ptr = r.1 := hseg.1
        have hr := hR.1
        have hlt : u < r.1 := by omega
        rcases List.mem_cons.1 hfR with rfl | hfR
        · exact hlt
        · have := (hR.2.2.mem hfR).1
          omega

/-- **The search in `free`.** -/
theorem FreeList.walk_isPlace (hf : FreeList base h fs) (hu : base < u) (hne : ∀ f ∈ fs, f.1 ≠ u) :
    ∃ p L R, walk (fun p => (h.mem p).ptr) (isPlace h.mem u) maxSteps h.freep = some p ∧
      fs = L ++ R ∧ Place base h L R u p := by
  have hlength := hf.ordered.length_le
  have hsteps : (fs.map Prod.fst).length < maxSteps := by
    have := hf.brk_lt
    rw [List.length_map, maxSteps]
    omega
  obtain ⟨p, hp, hwalk, htest⟩ :=
    hf.ring.walk_of_exists hf.freep (hf.exists_isPlace hu hne) hsteps
  obtain ⟨L, R, rfl, hpl⟩ := hf.split_of_isPlace hu hp htest
  exact ⟨p, L, R, hwalk, rfl, hpl⟩

/-! ### Joining a block to its neighbours -/

/-- A block of the heap that is not free. -/
structure Outside (base : ℕ) (h : Heap) (fs : List Block) (b : Block) : Prop where
  base_lt : base < b.1
  pos : 0 < b.2
  le_brk : b.1 + b.2 ≤ h.brk
  size : (h.mem b.1).size = b.2
  apart : ∀ x, cover fs x + ind b x ≤ 1

/-- The block `b` has been added to the free storage, and nothing else has changed. -/
structure Freed (base : ℕ) (h : Heap) (fs : List Block) (b : Block) (h' : Heap) (fs' : List Block) :
    Prop where
  list : FreeList base h' fs'
  cover : ∀ x, cover fs' x = cover fs x + ind b x
  brk : h'.brk = h.brk
  mem : ∀ x, x ≠ base → Cover.cover fs' x = 0 → h'.mem x = h.mem x
  large : ∃ f ∈ fs', b.2 ≤ f.2

theorem Outside.apart_of_mem {b f : Block} (hb : Outside base h fs b) (hf : FreeList base h fs)
    (hmem : f ∈ fs) : f.1 + f.2 ≤ b.1 ∨ b.1 + b.2 ≤ f.1 := by
  refine apart_of_ind (fun x => ?_) (hf.ordered.mem hmem).2.1 hb.pos
  have := ind_le_cover hmem x
  have := hb.apart x
  omega

theorem Outside.ne {b f : Block} (hb : Outside base h fs b) (hf : FreeList base h fs)
    (hmem : f ∈ fs) : f.1 ≠ b.1 := by
  have := hb.apart_of_mem hf hmem
  have := (hf.ordered.mem hmem).2.1
  have := hb.pos
  omega

/-- The blocks with the new one between them. -/
theorem Outside.ordered (hb : Outside base h (L ++ R) (u, n)) (hf : FreeList base h (L ++ R))
    (hpl : Place base h L R u p) : Ordered (base + 1) (L ++ (u, n) :: R) h.brk := by
  obtain ⟨mid, hL, hR⟩ := ordered_append.1 hf.ordered
  have hu : base < u := hb.base_lt
  have hend : u + n ≤ h.brk := hb.le_brk
  refine ordered_append.2 ⟨u, hL.tighten hu fun f hfL => ?_, le_rfl, hb.pos, ?_⟩
  · have := hb.apart_of_mem hf (List.mem_append_left R hfL)
    have := hpl.lower f hfL
    omega
  · refine hR.raise hend fun f hfR => ?_
    have := hb.apart_of_mem hf (List.mem_append_right L hfR)
    have := hpl.upper f hfR
    omega

/-- The block `u` comes between `L` and `R`, behind `p`; together with those of `R` that it is joined to,
it has `n'` units.  The blocks `R'`, at `a`, stay what they are. -/
structure Linking (base : ℕ) (h : Heap) (L R : List Block) (u n p n' : ℕ) (R' : List Block) (a : ℕ) :
    Prop where
  list : FreeList base h (L ++ R)
  outside : Outside base h (L ++ R) (u, n)
  place : Place base h L R u p
  le : n ≤ n'
  sub : R' ⊆ R
  seg : ∃ m, R.map Prod.fst = m ++ R'.map Prod.fst ∧
    Seg (fun x => (h.mem x).ptr) (h.mem p).ptr m a
  ordered : Ordered (base + 1) (L ++ (u, n') :: R') h.brk
  cover : ∀ x, ind (u, n') x + cover R' x = ind (u, n) x + cover R x

/-- The block is joined to the one behind it, or not. -/
theorem exists_linking (hf : FreeList base h (L ++ R)) (hb : Outside base h (L ++ R) (u, n))
    (hpl : Place base h L R u p) :
    ∃ n' R' a, joinUpper h.mem u (h.mem p).ptr = ⟨a, n'⟩ ∧ Linking base h L R u n p n' R' a := by
  have hord := hb.ordered hf hpl
  have hseg := hf.seg hpl.last
  have hbrk := hf.brk_lt
  have hu : base < u := hb.base_lt
  have hend : u + n ≤ h.brk := hb.le_brk
  have hsize : (h.mem u).size = n := hb.size
  have hoff : offset u n = u + n := offset_eq (by omega)
  unfold joinUpper
  rw [hsize, hoff]
  by_cases hnext : u + n = (h.mem p).ptr
  · rw [if_pos hnext]
    cases R with
    | nil =>
      have : (h.mem p).ptr = base := hseg
      omega
    | cons r R =>
      obtain ⟨rs, k⟩ := r
      obtain ⟨hr, hrest⟩ := hseg
      dsimp only at hr hrest
      obtain rfl : u + n = rs := hnext.trans hr
      have hk : (h.mem (u + n)).size = k := hf.size (u + n, k) (by simp)
      have hjoin := hord.join
      have hle := (hjoin.mem (b := (u, n + k)) (by simp)).2.2
      dsimp only at hle
      rw [← hnext, hk, Nat.mod_eq_of_lt (show n + k < 2 ^ 32 by omega)]
      refine ⟨n + k, R, _, rfl, hf, hb, hpl, Nat.le_add_right n k, List.subset_cons_self _ _,
        ⟨[u + n], rfl, hnext.symm, rfl⟩, hjoin, fun x => ?_⟩
      rw [cover_cons, ind_add]
      omega
  · rw [if_neg hnext]
    exact ⟨n, R, _, rfl, hf, hb, hpl, le_rfl, List.Subset.refl R, ⟨[], rfl, rfl⟩, hord, fun _ => rfl⟩

/-- The heap after the two headers have been written. -/
def relinked (h : Heap) (u p : ℕ) (bp q : Header) : Heap :=
  { h with mem := Function.update (Function.update h.mem u bp) p q, freep := p }

section Linking

variable {n' a : ℕ} {R' : List Block} {bp q : Header} {x : ℕ}

theorem relinked_mem_of_ne (hu : x ≠ u) (hp : x ≠ p) : (relinked h u p bp q).mem x = h.mem x := by
  simp only [relinked, Function.update_of_ne hp, Function.update_of_ne hu]

theorem relinked_mem_right : (relinked h u p bp q).mem p = q := Function.update_self ..

theorem relinked_mem_left (hne : u ≠ p) : (relinked h u p bp q).mem u = bp := by
  simp only [relinked, Function.update_of_ne hne, Function.update_self]

namespace Linking

theorem lt (hk : Linking base h L R u n p n' R' a) : p < u := hk.place.lt hk.outside.base_lt

theorem lower_ne (hk : Linking base h L R u n p n' R' a) (hx : x ∈ base :: L.map Prod.fst) :
    x ≠ u := by
  rcases List.mem_cons.1 hx with rfl | hx
  · exact hk.outside.base_lt.ne
  · obtain ⟨f, hfL, rfl⟩ := List.mem_map.1 hx
    exact (hk.place.lower f hfL).ne

theorem upper_ne (hk : Linking base h L R u n p n' R' a) (hx : x ∈ R'.map Prod.fst) :
    x ≠ u ∧ x ≠ p := by
  obtain ⟨f, hfR, rfl⟩ := List.mem_map.1 hx
  have := hk.place.upper f (hk.sub hfR)
  have := hk.lt
  omega

theorem nodup (hk : Linking base h L R u n p n' R' a) : (base :: L.map Prod.fst).Nodup := by
  have hnodup := hk.list.nodup
  rw [List.map_append, ← List.cons_append] at hnodup
  exact (List.nodup_append'.1 hnodup).1

/-- The circular list, with the nodes `m'` between `L` and `R'`. -/
theorem ring (hk : Linking base h L R u n p n' R' a) (q : Header) (m' : List ℕ)
    (hm' : Seg (fun x => ((relinked h u p ⟨a, n'⟩ q).mem x).ptr) q.ptr m' a) :
    Round (fun x => ((relinked h u p ⟨a, n'⟩ q).mem x).ptr) base
      (L.map Prod.fst ++ (m' ++ R'.map Prod.fst)) := by
  obtain ⟨m, hmap, hseg⟩ := hk.seg
  have hring := hk.list.ring
  rw [List.map_append, hmap] at hring
  refine hring.splice hk.place.last hk.nodup hseg ?_ (fun x hx hxp => ?_) fun x hx => ?_
  · rw [relinked_mem_right]
    exact hm'
  · rw [relinked_mem_of_ne (hk.lower_ne hx) hxp]
  · rw [relinked_mem_of_ne (hk.upper_ne hx).1 (hk.upper_ne hx).2]

theorem upper_size (hk : Linking base h L R u n p n' R' a) (q : Header) {f : Block} (hf : f ∈ R') :
    ((relinked h u p ⟨a, n'⟩ q).mem f.1).size = f.2 := by
  have hne := hk.upper_ne (List.mem_map_of_mem hf)
  rw [relinked_mem_of_ne hne.1 hne.2]
  exact hk.list.size f (List.mem_append_right L (hk.sub hf))

theorem ind_self (hk : Linking base h L R u n p n' R' a) : ind (u, n') u = 1 := by
  have hpos : 0 < n := hk.outside.pos
  have := hk.le
  exact ind_of_mem ⟨le_rfl, by dsimp only; omega⟩

/-- The block before it is covered, unless it is `base`. -/
theorem cover_pos (hk : Linking base h L R u n p n' R' a) (hp : p ≠ base) : 0 < Cover.cover L p := by
  rcases hk.place.cases with ⟨-, hpb⟩ | ⟨L', k, rfl⟩
  · exact absurd hpb hp
  · have hmem : (p, k) ∈ L' ++ [(p, k)] := by simp
    have hpos := (hk.list.ordered.mem (List.mem_append_left R hmem)).2.1
    exact cover_pos_iff.2 ⟨(p, k), hmem, le_rfl, by dsimp only at *; omega⟩

/-- The block stays apart from the one before it. -/
theorem freed_apart (hk : Linking base h L R u n p n' R' a) :
    Freed base h (L ++ R) (u, n) (relinked h u p ⟨a, n'⟩ ⟨u, (h.mem p).size⟩)
      (L ++ (u, n') :: R') := by
  have hpu := hk.lt
  have hown : (relinked h u p ⟨a, n'⟩ ⟨u, (h.mem p).size⟩).mem u = ⟨a, n'⟩ :=
    relinked_mem_left hpu.ne'
  have hlower : ∀ x ∈ base :: L.map Prod.fst,
      ((relinked h u p ⟨a, n'⟩ ⟨u, (h.mem p).size⟩).mem x).size = (h.mem x).size := by
    intro x hx
    by_cases hxp : x = p
    · rw [hxp, relinked_mem_right]
    · rw [relinked_mem_of_ne (hk.lower_ne hx) hxp]
  refine ⟨⟨?_, ?_, fun f hf => ?_, hk.ordered, ?_, hk.list.brk_le⟩, fun x => ?_, rfl,
    fun x hxb hx => ?_, (u, n'), by simp, hk.le⟩
  · have hring := hk.ring ⟨u, (h.mem p).size⟩ [u] ⟨rfl, congrArg Header.ptr hown⟩
    rwa [List.map_append, List.map_cons]
  · rw [hlower base List.mem_cons_self]
    exact hk.list.base_size
  · rcases List.mem_append.1 hf with hfL | hfR
    · rw [hlower f.1 (List.mem_cons_of_mem _ (List.mem_map_of_mem hfL))]
      exact hk.list.size f (List.mem_append_left R hfL)
    · rcases List.mem_cons.1 hfR with rfl | hfR
      · rw [hown]
      · exact hk.upper_size _ hfR
  · rw [List.map_append, ← List.cons_append]
    exact List.mem_append_left _ (List.mem_of_getLast? hk.place.last)
  · have := hk.cover x
    simp only [cover_append, cover_cons]
    omega
  · rw [cover_append, cover_cons] at hx
    refine relinked_mem_of_ne ?_ ?_
    · rintro rfl
      have := hk.ind_self
      omega
    · rintro rfl
      have := hk.cover_pos hxb
      omega

/-- The block is joined to the one before it. -/
theorem freed_joined {L' : List Block} {k : ℕ}
    (hk : Linking base h (L' ++ [(p, k)]) R u n p n' R' a) (hend : p + k = u) :
    Freed base h (L' ++ [(p, k)] ++ R) (u, n) (relinked h u p ⟨a, n'⟩ ⟨a, k + n'⟩)
      (L' ++ (p, k + n') :: R') := by
  subst hend
  have hord := hk.ordered
  rw [List.append_assoc] at hord
  have hjoin : Ordered (base + 1) (L' ++ (p, k + n') :: R') h.brk := hord.join
  have hpk := hord.mem (b := (p, k)) (by simp)
  refine ⟨⟨?_, ?_, fun f hf => ?_, hjoin, ?_, hk.list.brk_le⟩, fun x => ?_, rfl,
    fun x hxb hx => ?_, (p, k + n'), by simp, hk.le.trans (Nat.le_add_left n' k)⟩
  · have hring := hk.ring ⟨a, k + n'⟩ [] rfl
    rw [List.map_append, List.map_cons]
    rwa [List.map_append, List.append_assoc] at hring
  · have hbase := hk.lower_ne List.mem_cons_self
    rw [relinked_mem_of_ne hbase (by dsimp only at hpk; omega)]
    exact hk.list.base_size
  · rcases List.mem_append.1 hf with hfL | hfR
    · have hmem : f ∈ L' ++ [(p, k)] := List.mem_append_left _ hfL
      have hfp : f.1 ≠ p := by
        obtain ⟨mid, hL, hle, -⟩ := ordered_append.1 hord
        have := hL.mem hfL
        dsimp only at hle
        omega
      rw [relinked_mem_of_ne (hk.place.lower f hmem).ne hfp]
      exact hk.list.size f (List.mem_append_left R hmem)
    · rcases List.mem_cons.1 hfR with rfl | hfR
      · rw [relinked_mem_right]
      · exact hk.upper_size _ hfR
  · simp [relinked]
  · have := hk.cover x
    simp only [cover_append, cover_cons, cover_nil, ind_add]
    omega
  · rw [cover_append, cover_cons, ind_add] at hx
    have hpos := hk.cover_pos (p := p)
    refine relinked_mem_of_ne ?_ ?_
    · rintro rfl
      have := hk.ind_self
      omega
    · rintro rfl
      have := hpos hxb
      simp only [cover_append, cover_cons, cover_nil] at this
      omega

end Linking

end Linking

/-- **`free`** adds the block to the free storage. -/
theorem freeHeader_spec (hf : FreeList base h fs) (hb : Outside base h fs (u, n)) :
    ∃ h' fs', freeHeader u h = some h' ∧ Freed base h fs (u, n) h' fs' := by
  obtain ⟨p, L, R, hwalk, rfl, hpl⟩ := hf.walk_isPlace hb.base_lt fun f hmem => hb.ne hf hmem
  obtain ⟨n', R', a, hupper, hk⟩ := exists_linking hf hb hpl
  have hpu : p < u := hk.lt
  have hbrk := hf.brk_lt
  have hend := (hk.ordered.mem (b := (u, n')) (by simp)).2.2
  dsimp only at hend
  have hfree : freeHeader u h =
      some (relinked h u p ⟨a, n'⟩ (joinLower (Function.update h.mem u ⟨a, n'⟩) p u)) := by
    have hlt := hb.le_brk
    have hpos := hb.pos
    unfold freeHeader
    rw [if_pos (show u < h.brk by dsimp only at hlt hpos; omega), hwalk, Option.map_some, hupper]
    rfl
  rw [hfree]
  unfold joinLower
  rw [Function.update_of_ne hpu.ne, Function.update_self]
  by_cases hjoin : offset p (h.mem p).size = u
  · rw [if_pos hjoin]
    rcases hpl.cases with ⟨-, rfl⟩ | ⟨L', k, rfl⟩
    · -- `base` is not joined to anything
      rw [hf.base_size, offset_eq (by omega)] at hjoin
      omega
    · have hsize : (h.mem p).size = k := hf.size (p, k) (by simp)
      have hpk := (hk.ordered.mem (b := (p, k)) (by simp)).2.2
      dsimp only at hpk
      rw [hsize, offset_eq (by omega)] at hjoin
      rw [hsize, Nat.mod_eq_of_lt (show k + n' < 2 ^ 32 by omega)]
      exact ⟨_, _, rfl, hk.freed_joined hjoin⟩
  · rw [if_neg hjoin]
    exact ⟨_, _, rfl, hk.freed_apart⟩

end Umalloc

end OperatingSystems

import OperatingSystems.Mem.Coalesce
import Mathlib.Data.List.Perm.Subperm
import Mathlib.Tactic.LinearCombination

/-!
# What the calls do to the chunks

* `up unit size` : the rounded size, and when it is an `int`.
* `init_spec` : `Mem_Init` makes one free chunk.
* `Shape.alloc` : `Mem_Alloc` takes a chunk that `search` found.
* `Shape.release` : `Mem_Free` frees a chunk in use, and `coalesce` joins it to its neighbours.
-/

namespace OperatingSystems

namespace Mem

open Bytes Links Tiling

variable {h : Heap} {cs l r : List Chunk} {fl ml m₁ m₂ : List ℕ} {c : Chunk} {A : List ℕ}
  {σ : ℕ → Header} {x fuel : ℕ} {size policy : ℤ}

/-! ### Rounding -/

/-- `size`, rounded up; negative sizes are rounded up to one multiple too many. -/
def up (unit size : ℤ) : ℤ :=
  if size.tmod unit ≠ 0 then size + (unit - size.tmod unit) else size

theorem roundUp_eq {unit : ℤ} (hsize : IsInt size) :
    roundUp unit size = if IsInt (up unit size) then .ok (up unit size) else .error .overflow := by
  unfold roundUp up
  by_cases hmod : size.tmod unit = 0
  · rw [if_neg (not_not.2 hmod), if_neg (not_not.2 hmod), if_pos hsize]
  · rw [if_pos hmod, if_pos hmod]
    rfl

theorem dvd_up (unit size : ℤ) : unit ∣ up unit size := by
  have hdiv := Int.mul_tdiv_add_tmod size unit
  unfold up
  split_ifs with hmod
  · exact ⟨size.tdiv unit + 1, by linear_combination -hdiv⟩
  · exact Int.dvd_of_tmod_eq_zero (not_not.1 hmod)

theorem le_up (size : ℤ) {unit : ℤ} (hunit : 0 < unit) : size ≤ up unit size := by
  have hlt := Int.tmod_lt_of_pos size hunit
  unfold up
  split_ifs <;> omega

theorem up_lt {unit : ℤ} (hunit : 0 < unit) (hsize : 0 ≤ size) : up unit size < size + unit := by
  have hle := Int.tmod_nonneg unit hsize
  unfold up
  split_ifs <;> omega

/-- The pages that hold `size` bytes. -/
theorem up_eq_pages {unit : ℕ} (hunit : 0 < unit) (hsize : 0 ≤ size) :
    up unit size = (((size.toNat + unit - 1) / unit * unit : ℕ) : ℤ) := by
  have hle := le_up size (Int.natCast_pos.2 hunit)
  have hlt := up_lt (Int.natCast_pos.2 hunit) hsize
  obtain ⟨k, hk⟩ := dvd_up unit size
  obtain ⟨n, rfl⟩ := Int.eq_ofNat_of_zero_le hsize
  rw [hk] at hle hlt
  have hk0 : 0 ≤ k := by
    by_contra hneg
    have := mul_neg_of_pos_of_neg (Int.natCast_pos.2 hunit) (not_le.1 hneg)
    omega
  obtain ⟨k, rfl⟩ := Int.eq_ofNat_of_zero_le hk0
  rw [hk]
  have hdiv : (n + unit - 1) / unit = k := by
    norm_cast at hle hlt
    refine Nat.div_eq_of_lt_le ?_ ?_
    · rw [Nat.mul_comm]
      omega
    · rw [Nat.succ_mul, Nat.mul_comm]
      omega
  rw [Int.toNat_natCast, hdiv, Nat.mul_comm]
  push_cast
  rfl

/-! ### `Mem_Init` -/

theorem PageSize.dvd (page : PageSize) : 8 ∣ page.bytes := by
  obtain ⟨k, hk, -, hp⟩ := page.power
  rw [hp]
  exact pow_dvd_pow 2 (by omega : 3 ≤ k)

theorem PageSize.le (page : PageSize) : 4096 ≤ page.bytes := by
  obtain ⟨k, hk, -, hp⟩ := page.power
  rw [hp]
  exact Nat.pow_le_pow_right (by decide : 0 < 2) hk

/-- **`Mem_Init`** makes one free chunk. -/
theorem init_spec (page : PageSize) {a : ℕ} (hinit : h.initialized = false) (hpos : 0 < size)
    (hsize : IsInt size) (hint : IsInt (up page.bytes size)) (hmem : h.memList = none)
    (ha : Mappable page.bytes size (some a)) : ∃ k n, Mem_Init page.bytes h size (some a) = .ok (k, 0) ∧
      Shape k [⟨a, n, true⟩] [a] [] := by
  have hpage := page.le
  have hdvd := page.dvd
  obtain ⟨ha0, hadvd, hatop⟩ := ha
  have hup := up_eq_pages (by omega : 0 < page.bytes) (Int.le_of_lt hpos)
  obtain ⟨pages, hpages⟩ : ∃ pages, pages = (size.toNat + page.bytes - 1) / page.bytes := ⟨_, rfl⟩
  rw [← hpages] at hup hatop
  have hone : page.bytes ≤ pages * page.bytes := by
    have hp : 1 ≤ pages := by
      rw [hpages, Nat.le_div_iff_mul_le (by omega)]
      omega
    exact Nat.le_mul_of_pos_left _ hp
  have hpdvd : 8 ∣ pages * page.bytes := Dvd.dvd.mul_left hdvd pages
  obtain ⟨n, hn⟩ : ∃ n, n + 24 = pages * page.bytes := ⟨pages * page.bytes - 24, by omega⟩
  -- the mapping before its header is written
  obtain ⟨k, hk⟩ : ∃ k : Heap, k = { h with
    mem := fun _ => 0, lo := a, hi := a + pages * page.bytes, freeList := some a } := ⟨_, rfl⟩
  have hsees : Sees k [a] (header k.mem) := by
    subst hk
    refine ⟨fun _ _ => rfl, ?_, ?_, by exact hatop.le⟩
    · simp only [List.mem_singleton, forall_eq]
      omega
    · simp
  have hrest : up page.bytes size - sizeofHeader = n := by
    simp only [sizeofHeader]
    omega
  obtain ⟨m, hm, hs, -⟩ := hsees.setHeader (a := a) (by simp) (y := ⟨n, 1, none, none⟩)
    (by unfold IsInt at hint ⊢; simp only; omega) (show IsInt 1 by decide) (by simp)
    (by simp)
  refine ⟨{ k with mem := m, initialized := true, totalSize := up page.bytes size, begin := some a },
    n, ?_, ?_⟩
  · rw [Mem_Init, if_neg (by simp [hinit, hpos]), roundUp_eq hsize, if_pos hint, ok_bind]
    dsimp only
    rw [← hpages, ← hk, hrest, hm, ok_bind]
    subst hk
    rfl
  · have hheader : header m a = ⟨n, 1, none, none⟩ := by
      rw [hs.header a (by simp), Function.update_self]
    have hregion : Region { k with
        mem := m, initialized := true, totalSize := up page.bytes size, begin := some a } := by
      subst hk
      exact ⟨ha0, hdvd.trans hadvd, hatop, by simp only; omega, hint, rfl, rfl⟩
    refine ⟨hregion, ?_, ?_, ?_, ?_, List.isChain_singleton _, ⟨?_, ?_, by simp⟩,
      fun b => by simpa using eq_comm, by simp⟩
    · subst hk
      refine ⟨rfl, ?_⟩
      show a + 24 + n = a + pages * page.bytes
      omega
    · simp [hheader]
    · simp [hheader]
    · simp only [List.mem_singleton, forall_eq]
      omega
    · subst hk
      exact ⟨rfl, by simp [hheader], by simp [hheader, Linked]⟩
    · subst hk
      exact hmem

/-! ### `Mem_Alloc` -/

/-- The policies of `mem.h`. -/
def Policy (policy : ℤ) : Prop := policy = BESTFIT ∨ policy = WORSTFIT ∨ policy = FIRSTFIT

/-- The search takes a chunk that a request of `z` bytes does not split, where `z` is negative. -/
def Spared (h : Heap) (policy z : ℤ) (fl : List ℕ) : Prop :=
  if policy = BESTFIT then ∃ a ∈ fl, (header h.mem a).size ≤ z + 24
  else if policy = WORSTFIT then ∀ a ∈ fl, (header h.mem a).size ≤ z + 24
  else ∀ a ∈ fl.head?, (header h.mem a).size ≤ z + 24

/-- A request that can be rounded, and that is not rounded to a negative size unless the chunk that is
found is not split. -/
def Fits (h : Heap) (size policy : ℤ) : Prop :=
  size ≤ 2 ^ 31 - 8 ∧
    (0 ≤ up 8 size ∨ ∃ fl, Listed h h.freeList fl ∧ Spared h policy (up 8 size) fl)

theorem isInt_up (hint : IsInt size) : IsInt (up 8 size) ↔ size ≤ 2 ^ 31 - 8 := by
  have hle := le_up size (by decide : (0 : ℤ) < 8)
  obtain ⟨k, hk⟩ := dvd_up 8 size
  unfold IsInt at hint ⊢
  have hlt : up 8 size ≤ size + 15 := by
    have hneg := Int.lt_tmod_of_pos size (show (0 : ℤ) < 8 by decide)
    unfold up
    split_ifs <;> omega
  constructor
  · intro h
    omega
  · intro h
    by_cases hpos : 0 ≤ size
    · have := up_lt (by decide : (0 : ℤ) < 8) hpos
      omega
    · omega

theorem Shape.listed (hs : Shape h cs fl ml) : Listed h h.freeList fl := by
  refine ⟨hs.lists.free.path, fun a ha => ?_⟩
  exact (hs.sees.within a (hs.free_subset a ha)).2

/-- What a search of the free list returns. -/
theorem Shape.search (hs : Shape h cs fl ml) (hp : Policy policy)
    (hne : fl ≠ [] ∨ policy = FIRSTFIT) (hfuel : fl.length ≤ fuel) (z : ℤ) :
    ∃ r, h.search fuel policy z = .ok r ∧ (r = none ↔ ∀ a ∈ fl, (header h.mem a).size < z) ∧
      ∀ a, r = some a → a ∈ fl ∧ z ≤ (header h.mem a).size ∧
        ((∀ b ∈ fl, z ≤ (header h.mem b).size) →
          ((header h.mem a).size ≤ z + 24 ↔ Spared h policy z fl)) := by
  obtain rfl | rfl | rfl := hp
  · obtain ⟨r, hr, hnone, hsome⟩ := fit_spec (n := z) (fun x y => x < y)
      (fun x => by simp) (fun x y w => by simp; omega) hs.listed (hne.resolve_right (by decide)) hfuel
    refine ⟨r, hr, hnone, fun a ha => ?_⟩
    obtain ⟨hmem, hsize, hbest⟩ := hsome a ha
    refine ⟨hmem, hsize, fun hall => ?_⟩
    rw [Spared, if_pos rfl]
    refine ⟨fun hle => ⟨a, hmem, hle⟩, fun ⟨b, hb, hle⟩ => ?_⟩
    have hab := hbest b hb (hall b hb)
    simp only [decide_eq_false_iff_not, not_lt] at hab
    omega
  · obtain ⟨r, hr, hnone, hsome⟩ := fit_spec (n := z) (fun x y => x > y)
      (fun x => by simp) (fun x y w => by simp; omega) hs.listed (hne.resolve_right (by decide)) hfuel
    refine ⟨r, hr, hnone, fun a ha => ?_⟩
    obtain ⟨hmem, hsize, hbest⟩ := hsome a ha
    refine ⟨hmem, hsize, fun hall => ?_⟩
    rw [Spared, if_neg (by decide), if_pos rfl]
    refine ⟨fun hle b hb => ?_, fun hle => hle a hmem⟩
    have hab := hbest b hb (hall b hb)
    simp only [gt_iff_lt, decide_eq_false_iff_not, not_lt] at hab
    omega
  · refine ⟨_, firstfit_eq hs.listed hfuel, by simp, fun a ha => ?_⟩
    have hmem := List.mem_of_find?_eq_some ha
    have hsize : z ≤ (header h.mem a).size := by simpa using List.find?_some ha
    refine ⟨hmem, hsize, fun hall => ?_⟩
    rw [Spared, if_neg (by decide), if_neg (by decide)]
    obtain ⟨b, fl, rfl⟩ := List.exists_cons_of_ne_nil (List.ne_nil_of_mem hmem)
    rw [List.find?_cons_of_pos (by simpa using hall b List.mem_cons_self)] at ha
    obtain rfl := Option.some.inj ha
    simp

/-- The payload begins in the address space. -/
theorem Shape.ptr_eq (hs : Shape h cs fl ml) (hc : c ∈ cs) :
    ptrAdd (some c.addr) sizeofHeader = some (c.addr + 24) := by
  obtain ⟨-, hhi⟩ := hs.tiles.mem Chunk.addr_le hc
  have htop := hs.region.top
  have hstop : c.stop = c.addr + 24 + c.size := rfl
  exact ptrAdd_eq rfl (by omega) (by omega)

/-- `Mem_Alloc` finds nothing. -/
theorem alloc_none (hint : IsInt size) (hsize : size ≤ 2 ^ 31 - 8) (hp : Policy policy)
    (hfound : h.search fuel policy (up 8 size) = .ok none) :
    Mem_Alloc fuel h size policy = .ok ({ h with m_error := some .E_NO_SPACE }, none) := by
  rw [Mem_Alloc, roundUp_eq hint, if_pos ((isInt_up hint).2 hsize), ok_bind, hfound, ok_bind,
    if_pos ⟨rfl, hp⟩]
  rfl

/-- **`Mem_Alloc`** takes the chunk that it finds, or a part of it. -/
theorem Shape.alloc (hs : Shape h (l ++ c :: r) fl ml) (hint : IsInt size)
    (hsize : size ≤ 2 ^ 31 - 8) (hfound : h.search fuel policy (up 8 size) = .ok (some c.addr))
    (hc : c.free = true) (hle : up 8 size ≤ c.size)
    (hfits : 0 ≤ up 8 size ∨ (c.size : ℤ) ≤ up 8 size + 24) : ∃ m p fl',
      Mem_Alloc fuel h size policy =
        .ok ({ h with mem := m, freeList := p, memList := some c.addr }, some (c.addr + 24)) ∧
      Shape { h with mem := m, freeList := p, memList := some c.addr }
        (l ++ (carve c (up 8 size).toNat ++ r)) fl' (c.addr :: ml) ∧
      ∀ i, (∀ d ∈ l ++ (carve c (up 8 size).toNat ++ r), i < d.addr ∨ d.addr + 24 ≤ i) →
        m i = h.mem i := by
  obtain ⟨m, p, fl', htake, hshape, hframe⟩ := hs.take hc (dvd_up 8 size) hle hfits
  refine ⟨m, p, fl', ?_, hshape, hframe⟩
  obtain ⟨k, hk, hmove⟩ := bind_eq_ok.1 htake
  rw [Mem_Alloc, roundUp_eq hint, if_pos ((isInt_up hint).2 hsize), ok_bind, hfound, ok_bind,
    if_neg (by simp), hk, ok_bind, hmove, ok_bind, hs.ptr_eq (by simp)]
  rfl

theorem alloc_mono {fuel' : ℕ} (hle : fuel ≤ fuel') {x : Heap × Option ℕ}
    (hx : Mem_Alloc fuel h size policy = .ok x) : Mem_Alloc fuel' h size policy = .ok x := by
  obtain ⟨z, hz, hx⟩ := bind_eq_ok.1 hx
  obtain ⟨p, hp, hx⟩ := bind_eq_ok.1 hx
  exact bind_eq_ok.2 ⟨z, hz, bind_eq_ok.2 ⟨p, search_mono hle hp, hx⟩⟩

theorem fit_empty {better : ℤ → ℤ → Bool} {z : ℤ} (hnone : h.freeList = none) :
    h.fit better fuel z = .error .null := by
  unfold Heap.fit
  rw [hnone]
  cases fuel <;> rfl

/-- `bestfit` and `worstfit` read the head of the list. -/
theorem search_empty {z : ℤ} (hnone : h.freeList = none) (hp : Policy policy)
    (hfirst : policy ≠ FIRSTFIT) : h.search fuel policy z = .error .null := by
  obtain rfl | rfl | rfl := hp
  · rw [Heap.search, if_pos rfl, Heap.bestfit, fit_empty hnone]
  · rw [Heap.search, if_neg (by decide), if_pos rfl, Heap.worstfit, fit_empty hnone]
  · exact absurd rfl hfirst

/-- A call of `Mem_Alloc` that returns. -/
theorem alloc_returns (hint : IsInt size) {x : Heap × Option ℕ}
    (hx : Mem_Alloc fuel h size policy = .ok x) :
    size ≤ 2 ^ 31 - 8 ∧ Policy policy ∧ (h.freeList ≠ none ∨ policy = FIRSTFIT) := by
  obtain ⟨z, hz, hx⟩ := bind_eq_ok.1 hx
  obtain ⟨p, hsearch, hx⟩ := bind_eq_ok.1 hx
  have hp : Policy policy := by
    by_contra hp
    have hpol : policy ≠ BESTFIT ∧ policy ≠ WORSTFIT ∧ policy ≠ FIRSTFIT := by
      unfold Policy at hp
      tauto
    rw [Heap.search, if_neg hpol.1, if_neg hpol.2.1, if_neg hpol.2.2] at hsearch
    obtain rfl := Except.ok.inj hsearch
    rw [if_neg fun h => hp h.2] at hx
    cases hx
  refine ⟨?_, hp, ?_⟩
  · rw [roundUp_eq hint] at hz
    split_ifs at hz with hup
    exact (isInt_up hint).1 hup
  · by_contra hempty
    obtain ⟨hnone, hfirst⟩ := not_or.1 hempty
    rw [search_empty (not_not.1 hnone) hp hfirst] at hsearch
    cases hsearch

/-- The free list is empty if and only if the heap has no free chunk. -/
theorem Shape.freeList_eq_none (hs : Shape h cs fl ml) : h.freeList = none ↔ fl = [] := by
  rw [hs.lists.free.path.head, List.head?_eq_none_iff]

theorem Shape.length_le (hs : Shape h cs fl ml) : fl.length ≤ cs.length ∧ ml.length ≤ cs.length := by
  constructor
  · simpa using (List.subperm_of_subset hs.lists.free.path.nodup hs.free_subset).length_le
  · simpa using (List.subperm_of_subset hs.lists.used.path.nodup hs.used_subset).length_le

/-- A chunk is taken from a heap. -/
structure Taken (h h' : Heap) (cs cs' : List Chunk) (ml : List ℕ) (size : ℤ) (a : ℕ) : Prop where
  chunks : ∃ l c r, cs = l ++ c :: r ∧ c.free = true ∧ c.addr = a ∧ up 8 size ≤ c.size ∧
    cs' = l ++ (carve c (up 8 size).toNat ++ r)
  shape : ∃ fl', Shape h' cs' fl' (a :: ml)
  heap : ∃ m p, h' = { h with mem := m, freeList := p, memList := some a }
  frame : ∀ i, (∀ d ∈ cs', i < d.addr ∨ d.addr + 24 ≤ i) → h'.mem i = h.mem i

/-- **`Mem_Alloc`** takes a chunk of the free list, unless all of them are too small. -/
theorem Shape.alloc_spec (hs : Shape h cs fl ml) (hint : IsInt size) (hfits : Fits h size policy)
    (hp : Policy policy) (hne : h.freeList ≠ none ∨ policy = FIRSTFIT) (hfuel : cs.length ≤ fuel) :
    (∀ a ∈ fl, (header h.mem a).size < up 8 size) ∧
        Mem_Alloc fuel h size policy = .ok ({ h with m_error := some .E_NO_SPACE }, none) ∨
      ∃ h' cs' a, a ∈ fl ∧ up 8 size ≤ (header h.mem a).size ∧
        h.search fuel policy (up 8 size) = .ok (some a) ∧
        Mem_Alloc fuel h size policy = .ok (h', some (a + 24)) ∧ Taken h h' cs cs' ml size a := by
  rw [ne_eq, hs.freeList_eq_none, ← ne_eq] at hne
  obtain ⟨r, hr, hnone, hsome⟩ := hs.search hp hne (hs.length_le.1.trans hfuel) (up 8 size)
  cases r with
  | none => exact Or.inl ⟨hnone.1 rfl, alloc_none hint hfits.1 hp hr⟩
  | some a =>
    obtain ⟨hmem, hle, hspared⟩ := hsome a rfl
    have hsize := hle
    obtain ⟨c, hc, rfl, hfree⟩ := (hs.mem_free a).1 hmem
    obtain ⟨l, r, rfl⟩ := List.append_of_mem hc
    rw [hs.size c hc] at hle hspared
    have hfit : 0 ≤ up 8 size ∨ (c.size : ℤ) ≤ up 8 size + 24 := by
      obtain hpos | ⟨fl', hl, hsp⟩ := hfits.2
      · exact Or.inl hpos
      · obtain rfl := hl.path.unique hs.lists.free.path
        by_cases hpos : 0 ≤ up 8 size
        · exact Or.inl hpos
        · refine Or.inr ((hspared fun b hb => ?_).2 hsp)
          obtain ⟨d, hd, rfl, -⟩ := (hs.mem_free b).1 hb
          rw [hs.size d hd]
          omega
    obtain ⟨m, p, fl', halloc, hshape, hframe⟩ := hs.alloc hint hfits.1 hr hfree hle hfit
    exact Or.inr ⟨_, _, c.addr, hmem, hsize, hr, halloc, ⟨l, c, r, rfl, hfree, rfl, hle, rfl⟩,
      ⟨fl', hshape⟩, ⟨m, p, rfl⟩, hframe⟩

/-- A call of `Mem_Alloc` that returns finds nothing or takes a chunk. -/
theorem Shape.alloc_cases (hs : Shape h cs fl ml) (hint : IsInt size) (hfits : Fits h size policy)
    {x : Heap × Option ℕ} (hx : Mem_Alloc fuel h size policy = .ok x) :
    x = ({ h with m_error := some .E_NO_SPACE }, none) ∨
      ∃ h' cs' a, x = (h', some (a + 24)) ∧ Taken h h' cs cs' ml size a := by
  obtain ⟨-, hp, hne⟩ := alloc_returns hint hx
  replace hx := alloc_mono (le_max_left fuel cs.length) hx
  obtain ⟨-, halloc⟩ | ⟨h', cs', a, -, -, -, halloc, ht⟩ :=
    hs.alloc_spec hint hfits hp hne (le_max_right fuel cs.length)
  · rw [halloc] at hx
    exact Or.inl (Except.ok.inj hx).symm
  · rw [halloc] at hx
    exact Or.inr ⟨h', cs', a, (Except.ok.inj hx).symm, ht⟩

/-! ### `Mem_Free` -/

/-- The loop of `Mem_Free` looks through the list of the headers in use. -/
theorem find_eq {p : Option ℕ} {ptr : Option ℕ} (hl : Listed h p ml)
    (hml : ∀ a ∈ ml, ptrAdd (some a) sizeofHeader = some (a + 24)) (hfuel : ml.length ≤ fuel) :
    h.find ptr fuel p = .ok (ml.find? fun a => some (a + 24) = ptr) := by
  induction ml generalizing p fuel with
  | nil =>
    obtain rfl : p = none := hl.path
    unfold Heap.find
    rfl
  | cons a ml ih =>
    obtain ⟨fuel, rfl⟩ := Nat.exists_eq_add_of_le' (Nat.le_trans (by simp) hfuel : 1 ≤ fuel)
    obtain rfl := hl.path.1
    rw [Heap.find, hml a List.mem_cons_self, List.find?_cons]
    by_cases hp : some (a + 24) = ptr
    · rw [if_pos hp, decide_eq_true hp]
    · rw [if_neg hp, decide_eq_false hp]
      dsimp only
      rw [next_eq (hl.within a List.mem_cons_self), ok_bind]
      exact ih hl.tail (fun b hb => hml b (List.mem_cons_of_mem _ hb)) (Nat.le_of_succ_le_succ hfuel)

theorem find_mono {fuel' : ℕ} (hle : fuel ≤ fuel') {p ptr r : Option ℕ}
    (hr : h.find ptr fuel p = .ok r) : h.find ptr fuel' p = .ok r := by
  induction fuel generalizing p fuel' with
  | zero =>
    unfold Heap.find at hr ⊢
    cases p with
    | none => exact hr
    | some a =>
      dsimp only at hr ⊢
      split_ifs at hr ⊢
      exact hr
  | succ fuel ih =>
    obtain ⟨k, rfl⟩ := Nat.exists_eq_add_of_le' (Nat.le_trans (by simp) hle : 1 ≤ fuel')
    unfold Heap.find at hr ⊢
    cases p with
    | none => exact hr
    | some a =>
      dsimp only at hr ⊢
      split_ifs at hr ⊢
      · exact hr
      · obtain ⟨q, hq, hr⟩ := bind_eq_ok.1 hr
        exact bind_eq_ok.2 ⟨q, hq, ih (Nat.le_of_succ_le_succ hle) hr⟩

theorem coalesceLoop_mono {fuel' : ℕ} (hle : fuel ≤ fuel') {w : Walk} {x : Heap × Walk}
    (hx : coalesceLoop fuel h w = .ok x) : coalesceLoop fuel' h w = .ok x := by
  induction fuel generalizing h w fuel' with
  | zero =>
    unfold coalesceLoop at hx ⊢
    split_ifs at hx ⊢
    exact hx
  | succ fuel ih =>
    obtain ⟨k, rfl⟩ := Nat.exists_eq_add_of_le' (Nat.le_trans (by simp) hle : 1 ≤ fuel')
    unfold coalesceLoop at hx ⊢
    split_ifs at hx ⊢
    · obtain ⟨y, hy, hx⟩ := bind_eq_ok.1 hx
      obtain ⟨v, hv, hx⟩ := bind_eq_ok.1 hx
      exact bind_eq_ok.2 ⟨y, hy, bind_eq_ok.2 ⟨v, hv, ih (Nat.le_of_succ_le_succ hle) hx⟩⟩
    · exact hx

theorem free_mono {fuel' : ℕ} (hle : fuel ≤ fuel') {ptr : Option ℕ} {x : Heap × ℤ}
    (hx : Mem_Free fuel h ptr = .ok x) : Mem_Free fuel' h ptr = .ok x := by
  unfold Mem_Free at hx ⊢
  split_ifs at hx ⊢
  · exact hx
  · obtain ⟨p, hp, hx⟩ := bind_eq_ok.1 hx
    rw [find_mono hle hp, ok_bind]
    split_ifs at hx ⊢
    · exact hx
    · obtain ⟨h₁, h₁', hx⟩ := bind_eq_ok.1 hx
      obtain ⟨h₂, h₂', hx⟩ := bind_eq_ok.1 hx
      obtain ⟨h₃, h₃', hx⟩ := bind_eq_ok.1 hx
      obtain ⟨h₄, h₄', hx⟩ := bind_eq_ok.1 hx
      obtain ⟨h₅, h₅', hx⟩ := bind_eq_ok.1 hx
      obtain ⟨y, hy, hx'⟩ := bind_eq_ok.1 h₅'
      rw [h₁', ok_bind, h₂', ok_bind, h₃', ok_bind, h₄', ok_bind, coalesce, coalesceLoop_mono hle hy,
        ok_bind, hx', ok_bind]
      exact hx

/-- The part of `Mem_Free` before `coalesce`. -/
def detach (h : Heap) (memTmp : Option ℕ) : Except Stop Heap := do
  let h ← h.relinkPrev memTmp
  let h ← h.relinkNext memTmp
  let h ← h.dropMem memTmp
  h.setFree memTmp 1

/-- A header is taken out of the list of those in use. -/
theorem detach_spec (hl : Linked (fun a => (σ a).next) (fun a => (σ a).prev) none (m₁ ++ x :: m₂)
    h.memList) (hs : Sees h A σ) (hA : ∀ y ∈ m₁ ++ x :: m₂, y ∈ A) : ∃ q τ,
      Becomes { h with memList := q } A τ (detach h (some x)) ∧
      Linked (fun a => (τ a).next) (fun a => (τ a).prev) none (m₁ ++ m₂) q ∧
      (∀ y, (τ y).size = (σ y).size) ∧ (τ x).free = 1 ∧ ∀ y ≠ x, (τ y).free = (σ y).free := by
  have hx : x ∈ m₁ ++ x :: m₂ := by simp
  obtain ⟨hn, hp⟩ := neighbours hl hx
  have hself : unlinked σ x x = σ x :=
    unlinked_self (fun hx' => (hn x hx').2 rfl) fun hx' => (hp x hx').2 rfl
  obtain ⟨m₁', hm₁, hs₁, hframe₁⟩ := hs.unlink' (hA x hx) (fun b hb => ⟨hA b (hn b hb).1, (hn b hb).2⟩)
    fun b hb => ⟨hA b (hp b hb).1, (hp b hb).2⟩
  obtain ⟨q, hq⟩ : ∃ q, q = if h.memList = some x then (σ x).next else h.memList := ⟨_, rfl⟩
  have hdrop : Heap.dropMem { h with mem := m₁' } (some x) = .ok { h with mem := m₁', memList := q } := by
    unfold Heap.dropMem
    dsimp only
    rw [hq]
    split_ifs
    · rw [hs₁.next (hA x hx), hself, map_ok]
    · rfl
  have hs₂ := hs₁.of_heap (k := { h with mem := m₁', memList := q }) rfl rfl rfl
  obtain ⟨m', hm', hs', hframe'⟩ := hs₂.setFree (hA x hx) (y := 1) (by decide)
  refine ⟨q, _, ⟨m', ?_, hs', fun i hi => (hframe' i hi).trans (hframe₁ i hi)⟩, ?_, fun y => ?_,
    by simp, fun y hy => by simp [hy, unlinked]⟩
  · obtain ⟨k, hk, hrest⟩ := bind_eq_ok.1 hm₁
    unfold detach
    rw [hk, ok_bind, hrest, ok_bind, hdrop, ok_bind]
    exact hm'
  · have hne : ∀ y ∈ m₁ ++ m₂, y ≠ x := by
      have hnd := List.nodup_middle.1 hl.path.nodup
      rintro y hy rfl
      exact (List.nodup_cons.1 hnd).1 hy
    rw [hq]
    exact hl.unlink (by simp) (fun y hy => by simp [hne y hy, unlinked])
      fun y hy => by simp [hne y hy, unlinked]
  · by_cases hy : y = x <;> simp [hy, unlinked]

/-- The chunks before `coalesce`. -/
theorem Shape.detach (hs : Shape h (l ++ c :: r) fl (m₁ ++ c.addr :: m₂)) (hc : c.free = false) :
    ∃ m q, Mem.detach h (some c.addr) = .ok { h with mem := m, memList := q } ∧
      Loose { h with mem := m, memList := q } (l ++ { c with free := true } :: r) (m₁ ++ m₂) ∧
      ∀ i, (∀ d ∈ l ++ c :: r, i < d.addr ∨ d.addr + 24 ≤ i) → m i = h.mem i := by
  have hcs : c ∈ l ++ c :: r := by simp
  obtain ⟨q, τ, ⟨m, hm, hsees, hframe⟩, hlinked, hτsize, hτc, hτfree⟩ :=
    detach_spec hs.lists.used hs.sees hs.used_subset
  have hne := addr_ne hs.tiles
  -- only `c` changes, from used to free
  have hmem : ∀ d, d ∈ l ++ c :: r ↔ d = c ∨ d ∈ l ++ r := by
    intro d
    simp only [List.mem_append, List.mem_cons]
    tauto
  have hmem' : ∀ d, d ∈ l ++ { c with free := true } :: r ↔ d = { c with free := true } ∨ d ∈ l ++ r := by
    intro d
    simp only [List.mem_append, List.mem_cons]
    tauto
  have hheader : ∀ d ∈ l ++ c :: r, header m d.addr = τ d.addr := fun d hd =>
    hsees.header _ (List.mem_map_of_mem hd)
  have hused : ∀ a ∈ m₁ ++ m₂, a ∈ (l ++ c :: r).map Chunk.addr := fun a ha =>
    hs.used_subset a (List.mem_append.2 ((List.mem_append.1 ha).imp_right (List.mem_cons_of_mem _)))
  have hnd := List.nodup_cons.1 (List.nodup_middle.1 hs.lists.used.path.nodup)
  refine ⟨m, q, hm, ⟨hs.region.of_heap, tiles_replace (x := c) (m := [{ c with free := true }])
    hs.tiles ⟨rfl, rfl⟩, ?_, ?_, ?_, ?_, ?_⟩, fun i hi => hframe i (outside rfl hi)⟩
  · intro d hd
    obtain rfl | hd := (hmem' d).1 hd
    · exact (congrArg Header.size (hheader c hcs)).trans ((hτsize _).trans (hs.size c hcs))
    · have hd := (hmem d).2 (Or.inr hd)
      exact (congrArg Header.size (hheader d hd)).trans ((hτsize _).trans (hs.size d hd))
  · intro d hd
    obtain rfl | hd := (hmem' d).1 hd
    · exact (congrArg Header.free (hheader c hcs)).trans hτc
    · have hd' := (hmem d).2 (Or.inr hd)
      exact (congrArg Header.free (hheader d hd')).trans ((hτfree _ (hne d hd)).trans (hs.flag d hd'))
  · intro d hd
    obtain rfl | hd := (hmem' d).1 hd
    · exact hs.aligned c hcs
    · exact hs.aligned d ((hmem d).2 (Or.inr hd))
  · have heq : ∀ a ∈ m₁ ++ m₂, header m a = τ a := fun a ha => hsees.header a (hused a ha)
    exact hlinked.congr (fun a ha => congrArg Header.next (heq a ha))
      fun a ha => congrArg Header.prev (heq a ha)
  · intro a
    have ha : a ∈ m₁ ++ m₂ ↔ a ∈ m₁ ++ c.addr :: m₂ ∧ a ≠ c.addr := by
      constructor
      · intro ha
        refine ⟨List.mem_append.2 ((List.mem_append.1 ha).imp_right (List.mem_cons_of_mem _)), ?_⟩
        rintro rfl
        exact hnd.1 ha
      · rintro ⟨ha, hac⟩
        simp only [List.mem_append, List.mem_cons] at ha ⊢
        tauto
    rw [ha, hs.mem_used]
    constructor
    · rintro ⟨⟨d, hd, rfl, hfree⟩, hdc⟩
      obtain rfl | hd := (hmem d).1 hd
      · exact absurd rfl hdc
      · exact ⟨d, (hmem' d).2 (Or.inr hd), rfl, hfree⟩
    · rintro ⟨d, hd, rfl, hfree⟩
      obtain rfl | hd := (hmem' d).1 hd
      · cases hfree
      · exact ⟨⟨d, (hmem d).2 (Or.inr hd), rfl, hfree⟩, hne d hd⟩

/-- A chunk is freed and joined to its neighbours. -/
structure Freed (h h' : Heap) (cs cs' : List Chunk) (ml ml' : List ℕ) (a : ℕ) : Prop where
  chunks : ∃ l c r, cs = l ++ c :: r ∧ c.free = false ∧ c.addr = a ∧
    cs' = joined (l ++ { c with free := true } :: r)
  used : ∃ m₁ m₂, ml = m₁ ++ a :: m₂ ∧ ml' = m₁ ++ m₂
  shape : Shape h' cs' (frees cs') ml'
  heap : ∃ m p q, h' = { h with mem := m, freeList := p, memList := q }
  frame : ∀ i, (∀ d ∈ cs, i < d.addr ∨ d.addr + 24 ≤ i) → h'.mem i = h.mem i

/-- The loop of `Mem_Free` finds a header in use. -/
theorem Shape.find (hs : Shape h cs fl ml) (hfuel : cs.length ≤ fuel) (ptr : Option ℕ) :
    h.find ptr fuel h.memList = .ok (ml.find? fun a => some (a + 24) = ptr) := by
  refine find_eq ⟨hs.lists.used.path, fun a ha => (hs.sees.within a (hs.used_subset a ha)).2⟩
    (fun a ha => ?_) (hs.length_le.2.trans hfuel)
  obtain ⟨c, hc, rfl, -⟩ := (hs.mem_used a).1 ha
  exact hs.ptr_eq hc

/-- A pointer that is not to a block in use is rejected. -/
theorem Shape.free_bad (hs : Shape h cs fl ml) (hfuel : cs.length ≤ fuel) {ptr : Option ℕ}
    (hne : ptr ≠ none) (hbad : ∀ a ∈ ml, some (a + 24) ≠ ptr) :
    Mem_Free fuel h ptr = .ok ({ h with m_error := some .E_BAD_POINTER }, -1) := by
  have hnone : (ml.find? fun a => some (a + 24) = ptr) = none := by
    rw [List.find?_eq_none]
    exact fun a ha => by simpa using hbad a ha
  rw [Mem_Free, if_neg hne, hs.find hfuel, ok_bind, hnone, if_pos rfl]
  rfl

/-- **`Mem_Free`** frees the chunk of a block in use. -/
theorem Shape.free (hs : Shape h cs fl ml) (hfuel : cs.length ≤ fuel) {a : ℕ} (ha : a ∈ ml) :
    ∃ h' cs' ml', Mem_Free fuel h (some (a + 24)) = .ok (h', 0) ∧ Freed h h' cs cs' ml ml' a := by
  obtain ⟨c, hc, rfl, hused⟩ := (hs.mem_used a).1 ha
  have hfind : (ml.find? fun b => some (b + 24) = some (c.addr + 24)) = some c.addr := by
    cases hfound : ml.find? fun b => some (b + 24) = some (c.addr + 24) with
    | none =>
      rw [List.find?_eq_none] at hfound
      exact absurd (hfound c.addr ha) (by simp)
    | some b =>
      have hb := List.find?_some hfound
      simp only [Option.some.injEq, decide_eq_true_eq] at hb
      rw [show b = c.addr by omega]
  obtain ⟨l, r, rfl⟩ := List.append_of_mem hc
  obtain ⟨m₁, m₂, rfl⟩ := List.append_of_mem ha
  obtain ⟨m, q, hdetach, hloose, hframe⟩ := hs.detach hused
  obtain ⟨m', p, hcoal, hshape, hframe'⟩ := coalesce_spec hloose ⟨{ c with free := true }, by simp, rfl⟩
    (by simpa using hfuel : (l ++ { c with free := true } :: r).length ≤ fuel)
  refine ⟨_, _, _, ?_, ⟨⟨l, c, r, rfl, hused, rfl, rfl⟩, ⟨m₁, m₂, rfl, rfl⟩, hshape, ⟨m', p, q, rfl⟩,
    fun i hi => ?_⟩⟩
  · obtain ⟨h₁, hh₁, hrest⟩ := bind_eq_ok.1 hdetach
    obtain ⟨h₂, hh₂, hrest⟩ := bind_eq_ok.1 hrest
    obtain ⟨h₃, hh₃, hrest⟩ := bind_eq_ok.1 hrest
    rw [Mem_Free, if_neg (by simp), hs.find hfuel, ok_bind, hfind, if_neg (by simp), hh₁, ok_bind, hh₂,
      ok_bind, hh₃, ok_bind, hrest, ok_bind, hcoal, ok_bind]
    rfl
  · refine (hframe' i fun d hd => ?_).trans (hframe i hi)
    simp only [List.mem_append, List.mem_cons] at hd
    obtain hd | rfl | hd := hd
    · exact hi d (by simp [hd])
    · exact hi c (by simp)
    · exact hi d (by simp [hd])

/-- **A call of `Mem_Free` that returns** rejects the pointer or frees a chunk. -/
theorem Shape.free_cases (hs : Shape h cs fl ml) {ptr : Option ℕ} {x : Heap × ℤ}
    (hx : Mem_Free fuel h ptr = .ok x) :
    (∀ a ∈ ml, some (a + 24) ≠ ptr) ∧
        x = ({ h with m_error := if ptr = none then h.m_error else some .E_BAD_POINTER }, -1) ∨
      ∃ h' cs' ml' a, ptr = some (a + 24) ∧ x = (h', 0) ∧ Freed h h' cs cs' ml ml' a := by
  replace hx := free_mono (le_max_left fuel cs.length) hx
  have hfuel := le_max_right fuel cs.length
  by_cases hptr : ptr = none
  · subst hptr
    refine Or.inl ⟨fun a _ => by simp, ?_⟩
    exact (Except.ok.inj hx).symm
  · by_cases hgood : ∃ a ∈ ml, some (a + 24) = ptr
    · obtain ⟨a, ha, rfl⟩ := hgood
      obtain ⟨h', cs', ml', hfree, hfreed⟩ := hs.free hfuel ha
      rw [hfree] at hx
      exact Or.inr ⟨h', cs', ml', a, rfl, (Except.ok.inj hx).symm, hfreed⟩
    · have hbad : ∀ a ∈ ml, some (a + 24) ≠ ptr := fun a ha hp => hgood ⟨a, ha, hp⟩
      rw [hs.free_bad hfuel hptr hbad] at hx
      rw [if_neg hptr]
      exact Or.inl ⟨hbad, (Except.ok.inj hx).symm⟩

end Mem

end OperatingSystems

import OperatingSystems.Mem.Blocks
import Mathlib.Tactic.Linarith

/-!
# Calls that fail

* `alloc_fails` : **`Mem_Alloc` fails only for lack of space**, unless `bestfit` or `worstfit` searches an
  empty list.
* `bad_frees` : **a bad pointer changes nothing**, as long as no request had a size that breaks the heap.
* `sizes_safe` : **the sizes that do not break the heap**.
-/

namespace OperatingSystems

namespace Mem

open Bytes Links Tiling

variable {h : Heap} {cs : List Chunk} {fl ml ws : List ℕ} {fuel : ℕ} {n size policy : ℤ} {s : State}
  {page : PageSize} {ls : List Label}

/-! ### Lack of space -/

/-- A free chunk has `n` bytes or more. -/
def Adequate (h : Heap) (n : ℤ) : Prop :=
  ∃ ws, Walked h ws ∧ ∃ a ∈ ws, (header h.mem a).free = 1 ∧ n ≤ (header h.mem a).size

theorem Shape.adequate_iff (hs : Shape h cs fl ml) :
    Adequate h n ↔ ∃ a ∈ fl, n ≤ (header h.mem a).size := by
  constructor
  · rintro ⟨ws, hws, a, ha, hfree, hsize⟩
    rw [hws.unique hs.walked] at ha
    exact ⟨a, hs.mem_free_iff.2 ⟨ha, hfree⟩, hsize⟩
  · rintro ⟨a, ha, hsize⟩
    obtain ⟨hmem, hfree⟩ := hs.mem_free_iff.1 ha
    exact ⟨_, hs.walked, a, hmem, hfree, hsize⟩

/-- `Mem_Alloc` returns; it returns the null pointer if and only if no free chunk is large enough, and
then nothing but `m_error` has changed. -/
def FailsForSpace (h : Heap) (size policy : ℤ) : Prop :=
  ∃ n, ∀ fuel, n ≤ fuel → ∃ h' r, Mem_Alloc fuel h size policy = .ok (h', r) ∧
    (r = none ↔ ¬ Adequate h (up 8 size)) ∧
    (r = none → h' = { h with m_error := some .E_NO_SPACE })

/-- `bestfit` and `worstfit` dereference the null pointer if the free list is empty. -/
theorem alloc_empty (hnone : h.freeList = none) (hp : Policy policy) (hfirst : policy ≠ FIRSTFIT)
    (hint : IsInt size) (hsize : size ≤ 2 ^ 31 - 8) :
    Mem_Alloc fuel h size policy = .error .null := by
  rw [Mem_Alloc, roundUp_eq hint, if_pos ((isInt_up hint).2 hsize), ok_bind,
    search_empty hnone hp hfirst]
  rfl

/-- **`Mem_Alloc` fails only for lack of space** in the states of a run whose requests all fit, if and only
if the search does not begin with the head of an empty list. -/
theorem alloc_fails (hrun : (allocator page fuel).run start ls = some s)
    (hfits : (allocator page fuel).Allowed Fitting start ls) (hinit : s.heap.initialized = true)
    (hpos : 1 ≤ size) (hsize : size ≤ 2 ^ 31 - 8) (hp : Policy policy) :
    FailsForSpace s.heap size policy ↔ s.heap.freeList ≠ none ∨ policy = FIRSTFIT := by
  obtain ⟨cs, fl, ml, hs⟩ := (sound_of_run hrun hfits).intact hinit
  have hint : IsInt size := ⟨by omega, by omega⟩
  constructor
  · rintro ⟨n, hn⟩
    by_contra hempty
    obtain ⟨hnone, hfirst⟩ := not_or.1 hempty
    obtain ⟨h', r, hx, -⟩ := hn n le_rfl
    rw [alloc_empty (not_not.1 hnone) hp hfirst hint hsize] at hx
    cases hx
  · intro hne
    have hfit : Fits s.heap size policy :=
      ⟨hsize, Or.inl ((by omega : (0 : ℤ) ≤ size).trans (le_up size (by decide)))⟩
    refine ⟨cs.length, fun fuel' hfuel => ?_⟩
    obtain ⟨hsmall, hx⟩ | ⟨h', cs', a, ha, hle, -, hx, -⟩ :=
      hs.shape.alloc_spec hint hfit hp hne hfuel
    · refine ⟨_, none, hx, iff_of_true rfl ?_, fun _ => rfl⟩
      rw [hs.shape.adequate_iff]
      rintro ⟨a, ha, hle⟩
      exact absurd (hsmall a ha) (not_lt.2 hle)
    · refine ⟨h', some (a + 24), hx, iff_of_false (by simp) ?_, by simp⟩
      rw [not_not, hs.shape.adequate_iff]
      exact ⟨a, ha, hle⟩

theorem fitting_calls : (allocator smallPage 8).Allowed Fitting start calls :=
  legal_calls.mono fun _ _ => Legal.fitting

theorem alloc_fails_calls : ∃ s, (allocator smallPage 8).run start calls = some s ∧
    FailsForSpace s.heap 5000 FIRSTFIT := by
  obtain ⟨s, hs, hinit, -⟩ := run_calls
  exact ⟨s, hs, (alloc_fails hs fitting_calls hinit (by decide) (by decide) (Or.inr (Or.inr rfl))).2
    (Or.inr rfl)⟩

/-- All of the region is one block. -/
def fill : List Label := [.Mem_Init 4096 (some 4096), .Mem_Alloc 4072 FIRSTFIT]

theorem full_heap : ∃ s, (allocator smallPage 8).run start fill = some s ∧
    (allocator smallPage 8).Allowed Legal start fill ∧ s.heap.initialized = true ∧
    (∀ fuel, Mem_Alloc fuel s.heap 8 BESTFIT = .error .null) ∧ ¬ FailsForSpace s.heap 8 BESTFIT := by
  have hrun : ((allocator smallPage 8).run start fill).map (fun s =>
      (s.heap.initialized, s.heap.freeList)) = some (true, none) := by decide +kernel
  obtain ⟨s, hs, hx⟩ := Option.map_eq_some_iff.1 hrun
  have hnull : ∀ fuel, Mem_Alloc fuel s.heap 8 BESTFIT = .error .null := fun fuel =>
    alloc_empty (congrArg Prod.snd hx) (Or.inl rfl) (by decide) (by decide) (by decide)
  refine ⟨s, hs, by decide +kernel, congrArg Prod.fst hx, hnull, ?_⟩
  rintro ⟨n, hn⟩
  obtain ⟨h', r, hok, -⟩ := hn n le_rfl
  rw [hnull n] at hok
  cases hok

/-! ### Bad pointers -/

/-- **A bad pointer changes nothing** but `m_error`, in the states of a run whose requests all fit. -/
theorem bad_frees (hrun : (allocator page fuel).run start ls = some s)
    (hfits : (allocator page fuel).Allowed Fitting start ls) (ptr : Option ℕ) :
    ∃ n, ∀ fuel', n ≤ fuel' → ∃ h' r, Mem_Free fuel' s.heap ptr = .ok (h', r) ∧
      (r = 0 ↔ ∃ b ∈ s.live, some b.1 = ptr) ∧
      (r ≠ 0 → r = -1 ∧ h' = { s.heap with
        m_error := if ptr = none then s.heap.m_error else some .E_BAD_POINTER }) := by
  obtain hs | ⟨cs, fl, ml, hs⟩ := sound_of_run hrun hfits
  · exact ⟨0, fun fuel' _ => ⟨_, -1, hs.free, by simp [hs.live], fun _ => ⟨rfl, rfl⟩⟩⟩
  have hlive : (∃ b ∈ s.live, some b.1 = ptr) ↔ ∃ a ∈ ml, some (a + 24) = ptr := by
    have hmem : ∀ p, p ∈ s.live.map Prod.fst ↔ p ∈ ml.map (· + 24) := by simp [hs.live]
    constructor
    · rintro ⟨b, hb, rfl⟩
      obtain ⟨a, ha, hab⟩ := List.mem_map.1 ((hmem b.1).1 (List.mem_map_of_mem hb))
      exact ⟨a, ha, congrArg some hab⟩
    · rintro ⟨a, ha, rfl⟩
      obtain ⟨b, hb, hab⟩ := List.mem_map.1 ((hmem (a + 24)).2 (List.mem_map_of_mem ha))
      exact ⟨b, hb, congrArg some hab⟩
  refine ⟨cs.length, fun fuel' hfuel => ?_⟩
  by_cases hgood : ∃ a ∈ ml, some (a + 24) = ptr
  · obtain ⟨a, ha, rfl⟩ := hgood
    obtain ⟨h', -, -, hx, -⟩ := hs.shape.free hfuel ha
    exact ⟨h', 0, hx, iff_of_true rfl (hlive.2 ⟨a, ha, rfl⟩), fun hne => absurd rfl hne⟩
  · have hbad : ∀ a ∈ ml, some (a + 24) ≠ ptr := fun a ha hp => hgood ⟨a, ha, hp⟩
    by_cases hptr : ptr = none
    · subst hptr
      exact ⟨s.heap, -1, if_pos rfl, iff_of_false (by decide) (hlive.not.2 hgood), fun _ => ⟨rfl, rfl⟩⟩
    · refine ⟨_, -1, hs.shape.free_bad hfuel hptr hbad, iff_of_false (by decide) (hlive.not.2 hgood),
        fun _ => ⟨rfl, ?_⟩⟩
      rw [if_neg hptr]

theorem bad_frees_calls : ∃ s n h', (allocator smallPage 8).run start calls = some s ∧
    Mem_Free n s.heap (some 4120) = .ok (h', -1) ∧
    h' = { s.heap with m_error := some .E_BAD_POINTER } := by
  obtain ⟨s, hs, -, hlive⟩ := run_calls
  obtain ⟨n, hn⟩ := bad_frees hs fitting_calls (some 4120)
  obtain ⟨h', r, hx, hzero, hbad⟩ := hn n le_rfl
  have hr : r ≠ 0 := by
    intro hr
    obtain ⟨b, hb, hptr⟩ := hzero.1 hr
    have hmem : b.1 ∈ s.live.map Prod.fst := List.mem_map_of_mem hb
    rw [hlive, List.mem_singleton, Option.some.inj hptr] at hmem
    cases hmem
  obtain ⟨rfl, hh⟩ := hbad hr
  exact ⟨s, n, h', hs, hx, hh⟩

/-- Two requests of negative size get the same chunk, whose header then points to itself. -/
def negative : List Label :=
  [.Mem_Init 4096 (some 4096), .Mem_Alloc (-24) FIRSTFIT, .Mem_Alloc (-24) FIRSTFIT]

/-- A list that leads back to its first header has no end. -/
theorem find_cycle {a : ℕ} {ptr : Option ℕ} (hnext : h.next (some a) = .ok (some a))
    (hne : ptrAdd (some a) sizeofHeader ≠ ptr) : h.find ptr fuel (some a) = .error .endless := by
  induction fuel with
  | zero =>
    unfold Heap.find
    dsimp only
    rw [if_neg hne]
  | succ fuel ih =>
    unfold Heap.find
    dsimp only
    rw [if_neg hne, hnext, ok_bind]
    exact ih

theorem free_endless : ∃ s, (allocator smallPage 8).run start negative = some s ∧
    s.heap.initialized = true ∧ ∀ fuel, Mem_Free fuel s.heap (some 8) = .error .endless := by
  have hrun : ((allocator smallPage 8).run start negative).map (fun s => (s.heap.initialized,
      s.heap.memList, (s.heap.next s.heap.memList).toOption)) = some (true, some 4096, some (some 4096)) := by
    decide +kernel
  obtain ⟨s, hs, hx⟩ := Option.map_eq_some_iff.1 hrun
  obtain ⟨hinit, hx⟩ := Prod.ext_iff.1 hx
  obtain ⟨hmem, hnext⟩ := Prod.ext_iff.1 hx
  dsimp only at hinit hmem hnext
  rw [hmem] at hnext
  have hself : s.heap.next (some 4096) = .ok (some 4096) := by
    cases hr : s.heap.next (some 4096) with
    | error e =>
      rw [hr] at hnext
      cases hnext
    | ok q =>
      rw [hr] at hnext
      rw [Option.some.inj hnext]
  refine ⟨s, hs, hinit, fun fuel => ?_⟩
  rw [Mem_Free, if_neg (by decide), hmem, find_cycle hself (by decide)]
  rfl

/-! ### Sizes -/

/-- A request is rounded and the chunk that is found is split without an overflow; a new header lies
behind that of the chunk and in the chunk; the block is large enough and in the region. -/
def AllocSafe (h : Heap) (size policy : ℤ) : Prop :=
  ∃ z n, roundUp 8 size = .ok z ∧ ∀ fuel, n ≤ fuel → ∃ r, h.search fuel policy z = .ok r ∧
    ∀ a : ℕ, r = some a →
      IsInt ((header h.mem a).size - z) ∧ IsInt ((header h.mem a).size - z - sizeofHeader) ∧
      (0 < (header h.mem a).size - z - sizeofHeader →
        (a : ℤ) + sizeofHeader ≤ a + (z + sizeofHeader) ∧
        (a : ℤ) + (z + sizeofHeader) + sizeofHeader ≤ a + sizeofHeader + (header h.mem a).size) ∧
      ∃ h', Mem_Alloc fuel h size policy = .ok (h', some (a + sizeofHeader)) ∧
        max size 0 ≤ (header h'.mem a).size ∧ h.lo ≤ a + sizeofHeader ∧
        (a : ℤ) + sizeofHeader + (header h'.mem a).size ≤ h.hi

/-- The block that a request gets. -/
theorem Taken.block {h' : Heap} {cs' : List Chunk} {a : ℕ} (ht : Taken h h' cs cs' ml size a) :
    max size 0 ≤ (header h'.mem a).size ∧ h.lo ≤ a + sizeofHeader ∧
      (a : ℤ) + sizeofHeader + (header h'.mem a).size ≤ h.hi := by
  obtain ⟨fl', hshape⟩ := ht.shape
  obtain ⟨m, p, rfl⟩ := ht.heap
  obtain ⟨c, hc, -, rfl, hsize⟩ := ht.new_mem
  obtain ⟨hlo, hhi⟩ := hshape.tiles.mem Chunk.addr_le hc
  have hstop : c.stop = c.addr + 24 + c.size := rfl
  rw [hshape.size c hc]
  simp only [sizeofHeader] at hlo hhi ⊢
  omega

theorem Shape.allocSafe_iff (hs : Shape h cs fl ml) (hint : IsInt size) (hp : Policy policy)
    (hne : h.freeList ≠ none) : AllocSafe h size policy ↔ Fits h size policy := by
  have hfl : fl ≠ [] := fun hnil => hne (hs.freeList_eq_none.2 hnil)
  have hnonneg : ∀ a ∈ fl, 0 ≤ (header h.mem a).size ∧ (header h.mem a).size < 2 ^ 31 - 24 := by
    intro a ha
    obtain ⟨c, hc, rfl, -⟩ := (hs.mem_free a).1 ha
    have hlt := hs.size_lt hc
    rw [hs.size c hc]
    omega
  constructor
  · rintro ⟨z, n, hz, hn⟩
    rw [roundUp_eq hint] at hz
    split_ifs at hz with hup
    obtain rfl := Except.ok.inj hz
    refine ⟨(isInt_up hint).1 hup, ?_⟩
    by_cases hpos : 0 ≤ up 8 size
    · exact Or.inl hpos
    refine Or.inr ⟨fl, hs.listed, ?_⟩
    obtain ⟨r, hr, hsafe⟩ := hn (max n cs.length) (le_max_left _ _)
    obtain ⟨r', hr', hnone, hsome⟩ :=
      hs.search hp (Or.inl hfl) (hs.length_le.1.trans (le_max_right n cs.length)) (up 8 size)
    obtain rfl : r = r' := Except.ok.inj (hr.symm.trans hr')
    cases r with
    | none =>
      obtain ⟨a, fl', rfl⟩ := List.exists_cons_of_ne_nil hfl
      -- the first chunk is large enough for a negative size
      have hsmall := hnone.1 rfl a List.mem_cons_self
      have := (hnonneg a List.mem_cons_self).1
      omega
    | some a =>
      obtain ⟨hmem, hle, hspared⟩ := hsome a rfl
      obtain ⟨-, -, hsplit, -⟩ := hsafe a rfl
      refine (hspared fun b hb => ?_).1 ?_
      · have := (hnonneg b hb).1
        omega
      · simp only [sizeofHeader] at hsplit
        by_contra hbig
        have := (hsplit (by omega)).1
        omega
  · intro hfit
    refine ⟨up 8 size, cs.length, ?_, fun fuel' hfuel => ?_⟩
    · rw [roundUp_eq hint, if_pos ((isInt_up hint).2 hfit.1)]
    obtain ⟨r, hr, hnone, hsome⟩ :=
      hs.search hp (Or.inl hfl) (hs.length_le.1.trans hfuel) (up 8 size)
    refine ⟨r, hr, ?_⟩
    rintro a rfl
    obtain ⟨hmem, hle, hspared⟩ := hsome a rfl
    obtain ⟨hnn, hlt⟩ := hnonneg a hmem
    have hsmall : 0 ≤ up 8 size ∨ (header h.mem a).size ≤ up 8 size + 24 := by
      obtain hpos | ⟨fl', hl, hsp⟩ := hfit.2
      · exact Or.inl hpos
      · obtain rfl := hl.path.unique hs.lists.free.path
        by_cases hpos : 0 ≤ up 8 size
        · exact Or.inl hpos
        · exact Or.inr ((hspared fun b hb => by have := (hnonneg b hb).1; omega).2 hsp)
    have hblock : ∃ h', Mem_Alloc fuel' h size policy = .ok (h', some (a + sizeofHeader)) ∧
        max size 0 ≤ (header h'.mem a).size ∧ h.lo ≤ a + sizeofHeader ∧
        (a : ℤ) + sizeofHeader + (header h'.mem a).size ≤ h.hi := by
      obtain ⟨hlow, -⟩ | ⟨h', cs', b, -, -, hfound, hx, ht⟩ :=
        hs.alloc_spec hint hfit hp (Or.inl hne) hfuel
      · exact absurd (hlow a hmem) (not_lt.2 hle)
      · obtain rfl : a = b := Option.some.inj (Except.ok.inj (hr.symm.trans hfound))
        exact ⟨h', hx, ht.block⟩
    have hup := (isInt_up hint).2 hfit.1
    unfold IsInt at hup
    refine ⟨?_, ?_, fun hsplit => ?_, hblock⟩
    · unfold IsInt
      omega
    · unfold IsInt
      simp only [sizeofHeader]
      omega
    · simp only [sizeofHeader] at hsplit ⊢
      omega

/-- The sizes that can be rounded up to whole pages. -/
theorem isInt_up_page (hpos : 0 < size) : IsInt (up page.bytes size) ↔ size ≤ 2 ^ 31 - page.bytes := by
  obtain ⟨k, -, hk, hpage⟩ := page.power
  have hunit : (0 : ℤ) < page.bytes := by
    have := page.le
    omega
  have hle := le_up size hunit
  have hlt := up_lt hunit hpos.le
  obtain ⟨q, hq⟩ := dvd_up page.bytes size
  obtain ⟨d, hd⟩ : (page.bytes : ℤ) ∣ 2 ^ 31 := by
    rw [hpage, Nat.cast_pow]
    exact pow_dvd_pow (2 : ℤ) (by omega : k ≤ 31)
  unfold IsInt
  rw [hq] at hle hlt ⊢
  rw [hd]
  constructor
  · rintro ⟨-, hup⟩
    -- the next multiple is not above the bound
    have hqd : q + 1 ≤ d := lt_of_mul_lt_mul_left hup hunit.le
    have := mul_le_mul_of_nonneg_left hqd hunit.le
    linarith
  · intro hsize
    have hqd : q < d := by
      refine lt_of_mul_lt_mul_left ?_ hunit.le
      omega
    have := mul_lt_mul_of_pos_left hqd hunit
    exact ⟨by omega, this⟩

/-- `Mem_Init` rounds up without an overflow. -/
theorem Sound.init_iff (hs : Sound s) (hint : IsInt size) {region : Option ℕ}
    (hmap : Mappable page.bytes size region) :
    (∃ x, Mem_Init page.bytes s.heap size region = .ok x) ↔
      s.heap.initialized = true ∨ size ≤ 2 ^ 31 - page.bytes := by
  by_cases hinit : s.heap.initialized = true
  · exact iff_of_true ⟨_, init_again hinit⟩ (Or.inl hinit)
  obtain hs | ⟨cs, fl, ml, hs⟩ := hs
  · by_cases hpos : 0 < size
    · have hround : ¬ (s.heap.initialized ∨ size ≤ 0) := by
        simp [hs.initialized, hpos]
      rw [← isInt_up_page hpos, or_iff_right hinit]
      constructor
      · rintro ⟨x, hx⟩
        rw [Mem_Init, if_neg hround, roundUp_eq hint] at hx
        by_contra hup
        rw [if_neg hup] at hx
        cases hx
      · intro hup
        cases region with
        | none =>
          rw [Mem_Init, if_neg hround, roundUp_eq hint, if_pos hup]
          exact ⟨_, rfl⟩
        | some a =>
          obtain ⟨k, -, hk, -⟩ := init_spec page hs.initialized hpos hint hup hs.memList hmap
          exact ⟨_, hk⟩
    · refine iff_of_true ⟨_, if_pos (Or.inr (not_lt.1 hpos))⟩ (Or.inr ?_)
      obtain ⟨k, -, hk, hpage⟩ := page.power
      have : page.bytes ≤ 2 ^ 30 := by
        rw [hpage]
        exact Nat.pow_le_pow_right (by decide) hk
      omega
  · exact absurd hs.shape.region.initialized hinit

/-- **The sizes that do not break the heap**, in the states of a run whose requests all fit. -/
theorem sizes_safe (hrun : (allocator page fuel).run start ls = some s)
    (hfits : (allocator page fuel).Allowed Fitting start ls) :
    (∀ size region, IsInt size → Mappable page.bytes size region →
      ((∃ x, Mem_Init page.bytes s.heap size region = .ok x) ↔
        s.heap.initialized = true ∨ size ≤ 2 ^ 31 - page.bytes)) ∧
    (s.heap.initialized = true → s.heap.freeList ≠ none → ∀ size policy, IsInt size → Policy policy →
      (AllocSafe s.heap size policy ↔ Fits s.heap size policy)) := by
  have hs := sound_of_run hrun hfits
  refine ⟨fun size region hint hmap => hs.init_iff hint hmap, fun hinit hne size policy hint hp => ?_⟩
  obtain ⟨cs, fl, ml, hs⟩ := hs.intact hinit
  exact hs.shape.allocSafe_iff hint hp hne

theorem sizes_safe_calls : ∃ s, (allocator smallPage 8).run start calls = some s ∧
    AllocSafe s.heap (-5) FIRSTFIT ∧ ∃ x, Mem_Init 4096 s.heap (2 ^ 31 - 1) none = .ok x := by
  have hrun : ((allocator smallPage 8).run start calls).map (fun s =>
      (s.heap.initialized, s.heap.freeList)) = some (true, some 4096) := by decide +kernel
  obtain ⟨s, hs, hx⟩ := Option.map_eq_some_iff.1 hrun
  obtain ⟨hinit, hlist⟩ := Prod.ext_iff.1 hx
  obtain ⟨hregion, hblock⟩ := sizes_safe hs fitting_calls
  have hne : s.heap.freeList ≠ none := fun hnone => by simp [hnone] at hlist
  exact ⟨s, hs, (hblock hinit hne (-5) FIRSTFIT (by decide) (Or.inr (Or.inr rfl))).2
    ⟨by decide, Or.inl (by decide)⟩, (hregion _ none (by decide) trivial).2 (Or.inl hinit)⟩

theorem sizes_unsafe : ∃ s, (allocator smallPage 8).run start [.Mem_Init 4096 (some 4096)] = some s ∧
    s.heap.initialized = true ∧ s.heap.freeList = some 4096 ∧
    ¬ AllocSafe s.heap (-24) FIRSTFIT ∧ ¬ AllocSafe s.heap (2 ^ 31 - 1) FIRSTFIT := by
  have hrun : ((allocator smallPage 8).run start [.Mem_Init 4096 (some 4096)]).map (fun s =>
      (s.heap.initialized, s.heap.freeList, (header s.heap.mem 4096).size)) =
        some (true, some 4096, 4072) := by decide +kernel
  obtain ⟨s, hs, hx⟩ := Option.map_eq_some_iff.1 hrun
  simp only [Prod.mk.injEq] at hx
  obtain ⟨hinit, hlist, hsize⟩ := hx
  obtain ⟨cs, fl, ml, hshape⟩ := (sound_of_run hs ⟨trivial, fun _ _ => trivial⟩).intact hinit
  have hne : s.heap.freeList ≠ none := by simp [hlist]
  refine ⟨s, hs, hinit, hlist, fun hsafe => ?_, ?_⟩
  · -- a request of `-24` bytes is split off a chunk of 4072 bytes
    have hfits := (hshape.shape.allocSafe_iff (by decide) (Or.inr (Or.inr rfl)) hne).1 hsafe
    obtain hpos | ⟨fl', hl, hsp⟩ := hfits.2
    · exact absurd hpos (by decide)
    · rw [Spared, if_neg (by decide), if_neg (by decide)] at hsp
      have hle := hsp 4096 (by rw [← hl.path.head, hlist]; rfl)
      rw [hsize] at hle
      exact absurd hle (by decide)
  · rintro ⟨z, n, hz, -⟩
    rw [roundUp_eq (by decide), if_neg (by decide)] at hz
    cases hz

end Mem

end OperatingSystems

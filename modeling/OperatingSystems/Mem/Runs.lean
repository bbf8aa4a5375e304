import OperatingSystems.Mem.Calls

/-!
# Runs of the allocator

* `Intact` : **the invariant** of a run: the heap has its shape, and the blocks of the client are the
  chunks in use.
* `Sound.next` : every step keeps it whose request `Fits`.
-/

namespace OperatingSystems

namespace Mem

open Bytes Links Tiling

variable {h : Heap} {cs cs' l r : List Chunk} {fl ml ml' : List ℕ} {c : Chunk} {fuel : ℕ}
  {size policy : ℤ} {s s' : State} {page : PageSize} {ls : List Label}

/-- The blocks of the client are the chunks in use, which are large enough. -/
structure Intact (s : State) (cs : List Chunk) (fl ml : List ℕ) : Prop where
  shape : Shape s.heap cs fl ml
  live : s.live.map Prod.fst = ml.map (· + 24)
  room : ∀ b ∈ s.live, ∃ c ∈ cs, c.free = false ∧ c.addr + 24 = b.1 ∧ b.2 ≤ c.size

/-- There is no region yet; a failed call of `mmap` leaves its value in `freeList`. -/
structure Fresh (s : State) : Prop where
  initialized : s.heap.initialized = false
  memList : s.heap.memList = none
  empty : s.heap.hi = 0
  freeList : s.heap.freeList = none ∨ s.heap.freeList = some (2 ^ 64 - 1)
  live : s.live = []

def Sound (s : State) : Prop := Fresh s ∨ ∃ cs fl ml, Intact s cs fl ml

theorem sound_start : Sound start := Or.inl ⟨rfl, rfl, rfl, Or.inl rfl, rfl⟩

theorem Sound.intact (hs : Sound s) (hinit : s.heap.initialized = true) :
    ∃ cs fl ml, Intact s cs fl ml := by
  obtain hs | hs := hs
  · rw [hs.initialized] at hinit
    cases hinit
  · exact hs

/-- Each request of the run `Fits`. -/
def Fitting (s : State) : Label → Prop
  | .Mem_Alloc size policy => Fits s.heap size policy
  | _ => True

/-- Nothing but the payloads and `m_error` has changed. -/
theorem Shape.of_mem {m : Bytes} {e : Option Error} (hs : Shape h cs fl ml)
    (hm : ∀ c ∈ cs, header m c.addr = header h.mem c.addr) :
    Shape { h with mem := m, m_error := e } cs fl ml where
  region := ⟨hs.region.pos, hs.region.aligned, hs.region.top, hs.region.total, hs.region.int,
    hs.region.begin, hs.region.initialized⟩
  tiles := hs.tiles
  size := fun c hc => (congrArg Header.size (hm c hc)).trans (hs.size c hc)
  flag := fun c hc => (congrArg Header.free (hm c hc)).trans (hs.flag c hc)
  aligned := hs.aligned
  merged := hs.merged
  lists := by
    have hl := hs.lists.congr (τ := header m) fun a ha => by
      obtain ⟨c, hc, rfl⟩ := List.mem_map.1 ((List.mem_append.1 ha).elim (hs.free_subset a)
        (hs.used_subset a))
      exact hm c hc
    exact ⟨hl.free, hl.used, hl.disjoint⟩
  mem_free := hs.mem_free
  mem_used := hs.mem_used

theorem Intact.of_error {e : Option Error} (hs : Intact s cs fl ml) :
    Intact { s with heap := { s.heap with m_error := e } } cs fl ml :=
  ⟨hs.shape.of_mem fun _ _ => rfl, hs.live, hs.room⟩

/-- The payloads are apart from the headers. -/
theorem Shape.payload (hs : Shape h cs fl ml) (hc : c ∈ cs) {i : ℕ} (hlo : c.addr + 24 ≤ i)
    (hhi : i < c.stop) : ∀ d ∈ cs, i < d.addr ∨ d.addr + 24 ≤ i := by
  intro d hd
  obtain rfl | hcd | hdc := hs.tiles.eq_or Chunk.addr_le hc hd
  · exact Or.inr hlo
  · exact Or.inl (by omega)
  · unfold Chunk.stop at hdc
    exact Or.inr (by omega)

/-- The chunk of a block. -/
theorem Intact.chunk (hs : Intact s cs fl ml) {b : ℕ × ℤ} (hb : b ∈ s.live) :
    ∃ c ∈ cs, c.free = false ∧ c.addr ∈ ml ∧ c.addr + 24 = b.1 ∧ b.2 ≤ c.size := by
  obtain ⟨c, hc, hfree, haddr, hsize⟩ := hs.room b hb
  exact ⟨c, hc, hfree, (hs.shape.mem_used _).2 ⟨c, hc, rfl, hfree⟩, haddr, hsize⟩

/-! ### The steps -/

/-- A store into a block. -/
theorem Intact.store (hs : Intact s cs fl ml) {b : ℕ × ℤ} (hb : b ∈ s.live) {i : ℕ} (hi : i < b.2)
    {x : UInt8} : Intact { s with heap := { s.heap with
      mem := patch s.heap.mem (b.1 + i) 1 fun _ => x } } cs fl ml := by
  obtain ⟨c, hc, -, -, haddr, hsize⟩ := hs.chunk hb
  have hstop : c.stop = c.addr + 24 + c.size := rfl
  refine ⟨hs.shape.of_mem fun d hd => header_patch ?_, hs.live, hs.room⟩
  have := hs.shape.payload hc (i := b.1 + i) (by omega) (by omega) d hd
  omega

/-- A chunk in use stays when another one is taken. -/
theorem Taken.used_mem {h' : Heap} {a : ℕ} (ht : Taken h h' cs cs' ml size a) (hc : c ∈ cs)
    (hused : c.free = false) : c ∈ cs' := by
  obtain ⟨l, d, r, rfl, hfree, -, -, rfl⟩ := ht.chunks
  rw [mem_carve]
  simp only [List.mem_append, List.mem_cons] at hc ⊢
  obtain hc | rfl | hc := hc
  · exact Or.inl (Or.inl hc)
  · rw [hfree] at hused
    cases hused
  · exact Or.inl (Or.inr hc)

/-- The chunk that has been taken. -/
theorem Taken.new_mem {h' : Heap} {a : ℕ} (ht : Taken h h' cs cs' ml size a) :
    ∃ c ∈ cs', c.free = false ∧ c.addr = a ∧ max size 0 ≤ c.size := by
  obtain ⟨l, d, r, rfl, -, rfl, hle, rfl⟩ := ht.chunks
  have hup := le_up size (by decide : (0 : ℤ) < 8)
  by_cases hbig : (up 8 size).toNat + 24 < d.size
  · refine ⟨⟨d.addr, (up 8 size).toNat, false⟩, mem_carve.2 (Or.inr ?_), rfl, rfl, ?_⟩
    · rw [if_pos hbig]
      exact Or.inl rfl
    · simp only
      omega
  · refine ⟨⟨d.addr, d.size, false⟩, mem_carve.2 (Or.inr ?_), rfl, rfl, ?_⟩
    · rw [if_neg hbig]
    · simp only
      omega

/-- The client gets a block. -/
theorem Intact.alloc (hs : Intact s cs fl ml) {h' : Heap} {a : ℕ}
    (ht : Taken s.heap h' cs cs' ml size a) :
    ∃ fl', Intact ⟨h', (a + 24, size) :: s.live⟩ cs' fl' (a :: ml) := by
  obtain ⟨fl', hshape⟩ := ht.shape
  refine ⟨fl', hshape, ?_, fun b hb => ?_⟩
  · simp [hs.live]
  · obtain rfl | hb := List.mem_cons.1 hb
    · obtain ⟨c, hc, hfree, rfl, hsize⟩ := ht.new_mem
      exact ⟨c, hc, hfree, rfl, (le_max_left _ _).trans hsize⟩
    · obtain ⟨c, hc, hfree, haddr, hsize⟩ := hs.room b hb
      exact ⟨c, ht.used_mem hc hfree, hfree, haddr, hsize⟩

/-- The chunks in use, after another one has been freed. -/
theorem Freed.used_mem {h' : Heap} {a : ℕ} (hf : Freed h h' cs cs' ml ml' a) (hc : c ∈ cs)
    (hused : c.free = false) (hne : c.addr ≠ a) : c ∈ cs' := by
  obtain ⟨l, d, r, rfl, -, rfl, rfl⟩ := hf.chunks
  refine (mem_joined_of_used hused).2 ?_
  simp only [List.mem_append, List.mem_cons] at hc ⊢
  obtain hc | rfl | hc := hc
  · exact Or.inl hc
  · exact absurd rfl hne
  · exact Or.inr (Or.inr hc)

/-- The client gives a block back. -/
theorem Intact.free (hs : Intact s cs fl ml) {h' : Heap} {a : ℕ}
    (hf : Freed s.heap h' cs cs' ml ml' a) :
    Intact ⟨h', s.live.filter fun b => some b.1 ≠ some (a + 24)⟩ cs' (frees cs') ml' := by
  obtain ⟨m₁, m₂, rfl, rfl⟩ := hf.used
  have hnd := hs.shape.lists.used.path.nodup
  refine ⟨hf.shape, ?_, fun b hb => ?_⟩
  · have hfilter : (s.live.filter fun b => some b.1 ≠ some (a + 24)).map Prod.fst =
        (s.live.map Prod.fst).filter fun p => some p ≠ some (a + 24) := by
      rw [List.filter_map]
      rfl
    rw [hfilter, hs.live, List.filter_map]
    congr 1
    have hnd' := List.nodup_cons.1 (List.nodup_middle.1 hnd)
    rw [List.filter_append, List.filter_cons_of_neg (by simp)]
    congr 1
    · refine List.filter_eq_self.2 fun x hx => ?_
      have hxa : x ≠ a := fun heq => hnd'.1 (heq ▸ List.mem_append_left _ hx)
      simpa using hxa
    · refine List.filter_eq_self.2 fun x hx => ?_
      have hxa : x ≠ a := fun heq => hnd'.1 (heq ▸ List.mem_append_right _ hx)
      simpa using hxa
  · obtain ⟨hb, hne⟩ := List.mem_filter.1 hb
    obtain ⟨c, hc, hfree, haddr, hsize⟩ := hs.room b hb
    have hca : c.addr ≠ a := by
      rintro rfl
      simp [haddr] at hne
    exact ⟨c, hf.used_mem hc hfree hca, hfree, haddr, hsize⟩

/-- `Mem_Alloc` finds nothing before `Mem_Init`. -/
theorem Fresh.alloc (hs : Fresh s) {x : Heap × Option ℕ} (hint : IsInt size)
    (hx : Mem_Alloc fuel s.heap size policy = .ok x) :
    x = ({ s.heap with m_error := some .E_NO_SPACE }, none) := by
  obtain ⟨hsize, hp, hne⟩ := alloc_returns hint hx
  obtain hnone | hfailed := hs.freeList
  · have hfirst : policy = FIRSTFIT := hne.resolve_left (not_not.2 hnone)
    subst hfirst
    have hsearch : s.heap.search fuel FIRSTFIT (up 8 size) = .ok none := by
      rw [Heap.search, if_neg (by decide), if_neg (by decide), if_pos rfl, Heap.firstfit, hnone]
      cases fuel <;> rfl
    rw [alloc_none hint hsize hp hsearch] at hx
    exact (Except.ok.inj hx).symm
  · -- the searches read the header at the value of `MAP_FAILED`
    have hfault : ∀ off n, s.heap.access (some (2 ^ 64 - 1)) off n = .error .fault := by
      intro off n
      refine if_neg ?_
      rw [hs.empty]
      omega
    have hhead : s.heap.size (some (2 ^ 64 - 1)) = .error .fault := by
      rw [Heap.size, hfault]
      rfl
    obtain ⟨z, -, hx⟩ := bind_eq_ok.1 hx
    obtain ⟨p, hsearch, -⟩ := bind_eq_ok.1 hx
    exfalso
    have hfit : ∀ better, s.heap.fit better fuel z ≠ .ok p := by
      intro better hok
      rw [Heap.fit, hfailed] at hok
      cases fuel with
      | zero => cases hok
      | succ fuel =>
        rw [Heap.fitLoop, hhead] at hok
        cases hok
    obtain rfl | rfl | rfl := hp
    · exact hfit _ hsearch
    · exact hfit _ hsearch
    · rw [Heap.search, if_neg (by decide), if_neg (by decide), if_pos rfl, Heap.firstfit,
        hfailed] at hsearch
      cases fuel with
      | zero => cases hsearch
      | succ fuel =>
        rw [Heap.firstfitLoop, hhead] at hsearch
        cases hsearch

theorem Fresh.free (hs : Fresh s) {ptr : Option ℕ} :
    Mem_Free fuel s.heap ptr = .ok ({ s.heap with
      m_error := if ptr = none then s.heap.m_error else some .E_BAD_POINTER }, -1) := by
  have hfind : s.heap.find ptr fuel s.heap.memList = .ok none := by
    rw [hs.memList]
    unfold Heap.find
    rfl
  unfold Mem_Free
  split_ifs with hptr
  · rfl
  · rw [hfind, ok_bind, if_pos rfl]
    rfl

/-- Before `Mem_Init`, after `Mem_Init` has failed and after it has succeeded. -/
theorem Fresh.init (hs : Fresh s) {region : Option ℕ} (hint : IsInt size)
    (hmap : Mappable page.bytes size region) {x : Heap × ℤ}
    (hx : Mem_Init page.bytes s.heap size region = .ok x) : Sound { s with heap := x.1 } := by
  by_cases hpos : 0 < size
  · have hup : IsInt (up page.bytes size) := by
      rw [Mem_Init, if_neg (by simp [hs.initialized, hpos]), roundUp_eq hint] at hx
      by_contra hup
      rw [if_neg hup] at hx
      cases hx
    cases region with
    | none =>
      rw [Mem_Init, if_neg (by simp [hs.initialized, hpos]), roundUp_eq hint, if_pos hup] at hx
      obtain rfl := Except.ok.inj hx
      exact Or.inl ⟨hs.initialized, hs.memList, hs.empty, Or.inr rfl, hs.live⟩
    | some a =>
      obtain ⟨k, n, hk, hshape⟩ := init_spec page hs.initialized hpos hint hup hs.memList hmap
      rw [hk] at hx
      obtain rfl := Except.ok.inj hx
      exact Or.inr ⟨_, _, _, hshape, by simp [hs.live], by simp [hs.live]⟩
  · rw [Mem_Init, if_pos (by simp only [hs.initialized]; omega)] at hx
    obtain rfl := Except.ok.inj hx
    exact Or.inl ⟨hs.initialized, hs.memList, hs.empty, hs.freeList, hs.live⟩

/-- A second call of `Mem_Init` is rejected. -/
theorem init_again (hinit : h.initialized = true) {region : Option ℕ} :
    Mem_Init page.bytes h size region = .ok ({ h with m_error := some .E_BAD_ARGS }, -1) :=
  if_pos (Or.inl hinit)

/-! ### Steps and runs -/

/-- What a step does. -/
inductive Steps (fuel : ℕ) (page : PageSize) (s : State) : Label → State → Prop where
  | Mem_Init {size : ℤ} {region : Option ℕ} {h : Heap} {r : ℤ} (hint : IsInt size)
    (hmap : Mappable page.bytes size region)
    (hr : Mem_Init page.bytes s.heap size region = .ok (h, r)) :
    Steps fuel page s (.Mem_Init size region) { s with heap := h }
  | none {size policy : ℤ} {h : Heap} (hint : IsInt size)
    (hr : Mem_Alloc fuel s.heap size policy = .ok (h, none)) :
    Steps fuel page s (.Mem_Alloc size policy) { s with heap := h }
  | some {size policy : ℤ} {h : Heap} {ptr : ℕ} (hint : IsInt size)
    (hr : Mem_Alloc fuel s.heap size policy = .ok (h, some ptr)) :
    Steps fuel page s (.Mem_Alloc size policy) ⟨h, (ptr, size) :: s.live⟩
  | Mem_Free {ptr : Option ℕ} {h : Heap} {r : ℤ} (hr : Mem_Free fuel s.heap ptr = .ok (h, r)) :
    Steps fuel page s (.Mem_Free ptr)
      ⟨h, if r = 0 then s.live.filter fun b => some b.1 ≠ ptr else s.live⟩
  | store {b : ℕ × ℤ} {i : ℕ} {x : UInt8} (hb : b ∈ s.live) (hi : i < b.2) :
    Steps fuel page s (.store b.1 i x)
      { s with heap := { s.heap with mem := patch s.heap.mem (b.1 + i) 1 fun _ => x } }

theorem steps_of_next {l : Label} (hnext : (allocator page fuel).next s l = some s') :
    Steps fuel page s l s' := by
  cases l with
  | Mem_Init size region =>
    simp only [allocator] at hnext
    split_ifs at hnext with hok
    split at hnext
    · rename_i h r hr
      obtain rfl := Option.some.inj hnext
      exact .Mem_Init hok.1 hok.2 hr
    · cases hnext
  | Mem_Alloc size policy =>
    simp only [allocator] at hnext
    split_ifs at hnext with hok
    split at hnext
    · rename_i h ptr hr
      obtain rfl := Option.some.inj hnext
      exact .some hok.1 hr
    · rename_i h hr
      obtain rfl := Option.some.inj hnext
      exact .none hok.1 hr
    · cases hnext
  | Mem_Free ptr =>
    simp only [allocator] at hnext
    split at hnext
    · rename_i h r hr
      obtain rfl := Option.some.inj hnext
      exact .Mem_Free hr
    · cases hnext
  | store ptr i x =>
    simp only [allocator] at hnext
    split_ifs at hnext with hok
    obtain rfl := Option.some.inj hnext
    simp only [List.any_eq_true, decide_eq_true_eq] at hok
    obtain ⟨b, hb, rfl, hi⟩ := hok
    exact .store hb hi

/-- **Every step** whose request `Fits` keeps the invariant. -/
theorem Sound.next (hs : Sound s) {l : Label} (hfits : Fitting s l)
    (hnext : (allocator page fuel).next s l = some s') : Sound s' := by
  cases steps_of_next hnext with
  | Mem_Init hint hmap hr =>
    obtain hs | ⟨cs, fl, ml, hs⟩ := hs
    · exact hs.init hint hmap hr
    · rw [init_again hs.shape.region.initialized] at hr
      cases hr
      exact Or.inr ⟨cs, fl, ml, hs.of_error⟩
  | none hint hr =>
    obtain hs | ⟨cs, fl, ml, hs⟩ := hs
    · cases hs.alloc hint hr
      exact Or.inl ⟨hs.initialized, hs.memList, hs.empty, hs.freeList, hs.live⟩
    · obtain hx | ⟨h', cs', a, hx, ht⟩ := hs.shape.alloc_cases hint hfits hr
      · cases hx
        exact Or.inr ⟨cs, fl, ml, hs.of_error⟩
      · cases hx
  | some hint hr =>
    obtain hs | ⟨cs, fl, ml, hs⟩ := hs
    · cases hs.alloc hint hr
    · obtain hx | ⟨h', cs', a, hx, ht⟩ := hs.shape.alloc_cases hint hfits hr
      · cases hx
      · cases hx
        obtain ⟨fl', hs'⟩ := hs.alloc ht
        exact Or.inr ⟨cs', fl', _, hs'⟩
  | Mem_Free hr =>
    obtain hs | ⟨cs, fl, ml, hs⟩ := hs
    · rw [hs.free] at hr
      cases hr
      exact Or.inl ⟨hs.initialized, hs.memList, hs.empty, hs.freeList, hs.live⟩
    · obtain ⟨-, hx⟩ | ⟨h', cs', ml', a, rfl, hx, hf⟩ := hs.shape.free_cases hr
      · cases hx
        exact Or.inr ⟨cs, fl, ml, hs.of_error⟩
      · cases hx
        exact Or.inr ⟨cs', _, ml', hs.free hf⟩
  | store hb hi =>
    obtain hs | ⟨cs, fl, ml, hs⟩ := hs
    · rw [hs.live] at hb
      cases hb
    · exact Or.inr ⟨cs, fl, ml, hs.store hb hi⟩

/-- **The invariant** holds in every state of a run whose requests all fit. -/
theorem sound_of_run (h : (allocator page fuel).run start ls = some s)
    (hfits : (allocator page fuel).Allowed Fitting start ls) : Sound s :=
  Machine.run_invariant_of_allowed h hfits sound_start fun _ _ _ hs hl hnext => hs.next hl hnext

/-! ### A short run -/

def smallPage : PageSize := ⟨4096, 12, by decide, by decide, by decide⟩

/-- A region of one page; the first of two blocks is given back. -/
def calls : List Label :=
  [.Mem_Init 4000 (some 4096), .Mem_Alloc 10 FIRSTFIT, .Mem_Alloc 100 BESTFIT, .Mem_Free (some 4120)]

theorem run_calls : ∃ s, (allocator smallPage 8).run start calls = some s ∧
    s.heap.initialized = true ∧ s.live.map Prod.fst = [4160] := by
  have hrun : ((allocator smallPage 8).run start calls).map (fun s =>
      (s.heap.initialized, s.live.map Prod.fst)) = some (true, [4160]) := by decide +kernel
  obtain ⟨s, hs, hx⟩ := Option.map_eq_some_iff.1 hrun
  exact ⟨s, hs, congrArg Prod.fst hx, congrArg Prod.snd hx⟩

end Mem

end OperatingSystems

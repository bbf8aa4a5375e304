import OperatingSystems.Mem.Runs

/-!
# The blocks of the client

* `Walked` : the headers that a walk over the region visits.
* `lists_intact` : **each header is on one of the two lists**.
* `blocks_intact` : **blocks do not overlap**, and no call writes to them.
* `free_merged` : **free neighbours are joined**.
-/

namespace OperatingSystems

namespace Mem

open Bytes Links Tiling

variable {h : Heap} {cs : List Chunk} {fl ml ws : List ℕ} {c : Chunk} {fuel a : ℕ} {p q size policy : ℤ}
  {s s' : State} {page : PageSize} {ls ls' : List Label} {b : ℕ × ℤ}

/-- From `p` on, adding the size of a header and of what is behind it, as long as this is before `q`,
leads through `ws` to `q`. -/
def Walks (h : Heap) : ℤ → List ℕ → ℤ → Prop
  | p, [], q => p = q
  | p, a :: ws, q =>
    p < q ∧ p = a ∧ Walks h (a + (sizeofHeader + (header h.mem a).size)) ws q

/-- The walk over the region visits `ws`. -/
def Walked (h : Heap) (ws : List ℕ) : Prop :=
  ∃ b : ℕ, h.begin = some b ∧ Walks h b ws (b + h.totalSize)

theorem walks_of_tiles {a b : ℕ} (ht : Tiles Chunk.addr Chunk.stop a cs b)
    (hsize : ∀ c ∈ cs, (header h.mem c.addr).size = c.size) : Walks h a (cs.map Chunk.addr) b := by
  induction cs generalizing a with
  | nil => exact congrArg _ ht
  | cons c cs ih =>
    have hstop := ht.2.le Chunk.addr_le
    have haddr : c.addr = a := ht.1
    unfold Chunk.stop at hstop
    refine ⟨by omega, congrArg _ haddr.symm, ?_⟩
    have hnext : (c.addr : ℤ) + (sizeofHeader + (header h.mem c.addr).size) = c.stop := by
      rw [hsize c List.mem_cons_self, Chunk.stop, sizeofHeader]
      push_cast
      ring
    rw [hnext]
    exact ih ht.2 fun d hd => hsize d (List.mem_cons_of_mem _ hd)

/-- There is only one walk. -/
theorem Walks.unique {ws' : List ℕ} (hw : Walks h p ws q) (hw' : Walks h p ws' q) : ws = ws' := by
  induction ws generalizing p ws' with
  | nil =>
    cases ws' with
    | nil => rfl
    | cons a' ws' => exact absurd hw (ne_of_lt hw'.1)
  | cons a ws ih =>
    cases ws' with
    | nil => exact absurd hw' (ne_of_lt hw.1)
    | cons a' ws' =>
      obtain rfl : a = a' := Int.ofNat.inj (hw.2.1.symm.trans hw'.2.1)
      rw [ih hw.2.2 hw'.2.2]

theorem Walked.unique {ws' : List ℕ} (hw : Walked h ws) (hw' : Walked h ws') : ws = ws' := by
  obtain ⟨b, hb, hw⟩ := hw
  obtain ⟨b', hb', hw'⟩ := hw'
  obtain rfl : b = b' := Option.some.inj (hb.symm.trans hb')
  exact hw.unique hw'

theorem Shape.walked (hs : Shape h cs fl ml) : Walked h (cs.map Chunk.addr) := by
  refine ⟨h.lo, hs.region.begin, ?_⟩
  rw [hs.region.total, add_sub_cancel]
  exact walks_of_tiles hs.tiles hs.size

/-- The requests of a client that keeps to the interface. -/
def Legal (s : State) : Label → Prop
  | .Mem_Alloc size policy => 1 ≤ size ∧ size ≤ 2 ^ 31 - 8 ∧ Policy policy ∧
    (s.heap.freeList ≠ none ∨ policy = FIRSTFIT)
  | _ => True

instance (policy : ℤ) : Decidable (Policy policy) := inferInstanceAs (Decidable (_ ∨ _ ∨ _))

instance (s : State) : (l : Label) → Decidable (Legal s l)
  | .Mem_Init _ _ => isTrue trivial
  | .Mem_Alloc _ _ => inferInstanceAs (Decidable (_ ∧ _ ∧ _ ∧ _))
  | .Mem_Free _ => isTrue trivial
  | .store _ _ _ => isTrue trivial

theorem Legal.fits (hl : Legal s (.Mem_Alloc size policy)) : Fits s.heap size policy := by
  obtain ⟨hpos, hsize, -⟩ := hl
  exact ⟨hsize, Or.inl ((by omega : (0 : ℤ) ≤ size).trans (le_up size (by decide)))⟩

theorem Legal.fitting {l : Label} (hl : Legal s l) : Fitting s l := by
  cases l with
  | Mem_Alloc size policy => exact hl.fits
  | _ => trivial

theorem Legal.isInt (hl : Legal s (.Mem_Alloc size policy)) : IsInt size := by
  obtain ⟨hpos, hsize, -⟩ := hl
  exact ⟨by omega, by omega⟩

theorem legal_calls : (allocator smallPage 8).Allowed Legal start calls := by decide +kernel

theorem intact_of_run (hrun : (allocator page fuel).run start ls = some s)
    (hlegal : (allocator page fuel).Allowed Legal start ls) (hinit : s.heap.initialized = true) :
    ∃ cs fl ml, Intact s cs fl ml :=
  (sound_of_run hrun (hlegal.mono fun _ _ => Legal.fitting)).intact hinit

/-! ### The two lists -/

theorem Shape.mem_free_iff (hs : Shape h cs fl ml) :
    a ∈ fl ↔ a ∈ cs.map Chunk.addr ∧ (header h.mem a).free = 1 := by
  rw [hs.mem_free, List.mem_map]
  constructor
  · rintro ⟨c, hc, rfl, hfree⟩
    refine ⟨⟨c, hc, rfl⟩, ?_⟩
    rw [hs.flag c hc, hfree]
    rfl
  · rintro ⟨⟨c, hc, rfl⟩, hfree⟩
    refine ⟨c, hc, rfl, ?_⟩
    rw [hs.flag c hc] at hfree
    by_contra hused
    simp [hused] at hfree

theorem Shape.mem_used_iff (hs : Shape h cs fl ml) :
    a ∈ ml ↔ a ∈ cs.map Chunk.addr ∧ (header h.mem a).free = 0 := by
  rw [hs.mem_used, List.mem_map]
  constructor
  · rintro ⟨c, hc, rfl, hfree⟩
    refine ⟨⟨c, hc, rfl⟩, ?_⟩
    rw [hs.flag c hc, hfree]
    rfl
  · rintro ⟨⟨c, hc, rfl⟩, hfree⟩
    refine ⟨c, hc, rfl, ?_⟩
    rw [hs.flag c hc] at hfree
    by_contra hused
    simp [hused] at hfree

/-- **The lists of the allocator** in every state of a run: the walk over the region ends where the
region ends, each header that it visits is on the list that its field `free` tells, and the next call
returns. -/
theorem lists_intact (hrun : (allocator page fuel).run start ls = some s)
    (hlegal : (allocator page fuel).Allowed Legal start ls) (hinit : s.heap.initialized = true) :
    (∃ ws fl ml, Walked s.heap ws ∧
      Linked (fun a => (header s.heap.mem a).next) (fun a => (header s.heap.mem a).prev) none fl
        s.heap.freeList ∧ fl.Nodup ∧
      Linked (fun a => (header s.heap.mem a).next) (fun a => (header s.heap.mem a).prev) none ml
        s.heap.memList ∧ ml.Nodup ∧
      (∀ a, a ∈ fl ↔ a ∈ ws ∧ (header s.heap.mem a).free = 1) ∧
      (∀ a, a ∈ ml ↔ a ∈ ws ∧ (header s.heap.mem a).free = 0) ∧
      ∀ a ∈ ws, a ∈ fl ∨ a ∈ ml) ∧
    ∃ n, ∀ fuel', n ≤ fuel' →
      (∀ size policy, Legal s (.Mem_Alloc size policy) →
        ∃ x, Mem_Alloc fuel' s.heap size policy = .ok x) ∧
      ∀ ptr, ∃ x, Mem_Free fuel' s.heap ptr = .ok x := by
  obtain ⟨cs, fl, ml, hs⟩ := intact_of_run hrun hlegal hinit
  have hshape := hs.shape
  refine ⟨⟨cs.map Chunk.addr, fl, ml, hshape.walked, hshape.lists.free,
    hshape.lists.free.path.nodup, hshape.lists.used, hshape.lists.used.path.nodup,
    fun a => hshape.mem_free_iff, fun a => hshape.mem_used_iff, fun a ha => ?_⟩,
    cs.length, fun fuel' hfuel => ⟨fun size policy hl => ?_, fun ptr => ?_⟩⟩
  · obtain ⟨c, hc, rfl⟩ := List.mem_map.1 ha
    cases hfree : c.free with
    | true => exact Or.inl ((hshape.mem_free _).2 ⟨c, hc, rfl, hfree⟩)
    | false => exact Or.inr ((hshape.mem_used _).2 ⟨c, hc, rfl, hfree⟩)
  · obtain ⟨-, hx⟩ | ⟨h', -, a, -, -, -, hx, -⟩ :=
      hshape.alloc_spec hl.isInt hl.fits hl.2.2.1 hl.2.2.2 hfuel
    · exact ⟨_, hx⟩
    · exact ⟨_, hx⟩
  · by_cases hptr : ptr = none
    · exact ⟨_, if_pos hptr⟩
    by_cases hgood : ∃ a ∈ ml, some (a + 24) = ptr
    · obtain ⟨a, ha, rfl⟩ := hgood
      obtain ⟨h', -, -, hx, -⟩ := hshape.free hfuel ha
      exact ⟨_, hx⟩
    · exact ⟨_, hshape.free_bad hfuel hptr fun a ha hp => hgood ⟨a, ha, hp⟩⟩

theorem lists_intact_calls : ∃ s ws, (allocator smallPage 8).run start calls = some s ∧
    Walked s.heap ws ∧ ∃ n, ∀ ptr, ∃ x, Mem_Free n s.heap ptr = .ok x := by
  obtain ⟨s, hs, hinit, -⟩ := run_calls
  obtain ⟨⟨ws, -, -, hws, -⟩, n, hn⟩ := lists_intact hs legal_calls hinit
  exact ⟨s, ws, hs, hws, n, (hn n le_rfl).2⟩

/-! ### The payloads -/

/-- The block lies in a chunk in use. -/
theorem Intact.bounds (hs : Intact s cs fl ml) (hb : b ∈ s.live) :
    8 ∣ b.1 ∧ s.heap.lo ≤ b.1 ∧ (b.1 : ℤ) + b.2 ≤ s.heap.hi ∧
      ∀ d ∈ cs, (b.1 : ℤ) + b.2 ≤ d.addr ∨ d.addr + 24 ≤ b.1 := by
  obtain ⟨c, hc, -, -, haddr, hsize⟩ := hs.chunk hb
  obtain ⟨hlo, hhi⟩ := hs.shape.tiles.mem Chunk.addr_le hc
  have halign := hs.shape.addr_aligned hc
  unfold Chunk.stop at hhi
  refine ⟨by omega, by omega, by omega, fun d hd => ?_⟩
  obtain rfl | hcd | hdc := hs.shape.tiles.eq_or Chunk.addr_le hc hd
  · exact Or.inr (by omega)
  · unfold Chunk.stop at hcd
    exact Or.inl (by omega)
  · unfold Chunk.stop at hdc
    exact Or.inr (by omega)

/-- Blocks are apart. -/
theorem Intact.apart (hs : Intact s cs fl ml) :
    s.live.Pairwise fun b b' => (b.1 : ℤ) + b.2 ≤ b'.1 ∨ (b'.1 : ℤ) + b'.2 ≤ b.1 := by
  have hnd : (s.live.map Prod.fst).Nodup := by
    rw [hs.live]
    exact hs.shape.lists.used.path.nodup.map fun x y hxy => Nat.add_right_cancel hxy
  rw [List.Nodup, List.pairwise_map] at hnd
  refine hnd.imp_of_mem fun {b b'} hb hb' hne => ?_
  obtain ⟨c, hc, -, -, haddr, hsize⟩ := hs.chunk hb
  obtain ⟨d, hd, -, -, haddr', hsize'⟩ := hs.chunk hb'
  obtain rfl | hcd | hdc := hs.shape.tiles.eq_or Chunk.addr_le hc hd
  · exact absurd (haddr.symm.trans haddr') hne
  · unfold Chunk.stop at hcd
    exact Or.inl (by omega)
  · unfold Chunk.stop at hdc
    exact Or.inr (by omega)

/-- **A step** writes to a block only what the client stores there, unless the block is freed. -/
theorem Intact.keeps (hs : Intact s cs fl ml) (hb : b ∈ s.live) {l : Label} (hfits : Fitting s l)
    (hnext : (allocator page fuel).next s l = some s') (hfree : l ≠ .Mem_Free (some b.1)) :
    b ∈ s'.live ∧ ∀ i : ℕ, i < b.2 → (∀ x, l ≠ .store b.1 i x) →
      s'.heap.mem (b.1 + i) = s.heap.mem (b.1 + i) := by
  obtain ⟨c, hc, hused, hcm, haddr, hsize⟩ := hs.chunk hb
  have hstop : c.stop = c.addr + 24 + c.size := rfl
  cases steps_of_next hnext with
  | Mem_Init hint hmap hr =>
    rw [init_again hs.shape.region.initialized] at hr
    cases hr
    exact ⟨hb, fun _ _ _ => rfl⟩
  | none hint hr =>
    obtain hx | ⟨h', cs', a, hx, ht⟩ := hs.shape.alloc_cases hint hfits hr
    · cases hx
      exact ⟨hb, fun _ _ _ => rfl⟩
    · cases hx
  | some hint hr =>
    obtain hx | ⟨h', cs', a, hx, ht⟩ := hs.shape.alloc_cases hint hfits hr
    · cases hx
    · cases hx
      refine ⟨List.mem_cons_of_mem _ hb, fun i hi _ => ht.frame _ ?_⟩
      obtain ⟨fl', hshape⟩ := ht.shape
      exact hshape.payload (ht.used_mem hc hused) (by omega) (by omega)
  | Mem_Free hr =>
    obtain ⟨-, hx⟩ | ⟨h', cs', ml', a, rfl, hx, hf⟩ := hs.shape.free_cases hr
    · cases hx
      exact ⟨hb, fun _ _ _ => rfl⟩
    · cases hx
      refine ⟨List.mem_filter.2 ⟨hb, ?_⟩, fun i hi _ => hf.frame _ ?_⟩
      · simp only [ne_eq, Option.some.injEq, decide_not, Bool.not_eq_eq_eq_not, Bool.not_true,
          decide_eq_false_iff_not]
        rintro heq
        exact hfree (by rw [heq])
      · exact hs.shape.payload hc (by omega) (by omega)
  | store hb' hi' =>
    refine ⟨hb, fun i hi hne => ?_⟩
    rename_i b' i' x
    -- another byte of this block, or a byte of another one
    have hdiff : b.1 + i ≠ b'.1 + i' := by
      intro heq
      obtain ⟨d, hd, -, -, haddr', hsize'⟩ := hs.chunk hb'
      have hdstop : d.stop = d.addr + 24 + d.size := rfl
      obtain rfl | hcd | hdc := hs.shape.tiles.eq_or Chunk.addr_le hc hd
      · have hb1 : b'.1 = b.1 := haddr'.symm.trans haddr
        have hii : i' = i := by omega
        exact hne x (by rw [hb1, hii])
      · omega
      · omega
    show patch s.heap.mem (b'.1 + i') 1 (fun _ => x) (b.1 + i) = s.heap.mem (b.1 + i)
    obtain hlt | hgt := Nat.lt_or_gt_of_ne hdiff
    · exact patch_of_lt hlt
    · exact patch_of_le (by omega)

/-- A run keeps the block and its bytes. -/
theorem Intact.kept (hs : Intact s cs fl ml) (hb : b ∈ s.live)
    (hlegal : (allocator page fuel).Allowed Legal s ls)
    (hrun : (allocator page fuel).run s ls = some s') (hfree : .Mem_Free (some b.1) ∉ ls) :
    b ∈ s'.live ∧ ∀ i : ℕ, i < b.2 → (∀ x, .store b.1 i x ∉ ls) →
      s'.heap.mem (b.1 + i) = s.heap.mem (b.1 + i) := by
  induction ls generalizing s cs fl ml with
  | nil =>
    cases hrun
    exact ⟨hb, fun _ _ _ => rfl⟩
  | cons l ls ih =>
    obtain ⟨t, ht, hrun⟩ := Machine.run_cons_eq_some.1 hrun
    rw [List.mem_cons, not_or] at hfree
    obtain ⟨hbt, hkeep⟩ := hs.keeps hb hlegal.1.fitting ht (Ne.symm hfree.1)
    have hsound := Sound.next (Or.inr ⟨cs, fl, ml, hs⟩) hlegal.1.fitting ht
    obtain hfresh | ⟨cs', fl', ml', hs'⟩ := hsound
    · rw [hfresh.live] at hbt
      cases hbt
    · obtain ⟨hbs, hkept⟩ := ih hs' hbt (hlegal.2 t ht) hrun hfree.2
      refine ⟨hbs, fun i hi hstore => ?_⟩
      simp only [List.mem_cons, not_or] at hstore
      exact (hkept i hi fun x => (hstore x).2).trans (hkeep i hi fun x => Ne.symm (hstore x).1)

/-- **The blocks of a client**: they are aligned, in the region, and apart from one another and from
every header; a block that is not freed keeps the bytes that were stored in it. -/
theorem blocks_intact (hrun : (allocator page fuel).run start ls = some s)
    (hlegal : (allocator page fuel).Allowed Legal start ls) :
    (∀ b ∈ s.live, 8 ∣ b.1 ∧ s.heap.lo ≤ b.1 ∧ (b.1 : ℤ) + b.2 ≤ s.heap.hi ∧
      ∃ ws, Walked s.heap ws ∧ ∀ a ∈ ws, (b.1 : ℤ) + b.2 ≤ a ∨ a + 24 ≤ b.1) ∧
    (s.live.Pairwise fun b b' => (b.1 : ℤ) + b.2 ≤ b'.1 ∨ (b'.1 : ℤ) + b'.2 ≤ b.1) ∧
    ∀ ls' s', (allocator page fuel).Allowed Legal s ls' →
      (allocator page fuel).run s ls' = some s' → ∀ b ∈ s.live, .Mem_Free (some b.1) ∉ ls' →
        b ∈ s'.live ∧ ∀ i : ℕ, i < b.2 → (∀ x, .store b.1 i x ∉ ls') →
          s'.heap.mem (b.1 + i) = s.heap.mem (b.1 + i) := by
  obtain hs | ⟨cs, fl, ml, hs⟩ := sound_of_run hrun (hlegal.mono fun _ _ => Legal.fitting)
  · simp [hs.live]
  · refine ⟨fun b hb => ?_, hs.apart, fun ls' s' hlegal' hrun' b hb => hs.kept hb hlegal' hrun'⟩
    obtain ⟨halign, hlo, hhi, happart⟩ := hs.bounds hb
    refine ⟨halign, hlo, hhi, _, hs.shape.walked, fun a ha => ?_⟩
    obtain ⟨d, hd, rfl⟩ := List.mem_map.1 ha
    exact happart d hd

theorem blocks_intact_calls : ∃ s, (allocator smallPage 8).run start calls = some s ∧
    ∀ b ∈ s.live, 8 ∣ b.1 ∧ s.heap.lo ≤ b.1 ∧ (b.1 : ℤ) + b.2 ≤ s.heap.hi := by
  obtain ⟨s, hs, -⟩ := run_calls
  obtain ⟨hblocks, -⟩ := blocks_intact hs legal_calls
  refine ⟨s, hs, fun b hb => ?_⟩
  obtain ⟨halign, hlo, hhi, -⟩ := hblocks b hb
  exact ⟨halign, hlo, hhi⟩

/-! ### Free neighbours -/

theorem pairwise_of_tiles {a b : ℕ} (ht : Tiles Chunk.addr Chunk.stop a cs b) :
    cs.Pairwise fun c d => c.addr < d.addr := by
  induction cs generalizing a with
  | nil => exact List.Pairwise.nil
  | cons c cs ih =>
    refine List.pairwise_cons.2 ⟨fun d hd => ?_, ih ht.2⟩
    have hle := (ht.2.mem Chunk.addr_le hd).1
    unfold Chunk.stop at hle
    omega

/-- The free chunks are those whose field `free` is set. -/
theorem Shape.frees_eq (hs : Shape h cs fl ml) :
    frees cs = (cs.map Chunk.addr).filter fun a => (header h.mem a).free ≠ 0 := by
  rw [frees, List.filter_map]
  congr 1
  refine List.filter_congr fun c hc => ?_
  rw [Function.comp_apply, hs.flag c hc]
  cases c.free <;> simp

theorem Shape.separate (hs : Shape h cs fl ml) : (cs.map Chunk.addr).IsChain fun a a' =>
    ¬ ((header h.mem a).free ≠ 0 ∧ (header h.mem a').free ≠ 0) := by
  rw [List.isChain_map]
  refine hs.merged.imp_of_mem_imp fun c d hc hd hcd => ?_
  rw [hs.flag c hc, hs.flag d hd]
  rintro ⟨hcf, hdf⟩
  exact hcd ⟨by simpa using hcf, by simpa using hdf⟩

/-- A free chunk extends up to one in use or to the end of the region. -/
theorem Shape.extends (hs : Shape h cs fl ml) (hc : c ∈ cs) (hfree : c.free = true) :
    c.stop = h.hi ∨ ∃ d ∈ cs, d.addr = c.stop ∧ d.free = false := by
  obtain ⟨l, r, rfl⟩ := List.append_of_mem hc
  obtain ⟨-, -, -, hr⟩ := tiles_append.1 hs.tiles
  cases r with
  | nil => exact Or.inl hr
  | cons d r =>
    refine Or.inr ⟨d, by simp, hr.1, ?_⟩
    have hchain := (List.isChain_append.1 hs.merged).2.1
    have hcd := (List.isChain_cons_cons.1 hchain).1
    simpa [Chunk.Separate, hfree] using hcd

/-- If no chunk is in use, there is only one. -/
theorem Shape.single (hs : Shape h cs fl []) (hne : cs ≠ []) : ∃ c, cs = [c] ∧ c.free = true := by
  have hall : ∀ c ∈ cs, c.free = true := by
    intro c hc
    by_contra hused
    have := (hs.mem_used c.addr).2 ⟨c, hc, rfl, by simpa using hused⟩
    cases this
  obtain ⟨c, r, rfl⟩ := List.exists_cons_of_ne_nil hne
  cases r with
  | nil => exact ⟨c, rfl, hall c List.mem_cons_self⟩
  | cons d r =>
    exact absurd ⟨hall c (by simp), hall d (by simp)⟩ (List.isChain_cons_cons.1 hs.merged).1

/-- The heap that `Mem_Init` builds, of one free chunk. -/
def Whole (h : Heap) : Prop :=
  ∃ b, h.begin = some b ∧ header h.mem b = ⟨h.totalSize - sizeofHeader, 1, none, none⟩ ∧
    h.freeList = some b ∧ h.memList = none ∧ Walked h [b]

theorem Shape.whole (hs : Shape h [c] [c.addr] []) (hfree : c.free = true) : Whole h := by
  obtain ⟨haddr, hstop⟩ := hs.tiles
  have hstop : c.addr + 24 + c.size = h.hi := hstop
  have htotal := hs.region.total
  refine ⟨c.addr, ?_, ?_, hs.lists.free.1, hs.lists.used, hs.walked⟩
  · rw [haddr]
    exact hs.region.begin
  · have hsize := hs.size c List.mem_cons_self
    have hflag := hs.flag c List.mem_cons_self
    obtain ⟨-, hprev, hnext⟩ := hs.lists.free
    rw [if_pos hfree] at hflag
    cases hh : header h.mem c.addr with
    | mk size free next prev =>
      simp only [hh] at hsize hflag hprev hnext
      have hnext : next = none := hnext
      rw [hsize, hflag, hprev, hnext, htotal]
      congr 1
      simp only [sizeofHeader]
      omega

/-- **Free neighbours are joined** in every state of a run; `Mem_Free` leaves the free chunks linked in
the order of their addresses, each of them as large as it can be, and the heap that `Mem_Init` built
once the last block has been freed. -/
theorem free_merged (hrun : (allocator page fuel).run start ls = some s)
    (hlegal : (allocator page fuel).Allowed Legal start ls) (hinit : s.heap.initialized = true) :
    (∃ ws, Walked s.heap ws ∧ ws.IsChain fun a a' =>
      ¬ ((header s.heap.mem a).free ≠ 0 ∧ (header s.heap.mem a').free ≠ 0)) ∧
    ∀ fuel' ptr h', Mem_Free fuel' s.heap ptr = .ok (h', 0) →
      (∃ ws fs, Walked h' ws ∧ fs = (ws.filter fun a => (header h'.mem a).free ≠ 0) ∧
        Linked (fun a => (header h'.mem a).next) (fun a => (header h'.mem a).prev) none fs h'.freeList ∧
        fs.Pairwise (· < ·) ∧
        ∀ a ∈ fs, (∃ b : ℕ, h'.begin = some b ∧
            (a : ℤ) + sizeofHeader + (header h'.mem a).size = b + h'.totalSize) ∨
          ∃ d ∈ ws, (d : ℤ) = a + sizeofHeader + (header h'.mem a).size ∧ (header h'.mem d).free = 0) ∧
      ((∀ b ∈ s.live, some b.1 = ptr) → Whole h') := by
  obtain ⟨cs, fl, ml, hs⟩ := intact_of_run hrun hlegal hinit
  refine ⟨⟨_, hs.shape.walked, hs.shape.separate⟩, fun fuel' ptr h' hx => ?_⟩
  obtain ⟨-, hx⟩ | ⟨h₁, cs', ml', a, rfl, hx, hf⟩ := hs.shape.free_cases hx
  · cases hx
  cases hx
  have hs' := hs.free hf
  have hshape := hf.shape
  refine ⟨⟨cs'.map Chunk.addr, frees cs', hshape.walked, hshape.frees_eq, hshape.lists.free, ?_,
    fun x hx => ?_⟩, fun hlast => ?_⟩
  · exact List.pairwise_map.2 ((pairwise_of_tiles hshape.tiles).filter _)
  · obtain ⟨c, hc, rfl, hfree⟩ := mem_frees.1 hx
    have hstop : c.stop = c.addr + 24 + c.size := rfl
    have htotal := hshape.region.total
    rw [hshape.size c hc]
    simp only [sizeofHeader]
    obtain hend | ⟨d, hd, hda, hused⟩ := hshape.extends hc hfree
    · exact Or.inl ⟨h'.lo, hshape.region.begin, by omega⟩
    · refine Or.inr ⟨d.addr, List.mem_map_of_mem hd, by omega, ?_⟩
      rw [hshape.flag d hd, hused]
      rfl
  · -- no block is left, so no chunk is in use
    have hlive : (s.live.filter fun b => some b.1 ≠ some (a + 24)) = [] := by
      refine List.filter_eq_nil_iff.2 fun b hb => ?_
      simpa using Option.some.inj (hlast b hb)
    have hml : ml' = [] := by
      have hmap := hs'.live
      rw [hlive] at hmap
      exact List.map_eq_nil_iff.1 hmap.symm
    subst hml
    have hne : cs' ≠ [] := by
      rintro rfl
      have hlohi : h'.lo = h'.hi := hshape.tiles
      obtain ⟨l, c, r, rfl, -⟩ := hf.chunks
      obtain ⟨m, p, q, rfl⟩ := hf.heap
      obtain ⟨hlo, hhi⟩ := hs.shape.tiles.mem Chunk.addr_le (x := c) (by simp)
      unfold Chunk.stop at hhi
      simp only at hlohi
      omega
    obtain ⟨c, rfl, hfree⟩ := hshape.single hne
    rw [frees_cons_of_free hfree] at hshape
    exact hshape.whole hfree

theorem free_merged_calls : ∃ s h', (allocator smallPage 8).run start calls = some s ∧
    Mem_Free 8 s.heap (some 4160) = .ok (h', 0) ∧ Whole h' := by
  obtain ⟨s, hs, hinit, hlive⟩ := run_calls
  have hzero : ((allocator smallPage 8).run start calls).bind (fun s =>
      (Mem_Free 8 s.heap (some 4160)).toOption.map Prod.snd) = some 0 := by decide +kernel
  rw [hs, Option.bind_some] at hzero
  obtain ⟨⟨h', r⟩, hx, rfl⟩ := Option.map_eq_some_iff.1 hzero
  obtain ⟨-, hfree⟩ := free_merged hs legal_calls hinit
  have hok : Mem_Free 8 s.heap (some 4160) = .ok (h', 0) := by
    cases hr : Mem_Free 8 s.heap (some 4160) with
    | error e =>
      rw [hr] at hx
      cases hx
    | ok x =>
      rw [hr] at hx
      rw [Option.some.inj hx]
  refine ⟨s, h', hs, hok, (hfree 8 (some 4160) h' hok).2 fun b hb => ?_⟩
  have hmem : b.1 ∈ s.live.map Prod.fst := List.mem_map_of_mem hb
  rw [hlive] at hmem
  exact congrArg some (List.mem_singleton.1 hmem)

end Mem

end OperatingSystems

import OperatingSystems.Mem.Search
import OperatingSystems.Tiling.Basic

/-!
# The shape of a heap

* `Chunk` : a header and the bytes behind it.
* `Lists` : the two lists.
* `Shape` : **the invariant**: the chunks cover the region, no two neighbours are free, and the two
  lists have the free chunks and the others.
* `Shape.take` : a free chunk is split and moved to the other list.
-/

namespace OperatingSystems

namespace Mem

open Bytes Links Tiling

variable {h k : Heap} {A fl ml f₁ f₂ : List ℕ} {σ τ : ℕ → Header} {x y : ℕ} {rest : ℤ}

/-! ### The two lists -/

/-- The free list is `fl`, the other one is `ml`, and they have nothing in common. -/
structure Lists (σ : ℕ → Header) (h : Heap) (fl ml : List ℕ) : Prop where
  free : Linked (fun a => (σ a).next) (fun a => (σ a).prev) none fl h.freeList
  used : Linked (fun a => (σ a).next) (fun a => (σ a).prev) none ml h.memList
  disjoint : ∀ y ∈ fl, y ∉ ml

theorem Lists.congr (hl : Lists σ h fl ml) (hτ : ∀ a ∈ fl ++ ml, τ a = σ a) : Lists τ h fl ml := by
  have hf : ∀ a ∈ fl, τ a = σ a := fun a ha => hτ a (List.mem_append_left _ ha)
  have hm : ∀ a ∈ ml, τ a = σ a := fun a ha => hτ a (List.mem_append_right _ ha)
  exact ⟨hl.free.congr (fun a ha => by rw [hf a ha]) fun a ha => by rw [hf a ha],
    hl.used.congr (fun a ha => by rw [hm a ha]) fun a ha => by rw [hm a ha], hl.disjoint⟩

theorem head_mem {next prev : ℕ → Option ℕ} {q p : Option ℕ} {l : List ℕ}
    (hl : Linked next prev q l p) : ∀ b ∈ p, b ∈ l := by
  intro b hb
  rw [hl.path.head] at hb
  exact List.mem_of_mem_head? hb

/-- The neighbours of a header in a list are others of the list. -/
theorem neighbours {next prev : ℕ → Option ℕ} {p : Option ℕ} {l : List ℕ}
    (hl : Linked next prev none l p) (hx : x ∈ l) :
    (∀ b ∈ next x, b ∈ l ∧ b ≠ x) ∧ ∀ b ∈ prev x, b ∈ l ∧ b ≠ x := by
  have hloop : next x ≠ some x := by
    intro hxx
    obtain ⟨l₁, l₂, rfl⟩ := List.append_of_mem hx
    have hmem := (hl.path.of_append.head.symm.trans hxx)
    have hnd := (List.nodup_append.1 hl.path.nodup).2.1
    exact (List.nodup_cons.1 hnd).1 (List.mem_of_mem_head? hmem)
  refine ⟨fun b hb => ⟨(hl.prev_of_next hx hb).1, ?_⟩, fun b hb => ?_⟩
  · rintro rfl
    exact hloop hb
  · obtain ⟨-, hq⟩ | ⟨z, hz, hnext, hback⟩ := hl.pred hx
    · exact absurd (hq.symm.trans hb) (by simp)
    · obtain rfl := Option.some.inj (hback.symm.trans hb)
      refine ⟨hz, ?_⟩
      rintro rfl
      exact hloop hnext

/-- **A header is moved** from one list to the other. -/
theorem Lists.move (hl : Lists σ h (f₁ ++ x :: f₂) ml) (hs : Sees h A σ)
    (hfA : ∀ y ∈ f₁ ++ x :: f₂, y ∈ A) (hmA : ∀ y ∈ ml, y ∈ A) :
    ∃ p τ, Becomes { h with freeList := p, memList := some x } A τ (h.move (some x)) ∧
      Lists τ { h with freeList := p, memList := some x } (f₁ ++ f₂) (x :: ml) ∧
      (∀ y, (τ y).size = (σ y).size) ∧ (τ x).free = 0 ∧ ∀ y ≠ x, (τ y).free = (σ y).free := by
  have hx : x ∈ f₁ ++ x :: f₂ := by simp
  obtain ⟨hn, hp⟩ := neighbours hl.free hx
  have hxm := hl.disjoint x hx
  have hq : ∀ b ∈ h.memList, b ∈ ml := head_mem hl.used
  refine ⟨_, _, hs.move (hfA x hx) (fun b hb => ⟨hfA b (hn b hb).1, (hn b hb).2⟩)
    (fun b hb => ⟨hfA b (hp b hb).1, (hp b hb).2⟩) fun b hb => ⟨hmA b (hq b hb), ?_⟩,
    ⟨?_, ?_, ?_⟩, fun y => ?_, by simp [pushed], fun y hy => by simp [pushed, hy, unlinked]⟩
  · rintro rfl
    exact hxm (hq b hb)
  · -- the free list
    have hne : ∀ y ∈ f₁ ++ f₂, y ≠ x := by
      have hnd := List.nodup_middle.1 hl.free.path.nodup
      rintro y hy rfl
      exact (List.nodup_cons.1 hnd).1 hy
    have hnm : ∀ y ∈ f₁ ++ f₂, h.memList ≠ some y := fun y hy hym =>
      hl.disjoint y (List.mem_append.2 ((List.mem_append.1 hy).imp_right (List.mem_cons_of_mem _)))
        (hq y hym)
    have hlinked : Linked (fun a => (pushed (unlinked σ x) x h.memList a).next)
        (fun a => (pushed (unlinked σ x) x h.memList a).prev) none (f₁ ++ f₂)
        (if h.freeList = some x then (σ x).next else h.freeList) :=
      hl.free.unlink (by simp) (fun y hy => by simp [pushed, hne y hy, unlinked])
        fun y hy => by simp [pushed, hne y hy, unlinked, hnm y hy]
    simpa only [eq_comm (a := some x)] using hlinked
  · -- the other list
    have hne : ∀ y ∈ ml, y ≠ x := by
      rintro y hy rfl
      exact hxm hy
    have hnn : ∀ y ∈ ml, (σ x).next ≠ some y := fun y hy hxy => hl.disjoint y (hn y hxy).1 hy
    have hnp : ∀ y ∈ ml, (σ x).prev ≠ some y := fun y hy hxy => hl.disjoint y (hp y hxy).1 hy
    exact hl.used.push (by simp [pushed]) (by simp [pushed])
      (fun y hy => by simp [pushed, hne y hy, unlinked, hnp y hy])
      (fun y hy => by simp [pushed, hne y hy, unlinked, hnn y hy])
  · intro y hy hym
    have hnd := List.nodup_middle.1 hl.free.path.nodup
    obtain rfl | hym := List.mem_cons.1 hym
    · exact (List.nodup_cons.1 hnd).1 hy
    · exact hl.disjoint y
        (List.mem_append.2 ((List.mem_append.1 hy).imp_right (List.mem_cons_of_mem _))) hym
  · by_cases hy : y = x <;> simp [pushed, hy, unlinked]

/-- **A header is split**, and the new one at `y` is put in front of the free list. -/
theorem Lists.split {n : ℤ} (hl : Lists σ h fl ml) (hs : Sees h A σ) (hx : x ∈ fl) (hy : y ∈ A)
    (hfA : ∀ z ∈ fl, z ∈ A ∧ z ≠ y) (hmA : ∀ z ∈ ml, z ∈ A ∧ z ≠ y) (hn : 0 ≤ n) (hpos : 0 < rest)
    (hsize : (σ x).size = n + sizeofHeader + rest) (hint : IsInt (σ x).size)
    (hadd : ptrAdd (some x) (n + sizeofHeader) = some y) :
    ∃ τ, Becomes { h with freeList := some y } A τ (h.split (some x) n) ∧
      Lists τ { h with freeList := some y } (y :: fl) ml ∧
      (τ x).size = n ∧ (τ y).size = rest ∧ (τ y).free = 1 ∧
      (∀ z, z ≠ x → z ≠ y → (τ z).size = (σ z).size) ∧ ∀ z, z ≠ y → (τ z).free = (σ z).free := by
  have hxy := (hfA x hx).2
  have hq : ∀ b ∈ h.freeList, b ∈ fl := head_mem hl.free
  refine ⟨_, hs.split (hfA x hx).1 hy hxy.symm hn hpos hsize hint hadd fun b hb => hfA b (hq b hb),
    ⟨?_, ?_, ?_⟩, ?_⟩
  · exact hl.free.push (by simp [carved]) (by simp [carved])
      (fun z hz => by simp [carved, (hfA z hz).2]) (fun z hz => by simp [carved, (hfA z hz).2])
  · have hqm : ∀ z ∈ ml, h.freeList ≠ some z := fun z hz hzq => hl.disjoint z (hq z hzq) hz
    exact hl.used.congr (fun z hz => by simp [carved, (hmA z hz).2])
      fun z hz => by simp [carved, (hmA z hz).2, hqm z hz]
  · intro z hz hzm
    obtain rfl | hz := List.mem_cons.1 hz
    · exact (hmA z hzm).2 rfl
    · exact hl.disjoint z hz hzm
  · refine ⟨by simp [carved, hxy], by simp [carved], by simp [carved], ?_, ?_⟩
    · intro z hzx hzy
      simp [carved, hzx, hzy]
    · intro z hzy
      simp [carved, hzy]

/-! ### Chunks -/

/-- A header at `addr` and the `size` bytes behind it. -/
structure Chunk where
  addr : ℕ
  size : ℕ
  free : Bool
  deriving DecidableEq

def Chunk.stop (c : Chunk) : ℕ := c.addr + 24 + c.size

theorem Chunk.addr_le (c : Chunk) : c.addr ≤ c.stop := by
  unfold Chunk.stop
  omega

/-- The chunks are not both free. -/
def Chunk.Separate (c d : Chunk) : Prop := ¬ (c.free = true ∧ d.free = true)

/-- The region, from its first page to the end of its last one. -/
structure Region (h : Heap) : Prop where
  pos : 0 < h.lo
  aligned : 8 ∣ h.lo
  top : h.hi < 2 ^ 64
  total : h.totalSize = (h.hi : ℤ) - h.lo
  int : IsInt h.totalSize
  begin : h.begin = some h.lo
  initialized : h.initialized = true

/-- **The shape of a heap**: its chunks, and its two lists. -/
structure Shape (h : Heap) (cs : List Chunk) (fl ml : List ℕ) : Prop where
  region : Region h
  tiles : Tiles Chunk.addr Chunk.stop h.lo cs h.hi
  size : ∀ c ∈ cs, (header h.mem c.addr).size = c.size
  flag : ∀ c ∈ cs, (header h.mem c.addr).free = if c.free then 1 else 0
  aligned : ∀ c ∈ cs, 8 ∣ c.size
  merged : cs.IsChain Chunk.Separate
  lists : Lists (header h.mem) h fl ml
  mem_free : ∀ a, a ∈ fl ↔ ∃ c ∈ cs, c.addr = a ∧ c.free = true
  mem_used : ∀ a, a ∈ ml ↔ ∃ c ∈ cs, c.addr = a ∧ c.free = false

variable {cs l r : List Chunk} {c d : Chunk}

theorem eq_of_addr {a b : ℕ} (ht : Tiles Chunk.addr Chunk.stop a cs b) (hc : c ∈ cs) (hd : d ∈ cs)
    (h : c.addr = d.addr) : c = d := by
  have := ht.eq_or Chunk.addr_le hc hd
  unfold Chunk.stop at this
  obtain hcd | hcd | hcd := this
  · exact hcd
  · omega
  · omega

/-- The other chunks have other addresses. -/
theorem addr_ne {a b : ℕ} (ht : Tiles Chunk.addr Chunk.stop a (l ++ c :: r) b) :
    ∀ d ∈ l ++ r, d.addr ≠ c.addr := by
  intro d hd haddr
  obtain ⟨k, h₁, hk, h₂⟩ := tiles_append.1 ht
  rcases List.mem_append.1 hd with hd | hd
  · have hle := (h₁.mem Chunk.addr_le hd).2
    unfold Chunk.stop at hle
    omega
  · have hle := (h₂.mem Chunk.addr_le hd).1
    unfold Chunk.stop at hle
    omega

theorem apart_of_tiles {a b : ℕ} (ht : Tiles Chunk.addr Chunk.stop a cs b) :
    ∀ x ∈ cs.map Chunk.addr, ∀ y ∈ cs.map Chunk.addr, x ≠ y → x + 24 ≤ y ∨ y + 24 ≤ x := by
  intro x hx y hy hxy
  obtain ⟨c, hc, rfl⟩ := List.mem_map.1 hx
  obtain ⟨d, hd, rfl⟩ := List.mem_map.1 hy
  obtain rfl | hcd | hcd := ht.eq_or Chunk.addr_le hc hd
  · exact absurd rfl hxy
  · unfold Chunk.stop at hcd
    omega
  · unfold Chunk.stop at hcd
    omega

/-- The headers of the chunks of a region. -/
theorem sees_of_tiles (hr : Region h) (ht : Tiles Chunk.addr Chunk.stop h.lo cs h.hi) :
    Sees h (cs.map Chunk.addr) (header h.mem) := by
  refine ⟨fun _ _ => rfl, fun a ha => ?_, apart_of_tiles ht, hr.top.le⟩
  obtain ⟨c, hc, rfl⟩ := List.mem_map.1 ha
  obtain ⟨hlo, hhi⟩ := ht.mem Chunk.addr_le hc
  have hpos := hr.pos
  unfold Chunk.stop at hhi
  omega

namespace Shape

variable (hs : Shape h cs fl ml)
include hs

theorem sees : Sees h (cs.map Chunk.addr) (header h.mem) := sees_of_tiles hs.region hs.tiles

theorem free_subset : ∀ a ∈ fl, a ∈ cs.map Chunk.addr := by
  intro a ha
  obtain ⟨c, hc, rfl, -⟩ := (hs.mem_free a).1 ha
  exact List.mem_map_of_mem hc

theorem used_subset : ∀ a ∈ ml, a ∈ cs.map Chunk.addr := by
  intro a ha
  obtain ⟨c, hc, rfl, -⟩ := (hs.mem_used a).1 ha
  exact List.mem_map_of_mem hc

/-- The size of a chunk is an `int`. -/
theorem size_lt (hc : c ∈ cs) : (c.size : ℤ) + 24 ≤ h.totalSize ∧ h.totalSize < 2 ^ 31 := by
  obtain ⟨hlo, hhi⟩ := hs.tiles.mem Chunk.addr_le hc
  have hint := hs.region.int
  have htotal := hs.region.total
  unfold Chunk.stop at hhi
  unfold IsInt at hint
  omega

/-- Chunks begin at multiples of 8. -/
theorem addr_aligned (hc : c ∈ cs) : 8 ∣ c.addr := by
  obtain ⟨l, r, rfl⟩ := List.append_of_mem hc
  obtain ⟨b, hl, rfl, -⟩ := tiles_append.1 hs.tiles
  have halign : ∀ d ∈ l, 8 ∣ d.size := fun d hd => hs.aligned d (List.mem_append_left _ hd)
  have hlo := hs.region.aligned
  generalize h.lo = a at hl hlo
  clear hs hc
  induction l generalizing a with
  | nil =>
    obtain rfl : a = c.addr := hl
    exact hlo
  | cons d l ih =>
    have hd := halign d List.mem_cons_self
    refine ih (fun e he => halign e (List.mem_cons_of_mem _ he)) d.stop hl.2 ?_
    have haddr : d.addr = a := hl.1
    unfold Chunk.stop
    omega

end Shape

/-- What a chunk becomes when `n` bytes of it are taken. -/
def carve (c : Chunk) (n : ℕ) : List Chunk :=
  if n + 24 < c.size then
    [⟨c.addr, n, false⟩, ⟨c.addr + 24 + n, c.size - 24 - n, true⟩]
  else [⟨c.addr, c.size, false⟩]

theorem tiles_carve (c : Chunk) (n : ℕ) : Tiles Chunk.addr Chunk.stop c.addr (carve c n) c.stop := by
  unfold carve
  split_ifs with hn
  · refine ⟨rfl, rfl, ?_⟩
    show c.addr + 24 + n + 24 + (c.size - 24 - n) = c.addr + 24 + c.size
    omega
  · exact ⟨rfl, rfl⟩

theorem isChain_carve {n : ℕ} (hc : c.free = true) (h : (l ++ c :: r).IsChain Chunk.Separate) :
    (l ++ (carve c n ++ r)).IsChain Chunk.Separate := by
  obtain ⟨hl, hcr, -⟩ := List.isChain_append.1 h
  have hr : r.IsChain Chunk.Separate := hcr.tail
  have hhead : ∀ d ∈ r.head?, d.free = false := by
    intro d hd
    cases r with
    | nil => cases hd
    | cons e r =>
      obtain rfl := Option.some.inj hd
      have hce := (List.isChain_cons_cons.1 hcr).1
      simpa [Chunk.Separate, hc] using hce
  have hused : ∀ d : Chunk, d.free = false → (l ++ [d]).IsChain Chunk.Separate := by
    intro d hd
    refine List.isChain_append.2 ⟨hl, List.isChain_singleton _, ?_⟩
    rintro x - y ⟨⟩
    simp [Chunk.Separate, hd]
  rw [← List.append_assoc]
  unfold carve
  split_ifs with hn
  · rw [List.append_cons, List.append_assoc]
    refine List.isChain_append.2 ⟨hused _ rfl, ?_, ?_⟩
    · refine List.isChain_append.2 ⟨List.isChain_singleton _, hr, ?_⟩
      rintro x - y hy
      simp [Chunk.Separate, hhead y hy]
    · intro x hx y _
      rw [List.getLast?_concat, Option.mem_some_iff] at hx
      simp [Chunk.Separate, ← hx]
  · refine List.isChain_append.2 ⟨hused _ rfl, hr, ?_⟩
    intro x hx y _
    rw [List.getLast?_concat, Option.mem_some_iff] at hx
    simp [Chunk.Separate, ← hx]

theorem mem_carve {n : ℕ} : d ∈ l ++ (carve c n ++ r) ↔ d ∈ l ++ r ∨
    if n + 24 < c.size then
      d = ⟨c.addr, n, false⟩ ∨ d = ⟨c.addr + 24 + n, c.size - 24 - n, true⟩
    else d = ⟨c.addr, c.size, false⟩ := by
  unfold carve
  split_ifs
  · simp only [List.mem_append, List.mem_cons, List.not_mem_nil, or_false]
    tauto
  · simp only [List.mem_append, List.mem_cons, List.not_mem_nil, or_false]
    tauto

/-- The other chunks, when one is taken. -/
theorem Shape.others (hs : Shape h (l ++ c :: r) (f₁ ++ c.addr :: f₂) ml) (hc : c.free = true) :
    (∀ d ∈ l ++ r, d ∈ l ++ c :: r ∧ d.addr ≠ c.addr) ∧
    (∀ a, a ∈ f₁ ++ f₂ ↔ ∃ d ∈ l ++ r, d.addr = a ∧ d.free = true) ∧
    ∀ a, a ∈ ml ↔ ∃ d ∈ l ++ r, d.addr = a ∧ d.free = false := by
  have hcs : c ∈ l ++ c :: r := by simp
  have hmem : ∀ d, d ∈ l ++ c :: r ↔ d = c ∨ d ∈ l ++ r := by
    intro d
    simp only [List.mem_append, List.mem_cons]
    tauto
  have hne := addr_ne hs.tiles
  refine ⟨fun d hd => ⟨(hmem d).2 (Or.inr hd), hne d hd⟩, fun a => ?_, fun a => ?_⟩
  · have hnd := List.nodup_cons.1 (List.nodup_middle.1 hs.lists.free.path.nodup)
    have ha : a ∈ f₁ ++ f₂ ↔ a ∈ f₁ ++ c.addr :: f₂ ∧ a ≠ c.addr := by
      constructor
      · intro ha
        refine ⟨List.mem_append.2 ((List.mem_append.1 ha).imp_right (List.mem_cons_of_mem _)), ?_⟩
        rintro rfl
        exact hnd.1 ha
      · rintro ⟨ha, hac⟩
        simp only [List.mem_append, List.mem_cons] at ha ⊢
        tauto
    rw [ha, hs.mem_free]
    constructor
    · rintro ⟨⟨d, hd, rfl, hfree⟩, hdc⟩
      obtain rfl | hd := (hmem d).1 hd
      · exact absurd rfl hdc
      · exact ⟨d, hd, rfl, hfree⟩
    · rintro ⟨d, hd, rfl, hfree⟩
      exact ⟨⟨d, (hmem d).2 (Or.inr hd), rfl, hfree⟩, hne d hd⟩
  · rw [hs.mem_used]
    constructor
    · rintro ⟨d, hd, rfl, hused⟩
      obtain rfl | hd := (hmem d).1 hd
      · rw [hc] at hused
        cases hused
      · exact ⟨d, hd, rfl, hused⟩
    · rintro ⟨d, hd, rfl, hused⟩
      exact ⟨d, (hmem d).2 (Or.inr hd), rfl, hused⟩

/-- The shape of a heap with the headers `τ`. -/
theorem Shape.of_sees (hregion : Region h) (htiles : Tiles Chunk.addr Chunk.stop h.lo cs h.hi)
    (hsees : Sees h A τ) (hA : ∀ d ∈ cs, d.addr ∈ A)
    (hfields : ∀ d ∈ cs, (τ d.addr).size = d.size ∧ ((τ d.addr).free = if d.free then 1 else 0) ∧
      8 ∣ d.size)
    (hmerged : cs.IsChain Chunk.Separate) (hlists : Lists τ h fl ml)
    (hfree : ∀ a, a ∈ fl ↔ ∃ d ∈ cs, d.addr = a ∧ d.free = true)
    (hused : ∀ a, a ∈ ml ↔ ∃ d ∈ cs, d.addr = a ∧ d.free = false) : Shape h cs fl ml := by
  have hheader : ∀ d ∈ cs, header h.mem d.addr = τ d.addr := fun d hd => hsees.header _ (hA d hd)
  refine ⟨hregion, htiles, fun d hd => ?_, fun d hd => ?_, fun d hd => (hfields d hd).2.2, hmerged,
    hlists.congr fun a ha => ?_, hfree, hused⟩
  · rw [hheader d hd]
    exact (hfields d hd).1
  · rw [hheader d hd]
    exact (hfields d hd).2.1
  · rcases List.mem_append.1 ha with ha | ha
    · obtain ⟨d, hd, rfl, -⟩ := (hfree a).1 ha
      exact hheader d hd
    · obtain ⟨d, hd, rfl, -⟩ := (hused a).1 ha
      exact hheader d hd

/-- Only the memory and the lists have changed. -/
theorem Region.of_heap (hr : Region h) {m : Bytes} {p q : Option ℕ} :
    Region { h with mem := m, freeList := p, memList := q } :=
  ⟨hr.pos, hr.aligned, hr.top, hr.total, hr.int, hr.begin, hr.initialized⟩

/-- All of the chunk is taken. -/
theorem Shape.take_all {z : ℤ} (hs : Shape h (l ++ c :: r) fl ml) (hc : c.free = true)
    (hle : z ≤ c.size) (hbig : (c.size : ℤ) ≤ z + 24) : ∃ m p fl',
      (h.split (some c.addr) z >>= fun h => h.move (some c.addr)) =
        .ok { h with mem := m, freeList := p, memList := some c.addr } ∧
      Shape { h with mem := m, freeList := p, memList := some c.addr } (l ++ (carve c z.toNat ++ r)) fl'
        (c.addr :: ml) ∧
      ∀ i, (∀ d ∈ l ++ (carve c z.toNat ++ r), i < d.addr ∨ d.addr + 24 ≤ i) → m i = h.mem i := by
  have hcs : c ∈ l ++ c :: r := by simp
  have hcA : c.addr ∈ (l ++ c :: r).map Chunk.addr := List.mem_map_of_mem hcs
  obtain ⟨f₁, f₂, rfl⟩ := List.append_of_mem ((hs.mem_free _).2 ⟨c, hcs, rfl, hc⟩)
  obtain ⟨hothers, hofree, housed⟩ := hs.others hc
  have hsize := hs.size c hcs
  have hlt := hs.size_lt hcs
  -- the rest is too small for a chunk of its own
  have hsplit : h.split (some c.addr) z = .ok h := by
    unfold Heap.split
    rw [hs.sees.size hcA, ok_bind, hsize, int_eq, ok_bind, int_eq, ok_bind, if_neg, pure_eq_ok]
    · simp only [sizeofHeader]
      omega
    · unfold IsInt
      simp only [sizeofHeader]
      omega
    · unfold IsInt
      omega
  rw [hsplit, ok_bind]
  obtain ⟨p, τ, ⟨m, hm, hsees, hframe⟩, hlists, hτsize, hτx, hτfree⟩ :=
    hs.lists.move hs.sees hs.free_subset hs.used_subset
  -- only `c` changes, from free to used
  have hmem : ∀ d, d ∈ l ++ (carve c z.toNat ++ r) ↔ d ∈ l ++ r ∨ d = ⟨c.addr, c.size, false⟩ := by
    intro d
    rw [mem_carve, if_neg (by omega)]
  refine ⟨m, p, f₁ ++ f₂, hm, .of_sees hs.region.of_heap (tiles_replace hs.tiles (tiles_carve c z.toNat))
    hsees ?_ ?_ (isChain_carve hc hs.merged) ⟨hlists.free, hlists.used, hlists.disjoint⟩
    (fun a => ?_) fun a => ?_, fun i hi => ?_⟩
  · intro d hd
    obtain hd | rfl := (hmem d).1 hd
    · exact List.mem_map_of_mem (hothers d hd).1
    · exact hcA
  · intro d hd
    obtain hd | rfl := (hmem d).1 hd
    · obtain ⟨hd, hne⟩ := hothers d hd
      rw [hτsize, hτfree _ hne]
      exact ⟨hs.size d hd, hs.flag d hd, hs.aligned d hd⟩
    · rw [hτsize]
      exact ⟨hsize, hτx, hs.aligned c hcs⟩
  · rw [hofree]
    constructor
    · rintro ⟨d, hd, hda⟩
      exact ⟨d, (hmem d).2 (Or.inl hd), hda⟩
    · rintro ⟨d, hd, rfl, hfree⟩
      obtain hd | rfl := (hmem d).1 hd
      · exact ⟨d, hd, rfl, hfree⟩
      · cases hfree
  · rw [List.mem_cons, housed]
    constructor
    · rintro (rfl | ⟨d, hd, hda⟩)
      · exact ⟨_, (hmem _).2 (Or.inr rfl), rfl, rfl⟩
      · exact ⟨d, (hmem d).2 (Or.inl hd), hda⟩
    · rintro ⟨d, hd, rfl, hused⟩
      obtain hd | rfl := (hmem d).1 hd
      · exact Or.inr ⟨d, hd, rfl, hused⟩
      · exact Or.inl rfl
  · refine hframe i fun a ha => ?_
    obtain ⟨d, hd, rfl⟩ := List.mem_map.1 ha
    rw [List.mem_append, List.mem_cons] at hd
    obtain hd | hd | hd := hd
    · exact hi d ((hmem d).2 (Or.inl (List.mem_append_left _ hd)))
    · rw [hd]
      exact hi ⟨c.addr, c.size, false⟩ ((hmem _).2 (Or.inr rfl))
    · exact hi d ((hmem d).2 (Or.inl (List.mem_append_right _ hd)))

/-- A part of the chunk is taken, and the rest becomes a chunk of its own. -/
theorem Shape.take_part {n : ℕ} (hs : Shape h (l ++ c :: r) fl ml) (hc : c.free = true) (hn : 8 ∣ n)
    (hbig : n + 24 < c.size) : ∃ m p fl',
      (h.split (some c.addr) n >>= fun h => h.move (some c.addr)) =
        .ok { h with mem := m, freeList := p, memList := some c.addr } ∧
      Shape { h with mem := m, freeList := p, memList := some c.addr } (l ++ (carve c n ++ r)) fl'
        (c.addr :: ml) ∧
      ∀ i, (∀ d ∈ l ++ (carve c n ++ r), i < d.addr ∨ d.addr + 24 ≤ i) → m i = h.mem i := by
  have hcs : c ∈ l ++ c :: r := by simp
  obtain ⟨f₁, f₂, rfl⟩ := List.append_of_mem ((hs.mem_free _).2 ⟨c, hcs, rfl, hc⟩)
  obtain ⟨hothers, hofree, housed⟩ := hs.others hc
  have hsize := hs.size c hcs
  have hlt := hs.size_lt hcs
  have haligned := hs.aligned c hcs
  have htiles := tiles_replace hs.tiles (tiles_carve c n)
  obtain ⟨y, hy⟩ : ∃ y, y = c.addr + 24 + n := ⟨_, rfl⟩
  obtain ⟨rest, hrest⟩ : ∃ rest, rest = c.size - 24 - n := ⟨_, rfl⟩
  have hmem : ∀ d, d ∈ l ++ (carve c n ++ r) ↔ d ∈ l ++ r ∨ d = ⟨c.addr, n, false⟩ ∨
      d = ⟨y, rest, true⟩ := by
    intro d
    rw [mem_carve, if_pos hbig, hy, hrest]
  have hsees := sees_of_tiles hs.region htiles
  have hA : ∀ d ∈ l ++ (carve c n ++ r), d.addr ∈ (l ++ (carve c n ++ r)).map Chunk.addr :=
    fun d hd => List.mem_map_of_mem hd
  have hyA := hA _ ((hmem ⟨y, rest, true⟩).2 (Or.inr (Or.inr rfl)))
  have hcA := hA _ ((hmem ⟨c.addr, n, false⟩).2 (Or.inr (Or.inl rfl)))
  have hcy : c.addr ≠ y := by omega
  -- no other header is at `y`
  have hne : ∀ d ∈ l ++ r, d.addr ≠ y := by
    intro d hd heq
    have hdy := congrArg Chunk.size (eq_of_addr htiles ((hmem d).2 (Or.inl hd))
      ((hmem ⟨y, rest, true⟩).2 (Or.inr (Or.inr rfl))) heq)
    obtain ⟨hd, hdc⟩ := hothers d hd
    obtain rfl | hcd | hdc := hs.tiles.eq_or Chunk.addr_le hcs hd
    · exact hdc rfl
    · unfold Chunk.stop at hcd
      omega
    · unfold Chunk.stop at hdc
      omega
  have hfl : ∀ z ∈ f₁ ++ c.addr :: f₂, z ∈ (l ++ (carve c n ++ r)).map Chunk.addr ∧ z ≠ y := by
    intro z hz
    obtain rfl | hz : z = c.addr ∨ z ∈ f₁ ++ f₂ := by
      simp only [List.mem_append, List.mem_cons] at hz ⊢
      tauto
    · exact ⟨hcA, hcy⟩
    · obtain ⟨d, hd, rfl, -⟩ := (hofree z).1 hz
      exact ⟨hA d ((hmem d).2 (Or.inl hd)), hne d hd⟩
  have hml : ∀ z ∈ ml, z ∈ (l ++ (carve c n ++ r)).map Chunk.addr ∧ z ≠ y := by
    intro z hz
    obtain ⟨d, hd, rfl, -⟩ := (housed z).1 hz
    exact ⟨hA d ((hmem d).2 (Or.inl hd)), hne d hd⟩
  have hptr : ptrAdd (some c.addr) ((n : ℤ) + sizeofHeader) = some y := by
    have hhi := (hs.tiles.mem Chunk.addr_le hcs).2
    have htop := hs.region.top
    unfold Chunk.stop at hhi
    rw [ptrAdd_eq (n := n + 24) (by simp [sizeofHeader]) (by omega) (by omega), hy]
    congr 1
    omega
  obtain ⟨τ₁, ⟨m₁, hm₁, hsees₁, hframe₁⟩, hlists₁, hτ₁x, hτ₁y, hτ₁yf, hτ₁size, hτ₁free⟩ :=
    hs.lists.split hsees (by simp) hyA hfl hml (Int.natCast_nonneg n) (by omega : 0 < (rest : ℤ))
      (by rw [hsize]; simp only [sizeofHeader]; omega) (by rw [hsize]; unfold IsInt; omega) hptr
  rw [hm₁, ok_bind]
  have hl₁ : Lists τ₁ { h with mem := m₁, freeList := some y } (y :: f₁ ++ c.addr :: f₂) ml :=
    ⟨hlists₁.free, hlists₁.used, hlists₁.disjoint⟩
  have hall : ∀ z ∈ y :: f₁ ++ c.addr :: f₂, z ∈ (l ++ (carve c n ++ r)).map Chunk.addr := by
    intro z hz
    rw [List.cons_append] at hz
    obtain rfl | hz := List.mem_cons.1 hz
    · exact hyA
    · exact (hfl z hz).1
  obtain ⟨p, τ, ⟨m, hm, hsees₂, hframe⟩, hlists, hτsize, hτx, hτfree⟩ :=
    hl₁.move hsees₁ hall fun z hz => (hml z hz).1
  refine ⟨m, p, y :: f₁ ++ f₂, hm, .of_sees hs.region.of_heap htiles hsees₂ hA ?_
    (isChain_carve hc hs.merged) ⟨hlists.free, hlists.used, hlists.disjoint⟩ (fun a => ?_)
    fun a => ?_, fun i hi => ?_⟩
  · intro d hd
    obtain hd' | rfl | rfl := (hmem d).1 hd
    · obtain ⟨hd, hdc⟩ := hothers d hd'
      rw [hτsize, hτfree _ hdc, hτ₁size _ hdc (hne d hd'), hτ₁free _ (hne d hd')]
      exact ⟨hs.size d hd, hs.flag d hd, hs.aligned d hd⟩
    · rw [hτsize]
      exact ⟨hτ₁x, hτx, hn⟩
    · rw [hτsize, hτfree _ hcy.symm]
      exact ⟨hτ₁y, hτ₁yf, by simp only; omega⟩
  · rw [List.cons_append, List.mem_cons, hofree]
    constructor
    · rintro (rfl | ⟨d, hd, hda⟩)
      · exact ⟨_, (hmem _).2 (Or.inr (Or.inr rfl)), rfl, rfl⟩
      · exact ⟨d, (hmem d).2 (Or.inl hd), hda⟩
    · rintro ⟨d, hd, rfl, hfree⟩
      obtain hd | rfl | rfl := (hmem d).1 hd
      · exact Or.inr ⟨d, hd, rfl, hfree⟩
      · cases hfree
      · exact Or.inl rfl
  · rw [List.mem_cons, housed]
    constructor
    · rintro (rfl | ⟨d, hd, hda⟩)
      · exact ⟨_, (hmem _).2 (Or.inr (Or.inl rfl)), rfl, rfl⟩
      · exact ⟨d, (hmem d).2 (Or.inl hd), hda⟩
    · rintro ⟨d, hd, rfl, hused⟩
      obtain hd | rfl | rfl := (hmem d).1 hd
      · exact Or.inr ⟨d, hd, rfl, hused⟩
      · exact Or.inl rfl
      · cases hused
  · have hheaders : ∀ a ∈ (l ++ (carve c n ++ r)).map Chunk.addr, i < a ∨ a + 24 ≤ i := by
      intro a ha
      obtain ⟨d, hd, rfl⟩ := List.mem_map.1 ha
      exact hi d hd
    exact (hframe i hheaders).trans (hframe₁ i hheaders)

/-- **A chunk is taken**: the code for a request of `z` bytes, which fits into the chunk and is
negative only if the chunk is not split. -/
theorem Shape.take {z : ℤ} (hs : Shape h (l ++ c :: r) fl ml) (hc : c.free = true) (hz : 8 ∣ z)
    (hle : z ≤ c.size) (hfits : 0 ≤ z ∨ (c.size : ℤ) ≤ z + 24) : ∃ m p fl',
      (h.split (some c.addr) z >>= fun h => h.move (some c.addr)) =
        .ok { h with mem := m, freeList := p, memList := some c.addr } ∧
      Shape { h with mem := m, freeList := p, memList := some c.addr } (l ++ (carve c z.toNat ++ r)) fl'
        (c.addr :: ml) ∧
      ∀ i, (∀ d ∈ l ++ (carve c z.toNat ++ r), i < d.addr ∨ d.addr + 24 ≤ i) → m i = h.mem i := by
  by_cases hbig : (c.size : ℤ) ≤ z + 24
  · exact hs.take_all hc hle hbig
  · obtain ⟨n, rfl⟩ := Int.eq_ofNat_of_zero_le (hfits.resolve_right hbig)
    exact hs.take_part hc (by omega) (by omega)

end Mem

end OperatingSystems

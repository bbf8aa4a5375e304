import OperatingSystems.Vm.Copying
import OperatingSystems.Vm.Exec

/-!
# Loading the segments

What becomes of the loop over the program headers can be told from the headers, the size of the file
and the number of free frames.  The pages that it makes are those below the size; all its writes go to
frames of the new address space, which were free.

* `Owned` : what `exec` has built is made of free frames, and nothing else has changed.
* `Heap` : the pages are those below the size.
* `pagesFate`, `segmentFate`, `segmentsFate` : the fates of `loaduvm`, of one header, and of all.
* `loadSegments_follows` : **the loop follows its fate**.
-/

namespace OperatingSystems

namespace Vm

open Bytes Custody

/-- The new address space is made of frames that were free in `m₀`; no other memory has changed, and
no frame is lost. -/
structure Owned (m₀ : Kmem) (s : Kmem × Pgdir) : Prop where
  books : ∀ x, s.1.freelist.count x + s.2.frames.count x = m₀.freelist.count x
  page : ∀ x, x ∉ m₀.freelist → s.1.page x = m₀.page x

/-- The pages are those below `sz`; all but page `0` are for the user. -/
structure Heap (d : Pgdir) (sz : ℕ) : Prop where
  sz_le : sz ≤ USERTOP
  present : ∀ v, (d.pte v).isSome ↔ v * PGSIZE < sz
  user : ∀ v e, d.pte v = some e → e.user = decide (v ≠ 0)

variable {m₀ m m' : Kmem} {d d' : Pgdir} {s : Kmem × Pgdir} {sz psz pss newsz v i n off : ℕ} {x : Frame}
  {ip : Inode} {ph : Proghdr}

/-! ### Free frames -/

theorem Owned.count_le (h : Owned m₀ (m, d)) (x : Frame) :
    m.freelist.count x ≤ m₀.freelist.count x := by
  have := h.books x
  dsimp only at this
  omega

theorem Owned.nodup (h : Owned m₀ (m, d)) (hnodup : m₀.freelist.Nodup) : m.freelist.Nodup :=
  List.nodup_iff_count_le_one.2 fun x =>
    (h.count_le x).trans (List.nodup_iff_count_le_one.1 hnodup x)

theorem Owned.notMem (h : Owned m₀ (m, d)) (hx : x ∉ m₀.freelist) : x ∉ m.freelist := fun hmem =>
  hx (List.count_pos_iff.1 ((List.count_pos_iff.2 hmem).trans_le (h.count_le x)))

theorem Owned.mem_freelist (h : Owned m₀ (m, d)) (hx : x ∈ d.frames) : x ∈ m₀.freelist := by
  have := h.books x
  have := List.count_pos_iff.2 hx
  dsimp only at *
  exact List.count_pos_iff.1 (by omega)

/-- A write to a frame of the address space. -/
theorem Owned.fill (h : Owned m₀ (m, d)) (hx : x ∈ d.frames) (off n : ℕ) (p : Bytes) :
    Owned m₀ (m.fill x off n p, d) where
  books := h.books
  page y hy := by
    have hne : y ≠ x := by
      rintro rfl
      exact hy (h.mem_freelist hx)
    exact (Function.update_of_ne hne _ _).trans (h.page y hy)

/-- The address space can be freed. -/
theorem Owned.freevm (h : Owned m₀ (m, d)) :
    (∀ x, (Vm.freevm m d).freelist.count x = m₀.freelist.count x) ∧
      ∀ x, x ∉ m₀.freelist → (Vm.freevm m d).page x = m₀.page x := by
  have hcount : ∀ x, (Vm.freevm m d).freelist.count x = m₀.freelist.count x := fun x =>
    (count_freevm m d x).trans (h.books x)
  refine ⟨hcount, fun x hx => ?_⟩
  have hx' : x ∉ (Vm.freevm m d).freelist := by
    rw [← List.count_eq_zero] at hx ⊢
    rw [hcount, hx]
  rw [freevm_page hx', h.page x hx]

/-- `setupkvm` begins an address space. -/
theorem setupkvm_owned (hle : kernelFrames ≤ m₀.freelist.length) :
    ∃ m d, setupkvm m₀ = (some d, m) ∧ Owned m₀ (m, d) ∧ Heap d 0 ∧
      m.freelist.length = m₀.freelist.length - kernelFrames := by
  obtain ⟨d, m, hsetup, hempty, hdir, hfree, hpage⟩ := setupkvm_of_le hle
  refine ⟨m, d, hsetup, ⟨fun x => ?_, hpage⟩, ⟨Nat.zero_le _, fun v => ?_, fun v e he => ?_⟩, ?_⟩
  · dsimp only
    rw [frames_of_empty hempty, hdir, hfree, Nat.add_comm, ← List.count_append,
      List.take_append_drop]
  · simp [hempty]
  · rw [hempty] at he
    cases he
  · rw [hfree, List.length_drop]

/-- `allocuvm` writes to free frames only. -/
theorem allocuvm_page {oldsz sz' : ℕ} (hnodup : m.freelist.Nodup)
    (h : allocuvm psz pss m d oldsz newsz = some (m', d', sz')) (hx : x ∉ m.freelist)
    (hx' : x ∉ m'.freelist) : m'.page x = m.page x := by
  unfold allocuvm at h
  split_ifs at h with h1 h2 h3
  · cases h; rfl
  · cases h; rfl
  · cases h; rfl
  · obtain ⟨⟨ok, m₁, d₁⟩, hloop, h⟩ := Option.map_eq_some_iff.1 h
    obtain ⟨hi, hgrown, -⟩ := allocLoop_grown (pgroundup_eq (by omega)) hnodup hloop
    dsimp only at h
    split_ifs at h
    · cases h
      exact hgrown.page x (Or.inl hx)
    · rcases (not_lt.1 h3).eq_or_lt with rfl | hlt
      · -- nothing is freed
        have hsame : deallocuvm m₁ d₁ oldsz oldsz = (m₁, d₁, oldsz) := by
          unfold deallocuvm
          rw [if_pos le_rfl]
        rw [hsame] at h
        cases h
        exact hgrown.page x (Or.inl hx)
      · obtain ⟨-, hshrunk⟩ := deallocuvm_shrunk m₁ d₁ (not_lt.1 h2) hlt
        cases h
        exact (hshrunk.page x hx').trans (hgrown.page x (Or.inl hx))

theorem Owned.allocuvm {oldsz sz' : ℕ} (h : Owned m₀ (m, d)) (hnodup : m₀.freelist.Nodup)
    (ha : allocuvm psz pss m d oldsz newsz = some (m', d', sz')) : Owned m₀ (m', d') := by
  have hbooks : ∀ x, m'.freelist.count x + d'.frames.count x = m₀.freelist.count x := fun x =>
    (count_allocuvm ha x).trans (h.books x)
  refine ⟨hbooks, fun x hx => ?_⟩
  have hx' : x ∉ m'.freelist := fun hmem => by
    have := hbooks x
    have := List.count_pos_iff.2 hmem
    exact hx (List.count_pos_iff.1 (by omega))
  exact (allocuvm_page (h.nodup hnodup) ha (h.notMem hx) hx').trans (h.page x hx)

/-! ### Room for a segment -/

/-- The size that `allocuvm` returns for a heap of `sz` bytes and `free` free frames: `0` on error. -/
def segmentSize (psz pss free sz newsz : ℕ) : ℕ :=
  if sz = toUint (USERTOP - pss - PGSIZE) ∧ sz < (psz + PGSIZE) % 2 ^ 32 then 0
  else if newsz > USERTOP then 0
  else if newsz < sz then sz
  else if heapPages newsz - heapPages sz ≤ free then newsz
  else 0

/-- The pages of a heap that has grown. -/
theorem Heap.grown {hi : ℕ} (h : Heap d sz) (hnew : newsz ≤ USERTOP) (hle : sz ≤ newsz)
    (hgrown : Grown m d m' d' (heapPages sz) hi (fun v => decide (v ≠ 0)) fun _ _ => 0)
    (hin : ∀ v, heapPages sz ≤ v → v < hi → v * PGSIZE < newsz) (hend : newsz ≤ hi * PGSIZE) :
    Heap d' newsz where
  sz_le := hnew
  present v := by
    have hold : heapPages sz ≤ v ↔ sz ≤ v * PGSIZE := heapPages_le_iff
    by_cases hv : heapPages sz ≤ v ∧ v < hi
    · obtain ⟨f, -, hpte, -⟩ := hgrown.inside v hv.1 hv.2
      exact iff_of_true (by rw [hpte]; rfl) (hin v hv.1 hv.2)
    · have hhi : hi ≤ v → newsz ≤ v * PGSIZE := fun hhi =>
        hend.trans (Nat.mul_le_mul_right PGSIZE hhi)
      rw [hgrown.outside v (by omega), h.present v]
      omega
  user v e he := by
    by_cases hv : heapPages sz ≤ v ∧ v < hi
    · obtain ⟨f, -, hpte, -⟩ := hgrown.inside v hv.1 hv.2
      rw [hpte] at he
      cases he
      rfl
    · rw [hgrown.outside v (by omega)] at he
      exact h.user v e he

/-- **`allocuvm` for a heap.** -/
theorem Heap.allocuvm (h : Heap d sz) (hnodup : m.freelist.Nodup) (psz pss newsz : ℕ) :
    ∃ m' d' sz', allocuvm psz pss m d sz newsz = some (m', d', sz') ∧
      sz' = segmentSize psz pss m.freelist.length sz newsz ∧ (sz' ≠ 0 → Heap d' sz' ∧
        m'.freelist.length = m.freelist.length - (heapPages sz' - heapPages sz)) := by
  have hszle := h.sz_le
  unfold Vm.allocuvm segmentSize
  by_cases h1 : sz = toUint (USERTOP - pss - PGSIZE) ∧ sz < (psz + PGSIZE) % 2 ^ 32
  · exact ⟨m, d, 0, if_pos h1, (if_pos h1).symm, fun h0 => absurd rfl h0⟩
  rw [if_neg h1, if_neg h1]
  by_cases h2 : newsz > USERTOP
  · exact ⟨m, d, 0, if_pos h2, (if_pos h2).symm, fun h0 => absurd rfl h0⟩
  rw [if_neg h2, if_neg h2]
  by_cases h3 : newsz < sz
  · exact ⟨m, d, sz, if_pos h3, (if_pos h3).symm, fun _ => ⟨h, by omega⟩⟩
  rw [if_neg h3, if_neg h3]
  have hround : pgroundup sz = heapPages sz * PGSIZE := pgroundup_eq hszle
  have hnone : ∀ v, heapPages sz ≤ v → v * PGSIZE < newsz → d.pte v = none := fun v hv _ => by
    have hout := mt (h.present v).1 (not_lt.2 (heapPages_le_iff.1 hv))
    exact Option.not_isSome_iff_eq_none.1 hout
  obtain ⟨⟨ok, m₁, d₁⟩, hloop⟩ := Option.isSome_iff_exists.1
    (allocLoop_isSome (m := m) hround hnone)
  obtain ⟨hi, hgrown, hle, hin, hok, hfail⟩ := allocLoop_grown hround hnodup hloop
  obtain ⟨hreach, hhi⟩ := hgrown.reach (fun _ => heapPages_le_iff) hle hin hok hfail
  rw [hloop, Option.map_some]
  cases ok with
  | true =>
    have hlength := hgrown.length
    have hmono : heapPages sz ≤ heapPages newsz := Nat.div_le_div_right (by omega)
    rw [hhi rfl, max_eq_right hmono] at hlength
    refine ⟨m₁, d₁, newsz, rfl, (if_pos (hreach.1 rfl)).symm, fun _ => ⟨?_, by omega⟩⟩
    exact h.grown (not_lt.1 h2) (not_lt.1 h3) hgrown hin (hok rfl)
  | false =>
    exact ⟨_, _, 0, rfl, (if_neg (mt hreach.2 (by simp))).symm, fun h0 => absurd rfl h0⟩

/-- A call that returns `-1` on error, with a value to go on with. -/
theorem Build.follows_ofResult {α β : Type} {a : α} {b : β} {r : Except Stop (Kmem × Bool)}
    {fate : Fate Unit} {kept : Kmem × Pgdir → Prop} {post : Unit → Unit → Kmem × Pgdir → Prop}
    {post' : β → α → Kmem × Pgdir → Prop} (h : (Build.ofResult d () r).Follows fate kept post)
    (hpost : ∀ s, post () () s → post' b a s) :
    (Build.ofResult d a r).Follows (fate.andThen fun _ => .goesOn b) kept post' := by
  have heq : Build.ofResult d a r =
      Stage.andThen (Build.ofResult d () r) fun s _ => .ok (s, some a) := by
    rcases r with e | ⟨m, _ | _⟩ <;> rfl
  rw [heq]
  exact h.andThen fun _ _ s hs => Stage.Follows.goesOn (hpost s hs)

/-! ### The file bytes of a segment -/

/-- What becomes of the page at `i` of the file bytes of a segment, in a heap of `sz` bytes: one that
is not in the heap needs a page table, and no bytes in the file. -/
def pageFate (ip : Inode) (ph : Proghdr) (sz i : ℕ) : Fate Unit :=
  let v := (ph.va + i) % 2 ^ 32 / PGSIZE
  let n := if ph.filesz - i < PGSIZE then ph.filesz - i else PGSIZE
  let r := readi ip ((ph.offset + i) % 2 ^ 32) n
  if v * PGSIZE < sz then if r = some n then .goesOn () else .givesUp
  else if HasTable v ∧ r.getD 0 = 0 then .givesUp
  else .stops

/-- What becomes of `n` pages from `i` on. -/
def pagesFate (ip : Inode) (ph : Proghdr) (sz : ℕ) : ℕ → ℕ → Fate Unit
  | 0, _ => .goesOn ()
  | n + 1, i => (pageFate ip ph sz i).andThen fun _ => pagesFate ip ph sz n (i + PGSIZE)

/-- What becomes of `loaduvm`. -/
def loadFate (ip : Inode) (ph : Proghdr) (sz : ℕ) : Fate Unit :=
  if ph.va % PGSIZE ≠ 0 then .stops else pagesFate ip ph sz (heapPages ph.filesz) 0

theorem Heap.mem_frames {e : Pte} (h : Heap d sz) (he : d.pte v = some e) : e.frame ∈ d.frames := by
  have hlt := (h.present v).1 (by rw [he]; rfl)
  exact mem_frames_of_pte (mem_userPages (hlt.trans_le h.sz_le)) he

/-- One page, and the others. -/
theorem loadLoop_cons (h : Heap d sz) (ho : Owned m₀ (m, d)) (hlt : i < ph.filesz)
    {fate : Fate Unit} {post : Unit → Unit → Kmem × Pgdir → Prop}
    (hrest : ∀ m', Owned m₀ (m', d) → m'.freelist = m.freelist →
      (Build.ofResult d () (loadLoop d ph.va ip ph.offset ph.filesz (i + PGSIZE) m')).Follows fate
        (Owned m₀) post) :
    (Build.ofResult d () (loadLoop d ph.va ip ph.offset ph.filesz i m)).Follows
      ((pageFate ip ph sz i).andThen fun _ => fate) (Owned m₀) post := by
  rw [loadLoop, if_pos hlt, pageFate]
  dsimp only
  generalize hr : readi ip ((ph.offset + i) % 2 ^ 32)
    (if ph.filesz - i < PGSIZE then ph.filesz - i else PGSIZE) = r
  generalize hn : (if ph.filesz - i < PGSIZE then ph.filesz - i else PGSIZE) = n
  generalize hv : (ph.va + i) % 2 ^ 32 / PGSIZE = v
  have hpresent := h.present v
  by_cases hin : v * PGSIZE < sz
  · -- a page of the heap
    have htable : HasTable v := Or.inl (by
      have := h.sz_le
      simp only [USERTOP, PHYSTOP, PGSIZE] at *
      omega)
    obtain ⟨e, he⟩ := Option.isSome_iff_exists.1 (hpresent.2 hin)
    rw [if_pos htable, he, if_pos hin]
    dsimp only
    have hfill := ho.fill (h.mem_frames he) 0 (r.getD 0) (slice ip.data ((ph.offset + i) % 2 ^ 32))
    by_cases hall : r = some n
    · rw [if_pos hall, if_pos hall]
      exact hrest _ hfill rfl
    · rw [if_neg hall, if_neg hall]
      exact Stage.Follows.givesUp hfill
  · have hnone : d.pte v = none := Option.not_isSome_iff_eq_none.1 (mt hpresent.1 hin)
    rw [hnone, if_neg hin]
    by_cases htable : HasTable v
    · rw [if_pos htable]
      by_cases hzero : r.getD 0 = 0
      · rw [if_pos hzero, if_pos ⟨htable, hzero⟩]
        exact Stage.Follows.givesUp ho
      · rw [if_neg hzero, if_neg fun hand => hzero hand.2]
        exact Stage.Follows.stops _
    · rw [if_neg htable, if_neg fun hand => htable hand.1]
      exact Stage.Follows.stops _

/-- What `exec` has built while it loads: a heap, with `free` frames left. -/
structure Loading (m₀ : Kmem) (sz free : ℕ) (s : Kmem × Pgdir) : Prop where
  owned : Owned m₀ s
  heap : Heap s.2 sz
  free : s.1.freelist.length = free

theorem loadLoop_follows {lo free : ℕ} (h : Loading m₀ sz free (m, d)) (hi : i = lo * PGSIZE)
    (hn : heapPages ph.filesz = lo + n) :
    (Build.ofResult d () (loadLoop d ph.va ip ph.offset ph.filesz i m)).Follows
      (pagesFate ip ph sz n i) (Owned m₀) fun _ _ s => Loading m₀ sz free s := by
  induction n generalizing i lo m with
  | zero =>
    have hge : ph.filesz ≤ i := hi ▸ heapPages_le_iff.1 hn.le
    rw [loadLoop, if_neg (not_lt.2 hge)]
    exact Stage.Follows.goesOn h
  | succ n ih =>
    have hlt : i < ph.filesz := by
      by_contra hge
      have := heapPages_le_iff.2 (hi ▸ not_lt.1 hge)
      omega
    refine loadLoop_cons h.heap h.owned hlt fun m' ho hfree => ?_
    exact ih ⟨ho, h.heap, hfree ▸ h.free⟩ (by rw [hi, mul_add_PGSIZE]) (by omega)

theorem loaduvm_follows {free : ℕ} (h : Loading m₀ sz free (m, d)) (ip : Inode) (ph : Proghdr) :
    (Build.ofResult d () (loaduvm m d ph.va ip ph.offset ph.filesz)).Follows (loadFate ip ph sz)
      (Owned m₀) fun _ _ s => Loading m₀ sz free s := by
  unfold loaduvm loadFate
  split_ifs
  · exact Stage.Follows.stops _
  · exact loadLoop_follows h (Nat.zero_mul _).symm (Nat.zero_add _).symm

/-! ### The program headers -/

/-- What becomes of the header at `off`, for a heap of `sz` bytes and `free` free frames: both after
it. -/
def segmentFate (psz pss : ℕ) (ip : Inode) (off : ℕ) : ℕ × ℕ → Fate (ℕ × ℕ)
  | (sz, free) =>
    let ph := Proghdr.ofBytes (slice ip.data off)
    let newsz := segmentSize psz pss free sz (toUint (ph.va + ph.memsz + PGSIZE))
    if readi ip off proghdrSize ≠ some proghdrSize then .givesUp
    else if ph.type ≠ ELF_PROG_LOAD then .goesOn (sz, free)
    else if ph.memsz < ph.filesz then .givesUp
    else if newsz = 0 then .givesUp
    else (loadFate ip ph newsz).andThen fun _ =>
      .goesOn (newsz, free - (heapPages newsz - heapPages sz))

/-- What becomes of `n` headers from `off` on. -/
def segmentsFate (psz pss : ℕ) (ip : Inode) : ℕ → ℕ → ℕ × ℕ → Fate (ℕ × ℕ)
  | 0, _, x => .goesOn x
  | n + 1, off, x =>
    (segmentFate psz pss ip off x).andThen
      (segmentsFate psz pss ip n ((off + proghdrSize) % 2 ^ 32))

/-- The new size is the one that the fate says. -/
def Loaded (m₀ : Kmem) (x : ℕ × ℕ) (sz : ℕ) (s : Kmem × Pgdir) : Prop :=
  sz = x.1 ∧ Loading m₀ x.1 x.2 s

/-- **One header.** -/
theorem loadSegment_follows {free : ℕ} (hnodup : m₀.freelist.Nodup) (h : Loading m₀ sz free s)
    (psz pss : ℕ) (ip : Inode) (off : ℕ) :
    (loadSegment psz pss ip off s sz).Follows (segmentFate psz pss ip off (sz, free)) (Owned m₀)
      (Loaded m₀) := by
  obtain ⟨m, d⟩ := s
  unfold loadSegment segmentFate
  dsimp only
  by_cases hread : readi ip off proghdrSize ≠ some proghdrSize
  · rw [if_pos hread, if_pos hread]
    exact Stage.Follows.givesUp h.owned
  rw [if_neg hread, if_neg hread]
  generalize Proghdr.ofBytes (slice ip.data off) = ph
  by_cases htype : ph.type ≠ ELF_PROG_LOAD
  · rw [if_pos htype, if_pos htype]
    exact Stage.Follows.goesOn ⟨rfl, h⟩
  rw [if_neg htype, if_neg htype]
  by_cases hsize : ph.memsz < ph.filesz
  · rw [if_pos hsize, if_pos hsize]
    exact Stage.Follows.givesUp h.owned
  rw [if_neg hsize, if_neg hsize]
  obtain ⟨m', d', sz', halloc, hsz', hroom⟩ := h.heap.allocuvm (h.owned.nodup hnodup) psz pss
    (toUint (ph.va + ph.memsz + PGSIZE))
  have howned := h.owned.allocuvm hnodup halloc
  have hfree : m.freelist.length = free := h.free
  rw [hfree] at hsz' hroom
  rw [halloc, ← hsz']
  dsimp only
  by_cases hzero : sz' = 0
  · rw [if_pos hzero, if_pos hzero]
    exact Stage.Follows.givesUp howned
  rw [if_neg hzero, if_neg hzero]
  obtain ⟨hheap, hlength⟩ := hroom hzero
  exact Build.follows_ofResult (loaduvm_follows ⟨howned, hheap, hlength⟩ ip ph) fun s hs => ⟨rfl, hs⟩

/-- **All headers.** -/
theorem loadSegments_follows {free : ℕ} (hnodup : m₀.freelist.Nodup) (h : Loading m₀ sz free s)
    (psz pss : ℕ) (ip : Inode) (n off : ℕ) :
    (loadSegments psz pss ip n off s sz).Follows (segmentsFate psz pss ip n off (sz, free))
      (Owned m₀) (Loaded m₀) := by
  induction n generalizing s sz free off with
  | zero => exact Stage.Follows.goesOn ⟨rfl, h⟩
  | succ n ih =>
    refine (loadSegment_follows hnodup h psz pss ip off).andThen ?_
    rintro ⟨sz', free'⟩ _ s' ⟨rfl, h'⟩
    exact ih h' _

end Vm

end OperatingSystems

import OperatingSystems.Vm.Frames
import OperatingSystems.Vm.Layout

/-!
# Growing and shrinking the heap

`growproc` computes the new size in unsigned arithmetic, and takes a size of `0` for an error.  So a
heap that shrinks to nothing is freed although the call fails, and one that should shrink by more than
its size stays as it is although the call succeeds.

* `Covers` : the user pages are exactly those of a heap and of a stack.
* `Resized` : a success, with the heap resized; `Refused` : a failure, with nothing changed.
* `growproc_atomic_iff` : **exactly when `growproc` is atomic**, for every size, every change of it and
  every free list.
* `growproc_not_atomic` : a heap of one page that shrinks by a page.
-/

namespace OperatingSystems

namespace Vm

open Custody

/-- The user pages are exactly those of a heap of `sz` bytes and a stack of `ss`. -/
def Pgdir.Covers (d : Pgdir) (sz ss : ℕ) : Prop :=
  ∀ v, (d.pte v).isSome ↔ v * PGSIZE < sz ∨ USERTOP - ss ≤ v * PGSIZE ∧ v * PGSIZE < USERTOP

/-- A process with a heap and a stack that are apart, and its page directory; its frames are in use,
and none of them twice. -/
structure Occupies (k : Kernel) (p : Slot) (d : Pgdir) : Prop where
  pgdir : (k.proc p).pgdir = some d
  covers : d.Covers (k.proc p).sz (k.proc p).ss
  apart : Apart (k.proc p)
  nodup : (k.kmem.freelist ++ d.frames).Nodup

/-- `growproc(n)` has succeeded: the size and the pages of the heap are what they should be, the pages
that were there before and still are have their contents, and the others are zero. -/
structure Resized (k : Kernel) (p : Slot) (n : ℤ) (d : Pgdir) (k' : Kernel) (d' : Pgdir) : Prop where
  pgdir : (k'.proc p).pgdir = some d'
  sz : ((k'.proc p).sz : ℤ) = (k.proc p).sz + n
  covers : d'.Covers (k'.proc p).sz (k.proc p).ss
  old : ∀ v e, d.pte v = some e → (d'.pte v).isSome →
    d'.pte v = some e ∧ k'.kmem.page e.frame = k.kmem.page e.frame
  new : ∀ v e, d.pte v = none → d'.pte v = some e →
    e.user = decide (v ≠ 0) ∧ k'.kmem.page e.frame = fun _ => 0

/-- `growproc` has failed: the size and all mappings are what they were. -/
structure Refused (k : Kernel) (p : Slot) (d : Pgdir) (k' : Kernel) (d' : Pgdir) : Prop where
  pgdir : (k'.proc p).pgdir = some d'
  sz : (k'.proc p).sz = (k.proc p).sz
  pte : d'.pte = d.pte
  page : ∀ v e, d.pte v = some e → k'.kmem.page e.frame = k.kmem.page e.frame

/-- Either it succeeds or it fails. -/
def Atomic (k : Kernel) (p : Slot) (n : ℤ) (d : Pgdir) (k' : Kernel) (r : ℤ) : Prop :=
  ∃ d', r = 0 ∧ Resized k p n d k' d' ∨ r = -1 ∧ Refused k p d k' d'

section

variable {k : Kernel} {p : Slot} {d : Pgdir} {n : ℤ}

theorem Occupies.sz_le (h : Occupies k p d) :
    (k.proc p).sz + PGSIZE + (k.proc p).ss ≤ USERTOP := apart_iff.1 h.apart

theorem Occupies.nodup_freelist (h : Occupies k p d) : k.kmem.freelist.Nodup :=
  (List.nodup_append'.1 h.nodup).1

/-- The pages below `USERTOP` are in use. -/
theorem Occupies.mem_userPages (h : Occupies k p d) {v : ℕ} (hv : (d.pte v).isSome) :
    v ∈ userPages := by
  have := h.sz_le
  rcases (h.covers v).1 hv with hv | hv
  · exact Vm.mem_userPages (by omega)
  · exact Vm.mem_userPages hv.2

theorem Occupies.frame_notMem (h : Occupies k p d) {v : ℕ} {e : Pte} (he : d.pte v = some e) :
    e.frame ∉ k.kmem.freelist := fun hmem =>
  (List.nodup_append'.1 h.nodup).2.2 hmem
    (mem_frames_of_pte (h.mem_userPages (by rw [he]; rfl)) he)

/-- A frame that a page directory still holds is not free, if the books are right. -/
theorem notMem_freelist {m m' : Kmem} {d' : Pgdir} {x : Frame}
    (hnodup : (m.freelist ++ d.frames).Nodup)
    (hbooks : m'.freelist.count x + d'.frames.count x = m.freelist.count x + d.frames.count x)
    (hx : x ∈ d'.frames) : x ∉ m'.freelist := by
  have hle := List.nodup_iff_count_le_one.1 hnodup x
  have hpos := List.count_pos_iff.2 hx
  rw [List.count_append] at hle
  intro hmem
  have := List.count_pos_iff.2 hmem
  omega

/-- Between heap and stack there is no page. -/
theorem Occupies.pte_eq_none (h : Occupies k p d) {v : ℕ} (hlo : (k.proc p).sz ≤ v * PGSIZE)
    (hhi : v * PGSIZE < USERTOP - (k.proc p).ss) : d.pte v = none := by
  by_contra hne
  have := (h.covers v).1 (Option.isSome_iff_ne_none.2 hne)
  omega

/-! ### The two halves of `growproc` -/

/-- The state in which `growproc` returns. -/
def returned (k : Kernel) (p : Slot) (m : Kmem) (d : Pgdir) (sz : Option ℕ) : Kernel × ℤ :=
  let k := { k with kmem := m }.setProc p fun q => { q with pgdir := some d }
  match sz with
  | none => (k, -1)
  | some sz => (k.setProc p fun q => { q with sz := sz }, 0)

theorem growproc_eq (h : (k.proc p).pgdir = some d) (n : ℤ) :
    k.growproc p n = (k.growprocSize p d n).map fun (m, d, sz) => returned k p m d sz := by
  rw [Kernel.growproc, h]
  rfl

/-- A size makes a success. -/
theorem atomic_returned_some {m : Kmem} {d' : Pgdir} {sz : ℕ} (hsz : (sz : ℤ) = (k.proc p).sz + n)
    (hcovers : d'.Covers sz (k.proc p).ss)
    (hold : ∀ v e, d.pte v = some e → (d'.pte v).isSome →
      d'.pte v = some e ∧ m.page e.frame = k.kmem.page e.frame)
    (hnew : ∀ v e, d.pte v = none → d'.pte v = some e →
      e.user = decide (v ≠ 0) ∧ m.page e.frame = fun _ => 0) :
    Atomic k p n d (returned k p m d' (some sz)).1 (returned k p m d' (some sz)).2 := by
  exact ⟨d', Or.inl ⟨rfl, by simp [returned], by simpa [returned] using hsz,
    by simpa [returned] using hcovers, hold, hnew⟩⟩

/-- No size makes a failure. -/
theorem atomic_returned_none {m : Kmem} {d' : Pgdir} (hpte : d'.pte = d.pte)
    (hpage : ∀ v e, d.pte v = some e → m.page e.frame = k.kmem.page e.frame) :
    Atomic k p n d (returned k p m d' none).1 (returned k p m d' none).2 :=
  ⟨d', Or.inr ⟨rfl, by simp [returned], by simp [returned], hpte, hpage⟩⟩

/-- The heap grows, or nothing changes. -/
theorem atomic_of_pos (h : Occupies k p d) (hn : 0 < n ∧ n < 2 ^ 31) :
    ∃ k' r, k.growproc p n = some (k', r) ∧ Atomic k p n d k' r := by
  have hroom := h.sz_le
  have hP : PGSIZE = 4096 := rfl
  have hU : USERTOP = 0xA0000 := rfl
  obtain ⟨newsz, hnewsz⟩ : ∃ newsz : ℕ, (newsz : ℤ) = (k.proc p).sz + n :=
    ⟨((k.proc p).sz + n).toNat, by omega⟩
  have hto : toUint ((k.proc p).sz + n) = newsz := by unfold toUint; omega
  have hlimit : toUint (USERTOP - (k.proc p).ss - PGSIZE) = USERTOP - (k.proc p).ss - PGSIZE := by
    unfold toUint; omega
  have hsame : k.growprocSize p d n = some (k.kmem, d, none) →
      ∃ k' r, k.growproc p n = some (k', r) ∧ Atomic k p n d k' r := fun hs => by
    rw [growproc_eq h.pgdir, hs]
    exact ⟨_, _, rfl, atomic_returned_none rfl fun _ _ _ => rfl⟩
  by_cases hbig : newsz > USERTOP - (k.proc p).ss - PGSIZE
  · refine hsame ?_
    unfold Kernel.growprocSize
    simp only [if_pos hn.1, hto, hlimit, if_pos hbig]
  -- the loop of `allocuvm` runs from the end of the heap
  set lo := ((k.proc p).sz + PGSIZE - 1) / PGSIZE with hlo
  have hnone : ∀ v, lo ≤ v → v * PGSIZE < newsz → d.pte v = none := fun v hv hlt =>
    h.pte_eq_none (pages_le_iff.1 hv) (by omega)
  have hround : pgroundup (k.proc p).sz = lo * PGSIZE := pgroundup_eq (by omega)
  obtain ⟨⟨ok, m₁, d₁⟩, hloop⟩ := Option.isSome_iff_exists.1
    (allocLoop_isSome (m := k.kmem) hround hnone)
  obtain ⟨hi, hgrown, hle, hin, hok, -⟩ := allocLoop_grown hround h.nodup_freelist hloop
  have hbooks := count_allocLoop (by omega) hloop
  have halloc : allocuvm (k.proc p).sz (k.proc p).ss k.kmem d (k.proc p).sz newsz =
      some (if ok then (m₁, d₁, newsz) else
        ((deallocuvm m₁ d₁ newsz (k.proc p).sz).1, (deallocuvm m₁ d₁ newsz (k.proc p).sz).2.1, 0)) := by
    unfold allocuvm
    rw [hlimit, if_neg (by omega), if_neg (by omega), if_neg (by omega), hloop]
    cases ok <;> rfl
  have hold : ∀ v e, d.pte v = some e →
      d₁.pte v = some e ∧ m₁.page e.frame = k.kmem.page e.frame := by
    intro v e he
    have hout : v < lo ∨ hi ≤ v := by
      by_contra hin'
      rw [hgrown.absent v (by omega) (by omega)] at he
      cases he
    exact ⟨(hgrown.outside v hout).trans he, hgrown.page _ (Or.inl (h.frame_notMem he))⟩
  cases ok with
  | true =>
    have hend : newsz ≤ hi * PGSIZE := hok rfl
    have hs : k.growprocSize p d n = some (m₁, d₁, some newsz) := by
      unfold Kernel.growprocSize
      simp only [if_pos hn.1, hto, hlimit, if_neg hbig, halloc, if_true, Option.map_some,
        if_neg (show newsz ≠ 0 by omega)]
    rw [growproc_eq h.pgdir, hs]
    refine ⟨_, _, rfl, atomic_returned_some hnewsz (fun v => ?_) (fun v e he _ => hold v e he)
      fun v e hnone he => ?_⟩
    · by_cases hv : lo ≤ v ∧ v < hi
      · obtain ⟨f, -, hpte, -⟩ := hgrown.inside v hv.1 hv.2
        have := hin v hv.1 hv.2
        simp [hpte, this]
      · have hcovers := h.covers v
        rw [← hgrown.outside v (by omega)] at hcovers
        rw [hcovers]
        have hv' : lo ≤ v ↔ (k.proc p).sz ≤ v * PGSIZE := pages_le_iff
        have hv'' : hi ≤ v → newsz ≤ v * PGSIZE := fun hhi =>
          hend.trans (Nat.mul_le_mul_right PGSIZE hhi)
        omega
    · have hv : lo ≤ v ∧ v < hi := by
        by_contra hout
        rw [hgrown.outside v (by omega), hnone] at he
        cases he
      obtain ⟨f, -, hpte, -, hzero⟩ := hgrown.inside v hv.1 hv.2
      rw [hpte] at he
      cases he
      exact ⟨rfl, hzero⟩
  | false =>
    -- the new pages are freed again
    obtain ⟨-, hshrunk⟩ := deallocuvm_shrunk m₁ d₁
      (show newsz ≤ USERTOP by omega) (show (k.proc p).sz < newsz by omega)
    have hfreed := count_deallocuvm (show newsz ≤ USERTOP by omega) (k.proc p).sz m₁ d₁
    generalize hr : deallocuvm m₁ d₁ newsz (k.proc p).sz = r at *
    obtain ⟨m₂, d₂, sz₂⟩ := r
    dsimp only at hshrunk hfreed halloc
    have hs : k.growprocSize p d n = some (m₂, d₂, none) := by
      unfold Kernel.growprocSize
      simp only [if_pos hn.1, hto, hlimit, if_neg hbig, halloc, if_true, Option.map_some,
        Bool.false_eq_true, if_false]
    have hpte : d₂.pte = d.pte := by
      funext v
      rw [hshrunk.pte v]
      split_ifs with hv
      · exact (hnone v hv.1 hv.2).symm
      · refine hgrown.outside v ?_
        by_contra hin'
        exact hv ⟨by omega, hin v (by omega) (by omega)⟩
    rw [growproc_eq h.pgdir, hs]
    refine ⟨_, _, rfl, atomic_returned_none hpte fun v e he => ?_⟩
    have hmem : e.frame ∈ d₂.frames :=
      mem_frames_of_pte (h.mem_userPages (by rw [he]; rfl)) (by rw [hpte, he])
    rw [hshrunk.page _ (notMem_freelist h.nodup ((hfreed e.frame).trans (hbooks e.frame)) hmem)]
    exact (hold v e he).2

/-- The heap shrinks, but not to nothing. -/
theorem atomic_of_neg (h : Occupies k p d) (hn : n < 0) (hpos : 0 < (k.proc p).sz + n) :
    ∃ k' r, k.growproc p n = some (k', r) ∧ Atomic k p n d k' r := by
  have hroom := h.sz_le
  have hP : PGSIZE = 4096 := rfl
  have hU : USERTOP = 0xA0000 := rfl
  obtain ⟨newsz, hnewsz⟩ : ∃ newsz : ℕ, (newsz : ℤ) = (k.proc p).sz + n :=
    ⟨((k.proc p).sz + n).toNat, by omega⟩
  have hto : toUint ((k.proc p).sz + n) = newsz := by unfold toUint; omega
  obtain ⟨hsz, hshrunk⟩ := deallocuvm_shrunk k.kmem d
    (show (k.proc p).sz ≤ USERTOP by omega) (show newsz < (k.proc p).sz by omega)
  have hfreed := count_deallocuvm (show (k.proc p).sz ≤ USERTOP by omega) newsz k.kmem d
  have hs : k.growprocSize p d n = some ((deallocuvm k.kmem d (k.proc p).sz newsz).1,
      (deallocuvm k.kmem d (k.proc p).sz newsz).2.1, some newsz) := by
    unfold Kernel.growprocSize
    simp only [if_neg (show ¬ n > 0 by omega), if_pos hn, hto, hsz,
      if_neg (show newsz ≠ 0 by omega)]
  generalize deallocuvm k.kmem d (k.proc p).sz newsz = r at *
  obtain ⟨m₁, d₁, sz₁⟩ := r
  dsimp only at hshrunk hfreed hs
  rw [growproc_eq h.pgdir, hs]
  refine ⟨_, _, rfl, atomic_returned_some hnewsz (fun v => ?_) (fun v e he hsome => ?_)
    fun v e hnone he => ?_⟩
  · have hcovers := h.covers v
    have hv : (newsz + PGSIZE - 1) / PGSIZE ≤ v ↔ newsz ≤ v * PGSIZE := pages_le_iff
    rw [hshrunk.pte v]
    split_ifs with hv'
    · simp only [Option.isSome_none, Bool.false_eq_true, false_iff]
      omega
    · rw [hcovers]
      omega
  · have hpte : d₁.pte v = some e := by
      rw [hshrunk.pte v] at hsome ⊢
      split_ifs at hsome ⊢ with hv
      · cases hsome
      · exact he
    refine ⟨hpte, hshrunk.page _ (notMem_freelist h.nodup (hfreed e.frame) ?_)⟩
    exact mem_frames_of_pte (h.mem_userPages (by rw [he]; rfl)) hpte
  · rw [hshrunk.pte v, hnone, ite_self] at he
    cases he

/-- Nothing is done for `0`, nor for an empty heap that should shrink. -/
theorem atomic_of_zero (h : Occupies k p d) (hn : n = 0 ∨ n < 0 ∧ -2 ^ 31 ≤ n ∧ (k.proc p).sz = 0) :
    ∃ k' r, k.growproc p n = some (k', r) ∧ Atomic k p n d k' r := by
  rw [growproc_eq h.pgdir]
  rcases hn with rfl | ⟨hn, -, hsz⟩
  · have hs : k.growprocSize p d 0 = some (k.kmem, d, some (k.proc p).sz) := by
      unfold Kernel.growprocSize
      simp
    rw [hs]
    refine ⟨_, _, rfl, atomic_returned_some (by omega) h.covers (fun v e he _ => ⟨he, rfl⟩)
      fun v e hnone he => ?_⟩
    rw [hnone] at he
    cases he
  · have hs : k.growprocSize p d n = some (k.kmem, d, none) := by
      unfold Kernel.growprocSize deallocuvm
      simp only [if_neg (show ¬ n > 0 by omega), if_pos hn, hsz, if_pos (Nat.zero_le _)]
      rfl
    rw [hs]
    exact ⟨_, _, rfl, atomic_returned_none rfl fun _ _ _ => rfl⟩

/-- A heap that should shrink to nothing is freed, or by more than its size, is kept. -/
theorem not_atomic (h : Occupies k p d) (hn : n < 0 ∧ -2 ^ 31 ≤ n) (hsz : 0 < (k.proc p).sz)
    (hle : (k.proc p).sz + n ≤ 0) {k' : Kernel} {r : ℤ} (hg : k.growproc p n = some (k', r)) :
    ¬ Atomic k p n d k' r := by
  have hroom := h.sz_le
  have hP : PGSIZE = 4096 := rfl
  have hU : USERTOP = 0xA0000 := rfl
  rw [growproc_eq h.pgdir] at hg
  rcases hle.eq_or_lt with heq | hlt
  · -- page `0` is freed, and the call fails
    have hto : toUint ((k.proc p).sz + n) = 0 := by rw [heq]; rfl
    obtain ⟨hzero, hshrunk⟩ := deallocuvm_shrunk k.kmem d
      (show (k.proc p).sz ≤ USERTOP by omega) hsz
    have hs : k.growprocSize p d n = some ((deallocuvm k.kmem d (k.proc p).sz 0).1,
        (deallocuvm k.kmem d (k.proc p).sz 0).2.1, none) := by
      unfold Kernel.growprocSize
      simp only [if_neg (show ¬ n > 0 by omega), if_pos hn.1, hto, hzero, if_true]
    rw [hs] at hg
    cases hg
    rintro ⟨d', ⟨hr, -⟩ | ⟨-, hrefused⟩⟩
    · cases hr
    · have hd' : (deallocuvm k.kmem d (k.proc p).sz 0).2.1 = d' := by
        simpa [returned] using hrefused.pgdir
      have hpresent := (h.covers 0).2 (Or.inl (by omega))
      rw [← hrefused.pte, ← hd', hshrunk.pte 0, if_pos ⟨by decide, by omega⟩] at hpresent
      cases hpresent
  · -- the new size is beyond the old one, as an unsigned number
    have hto : toUint ((k.proc p).sz + n) ≥ (k.proc p).sz := by unfold toUint; omega
    have hs : k.growprocSize p d n = some (k.kmem, d, some (k.proc p).sz) := by
      unfold Kernel.growprocSize deallocuvm
      simp only [if_neg (show ¬ n > 0 by omega), if_pos hn.1, if_pos hto,
        if_neg (show (k.proc p).sz ≠ 0 by omega)]
    rw [hs] at hg
    cases hg
    rintro ⟨d', ⟨-, hresized⟩ | ⟨hr, -⟩⟩
    · have := hresized.sz
      simp only [Kernel.setProc_self] at this
      omega
    · cases hr

end

/-- **`growproc` is atomic** for a process whose pages are those of its heap and its stack, whatever
memory there is, if and only if the heap does not shrink to nothing, or by more than its size. -/
theorem growproc_atomic_iff {k : Kernel} {p : Slot} {d : Pgdir} {n : ℤ} (h : Occupies k p d)
    (hn : -2 ^ 31 ≤ n ∧ n < 2 ^ 31) :
    (∃ k' r, k.growproc p n = some (k', r) ∧ Atomic k p n d k' r) ↔
      0 ≤ n ∨ (k.proc p).sz = 0 ∨ 0 < (k.proc p).sz + n := by
  constructor
  · rintro ⟨k', r, hg, hatomic⟩
    by_contra hcon
    exact not_atomic h (by omega) (by omega) (by omega) hg hatomic
  · intro hcon
    rcases lt_trichotomy n 0 with hneg | rfl | hpos
    · by_cases hsz : (k.proc p).sz = 0
      · exact atomic_of_zero h (Or.inr ⟨hneg, hn.1, hsz⟩)
      · exact atomic_of_neg h hneg (by omega)
    · exact atomic_of_zero h (Or.inl rfl)
    · exact atomic_of_pos h ⟨hpos, hn.2⟩

/-- The page directory `10` with one table, a page of heap and a page of stack. -/
def smallPgdir : Pgdir where
  dir := 10
  tables := [11]
  pte v := if v = 0 then some ⟨12, false⟩ else if v = 159 then some ⟨13, true⟩ else none

/-- A process with one page of heap and one of stack, and three free frames. -/
def smallKernel : Kernel where
  kmem := ⟨[20, 21, 22], fun _ _ => 0⟩
  proc q :=
    if q = 1 then ⟨PGSIZE, PGSIZE, some smallPgdir, some 14, .running, 2, some 0, false, Nat.dvd_refl _⟩
    else ⟨0, 0, none, none, .unused, 0, none, false, ⟨0, rfl⟩⟩
  nextpid := 3

theorem occupies_smallKernel : Occupies smallKernel 1 smallPgdir where
  pgdir := rfl
  covers v := by
    have hsz : (smallKernel.proc 1).sz = PGSIZE := rfl
    have hss : (smallKernel.proc 1).ss = PGSIZE := rfl
    rw [hsz, hss]
    simp only [smallPgdir, PGSIZE, USERTOP]
    split_ifs with h0 h159
    · simp [h0]
    · simp [h159]
    · simp only [Option.isSome_none, Bool.false_eq_true, false_iff]
      omega
  apart := apart_iff.2 (by decide)
  nodup := by decide +kernel

/-- A heap that grows by two pages. -/
theorem growproc_atomic_grows : ∃ k' r, smallKernel.growproc 1 (2 * PGSIZE) = some (k', r) ∧
    Atomic smallKernel 1 (2 * PGSIZE) smallPgdir k' r :=
  (growproc_atomic_iff occupies_smallKernel (by decide)).2 (Or.inl (by decide))

/-- **The heap is freed, and the call fails**: a heap of one page shrinks by one page. -/
theorem growproc_not_atomic : Occupies smallKernel 1 smallPgdir ∧
    (-2 ^ 31 ≤ -(PGSIZE : ℤ) ∧ -(PGSIZE : ℤ) < 2 ^ 31) ∧
    ¬ ∃ k' r, smallKernel.growproc 1 (-PGSIZE) = some (k', r) ∧
      Atomic smallKernel 1 (-PGSIZE) smallPgdir k' r := by
  refine ⟨occupies_smallKernel, by decide, ?_⟩
  rintro ⟨k', r, hg, hatomic⟩
  exact not_atomic occupies_smallKernel (by decide) (by decide) (by decide) hg hatomic

end Vm

end OperatingSystems

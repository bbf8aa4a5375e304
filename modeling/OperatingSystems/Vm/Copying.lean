import OperatingSystems.Vm.Frames
import OperatingSystems.Vm.Process

/-!
# Copying an address space

`copyuvm` takes a page directory and its page tables from the free list, and then a frame for each page
of the heap and of the stack.  If a frame is missing it frees what it has taken, but `setupkvm` does
not: the page directory and the page tables that it has allocated so far are lost.

* `setupkvm_of_le`, `setupkvm_of_lt` : a page directory for the kernel, or no frame left.
* `Backs` : the pages of the heap and of the stack are present.
* `Copied` : what a copy is.
* `copyuvm_of_le` : **with enough memory `copyuvm` returns a copy**.
* `copyuvm_of_lt` : without, it returns no page directory; what it leaves behind.
-/

namespace OperatingSystems

namespace Vm

open Custody

variable {m m' : Kmem} {d d' : Pgdir} {sz ss n v : ℕ} {x : Frame}

/-! ### Page directories for the kernel -/

theorem kallocs_of_le (h : n ≤ m.freelist.length) :
    ∃ m', kallocs n m = (some (m.freelist.take n), m') ∧ m'.freelist = m.freelist.drop n ∧
      ∀ x, x ∉ m.freelist.take n → m'.page x = m.page x := by
  induction n generalizing m with
  | zero => exact ⟨m, rfl, rfl, fun _ _ => rfl⟩
  | succ n ih =>
    cases hm : m.freelist with
    | nil => rw [hm] at h; cases h
    | cons f fs =>
      rw [hm, List.length_cons] at h
      obtain ⟨m', heq, hfree, hpage⟩ :=
        ih (m := Kmem.write { m with freelist := fs } f fun _ => 0) (Nat.le_of_succ_le_succ h)
      refine ⟨m', ?_, hfree, fun x hx => ?_⟩
      · rw [kallocs, kalloc, hm]
        dsimp only
        rw [heq]
        rfl
      · rw [List.take_succ_cons, List.mem_cons, not_or] at hx
        rw [hpage x hx.2]
        exact Function.update_of_ne hx.1 _ _

theorem kallocs_of_lt (h : m.freelist.length < n) :
    ∃ m', kallocs n m = (none, m') ∧ m'.freelist = [] ∧
      ∀ x, x ∉ m.freelist → m'.page x = m.page x := by
  induction n generalizing m with
  | zero => cases h
  | succ n ih =>
    cases hm : m.freelist with
    | nil => exact ⟨m, by rw [kallocs, kalloc, hm], hm, fun _ _ => rfl⟩
    | cons f fs =>
      rw [hm, List.length_cons] at h
      obtain ⟨m', heq, hfree, hpage⟩ :=
        ih (m := Kmem.write { m with freelist := fs } f fun _ => 0) (Nat.lt_of_succ_lt_succ h)
      refine ⟨m', ?_, hfree, fun x hx => ?_⟩
      · rw [kallocs, kalloc, hm]
        dsimp only
        rw [heq]
        rfl
      · rw [List.mem_cons, not_or] at hx
        rw [hpage x hx.2]
        exact Function.update_of_ne hx.1 _ _

/-- The frames that `setupkvm` allocates. -/
def kernelFrames : ℕ := kernelTables + 1

theorem setupkvm_of_le (h : kernelFrames ≤ m.freelist.length) :
    ∃ d m', setupkvm m = (some d, m') ∧ d.pte = (fun _ => none) ∧
      d.dir :: d.tables = m.freelist.take kernelFrames ∧
      m'.freelist = m.freelist.drop kernelFrames ∧
      ∀ x, x ∉ m.freelist → m'.page x = m.page x := by
  cases hm : m.freelist with
  | nil => rw [hm] at h; cases h
  | cons f fs =>
    rw [hm, List.length_cons] at h
    obtain ⟨m', heq, hfree, hpage⟩ := kallocs_of_le (n := kernelTables)
      (m := Kmem.write { m with freelist := fs } f fun _ => 0)
      (Nat.le_of_succ_le_succ h)
    refine ⟨⟨f, fs.take kernelTables, fun _ => none⟩, m', ?_, rfl, ?_, ?_, fun x hx => ?_⟩
    · rw [setupkvm, kalloc, hm]
      dsimp only
      rw [heq]
      rfl
    · rw [kernelFrames, List.take_succ_cons]
    · rw [hfree, kernelFrames, List.drop_succ_cons]
      rfl
    · rw [List.mem_cons, not_or] at hx
      rw [hpage x fun hmem => hx.2 (List.mem_of_mem_take hmem)]
      exact Function.update_of_ne hx.1 _ _

theorem setupkvm_of_lt (h : m.freelist.length < kernelFrames) :
    ∃ m', setupkvm m = (none, m') ∧ m'.freelist = [] ∧
      ∀ x, x ∉ m.freelist → m'.page x = m.page x := by
  cases hm : m.freelist with
  | nil => exact ⟨m, by rw [setupkvm, kalloc, hm], hm, fun _ _ => rfl⟩
  | cons f fs =>
    rw [hm, List.length_cons] at h
    obtain ⟨m', heq, hfree, hpage⟩ := kallocs_of_lt (n := kernelTables)
      (m := Kmem.write { m with freelist := fs } f fun _ => 0)
      (Nat.lt_of_succ_lt_succ h)
    refine ⟨m', ?_, hfree, fun x hx => ?_⟩
    · rw [setupkvm, kalloc, hm]
      dsimp only
      rw [heq]
      rfl
    · rw [List.mem_cons, not_or] at hx
      rw [hpage x hx.2]
      exact Function.update_of_ne hx.1 _ _

theorem kernelFrames_le (h : (setupkvm m).1.isSome) : kernelFrames ≤ m.freelist.length := by
  by_contra hlt
  obtain ⟨m', hnone, -⟩ := setupkvm_of_lt (not_le.1 hlt)
  rw [hnone] at h
  cases h

/-- A page directory without user pages holds itself and its page tables. -/
theorem frames_of_empty (h : d.pte = fun _ => none) : d.frames = d.dir :: d.tables := by
  have hnone : holdings userPages d.held = [] :=
    List.flatMap_eq_nil_iff.2 fun v _ => by simp [Pgdir.held, h]
  rw [Pgdir.frames, hnone, List.append_nil]

/-! ### Copies -/

/-- The page `v` is one of a heap of `sz` bytes or of a stack of `ss`. -/
def InUse (sz ss v : ℕ) : Prop :=
  v * PGSIZE < sz ∨ USERTOP - ss ≤ v * PGSIZE ∧ v * PGSIZE < USERTOP

/-- The pages of a heap of `sz` bytes and of a stack of `ss` are present, and heap and stack do not
overlap. -/
structure Pgdir.Backs (d : Pgdir) (sz ss : ℕ) : Prop where
  dvd : PGSIZE ∣ ss
  ss_le : ss ≤ USERTOP
  fits : (sz + PGSIZE - 1) / PGSIZE * PGSIZE ≤ USERTOP - ss
  present : ∀ v, InUse sz ss v → (d.pte v).isSome

/-- The numbers of pages of the heap, and of the stack. -/
abbrev heapPages (sz : ℕ) : ℕ := (sz + PGSIZE - 1) / PGSIZE
abbrev stackPages (ss : ℕ) : ℕ := ss / PGSIZE

theorem heapPages_le_iff : heapPages sz ≤ v ↔ sz ≤ v * PGSIZE := pages_le_iff

/-- The page directory `d'` is a copy of the pages in use of `d`: the same pages, with the same
permissions and contents, in frames that were free and are now held once.  If the stack reaches down to
page `0`, that is for the user in the copy. -/
structure Copied (m : Kmem) (d : Pgdir) (sz ss : ℕ) (m' : Kmem) (d' : Pgdir) : Prop where
  page : ∀ v, InUse sz ss v → ∃ e e', d.pte v = some e ∧ d'.pte v = some e' ∧
    e'.user = (e.user || decide (ss = USERTOP)) ∧ m'.page e'.frame = m.page e.frame
  absent : ∀ v, ¬ InUse sz ss v → d'.pte v = none
  nodup : d'.frames.Nodup
  fresh : ∀ x ∈ d'.frames, x ∈ m.freelist ∧ x ∉ m'.freelist
  freelist : m'.freelist <:+ m.freelist
  unchanged : ∀ x, x ∉ m.freelist → m'.page x = m.page x

theorem Pgdir.Backs.stack_eq (h : d.Backs sz ss) :
    toUint (USERTOP - ss) = (USERTOP / PGSIZE - stackPages ss) * PGSIZE := by
  obtain ⟨c, rfl⟩ := h.dvd
  have := h.ss_le
  simp only [toUint, stackPages, USERTOP, PGSIZE] at *
  omega

/-- A page is not in use both in the heap and in the stack. -/
theorem Pgdir.Backs.lt_stack (h : d.Backs sz ss) :
    heapPages sz ≤ USERTOP / PGSIZE - stackPages ss := by
  obtain ⟨c, rfl⟩ := h.dvd
  have := h.ss_le
  have := h.fits
  simp only [heapPages, stackPages, USERTOP, PGSIZE] at *
  omega

theorem inUse_iff (h : d.Backs sz ss) : InUse sz ss v ↔
    v < heapPages sz ∨ USERTOP / PGSIZE - stackPages ss ≤ v ∧ v < USERTOP / PGSIZE := by
  obtain ⟨c, rfl⟩ := h.dvd
  have := h.ss_le
  simp only [InUse, heapPages, stackPages, USERTOP, PGSIZE] at *
  omega

/-- The frames that `copyuvm` allocates. -/
def copyFrames (sz ss : ℕ) : ℕ := kernelFrames + heapPages sz + stackPages ss

/-- The parent of a copy: its pages are present, and their frames are not free. -/
structure Forkable (m : Kmem) (d : Pgdir) (sz ss : ℕ) : Prop where
  backs : d.Backs sz ss
  nodup : m.freelist.Nodup
  used : ∀ v e, InUse sz ss v → d.pte v = some e → e.frame ∉ m.freelist

/-- Both loops of `copyuvm`, into `d'`. -/
def copyLoops (d : Pgdir) (sz ss : ℕ) (m : Kmem) (d' : Pgdir) : Option (Bool × Kmem × Pgdir) :=
  (copyLoop d false sz 0 m d').bind fun (ok, m, d') =>
    if ok then copyLoop d true USERTOP (toUint (USERTOP - ss)) m d' else some (false, m, d')

theorem copyuvm_eq {d₀ : Pgdir} {m₀ : Kmem} (h : setupkvm m = (some d₀, m₀)) (d : Pgdir) (sz : ℕ) :
    copyuvm ss m d sz = (copyLoops d sz ss m₀ d₀).map
      fun (ok, m, d) => if ok then (m, some d) else (freevm m d, none) := by
  rw [copyuvm, h, copyLoops, Option.map_bind]
  rfl

/-- The contents of the pages of `d`. -/
def Pgdir.contents (d : Pgdir) (m : Kmem) (v : ℕ) : Page :=
  match d.pte v with
  | some e => m.page e.frame
  | none => fun _ => 0

/-- **The loops of `copyuvm`** copy all pages if there is memory for them, and keep the books. -/
theorem copyLoops_spec {m₀ : Kmem} {d₀ : Pgdir} (h : Forkable m d sz ss)
    (hfree : m₀.freelist <:+ m.freelist) (hsame : ∀ x, x ∉ m.freelist → m₀.page x = m.page x)
    (hempty : d₀.pte = fun _ => none) :
    ∃ ok m' d', copyLoops d sz ss m₀ d₀ = some (ok, m', d') ∧
      (∀ x, m'.freelist.count x + d'.frames.count x =
        m₀.freelist.count x + d₀.frames.count x) ∧
      m'.freelist <:+ m₀.freelist ∧ (∀ x, x ∉ m.freelist → m'.page x = m.page x) ∧
      (ok = true ↔ heapPages sz + stackPages ss ≤ m₀.freelist.length) ∧
      (ok = true → (∀ v, InUse sz ss v → ∃ f, d'.pte v = some ⟨f, decide (v ≠ 0 ∨ ss = USERTOP)⟩ ∧
        m'.page f = d.contents m v) ∧ ∀ v, ¬ InUse sz ss v → d'.pte v = none) := by
  have hstack := h.backs.stack_eq
  have hbelow := h.backs.lt_stack
  have hU : USERTOP / PGSIZE * PGSIZE = USERTOP := rfl
  have hle : stackPages ss ≤ USERTOP / PGSIZE := Nat.div_le_div_right h.backs.ss_le
  have hszle : sz ≤ USERTOP := by
    have := h.backs.fits
    simp only [PGSIZE] at this
    omega
  have hcontents : ∀ v e, InUse sz ss v → d.pte v = some e →
      e.frame ∉ m.freelist ∧ m.page e.frame = d.contents m v := fun v e hv he =>
    ⟨h.used v e hv he, by rw [Pgdir.contents, he]⟩
  have hnodup₀ : m₀.freelist.Nodup := hfree.sublist.nodup h.nodup
  -- the heap
  obtain ⟨⟨ok₁, m₁, d₁⟩, hloop₁⟩ := Option.isSome_iff_exists.1
    (copyLoop_isSome m₀ (Nat.zero_mul _).symm
      (fun v _ (hv : v * PGSIZE < sz) => h.backs.present v (Or.inl hv)) fun v _ _ => congrFun hempty v)
  obtain ⟨hi₁, hgrown₁, hle₁, hin₁, hok₁, hfail₁⟩ := copyLoop_grown (Nat.zero_mul _).symm hnodup₀
    (fun v e _ hv he => by
      obtain ⟨hf, hp⟩ := hcontents v e (Or.inl hv) he
      exact ⟨fun hmem => hf (hfree.subset hmem), (hsame _ hf).trans hp⟩) hloop₁
  have hbooks₁ := count_copyLoop hszle hloop₁
  have hsame₁ : ∀ x, x ∉ m.freelist → m₁.page x = m.page x := fun x hx =>
    (hgrown₁.page x (Or.inl fun hmem => hx (hfree.subset hmem))).trans (hsame x hx)
  obtain ⟨hreach₁, hhi₁⟩ := hgrown₁.reach (fun _ => heapPages_le_iff) hle₁ hin₁ hok₁ hfail₁
  unfold copyLoops
  rw [hloop₁]
  simp only [Option.bind_some]
  cases ok₁ with
  | false =>
    refine ⟨false, m₁, d₁, rfl, hbooks₁, hgrown₁.freelist, hsame₁, ?_, by simp⟩
    have hshort := mt hreach₁.2 (by simp)
    refine iff_of_false (by simp) ?_
    omega
  | true =>
    obtain rfl : hi₁ = heapPages sz := (hhi₁ rfl).trans (max_eq_right (Nat.zero_le _))
    have hlength₁ := hgrown₁.length
    -- the stack
    set lo := USERTOP / PGSIZE - stackPages ss with hlo
    have hinUse : ∀ v, lo ≤ v → v * PGSIZE < USERTOP → InUse sz ss v := fun v hv hlt =>
      (inUse_iff h.backs).2 (Or.inr ⟨hv, Nat.lt_of_mul_lt_mul_right (hU.symm ▸ hlt)⟩)
    have hnodup₁ : m₁.freelist.Nodup := hgrown₁.freelist.sublist.nodup hnodup₀
    obtain ⟨⟨ok₂, m₂, d₂⟩, hloop₂⟩ := Option.isSome_iff_exists.1
      (copyLoop_isSome m₁ hstack
        (fun v hv hlt => h.backs.present v (hinUse v hv hlt)) fun v hv _ => by
          rw [hgrown₁.outside v (Or.inr (hbelow.trans hv)), hempty])
    obtain ⟨hi₂, hgrown₂, hle₂, hin₂, hok₂, hfail₂⟩ := copyLoop_grown hstack hnodup₁
      (fun v e hv hlt he => by
        obtain ⟨hf, hp⟩ := hcontents v e (hinUse v hv hlt) he
        exact ⟨fun hmem => hf (hfree.subset (hgrown₁.freelist.subset hmem)),
          (hsame₁ _ hf).trans hp⟩) hloop₂
    have hbooks₂ := count_copyLoop le_rfl hloop₂
    have hpages : ∀ v, USERTOP / PGSIZE ≤ v ↔ USERTOP ≤ v * PGSIZE := fun v => by
      rw [← hU, Nat.mul_le_mul_right_iff (by decide), hU]
    obtain ⟨hreach₂, hhi₂⟩ := hgrown₂.reach hpages hle₂ hin₂ hok₂ hfail₂
    refine ⟨ok₂, m₂, d₂, hloop₂, fun x => (hbooks₂ x).trans (hbooks₁ x),
      hgrown₂.freelist.trans hgrown₁.freelist, fun x hx => ?_, ?_, fun hok => ?_⟩
    · rw [hgrown₂.page x (Or.inl fun hmem => hx (hfree.subset (hgrown₁.freelist.subset hmem)))]
      exact hsame₁ x hx
    · rw [hreach₂]
      omega
    · have hend : USERTOP / PGSIZE ≤ hi₂ := hhi₂ hok ▸ le_max_right ..
      refine ⟨fun v hv => ?_, fun v hv => ?_⟩
      · rcases (inUse_iff h.backs).1 hv with hv | ⟨hv, hlt⟩
        · obtain ⟨f, -, hpte, hf, hpage⟩ := hgrown₁.inside v (Nat.zero_le v) hv
          refine ⟨f, ?_, ?_⟩
          · have hne : ss ≠ USERTOP := by
              rintro rfl
              rw [hlo, stackPages, Nat.sub_self, Nat.le_zero] at hbelow
              omega
            rw [hgrown₂.outside v (Or.inl (hv.trans_le hbelow)), hpte]
            simp [hne]
          · rw [hgrown₂.page f (Or.inl hf), hpage]
        · obtain ⟨f, -, hpte, -, hpage⟩ := hgrown₂.inside v hv (hlt.trans_le hend)
          refine ⟨f, ?_, hpage⟩
          have hzero : v ≠ 0 ∨ ss = USERTOP := by
            have := h.backs.ss_le
            simp only [stackPages, USERTOP, PGSIZE] at *
            omega
          rw [hpte, Bool.or_true, decide_eq_true hzero]
      · rw [inUse_iff h.backs, not_or] at hv
        have hhi₂ : hi₂ ≤ USERTOP / PGSIZE := by
          by_contra hlt
          have := hin₂ (USERTOP / PGSIZE) (Nat.sub_le _ _) (not_le.1 hlt)
          rw [hU] at this
          exact absurd this (lt_irrefl _)
        rw [hgrown₂.outside v (by omega), hgrown₁.outside v (Or.inr (by omega)), hempty]

/-- **A copy.**  With enough memory `copyuvm` returns a copy of the pages in use. -/
theorem copyuvm_of_le (h : Forkable m d sz ss)
    (huser : ∀ v e, InUse sz ss v → d.pte v = some e → e.user = decide (v ≠ 0))
    (hmem : copyFrames sz ss ≤ m.freelist.length) :
    ∃ m' d', copyuvm ss m d sz = some (m', some d') ∧ Copied m d sz ss m' d' := by
  unfold copyFrames at hmem
  obtain ⟨d₀, m₀, hsetup, hempty, hdir, hfree, hsame⟩ := setupkvm_of_le (m := m) (by omega)
  have hsuffix : m₀.freelist <:+ m.freelist := hfree ▸ List.drop_suffix _ _
  obtain ⟨ok, m', d', hloops, hbooks, hsuffix', hpage, hok, hcopied⟩ :=
    copyLoops_spec h hsuffix hsame hempty
  have htrue : ok = true := hok.2 (by rw [hfree, List.length_drop]; omega)
  subst htrue
  obtain ⟨hin, hout⟩ := hcopied rfl
  -- what the copy holds was free
  have hbooks' : ∀ x, m'.freelist.count x + d'.frames.count x = m.freelist.count x := fun x => by
    rw [hbooks, frames_of_empty hempty, hdir, hfree, Nat.add_comm, ← List.count_append,
      List.take_append_drop]
  have hone : ∀ x, m.freelist.count x ≤ 1 := List.nodup_iff_count_le_one.1 h.nodup
  refine ⟨m', d', by rw [copyuvm_eq hsetup, hloops]; rfl, ⟨fun v hv => ?_, hout, ?_, fun x hx => ?_,
    hsuffix'.trans hsuffix, hpage⟩⟩
  · obtain ⟨e, he⟩ := Option.isSome_iff_exists.1 (h.backs.present v hv)
    obtain ⟨f, hpte, hcontents⟩ := hin v hv
    refine ⟨e, _, he, hpte, by rw [huser v e hv he, Bool.decide_or], ?_⟩
    rw [hcontents, Pgdir.contents, he]
  · refine List.nodup_iff_count_le_one.2 fun x => ?_
    have := hbooks' x
    have := hone x
    omega
  · have := hbooks' x
    have := hone x
    have hpos := List.count_pos_iff.2 hx
    exact ⟨List.count_pos_iff.1 (by omega), fun hmem => by
      have := List.count_pos_iff.2 hmem
      omega⟩

/-- **Without enough memory** `copyuvm` returns no page directory.  If `setupkvm` fails, no frame is
left; otherwise everything is as it was. -/
theorem copyuvm_of_lt (h : Forkable m d sz ss) (hmem : m.freelist.length < copyFrames sz ss) :
    ∃ m', copyuvm ss m d sz = some (m', none) ∧
      (if m.freelist.length < kernelFrames then m'.freelist = [] else
        ∀ x, m'.freelist.count x = m.freelist.count x) ∧
      ∀ x, x ∉ m.freelist → m'.page x = m.page x := by
  unfold copyFrames at hmem
  split_ifs with hlt
  · obtain ⟨m', hsetup, hnil, hpage⟩ := setupkvm_of_lt hlt
    exact ⟨m', by rw [copyuvm, hsetup], hnil, hpage⟩
  · obtain ⟨d₀, m₀, hsetup, hempty, hdir, hfree, hsame⟩ := setupkvm_of_le (not_lt.1 hlt)
    have hsuffix : m₀.freelist <:+ m.freelist := hfree ▸ List.drop_suffix _ _
    obtain ⟨ok, m', d', hloops, hbooks, -, hpage, hok, -⟩ := copyLoops_spec h hsuffix hsame hempty
    have hfalse : ok = false := by
      refine Bool.eq_false_iff.2 fun htrue => ?_
      have := hok.1 htrue
      rw [hfree, List.length_drop] at this
      omega
    subst hfalse
    have hbooks' : ∀ x, (freevm m' d').freelist.count x = m.freelist.count x := fun x => by
      rw [count_freevm, hbooks, frames_of_empty hempty, hdir, hfree, Nat.add_comm,
        ← List.count_append, List.take_append_drop]
    refine ⟨freevm m' d', by rw [copyuvm_eq hsetup, hloops]; rfl, hbooks', fun x hx => ?_⟩
    rw [freevm_page, hpage x hx]
    rw [← List.count_eq_zero, hbooks', List.count_eq_zero]
    exact hx

end Vm

end OperatingSystems

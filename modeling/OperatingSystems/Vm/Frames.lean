import OperatingSystems.Custody.Basic
import OperatingSystems.Vm.Memory

/-!
# The frames of an address space

What the loops of `vm.c` do to the free list, to the frames that a page directory holds, and to the
contents of memory.

* `Pgdir.frames` : the frames of a page directory: itself, its page tables and its user pages.
* `Grown` : pages were added, in fresh frames; `Shrunk` : pages were freed.
* `allocLoop_grown`, `copyLoop_grown`, `deallocLoop_shrunk` : the loops.
* `count_allocuvm`, `count_deallocuvm`, `count_copyLoop`, `count_freevm` : **no frame is lost or made**:
  each is as often on the free list and in the page directory as before.
-/

namespace OperatingSystems

namespace Vm

open Custody

/-- The numbers of the user pages. -/
def userPages : List ℕ := List.range (USERTOP / PGSIZE)

/-- The frame of the user page `v`, if there is one. -/
def Pgdir.held (d : Pgdir) (v : ℕ) : List Frame := ((d.pte v).map Pte.frame).toList

/-- The frames of a page directory. -/
def Pgdir.frames (d : Pgdir) : List Frame := d.dir :: d.tables ++ holdings userPages d.held

/-- The page directory with another entry for the user page `v`. -/
def Pgdir.setPte (d : Pgdir) (v : ℕ) (e : Option Pte) : Pgdir :=
  { d with pte := Function.update d.pte v e }

variable {m m' m'' : Kmem} {d d' d'' src : Pgdir} {f x : Frame} {fs : List Frame} {v lo hi : ℕ}

theorem setPte_self (d : Pgdir) (v : ℕ) (e : Option Pte) : (d.setPte v e).pte v = e :=
  Function.update_self ..

theorem setPte_of_ne (d : Pgdir) (e : Option Pte) {u : ℕ} (h : u ≠ v) :
    (d.setPte v e).pte u = d.pte u := Function.update_of_ne h ..

theorem mem_userPages (h : v * PGSIZE < USERTOP) : v ∈ userPages := by
  simp only [userPages, List.mem_range, USERTOP, PGSIZE] at *
  omega

theorem nodup_userPages : userPages.Nodup := List.nodup_range

/-- **The books of one entry.** -/
theorem count_setPte (hv : v ∈ userPages) (e : Option Pte) (x : Frame) :
    (d.setPte v e).frames.count x + (d.held v).count x =
      d.frames.count x + (e.map Pte.frame).toList.count x := by
  have hheld : (d.setPte v e).held = Function.update d.held v (e.map Pte.frame).toList := by
    funext u
    rcases eq_or_ne u v with rfl | hne
    · simp [Pgdir.held, Pgdir.setPte]
    · simp [Pgdir.held, Pgdir.setPte, hne]
  have := count_update nodup_userPages hv d.held (e.map Pte.frame).toList x
  simp only [Pgdir.frames, List.count_append, hheld]
  change (d.dir :: d.tables).count x + _ + _ = _
  omega

theorem mem_frames_of_pte {e : Pte} (hv : v ∈ userPages) (he : d.pte v = some e) :
    e.frame ∈ d.frames :=
  List.mem_append_right _ (mem_holdings.2 ⟨v, hv, by simp [Pgdir.held, he]⟩)

theorem mul_div_PGSIZE (v : ℕ) : v * PGSIZE / PGSIZE = v := Nat.mul_div_cancel v (by decide)

theorem mul_add_PGSIZE (v : ℕ) : v * PGSIZE + PGSIZE = (v + 1) * PGSIZE :=
  (Nat.succ_mul v PGSIZE).symm

/-! ### Adding pages -/

/-- The pages from `lo` to `hi` were added, in frames from the free list; `user` says which are for the
user. -/
structure Grown (m : Kmem) (d : Pgdir) (m' : Kmem) (d' : Pgdir) (lo hi : ℕ)
    (user : ℕ → Bool) (contents : ℕ → Page) : Prop where
  dir : d'.dir = d.dir
  tables : d'.tables = d.tables
  outside : ∀ v, v < lo ∨ hi ≤ v → d'.pte v = d.pte v
  absent : ∀ v, lo ≤ v → v < hi → d.pte v = none
  inside : ∀ v, lo ≤ v → v < hi → ∃ f ∈ m.freelist, d'.pte v = some ⟨f, user v⟩ ∧
    f ∉ m'.freelist ∧ m'.page f = contents v
  freelist : m'.freelist <:+ m.freelist
  length : m'.freelist.length + (hi - lo) = m.freelist.length
  page : ∀ f, f ∉ m.freelist ∨ f ∈ m'.freelist → m'.page f = m.page f

theorem Grown.refl (m : Kmem) (d : Pgdir) (lo : ℕ) (user : ℕ → Bool) (contents : ℕ → Page) :
    Grown m d m d lo lo user contents where
  dir := rfl
  tables := rfl
  outside _ _ := rfl
  absent _ hlo hhi := absurd hhi (not_lt.2 hlo)
  inside _ hlo hhi := absurd hhi (not_lt.2 hlo)
  freelist := List.suffix_refl _
  length := by omega
  page _ _ := rfl

/-- The page `lo` is added in the first free frame, and then others. -/
theorem Grown.cons {user : ℕ → Bool} {contents : ℕ → Page} (hnodup : m.freelist.Nodup) (hm : m.freelist = f :: fs)
    (hnone : d.pte lo = none) (hlt : lo < hi)
    (h : Grown (Kmem.write { m with freelist := fs } f (contents lo))
      (d.setPte lo (some ⟨f, user lo⟩)) m' d' (lo + 1) hi user contents) :
    Grown m d m' d' lo hi user contents := by
  rw [hm] at hnodup
  obtain ⟨hf, -⟩ := List.nodup_cons.1 hnodup
  have hsuffix : m'.freelist <:+ fs := h.freelist
  have hkept : f ∉ m'.freelist := fun hmem => hf (hsuffix.subset hmem)
  refine ⟨h.dir, h.tables, fun v hv => ?_, fun v hlo hhi => ?_, fun v hlo hhi => ?_, ?_, ?_,
    fun x hx => ?_⟩
  · rw [h.outside v (by omega)]
    exact setPte_of_ne d _ (by omega)
  · rcases hlo.eq_or_lt with rfl | hlo
    · exact hnone
    · have := h.absent v hlo hhi
      rwa [setPte_of_ne d _ (by omega)] at this
  · rcases hlo.eq_or_lt with rfl | hlo
    · refine ⟨f, by rw [hm]; exact List.mem_cons_self, ?_, hkept, ?_⟩
      · rw [h.outside lo (Or.inl (by omega))]
        exact setPte_self ..
      · rw [h.page f (Or.inl hf)]
        exact Function.update_self ..
    · obtain ⟨g, hg, hpte⟩ := h.inside v hlo hhi
      exact ⟨g, by rw [hm]; exact List.mem_cons_of_mem f hg, hpte⟩
  · rw [hm]
    exact hsuffix.trans (List.suffix_cons f fs)
  · have hlength : m'.freelist.length + (hi - (lo + 1)) = fs.length := h.length
    rw [hm, List.length_cons]
    omega
  · have hne : x ≠ f := by
      rintro rfl
      rcases hx with hx | hx
      · exact hx (by rw [hm]; exact List.mem_cons_self)
      · exact hkept hx
    rw [h.page x (hx.imp_left fun hx hmem => hx (by rw [hm]; exact List.mem_cons_of_mem f hmem))]
    exact Function.update_of_ne hne _ _

theorem kalloc_eq_some (h : kalloc m = some (f, m')) :
    ∃ fs, m.freelist = f :: fs ∧ m' = { m with freelist := fs } := by
  unfold kalloc at h
  split at h
  · cases h
  · next g gs hm => cases h; exact ⟨gs, hm, rfl⟩

theorem kalloc_eq_none (h : kalloc m = none) : m.freelist = [] := by
  unfold kalloc at h
  split at h
  · next hm => exact hm
  · cases h

theorem mappages_eq_some {user : Bool} (h : mappages d (v * PGSIZE) f user = some d') :
    d.pte v = none ∧ d' = d.setPte v (some ⟨f, user⟩) := by
  unfold mappages at h
  rw [mul_div_PGSIZE] at h
  split at h
  · cases h
  · next hnone => cases h; exact ⟨hnone, rfl⟩

theorem mappages_of_none (h : d.pte v = none) (user : Bool) :
    mappages d (v * PGSIZE) f user = some (d.setPte v (some ⟨f, user⟩)) := by
  unfold mappages
  rw [mul_div_PGSIZE, h]
  rfl

/-- Page `0` is at address `0`. -/
theorem decide_mul_ne (v : ℕ) : decide (v * PGSIZE ≠ 0) = decide (v ≠ 0) := by
  rw [decide_eq_decide]
  simp only [PGSIZE]
  omega

/-- **The loop of `allocuvm`** adds pages of zeros, up to `newsz` if there is memory. -/
theorem allocLoop_grown {newsz a : ℕ} {ok : Bool} (ha : a = lo * PGSIZE)
    (hnodup : m.freelist.Nodup) (h : allocLoop newsz a m d = some (ok, m', d')) :
    ∃ hi, Grown m d m' d' lo hi (fun v => decide (v ≠ 0)) (fun _ _ => 0) ∧ lo ≤ hi ∧
      (∀ v, lo ≤ v → v < hi → v * PGSIZE < newsz) ∧ (ok = true → newsz ≤ hi * PGSIZE) ∧
        (ok = false → m'.freelist = [] ∧ hi * PGSIZE < newsz) := by
  fun_induction allocLoop newsz a m d generalizing lo with
  | case1 a m d hlt hk =>
    cases h
    exact ⟨lo, .refl _ _ lo _ _, le_rfl, fun v hlo hhi => absurd hhi (not_lt.2 hlo),
      nofun, fun _ => ⟨kalloc_eq_none hk, by omega⟩⟩
  | case2 a m d hlt f m₁ hk ih =>
    subst ha
    obtain ⟨fs, hm, rfl⟩ := kalloc_eq_some hk
    obtain ⟨d₁, hmap, h⟩ := Option.bind_eq_some_iff.1 h
    obtain ⟨hnone, rfl⟩ := mappages_eq_some hmap
    rw [decide_mul_ne] at h
    have hnodup' : fs.Nodup := (List.nodup_cons.1 (hm ▸ hnodup)).2
    obtain ⟨hi, hgrown, hle, hin, hok, hfail⟩ :=
      ih _ (mul_add_PGSIZE lo) hnodup' h
    refine ⟨hi, hgrown.cons hnodup hm hnone (by omega), by omega, fun v hlo hhi => ?_, hok, hfail⟩
    rcases hlo.eq_or_lt with rfl | hlo
    · exact hlt
    · exact hin v hlo hhi
  | case3 a m d hge =>
    cases h
    exact ⟨lo, .refl _ _ lo _ _, le_rfl, fun v hlo hhi => absurd hhi (not_lt.2 hlo),
      fun _ => by omega, nofun⟩

theorem allocLoop_cons {newsz a : ℕ} (hlt : a < newsz) (hm : m.freelist = f :: fs)
    (hmap : mappages d a f (decide (a ≠ 0)) = some d') : allocLoop newsz a m d =
      allocLoop newsz (a + PGSIZE) (Kmem.write { m with freelist := fs } f fun _ => 0) d' := by
  have hkalloc : kalloc m = some (f, { m with freelist := fs }) := by rw [kalloc, hm]
  rw [allocLoop, if_pos hlt, hkalloc]
  dsimp only
  rw [hmap, Option.bind_eq_bind, Option.bind_some]

/-- It does not panic if the pages are absent. -/
theorem allocLoop_isSome {newsz a : ℕ} (ha : a = lo * PGSIZE)
    (hnone : ∀ v, lo ≤ v → v * PGSIZE < newsz → d.pte v = none) :
    (allocLoop newsz a m d).isSome := by
  fun_induction allocLoop newsz a m d generalizing lo with
  | case1 => rfl
  | case2 a m d hlt f m₁ hk ih =>
    subst ha
    rw [mappages_of_none (hnone lo le_rfl hlt), Option.bind_eq_bind, Option.bind_some]
    refine ih _ (mul_add_PGSIZE lo) fun v hlo hv => ?_
    rw [setPte_of_ne d _ (by omega)]
    exact hnone v (by omega) hv
  | case3 => rfl

/-- **The loops of `copyuvm`** add copies of the pages of `src`, up to `sz` if there is memory. -/
theorem copyLoop_grown {sz i : ℕ} {user0 ok : Bool} {contents : ℕ → Page} (hi : i = lo * PGSIZE)
    (hnodup : m.freelist.Nodup)
    (hsrc : ∀ v e, lo ≤ v → v * PGSIZE < sz → src.pte v = some e →
      e.frame ∉ m.freelist ∧ m.page e.frame = contents v)
    (h : copyLoop src user0 sz i m d = some (ok, m', d')) :
    ∃ hi, Grown m d m' d' lo hi (fun v => decide (v ≠ 0) || user0) contents ∧ lo ≤ hi ∧
      (∀ v, lo ≤ v → v < hi → v * PGSIZE < sz) ∧ (ok = true → sz ≤ hi * PGSIZE) ∧
        (ok = false → m'.freelist = [] ∧ hi * PGSIZE < sz) := by
  fun_induction copyLoop src user0 sz i m d generalizing lo with
  | case1 => cases h
  | case2 i m d hlt pte hpte hk =>
    cases h
    exact ⟨lo, .refl _ _ lo _ _, le_rfl, fun v hlo hhi => absurd hhi (not_lt.2 hlo),
      nofun, fun _ => ⟨kalloc_eq_none hk, by omega⟩⟩
  | case3 i m d hlt pte hpte f m₁ hk ih =>
    subst hi
    obtain ⟨fs, hm, rfl⟩ := kalloc_eq_some hk
    obtain ⟨d₁, hmap, h⟩ := Option.bind_eq_some_iff.1 h
    obtain ⟨hnone, rfl⟩ := mappages_eq_some hmap
    rw [mul_div_PGSIZE] at hpte
    rw [decide_mul_ne] at h
    obtain ⟨hf, hnodup'⟩ := List.nodup_cons.1 (hm ▸ hnodup)
    have hcontents : m.page pte.frame = contents lo := (hsrc lo pte le_rfl hlt hpte).2
    dsimp only at h ih
    rw [hcontents] at h ih
    have hne : ∀ x, x ∉ m.freelist → x ≠ f := by
      rintro x hx rfl
      exact hx (by rw [hm]; exact List.mem_cons_self)
    obtain ⟨hi, hgrown, hle, hin, hok, hfail⟩ :=
      ih _ (mul_add_PGSIZE lo) hnodup' (fun v e hlo hv he => by
        obtain ⟨hfree, hpage⟩ := hsrc v e (by omega) hv he
        refine ⟨fun hmem => hfree (by rw [hm]; exact List.mem_cons_of_mem f hmem), ?_⟩
        rw [← hpage]
        exact Function.update_of_ne (hne _ hfree) _ _) h
    refine ⟨hi, hgrown.cons hnodup hm hnone (by omega), by omega, fun v hlo hhi => ?_, hok, hfail⟩
    rcases hlo.eq_or_lt with rfl | hlo
    · exact hlt
    · exact hin v hlo hhi
  | case4 i m d hge =>
    cases h
    exact ⟨lo, .refl _ _ lo _ _, le_rfl, fun v hlo hhi => absurd hhi (not_lt.2 hlo),
      fun _ => by omega, nofun⟩

/-- They do not panic if the pages are present in `src` and absent in the copy. -/
theorem copyLoop_isSome {src : Pgdir} {user0 : Bool} {sz i : ℕ} (m : Kmem) (hi : i = lo * PGSIZE)
    (hsrc : ∀ v, lo ≤ v → v * PGSIZE < sz → (src.pte v).isSome)
    (hnone : ∀ v, lo ≤ v → v * PGSIZE < sz → d.pte v = none) :
    (copyLoop src user0 sz i m d).isSome := by
  fun_induction copyLoop src user0 sz i m d generalizing lo with
  | case1 i m d hlt hpte =>
    subst hi
    rw [mul_div_PGSIZE] at hpte
    have := hsrc lo le_rfl hlt
    rw [hpte] at this
    cases this
  | case2 => rfl
  | case3 i m d hlt pte hpte f m₁ hk ih =>
    subst hi
    rw [mappages_of_none (hnone lo le_rfl hlt), Option.bind_eq_bind, Option.bind_some]
    refine ih _ (mul_add_PGSIZE lo)
      (fun v hlo hv => hsrc v (by omega) hv) fun v hlo hv => ?_
    rw [setPte_of_ne d _ (by omega)]
    exact hnone v (by omega) hv
  | case4 => rfl

/-! ### Freeing pages -/

/-- The pages from `lo` up to `oldsz` were freed. -/
structure Shrunk (m : Kmem) (d : Pgdir) (m' : Kmem) (d' : Pgdir) (lo oldsz : ℕ) : Prop where
  dir : d'.dir = d.dir
  tables : d'.tables = d.tables
  pte : ∀ v, d'.pte v = if lo ≤ v ∧ v * PGSIZE < oldsz then none else d.pte v
  freelist : m.freelist <:+ m'.freelist
  page : ∀ f, f ∉ m'.freelist → m'.page f = m.page f

theorem kfree_page (h : x ∉ (kfree m f).freelist) : (kfree m f).page x = m.page x :=
  Function.update_of_ne (by rintro rfl; exact h List.mem_cons_self) _ _

/-- **The loop of `deallocuvm`.** -/
theorem deallocLoop_shrunk {oldsz a : ℕ} (ha : a = lo * PGSIZE) :
    Shrunk m d (deallocLoop oldsz a m d).1 (deallocLoop oldsz a m d).2 lo oldsz := by
  fun_induction deallocLoop oldsz a m d generalizing lo with
  | case1 a m d hlt hnone ih =>
    subst ha
    have h := ih (mul_add_PGSIZE lo)
    refine ⟨h.dir, h.tables, fun v => ?_, h.freelist, h.page⟩
    rw [h.pte v]
    rcases eq_or_ne v lo with rfl | hne
    · rw [mul_div_PGSIZE] at hnone
      rw [if_neg (by omega), if_pos ⟨le_rfl, hlt⟩, hnone]
    · exact if_congr (and_congr_left fun _ => by omega) rfl rfl
  | case2 a m d hlt pte hpte ih =>
    subst ha
    have h := ih (mul_add_PGSIZE lo)
    rw [mul_div_PGSIZE] at h ⊢
    refine ⟨h.dir, h.tables, fun v => ?_, (List.suffix_cons _ _).trans h.freelist, fun x hx => ?_⟩
    · rw [h.pte v]
      rcases eq_or_ne v lo with rfl | hne
      · rw [if_neg (by omega), if_pos ⟨le_rfl, hlt⟩]
        exact Function.update_self ..
      · dsimp only
        rw [Function.update_of_ne hne]
        exact if_congr (and_congr_left fun _ => by omega) rfl rfl
    · rw [h.page x hx]
      exact kfree_page fun hmem => hx (h.freelist.subset hmem)
  | case3 a m d hge =>
    subst ha
    refine ⟨rfl, rfl, fun v => ?_, List.suffix_refl _, fun _ _ => rfl⟩
    rw [if_neg]
    rintro ⟨hlo, hlt⟩
    have : lo * PGSIZE ≤ v * PGSIZE := Nat.mul_le_mul_right PGSIZE hlo
    omega

theorem pgroundup_eq {sz : ℕ} (h : sz ≤ USERTOP) :
    pgroundup sz = (sz + PGSIZE - 1) / PGSIZE * PGSIZE := by
  have : (sz + PGSIZE - 1) % 2 ^ 32 = sz + PGSIZE - 1 := by
    simp only [USERTOP] at h
    simp only [PGSIZE]
    omega
  rw [pgroundup, this]

/-- A page begins behind `sz` if its number is at least that of the page that `sz` is rounded up to. -/
theorem pages_le_iff {sz : ℕ} : (sz + PGSIZE - 1) / PGSIZE ≤ v ↔ sz ≤ v * PGSIZE := by
  simp only [PGSIZE]
  omega

/-- How far a loop gets that adds the pages below `newsz`: to the last of them if there is a frame for
each. -/
theorem Grown.reach {pages newsz : ℕ} {ok : Bool} (h : Grown m d m' d' lo hi user contents)
    (hpages : ∀ v, pages ≤ v ↔ newsz ≤ v * PGSIZE) (hle : lo ≤ hi)
    (hin : ∀ v, lo ≤ v → v < hi → v * PGSIZE < newsz) (hok : ok = true → newsz ≤ hi * PGSIZE)
    (hfail : ok = false → m'.freelist = [] ∧ hi * PGSIZE < newsz) :
    (ok = true ↔ pages - lo ≤ m.freelist.length) ∧ (ok = true → hi = max lo pages) := by
  have hlength := h.length
  cases ok with
  | true =>
    have hend := (hpages hi).2 (hok rfl)
    have hhi : hi = lo ∨ hi ≤ pages := by
      by_contra hcon
      -- the last page was added although it is not below `newsz`
      have hlast := hin (hi - 1) (by omega) (by omega)
      exact absurd ((hpages (hi - 1)).1 (by omega)) (not_le.2 hlast)
    refine ⟨iff_of_true rfl ?_, fun _ => ?_⟩
    · omega
    · omega
  | false =>
    obtain ⟨hnil, hlt⟩ := hfail rfl
    have hhi : hi < pages := not_le.1 (mt (hpages hi).1 (not_le.2 hlt))
    rw [hnil, List.length_nil] at hlength
    refine ⟨iff_of_false (by simp) ?_, by simp⟩
    omega

/-- `deallocuvm` below the old size. -/
theorem deallocuvm_shrunk {oldsz newsz : ℕ} (m : Kmem) (d : Pgdir) (hle : oldsz ≤ USERTOP)
    (hlt : newsz < oldsz) :
    (deallocuvm m d oldsz newsz).2.2 = newsz ∧
      Shrunk m d (deallocuvm m d oldsz newsz).1 (deallocuvm m d oldsz newsz).2.1
        ((newsz + PGSIZE - 1) / PGSIZE) oldsz := by
  unfold deallocuvm
  rw [if_neg (by omega)]
  exact ⟨rfl, deallocLoop_shrunk (pgroundup_eq (by omega))⟩

/-! ### The books -/

theorem count_kalloc (h : kalloc m = some (f, m')) (x : Frame) :
    m'.freelist.count x + [f].count x = m.freelist.count x := by
  obtain ⟨fs, hm, rfl⟩ := kalloc_eq_some h
  simp [hm, List.count_cons]

theorem count_deallocLoop {oldsz : ℕ} (hle : oldsz ≤ USERTOP) (a : ℕ) (m : Kmem) (d : Pgdir)
    (x : Frame) :
    (deallocLoop oldsz a m d).1.freelist.count x + (deallocLoop oldsz a m d).2.frames.count x =
      m.freelist.count x + d.frames.count x := by
  fun_induction deallocLoop oldsz a m d with
  | case1 a m d hlt hnone ih => exact ih
  | case2 a m d hlt pte hpte ih =>
    have hv : a / PGSIZE ∈ userPages := mem_userPages (by simp only [PGSIZE]; omega)
    have hset := count_setPte hv none x (d := d)
    simp only [Pgdir.held, hpte, Option.map_some, Option.toList_some, Option.map_none,
      Option.toList_none, List.count_nil, List.count_singleton] at hset
    rw [ih]
    change (pte.frame :: m.freelist).count x + (d.setPte (a / PGSIZE) none).frames.count x = _
    rw [List.count_cons]
    omega
  | case3 => rfl

theorem count_deallocuvm {oldsz : ℕ} (hle : oldsz ≤ USERTOP) (newsz : ℕ) (m : Kmem) (d : Pgdir)
    (x : Frame) :
    (deallocuvm m d oldsz newsz).1.freelist.count x +
        (deallocuvm m d oldsz newsz).2.1.frames.count x =
      m.freelist.count x + d.frames.count x := by
  unfold deallocuvm
  split_ifs
  · rfl
  · exact count_deallocLoop hle _ m d x

/-- A page is added in a fresh frame. -/
theorem count_mappages {user : Bool} {a : ℕ} (ha : a < USERTOP) (hk : kalloc m = some (f, m'))
    (h : mappages d a f user = some d') (c : Page) (x : Frame) :
    (m'.write f c).freelist.count x + d'.frames.count x =
      m.freelist.count x + d.frames.count x := by
  unfold mappages at h
  split at h
  · cases h
  · next hnone =>
    cases h
    have hv : a / PGSIZE ∈ userPages := mem_userPages (by simp only [PGSIZE]; omega)
    have hset := count_setPte hv (some ⟨f, user⟩) x (d := d)
    have hfree := count_kalloc hk x
    simp only [Pgdir.held, hnone, Option.map_some, Option.toList_some, Option.map_none,
      Option.toList_none, List.count_nil] at hset
    change m'.freelist.count x + (d.setPte (a / PGSIZE) (some ⟨f, user⟩)).frames.count x = _
    omega

theorem count_allocLoop {newsz a : ℕ} {ok : Bool} (hle : newsz ≤ USERTOP)
    (h : allocLoop newsz a m d = some (ok, m', d')) (x : Frame) :
    m'.freelist.count x + d'.frames.count x = m.freelist.count x + d.frames.count x := by
  fun_induction allocLoop newsz a m d with
  | case1 => cases h; rfl
  | case2 a m d hlt f m₁ hk ih =>
    obtain ⟨d₁, hmap, h⟩ := Option.bind_eq_some_iff.1 h
    rw [ih _ h, count_mappages (by omega) hk hmap]
  | case3 => cases h; rfl

theorem count_copyLoop {sz i : ℕ} {user0 ok : Bool} (hle : sz ≤ USERTOP)
    (h : copyLoop src user0 sz i m d = some (ok, m', d')) (x : Frame) :
    m'.freelist.count x + d'.frames.count x = m.freelist.count x + d.frames.count x := by
  fun_induction copyLoop src user0 sz i m d with
  | case1 => cases h
  | case2 => cases h; rfl
  | case3 i m d hlt pte hpte f m₁ hk ih =>
    obtain ⟨d₁, hmap, h⟩ := Option.bind_eq_some_iff.1 h
    rw [ih _ h, count_mappages (by omega) hk hmap]
  | case4 => cases h; rfl

/-- **`allocuvm`** keeps the books. -/
theorem count_allocuvm {sz ss oldsz newsz sz' : ℕ}
    (h : allocuvm sz ss m d oldsz newsz = some (m', d', sz')) (x : Frame) :
    m'.freelist.count x + d'.frames.count x = m.freelist.count x + d.frames.count x := by
  unfold allocuvm at h
  split_ifs at h with h1 h2 h3
  · cases h; rfl
  · cases h; rfl
  · cases h; rfl
  · obtain ⟨⟨ok, m₁, d₁⟩, hloop, h⟩ := Option.map_eq_some_iff.1 h
    have hbooks := count_allocLoop (by omega) hloop x
    dsimp only at h
    split_ifs at h
    · cases h; exact hbooks
    · cases h
      rw [← hbooks]
      exact count_deallocuvm (by omega) oldsz m₁ d₁ x

/-! ### Whole address spaces -/

/-- Frames that are freed one after the other. -/
theorem foldl_kfree_freelist (fs : List Frame) (m : Kmem) :
    (fs.foldl kfree m).freelist = fs.reverse ++ m.freelist := by
  induction fs generalizing m with
  | nil => rfl
  | cons f fs ih => rw [List.foldl_cons, ih, List.reverse_cons, List.append_assoc]; rfl

theorem foldl_kfree_page (fs : List Frame) (m : Kmem) (h : x ∉ (fs.foldl kfree m).freelist) :
    (fs.foldl kfree m).page x = m.page x := by
  induction fs generalizing m with
  | nil => rfl
  | cons f fs ih =>
    rw [List.foldl_cons] at h ⊢
    rw [ih _ h]
    refine kfree_page fun hmem => h ?_
    rw [foldl_kfree_freelist]
    exact List.mem_append_right _ hmem

/-- **`freevm`** frees every frame of the page directory. -/
theorem count_freevm (m : Kmem) (d : Pgdir) (x : Frame) :
    (freevm m d).freelist.count x = m.freelist.count x + d.frames.count x := by
  have hbooks := count_deallocuvm le_rfl 0 m d x
  obtain ⟨-, hshrunk⟩ := deallocuvm_shrunk m d le_rfl (by decide : 0 < USERTOP)
  unfold freevm
  generalize deallocuvm m d USERTOP 0 = r at *
  obtain ⟨m₁, d₁, sz⟩ := r
  dsimp only at *
  -- no user page is left
  have hnone : holdings userPages d₁.held = [] := by
    refine List.flatMap_eq_nil_iff.2 fun v hv => ?_
    have hlt : v * PGSIZE < USERTOP := by
      simp only [userPages, List.mem_range, USERTOP, PGSIZE] at *
      omega
    rw [Pgdir.held, hshrunk.pte v, if_pos ⟨Nat.zero_le v, hlt⟩]
    rfl
  rw [← hbooks, Pgdir.frames, hnone, List.append_nil]
  change (d₁.dir :: (d₁.tables.foldl kfree m₁).freelist).count x = _
  rw [foldl_kfree_freelist]
  simp only [List.count_cons, List.count_append, List.count_reverse]
  omega

theorem freevm_page (h : x ∉ (freevm m d).freelist) : (freevm m d).page x = m.page x := by
  obtain ⟨-, hshrunk⟩ := deallocuvm_shrunk m d le_rfl (by decide : 0 < USERTOP)
  unfold freevm at h ⊢
  generalize deallocuvm m d USERTOP 0 = r at *
  obtain ⟨m₁, d₁, sz⟩ := r
  dsimp only at *
  rw [kfree_page h]
  have htables : x ∉ (d₁.tables.foldl kfree m₁).freelist := fun hmem =>
    h (List.mem_cons_of_mem _ hmem)
  rw [foldl_kfree_page _ _ htables]
  refine hshrunk.page x fun hmem => htables ?_
  rw [foldl_kfree_freelist]
  exact List.mem_append_right _ hmem

end Vm

end OperatingSystems

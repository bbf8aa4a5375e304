import OperatingSystems.Vm.Growth
import OperatingSystems.Vm.Segments

/-!
# The stack of a new program

`exec` makes one page of stack at the top of the user address space, and copies the arguments there.
`copyout` would write below that page too, if there are pages for the user; so how many arguments fit
depends on the size of the heap.

* `Stacked` : the pages are those of the heap and of a stack of one page.
* `stackFate`, `argsFate` : the fates of the page of the stack and of the arguments.
* `copyout_spec` : **`copyout` succeeds if all bytes are in pages for the user**.
* `pushStack_follows`, `pushArgs_follows` : both parts follow their fates.
-/

namespace OperatingSystems

namespace Vm

open Bytes Custody

variable {m₀ m m' : Kmem} {d d' : Pgdir} {s : Kmem × Pgdir} {sz psz pss v va len sp argc : ℕ} {p : Bytes}
  {argv : List Arg}

/-- The pages are those below `sz` and the last one; all but page `0` are for the user. -/
structure Stacked (d : Pgdir) (sz : ℕ) : Prop where
  sz_le : sz ≤ USERTOP - PGSIZE
  covers : d.Covers sz PGSIZE
  user : ∀ v e, d.pte v = some e → e.user = decide (v ≠ 0)

/-- What becomes of the page of the stack, for a heap of `sz` bytes and `free` free frames: it must not
be there yet. -/
def stackFate (psz pss : ℕ) : ℕ × ℕ → Fate ℕ
  | (sz, free) =>
    if USERTOP - PGSIZE = toUint (USERTOP - pss - PGSIZE) ∧
      USERTOP - PGSIZE < (psz + PGSIZE) % 2 ^ 32 then .givesUp
    else if free = 0 then .givesUp
    else if USERTOP - PGSIZE < sz then .stops
    else .goesOn sz

theorem mappages_of_some {e : Pte} (h : d.pte v = some e) (f : Frame) (user : Bool) :
    mappages d (v * PGSIZE) f user = none := by
  unfold mappages
  rw [mul_div_PGSIZE, h]

/-- The loop of `allocuvm` fails without memory. -/
theorem allocLoop_of_nil {newsz a : ℕ} (hlt : a < newsz) (hm : m.freelist = []) :
    allocLoop newsz a m d = some (false, m, d) := by
  have hkalloc : kalloc m = none := by rw [kalloc, hm]
  rw [allocLoop, if_pos hlt, hkalloc]

/-- The page of the stack is the last one. -/
theorem pgroundup_stack : pgroundup (USERTOP - PGSIZE) = 159 * PGSIZE := by
  decide

theorem page_lt_iff : v * PGSIZE < USERTOP ↔ v < 160 := by
  simp only [USERTOP, PGSIZE]
  omega

theorem le_page_iff : USERTOP - PGSIZE ≤ v * PGSIZE ↔ 159 ≤ v := by
  simp only [USERTOP, PGSIZE]
  omega

/-- A heap and the page of the stack. -/
theorem Heap.stacked {hi : ℕ} (h : Heap d sz) (hsz : sz ≤ USERTOP - PGSIZE)
    (hgrown : Grown m d m' d' 159 hi (fun v => decide (v ≠ 0)) fun _ _ => 0) (hhi : hi = 160) :
    Stacked d' sz where
  sz_le := hsz
  covers v := by
    subst hhi
    rw [le_page_iff, page_lt_iff]
    by_cases hv : v = 159
    · obtain ⟨f, -, hpte, -⟩ := hgrown.inside v (by omega) (by omega)
      rw [hpte]
      exact iff_of_true rfl (Or.inr (by omega))
    · have := (page_lt_iff (v := v)).2
      rw [hgrown.outside v (by omega), h.present v]
      omega
  user v e he := by
    subst hhi
    by_cases hv : v = 159
    · obtain ⟨f, -, hpte, -⟩ := hgrown.inside v (by omega) (by omega)
      rw [hpte] at he
      cases he
      rfl
    · rw [hgrown.outside v (by omega)] at he
      exact h.user v e he

/-- **The page of the stack.** -/
theorem pushStack_follows {free : ℕ} (hnodup : m₀.freelist.Nodup) (h : Loading m₀ sz free s)
    (psz pss : ℕ) :
    (pushStack psz pss s).Follows (stackFate psz pss (sz, free)) (Owned m₀)
      fun b _ s => b = sz ∧ Owned m₀ s ∧ Stacked s.2 sz := by
  obtain ⟨m, d⟩ := s
  have hU : USERTOP = 160 * PGSIZE := rfl
  have hP : PGSIZE = 4096 := rfl
  have hfree : m.freelist.length = free := h.free
  have hnodup' := h.owned.nodup hnodup
  have halloc : ∀ r, allocuvm psz pss m d (USERTOP - PGSIZE) USERTOP = some r → r.2.2 = 0 →
      (pushStack psz pss (m, d)).Follows (.givesUp : Fate ℕ) (Owned m₀)
        fun b _ s => b = sz ∧ Owned m₀ s ∧ Stacked s.2 sz := by
    rintro ⟨m', d', sz'⟩ hr hzero
    have howned := h.owned.allocuvm hnodup hr
    unfold pushStack
    rw [hr]
    dsimp only at hzero ⊢
    rw [if_pos hzero]
    exact Stage.Follows.givesUp howned
  unfold stackFate
  dsimp only
  by_cases h1 : USERTOP - PGSIZE = toUint (USERTOP - pss - PGSIZE) ∧
      USERTOP - PGSIZE < (psz + PGSIZE) % 2 ^ 32
  · rw [if_pos h1]
    exact halloc (m, d, 0) (by unfold allocuvm; rw [if_pos h1]) rfl
  rw [if_neg h1]
  have hallocuvm : allocuvm psz pss m d (USERTOP - PGSIZE) USERTOP =
      (allocLoop USERTOP (159 * PGSIZE) m d).map fun r =>
        if r.1 then (r.2.1, r.2.2, USERTOP)
        else
          let r' := deallocuvm r.2.1 r.2.2 USERTOP (USERTOP - PGSIZE)
          (r'.1, r'.2.1, 0) := by
    unfold allocuvm
    rw [if_neg h1, if_neg (lt_irrefl _), if_neg (by omega), pgroundup_stack]
  have hlt : 159 * PGSIZE < USERTOP := by omega
  by_cases h2 : free = 0
  · rw [if_pos h2]
    have hm : m.freelist = [] := List.length_eq_zero_iff.1 (hfree.trans h2)
    rw [allocLoop_of_nil hlt hm] at hallocuvm
    exact halloc _ hallocuvm rfl
  rw [if_neg h2]
  have hpresent := h.heap.present 159
  by_cases h3 : USERTOP - PGSIZE < sz
  · -- the page is in the heap
    rw [if_pos h3]
    obtain ⟨e, he⟩ := Option.isSome_iff_exists.1 (hpresent.2 (by omega))
    obtain ⟨f, fs, hm⟩ := List.exists_cons_of_length_pos (l := m.freelist) (by omega)
    have hloop : allocLoop USERTOP (159 * PGSIZE) m d = none := by
      have hkalloc : kalloc m = some (f, { m with freelist := fs }) := by rw [kalloc, hm]
      rw [allocLoop, if_pos hlt, hkalloc]
      dsimp only
      rw [mappages_of_some he, Option.bind_eq_bind, Option.bind_none]
    rw [hloop] at hallocuvm
    unfold pushStack
    dsimp only
    rw [hallocuvm]
    exact Stage.Follows.stops _
  rw [if_neg h3]
  have hnone : ∀ v, 159 ≤ v → v * PGSIZE < USERTOP → d.pte v = none := fun v hv _ => by
    have hge := le_page_iff.2 hv
    have hout := mt (h.heap.present v).1 (show ¬ v * PGSIZE < sz by omega)
    exact Option.not_isSome_iff_eq_none.1 hout
  obtain ⟨⟨ok, m₁, d₁⟩, hloop⟩ := Option.isSome_iff_exists.1 (allocLoop_isSome (m := m) rfl hnone)
  obtain ⟨hi, hgrown, hle, hin, hok, hfail⟩ := allocLoop_grown rfl hnodup' hloop
  have hpages : ∀ v, 160 ≤ v ↔ USERTOP ≤ v * PGSIZE := fun v => by
    rw [← not_lt, ← page_lt_iff, not_lt]
  obtain ⟨hreach, hhi⟩ := hgrown.reach hpages hle hin hok hfail
  -- the page is the only one, and a frame is free
  obtain rfl : ok = true := hreach.2 (by omega)
  rw [hloop] at hallocuvm
  have howned := h.owned.allocuvm hnodup hallocuvm
  unfold pushStack
  dsimp only
  rw [hallocuvm]
  exact Stage.Follows.goesOn ⟨rfl, howned, h.heap.stacked (not_lt.1 h3) hgrown (hhi rfl)⟩

/-! ### Copying to the new address space -/

/-- The page `v` is for the user. -/
def Pgdir.IsUser (d : Pgdir) (v : ℕ) : Prop := ∃ e, d.pte v = some e ∧ e.user = true

theorem Stacked.isUser_iff (h : Stacked d sz) : d.IsUser v ↔
    v ≠ 0 ∧ (v * PGSIZE < sz ∨ v = 159) := by
  have hcovers := h.covers v
  rw [le_page_iff, page_lt_iff] at hcovers
  constructor
  · rintro ⟨e, he, huser⟩
    rw [h.user v e he] at huser
    rw [he] at hcovers
    have := hcovers.1 rfl
    exact ⟨of_decide_eq_true huser, by omega⟩
  · rintro ⟨hne, hv⟩
    obtain ⟨e, he⟩ := Option.isSome_iff_exists.1 (hcovers.2 (by omega))
    exact ⟨e, he, (h.user v e he).trans (decide_eq_true hne)⟩

/-- An address of the user half, or one just below `2 ^ 32`. -/
def Reachable (va : ℕ) : Prop := va ≤ USERTOP ∨ DEVSPACE ≤ va

theorem Reachable.hasTable (h : Reachable va) : HasTable (va / PGSIZE) := by
  simp only [Reachable, HasTable, USERTOP, DEVSPACE, PHYSTOP, PGSIZE] at *
  omega

theorem uva2ka_of_isUser (hva : Reachable va) (h : d.IsUser (va / PGSIZE)) :
    ∃ e, d.pte (va / PGSIZE) = some e ∧
      uva2ka d (va / PGSIZE * PGSIZE) = .ok (some e.frame) := by
  obtain ⟨e, he, huser⟩ := h
  refine ⟨e, he, ?_⟩
  unfold uva2ka
  rw [mul_div_PGSIZE, if_pos hva.hasTable, he]
  dsimp only
  rw [if_pos huser]

theorem uva2ka_of_not_isUser (hva : Reachable va) (h : ¬ d.IsUser (va / PGSIZE)) :
    uva2ka d (va / PGSIZE * PGSIZE) = .ok none := by
  unfold uva2ka
  rw [mul_div_PGSIZE, if_pos hva.hasTable]
  split
  · rfl
  · next e he =>
    rw [if_neg fun huser => h ⟨e, he, huser⟩]

/-- **`copyout`** writes to the new address space only, and succeeds if all its bytes are in pages for
the user. -/
theorem copyout_spec (hd : ∀ v, (d.pte v).isSome → v < 160) (ho : Owned m₀ (m, d))
    (hva : Reachable va) (p : Bytes) (len : ℕ) :
    ∃ m' ok, copyout m d va p len = .ok (m', ok) ∧ Owned m₀ (m', d) ∧
      (ok = true ↔ ∀ a, va ≤ a → a < va + len → d.IsUser (a / PGSIZE)) := by
  induction len using Nat.strong_induction_on generalizing va m p with
  | _ len ih =>
    rw [copyout]
    by_cases hlen : 0 < len
    · rw [if_pos hlen]
      dsimp only
      by_cases huser : d.IsUser (va / PGSIZE)
      · obtain ⟨e, he, hka⟩ := uva2ka_of_isUser hva huser
        rw [hka]
        dsimp only
        generalize hn : (if PGSIZE - (va - va / PGSIZE * PGSIZE) > len then len
          else PGSIZE - (va - va / PGSIZE * PGSIZE)) = n
        have hv := hd _ (by rw [he]; rfl)
        have hframe := mem_frames_of_pte (mem_userPages (page_lt_iff.2 hv)) he
        have hnext : (va / PGSIZE * PGSIZE + PGSIZE) % 2 ^ 32 = (va / PGSIZE + 1) * PGSIZE := by
          simp only [PGSIZE] at *
          omega
        have hchunk : 0 < n ∧ n ≤ len ∧ va + n ≤ (va / PGSIZE + 1) * PGSIZE ∧
            (n = len ∨ va + n = (va / PGSIZE + 1) * PGSIZE) := by
          by_cases hmore : PGSIZE - (va - va / PGSIZE * PGSIZE) > len
          · rw [if_pos hmore] at hn
            simp only [PGSIZE] at *
            omega
          · rw [if_neg hmore] at hn
            simp only [PGSIZE] at *
            omega
        have hreach : Reachable ((va / PGSIZE + 1) * PGSIZE) := Or.inl (by
          simp only [USERTOP, PGSIZE] at *
          omega)
        rw [hnext]
        obtain ⟨m', ok, hcopy, ho', hok⟩ := ih (len - n) (by omega)
          (ho.fill hframe (va - va / PGSIZE * PGSIZE) n p) hreach (slice p n)
        refine ⟨m', ok, hcopy, ho', hok.trans ⟨fun h a ha halt => ?_, fun h a ha halt => ?_⟩⟩
        · -- a byte in the page of `va`, or behind it
          by_cases hpage : a / PGSIZE = va / PGSIZE
          · rwa [hpage]
          · exact h a (by simp only [PGSIZE] at *; omega) (by simp only [PGSIZE] at *; omega)
        · exact h a (by simp only [PGSIZE] at *; omega) (by simp only [PGSIZE] at *; omega)
      · rw [uva2ka_of_not_isUser hva huser]
        refine ⟨m, false, rfl, ho, ?_⟩
        simp only [Bool.false_eq_true, false_iff]
        exact fun h => huser (h va le_rfl (by omega))
    · rw [if_neg hlen]
      exact ⟨m, true, rfl, ho, iff_of_true rfl fun a ha halt => absurd halt (by omega)⟩

/-! ### The arguments -/

/-- The lowest address that the arguments can have, with a heap of `sz` bytes: where there is a page of
heap below the stack, nothing stops them before page `0`. -/
def argsFloor (sz : ℕ) : ℕ := if USERTOP - 2 * PGSIZE < sz then PGSIZE else USERTOP - PGSIZE

/-- There is room for `len` bytes below `sp`. -/
def roomFate (floor sp len : ℕ) : Fate Unit := if floor + len ≤ sp then .goesOn () else .givesUp

/-- What becomes of the strings: the stack pointer. -/
def stringsFate (floor : ℕ) : List Arg → ℕ → ℕ → Fate ℕ
  | [], _, sp => .goesOn sp
  | a :: argv, argc, sp =>
    if argc ≥ MAXARG then .givesUp
    else (roomFate floor sp (a.len + 1)).andThen fun _ =>
      stringsFate floor argv (argc + 1) ((sp - (a.len + 1)) / 4 * 4)

/-- What becomes of all arguments: the stack pointer. -/
def argsFate (sz : ℕ) (argv : List Arg) : Fate ℕ :=
  (stringsFate (argsFloor sz) argv 0 USERTOP).andThen fun sp =>
    (roomFate (argsFloor sz) sp ((3 + argv.length + 1) * 4)).andThen fun _ =>
      .goesOn (sp - (3 + argv.length + 1) * 4)

/-- Bytes right below `sp`, at most three bytes apart, are in pages for the user if they are not below
the floor. -/
theorem Stacked.forall_isUser_iff (h : Stacked d sz) (hlen : 0 < len) (hsp : sp ≤ USERTOP)
    (hfloor : argsFloor sz ≤ sp) (hva : va + len ≤ sp) (hnear : sp < va + len + 4) :
    (∀ a, va ≤ a → a < va + len → d.IsUser (a / PGSIZE)) ↔ argsFloor sz ≤ va := by
  have hsz := h.sz_le
  constructor
  · intro hall
    by_contra hlt
    -- a byte that is in no page for the user: of page `0`, or of the page below the stack
    have hbyte := hall (min (va + len - 1) (argsFloor sz - 1)) (by omega) (by omega)
    rw [h.isUser_iff] at hbyte
    unfold argsFloor at *
    split_ifs at * <;> simp only [USERTOP, PGSIZE] at * <;> omega
  · intro hle a ha halt
    rw [h.isUser_iff]
    unfold argsFloor at *
    split_ifs at * <;> simp only [USERTOP, PGSIZE] at * <;> omega

/-- The invariant while the arguments are pushed. -/
structure Pushing (m₀ : Kmem) (sz sp : ℕ) (s : Kmem × Pgdir) : Prop where
  owned : Owned m₀ s
  stacked : Stacked s.2 sz
  sp_le : sp ≤ USERTOP
  floor_le : argsFloor sz ≤ sp
  dvd : 4 ∣ sp

/-- **One push.** -/
theorem copyout_follows (h : Pushing m₀ sz sp (m, d)) (hlen : 0 < len) (hbound : len ≤ USERTOP)
    (p : Bytes) : (Build.ofResult d () (copyout m d (toUint ((sp : ℤ) - len) / 4 * 4) p len)).Follows
      (roomFate (argsFloor sz) sp len) (Owned m₀)
      fun _ _ s => Pushing m₀ sz ((sp - len) / 4 * 4) s ∧
        toUint ((sp : ℤ) - len) / 4 * 4 = (sp - len) / 4 * 4 := by
  have hsp := h.sp_le
  have hdvd : 4 ∣ argsFloor sz := by
    unfold argsFloor
    split_ifs <;> decide
  have hd : ∀ v, (d.pte v).isSome → v < 160 := fun v hv => by
    have hsz := h.stacked.sz_le
    have hcovers := (h.stacked.covers v).1 hv
    exact page_lt_iff.1 (by omega)
  have hreach : Reachable (toUint ((sp : ℤ) - len) / 4 * 4) := by
    simp only [Reachable, toUint, USERTOP, DEVSPACE] at *
    omega
  obtain ⟨m', ok, hcopy, ho, hok⟩ := copyout_spec hd h.owned hreach p len
  have hiff : ok = true ↔ argsFloor sz + len ≤ sp := by
    rw [hok]
    by_cases hwrap : len ≤ sp
    · have hva : toUint ((sp : ℤ) - len) = sp - len := by
        simp only [toUint, USERTOP] at *
        omega
      rw [hva, h.stacked.forall_isUser_iff hlen hsp h.floor_le (by omega) (by omega)]
      omega
    · -- the address is just below `2 ^ 32`
      refine iff_of_false (fun hall => ?_) (by omega)
      obtain ⟨e, he, -⟩ := hall _ le_rfl (by omega)
      have := hd _ (by rw [he]; rfl)
      simp only [toUint, USERTOP, PGSIZE] at *
      omega
  rw [hcopy]
  unfold roomFate
  cases ok with
  | true =>
    have hroom := hiff.1 rfl
    rw [if_pos hroom]
    refine Stage.Follows.goesOn ⟨⟨ho, h.stacked, by omega, ?_, Nat.dvd_mul_left 4 _⟩, ?_⟩
    · obtain ⟨c, hc⟩ := hdvd
      rw [hc] at hroom ⊢
      omega
    · simp only [toUint, USERTOP] at *
      omega
  | false =>
    rw [if_neg (mt hiff.2 (by decide))]
    exact Stage.Follows.givesUp ho

theorem pushStrings_follows (h : Pushing m₀ sz sp s) (hargc : argc ≤ MAXARG) (ptrs : List ℕ) :
    (pushStrings argv argc sp ptrs s).Follows (stringsFate (argsFloor sz) argv argc sp) (Owned m₀)
      fun b a s => a.1 = b ∧ Pushing m₀ sz b s ∧ argc + argv.length ≤ MAXARG := by
  induction argv generalizing argc sp ptrs s with
  | nil => exact Stage.Follows.goesOn ⟨rfl, h, hargc⟩
  | cons a argv ih =>
    obtain ⟨m, d⟩ := s
    rw [pushStrings, stringsFate]
    split_ifs with hmax
    · exact Stage.Follows.givesUp h.owned
    · have hpush := copyout_follows h (Nat.succ_pos a.len) a.len_lt a.bytes
      rw [Nat.cast_succ] at hpush
      refine hpush.andThen fun _ _ s hs => ?_
      rw [hs.2]
      refine (ih hs.1 (not_le.1 hmax) _).mono fun b x s hx => ⟨hx.1, hx.2.1, ?_⟩
      have := hx.2.2
      rw [List.length_cons]
      omega

/-- **The arguments.** -/
theorem pushArgs_follows (ho : Owned m₀ s) (hs : Stacked s.2 sz) (argv : List Arg) :
    (pushArgs argv s).Follows (argsFate sz argv) (Owned m₀)
      fun b a s => a = b ∧ Owned m₀ s ∧ Stacked s.2 sz := by
  have hfloor : argsFloor sz ≤ USERTOP := by
    unfold argsFloor
    split_ifs <;> decide
  refine (pushStrings_follows ⟨ho, hs, le_rfl, hfloor, by decide⟩ (Nat.zero_le _) []).andThen ?_
  rintro sp ⟨sp', ptrs⟩ ⟨m, d⟩ ⟨rfl, h, hargc⟩
  set len := (3 + argv.length + 1) * 4 with hlen
  have hsmall : len ≤ USERTOP := by
    simp only [MAXARG, USERTOP] at *
    omega
  have hcast : ((sp' : ℤ) - (3 + argv.length + 1) * 4) = (sp' : ℤ) - len := by
    rw [hlen]
    push_cast
    rfl
  -- the stack pointer is a multiple of four anyway
  have hround : toUint ((sp' : ℤ) - len) / 4 * 4 = toUint ((sp' : ℤ) - len) := by
    obtain ⟨c, rfl⟩ := h.dvd
    simp only [toUint]
    omega
  have hround' : (sp' - len) / 4 * 4 = sp' - len := by
    obtain ⟨c, rfl⟩ := h.dvd
    omega
  have hpush := copyout_follows h (by omega) hsmall (ofWords ([0xffffffff, argv.length,
    toUint (sp' - (argv.length + 1) * 4)] ++ ptrs ++ [0]))
  rw [hround] at hpush
  unfold pushUstack
  dsimp only
  rw [hcast]
  refine Build.follows_ofResult hpush fun s hs => ⟨hs.2.trans hround', hs.1.owned, hs.1.stacked⟩

end Vm

end OperatingSystems

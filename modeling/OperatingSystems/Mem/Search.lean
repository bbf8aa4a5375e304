import OperatingSystems.Links.Doubly
import OperatingSystems.Mem.Headers

/-!
# The searches of the free list

`bestfit` and `worstfit` begin with the head of the list as their champion, whatever its size, and
tell from the champion at the end whether they found anything.

* `Listed h l` : the free list of `h` has the headers `l`.
* `firstfit_eq` : what `firstfit` returns.
* `Champion` : **the invariant** of the loop of `bestfit` and `worstfit`.
* `fit_spec` : what they return.
* `searches` : **the three searches**.
-/

namespace OperatingSystems

namespace Mem

open Bytes Links

variable {h : Heap} {l done rest : List ℕ} {p best : Option ℕ} {n : ℤ} {fuel a : ℕ} {first : Bool}
  {better : ℤ → ℤ → Bool}

/-- The pointers `next` lead from `p` through the headers `l`, which lie in the region, and end. -/
structure Listed (h : Heap) (p : Option ℕ) (l : List ℕ) : Prop where
  path : Path (fun a => (header h.mem a).next) p l
  within : ∀ a ∈ l, h.lo ≤ a ∧ a + 24 ≤ h.hi

theorem Listed.tail (hl : Listed h p (a :: l)) : Listed h (header h.mem a).next l :=
  ⟨hl.path.2, fun b hb => hl.within b (List.mem_cons_of_mem _ hb)⟩

theorem access_eq (ha : h.lo ≤ a ∧ a + 24 ≤ h.hi) {off k : ℕ} (hk : off + k ≤ 24) :
    h.access (some a) off k = .ok (a + off) :=
  if_pos ⟨by omega, by omega⟩

theorem size_eq (ha : h.lo ≤ a ∧ a + 24 ≤ h.hi) :
    h.size (some a) = .ok (header h.mem a).size := by
  rw [Heap.size, access_eq ha (by omega)]
  simp only [map_ok, header, Nat.add_zero]

theorem next_eq (ha : h.lo ≤ a ∧ a + 24 ≤ h.hi) :
    h.next (some a) = .ok (header h.mem a).next := by
  rw [Heap.next, access_eq ha (by omega)]
  simp only [map_ok, header]

/-! ### The first chunk -/

theorem firstfitLoop_eq (hl : Listed h p l) (hfuel : l.length ≤ fuel) :
    h.firstfitLoop n fuel p = .ok (l.find? fun a => n ≤ (header h.mem a).size) := by
  induction l generalizing p fuel with
  | nil =>
    obtain rfl : p = none := hl.path
    cases fuel <;> rfl
  | cons a l ih =>
    obtain ⟨fuel, rfl⟩ := Nat.exists_eq_succ_of_ne_zero (Nat.ne_of_gt (Nat.zero_lt_of_lt hfuel))
    obtain rfl := hl.path.1
    have ha := hl.within a List.mem_cons_self
    rw [Heap.firstfitLoop, size_eq ha, ok_bind, List.find?_cons]
    by_cases hn : n ≤ (header h.mem a).size
    · rw [if_pos hn, decide_eq_true hn]
      rfl
    · rw [if_neg hn, decide_eq_false hn, next_eq ha, ok_bind]
      exact ih hl.tail (Nat.le_of_succ_le_succ hfuel)

theorem firstfit_eq (hl : Listed h h.freeList l) (hfuel : l.length ≤ fuel) :
    h.firstfit fuel n = .ok (l.find? fun a => n ≤ (header h.mem a).size) :=
  firstfitLoop_eq hl hfuel

/-! ### The best chunk -/

/-- The variables `bestTmp` and `first` after the headers `done`, of a list that begins at `head`. -/
inductive Champion (better : ℤ → ℤ → Bool) (h : Heap) (n : ℤ) (head : Option ℕ) (done : List ℕ) :
    Option ℕ → Bool → Prop where
  /-- None of them is large enough. -/
  | none_yet (hsmall : ∀ d ∈ done, (header h.mem d).size < n) : Champion better h n head done head true
  /-- The champion is large enough, and none of them that is, is better. -/
  | found (c : ℕ) (hc : c ∈ done) (hn : n ≤ (header h.mem c).size)
    (hbest : ∀ d ∈ done, n ≤ (header h.mem d).size →
      better (header h.mem d).size (header h.mem c).size = false) :
    Champion better h n head done (some c) false

/-- A chunk that is too small changes nothing. -/
theorem Champion.small {head : Option ℕ} (hc : Champion better h n head done best first)
    (hn : (header h.mem a).size < n) : Champion better h n head (done ++ [a]) best first := by
  cases hc with
  | none_yet hsmall =>
    refine .none_yet fun d hd => ?_
    rcases List.mem_append.1 hd with hd | hd
    · exact hsmall d hd
    · rwa [List.mem_singleton.1 hd]
  | found c hc hcn hbest =>
    refine .found c (List.mem_append_left _ hc) hcn fun d hd hdn => ?_
    rcases List.mem_append.1 hd with hd | hd
    · exact hbest d hd hdn
    · rw [List.mem_singleton.1 hd] at hdn
      exact absurd hn (not_lt.2 hdn)

/-- A chunk that is large enough, and better than all of them that are. -/
theorem Champion.new {head : Option ℕ} (hirr : ∀ x, better x x = false)
    (hn : n ≤ (header h.mem a).size) (hbest : ∀ d ∈ done, n ≤ (header h.mem d).size →
      better (header h.mem d).size (header h.mem a).size = false) :
    Champion better h n head (done ++ [a]) (some a) false := by
  refine .found a (by simp) hn fun d hd hdn => ?_
  rcases List.mem_append.1 hd with hd | hd
  · exact hbest d hd hdn
  · rw [List.mem_singleton.1 hd, hirr]

/-- **One iteration** of the loop of `bestfit` and `worstfit`. -/
theorem fitLoop_step (fuel : ℕ) {head : Option ℕ} (hirr : ∀ x, better x x = false)
    (htrans : ∀ x y z, better x y = true → better y z = true → better x z = true)
    (hdone : ∀ a ∈ done, h.lo ≤ a ∧ a + 24 ≤ h.hi) (ha : h.lo ≤ a ∧ a + 24 ≤ h.hi)
    (hc : Champion better h n head done best first) :
    ∃ best' first', h.fitLoop better n (fuel + 1) (some a) best first =
        h.fitLoop better n fuel (header h.mem a).next best' first' ∧
      Champion better h n head (done ++ [a]) best' first' := by
  rw [Heap.fitLoop, size_eq ha, ok_bind, next_eq ha]
  by_cases hn : (header h.mem a).size ≥ n
  · cases hc with
    | none_yet hsmall =>
      refine ⟨some a, false, ?_, .new hirr hn fun d hd hdn => absurd (hsmall d hd) (not_lt.2 hdn)⟩
      simp only [hn, and_self, if_true, size_eq ha, ok_bind, hirr, Bool.false_eq_true, if_false,
        pure_eq_ok]
    | found c hcd hcn hbest =>
      simp only [Bool.false_eq_true, false_and, hn, if_false, if_true, size_eq (hdone c hcd), ok_bind,
        pure_eq_ok]
      cases hb : better (header h.mem a).size (header h.mem c).size with
      | true =>
        refine ⟨some a, false, by simp only [if_true], .new hirr hn fun d hd hdn => ?_⟩
        have hdc := hbest d hd hdn
        cases hda : better (header h.mem d).size (header h.mem a).size with
        | false => rfl
        | true => exact (hdc.symm.trans (htrans _ _ _ hda hb)).symm
      | false =>
        refine ⟨some c, false, by simp only [Bool.false_eq_true, if_false],
          .found c (List.mem_append_left _ hcd) hcn fun d hd hdn => ?_⟩
        rcases List.mem_append.1 hd with hd | hd
        · exact hbest d hd hdn
        · rw [List.mem_singleton.1 hd, hb]
  · refine ⟨best, first, ?_, hc.small (not_le.1 hn)⟩
    simp only [hn, and_false, if_false, ok_bind, pure_eq_ok]

/-- **The loop** of `bestfit` and `worstfit`. -/
theorem fitLoop_spec {head : Option ℕ} (hirr : ∀ x, better x x = false)
    (htrans : ∀ x y z, better x y = true → better y z = true → better x z = true)
    (hdone : ∀ a ∈ done, h.lo ≤ a ∧ a + 24 ≤ h.hi) (hl : Listed h p rest)
    (hfuel : rest.length ≤ fuel) (hc : Champion better h n head done best first) :
    ∃ best' first', h.fitLoop better n fuel p best first = .ok best' ∧
      Champion better h n head (done ++ rest) best' first' := by
  induction rest generalizing p fuel done best first with
  | nil =>
    obtain rfl : p = none := hl.path
    refine ⟨best, first, by cases fuel <;> rfl, ?_⟩
    rwa [List.append_nil]
  | cons a rest ih =>
    obtain ⟨fuel, rfl⟩ := Nat.exists_eq_succ_of_ne_zero (Nat.ne_of_gt (Nat.zero_lt_of_lt hfuel))
    obtain rfl := hl.path.1
    have ha := hl.within a List.mem_cons_self
    obtain ⟨best₁, first₁, hstep, hc₁⟩ := fitLoop_step fuel hirr htrans hdone ha hc
    rw [hstep, List.append_cons]
    refine ih (fun b hb => ?_) hl.tail (Nat.le_of_succ_le_succ hfuel) hc₁
    rcases List.mem_append.1 hb with hb | hb
    · exact hdone b hb
    · rwa [List.mem_singleton.1 hb]

/-- **`bestfit` and `worstfit`**: a chunk that is large enough and than which no other one that is, is
better; the null pointer if there is none. -/
theorem fit_spec (better : ℤ → ℤ → Bool) (hirr : ∀ x, better x x = false)
    (htrans : ∀ x y z, better x y = true → better y z = true → better x z = true)
    (hl : Listed h h.freeList l) (hne : l ≠ []) (hfuel : l.length ≤ fuel) :
    ∃ r, h.fit better fuel n = .ok r ∧ (r = none ↔ ∀ d ∈ l, (header h.mem d).size < n) ∧
      ∀ c, r = some c → c ∈ l ∧ n ≤ (header h.mem c).size ∧ ∀ d ∈ l, n ≤ (header h.mem d).size →
        better (header h.mem d).size (header h.mem c).size = false := by
  obtain ⟨a, l', rfl⟩ := List.exists_cons_of_ne_nil hne
  have hhead : h.freeList = some a := hl.path.1
  have ha := hl.within a List.mem_cons_self
  have hc₀ : Champion better h n h.freeList [] h.freeList true := .none_yet (by simp)
  obtain ⟨best, first, hloop, hc⟩ := fitLoop_spec hirr htrans (by simp) hl hfuel hc₀
  rw [List.nil_append] at hc
  rw [Heap.fit, hloop, ok_bind]
  cases hc with
  | none_yet hsmall =>
    -- nothing was found, and the head is too small
    rw [if_pos rfl, hhead, size_eq ha, ok_bind, if_pos (hsmall a List.mem_cons_self)]
    exact ⟨none, rfl, iff_of_true rfl hsmall, by simp⟩
  | found c hcl hcn hbest =>
    rw [size_eq (hl.within c hcl), ok_bind, if_neg (not_lt.2 hcn), ite_self]
    refine ⟨some c, rfl, iff_of_false (by simp) fun hsmall => ?_, fun d hd => ?_⟩
    · exact absurd (hsmall c hcl) (not_lt.2 hcn)
    · obtain rfl := Option.some.inj hd
      exact ⟨hcl, hcn, hbest⟩

/-! ### More iterations -/

theorem firstfitLoop_mono {fuel' : ℕ} (hle : fuel ≤ fuel') {r : Option ℕ}
    (hr : h.firstfitLoop n fuel p = .ok r) : h.firstfitLoop n fuel' p = .ok r := by
  induction fuel generalizing p fuel' with
  | zero =>
    cases p with
    | none => cases fuel' <;> exact hr
    | some a => cases hr
  | succ fuel ih =>
    obtain ⟨k, rfl⟩ := Nat.exists_eq_add_of_le' (Nat.le_trans (by simp) hle : 1 ≤ fuel')
    cases p with
    | none => exact hr
    | some a =>
      rw [Heap.firstfitLoop] at hr ⊢
      obtain ⟨size, hsize, hr⟩ := bind_eq_ok.1 hr
      rw [hsize, ok_bind]
      split_ifs at hr ⊢ with hn
      · exact hr
      · obtain ⟨q, hq, hr⟩ := bind_eq_ok.1 hr
        rw [hq, ok_bind]
        exact ih (Nat.le_of_succ_le_succ hle) hr

theorem fitLoop_mono {fuel' : ℕ} (hle : fuel ≤ fuel') {r : Option ℕ}
    (hr : h.fitLoop better n fuel p best first = .ok r) :
    h.fitLoop better n fuel' p best first = .ok r := by
  induction fuel generalizing p best first fuel' with
  | zero =>
    cases p with
    | none => cases fuel' <;> exact hr
    | some a => cases hr
  | succ fuel ih =>
    obtain ⟨k, rfl⟩ := Nat.exists_eq_add_of_le' (Nat.le_trans (by simp) hle : 1 ≤ fuel')
    cases p with
    | none => exact hr
    | some a =>
      rw [Heap.fitLoop] at hr ⊢
      obtain ⟨size, hsize, hr⟩ := bind_eq_ok.1 hr
      rw [hsize, ok_bind]
      have hnext : ∀ {b f}, (h.next (some a) >>= fun q => h.fitLoop better n fuel q b f) = .ok r →
          (h.next (some a) >>= fun q => h.fitLoop better n k q b f) = .ok r := by
        intro b f hr
        obtain ⟨q, hq, hr⟩ := bind_eq_ok.1 hr
        exact bind_eq_ok.2 ⟨q, hq, ih (Nat.le_of_succ_le_succ hle) hr⟩
      revert hr
      generalize (if first ∧ size ≥ n then (some a, false) else (best, first)) = champion
      intro hr
      dsimp only at hr ⊢
      split_ifs at hr ⊢ with hn
      · obtain ⟨y, hy, hr⟩ := bind_eq_ok.1 hr
        rw [hy, ok_bind]
        split_ifs at hr ⊢
        · exact hnext hr
        · exact hnext hr
      · exact hnext hr

/-- More iterations change nothing for a search that ends. -/
theorem search_mono {fuel' : ℕ} (hle : fuel ≤ fuel') {policy : ℤ} {r : Option ℕ}
    (hr : h.search fuel policy n = .ok r) : h.search fuel' policy n = .ok r := by
  have hfit : ∀ better, h.fit better fuel n = .ok r → h.fit better fuel' n = .ok r := by
    intro better hr
    obtain ⟨best, hbest, hr⟩ := bind_eq_ok.1 hr
    exact bind_eq_ok.2 ⟨best, fitLoop_mono hle hbest, hr⟩
  unfold Heap.search at hr ⊢
  split_ifs at hr ⊢
  · exact hfit _ hr
  · exact hfit _ hr
  · exact firstfitLoop_mono hle hr
  · exact hr

/-- **The three searches** of a free list with any sizes in any order. -/
theorem searches (hl : Listed h h.freeList l) (hne : l ≠ []) (hfuel : l.length ≤ fuel) (size : ℤ) :
    (∃ r, h.bestfit fuel size = .ok r ∧ (r = none ↔ ∀ d ∈ l, (header h.mem d).size < size) ∧
      ∀ c, r = some c → c ∈ l ∧ size ≤ (header h.mem c).size ∧
        ∀ d ∈ l, size ≤ (header h.mem d).size → (header h.mem c).size ≤ (header h.mem d).size) ∧
    (∃ r, h.worstfit fuel size = .ok r ∧ (r = none ↔ ∀ d ∈ l, (header h.mem d).size < size) ∧
      ∀ c, r = some c → c ∈ l ∧ size ≤ (header h.mem c).size ∧
        ∀ d ∈ l, (header h.mem d).size ≤ (header h.mem c).size) ∧
    ∃ r, h.firstfit fuel size = .ok r ∧ (r = none ↔ ∀ d ∈ l, (header h.mem d).size < size) ∧
      ∀ c, r = some c → ∃ l₁ l₂, l = l₁ ++ c :: l₂ ∧ size ≤ (header h.mem c).size ∧
        ∀ d ∈ l₁, (header h.mem d).size < size := by
  refine ⟨?_, ?_, ?_⟩
  · obtain ⟨r, hr, hnone, hsome⟩ := fit_spec (n := size) (fun x y => x < y)
      (fun x => by simp) (fun x y z => by simp; omega) hl hne hfuel
    refine ⟨r, hr, hnone, fun c hc => ?_⟩
    obtain ⟨hmem, hsize, hbest⟩ := hsome c hc
    exact ⟨hmem, hsize, fun d hd hdn => by simpa using hbest d hd hdn⟩
  · obtain ⟨r, hr, hnone, hsome⟩ := fit_spec (n := size) (fun x y => x > y)
      (fun x => by simp) (fun x y z => by simp; omega) hl hne hfuel
    refine ⟨r, hr, hnone, fun c hc => ?_⟩
    obtain ⟨hmem, hsize, hbest⟩ := hsome c hc
    refine ⟨hmem, hsize, fun d hd => ?_⟩
    by_cases hdn : size ≤ (header h.mem d).size
    · simpa using hbest d hd hdn
    · omega
  · refine ⟨_, firstfit_eq hl hfuel, by simp, fun c hc => ?_⟩
    obtain ⟨hsize, l₁, l₂, rfl, hsmall⟩ := List.find?_eq_some_iff_append.1 hc
    exact ⟨l₁, l₂, rfl, by simpa using hsize, fun d hd => by simpa using hsmall d hd⟩

/-- A free list of two chunks, the larger one first. -/
def twoFree : Heap where
  mem := patch (patch (patch (fun _ => 0) 4160 4 (ofInt 48)) 4168 8 (ofNat 4096)) 4096 4 (ofInt 16)
  lo := 4096
  hi := 8192
  freeList := some 4160
  memList := none
  begin := some 4096
  totalSize := 4096
  initialized := true
  m_error := none

theorem searches_twoFree : ∃ best worst first, twoFree.bestfit 2 8 = .ok best ∧
    twoFree.worstfit 2 8 = .ok worst ∧ twoFree.firstfit 2 8 = .ok first ∧
    ∀ c, best = some c → (header twoFree.mem c).size ≤ 16 := by
  have hl : Listed twoFree twoFree.freeList [4160, 4096] :=
    ⟨⟨rfl, by decide +kernel, (by decide +kernel : (header twoFree.mem 4096).next = none)⟩, by decide⟩
  obtain ⟨⟨best, hbest, -, hmin⟩, ⟨worst, hworst, -⟩, first, hfirst, -⟩ :=
    searches hl (by decide) (by decide : [4160, 4096].length ≤ 2) 8
  refine ⟨best, worst, first, hbest, hworst, hfirst, fun c hc => ?_⟩
  have hsize : (header twoFree.mem 4096).size = 16 := by decide +kernel
  have hle := (hmin c hc).2.2 4096 (by simp) (by rw [hsize]; decide)
  rwa [hsize] at hle

end Mem

end OperatingSystems

import OperatingSystems.Mem.Allocator
import Mathlib.Logic.Function.Basic

/-!
# The headers of a heap

As long as the headers at a set of addresses do not overlap, an assignment to a field of one of them
is an update of a function from addresses to headers.

* `Sees h A σ` : the headers at the addresses `A` are apart, in the region, and given by `σ`.
* `Becomes h A τ r` : the code `r` succeeds, makes the headers those of `τ`, and changes no byte outside
  of them.
* `Sees.setSize`, `Sees.setFree`, `Sees.setNext`, `Sees.setPrev` : **the assignments**.
* `Sees.relinkNext`, `Sees.relinkPrev` : what takes a header out of a list.
-/

namespace OperatingSystems

namespace Mem

open Bytes

variable {h : Heap} {m : Bytes} {A : List ℕ} {σ τ ρ : ℕ → Header} {a b x : ℕ} {p q : Option ℕ}

attribute [simp] ok_bind

@[simp] theorem pure_eq_ok {ε α : Type} (x : α) : (pure x : Except ε α) = .ok x := rfl

@[simp] theorem map_ok {ε α β : Type} (x : α) (f : α → β) :
    (Except.ok x : Except ε α).map f = .ok (f x) := rfl

theorem int_eq {x : ℤ} (hx : IsInt x) : int x = .ok x := if_pos hx

/-! ### One header -/

@[simp] theorem ofPtr_toPtr (hp : p ≠ some 0) : ofPtr (toPtr p) = p := by
  cases p with
  | none => rfl
  | some a => exact if_neg fun (h0 : a = 0) => hp (congrArg some h0)

theorem ofPtr_toNat (hp : ∀ a ∈ p, 0 < a ∧ a < 2 ^ 64) (h : EqTo 8 (slice m a) (ofNat (toPtr p))) :
    ofPtr (toNat 8 (slice m a)) = p := by
  have hlt : toPtr p < 256 ^ 8 := by
    cases p with
    | none => exact Nat.pos_of_ne_zero (by decide)
    | some x => exact (hp x rfl).2.trans_eq (by norm_num)
  rw [toNat_congr h, toNat_ofNat, Nat.mod_eq_of_lt hlt, ofPtr_toPtr]
  rintro rfl
  exact absurd (hp 0 rfl).1 (Nat.lt_irrefl 0)

/-- Pointers into the region do not wrap. -/
theorem ptrAdd_eq {n : ℕ} {z : ℤ} (hz : z = n) (hpos : 0 < a + n) (hlt : a + n < 2 ^ 64) :
    ptrAdd (some a) z = some (a + n) := by
  have hmod : ((a : ℤ) + n) % 2 ^ 64 = ((a + n : ℕ) : ℤ) := by omega
  rw [ptrAdd, hz, show (toPtr (some a) : ℤ) = a from rfl, hmod, Int.toNat_natCast, ofPtr,
    if_neg (by omega)]

/-- A write elsewhere does not change an `int`. -/
theorem toInt_patch {y n z : ℕ} {d : Bytes} (hd : z + 4 ≤ y ∨ y + n ≤ z) :
    toInt (slice (patch m y n d) z) = toInt (slice m z) :=
  toInt_congr (slice_patch_of_disjoint (by omega))

/-- A write elsewhere does not change a pointer. -/
theorem toNat_patch {y n z : ℕ} {d : Bytes} (hd : z + 8 ≤ y ∨ y + n ≤ z) :
    toNat 8 (slice (patch m y n d) z) = toNat 8 (slice m z) :=
  toNat_congr (slice_patch_of_disjoint (by omega))

/-- A write elsewhere does not change a header. -/
theorem header_patch {y n : ℕ} {d : Bytes} (hd : y + n ≤ a ∨ a + 24 ≤ y) :
    header (patch m y n d) a = header m a := by
  unfold header
  simp (disch := omega) only [toInt_patch, toNat_patch]

theorem header_setSize {y : ℤ} (hy : IsInt y) :
    header (patch m a 4 (ofInt y)) a = { header m a with size := y } := by
  unfold header
  rw [toInt_congr (slice_patch m a 4 (ofInt y)), toInt_ofInt hy]
  simp (disch := omega) only [toInt_patch, toNat_patch]

theorem header_setFree {y : ℤ} (hy : IsInt y) :
    header (patch m (a + 4) 4 (ofInt y)) a = { header m a with free := y } := by
  unfold header
  rw [toInt_congr (slice_patch m (a + 4) 4 (ofInt y)), toInt_ofInt hy]
  simp (disch := omega) only [toInt_patch, toNat_patch]

theorem header_setNext (hq : ∀ a ∈ q, 0 < a ∧ a < 2 ^ 64) :
    header (patch m (a + 8) 8 (ofNat (toPtr q))) a = { header m a with next := q } := by
  unfold header
  rw [ofPtr_toNat hq (slice_patch m (a + 8) 8 _)]
  simp (disch := omega) only [toInt_patch, toNat_patch]

theorem header_setPrev (hq : ∀ a ∈ q, 0 < a ∧ a < 2 ^ 64) :
    header (patch m (a + 16) 8 (ofNat (toPtr q))) a = { header m a with prev := q } := by
  unfold header
  rw [ofPtr_toNat hq (slice_patch m (a + 16) 8 _)]
  simp (disch := omega) only [toInt_patch, toNat_patch]

/-! ### Many headers -/

/-- The headers at the addresses `A` do not overlap, lie in the region, and are those of `σ`. -/
structure Sees (h : Heap) (A : List ℕ) (σ : ℕ → Header) : Prop where
  header : ∀ a ∈ A, Mem.header h.mem a = σ a
  within : ∀ a ∈ A, 0 < a ∧ h.lo ≤ a ∧ a + 24 ≤ h.hi
  apart : ∀ a ∈ A, ∀ b ∈ A, a ≠ b → a + 24 ≤ b ∨ b + 24 ≤ a
  top : h.hi ≤ 2 ^ 64

/-- `r` succeeds; it makes the headers at `A` those of `τ` and changes nothing else. -/
def Becomes (h : Heap) (A : List ℕ) (τ : ℕ → Header) (r : Except Stop Heap) : Prop :=
  ∃ m, r = .ok { h with mem := m } ∧ Sees { h with mem := m } A τ ∧
    ∀ i, (∀ a ∈ A, i < a ∨ a + 24 ≤ i) → m i = h.mem i

theorem Sees.lt_top (hs : Sees h A σ) (hp : ∀ b ∈ p, b ∈ A) : ∀ a ∈ p, 0 < a ∧ a < 2 ^ 64 := by
  intro a ha
  have hw := hs.within a (hp a ha)
  have ht := hs.top
  omega

theorem Sees.congr (hs : Sees h A σ) (hτ : ∀ a ∈ A, σ a = τ a) : Sees h A τ :=
  ⟨fun a ha => (hs.header a ha).trans (hτ a ha), hs.within, hs.apart, hs.top⟩

theorem Becomes.congr {r : Except Stop Heap} (hr : Becomes h A τ r) (hτ : ∀ a ∈ A, τ a = ρ a) :
    Becomes h A ρ r := by
  obtain ⟨m, hm, hs, hframe⟩ := hr
  exact ⟨m, hm, hs.congr hτ, hframe⟩

/-- Nothing is done. -/
theorem Sees.becomes (hs : Sees h A σ) : Becomes h A σ (.ok h) := ⟨h.mem, rfl, hs, fun _ _ => rfl⟩

/-- **One after the other**; the second one may change other variables of the heap. -/
theorem Becomes.bind {k : Heap} {r : Except Stop Heap} {f : Heap → Except Stop Heap}
    (hr : Becomes h A τ r) (hk : k.mem = h.mem) (hf : ∀ m, Sees { h with mem := m } A τ →
      Becomes { k with mem := m } A ρ (f { h with mem := m })) : Becomes k A ρ (r >>= f) := by
  obtain ⟨m, rfl, hs, hframe⟩ := hr
  obtain ⟨m', hm', hs', hframe'⟩ := hf m hs
  refine ⟨m', hm', hs', fun i hi => ?_⟩
  rw [hframe' i hi, hk]
  exact hframe i hi

/-- An access to a field. -/
theorem Sees.access (hs : Sees h A σ) (ha : a ∈ A) {off n : ℕ} (hoff : off + n ≤ 24) :
    h.access (some a) off n = .ok (a + off) := by
  have hw := hs.within a ha
  exact if_pos ⟨by omega, by omega⟩

theorem Sees.size (hs : Sees h A σ) (ha : a ∈ A) : h.size (some a) = .ok (σ a).size := by
  rw [Heap.size, hs.access ha (by omega), ← hs.header a ha]
  simp only [map_ok, Mem.header, Nat.add_zero]

theorem Sees.free (hs : Sees h A σ) (ha : a ∈ A) : h.free (some a) = .ok (σ a).free := by
  rw [Heap.free, hs.access ha (by omega), ← hs.header a ha]
  simp only [map_ok, Mem.header]

theorem Sees.next (hs : Sees h A σ) (ha : a ∈ A) : h.next (some a) = .ok (σ a).next := by
  rw [Heap.next, hs.access ha (by omega), ← hs.header a ha]
  simp only [map_ok, Mem.header]

theorem Sees.prev (hs : Sees h A σ) (ha : a ∈ A) : h.prev (some a) = .ok (σ a).prev := by
  rw [Heap.prev, hs.access ha (by omega), ← hs.header a ha]
  simp only [map_ok, Mem.header]

/-- **An assignment** to the header at `a`. -/
theorem Sees.write (hs : Sees h A σ) (ha : a ∈ A) {off n : ℕ} (hoff : off + n ≤ 24) {d : Bytes}
    {y : Header} (hy : Mem.header (patch h.mem (a + off) n d) a = y) :
    Becomes h A (Function.update σ a y) (h.write (some a) off n d) := by
  refine ⟨patch h.mem (a + off) n d, ?_, ⟨fun b hb => ?_, hs.within, hs.apart, hs.top⟩,
    fun i hi => ?_⟩
  · rw [Heap.write, hs.access ha hoff, map_ok]
  · by_cases hba : b = a
    · rw [hba, Function.update_self]
      exact hy
    · have hap := hs.apart b hb a ha hba
      rw [Function.update_of_ne hba, header_patch (by omega)]
      exact hs.header b hb
  · obtain hlt | hle := hi a ha
    · exact patch_of_lt (by omega)
    · exact patch_of_le (by omega)

theorem Sees.setSize (hs : Sees h A σ) (ha : a ∈ A) {y : ℤ} (hy : IsInt y) :
    Becomes h A (Function.update σ a { σ a with size := y }) (h.setSize (some a) y) := by
  refine hs.write ha (by omega) ?_
  rw [Nat.add_zero, header_setSize hy, hs.header a ha]

theorem Sees.setFree (hs : Sees h A σ) (ha : a ∈ A) {y : ℤ} (hy : IsInt y) :
    Becomes h A (Function.update σ a { σ a with free := y }) (h.setFree (some a) y) := by
  refine hs.write ha (by omega) ?_
  rw [header_setFree hy, hs.header a ha]

theorem Sees.setNext (hs : Sees h A σ) (ha : a ∈ A) (hq : ∀ b ∈ q, b ∈ A) :
    Becomes h A (Function.update σ a { σ a with next := q }) (h.setNext (some a) q) := by
  refine hs.write ha (by omega) ?_
  rw [header_setNext (hs.lt_top hq), hs.header a ha]

theorem Sees.setPrev (hs : Sees h A σ) (ha : a ∈ A) (hq : ∀ b ∈ q, b ∈ A) :
    Becomes h A (Function.update σ a { σ a with prev := q }) (h.setPrev (some a) q) := by
  refine hs.write ha (by omega) ?_
  rw [header_setPrev (hs.lt_top hq), hs.header a ha]

theorem Sees.setHeader (hs : Sees h A σ) (ha : a ∈ A) {y : Header} (hsize : IsInt y.size)
    (hfree : IsInt y.free) (hnext : ∀ b ∈ y.next, b ∈ A) (hprev : ∀ b ∈ y.prev, b ∈ A) :
    Becomes h A (Function.update σ a y) (h.setHeader (some a) y) := by
  refine (hs.setSize ha hsize).bind rfl fun m hs => ?_
  refine (hs.setFree ha hfree).bind rfl fun m hs => ?_
  refine (hs.setNext ha hnext).bind rfl fun m hs => ?_
  refine (hs.setPrev ha hprev).congr fun b hb => ?_
  by_cases hba : b = a
  · simp [hba]
  · simp [hba]

/-- What follows a header is made to point to what precedes it. -/
theorem Sees.relinkNext (hs : Sees h A σ) (hx : x ∈ A) (hn : ∀ b ∈ (σ x).next, b ∈ A)
    (hp : ∀ b ∈ (σ x).prev, b ∈ A) :
    Becomes h A (fun y => if (σ x).next = some y then { σ y with prev := (σ x).prev } else σ y)
      (h.relinkNext (some x)) := by
  rw [Heap.relinkNext, hs.next hx, hs.prev hx]
  cases hnext : (σ x).next with
  | none => exact hs.becomes.congr fun y _ => (if_neg (by simp)).symm
  | some n =>
    refine (hs.setPrev (hn n hnext) hp).congr fun y _ => ?_
    by_cases hy : n = y
    · simp [hy]
    · simp [hy, Ne.symm hy]

/-- What precedes a header is made to point to what follows it. -/
theorem Sees.relinkPrev (hs : Sees h A σ) (hx : x ∈ A) (hn : ∀ b ∈ (σ x).next, b ∈ A)
    (hp : ∀ b ∈ (σ x).prev, b ∈ A) :
    Becomes h A (fun y => if (σ x).prev = some y then { σ y with next := (σ x).next } else σ y)
      (h.relinkPrev (some x)) := by
  rw [Heap.relinkPrev, hs.prev hx, hs.next hx]
  cases hprev : (σ x).prev with
  | none => exact hs.becomes.congr fun y _ => (if_neg (by simp)).symm
  | some n =>
    refine (hs.setNext (hp n hprev) hn).congr fun y _ => ?_
    by_cases hy : n = y
    · simp [hy]
    · simp [hy, Ne.symm hy]

/-- The headers after the one at `x` has been taken out of its list. -/
def unlinked (σ : ℕ → Header) (x y : ℕ) : Header :=
  { σ y with
    next := if (σ x).prev = some y then (σ x).next else (σ y).next
    prev := if (σ x).next = some y then (σ x).prev else (σ y).prev }

theorem unlinked_self (hn : (σ x).next ≠ some x) (hp : (σ x).prev ≠ some x) :
    unlinked σ x x = σ x := by
  rw [unlinked, if_neg hn, if_neg hp]

/-- `Mem_Alloc` takes a header out of its list. -/
theorem Sees.unlink (hs : Sees h A σ) (hx : x ∈ A) (hn : ∀ b ∈ (σ x).next, b ∈ A ∧ b ≠ x)
    (hp : ∀ b ∈ (σ x).prev, b ∈ A ∧ b ≠ x) : Becomes h A (unlinked σ x)
      (h.relinkNext (some x) >>= fun h => h.relinkPrev (some x)) := by
  have hnx : (σ x).next ≠ some x := fun hx' => (hn x hx').2 rfl
  refine (hs.relinkNext hx (fun b hb => (hn b hb).1) fun b hb => (hp b hb).1).bind rfl fun m hs => ?_
  have hσ : (if (σ x).next = some x then { σ x with prev := (σ x).prev } else σ x) = σ x := if_neg hnx
  refine (hs.relinkPrev hx ?_ ?_).congr fun y _ => ?_
  · rw [hσ]
    exact fun b hb => (hn b hb).1
  · rw [hσ]
    exact fun b hb => (hp b hb).1
  · rw [hσ, unlinked]
    by_cases hny : (σ x).next = some y <;> by_cases hpy : (σ x).prev = some y <;> simp [hny, hpy]

/-- `Mem_Free` takes a header out of its list. -/
theorem Sees.unlink' (hs : Sees h A σ) (hx : x ∈ A) (hn : ∀ b ∈ (σ x).next, b ∈ A ∧ b ≠ x)
    (hp : ∀ b ∈ (σ x).prev, b ∈ A ∧ b ≠ x) : Becomes h A (unlinked σ x)
      (h.relinkPrev (some x) >>= fun h => h.relinkNext (some x)) := by
  have hpx : (σ x).prev ≠ some x := fun hx' => (hp x hx').2 rfl
  refine (hs.relinkPrev hx (fun b hb => (hn b hb).1) fun b hb => (hp b hb).1).bind rfl fun m hs => ?_
  have hσ : (if (σ x).prev = some x then { σ x with next := (σ x).next } else σ x) = σ x := if_neg hpx
  refine (hs.relinkNext hx ?_ ?_).congr fun y _ => ?_
  · rw [hσ]
    exact fun b hb => (hn b hb).1
  · rw [hσ]
    exact fun b hb => (hp b hb).1
  · rw [hσ, unlinked]
    by_cases hny : (σ x).next = some y <;> by_cases hpy : (σ x).prev = some y <;> simp [hny, hpy]

/-! ### The parts of `Mem_Alloc` -/

/-- Other variables of the heap do not matter. -/
theorem Sees.of_heap {k : Heap} (hs : Sees h A σ) (hm : k.mem = h.mem) (hlo : k.lo = h.lo)
    (hhi : k.hi = h.hi) : Sees k A σ := by
  refine ⟨?_, ?_, hs.apart, ?_⟩
  · rw [hm]
    exact hs.header
  · rw [hlo, hhi]
    exact hs.within
  · rw [hhi]
    exact hs.top

theorem Sees.pointBack (hs : Sees h A σ) (hp : ∀ b ∈ p, b ∈ A) (hq : ∀ b ∈ q, b ∈ A) :
    Becomes h A (fun y => if p = some y then { σ y with prev := q } else σ y) (h.pointBack p q) := by
  unfold Heap.pointBack
  cases p with
  | none => exact hs.becomes.congr fun y _ => (if_neg (by simp)).symm
  | some b =>
    refine (hs.setPrev (hp b rfl) hq).congr fun y _ => ?_
    by_cases hy : b = y
    · simp [hy]
    · simp [hy, Ne.symm hy]

/-- The headers after the one at `x` has been put in front of the list that begins at `q`, as a header
in use. -/
def pushed (σ : ℕ → Header) (x : ℕ) (q : Option ℕ) (y : ℕ) : Header :=
  if y = x then ⟨(σ x).size, 0, q, none⟩
  else { σ y with prev := if q = some y then some x else (σ y).prev }

/-- **A header is moved** from the free list to the other one. -/
theorem Sees.move (hs : Sees h A σ) (hx : x ∈ A) (hn : ∀ b ∈ (σ x).next, b ∈ A ∧ b ≠ x)
    (hp : ∀ b ∈ (σ x).prev, b ∈ A ∧ b ≠ x) (hq : ∀ b ∈ h.memList, b ∈ A ∧ b ≠ x) :
    Becomes { h with
        freeList := if some x = h.freeList then (σ x).next else h.freeList
        memList := some x } A (pushed (unlinked σ x) x h.memList) (h.move (some x)) := by
  have hself : unlinked σ x x = σ x :=
    unlinked_self (fun hx' => (hn x hx').2 rfl) fun hx' => (hp x hx').2 rfl
  unfold Heap.move
  rw [← bind_assoc]
  -- statement by statement: each is a lemma about the headers that it changes
  refine (hs.unlink hx hn hp).bind rfl fun m hs => ?_
  have hfree : Heap.dropFree { h with mem := m } (some x) = .ok { h with
      mem := m, freeList := if some x = h.freeList then (σ x).next else h.freeList } := by
    unfold Heap.dropFree
    dsimp only
    split_ifs
    · rw [hs.next hx, hself, map_ok]
    · rfl
  rw [hfree, ok_bind]
  have hs' := hs.of_heap (k := { h with
    mem := m, freeList := if some x = h.freeList then (σ x).next else h.freeList }) rfl rfl rfl
  refine (hs'.setNext hx fun b hb => (hq b hb).1).bind rfl fun m hs => ?_
  refine (hs.pointBack (q := some x) (fun b hb => (hq b hb).1) fun b hb => ?_).bind rfl fun m hs => ?_
  · obtain rfl := Option.some.inj hb
    exact hx
  refine (hs.setPrev hx (q := none) (by simp)).bind rfl fun m hs => ?_
  have hs' := hs.of_heap (k := { h with
    mem := m
    freeList := if some x = h.freeList then (σ x).next else h.freeList
    memList := some x }) rfl rfl rfl
  refine (hs'.setFree hx (y := 0) (by decide)).congr fun y _ => ?_
  have hqx : h.memList ≠ some x := fun hx' => (hq x hx').2 rfl
  by_cases hyx : y = x
  · subst hyx
    simp [pushed, hqx, hself]
  · by_cases hqy : h.memList = some y
    · simp [pushed, hyx, hqy]
    · simp [pushed, hyx, hqy]

/-- The headers after the one at `x` has been cut down to `n` bytes, and a free one of `rest` bytes at
`y` has been put in front of the list that begins at `q`. -/
def carved (σ : ℕ → Header) (x y : ℕ) (n rest : ℤ) (q : Option ℕ) (z : ℕ) : Header :=
  if z = y then ⟨rest, 1, q, none⟩
  else { σ z with
    size := if z = x then n else (σ z).size
    prev := if q = some z then some y else (σ z).prev }

/-- **A chunk is split**: `y` is the address of the new header. -/
theorem Sees.split {y : ℕ} {n rest : ℤ} (hs : Sees h A σ) (hx : x ∈ A) (hy : y ∈ A) (hyx : y ≠ x)
    (hn : 0 ≤ n) (hpos : 0 < rest) (hsize : (σ x).size = n + sizeofHeader + rest)
    (hint : IsInt (σ x).size)
    (hadd : ptrAdd (some x) (n + sizeofHeader) = some y) (hq : ∀ b ∈ h.freeList, b ∈ A ∧ b ≠ y) :
    Becomes { h with freeList := some y } A (carved σ x y n rest h.freeList)
      (h.split (some x) n) := by
  have hn' : IsInt n := by unfold IsInt at hint ⊢; omega
  have hrest : IsInt rest := by unfold IsInt at hint ⊢; omega
  have hsub : int ((σ x).size - n) = .ok (sizeofHeader + rest) := by
    rw [hsize, show n + sizeofHeader + rest - n = sizeofHeader + rest by ring]
    exact int_eq (by unfold IsInt at hint ⊢; omega)
  have hsub' : int ((sizeofHeader : ℤ) + rest - sizeofHeader) = .ok rest := by
    rw [show (sizeofHeader : ℤ) + rest - sizeofHeader = rest by ring]
    exact int_eq hrest
  unfold Heap.split
  rw [hs.size hx, ok_bind, hsub, ok_bind, hsub', ok_bind, if_pos hpos, hadd]
  refine (hs.setHeader hy hrest (show IsInt 1 by decide) (by simp) (by simp)).bind rfl fun m hs => ?_
  refine (hs.setNext hy fun b hb => (hq b hb).1).bind rfl fun m hs => ?_
  refine (hs.setPrev hy (q := none) (by simp)).bind rfl fun m hs => ?_
  refine (hs.pointBack (q := some y) (fun b hb => (hq b hb).1) fun b hb => ?_).bind rfl fun m hs => ?_
  · obtain rfl := Option.some.inj hb
    exact hy
  have hs' := hs.of_heap (k := { h with mem := m, freeList := some y }) rfl rfl rfl
  refine (hs'.setSize hx hn').congr fun z _ => ?_
  have hqy : h.freeList ≠ some y := fun hy' => (hq y hy').2 rfl
  by_cases hzy : z = y
  · subst hzy
    simp [carved, hqy, hyx]
  · by_cases hzx : z = x
    · subst hzx
      by_cases hqz : h.freeList = some z <;> simp [carved, hzy, hqz]
    · by_cases hqz : h.freeList = some z <;> simp [carved, hzy, hzx, hqz]

end Mem

end OperatingSystems

import OperatingSystems.Bio.Invariant
import Mathlib.Data.List.FinRange
import Mathlib.Data.Fintype.Card

/-!
# The list of buffers

* `Listed` : the list holds every buffer once, and no two buffers are for the same sector.
* `Listed.lookup`, `Listed.victim` : what the two loops of `bget` find.
* `Listed.next`, `listed_binit` : **each step keeps it**, and `binit` makes it.
* `Sound`, `sound_of_run` : the invariants together, in every state that is reached.
* `stamp`, `Recent` : a ghost, the time of the last `brelse` of each buffer, by which the list is sorted.
* `victim_of_run` : **the buffer that `bget` recycles is the one that was released least recently**, among
  those that are not busy.
-/

namespace OperatingSystems

namespace Bio

open Links

variable {P : Type} [DecidableEq P] {n : ℕ} {havedisk1 : Bool} {s s' : State P n} {lbl : Label P n}
  {p : P} {b c : Fin n} {l l₁ l₂ : List (Fin n)} {dev sector : ℕ}

/-- The list of the buffers is `l`. -/
structure InOrder (s : State P n) (l : List (Fin n)) : Prop where
  ring : Ring s.next s.prev none (l.map some)
  all : ∀ b, b ∈ l

/-- **The list holds every buffer once**, and no two buffers are for the same sector. -/
structure Listed (s : State P n) : Prop where
  list : ∃ l, InOrder s l
  unique : ∀ b c, (s.buf b).dev ≠ 2 ^ 32 - 1 → (s.buf b).dev = (s.buf c).dev →
    (s.buf b).sector = (s.buf c).sector → b = c

/-! ### The loops of `bget` -/

namespace InOrder

omit [DecidableEq P] in
theorem nodup (h : InOrder s l) : l.Nodup :=
  (List.nodup_cons.1 h.ring.nodup).2.of_map some

omit [DecidableEq P] in
theorem length (h : InOrder s l) : (l.map some).length < n + 1 := by
  have hle := List.Nodup.length_le_card h.nodup
  rw [Fintype.card_fin] at hle
  rw [List.length_map]
  omega

omit [DecidableEq P] in
/-- The first loop finds the first buffer for the sector. -/
theorem lookup (h : InOrder s l) (dev sector : ℕ) :
    s.lookup dev sector = l.find? fun b => s.caches dev sector (some b) := by
  rw [State.lookup, h.ring.walk_next (s.caches dev sector) h.length, Option.join_some, List.find?_map]
  change (Option.map some (l.find? fun b => s.caches dev sector (some b))).getD none = _
  cases l.find? fun b => s.caches dev sector (some b) <;> rfl

omit [DecidableEq P] in
/-- The second loop finds the last buffer that is not busy. -/
theorem victim (h : InOrder s l) : s.victim = l.reverse.find? fun b => s.unused (some b) := by
  rw [State.victim, h.ring.walk_prev s.unused h.length, Option.join_some, ← List.map_reverse,
    List.find?_map]
  change (Option.map some (l.reverse.find? fun b => s.unused (some b))).getD none = _
  cases l.reverse.find? fun b => s.unused (some b) <;> rfl

/-- **`brelse` moves a buffer to the front.** -/
theorem brelse (h : InOrder s (l₁ ++ b :: l₂)) (p : P) : InOrder (s.brelse p b) (b :: (l₁ ++ l₂)) := by
  have hring := h.ring
  rw [List.map_append, List.map_cons] at hring
  have hout := hring.unlink
  rw [← List.map_append] at hout
  have hnotMem : some b ∉ none :: (l₁ ++ l₂).map some := by
    have hnodup := h.nodup
    simp only [List.nodup_append, List.nodup_cons, List.mem_cons, forall_eq_or_imp] at hnodup
    simp only [List.mem_cons, List.mem_map, List.mem_append, Option.some.injEq, exists_eq_right]
    rintro (hb | hb | hb)
    · cases hb
    · exact (hnodup.2.2 b hb).1 rfl
    · exact hnodup.2.1.1 hb
  have hback : Function.update s.prev (s.next (some b)) (s.prev (some b)) (some b) = s.prev (some b) :=
    Function.update_of_ne hring.next_ne.symm ..
  refine ⟨?_, fun c => ?_⟩
  · have hpush := hout.push hnotMem
    simp only [State.brelse, hback]
    rw [Function.update_of_ne (by simp : (none : Node n) ≠ some b)]
    exact hpush
  · have hc := h.all c
    simp only [List.mem_append, List.mem_cons] at hc ⊢
    tauto

omit [DecidableEq P] in
/-- A step that does not change the list. -/
theorem frame (h : InOrder s l) (hnext : s'.next = s.next) (hprev : s'.prev = s.prev) : InOrder s' l :=
  ⟨by rw [hnext, hprev]; exact h.ring, h.all⟩

theorem ideWait (h : InOrder s l) (p : P) (b : Fin n) : InOrder (s.ideWait p b) l := by
  unfold State.ideWait
  split_ifs <;> exact h.frame rfl rfl

/-- **Only `brelse` changes the list**, and moves its buffer to the front. -/
theorem next (h : InOrder s l) (hs : Step s lbl s') :
    (InOrder s' l ∧ ∀ p b, lbl = .advance p → s.pc p ≠ .brelse b) ∨
      ∃ p b l₁ l₂, lbl = .advance p ∧ s.pc p = .brelse b ∧ l = l₁ ++ b :: l₂ ∧
        InOrder s' (b :: (l₁ ++ l₂)) := by
  cases hs with
  | @brelse p b hpc =>
    obtain ⟨l₁, l₂, rfl⟩ := List.append_of_mem (h.all b)
    exact .inr ⟨p, b, l₁, l₂, rfl, hpc, rfl, h.brelse p⟩
  | start =>
    refine .inl ⟨ideWait ?_ .., by grind⟩
    exact h.frame rfl rfl
  | queue =>
    refine .inl ⟨ideWait ?_ .., by grind⟩
    exact h.frame rfl rfl
  | woken => exact .inl ⟨h.ideWait .., by grind⟩
  | _ => exact .inl ⟨h.frame rfl rfl, by grind⟩

end InOrder

/-! ### Steps -/

namespace Listed

omit [DecidableEq P] in
theorem busy_of_victim (h : Listed s) (hv : s.victim = some b) : (s.buf b).busy = false := by
  obtain ⟨l, hl⟩ := h.list
  rw [hl.victim] at hv
  simpa [State.unused] using List.find?_some hv

omit [DecidableEq P] in
theorem caches_of_lookup (h : Listed s) (hb : s.lookup dev sector = some b) :
    (s.buf b).dev = dev ∧ (s.buf b).sector = sector := by
  obtain ⟨l, hl⟩ := h.list
  rw [hl.lookup] at hb
  simpa [State.caches] using List.find?_some hb

omit [DecidableEq P] in
theorem notCaches_of_lookup (h : Listed s) (hnone : s.lookup dev sector = none) (b : Fin n) :
    ¬ ((s.buf b).dev = dev ∧ (s.buf b).sector = sector) := by
  obtain ⟨l, hl⟩ := h.list
  rw [hl.lookup] at hnone
  simpa [State.caches] using List.find?_eq_none.1 hnone b (hl.all b)

omit [DecidableEq P] in
/-- The buffers stay for their sectors. -/
theorem unique_of_eq (h : Listed s)
    (hbuf : ∀ b, (s'.buf b).dev = (s.buf b).dev ∧ (s'.buf b).sector = (s.buf b).sector) (b c : Fin n)
    (hdev : (s'.buf b).dev ≠ 2 ^ 32 - 1) (heq : (s'.buf b).dev = (s'.buf c).dev)
    (hsector : (s'.buf b).sector = (s'.buf c).sector) : b = c := by
  rw [(hbuf b).1] at hdev heq
  rw [(hbuf c).1] at heq
  rw [(hbuf b).2, (hbuf c).2] at hsector
  exact h.unique b c hdev heq hsector

omit [DecidableEq P] in
theorem setBuf_same {x : Buf} (hx : x.dev = (s.buf b).dev ∧ x.sector = (s.buf b).sector)
    (c : Fin n) : ((s.setBuf b x).buf c).dev = (s.buf c).dev ∧
      ((s.setBuf b x).buf c).sector = (s.buf c).sector := by
  simp only [State.setBuf, Function.update_apply]
  split_ifs with hcb
  · exact hcb ▸ hx
  · exact ⟨rfl, rfl⟩

theorem ideWait_buf (s : State P n) (p : P) (b c : Fin n) : (s.ideWait p b).buf c = s.buf c := by
  unfold State.ideWait
  split_ifs <;> rfl

/-- **Each step keeps it.** -/
theorem next (h : Listed s) (hs : Step s lbl s') : Listed s' := by
  constructor
  · obtain ⟨l, hl⟩ := h.list
    obtain ⟨hl', -⟩ | ⟨p, b, l₁, l₂, -, -, -, hl'⟩ := hl.next hs
    · exact ⟨_, hl'⟩
    · exact ⟨_, hl'⟩
  · cases hs with
    | @store p b data => exact h.unique_of_eq (setBuf_same (x := { s.buf b with data := data }) ⟨rfl, rfl⟩)
    | @bwrite p b => exact h.unique_of_eq (setBuf_same (x := { s.buf b with dirty := true }) ⟨rfl, rfl⟩)
    | @hit p b => exact h.unique_of_eq (setBuf_same (x := { s.buf b with busy := true }) ⟨rfl, rfl⟩)
    | @recycle p b dev sector hpc hl =>
      -- no other buffer is for the sector
      have hnew := h.notCaches_of_lookup hl
      intro c d hdev heq hsector
      have hold := h.unique c d
      simp only [State.setBuf, State.goto, Function.update_apply] at hdev heq hsector
      grind
    | start => exact h.unique_of_eq fun c => by rw [ideWait_buf]; exact ⟨rfl, rfl⟩
    | queue => exact h.unique_of_eq fun c => by rw [ideWait_buf]; exact ⟨rfl, rfl⟩
    | woken => exact h.unique_of_eq fun c => by rw [ideWait_buf]; exact ⟨rfl, rfl⟩
    | @brelse p b => exact h.unique_of_eq (setBuf_same (x := { s.buf b with busy := false }) ⟨rfl, rfl⟩)
    | @ideintr b bs data err =>
      exact h.unique_of_eq (setBuf_same
        (x := { State.insl (s.buf b) data err with valid := true, dirty := false })
        ⟨State.insl_dev .., State.insl_sector ..⟩)
    | _ => exact h.unique

end Listed

/-! ### The beginning -/

theorem ring_linkFirst {next prev : Node n → Node n} (h : Ring next prev none (l.map some)) (hb : b ∉ l) :
    Ring (linkFirst next prev b).1 (linkFirst next prev b).2 none ((b :: l).map some) := by
  have hpush := h.push (x := some b) (by simpa using hb)
  simp only [linkFirst]
  rw [Function.update_of_ne (by simp : (none : Node n) ≠ some b)]
  exact hpush

theorem ring_linkAll {next prev : Node n → Node n} {bs : List (Fin n)}
    (h : Ring next prev none (l.map some)) (hnodup : (bs.reverse ++ l).Nodup) :
    Ring (linkAll bs next prev).1 (linkAll bs next prev).2 none ((bs.reverse ++ l).map some) := by
  induction bs generalizing next prev l with
  | nil => exact h
  | cons b bs ih =>
    rw [List.reverse_cons, List.append_assoc, List.singleton_append] at hnodup ⊢
    have hb : b ∉ l := (List.nodup_cons.1 (List.nodup_append'.1 hnodup).2.1).1
    exact ih (ring_linkFirst h hb) hnodup

omit [DecidableEq P] in
theorem inOrder_binit (disk : ℕ → ℕ → Bytes) :
    InOrder (binit P n disk) (List.finRange n).reverse where
  ring := by
    have hempty : Ring (fun _ : Node n => none) (fun _ => none) none ([].map some) :=
      ⟨rfl, rfl, List.nodup_singleton _⟩
    have hall := ring_linkAll hempty
      (by rw [List.append_nil]; exact List.nodup_reverse.2 (List.nodup_finRange n))
    rwa [List.append_nil] at hall
  all b := List.mem_reverse.2 (List.mem_finRange b)

omit [DecidableEq P] in
theorem listed_binit (disk : ℕ → ℕ → Bytes) : Listed (binit P n disk) where
  list := ⟨_, inOrder_binit disk⟩
  unique _ _ hdev := absurd rfl hdev

/-! ### The invariants together -/

/-- The invariants of the cache and the driver -/
structure Sound (s : State P n) : Prop where
  listed : Listed s
  locked : Locked s
  queued : Queued s
  clean : Clean s

theorem Sound.next (h : Sound s) (hs : Step s lbl s') : Sound s' := by
  have hvictim : ∀ b, s.victim = some b → (s.buf b).busy = false := fun b => h.listed.busy_of_victim
  exact ⟨h.listed.next hs, h.locked.next hvictim hs, h.queued.next h.locked h.clean hvictim hs,
    h.clean.next h.locked h.queued hvictim hs⟩

omit [DecidableEq P] in
theorem sound_binit (disk : ℕ → ℕ → Bytes) : Sound (binit P n disk) where
  listed := listed_binit disk
  locked := by constructor <;> simp [binit, Pc.uses]
  queued := by constructor <;> simp [binit]
  clean := by constructor <;> simp [binit]

theorem sound_of_run {disk : ℕ → ℕ → Bytes} {ls : List (Label P n)}
    (h : (bio P n havedisk1).run (binit P n disk) ls = some s) : Sound s :=
  Machine.run_invariant h (sound_binit disk) fun _ _ _ hs hx => hs.next (step_of_next hx)

/-! ### The least recently used buffer -/

/-- A ghost: how many buffers were released so far, and when each was released last, or 0 -/
structure Stamps (n : ℕ) where
  time : ℕ
  released : Fin n → ℕ

/-- The ghost in the beginning -/
def Stamps.zero (n : ℕ) : Stamps n := ⟨0, fun _ => 0⟩

/-- `brelse` sets the time of its buffer. -/
def stamp (s : State P n) (lbl : Label P n) (g : Stamps n) : Stamps n :=
  match lbl with
  | .advance p =>
    match s.pc p with
    | .brelse b => ⟨g.time + 1, Function.update g.released b (g.time + 1)⟩
    | _ => g
  | _ => g

/-- `c` was released before `b`, or neither was. -/
def Stamps.Before (g : Stamps n) (c b : Fin n) : Prop :=
  g.released c < g.released b ∨ g.released c = 0 ∧ g.released b = 0

/-- **The list is sorted by the times.** -/
structure Recent (s : State P n) (g : Stamps n) : Prop where
  sorted : ∃ l, InOrder s l ∧ l.Pairwise fun b c => g.Before c b
  le : ∀ b, g.released b ≤ g.time

theorem Recent.next {g : Stamps n} (h : Recent s g) (hs : Step s lbl s') : Recent s' (stamp s lbl g) := by
  obtain ⟨l, hl, hsorted⟩ := h.sorted
  obtain ⟨hl', hother⟩ | ⟨p, b, l₁, l₂, rfl, hpc, rfl, hl'⟩ := hl.next hs
  · have hsame : stamp s lbl g = g := by
      unfold stamp
      split
      · split
        next hpc => exact absurd hpc (hother _ _ rfl)
        · rfl
      · rfl
    rw [hsame]
    exact ⟨⟨l, hl', hsorted⟩, h.le⟩
  · have hstamp : stamp s (.advance p) g =
        ⟨g.time + 1, Function.update g.released b (g.time + 1)⟩ := by
      simp only [stamp, hpc]
    have hnodup := hl'.nodup
    rw [hstamp]
    refine ⟨⟨_, hl', List.pairwise_cons.2 ⟨fun c hc => ?_, ?_⟩⟩, fun c => ?_⟩
    · -- the buffer in front was released last
      have hcb : c ≠ b := fun heq => (List.nodup_cons.1 hnodup).1 (heq ▸ hc)
      have hle := h.le c
      simp only [Stamps.Before, Function.update_self, Function.update_of_ne hcb]
      omega
    · have hrest : (l₁ ++ l₂).Pairwise fun b c => g.Before c b :=
        hsorted.sublist ((List.Sublist.refl l₁).append (List.sublist_cons_self b l₂))
      refine hrest.imp_of_mem fun {c d} hc hd hcd => ?_
      have hcb : c ≠ b := fun heq => (List.nodup_cons.1 hnodup).1 (heq ▸ hc)
      have hdb : d ≠ b := fun heq => (List.nodup_cons.1 hnodup).1 (heq ▸ hd)
      simpa only [Stamps.Before, Function.update_of_ne hcb, Function.update_of_ne hdb] using hcd
    · have hle := h.le c
      simp only [Function.update_apply]
      split_ifs <;> omega

omit [DecidableEq P] in
/-- The buffer that the second loop finds -/
theorem Recent.victim {g : Stamps n} (h : Recent s g) (hv : s.victim = some b) (hc : (s.buf c).busy = false)
    (hne : c ≠ b) : g.Before b c := by
  obtain ⟨l, hl, hsorted⟩ := h.sorted
  rw [hl.victim] at hv
  obtain ⟨-, as, bs, hsplit, has⟩ := List.find?_eq_some_iff_append.1 hv
  -- `c` is before `b` in the list
  have hl' : l = bs.reverse ++ b :: as.reverse := by
    rw [← List.reverse_reverse l, hsplit]
    simp
  rw [hl'] at hsorted
  have hmem : c ∈ bs.reverse := by
    have hall := hl.all c
    rw [hl', List.mem_append, List.mem_cons] at hall
    refine hall.resolve_right (not_or.2 ⟨hne, fun has' => ?_⟩)
    have hused := has c (List.mem_reverse.1 has')
    simp [State.unused, hc] at hused
  exact (List.pairwise_append.1 hsorted).2.2 c hmem b List.mem_cons_self

/-- **The buffer that `bget` returns** is the one for the sector, if there is one, and else the one that was
released least recently among those that are not busy. -/
theorem victim_of_run {disk : ℕ → ℕ → Bytes} {ls : List (Label P n)} {g : Stamps n}
    (h : ((bio P n havedisk1).track stamp).run (binit P n disk, .zero n) ls = some (s, g))
    (hpc : s.pc p = .bget dev sector) (hx : (bio P n havedisk1).next s (.advance p) = some s')
    (hpc' : s'.pc p = .bread b) :
    (s.buf b).busy = false ∧ ((s.buf b).dev = dev ∧ (s.buf b).sector = sector ∨
      (∀ c, ¬ ((s.buf c).dev = dev ∧ (s.buf c).sector = sector)) ∧
        ∀ c, (s.buf c).busy = false → c ≠ b → g.Before b c) := by
  have hinv : Listed s ∧ Recent s g := by
    refine Machine.run_invariant (I := fun x => Listed x.1 ∧ Recent x.1 x.2) h ?_ ?_
    · refine ⟨listed_binit disk, ⟨_, inOrder_binit disk, ?_⟩, fun _ => le_rfl⟩
      exact List.pairwise_of_forall fun _ _ => .inr ⟨rfl, rfl⟩
    · rintro ⟨s, g⟩ lbl ⟨s', g'⟩ ⟨hl, hr⟩ hx
      obtain ⟨hnext, rfl⟩ := Machine.track_next_eq_some.1 hx
      exact ⟨hl.next (step_of_next hnext), hr.next (step_of_next hnext)⟩
  obtain ⟨hl, hr⟩ := hinv
  have hstep := step_of_next hx
  cases hstep with
  | sleep hpc₁ => simp [State.goto] at hpc'
  | hit hpc₁ hlook hbusy =>
    rw [hpc] at hpc₁
    cases hpc₁
    simp only [State.setBuf, State.goto, Function.update_self, Pc.bread.injEq] at hpc'
    subst hpc'
    exact ⟨hbusy, .inl (hl.caches_of_lookup hlook)⟩
  | recycle hpc₁ hlook hv =>
    rw [hpc] at hpc₁
    cases hpc₁
    simp only [State.setBuf, State.goto, Function.update_self, Pc.bread.injEq] at hpc'
    subst hpc'
    exact ⟨hl.busy_of_victim hv, .inr ⟨hl.notCaches_of_lookup hlook, fun c hc hne => hr.victim hv hc hne⟩⟩
  | valid hpc₁ => rw [hpc] at hpc₁; cases hpc₁
  | request hpc₁ => rw [hpc] at hpc₁; cases hpc₁
  | start hpc₁ => rw [hpc] at hpc₁; cases hpc₁
  | queue hpc₁ => rw [hpc] at hpc₁; cases hpc₁
  | woken hpc₁ => rw [hpc] at hpc₁; cases hpc₁
  | brelse hpc₁ => rw [hpc] at hpc₁; cases hpc₁

/-- Both of two buffers are read and released, the second one first, and a third sector is asked for. -/
def reuse (b c : Fin 2) : List (Label Bool 2) :=
  [.bread false 1 5, .advance false, .advance false, .advance false, .drive false, .ideintr,
    .advance false, .bread true 1 6, .advance true, .advance true, .advance true, .drive false, .ideintr,
    .advance true, .brelse true c, .advance true, .brelse false b, .advance false, .bread true 1 7]

theorem victim_of_run_reuse : ∃ x,
    ((bio Bool 2 true).track stamp).run (binit Bool 2 fun _ _ _ => 0, .zero 2) (reuse 0 1) = some x ∧
      x.2.Before 1 0 := by
  obtain ⟨x, hx⟩ : ∃ x,
      ((bio Bool 2 true).track stamp).run (binit Bool 2 fun _ _ _ => 0, .zero 2) (reuse 0 1) = some x :=
    Option.isSome_iff_exists.1 (by decide)
  have hget : x = (((bio Bool 2 true).track stamp).run (binit Bool 2 fun _ _ _ => 0, .zero 2) (reuse 0 1)).get
    (by decide) := by simp [hx]
  have hpc : x.1.pc true = .bget 1 7 := by rw [hget]; decide
  have hfree : (x.1.buf 0).busy = false ∧ (x.1.buf 1).sector = 6 := by rw [hget]; decide
  obtain ⟨s', hs'⟩ : ∃ s', (bio Bool 2 true).next x.1 (.advance true) = some s' :=
    Option.isSome_iff_exists.1 (by rw [hget]; decide)
  have hpc' : s'.pc true = .bread 1 := by
    have hafter : ((((bio Bool 2 true).track stamp).run (binit Bool 2 fun _ _ _ => 0, .zero 2) (reuse 0 1)).bind
        fun x => (bio Bool 2 true).next x.1 (.advance true)).map (·.pc true) = some (.bread 1) := by decide
    simpa [hx, hs'] using hafter
  obtain ⟨-, ⟨-, hsector⟩ | ⟨-, hbefore⟩⟩ := victim_of_run hx hpc hs' hpc'
  · rw [hfree.2] at hsector
    cases hsector
  · exact ⟨x, hx, hbefore 0 hfree.1 (by decide)⟩

end Bio

end OperatingSystems

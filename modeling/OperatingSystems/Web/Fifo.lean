import OperatingSystems.Web.Server

/-!
# The order of the requests under FIFO

Under the policy FIFO the priority of a request is the value of a counter that the master increments
for each request, so the heap gives the requests back in the order in which they came.

* `accepts` : the descriptors that `Accept` returned, in order.
* `Fifo` : the invariant; priorities are positions, and what was dequeued is what was enqueued first.
* `fifo_order` : **workers dequeue the requests in the order in which the master accepted them**.
-/

namespace OperatingSystems

namespace Web

open Heap

variable {n : ℕ}

/-- What `Accept` returns in a step. -/
def Label.accepted : Label n → List ℤ
  | .accept connfd => [connfd]
  | _ => []

/-- The connections that the master accepted, in this order. -/
def accepts (ls : List (Label n)) : List ℤ := ls.flatMap Label.accepted

/-- The connection that the master has accepted but not yet enqueued. -/
def MasterPc.current : MasterPc → ℤ → List ℤ
  | .accept, _ | .exited, _ => []
  | _, connfd => [connfd]

/-- How many requests have their number but are not yet enqueued. -/
def MasterPc.numbered : MasterPc → ℕ
  | .lockEnqueue _ | .enqueue _ => 1
  | _ => 0

/-- The requests are numbered in the order in which they were accepted, and were dequeued in the order
of their numbers. -/
structure Fifo (accepted : List ℤ) (s : State n) : Prop where
  accepted : accepted = s.enqueued.map (fun c => c.data.connfd) ++ s.master.current s.connfd
  count : s.count = s.enqueued.length + s.master.numbered
  pending : ∀ d, s.master = .lockEnqueue d ∨ s.master = .enqueue d →
    d.priority = d.id ∧ d.data.connfd = s.connfd
  priority : ∀ d ∈ s.enqueued, d.priority = d.id
  dequeued : s.dequeued.map Prod.snd = s.enqueued.take s.dequeued.length

theorem signalFull_current (pc : MasterPc) (connfd : ℤ) :
    (signalFull pc).current connfd = pc.current connfd := by
  cases pc <;> rfl

theorem signalFull_numbered (pc : MasterPc) : (signalFull pc).numbered = pc.numbered := by
  cases pc <;> rfl

theorem fifo_init (mem : ℕ → Conn) (dummy : Conn) (buffers : ℕ) :
    Fifo [] (serverInit n mem dummy buffers) where
  accepted := rfl
  count := rfl
  pending d hd := by simp [serverInit] at hd
  priority d hd := by simp [serverInit] at hd
  dequeued := rfl

/-- The number of a request under FIFO. -/
theorem prepare_of_next {s s' : State n} {r : Request}
    (h : (server .fifo n).next s (.masterPrepare r) = some s') :
    s' = { s with
      master := .lockEnqueue ⟨⟨s.count, s.connfd, r.buff⟩, s.enqueued.length⟩
      count := toInt (s.count + 1) } := by
  simp only [server, requestPriority, if_true] at h
  split_ifs at h
  exact (Option.some.inj h).symm

/-! ### One step -/

/-- A step that leaves the requests alone. -/
theorem Fifo.of_same {accepted : List ℤ} {s s' : State n} (h : Fifo accepted s)
    (hen : s'.enqueued = s.enqueued) (hde : s'.dequeued = s.dequeued) (hcount : s'.count = s.count)
    (hcur : s'.master.current s'.connfd = s.master.current s.connfd)
    (hnum : s'.master.numbered = s.master.numbered)
    (hpend : ∀ d, s'.master = .lockEnqueue d ∨ s'.master = .enqueue d →
      d.priority = d.id ∧ d.data.connfd = s'.connfd) : Fifo accepted s' where
  accepted := by rw [hen, hcur, h.accepted]
  count := by rw [hcount, hen, hnum, h.count]
  pending := hpend
  priority := by rw [hen]; exact h.priority
  dequeued := by rw [hen, hde]; exact h.dequeued

/-- The entries that are still in the queue. -/
theorem Fifo.contents {accepted : List ℤ} {buffers : ℕ} {s : State n} (h : Fifo accepted s)
    (ha : Accounted buffers s) : s.q.contents = ↑(s.enqueued.drop s.dequeued.length) := by
  have hsum := ha.contents
  rw [h.dequeued] at hsum
  conv at hsum => rhs; rw [← List.take_append_drop s.dequeued.length s.enqueued]
  rw [← Multiset.coe_add, add_comm] at hsum
  exact Multiset.add_right_inj.1 hsum

/-- The number of a connection is its position. -/
theorem Accounted.id_eq {buffers : ℕ} {s : State n} (ha : Accounted buffers s) {i : ℕ} {c : Conn}
    (h : s.enqueued[i]? = some c) : c.id = i := by
  have hids := congrArg (·[i]?) ha.ids
  simp only [List.getElem?_map, h, Option.map_some] at hids
  obtain ⟨hi, -⟩ := List.getElem?_eq_some_iff.1 h
  rw [List.getElem?_range hi] at hids
  exact Option.some.inj hids

/-- **The entry that is dequeued** is the first one that was not yet. -/
theorem Fifo.dequeue_eq {accepted : List ℤ} {buffers : ℕ} {s : State n} (h : Fifo accepted s)
    (ha : Accounted buffers s) (he : ¬ isEmpty s.q) :
    s.enqueued[s.dequeued.length]? = some (dequeue Conn.priority s.q).1 := by
  obtain ⟨hmem, hleast⟩ := isLeast_dequeue ha.valid he
  rw [h.contents ha] at hmem hleast
  generalize (dequeue Conn.priority s.q).1 = d at hmem hleast ⊢
  obtain ⟨j, hj⟩ := List.mem_iff_getElem?.1 (Multiset.mem_coe.1 hmem)
  rw [List.getElem?_drop] at hj
  have hlt := (List.getElem?_eq_some_iff.1 hj).1
  obtain ⟨e, hfirst⟩ : ∃ e, s.enqueued[s.dequeued.length]? = some e :=
    ⟨_, List.getElem?_eq_getElem (by omega)⟩
  have hle := hleast e (Multiset.mem_coe.2 (List.mem_iff_getElem?.2
    ⟨0, by rw [List.getElem?_drop, Nat.add_zero, hfirst]⟩))
  rw [h.priority d (List.mem_of_getElem? hj), h.priority e (List.mem_of_getElem? hfirst),
    ha.id_eq hj, ha.id_eq hfirst] at hle
  obtain rfl : j = 0 := by omega
  exact hj

/-- **One step** keeps the order, as long as the counter does not overflow. -/
theorem fifo_step {accepted : List ℤ} {buffers : ℕ} {s s' : State n} {l : Label n}
    (h : Fifo accepted s) (hi : ServerInv buffers s) (hn : (server .fifo n).next s l = some s')
    (hlt : (accepted ++ l.accepted).length < 2 ^ 31) : Fifo (accepted ++ l.accepted) s' := by
  have hstep := step_of_next hn
  cases hstep with
  | accept connfd hm =>
    refine ⟨?_, ?_, fun d hd => ?_, h.priority, h.dequeued⟩
    · rw [h.accepted, hm]
      simp [MasterPc.current, Label.accepted]
    · rw [h.count, hm]
      rfl
    · simp at hd
  | masterLock hm hl =>
    simp only [Label.accepted, List.append_nil]
    refine h.of_same rfl rfl rfl ?_ ?_ fun d hd => by simp at hd
    · obtain hm | hm := hm <;> rw [hm] <;> rfl
    · obtain hm | hm := hm <;> rw [hm] <;> rfl
  | masterWait hm hf | masterUnlock hm hf | masterSpurious hm =>
    simp only [Label.accepted, List.append_nil]
    exact h.of_same rfl rfl rfl (by rw [hm]; rfl) (by rw [hm]; rfl) fun d hd => by simp at hd
  | masterExit r hm hp => cases hp
  | masterPrepare r p count hm hp =>
    -- the connection in hand is one more than those that are enqueued
    have hcount := h.count
    have hlen := congrArg List.length h.accepted
    rw [hm] at hcount hlen
    simp only [MasterPc.current, MasterPc.numbered, List.length_append, List.length_map,
      List.length_singleton] at hcount hlen
    simp only [Label.accepted, List.append_nil] at hlt ⊢
    have hnext : toInt (s.count + 1) = s.count + 1 := Int.bmod_eq_of_le (by omega) (by omega)
    rw [prepare_of_next hn]
    refine ⟨?_, ?_, fun d hd => ?_, h.priority, h.dequeued⟩
    · rw [h.accepted, hm]
      rfl
    · show toInt (s.count + 1) = _
      rw [hnext, hcount]
      simp [MasterPc.numbered]
    · obtain rfl : _ = d := by simpa using hd
      exact ⟨hcount.trans (add_zero _), rfl⟩
  | masterLockEnqueue d hm hl =>
    simp only [Label.accepted, List.append_nil]
    refine h.of_same rfl rfl rfl (by rw [hm]; rfl) (by rw [hm]; rfl) fun d' hd => ?_
    obtain rfl : d = d' := by simpa using hd
    exact h.pending d (Or.inl hm)
  | masterEnqueue d woken hm hw =>
    obtain ⟨hprio, hfd⟩ := h.pending d (Or.inr hm)
    have hcount := h.count
    rw [hm] at hcount
    simp only [Label.accepted, List.append_nil]
    refine ⟨?_, ?_, fun d' hd => ?_, fun d' hd => ?_, ?_⟩
    · rw [h.accepted, hm]
      simp [MasterPc.current, hfd]
    · show s.count = _
      rw [hcount]
      simp [MasterPc.numbered]
    · simp at hd
    · obtain hd | hd := List.mem_append.1 hd
      · exact h.priority d' hd
      · rw [List.mem_singleton.1 hd]
        exact hprio
    · show s.dequeued.map Prod.snd = (s.enqueued ++ [d]).take s.dequeued.length
      have hle := congrArg List.length h.dequeued
      rw [List.length_map, List.length_take] at hle
      rw [List.take_append_of_le_length (by omega), h.dequeued]
  | workerLock i hw hl | workerWait i hw hq | workerPass i hw hq | workerSpurious i hw
  | workerDone i d hw =>
    simp only [Label.accepted, List.append_nil]
    exact h.of_same rfl rfl rfl rfl rfl h.pending
  | workerDequeue i hw =>
    simp only [Label.accepted, List.append_nil]
    refine ⟨?_, ?_, fun d hd => h.pending d (signalFull_pending hd), h.priority, ?_⟩
    · rw [h.accepted]
      exact congrArg _ (signalFull_current s.master s.connfd).symm
    · show s.count = s.enqueued.length + ((signalFull s.master).numbered : ℤ)
      rw [signalFull_numbered, h.count]
    · have hnext := h.dequeue_eq hi.accounted (hi.ready.entry i hw)
      show (s.dequeued ++ [(i, (dequeue Conn.priority s.q).1)]).map Prod.snd =
        s.enqueued.take (s.dequeued ++ [(i, (dequeue Conn.priority s.q).1)]).length
      rw [List.map_append, h.dequeued, List.length_append, List.length_singleton,
        List.take_add_one, hnext]
      rfl

/-! ### Every run -/

theorem accepts_append (ls ls' : List (Label n)) : accepts (ls ++ ls') = accepts ls ++ accepts ls' :=
  List.flatMap_append

theorem fifo_run {mem : ℕ → Conn} {dummy : Conn} {buffers : ℕ} {ls : List (Label n)} {s : State n}
    (h : (server .fifo n).run (serverInit n mem dummy buffers) ls = some s)
    (hlt : (accepts ls).length < 2 ^ 31) : Fifo (accepts ls) s := by
  refine Machine.run_induction
    (P := fun ls s => (accepts ls).length < 2 ^ 31 → Fifo (accepts ls) s) (fun _ => ?_) ?_ h hlt
  · exact fifo_init mem dummy buffers
  · intro ls s l s' hrun ih hn hlt
    have haccepts : accepts (ls ++ [l]) = accepts ls ++ l.accepted := by
      rw [accepts_append]
      exact congrArg _ (List.append_nil _)
    rw [haccepts] at hlt ⊢
    rw [List.length_append] at hlt
    exact fifo_step (ih (by omega)) (serverInv_run hrun) hn (by rwa [List.length_append])

/-- **FIFO.**  In every run with fewer than `2 ^ 31` accepted connections, with any number of workers,
the connections were dequeued in the order in which the master accepted them: those dequeued so far
are the first ones, one after the other. -/
theorem fifo_order (mem : ℕ → Conn) (dummy : Conn) (buffers : ℕ) {ls : List (Label n)} {s : State n}
    (h : (server .fifo n).run (serverInit n mem dummy buffers) ls = some s)
    (hlt : (accepts ls).length < 2 ^ 31) :
    (s.dequeued.map fun p => p.2.data.connfd) <+: accepts ls ∧
      (s.dequeued.map fun p => p.2.id) = List.range s.dequeued.length := by
  have hf := fifo_run h hlt
  have ha := (serverInv_run h).accounted
  have hmap : ∀ {β : Type} (f : Conn → β), (s.dequeued.map fun p => f p.2) =
      (s.enqueued.map f).take s.dequeued.length := by
    intro β f
    rw [← List.map_take, ← hf.dequeued, List.map_map]
    rfl
  constructor
  · rw [hmap fun c => c.data.connfd, hf.accepted]
    exact (List.take_prefix _ _).trans (List.prefix_append _ _)
  · have hle := congrArg List.length hf.dequeued
    rw [List.length_map, List.length_take] at hle
    rw [hmap Conn.id, ha.ids, List.take_range, min_eq_left (by omega)]

/-- Two requests, of which the second one waits while a worker takes the first. -/
theorem fifo_order_two_requests : ∃ s : State 2,
    (server .fifo 2).run (serverInit 2 (fun _ => ⟨⟨0, 0, []⟩, 0⟩) ⟨⟨-1, -1, []⟩, 0⟩ 2)
      [.accept 4, .masterLock, .masterCheck, .masterPrepare ⟨[], [], none⟩, .masterLockEnqueue,
        .masterEnqueue ∅, .accept 7, .masterLock, .masterCheck, .masterPrepare ⟨[], [], none⟩,
        .masterLockEnqueue, .masterEnqueue ∅, .workerLock 1, .workerCheck 1, .workerDequeue 1] =
      some s ∧ (s.dequeued.map fun p => p.2.data.connfd) <+: [4, 7] := by
  have hrun : ∃ s : State 2,
      (server .fifo 2).run (serverInit 2 (fun _ => ⟨⟨0, 0, []⟩, 0⟩) ⟨⟨-1, -1, []⟩, 0⟩ 2)
        [.accept 4, .masterLock, .masterCheck, .masterPrepare ⟨[], [], none⟩, .masterLockEnqueue,
          .masterEnqueue ∅, .accept 7, .masterLock, .masterCheck, .masterPrepare ⟨[], [], none⟩,
          .masterLockEnqueue, .masterEnqueue ∅, .workerLock 1, .workerCheck 1, .workerDequeue 1] =
        some s :=
    Option.isSome_iff_exists.1 (by decide +kernel)
  obtain ⟨s, hs⟩ := hrun
  exact ⟨s, hs, (fifo_order _ _ _ hs (by decide)).1⟩

end Web

end OperatingSystems

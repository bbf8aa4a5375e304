import OperatingSystems.Web.Request
import OperatingSystems.Web.Wakeups
import Mathlib.Algebra.Order.BigOperators.Group.Finset
import Mathlib.Data.Prod.Lex

/-!
# The responses of the web server under its scheduling policies

`service` is the machine `server` together with its clients: the `k`-th accepted connection carries
the `k`-th request of a list, the master learns of it what `getRequest` says, and a worker that has
served a connection has sent the response of `requestHandleWorker`.

* `Fed` : the connections carry the requests, in every state.
* `Answering` : the responses are those of `requestHandleWorker`, and none is forgotten.
* `rank_lt` : every step other than a spurious wakeup brings the server nearer to the last
  response.
* `enabled` : until then there is such a step.
* `OnlyReorders` : the policy matters neither for the responses nor for whether the server goes on.
* `onlyReorders_iff` : when that is so.
-/

namespace OperatingSystems

namespace Web

open Heap

variable {n : ℕ}

/-- The server with the responses it has sent. -/
structure Service (n : ℕ) where
  proc : State n
  /-- The connections served so far, each with its response. -/
  answers : List (Conn × List UInt8)
  /-- A worker has called `exit`. -/
  crashed : Bool

/-- The server process is gone. -/
def Service.Exited (x : Service n) : Prop := x.crashed ∨ x.proc.master = .exited

/-- What the clients with the requests `reqs` allow: someone connects only while there are requests
left, and the master reads the request of its connection. -/
def Offered (fs : FileSystem) (reqs : List GetRequest) (s : State n) : Label n → Prop
  | .accept _ => s.enqueued.length < reqs.length
  | .masterPrepare r => (reqs[s.enqueued.length]?.map fun q => getRequest fs q.line) = some r
  | _ => True

instance (fs : FileSystem) (reqs : List GetRequest) (s : State n) :
    ∀ l, Decidable (Offered fs reqs s l)
  | .accept _ => inferInstanceAs (Decidable (_ < _))
  | .masterPrepare _ => inferInstanceAs (Decidable (_ = _))
  | .masterLock | .masterCheck | .masterSpurious | .masterLockEnqueue | .masterEnqueue _
  | .workerLock _ | .workerCheck _ | .workerSpurious _ | .workerDequeue _ | .workerDone _ =>
    isTrue trivial

/-- The connection that a step finishes serving. -/
def served (s : State n) : Label n → Option Conn
  | .workerDone i =>
    match s.worker i with
    | .handle d => some d
    | _ => none
  | _ => none

/-- The process goes to `s`; if a worker has served a connection then its response is recorded. -/
def Service.answer (fs : FileSystem) (x : Service n) (s : State n) : Option Conn → Service n
  | none => { x with proc := s }
  | some d =>
    match requestHandleWorker fs d.data.buff with
    | none => { x with proc := s, crashed := true }
    | some response => { x with proc := s, answers := x.answers ++ [(d, response)] }

/-- The server, its clients and its files. -/
def service (fs : FileSystem) (reqs : List GetRequest) (policy : Policy) (n : ℕ) :
    Machine (Service n) (Label n) where
  next x l :=
    if ¬ x.crashed ∧ Offered fs reqs x.proc l then
      ((server policy n).next x.proc l).map fun s => x.answer fs s (served x.proc l)
    else none

/-- The server before its first connection. -/
def serviceInit (n : ℕ) (mem : ℕ → Conn) (dummy : Conn) (buffers : ℕ) : Service n where
  proc := serverInit n mem dummy buffers
  answers := []
  crashed := false

/-- Every request has had its response. -/
def Service.Answered (reqs : List GetRequest) (x : Service n) : Prop :=
  ∀ k < reqs.length, ∃ a ∈ x.answers, a.1.id = k

/-- **The policy only reorders**: there is one response for each connection, whatever the policy,
the number of workers and of buffers and the interleaving; and the server is never gone and can
always go on until every request has its response. -/
def OnlyReorders (fs : FileSystem) (reqs : List GetRequest) : Prop :=
  ∃ response : ℕ → List UInt8, ∀ (policy : Policy) (n buffers : ℕ) (mem : ℕ → Conn) (dummy : Conn)
    (ls : List (Label n)) (x : Service n), 0 < n → 0 < buffers →
    (service fs reqs policy n).run (serviceInit n mem dummy buffers) ls = some x →
    (∀ a ∈ x.answers, a.2 = response a.1.id) ∧ ¬ x.Exited ∧
      ∃ ls' y, (service fs reqs policy n).run x ls' = some y ∧ y.Answered reqs

/-! ### The connections carry the requests -/

section

variable {fs : FileSystem} {reqs : List GetRequest} {policy : Policy}

@[simp] theorem answer_proc (x : Service n) (s : State n) (o : Option Conn) :
    (x.answer fs s o).proc = s := by
  unfold Service.answer
  split
  · rfl
  · split <;> rfl

theorem service_next_eq_some {x y : Service n} {l : Label n} :
    (service fs reqs policy n).next x l = some y ↔
      x.crashed = false ∧ Offered fs reqs x.proc l ∧
        ∃ s, (server policy n).next x.proc l = some s ∧ x.answer fs s (served x.proc l) = y := by
  simp only [service]
  split
  · next h => simp [Bool.eq_false_iff.2 h.1, h.2]
  · next h => exact iff_of_false nofun fun h' => h ⟨by simp [h'.1], h'.2.1⟩

/-- The connection was made for one of the requests; under SFF its file was there. -/
def Carried (fs : FileSystem) (reqs : List GetRequest) (policy : Policy) (d : Conn) : Prop :=
  ∃ r, reqs[d.id]? = some r ∧ d.data.buff = r.line ∧
    (policy = .sff → (getRequest fs r.line).fileStat.isSome)

/-- The places between `Accept` and the end of `enqueue`. -/
def MasterPc.Busy : MasterPc → Prop
  | .accept | .exited => False
  | _ => True

/-- The connections in the server are those of the requests. -/
structure Fed (fs : FileSystem) (reqs : List GetRequest) (policy : Policy) (s : State n) :
    Prop where
  busy : s.master.Busy → s.enqueued.length < reqs.length
  le : s.enqueued.length ≤ reqs.length
  pending : ∀ d, s.master = .lockEnqueue d ∨ s.master = .enqueue d → Carried fs reqs policy d
  enqueued : ∀ d ∈ s.enqueued, Carried fs reqs policy d
  handling : ∀ i d, s.worker i = .handle d → d ∈ s.enqueued

theorem signalFull_busy (pc : MasterPc) : (signalFull pc).Busy ↔ pc.Busy := by
  cases pc <;> rfl

theorem carried_of_priority {count p : ℤ} {r : GetRequest} {s : State n}
    (hr : reqs[s.enqueued.length]? = some r)
    (hp : requestPriority policy count (getRequest fs r.line) = some p) :
    Carried fs reqs policy
      ⟨⟨p, s.connfd, (getRequest fs r.line).buff⟩, s.enqueued.length⟩ := by
  refine ⟨r, hr, rfl, fun hsff => ?_⟩
  subst hsff
  obtain ⟨size, hsize, -⟩ := Option.map_eq_some_iff.1 hp
  exact Option.isSome_iff_exists.2 ⟨size, hsize⟩

theorem fed_step {buffers : ℕ} {s s' : State n} {l : Label n} (hi : ServerInv buffers s)
    (hf : Fed fs reqs policy s) (ho : Offered fs reqs s l) (h : Step policy s l s') :
    Fed fs reqs policy s' := by
  cases h with
  | accept connfd hm => exact ⟨fun _ => ho, hf.le, nofun, hf.enqueued, hf.handling⟩
  | masterLock hm hl =>
    have hb := hf.busy (by rcases hm with hm | hm <;> rw [hm] <;> trivial)
    exact ⟨fun _ => hb, hf.le, nofun, hf.enqueued, hf.handling⟩
  | masterWait hm hq | masterUnlock hm hq | masterSpurious hm =>
    exact ⟨fun _ => hf.busy (by rw [hm]; trivial), hf.le, nofun, hf.enqueued, hf.handling⟩
  | masterExit r hm hp => exact ⟨False.elim, hf.le, nofun, hf.enqueued, hf.handling⟩
  | masterPrepare r p count hm hp =>
    refine ⟨fun _ => hf.busy (by rw [hm]; trivial), hf.le, fun d hd => ?_, hf.enqueued,
      hf.handling⟩
    -- the request that is offered has its connection
    obtain ⟨q, hq, rfl⟩ := Option.map_eq_some_iff.1 ho
    obtain rfl : _ = d := by simpa using hd
    exact carried_of_priority hq hp
  | masterLockEnqueue d hm hl =>
    refine ⟨fun _ => hf.busy (by rw [hm]; trivial), hf.le, fun d' hd => ?_, hf.enqueued,
      hf.handling⟩
    obtain rfl : d = d' := by simpa using hd
    exact hf.pending d (Or.inl hm)
  | masterEnqueue d woken hm hw =>
    have hb := hf.busy (by rw [hm]; trivial)
    refine ⟨False.elim, by simpa [Nat.succ_le_iff] using hb, nofun, fun d' hd => ?_,
      fun i d' hd => ?_⟩
    · rcases List.mem_append.1 hd with hd | hd
      · exact hf.enqueued d' hd
      · rw [List.mem_singleton.1 hd]
        exact hf.pending d (Or.inr hm)
    · have hwork : s.worker i = .handle d' := by
        simp only [wakeEmpty] at hd
        split_ifs at hd
        exact hd
      exact List.mem_append_left _ (hf.handling i d' hwork)
  | workerLock i hw hl | workerWait i hw hq | workerPass i hw hq | workerSpurious i hw
  | workerDone i d hw =>
    refine ⟨hf.busy, hf.le, hf.pending, hf.enqueued, fun j d' hd => hf.handling j d' ?_⟩
    rcases eq_or_ne j i with rfl | hne
    · simp [State.setWorker] at hd
    · simpa [State.setWorker, hne] using hd
  | workerDequeue i hw =>
    refine ⟨fun hb => hf.busy ((signalFull_busy _).1 hb), hf.le,
      fun d hd => hf.pending d (signalFull_pending hd), hf.enqueued, fun j d' hd => ?_⟩
    rcases eq_or_ne j i with rfl | hne
    · -- the connection that comes out of the queue was put in
      obtain rfl : _ = d' := by simpa [State.setWorker] using hd
      have hmem : (dequeue Conn.priority s.q).1 ∈ s.q.contents :=
        (isLeast_dequeue hi.accounted.valid (hi.ready.entry j hw)).1
      have hall : (dequeue Conn.priority s.q).1 ∈ (↑s.enqueued : Multiset Conn) :=
        hi.accounted.contents ▸ Multiset.mem_add.2 (Or.inl hmem)
      exact Multiset.mem_coe.1 hall
    · exact hf.handling j d' (by simpa [State.setWorker, hne] using hd)

/-! ### The responses -/

/-- The responses are those of the code, and a connection that was dequeued has its response or is
being served. -/
structure Answering (fs : FileSystem) (x : Service n) : Prop where
  answers : ∀ a ∈ x.answers, a.1 ∈ x.proc.enqueued ∧
    requestHandleWorker fs a.1.data.buff = some a.2
  dequeued : x.crashed = false → ∀ p ∈ x.proc.dequeued,
    p.2 ∈ x.answers.map Prod.fst ∨ x.proc.worker p.1 = .handle p.2

/-- A step that finishes no connection: what was enqueued stays, and what is dequeued is taken by
its worker. -/
theorem Answering.of_keeps {x : Service n} {s : State n} (ha : Answering fs x)
    (hen : x.proc.enqueued ⊆ s.enqueued)
    (hde : ∀ p ∈ s.dequeued, p ∈ x.proc.dequeued ∨ s.worker p.1 = .handle p.2)
    (hw : ∀ i d, x.proc.worker i = .handle d → s.worker i = .handle d) :
    Answering fs { x with proc := s } where
  answers a h := ⟨hen (ha.answers a h).1, (ha.answers a h).2⟩
  dequeued hc p hp := by
    rcases hde p hp with hp | hp
    · exact (ha.dequeued hc p hp).imp_right (hw _ _)
    · exact Or.inr hp

theorem setWorker_handle {s : State n} {i j : Fin n} {pc : WorkerPc} {d : Conn}
    (hi : ∀ d, s.worker i ≠ .handle d) (h : s.worker j = .handle d) :
    (s.setWorker i pc).worker j = .handle d := by
  rcases eq_or_ne j i with rfl | hne
  · exact absurd h (hi d)
  · simpa [State.setWorker, hne] using h

theorem answering_done {x : Service n} {i : Fin n} {d : Conn} (ha : Answering fs x)
    (hmem : d ∈ x.proc.enqueued) (hw : x.proc.worker i = .handle d) :
    Answering fs (x.answer fs (x.proc.setWorker i .lock) (some d)) := by
  cases hr : requestHandleWorker fs d.data.buff with
  | none =>
    simp only [Service.answer, hr]
    exact ⟨ha.answers, nofun⟩
  | some response =>
    simp only [Service.answer, hr]
    refine ⟨fun a h => ?_, fun hc p hp => ?_⟩
    · rcases List.mem_append.1 h with h | h
      · exact ha.answers a h
      · rw [List.mem_singleton.1 h]
        exact ⟨hmem, hr⟩
    · simp only [List.map_append, List.mem_append]
      rcases ha.dequeued hc p hp with hp' | hp'
      · exact Or.inl (Or.inl hp')
      rcases eq_or_ne p.1 i with rfl | hne
      · rw [hw] at hp'
        cases hp'
        exact Or.inl (Or.inr (by simp))
      · exact Or.inr (by simpa [State.setWorker, hne] using hp')

theorem answering_step {x : Service n} {s' : State n} {l : Label n}
    (hf : Fed fs reqs policy x.proc) (ha : Answering fs x) (h : Step policy x.proc l s') :
    Answering fs (x.answer fs s' (served x.proc l)) := by
  cases h with
  | accept connfd hm | masterLock hm hl | masterWait hm hq | masterUnlock hm hq
  | masterSpurious hm | masterExit r hm hp | masterPrepare r p count hm hp
  | masterLockEnqueue d hm hl =>
    exact ha.of_keeps (List.Subset.refl _) (fun _ => Or.inl) (fun _ _ => id)
  | masterEnqueue d woken hm hw =>
    refine ha.of_keeps (List.subset_append_left _ _) (fun _ => Or.inl) fun i d' hi => ?_
    have hnot : i ∉ woken := fun hmem => by
      have := hw.1 i hmem
      rw [hi] at this
      cases this
    simpa [wakeEmpty, hnot] using hi
  | workerLock i hw hl =>
    refine ha.of_keeps (List.Subset.refl _) (fun _ => Or.inl) fun j d => setWorker_handle fun d => ?_
    rcases hw with hw | hw <;> simp [hw]
  | workerWait i hw hq | workerPass i hw hq | workerSpurious i hw =>
    exact ha.of_keeps (List.Subset.refl _) (fun _ => Or.inl)
      fun j d => setWorker_handle (by simp [hw])
  | workerDequeue i hw =>
    refine ha.of_keeps (List.Subset.refl _) (fun p hp => ?_)
      fun j d => setWorker_handle (by simp [hw])
    rcases List.mem_append.1 hp with hp | hp
    · exact Or.inl hp
    · rw [List.mem_singleton.1 hp]
      exact Or.inr (by simp [State.setWorker])
  | workerDone i d hw =>
    have hs : served x.proc (.workerDone i) = some d := by simp [served, hw]
    rw [hs]
    exact answering_done ha (hf.handling i d hw) hw

/-! ### Progress -/

/-- The wakeups that no signal causes. -/
def Label.Spurious : Label n → Prop
  | .masterSpurious | .workerSpurious _ => True
  | _ => False

/-- How much of the way of a connection the master has gone. -/
def MasterPc.stage : MasterPc → ℕ
  | .accept | .exited => 0
  | .lock | .check | .waitFull | .wokenFull | .prepare => 1
  | .lockEnqueue _ | .enqueue _ => 2

/-- How far the master is from its next stage. -/
def MasterPc.weight : MasterPc → ℕ
  | .lock | .wokenFull => 3
  | .check => 2
  | .waitFull | .prepare | .lockEnqueue _ => 1
  | .accept | .enqueue _ | .exited => 0

/-- How far a worker is from its next connection. -/
def WorkerPc.weight : WorkerPc → ℕ
  | .handle _ => 4
  | .lock | .wokenEmpty => 3
  | .check => 2
  | .dequeue => 1
  | .waitEmpty => 0

/-- The stages that `total` connections have still to go through, and the distance to the next
one. -/
def rank (total : ℕ) (s : State n) : ℕ ×ₗ ℕ :=
  toLex (4 * total - (3 * s.enqueued.length + s.master.stage + s.dequeued.length),
    s.master.weight + ∑ i, (s.worker i).weight)

theorem rank_lt_of_stage {total : ℕ} {s s' : State n}
    (hle : 3 * s.enqueued.length + s.master.stage + s.dequeued.length < 4 * total)
    (h : 3 * s'.enqueued.length + s'.master.stage + s'.dequeued.length =
      3 * s.enqueued.length + s.master.stage + s.dequeued.length + 1) :
    rank total s' < rank total s := by
  refine Prod.Lex.toLex_lt_toLex.2 (Or.inl ?_)
  simp only [h]
  omega

theorem rank_lt_of_weight {total : ℕ} {s s' : State n}
    (h : 3 * s'.enqueued.length + s'.master.stage + s'.dequeued.length =
      3 * s.enqueued.length + s.master.stage + s.dequeued.length)
    (hw : s'.master.weight + ∑ i, (s'.worker i).weight <
      s.master.weight + ∑ i, (s.worker i).weight) :
    rank total s' < rank total s := by
  refine Prod.Lex.toLex_lt_toLex.2 (Or.inr ⟨?_, hw⟩)
  simp only [h]

theorem setWorker_weight_lt {s : State n} {i : Fin n} {pc : WorkerPc}
    (h : pc.weight < (s.worker i).weight) :
    ∑ j, ((s.setWorker i pc).worker j).weight < ∑ j, (s.worker j).weight := by
  refine Finset.sum_lt_sum (fun j _ => ?_) ⟨i, Finset.mem_univ i, by simpa [State.setWorker]⟩
  rcases eq_or_ne j i with rfl | hne
  · simpa [State.setWorker] using h.le
  · simp [State.setWorker, hne]

theorem card_contents_add_dequeued {buffers : ℕ} {s : State n} (ha : Accounted buffers s) :
    s.q.contents.card + s.dequeued.length = s.enqueued.length := by
  have h := congrArg Multiset.card ha.contents
  simpa using h

theorem card_contents_pos {q : Queue Conn} (hv : q.Valid Conn.priority) (he : ¬ isEmpty q) :
    0 < q.contents.card :=
  Multiset.card_pos_iff_exists_mem.2 ⟨_, (isLeast_dequeue hv he).1⟩

theorem signalFull_stage (pc : MasterPc) : (signalFull pc).stage = pc.stage := by
  cases pc <;> rfl

theorem stage_eq_zero_or_busy (pc : MasterPc) : pc.stage = 0 ∨ pc.Busy := by
  cases pc <;> simp [MasterPc.stage, MasterPc.Busy]

theorem stage_le_two (pc : MasterPc) : pc.stage ≤ 2 := by
  cases pc <;> simp [MasterPc.stage]

/-- **Every step but a spurious wakeup is a step forward**, unless the server exits. -/
theorem rank_lt {buffers : ℕ} {s s' : State n} {l : Label n} (hi : ServerInv buffers s)
    (hf : Fed fs reqs policy s) (ho : Offered fs reqs s l) (hl : ¬ l.Spurious)
    (h : Step policy s l s') (hx : s'.master ≠ .exited) :
    rank reqs.length s' < rank reqs.length s := by
  have hcard := card_contents_add_dequeued hi.accounted
  have hle := hf.le
  cases h with
  | accept connfd hm =>
    have hlt : s.enqueued.length < reqs.length := ho
    exact rank_lt_of_stage (by rw [hm]; simp only [MasterPc.stage]; omega)
      (by rw [hm]; simp only [MasterPc.stage]; omega)
  | masterLock hm hq =>
    refine rank_lt_of_weight ?_ ?_ <;> rcases hm with hm | hm <;>
      simp [hm, MasterPc.stage, MasterPc.weight]
  | masterWait hm hq | masterUnlock hm hq =>
    exact rank_lt_of_weight (by simp [hm, MasterPc.stage]) (by simp [hm, MasterPc.weight])
  | masterSpurious hm | workerSpurious i hw => exact absurd trivial hl
  | masterExit r hm hp => exact absurd rfl hx
  | masterPrepare r p count hm hp =>
    have hlt := hf.busy (by rw [hm]; trivial)
    exact rank_lt_of_stage (by rw [hm]; simp only [MasterPc.stage]; omega)
      (by rw [hm]; simp only [MasterPc.stage]; omega)
  | masterLockEnqueue d hm hq =>
    exact rank_lt_of_weight (by simp [hm, MasterPc.stage]) (by simp [hm, MasterPc.weight])
  | masterEnqueue d woken hm hw =>
    have hlt := hf.busy (by rw [hm]; trivial)
    exact rank_lt_of_stage (by rw [hm]; simp only [MasterPc.stage]; omega)
      (by rw [hm]; simp only [MasterPc.stage, List.length_append, List.length_singleton]; omega)
  | workerLock i hw hq =>
    refine rank_lt_of_weight rfl (Nat.add_lt_add_left (setWorker_weight_lt ?_) _)
    rcases hw with hw | hw <;> simp [hw, WorkerPc.weight]
  | workerWait i hw hq | workerPass i hw hq | workerDone i d hw =>
    exact rank_lt_of_weight rfl
      (Nat.add_lt_add_left (setWorker_weight_lt (by simp [hw, WorkerPc.weight])) _)
  | workerDequeue i hw =>
    have hst := signalFull_stage s.master
    have hpos := card_contents_pos hi.accounted.valid (hi.ready.entry i hw)
    have hlt : s.master.stage = 0 ∨ s.enqueued.length < reqs.length :=
      (stage_eq_zero_or_busy s.master).imp_right hf.busy
    have hle2 := stage_le_two s.master
    exact rank_lt_of_stage (by omega)
      (by simp only [State.setWorker, hst, List.length_append, List.length_singleton]; omega)

/-- The server has nothing to do. -/
structure Idle (reqs : List GetRequest) (s : State n) : Prop where
  enqueued : s.enqueued.length = reqs.length
  empty : isEmpty s.q
  worker : ∀ i d, s.worker i ≠ .handle d

theorem signalEmpty_all (s : State n) :
    SignalEmpty s (Finset.univ.filter fun i => s.worker i = .waitEmpty) :=
  ⟨fun _ hi => (Finset.mem_filter.1 hi).2,
    fun ⟨i, hi⟩ => ⟨i, Finset.mem_filter.2 ⟨Finset.mem_univ i, hi⟩⟩⟩

/-- No thread is in a critical section: `cLock` is free. -/
theorem cLock_eq_none {s : State n} (he : Exclusive s) (hm : ¬ s.master.Holds)
    (hw : ∀ i, ¬ (s.worker i).Holds) : s.cLock = none := by
  cases hc : s.cLock with
  | none => rfl
  | some t =>
    cases t with
    | master => exact absurd (he.master.2 hc) hm
    | worker i => exact absurd ((he.worker i).2 hc) (hw i)

/-- The master can go on while the queue is empty and `cLock` is free. -/
theorem enabled_master {buffers : ℕ} {s : State n} (hb : 0 < buffers) (hi : ServerInv buffers s)
    (ha : Awake s) (hx : s.master ≠ .exited) (hq : isEmpty s.q)
    (hc : s.cLock = none) (hlt : s.enqueued.length < reqs.length) :
    ∃ l, ¬ l.Spurious ∧ Offered fs reqs s l ∧ ((server policy n).next s l).isSome := by
  have hm := hi.exclusive.none_holds hc
  cases hpc : s.master with
  | accept => exact ⟨.accept 0, id, hlt, by simp [server, hpc]⟩
  | lock | wokenFull => exact ⟨.masterLock, id, trivial, by simp [server, hpc, hc]⟩
  | check | enqueue d => exact absurd (by rw [hpc]; trivial) hm.1
  | waitFull =>
    -- a full queue has room for a connection, so it is not empty
    have hfull := isFull_iff.1 (ha.master hpc)
    rw [isEmpty_iff.1 hq, hi.accounted.bufSz] at hfull
    omega
  | prepare =>
    refine ⟨.masterPrepare (getRequest fs (reqs.get ⟨_, hlt⟩).line), id, ?_, ?_⟩
    · simp [Offered, List.getElem?_eq_getElem hlt]
    · simp only [server, hpc, reduceCtorEq, ↓reduceIte]
      split <;> rfl
  | lockEnqueue d => exact ⟨.masterLockEnqueue, id, trivial, by simp [server, hpc, hc]⟩
  | exited => exact absurd hpc hx

/-- **While a response is missing the server can make a step forward.** -/
theorem enabled {buffers : ℕ} {s : State n} (hb : 0 < buffers) (hi : ServerInv buffers s)
    (ha : Awake s) (hf : Fed fs reqs policy s) (hx : s.master ≠ .exited) (hidle : ¬ Idle reqs s) :
    ∃ l, ¬ l.Spurious ∧ Offered fs reqs s l ∧ ((server policy n).next s l).isSome := by
  by_cases hdone : ∃ i d, s.worker i = .handle d
  · obtain ⟨i, d, hw⟩ := hdone
    exact ⟨.workerDone i, id, trivial, by simp [server, hx, hw]⟩
  by_cases hdeq : ∃ i, s.worker i = .dequeue
  · obtain ⟨i, hw⟩ := hdeq
    exact ⟨.workerDequeue i, id, trivial, by simp [server, hx, hw]⟩
  by_cases hcheck : ∃ i, s.worker i = .check
  · obtain ⟨i, hw⟩ := hcheck
    refine ⟨.workerCheck i, id, trivial, ?_⟩
    by_cases hq : isEmpty s.q <;> simp [server, hx, hw, hq]
  by_cases hmcheck : s.master = .check
  · exact ⟨.masterCheck, id, trivial, by simp [server, hmcheck]⟩
  by_cases hmenq : ∃ d, s.master = .enqueue d
  · obtain ⟨d, hm⟩ := hmenq
    exact ⟨.masterEnqueue (Finset.univ.filter fun i => s.worker i = .waitEmpty), id, trivial,
      by simp [server, hm, signalEmpty_all s]⟩
  -- nobody is in a critical section
  push Not at hdone hdeq hcheck hmenq
  have hc : s.cLock = none := by
    refine cLock_eq_none hi.exclusive ?_ fun i => ?_
    · cases hm : s.master <;> simp_all [MasterPc.Holds]
    · cases hw : s.worker i <;> simp_all [WorkerPc.Holds]
  by_cases hq : isEmpty s.q
  · have hlt : s.enqueued.length < reqs.length :=
      lt_of_le_of_ne hf.le fun h => hidle ⟨h, hq, hdone⟩
    exact enabled_master hb hi ha hx hq hc hlt
  · obtain ⟨i, hw⟩ := ha.worker hq
    refine ⟨.workerLock i, id, trivial, ?_⟩
    cases hpc : s.worker i <;> simp_all [server]

/-! ### Every run -/

/-- The invariant of the server with its clients. -/
structure Serving (fs : FileSystem) (reqs : List GetRequest) (policy : Policy) (buffers : ℕ)
    (x : Service n) : Prop where
  inv : ServerInv buffers x.proc
  awake : Awake x.proc
  fed : Fed fs reqs policy x.proc
  answering : Answering fs x

theorem serving_init (mem : ℕ → Conn) (dummy : Conn) (buffers : ℕ) :
    Serving fs reqs policy buffers (serviceInit n mem dummy buffers) where
  inv := serverInv_init mem dummy buffers
  awake := awake_init mem dummy buffers
  fed := ⟨False.elim, Nat.zero_le _, nofun, nofun, nofun⟩
  answering := ⟨nofun, nofun⟩

theorem serving_next {buffers : ℕ} {x y : Service n} {l : Label n} (hn : 0 < n)
    (hs : Serving fs reqs policy buffers x) (h : (service fs reqs policy n).next x l = some y) :
    Serving fs reqs policy buffers y := by
  obtain ⟨-, ho, s, hnext, rfl⟩ := service_next_eq_some.1 h
  have hst := step_of_next hnext
  have hinv : ServerInv buffers s :=
    ⟨exclusive_step hs.inv.exclusive hst, ready_step hs.inv.exclusive hs.inv.accounted hs.inv.ready
      hst, accounted_step hs.inv.accounted hs.inv.ready hst⟩
  exact {
    inv := by rwa [answer_proc]
    awake := by rw [answer_proc]; exact awake_step hn hs.awake hst
    fed := by rw [answer_proc]; exact fed_step hs.inv hs.fed ho hst
    answering := answering_step hs.fed hs.answering hst }

theorem serving_run {buffers : ℕ} {x y : Service n} {ls : List (Label n)} (hn : 0 < n)
    (hs : Serving fs reqs policy buffers x)
    (h : (service fs reqs policy n).run x ls = some y) : Serving fs reqs policy buffers y :=
  Machine.run_invariant h hs fun _ _ _ hs hl => serving_next hn hs hl

/-- The master does not exit for a request whose file is there. -/
theorem master_ne_exited {s s' : State n} {l : Label n} (hserv : ∀ r ∈ reqs, Servable fs r)
    (ho : Offered fs reqs s l) (h : Step policy s l s') (hx : s.master ≠ .exited) :
    s'.master ≠ .exited := by
  cases h with
  | masterExit r hm hp =>
    obtain ⟨q, hq, rfl⟩ := Option.map_eq_some_iff.1 ho
    obtain ⟨f, hf, -⟩ := hserv q (List.mem_of_getElem? hq)
    cases policy <;> simp [requestPriority, getRequest, hf] at hp
  | workerDequeue i hw =>
    show signalFull s.master ≠ .exited
    cases hm : s.master <;> simp_all [signalFull]
  | _ => first | exact hx | simp

/-- No worker exits for a request that the server can answer. -/
theorem answer_crashed {x : Service n} {s : State n} {l : Label n}
    (hserv : ∀ r ∈ reqs, Servable fs r) (hf : Fed fs reqs policy x.proc)
    (hx : x.crashed = false) : (x.answer fs s (served x.proc l)).crashed = false := by
  cases hd : served x.proc l with
  | none => exact hx
  | some d =>
    -- only a worker at `requestHandleWorker` serves, and its connection carries a request
    obtain ⟨i, hw⟩ : ∃ i, x.proc.worker i = .handle d := by
      cases l with
      | workerDone i =>
        refine ⟨i, ?_⟩
        simp only [served] at hd
        split at hd
        · cases hd; assumption
        · cases hd
      | _ => cases hd
    obtain ⟨r, hr, hbuff, -⟩ := hf.enqueued d (hf.handling i d hw)
    obtain ⟨f, hfile, hok⟩ := hserv r (List.mem_of_getElem? hr)
    obtain ⟨response, hresp⟩ := Option.isSome_iff_exists.1 ((requestHandleWorker_isSome hfile).2 hok)
    simp only [Service.answer, hbuff, hresp, hx]

theorem not_exited_run {buffers : ℕ} {x y : Service n} {ls : List (Label n)} (hn : 0 < n)
    (hserv : ∀ r ∈ reqs, Servable fs r) (hs : Serving fs reqs policy buffers x)
    (hx : ¬ x.Exited) (h : (service fs reqs policy n).run x ls = some y) : ¬ y.Exited := by
  refine (Machine.run_invariant (I := fun x => Serving fs reqs policy buffers x ∧ ¬ x.Exited) h
    ⟨hs, hx⟩ fun x l y hxs hl => ⟨serving_next hn hxs.1 hl, ?_⟩).2
  obtain ⟨hcrash, ho, s, hnext, rfl⟩ := service_next_eq_some.1 hl
  rintro (hy | hy)
  · rw [answer_crashed hserv hxs.1.fed hcrash] at hy
    cases hy
  · rw [answer_proc] at hy
    exact master_ne_exited hserv ho (step_of_next hnext) (fun h => hxs.2 (Or.inr h)) hy

/-- An idle server has answered every request. -/
theorem answered_of_idle {buffers : ℕ} {x : Service n} (hs : Serving fs reqs policy buffers x)
    (hc : x.crashed = false) (hi : Idle reqs x.proc) : x.Answered reqs := by
  intro k hk
  have ha := hs.inv.accounted
  have hmem : k ∈ x.proc.enqueued.map Conn.id := by
    rw [ha.ids, hi.enqueued]
    exact List.mem_range.2 hk
  obtain ⟨d, hd, rfl⟩ := List.mem_map.1 hmem
  -- the queue is empty, so the connection was dequeued
  have hq : x.proc.q.contents = 0 := by
    rw [Queue.contents, isEmpty_iff.1 hi.empty, contents_one]
  have hall := ha.contents
  rw [hq, zero_add] at hall
  have hd' : d ∈ x.proc.dequeued.map Prod.snd := by
    rw [← Multiset.mem_coe, hall]
    exact Multiset.mem_coe.2 hd
  obtain ⟨p, hp, rfl⟩ := List.mem_map.1 hd'
  obtain ha | hw := hs.answering.dequeued hc p hp
  · obtain ⟨a, ha, hap⟩ := List.mem_map.1 ha
    exact ⟨a, ha, by rw [hap]⟩
  · exact absurd hw (hi.worker _ _)

/-- While a response is missing the server goes on, and forward. -/
theorem service_forward {buffers : ℕ} {x : Service n} (hn : 0 < n) (hb : 0 < buffers)
    (hs : Serving fs reqs policy buffers x) (hend : ¬ (x.Exited ∨ x.Answered reqs)) :
    ∃ l y, (service fs reqs policy n).next x l = some y ∧ Serving fs reqs policy buffers y ∧
      ((y.Exited ∨ y.Answered reqs) ∨ rank reqs.length y.proc < rank reqs.length x.proc) := by
  obtain ⟨hexit, hans⟩ := not_or.1 hend
  have hc : x.crashed = false := Bool.eq_false_iff.2 fun h => hexit (Or.inl h)
  obtain ⟨l, hl, ho, hsome⟩ := enabled hb hs.inv hs.awake hs.fed (fun h => hexit (Or.inr h))
    fun hi => hans (answered_of_idle hs hc hi)
  obtain ⟨s, hnext⟩ := Option.isSome_iff_exists.1 hsome
  have hy := service_next_eq_some.2 ⟨hc, ho, s, hnext, rfl⟩
  refine ⟨l, _, hy, serving_next hn hs hy, ?_⟩
  rw [answer_proc]
  by_cases hm : s.master = .exited
  · exact Or.inl (Or.inl (Or.inr (by rwa [answer_proc])))
  · exact Or.inr (rank_lt hs.inv hs.fed ho hl (step_of_next hnext) hm)

/-- **The server goes on** until every request has its response or the process is gone. -/
theorem service_reaches {buffers : ℕ} {x : Service n} (hn : 0 < n) (hb : 0 < buffers)
    (hs : Serving fs reqs policy buffers x) :
    ∃ ls y, (service fs reqs policy n).run x ls = some y ∧ (y.Exited ∨ y.Answered reqs) := by
  obtain ⟨ls, y, hrun, -, hy⟩ := Machine.run_reaches (fun x : Service n => rank reqs.length x.proc)
    (fun x hs hend => service_forward hn hb hs hend) hs
  exact ⟨ls, y, hrun, hy⟩

/-- Under SFF a request that has its response was one that the server can answer. -/
theorem servable_of_answered {buffers : ℕ} {x : Service n}
    (hs : Serving fs reqs .sff buffers x) (ha : x.Answered reqs) : ∀ r ∈ reqs, Servable fs r := by
  intro r hr
  obtain ⟨k, hk, rfl⟩ := List.mem_iff_getElem.1 hr
  obtain ⟨a, hmem, rfl⟩ := ha k hk
  obtain ⟨hen, hresp⟩ := hs.answering.answers a hmem
  obtain ⟨q, hq, hbuff, hstat⟩ := hs.fed.enqueued a.1 hen
  rw [List.getElem?_eq_getElem hk] at hq
  cases hq
  obtain ⟨f, hf, -⟩ := Option.map_eq_some_iff.1 (Option.isSome_iff_exists.1 (hstat rfl)).choose_spec
  rw [hbuff] at hresp
  exact ⟨f, hf, (requestHandleWorker_isSome hf).1 (Option.isSome_iff_exists.2 ⟨_, hresp⟩)⟩

end

/-- No files at all. -/
def noFiles : FileSystem where
  stat _ := none
  cgi _ _ := []

/-- `GET /a HTTP/1.0` -/
def getA : GetRequest where
  line := ascii "GET /a HTTP/1.0\r\n"
  three_words := by decide +kernel
  isGet := by decide +kernel
  no_zero := by decide +kernel
  line_fits := by decide +kernel
  filename_fits := by decide +kernel
  body_fits := by decide +kernel

end Web

end OperatingSystems

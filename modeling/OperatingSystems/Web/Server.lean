import OperatingSystems.Web.Queue
import Mathlib.Data.List.Nodup

/-!
# The master and the workers of the web server

`main` of `server.c` accepts connections, computes their priority and enqueues them;
`serverWorker` runs in `n` threads that dequeue and serve.  All of them share the queue `q` under
the mutex `cLock`, the master waits on `full` and the workers on `empty`.

`server` is the machine of all interleavings.  A label names the thread that moves.  A thread that
waits on a condition is blocked until it is signalled or wakes up spuriously, and then has to take
`cLock` again and to test its condition again; `Pthread_cond_signal` wakes at least one of the
threads that wait, when there is one.

* `State.enqueued` and `State.dequeued` are ghosts: the connections enqueued so far in order, and
  those dequeued so far with the worker that took each of them.  A connection carries its number,
  another ghost, so that two connections on the same socket descriptor are told apart.
* `Exclusive` : `cLock` is held by one thread at a time.
* `Ready` : the master enqueues only when there is room, a worker dequeues only when there is an
  entry.
* `Accounted` : the queue holds what was enqueued and not yet dequeued.
* `handoff` : all of it in every reachable state.
-/

namespace OperatingSystems

namespace Web

open Heap

/-- The scheduling policies. -/
inductive Policy where
  | fifo
  | sfnf
  | sff
  deriving DecidableEq

/-- What the master learns of a request: the request line, the name of the file, and the size
of the file, if `stat` finds it. -/
structure Request where
  buff : List UInt8
  filename : List UInt8
  fileStat : Option ℤ
  deriving DecidableEq

/-- A connection in the queue: its `struct data` and, as a ghost, how many were enqueued before
it. -/
structure Conn where
  data : Data
  id : ℕ
  deriving DecidableEq

/-- The priority by which the queue is ordered. -/
def Conn.priority (c : Conn) : ℤ := c.data.priority

/-- Conversion to a 32-bit `int`. -/
def toInt (x : ℤ) : ℤ := Int.bmod x (2 ^ 32)

/-- The priority the master gives to a request; `none` when it calls `exit`. -/
def requestPriority (policy : Policy) (count : ℤ) (r : Request) : Option ℤ :=
  match policy with
  | .fifo => some count
  | .sfnf => some (toInt r.filename.length)
  | .sff => r.fileStat.map toInt

/-- Where the master is. -/
inductive MasterPc where
  /-- At `Accept`. -/
  | accept
  /-- At the first `Pthread_mutex_lock`. -/
  | lock
  /-- Holds `cLock`, at the test of `isFull`. -/
  | check
  /-- In `Pthread_cond_wait(&full, &cLock)`, not yet woken. -/
  | waitFull
  /-- In `Pthread_cond_wait(&full, &cLock)`, woken, has to take `cLock` again. -/
  | wokenFull
  /-- Released `cLock`, at `getRequestFileName`. -/
  | prepare
  /-- At the second `Pthread_mutex_lock`. -/
  | lockEnqueue (d : Conn)
  /-- Holds `cLock`, at `enqueue`. -/
  | enqueue (d : Conn)
  /-- The process has exited. -/
  | exited
  deriving DecidableEq

/-- Where a worker is. -/
inductive WorkerPc where
  /-- At `Pthread_mutex_lock`. -/
  | lock
  /-- Holds `cLock`, at the test of `isEmpty`. -/
  | check
  /-- In `Pthread_cond_wait(&empty, &cLock)`, not yet woken. -/
  | waitEmpty
  /-- In `Pthread_cond_wait(&empty, &cLock)`, woken, has to take `cLock` again. -/
  | wokenEmpty
  /-- Holds `cLock`, at `dequeue`. -/
  | dequeue
  /-- Released `cLock`, at `requestHandleWorker`. -/
  | handle (d : Conn)
  deriving DecidableEq

/-- The threads of the process. -/
inductive Thread (n : ℕ) where
  | master
  | worker (i : Fin n)
  deriving DecidableEq

/-- The state of the process, with `n` workers. -/
structure State (n : ℕ) where
  /-- The holder of `cLock`. -/
  cLock : Option (Thread n)
  master : MasterPc
  worker : Fin n → WorkerPc
  q : Queue Conn
  /-- The descriptor of the connection the master is working on. -/
  connfd : ℤ
  /-- The counter of the FIFO policy. -/
  count : ℤ
  /-- The connections enqueued so far. -/
  enqueued : List Conn
  /-- The connections dequeued so far, each with the worker that took it. -/
  dequeued : List (Fin n × Conn)

/-- The steps of the threads. -/
inductive Label (n : ℕ) where
  /-- `Accept` returns `connfd`. -/
  | accept (connfd : ℤ)
  /-- The master takes `cLock` to test `isFull`. -/
  | masterLock
  /-- The master tests `isFull`, and waits or releases `cLock`. -/
  | masterCheck
  /-- The master wakes up without having been signalled. -/
  | masterSpurious
  /-- The master reads the request and computes its priority. -/
  | masterPrepare (r : Request)
  /-- The master takes `cLock` to enqueue. -/
  | masterLockEnqueue
  /-- The master enqueues, signals `empty`, which wakes `woken`, and releases `cLock`. -/
  | masterEnqueue (woken : Finset (Fin n))
  /-- Worker `i` takes `cLock`. -/
  | workerLock (i : Fin n)
  /-- Worker `i` tests `isEmpty`. -/
  | workerCheck (i : Fin n)
  /-- Worker `i` wakes up without having been signalled. -/
  | workerSpurious (i : Fin n)
  /-- Worker `i` dequeues, signals `full` and releases `cLock`. -/
  | workerDequeue (i : Fin n)
  /-- Worker `i` has served its connection. -/
  | workerDone (i : Fin n)

variable {n : ℕ}

/-- Worker `i` goes to `pc`. -/
def State.setWorker (s : State n) (i : Fin n) (pc : WorkerPc) : State n :=
  { s with worker := Function.update s.worker i pc }

/-- `Pthread_cond_signal(&full)`: only the master waits on `full`. -/
def signalFull : MasterPc → MasterPc
  | .waitFull => .wokenFull
  | pc => pc

/-- `Pthread_cond_signal(&empty)` may wake the workers of `woken`: they all wait, and if some
worker waits then `woken` is not empty. -/
def SignalEmpty (s : State n) (woken : Finset (Fin n)) : Prop :=
  (∀ i ∈ woken, s.worker i = .waitEmpty) ∧ ((∃ i, s.worker i = .waitEmpty) → woken.Nonempty)

instance (s : State n) (woken : Finset (Fin n)) : Decidable (SignalEmpty s woken) :=
  inferInstanceAs (Decidable (_ ∧ _))

/-- The workers after `Pthread_cond_signal(&empty)` woke `woken`. -/
def wakeEmpty (worker : Fin n → WorkerPc) (woken : Finset (Fin n)) (i : Fin n) : WorkerPc :=
  if i ∈ woken then .wokenEmpty else worker i

/-- `main` and the `n` threads of `serverWorker`. -/
def server (policy : Policy) (n : ℕ) : Machine (State n) (Label n) where
  next s l :=
    if s.master = .exited then none else
    match l with
    | .accept connfd =>
      if s.master = .accept then some { s with master := .lock, connfd := connfd } else none
    | .masterLock =>
      if (s.master = .lock ∨ s.master = .wokenFull) ∧ s.cLock = none then
        some { s with master := .check, cLock := some .master }
      else none
    | .masterCheck =>
      if s.master = .check then
        some { s with master := if isFull s.q then .waitFull else .prepare, cLock := none }
      else none
    | .masterSpurious =>
      if s.master = .waitFull then some { s with master := .wokenFull } else none
    | .masterPrepare r =>
      if s.master = .prepare then
        match requestPriority policy s.count r with
        | none => some { s with master := .exited }
        | some priority =>
          some { s with
            master := .lockEnqueue ⟨⟨priority, s.connfd, r.buff⟩, s.enqueued.length⟩
            count := if policy = .fifo then toInt (s.count + 1) else s.count }
      else none
    | .masterLockEnqueue =>
      match s.master with
      | .lockEnqueue d =>
        if s.cLock = none then some { s with master := .enqueue d, cLock := some .master } else none
      | _ => none
    | .masterEnqueue woken =>
      match s.master with
      | .enqueue d =>
        if SignalEmpty s woken then
          some { s with
            master := .accept
            cLock := none
            worker := wakeEmpty s.worker woken
            q := enqueue Conn.priority s.q d
            enqueued := s.enqueued ++ [d] }
        else none
      | _ => none
    | .workerLock i =>
      if (s.worker i = .lock ∨ s.worker i = .wokenEmpty) ∧ s.cLock = none then
        some { s.setWorker i .check with cLock := some (.worker i) }
      else none
    | .workerCheck i =>
      if s.worker i = .check then
        if isEmpty s.q then some { s.setWorker i .waitEmpty with cLock := none }
        else some (s.setWorker i .dequeue)
      else none
    | .workerSpurious i =>
      if s.worker i = .waitEmpty then some (s.setWorker i .wokenEmpty) else none
    | .workerDequeue i =>
      if s.worker i = .dequeue then
        let r := dequeue Conn.priority s.q
        some { s.setWorker i (.handle r.1) with
          master := signalFull s.master
          cLock := none
          q := r.2
          dequeued := s.dequeued ++ [(i, r.1)] }
      else none
    | .workerDone i =>
      match s.worker i with
      | .handle _ => some (s.setWorker i .lock)
      | _ => none

/-- The state in which `main` enters its loop. -/
def serverInit (n : ℕ) (mem : ℕ → Conn) (dummy : Conn) (buffers : ℕ) : State n where
  cLock := none
  master := .accept
  worker _ := .lock
  q := initQueue mem dummy buffers
  connfd := 0
  count := 0
  enqueued := []
  dequeued := []

/-! ### The steps, one by one -/

/-- What the steps of `server` do. -/
inductive Step (policy : Policy) (s : State n) : Label n → State n → Prop
  | accept (connfd : ℤ) : s.master = .accept →
      Step policy s (.accept connfd) { s with master := .lock, connfd := connfd }
  | masterLock : s.master = .lock ∨ s.master = .wokenFull → s.cLock = none →
      Step policy s .masterLock { s with master := .check, cLock := some .master }
  | masterWait : s.master = .check → isFull s.q →
      Step policy s .masterCheck { s with master := .waitFull, cLock := none }
  | masterUnlock : s.master = .check → ¬ isFull s.q →
      Step policy s .masterCheck { s with master := .prepare, cLock := none }
  | masterSpurious : s.master = .waitFull →
      Step policy s .masterSpurious { s with master := .wokenFull }
  | masterExit (r : Request) : s.master = .prepare → requestPriority policy s.count r = none →
      Step policy s (.masterPrepare r) { s with master := .exited }
  | masterPrepare (r : Request) (p count : ℤ) : s.master = .prepare →
      requestPriority policy s.count r = some p →
      Step policy s (.masterPrepare r)
        { s with
          master := .lockEnqueue ⟨⟨p, s.connfd, r.buff⟩, s.enqueued.length⟩
          count := count }
  | masterLockEnqueue (d : Conn) : s.master = .lockEnqueue d → s.cLock = none →
      Step policy s .masterLockEnqueue { s with master := .enqueue d, cLock := some .master }
  | masterEnqueue (d : Conn) (woken : Finset (Fin n)) : s.master = .enqueue d →
      SignalEmpty s woken →
      Step policy s (.masterEnqueue woken)
        { s with
          master := .accept
          cLock := none
          worker := wakeEmpty s.worker woken
          q := enqueue Conn.priority s.q d
          enqueued := s.enqueued ++ [d] }
  | workerLock (i : Fin n) : s.worker i = .lock ∨ s.worker i = .wokenEmpty → s.cLock = none →
      Step policy s (.workerLock i) { s.setWorker i .check with cLock := some (.worker i) }
  | workerWait (i : Fin n) : s.worker i = .check → isEmpty s.q →
      Step policy s (.workerCheck i) { s.setWorker i .waitEmpty with cLock := none }
  | workerPass (i : Fin n) : s.worker i = .check → ¬ isEmpty s.q →
      Step policy s (.workerCheck i) (s.setWorker i .dequeue)
  | workerSpurious (i : Fin n) : s.worker i = .waitEmpty →
      Step policy s (.workerSpurious i) (s.setWorker i .wokenEmpty)
  | workerDequeue (i : Fin n) : s.worker i = .dequeue →
      Step policy s (.workerDequeue i)
        { s.setWorker i (.handle (dequeue Conn.priority s.q).1) with
          master := signalFull s.master
          cLock := none
          q := (dequeue Conn.priority s.q).2
          dequeued := s.dequeued ++ [(i, (dequeue Conn.priority s.q).1)] }
  | workerDone (i : Fin n) (d : Conn) : s.worker i = .handle d →
      Step policy s (.workerDone i) (s.setWorker i .lock)

theorem step_of_next {policy : Policy} {s s' : State n} {l : Label n}
    (h : (server policy n).next s l = some s') : Step policy s l s' := by
  simp only [server] at h
  split at h
  · cases h
  -- a label with two outcomes has a constructor for each
  cases l with
  | accept connfd =>
    dsimp only at h; split at h <;> cases h
    exact .accept connfd ‹_›
  | masterLock =>
    dsimp only at h; split at h <;> cases h
    next hc => exact .masterLock hc.1 hc.2
  | masterCheck =>
    dsimp only at h; split at h <;> cases h
    next hc =>
      by_cases hf : isFull s.q
      · simp only [hf, ↓reduceIte]; exact .masterWait hc hf
      · simp only [hf, Bool.false_eq_true, ↓reduceIte]; exact .masterUnlock hc hf
  | masterSpurious =>
    dsimp only at h; split at h <;> cases h
    exact .masterSpurious ‹_›
  | masterPrepare r =>
    dsimp only at h; split at h
    · next hc =>
      cases hp : requestPriority policy s.count r with
      | none => rw [hp] at h; cases h; exact .masterExit r hc hp
      | some p => rw [hp] at h; cases h; exact .masterPrepare r p _ hc hp
    · cases h
  | masterLockEnqueue =>
    dsimp only at h; split at h
    · next d hc =>
      split at h <;> cases h
      exact .masterLockEnqueue d hc ‹_›
    · cases h
  | masterEnqueue woken =>
    dsimp only at h; split at h
    · next d hc =>
      split at h <;> cases h
      exact .masterEnqueue d woken hc ‹_›
    · cases h
  | workerLock i =>
    dsimp only at h; split at h <;> cases h
    next hc => exact .workerLock i hc.1 hc.2
  | workerCheck i =>
    dsimp only at h; split at h
    · next hc =>
      split at h <;> cases h
      · exact .workerWait i hc ‹_›
      · exact .workerPass i hc ‹_›
    · cases h
  | workerSpurious i =>
    dsimp only at h; split at h <;> cases h
    exact .workerSpurious i ‹_›
  | workerDequeue i =>
    dsimp only at h; split at h <;> cases h
    exact .workerDequeue i ‹_›
  | workerDone i =>
    dsimp only at h; split at h
    · next d hc => cases h; exact .workerDone i d hc
    · cases h

/-! ### The mutex -/

/-- The places at which the master holds `cLock`. -/
def MasterPc.Holds : MasterPc → Prop
  | .check | .enqueue _ => True
  | _ => False

/-- The places at which a worker holds `cLock`. -/
def WorkerPc.Holds : WorkerPc → Prop
  | .check | .dequeue => True
  | _ => False

/-- `cLock` is held by the thread that is in a critical section. -/
structure Exclusive (s : State n) : Prop where
  master : s.master.Holds ↔ s.cLock = some .master
  worker : ∀ i, (s.worker i).Holds ↔ s.cLock = some (.worker i)

theorem exclusive_init (n : ℕ) (mem : ℕ → Conn) (dummy : Conn) (buffers : ℕ) :
    Exclusive (serverInit n mem dummy buffers) where
  master := by simp [serverInit, MasterPc.Holds]
  worker i := by simp [serverInit, WorkerPc.Holds]

/-- A move of the master that leaves the workers and `cLock` where they are, from a place outside
the critical sections to another one. -/
theorem Exclusive.master_stays {s s' : State n} (he : Exclusive s) (h : ¬ s.master.Holds)
    (h' : ¬ s'.master.Holds) (hl : s'.cLock = s.cLock) (hw : s'.worker = s.worker) :
    Exclusive s' where
  master := by rw [hl, ← he.master]; exact iff_of_false h' h
  worker i := by rw [hl, hw]; exact he.worker i

/-- The thread that takes the free `cLock` is the only one in a critical section. -/
theorem Exclusive.none_holds {s : State n} (he : Exclusive s) (hl : s.cLock = none) :
    ¬ s.master.Holds ∧ ∀ i, ¬ (s.worker i).Holds := by
  refine ⟨fun h => ?_, fun i h => ?_⟩
  · rw [he.master, hl] at h; cases h
  · rw [he.worker, hl] at h; cases h

theorem signalFull_holds (pc : MasterPc) : (signalFull pc).Holds ↔ pc.Holds := by
  cases pc <;> rfl

theorem wakeEmpty_holds {s : State n} {woken : Finset (Fin n)} (h : SignalEmpty s woken)
    (i : Fin n) : (wakeEmpty s.worker woken i).Holds ↔ (s.worker i).Holds := by
  unfold wakeEmpty
  split_ifs with hi
  · rw [h.1 i hi]; rfl
  · rfl

theorem exclusive_step {policy : Policy} {s s' : State n} {l : Label n} (he : Exclusive s)
    (h : Step policy s l s') : Exclusive s' := by
  cases h with
  | accept connfd hm | masterSpurious hm | masterExit r hm hp | masterPrepare r p count hm hp =>
    exact he.master_stays (by rw [hm]; exact id) id rfl rfl
  | masterLock hm hl | masterLockEnqueue d hm hl =>
    have hno := he.none_holds hl
    exact ⟨by simp [MasterPc.Holds], fun i => by simp [hno.2 i]⟩
  | masterWait hm hf | masterUnlock hm hf =>
    have hl := he.master.1 (by rw [hm]; trivial)
    exact ⟨by simp [MasterPc.Holds], fun i => by
      have := he.worker i
      rw [hl] at this
      simpa using this⟩
  | masterEnqueue d woken hm hw =>
    have hl := he.master.1 (by rw [hm]; trivial)
    exact ⟨by simp [MasterPc.Holds], fun i => by
      have := he.worker i
      rw [hl] at this
      simpa [wakeEmpty_holds hw] using this⟩
  | workerLock i hw hl =>
    have hno := he.none_holds hl
    refine ⟨by simpa [State.setWorker] using hno.1, fun j => ?_⟩
    rcases eq_or_ne j i with rfl | hj
    · simp [State.setWorker, WorkerPc.Holds]
    · simp [State.setWorker, hj, Ne.symm hj, hno.2 j]
  | workerWait i hw hq | workerDequeue i hw =>
    have hl := (he.worker i).1 (by rw [hw]; trivial)
    have hm := he.master
    rw [hl] at hm
    refine ⟨by simpa [State.setWorker, signalFull_holds] using hm, fun j => ?_⟩
    rcases eq_or_ne j i with rfl | hj
    · simp [State.setWorker, WorkerPc.Holds]
    · have := he.worker j
      rw [hl] at this
      simpa [State.setWorker, hj, Ne.symm hj] using this
  | workerPass i hw hq =>
    refine ⟨he.master, fun j => ?_⟩
    rcases eq_or_ne j i with rfl | hj
    · simpa [State.setWorker, hw, WorkerPc.Holds] using he.worker j
    · simpa [State.setWorker, hj] using he.worker j
  | workerSpurious i hw | workerDone i d hw =>
    refine ⟨he.master, fun j => ?_⟩
    rcases eq_or_ne j i with rfl | hj
    · simpa [State.setWorker, hw, WorkerPc.Holds] using he.worker j
    · simpa [State.setWorker, hj] using he.worker j

/-! ### The guards -/

/-- The places between the master's test of `isFull` and its `enqueue`. -/
def MasterPc.HasRoom : MasterPc → Prop
  | .prepare | .lockEnqueue _ | .enqueue _ => True
  | _ => False

/-- The master has room for its connection, a worker that dequeues finds an entry. -/
structure Ready (s : State n) : Prop where
  room : s.master.HasRoom → ¬ isFull s.q
  entry : ∀ i, s.worker i = .dequeue → ¬ isEmpty s.q

/-- The state of the queue and of the ghosts. -/
structure Accounted (buffers : ℕ) (s : State n) : Prop where
  valid : s.q.Valid Conn.priority
  bufSz : s.q.bufSz = buffers + 1
  /-- The connection the master is about to enqueue carries the next number. -/
  pending : ∀ d, s.master = .lockEnqueue d ∨ s.master = .enqueue d → d.id = s.enqueued.length
  ids : s.enqueued.map Conn.id = List.range s.enqueued.length
  /-- Nothing is lost and nothing is dequeued twice. -/
  contents : s.q.contents + ↑(s.dequeued.map Prod.snd) = (↑s.enqueued : Multiset Conn)

theorem not_isFull_dequeue {q : Queue Conn} (hv : q.Valid Conn.priority) (he : ¬ isEmpty q) :
    ¬ isFull (dequeue Conn.priority q).2 := by
  have := two_le_size hv he
  have := hv.le
  rw [isFull_iff]
  simp only [dequeue]
  omega

theorem not_isEmpty_enqueue {q : Queue Conn} (hv : q.Valid Conn.priority) (d : Conn) :
    ¬ isEmpty (enqueue Conn.priority q d) := by
  have := hv.one_le
  rw [isEmpty_iff]
  simp only [enqueue]
  omega

theorem ready_step {policy : Policy} {buffers : ℕ} {s s' : State n} {l : Label n}
    (he : Exclusive s) (ha : Accounted buffers s) (hr : Ready s) (h : Step policy s l s') :
    Ready s' := by
  cases h with
  | accept connfd hm | masterLock hm hl | masterWait hm hf | masterSpurious hm
  | masterExit r hm hp =>
    exact ⟨False.elim, hr.entry⟩
  | masterUnlock hm hf => exact ⟨fun _ => hf, hr.entry⟩
  | masterPrepare r p count hm hp | masterLockEnqueue d hm hl =>
    exact ⟨fun _ => hr.room (by rw [hm]; trivial), hr.entry⟩
  | masterEnqueue d woken hm hw =>
    exact ⟨False.elim, fun i _ => not_isEmpty_enqueue ha.valid d⟩
  | workerLock i hw hl | workerWait i hw hq | workerSpurious i hw | workerDone i d hw =>
    refine ⟨hr.room, fun j hj => hr.entry j ?_⟩
    rcases eq_or_ne j i with rfl | hne
    · simp [State.setWorker] at hj
    · simpa [State.setWorker, hne] using hj
  | workerPass i hw hq => exact ⟨hr.room, fun _ _ => hq⟩
  | workerDequeue i hw =>
    have hl := (he.worker i).1 (by rw [hw]; trivial)
    refine ⟨fun _ => not_isFull_dequeue ha.valid (hr.entry i hw), fun j hj => ?_⟩
    rcases eq_or_ne j i with rfl | hne
    · simp [State.setWorker] at hj
    · -- a second worker at `dequeue` would hold `cLock` too
      have hj' : s.worker j = .dequeue := by simpa [State.setWorker, hne] using hj
      have := (he.worker j).1 (by rw [hj']; trivial)
      rw [hl] at this
      simp [Ne.symm hne] at this

/-- A step that leaves the queue and the ghosts alone. -/
theorem Accounted.of_same {buffers : ℕ} {s s' : State n} (ha : Accounted buffers s)
    (hq : s'.q = s.q) (hen : s'.enqueued = s.enqueued) (hde : s'.dequeued = s.dequeued)
    (hp : ∀ d, s'.master = .lockEnqueue d ∨ s'.master = .enqueue d →
      d.id = s.enqueued.length) : Accounted buffers s' where
  valid := hq ▸ ha.valid
  bufSz := hq ▸ ha.bufSz
  pending d hd := by rw [hen]; exact hp d hd
  ids := by rw [hen]; exact ha.ids
  contents := by rw [hq, hen, hde]; exact ha.contents

theorem signalFull_pending {pc : MasterPc} {d : Conn}
    (h : signalFull pc = .lockEnqueue d ∨ signalFull pc = .enqueue d) :
    pc = .lockEnqueue d ∨ pc = .enqueue d := by
  cases pc <;> simp_all [signalFull]

theorem coe_map_concat {α β : Type*} (f : α → β) (l : List α) (x : α) :
    (↑((l ++ [x]).map f) : Multiset β) = f x ::ₘ ↑(l.map f) := by
  rw [List.map_append, ← Multiset.coe_add, add_comm]; rfl

theorem accounted_step {policy : Policy} {buffers : ℕ} {s s' : State n} {l : Label n}
    (ha : Accounted buffers s) (hr : Ready s) (h : Step policy s l s') :
    Accounted buffers s' := by
  cases h with
  | accept connfd hm | masterLock hm hl | masterWait hm hf | masterUnlock hm hf
  | masterSpurious hm | masterExit r hm hp =>
    exact ha.of_same rfl rfl rfl fun d hd => by simp at hd
  | masterPrepare r p count hm hp =>
    exact ha.of_same rfl rfl rfl fun d hd => by
      obtain rfl : _ = d := by simpa using hd
      rfl
  | masterLockEnqueue d hm hl =>
    exact ha.of_same rfl rfl rfl fun d' hd => by
      obtain rfl : d = d' := by simpa using hd
      exact ha.pending d (Or.inl hm)
  | masterEnqueue d woken hm hw =>
    have hid := ha.pending d (Or.inr hm)
    exact {
      valid := valid_enqueue ha.valid (hr.room (by rw [hm]; trivial)) d
      bufSz := ha.bufSz
      pending := fun d' hd => by simp at hd
      ids := by
        simp only [List.map_append, ha.ids, List.map_cons, List.map_nil, hid, List.length_append,
          List.length_singleton, List.range_succ]
      contents := by
        have hc := coe_map_concat id s.enqueued d
        simp only [List.map_id, id_eq] at hc
        simp only [contents_enqueue ha.valid, Multiset.cons_add, ha.contents, hc] }
  | workerLock i hw hl | workerWait i hw hq | workerPass i hw hq | workerSpurious i hw
  | workerDone i d hw =>
    exact ha.of_same rfl rfl rfl ha.pending
  | workerDequeue i hw =>
    have hne := hr.entry i hw
    exact {
      valid := valid_dequeue ha.valid hne
      bufSz := ha.bufSz
      pending := fun d hd => ha.pending d (signalFull_pending hd)
      ids := ha.ids
      contents := by
        change (dequeue Conn.priority s.q).2.contents +
          ↑((s.dequeued ++ [(i, (dequeue Conn.priority s.q).1)]).map Prod.snd) = (↑s.enqueued : _)
        rw [coe_map_concat, ← ha.contents, contents_dequeue ha.valid hne, Multiset.add_cons,
          Multiset.cons_add] }

/-! ### Every run -/

/-- The invariant of the web server. -/
structure ServerInv (buffers : ℕ) (s : State n) : Prop where
  exclusive : Exclusive s
  ready : Ready s
  accounted : Accounted buffers s

theorem serverInv_init (mem : ℕ → Conn) (dummy : Conn) (buffers : ℕ) :
    ServerInv buffers (serverInit n mem dummy buffers) where
  exclusive := exclusive_init n mem dummy buffers
  ready := ⟨False.elim, fun i h => by simp [serverInit] at h⟩
  accounted := {
    valid := valid_initQueue mem dummy buffers
    bufSz := rfl
    pending := fun d hd => by simp [serverInit] at hd
    ids := rfl
    contents := by
      change (initQueue mem dummy buffers).contents + 0 = 0
      rw [contents_initQueue, add_zero] }

theorem serverInv_run {policy : Policy} {buffers : ℕ} {mem : ℕ → Conn} {dummy : Conn}
    {ls : List (Label n)} {s : State n}
    (h : (server policy n).run (serverInit n mem dummy buffers) ls = some s) :
    ServerInv buffers s :=
  Machine.run_invariant h (serverInv_init mem dummy buffers) fun _ _ _ hi hl =>
    have hst := step_of_next hl
    ⟨exclusive_step hi.exclusive hst, ready_step hi.exclusive hi.accounted hi.ready hst,
      accounted_step hi.accounted hi.ready hst⟩

/-- **The hand-off between the master and the workers.**  For every number of buffers and of
workers, in every state that an interleaving reaches: the master at `enqueue` finds the queue not
full and writes below `buffers + 1`, a worker at `dequeue` finds it not empty, the queue holds
exactly the connections enqueued and not yet dequeued, and no connection was dequeued twice, by
one worker or by two. -/
theorem handoff (policy : Policy) (mem : ℕ → Conn) (dummy : Conn) (buffers : ℕ)
    {ls : List (Label n)} {s : State n}
    (h : (server policy n).run (serverInit n mem dummy buffers) ls = some s) :
    (∀ d, s.master = .enqueue d → ¬ isFull s.q ∧ s.q.size < buffers + 1) ∧
      (∀ i, s.worker i = .dequeue → ¬ isEmpty s.q) ∧
      s.q.contents + ↑(s.dequeued.map Prod.snd) = (↑s.enqueued : Multiset Conn) ∧
      (s.enqueued.map Conn.id).Nodup ∧ (s.dequeued.map fun p => p.2.id).Nodup := by
  obtain ⟨-, hr, ha⟩ := serverInv_run h
  have hids : (s.enqueued.map Conn.id).Nodup := ha.ids ▸ List.nodup_range
  refine ⟨fun d hd => ?_, hr.entry, ha.contents, hids, ?_⟩
  · have hf := hr.room (by rw [hd]; trivial)
    refine ⟨hf, ?_⟩
    rw [isFull_iff, ha.bufSz] at hf
    have := ha.valid.le
    rw [ha.bufSz] at this
    omega
  · -- the dequeued connections are part of the enqueued ones
    have hle : (↑(s.dequeued.map Prod.snd) : Multiset Conn) ≤ ↑s.enqueued :=
      ha.contents ▸ Multiset.le_add_left _ _
    have hnd : (Multiset.map Conn.id (↑(s.dequeued.map Prod.snd) : Multiset Conn)).Nodup :=
      Multiset.nodup_of_le (Multiset.map_le_map hle) (by simpa using hids)
    simpa [Function.comp_def] using hnd

/-- One request, from `Accept` to the worker that takes it, while the other worker waits. -/
theorem handoff_one_request : ∃ s : State 2,
    (server .fifo 2).run (serverInit 2 (fun _ => ⟨⟨0, 0, []⟩, 0⟩) ⟨⟨-1, -1, []⟩, 0⟩ 1)
      [.workerLock 1, .workerCheck 1, .accept 4, .masterLock, .masterCheck,
        .masterPrepare ⟨[], [], none⟩, .masterLockEnqueue, .masterEnqueue {1}, .workerLock 0,
        .workerCheck 0, .workerDequeue 0] = some s ∧
    (s.dequeued.map fun p => p.2.id).Nodup := by
  have hrun : ∃ s : State 2,
      (server .fifo 2).run (serverInit 2 (fun _ => ⟨⟨0, 0, []⟩, 0⟩) ⟨⟨-1, -1, []⟩, 0⟩ 1)
        [.workerLock 1, .workerCheck 1, .accept 4, .masterLock, .masterCheck,
          .masterPrepare ⟨[], [], none⟩, .masterLockEnqueue, .masterEnqueue {1}, .workerLock 0,
          .workerCheck 0, .workerDequeue 0] = some s :=
    Option.isSome_iff_exists.1 (by decide +kernel)
  obtain ⟨s, hs⟩ := hrun
  exact ⟨s, hs, (handoff _ _ _ _ hs).2.2.2.2⟩

end Web

end OperatingSystems

import OperatingSystems.Web.Server

/-!
# No thread of the web server waits in vain

Both conditions are signalled with `Pthread_cond_signal`, and a thread that was woken may find that
another one was faster.  What a thread that waits can rely on is a property of the states:

* `Awake` : while there is an entry in the queue some worker is not waiting on `empty`, and the
  master waits on `full` only while the queue is full.
* `awake_step` : every step keeps it.
* `no_stranded_request` : it holds in every reachable state.
-/

namespace OperatingSystems

namespace Web

open Heap

variable {n : ℕ}

/-- No thread waits for what is already there. -/
structure Awake (s : State n) : Prop where
  worker : ¬ isEmpty s.q → ∃ i, s.worker i ≠ .waitEmpty
  master : s.master = .waitFull → isFull s.q

theorem awake_init (mem : ℕ → Conn) (dummy : Conn) (buffers : ℕ) :
    Awake (serverInit n mem dummy buffers) := by
  refine ⟨fun h => ?_, fun h => ?_⟩
  · exact absurd (isEmpty_iff.2 rfl) h
  · cases h

/-- A worker that goes to a place other than `waitEmpty` is not waiting. -/
theorem setWorker_ne_waitEmpty (s : State n) (i : Fin n) {pc : WorkerPc} (h : pc ≠ .waitEmpty) :
    ∃ j, (s.setWorker i pc).worker j ≠ .waitEmpty :=
  ⟨i, by simpa [State.setWorker] using h⟩

/-- After a signal on `empty` there is a worker that does not wait. -/
theorem wakeEmpty_ne_waitEmpty {s : State n} {woken : Finset (Fin n)} (hn : 0 < n)
    (h : SignalEmpty s woken) : ∃ i, wakeEmpty s.worker woken i ≠ .waitEmpty := by
  by_cases hwait : ∃ i, s.worker i = .waitEmpty
  · obtain ⟨i, hi⟩ := h.2 hwait
    exact ⟨i, by simp [wakeEmpty, hi]⟩
  · refine ⟨⟨0, hn⟩, fun h0 => hwait ?_⟩
    unfold wakeEmpty at h0
    split_ifs at h0
    exact ⟨_, h0⟩

theorem signalFull_ne_waitFull (pc : MasterPc) : signalFull pc ≠ .waitFull := by
  cases pc <;> simp [signalFull]

/-- **One step** of the master or of a worker leaves no thread waiting for what is there. -/
theorem awake_step {policy : Policy} {s s' : State n} {l : Label n} (hn : 0 < n) (ha : Awake s)
    (h : Step policy s l s') : Awake s' := by
  cases h with
  | accept connfd hm | masterLock hm hl | masterUnlock hm hf | masterSpurious hm
  | masterExit r hm hp | masterPrepare r p count hm hp | masterLockEnqueue d hm hl =>
    exact ⟨ha.worker, nofun⟩
  | masterWait hm hf => exact ⟨ha.worker, fun _ => hf⟩
  | masterEnqueue d woken hm hw => exact ⟨fun _ => wakeEmpty_ne_waitEmpty hn hw, nofun⟩
  | workerLock i hw hl | workerPass i hw hq | workerSpurious i hw | workerDone i d hw =>
    exact ⟨fun _ => setWorker_ne_waitEmpty s i (by simp), ha.master⟩
  | workerWait i hw hq =>
    -- the worker that goes to sleep has seen the queue empty
    exact ⟨fun hne => absurd hq hne, ha.master⟩
  | workerDequeue i hw =>
    exact ⟨fun _ => setWorker_ne_waitEmpty s i (by simp),
      fun hm => absurd hm (signalFull_ne_waitFull s.master)⟩

/-- **The queue cannot deadlock or strand a request.**  For every number of buffers, every positive
number of workers and every interleaving: while the queue is not empty at least one worker is not
blocked on `empty`, and the master is blocked on `full` only while the queue is full. -/
theorem no_stranded_request (policy : Policy) (mem : ℕ → Conn) (dummy : Conn) (buffers : ℕ)
    (hn : 0 < n) {ls : List (Label n)} {s : State n}
    (h : (server policy n).run (serverInit n mem dummy buffers) ls = some s) :
    (¬ isEmpty s.q → ∃ i, s.worker i ≠ .waitEmpty) ∧ (s.master = .waitFull → isFull s.q) := by
  have ha : Awake s := Machine.run_invariant h (awake_init mem dummy buffers)
    fun _ _ _ ha hl => awake_step hn ha (step_of_next hl)
  exact ⟨ha.worker, ha.master⟩

/-- The only worker waits when a connection is enqueued, and is woken. -/
theorem no_stranded_request_one_worker : ∃ s : State 1,
    (server .fifo 1).run (serverInit 1 (fun _ => ⟨⟨0, 0, []⟩, 0⟩) ⟨⟨-1, -1, []⟩, 0⟩ 1)
      [.workerLock 0, .workerCheck 0, .accept 4, .masterLock, .masterCheck,
        .masterPrepare ⟨[], [], none⟩, .masterLockEnqueue, .masterEnqueue {0}] = some s ∧
    (¬ isEmpty s.q → ∃ i, s.worker i ≠ .waitEmpty) := by
  have hrun : ∃ s : State 1,
      (server .fifo 1).run (serverInit 1 (fun _ => ⟨⟨0, 0, []⟩, 0⟩) ⟨⟨-1, -1, []⟩, 0⟩ 1)
        [.workerLock 0, .workerCheck 0, .accept 4, .masterLock, .masterCheck,
          .masterPrepare ⟨[], [], none⟩, .masterLockEnqueue, .masterEnqueue {0}] = some s :=
    Option.isSome_iff_exists.1 (by decide +kernel)
  obtain ⟨s, hs⟩ := hrun
  exact ⟨s, hs, (no_stranded_request _ _ _ _ (by decide) hs).1⟩

end Web

end OperatingSystems

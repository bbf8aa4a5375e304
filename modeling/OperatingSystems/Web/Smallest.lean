import OperatingSystems.Web.Fifo
import Mathlib.Algebra.Order.Ring.Nat
import Mathlib.Data.Int.ConditionallyCompleteOrder
import Mathlib.Order.ConditionallyCompleteLattice.Basic

/-!
# The order of the requests under SFF

Under the policy SFF the priority of a request is the size of its file.  The size is an `off_t`, of 64
bits, and the priority an `int`: the heap compares what is left of the sizes.

* `grow`, `sizeOf` : a ghost, the sizes of the files of the connections, as `stat` reported them.
* `SmallestFirst` : no entry of the queue has a smaller file than the one that is dequeued.
* `Sized` : the invariant; priorities are sizes, converted.
* `sff_iff` : **the smallest file is always first if and only if the conversion keeps the order of the
  sizes.**
* `sff_large_first` : a file of 4 GiB before one of a single byte.
-/

namespace OperatingSystems

namespace Web

open Heap

variable {n : ℕ}

/-- The sizes of the files so far, and that of the request which the master prepares. -/
def grow (s : State n) (l : Label n) (sizes : List ℤ) : List ℤ :=
  match l with
  | .masterPrepare r => if s.master = .prepare then sizes ++ r.fileStat.toList else sizes
  | _ => sizes

/-- The size of the file of a connection. -/
def sizeOf (sizes : List ℤ) (c : Conn) : ℤ := sizes.getD c.id 0

/-- The entry that is dequeued has a smallest file. -/
def SmallestFirst (x : State n × List ℤ) : Label n → Prop
  | .workerDequeue i => x.1.worker i = .dequeue → ∀ e ∈ (dequeue Conn.priority x.1.q).2.contents,
      sizeOf x.2 (dequeue Conn.priority x.1.q).1 ≤ sizeOf x.2 e
  | _ => True

/-- The file of the request, if it is there, has a size in `S`. -/
def Label.SizeIn (S : Set ℤ) : Label n → Prop
  | .masterPrepare r => ∀ size ∈ r.fileStat, size ∈ S
  | _ => True

/-! ### The invariant -/

/-- The connection has a file of a size in `S`, and the size, converted, as its priority. -/
def HasSize (S : Set ℤ) (sizes : List ℤ) (c : Conn) : Prop :=
  ∃ size ∈ S, sizes[c.id]? = some size ∧ c.priority = toInt size

/-- The priorities are the sizes of the files, converted. -/
structure Sized (S : Set ℤ) (x : State n × List ℤ) : Prop where
  length : x.2.length = x.1.enqueued.length + x.1.master.numbered
  enqueued : ∀ d ∈ x.1.enqueued, HasSize S x.2 d
  pending : ∀ d, x.1.master = .lockEnqueue d ∨ x.1.master = .enqueue d → HasSize S x.2 d

variable {S : Set ℤ} {s s' : State n} {l : Label n} {sizes : List ℤ} {c : Conn}

theorem HasSize.append (h : HasSize S sizes c) (more : List ℤ) : HasSize S (sizes ++ more) c := by
  obtain ⟨size, hS, hsize, hpriority⟩ := h
  obtain ⟨hlt, -⟩ := List.getElem?_eq_some_iff.1 hsize
  exact ⟨size, hS, by rw [List.getElem?_append_left hlt, hsize], hpriority⟩

theorem HasSize.sizeOf_mem (h : HasSize S sizes c) :
    sizeOf sizes c ∈ S ∧ c.priority = toInt (sizeOf sizes c) := by
  obtain ⟨size, hS, hsize, hpriority⟩ := h
  have heq : sizeOf sizes c = size := by
    rw [sizeOf, List.getD_eq_getElem?_getD, hsize, Option.getD_some]
  rw [heq]
  exact ⟨hS, hpriority⟩

theorem sized_init (S : Set ℤ) (mem : ℕ → Conn) (dummy : Conn) (buffers : ℕ) :
    Sized S (serverInit n mem dummy buffers, []) where
  length := rfl
  enqueued d hd := by simp [serverInit] at hd
  pending d hd := by simp [serverInit] at hd

/-- A step that leaves the connections alone. -/
theorem Sized.of_same (h : Sized S (s, sizes)) (hen : s'.enqueued = s.enqueued)
    (hnum : s'.master.numbered = s.master.numbered)
    (hpend : ∀ d, s'.master = .lockEnqueue d ∨ s'.master = .enqueue d →
      s.master = .lockEnqueue d ∨ s.master = .enqueue d) : Sized S (s', sizes) where
  length := by rw [hen, hnum]; exact h.length
  enqueued := hen ▸ h.enqueued
  pending d hd := h.pending d (hpend d hd)

/-- **One step.** -/
theorem sized_step (h : Sized S (s, sizes)) (hS : l.SizeIn S)
    (hn : (server .sff n).next s l = some s') :
    Sized S (s', grow s l sizes) := by
  have hlength := h.length
  cases step_of_next hn with
  | accept connfd hm | masterWait hm hf | masterUnlock hm hf | masterSpurious hm =>
    exact h.of_same rfl (by rw [hm]; rfl) fun d hd => by simp at hd
  | masterLock hm hl =>
    exact h.of_same rfl (by obtain hm | hm := hm <;> rw [hm] <;> rfl) fun d hd => by simp at hd
  | masterExit r hm hp =>
    have hnone : r.fileStat = none := Option.map_eq_none_iff.1 hp
    simp only [grow, if_pos hm, hnone, Option.toList_none, List.append_nil]
    exact h.of_same rfl (by rw [hm]; rfl) fun d hd => by simp at hd
  | masterPrepare r p count hm hp =>
    -- the number of the request is that of its size in the list
    obtain ⟨size, hsize, rfl⟩ := Option.map_eq_some_iff.1 hp
    rw [hm] at hlength
    simp only [MasterPc.numbered, Nat.add_zero] at hlength
    simp only [grow, if_pos hm, hsize, Option.toList_some]
    refine ⟨?_, fun d hd => (h.enqueued d hd).append _, fun d hd => ?_⟩
    · rw [List.length_append, hlength]
      rfl
    · obtain rfl : _ = d := by simpa using hd
      exact ⟨size, hS size hsize, by simp [← hlength], rfl⟩
  | masterLockEnqueue d hm hl =>
    refine h.of_same rfl (by rw [hm]; rfl) fun d' hd => ?_
    obtain rfl : d = d' := by simpa using hd
    exact Or.inl hm
  | masterEnqueue d woken hm hw =>
    rw [hm] at hlength
    refine ⟨?_, fun e he => ?_, fun e he => by simp at he⟩
    · simp only [List.length_append, List.length_singleton]
      exact hlength
    · obtain he | he := List.mem_append.1 he
      · exact h.enqueued e he
      · exact List.mem_singleton.1 he ▸ h.pending d (Or.inr hm)
  | workerLock i hw hl | workerWait i hw hq | workerPass i hw hq | workerSpurious i hw
  | workerDone i d hw =>
    exact h.of_same rfl rfl fun d hd => hd
  | workerDequeue i hw =>
    exact h.of_same rfl (signalFull_numbered s.master) fun d hd => signalFull_pending hd

/-- If the conversion keeps the order of the sizes, a dequeued entry has a smallest file. -/
theorem smallestFirst_of_sized {buffers : ℕ} (hmono : StrictMonoOn toInt S) (h : Sized S (s, sizes))
    (ha : Accounted buffers s) (hr : Ready s) : SmallestFirst (s, sizes) l := by
  cases l with
  | workerDequeue i =>
    intro hi e he
    have hcontents := contents_dequeue ha.valid (hr.entry i hi)
    obtain ⟨hmem, hleast⟩ := isLeast_dequeue ha.valid (hr.entry i hi)
    have hqueued : ∀ c ∈ s.q.contents, c ∈ s.enqueued := fun c hc => by
      have : c ∈ (↑s.enqueued : Multiset Conn) := ha.contents ▸ Multiset.mem_add.2 (Or.inl hc)
      exact this
    have he : e ∈ s.q.contents := hcontents ▸ Multiset.mem_cons_of_mem he
    obtain ⟨hdS, hd⟩ := (h.enqueued _ (hqueued _ hmem)).sizeOf_mem
    obtain ⟨heS, hpe⟩ := (h.enqueued _ (hqueued _ he)).sizeOf_mem
    have hle := hleast e he
    rw [hd, hpe] at hle
    exact (hmono.le_iff_le hdS heS).1 hle
  | _ => trivial

/-! ### Every run -/

/-- The steps of the master for a request for a file of the given size. -/
def request (connfd size : ℤ) : List (Label n) :=
  [.accept connfd, .masterLock, .masterCheck, .masterPrepare ⟨[], [], some size⟩,
    .masterLockEnqueue, .masterEnqueue ∅]

/-- The connection that the master enqueues then. -/
def connOf (connfd size : ℤ) (id : ℕ) : Conn := ⟨⟨toInt size, connfd, []⟩, id⟩

/-- While all workers are outside of their critical sections, the master takes a request. -/
theorem run_request (hm : s.master = .accept) (hl : s.cLock = none) (hf : isFull s.q = false)
    (hw : ∀ i, s.worker i = .lock) (connfd size : ℤ) :
    ((server .sff n).track grow).run (s, sizes) (request connfd size) =
      some ({ s with
        connfd := connfd
        q := enqueue Conn.priority s.q (connOf connfd size s.enqueued.length)
        enqueued := s.enqueued ++ [connOf connfd size s.enqueued.length] }, sizes ++ [size]) := by
  have hwake : wakeEmpty s.worker ∅ = s.worker := funext fun i => if_neg (Finset.notMem_empty i)
  simp [request, Machine.run, Machine.track, server, grow, hm, hl, hf, requestPriority, connOf,
    SignalEmpty, hw, hwake]

/-- A request for a file that is not smaller, after conversion, stays behind the first one. -/
theorem dequeue_two (mem : ℕ → Conn) (dummy : Conn) (buffers : ℕ) {c d : Conn}
    (hle : c.priority ≤ d.priority) :
    (dequeue Conn.priority
      (enqueue Conn.priority (enqueue Conn.priority (initQueue mem dummy buffers) c) d)).1 = c := by
  have hfirst : (enqueue Conn.priority (initQueue mem dummy buffers) c).connPool =
      Function.update (Function.update mem 0 dummy) 1 c := by
    simp only [enqueue, initQueue]
    rw [enqueueLoop]
    rfl
  simp only [dequeue]
  rw [enqueue, hfirst]
  simp only [enqueue, initQueue]
  rw [enqueueLoop]
  simp [not_lt.2 hle]

/-- Two requests, and a worker that is about to take one of them. -/
def twoRequests (hn : 0 < n) (first second : ℤ) : List (Label n) :=
  request 4 first ++ request 5 second ++ [.workerLock ⟨0, hn⟩, .workerCheck ⟨0, hn⟩]

theorem sizeIn_twoRequests (hn : 0 < n) {a b : ℤ} (ha : a ∈ S) (hb : b ∈ S) :
    ∀ l ∈ twoRequests hn b a ++ [.workerDequeue ⟨0, hn⟩], l.SizeIn S := by
  simp [twoRequests, request, Label.SizeIn, ha, hb]

theorem exists_run_twoRequests (hn : 0 < n) {buffers : ℕ} (hb : 2 ≤ buffers) (mem : ℕ → Conn)
    (dummy : Conn) (first second : ℤ) : ∃ t : State n, ((server .sff n).track grow).run
      (serverInit n mem dummy buffers, []) (twoRequests hn first second) =
        some (t, [first, second]) ∧
      t.q = enqueue Conn.priority (enqueue Conn.priority (initQueue mem dummy buffers)
        (connOf 4 first 0)) (connOf 5 second 1) ∧ t.worker ⟨0, hn⟩ = .dequeue := by
  obtain ⟨s₁, hs₁⟩ : ∃ s₁ : State n, { serverInit n mem dummy buffers with
      connfd := 4
      q := enqueue Conn.priority (initQueue mem dummy buffers) (connOf 4 first 0)
      enqueued := [connOf 4 first 0] } = s₁ := ⟨_, rfl⟩
  obtain ⟨s₂, hs₂⟩ : ∃ s₂ : State n, { s₁ with
      connfd := 5
      q := enqueue Conn.priority s₁.q (connOf 5 second 1)
      enqueued := s₁.enqueued ++ [connOf 5 second 1] } = s₂ := ⟨_, rfl⟩
  have hfirst : ((server .sff n).track grow).run (serverInit n mem dummy buffers, [])
      (request 4 first) = some (s₁, [first]) := by
    rw [run_request rfl rfl (by simp [serverInit, initQueue, isFull]; omega) (fun _ => rfl), ← hs₁]
    rfl
  have hsecond : ((server .sff n).track grow).run (s₁, [first]) (request 5 second) =
      some (s₂, [first, second]) := by
    subst hs₁
    rw [run_request rfl rfl (by simp [initQueue, isFull, enqueue]; omega) (fun _ => rfl), ← hs₂]
    rfl
  refine ⟨{ s₂ with
    worker := Function.update (Function.update s₂.worker ⟨0, hn⟩ .check) ⟨0, hn⟩ .dequeue
    cLock := some (.worker ⟨0, hn⟩) }, ?_, ?_, ?_⟩
  · rw [twoRequests, Machine.run_append, Machine.run_append, hfirst, Option.bind_some, hsecond,
      Option.bind_some]
    subst hs₂ hs₁
    simp [Machine.run, Machine.track, server, grow, serverInit, State.setWorker, isEmpty, enqueue,
      initQueue]
  · subst hs₂ hs₁
    rfl
  · simp only [Function.update_self]

/-- If the conversion does not keep the order of two sizes, the larger file may be first. -/
theorem not_smallestFirst (hn : 0 < n) {buffers : ℕ} (hb : 2 ≤ buffers) (mem : ℕ → Conn)
    (dummy : Conn) {a b : ℤ} (hlt : a < b) (hge : toInt b ≤ toInt a) :
    ¬ ((server .sff n).track grow).Allowed SmallestFirst (serverInit n mem dummy buffers, [])
      (twoRequests hn b a ++ [.workerDequeue ⟨0, hn⟩]) := by
  intro hallowed
  have hle : (connOf 4 b 0).priority ≤ (connOf 5 a 1).priority := hge
  obtain ⟨t, hrun, hq, hw⟩ := exists_run_twoRequests hn hb mem dummy b a
  have hstep := ((Machine.allowed_append.1 hallowed).2 _ hrun).1 hw
  have hv : (initQueue mem dummy buffers).Valid Conn.priority := valid_initQueue mem dummy buffers
  have hv₁ := valid_enqueue hv (by simp [initQueue, isFull]; omega) (connOf 4 b 0)
  have hv₂ := valid_enqueue hv₁ (by simp [initQueue, isFull, enqueue]; omega) (connOf 5 a 1)
  have hdeq := dequeue_two mem dummy buffers hle
  have hcontents := contents_dequeue hv₂ (by simp [isEmpty, enqueue, initQueue])
  rw [contents_enqueue hv₁, contents_enqueue hv, contents_initQueue, hdeq, Multiset.cons_swap,
    Multiset.cons_inj_right] at hcontents
  rw [hq] at hstep
  have hsize := hstep (connOf 5 a 1) (hcontents ▸ Multiset.mem_cons_self _ _)
  rw [hdeq] at hsize
  have hba : b ≤ a := hsize
  omega

/-- **Smallest file first.**  With at least one worker and room for two connections, in every run with
files of sizes in `S` each connection that is dequeued has a smallest file among those in the queue, if
and only if the conversion to `int` keeps the order of these sizes. -/
theorem sff_iff (hn : 0 < n) {buffers : ℕ} (hb : 2 ≤ buffers) (mem : ℕ → Conn) (dummy : Conn)
    (S : Set ℤ) : (∀ ls, (∀ l ∈ ls, l.SizeIn S) → ((server .sff n).track grow).Allowed
      SmallestFirst (serverInit n mem dummy buffers, []) ls) ↔ StrictMonoOn toInt S := by
  refine ⟨fun h a ha b hbS hlt => not_le.1 fun hge => ?_, fun hmono ls hls => ?_⟩
  · exact not_smallestFirst hn hb mem dummy hlt hge (h _ (sizeIn_twoRequests hn ha hbS))
  refine (Machine.allowed_of_forall hls).of_invariant
    (I := fun x => Sized S x ∧ ServerInv buffers x.1)
    ⟨sized_init S mem dummy buffers, serverInv_init mem dummy buffers⟩ ?_
    fun x l hx _ => smallestFirst_of_sized hmono hx.1 hx.2.accounted hx.2.ready
  rintro ⟨s, sizes⟩ l ⟨s', sizes'⟩ ⟨hsized, hi⟩ hl hnext
  obtain ⟨hnext, hgrow⟩ := Machine.track_next_eq_some.1 hnext
  dsimp only at hnext hgrow hi ⊢
  have hstep := step_of_next hnext
  exact ⟨hgrow ▸ sized_step hsized hl hnext, exclusive_step hi.exclusive hstep,
    ready_step hi.exclusive hi.accounted hi.ready hstep, accounted_step hi.accounted hi.ready hstep⟩

/-- Two files of less than 2 GiB. -/
theorem sff_small_first : ((server .sff 1).track grow).Allowed SmallestFirst
    (serverInit 1 (fun _ => ⟨⟨0, 0, []⟩, 0⟩) ⟨⟨-1, -1, []⟩, 0⟩ 2, [])
    (twoRequests one_pos 7 3 ++ [.workerDequeue 0]) := by
  refine (sff_iff one_pos le_rfl _ _ { size | 0 ≤ size ∧ size < 2 ^ 31 }).2 ?_ _
    (sizeIn_twoRequests one_pos (by simp) (by simp))
  rintro a ⟨ha0, ha⟩ b ⟨hb0, hb⟩ hlt
  have hid : ∀ x : ℤ, 0 ≤ x → x < 2 ^ 31 → toInt x = x := fun x h0 h1 =>
    Int.bmod_eq_of_le (by omega) (by omega)
  rwa [hid a ha0 ha, hid b hb0 hb]

/-- **A file of 4 GiB before one of a single byte.** -/
theorem sff_large_first :
    (∀ l ∈ twoRequests one_pos (2 ^ 32) 1 ++ [.workerDequeue 0],
      l.SizeIn { size | 0 ≤ size ∧ size < 2 ^ 63 }) ∧
    ¬ ((server .sff 1).track grow).Allowed SmallestFirst
      (serverInit 1 (fun _ => ⟨⟨0, 0, []⟩, 0⟩) ⟨⟨-1, -1, []⟩, 0⟩ 2, [])
      (twoRequests one_pos (2 ^ 32) 1 ++ [.workerDequeue 0]) :=
  ⟨sizeIn_twoRequests one_pos (by simp) (by simp),
    not_smallestFirst one_pos le_rfl _ _ (by decide) (by decide)⟩

end Web

end OperatingSystems

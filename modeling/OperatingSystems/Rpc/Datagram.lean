import OperatingSystems.Machine.Basic

/-!
# Calls over datagrams

A client calls a server through datagrams that may be lost, delayed and reordered.  It makes its
calls one after another: it sends the request, waits until a datagram is in its socket or a timeout
fires, sends the request again after a timeout, and takes the first datagram in the socket for the
reply.  The datagrams carry nothing that says to which call they belong; here they come with the
number of their call, as a ghost.

## Main definitions

* `Rpc.State`, `Rpc.Label`, `Rpc.machine` : client, server and network.
* `Rpc.Inv` : what holds of all datagrams under way and of all calls that returned.
* `Rpc.run_inv` : **a call returns a reply to the client's request of this or of an earlier call**,
  and of this one if nothing was under way when it began.
* `Rpc.quiet_of_no_timeout` : without timeouts, nothing is under way when a call begins.
-/

namespace OperatingSystems

namespace Rpc

/-- A datagram with the number of its call. -/
structure Datagram (A : Type*) where
  call : ℕ
  body : A

/-- A call that returned. -/
structure Return (Rep : Type*) where
  call : ℕ
  /-- The call whose request was answered by the reply. -/
  origin : ℕ
  reply : Rep
  /-- No datagram was under way when the call began. -/
  quiet : Bool

/-- The client, the server and the network between them. -/
structure State (S Req Rep : Type*) where
  server : S
  /-- The datagrams on their way to the server. -/
  requests : List (Datagram Req)
  /-- The datagrams in the socket of the server. -/
  inbox : List (Datagram Req)
  /-- The datagrams on their way to the client. -/
  replies : List (Datagram Rep)
  /-- The datagrams in the socket of the client. -/
  socket : List (Datagram Rep)
  /-- The requests of all calls, in order. -/
  sent : List Req
  /-- The request of the call in progress, and whether nothing was under way when it began. -/
  waiting : Option (Req × Bool)
  /-- The replies that the server computed, with the calls and requests that they answer. -/
  computed : List (ℕ × Req × Rep)
  returned : List (Return Rep)

/-- The steps; `C` are the calls, and `J` is what else the server depends on. -/
inductive Label (C J : Type*) where
  /-- A call begins. -/
  | call (c : C)
  | timeout
  /-- The call in progress takes the first datagram in the socket, and returns. -/
  | receive
  /-- A datagram arrives at the server. -/
  | deliverRequest (i : ℕ)
  | loseRequest (i : ℕ)
  /-- The server handles the first datagram in its socket, and replies. -/
  | serve (j : J)
  /-- A datagram arrives at the client. -/
  | deliverReply (i : ℕ)
  | loseReply (i : ℕ)

variable {S Req Rep C J : Type*}

namespace State

/-- The calls of the datagrams under way. -/
def underWay (s : State S Req Rep) : List ℕ :=
  (s.requests ++ s.inbox).map Datagram.call ++ (s.replies ++ s.socket).map Datagram.call

/-- The start of the client. -/
def start (server : S) : State S Req Rep := ⟨server, [], [], [], [], [], none, [], []⟩

/-- Each call returned a reply that the server computed for its request. -/
def Matching (s : State S Req Rep) : Prop :=
  ∀ r ∈ s.returned, ∃ req, s.sent[r.call]? = some req ∧ (r.call, req, r.reply) ∈ s.computed

end State

/-- The steps of client, server and network: `request` makes the request of a call, and `handle` is
what the server does with it. -/
def machine (request : C → Option Req) (handle : S → J → Req → Option (S × Rep)) :
    Machine (State S Req Rep) (Label C J) where
  next s
    | .call c =>
      if s.waiting.isSome then none
      else (request c).map fun req => { s with
        sent := s.sent ++ [req]
        waiting := some (req, s.underWay.isEmpty)
        requests := s.requests ++ [⟨s.sent.length, req⟩] }
    | .timeout =>
      match s.waiting, s.socket with
      | some (req, _), [] => some { s with requests := s.requests ++ [⟨s.sent.length - 1, req⟩] }
      | _, _ => none
    | .receive =>
      match s.waiting, s.socket with
      | some (_, quiet), d :: ds => some { s with
          waiting := none
          socket := ds
          returned := s.returned ++ [⟨s.sent.length - 1, d.call, d.body, quiet⟩] }
      | _, _ => none
    | .deliverRequest i => s.requests[i]?.map fun d =>
        { s with requests := s.requests.eraseIdx i, inbox := s.inbox ++ [d] }
    | .loseRequest i => s.requests[i]?.map fun _ => { s with requests := s.requests.eraseIdx i }
    | .serve j =>
      match s.inbox with
      | [] => none
      | d :: ds => (handle s.server j d.body).map fun x => { s with
          server := x.1
          inbox := ds
          replies := s.replies ++ [⟨d.call, x.2⟩]
          computed := s.computed ++ [(d.call, d.body, x.2)] }
    | .deliverReply i => s.replies[i]?.map fun d =>
        { s with replies := s.replies.eraseIdx i, socket := s.socket ++ [d] }
    | .loseReply i => s.replies[i]?.map fun _ => { s with replies := s.replies.eraseIdx i }

/-- What holds of the datagrams under way, and of the calls that returned. -/
structure Inv (s : State S Req Rep) : Prop where
  requests : ∀ d ∈ s.requests ++ s.inbox, s.sent[d.call]? = some d.body
  replies : ∀ d ∈ s.replies ++ s.socket, ∃ req, (d.call, req, d.body) ∈ s.computed
  computed : ∀ c req rep, (c, req, rep) ∈ s.computed → s.sent[c]? = some req
  waiting : ∀ req quiet, s.waiting = some (req, quiet) →
    s.sent[s.sent.length - 1]? = some req ∧ (quiet → ∀ c ∈ s.underWay, c = s.sent.length - 1)
  returned : ∀ r ∈ s.returned, r.call < s.sent.length ∧ r.origin ≤ r.call ∧
    (∃ req, (r.origin, req, r.reply) ∈ s.computed) ∧ (r.quiet → r.origin = r.call)

variable {s s' : State S Req Rep} {request : C → Option Req}
  {handle : S → J → Req → Option (S × Rep)}

theorem mem_underWay {c : ℕ} : c ∈ s.underWay ↔
    (∃ d ∈ s.requests ++ s.inbox, d.call = c) ∨ ∃ d ∈ s.replies ++ s.socket, d.call = c := by
  simp only [State.underWay, List.mem_append, List.mem_map]

theorem inv_start (server : S) : Inv (State.start server : State S Req Rep) := by
  constructor <;> simp [State.start]

/-- Datagrams are lost or moved. -/
theorem Inv.of_subset (h : Inv s) (hreq : s'.requests ++ s'.inbox ⊆ s.requests ++ s.inbox)
    (hrep : s'.replies ++ s'.socket ⊆ s.replies ++ s.socket) (hsent : s'.sent = s.sent)
    (hwait : s'.waiting = s.waiting) (hcomp : s'.computed = s.computed)
    (hret : s'.returned = s.returned) : Inv s' := by
  refine ⟨fun d hd => ?_, fun d hd => ?_, ?_, fun req quiet hw => ?_, ?_⟩
  · rw [hsent]; exact h.requests d (hreq hd)
  · rw [hcomp]; exact h.replies d (hrep hd)
  · rw [hcomp, hsent]; exact h.computed
  · rw [hwait] at hw
    obtain ⟨hlast, hquiet⟩ := h.waiting req quiet hw
    rw [hsent]
    refine ⟨hlast, fun hq c hc => hquiet hq c ?_⟩
    rw [mem_underWay] at hc ⊢
    exact hc.imp (fun ⟨d, hd, he⟩ => ⟨d, hreq hd, he⟩) fun ⟨d, hd, he⟩ => ⟨d, hrep hd, he⟩
  · rw [hret, hsent, hcomp]; exact h.returned

/-- A datagram that is taken out of a queue leaves the others. -/
theorem eraseIdx_append_subset {A : Type*} {l l' : List A} {i : ℕ} {d : A} (h : l[i]? = some d) :
    l.eraseIdx i ++ l' ⊆ l ++ l' ∧ l.eraseIdx i ++ (l' ++ [d]) ⊆ l ++ l' := by
  have hsub : l.eraseIdx i ⊆ l := (List.eraseIdx_sublist l i).subset
  have hd : d ∈ l := List.mem_of_getElem? h
  constructor <;> intro x hx <;> simp only [List.mem_append, List.mem_singleton] at hx ⊢
  · exact hx.imp_left (@hsub x)
  · rcases hx with hx | hx | rfl
    · exact Or.inl (hsub hx)
    · exact Or.inr hx
    · exact Or.inl hd

theorem mem_concat_append {A : Type*} {l l' : List A} {a x : A} :
    x ∈ (l ++ [a]) ++ l' ↔ x ∈ l ++ l' ∨ x = a := by
  simp only [List.mem_append, List.mem_singleton]
  tauto

theorem inv_call (h : Inv s) {c : C} (hs : (machine request handle).next s (.call c) = some s') :
    Inv s' := by
  simp only [machine] at hs
  split_ifs at hs with hidle
  obtain ⟨req, -, rfl⟩ := Option.map_eq_some_iff.1 hs
  have hsent : ∀ {c : ℕ} {req' : Req}, s.sent[c]? = some req' →
      (s.sent ++ [req])[c]? = some req' := fun hc => by
    rw [List.getElem?_append_left (List.getElem?_eq_some_iff.1 hc).1, hc]
  refine ⟨fun d hd => ?_, h.replies, fun c req' rep hc => hsent (h.computed c req' rep hc),
    fun req' quiet hw => ?_, fun r hr => ?_⟩
  · rcases mem_concat_append.1 hd with hd | rfl
    · exact hsent (h.requests d hd)
    · simp
  · obtain ⟨rfl, rfl⟩ : req = req' ∧ s.underWay.isEmpty = quiet := by simpa using hw
    refine ⟨by simp, fun hq c hc => ?_⟩
    have hempty : ∀ c, c ∉ s.underWay := by simpa [List.eq_nil_iff_forall_not_mem] using hq
    rcases mem_underWay.1 hc with ⟨d, hd, rfl⟩ | hc
    · rcases mem_concat_append.1 hd with hd | rfl
      · exact (hempty _ (mem_underWay.2 (Or.inl ⟨d, hd, rfl⟩))).elim
      · simp
    · exact (hempty c (mem_underWay.2 (Or.inr hc))).elim
  · obtain ⟨hcall, hrest⟩ := h.returned r hr
    exact ⟨by simp only [List.length_append]; omega, hrest⟩

theorem inv_timeout (h : Inv s) (hs : (machine request handle).next s .timeout = some s') : Inv s' := by
  simp only [machine] at hs
  split at hs
  · rename_i req quiet hw hsock
    cases hs
    obtain ⟨hlast, hquiet⟩ := h.waiting req quiet hw
    refine ⟨fun d hd => ?_, h.replies, h.computed, fun req' quiet' hw' => ?_, h.returned⟩
    · rcases mem_concat_append.1 hd with hd | rfl
      · exact h.requests d hd
      · exact hlast
    · obtain ⟨rfl, rfl⟩ : req' = req ∧ quiet' = quiet := by simpa using hw'.symm.trans hw
      refine ⟨hlast, fun hq c hc => ?_⟩
      rcases mem_underWay.1 hc with ⟨d, hd, rfl⟩ | hc
      · rcases mem_concat_append.1 hd with hd | rfl
        · exact hquiet hq _ (mem_underWay.2 (Or.inl ⟨d, hd, rfl⟩))
        · rfl
      · exact hquiet hq _ (mem_underWay.2 (Or.inr hc))
  · cases hs

theorem inv_receive (h : Inv s) (hs : (machine request handle).next s .receive = some s') : Inv s' := by
  simp only [machine] at hs
  split at hs
  · rename_i req quiet d ds hw hsock
    cases hs
    obtain ⟨hlast, hquiet⟩ := h.waiting req quiet hw
    have hd : d ∈ s.replies ++ s.socket := by rw [hsock]; simp
    have hlen := (List.getElem?_eq_some_iff.1 hlast).1
    obtain ⟨req', hcomp⟩ := h.replies d hd
    have horigin := (List.getElem?_eq_some_iff.1 (h.computed _ _ _ hcomp)).1
    refine ⟨h.requests, fun d' hd' => h.replies d' ?_, h.computed, nofun, fun r hr => ?_⟩
    · rw [hsock]
      simp only [List.mem_append, List.mem_cons] at hd' ⊢
      tauto
    · rcases List.mem_append.1 hr with hr | hr
      · exact h.returned r hr
      · rw [List.mem_singleton.1 hr]
        refine ⟨hlen, by dsimp only; omega, ⟨req', hcomp⟩, fun hq => ?_⟩
        exact hquiet hq _ (mem_underWay.2 (Or.inr ⟨d, hd, rfl⟩))
  · cases hs

theorem inv_serve (h : Inv s) {j : J} (hs : (machine request handle).next s (.serve j) = some s') :
    Inv s' := by
  simp only [machine] at hs
  split at hs
  · cases hs
  · rename_i d ds hinbox
    obtain ⟨x, -, rfl⟩ := Option.map_eq_some_iff.1 hs
    have hd : d ∈ s.requests ++ s.inbox := by rw [hinbox]; simp
    have hreq : ∀ d', d' ∈ s.requests ++ ds → d' ∈ s.requests ++ s.inbox := fun d' hd' => by
      rw [hinbox]
      simp only [List.mem_append, List.mem_cons] at hd' ⊢
      tauto
    refine ⟨fun d' hd' => h.requests d' (hreq d' hd'), fun d' hd' => ?_, fun c req rep hc => ?_,
      fun req quiet hw => ?_, fun r hr => ?_⟩
    · rcases mem_concat_append.1 hd' with hd' | rfl
      · obtain ⟨req, hcomp⟩ := h.replies d' hd'
        exact ⟨req, List.mem_append_left _ hcomp⟩
      · exact ⟨d.body, by simp⟩
    · rcases List.mem_append.1 hc with hc | hc
      · exact h.computed c req rep hc
      · obtain ⟨rfl, rfl, -⟩ : c = d.call ∧ req = d.body ∧ rep = x.2 := by simpa using hc
        exact h.requests d hd
    · obtain ⟨hlast, hquiet⟩ := h.waiting req quiet hw
      refine ⟨hlast, fun hq c hc => ?_⟩
      rcases mem_underWay.1 hc with ⟨d', hd', rfl⟩ | ⟨d', hd', rfl⟩
      · exact hquiet hq _ (mem_underWay.2 (Or.inl ⟨d', hreq d' hd', rfl⟩))
      · rcases mem_concat_append.1 hd' with hd' | rfl
        · exact hquiet hq _ (mem_underWay.2 (Or.inr ⟨d', hd', rfl⟩))
        · exact hquiet hq _ (mem_underWay.2 (Or.inl ⟨d, hd, rfl⟩))
    · obtain ⟨hcall, horigin, ⟨req, hcomp⟩, hquiet⟩ := h.returned r hr
      exact ⟨hcall, horigin, ⟨req, List.mem_append_left _ hcomp⟩, hquiet⟩

theorem inv_next (h : Inv s) {l : Label C J} (hs : (machine request handle).next s l = some s') :
    Inv s' := by
  cases l with
  | call c => exact inv_call h hs
  | timeout => exact inv_timeout h hs
  | receive => exact inv_receive h hs
  | serve j => exact inv_serve h hs
  | deliverRequest i =>
    obtain ⟨d, hd, rfl⟩ := Option.map_eq_some_iff.1 hs
    exact h.of_subset (eraseIdx_append_subset hd).2 (List.Subset.refl _) rfl rfl rfl rfl
  | loseRequest i =>
    obtain ⟨d, hd, rfl⟩ := Option.map_eq_some_iff.1 hs
    exact h.of_subset (eraseIdx_append_subset hd).1 (List.Subset.refl _) rfl rfl rfl rfl
  | deliverReply i =>
    obtain ⟨d, hd, rfl⟩ := Option.map_eq_some_iff.1 hs
    exact h.of_subset (List.Subset.refl _) (eraseIdx_append_subset hd).2 rfl rfl rfl rfl
  | loseReply i =>
    obtain ⟨d, hd, rfl⟩ := Option.map_eq_some_iff.1 hs
    exact h.of_subset (List.Subset.refl _) (eraseIdx_append_subset hd).1 rfl rfl rfl rfl

/-- **A call returns a reply to the client's request of this or of an earlier call**, and of this
one if nothing was under way when it began. -/
theorem run_inv {server : S} {ls : List (Label C J)}
    (hs : (machine request handle).run (State.start server) ls = some s) : Inv s :=
  Machine.run_invariant hs (inv_start server) fun _ _ _ h hnext => inv_next h hnext

/-- A call that began when nothing was under way returns a reply to its own request. -/
theorem Inv.own_reply (h : Inv s) {r : Return Rep} (hr : r ∈ s.returned) (hquiet : r.quiet) :
    ∃ req, s.sent[r.call]? = some req ∧ (r.call, req, r.reply) ∈ s.computed := by
  obtain ⟨-, -, ⟨req, hcomp⟩, horigin⟩ := h.returned r hr
  rw [horigin hquiet] at hcomp
  exact ⟨req, h.computed _ _ _ hcomp, hcomp⟩

/-! ### Without timeouts -/

/-- At most one datagram is under way, and only during a call. -/
structure Alone (s : State S Req Rep) : Prop where
  length : s.requests.length + s.inbox.length + s.replies.length + s.socket.length ≤
    s.waiting.toList.length
  waiting : ∀ req quiet, s.waiting = some (req, quiet) → quiet
  returned : ∀ r ∈ s.returned, r.quiet

theorem alone_next (h : Alone s) {l : Label C J} (hl : l ≠ .timeout)
    (hs : (machine request handle).next s l = some s') : Alone s' := by
  obtain ⟨hlen, hwait, hret⟩ := h
  cases l with
  | timeout => exact absurd rfl hl
  | call c =>
    simp only [machine] at hs
    split_ifs at hs with hidle
    obtain ⟨req, -, rfl⟩ := Option.map_eq_some_iff.1 hs
    simp only [Option.not_isSome_iff_eq_none.1 hidle, Option.toList_none, List.length_nil,
      Nat.le_zero, Nat.add_eq_zero_iff, List.length_eq_zero_iff] at hlen
    obtain ⟨⟨⟨hreq, hin⟩, hrep⟩, hsock⟩ := hlen
    -- no call waits, so that nothing is under way
    have hempty : s.underWay = [] := by simp [State.underWay, hreq, hin, hrep, hsock]
    refine ⟨by simp [hreq, hin, hrep, hsock], fun req' quiet hw => ?_, hret⟩
    obtain ⟨-, rfl⟩ : req = req' ∧ s.underWay.isEmpty = quiet := by simpa using hw
    rw [hempty]
    rfl
  | receive =>
    simp only [machine] at hs
    split at hs
    · rename_i req quiet d ds hw hsock
      cases hs
      simp only [hw, hsock, Option.toList_some, List.length_cons, List.length_nil] at hlen
      refine ⟨by simp only [Option.toList_none, List.length_nil]; omega, nofun, fun r hr => ?_⟩
      rcases List.mem_append.1 hr with hr | hr
      · exact hret r hr
      · rw [List.mem_singleton.1 hr]
        exact hwait req quiet hw
    · cases hs
  | serve j =>
    simp only [machine] at hs
    split at hs
    · cases hs
    · rename_i d ds hinbox
      obtain ⟨x, -, rfl⟩ := Option.map_eq_some_iff.1 hs
      rw [hinbox, List.length_cons] at hlen
      exact ⟨by simp only [List.length_append, List.length_singleton]; omega, hwait, hret⟩
  | deliverRequest i | loseRequest i | deliverReply i | loseReply i =>
    obtain ⟨d, hd, rfl⟩ := Option.map_eq_some_iff.1 hs
    have hi := (List.getElem?_eq_some_iff.1 hd).1
    refine ⟨?_, hwait, hret⟩
    simp only [List.length_eraseIdx_of_lt hi, List.length_append, List.length_singleton]
    omega

/-- Without timeouts, nothing is under way when a call begins. -/
theorem quiet_of_no_timeout {server : S} {ls : List (Label C J)}
    (hs : (machine request handle).run (State.start server) ls = some s)
    (hls : (machine request handle).Allowed (fun _ l => l ≠ .timeout) (State.start server) ls) :
    ∀ r ∈ s.returned, r.quiet := by
  have hstart : Alone (State.start server : State S Req Rep) :=
    ⟨Nat.le_refl 0, nofun, nofun⟩
  exact (Machine.run_invariant_of_allowed hs hls hstart
    fun _ _ _ h hl hnext => alone_next h hl hnext).returned

end Rpc

end OperatingSystems

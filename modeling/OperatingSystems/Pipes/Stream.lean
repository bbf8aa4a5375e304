import OperatingSystems.Pipes.Ends
import OperatingSystems.Queues.Counters

/-!
# The stream of bytes

* `Event.received`, `Event.sentBy`, `Pc.partial` : what the calls have taken out and put in.
* `Stream` : **the invariant**: the pipe holds what was put in and not taken out.
* `stream_of_run` : **no byte is lost, doubled or reordered**, however many processes read and write.
* `eof_of_run` : **the end of the file is final**: nothing was or will be left behind it.
-/

namespace OperatingSystems

namespace Pipes

open Queues

variable {P Fd : Type} [DecidableEq P] [DecidableEq Fd]

/-- The counters of the pipe -/
theorem fits : Fits (2 ^ 32) PIPESIZE := ⟨by decide, by decide, by decide⟩

/-- What a call has taken out -/
def Event.received : Event P → List UInt8
  | .wrote _ _ _ _ _ => []
  | .read _ _ bytes _ => bytes

/-- What a call of the process `p` has put in -/
def Event.sentBy (p : P) : Event P → List UInt8
  | .wrote q addr _ i _ => if q = p then (List.range i).map addr else []
  | .read _ _ _ _ => []

/-- What a call that is not over has put in -/
def Pc.sent : Pc → List UInt8
  | .write addr _ i => (List.range i).map addr
  | .writeSleep addr _ i => (List.range i).map addr
  | _ => []

/-- A process in `pipewrite` has not put in more than it was asked to. -/
def Pc.Indexed : Pc → Prop
  | .write _ n i => i ≤ n.toNat
  | .writeSleep _ n i => i ≤ n.toNat
  | _ => True

/-- The value that a call returns says what it has done. -/
def Event.Sound : Event P → Prop
  | .wrote _ _ n i r => r = n ∧ i = n.toNat ∨ r = -1 ∧ i ≤ n.toNat
  | .read _ n bytes r => r = bytes.length ∧ bytes.length ≤ n.toNat ∨ r = -1 ∧ bytes = []

/-- What the process has put in -/
def State.sentBy (s : State P Fd) (p : P) : List UInt8 := (s.sent.filter (·.1 = p)).map (·.2)

/-- What was taken out by all processes -/
def State.received (s : State P Fd) : List UInt8 := s.log.flatMap Event.received

/-- The pipe holds the bytes. -/
def Pipe.Contains (x : Pipe) (l : List UInt8) : Prop :=
  Holds (2 ^ 32) PIPESIZE x.data x.nread x.nwrite l

/-- What was put in and not taken out -/
def State.pending (s : State P Fd) : List UInt8 := (s.sent.map Prod.snd).drop s.received.length

/-- **The pipe holds what was put in and not taken out.** -/
structure Flows (s : State P Fd) : Prop where
  received : s.received <+: s.sent.map Prod.snd
  contains : s.pipe.Contains s.pending

/-- What is known of the processes in `pipewrite`, and of the calls that are over -/
structure Accounted (s : State P Fd) : Prop where
  index : ∀ p, (s.pc p).Indexed
  sentBy : ∀ p, s.sentBy p = s.log.flatMap (Event.sentBy p) ++ (s.pc p).sent
  sound : ∀ e ∈ s.log, e.Sound

variable {s s' s₁ : State P Fd} {x : Pipe} {l : List UInt8} {p q : P} {fd fd' : Fd} {addr : Bytes}
  {n : ℤ} {i j k : ℕ} {w : Bool} {c : UInt8}

theorem copy_length (x : Pipe) (k : ℕ) : (x.copy k).2.length ≤ k := by
  induction k generalizing x with
  | zero => exact le_rfl
  | succ k ih =>
    unfold Pipe.copy
    split_ifs
    · exact Nat.zero_le _
    · exact Nat.succ_le_succ (ih _)

/-! ### The bytes in the pipe -/

theorem Pipe.Contains.put (h : x.Contains l) (hfull : ¬ x.Full) (c : UInt8) :
    (x.put c).Contains (l ++ [c]) :=
  Holds.push fits h (lt_of_le_of_ne h.room fun heq => hfull ((Holds.full_iff fits h).2 heq)) c

theorem Pipe.Contains.empty_iff (h : x.Contains l) : x.Empty ↔ l = [] := Holds.empty_iff fits h

theorem Pipe.Contains.full_iff (h : x.Contains l) : x.Full ↔ l.length = PIPESIZE := Holds.full_iff fits h

/-- The loop of `piperead`: it takes out as many bytes as there are, and not more than asked for. -/
theorem Pipe.Contains.copy (h : x.Contains l) (k : ℕ) :
    (x.copy k).2 = l.take k ∧ (x.copy k).1.Contains (l.drop k) := by
  induction k generalizing x l with
  | zero => exact ⟨rfl, h⟩
  | succ k ih =>
    unfold Pipe.copy
    cases l with
    | nil =>
      rw [if_pos (h.empty_iff.2 rfl)]
      exact ⟨rfl, h⟩
    | cons c l =>
      rw [if_neg fun hempty => List.cons_ne_nil c l (h.empty_iff.1 hempty)]
      obtain ⟨hbytes, hrest⟩ := ih (x := { x with nread := (x.nread + 1) % 2 ^ 32 }) (h.pop fits)
      refine ⟨?_, hrest⟩
      rw [List.take_succ_cons, ← hbytes, ← h.first_cell]

namespace Flows

omit [DecidableEq P] [DecidableEq Fd] in
theorem pending_put (h : Flows s) (p : P) (c : UInt8) : (s.put p c).pending = s.pending ++ [c] := by
  have hle : s.received.length ≤ (s.sent.map Prod.snd).length := h.received.length_le
  simp only [State.pending, State.put, State.received, List.map_append]
  exact List.drop_append_of_le_length hle

omit [DecidableEq P] [DecidableEq Fd] in
theorem put (h : Flows s) (hfull : ¬ s.pipe.Full) (p : P) (c : UInt8) : Flows (s.put p c) where
  received := by
    refine h.received.trans ?_
    rw [State.put, List.map_append]
    exact List.prefix_append ..
  contains := by
    rw [h.pending_put]
    exact h.contains.put hfull c

omit [DecidableEq P] [DecidableEq Fd] in
theorem puts (h : Flows s) (hputs : Puts p addr n s i s₁ j) : Flows s₁ := by
  induction hputs with
  | refl => exact h
  | put _ _ hfull ih => exact ih.put hfull p _

omit [DecidableEq P] [DecidableEq Fd] in
/-- Nothing is put in or taken out. -/
theorem frame (h : Flows s) (hdata : s'.pipe.data = s.pipe.data) (hnread : s'.pipe.nread = s.pipe.nread)
    (hnwrite : s'.pipe.nwrite = s.pipe.nwrite) (hsent : s'.sent = s.sent)
    (hreceived : s'.received = s.received) : Flows s' := by
  obtain ⟨hstart, hcontains⟩ := h
  unfold State.pending Pipe.Contains at hcontains
  refine ⟨by rwa [hreceived, hsent], ?_⟩
  unfold State.pending Pipe.Contains
  rwa [hreceived, hsent, hdata, hnread, hnwrite]

omit [DecidableEq P] [DecidableEq Fd] in
/-- `piperead` takes out the next bytes. -/
theorem read (h : Flows s) (k : ℕ) (hpipe : s'.pipe = (s.pipe.copy k).1) (hsent : s'.sent = s.sent)
    (hreceived : s'.received = s.received ++ (s.pipe.copy k).2) : Flows s' := by
  obtain ⟨⟨rest, hstart⟩, hcontains⟩ := h
  obtain ⟨hbytes, hrest⟩ := hcontains.copy k
  have hpending : s.pending = rest := by
    rw [State.pending, ← hstart, List.drop_left]
  rw [hpending] at hbytes hrest
  have hall : s'.received ++ rest.drop k = s'.sent.map Prod.snd := by
    rw [hreceived, hbytes, List.append_assoc, List.take_append_drop, hstart, hsent]
  refine ⟨⟨_, hall⟩, ?_⟩
  rwa [State.pending, ← hall, List.drop_left, hpipe]

/-- **Each step keeps it.** -/
theorem next (h : Flows s) (hs : Step s s') : Flows s' := by
  have hnothing : ∀ (e : Event P), e.received = [] → ∀ l : List (Event P),
      (l ++ [e]).flatMap Event.received = l.flatMap Event.received := fun e he l => by simp [he]
  cases hs with
  | refuseRead hpc hfd => exact h.frame rfl rfl rfl rfl (hnothing _ rfl _)
  | refuseWrite hpc hfd => exact h.frame rfl rfl rfl rfl (hnothing _ rfl _)
  | wrote hpc hputs hj => exact (h.puts hputs).frame rfl rfl rfl rfl (hnothing _ rfl _)
  | cut hpc hputs hj hfull hcut => exact (h.puts hputs).frame rfl rfl rfl rfl (hnothing _ rfl _)
  | writeSleep hpc hputs hj hfull hopen => exact (h.puts hputs).frame rfl rfl rfl rfl rfl
  | readKilled hpc => exact h.frame rfl rfl rfl rfl (hnothing _ rfl _)
  | @read p n hpc hready =>
    refine h.read n.toNat rfl rfl ?_
    simp [State.received, State.ret, State.goto, State.wakeWriters, Event.received]
  | @pipeclose p w hpc =>
    obtain ⟨pc, -, heq⟩ := pipeclose_cases s p w
    obtain ⟨hdata, hnread, hnwrite, hsent, hlog, -⟩ := closeEnd_unchanged s w
    rw [heq]
    exact h.frame hdata hnread hnwrite hsent (congrArg (·.flatMap Event.received) hlog)
  | _ => exact h.frame rfl rfl rfl rfl rfl

end Flows

/-! ### What each process has put in -/

@[simp] theorem sent_wakeReader (pc : Pc) : (State.wakeReader pc).sent = pc.sent := by cases pc <;> rfl

@[simp] theorem sent_wakeWriter (pc : Pc) : (State.wakeWriter pc).sent = pc.sent := by cases pc <;> rfl

@[simp] theorem indexed_wakeReader (pc : Pc) : (State.wakeReader pc).Indexed ↔ pc.Indexed := by
  cases pc <;> exact Iff.rfl

@[simp] theorem indexed_wakeWriter (pc : Pc) : (State.wakeWriter pc).Indexed ↔ pc.Indexed := by
  cases pc <;> exact Iff.rfl

/-- For each process but `p`, what is known of it is the same. -/
def Others (p : P) (s s' : State P Fd) : Prop :=
  ∀ q ≠ p, (s'.pc q).sent = (s.pc q).sent ∧ ((s'.pc q).Indexed ↔ (s.pc q).Indexed)

omit [DecidableEq P] [DecidableEq Fd] in
theorem Others.refl (p : P) (s : State P Fd) : Others p s s := fun _ _ => ⟨rfl, Iff.rfl⟩

omit [DecidableEq Fd] in
theorem Others.goto (h : Others p s s') (pc : Pc) : Others p s (s'.goto p pc) := fun q hq => by
  rw [s'.goto_of_ne pc hq]
  exact h q hq

omit [DecidableEq P] [DecidableEq Fd] in
theorem Others.wakeReaders (h : Others p s s') : Others p s s'.wakeReaders := fun q hq => by
  unfold State.wakeReaders
  rw [sent_wakeReader, indexed_wakeReader]
  exact h q hq

omit [DecidableEq P] [DecidableEq Fd] in
theorem Others.wakeWriters (h : Others p s s') : Others p s s'.wakeWriters := fun q hq => by
  unfold State.wakeWriters
  rw [sent_wakeWriter, indexed_wakeWriter]
  exact h q hq

omit [DecidableEq P] [DecidableEq Fd] in
theorem Others.closeEnd (p : P) (s : State P Fd) (w : Bool) : Others p s (s.closeEnd w) := by
  cases w
  · exact Others.wakeWriters fun _ _ => ⟨rfl, Iff.rfl⟩
  · exact Others.wakeReaders fun _ _ => ⟨rfl, Iff.rfl⟩

omit [DecidableEq P] [DecidableEq Fd] in
theorem Puts.others (h : Puts p addr n s i s₁ j) : Others p s s₁ := fun q _ => by
  rw [h.unchanged.2.2.2.2.2.1]
  exact ⟨rfl, Iff.rfl⟩

omit [DecidableEq Fd] in
theorem sentBy_put (s : State P Fd) (p q : P) (c : UInt8) :
    (s.put p c).sentBy q = s.sentBy q ++ if p = q then [c] else [] := by
  simp only [State.sentBy, State.put, List.filter_append, List.map_append, List.filter_cons,
    List.filter_nil, decide_eq_true_eq]
  split_ifs <;> rfl

omit [DecidableEq Fd] in
/-- The loop of `pipewrite` puts in the bytes from `i` up to `j`. -/
theorem Puts.sentBy (h : Puts p addr n s i s₁ j) {base : List UInt8}
    (hbase : s.sentBy p = base ++ (List.range i).map addr) :
    s₁.sentBy p = base ++ (List.range j).map addr := by
  induction h with
  | refl => exact hbase
  | @put s' j _ _ _ ih =>
    rw [sentBy_put, ih, if_pos rfl, List.range_succ, List.map_append, List.append_assoc]
    rfl

omit [DecidableEq Fd] in
theorem Puts.sentBy_of_ne (h : Puts p addr n s i s₁ j) (hq : q ≠ p) : s₁.sentBy q = s.sentBy q := by
  induction h with
  | refl => rfl
  | put _ _ _ ih => rw [sentBy_put, ih, if_neg hq.symm, List.append_nil]

omit [DecidableEq P] [DecidableEq Fd] in
theorem Puts.le (h : Puts p addr n s i s₁ j) (hi : i ≤ n.toNat) : j ≤ n.toNat := by
  induction h with
  | refl => exact hi
  | put _ hj _ _ => exact hj

namespace Accounted

omit [DecidableEq Fd] in
/-- One process goes on; what it has put in is in its own calls. -/
theorem step (h : Accounted s) (p : P) (es : List (Event P)) (hlog : s'.log = s.log ++ es)
    (hes : ∀ e ∈ es, e.Sound ∧ ∀ q ≠ p, e.sentBy q = [])
    (hpc : Others p s s')
    (hothers : ∀ q ≠ p, s'.sentBy q = s.sentBy q) (hindex : (s'.pc p).Indexed)
    (hown : s'.sentBy p = s'.log.flatMap (Event.sentBy p) ++ (s'.pc p).sent) : Accounted s' where
  index q := by
    obtain rfl | hq := eq_or_ne q p
    · exact hindex
    · exact (hpc q hq).2.2 (h.index q)
  sentBy q := by
    obtain rfl | hq := eq_or_ne q p
    · exact hown
    · have hnothing : es.flatMap (Event.sentBy q) = [] :=
        List.flatMap_eq_nil_iff.2 fun e he => (hes e he).2 q hq
      rw [hothers q hq, h.sentBy q, hlog, List.flatMap_append, hnothing, List.append_nil, (hpc q hq).1]
  sound e he := by
    rw [hlog] at he
    exact (List.mem_append.1 he).elim (h.sound e) fun he => (hes e he).1

omit [DecidableEq Fd] in
/-- A process that has put in nothing by its present call goes on, and has still put in nothing. -/
theorem moves (h : Accounted s) (p : P) (hlog : s'.log = s.log) (hsent : s'.sent = s.sent)
    (hp : (s.pc p).sent = []) (hp' : (s'.pc p).sent = [] ∧ (s'.pc p).Indexed)
    (hpc : Others p s s') :
    Accounted s' := by
  have hsentBy : ∀ q, s'.sentBy q = s.sentBy q := fun q => by rw [State.sentBy, hsent]; rfl
  refine h.step p [] (by rw [hlog, List.append_nil]) nofun hpc (fun q _ => hsentBy q) hp'.2 ?_
  rw [hsentBy, h.sentBy, hlog, hp, hp'.1]

omit [DecidableEq Fd] in
/-- A call returns that has put in nothing. -/
theorem returns (h : Accounted s) (p : P) (e : Event P) (he : e.Sound) (hnothing : ∀ q, e.sentBy q = [])
    (hlog : s'.log = s.log ++ [e]) (hsent : s'.sent = s.sent) (hp : (s.pc p).sent = [])
    (hp' : s'.pc p = .client)
    (hpc : Others p s s') :
    Accounted s' := by
  have hsentBy : ∀ q, s'.sentBy q = s.sentBy q := fun q => by rw [State.sentBy, hsent]; rfl
  refine h.step p [e] hlog (fun e' he' => ?_) hpc (fun q _ => hsentBy q) (by rw [hp']; trivial) ?_
  · obtain rfl := List.mem_singleton.1 he'
    exact ⟨he, fun q _ => hnothing q⟩
  · rw [hsentBy, h.sentBy, hlog, List.flatMap_append, List.flatMap_singleton, hnothing, hp, hp',
      List.append_nil]
    exact (List.append_nil _).symm

omit [DecidableEq Fd] in
/-- `pipewrite` returns, or sleeps. -/
theorem writes (h : Accounted s) (hputs : Puts p addr n s i s₁ j) (hpc : s.pc p = .write addr n i)
    (es : List (Event P)) (hes : ∀ e ∈ es, e.Sound ∧ ∀ q ≠ p, e.sentBy q = [])
    (hlog : s'.log = s₁.log ++ es) (hsent : s'.sent = s₁.sent) (hindex : (s'.pc p).Indexed)
    (hown : es.flatMap (Event.sentBy p) ++ (s'.pc p).sent = (List.range j).map addr)
    (hothers : Others p s s') :
    Accounted s' := by
  have hlog₁ : s₁.log = s.log := hputs.unchanged.2.2.2.2.2.2.2
  have hsentBy : ∀ q, s'.sentBy q = s₁.sentBy q := fun q => by rw [State.sentBy, hsent]; rfl
  refine h.step p es (hlog₁ ▸ hlog) hes hothers
    (fun q hq => (hsentBy q).trans (hputs.sentBy_of_ne hq)) hindex ?_
  have hbase := h.sentBy p
  rw [hpc] at hbase
  rw [hsentBy, hputs.sentBy hbase, hlog, hlog₁, List.flatMap_append, List.append_assoc, hown]

/-- **Each step keeps it.** -/
theorem next (h : Accounted s) (hs : Step s s') : Accounted s' := by
  have hsame : ∀ {p : P} {pc : Pc}, Others p s (s.goto p pc) := (Others.refl _ s).goto _
  cases hs with
  | @refuseRead p fd n hpc hfd =>
    exact h.returns p (.read p n [] (-1)) (Or.inr ⟨rfl, rfl⟩) (fun _ => rfl) rfl rfl (by rw [hpc]; rfl)
      (s.goto_self ..) hsame
  | @callRead p fd n hpc hfd =>
    exact h.moves p rfl rfl (by rw [hpc]; rfl) (by rw [State.goto_self]; exact ⟨rfl, trivial⟩) hsame
  | @refuseWrite p fd addr n hpc hfd =>
    exact h.returns p (.wrote p addr n 0 (-1)) (Or.inr ⟨rfl, Nat.zero_le _⟩) (fun q => ite_self _) rfl rfl
      (by rw [hpc]; rfl) (s.goto_self ..) hsame
  | @callWrite p fd addr n hpc hfd =>
    exact h.moves p rfl rfl (by rw [hpc]; rfl) (by rw [State.goto_self]; exact ⟨rfl, Nat.zero_le _⟩) hsame
  | filedup hfd hfd' => exact ⟨h.index, h.sentBy, h.sound⟩
  | close hpc hfd href => exact ⟨h.index, h.sentBy, h.sound⟩
  | @closeLast p fd w hpc hfd href =>
    exact h.moves p rfl rfl (by rw [hpc]; rfl) (by rw [State.goto_self]; exact ⟨rfl, trivial⟩) hsame
  | @kill p =>
    have hpcs : ∀ q, (Function.update s.pc p (State.wakeReader (State.wakeWriter (s.pc p))) q).sent =
        (s.pc q).sent ∧ ((Function.update s.pc p (State.wakeReader (State.wakeWriter (s.pc p))) q).Indexed ↔
          (s.pc q).Indexed) := fun q => by
      obtain rfl | hq := eq_or_ne q p
      · rw [Function.update_self, sent_wakeReader, sent_wakeWriter, indexed_wakeReader, indexed_wakeWriter]
        exact ⟨rfl, Iff.rfl⟩
      · rw [Function.update_of_ne hq]
        exact ⟨rfl, Iff.rfl⟩
    exact ⟨fun q => (hpcs q).2.2 (h.index q), fun q => (h.sentBy q).trans (by rw [(hpcs q).1]), h.sound⟩
  | @wrote p addr n i s₁ j hpc hputs hj =>
    have hle : j ≤ n.toNat := hputs.le (by have hindex := h.index p; rwa [hpc] at hindex)
    refine h.writes hputs hpc [.wrote p addr n j n] (fun e he => ?_) rfl rfl ?_ ?_
      (hputs.others.wakeReaders.goto _)
    · obtain rfl := List.mem_singleton.1 he
      exact ⟨Or.inl ⟨rfl, le_antisymm hle hj⟩, fun q hq => if_neg hq.symm⟩
    · rw [State.ret, State.goto_self]
      trivial
    · rw [State.ret, State.goto_self, List.flatMap_singleton, Event.sentBy, if_pos rfl]
      exact List.append_nil _
  | @cut p addr n i s₁ j hpc hputs hj hfull hcut =>
    refine h.writes hputs hpc [.wrote p addr n j (-1)] (fun e he => ?_) rfl rfl ?_ ?_ (hputs.others.goto _)
    · obtain rfl := List.mem_singleton.1 he
      exact ⟨Or.inr ⟨rfl, hj.le⟩, fun q hq => if_neg hq.symm⟩
    · rw [State.ret, State.goto_self]
      trivial
    · rw [State.ret, State.goto_self, List.flatMap_singleton, Event.sentBy, if_pos rfl]
      exact List.append_nil _
  | @writeSleep p addr n i s₁ j hpc hputs hj hfull hopen =>
    refine h.writes hputs hpc [] nofun (List.append_nil _).symm rfl ?_ ?_
      (hputs.others.wakeReaders.goto _)
    · rw [State.goto_self]
      exact hj.le
    · rw [State.goto_self]
      rfl
  | @readKilled p n hpc =>
    exact h.returns p (.read p n [] (-1)) (Or.inr ⟨rfl, rfl⟩) (fun _ => rfl) rfl rfl (by rw [hpc]; rfl)
      (s.goto_self ..) hsame
  | @readSleep p n hpc hempty hopen =>
    exact h.moves p rfl rfl (by rw [hpc]; rfl) (by rw [State.goto_self]; exact ⟨rfl, trivial⟩) hsame
  | @read p n hpc hready =>
    refine h.returns p (.read p n (s.pipe.copy n.toNat).2 (s.pipe.copy n.toNat).2.length)
      (Or.inl ⟨rfl, copy_length _ _⟩) (fun _ => rfl) rfl rfl (by rw [hpc]; rfl) (State.goto_self ..) ?_
    exact Others.goto (Others.wakeWriters (fun q _ => ⟨rfl, Iff.rfl⟩)) _
  | @pipeclose p w hpc =>
    obtain ⟨pc, hpc', heq⟩ := pipeclose_cases s p w
    obtain ⟨-, -, -, hsent, hlog, -⟩ := closeEnd_unchanged s w
    rw [heq]
    refine h.moves p hlog hsent (by rw [hpc]; rfl) ?_ ((Others.closeEnd p s w).goto pc)
    rw [State.goto_self]
    rcases hpc' with rfl | rfl <;> exact ⟨rfl, trivial⟩
  | @kfree p hpc =>
    exact h.moves p rfl rfl (by rw [hpc]; rfl) (by rw [State.goto_self]; exact ⟨rfl, trivial⟩) hsame

end Accounted

/-! ### The end of the file -/

/-- A call of `piperead` has returned the end of the file. -/
def Event.IsEof : Event P → Prop
  | .wrote _ _ _ _ _ => False
  | .read _ n _ r => r = 0 ∧ 0 < n

/-- The end of the file is returned when the other end is closed and nothing is left. -/
def Ended (s : State P Fd) : Prop :=
  ∀ e ∈ s.log, e.IsEof → s.pipe.writeopen = false ∧ s.pending = []

section

variable [Fintype P] [Fintype Fd]

/-- Nothing is put into a pipe whose other end is closed. -/
theorem sent_of_closed (he : Ends s) (hb : Refs.Balanced s.descriptors s.ref 0)
    (hclosed : s.pipe.writeopen = false) (hs : Step s s') :
    s'.sent = s.sent ∧ s'.pipe.writeopen = false := by
  have hnobody : ∀ {p addr n i}, s.pc p ≠ .write addr n i := fun hpc => by
    have hopen : s.pipe.writeopen = true := he.isOpen hb (role_of_pc hpc)
    rw [hclosed] at hopen
    cases hopen
  cases hs with
  | wrote hpc => exact absurd hpc hnobody
  | cut hpc => exact absurd hpc hnobody
  | writeSleep hpc => exact absurd hpc hnobody
  | read hpc hready => exact ⟨rfl, (copy_isOpen s.pipe _ true).trans hclosed⟩
  | @pipeclose p w hpc =>
    obtain ⟨hopen, -⟩ := pipeclose_spec s p w
    obtain ⟨pc, -, heq⟩ := pipeclose_cases s p w
    refine ⟨by rw [heq]; exact (closeEnd_unchanged s w).2.2.2.1, (hopen true).trans ?_⟩
    split_ifs
    · rfl
    · exact hclosed
  | _ => exact ⟨rfl, hclosed⟩

omit [DecidableEq P] [DecidableEq Fd] [Fintype P] [Fintype Fd] in
/-- `piperead` returns the end of the file only if nothing is left, and nobody can write. -/
theorem ended_of_read (hf : Flows s) (hready : ¬ (s.pipe.Empty ∧ s.pipe.writeopen = true)) (hn : 0 < n)
    (hlen : (s.pipe.copy n.toNat).2 = []) : s.pipe.writeopen = false ∧ s.pending = [] := by
  have hpending : s.pending = [] := by
    rw [(hf.contains.copy n.toNat).1, List.take_eq_nil_iff] at hlen
    exact hlen.resolve_left (by omega)
  have hempty : s.pipe.Empty := hf.contains.empty_iff.2 hpending
  exact ⟨Bool.eq_false_of_not_eq_true fun hopen => hready ⟨hempty, hopen⟩, hpending⟩

omit [Fintype P] [Fintype Fd] in
/-- A step adds to the log; the end of the file is added at the end of the file. -/
theorem log_of_step (hf : Flows s) (hs : Step s s') : ∃ es, s'.log = s.log ++ es ∧
    ∀ e ∈ es, e.IsEof → s.pipe.writeopen = false ∧ s.pending = [] := by
  have hlog : ∀ {p addr n i s₁ j}, Puts p addr n s i s₁ j → (s₁ : State P Fd).log = s.log :=
    fun hputs => hputs.unchanged.2.2.2.2.2.2.2
  have hone : ∀ {e : Event P} {R : Prop}, (e.IsEof → R) → ∀ e' ∈ [e], e'.IsEof → R :=
    fun he e' he' => List.mem_singleton.1 he' ▸ he
  cases hs with
  | refuseRead hpc hfd => exact ⟨_, rfl, hone fun heof => absurd heof.1 (by decide)⟩
  | refuseWrite hpc hfd => exact ⟨_, rfl, hone False.elim⟩
  | @wrote p addr n i s₁ j hpc hputs hj =>
    exact ⟨[.wrote p addr n j n], by rw [← hlog hputs]; rfl, hone False.elim⟩
  | @cut p addr n i s₁ j hpc hputs hj hfull hcut =>
    exact ⟨[.wrote p addr n j (-1)], by rw [← hlog hputs]; rfl, hone False.elim⟩
  | writeSleep hpc hputs hj hfull hopen =>
    exact ⟨[], by rw [List.append_nil, ← hlog hputs]; rfl, nofun⟩
  | readKilled hpc => exact ⟨_, rfl, hone fun heof => absurd heof.1 (by decide)⟩
  | read hpc hready =>
    refine ⟨_, rfl, hone fun heof => ended_of_read hf hready heof.2 ?_⟩
    exact List.eq_nil_of_length_eq_zero (Int.ofNat.inj heof.1)
  | @pipeclose p w hpc =>
    obtain ⟨pc, -, heq⟩ := pipeclose_cases s p w
    rw [heq]
    exact ⟨[], (closeEnd_unchanged s w).2.2.2.2.1.trans (List.append_nil _).symm, nofun⟩
  | _ => exact ⟨[], (List.append_nil _).symm, nofun⟩

theorem Ended.next (h : Ended s) (he : Ends s) (hb : Refs.Balanced s.descriptors s.ref 0) (hf : Flows s)
    (hs : Step s s') : Ended s' := by
  obtain ⟨es, hlog, hes⟩ := log_of_step hf hs
  intro e hmem heof
  have hended : s.pipe.writeopen = false ∧ s.pending = [] := by
    rw [hlog] at hmem
    exact (List.mem_append.1 hmem).elim (fun hold => h e hold heof) fun hnew => hes e hnew heof
  obtain ⟨hsent, hclosed⟩ := sent_of_closed he hb hended.1 hs
  have hle := List.drop_eq_nil_iff.1 hended.2
  refine ⟨hclosed, List.drop_eq_nil_iff.2 (hsent ▸ hle.trans ?_)⟩
  rw [State.received, State.received, hlog, List.flatMap_append, List.length_append]
  exact Nat.le_add_right ..

/-! ### Runs -/

/-- What is known after every run -/
structure Piped (s : State P Fd) : Prop where
  ends : Ends s
  balanced : Refs.Balanced s.descriptors s.ref 0
  flows : Flows s
  accounted : Accounted s
  ended : Ended s

theorem Piped.next (h : Piped s) (hs : Step s s') : Piped s' where
  ends := h.ends.next h.balanced hs
  balanced := balanced_next h.balanced hs
  flows := h.flows.next hs
  accounted := h.accounted.next hs
  ended := h.ended.next h.ends h.balanced h.flows hs

theorem piped_pipealloc (p : P) {fd₀ fd₁ : Fd} (hfd : fd₀ ≠ fd₁) (data : ℕ → UInt8) (killed : P → Bool) :
    Piped (pipealloc p fd₀ fd₁ data killed) where
  ends := ends_pipealloc ..
  balanced := balanced_pipealloc p hfd data killed
  flows := ⟨List.prefix_rfl, Holds.empty (Nat.two_pow_pos 32)⟩
  accounted := ⟨fun _ => trivial, fun _ => rfl, nofun⟩
  ended := nofun

variable {p₀ : P} {fd₀ fd₁ : Fd} {data : ℕ → UInt8} {killed : P → Bool} {ls : List (Label P Fd)}

theorem piped_of_run (hfd : fd₀ ≠ fd₁)
    (h : (pipes P Fd).run (pipealloc p₀ fd₀ fd₁ data killed) ls = some s) : Piped s :=
  Machine.run_invariant h (piped_pipealloc p₀ hfd data killed) fun _ _ _ hp hnext =>
    hp.next (step_of_next hnext)

/-- **No byte is lost, doubled or reordered**: in every run of any number of readers and writers, what was
taken out is the beginning of what was put in, and the pipe holds the rest; what a process has put in are the
bytes of its calls, in order, as far as their values say; and `piperead` takes out the next bytes, as many as
there are. -/
theorem stream_of_run (hfd : fd₀ ≠ fd₁)
    (h : (pipes P Fd).run (pipealloc p₀ fd₀ fd₁ data killed) ls = some s) :
    s.sent.map Prod.snd = s.received ++ s.pending ∧ s.pending.length ≤ PIPESIZE ∧
      (∀ p, s.sentBy p = s.log.flatMap (Event.sentBy p) ++ (s.pc p).sent) ∧ (∀ e ∈ s.log, e.Sound) ∧
      ∀ p n s', s.pc p = .read n → (pipes P Fd).next s (.advance p) = some s' →
        s'.pc p = .readSleep n ∨ s'.log = s.log ++ [.read p n [] (-1)] ∨
          s'.log = s.log ++ [.read p n (s.pending.take n.toNat) (s.pending.take n.toNat).length] := by
  have hp := piped_of_run hfd h
  refine ⟨?_, hp.flows.contains.room, hp.accounted.sentBy, hp.accounted.sound, fun p n s' hpc hnext => ?_⟩
  · obtain ⟨rest, hrest⟩ := hp.flows.received
    rw [State.pending, ← hrest, List.drop_left]
  · have hbytes := (hp.flows.contains.copy n.toNat).1
    simp only [pipes, State.step, State.advance, hpc, Option.some.injEq] at hnext
    subst hnext
    unfold State.piperead
    split_ifs
    · exact .inr (.inl rfl)
    · exact .inl (State.goto_self ..)
    · exact .inr (.inr (by rw [← hbytes]; rfl))

/-- **The end of the file is final**: when `piperead` was asked for bytes and has returned none, all that was
put into the pipe was taken out, and nothing is put in any more. -/
theorem eof_of_run (hfd : fd₀ ≠ fd₁)
    (h : (pipes P Fd).run (pipealloc p₀ fd₀ fd₁ data killed) ls = some s) {bytes : List UInt8}
    (hmem : .read p n bytes 0 ∈ s.log) (hn : 0 < n) {ls' : List (Label P Fd)}
    (h' : (pipes P Fd).run s ls' = some s') : s'.sent = s.sent ∧ s'.received = s'.sent.map Prod.snd := by
  have hp := piped_of_run hfd h
  obtain ⟨hclosed, hpending⟩ := hp.ended _ hmem ⟨rfl, hn⟩
  have hlast : s'.sent = s.sent ∧ s'.pipe.writeopen = false ∧ Piped s' ∧
      s.received.length ≤ s'.received.length := by
    refine Machine.run_invariant (I := fun t => t.sent = s.sent ∧ t.pipe.writeopen = false ∧ Piped t ∧
      s.received.length ≤ t.received.length) h' ⟨rfl, hclosed, hp, le_rfl⟩ ?_
    rintro t lbl t' ⟨hsent, hopen, ht, hle⟩ hnext
    have hstep := step_of_next hnext
    obtain ⟨hsent', hopen'⟩ := sent_of_closed ht.ends ht.balanced hopen hstep
    obtain ⟨es, hlog, -⟩ := log_of_step ht.flows hstep
    refine ⟨hsent'.trans hsent, hopen', ht.next hstep, hle.trans ?_⟩
    rw [State.received, State.received, hlog, List.flatMap_append, List.length_append]
    exact Nat.le_add_right ..
  obtain ⟨hsent, -, hp', hle⟩ := hlast
  refine ⟨hsent, hp'.flows.received.eq_of_length_le ?_⟩
  rw [hsent]
  exact (List.drop_eq_nil_iff.1 hpending).trans hle

end

/-- Two bytes are written, and one of them is read. -/
theorem stream_of_run_half : ∃ s, (pipes Bool Bool).run
    (pipealloc true false true (fun _ => 0) fun _ => false)
    [.write true true (fun i => if i = 0 then 7 else 8) 2, .advance true, .read true false 1,
      .advance true] = some s ∧ s.sent.map Prod.snd = [7] ++ s.pending := by
  have hrun : (pipes Bool Bool).run (pipealloc true false true (fun _ => 0) fun _ => false)
    [.write true true (fun i => if i = 0 then 7 else 8) 2, .advance true, .read true false 1,
      .advance true] = some _ := rfl
  exact ⟨_, hrun, (stream_of_run (by decide) hrun).1⟩

/-- A byte is written, the end is closed, and the byte and the end of the file are read. -/
theorem eof_of_run_one : ∃ s, (pipes Bool Bool).run
    (pipealloc true false true (fun _ => 0) fun _ => false)
    [.write true true (fun _ => 7) 1, .advance true, .close true true, .advance true, .read true false 9,
      .advance true, .read true false 9, .advance true] = some s ∧ s.received = s.sent.map Prod.snd := by
  have hrun : (pipes Bool Bool).run (pipealloc true false true (fun _ => 0) fun _ => false)
    [.write true true (fun _ => 7) 1, .advance true, .close true true, .advance true, .read true false 9,
      .advance true, .read true false 9, .advance true] = some _ := rfl
  exact ⟨_, hrun, (eof_of_run (by decide) hrun
    (show Event.read true 9 [] 0 ∈ _ from .tail _ (.tail _ (.head _))) (by decide)
    (Machine.run_nil _)).2⟩

end Pipes

end OperatingSystems

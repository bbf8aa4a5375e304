import OperatingSystems.Consoles.Terminal

/-!
# From the keys to the readers

* `rub` : what is on the screen after what was shown.
* `Tracks` : **the invariant** of the buffer: it holds what is on the screen and was not read.
* `Accounted` : **the invariant** of the calls.
* `typed_of_run` : **what is read is what is on the screen**, in its order, and each character once.
* `progress_of_run` : **nobody waits in vain**: a reader sleeps only while there is no line, and then there is
  room for keys.
-/

namespace OperatingSystems

namespace Consoles

open Queues

/-- `consputc`, as far as the characters that are shown count -/
def rubStep (cs : List UInt8) : Shown → List UInt8
  | .char c => cs ++ [c]
  | .backspace => cs.dropLast

/-- What is on the screen -/
def rub (shown : List Shown) : List UInt8 := shown.foldl rubStep []

namespace Terminal

variable {t : Terminal} {c : UInt8} {a l u dst : List UInt8} {n : ℕ}

theorem rub_replicate (a l : List UInt8) :
    (List.replicate l.length Shown.backspace).foldl rubStep (a ++ l) = a := by
  induction l using List.reverseRecOn with
  | nil => exact List.append_nil a
  | append_singleton l c ih =>
    rw [List.length_append, List.length_singleton, List.replicate_succ, List.foldl_cons, ← List.append_assoc,
      rubStep, List.dropLast_concat, ih]

/-- What a key can do -/
theorem key_cases (t : Terminal) (c : UInt8) :
    t.key c = (t, [], false) ∨
    t.key c = ({ t with line := [] }, .replicate t.line.length .backspace, false) ∨
    (∃ l d, t.line = l ++ [d] ∧ t.key c = ({ t with line := l }, [.backspace], false)) ∨
    ∃ d, t.size < INPUT_BUF ∧
      (t.key c = (⟨t.unread ++ (t.line ++ [d]), []⟩, [.char d], true) ∨
        t.size + 1 ≠ INPUT_BUF ∧ t.key c = ({ t with line := t.line ++ [d] }, [.char d], false)) := by
  unfold key
  generalize (if c = 13 then newline else c) = d
  simp only
  split_ifs with hp hu hh hline hroom hend
  · exact .inl rfl
  · exact .inr (.inl rfl)
  · refine .inl ?_
    obtain ⟨u, l⟩ := t
    subst hline
    rfl
  · obtain ⟨l, d, hsplit⟩ := (List.eq_nil_or_concat' t.line).resolve_left hline
    refine .inr (.inr (.inl ⟨l, d, hsplit, ?_⟩))
    rw [hsplit, List.dropLast_concat]
  · exact .inr (.inr (.inr ⟨d, hroom.2, .inl rfl⟩))
  · exact .inr (.inr (.inr ⟨d, hroom.2, .inr ⟨fun heq => hend (.inr (.inr heq)), rfl⟩⟩))
  · exact .inl rfl

/-- What is shown keeps the screen at what is unread and edited. -/
theorem key_shown (t : Terminal) (c : UInt8) (a : List UInt8) :
    (t.key c).2.1.foldl rubStep (a ++ (t.unread ++ t.line)) = a ++ ((t.key c).1.unread ++ (t.key c).1.line) := by
  rcases key_cases t c with heq | heq | ⟨l, d, hline, heq⟩ | ⟨d, -, heq | ⟨-, heq⟩⟩ <;> rw [heq]
  · rfl
  · rw [← List.append_assoc, rub_replicate, List.append_nil]
  · rw [hline, List.foldl_cons, List.foldl_nil, rubStep, ← List.append_assoc, ← List.append_assoc,
      List.dropLast_concat, List.append_assoc]
  · simp only [List.foldl_cons, List.foldl_nil, rubStep, List.append_assoc, List.append_nil]
  · simp only [List.foldl_cons, List.foldl_nil, rubStep, List.append_assoc]

/-- While there is a line to edit, there is room for its end. -/
def Ready (t : Terminal) : Prop := t.line ≠ [] → t.size < INPUT_BUF

theorem Ready.key (h : t.Ready) (c : UInt8) : (t.key c).1.Ready := by
  rcases key_cases t c with heq | heq | ⟨l, d, hline, heq⟩ | ⟨d, hroom, heq | ⟨hne, heq⟩⟩ <;> rw [heq]
  · exact h
  · exact fun hnil => absurd rfl hnil
  · intro _
    have hroom := h (by rw [hline]; exact List.append_ne_nil_of_right_ne_nil _ (List.cons_ne_nil _ _))
    simp only [size, hline, List.length_append, List.length_singleton] at hroom ⊢
    omega
  · exact fun hnil => absurd rfl hnil
  · intro _
    simp only [size, List.length_append, List.length_singleton] at hroom hne ⊢
    omega

/-- Only a `wakeup` changes what can be read. -/
theorem key_unread (hc : (t.key c).2.2 = false) : (t.key c).1.unread = t.unread := by
  rcases key_cases t c with heq | heq | ⟨l, d, hline, heq⟩ | ⟨d, -, heq | ⟨-, heq⟩⟩ <;> rw [heq] at hc ⊢
  cases hc

/-- What the loop of `consoleread` returns: a part of what can be read, that goes on behind a newline or a
Control-D in no case -/
structure Reads (u l dst : List UInt8) (n : ℕ) (r : Terminal × List UInt8 × Outcome) (got : List UInt8) :
    Prop where
  line : r.1.line = l
  copied : r.2.1 = dst ++ got
  length : got.length ≤ n
  eof : C 'D' ∉ got
  ends : newline ∉ got.dropLast
  of_done : r.2.2 = .done → u = got ++ r.1.unread ∧ (dst ++ got = [] → n = 0)
  of_eof : r.2.2 = .eof → u = got ++ C 'D' :: r.1.unread ∧ dst ++ got = [] ∧ 0 < n
  of_wait : ∀ n', r.2.2 = .wait n' → u = got ∧ r.1.unread = [] ∧ n = got.length + n' ∧ 0 < n' ∧ newline ∉ got

theorem read_reads (u l dst : List UInt8) (n : ℕ) : ∃ got, Reads u l dst n (read l u dst n) got := by
  induction n generalizing u dst with
  | zero =>
    have hread : read l u dst 0 = (⟨u, l⟩, dst, .done) := by cases u <;> rfl
    rw [hread]
    exact ⟨[], rfl, (List.append_nil dst).symm, le_rfl, List.not_mem_nil, List.not_mem_nil,
      fun _ => ⟨rfl, fun _ => rfl⟩, fun ho => (by cases ho), fun _ ho => (by cases ho)⟩
  | succ n ih =>
    cases u with
    | nil =>
      exact ⟨[], rfl, (List.append_nil dst).symm, Nat.zero_le _, List.not_mem_nil, List.not_mem_nil,
        fun ho => (by cases ho), fun ho => (by cases ho),
        fun n' hn' => by cases hn'; exact ⟨rfl, rfl, (Nat.zero_add _).symm, Nat.succ_pos n, List.not_mem_nil⟩⟩
    | cons c u =>
      unfold read
      split_ifs with hd hdst hnl
      · exact ⟨[], rfl, (List.append_nil dst).symm, Nat.zero_le _, List.not_mem_nil, List.not_mem_nil,
          fun _ => ⟨rfl, fun hnil => absurd (List.append_eq_nil_iff.1 hnil).1 hdst⟩, fun ho => (by cases ho),
          fun _ ho => (by cases ho)⟩
      · exact ⟨[], rfl, (List.append_nil dst).symm, Nat.zero_le _, List.not_mem_nil, List.not_mem_nil,
          fun ho => (by cases ho), fun _ => ⟨by rw [hd]; rfl, by rw [not_not.1 hdst]; rfl, Nat.succ_pos n⟩,
          fun _ ho => (by cases ho)⟩
      · refine ⟨[c], rfl, rfl, Nat.succ_le_succ (Nat.zero_le n), ?_, List.not_mem_nil, ?_, fun ho => (by cases ho),
          fun _ ho => (by cases ho)⟩
        · exact fun hmem => hd (List.mem_singleton.1 hmem).symm
        · exact fun _ => ⟨rfl, fun hnil => absurd (List.append_eq_nil_iff.1 hnil).2 (List.cons_ne_nil _ _)⟩
      · obtain ⟨got, h⟩ := ih u (dst ++ [c])
        have hcopied : dst ++ c :: got = dst ++ [c] ++ got := List.append_cons ..
        refine ⟨c :: got, h.line, h.copied.trans hcopied.symm, Nat.succ_le_succ h.length, ?_, ?_, fun ho => ?_,
          fun ho => ?_, fun n' ho => ?_⟩
        · exact fun hmem => (List.mem_cons.1 hmem).elim (fun heq => hd heq.symm) h.eof
        · cases got with
          | nil => exact List.not_mem_nil
          | cons d got =>
            rw [List.dropLast_cons_cons]
            exact fun hmem => (List.mem_cons.1 hmem).elim (fun heq => hnl heq.symm) h.ends
        · obtain ⟨hu, hnil⟩ := h.of_done ho
          exact ⟨congrArg (c :: ·) hu, fun heq => absurd (List.append_eq_nil_iff.1 heq).2 (List.cons_ne_nil _ _)⟩
        · obtain ⟨-, hnil, -⟩ := h.of_eof ho
          exact absurd (List.append_eq_nil_iff.1 (List.append_eq_nil_iff.1 hnil).1).2 (List.cons_ne_nil _ _)
        · obtain ⟨hu, hunread, hn, hpos, hnot⟩ := h.of_wait n' ho
          refine ⟨congrArg (c :: ·) hu, hunread, by rw [List.length_cons]; omega, hpos, fun hmem => ?_⟩
          exact (List.mem_cons.1 hmem).elim (fun heq => hnl heq.symm) hnot

end Terminal

variable {P : Type} [DecidableEq P]

/-- What a call has taken out: what it has copied, or a Control-D if it returns nothing -/
def Event.took (e : Event P) : List UInt8 :=
  if e.dst = [] ∧ 0 < e.target ∧ e.ret = 0 then [C 'D'] else e.dst

/-- What a call has copied so far -/
def Pc.dst : Pc → List UInt8
  | .client => []
  | .read _ dst => dst
  | .sleep _ dst => dst

/-- A call that has returned: not more than it was asked for, and at most one line of it -/
structure Event.Sound (e : Event P) : Prop where
  length : e.dst.length ≤ e.target
  eof : C 'D' ∉ e.dst
  ends : newline ∉ e.dst.dropLast
  ret : e.ret = e.dst.length ∨ e.ret = -1

/-- What a process has taken out -/
def State.takenBy (s : State P) (p : P) : List UInt8 := (s.taken.filter (·.1 = p)).map (·.2)

/-- What the calls of a process that have returned have taken out -/
def State.tookBy (s : State P) (p : P) : List UInt8 := (s.log.filter (·.p = p)).flatMap Event.took

/-- **The buffer holds what is on the screen and was not read.** -/
structure Tracks (s : State P) (t : Terminal) : Prop where
  refines : Refines s.input t
  shown : rub s.echo = s.taken.map Prod.snd ++ (t.unread ++ t.line)
  ready : t.Ready
  asleep : ∀ p n dst, s.pc p = .sleep n dst → t.unread = []

/-- **What each process has taken out is in its calls.** -/
structure Accounted (s : State P) : Prop where
  taken : ∀ p, s.takenBy p = s.tookBy p ++ (s.pc p).dst
  /-- A call that is not over has not come to the end of a line. -/
  going : ∀ p, newline ∉ (s.pc p).dst ∧ C 'D' ∉ (s.pc p).dst
  sound : ∀ e ∈ s.log, e.Sound

variable {s s' : State P} {t : Terminal} {p q : P} {pc : Pc} {n : ℕ} {dst : List UInt8} {c : UInt8}

/-! ### Keys -/

theorem wake_dst (pc : Pc) : (State.wake pc).dst = pc.dst := by cases pc <;> rfl

theorem wake_ne_sleep (pc : Pc) : State.wake pc ≠ .sleep n dst := by cases pc <;> simp [State.wake]

omit [DecidableEq P] in
theorem Tracks.press (h : Tracks s t) (c : UInt8) : Tracks (s.press c) (t.key c).1 := by
  obtain ⟨hrefines, heq⟩ := h.refines.key c
  refine ⟨hrefines, ?_, h.ready.key c, fun p n dst hp => ?_⟩
  · change rub (s.echo ++ (s.input.key c).2.1) = _
    rw [heq, rub, List.foldl_append, ← t.key_shown]
    exact congrArg (List.foldl rubStep · _) h.shown
  · change (if (s.input.key c).2.2 then State.wake (s.pc p) else s.pc p) = _ at hp
    rw [heq] at hp
    split_ifs at hp with hwake
    · exact absurd hp (wake_ne_sleep _)
    · rw [Terminal.key_unread (Bool.eq_false_of_not_eq_true hwake)]
      exact h.asleep p n dst hp

omit [DecidableEq P] in
theorem press_dst (s : State P) (c : UInt8) (p : P) : ((s.press c).pc p).dst = (s.pc p).dst := by
  change (if (s.input.key c).2.2 then State.wake (s.pc p) else s.pc p).dst = _
  split_ifs
  · exact wake_dst _
  · rfl

theorem Accounted.frame (h : Accounted s) (htaken : s'.taken = s.taken) (hlog : s'.log = s.log)
    (hpc : ∀ p, (s'.pc p).dst = (s.pc p).dst) : Accounted s' where
  taken p := by
    have hp := h.taken p
    rw [State.takenBy, State.tookBy] at hp ⊢
    rw [htaken, hlog, hpc, hp]
  going p := hpc p ▸ h.going p
  sound e he := h.sound e (hlog ▸ he)

theorem Accounted.press (h : Accounted s) (c : UInt8) : Accounted (s.press c) :=
  h.frame rfl rfl (press_dst s c)

/-! ### Readers -/

theorem takenBy_take (s : State P) (p q : P) (x : Input) (cs : List UInt8) :
    (s.take p x cs).takenBy q = s.takenBy q ++ if p = q then cs else [] := by
  simp only [State.takenBy, State.take, List.filter_append, List.map_append, List.filter_map, List.map_map]
  split_ifs with hpq
  · simp [Function.comp_def, hpq]
  · simp [Function.comp_def, hpq]

namespace Accounted

/-- A process has taken out `cs`, and its call goes on. -/
theorem moves (h : Accounted s) {x : Input} {cs : List UInt8} (hdst : pc.dst = (s.pc p).dst ++ cs)
    (hnl : newline ∉ pc.dst) (heof : C 'D' ∉ pc.dst) : Accounted ((s.take p x cs).goto p pc) where
  taken q := by
    change (s.take p x cs).takenBy q = s.tookBy q ++ (Function.update s.pc p pc q).dst
    rw [takenBy_take, h.taken q, Function.update_apply, List.append_assoc]
    obtain rfl | hne := eq_or_ne p q
    · rw [if_pos rfl, if_pos rfl, hdst]
    · rw [if_neg hne, if_neg hne.symm, List.append_nil]
  going q := by
    change newline ∉ (Function.update s.pc p pc q).dst ∧ C 'D' ∉ (Function.update s.pc p pc q).dst
    rw [Function.update_apply]
    split_ifs
    · exact ⟨hnl, heof⟩
    · exact h.going q
  sound := h.sound

/-- A process has taken out `cs`, and its call returns. -/
theorem returns (h : Accounted s) {x : Input} {cs : List UInt8} (e : Event P)
    (htook : e.took = (s.pc e.p).dst ++ cs) (hsound : e.Sound) :
    Accounted ((s.take e.p x cs).ret e.p e.target e.dst e.ret) where
  taken q := by
    change (s.take e.p x cs).takenBy q =
      ((s.log ++ [e]).filter (·.p = q)).flatMap Event.took ++ (Function.update s.pc e.p .client q).dst
    rw [takenBy_take, h.taken q, Function.update_apply, List.filter_append, List.flatMap_append,
      List.append_assoc, List.append_assoc]
    obtain rfl | hne := eq_or_ne e.p q
    · simp [htook, Pc.dst, State.tookBy]
    · simp [hne, hne.symm, State.tookBy]
  going q := by
    change newline ∉ (Function.update s.pc e.p .client q).dst ∧ C 'D' ∉ (Function.update s.pc e.p .client q).dst
    rw [Function.update_apply]
    split_ifs
    · exact ⟨List.not_mem_nil, List.not_mem_nil⟩
    · exact h.going q
  sound e' he := (List.mem_append.1 he).elim (h.sound e') fun he => List.mem_singleton.1 he ▸ hsound

end Accounted

namespace Tracks

omit [DecidableEq P] in
/-- A process takes out what comes first. -/
theorem take (h : Tracks s t) (p : P) {x : Input} {t' : Terminal} {cs : List UInt8} (hx : Refines x t')
    (hline : t'.line = t.line) (hunread : t.unread = cs ++ t'.unread) : Tracks (s.take p x cs) t' where
  refines := hx
  shown := by
    simp only [State.take, List.map_append, List.map_map, Function.comp_def, List.map_id']
    rw [h.shown, hunread, hline]
    simp only [List.append_assoc]
  ready hne := by
    have hroom := h.ready (hline ▸ hne)
    simp only [Terminal.size, hunread, List.length_append, hline] at hroom ⊢
    omega
  asleep q n dst hq := by
    have hnil := h.asleep q n dst hq
    rw [hunread] at hnil
    exact (List.append_eq_nil_iff.1 hnil).2

theorem goto (h : Tracks s t) (p : P) (pc : Pc) (hpc : ∀ n dst, pc = .sleep n dst → t.unread = []) :
    Tracks (s.goto p pc) t where
  refines := h.refines
  shown := h.shown
  ready := h.ready
  asleep q n dst hq := by
    change Function.update s.pc p pc q = _ at hq
    rw [Function.update_apply] at hq
    split_ifs at hq
    · exact hpc n dst hq
    · exact h.asleep q n dst hq

theorem ret (h : Tracks s t) (p : P) (target : ℕ) (dst : List UInt8) (r : ℤ) :
    Tracks (s.ret p target dst r) t :=
  let h' := h.goto p .client nofun
  ⟨h'.refines, h'.shown, h'.ready, h'.asleep⟩

end Tracks

theorem notMem_dropLast_append {a b : List UInt8} (ha : c ∉ a) (hb : c ∉ b.dropLast) :
    c ∉ (a ++ b).dropLast := by
  obtain rfl | hne := eq_or_ne b []
  · rw [List.append_nil]
    exact fun hmem => ha (List.dropLast_subset _ hmem)
  · rw [List.dropLast_append_of_ne_nil hne, List.mem_append]
    exact not_or.2 ⟨ha, hb⟩

/-- **`consoleread`** -/
theorem Tracks.consoleread (h : Tracks s t) (ha : Accounted s) (hpc : s.pc p = .read n dst) :
    (∃ t', Tracks (s.consoleread p n dst) t') ∧ Accounted (s.consoleread p n dst) := by
  obtain ⟨u, l⟩ := t
  obtain ⟨hrefines, heq⟩ := h.refines.readLoop dst n
  obtain ⟨got, hline, hcopied, hlength, hgeof, hgends, hdone, heof, hwait⟩ := Terminal.read_reads u l dst n
  generalize Terminal.read l u dst n = r at hrefines heq hline hcopied hdone heof hwait
  obtain ⟨t', dst', o⟩ := r
  obtain rfl : dst' = dst ++ got := hcopied
  have hdst : (s.pc p).dst = dst := by rw [hpc]; rfl
  obtain ⟨hnl, hd⟩ := ha.going p
  rw [hdst] at hnl hd
  -- what a call that returns has copied is in order, whatever it returns
  have hsound : ∀ ret : ℤ, ret = (dst ++ got).length ∨ ret = -1 →
      (⟨p, dst.length + n, dst ++ got, ret⟩ : Event P).Sound := fun ret hret =>
    ⟨by rw [List.length_append]; exact Nat.add_le_add_left hlength _,
      fun hmem => (List.mem_append.1 hmem).elim hd hgeof, notMem_dropLast_append hnl hgends, hret⟩
  unfold State.consoleread
  generalize s.input.readLoop dst n = r at hrefines heq
  obtain ⟨x, rest⟩ := r
  obtain rfl : rest = (dst ++ got, o) := heq
  cases o with
  | done =>
    obtain ⟨hu, hnil⟩ := hdone rfl
    simp only [List.drop_left]
    refine ⟨⟨t', (h.take p hrefines hline hu).ret _ _ _ _⟩, ?_⟩
    refine ha.returns ⟨p, _, _, _⟩ ?_ (hsound _ (.inl rfl))
    rw [Event.took, if_neg, hdst]
    rintro ⟨hempty, htarget, -⟩
    rw [(List.append_eq_nil_iff.1 hempty).1, hnil hempty] at htarget
    exact Nat.lt_irrefl 0 htarget
  | eof =>
    obtain ⟨hu, hnil, hpos⟩ := heof rfl
    simp only [List.drop_left]
    refine ⟨⟨t', (h.take p hrefines hline ?_).ret _ _ _ _⟩, ?_⟩
    · rw [hu, List.append_assoc]
      rfl
    refine ha.returns ⟨p, _, _, _⟩ ?_ (hsound _ (.inl rfl))
    rw [Event.took, if_pos ⟨hnil, by simp only; omega, by simp only [hnil]; rfl⟩, hdst, ← List.append_assoc, hnil]
    rfl
  | wait n' =>
    obtain ⟨hu, hunread, hn, hpos, hnot⟩ := hwait n' rfl
    have hgot : u = got ++ t'.unread := by rw [hunread, List.append_nil, hu]
    have htake := h.take p hrefines hline hgot
    simp only [List.drop_left]
    split_ifs
    · refine ⟨⟨t', htake.ret _ _ _ _⟩, ha.returns ⟨p, _, _, _⟩ ?_ (hsound _ (.inr rfl))⟩
      rw [Event.took, if_neg (fun hret => by simp at hret), hdst]
    · refine ⟨⟨t', htake.goto _ _ fun _ _ _ => hunread⟩, ha.moves (by rw [hdst]; rfl) ?_ ?_⟩
      · exact fun hmem => (List.mem_append.1 hmem).elim hnl hnot
      · exact fun hmem => (List.mem_append.1 hmem).elim hd hgeof

/-! ### Runs -/

/-- **The invariant** -/
def Served (s : State P) : Prop := (∃ t, Tracks s t) ∧ Accounted s

namespace Served

theorem consoleinit (buf : ℕ → UInt8) (killed : P → Bool) : Served (consoleinit buf killed) where
  left := ⟨⟨[], []⟩, ⟨.empty (by decide : 0 < 2 ^ 32), rfl, List.not_mem_nil⟩, rfl, fun hne => absurd rfl hne, nofun⟩
  right := ⟨fun _ => rfl, fun _ => ⟨List.not_mem_nil, List.not_mem_nil⟩, nofun⟩

omit [DecidableEq P] in
theorem press_tracks (h : Tracks s t) (cs : List UInt8) : ∃ t', Tracks (s.consoleintr cs) t' := by
  induction cs generalizing s t with
  | nil => exact ⟨t, h⟩
  | cons c cs ih => exact ih (h.press c)

theorem press_accounted (h : Accounted s) (cs : List UInt8) : Accounted (s.consoleintr cs) := by
  induction cs generalizing s with
  | nil => exact h
  | cons c cs ih => exact ih (h.press c)

/-- **Each step keeps it.** -/
theorem next (h : Served s) {l : Label P} (hs : (consoles P).next s l = some s') : Served s' := by
  obtain ⟨⟨t, ht⟩, ha⟩ := h
  cases l with
  | intr cs =>
    cases hs
    exact ⟨press_tracks ht cs, press_accounted ha cs⟩
  | read p n =>
    simp only [consoles, State.step] at hs
    split at hs
    · rename_i hpc
      cases hs
      refine ⟨⟨t, ht.goto _ _ nofun⟩, ha.frame rfl rfl fun q => ?_⟩
      change (Function.update s.pc p _ q).dst = _
      rw [Function.update_apply]
      split_ifs with hq
      · rw [hq, hpc]
        rfl
      · rfl
    · cases hs
  | kill p =>
    cases hs
    have hgoto := ht.goto p (State.wake (s.pc p)) fun _ _ hpc => absurd hpc (wake_ne_sleep _)
    refine ⟨⟨t, hgoto.refines, hgoto.shown, hgoto.ready, hgoto.asleep⟩, ha.frame rfl rfl fun q => ?_⟩
    change (Function.update s.pc p _ q).dst = _
    rw [Function.update_apply]
    split_ifs with hq
    · rw [hq, wake_dst]
    · rfl
  | advance p =>
    simp only [consoles, State.step] at hs
    split at hs
    · rename_i n dst hpc
      cases hs
      exact ht.consoleread ha hpc
    · cases hs

theorem run {buf : ℕ → UInt8} {killed : P → Bool} {ls : List (Label P)}
    (hrun : (consoles P).run (Consoles.consoleinit buf killed) ls = some s) : Served s :=
  Machine.run_induction (P := fun _ s => Served s) (consoleinit buf killed)
    (fun _ _ _ _ _ h hs => h.next hs) hrun

end Served

variable {buf : ℕ → UInt8} {killed : P → Bool} {ls : List (Label P)}

/-- **What is read is what is on the screen**, in its order, each character once, however many processes
read; a call takes at most one line of it, and a Control-D is the only thing that a call returns 0 for. -/
theorem typed_of_run (hrun : (consoles P).run (consoleinit buf killed) ls = some s) :
    (∃ rest, Holds (2 ^ 32) INPUT_BUF s.input.buf s.input.r s.input.e rest ∧
      rub s.echo = s.taken.map Prod.snd ++ rest) ∧
    (∀ p, s.takenBy p = s.tookBy p ++ (s.pc p).dst) ∧ ∀ e ∈ s.log, e.Sound := by
  obtain ⟨⟨t, ht⟩, ha⟩ := Served.run hrun
  exact ⟨⟨_, ht.refines.holds, ht.shown⟩, ha.taken, ha.sound⟩

/-- A line with a character that was erased -/
theorem typed_of_run_line : ∃ s : State Bool,
    (consoles Bool).run (consoleinit (fun _ => 0) fun _ => false)
      [.read true 5, .advance true, .intr [104, 0x7f, 105, 13], .advance true] = some s ∧
    s.takenBy true = [105, 10] ∧ s.takenBy true = s.tookBy true ++ (s.pc true).dst := by
  have hrun : (consoles Bool).run (consoleinit (fun _ => 0) fun _ => false)
      [.read true 5, .advance true, .intr [104, 0x7f, 105, 13], .advance true] = some _ := rfl
  exact ⟨_, hrun, rfl, (typed_of_run hrun).2.1 true⟩

/-- **Nobody waits in vain**: a reader sleeps only while no line can be read, and then there is room for keys;
when there is none, the line that is full can be read. -/
theorem progress_of_run (hrun : (consoles P).run (consoleinit buf killed) ls = some s) :
    (∀ p n dst, s.pc p = .sleep n dst →
      s.input.r = s.input.w ∧ (s.input.e + 2 ^ 32 - s.input.r) % 2 ^ 32 < INPUT_BUF) ∧
    ((s.input.e + 2 ^ 32 - s.input.r) % 2 ^ 32 = INPUT_BUF →
      s.input.w = s.input.e ∧ s.input.r ≠ s.input.w) := by
  obtain ⟨⟨t, ht⟩, -⟩ := Served.run hrun
  have hempty := ht.refines.unread.empty_iff fits
  rw [ht.refines.size_eq]
  have hsize : 0 < INPUT_BUF := by decide
  refine ⟨fun p n dst hpc => ?_, fun hfull => ?_⟩
  · have hnil := ht.asleep p n dst hpc
    refine ⟨hempty.2 hnil, ?_⟩
    obtain hline | hline := eq_or_ne t.line []
    · rwa [Terminal.size, hnil, hline]
    · exact ht.ready hline
  · have hline : t.line = [] := not_not.1 fun hne => (ht.ready hne).ne hfull
    refine ⟨(ht.refines.edited.empty_iff fits).2 hline, fun heq => ?_⟩
    rw [Terminal.size, hempty.1 heq, hline] at hfull
    exact hsize.ne hfull

/-- A reader that sleeps beside a line that is not at its end -/
theorem progress_of_run_asleep : ∃ s : State Bool,
    (consoles Bool).run (consoleinit (fun _ => 0) fun _ => false)
      [.read true 5, .advance true, .intr [104, 105]] = some s ∧
    s.pc true = .sleep 5 [] ∧ s.input.r = s.input.w := by
  have hrun : (consoles Bool).run (consoleinit (fun _ => 0) fun _ => false)
      [.read true 5, .advance true, .intr [104, 105]] = some _ := rfl
  exact ⟨_, hrun, rfl, ((progress_of_run hrun).1 true 5 [] rfl).1⟩

end Consoles

end OperatingSystems

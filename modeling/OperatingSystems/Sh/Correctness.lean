import OperatingSystems.Sh.Loops

/-!
# The parser and the grammar

* `parse_sound` : **what the parser returns is in the grammar**, and the fuel of the model is enough.
* `parseline_complete` : **what is in the grammar is returned**.
* `parsecmd_of_line` : **`parsecmd` accepts exactly the lines of the grammar**, and builds their commands.
-/

namespace OperatingSystems

namespace Sh

variable {buf : Bytes} {es s k : ℕ} {ts rest : List (Token Span)} {c : Cmd Span}

/-! ### Soundness -/

/-- The four functions, with enough fuel for the tokens -/
structure Sound (buf : Bytes) (es k : ℕ) : Prop where
  line : ∀ {s ts}, Before buf es s ts → 4 * ts.length + 4 ≤ k →
    Returns (fun r => ∃ rest, Before buf es r.2 rest ∧ Line ts r.1 rest) (parseline buf es k s)
  pipe : ∀ {s ts}, Before buf es s ts → 4 * ts.length + 3 ≤ k →
    Returns (fun r => ∃ rest, Before buf es r.2 rest ∧ Pipe ts r.1 rest) (parsepipe buf es k s)
  exec : ∀ {s ts}, Before buf es s ts → 4 * ts.length + 2 ≤ k →
    Returns (fun r => ∃ rest, Before buf es r.2 rest ∧ Exec ts r.1 rest) (parseexec buf es k s)
  block : ∀ {s ts}, Before buf es s ts → 4 * ts.length + 1 ≤ k →
    Returns (fun r => ∃ rest, Before buf es r.2 rest ∧ Exec ts r.1 rest) (parseblock buf es k s)

/-- The loops have more fuel than there are tokens. -/
theorem Before.length_lt (hb : Before buf es s ts) (h : IsLine buf es) : ts.length < es + 1 := by
  have hle := length_tokens h hb.le
  rw [hb.tokens_eq] at hle
  omega

theorem parseline_sound (h : IsLine buf es) (hk : Sound buf es k) (hb : Before buf es s ts)
    (hlength : 4 * ts.length + 4 ≤ k + 1) :
    Returns (fun r => ∃ rest, Before buf es r.2 rest ∧ Line ts r.1 rest) (parseline buf es (k + 1) s) := by
  rw [parseline]
  refine (hk.pipe hb (by omega)).bind ?_
  rintro ⟨c, s₁⟩ ⟨ts₁, hb₁, hpipe⟩
  refine (parsebacks_sound h hb₁ (hb₁.length_lt h)).bind ?_
  rintro ⟨c', s₂⟩ ⟨ts₂, hb₂, hbacks⟩
  simp only [hb₂.peek_fst h [59] rfl]
  have hpeek := hb₂.peek_snd h [59]
  split_ifs with hstarts
  · obtain ⟨ts₃, rfl⟩ := eq_of_starts (by decide) hstarts
    obtain ⟨-, -, -, hb₃⟩ := hpeek.gettoken_sym h
    have hle := hbacks.suffix.length_le.trans hpipe.suffix.length_le
    rw [List.length_cons] at hle
    refine (hk.line hb₃ (by omega)).bind ?_
    rintro ⟨d, s₄⟩ ⟨rest, hrest, hline⟩
    exact ⟨rest, hrest, .list hpipe hbacks hline⟩
  · exact ⟨ts₂, hpeek, .one hpipe hbacks⟩

theorem parsepipe_sound (h : IsLine buf es) (hk : Sound buf es k) (hb : Before buf es s ts)
    (hlength : 4 * ts.length + 3 ≤ k + 1) :
    Returns (fun r => ∃ rest, Before buf es r.2 rest ∧ Pipe ts r.1 rest) (parsepipe buf es (k + 1) s) := by
  rw [parsepipe]
  refine (hk.exec hb (by omega)).bind ?_
  rintro ⟨c, s₁⟩ ⟨ts₁, hb₁, hexec⟩
  simp only [hb₁.peek_fst h [124] rfl]
  have hpeek := hb₁.peek_snd h [124]
  split_ifs with hstarts
  · obtain ⟨ts₂, rfl⟩ := eq_of_starts (by decide) hstarts
    obtain ⟨-, -, -, hb₂⟩ := hpeek.gettoken_sym h
    have hle := hexec.suffix.length_le
    rw [List.length_cons] at hle
    refine (hk.pipe hb₂ (by omega)).bind ?_
    rintro ⟨d, s₃⟩ ⟨rest, hrest, hpipe⟩
    exact ⟨rest, hrest, .pipe hexec hpipe⟩
  · exact ⟨ts₁, hpeek, .one hexec⟩

theorem parseblock_sound (h : IsLine buf es) (hk : Sound buf es k) (hb : Before buf es s ts)
    (hlength : 4 * ts.length + 1 ≤ k + 1) :
    Returns (fun r => ∃ rest, Before buf es r.2 rest ∧ Exec ts r.1 rest) (parseblock buf es (k + 1) s) := by
  rw [parseblock]
  simp only [hb.peek_fst h [40] rfl]
  split_ifs with hopen
  · obtain ⟨ts, rfl⟩ := eq_of_starts (by decide) hopen
    obtain ⟨-, -, -, hb₁⟩ := (hb.peek_snd h [40]).gettoken_sym h
    rw [List.length_cons] at hlength
    refine (hk.line hb₁ (by omega)).bind ?_
    rintro ⟨c, s₂⟩ ⟨ts₂, hb₂, hline⟩
    simp only [hb₂.peek_fst h [41] rfl]
    split_ifs with hclose
    · obtain ⟨ts₂, rfl⟩ := eq_of_starts (by decide) hclose
      obtain ⟨-, -, -, hb₃⟩ := (hb₂.peek_snd h [41]).gettoken_sym h
      refine (parseredirs_sound h hb₃ (hb₃.length_lt h)).mono fun r hrest => ?_
      obtain ⟨rest, hrest, hr⟩ := hrest
      exact ⟨rest, hrest, .block hline hr⟩
    · exact Stop.noConfusion
  · exact Stop.noConfusion

theorem parseexec_sound (h : IsLine buf es) (hk : Sound buf es k) (hb : Before buf es s ts)
    (hlength : 4 * ts.length + 2 ≤ k + 1) :
    Returns (fun r => ∃ rest, Before buf es r.2 rest ∧ Exec ts r.1 rest) (parseexec buf es (k + 1) s) := by
  rw [parseexec]
  have hpeek := hb.peek_snd h [40]
  split_ifs with hopen
  · exact hk.block hpeek (by omega)
  · refine (parseredirs_sound h hpeek (hb.length_lt h)).bind ?_
    rintro ⟨c, s₁⟩ ⟨ts₁, hb₁, hr⟩
    refine (parseargs_sound h hb₁ (hb₁.length_lt h)).mono fun r hrest => ?_
    obtain ⟨rest, hrest, hargs⟩ := hrest
    exact ⟨rest, hrest, .exec hr hargs⟩

/-- **What the parser returns is in the grammar.** -/
theorem parse_sound (h : IsLine buf es) : Sound buf es k := by
  induction k with
  | zero => exact ⟨fun _ hlength => by omega, fun _ hlength => by omega, fun _ hlength => by omega,
      fun _ hlength => by omega⟩
  | succ k ih =>
    exact ⟨parseline_sound h ih, parsepipe_sound h ih, parseexec_sound h ih, parseblock_sound h ih⟩

/-! ### Completeness -/

theorem Backs.follows {c' : Cmd Span} (hr : Backs ts c c' rest) (hrest : Follows [41, 59] rest) :
    Follows [41, 38, 59] ts := by
  cases hr with
  | nil => exact hrest.mono rfl
  | cons _ => exact .inr rfl

/-- Redirections and arguments do not begin with a parenthesis. -/
theorem Redirs.not_open {ts₁ : List (Token Span)} {c₁ c' : Cmd Span} {n : ℕ} (hr : Redirs ts c c₁ ts₁)
    (ha : Args ts₁ n c₁ c' rest) (hrest : Follows [124, 41, 38, 59] rest) : starts [40] ts = false := by
  cases hr with
  | nil =>
    cases ha with
    | nil => exact hrest.starts_eq_false rfl
    | cons _ _ _ => rfl
  | cons ht _ => rcases ht with rfl | rfl | rfl <;> rfl

mutual

/-- **What is in the grammar is returned**, where the line does not go on. -/
theorem Line.parseline {ts rest : List (Token Span)} {c : Cmd Span} (h : IsLine buf es) : Line ts c rest →
    ∀ {s k}, Before buf es s ts → Follows [41] rest → 4 * ts.length + 4 ≤ k →
      ∃ s', Before buf es s' rest ∧ parseline buf es k s = .ok (c, s')
  | .one hpipe hbacks, s, k, hb, hrest, hk => by
    obtain ⟨k, rfl⟩ : ∃ j, k = j + 1 := ⟨k - 1, by omega⟩
    have hfollows : Follows [41, 59] rest := hrest.mono rfl
    obtain ⟨s₁, hb₁, heq₁⟩ := hpipe.parsepipe (k := k) h hb (hbacks.follows hfollows) (by omega)
    obtain ⟨s₂, hb₂, heq₂⟩ := parsebacks_complete h hbacks hb₁ (hfollows.starts_eq_false rfl)
      (hb₁.length_lt h)
    refine ⟨_, hb₂.peek_snd h [59], ?_⟩
    rw [Sh.parseline, heq₁, ok_bind, heq₂, ok_bind]
    simp only [hb₂.peek_fst h [59] rfl]
    rw [hrest.starts_eq_false rfl]
    rfl
  | @Line.list _ _ _ ts₂ _ _ _ _ hpipe hbacks hline, s, k, hb, hrest, hk => by
    obtain ⟨k, rfl⟩ : ∃ j, k = j + 1 := ⟨k - 1, by omega⟩
    have hfollows : Follows [41, 59] (.sym 59 :: ts₂ : List (Token Span)) := .inr rfl
    obtain ⟨s₁, hb₁, heq₁⟩ := hpipe.parsepipe (k := k) h hb (hbacks.follows hfollows) (by omega)
    obtain ⟨s₂, hb₂, heq₂⟩ := parsebacks_complete h hbacks hb₁ (hfollows.starts_eq_false rfl)
      (hb₁.length_lt h)
    obtain ⟨-, -, -, hb₃⟩ := (hb₂.peek_snd h [59]).gettoken_sym h
    have hle := hbacks.suffix.length_le.trans hpipe.suffix.length_le
    rw [List.length_cons] at hle
    obtain ⟨s₄, hb₄, heq₄⟩ := hline.parseline (k := k) h hb₃ hrest (by omega)
    refine ⟨s₄, hb₄, ?_⟩
    rw [Sh.parseline, heq₁, ok_bind, heq₂, ok_bind]
    simp only [hb₂.peek_fst h [59] rfl]
    rw [if_pos (show starts [59] (.sym 59 :: ts₂ : List (Token Span)) = true from rfl), heq₄]
    rfl

theorem Pipe.parsepipe {ts rest : List (Token Span)} {c : Cmd Span} (h : IsLine buf es) : Pipe ts c rest →
    ∀ {s k}, Before buf es s ts → Follows [41, 38, 59] rest → 4 * ts.length + 3 ≤ k →
      ∃ s', Before buf es s' rest ∧ parsepipe buf es k s = .ok (c, s')
  | .one hexec, s, k, hb, hrest, hk => by
    obtain ⟨k, rfl⟩ : ∃ j, k = j + 1 := ⟨k - 1, by omega⟩
    obtain ⟨s₁, hb₁, heq₁⟩ := hexec.parseexec (k := k) h hb (hrest.mono rfl) (by omega)
    refine ⟨_, hb₁.peek_snd h [124], ?_⟩
    rw [Sh.parsepipe, heq₁, ok_bind]
    simp only [hb₁.peek_fst h [124] rfl]
    rw [hrest.starts_eq_false rfl]
    rfl
  | @Pipe.pipe _ _ ts₁ _ _ _ hexec hpipe, s, k, hb, hrest, hk => by
    obtain ⟨k, rfl⟩ : ∃ j, k = j + 1 := ⟨k - 1, by omega⟩
    obtain ⟨s₁, hb₁, heq₁⟩ := hexec.parseexec (k := k) h hb (.inr rfl) (by omega)
    obtain ⟨-, -, -, hb₂⟩ := (hb₁.peek_snd h [124]).gettoken_sym h
    have hle := hexec.suffix.length_le
    rw [List.length_cons] at hle
    obtain ⟨s₃, hb₃, heq₃⟩ := hpipe.parsepipe (k := k) h hb₂ hrest (by omega)
    refine ⟨s₃, hb₃, ?_⟩
    rw [Sh.parsepipe, heq₁, ok_bind]
    simp only [hb₁.peek_fst h [124] rfl]
    rw [if_pos (show starts [124] (.sym 124 :: ts₁ : List (Token Span)) = true from rfl), heq₃]
    rfl

theorem Exec.parseexec {ts rest : List (Token Span)} {c : Cmd Span} (h : IsLine buf es) : Exec ts c rest →
    ∀ {s k}, Before buf es s ts → Follows [124, 41, 38, 59] rest → 4 * ts.length + 2 ≤ k →
      ∃ s', Before buf es s' rest ∧ parseexec buf es k s = .ok (c, s')
  | @Exec.block _ ts ts₁ _ _ _ hline hr, s, k, hb, hrest, hk => by
    obtain ⟨k, rfl⟩ : ∃ j, k = j + 1 + 1 := ⟨k - 2, by omega⟩
    have hpeek := hb.peek_snd h [40]
    have hopen : starts [40] (.sym 40 :: ts : List (Token Span)) = true := rfl
    have hclose : starts [41] (.sym 41 :: ts₁ : List (Token Span)) = true := rfl
    obtain ⟨-, -, -, hb₁⟩ := (hpeek.peek_snd h [40]).gettoken_sym h
    rw [List.length_cons] at hk
    obtain ⟨s₂, hb₂, heq₂⟩ := hline.parseline (k := k) h hb₁ (.inr rfl) (by omega)
    obtain ⟨-, -, -, hb₃⟩ := (hb₂.peek_snd h [41]).gettoken_sym h
    obtain ⟨s₄, hb₄, heq₄⟩ := parseredirs_complete h hr hb₃ (hrest.starts_eq_false rfl) (hb₃.length_lt h)
    refine ⟨s₄, hb₄, ?_⟩
    rw [Sh.parseexec]
    simp only [hb.peek_fst h [40] rfl]
    rw [if_pos hopen, parseblock]
    simp only [hpeek.peek_fst h [40] rfl]
    rw [if_pos hopen, heq₂, ok_bind]
    simp only [hb₂.peek_fst h [41] rfl]
    rw [if_pos hclose, heq₄]
  | .exec hr hargs, s, k, hb, hrest, hk => by
    obtain ⟨k, rfl⟩ : ∃ j, k = j + 1 := ⟨k - 1, by omega⟩
    have hpeek := hb.peek_snd h [40]
    obtain ⟨s₁, hb₁, heq₁⟩ := parseredirs_complete h hr hpeek (hargs.not_redir hrest) (hb.length_lt h)
    obtain ⟨s₂, hb₂, heq₂⟩ := parseargs_complete h hargs hb₁ hrest (hb₁.length_lt h)
    refine ⟨s₂, hb₂, ?_⟩
    rw [Sh.parseexec]
    simp only [hb.peek_fst h [40] rfl]
    rw [hr.not_open hargs hrest, if_neg Bool.false_ne_true, heq₁, ok_bind, heq₂]

end

/-! ### Lines -/

/-- Without leftovers -/
theorem leftovers_iff (h : IsLine buf es) (hb : Before buf es s ts) : (peek buf es s []).2 ≠ es ↔ ts ≠ [] := by
  have hpeek := hb.peek_snd h []
  rw [ne_eq, ne_eq, not_iff_not]
  constructor
  · intro heq
    rw [heq] at hpeek
    exact hpeek.tokens_eq.symm.trans (Before.last h).tokens_eq
  · rintro rfl
    exact congrArg Gotten.q (hb.gettoken_nil h)

/-- **`parsecmd` accepts exactly the lines of the grammar**, and builds their commands; it does not run out
of fuel. -/
theorem parsecmd_iff (h : IsLine buf es) :
    parsecmd buf es ≠ .error .fuel ∧ ∀ c, parsecmd buf es = .ok c ↔ Line (tokens buf es 0) c [] := by
  have hb : Before buf es 0 (tokens buf es 0) := ⟨Nat.zero_le es, rfl⟩
  have hfuel : 4 * (tokens buf es 0).length + 4 ≤ 4 * es + 4 := by
    have hle := length_tokens h hb.le
    omega
  have hsound := (parse_sound h).line hb hfuel
  have hcomplete := fun c (hline : Line (tokens buf es 0) c []) => hline.parseline h hb (.inl rfl) hfuel
  revert hsound hcomplete
  rw [parsecmd]
  cases parseline buf es (4 * es + 4) 0 with
  | error e =>
    intro hsound hcomplete
    refine ⟨fun heq => hsound (Except.error.inj heq), fun c => ⟨fun heq => (by cases heq), fun hline => ?_⟩⟩
    obtain ⟨s', -, heq⟩ := hcomplete c hline
    cases heq
  | ok r =>
    rintro ⟨rest, hrest, hline⟩ hcomplete
    rw [ok_bind]
    simp only [leftovers_iff h hrest]
    split_ifs with hleft
    · refine ⟨fun heq => (by cases heq), fun c => ⟨fun heq => (by cases heq), fun hline' => ?_⟩⟩
      obtain ⟨s', hb', heq⟩ := hcomplete c hline'
      cases heq
      exact absurd (hrest.tokens_eq.symm.trans hb'.tokens_eq) hleft
    · rw [not_not] at hleft
      subst hleft
      refine ⟨fun heq => (by cases heq), fun c => ⟨fun heq => ?_, fun hline' => ?_⟩⟩
      · cases heq
        exact hline
      · obtain ⟨s', -, heq⟩ := hcomplete c hline'
        cases heq
        rfl

end Sh

end OperatingSystems

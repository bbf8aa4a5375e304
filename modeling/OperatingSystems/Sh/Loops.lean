import OperatingSystems.Sh.Grammar

/-!
# The loops of the parser

What `parseredirs`, `parseargs` and `parsebacks` do with the tokens: one round, and from it the whole loop.

* `Returns` : a call does not run out of fuel, and its result is right.
* `parseredirs_sound`, `parseargs_sound`, `parsebacks_sound` : **what is returned is in the grammar**.
* `parseredirs_complete`, `parseargs_complete`, `parsebacks_complete` : **what is in the grammar is
  returned**, where the loop would not go on.
-/

namespace OperatingSystems

namespace Sh

/-- What a parser returns: a result with `P`, or one of the stops of the code -/
def Returns {α : Type} (P : α → Prop) : Except Stop α → Prop
  | .ok a => P a
  | .error e => e ≠ .fuel

theorem Returns.bind {α β : Type} {P : α → Prop} {Q : β → Prop} {x : Except Stop α}
    {f : α → Except Stop β} (hx : Returns P x) (hf : ∀ a, P a → Returns Q (f a)) :
    Returns Q (x >>= f) := by
  cases x with
  | error e => exact hx
  | ok a => exact hf a hx

theorem Returns.mono {α : Type} {P Q : α → Prop} {x : Except Stop α} (hx : Returns P x)
    (hPQ : ∀ a, P a → Q a) : Returns Q x := by
  cases x with
  | error e => exact hx
  | ok a => exact hPQ a hx

/-! ### The first token -/

section

variable {ω : Type} {ts : List (Token ω)} {toks : List UInt8} {c d : UInt8}

theorem starts_eq_true : starts toks ts = true ↔ ∃ c ts', ts = .sym c :: ts' ∧ first c ∈ toks := by
  constructor
  · intro hstarts
    match ts with
    | .sym c :: ts' => exact ⟨c, ts', rfl, List.contains_iff_mem.1 hstarts⟩
  · rintro ⟨c, ts', rfl, hmem⟩
    exact List.contains_iff_mem.2 hmem

theorem eq_of_first (hd : d ≠ 62) (hc : first c = d) : c = d := by
  unfold first at hc
  split_ifs at hc
  · exact absurd hc.symm hd
  · exact hc

/-- A token that is looked for alone -/
theorem eq_of_starts (hd : d ≠ 62) (hstarts : starts [d] ts = true) : ∃ ts', ts = .sym d :: ts' := by
  obtain ⟨c, ts', rfl, hmem⟩ := starts_eq_true.1 hstarts
  rw [List.mem_singleton] at hmem
  exact ⟨ts', by rw [eq_of_first hd hmem]⟩

/-- The start of a redirection -/
theorem eq_of_starts_redir (hstarts : starts [60, 62] ts = true) :
    ∃ t ts', ts = .sym t :: ts' ∧ (t = 60 ∨ t = 62 ∨ t = 43) := by
  obtain ⟨t, ts', rfl, hmem⟩ := starts_eq_true.1 hstarts
  refine ⟨t, ts', rfl, ?_⟩
  unfold first at hmem
  simp only [List.mem_cons, List.not_mem_nil, or_false] at hmem
  split_ifs at hmem with hplus
  · exact .inr (.inr hplus)
  · tauto

theorem starts_redir (ht : c = 60 ∨ c = 62 ∨ c = 43) : starts [60, 62] (.sym c :: ts) = true := by
  rcases ht with rfl | rfl | rfl <;> rfl

/-- The line ends here, or goes on with one of these characters. -/
def Follows (toks : List UInt8) (ts : List (Token ω)) : Prop := ts = [] ∨ starts toks ts = true

namespace Follows

variable {toks' : List UInt8}

theorem mono (h : Follows toks ts) (htoks : toks.all toks'.contains = true) : Follows toks' ts := by
  refine h.imp_right fun hstarts => ?_
  obtain ⟨c, ts', rfl, hmem⟩ := starts_eq_true.1 hstarts
  exact starts_eq_true.2 ⟨c, ts', rfl, List.contains_iff_mem.1 (List.all_eq_true.1 htoks _ hmem)⟩

/-- It does not go on with any other character. -/
theorem starts_eq_false (h : Follows toks ts) (htoks : toks.all (fun c => !toks'.contains c) = true) :
    starts toks' ts = false := by
  obtain rfl | hstarts := h
  · rfl
  · refine Bool.eq_false_of_not_eq_true fun hother => ?_
    obtain ⟨c, ts', rfl, hmem⟩ := starts_eq_true.1 hstarts
    obtain ⟨c', ts'', heq, hmem'⟩ := starts_eq_true.1 hother
    cases heq
    have hnot := List.all_eq_true.1 htoks _ hmem
    rw [List.contains_iff_mem.2 hmem'] at hnot
    cases hnot

end Follows

theorem Args.not_redir {n : ℕ} {cmd cmd' : Cmd ω} {rest : List (Token ω)} (ha : Args ts n cmd cmd' rest)
    (hrest : Follows [124, 41, 38, 59] rest) : starts [60, 62] ts = false := by
  cases ha with
  | nil => exact hrest.starts_eq_false rfl
  | cons _ _ _ => rfl

end

variable {buf : Bytes} {es s k n : ℕ} {ts rest : List (Token Span)} {w : Span} {t : UInt8} {c c' : Cmd Span}

/-! ### Redirections -/

theorem parseredirs_done (h : IsLine buf es) (hb : Before buf es s ts) (hts : starts [60, 62] ts = false) :
    ∃ s', Before buf es s' ts ∧ parseredirs buf es (k + 1) c s = .ok (c, s') := by
  refine ⟨_, hb.peek_snd h [60, 62], ?_⟩
  rw [parseredirs]
  simp only [hb.peek_fst h [60, 62] rfl, hts, Bool.false_eq_true, if_false]

theorem parseredirs_word (h : IsLine buf es) (hb : Before buf es s (.sym t :: .word w :: ts))
    (ht : t = 60 ∨ t = 62 ∨ t = 43) :
    ∃ s', Before buf es s' ts ∧
      parseredirs buf es (k + 1) c s = parseredirs buf es k (redircmd t c w) s' := by
  obtain ⟨hret, -, -, hb₁⟩ := (hb.peek_snd h [60, 62]).gettoken_sym h
  obtain ⟨hword, rfl, hb₂⟩ := hb₁.gettoken_word h
  refine ⟨_, hb₂, ?_⟩
  rw [parseredirs]
  simp only [hb.peek_fst h [60, 62] rfl, starts_redir ht, if_true, hword, ne_eq, not_true_eq_false,
    if_false, hret]

theorem parseredirs_stop (h : IsLine buf es) (hb : Before buf es s (.sym t :: ts))
    (ht : t = 60 ∨ t = 62 ∨ t = 43) (hts : ∀ w ts', ts ≠ .word w :: ts') :
    parseredirs buf es (k + 1) c s = .error .missingFile := by
  obtain ⟨-, -, -, hb₁⟩ := (hb.peek_snd h [60, 62]).gettoken_sym h
  rw [parseredirs]
  simp only [hb.peek_fst h [60, 62] rfl, starts_redir ht, if_true]
  rw [if_pos]
  match ts with
  | [] =>
    rw [hb₁.gettoken_nil h]
    exact (by decide : (0 : UInt8) ≠ 97)
  | .word w :: ts' => exact absurd rfl (hts w ts')
  | .sym d :: ts' =>
    obtain ⟨hret, hne, -⟩ := hb₁.gettoken_sym h
    rwa [hret]

/-- **`parseredirs`** returns what is in the grammar. -/
theorem parseredirs_sound (h : IsLine buf es) (hb : Before buf es s ts) (hk : ts.length < k) :
    Returns (fun r => ∃ rest, Before buf es r.2 rest ∧ Redirs ts c r.1 rest) (parseredirs buf es k c s) := by
  induction k generalizing s ts c with
  | zero => omega
  | succ k ih =>
    cases hstarts : starts [60, 62] ts with
    | false =>
      obtain ⟨s', hb', heq⟩ := parseredirs_done (c := c) (k := k) h hb hstarts
      rw [heq]
      exact ⟨ts, hb', .nil⟩
    | true =>
      obtain ⟨t, ts, rfl, ht⟩ := eq_of_starts_redir hstarts
      by_cases hword : ∃ w ts', ts = .word w :: ts'
      · obtain ⟨w, ts, rfl⟩ := hword
        obtain ⟨s', hb', heq⟩ := parseredirs_word (c := c) (k := k) h hb ht
        rw [heq]
        simp only [List.length_cons] at hk
        exact (ih hb' (by omega)).mono fun r ⟨rest, hrest, hr⟩ => ⟨rest, hrest, .cons ht hr⟩
      · rw [parseredirs_stop h hb ht fun w ts' heq => hword ⟨w, ts', heq⟩]
        exact Stop.noConfusion

/-- **`parseredirs`** goes through the redirections, where no other one follows. -/
theorem parseredirs_complete (h : IsLine buf es) (hr : Redirs ts c c' rest) (hb : Before buf es s ts)
    (hrest : starts [60, 62] rest = false) (hk : ts.length < k) :
    ∃ s', Before buf es s' rest ∧ parseredirs buf es k c s = .ok (c', s') := by
  induction hr generalizing s k with
  | nil =>
    obtain ⟨k, rfl⟩ : ∃ j, k = j + 1 := ⟨k - 1, by omega⟩
    exact parseredirs_done h hb hrest
  | cons ht _ ih =>
    obtain ⟨k, rfl⟩ : ∃ j, k = j + 1 := ⟨k - 1, by omega⟩
    obtain ⟨s', hb', heq⟩ := parseredirs_word h hb ht
    rw [heq]
    simp only [List.length_cons] at hk
    exact ih hb' hrest (by omega)

/-! ### Arguments -/

theorem parseargs_done (h : IsLine buf es) (hb : Before buf es s ts)
    (hts : Follows [124, 41, 38, 59] ts) :
    ∃ s', Before buf es s' ts ∧ parseargs buf es (k + 1) n c s = .ok (c, s') := by
  have hpeek := hb.peek_snd h [124, 41, 38, 59]
  rw [parseargs]
  simp only [hb.peek_fst h [124, 41, 38, 59] rfl]
  obtain rfl | hstarts := hts
  · rw [if_neg (by decide)]
    have hgettoken := hpeek.gettoken_nil h
    simp only [hgettoken, if_true]
    exact ⟨es, .last h, rfl⟩
  · exact ⟨_, hpeek, by rw [if_pos hstarts]⟩

theorem parseargs_word (h : IsLine buf es) (hb : Before buf es s (.word w :: ts)) :
    ∃ s', Before buf es s' ts ∧ parseargs buf es (k + 1) n c s =
      (if MAXARGS ≤ n + 1 then .error .tooManyArgs
      else parseredirs buf es (es + 1) (c.addArg w) s' >>= fun r => parseargs buf es k (n + 1) r.1 r.2) := by
  obtain ⟨hret, rfl, hb'⟩ := (hb.peek_snd h [124, 41, 38, 59]).gettoken_word h
  refine ⟨_, hb', ?_⟩
  rw [parseargs]
  simp only [hb.peek_fst h [124, 41, 38, 59] rfl, starts, Bool.false_eq_true, if_false, hret]
  rw [if_neg (by decide), if_neg (by decide)]

theorem parseargs_stop (h : IsLine buf es) (hb : Before buf es s (.sym t :: ts))
    (hts : starts [124, 41, 38, 59] (.sym t :: ts) = false) :
    parseargs buf es (k + 1) n c s = .error .unexpected := by
  obtain ⟨hret, hword, hne, -⟩ := (hb.peek_snd h [124, 41, 38, 59]).gettoken_sym h
  rw [parseargs]
  simp only [hb.peek_fst h [124, 41, 38, 59] rfl, hts, Bool.false_eq_true, if_false, hret]
  rw [if_neg hne, if_pos hword]

/-- **The loop of `parseexec`** returns what is in the grammar. -/
theorem parseargs_sound (h : IsLine buf es) (hb : Before buf es s ts) (hk : ts.length < k) :
    Returns (fun r => ∃ rest, Before buf es r.2 rest ∧ Args ts n c r.1 rest)
      (parseargs buf es k n c s) := by
  induction k generalizing s ts c n with
  | zero => omega
  | succ k ih =>
    by_cases hdone : Follows [124, 41, 38, 59] ts
    · obtain ⟨s', hb', heq⟩ := parseargs_done (c := c) (n := n) (k := k) h hb hdone
      rw [heq]
      exact ⟨ts, hb', .nil⟩
    · match ts with
      | [] => exact absurd (.inl rfl) hdone
      | .sym t :: ts =>
        have hstarts := Bool.eq_false_of_not_eq_true fun htrue => hdone (.inr htrue)
        rw [parseargs_stop h hb hstarts]
        exact Stop.noConfusion
      | .word w :: ts =>
        obtain ⟨s', hb', heq⟩ := parseargs_word (c := c) (n := n) (k := k) h hb
        rw [heq]
        split_ifs with hmax
        · exact Stop.noConfusion
        · rw [List.length_cons] at hk
          have hlength : ts.length < es + 1 := by
            have hle := length_tokens h hb'.le
            rw [hb'.tokens_eq] at hle
            omega
          refine (parseredirs_sound h hb' hlength).bind ?_
          rintro r ⟨ts₁, hb₁, hr⟩
          have hle := hr.suffix.length_le
          exact (ih hb₁ (by omega)).mono fun r' ⟨rest, hrest, hargs⟩ =>
            ⟨rest, hrest, .cons (by omega) hr hargs⟩

/-- **The loop of `parseexec`** goes through the arguments, where a command ends. -/
theorem parseargs_complete (h : IsLine buf es) (ha : Args ts n c c' rest) (hb : Before buf es s ts)
    (hrest : Follows [124, 41, 38, 59] rest) (hk : ts.length < k) :
    ∃ s', Before buf es s' rest ∧ parseargs buf es k n c s = .ok (c', s') := by
  induction ha generalizing s k with
  | nil =>
    obtain ⟨k, rfl⟩ : ∃ j, k = j + 1 := ⟨k - 1, by omega⟩
    exact parseargs_done h hb hrest
  | cons hn hr hargs ih =>
    obtain ⟨k, rfl⟩ : ∃ j, k = j + 1 := ⟨k - 1, by omega⟩
    obtain ⟨s', hb', heq⟩ := parseargs_word h hb
    have hlength := length_tokens h hb'.le
    rw [hb'.tokens_eq] at hlength
    obtain ⟨s₁, hb₁, hredirs⟩ := parseredirs_complete h hr hb' (hargs.not_redir hrest) (k := es + 1) (by omega)
    have hle := hr.suffix.length_le
    rw [List.length_cons] at hk
    rw [heq, if_neg (by omega), hredirs]
    exact ih hb₁ hrest (by omega)

/-! ### `&` -/

/-- **The loop of `parseline`** returns what is in the grammar. -/
theorem parsebacks_sound (h : IsLine buf es) (hb : Before buf es s ts) (hk : ts.length < k) :
    Returns (fun r => ∃ rest, Before buf es r.2 rest ∧ Backs ts c r.1 rest) (parsebacks buf es k c s) := by
  induction k generalizing s ts c with
  | zero => omega
  | succ k ih =>
    rw [parsebacks]
    simp only [hb.peek_fst h [38] rfl]
    have hpeek := hb.peek_snd h [38]
    split_ifs with hstarts
    · obtain ⟨ts, rfl⟩ := eq_of_starts (by decide) hstarts
      obtain ⟨-, -, -, hb'⟩ := hpeek.gettoken_sym h
      rw [List.length_cons] at hk
      exact (ih hb' (by omega)).mono fun r ⟨rest, hrest, hr⟩ => ⟨rest, hrest, .cons hr⟩
    · exact ⟨ts, hpeek, .nil⟩

/-- **The loop of `parseline`** goes through the `&`, where no other one follows. -/
theorem parsebacks_complete (h : IsLine buf es) (hr : Backs ts c c' rest) (hb : Before buf es s ts)
    (hrest : starts [38] rest = false) (hk : ts.length < k) :
    ∃ s', Before buf es s' rest ∧ parsebacks buf es k c s = .ok (c', s') := by
  induction hr generalizing s k with
  | nil =>
    obtain ⟨k, rfl⟩ : ∃ j, k = j + 1 := ⟨k - 1, by omega⟩
    refine ⟨_, hb.peek_snd h [38], ?_⟩
    rw [parsebacks]
    simp only [hb.peek_fst h [38] rfl, hrest, Bool.false_eq_true, if_false]
  | cons _ ih =>
    obtain ⟨k, rfl⟩ : ∃ j, k = j + 1 := ⟨k - 1, by omega⟩
    obtain ⟨-, -, -, hb'⟩ := (hb.peek_snd h [38]).gettoken_sym h
    rw [parsebacks]
    simp only [hb.peek_fst h [38] rfl]
    rw [if_pos (show starts [38] (.sym 38 :: _ : List (Token Span)) = true from rfl)]
    rw [List.length_cons] at hk
    exact ih hb' hrest (by omega)

end Sh

end OperatingSystems

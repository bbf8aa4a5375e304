import OperatingSystems.Sh.Correctness
import Mathlib.Data.List.GetD

/-!
# The words of a command as strings

`parsecmd` leaves the words where they are in the line, and `nulterminate` puts a zero behind each of them.

* `IsWord` : the two ends of a word.
* `Line.mem_words` : the words of a command are words of the line.
* `nulterminate_eq` : which bytes are overwritten.
* `cstr_nulterminate` : **each word is read as the string that it was**, whatever the other words are.
* `parsecmd_total` : **every line is read in one way or not at all**.
-/

namespace OperatingSystems

namespace Sh

open Bytes

/-- The words of a command, in the order of `nulterminate` -/
def Cmd.words {ω : Type} : Cmd ω → List ω
  | .exec argv => argv
  | .redir cmd file _ _ => cmd.words ++ [file]
  | .pipe left right => left.words ++ right.words
  | .list left right => left.words ++ right.words
  | .back cmd => cmd.words

/-- The characters of a word -/
def text (buf : Bytes) (w : Span) : List UInt8 := (List.range' w.1 (w.2 - w.1)).map buf

/-- A word of the line, and all of it -/
structure IsWord (buf : Bytes) (es : ℕ) (w : Span) : Prop where
  lt : w.1 < w.2
  le : w.2 ≤ es
  plain : ∀ i, w.1 ≤ i → i < w.2 → plain (buf i) = true
  stop : w.2 = es ∨ Sh.plain (buf w.2) = false

/-! ### The words of the line -/

section

variable {buf : Bytes} {es s : ℕ} {w : Span}

theorem gettoken_isWord (h : IsLine buf es) (hs : s ≤ es) (hret : (gettoken buf es s).ret = 97) :
    IsWord buf es ((gettoken buf es s).q, (gettoken buf es s).eq) := by
  obtain heq | hlt := (skip_le buf hs).eq_or_lt
  · rw [gettoken_of_end h heq] at hret
    cases hret
  · obtain ⟨hgo, hend⟩ := lexeme_end h hlt (skip_stop hlt)
    have hlexeme : (lexeme buf es (skip buf es s)).1 = 97 := hret
    rcases lexeme_ret es (h.nonzero _ hlt) with ⟨-, -, hne, -⟩ | ⟨-, -, heq⟩
    · exact absurd hlexeme hne
    · refine ⟨hgo, hend, fun i hi hi' => ?_, ?_⟩
      · change i < (lexeme buf es (skip buf es s)).2 at hi'
        rw [heq] at hi'
        exact scan_test hi hi'
      · change (lexeme buf es (skip buf es s)).2 = es ∨ plain (buf (lexeme buf es (skip buf es s)).2) = false
        rw [heq] at hend ⊢
        obtain hes | hlt' := hend.eq_or_lt
        · exact .inl hes
        · exact .inr (scan_stop (by omega))

theorem isWord_of_mem (h : IsLine buf es) (hs : s ≤ es) (hw : .word w ∈ tokens buf es s) :
    IsWord buf es w := by
  obtain ⟨k, hk⟩ : ∃ k, es - s = k := ⟨_, rfl⟩
  induction k using Nat.strong_induction_on generalizing s with
  | _ k ih =>
    rw [tokens_eq h hs] at hw
    split_ifs at hw with hret hword
    · cases hw
    all_goals
      obtain ⟨hgo, hend⟩ := gettoken_progress h hs hret
    · rcases List.mem_cons.1 hw with heq | hmem
      · cases heq
        exact gettoken_isWord h hs hword
      · exact ih _ (by omega) hend hmem rfl
    · rcases List.mem_cons.1 hw with heq | hmem
      · cases heq
      · exact ih _ (by omega) hend hmem rfl

end

/-! ### The words of a command -/

section

variable {ω : Type} {ts rest : List (Token ω)} {c c' : Cmd ω} {n : ℕ} {v w : ω} {t : UInt8}

theorem Cmd.mem_words_addArg (hv : v ∈ (c.addArg w).words) : v ∈ c.words ∨ v = w := by
  induction c with
  | exec argv => exact (List.mem_append.1 hv).imp_right List.mem_singleton.1
  | redir cmd file mode fd ih =>
    rcases List.mem_append.1 hv with hmem | hmem
    · exact (ih hmem).imp_left (List.mem_append_left _)
    · exact .inl (List.mem_append_right _ hmem)
  | pipe _ _ | list _ _ | back _ => exact .inl hv

theorem mem_words_redircmd (hv : v ∈ (redircmd t c w).words) : v ∈ c.words ∨ v = w := by
  unfold redircmd at hv
  split_ifs at hv
  iterate 3 exact (List.mem_append.1 hv).imp_right List.mem_singleton.1
  exact .inl hv

theorem Redirs.mem_words (h : Redirs ts c c' rest) (hv : v ∈ c'.words) : v ∈ c.words ∨ .word v ∈ ts := by
  induction h with
  | nil => exact .inl hv
  | cons _ _ ih =>
    rcases ih hv with hmem | hmem
    · rcases mem_words_redircmd hmem with hmem' | rfl
      · exact .inl hmem'
      · exact .inr (List.mem_cons_of_mem _ List.mem_cons_self)
    · exact .inr (List.mem_cons_of_mem _ (List.mem_cons_of_mem _ hmem))

theorem Args.mem_words (h : Args ts n c c' rest) (hv : v ∈ c'.words) : v ∈ c.words ∨ .word v ∈ ts := by
  induction h with
  | nil => exact .inl hv
  | cons _ hr _ ih =>
    rcases ih hv with hmem | hmem
    · rcases hr.mem_words hmem with hmem' | hmem'
      · rcases Cmd.mem_words_addArg hmem' with hmem₁ | rfl
        · exact .inl hmem₁
        · exact .inr List.mem_cons_self
      · exact .inr (List.mem_cons_of_mem _ hmem')
    · exact .inr (List.mem_cons_of_mem _ (hr.suffix.subset hmem))

theorem Backs.words_eq (h : Backs ts c c' rest) : c'.words = c.words := by
  induction h with
  | nil => rfl
  | cons _ ih => exact ih

mutual

/-- **The words of a command are words of the line.** -/
theorem Line.mem_words {ts rest : List (Token ω)} {c : Cmd ω} : Line ts c rest →
    ∀ v ∈ c.words, .word v ∈ ts
  | .one h hb, v, hv => h.mem_words v (hb.words_eq ▸ hv)
  | .list h hb hd, v, hv => by
    rcases List.mem_append.1 hv with hmem | hmem
    · exact h.mem_words v (hb.words_eq ▸ hmem)
    · exact (hb.suffix.trans h.suffix).subset (List.mem_cons_of_mem _ (hd.mem_words v hmem))

theorem Pipe.mem_words {ts rest : List (Token ω)} {c : Cmd ω} : Pipe ts c rest →
    ∀ v ∈ c.words, .word v ∈ ts
  | .one h, v, hv => h.mem_words v hv
  | .pipe h hd, v, hv => by
    rcases List.mem_append.1 hv with hmem | hmem
    · exact h.mem_words v hmem
    · exact h.suffix.subset (List.mem_cons_of_mem _ (hd.mem_words v hmem))

theorem Exec.mem_words {ts rest : List (Token ω)} {c : Cmd ω} : Exec ts c rest →
    ∀ v ∈ c.words, .word v ∈ ts
  | .block h hr, v, hv => by
    rcases hr.mem_words hv with hmem | hmem
    · exact List.mem_cons_of_mem _ (h.mem_words v hmem)
    · exact List.mem_cons_of_mem _ (h.suffix.subset (List.mem_cons_of_mem _ hmem))
  | .exec hr ha, v, hv => by
    rcases ha.mem_words hv with hmem | hmem
    · exact (hr.mem_words hmem).resolve_left List.not_mem_nil
    · exact hr.suffix.subset hmem

end

end

/-! ### Zeros -/

variable {buf : Bytes} {es i : ℕ} {c : Cmd Span} {v w : Span}

/-- A zero behind each word of a list -/
def zeros (ws : List Span) (buf : Bytes) : Bytes := ws.foldl (fun buf w => Function.update buf w.2 0) buf

theorem zeros_apply (ws : List Span) : zeros ws buf i = if i ∈ ws.map Prod.snd then 0 else buf i := by
  induction ws generalizing buf with
  | nil => rfl
  | cons w ws ih =>
    change zeros ws (Function.update buf w.2 0) i = _
    rw [ih, Function.update_apply]
    simp only [List.map_cons, List.mem_cons]
    split_ifs <;> first | rfl | tauto

theorem nulterminate_eq : nulterminate c buf = zeros c.words buf := by
  induction c generalizing buf with
  | exec argv => rfl
  | redir cmd file mode fd ih =>
    rw [nulterminate, ih, Cmd.words, zeros, zeros, List.foldl_append]
    rfl
  | pipe left right ihl ihr | list left right ihl ihr =>
    rw [nulterminate, ihl, ihr, Cmd.words, zeros, zeros, zeros, List.foldl_append]
  | back cmd ih => exact ih

theorem length_text : (text buf w).length = w.2 - w.1 := by rw [text, List.length_map, List.length_range']

/-- **Each word is read as the string that it was.** -/
theorem cstr_nulterminate (h : IsLine buf es) (hc : ∀ v ∈ c.words, IsWord buf es v) (hw : w ∈ c.words) :
    cstr (es + 1 - w.1) (slice (nulterminate c buf) w.1) = text buf w := by
  obtain ⟨hlt, hle, hplain, -⟩ := hc w hw
  refine cstr_ofCstr (by rw [length_text]; omega) ?_ ?_
  · intro hmem
    obtain ⟨i, hi, hzero⟩ := List.mem_map.1 hmem
    rw [List.mem_range'_1] at hi
    exact h.nonzero i (by omega) hzero
  · intro i hi
    rw [length_text] at hi
    rw [slice, nulterminate_eq, zeros_apply, ofCstr]
    obtain heq | hin := (Nat.le_of_lt_succ hi).eq_or_lt
    · have hend : w.1 + i = w.2 := by omega
      rw [hend, if_pos (List.mem_map_of_mem hw), List.getD_eq_default]
      rw [length_text, heq]
    · -- no word ends inside of another one
      rw [if_neg, List.getD_eq_getElem _ _ (by rwa [length_text])]
      · simp only [text, List.getElem_map, List.getElem_range', one_mul]
      · intro hmem
        obtain ⟨v, hv, heq⟩ := List.mem_map.1 hmem
        have hin' := hplain (w.1 + i) (by omega) (by omega)
        rcases (hc v hv).stop with hes | hfalse
        · omega
        · rw [heq, hin'] at hfalse
          cases hfalse

/-- **What `parsecmd` returns has its strings in memory.** -/
theorem cstr_of_parsecmd (h : IsLine buf es) (hparse : parsecmd buf es = .ok c) (hw : w ∈ c.words) :
    cstr (es + 1 - w.1) (slice (nulterminate c buf) w.1) = text buf w ∧ text buf w ≠ [] := by
  have hwords : ∀ v ∈ c.words, IsWord buf es v := fun v hv =>
    isWord_of_mem h (Nat.zero_le es) ((((parsecmd_iff h).2 c).1 hparse).mem_words v hv)
  refine ⟨cstr_nulterminate h hwords hw, fun hnil => ?_⟩
  have hlength := congrArg List.length hnil
  rw [length_text, List.length_nil] at hlength
  have hlt := (hwords w hw).lt
  omega

/-- **Every line is read in one way or not at all**: `parsecmd` finds the one command that the grammar has
for it, with its words as strings in memory, or it stops and there is none. -/
theorem parsecmd_total (h : IsLine buf es) :
    (∃ c, parsecmd buf es = .ok c ∧ (∀ c', Line (tokens buf es 0) c' [] ↔ c' = c) ∧
      ∀ w ∈ c.words, cstr (es + 1 - w.1) (slice (nulterminate c buf) w.1) = text buf w ∧ text buf w ≠ []) ∨
    ∃ e, e ≠ .fuel ∧ parsecmd buf es = .error e ∧ ∀ c, ¬Line (tokens buf es 0) c [] := by
  obtain ⟨hfuel, hiff⟩ := parsecmd_iff h
  cases hparse : parsecmd buf es with
  | ok c =>
    refine .inl ⟨c, rfl, fun c' => ?_, fun w hw => cstr_of_parsecmd h hparse hw⟩
    rw [← hiff c', hparse, Except.ok.injEq, eq_comm]
  | error e =>
    refine .inr ⟨e, fun heq => hfuel (heq ▸ hparse), rfl, fun c hline => ?_⟩
    rw [← hiff c, hparse] at hline
    cases hline

/-- A parenthesis that was not opened -/
theorem parsecmd_total_close : ¬∃ c, Line (tokens (ofCstr [41]) 1 0) c [] := by
  have hparse : parsecmd (ofCstr [41]) 1 = .error .leftovers := by with_unfolding_all rfl
  have h : IsLine (ofCstr [41]) 1 := ⟨by decide, rfl⟩
  rintro ⟨c, hline⟩
  rcases parsecmd_total h with ⟨c', hok, -⟩ | ⟨e, -, -, hnone⟩
  · rw [hparse] at hok
    cases hok
  · exact hnone c hline

end Sh

end OperatingSystems

import OperatingSystems.Bytes.Basic
import Mathlib.Data.List.Basic

/-!
# The tokens of a command line

`gettoken` and `peek` of the user's shell `sh.c`, on a line of `es` characters behind which is a zero.

* `scan`, `skip`, `gettoken`, `peek` : the code.
* `Token`, `tokens` : the line as a list of tokens.
* `Before` : the tokens behind a position.
* `Before.peek_fst`, `Before.gettoken_word`, `Before.gettoken_sym` : **what the code does with the list**.
-/

namespace OperatingSystems

namespace Sh

/-- `strchr`; no string holds a zero. -/
def strchr (cs : List UInt8) (c : UInt8) : Bool := cs.contains c

/-- `whitespace` -/
def whitespace : List UInt8 := [32, 9, 13, 10, 11]

/-- `symbols`: `<|>&;()` -/
def symbols : List UInt8 := [60, 124, 62, 38, 59, 40, 41]

/-- `while(s < es && test(*s)) s++`, with `k` characters before `es` -/
def scan (test : UInt8 → Bool) (buf : Bytes) : ℕ → ℕ → ℕ
  | 0, s => s
  | k + 1, s => if test (buf s) then scan test buf k (s + 1) else s

/-- `while(s < es && strchr(whitespace, *s)) s++` -/
def skip (buf : Bytes) (es s : ℕ) : ℕ := scan (strchr whitespace) buf (es - s) s

/-- A character of a word -/
def plain (c : UInt8) : Bool := !strchr whitespace c && !strchr symbols c

/-- What `gettoken` returns, the ends of the token, and where it goes on -/
structure Gotten where
  ret : UInt8
  q : ℕ
  eq : ℕ
  ps : ℕ

/-- The `switch` of `gettoken`: the value, and the end of the token at `q` -/
def lexeme (buf : Bytes) (es q : ℕ) : UInt8 × ℕ :=
  if buf q = 0 then (0, q)
  else if strchr [124, 40, 41, 59, 38, 60] (buf q) then (buf q, q + 1)
  else if buf q = 62 then if buf (q + 1) = 62 then (43, q + 2) else (62, q + 1)
  else (97, scan plain buf (es - q) q)

def gettoken (buf : Bytes) (es ps : ℕ) : Gotten :=
  let q := skip buf es ps
  let (ret, eq) := lexeme buf es q
  ⟨ret, q, eq, skip buf es eq⟩

def peek (buf : Bytes) (es ps : ℕ) (toks : List UInt8) : Bool × ℕ :=
  let s := skip buf es ps
  (buf s != 0 && strchr toks (buf s), s)

/-- A token: a word, or a symbol as `gettoken` returns it -/
inductive Token (ω : Type)
  | word (w : ω)
  | sym (c : UInt8)

/-- The tokens from `s` on, at most `k` -/
def tokensFrom (buf : Bytes) (es : ℕ) : ℕ → ℕ → List (Token (ℕ × ℕ))
  | 0, _ => []
  | k + 1, s =>
    let t := gettoken buf es s
    if t.ret = 0 then []
    else (if t.ret = 97 then .word (t.q, t.eq) else .sym t.ret) :: tokensFrom buf es k t.ps

/-- The tokens from `s` on -/
def tokens (buf : Bytes) (es s : ℕ) : List (Token (ℕ × ℕ)) := tokensFrom buf es (es + 1) s

/-- A line of `es` characters -/
structure IsLine (buf : Bytes) (es : ℕ) : Prop where
  nonzero : ∀ i < es, buf i ≠ 0
  zero : buf es = 0

variable {test : UInt8 → Bool} {buf : Bytes} {es s t k : ℕ}

/-! ### Scanning -/

theorem le_scan : s ≤ scan test buf k s := by
  induction k generalizing s with
  | zero => exact le_rfl
  | succ k ih =>
    unfold scan
    split_ifs
    · exact (Nat.le_succ s).trans ih
    · exact le_rfl

theorem scan_le : scan test buf k s ≤ s + k := by
  induction k generalizing s with
  | zero => exact le_rfl
  | succ k ih =>
    unfold scan
    split_ifs
    · exact ih.trans (by omega)
    · omega

/-- Where a scan stops -/
theorem scan_eq (hle : s ≤ t) (htest : ∀ i, s ≤ i → i < t → test (buf i) = true)
    (hstop : t = s + k ∨ t < s + k ∧ test (buf t) = false) : scan test buf k s = t := by
  induction k generalizing s with
  | zero => rw [scan]; omega
  | succ k ih =>
    unfold scan
    obtain rfl | hlt := hle.eq_or_lt
    · rw [if_neg]
      obtain ⟨-, hfalse⟩ := hstop.resolve_left (by omega)
      simp [hfalse]
    · rw [if_pos (htest s le_rfl hlt)]
      refine ih hlt (fun i hi => htest i (Nat.le_of_succ_le hi)) ?_
      rwa [Nat.add_right_comm]

theorem scan_test {i : ℕ} (hs : s ≤ i) (hi : i < scan test buf k s) : test (buf i) = true := by
  induction k generalizing s with
  | zero => rw [scan] at hi; omega
  | succ k ih =>
    unfold scan at hi
    split_ifs at hi with htest
    · obtain rfl | hlt := hs.eq_or_lt
      · exact htest
      · exact ih hlt hi
    · omega

theorem scan_stop (h : scan test buf k s < s + k) : test (buf (scan test buf k s)) = false := by
  induction k generalizing s with
  | zero => rw [scan] at h; omega
  | succ k ih =>
    unfold scan at h ⊢
    split_ifs at h ⊢ with htest
    · exact ih (by omega)
    · exact Bool.eq_false_of_not_eq_true htest

theorem le_skip : s ≤ skip buf es s := le_scan

theorem skip_le (buf : Bytes) (hs : s ≤ es) : skip buf es s ≤ es := by
  have hle : scan (strchr whitespace) buf (es - s) s ≤ s + (es - s) := scan_le
  unfold skip
  omega

theorem skip_stop (h : skip buf es s < es) : strchr whitespace (buf (skip buf es s)) = false := by
  refine scan_stop ?_
  unfold skip at h
  omega

theorem skip_skip (hs : s ≤ es) : skip buf es (skip buf es s) = skip buf es s := by
  have hle := skip_le buf hs
  refine scan_eq le_rfl (fun i hi hlt => by omega) ?_
  obtain heq | hlt := hle.eq_or_lt
  · left
    omega
  · refine .inr ⟨by omega, scan_stop ?_⟩
    unfold skip at hlt
    omega

/-! ### Tokens -/

/-- The first character of a symbol; `>` and `>>` begin in the same way. -/
def first (c : UInt8) : UInt8 := if c = 43 then 62 else c

/-- The `switch`: a symbol is returned, and `>>` as `+`; else there is a word. -/
theorem lexeme_ret (es : ℕ) (hs : buf s ≠ 0) :
    strchr symbols (buf s) = true ∧ (lexeme buf es s).1 ≠ 0 ∧ (lexeme buf es s).1 ≠ 97 ∧
        first (lexeme buf es s).1 = buf s ∨
      strchr symbols (buf s) = false ∧ (lexeme buf es s).1 = 97 ∧
        (lexeme buf es s).2 = scan plain buf (es - s) s := by
  unfold lexeme
  rw [if_neg hs]
  simp only [strchr, symbols, List.contains_eq_mem, List.mem_cons, List.not_mem_nil, or_false,
    decide_eq_true_eq, decide_eq_false_iff_not]
  split_ifs with hsym hgt happend
  · left
    rcases hsym with heq | heq | heq | heq | heq | heq <;> simp only [heq] <;> decide
  · left
    simp only [hgt]
    decide
  · left
    simp only [hgt]
    decide
  · exact .inr ⟨by tauto, rfl, rfl⟩

/-- The end of the token, at a character that is not a blank -/
theorem lexeme_end (h : IsLine buf es) (hs : s < es) (hblank : strchr whitespace (buf s) = false) :
    s < (lexeme buf es s).2 ∧ (lexeme buf es s).2 ≤ es := by
  rcases lexeme_ret es (h.nonzero s hs) with ⟨hsymbol, -⟩ | ⟨hsymbol, -, heq⟩
  · unfold lexeme
    rw [if_neg (h.nonzero s hs)]
    split_ifs with hsym hgt happend
    · exact ⟨Nat.lt_succ_self s, hs⟩
    · have hne : s + 1 ≠ es := fun heq => by
        rw [heq, h.zero] at happend
        cases happend
      exact ⟨Nat.lt_add_of_pos_right two_pos, by simp only; omega⟩
    · exact ⟨Nat.lt_succ_self s, hs⟩
    · simp only [strchr, symbols, List.contains_eq_mem, List.mem_cons, List.not_mem_nil, or_false,
        decide_eq_true_eq] at hsym hsymbol
      tauto
  · rw [heq]
    have hplain : plain (buf s) = true := by
      rw [plain, hblank, hsymbol]
      rfl
    have hgo : s < scan plain buf (es - s) s := by
      obtain ⟨k, hk⟩ : ∃ k, es - s = k + 1 := ⟨es - s - 1, by omega⟩
      rw [hk, scan, if_pos hplain]
      exact le_scan
    have hend : scan plain buf (es - s) s ≤ s + (es - s) := scan_le
    exact ⟨hgo, by omega⟩

theorem lexeme_ne_zero (h : IsLine buf es) (hs : s < es) : (lexeme buf es s).1 ≠ 0 := by
  rcases lexeme_ret es (h.nonzero s hs) with ⟨-, hne, -⟩ | ⟨-, hword, -⟩
  · exact hne
  · rw [hword]
    decide

theorem gettoken_of_end (h : IsLine buf es) (hskip : skip buf es s = es) :
    gettoken buf es s = ⟨0, es, es, es⟩ := by
  have hes : skip buf es es = es := by
    unfold skip
    rw [Nat.sub_self]
    rfl
  unfold gettoken
  rw [hskip]
  simp only [lexeme, h.zero, if_pos, hes]

/-- A token leads on, unless the line is over. -/
theorem gettoken_progress (h : IsLine buf es) (hs : s ≤ es) (hret : (gettoken buf es s).ret ≠ 0) :
    s < (gettoken buf es s).ps ∧ (gettoken buf es s).ps ≤ es := by
  have hle : skip buf es s ≤ es := skip_le buf hs
  obtain heq | hlt := hle.eq_or_lt
  · rw [gettoken_of_end h heq] at hret
    exact absurd rfl hret
  · obtain ⟨hgo, hend⟩ := lexeme_end h hlt (skip_stop hlt)
    exact ⟨(le_skip.trans_lt hgo).trans_le le_skip, skip_le buf hend⟩

theorem tokensFrom_eq (h : IsLine buf es) (hs : s ≤ es) {k k' : ℕ} (hk : es - s < k) (hk' : es - s < k') :
    tokensFrom buf es k s = tokensFrom buf es k' s := by
  induction k generalizing s k' with
  | zero => omega
  | succ k ih =>
    obtain ⟨k', rfl⟩ : ∃ j, k' = j + 1 := ⟨k' - 1, by omega⟩
    simp only [tokensFrom]
    split_ifs with hret
    · rfl
    all_goals
      obtain ⟨hgo, hend⟩ := gettoken_progress h hs hret
      have heq : tokensFrom buf es k (gettoken buf es s).ps = tokensFrom buf es k' (gettoken buf es s).ps :=
        ih hend (by omega) (by omega)
      rw [heq]

/-- **The tokens are what `gettoken` returns, call after call.** -/
theorem tokens_eq (h : IsLine buf es) (hs : s ≤ es) :
    tokens buf es s = if (gettoken buf es s).ret = 0 then [] else
      (if (gettoken buf es s).ret = 97 then .word ((gettoken buf es s).q, (gettoken buf es s).eq)
        else .sym (gettoken buf es s).ret) :: tokens buf es (gettoken buf es s).ps := by
  have hunfold : tokens buf es s = tokensFrom buf es (es + 1 + 1) s :=
    tokensFrom_eq h hs (by omega) (by omega)
  rw [hunfold, tokensFrom]
  rfl

/-- There are no more tokens than characters. -/
theorem length_tokens (h : IsLine buf es) (hs : s ≤ es) : (tokens buf es s).length ≤ es - s := by
  obtain ⟨k, hk⟩ : ∃ k, es - s = k := ⟨_, rfl⟩
  induction k using Nat.strong_induction_on generalizing s with
  | _ k ih =>
    rw [tokens_eq h hs]
    split_ifs with hret
    · exact Nat.zero_le _
    all_goals
      obtain ⟨hgo, hend⟩ := gettoken_progress h hs hret
      have hlength := ih _ (by omega) hend rfl
      rw [List.length_cons]
      omega

/-! ### What the code does with the tokens -/

/-- The position `s` is in the line, and these are the tokens behind it. -/
structure Before (buf : Bytes) (es s : ℕ) (ts : List (Token (ℕ × ℕ))) : Prop where
  le : s ≤ es
  tokens_eq : tokens buf es s = ts

/-- The next token begins with one of these characters. -/
def starts {ω : Type} (toks : List UInt8) : List (Token ω) → Bool
  | .sym c :: _ => toks.contains (first c)
  | .word _ :: _ => false
  | [] => false

namespace Before

variable {ts : List (Token (ℕ × ℕ))} {w : ℕ × ℕ} {c : UInt8}

/-- **`peek`** moves on to the next token, -/
theorem peek_snd (hb : Before buf es s ts) (h : IsLine buf es) (toks : List UInt8) :
    Before buf es (peek buf es s toks).2 ts where
  le := skip_le buf hb.le
  tokens_eq := by
    have hgettoken : gettoken buf es (skip buf es s) = gettoken buf es s := by
      unfold gettoken
      rw [skip_skip hb.le]
    rw [← hb.tokens_eq, Sh.tokens_eq h hb.le, ← hgettoken]
    exact Sh.tokens_eq h (skip_le buf hb.le)

/-- and looks whether it begins with one of some symbols. -/
theorem peek_fst (hb : Before buf es s ts) (h : IsLine buf es) (toks : List UInt8) (htoks : toks.all symbols.contains = true) :
    (peek buf es s toks).1 = starts toks ts := by
  rw [← hb.tokens_eq, Sh.tokens_eq h hb.le]
  obtain heq | hlt := (skip_le buf hb.le).eq_or_lt
  · rw [gettoken_of_end h heq, if_pos rfl]
    simp only [peek, heq, h.zero]
    rfl
  · have hnonzero := h.nonzero _ hlt
    have hret : (gettoken buf es s).ret = (lexeme buf es (skip buf es s)).1 := rfl
    rw [hret]
    rcases lexeme_ret es hnonzero with ⟨-, hne, hword, hsym⟩ | ⟨hsymbol, hword, -⟩
    · rw [if_neg hne, if_neg hword, starts, hsym]
      simp only [peek, strchr, bne_iff_ne.2 hnonzero, Bool.true_and]
    · rw [hword, if_neg (by decide), if_pos rfl, starts]
      simp only [strchr, List.contains_eq_mem, decide_eq_false_iff_not] at hsymbol
      simp only [peek, strchr, List.contains_eq_mem, Bool.and_eq_false_iff, decide_eq_false_iff_not]
      exact .inr fun hmem => hsymbol (List.contains_iff_mem.1 (List.all_eq_true.1 htoks _ hmem))

/-- There is nothing behind the line. -/
theorem last (h : IsLine buf es) : Before buf es es [] where
  le := le_rfl
  tokens_eq := by
    have hskip : skip buf es es = es := le_antisymm (skip_le buf le_rfl) le_skip
    rw [Sh.tokens_eq h le_rfl, gettoken_of_end h hskip, if_pos rfl]

/-- **`gettoken`** at the end of the line -/
theorem gettoken_nil (hb : Before buf es s []) (h : IsLine buf es) : gettoken buf es s = ⟨0, es, es, es⟩ := by
  obtain heq | hlt := (skip_le buf hb.le).eq_or_lt
  · exact gettoken_of_end h heq
  · have hts := hb.tokens_eq
    have hret : (gettoken buf es s).ret = (lexeme buf es (skip buf es s)).1 := rfl
    rw [Sh.tokens_eq h hb.le, if_neg (hret ▸ lexeme_ne_zero h hlt)] at hts
    cases hts

/-- **`gettoken`** at a word -/
theorem gettoken_word (hb : Before buf es s (.word w :: ts)) (h : IsLine buf es) :
    (gettoken buf es s).ret = 97 ∧ ((gettoken buf es s).q, (gettoken buf es s).eq) = w ∧
      Before buf es (gettoken buf es s).ps ts := by
  have hts := hb.tokens_eq
  rw [Sh.tokens_eq h hb.le] at hts
  split_ifs at hts with hret hword
  · cases hts
    exact ⟨hword, rfl, (gettoken_progress h hb.le hret).2, rfl⟩
  · cases hts

/-- **`gettoken`** at a symbol -/
theorem gettoken_sym (hb : Before buf es s (.sym c :: ts)) (h : IsLine buf es) :
    (gettoken buf es s).ret = c ∧ c ≠ 97 ∧ c ≠ 0 ∧ Before buf es (gettoken buf es s).ps ts := by
  have hts := hb.tokens_eq
  rw [Sh.tokens_eq h hb.le] at hts
  split_ifs at hts with hret hword
  · cases hts
  · cases hts
    exact ⟨rfl, hword, hret, (gettoken_progress h hb.le hret).2, rfl⟩

end Before

end Sh

end OperatingSystems

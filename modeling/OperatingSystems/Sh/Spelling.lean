import OperatingSystems.Sh.Strings

/-!
# What is typed is run

A command is typed as its tokens, with blanks around them.  The shell has the command back, with each word
as a string in memory.

* `Spelled` : a line of characters for some tokens, with any blanks that keep them apart.
* `Spelled.tokens` : **the tokens of the line are these tokens**.
* `Cmd.exists_of_print` : the command of some tokens, without looking into the words.
* `parsecmd_of_spelled` : **the round trip**.
-/

namespace OperatingSystems

namespace Sh

open Bytes

variable {ω ω' : Type}

def Token.map (f : ω → ω') : Token ω → Token ω'
  | .word w => .word (f w)
  | .sym c => .sym c

def Cmd.map (f : ω → ω') : Cmd ω → Cmd ω'
  | .exec argv => .exec (argv.map f)
  | .redir cmd file mode fd => .redir (cmd.map f) (f file) mode fd
  | .pipe left right => .pipe (left.map f) (right.map f)
  | .list left right => .list (left.map f) (right.map f)
  | .back cmd => .back (cmd.map f)

/-! ### Commands of spans and of strings -/

section

variable {f : ω → ω'} {ts p : List (Token ω)} {p' : List (Token ω')} {c : UInt8} {b : Bool}

theorem Token.eq_sym {t : Token ω} (h : t.map f = .sym c) : t = .sym c := by
  cases t with
  | word w => cases h
  | sym d =>
    cases h
    rfl

theorem Token.eq_word {t : Token ω} {w : ω'} (h : t.map f = .word w) : ∃ v, t = .word v ∧ f v = w := by
  cases t with
  | word v =>
    cases h
    exact ⟨v, rfl, rfl⟩
  | sym d => cases h

/-- What is in the parentheses -/
theorem exists_of_paren (h : ts.map (Token.map f) = paren b p') :
    ∃ p, ts = paren b p ∧ p.map (Token.map f) = p' := by
  cases b with
  | false => exact ⟨ts, rfl, h⟩
  | true =>
    obtain ⟨t, ts₁, rfl, ht, h₁⟩ := List.map_eq_cons_iff.1 h
    obtain ⟨p, ts₂, rfl, hp, h₂⟩ := List.map_eq_append_iff.1 h₁
    obtain ⟨t', ts₃, rfl, ht', h₃⟩ := List.map_eq_cons_iff.1 h₂
    obtain rfl := List.map_eq_nil_iff.1 h₃
    obtain rfl := Token.eq_sym ht
    obtain rfl := Token.eq_sym ht'
    exact ⟨p, rfl, hp⟩

/-- Two parts with a symbol between them -/
theorem exists_of_between {p₁ p₂ : List (Token ω')} (h : p.map (Token.map f) = p₁ ++ .sym c :: p₂) :
    ∃ q₁ q₂, p = q₁ ++ .sym c :: q₂ ∧ q₁.map (Token.map f) = p₁ ∧ q₂.map (Token.map f) = p₂ := by
  obtain ⟨q₁, ts₁, rfl, hq₁, h₁⟩ := List.map_eq_append_iff.1 h
  obtain ⟨t, q₂, rfl, ht, hq₂⟩ := List.map_eq_cons_iff.1 h₁
  obtain rfl := Token.eq_sym ht
  exact ⟨q₁, q₂, rfl, hq₁, hq₂⟩

theorem exists_of_words {ws : List ω'} (h : ts.map (Token.map f) = ws.map .word) :
    ∃ vs : List ω, ts = vs.map .word ∧ vs.map f = ws := by
  induction ws generalizing ts with
  | nil => exact ⟨[], List.map_eq_nil_iff.1 h, rfl⟩
  | cons w ws ih =>
    obtain ⟨t, ts₁, rfl, ht, h₁⟩ := List.map_eq_cons_iff.1 h
    obtain ⟨v, rfl, rfl⟩ := Token.eq_word ht
    obtain ⟨vs, rfl, rfl⟩ := ih h₁
    exact ⟨v :: vs, rfl, rfl⟩

/-- **The command of some tokens** does not depend on how the words are given. -/
theorem Cmd.exists_of_print {cmd : Cmd ω'} {l : ℕ} (h : ts.map (Token.map f) = cmd.print l) :
    ∃ cmd₀ : Cmd ω, ts = cmd₀.print l ∧ cmd₀.map f = cmd := by
  induction cmd generalizing l ts with
  | exec argv =>
    obtain ⟨vs, rfl, rfl⟩ := exists_of_words (h.trans (by rw [Cmd.print]))
    exact ⟨.exec vs, by rw [Cmd.print], rfl⟩
  | redir cmd file mode fd ih =>
    rw [Cmd.print] at h
    obtain ⟨q₁, q₂, rfl, hq₁, hq₂⟩ := exists_of_between h
    obtain ⟨t, ts₁, rfl, ht, h₁⟩ := List.map_eq_cons_iff.1 hq₂
    obtain rfl := List.map_eq_nil_iff.1 h₁
    obtain ⟨v, rfl, rfl⟩ := Token.eq_word ht
    obtain ⟨cmd₀, rfl, rfl⟩ := ih hq₁
    exact ⟨.redir cmd₀ v mode fd, by rw [Cmd.print], rfl⟩
  | pipe left right ihl ihr =>
    rw [Cmd.print] at h
    obtain ⟨p, rfl, hp⟩ := exists_of_paren h
    obtain ⟨q₁, q₂, rfl, hq₁, hq₂⟩ := exists_of_between hp
    obtain ⟨left₀, rfl, rfl⟩ := ihl hq₁
    obtain ⟨right₀, rfl, rfl⟩ := ihr hq₂
    exact ⟨.pipe left₀ right₀, by rw [Cmd.print], rfl⟩
  | list left right ihl ihr =>
    rw [Cmd.print] at h
    obtain ⟨p, rfl, hp⟩ := exists_of_paren h
    obtain ⟨q₁, q₂, rfl, hq₁, hq₂⟩ := exists_of_between hp
    obtain ⟨left₀, rfl, rfl⟩ := ihl hq₁
    obtain ⟨right₀, rfl, rfl⟩ := ihr hq₂
    exact ⟨.list left₀ right₀, by rw [Cmd.print], rfl⟩
  | back cmd ih =>
    rw [Cmd.print] at h
    obtain ⟨p, rfl, hp⟩ := exists_of_paren h
    obtain ⟨q₁, q₂, rfl, hq₁, hq₂⟩ := exists_of_between hp
    obtain rfl := List.map_eq_nil_iff.1 hq₂
    obtain ⟨cmd₀, rfl, rfl⟩ := ih hq₁
    exact ⟨.back cmd₀, by rw [Cmd.print], rfl⟩

theorem Cmd.valid_of_map {cmd : Cmd ω} (h : (cmd.map f).Valid) : cmd.Valid := by
  induction cmd with
  | exec argv => rwa [Cmd.map, Cmd.Valid, List.length_map] at h
  | redir cmd file mode fd ih => exact ⟨ih h.1, h.2⟩
  | pipe left right ihl ihr | list left right ihl ihr => exact ⟨ihl h.1, ihr h.2⟩
  | back cmd ih => exact ih h

theorem Cmd.map_congr {f g : ω → ω'} {cmd : Cmd ω} (h : ∀ w ∈ cmd.words, f w = g w) :
    cmd.map f = cmd.map g := by
  induction cmd with
  | exec argv => exact congrArg Cmd.exec (List.map_congr_left h)
  | redir cmd file mode fd ih =>
    rw [Cmd.map, Cmd.map, ih fun w hw => h w (List.mem_append_left _ hw),
      h file (List.mem_append_right _ List.mem_cons_self)]
  | pipe left right ihl ihr | list left right ihl ihr =>
    rw [Cmd.map, Cmd.map, ihl fun w hw => h w (List.mem_append_left _ hw),
      ihr fun w hw => h w (List.mem_append_right _ hw)]
  | back cmd ih => exact congrArg Cmd.back (ih h)

end

/-! ### Lines -/

/-- **A line for some tokens**: there are blanks before a token or none, a word does not go on with the
next token, and a `>` not with another one. -/
inductive Spelled : List UInt8 → List (Token (List UInt8)) → Prop
  | nil (gap) (hgap : gap.all (strchr whitespace) = true) : Spelled gap []
  | word (gap w) {bs ts} (hgap : gap.all (strchr whitespace) = true) (hne : w ≠ [])
      (hplain : w.all plain = true) (hbs : bs.head?.all (fun c => !plain c) = true) (h : Spelled bs ts) :
      Spelled (gap ++ (w ++ bs)) (.word w :: ts)
  | sym (gap c) {bs ts} (hgap : gap.all (strchr whitespace) = true)
      (hc : strchr [124, 40, 41, 59, 38, 60] c = true) (h : Spelled bs ts) :
      Spelled (gap ++ c :: bs) (.sym c :: ts)
  | right (gap) {bs ts} (hgap : gap.all (strchr whitespace) = true) (hbs : bs.head? ≠ some 62)
      (h : Spelled bs ts) : Spelled (gap ++ 62 :: bs) (.sym 62 :: ts)
  | append (gap) {bs ts} (hgap : gap.all (strchr whitespace) = true) (h : Spelled bs ts) :
      Spelled (gap ++ 62 :: 62 :: bs) (.sym 43 :: ts)

section

variable {buf : Bytes} {es s q k : ℕ} {cs bs : List UInt8} {c : UInt8} {test : UInt8 → Bool}

theorem text_eq_cons (hs : s ≤ es) (h : text buf (s, es) = c :: bs) :
    s < es ∧ buf s = c ∧ text buf (s + 1, es) = bs := by
  obtain rfl | hlt := hs.eq_or_lt
  · simp only [text, Nat.sub_self] at h
    cases h
  · obtain ⟨k, hk⟩ : ∃ k, es - s = k + 1 := ⟨es - s - 1, by omega⟩
    have hk' : es - (s + 1) = k := by omega
    simp only [text, hk, List.range'_succ, List.map_cons, List.cons.injEq] at h
    exact ⟨hlt, h.1, by simp only [text, hk', h.2]⟩

theorem text_eq_append (hs : s ≤ es) (h : text buf (s, es) = cs ++ bs) :
    s + cs.length ≤ es ∧ text buf (s, s + cs.length) = cs ∧ text buf (s + cs.length, es) = bs := by
  induction cs generalizing s with
  | nil => exact ⟨hs, by simp [text], h⟩
  | cons c cs ih =>
    obtain ⟨hlt, hc, htail⟩ := text_eq_cons hs h
    obtain ⟨hle, h₁, h₂⟩ := ih hlt htail
    have hadd : s + 1 + cs.length = s + (cs.length + 1) := by omega
    rw [List.length_cons, ← hadd]
    refine ⟨hle, ?_, h₂⟩
    obtain ⟨k, hk⟩ : ∃ k, s + 1 + cs.length - s = k + 1 := ⟨cs.length, by omega⟩
    have hk' : s + 1 + cs.length - (s + 1) = k := by omega
    simp only [text, hk'] at h₁
    simp only [text, hk, List.range'_succ, List.map_cons, hc, h₁]

theorem mem_text {i : ℕ} (hi : s ≤ i) (hi' : i < es) : buf i ∈ text buf (s, es) :=
  List.mem_map_of_mem (List.mem_range'_1.2 ⟨hi, by omega⟩)

/-- A scan over what passes the test -/
theorem scan_text (hs : s ≤ es) (h : text buf (s, es) = cs ++ bs) (hcs : cs.all test = true)
    (hbs : bs.head?.all (fun c => !test c) = true) : scan test buf (es - s) s = s + cs.length := by
  obtain ⟨hle, h₁, h₂⟩ := text_eq_append hs h
  refine scan_eq (Nat.le_add_right _ _) (fun i hi hi' => List.all_eq_true.1 hcs _ (h₁ ▸ mem_text hi hi')) ?_
  obtain heq | hlt := hle.eq_or_lt
  · left
    omega
  · right
    refine ⟨by omega, ?_⟩
    cases bs with
    | nil =>
      have hlength := congrArg List.length h₂
      rw [length_text, List.length_nil] at hlength
      omega
    | cons c bs =>
      obtain ⟨-, hc, -⟩ := text_eq_cons hle h₂
      rw [hc]
      exact (Bool.not_eq_true' _).mp hbs

/-- The first token, behind some blanks -/
theorem tokens_of_text (h : IsLine buf es) (hs : s ≤ es) (htext : text buf (s, es) = cs ++ c :: bs)
    (hcs : cs.all (strchr whitespace) = true) (hc : strchr whitespace c = false) :
    ∃ q, q < es ∧ text buf (q, es) = c :: bs ∧
      tokens buf es s = (if (lexeme buf es q).1 = 97 then .word (q, (lexeme buf es q).2)
        else .sym (lexeme buf es q).1) :: tokens buf es (lexeme buf es q).2 := by
  have hskip : skip buf es s = s + cs.length := scan_text hs htext hcs ((Bool.not_eq_true' _).mpr hc)
  obtain ⟨hle, -, hq⟩ := text_eq_append hs htext
  obtain ⟨hlt, hbuf, -⟩ := text_eq_cons hle hq
  refine ⟨s + cs.length, hlt, hq, ?_⟩
  obtain ⟨-, hend⟩ := lexeme_end h hlt (hbuf ▸ hc)
  have hret : (gettoken buf es s).ret = (lexeme buf es (s + cs.length)).1 := by rw [← hskip]; rfl
  have hstart : (gettoken buf es s).q = s + cs.length := hskip
  have heq : (gettoken buf es s).eq = (lexeme buf es (s + cs.length)).2 := by rw [← hskip]; rfl
  have hps : (gettoken buf es s).ps = skip buf es (lexeme buf es (s + cs.length)).2 := by rw [← hskip]; rfl
  have htokens : tokens buf es (gettoken buf es s).ps = tokens buf es (lexeme buf es (s + cs.length)).2 := by
    have hb : Before buf es (lexeme buf es (s + cs.length)).2 _ := ⟨hend, rfl⟩
    rw [hps]
    exact (hb.peek_snd h []).tokens_eq
  rw [tokens_eq h hs, hret, if_neg (lexeme_ne_zero h hlt), htokens, hstart, heq]

theorem plain_iff : plain c = true ↔ strchr whitespace c = false ∧ strchr symbols c = false := by
  rw [plain, Bool.and_eq_true, Bool.not_eq_true', Bool.not_eq_true']

theorem lexeme_of_sym (hq : buf q = c) (hzero : c ≠ 0) (hc : strchr [124, 40, 41, 59, 38, 60] c = true) :
    lexeme buf es q = (c, q + 1) := by
  rw [lexeme, hq, if_neg hzero, if_pos hc]

theorem lexeme_of_right (hq : buf q = 62) (hnext : buf (q + 1) ≠ 62) : lexeme buf es q = (62, q + 1) := by
  rw [lexeme, hq, if_neg (by decide), if_neg (by decide), if_pos rfl, if_neg hnext]

theorem lexeme_of_append (hq : buf q = 62) (hnext : buf (q + 1) = 62) : lexeme buf es q = (43, q + 2) := by
  rw [lexeme, hq, if_neg (by decide), if_neg (by decide), if_pos rfl, if_pos hnext]

end

/-- **The tokens of the line are these tokens.** -/
theorem Spelled.tokens {buf : Bytes} {es s : ℕ} {line : List UInt8} {ts : List (Token (List UInt8))}
    (hline : Spelled line ts) (h : IsLine buf es) (hs : s ≤ es) (htext : text buf (s, es) = line) :
    (tokens buf es s).map (Token.map (text buf)) = ts := by
  induction hline generalizing s with
  | @nil gap hgap =>
    have hskip : skip buf es s = s + gap.length :=
      scan_text hs (htext.trans (List.append_nil gap).symm) hgap rfl
    have hlength := congrArg List.length htext
    rw [length_text] at hlength
    have hend := gettoken_of_end h (s := s) (by rw [hskip]; simp only at hlength; omega)
    rw [tokens_eq h hs, hend, if_pos rfl, List.map_nil]
  | @word gap w bs ts hgap hne hplain hbs _ ih =>
    obtain ⟨c, w, rfl⟩ := List.exists_cons_of_ne_nil hne
    obtain ⟨hblank, hsymbol⟩ := plain_iff.1 (List.all_eq_true.1 hplain c List.mem_cons_self)
    obtain ⟨q, hq, hword, htokens⟩ := tokens_of_text h hs htext hgap hblank
    obtain ⟨-, hc, -⟩ := text_eq_cons hq.le hword
    have happend : text buf (q, es) = (c :: w) ++ bs := hword
    obtain ⟨hle, hw, hrest⟩ := text_eq_append hq.le happend
    rcases lexeme_ret es (h.nonzero q hq) with ⟨htrue, -⟩ | ⟨-, hret, hend⟩
    · rw [hc, hsymbol] at htrue
      cases htrue
    · rw [scan_text hq.le happend hplain hbs] at hend
      rw [htokens, hret, if_pos rfl, hend, List.map_cons, ih hle hrest, Token.map, hw]
  | @sym gap c bs ts hgap hc _ ih =>
    have hsym : strchr whitespace c = false ∧ c ≠ 97 := by
      simp only [strchr, List.contains_eq_mem, List.mem_cons, List.not_mem_nil, or_false,
        decide_eq_true_eq] at hc
      rcases hc with rfl | rfl | rfl | rfl | rfl | rfl <;> decide
    obtain ⟨q, hq, hbs, htokens⟩ := tokens_of_text h hs htext hgap hsym.1
    obtain ⟨-, hbuf, hrest⟩ := text_eq_cons hq.le hbs
    rw [htokens, lexeme_of_sym hbuf (hbuf ▸ h.nonzero q hq) hc, if_neg hsym.2, List.map_cons, ih hq hrest,
      Token.map]
  | @right gap bs ts hgap hhead _ ih =>
    obtain ⟨q, hq, hbs, htokens⟩ := tokens_of_text h hs htext hgap (by decide)
    obtain ⟨-, hbuf, hrest⟩ := text_eq_cons hq.le hbs
    have hnext : buf (q + 1) ≠ 62 := by
      cases bs with
      | nil =>
        have hlength := congrArg List.length hbs
        rw [length_text, List.length_singleton] at hlength
        have hes : q + 1 = es := by simp only at hlength; omega
        rw [hes, h.zero]
        decide
      | cons c bs =>
        obtain ⟨-, hc, -⟩ := text_eq_cons hq hrest
        rw [hc]
        exact fun heq => hhead (congrArg some heq)
    rw [htokens, lexeme_of_right hbuf hnext, if_neg (by decide : ¬(62 : UInt8) = 97), List.map_cons,
      ih hq hrest, Token.map]
  | @append gap bs ts hgap _ ih =>
    obtain ⟨q, hq, hbs, htokens⟩ := tokens_of_text h hs htext hgap (by decide)
    obtain ⟨-, hbuf, hrest⟩ := text_eq_cons hq.le hbs
    obtain ⟨hlt, hnext, hrest'⟩ := text_eq_cons hq hrest
    rw [htokens, lexeme_of_append hbuf hnext, if_neg (by decide : ¬(43 : UInt8) = 97), List.map_cons,
      ih hlt hrest', Token.map]

/-- **What is typed is run**: the shell has the command back, with each word as a string in memory. -/
theorem parsecmd_of_spelled {buf : Bytes} {es : ℕ} {line : List UInt8} {c : Cmd (List UInt8)} (hc : c.Valid)
    (hline : Spelled line (c.print 0)) (h : IsLine buf es) (htext : text buf (0, es) = line) :
    ∃ c', parsecmd buf es = .ok c' ∧
      c'.map (fun w => cstr (es + 1 - w.1) (slice (nulterminate c' buf) w.1)) = c := by
  obtain ⟨c', htokens, rfl⟩ := Cmd.exists_of_print (hline.tokens h (Nat.zero_le _) htext)
  have hparse : parsecmd buf es = .ok c' := by
    rw [(parsecmd_iff h).2, htokens]
    have hprinted := (Cmd.printed (Cmd.valid_of_map hc)).line []
    rwa [List.append_nil] at hprinted
  exact ⟨c', hparse, Cmd.map_congr fun w hw => (cstr_of_parsecmd h hparse hw).1⟩

/-- `a&;b<c` -/
theorem parsecmd_of_spelled_list : ∃ c', parsecmd (ofCstr [97, 38, 59, 98, 60, 99]) 6 = .ok c' ∧
    c'.map (fun w => cstr (7 - w.1) (slice (nulterminate c' (ofCstr [97, 38, 59, 98, 60, 99])) w.1)) =
      .list (.back (.exec [[97]])) (.redir (.exec [[98]]) [99] O_RDONLY 0) := by
  have hc : Cmd.Valid (.list (.back (.exec [[97]])) (.redir (.exec [[98]]) [99] O_RDONLY 0)) :=
    ⟨(by decide : 1 < MAXARGS), (by decide : 1 < MAXARGS), .inl ⟨rfl, rfl⟩⟩
  have hfile := Spelled.word [] [99] rfl (by decide) rfl rfl (.nil [] rfl)
  have harg := Spelled.word [] [98] rfl (by decide) rfl rfl (.sym [] 60 rfl rfl hfile)
  have hline : Spelled [97, 38, 59, 98, 60, 99] _ := .word [] [97] rfl (by decide) rfl rfl
    (.sym [] 38 rfl rfl (.sym [] 59 rfl rfl harg))
  have h : IsLine (ofCstr [97, 38, 59, 98, 60, 99]) 6 := ⟨by decide, rfl⟩
  have htext : text (ofCstr [97, 38, 59, 98, 60, 99]) (0, 6) = [97, 38, 59, 98, 60, 99] := rfl
  exact parsecmd_of_spelled hc hline h htext

end Sh

end OperatingSystems

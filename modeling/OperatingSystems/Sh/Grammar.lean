import OperatingSystems.Sh.Parser

/-!
# The grammar of command lines

    line ::= pipe "&"* (";" line)?
    pipe ::= exec ("|" pipe)?
    exec ::= "(" line ")" redirs  |  redirs (word redirs)*

Each part of a list of tokens is given by the list and what is left of it.

* `Redirs`, `Args`, `Backs`, `Line`, `Pipe`, `Exec` : **the grammar**, with the commands that it stands for.
* `Line.suffix` : what is left is the end of the tokens.
* `Exec.redir` : a redirection may be added at the end.
* `Cmd.print` : **each command has tokens**, with parentheses where they are needed.
-/

namespace OperatingSystems

namespace Sh

variable {ω : Type}

/-- Redirections around a command -/
inductive Redirs : List (Token ω) → Cmd ω → Cmd ω → List (Token ω) → Prop
  | nil {ts c} : Redirs ts c c ts
  | cons {t w ts c c' rest} (ht : t = 60 ∨ t = 62 ∨ t = 43) (h : Redirs ts (redircmd t c w) c' rest) :
      Redirs (.sym t :: .word w :: ts) c c' rest

/-- Arguments, behind `n` others, with redirections between them -/
inductive Args : List (Token ω) → ℕ → Cmd ω → Cmd ω → List (Token ω) → Prop
  | nil {ts n c} : Args ts n c c ts
  | cons {w ts ts₁ n c c₁ c' rest} (hn : n + 1 < MAXARGS) (hr : Redirs ts (c.addArg w) c₁ ts₁)
      (h : Args ts₁ (n + 1) c₁ c' rest) : Args (.word w :: ts) n c c' rest

/-- Any number of `&` -/
inductive Backs : List (Token ω) → Cmd ω → Cmd ω → List (Token ω) → Prop
  | nil {ts c} : Backs ts c c ts
  | cons {ts c c' rest} (h : Backs ts (.back c) c' rest) : Backs (.sym 38 :: ts) c c' rest

mutual

inductive Line : List (Token ω) → Cmd ω → List (Token ω) → Prop
  | one {ts ts₁ c c' rest} (h : Pipe ts c ts₁) (hb : Backs ts₁ c c' rest) : Line ts c' rest
  | list {ts ts₁ ts₂ c c' d rest} (h : Pipe ts c ts₁) (hb : Backs ts₁ c c' (.sym 59 :: ts₂))
      (hd : Line ts₂ d rest) : Line ts (.list c' d) rest

inductive Pipe : List (Token ω) → Cmd ω → List (Token ω) → Prop
  | one {ts c rest} (h : Exec ts c rest) : Pipe ts c rest
  | pipe {ts ts₁ c d rest} (h : Exec ts c (.sym 124 :: ts₁)) (hd : Pipe ts₁ d rest) :
      Pipe ts (.pipe c d) rest

inductive Exec : List (Token ω) → Cmd ω → List (Token ω) → Prop
  | block {ts ts₁ c c' rest} (h : Line ts c (.sym 41 :: ts₁)) (hr : Redirs ts₁ c c' rest) :
      Exec (.sym 40 :: ts) c' rest
  | exec {ts ts₁ c c' rest} (hr : Redirs ts (.exec []) c ts₁) (ha : Args ts₁ 0 c c' rest) :
      Exec ts c' rest

end

variable {ts ts' ts₁ rest : List (Token ω)} {c c' d : Cmd ω} {n : ℕ} {w : ω} {t : UInt8}

/-! ### What is left -/

theorem Redirs.suffix (h : Redirs ts c c' rest) : rest <:+ ts := by
  induction h with
  | nil => exact List.suffix_rfl
  | cons _ _ ih => exact (ih.trans (List.suffix_cons _ _)).trans (List.suffix_cons _ _)

theorem Args.suffix (h : Args ts n c c' rest) : rest <:+ ts := by
  induction h with
  | nil => exact List.suffix_rfl
  | cons _ hr _ ih => exact (ih.trans hr.suffix).trans (List.suffix_cons _ _)

theorem Backs.suffix (h : Backs ts c c' rest) : rest <:+ ts := by
  induction h with
  | nil => exact List.suffix_rfl
  | cons _ ih => exact ih.trans (List.suffix_cons _ _)

mutual

theorem Line.suffix {ts rest : List (Token ω)} {c : Cmd ω} : Line ts c rest → rest <:+ ts
  | .one h hb => hb.suffix.trans h.suffix
  | .list h hb hd => ((hd.suffix.trans (List.suffix_cons _ _)).trans hb.suffix).trans h.suffix

theorem Pipe.suffix {ts rest : List (Token ω)} {c : Cmd ω} : Pipe ts c rest → rest <:+ ts
  | .one h => h.suffix
  | .pipe h hd => (hd.suffix.trans (List.suffix_cons _ _)).trans h.suffix

theorem Exec.suffix {ts rest : List (Token ω)} {c : Cmd ω} : Exec ts c rest → rest <:+ ts
  | .block h hr => ((hr.suffix.trans (List.suffix_cons _ _)).trans h.suffix).trans (List.suffix_cons _ _)
  | .exec hr ha => ha.suffix.trans hr.suffix

end

/-! ### Redirections at the end -/

theorem Redirs.snoc (h : Redirs ts c c' (.sym t :: .word w :: rest)) (ht : t = 60 ∨ t = 62 ∨ t = 43) :
    Redirs ts c (redircmd t c' w) rest := by
  generalize hts : (.sym t :: .word w :: rest : List (Token ω)) = ts₁ at h
  induction h with
  | nil =>
    subst hts
    exact .cons ht .nil
  | cons ht' _ ih => exact .cons ht' (ih hts)

theorem Args.redir (h : Args ts n c c' (.sym t :: .word w :: rest)) (ht : t = 60 ∨ t = 62 ∨ t = 43) :
    ts = .sym t :: .word w :: rest ∧ c = c' ∨ Args ts n c (redircmd t c' w) rest := by
  generalize hts : (.sym t :: .word w :: rest : List (Token ω)) = ts₁ at h
  induction h with
  | nil =>
    subst hts
    exact .inl ⟨rfl, rfl⟩
  | cons hn hr _ ih =>
    rcases ih hts with ⟨rfl, rfl⟩ | hargs
    · subst hts
      exact .inr (.cons hn (hr.snoc ht) .nil)
    · exact .inr (.cons hn hr hargs)

/-- A redirection may be added at the end. -/
theorem Exec.redir (h : Exec ts c (.sym t :: .word w :: rest)) (ht : t = 60 ∨ t = 62 ∨ t = 43) :
    Exec ts (redircmd t c w) rest := by
  cases h with
  | block h hr => exact .block h (hr.snoc ht)
  | exec hr ha =>
    rcases ha.redir ht with ⟨rfl, rfl⟩ | hargs
    · exact .exec (hr.snoc ht) .nil
    · exact .exec hr hargs

theorem Backs.snoc (h : Backs ts c c' (.sym 38 :: rest)) : Backs ts c (.back c') rest := by
  generalize hts : (.sym 38 :: rest : List (Token ω)) = ts₁ at h
  induction h with
  | nil =>
    subst hts
    exact .cons .nil
  | cons _ ih => exact .cons (ih hts)

/-! ### Printing -/

/-- In parentheses, or not -/
def paren (b : Bool) (ts : List (Token ω)) : List (Token ω) :=
  if b then .sym 40 :: (ts ++ [.sym 41]) else ts

/-- The tokens of a command, as an `exec` at level 3, as a `pipe` at level 2, as a `pipe` with `&` at
level 1, and as a `line` at level 0 -/
def Cmd.print : ℕ → Cmd ω → List (Token ω)
  | _, .exec argv => argv.map .word
  | _, .redir cmd file mode _ => cmd.print 3 ++ [.sym (if mode = O_RDONLY then 60 else 62), .word file]
  | l, .pipe a b => paren (2 < l) (a.print 3 ++ .sym 124 :: b.print 2)
  | l, .back a => paren (1 < l) (a.print 1 ++ [.sym 38])
  | l, .list a b => paren (0 < l) (a.print 1 ++ .sym 59 :: b.print 0)

/-- A command that the shell can be told: there are not too many arguments, and the redirections are those
that the shell has. -/
def Cmd.Valid : Cmd ω → Prop
  | .exec argv => argv.length < MAXARGS
  | .redir cmd _ mode fd =>
    cmd.Valid ∧ (mode = O_RDONLY ∧ fd = 0 ∨ mode = O_WRONLY ||| O_CREATE ∧ fd = 1)
  | .pipe a b => a.Valid ∧ b.Valid
  | .back a => a.Valid
  | .list a b => a.Valid ∧ b.Valid

/-- The tokens of a command stand for it. -/
structure Printed (c : Cmd ω) : Prop where
  exec : ∀ rest, Exec (c.print 3 ++ rest) c rest
  pipe : ∀ rest, Pipe (c.print 2 ++ rest) c rest
  back : ∀ rest, ∃ c₀ ts₁, Pipe (c.print 1 ++ rest) c₀ ts₁ ∧ Backs ts₁ c₀ c rest
  line : ∀ rest, Line (c.print 0 ++ rest) c rest

theorem args_words (ws argv : List ω) (hn : n + ws.length < MAXARGS) :
    Args (ws.map .word ++ rest) n (.exec argv) (.exec (argv ++ ws)) rest := by
  induction ws generalizing n argv with
  | nil =>
    rw [List.append_nil]
    exact .nil
  | cons w ws ih =>
    rw [List.length_cons] at hn
    refine .cons (by omega) (Redirs.nil (c := (Cmd.exec argv).addArg w)) ?_
    rw [Cmd.addArg, List.append_cons argv w ws]
    exact ih _ (by omega)

namespace Printed

/-- What is printed as an `exec` at each level -/
theorem of_exec {p : List (Token ω)} (h : ∀ rest, Exec (p ++ rest) c rest) (h₃ : c.print 3 = p)
    (h₂ : c.print 2 = p) (h₁ : c.print 1 = p) (h₀ : c.print 0 = p) : Printed c where
  exec rest := h₃ ▸ h rest
  pipe rest := h₂ ▸ .one (h rest)
  back rest := ⟨c, rest, h₁ ▸ .one (h rest), .nil⟩
  line rest := h₀ ▸ .one (.one (h rest)) .nil

/-- A line in parentheses -/
theorem paren {p : List (Token ω)} (h : ∀ rest, Line (p ++ rest) c rest) (rest : List (Token ω)) :
    Exec (Sh.paren true p ++ rest) c rest := by
  have hline := h (.sym 41 :: rest)
  rw [List.append_cons] at hline
  exact .block hline .nil

end Printed

/-- **Each command has tokens that stand for it.** -/
theorem Cmd.printed {c : Cmd ω} (hc : c.Valid) : Printed c := by
  induction c with
  | exec argv =>
    refine .of_exec (fun rest => ?_) rfl rfl rfl rfl
    refine .exec .nil (args_words argv [] ?_)
    rwa [Nat.zero_add]
  | redir c file mode fd ih =>
    refine .of_exec (fun rest => ?_) rfl rfl rfl rfl
    have hexec := (ih hc.1).exec (.sym (if mode = O_RDONLY then 60 else 62) :: .word file :: rest)
    rw [Cmd.print, List.append_assoc]
    obtain ⟨-, ⟨rfl, rfl⟩ | ⟨rfl, rfl⟩⟩ := hc
    · exact hexec.redir (.inl rfl)
    · exact hexec.redir (.inr (.inl rfl))
  | pipe a b iha ihb =>
    have hpipe : ∀ rest, Pipe (a.print 3 ++ .sym 124 :: b.print 2 ++ rest) (.pipe a b) rest := fun rest => by
      rw [List.append_assoc]
      exact .pipe ((iha hc.1).exec _) ((ihb hc.2).pipe rest)
    have hline : ∀ rest, Line (a.print 3 ++ .sym 124 :: b.print 2 ++ rest) (.pipe a b) rest :=
      fun rest => .one (hpipe rest) .nil
    exact ⟨Printed.paren hline, hpipe, fun rest => ⟨_, _, hpipe rest, .nil⟩, hline⟩
  | back a ih =>
    have hback : ∀ rest, ∃ c₀ ts₁, Pipe (a.print 1 ++ [.sym 38] ++ rest) c₀ ts₁ ∧
        Backs ts₁ c₀ (.back a) rest := fun rest => by
      obtain ⟨c₀, ts₁, hpipe, hbacks⟩ := (ih hc).back (.sym 38 :: rest)
      rw [List.append_assoc]
      exact ⟨c₀, ts₁, hpipe, hbacks.snoc⟩
    have hline : ∀ rest, Line (a.print 1 ++ [.sym 38] ++ rest) (.back a) rest := fun rest => by
      obtain ⟨c₀, ts₁, hpipe, hbacks⟩ := hback rest
      exact .one hpipe hbacks
    have hexec := Printed.paren hline
    exact ⟨hexec, fun rest => .one (hexec rest), hback, hline⟩
  | list a b iha ihb =>
    have hline : ∀ rest, Line (a.print 1 ++ .sym 59 :: b.print 0 ++ rest) (.list a b) rest := fun rest => by
      rw [List.append_assoc]
      obtain ⟨c₀, ts₁, hpipe, hbacks⟩ := (iha hc.1).back (.sym 59 :: (b.print 0 ++ rest))
      exact .list hpipe hbacks ((ihb hc.2).line rest)
    have hexec := Printed.paren hline
    exact ⟨hexec, fun rest => .one (hexec rest), fun rest => ⟨_, _, .one (hexec rest), .nil⟩, hline⟩

end Sh

end OperatingSystems

import OperatingSystems.Sh.Lexer
import OperatingSystems.Machine.Basic

/-!
# The parser of the shell

`parsecmd` of `sh.c`, and what it calls.  A word of a command is given by its two ends in the line, as the
code has it in `argv` and `eargv`, until `nulterminate` makes it a string.

* `Cmd` : the commands.
* `Stop` : the calls of `panic`.
* `parseredirs`, `parseargs`, `parsebacks` : the loops.
* `parseline`, `parsepipe`, `parseblock`, `parseexec`, `parsecmd` : the parser.
* `nulterminate` : the ends of the words are overwritten with zeros.
-/

namespace OperatingSystems

namespace Sh

def MAXARGS : ℕ := 10

def O_RDONLY : ℕ := 0x000

def O_WRONLY : ℕ := 0x001

def O_CREATE : ℕ := 0x200

/-- `struct cmd`, with words `ω` -/
inductive Cmd (ω : Type)
  | exec (argv : List ω)
  | redir (cmd : Cmd ω) (file : ω) (mode fd : ℕ)
  | pipe (left right : Cmd ω)
  | list (left right : Cmd ω)
  | back (cmd : Cmd ω)

/-- The calls of `panic` -/
inductive Stop
  /-- "missing file for redirection" -/
  | missingFile
  /-- "parseblock" -/
  | parseblock
  /-- "syntax - missing )" -/
  | missingParen
  /-- "syntax", in `parseexec` -/
  | unexpected
  /-- "too many args" -/
  | tooManyArgs
  /-- "syntax", in `parsecmd`, behind the leftovers -/
  | leftovers
  /-- The model has run out of fuel. -/
  | fuel
  deriving DecidableEq

/-- The two ends of a word -/
abbrev Span : Type := ℕ × ℕ

section

variable {ω : Type}

/-- `redircmd`, as `parseredirs` calls it for a token -/
def redircmd (tok : UInt8) (cmd : Cmd ω) (file : ω) : Cmd ω :=
  if tok = 60 then .redir cmd file O_RDONLY 0
  else if tok = 62 then .redir cmd file (O_WRONLY ||| O_CREATE) 1
  else if tok = 43 then .redir cmd file (O_WRONLY ||| O_CREATE) 1
  else cmd

/-- `cmd->argv[argc] = q; cmd->eargv[argc] = eq;` the redirections are around the node. -/
def Cmd.addArg (w : ω) : Cmd ω → Cmd ω
  | .exec argv => .exec (argv ++ [w])
  | .redir cmd file mode fd => .redir (cmd.addArg w) file mode fd
  | cmd => cmd

end

variable (buf : Bytes) (es : ℕ)

def parseredirs : ℕ → Cmd Span → ℕ → Except Stop (Cmd Span × ℕ)
  | 0, _, _ => .error .fuel
  | k + 1, cmd, ps =>
    let p := peek buf es ps [60, 62]
    if p.1 then
      let tok := gettoken buf es p.2
      let file := gettoken buf es tok.ps
      if file.ret ≠ 97 then .error .missingFile
      else parseredirs k (redircmd tok.ret cmd (file.q, file.eq)) file.ps
    else .ok (cmd, p.2)

/-- The loop of `parseexec` -/
def parseargs : ℕ → ℕ → Cmd Span → ℕ → Except Stop (Cmd Span × ℕ)
  | 0, _, _, _ => .error .fuel
  | k + 1, argc, ret, ps =>
    let p := peek buf es ps [124, 41, 38, 59]
    if p.1 then .ok (ret, p.2)
    else
      let tok := gettoken buf es p.2
      if tok.ret = 0 then .ok (ret, tok.ps)
      else if tok.ret ≠ 97 then .error .unexpected
      else if MAXARGS ≤ argc + 1 then .error .tooManyArgs
      else do
        let r ← parseredirs buf es (es + 1) (ret.addArg (tok.q, tok.eq)) tok.ps
        parseargs k (argc + 1) r.1 r.2

/-- The loop of `parseline` -/
def parsebacks : ℕ → Cmd Span → ℕ → Except Stop (Cmd Span × ℕ)
  | 0, _, _ => .error .fuel
  | k + 1, cmd, ps =>
    let p := peek buf es ps [38]
    if p.1 then parsebacks k (.back cmd) (gettoken buf es p.2).ps else .ok (cmd, p.2)

mutual

def parseline : ℕ → ℕ → Except Stop (Cmd Span × ℕ)
  | 0, _ => .error .fuel
  | k + 1, ps => do
    let r ← parsepipe k ps
    let r ← parsebacks buf es (es + 1) r.1 r.2
    let p := peek buf es r.2 [59]
    if p.1 then do
      let right ← parseline k (gettoken buf es p.2).ps
      .ok (.list r.1 right.1, right.2)
    else .ok (r.1, p.2)

def parsepipe : ℕ → ℕ → Except Stop (Cmd Span × ℕ)
  | 0, _ => .error .fuel
  | k + 1, ps => do
    let r ← parseexec k ps
    let p := peek buf es r.2 [124]
    if p.1 then do
      let right ← parsepipe k (gettoken buf es p.2).ps
      .ok (.pipe r.1 right.1, right.2)
    else .ok (r.1, p.2)

def parseblock : ℕ → ℕ → Except Stop (Cmd Span × ℕ)
  | 0, _ => .error .fuel
  | k + 1, ps =>
    let p := peek buf es ps [40]
    if p.1 then do
      let r ← parseline k (gettoken buf es p.2).ps
      let p := peek buf es r.2 [41]
      if p.1 then parseredirs buf es (es + 1) r.1 (gettoken buf es p.2).ps
      else .error .missingParen
    else .error .parseblock

def parseexec : ℕ → ℕ → Except Stop (Cmd Span × ℕ)
  | 0, _ => .error .fuel
  | k + 1, ps =>
    let p := peek buf es ps [40]
    if p.1 then parseblock k p.2
    else do
      let r ← parseredirs buf es (es + 1) (.exec []) p.2
      parseargs buf es (es + 1) 0 r.1 r.2

end

/-- `parsecmd`, up to `nulterminate` -/
def parsecmd : Except Stop (Cmd Span) := do
  let r ← parseline buf es (4 * es + 4) 0
  if (peek buf es r.2 []).2 ≠ es then .error .leftovers else .ok r.1

/-- `nulterminate` -/
def nulterminate : Cmd Span → Bytes → Bytes
  | .exec argv, buf => argv.foldl (fun buf w => Function.update buf w.2 0) buf
  | .redir cmd file _ _, buf => Function.update (nulterminate cmd buf) file.2 0
  | .pipe left right, buf => nulterminate right (nulterminate left buf)
  | .list left right, buf => nulterminate right (nulterminate left buf)
  | .back cmd, buf => nulterminate cmd buf

end Sh

end OperatingSystems

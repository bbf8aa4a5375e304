import OperatingSystems.Streams.Fields
import Mathlib.Data.List.Infix

/-!
# How the shell reads a command line

The body of the main loop of `mysh.c`, up to its call of `runCommand`, and the `argv` that
`runCommand` makes of its arguments.  A string is the list of its bytes without the terminating
zero.

* `strtok` : one call of `strtok`; `tokens` and `torn` are the tokens that all calls return and what
  they leave of the string, with a zero behind each token that does not end it.
* `parseLine` : what the loop does with a line that `fgets` has read.
* `splitArgs_eq` : the arguments are the fields of the line between spaces and tabs.
* `cstr_torn` : what the scan of the redirection leaves of the line.
-/

namespace OperatingSystems

namespace Shell

open Streams

/-! ### The scans -/

/-- What one call of `strtok` finds. -/
structure Scan where
  /-- The delimiters before the token. -/
  skipped : List UInt8
  token : List UInt8
  /-- What follows the token; its first byte is a delimiter, which becomes a zero. -/
  rest : List UInt8

/-- `strtok`, on a string or on what the last call has left of it. -/
def strtok (delims s : List UInt8) : Option Scan :=
  match s.dropWhile delims.contains with
  | [] => none
  | c :: cs => some
    { skipped := s.takeWhile delims.contains
      token := c :: cs.takeWhile fun a => !delims.contains a
      rest := cs.dropWhile fun a => !delims.contains a }

variable {delims s : List UInt8} {r : Scan}

theorem strtok_eq_none (h : strtok delims s = none) : s.dropWhile delims.contains = [] := by
  unfold strtok at h
  split at h
  · assumption
  · cases h

theorem strtok_eq_some (h : strtok delims s = some r) : ∃ c cs,
    s.dropWhile delims.contains = c :: cs ∧ r =
      { skipped := s.takeWhile delims.contains
        token := c :: cs.takeWhile fun a => !delims.contains a
        rest := cs.dropWhile fun a => !delims.contains a } := by
  unfold strtok at h
  split at h
  · cases h
  · next c cs hs => exact ⟨c, cs, hs, (Option.some.inj h).symm⟩

/-- The string is what the call skips, the token and the rest. -/
theorem eq_append_of_strtok (h : strtok delims s = some r) :
    s = r.skipped ++ (r.token ++ r.rest) := by
  obtain ⟨c, cs, hs, rfl⟩ := strtok_eq_some h
  rw [List.cons_append, List.takeWhile_append_dropWhile, ← hs, List.takeWhile_append_dropWhile]

theorem length_rest_lt (h : strtok delims s = some r) : r.rest.tail.length < s.length := by
  have hne : r.token ≠ [] := by
    obtain ⟨c, cs, -, rfl⟩ := strtok_eq_some h
    exact List.cons_ne_nil _ _
  have htoken := List.length_pos_iff.2 hne
  have hsplit := congrArg List.length (eq_append_of_strtok h)
  rw [List.length_append, List.length_append] at hsplit
  rw [List.length_tail]
  omega

/-- The tokens that the calls of `strtok` return. -/
def tokens (delims s : List UInt8) : List (List UInt8) :=
  match _h : strtok delims s with
  | none => []
  | some r => r.token :: tokens delims r.rest.tail
termination_by s.length
decreasing_by exact length_rest_lt _h

/-- What the calls of `strtok` leave of the string. -/
def torn (delims s : List UInt8) : List UInt8 :=
  match _h : strtok delims s with
  | none => s
  | some r => r.skipped ++ (r.token ++ if r.rest = [] then [] else 0 :: torn delims r.rest.tail)
termination_by s.length
decreasing_by exact length_rest_lt _h

/-- The string that starts where `buf` does. -/
def cstr (buf : List UInt8) : List UInt8 := buf.takeWhile (· ≠ 0)

/-! ### The main loop -/

/-- The arguments of a call of `runCommand`: the filled entries of `args`, and the others. -/
structure Call where
  args : List (List UInt8)
  size : ℕ
  redirect : Bool
  background : Bool
  runPy : Bool
  deriving DecidableEq

/-- What the loop does with a line. -/
inductive Turn where
  /-- `break` -/
  | stop
  /-- `continue` -/
  | skip
  /-- `printError` and `continue` -/
  | error
  /-- Reads `args[-1]`. -/
  | stray
  | run (call : Call)
  deriving DecidableEq

/-- The string after the redirection has been taken out of it, and whether there is one; `none` when
it is refused. -/
def splitRedirect (cleandLine : List UInt8) : Option (List UInt8 × Bool) :=
  match cleandLine.dropWhile (· ≠ 62) with
  | [] => some (cleandLine, false)
  | _ :: special =>
    if 62 ∈ special then none
    else if tokens [32] special = [] then none
    else if 1 < ((tokens [32] special).filter (· ≠ [38])).length then none
    -- a blank for the `>`, and the zeros of the scan
    else some (cstr (cleandLine.takeWhile (· ≠ 62) ++ 32 :: torn [32] special), true)

/-- The words of a line: split at spaces, and each part at tabs. -/
def splitArgs (cleandLine : List UInt8) : List (List UInt8) :=
  (tokens [32] cleandLine).flatMap (tokens [9])

/-- `isFilePython`: `".py"` is in the name. -/
def isFilePython (fileName : List UInt8) : Bool := decide ([46, 112, 121] <:+: fileName)

/-- `"python"` -/
def python : List UInt8 := [112, 121, 116, 104, 111, 110]

/-- What is done about a `&` in the last argument: the arguments, `size` and `background`. -/
def stripBackground (args : List (List UInt8)) (last : List UInt8) :
    List (List UInt8) × ℕ × Bool :=
  match last.dropWhile (· ≠ 38) with
  | [] => (args, args.length, false)
  | gb =>
    if gb ≠ [38] then (args, args.length - 1, true)
    else (args.dropLast ++ [last.takeWhile (· ≠ 38)], args.length, true)

/-- The call for a file of python, or for another. -/
def callOf (args : List (List UInt8)) (size : ℕ) (redirect background : Bool) : Call :=
  if isFilePython (args.headD []) then
    { args := python :: (args.take size ++ args.drop (size + 1))
      size := size + 1
      redirect := redirect
      background := background
      runPy := true }
  else
    { args := args
      size := size
      redirect := redirect
      background := background
      runPy := false }

/-- The second half of the loop. -/
def runArgs (cleandLine : List UInt8) (redirect : Bool) : Turn :=
  match (splitArgs cleandLine).getLast? with
  | none => .stray
  | some last =>
    let stripped := stripBackground (splitArgs cleandLine) last
    .run (callOf stripped.1 stripped.2.1 redirect stripped.2.2)

/-- The loop, for a line that `fgets` has read. -/
def parseLine (line : List UInt8) : Turn :=
  if line = [10] then .stop
  else if 513 < line.length then .error
  else
    match strtok [10] line with
    | none => .skip
    | some cleandLine =>
      match splitRedirect cleandLine.token with
      | none => .error
      | some (view, redirect) => runArgs view redirect

/-- The `argv` that `runCommand` makes, up to its first null pointer. -/
def Call.argv (call : Call) : List (List UInt8) :=
  if call.redirect then (call.args.take call.size).dropLast else call.args.take call.size

/-! ### What the scans find -/

theorem tokens_eq_fields (delims s : List UInt8) : tokens delims s = fields delims.contains s := by
  induction hn : s.length using Nat.strong_induction_on generalizing s with
  | _ n ih =>
    rw [tokens]
    split
    · next h => rw [← fields_dropWhile, strtok_eq_none h, fields_nil]
    · next r h =>
      rw [ih _ (hn ▸ length_rest_lt h) _ rfl]
      obtain ⟨c, cs, hs, rfl⟩ := strtok_eq_some h
      exact (fields_eq_cons hs).symm

/-- The bytes between the words. -/
def isBlank (a : UInt8) : Bool := [32].contains a || [9].contains a

theorem isBlank_iff {a : UInt8} : isBlank a ↔ a = 32 ∨ a = 9 := by simp [isBlank]

theorem splitArgs_eq (s : List UInt8) : splitArgs s = fields isBlank s := by
  unfold splitArgs
  rw [tokens_eq_fields, funext (tokens_eq_fields [9]), flatMap_fields]
  rfl

/-! ### The zeros of the first scan -/

theorem cstr_of_notMem {a : List UInt8} (h : 0 ∉ a) : cstr a = a :=
  List.takeWhile_eq_self_iff.2 fun x hx => by simpa using fun h0 : x = 0 => h (h0 ▸ hx)

theorem cstr_append_zero {a : List UInt8} (h : 0 ∉ a) (b : List UInt8) :
    cstr (a ++ 0 :: b) = a := by
  have hpos : ∀ x ∈ a, decide (x ≠ 0) := fun x hx => by simpa using fun h0 : x = 0 => h (h0 ▸ hx)
  rw [cstr, List.takeWhile_append_of_pos hpos, List.takeWhile_cons_of_neg (by simp),
    List.append_nil]

/-- The scan leaves the whole string, or what stands before its first zero. -/
theorem cstr_torn (delims : List UInt8) {a : List UInt8} (h : 0 ∉ a ++ s) :
    cstr (a ++ torn delims s) = a ++ s ∨
    ∃ u v, s = u ++ v ∧ v ≠ [] ∧ cstr (a ++ torn delims s) = a ++ u := by
  rw [torn]
  split
  · exact Or.inl (cstr_of_notMem h)
  · next r hr =>
    have hs := eq_append_of_strtok hr
    by_cases hrest : r.rest = []
    · rw [if_pos hrest, ← hrest, ← hs]
      exact Or.inl (cstr_of_notMem h)
    · rw [if_neg hrest]
      refine Or.inr ⟨r.skipped ++ r.token, r.rest, by rw [List.append_assoc, ← hs], hrest, ?_⟩
      rw [← List.append_assoc r.skipped, ← List.append_assoc]
      refine cstr_append_zero (fun h0 => h ?_) _
      rw [hs, ← List.append_assoc r.skipped, ← List.append_assoc]
      exact List.mem_append_left _ h0

/-- A string with one token, and nothing behind it, is left as it is. -/
theorem torn_of_one (h : ∀ a ∈ s.dropWhile delims.contains, delims.contains a = false) :
    torn delims s = s := by
  rw [torn]
  split
  · rfl
  · next r hr =>
    have hsplit := eq_append_of_strtok hr
    obtain ⟨c, cs, hs, rfl⟩ := strtok_eq_some hr
    have hrest : cs.dropWhile (fun a => !delims.contains a) = [] :=
      List.dropWhile_eq_nil_iff.2 fun a ha => by
        simpa using h a (hs ▸ List.mem_cons_of_mem c ha)
    rw [if_pos hrest, ← hrest, ← hsplit]

/-! ### The halves of the loop -/

/-- The first `>`. -/
theorem dropWhile_append_cons {a b : List UInt8} {x : UInt8} (ha : x ∉ a) :
    (a ++ x :: b).dropWhile (· ≠ x) = x :: b := by
  rw [List.dropWhile_append_of_pos fun y hy => by simpa using fun h : y = x => ha (h ▸ hy)]
  exact List.dropWhile_cons_of_neg (by simp)

theorem takeWhile_append_cons {a b : List UInt8} {x : UInt8} (ha : x ∉ a) :
    (a ++ x :: b).takeWhile (· ≠ x) = a := by
  rw [List.takeWhile_append_of_pos fun y hy => by simpa using fun h : y = x => ha (h ▸ hy),
    List.takeWhile_cons_of_neg (by simp), List.append_nil]

theorem dropWhile_eq_nil {a : List UInt8} {x : UInt8} (ha : x ∉ a) :
    a.dropWhile (· ≠ x) = [] :=
  List.dropWhile_eq_nil_iff.2 fun y hy => by simpa using fun h : y = x => ha (h ▸ hy)

theorem splitRedirect_of_notMem (h : 62 ∉ s) : splitRedirect s = some (s, false) := by
  rw [splitRedirect, dropWhile_eq_nil h]

/-- A redirection with one word behind it, as the scan counts them. -/
theorem splitRedirect_append {a b : List UInt8} (ha : 62 ∉ a) (hb : 62 ∉ b)
    (hne : fields [32].contains b ≠ []) : splitRedirect (a ++ 62 :: b) =
      if 1 < ((fields [32].contains b).filter (· ≠ [38])).length then none
      else some (cstr (a ++ 32 :: torn [32] b), true) := by
  rw [splitRedirect, dropWhile_append_cons ha, takeWhile_append_cons ha]
  simp only [tokens_eq_fields]
  rw [if_neg hb, if_neg hne]

theorem stripBackground_of_notMem {args : List (List UInt8)} {last : List UInt8}
    (h : 38 ∉ last) : stripBackground args last = (args, args.length, false) := by
  rw [stripBackground, dropWhile_eq_nil h]

/-- A final `&` becomes an empty argument. -/
theorem stripBackground_ampersand (args : List (List UInt8)) :
    stripBackground (args ++ [[38]]) [38] = (args ++ [[]], args.length + 1, true) := by
  simp [stripBackground]

theorem runArgs_of_fields {args : List (List UInt8)} {last : List UInt8} (redirect : Bool)
    (h : fields isBlank s = args ++ [last]) :
    runArgs s redirect = .run (callOf (stripBackground (args ++ [last]) last).1
      (stripBackground (args ++ [last]) last).2.1 redirect
      (stripBackground (args ++ [last]) last).2.2) := by
  rw [runArgs, splitArgs_eq, h, List.getLast?_concat]

section

variable (args : List (List UInt8)) (size : ℕ) (redirect background : Bool)

@[simp] theorem redirect_callOf : (callOf args size redirect background).redirect = redirect := by
  unfold callOf
  split_ifs <;> rfl

@[simp] theorem background_callOf :
    (callOf args size redirect background).background = background := by
  unfold callOf
  split_ifs <;> rfl

end

theorem size_callOf_le {args : List (List UInt8)} {size : ℕ} (h : size ≤ args.length)
    (redirect background : Bool) : (callOf args size redirect background).size ≤
      (callOf args size redirect background).args.length := by
  unfold callOf
  split_ifs
  · simp only [List.length_cons, List.length_append, List.length_take_of_le h, List.length_drop]
    omega
  · exact h

theorem take_callOf {args : List (List UInt8)} {size : ℕ} (h : size ≤ args.length)
    (redirect background : Bool) :
    (callOf args size redirect background).args.take (callOf args size redirect background).size =
      (if isFilePython (args.headD []) then [python] else []) ++ args.take size := by
  unfold callOf
  split_ifs
  · rw [List.take_succ_cons, List.take_left' (List.length_take_of_le h)]
    rfl
  · rfl

/-- The first token of a line is the line without its end. -/
theorem strtok_line {nl : List UInt8} (hs : s ≠ []) (h10 : 10 ∉ s) (hnl : nl = [] ∨ nl = [10]) :
    strtok [10] (s ++ nl) = some { skipped := [], token := s, rest := nl } := by
  obtain ⟨c, cs, rfl⟩ := List.exists_cons_of_ne_nil hs
  have hc : List.contains [10] c = false := by simpa using fun h : c = 10 => h10 (by simp [h])
  have hcs : ∀ a ∈ cs, (!List.contains [10] a) = true := fun a ha => by
    simpa using fun h : a = 10 => h10 (by simp [← h, ha])
  have hnlt : nl.takeWhile (fun a => !List.contains [10] a) = [] := by
    rcases hnl with rfl | rfl <;> decide
  have hnld : nl.dropWhile (fun a => !List.contains [10] a) = nl := by
    rcases hnl with rfl | rfl <;> decide
  rw [strtok, List.cons_append, List.dropWhile_cons_of_neg (hc ▸ Bool.false_ne_true),
    List.takeWhile_cons_of_neg (hc ▸ Bool.false_ne_true)]
  simp only [List.takeWhile_append_of_pos hcs, List.dropWhile_append_of_pos hcs, hnlt, hnld,
    List.append_nil]

/-- A line that is not too long goes to the two halves of the loop. -/
theorem parseLine_eq {nl : List UInt8} (hs : s ≠ []) (h10 : 10 ∉ s)
    (hlen : (s ++ nl).length ≤ 513) (hnl : nl = [] ∨ nl = [10]) : parseLine (s ++ nl) =
      match splitRedirect s with
      | none => .error
      | some (view, redirect) => runArgs view redirect := by
  have hline : s ++ nl ≠ [10] := by
    obtain ⟨c, cs, rfl⟩ := List.exists_cons_of_ne_nil hs
    intro h
    exact h10 ((List.cons.inj h).1 ▸ List.mem_cons_self)
  rw [parseLine, if_neg hline, if_neg (by omega), strtok_line hs h10 hnl]

end Shell

end OperatingSystems

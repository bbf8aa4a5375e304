import Mathlib.Data.Nat.Digits.Defs
import Mathlib.Data.List.Basic

/-!
# Formatted names

The server and its clients use names as formats of `sprintf`.  What the C standard leaves undefined
(an unknown conversion, one of another type than `int`, a missing argument) has no result.

* `convert` : the text of one conversion of an `int`.
* `sprintf` : the text of a format.
* `sprintf_eq` : a format without `%` is its own text.
* `sprintf_spec` : the text of a name has no zeros, and is not empty.
-/

namespace OperatingSystems

namespace Mfs

/-! ### Conversions -/

def isFlag (c : UInt8) : Bool := c ∈ ([45, 43, 32, 35, 48] : List UInt8)

def isDigit (c : UInt8) : Bool := 48 ≤ c && c ≤ 57

/-- The number with the digits `ds`. -/
def number (ds : List UInt8) : ℕ := ds.foldl (fun n c => 10 * n + (c.toNat - 48)) 0

/-- The digits of `n` for the conversions `o`, `x`, `X` and those with base 10; 0 has none. -/
def digits (c : UInt8) (n : ℕ) : List UInt8 :=
  let base := if c = 111 then 8 else if c = 120 ∨ c = 88 then 16 else 10
  (Nat.digits base n).reverse.map fun d =>
    if d < 10 then .ofNat (48 + d) else if c = 88 then .ofNat (55 + d) else .ofNat (87 + d)

/-- What comes in front of the digits `ds`: the sign of a `d` or `i`, with `#` the `0x` or `0X`, and
the `0` of an `o` which has none yet. -/
def digitPrefix (flags : List UInt8) (c : UInt8) (ds : List UInt8) : List UInt8 :=
  if c = 100 ∨ c = 105 then if 43 ∈ flags then [43] else if 32 ∈ flags then [32] else []
  else if 35 ∈ flags then
    if c = 111 then if ds.head? = some 48 then [] else [48]
    else if ds = [] then []
    else [48, c]
  else []

/-- What is in front of the letter of a conversion; `rest` is the `h` or `hh`. -/
structure Spec where
  flags : List UInt8
  width : ℕ
  precision : Option ℕ
  rest : List UInt8

def Spec.parse (cs : List UInt8) : Spec :=
  let (flags, cs) := cs.span isFlag
  let (ds, cs) := cs.span isDigit
  if cs.head? = some 46 then
    ⟨flags, number ds, some (number (cs.tail.takeWhile isDigit)), cs.tail.dropWhile isDigit⟩
  else ⟨flags, number ds, none, cs⟩

/-- Blanks fill the text up to the width. -/
def Spec.pad (spec : Spec) (text : List UInt8) : List UInt8 :=
  let spaces := List.replicate (spec.width - text.length) 32
  if 45 ∈ spec.flags then text ++ spaces else spaces ++ text

/-- The digits with zeros up to the precision, and with what comes in front of them; with the flag
`0`, zeros fill the text up to the width. -/
def Spec.integer (spec : Spec) (c : UInt8) (ds : List UInt8) : List UInt8 :=
  let ds := List.replicate (spec.precision.getD 1 - ds.length) 48 ++ ds
  let front := digitPrefix spec.flags c ds
  if 48 ∈ spec.flags ∧ 45 ∉ spec.flags ∧ spec.precision = none then
    front ++ (List.replicate (spec.width - (front.length + ds.length)) 48 ++ ds)
  else spec.pad (front ++ ds)

/-- The text of the conversion with the letter `c` for the argument `n`, which is below 128, so that
`h` and `hh` do not change it. -/
def convert (spec : Spec) (c : UInt8) (n : ℕ) : Option (List UInt8) :=
  if c = 99 then
    if 35 ∈ spec.flags ∨ 48 ∈ spec.flags ∨ spec.precision ≠ none ∨ spec.rest ≠ [] then none
    else some (spec.pad [.ofNat n])
  else if c ∈ ([111, 120, 88] : List UInt8) ∨
      c ∈ ([100, 105, 117] : List UInt8) ∧ 35 ∉ spec.flags then
    if spec.rest ∈ [[], [104], [104, 104]] then some (spec.integer c (digits c n)) else none
  else none

/-! ### Formats -/

/-- `sprintf` with the rest `fmt` of the format and of the further arguments; if a conversion has
begun, the characters after its `%` are given. -/
def format : Option (List UInt8) → List UInt8 → List ℕ → Option (List UInt8)
  | none, [], _ => some []
  | some _, [], _ => none
  | none, c :: fmt, args =>
    if c = 37 then format (some []) fmt args else (format none fmt args).map (c :: ·)
  | some spec, c :: fmt, args =>
    if isFlag c ∨ isDigit c ∨ c = 46 ∨ c = 104 then format (some (spec ++ [c])) fmt args
    else if c = 37 ∧ spec = [] then (format none fmt args).map (37 :: ·)
    else
      match args with
      | [] => none
      | n :: args => (convert (.parse spec) c n).bind fun text => (format none fmt args).map (text ++ ·)

/-- `sprintf` with the format `fmt` and the further arguments `args`. -/
def sprintf (fmt : List UInt8) (args : List ℕ) : Option (List UInt8) := format none fmt args

example : sprintf [37, 45, 35, 52, 120, 124] [60] = some [48, 120, 51, 99, 124] := by decide

/-! ### The text of a format -/

variable {name text fmt : List UInt8} {spec : Spec} {c : UInt8}

theorem format_eq (h : 37 ∉ name) (args : List ℕ) : format none name args = some name := by
  induction name with
  | nil => rfl
  | cons c name ih =>
    obtain ⟨hc, hname⟩ := not_or.1 (List.mem_cons.not.1 h)
    unfold format
    rw [if_neg (Ne.symm hc), ih hname]
    rfl

/-- A format without `%` is its own text. -/
theorem sprintf_eq (h : 37 ∉ name) (args : List ℕ) : sprintf name args = some name :=
  format_eq h args

/-- A text as `sprintf` makes it of a conversion: it has no zeros, and is not empty. -/
def IsText (text : List UInt8) : Prop := 0 ∉ text ∧ text ≠ []

theorem IsText.append {text' : List UInt8} (h : IsText text) (h' : 0 ∉ text') :
    IsText (text ++ text') :=
  ⟨fun h0 => (List.mem_append.1 h0).elim h.1 h', List.append_ne_nil_of_left_ne_nil h.2 text'⟩

theorem IsText.append_left {text' : List UInt8} (h : IsText text) (h' : 0 ∉ text') :
    IsText (text' ++ text) :=
  ⟨fun h0 => (List.mem_append.1 h0).elim h' h.1, List.append_ne_nil_of_right_ne_nil text' h.2⟩

theorem zero_notMem_replicate {k : ℕ} (hc : c ≠ 0) : 0 ∉ List.replicate k c :=
  fun h => hc (List.eq_of_mem_replicate h).symm

theorem isText_digits (c : UInt8) : IsText (digits c 60) := by
  unfold digits IsText
  split_ifs <;> decide

theorem zero_notMem_digitPrefix (flags ds : List UInt8) (hc : c ≠ 0) :
    0 ∉ digitPrefix flags c ds := by
  unfold digitPrefix
  split_ifs <;> simp [hc.symm]

theorem isText_pad (spec : Spec) (h : IsText text) : IsText (spec.pad text) := by
  unfold Spec.pad
  split_ifs
  · exact h.append (zero_notMem_replicate (by decide))
  · exact h.append_left (zero_notMem_replicate (by decide))

theorem isText_integer (spec : Spec) (hc : c ≠ 0) (h : IsText text) :
    IsText (spec.integer c text) := by
  have hds : IsText (List.replicate (spec.precision.getD 1 - text.length) 48 ++ text) :=
    h.append_left (zero_notMem_replicate (by decide))
  have hfront := zero_notMem_digitPrefix spec.flags
    (List.replicate (spec.precision.getD 1 - text.length) 48 ++ text) hc
  unfold Spec.integer
  dsimp only
  split_ifs
  · exact (hds.append_left (zero_notMem_replicate (by decide))).append_left hfront
  · exact isText_pad spec (hds.append_left hfront)

theorem isText_convert (h : convert spec c 60 = some text) : IsText text := by
  have hpad : IsText (spec.pad [60]) := isText_pad spec ⟨by decide, by decide⟩
  have hint : c ≠ 0 → IsText (spec.integer c (digits c 60)) := fun hc =>
    isText_integer spec hc (isText_digits c)
  unfold convert at h
  split_ifs at h with _ _ hletter
  · exact Option.some.inj h ▸ hpad
  · refine Option.some.inj h ▸ hint ?_
    rintro rfl
    obtain hletter | ⟨hletter, -⟩ := hletter <;> exact absurd hletter (by decide)

/-- With 60 as the only argument, a format without zeros has a text without zeros, and only the
empty one has an empty text. -/
theorem format_spec {begun : Option (List UInt8)} {args : List ℕ} (hargs : ∀ n ∈ args, n = 60)
    (h0 : 0 ∉ fmt) (h : format begun fmt args = some text) :
    0 ∉ text ∧ (begun ≠ none ∨ fmt ≠ [] → text ≠ []) := by
  induction fmt generalizing begun args text with
  | nil =>
    cases begun with
    | none => cases h; simp
    | some spec => cases h
  | cons c fmt ih =>
    obtain ⟨hc0, hfmt⟩ := not_or.1 (List.mem_cons.not.1 h0)
    cases begun with
    | none =>
      unfold format at h
      split_ifs at h with hc
      · have hrest := ih hargs hfmt h
        exact ⟨hrest.1, fun _ => hrest.2 (Or.inl (Option.some_ne_none _))⟩
      · obtain ⟨out, hout, rfl⟩ := Option.map_eq_some_iff.1 h
        exact ⟨List.mem_cons.not.2 (not_or.2 ⟨hc0, (ih hargs hfmt hout).1⟩),
          fun _ => List.cons_ne_nil _ _⟩
    | some spec =>
      unfold format at h
      split_ifs at h with hspec hpercent
      · have hrest := ih hargs hfmt h
        exact ⟨hrest.1, fun _ => hrest.2 (Or.inl (Option.some_ne_none _))⟩
      · obtain ⟨out, hout, rfl⟩ := Option.map_eq_some_iff.1 h
        exact ⟨List.mem_cons.not.2 (not_or.2 ⟨by decide, (ih hargs hfmt hout).1⟩),
          fun _ => List.cons_ne_nil _ _⟩
      · cases args with
        | nil => cases h
        | cons n args =>
          obtain ⟨out, hconv, h⟩ := Option.bind_eq_some_iff.1 h
          obtain ⟨rest, hrest, rfl⟩ := Option.map_eq_some_iff.1 h
          rw [hargs n List.mem_cons_self] at hconv
          have hnext := ih (fun n hn => hargs n (List.mem_cons_of_mem _ hn)) hfmt hrest
          have htext := (isText_convert hconv).append hnext.1
          exact ⟨htext.1, fun _ => htext.2⟩

/-- **The text of a name** has no zeros, and is not empty. -/
theorem sprintf_spec {name' : List UInt8} (h0 : 0 ∉ name)
    (h : sprintf name [60] = some name') : 0 ∉ name' ∧ (name ≠ [] → name' ≠ []) := by
  obtain ⟨hzero, hne⟩ := format_spec (fun n hn => List.mem_singleton.1 hn) h0 h
  exact ⟨hzero, fun hname => hne (Or.inr hname)⟩

end Mfs

end OperatingSystems

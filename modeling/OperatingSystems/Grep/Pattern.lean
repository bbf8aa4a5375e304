import Mathlib.Computability.Language

/-!
# The patterns of `grep`

`match` of `grep.c`, on strings without the zero behind them.

* `matchstar`, `matchhere`, `matchLine` : the code.
* `Piece`, `pieces` : a pattern as what it consists of.
* `language` : **what a pattern stands for**, as a language.
* `matchLine_iff` : **`match` decides this language**.
-/

namespace OperatingSystems

namespace Grep

open Computability

/-- `matchstar`, with `matchhere` for what follows on the star -/
def matchstar (here : List UInt8 → Bool) (c : UInt8) : List UInt8 → Bool
  | [] => here []
  | t :: text => here (t :: text) || (t == c || c == 46) && matchstar here c text

/-- `matchhere` -/
def matchhere : List UInt8 → List UInt8 → Bool
  | [], _ => true
  | [c], text =>
    if c = 36 then text.isEmpty
    else match text with
      | [] => false
      | t :: _ => c == 46 || c == t
  | c :: d :: re, text =>
    if d = 42 then matchstar (matchhere re) c text
    else match text with
      | [] => false
      | t :: text => (c == 46 || c == t) && matchhere (d :: re) text

/-- The loop of `match`: the pattern at each place of the text, the empty one at its end included -/
def search (re : List UInt8) : List UInt8 → Bool
  | [] => matchhere re []
  | t :: text => matchhere re (t :: text) || search re text

/-- `match` -/
def matchLine (re text : List UInt8) : Bool :=
  match re with
  | 94 :: re => matchhere re text
  | re => search re text

/-! ### The languages -/

/-- A character of a pattern, or a character with a star -/
inductive Piece
  | one (c : UInt8)
  | star (c : UInt8)

/-- The pieces of a pattern, and whether there is a `$` at its end -/
def pieces : List UInt8 → List Piece × Bool
  | [] => ([], false)
  | [c] => if c = 36 then ([], true) else ([.one c], false)
  | c :: d :: re =>
    if d = 42 then (.star c :: (pieces re).1, (pieces re).2)
    else (.one c :: (pieces (d :: re)).1, (pieces (d :: re)).2)

/-- One character: a point stands for each. -/
def single (c : UInt8) : Language UInt8 := {x | ∃ t, x = [t] ∧ (c = 46 ∨ c = t)}

def Piece.language : Piece → Language UInt8
  | .one c => single c
  | .star c => (single c)∗

/-- What may follow on a pattern -/
def tail (atEnd : Bool) : Language UInt8 := if atEnd then 1 else ⊤

/-- The texts that begin with the pattern -/
def here (re : List UInt8) : Language UInt8 :=
  ((pieces re).1.map Piece.language).prod * tail (pieces re).2

/-- **What a pattern stands for** -/
def language : List UInt8 → Language UInt8
  | 94 :: re => here re
  | re => ⊤ * here re

variable {c d t : UInt8} {re text : List UInt8} {l : Language UInt8}

theorem nil_notMem_single_mul : [] ∉ single c * l := by
  rw [Language.mem_mul]
  rintro ⟨a, ⟨t, rfl, -⟩, b, -, heq⟩
  cases heq

theorem cons_mem_single_mul : t :: text ∈ single c * l ↔ (c = 46 ∨ c = t) ∧ text ∈ l := by
  rw [Language.mem_mul]
  constructor
  · rintro ⟨a, ⟨t', rfl, h⟩, b, hb, heq⟩
    cases heq
    exact ⟨h, hb⟩
  · rintro ⟨h, htext⟩
    exact ⟨[t], ⟨t, rfl, h⟩, text, htext, rfl⟩

/-- A star: nothing of it, or one more -/
theorem mem_kstar_mul : text ∈ (single c)∗ * l ↔ text ∈ l ∨ text ∈ single c * ((single c)∗ * l) := by
  rw [← mul_assoc, ← Language.mem_add]
  nth_rewrite 1 [← Language.one_add_self_mul_kstar_eq_kstar]
  rw [add_mul, one_mul]

theorem matchstar_iff {f : List UInt8 → Bool} (hf : ∀ text, f text = true ↔ text ∈ l) :
    matchstar f c text = true ↔ text ∈ (single c)∗ * l := by
  induction text with
  | nil =>
    rw [matchstar, hf, mem_kstar_mul]
    exact ⟨.inl, fun h => h.resolve_right nil_notMem_single_mul⟩
  | cons t text ih =>
    rw [matchstar, mem_kstar_mul, cons_mem_single_mul, ← ih, ← hf]
    simp only [Bool.or_eq_true, Bool.and_eq_true, beq_iff_eq]
    rw [or_comm (a := t = c), eq_comm (a := t)]

theorem mem_top (text : List UInt8) : text ∈ (⊤ : Language UInt8) := trivial

theorem here_cons (p : Piece) (ps : List Piece) (b : Bool) :
    (((p :: ps).map Piece.language).prod * tail b) = p.language * ((ps.map Piece.language).prod * tail b) := by
  rw [List.map_cons, List.prod_cons, mul_assoc]

/-- **`matchhere`** -/
theorem matchhere_iff : matchhere re text = true ↔ text ∈ here re := by
  unfold here
  induction re using pieces.induct generalizing text with
  | case1 => simp [matchhere, pieces, tail, mem_top]
  | case2 => simp [matchhere, pieces, tail, Language.mem_one]
  | case3 c hc =>
    rw [pieces, if_neg hc, here_cons, List.map_nil, List.prod_nil, one_mul]
    unfold matchhere
    rw [if_neg hc]
    cases text with
    | nil => exact ⟨nofun, fun h => absurd h nil_notMem_single_mul⟩
    | cons t text =>
      rw [Piece.language, cons_mem_single_mul]
      simp [tail, mem_top]
  | case4 c re ih =>
    rw [pieces, if_pos rfl, here_cons]
    unfold matchhere
    rw [if_pos rfl]
    exact matchstar_iff fun text => ih
  | case5 c d re hd ih =>
    rw [pieces, if_neg hd, here_cons]
    unfold matchhere
    rw [if_neg hd]
    cases text with
    | nil => exact ⟨nofun, fun h => absurd h nil_notMem_single_mul⟩
    | cons t text =>
      rw [Piece.language, cons_mem_single_mul, ← ih]
      simp

/-- Any text before -/
theorem cons_mem_top_mul : t :: text ∈ (⊤ : Language UInt8) * l ↔ t :: text ∈ l ∨ text ∈ ⊤ * l := by
  simp only [Language.mem_mul]
  constructor
  · rintro ⟨a, -, b, hb, heq⟩
    cases a with
    | nil => exact .inl (heq ▸ hb)
    | cons t' a =>
      cases heq
      exact .inr ⟨a, mem_top a, b, hb, rfl⟩
  · rintro (h | ⟨a, -, b, hb, rfl⟩)
    · exact ⟨[], mem_top [], _, h, rfl⟩
    · exact ⟨t :: a, mem_top _, b, hb, rfl⟩

theorem search_iff : search re text = true ↔ text ∈ (⊤ : Language UInt8) * here re := by
  induction text with
  | nil =>
    rw [search, matchhere_iff, Language.mem_mul]
    constructor
    · exact fun h => ⟨[], mem_top [], [], h, rfl⟩
    · rintro ⟨a, -, b, hb, heq⟩
      rwa [(List.append_eq_nil_iff.1 heq).2] at hb
  | cons t text ih => rw [search, Bool.or_eq_true, ih, matchhere_iff, cons_mem_top_mul]

/-- **`match` decides the language of the pattern.** -/
theorem matchLine_iff (re text : List UInt8) : matchLine re text = true ↔ text ∈ language re := by
  unfold matchLine language
  split
  · exact matchhere_iff
  · exact search_iff

end Grep

end OperatingSystems

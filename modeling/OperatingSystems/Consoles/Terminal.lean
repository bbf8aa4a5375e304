import OperatingSystems.Consoles.Console
import OperatingSystems.Queues.Counters
import Mathlib.Data.List.Basic

/-!
# The terminal

What the buffer of the console is for: lines that can be read, and a line that is being edited.

* `Terminal` : **the abstract state**, with `key` and `read`.
* `Refines` : the cells between the indices hold the two lists.
* `Refines.key`, `Refines.readLoop` : **the code does with the cells what the terminal does with the lists**.
-/

namespace OperatingSystems

namespace Consoles

open Queues

/-- What can be read, and the line that is being edited -/
structure Terminal where
  unread : List UInt8
  line : List UInt8

namespace Terminal

/-- The room that is taken -/
def size (t : Terminal) : ℕ := t.unread.length + t.line.length

/-- A key: it edits the line, or ends it; without room it is not taken. -/
def key (t : Terminal) (c : UInt8) : Terminal × List Shown × Bool :=
  if c = C 'P' then (t, [], false)
  else if c = C 'U' then ({ t with line := [] }, .replicate t.line.length .backspace, false)
  else if c = C 'H' ∨ c = 0x7f then
    ({ t with line := t.line.dropLast }, if t.line = [] then [] else [.backspace], false)
  else if c ≠ 0 ∧ t.size < INPUT_BUF then
    let c := if c = 13 then newline else c
    if c = newline ∨ c = C 'D' ∨ t.size + 1 = INPUT_BUF then
      ({ unread := t.unread ++ (t.line ++ [c]), line := [] }, [.char c], true)
    else ({ t with line := t.line ++ [c] }, [.char c], false)
  else (t, [], false)

/-- Reading: up to the end of a line, a Control-D, or the number of characters that was asked for -/
def read (line : List UInt8) : List UInt8 → List UInt8 → ℕ → Terminal × List UInt8 × Outcome
  | unread, dst, 0 => (⟨unread, line⟩, dst, .done)
  | [], dst, n + 1 => (⟨[], line⟩, dst, .wait (n + 1))
  | c :: unread, dst, n + 1 =>
    if c = C 'D' then if dst ≠ [] then (⟨c :: unread, line⟩, dst, .done) else (⟨unread, line⟩, dst, .eof)
    else if c = newline then (⟨unread, line⟩, dst ++ [c], .done)
    else read line unread (dst ++ [c]) n

end Terminal

/-- The counters of the console -/
theorem fits : Fits (2 ^ 32) INPUT_BUF := ⟨by decide, by decide, by decide⟩

/-- The cells from `r` to `w` hold what can be read, and those from `w` to `e` the line. -/
structure Refines (x : Input) (t : Terminal) : Prop where
  holds : Holds (2 ^ 32) INPUT_BUF x.buf x.r x.e (t.unread ++ t.line)
  write : x.w = (x.r + t.unread.length) % 2 ^ 32
  line : newline ∉ t.line

variable {x : Input} {t : Terminal} {c : UInt8} {l u dst : List UInt8} {n : ℕ}

namespace Refines

/-- The cells up to the write index -/
theorem unread (h : Refines x t) : Holds (2 ^ 32) INPUT_BUF x.buf x.r x.w t.unread where
  lt := h.holds.lt
  back := h.write
  room := by
    have hroom := h.holds.room
    rw [List.length_append] at hroom
    omega
  cell i c hi := by
    refine h.holds.cell i c ?_
    rw [List.getElem?_append_left (List.getElem?_eq_some_iff.1 hi).1, hi]

/-- The cells behind the write index -/
theorem edited (h : Refines x t) : Holds (2 ^ 32) INPUT_BUF x.buf x.w x.e t.line where
  lt := h.unread.back_lt
  back := by
    rw [h.write, Nat.mod_add_mod, h.holds.back, List.length_append, Nat.add_assoc]
  room := by
    have hroom := h.holds.room
    rw [List.length_append] at hroom
    omega
  cell i c hi := by
    rw [h.write, ← Nat.mod_mod_of_dvd _ fits.dvd, Nat.mod_add_mod, Nat.mod_mod_of_dvd _ fits.dvd, Nat.add_assoc]
    refine h.holds.cell _ c ?_
    rw [List.getElem?_append_right (Nat.le_add_right _ _), Nat.add_sub_cancel_left, hi]

theorem size_eq (h : Refines x t) : (x.e + 2 ^ 32 - x.r) % 2 ^ 32 = t.size := by
  rw [h.holds.length fits, List.length_append]
  rfl

theorem size_le (h : Refines x t) : t.size ≤ INPUT_BUF := by
  have hroom := h.holds.room
  rwa [List.length_append] at hroom

/-! ### Keys -/

theorem edited_iff (h : Refines x t) : x.e ≠ x.w ↔ t.line ≠ [] := by
  rw [ne_comm, ne_eq, ne_eq, h.edited.empty_iff fits]

theorem erase (h : Refines x t) (hline : t.line = l ++ [c]) : Refines x.erase ⟨t.unread, l⟩ := by
  have hlast : t.unread ++ t.line = t.unread ++ l ++ [c] := by rw [hline, List.append_assoc]
  have hholds := h.holds.dropLast fits hlast
  have hwrite := h.write
  unfold Input.erase
  exact ⟨hholds, hwrite, fun hmem => h.line (hline ▸ List.mem_append_left _ hmem)⟩

/-- Control-U: the line holds no newline, so all of it goes. -/
theorem killLine (h : Refines x t) :
    Refines (x.killLine t.line.length).1 ⟨t.unread, []⟩ ∧
      (x.killLine t.line.length).2 = .replicate t.line.length .backspace := by
  obtain ⟨u, l⟩ := t
  induction l using List.reverseRecOn generalizing x with
  | nil => exact ⟨h, rfl⟩
  | append_singleton l c ih =>
    have hedit : x.e ≠ x.w := h.edited_iff.2 (List.append_ne_nil_of_right_ne_nil _ (List.cons_ne_nil _ _))
    have hlast : x.buf ((x.e + 2 ^ 32 - 1) % 2 ^ 32 % INPUT_BUF) ≠ newline := by
      rw [h.edited.last_cell fits rfl]
      exact fun heq => h.line (heq ▸ List.mem_append_right _ List.mem_cons_self)
    obtain ⟨hrefines, hshown⟩ := ih (h.erase rfl)
    rw [List.length_append, List.length_singleton, Input.killLine, if_pos ⟨hedit, hlast⟩]
    refine ⟨hrefines, ?_⟩
    simp only [hshown, List.replicate_succ]

theorem put (h : Refines x t) (hsize : t.size < INPUT_BUF) (hc : c ≠ newline) :
    Refines (x.put c) ⟨t.unread, t.line ++ [c]⟩ where
  holds := by
    have hpush := h.holds.push fits (by rwa [List.length_append]) c
    rwa [List.append_assoc] at hpush
  write := h.write
  line hmem := (List.mem_append.1 hmem).elim h.line fun hlast => hc (List.mem_singleton.1 hlast).symm

/-- The line ends, and can be read. -/
theorem commit (h : Refines x t) (hsize : t.size < INPUT_BUF) (c : UInt8) :
    Refines { x.put c with w := (x.put c).e } ⟨t.unread ++ (t.line ++ [c]), []⟩ where
  holds := by
    have hpush := h.holds.push fits (by rwa [List.length_append]) c
    rwa [List.append_assoc, ← List.append_nil (t.unread ++ _)] at hpush
  write := by
    have hpush := h.holds.push fits (by rwa [List.length_append]) c
    rw [List.append_assoc] at hpush
    exact hpush.back
  line := List.not_mem_nil

/-- The buffer has just become full. -/
theorem full_iff (h : Refines x t) (hsize : t.size < INPUT_BUF) (c : UInt8) :
    (x.put c).e = ((x.put c).r + INPUT_BUF) % 2 ^ 32 ↔ t.size + 1 = INPUT_BUF := by
  have hpush := h.holds.push fits (by rwa [List.length_append]) c
  rw [Input.put, hpush.full_iff fits, List.length_append, List.length_append]
  rfl

/-- **A key** -/
theorem key (h : Refines x t) (c : UInt8) :
    Refines (x.key c).1 (t.key c).1 ∧ (x.key c).2 = (t.key c).2 := by
  unfold Input.key Terminal.key
  rw [h.size_eq]
  by_cases hp : c = C 'P'
  · rw [if_pos hp, if_pos hp]
    exact ⟨h, rfl⟩
  by_cases hu : c = C 'U'
  · obtain ⟨hrefines, hshown⟩ := h.killLine
    rw [if_neg hp, if_neg hp, if_pos hu, if_pos hu, h.edited.length fits]
    exact ⟨hrefines, congrArg (·, false) hshown⟩
  by_cases hh : c = C 'H' ∨ c = 0x7f
  · rw [if_neg hp, if_neg hp, if_neg hu, if_neg hu, if_pos hh, if_pos hh]
    obtain hnil | ⟨l, d, hline⟩ := List.eq_nil_or_concat' t.line
    · rw [if_neg (not_not.2 ((h.edited.empty_iff fits).2 hnil).symm), if_pos hnil]
      obtain ⟨u, l⟩ := t
      subst hnil
      exact ⟨h, rfl⟩
    · have hne : t.line ≠ [] := by rw [hline]; exact List.append_ne_nil_of_right_ne_nil _ (List.cons_ne_nil _ _)
      rw [if_pos (h.edited_iff.2 hne), if_neg hne]
      refine ⟨?_, rfl⟩
      rw [hline, List.dropLast_concat]
      exact h.erase hline
  rw [if_neg hp, if_neg hp, if_neg hu, if_neg hu, if_neg hh, if_neg hh]
  by_cases hroom : c ≠ 0 ∧ t.size < INPUT_BUF
  · rw [if_pos hroom, if_pos hroom]
    simp only [h.full_iff hroom.2]
    generalize (if c = 13 then newline else c) = d
    split_ifs with hend
    · exact ⟨h.commit hroom.2 d, rfl⟩
    · exact ⟨h.put hroom.2 fun heq => hend (.inl heq), rfl⟩
  · rw [if_neg hroom, if_neg hroom]
    exact ⟨h, rfl⟩

/-! ### Reading -/

theorem next_unread (h : Refines x t) : { x.next with r := (x.next.r + 2 ^ 32 - 1) % 2 ^ 32 } = x := by
  have hlt := h.holds.lt
  have hr : ((x.r + 1) % 2 ^ 32 + 2 ^ 32 - 1) % 2 ^ 32 = x.r := by omega
  simp only [Input.next, hr]

/-- **The loop of `consoleread`** -/
theorem readLoop (h : Refines x ⟨u, l⟩) (dst : List UInt8) (n : ℕ) :
    Refines (x.readLoop dst n).1 (Terminal.read l u dst n).1 ∧
      (x.readLoop dst n).2 = (Terminal.read l u dst n).2 := by
  induction n generalizing x u dst with
  | zero => cases u <;> exact ⟨h, rfl⟩
  | succ n ih =>
    unfold Input.readLoop
    cases u with
    | nil =>
      rw [if_pos ((h.unread.empty_iff fits).2 rfl)]
      exact ⟨h, rfl⟩
    | cons c u =>
      have hnext : Refines x.next ⟨u, l⟩ := ⟨h.holds.pop fits, (h.unread.pop fits).back, h.line⟩
      rw [if_neg fun heq => List.cons_ne_nil _ _ ((h.unread.empty_iff fits).1 heq), h.unread.first_cell,
        Terminal.read]
      simp only
      split_ifs with hd hdst hnl
      · refine ⟨?_, rfl⟩
        rw [h.next_unread]
        exact h
      · exact ⟨hnext, rfl⟩
      · exact ⟨hnext, rfl⟩
      · exact ih hnext _

end Refines

end Consoles

end OperatingSystems

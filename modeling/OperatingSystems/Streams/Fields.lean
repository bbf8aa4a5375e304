import Mathlib.Data.List.TakeWhile

/-!
# Fields

The fields of a sequence are its longest nonempty parts without a delimiter.

* `fields p s` : the fields of `s`, where `p` holds of the delimiters.
* `fields_append_gap` : a gap of delimiters separates the fields on its two sides.
* `fields_eq_cons` : the first field, and those of what follows it.
* `flatMap_fields` : fields of fields are the fields for both kinds of delimiters.
-/

namespace OperatingSystems

namespace Streams

variable {α : Type*} {p q : α → Bool} {s t w gap : List α} {a d : α}

/-- The longest nonempty parts of `s` without a delimiter. -/
def fields (p : α → Bool) (s : List α) : List (List α) := (s.splitOnP p).filter (· ≠ [])

@[simp] theorem fields_nil (p : α → Bool) : fields p [] = [] := rfl

/-- A delimiter separates the fields on its two sides. -/
theorem fields_append_cons (s t : List α) (hd : p d) :
    fields p (s ++ d :: t) = fields p s ++ fields p t := by
  rw [fields, List.splitOnP_append_cons s t hd, List.filter_append]
  rfl

theorem fields_cons_of_delimiter (t : List α) (hd : p d) : fields p (d :: t) = fields p t :=
  fields_append_cons [] t hd

/-- A nonempty sequence without a delimiter is one field. -/
theorem fields_of_forall_not (hw : w ≠ []) (h : ∀ a ∈ w, p a = false) : fields p w = [w] := by
  rw [fields, List.splitOnP_eq_singleton h, List.filter_cons_of_pos (by simpa using hw),
    List.filter_nil]

theorem fields_append_of_delimiters (t : List α) (h : ∀ a ∈ gap, p a) :
    fields p (gap ++ t) = fields p t := by
  induction gap with
  | nil => rfl
  | cons d gap ih =>
    rw [List.cons_append, fields_cons_of_delimiter _ (h d List.mem_cons_self)]
    exact ih fun a ha => h a (List.mem_cons_of_mem d ha)

theorem fields_of_delimiters (h : ∀ a ∈ gap, p a) : fields p gap = [] := by
  simpa using fields_append_of_delimiters [] h

/-- A gap of delimiters separates the fields on its two sides. -/
theorem fields_append_gap (s t : List α) (hgap : gap ≠ []) (h : ∀ a ∈ gap, p a) :
    fields p (s ++ (gap ++ t)) = fields p s ++ fields p t := by
  obtain ⟨d, gap, rfl⟩ := List.exists_cons_of_ne_nil hgap
  rw [List.cons_append, fields_append_cons _ _ (h d List.mem_cons_self),
    fields_append_of_delimiters t fun a ha => h a (List.mem_cons_of_mem d ha)]

/-- A sequence has a delimiter, or is empty, or is a field. -/
theorem fields_induction {motive : List α → Prop}
    (nil : motive [])
    (field : ∀ w, w ≠ [] → (∀ a ∈ w, p a = false) → motive w)
    (split : ∀ s d t, p d → motive s → motive t → motive (s ++ d :: t)) (s : List α) :
    motive s := by
  induction hn : s.length using Nat.strong_induction_on generalizing s with
  | _ n ih =>
    by_cases h : ∃ d ∈ s, p d
    · obtain ⟨d, hd, hpd⟩ := h
      obtain ⟨s₁, s₂, rfl⟩ := List.append_of_mem hd
      rw [List.length_append, List.length_cons] at hn
      exact split s₁ d s₂ hpd (ih _ (by omega) s₁ rfl) (ih _ (by omega) s₂ rfl)
    · by_cases hs : s = []
      · exact hs ▸ nil
      · exact field s hs fun a ha => by simpa using fun hp => h ⟨a, ha, hp⟩

/-- Everything but the delimiters is in a field. -/
theorem mem_fields (s : List α) (ha : a ∈ s) (hpa : p a = false) : ∃ w ∈ fields p s, a ∈ w := by
  induction s using fields_induction (p := p) with
  | nil => cases ha
  | field w hw h => exact ⟨w, by simp [fields_of_forall_not hw h], ha⟩
  | split s d t hd ihs iht =>
    rw [fields_append_cons s t hd]
    rcases List.mem_append.1 ha with ha | ha
    · obtain ⟨w, hw, haw⟩ := ihs ha
      exact ⟨w, List.mem_append_left _ hw, haw⟩
    · rcases List.mem_cons.1 ha with rfl | ha
      · exact absurd hd (by simp [hpa])
      · obtain ⟨w, hw, haw⟩ := iht ha
        exact ⟨w, List.mem_append_right _ hw, haw⟩

/-- A field has only what the sequence has. -/
theorem mem_of_mem_fields (s : List α) (hw : w ∈ fields p s) (ha : a ∈ w) : a ∈ s := by
  induction s using fields_induction (p := p) with
  | nil => cases hw
  | field v hv h =>
    rw [fields_of_forall_not hv h, List.mem_singleton] at hw
    exact hw ▸ ha
  | split s d t hd ihs iht =>
    rw [fields_append_cons s t hd, List.mem_append] at hw
    rcases hw with hw | hw
    · exact List.mem_append_left _ (ihs hw)
    · exact List.mem_append_right _ (List.mem_cons_of_mem d (iht hw))

theorem fields_congr (s : List α) (h : ∀ a ∈ s, p a = q a) : fields p s = fields q s := by
  induction s using fields_induction (p := p) with
  | nil => rfl
  | field w hw hp =>
    rw [fields_of_forall_not hw hp,
      fields_of_forall_not hw fun a ha => (h a ha).symm.trans (hp a ha)]
  | split s d t hd ihs iht =>
    have hqd : q d := (h d (by simp)).symm.trans hd
    rw [fields_append_cons s t hd, fields_append_cons s t hqd,
      ihs fun a ha => h a (List.mem_append_left _ ha),
      iht fun a ha => h a (List.mem_append_right _ (List.mem_cons_of_mem d ha))]

/-- Fields of fields are the fields for both kinds of delimiters. -/
theorem flatMap_fields (s : List α) :
    (fields p s).flatMap (fields q) = fields (fun a => p a || q a) s := by
  induction s using fields_induction (p := p) with
  | nil => rfl
  | field w hw hp =>
    rw [fields_of_forall_not hw hp, List.flatMap_singleton]
    exact fields_congr w fun a ha => by rw [hp a ha, Bool.false_or]
  | split s d t hd ihs iht =>
    have hor : (p d || q d) = true := by rw [hd, Bool.true_or]
    rw [fields_append_cons s t hd, List.flatMap_append, ihs, iht]
    exact (fields_append_cons s t hor).symm

/-- Skipping stops at an element that is not skipped. -/
theorem not_of_dropWhile_eq_cons (h : s.dropWhile p = d :: t) : p d = false := by
  have hne : s.dropWhile p ≠ [] := by simp [h]
  simpa [h] using List.head_dropWhile_not p hne

theorem fields_dropWhile (p : α → Bool) (s : List α) : fields p (s.dropWhile p) = fields p s := by
  calc fields p (s.dropWhile p)
      = fields p (s.takeWhile p ++ s.dropWhile p) :=
        (fields_append_of_delimiters _ fun a ha => List.mem_takeWhile_imp ha).symm
    _ = fields p s := by rw [List.takeWhile_append_dropWhile]

/-- The first field, and those of what follows it. -/
theorem fields_eq_cons (h : s.dropWhile p = d :: t) :
    fields p s = (d :: t.takeWhile fun a => !p a) ::
      fields p (t.dropWhile fun a => !p a).tail := by
  have hd : p d = false := not_of_dropWhile_eq_cons h
  have hfield : ∀ a ∈ d :: t.takeWhile (fun a => !p a), p a = false := by
    rintro a (_ | ⟨_, ha⟩)
    · exact hd
    · simpa using List.mem_takeWhile_imp ha
  have hsplit : d :: t = (d :: t.takeWhile fun a => !p a) ++ t.dropWhile fun a => !p a := by
    rw [List.cons_append, List.takeWhile_append_dropWhile]
  rw [← fields_dropWhile, h, hsplit]
  cases hrest : t.dropWhile fun a => !p a with
  | nil => rw [List.append_nil, fields_of_forall_not (List.cons_ne_nil _ _) hfield]; rfl
  | cons e rest =>
    have he : p e := by simpa using not_of_dropWhile_eq_cons hrest
    rw [fields_append_cons _ _ he, fields_of_forall_not (List.cons_ne_nil _ _) hfield]
    rfl

end Streams

end OperatingSystems

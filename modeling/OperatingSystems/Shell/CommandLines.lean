import OperatingSystems.Shell.Parsing

/-!
# The command lines of the shell

Lines of words, with a redirection or not and with a final `&` or not, and what `parseLine` makes of
them.

* `CommandLine` : a command line; `CommandLine.Passes` says what `runCommand` should get for it.
* `passes_iff` : it gets that exactly when there is no final `&` and no tab before a space in the gap
  behind the `>`.
* `parses_iff` : **the lines that the shell parses**, blank lines included.
* `not_parses_background` : a command with a final `&` gets an empty argument.
-/

namespace OperatingSystems

namespace Shell

open Streams

/-- A word of a command line. -/
structure Word where
  bytes : List UInt8
  nonempty : bytes ≠ []
  /-- No zero, tab, end of line, space, `&` or `>`. -/
  plain : ∀ a ∈ bytes, a ∉ [0, 9, 10, 32, 38, 62]

/-- Spaces and tabs between words. -/
structure Gap where
  bytes : List UInt8
  nonempty : bytes ≠ []
  blank : ∀ a ∈ bytes, a = 32 ∨ a = 9

/-- A command line. -/
structure CommandLine where
  first : Word
  more : List (Gap × Word)
  /-- `> f`, with the gaps before and behind the `>`. -/
  redirect : Option (Gap × Gap × Word)
  /-- The final `&`, with the gap before it. -/
  amp : Option Gap

namespace CommandLine

variable (c : CommandLine)

def words : List (List UInt8) := c.first.bytes :: c.more.map fun gw => gw.2.bytes

/-- The bytes of `w1 ... wk`. -/
def head : List UInt8 := c.first.bytes ++ c.more.flatMap fun gw => gw.1.bytes ++ gw.2.bytes

/-- The bytes of the final `&`. -/
def tail : List UInt8 := c.amp.elim [] fun g => g.bytes ++ [38]

/-- The bytes of the line. -/
def text : List UInt8 :=
  match c.redirect with
  | none => c.head ++ c.tail
  | some (g, g', f) => (c.head ++ g.bytes) ++ 62 :: (g'.bytes ++ (f.bytes ++ c.tail))

/-- The arguments that `runCommand` should get. -/
def arguments : List (List UInt8) :=
  (if isFilePython c.first.bytes then [python] else []) ++ c.words

/-- The file of the redirection. -/
def file : List (List UInt8) := c.redirect.elim [] fun r => [r.2.2.bytes]

end CommandLine

/-- The call passes the words, the redirection and the `&` of the line, and executes the words. -/
structure CommandLine.Passes (c : CommandLine) (call : Call) : Prop where
  size_le : call.size ≤ call.args.length
  args : call.args.take call.size = c.arguments ++ c.file
  redirect : call.redirect = c.redirect.isSome
  background : call.background = c.amp.isSome
  argv : call.argv = c.arguments

/-- No tab stands before a space. -/
def Gap.SpacesFirst (g : Gap) : Prop := ∀ u v, g.bytes = u ++ 32 :: v → 9 ∉ u

/-! ### The bytes of a line -/

theorem Gap.mem (g : Gap) {a : UInt8} (ha : a ∈ g.bytes) : a ∉ [0, 10, 38, 62] := by
  rcases g.blank a ha with rfl | rfl <;> decide

theorem Word.mem (w : Word) {a : UInt8} (ha : a ∈ w.bytes) : a ∉ [0, 10, 38, 62] := by
  have hplain := w.plain a ha
  simp only [List.mem_cons, List.not_mem_nil, or_false, not_or] at hplain ⊢
  tauto

theorem Word.not_blank (w : Word) : ∀ a ∈ w.bytes, isBlank a = false := by
  intro a ha
  have hplain := w.plain a ha
  rw [← Bool.not_eq_true, isBlank_iff]
  rintro (rfl | rfl) <;> simp at hplain

theorem Gap.isBlank (g : Gap) : ∀ a ∈ g.bytes, Shell.isBlank a := fun a ha =>
  isBlank_iff.2 (g.blank a ha)

theorem Word.fields (w : Word) : Streams.fields Shell.isBlank w.bytes = [w.bytes] :=
  fields_of_forall_not w.nonempty w.not_blank

/-- Words behind gaps are added to the fields. -/
theorem fields_more (more : List (Gap × Word)) (s : List UInt8) :
    fields isBlank (s ++ more.flatMap fun gw => gw.1.bytes ++ gw.2.bytes) =
      fields isBlank s ++ more.map fun gw => gw.2.bytes := by
  induction more generalizing s with
  | nil => simp
  | cons gw more ih =>
    rw [List.flatMap_cons, List.append_assoc, fields_append_gap _ _ gw.1.nonempty gw.1.isBlank, ih,
      gw.2.fields, List.map_cons, List.singleton_append]

namespace CommandLine

variable {c : CommandLine}

theorem fields_head (c : CommandLine) : fields isBlank c.head = c.words := by
  rw [head, fields_more, c.first.fields]
  rfl

/-- The fields of the final `&`. -/
def ampersand (c : CommandLine) : List (List UInt8) := c.amp.elim [] fun _ => [[38]]

theorem fields_tail (c : CommandLine) (s : List UInt8) :
    fields isBlank (s ++ c.tail) = fields isBlank s ++ c.ampersand := by
  unfold tail ampersand
  cases c.amp with
  | none => simp
  | some g => exact fields_append_gap _ _ g.nonempty g.isBlank

/-- The arguments of a line whose `>` has been blanked. -/
theorem fields_blanked (c : CommandLine) (g g' : Gap) (s : List UInt8) :
    fields isBlank ((c.head ++ g.bytes) ++ 32 :: (g'.bytes ++ s)) =
      c.words ++ fields isBlank s := by
  have h32 : isBlank 32 := isBlank_iff.2 (Or.inl rfl)
  rw [fields_append_cons _ _ h32, fields_append_of_delimiters s g'.isBlank]
  congr 1
  simpa [fields_head] using fields_append_gap c.head [] g.nonempty g.isBlank

theorem mem_head {a : UInt8} (ha : a ∈ c.head) : a ∉ [0, 10, 38, 62] := by
  rcases List.mem_append.1 ha with ha | ha
  · exact c.first.mem ha
  · obtain ⟨gw, -, ha⟩ := List.mem_flatMap.1 ha
    rcases List.mem_append.1 ha with ha | ha
    · exact gw.1.mem ha
    · exact gw.2.mem ha

theorem mem_tail {a : UInt8} (ha : a ∈ c.tail) : a ∉ [0, 10, 62] := by
  unfold tail at ha
  cases hamp : c.amp with
  | none => simp [hamp] at ha
  | some g =>
    simp only [hamp, Option.elim_some, List.mem_append, List.mem_singleton] at ha
    rcases ha with ha | rfl
    · have := g.mem ha
      simp only [List.mem_cons, List.not_mem_nil, or_false, not_or] at this ⊢
      tauto
    · decide

theorem text_none (h : c.redirect = none) : c.text = c.head ++ c.tail := by rw [text, h]

theorem text_some {g g' : Gap} {f : Word} (h : c.redirect = some (g, g', f)) :
    c.text = (c.head ++ g.bytes) ++ 62 :: (g'.bytes ++ (f.bytes ++ c.tail)) := by
  rw [text, h]

theorem mem_text {a : UInt8} (ha : a ∈ c.text) : a ∉ [0, 10] := by
  have key : a ∈ c.head ∨ a ∈ c.tail ∨ (∃ g : Gap, a ∈ g.bytes) ∨ (∃ f : Word, a ∈ f.bytes) ∨
      a = 62 := by
    cases h : c.redirect with
    | none =>
      rw [text_none h, List.mem_append] at ha
      tauto
    | some r =>
      obtain ⟨g, g', f⟩ := r
      simp only [text_some h, List.mem_append, List.mem_cons] at ha
      rcases ha with (ha | ha) | rfl | ha | ha | ha
      · exact Or.inl ha
      · exact Or.inr (Or.inr (Or.inl ⟨g, ha⟩))
      · exact Or.inr (Or.inr (Or.inr (Or.inr rfl)))
      · exact Or.inr (Or.inr (Or.inl ⟨g', ha⟩))
      · exact Or.inr (Or.inr (Or.inr (Or.inl ⟨f, ha⟩)))
      · exact Or.inr (Or.inl ha)
  rcases key with ha | ha | ⟨g, ha⟩ | ⟨f, ha⟩ | rfl
  · exact fun h => mem_head ha (by simp at h ⊢; tauto)
  · exact fun h => mem_tail ha (by simp at h ⊢; tauto)
  · exact fun h => g.mem ha (by simp at h ⊢; tauto)
  · exact fun h => f.mem ha (by simp at h ⊢; tauto)
  · decide

theorem text_ne_nil (c : CommandLine) : c.text ≠ [] := by
  have hhead : c.head ≠ [] := fun h => c.first.nonempty (List.append_eq_nil_iff.1 h).1
  cases h : c.redirect with
  | none => exact text_none h ▸ fun hc => hhead (List.append_eq_nil_iff.1 hc).1
  | some r =>
    obtain ⟨g, g', f⟩ := r
    rw [text_some h]
    simp

/-! ### Lines that are passed on -/

/-- Every argument is a word of the line. -/
theorem notMem_of_mem_args {w : List UInt8} (hw : w ∈ c.words ++ c.file) : 38 ∉ w := by
  rcases List.mem_append.1 hw with hw | hw
  · rcases List.mem_cons.1 hw with rfl | hw
    · exact fun h => absurd (c.first.mem h) (by decide)
    · obtain ⟨gw, -, rfl⟩ := List.mem_map.1 hw
      exact fun h => absurd (gw.2.mem h) (by decide)
  · unfold file at hw
    cases hr : c.redirect with
    | none => simp [hr] at hw
    | some r =>
      rw [hr, Option.elim_some, List.mem_singleton] at hw
      exact hw ▸ fun h => absurd (r.2.2.mem h) (by decide)

/-- The words alone, or with a file, are passed on. -/
theorem passes_of_fields (hamp : c.amp = none) {view : List UInt8}
    (h : fields isBlank view = c.words ++ c.file) :
    ∃ call, runArgs view c.redirect.isSome = .run call ∧ c.Passes call := by
  have hne : c.words ++ c.file ≠ [] := fun hc => List.cons_ne_nil _ _ (List.append_eq_nil_iff.1 hc).1
  obtain ⟨args, last, hargs⟩ := (List.eq_nil_or_concat' (c.words ++ c.file)).resolve_left hne
  have hlast : 38 ∉ last := notMem_of_mem_args (c := c) (hargs ▸ by simp)
  have hrun := runArgs_of_fields c.redirect.isSome (h.trans hargs)
  rw [stripBackground_of_notMem hlast, ← hargs] at hrun
  have htake := take_callOf (le_refl (c.words ++ c.file).length) c.redirect.isSome false
  have hhead : (c.words ++ c.file).headD [] = c.first.bytes := rfl
  rw [hhead, List.take_length, ← List.append_assoc] at htake
  refine ⟨_, hrun, size_callOf_le le_rfl _ _, htake, redirect_callOf .., ?_, ?_⟩
  · rw [background_callOf, hamp]
    rfl
  · rw [Call.argv, redirect_callOf, htake]
    unfold file
    cases c.redirect with
    | none => exact List.append_nil _
    | some r => exact List.dropLast_concat

/-- A final `&` that is still there becomes an empty argument. -/
theorem nil_mem_of_ampersand {view : List UInt8} {args : List (List UInt8)} {redirect : Bool}
    {call : Call} (h : fields isBlank view = args ++ [[38]])
    (hcall : runArgs view redirect = .run call) : [] ∈ call.args.take call.size := by
  rw [runArgs_of_fields redirect h, stripBackground_ampersand] at hcall
  obtain rfl := Turn.run.inj hcall
  have hsize : args.length + 1 = (args ++ [([] : List UInt8)]).length := by simp
  rw [take_callOf (by simp), hsize, List.take_length]
  simp

/-- Without a `&` the command runs in the foreground. -/
theorem background_of_notMem {view : List UInt8} {redirect : Bool} {call : Call}
    (h : 38 ∉ view) (hcall : runArgs view redirect = .run call) : call.background = false := by
  rcases List.eq_nil_or_concat' (fields isBlank view) with hnil | ⟨args, last, hargs⟩
  · simp [runArgs, splitArgs_eq, hnil] at hcall
  · have hmem : last ∈ fields isBlank view := by simp [hargs]
    have hlast : 38 ∉ last := fun hc => h (mem_of_mem_fields view hmem hc)
    rw [runArgs_of_fields redirect hargs, stripBackground_of_notMem hlast] at hcall
    obtain rfl := Turn.run.inj hcall
    exact background_callOf ..

section

variable {g g' : Gap} {f : Word}

theorem mem_before (c : CommandLine) (g : Gap) {a : UInt8} (ha : a ∈ c.head ++ g.bytes) :
    a ∉ [0, 10, 38, 62] :=
  (List.mem_append.1 ha).elim mem_head g.mem

theorem mem_behind (c : CommandLine) (g' : Gap) (f : Word) {a : UInt8}
    (ha : a ∈ g'.bytes ++ (f.bytes ++ c.tail)) : a ∉ [0, 10, 62] := by
  rcases List.mem_append.1 ha with ha | ha
  · exact fun h => g'.mem ha (by simp at h ⊢; tauto)
  · rcases List.mem_append.1 ha with ha | ha
    · exact fun h => f.mem ha (by simp at h ⊢; tauto)
    · exact mem_tail ha

/-- The scan finds the file, whatever stands in front of it. -/
theorem exists_field (f : Word) (u v : List UInt8) :
    ∃ w ∈ fields [32].contains (u ++ (f.bytes ++ v)), w ≠ [38] := by
  obtain ⟨a, bs, hf⟩ := List.exists_cons_of_ne_nil f.nonempty
  have ha : a ∈ f.bytes := hf ▸ List.mem_cons_self
  have hplain := f.plain a ha
  have h32 : List.contains [32] a = false := by
    simp only [List.mem_cons, List.not_mem_nil, not_or] at hplain
    simpa using hplain.2.2.2.1
  obtain ⟨w, hw, haw⟩ := mem_fields (u ++ (f.bytes ++ v))
    (List.mem_append_right u (List.mem_append_left v ha)) h32
  exact ⟨w, hw, fun h => absurd (f.mem ha) (by simp [List.mem_singleton.1 (h ▸ haw)])⟩

theorem length_filter_pos {ws : List (List UInt8)} {w : List UInt8} (hw : w ∈ ws)
    (hne : w ≠ [38]) : 0 < (ws.filter (· ≠ [38])).length :=
  List.length_pos_of_mem (List.mem_filter.2 ⟨hw, decide_eq_true hne⟩)

theorem splitRedirect_text_eq (h : c.redirect = some (g, g', f)) : splitRedirect c.text =
    if 1 < ((fields [32].contains (g'.bytes ++ (f.bytes ++ c.tail))).filter (· ≠ [38])).length
    then none
    else some (cstr ((c.head ++ g.bytes) ++ 32 :: torn [32] (g'.bytes ++ (f.bytes ++ c.tail))),
      true) := by
  obtain ⟨w, hw, -⟩ := exists_field f g'.bytes c.tail
  rw [text_some h, splitRedirect_append (fun h => mem_before c g h (by decide))
    (fun h => mem_behind c g' f h (by decide)) (List.ne_nil_of_mem hw)]

/-- A gap with a tab before a space makes the scan count two words. -/
theorem splitRedirect_of_tab (h : c.redirect = some (g, g', f)) (htab : ¬ g'.SpacesFirst) :
    splitRedirect c.text = none := by
  simp only [Gap.SpacesFirst, not_forall, not_not] at htab
  obtain ⟨u, v, huv, h9⟩ := htab
  have hsplit : fields [32].contains (g'.bytes ++ (f.bytes ++ c.tail)) =
      fields [32].contains u ++ fields [32].contains (v ++ (f.bytes ++ c.tail)) := by
    rw [huv, List.append_assoc, List.cons_append, fields_append_cons _ _ (by decide)]
  obtain ⟨w, hw, h9w⟩ := mem_fields (p := [32].contains) u h9 (by decide)
  obtain ⟨w', hw', hne'⟩ := exists_field f v c.tail
  have hne : w ≠ [38] := fun h => absurd (List.mem_singleton.1 (h ▸ h9w)) (by decide)
  have hfirst := length_filter_pos hw hne
  have hsecond := length_filter_pos hw' hne'
  rw [splitRedirect_text_eq h, hsplit, List.filter_append, List.length_append, if_pos (by omega)]

/-- The line with a blank for its `>`. -/
theorem fields_whole (h : c.redirect = some (g, g', f)) :
    fields isBlank ((c.head ++ g.bytes) ++ 32 :: (g'.bytes ++ (f.bytes ++ c.tail))) =
      (c.words ++ c.file) ++ c.ampersand := by
  rw [fields_blanked, fields_tail, f.fields, ← List.append_assoc, file, h]
  rfl

/-- The `&` can only stand at the end. -/
theorem notMem_dropLast (c : CommandLine) (g' : Gap) (f : Word) :
    38 ∉ (g'.bytes ++ (f.bytes ++ c.tail)).dropLast := by
  have hg : 38 ∉ g'.bytes := fun h => g'.mem h (by decide)
  have hf : 38 ∉ f.bytes := fun h => f.mem h (by decide)
  unfold tail
  cases c.amp with
  | none =>
    intro h
    have hmem := List.mem_of_mem_dropLast h
    simp [hg, hf] at hmem
  | some g =>
    have hgap : 38 ∉ g.bytes := fun h => g.mem h (by decide)
    rw [Option.elim_some, ← List.append_assoc, ← List.append_assoc, List.dropLast_concat]
    simp [hg, hf, hgap]

theorem zero_notMem (c : CommandLine) (g g' : Gap) (f : Word) :
    0 ∉ ((c.head ++ g.bytes) ++ [32]) ++ (g'.bytes ++ (f.bytes ++ c.tail)) := by
  rintro h
  rcases List.mem_append.1 h with h | h
  · rcases List.mem_append.1 h with h | h
    · exact mem_before c g h (by decide)
    · exact absurd (List.mem_singleton.1 h) (by decide)
  · exact mem_behind c g' f h (by decide)

/-- The scan leaves the line, or a part of it without the `&`. -/
theorem fields_view (h : c.redirect = some (g, g', f)) {view : List UInt8} {r : Bool}
    (hview : splitRedirect c.text = some (view, r)) :
    fields isBlank view = (c.words ++ c.file) ++ c.ampersand ∨ 38 ∉ view := by
  rw [splitRedirect_text_eq h, List.append_cons] at hview
  split_ifs at hview
  obtain ⟨rfl, -⟩ := Prod.mk.inj (Option.some.inj hview)
  rcases cstr_torn [32] (zero_notMem c g g' f) with hc | ⟨u, v, huv, hv, hc⟩
  · rw [hc, ← List.append_cons, fields_whole h]
    exact Or.inl rfl
  · have hu : 38 ∉ u := fun hmem => by
      apply notMem_dropLast c g' f
      rw [huv, List.dropLast_append_of_ne_nil hv]
      exact List.mem_append_left _ hmem
    have hbefore : 38 ∉ c.head ++ g.bytes := fun hmem => mem_before c g hmem (by decide)
    rw [hc]
    refine Or.inr fun hmem => ?_
    rcases List.mem_append.1 hmem with hmem | hmem
    · rcases List.mem_append.1 hmem with hmem | hmem
      · exact hbefore hmem
      · exact absurd (List.mem_singleton.1 hmem) (by decide)
    · exact hu hmem

/-- After its spaces, such a gap has no space. -/
theorem notMem_dropWhile (hg : g'.SpacesFirst) (f : Word) :
    32 ∉ (g'.bytes ++ f.bytes).dropWhile [32].contains := by
  have hf : 32 ∉ f.bytes := fun h => f.plain 32 h (by decide)
  rw [List.dropWhile_append]
  split_ifs with hnil
  · exact fun h => hf ((List.dropWhile_suffix _).subset h)
  · obtain ⟨x, rest, hx⟩ := List.exists_cons_of_ne_nil fun h => hnil (List.isEmpty_iff.2 h)
    have hx32 : List.contains [32] x = false := not_of_dropWhile_eq_cons hx
    have hsplit : g'.bytes = g'.bytes.takeWhile [32].contains ++ x :: rest := by
      rw [← hx, List.takeWhile_append_dropWhile]
    have hx9 : x = 9 := by
      refine (g'.blank x (hsplit ▸ by simp)).resolve_left fun h => ?_
      simp [h] at hx32
    rw [hx]
    intro h
    rcases List.mem_append.1 h with h | h
    · rcases List.mem_cons.1 h with h | h
      · exact absurd (h.trans hx9) (by decide)
      · obtain ⟨r₁, r₂, rfl⟩ := List.append_of_mem h
        refine hg (g'.bytes.takeWhile [32].contains ++ x :: r₁) r₂ ?_ (by simp [hx9])
        rw [List.append_assoc]
        exact hsplit
    · exact hf h

theorem splitRedirect_of_spacesFirst (h : c.redirect = some (g, g', f))
    (hamp : c.amp = none) (hg : g'.SpacesFirst) : ∃ view, splitRedirect c.text = some (view, true) ∧
      fields isBlank view = c.words ++ c.file := by
  have htail : c.tail = [] := by rw [tail, hamp]; rfl
  have hone : ∀ a ∈ (g'.bytes ++ (f.bytes ++ c.tail)).dropWhile [32].contains,
      List.contains [32] a = false := by
    rw [htail, List.append_nil]
    intro a ha
    simpa using fun h32 : a = 32 => notMem_dropWhile hg f (h32 ▸ ha)
  have hcount : (fields [32].contains (g'.bytes ++ (f.bytes ++ c.tail))).length ≤ 1 := by
    rw [← fields_dropWhile]
    by_cases hnil : (g'.bytes ++ (f.bytes ++ c.tail)).dropWhile [32].contains = []
    · rw [hnil]
      exact Nat.zero_le _
    · rw [fields_of_forall_not hnil hone]
      exact le_rfl
  have hfilter := List.length_filter_le (fun w => decide (w ≠ [38]))
    (fields [32].contains (g'.bytes ++ (f.bytes ++ c.tail)))
  refine ⟨(c.head ++ g.bytes) ++ 32 :: (g'.bytes ++ (f.bytes ++ c.tail)), ?_, ?_⟩
  · rw [splitRedirect_text_eq h, if_neg (by omega), torn_of_one hone, cstr_of_notMem]
    rw [List.append_cons]
    exact zero_notMem c g g' f
  · rw [fields_whole h, ampersand, hamp]
    exact List.append_nil _

end

theorem splitRedirect_of_none (h : c.redirect = none) :
    splitRedirect c.text = some (c.text, false) := by
  apply splitRedirect_of_notMem
  rw [text_none h]
  intro h
  rcases List.mem_append.1 h with h | h
  · exact mem_head h (by decide)
  · exact mem_tail h (by decide)

theorem fields_of_none (h : c.redirect = none) :
    fields isBlank c.text = (c.words ++ c.file) ++ c.ampersand := by
  rw [text_none h, fields_tail, fields_head, file, h]
  simp

theorem nil_notMem (c : CommandLine) : [] ∉ c.arguments ++ c.file := by
  intro h
  rcases List.mem_append.1 h with h | h
  · rcases List.mem_append.1 h with h | h
    · split_ifs at h
      · exact absurd (List.mem_singleton.1 h) (by decide)
      · cases h
    · rcases List.mem_cons.1 h with h | h
      · exact c.first.nonempty h.symm
      · obtain ⟨gw, -, h⟩ := List.mem_map.1 h
        exact gw.2.nonempty h
  · unfold file at h
    cases hr : c.redirect with
    | none => simp [hr] at h
    | some r =>
      rw [hr, Option.elim_some, List.mem_singleton] at h
      exact r.2.2.nonempty h.symm

/-- With a final `&`, what `runCommand` gets is wrong. -/
theorem not_passes_of_amp (hamp : c.amp ≠ none) {view : List UInt8} {r : Bool} {call : Call}
    (hview : splitRedirect c.text = some (view, r)) (hrun : runArgs view r = .run call) :
    ¬ c.Passes call := by
  intro hp
  have hfields : fields isBlank view = (c.words ++ c.file) ++ c.ampersand ∨ 38 ∉ view := by
    cases hr : c.redirect with
    | none =>
      rw [splitRedirect_of_none hr] at hview
      obtain ⟨rfl, -⟩ := Prod.mk.inj (Option.some.inj hview)
      exact Or.inl (fields_of_none hr)
    | some r =>
      obtain ⟨g, g', f⟩ := r
      exact fields_view hr hview
  obtain ⟨g, hg⟩ := Option.ne_none_iff_exists'.1 hamp
  rcases hfields with hfields | h38
  · rw [ampersand, hg] at hfields
    exact nil_notMem c (hp.args ▸ nil_mem_of_ampersand hfields hrun)
  · have hback := hp.background
    rw [background_of_notMem h38 hrun, hg] at hback
    cases hback

/-- `runCommand` gets what it should exactly when there is no final `&` and no tab before a space
behind the `>`. -/
theorem passes_iff {nl : List UInt8} (hlen : c.text.length ≤ 512) (hnl : nl = [] ∨ nl = [10]) :
    (∃ call, parseLine (c.text ++ nl) = .run call ∧ c.Passes call) ↔
      c.amp = none ∧ ∀ r ∈ c.redirect, r.2.1.SpacesFirst := by
  have hline : (c.text ++ nl).length ≤ 513 := by
    rcases hnl with rfl | rfl <;> simp <;> omega
  rw [parseLine_eq (text_ne_nil c) (fun h => mem_text h (by decide)) hline hnl]
  constructor
  · rintro ⟨call, hrun, hp⟩
    cases hview : splitRedirect c.text with
    | none => simp [hview] at hrun
    | some vr =>
      obtain ⟨view, r⟩ := vr
      rw [hview] at hrun
      refine ⟨by_contra fun hamp => not_passes_of_amp hamp hview hrun hp, ?_⟩
      rintro ⟨g, g', f⟩ hr
      by_contra htab
      rw [splitRedirect_of_tab hr htab] at hview
      cases hview
  · rintro ⟨hamp, hg⟩
    have hampersand : c.ampersand = [] := by rw [ampersand, hamp]; rfl
    cases hr : c.redirect with
    | none =>
      have hpass := passes_of_fields hamp
        ((fields_of_none hr).trans (hampersand ▸ List.append_nil _))
      rw [splitRedirect_of_none hr]
      rwa [hr] at hpass
    | some r =>
      obtain ⟨g, g', f⟩ := r
      obtain ⟨view, hview, hfields⟩ := splitRedirect_of_spacesFirst hr hamp (hg _ hr)
      have hpass := passes_of_fields hamp hfields
      rw [hview]
      rwa [hr] at hpass

end CommandLine

/-! ### All lines -/

/-- What the shell is to parse: a command, or spaces and tabs. -/
inductive Line where
  | command (c : CommandLine) (short : c.text.length ≤ 512)
  | blank (text : List UInt8) (blank : ∀ a ∈ text, a = 32 ∨ a = 9)

/-- The bytes of the line, without its end. -/
def Line.text : Line → List UInt8
  | command c _ => c.text
  | blank text _ => text

/-- A command is passed to `runCommand`, and a blank line is skipped. -/
def Line.Parses : Line → Turn → Prop
  | command c _, turn => ∃ call, turn = .run call ∧ c.Passes call
  | blank _ _, turn => turn = .skip ∨ turn = .error

theorem parses_blank_iff {text nl : List UInt8} (hblank : ∀ a ∈ text, a = 32 ∨ a = 9)
    (hnl : nl = [] ∨ nl = [10]) (hne : text ++ nl ≠ []) :
    (parseLine (text ++ nl) = .skip ∨ parseLine (text ++ nl) = .error) ↔
      513 < (text ++ nl).length := by
  by_cases hlen : 513 < (text ++ nl).length
  · have hline : text ++ nl ≠ [10] := fun h => by simp [h] at hlen
    rw [parseLine, if_neg hline, if_pos hlen]
    exact iff_of_true (Or.inr rfl) hlen
  · have hfields : fields isBlank text = [] :=
      fields_of_delimiters fun a ha => isBlank_iff.2 (hblank a ha)
    have hnot : ∀ x : UInt8, x ≠ 32 → x ≠ 9 → x ∉ text := fun x h32 h9 hx =>
      (hblank x hx).elim h32 h9
    have hturn : parseLine (text ++ nl) = .stop ∨ parseLine (text ++ nl) = .stray := by
      by_cases hnil : text = []
      · rw [hnil, List.nil_append] at hne ⊢
        rw [hnl.resolve_left hne]
        exact Or.inl rfl
      · rw [parseLine_eq hnil (hnot 10 (by decide) (by decide)) (by omega) hnl,
          splitRedirect_of_notMem (hnot 62 (by decide) (by decide))]
        simp [runArgs, splitArgs_eq, hfields]
    refine iff_of_false ?_ hlen
    rcases hturn with h | h <;> simp [h]

/-- One space. -/
def Gap.space : Gap := ⟨[32], List.cons_ne_nil _ _, by simp⟩

/-- `"ls"` -/
def Word.ls : Word := ⟨[108, 115], List.cons_ne_nil _ _, by simp⟩

/-- `"ls > ls"` -/
def CommandLine.lsToFile : CommandLine := ⟨Word.ls, [], some (Gap.space, Gap.space, Word.ls), none⟩

/-- `"ls &"` -/
def CommandLine.lsInBackground : CommandLine := ⟨Word.ls, [], none, some Gap.space⟩

end Shell

end OperatingSystems

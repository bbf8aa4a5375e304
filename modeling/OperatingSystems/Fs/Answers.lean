import OperatingSystems.Fs.Places

/-!
# What `bmap` returns during a call

A call of `readi` or `writei` asks `bmap` for the blocks that it needs, one after the other, and only its
return value and the state are seen from outside.  Here the answers of `bmap` are collected.

* `found` : the answer of one call of `bmap`.
* `readPiece` : one iteration of the loop of `readi`, without the bytes.
* `readBmaps`, `writeBmaps`, `bmaps` : the answers during the loops and a call.
* `Answered O fs fs' l` : the inode has been extended, and the answers `l` are the blocks of their places.
* `Apart.writePiece`, `Apart.writeLoop`, `Apart.readLoop` : the parts of a call.
* `Apart.bmaps` : **a call extends its inode and gets the blocks of their places**.
-/

namespace OperatingSystems

namespace Fs

open Bytes

/-- What `bmap` returns for `bn` -/
def found (fs : Fs) (bn : ℕ) : List (ℕ × ℕ) :=
  match fs.bmap bn with
  | .ok (b, _) => [(bn, b)]
  | .error _ => []

/-- The checksum and the state after one iteration of `readi`, if it goes on -/
def readPiece (nbytes off : ℕ) (checksum1 : UInt8) (fs : Fs) : Except Stop (Option UInt8 × Fs) := do
  let (_, data, fs) ← fs.fetch (off / BSIZE)
  if fs.ip.type = .checked then do
    let checksum1 ← fs.storedChecksum (off / BSIZE) checksum1
    .ok (if checksum1 ≠ xorSum nbytes data then none else some checksum1, fs)
  else .ok (some checksum1, fs)

/-- What it returns in the loop of `readi` -/
def readBmaps (n nbytes tot off : ℕ) (checksum1 : UInt8) (fs : Fs) : List (ℕ × ℕ) :=
  if _ : tot < n then
    fs.found (off / BSIZE) ++
      match fs.readPiece nbytes off checksum1 with
      | .ok (some checksum1, fs) =>
        readBmaps n nbytes (tot + piece BSIZE off (n - tot)) (off + piece BSIZE off (n - tot))
          checksum1 fs
      | _ => []
  else []
termination_by n - tot
decreasing_by
  have := piece_pos off (show 0 < BSIZE by decide) (show 0 < n - tot by omega)
  omega

/-- What it returns in the loop of `writei` -/
def writeBmaps (src : Bytes) (n nbytes tot off : ℕ) (fs : Fs) : List (ℕ × ℕ) :=
  if _ : tot < n then
    fs.found (off / BSIZE) ++
      match fs.writePiece src nbytes (piece BSIZE off (n - tot)) tot off with
      | .ok fs =>
        writeBmaps src n nbytes (tot + piece BSIZE off (n - tot)) (off + piece BSIZE off (n - tot)) fs
      | .error _ => []
  else []
termination_by n - tot
decreasing_by
  have := piece_pos off (show 0 < BSIZE by decide) (show 0 < n - tot by omega)
  omega

/-- `readi` and `writei` return -1 at once. -/
def Refused (fs : Fs) (off n : ℕ) : Prop := off > fs.ip.size ∨ (off + n) % 2 ^ 32 < off

instance (fs : Fs) (off n : ℕ) : Decidable (fs.Refused off n) := inferInstanceAs (Decidable (_ ∨ _))

/-- What `bmap` returns during a call: the block indices and the blocks -/
def bmaps (fs : Fs) : Call → List (ℕ × ℕ)
  | .read _ off n =>
    if fs.Refused off.toNat n.toNat then []
    else readBmaps (rest fs.ip.size off.toNat n.toNat) (summed n.toNat) 0 off.toNat 0 fs
  | .write src off n =>
    if fs.Refused off.toNat n.toNat then []
    else writeBmaps src (clip off.toNat n.toNat) (summed n.toNat) 0 off.toNat fs

variable {fs fs' fs'' : Fs} {p q : Place} {O : Set ℕ} {a b bn n m tot off nbytes : ℕ} {c : UInt8}
  {src dst data : Bytes} {l l' : List (ℕ × ℕ)}

/-- The blocks of `l` are those of their places. -/
def Answers (fs : Fs) (l : List (ℕ × ℕ)) : Prop := ∀ x ∈ l, fs.blockAt (.data x.1) = some x.2

theorem Answers.append (h : Answers fs l) (h' : Answers fs l') : Answers fs (l ++ l') := by
  intro x hx
  obtain hx | hx := List.mem_append.1 hx
  · exact h x hx
  · exact h' x hx

theorem Answers.extends (h : Answers fs l) (he : Extends O fs fs') : Answers fs' l :=
  fun x hx => he.keeps _ _ (h x hx)

/-- A sequence of steps that extend the inode, and what `bmap` returned in it -/
structure Answered (O : Set ℕ) (fs fs' : Fs) (l : List (ℕ × ℕ)) : Prop where
  extends_ : Extends O fs fs'
  answers : Answers fs' l

theorem Answered.refl (h : Apart O fs) : Answered O fs fs [] := ⟨.refl h, fun _ h => absurd h List.not_mem_nil⟩

theorem Answered.append (h : Answered O fs fs' l) (h' : Answered O fs' fs'' l') :
    Answered O fs fs'' (l ++ l') :=
  ⟨h.extends_.trans h'.extends_, (h.answers.extends h'.extends_).append h'.answers⟩

theorem Answered.then (h : Answered O fs fs' l) (he : Extends O fs' fs'') : Answered O fs fs'' l :=
  ⟨h.extends_.trans he, h.answers.extends he⟩

theorem readi_eq (fs : Fs) (dst : Bytes) (off n : ℕ) : fs.readi dst off n =
    if fs.Refused off n then .ok ((-1 : ℤ), dst, fs)
    else (readLoop (rest fs.ip.size off n) (summed n) 0 off 0 dst fs).bind fun x =>
      match x.1 with
      | some dst => .ok ((rest fs.ip.size off n : ℤ), dst, x.2)
      | none => .ok (-1, dst, x.2) := by
  by_cases hr : fs.Refused off n
  · rw [if_pos hr]
    exact if_pos hr
  · rw [if_neg hr]
    refine (if_neg hr).trans ?_
    rw [← summed, ← rest]
    cases readLoop (rest fs.ip.size off n) (summed n) 0 off 0 dst fs with
    | error e => rfl
    | ok x =>
      obtain ⟨_ | _, _⟩ := x <;> rfl

theorem writei_eq (fs : Fs) (src : Bytes) (off n : ℕ) : fs.writei src off n =
    if fs.Refused off n then .ok ((-1 : ℤ), fs)
    else (writeLoop src (clip off n) (summed n) 0 off fs).bind fun x =>
      if clip off n > 0 ∧ x.1 > x.2.ip.size then .ok ((clip off n : ℤ), (x.2.setSize x.1).iupdate)
      else .ok (clip off n, x.2) := rfl

namespace Apart

theorem fetch (h : Apart O fs) (hx : fs.fetch bn = .ok (b, data, fs')) :
    Answered O fs fs' (fs.found bn) ∧ fs'.blockAt (.data bn) = some b := by
  obtain ⟨⟨b', fs₁⟩, hb, hx⟩ := bind_eq_ok.1 hx
  obtain ⟨data', hread, hx⟩ := bind_eq_ok.1 hx
  cases hx
  obtain ⟨he, hat⟩ := h.bmap hb
  refine ⟨⟨he, fun x hx => ?_⟩, hat⟩
  rw [found, hb] at hx
  obtain rfl := List.mem_singleton.1 hx
  exact hat

/-- **One iteration of `writei`** -/
theorem writePiece (h : Apart O fs) (hx : fs.writePiece src nbytes m tot off = .ok fs') :
    Answered O fs fs' (fs.found (off / BSIZE)) := by
  obtain ⟨⟨b, data, fs₁⟩, hf, hx⟩ := bind_eq_ok.1 hx
  obtain ⟨ha, hat⟩ := h.fetch hf
  dsimp only at hx
  split_ifs at hx with ht
  · obtain ⟨fs₂, hs, hx⟩ := bind_eq_ok.1 hx
    obtain rfl := Except.ok.inj hx
    obtain ⟨he, hsame, -⟩ := ha.extends_.apart.setChecksum ht hat hs
    exact (ha.then he).then (he.apart.bwrite ((hsame _).trans hat) _)
  · obtain rfl := Except.ok.inj hx
    exact ha.then (ha.extends_.apart.bwrite hat _)

/-- **The loop of `writei`** -/
theorem writeLoop (h : Apart O fs) (hx : Fs.writeLoop src n nbytes tot off fs = .ok (a, fs')) :
    Answered O fs fs' (writeBmaps src n nbytes tot off fs) := by
  induction hk : n - tot using Nat.strong_induction_on generalizing fs tot off with
  | _ k ih =>
    by_cases hlt : tot < n
    · rw [writeLoop_of_lt hlt] at hx
      obtain ⟨fs₁, hp, hx⟩ := bind_eq_ok.1 hx
      have hone := h.writePiece hp
      have hpos := piece_pos off (show 0 < BSIZE by decide) (show 0 < n - tot by omega)
      rw [writeBmaps, dif_pos hlt, hp]
      exact hone.append (ih _ (by omega) hone.extends_.apart hx rfl)
    · rw [Fs.writeLoop, dif_neg hlt] at hx
      cases hx
      rw [writeBmaps, dif_neg hlt]
      exact .refl h

/-- One iteration of `readi` -/
theorem readPiece {x : Option UInt8} (h : Apart O fs) (hx : fs.readPiece nbytes off c = .ok (x, fs')) :
    Answered O fs fs' (fs.found (off / BSIZE)) := by
  obtain ⟨⟨b, data, fs₁⟩, hf, hx⟩ := bind_eq_ok.1 hx
  obtain ⟨ha, -⟩ := h.fetch hf
  dsimp only at hx
  split_ifs at hx with ht
  · obtain ⟨c', -, hx⟩ := bind_eq_ok.1 hx
    cases hx
    exact ha
  · cases hx
    exact ha

/-- The loop of `readi` is one iteration, and more if it goes on. -/
theorem readLoop_eq_ok {x : Option Bytes} (hlt : tot < n)
    (hx : Fs.readLoop n nbytes tot off c dst fs = .ok (x, fs')) :
    fs.readPiece nbytes off c = .ok (none, fs') ∨
    ∃ c' dst' fs₁, fs.readPiece nbytes off c = .ok (some c', fs₁) ∧
      Fs.readLoop n nbytes (tot + piece BSIZE off (n - tot)) (off + piece BSIZE off (n - tot)) c' dst' fs₁ =
        .ok (x, fs') := by
  unfold Fs.readPiece
  cases hf : fs.fetch (off / BSIZE) with
  | error e =>
    rw [Fs.readLoop, dif_pos hlt, hf] at hx
    cases hx
  | ok y =>
    obtain ⟨b, data, fs₁⟩ := y
    rw [readLoop_of_lt hlt hf] at hx
    rw [ok_bind]
    dsimp only
    split_ifs at hx ⊢ with ht
    · obtain ⟨c', hc, hx⟩ := bind_eq_ok.1 hx
      rw [hc, ok_bind]
      split_ifs at hx ⊢ with hne
      · cases hx
        exact .inl rfl
      · exact .inr ⟨c', _, fs₁, rfl, hx⟩
    · exact .inr ⟨c, _, fs₁, rfl, hx⟩

/-- **The loop of `readi`** -/
theorem readLoop {x : Option Bytes} (h : Apart O fs)
    (hx : Fs.readLoop n nbytes tot off c dst fs = .ok (x, fs')) :
    Answered O fs fs' (readBmaps n nbytes tot off c fs) := by
  induction hk : n - tot using Nat.strong_induction_on generalizing fs tot off c dst with
  | _ k ih =>
    by_cases hlt : tot < n
    · have hpos := piece_pos off (show 0 < BSIZE by decide) (show 0 < n - tot by omega)
      rw [readBmaps, dif_pos hlt]
      obtain hp | ⟨c', dst', fs₁, hp, hx⟩ := readLoop_eq_ok hlt hx
      · rw [hp, List.append_nil]
        exact h.readPiece hp
      · rw [hp]
        have hone := h.readPiece hp
        exact hone.append (ih _ (by omega) hone.extends_.apart hx rfl)
    · rw [Fs.readLoop, dif_neg hlt] at hx
      cases hx
      rw [readBmaps, dif_neg hlt]
      exact .refl h

theorem readi {r : ℤ} {dst' : Bytes} (h : Apart O fs)
    (hx : fs.readi dst off n = .ok (r, dst', fs')) :
    Answered O fs fs' (if fs.Refused off n then []
      else readBmaps (rest fs.ip.size off n) (summed n) 0 off 0 fs) := by
  rw [readi_eq] at hx
  split_ifs at hx ⊢ with hr
  · cases hx
    exact .refl h
  · obtain ⟨⟨x, fs₁⟩, hl, hx⟩ := bind_eq_ok.1 hx
    have hloop := h.readLoop hl
    cases x <;> cases hx <;> exact hloop

theorem writei {r : ℤ} (h : Apart O fs) (hx : fs.writei src off n = .ok (r, fs')) :
    Answered O fs fs' (if fs.Refused off n then []
      else writeBmaps src (clip off n) (summed n) 0 off fs) := by
  rw [writei_eq] at hx
  split_ifs at hx ⊢ with hr
  · cases hx
    exact .refl h
  · obtain ⟨⟨off', fs₁⟩, hl, hx⟩ := bind_eq_ok.1 hx
    have hloop := h.writeLoop hl
    dsimp only at hx
    split_ifs at hx
    · cases hx
      exact hloop.then (hloop.extends_.apart.keep (blockAt_congr rfl rfl fun _ _ => rfl) rfl
        (fun _ _ => rfl) rfl rfl)
    · cases hx
      exact hloop

/-- **A call** -/
theorem bmaps {call : Call} (h : Apart O fs) (hx : calls.next fs call = some fs') :
    Answered O fs fs' (fs.bmaps call) := by
  cases call with
  | read dst off n =>
    cases hr : fs.readi dst off.toNat n.toNat with
    | error e => simp [calls, perform, hr, Except.map] at hx
    | ok y =>
      obtain ⟨r, dst', fs₁⟩ := y
      simp only [calls, perform, hr, Except.map, Option.some.injEq] at hx
      exact h.readi (hx ▸ hr)
  | write src off n =>
    cases hw : fs.writei src off.toNat n.toNat with
    | error e => simp [calls, perform, hw, Except.map] at hx
    | ok y =>
      obtain ⟨r, fs₁⟩ := y
      simp only [calls, perform, hw, Except.map, Option.some.injEq] at hx
      exact h.writei (hx ▸ hw)

end Apart

end Fs

end OperatingSystems

import OperatingSystems.Mfs.Accesses
import OperatingSystems.Mfs.Reachable

/-!
# A server that is started again

`initImage` on an image that exists reads the checkpoint and then enters a loop over
`chkpt.imap[i]`, in which `i` is what the loop before it left there, 4096, and stays that; what is found
there, behind the array, is `stray`.  `loadMem`, which comes after the loop, builds the tables anew.

* `initImage` : the part of `initImage` for an image that exists.
* `initImage_ok_iff` : it returns if and only if `stray` is negative.
* `Loaded.initImage` : and then the tables are those of the old server.
* `restart` : **what holds of a restart**, which never stays within `chkpt.imap`.
-/

namespace OperatingSystems

namespace Mfs

open Bytes Access

namespace Server

variable {s t : Server} {L : Layout} {T : Names} {n p fuel k : ℕ} {stray : ℤ} {junk : Junk}
  {imapTemp : Bytes} {ls : List (Msg × Junk)}

/-! ### `initImage` -/

/-- `while(imapTemp.inodeArr[k] >= 0)` -/
def copyLoop (imapTemp : Bytes) (s : Server) (k : ℕ) : Except Stop (Server × ℕ) :=
  if k < 16 then
    if word imapTemp 0 k ≥ 0 then
      copyLoop imapTemp { s with iArr := s.iArr ++ [word imapTemp 0 k] } (k + 1)
    else .ok (s, k)
  else .error .undefined
termination_by 16 - k

/-- `while(chkpt.imap[i] >= 0)`, where `i` is 4096; there is no result after `fuel` iterations. -/
def reloadLoop (stray : ℤ) : ℕ → Server → Bytes → ℕ → Option (Except Stop Server)
  | fuel, s, imapTemp, k =>
    if stray ≥ 0 then
      match fuel with
      | 0 => none
      | fuel + 1 =>
        let (s, imapTemp) := (s.lseek stray).read imapSize imapTemp
        match copyLoop imapTemp s k with
        | .ok (s, k) => reloadLoop stray fuel s imapTemp k
        | .error e => some (.error e)
    else some (.ok s)

/-- The state before the loop. -/
def opened (disk : File) : Server :=
  let s : Server := ⟨{ disk with pos := 0 }, fun _ => 0, []⟩
  let (s, chkpt) := s.read checkpointSize s.chkpt
  { s with chkpt := chkpt, iArr := [] }

/-- `initImage`, for an image that exists. -/
def initImage (fuel : ℕ) (stray : ℤ) (disk : File) (junk : Junk) : Option (Except Stop Server) :=
  (reloadLoop stray fuel (opened disk) (junk .imapTemp) 0).map fun r => r.map fun s => s.loadMem junk

/-! ### Its accesses -/

def copyAccesses (imapTemp : Bytes) (k j : ℕ) : List Access :=
  elem .piece k ::
    if k < 16 then
      if word imapTemp 0 k ≥ 0 then elem .inodeArr j :: copyAccesses imapTemp (k + 1) (j + 1) else []
    else []
termination_by 16 - k

def reloadAccesses (stray : ℤ) : ℕ → Server → Bytes → ℕ → List Access
  | fuel, s, imapTemp, k =>
    elem .imap 4096 ::
      if stray ≥ 0 then
        match fuel with
        | 0 => []
        | fuel + 1 =>
          let (s, imapTemp) := (s.lseek stray).read imapSize imapTemp
          copyAccesses imapTemp k s.iArr.length ++
            match copyLoop imapTemp s k with
            | .ok (s, k) => reloadAccesses stray fuel s imapTemp k
            | .error _ => []
      else s.loadAccesses fun _ => imapTemp

def initImageAccesses (fuel : ℕ) (stray : ℤ) (disk : File) (junk : Junk) : List Access :=
  upTo .inodeArr 4096 ++ reloadAccesses stray fuel (opened disk) (junk .imapTemp) 0

/-! ### What it does -/

/-- The loop is not entered, or it has no end. -/
theorem reloadLoop_ok (h : reloadLoop stray fuel s imapTemp k = some (.ok t)) : stray < 0 ∧ t = s := by
  induction fuel generalizing s imapTemp k with
  | zero =>
    rw [reloadLoop] at h
    split_ifs at h with hstray
    exact ⟨not_le.1 hstray, (Except.ok.inj (Option.some.inj h)).symm⟩
  | succ fuel ih =>
    rw [reloadLoop] at h
    split_ifs at h with hstray
    · dsimp only at h
      split at h
      · exact absurd hstray (not_le.2 (ih h).1)
      · cases h
    · exact ⟨not_le.1 hstray, (Except.ok.inj (Option.some.inj h)).symm⟩

/-- **`initImage` returns** if and only if what is found behind `chkpt.imap` is negative. -/
theorem initImage_ok_iff (disk : File) (junk : Junk) :
    (∃ fuel t, initImage fuel stray disk junk = some (.ok t)) ↔ stray < 0 := by
  constructor
  · rintro ⟨fuel, t, h⟩
    obtain ⟨r, hr, hrt⟩ := Option.map_eq_some_iff.1 h
    cases r with
    | error e => cases hrt
    | ok s => exact (reloadLoop_ok hr).1
  · intro hstray
    refine ⟨0, (opened disk).loadMem junk, ?_⟩
    rw [initImage, reloadLoop, if_neg (not_le.2 hstray)]
    rfl

@[simp] theorem opened_bytes (disk : File) : (opened disk).disk.bytes = disk.bytes := rfl

@[simp] theorem opened_size (disk : File) : (opened disk).disk.size = disk.size := rfl

/-- Then the tables are those of the image. -/
theorem Loaded.initImage (h : Loaded s L n p) (ht : initImage fuel stray s.disk junk = some (.ok t)) :
    Loaded t L n p ∧ t.disk.bytes = s.disk.bytes := by
  obtain ⟨r, hr, hrt⟩ := Option.map_eq_some_iff.1 ht
  cases r with
  | error e => cases hrt
  | ok u =>
    obtain ⟨-, rfl⟩ := reloadLoop_ok hr
    have hload : t = (opened s.disk).loadMem junk := (Except.ok.inj hrt).symm
    have hstored : Stored (opened s.disk) L n p := by
      refine ⟨?_, ?_⟩
      · rw [opened_bytes]
        exact h.image
      · rw [opened_size]
        exact h.size
    obtain ⟨hl, hb, -⟩ := loadMem_spec hstored junk
    rw [← hload] at hl hb
    exact ⟨hl, hb.trans (opened_bytes s.disk)⟩

/-- The first condition of the loop is out of bounds. -/
theorem not_sound_initImageAccesses (fuel : ℕ) (stray : ℤ) (disk : File) (junk : Junk) :
    ¬ Sound (initImageAccesses fuel stray disk junk) := by
  intro h
  unfold initImageAccesses reloadAccesses at h
  rw [sound_append, sound_cons, inBounds_elem] at h
  exact absurd h.2.1.2 (by decide)

/-- A restart shows nothing: `initImage` returns, within the bounds of its arrays, and the tables are
those of the old server. -/
structure Transparent (s : Server) (stray : ℤ) (junk : Junk) : Prop where
  bounds : ∀ fuel, Sound (initImageAccesses fuel stray s.disk junk)
  returns : ∃ fuel t, initImage fuel stray s.disk junk = some (.ok t) ∧
    EqTo checkpointSize t.chkpt s.chkpt ∧ t.iArr = s.iArr

/-- **A restart** in every state of a run: it is never transparent, since `initImage` reads behind
`chkpt.imap`; it is in all other respects if and only if a negative number is found there. -/
theorem restart (ls : List (Msg × Junk)) (hrun : server.run (fresh junk) ls = some s) (stray : ℤ)
    (junk' : Junk) :
    ¬ Transparent s stray junk' ∧
    ((∃ fuel t, initImage fuel stray s.disk junk' = some (.ok t) ∧
      EqTo checkpointSize t.chkpt s.chkpt ∧ t.iArr = s.iArr) ↔ stray < 0) := by
  refine ⟨fun h => not_sound_initImageAccesses 0 stray s.disk junk' (h.bounds 0), ?_⟩
  rw [← initImage_ok_iff s.disk junk']
  refine ⟨fun ⟨fuel, t, ht, _⟩ => ⟨fuel, t, ht⟩, fun ⟨fuel, t, ht⟩ => ⟨fuel, t, ht, ?_⟩⟩
  obtain ⟨L, T, h⟩ := hosts_of_run hrun
  have hl := h.serves.1
  obtain ⟨hlt, hb⟩ := hl.initImage ht
  refine ⟨?_, hlt.iArr.trans hl.iArr.symm⟩
  have hchkpt := hlt.chkpt
  rw [hb] at hchkpt
  exact hchkpt.trans hl.chkpt.symm

theorem restart_fresh : ¬ Transparent (fresh fun _ _ => 0) (-1) fun _ _ => 0 :=
  (restart [] rfl (-1) _).1

theorem fresh_not_transparent : ¬ ∀ s : Server, ∀ stray junk, (∃ junk' ls,
    server.run (fresh junk') ls = some s) → Transparent s stray junk := by
  intro h
  have hfresh := h (fresh fun _ _ => 0) (-1) (fun _ _ => 0) ⟨_, [], rfl⟩
  exact not_sound_initImageAccesses 0 (-1) _ _ (hfresh.bounds 0)

end Server

end Mfs

end OperatingSystems

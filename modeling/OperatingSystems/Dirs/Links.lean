import OperatingSystems.Dirs.Invariant
import Mathlib.Tactic.Ring

/-!
# The accounts of the links

What the changes of the disk do to the count of the links.

* `Books.same` : nothing changes on the disk.
* `Books.count` : `nlink` changes, with the links that the process owes.
* `Books.edit` : entries are written or erased.
* `Books.alloc`, `Books.ifree` : an inode is taken, and given back.
-/

namespace OperatingSystems

namespace Dirs

open Custody

variable {P F : Type} {n i j d up : ℕ} {s s' : State P F} {x : Inode} {A B : List ℕ}

/-! ### Entries -/

theorem entries_congr (h : ∀ j, targets (s'.ino j).ents = targets (s.ino j).ents) (i : ℕ) :
    entries n s' i = entries n s i := by
  rw [entries, entries, holdings_congr fun j _ => h j]

theorem subdirs_congr (h : targets (s'.ino i).ents = targets (s.ino i).ents)
    (hdir : ∀ j ∈ targets (s.ino i).ents, s'.isdir j = s.isdir j) : subdirs s' i = subdirs s i := by
  rw [subdirs, subdirs, h]
  exact List.countP_congr fun j hj => by rw [hdir j hj]

/-- The entries after an edit of one directory -/
theorem entries_set (hd : d < n) (hperm : (A ++ targets x.ents).Perm (B ++ targets (s.ino d).ents)) (j : ℕ) :
    entries n (s.set d x) j + A.count j = entries n s j + B.count j := by
  have hcount := count_update List.nodup_range (List.mem_range.2 hd) (fun k => targets (s.ino k).ents)
    (targets x.ents) j
  have heq : (fun k => targets ((s.set d x).ino k).ents) =
      Function.update (fun k => targets (s.ino k).ents) d (targets x.ents) := by
    funext k
    rw [Function.update_apply, ino_set]
    split_ifs <;> rfl
  have hj := hperm.count_eq j
  rw [List.count_append, List.count_append] at hj
  unfold entries
  rw [heq]
  omega

/-- A process relies on what is on the disk. -/
theorem State.Rely.congr {H : Hold} (h : s.Rely H) (htype : ∀ j, (s'.ino j).type = (s.ino j).type)
    (hents : ∀ j, (s'.ino j).ents = (s.ino j).ents) : s'.Rely H := by
  refine ⟨fun i hi => ?_, fun i hi => ?_, fun d i off hx => ?_⟩
  · rw [htype]
    exact h.links i hi
  · rw [htype]
    exact h.dirs i hi
  · rw [hents]
    exact h.entry d i off hx

variable [Fintype P] {held : P → Hold}

namespace Books

/-- A directory with entries is on the disk. -/
theorem lt_of_mem (h : Books n s held) (hj : j ∈ targets (s.ino d).ents) : d < n := by
  refine (h.inum d fun htype => ?_).2
  rw [(h.free d htype).2] at hj
  cases hj

theorem mem_entries (h : Books n s held) (hj : j ∈ targets (s.ino d).ents) : 0 < entries n s j :=
  List.count_pos_iff.2 (mem_holdings.2 ⟨d, List.mem_range.2 (h.lt_of_mem hj), hj⟩)

/-- An inode without links -/
theorem zero (h : Books n s held) (hi : i ≠ 0) (hn : (s.ino i).nlink = 0) :
    entries n s i = 0 ∧ subdirs s i = 0 ∧ owed held i = 0 ∧ s.lost i = 0 ∧ i ≠ ROOTINO := by
  have hlink := h.nlink i hi
  rw [hn] at hlink
  split_ifs at hlink with hroot <;> refine ⟨?_, ?_, ?_, ?_, ?_⟩ <;> omega

theorem not_mem_of_zero (h : Books n s held) (hn : (s.ino i).nlink = 0) : i ∉ targets (s.ino d).ents := by
  intro hmem
  have hi : i ≠ 0 := (mem_targets.1 hmem).1
  exact absurd (h.zero hi hn).1 (h.mem_entries hmem).ne'

/-- What an entry leads to is in use. -/
theorem type_of_mem (h : Books n s held) (hj : j ∈ targets (s.ino d).ents) : (s.ino j).type ≠ none := fun htype =>
  h.not_mem_of_zero (h.free j htype).1 hj

end Books

variable [Fintype F] [DecidableEq P] {p q : P} {H H' : Hold}

namespace Books

omit [Fintype F]

/-- Nothing changes on the disk. -/
theorem same (h : Books n s (holds s p H)) (hs : Same s s') (howed : H'.owed.Perm H.owed) (hrely : s.Rely H') :
    Books n s' (holds s' p H') := by
  obtain ⟨hpc, htype, hnlink, hents, hlost, hstrayed⟩ := hs
  have hsame := fun j => owed_holds s p H H' j
  simp only [howed.count_eq, Nat.add_right_cancel_iff] at hsame
  have hisdir : s'.isdir = s.isdir := funext fun j => by rw [State.isdir, State.isdir, htype]
  have hentries : ∀ j, entries n s' j = entries n s j := entries_congr fun j => by rw [hents]
  have hsub : ∀ j, subdirs s' j = subdirs s j := fun j =>
    subdirs_congr (by rw [hents]) fun k _ => by rw [hisdir]
  rw [holds_congr hpc]
  refine ⟨fun j hj => ?_, fun j => ?_, fun j => ?_, fun j => ?_, fun j => ?_, fun e j => ?_, fun j => ?_, ?_,
    fun hs => ?_, ?_⟩
  · rw [hnlink, hentries, hsub, hlost, hsame]
    exact h.nlink j hj
  · rw [htype, hnlink, hents]
    exact h.free j
  · rw [htype]
    exact h.inum j
  · rw [htype, hents]
    exact h.shaped j
  · rw [htype, hents]
    exact h.plain j
  · rw [htype, hents, hents]
    exact h.up e j
  · rw [htype, hentries, hsame]
    exact h.once j
  · exact forall_holds (hrely.congr htype hents) fun q _ => (h.rely q).congr htype hents
  · obtain ⟨hlost₀, horphan⟩ := h.orphan (hstrayed hs)
    refine ⟨fun j => by rw [hlost, hlost₀], fun d hd he => ?_⟩
    rw [hents]
    exact horphan d hd (hentries d ▸ he)
  · obtain ⟨rank, hrank⟩ := h.tree
    refine ⟨rank, fun e j => ?_⟩
    rw [hents, htype]
    exact hrank e j

/-- `nlink` changes, with what the process owes. -/
theorem count (h : Books n s (holds s p H)) {k : ℤ} (htype : (s.ino i).type ≠ none)
    (hk : k + H.owed.count i = (s.ino i).nlink + H'.owed.count i)
    (hne : ∀ j ≠ i, H'.owed.count j = H.owed.count j)
    (honce : (s.ino i).type = some .dir → H'.owed.count i ≤ H.owed.count i)
    (hrely : s.Rely H') :
    Books n (s.set i { s.ino i with nlink := k }) (holds s p H') := by
  have htypes : ∀ j, ((s.set i { s.ino i with nlink := k }).ino j).type = (s.ino j).type := fun j => by
    rw [ino_set]
    split_ifs with hj
    · rw [hj]
    · rfl
  have hents : ∀ j, ((s.set i { s.ino i with nlink := k }).ino j).ents = (s.ino j).ents := fun j => by
    rw [ino_set]
    split_ifs with hj
    · rw [hj]
    · rfl
  have hentries : ∀ j, entries n (s.set i { s.ino i with nlink := k }) j = entries n s j :=
    entries_congr fun j => by rw [hents]
  have hsub : ∀ j, subdirs (s.set i { s.ino i with nlink := k }) j = subdirs s j := fun j =>
    subdirs_congr (by rw [hents]) fun m _ => by rw [State.isdir, State.isdir, htypes]
  refine ⟨fun j hj => ?_, fun j hj => ?_, fun j => ?_, fun j => ?_, fun j => ?_, fun e j => ?_, fun j hj => ?_,
    ?_, fun hs => ?_, ?_⟩
  · have howed := owed_holds s p H H' j
    have hlink := h.nlink j hj
    rw [hentries, hsub, ino_set]
    change _ = (_ + _ + _ + s.lost j + _ : ℤ)
    by_cases hji : j = i
    · subst hji
      rw [if_pos rfl]
      change k = _
      omega
    · rw [if_neg hji]
      have := hne j hji
      omega
  · rw [htypes] at hj
    have hji : j ≠ i := fun hji => htype (hji ▸ hj)
    rw [ino_set, if_neg hji]
    exact h.free j hj
  · rw [htypes]
    exact h.inum j
  · rw [htypes, hents]
    exact h.shaped j
  · rw [htypes, hents]
    exact h.plain j
  · rw [htypes, hents, hents]
    exact h.up e j
  · rw [htypes] at hj
    have howed := owed_holds s p H H' j
    have hold := h.once j hj
    rw [hentries]
    by_cases hji : j = i
    · subst hji
      have := honce hj
      omega
    · have := hne j hji
      omega
  · exact forall_holds (hrely.congr htypes hents) fun q _ => (h.rely q).congr htypes hents
  · obtain ⟨hlost₀, horphan⟩ := h.orphan hs
    refine ⟨hlost₀, fun d hd he => ?_⟩
    rw [hents]
    exact horphan d hd (hentries d ▸ he)
  · obtain ⟨rank, hrank⟩ := h.tree
    refine ⟨rank, fun e j => ?_⟩
    rw [hents, htypes]
    exact hrank e j

/-- Entries of a directory are written or erased. -/
theorem edit (h : Books n s (holds s p H)) (hdir : (s.ino d).type = some .dir) (hx : x.type = some .dir)
    (hshaped : ∀ up, Shaped (s.ino d).ents d up → Shaped x.ents d up)
    (hperm : (A ++ targets x.ents).Perm (B ++ targets (s.ino d).ents))
    (hnlink : x.nlink + A.countP s.isdir = (s.ino d).nlink + B.countP s.isdir)
    (howed : ∀ j, H'.owed.count j + B.count j = H.owed.count j + A.count j)
    (hB : ∀ j ∈ B, (s.ino j).type = some .dir →
      Shaped (s.ino j).ents j d ∧ j ≠ d ∧ entries n s j = 0 ∧ targets (s.ino j).ents = [])
    (hrely : (s.set d x).Rely H') (hA : ∀ j ∈ A, targets (s.ino j).ents = [])
    (hstray : B ≠ [] → A = [] ∧ (s.strayed = false → entries n s d = 0 → d = ROOTINO))
    (hother : ∀ q ≠ p, ∀ y, (holds s p H q).entry = some y → y.1 ≠ d) :
    Books n (s.set d x) (holds s p H') := by
  have htypes : ∀ j, ((s.set d x).ino j).type = (s.ino j).type := fun j => by
    rw [ino_set]
    split_ifs with hj
    · rw [hj, hx, hdir]
    · rfl
  have hisdir : (s.set d x).isdir = s.isdir := funext fun j => by rw [State.isdir, State.isdir, htypes]
  have hents : ∀ j ≠ d, ((s.set d x).ino j).ents = (s.ino j).ents := fun j hj => by rw [ino_set, if_neg hj]
  have hself : (s.set d x).ino d = x := by rw [ino_set, if_pos rfl]
  have hd : d < n := (h.inum d (hdir ▸ Option.some_ne_none _)).2
  have hshape : ∀ j up, Shaped (s.ino j).ents j up → Shaped ((s.set d x).ino j).ents j up := fun j up hj => by
    obtain rfl | hne := eq_or_ne j d
    · rw [hself]
      exact hshaped up hj
    · rwa [hents j hne]
  refine ⟨fun j hj => ?_, fun j hj => ?_, fun j => ?_, fun j hj => ?_, fun j hj => ?_, fun e j hj ht => ?_,
    fun j hj => ?_, ?_, fun hs => ?_, ?_⟩
  · have hlink := h.nlink j hj
    have hentries := entries_set (s := s) hd hperm j
    have howes := owed_holds s p H H' j
    have hcount := howed j
    obtain rfl | hne := eq_or_ne j d
    · have hsub : subdirs (s.set j x) j + A.countP s.isdir = subdirs s j + B.countP s.isdir := by
        have hcountP := hperm.countP_eq s.isdir
        rw [List.countP_append, List.countP_append] at hcountP
        rw [subdirs, subdirs, hself, hisdir]
        omega
      rw [hself]
      change _ = (_ + _ + _ + s.lost j + _ : ℤ)
      omega
    · have hsub : subdirs (s.set d x) j = subdirs s j :=
        subdirs_congr (by rw [hents j hne]) fun k _ => by rw [hisdir]
      rw [ino_set, if_neg hne, hsub]
      change _ = (_ + _ + _ + s.lost j + _ : ℤ)
      omega
  · rw [htypes] at hj
    have hne : j ≠ d := by
      rintro rfl
      rw [hdir] at hj
      cases hj
    rw [ino_set, if_neg hne]
    exact h.free j hj
  · rw [htypes]
    exact h.inum j
  · rw [htypes] at hj
    obtain ⟨up, hup⟩ := h.shaped j hj
    exact ⟨up, hshape j up hup⟩
  · rw [htypes] at hj
    have hne : j ≠ d := by
      rintro rfl
      exact hj hdir
    rw [hents j hne]
    exact h.plain j hj
  · rw [htypes] at ht
    obtain rfl | hne := eq_or_ne e d
    · rw [hself] at hj
      have hmem : j ∈ B ++ targets (s.ino e).ents := hperm.subset (List.mem_append_right A hj)
      rcases List.mem_append.1 hmem with hmem | hmem
      · exact hshape j e (hB j hmem ht).1
      · exact hshape j e (h.up e j hmem ht)
    · rw [hents e hne] at hj
      exact hshape j e (h.up e j hj ht)
  · rw [htypes] at hj
    have honce := h.once j hj
    have hentries := entries_set (s := s) hd hperm j
    have howes := owed_holds s p H H' j
    have hcount := howed j
    omega
  · refine forall_holds (H := H) hrely fun q hq => ?_
    obtain ⟨hlinks, hdirs, hentry⟩ := h.rely q
    refine ⟨fun j hj => ?_, fun j hj => ?_, fun e j off hy => ?_⟩
    · rw [htypes]
      exact hlinks j hj
    · rw [htypes]
      exact hdirs j hj
    · rw [hents e (hother q hq _ hy)]
      exact hentry e j off hy
  · obtain ⟨hlost₀, horphan⟩ := h.orphan hs
    refine ⟨hlost₀, fun e he hzero => ?_⟩
    -- a directory that loses its name is empty, and nothing is written to one without a name
    have hempty : targets (s.ino e).ents = [] := by
      have hentries := entries_set (s := s) hd hperm e
      by_cases hA' : e ∈ A
      · exact hA e hA'
      · rw [List.count_eq_zero_of_not_mem hA'] at hentries
        exact horphan e he (by omega)
    obtain rfl | hne := eq_or_ne e d
    · have hB' : B = [] := by
        by_contra hB'
        obtain ⟨rfl, hroot⟩ := hstray hB'
        have hentries := entries_set (s := s) hd hperm e
        rw [List.count_nil] at hentries
        exact he (hroot hs (by omega))
      rw [hself]
      rw [hB', hempty] at hperm
      exact (List.append_eq_nil_iff.1 (List.Perm.eq_nil hperm)).2
    · rw [hents e hne]
      exact hempty
  · obtain ⟨rank, hrank⟩ := h.tree
    -- a directory that is named now was below nothing, and has nothing below it
    refine ⟨fun j => if j ∈ B ∧ (s.ino j).type = some .dir then rank d + 1 else rank j, fun e j hj ht => ?_⟩
    rw [htypes] at ht
    have hdnot : ¬(d ∈ B ∧ (s.ino d).type = some .dir) := fun hd' => (hB d hd'.1 hd'.2).2.1 rfl
    have hold : j ∈ targets (s.ino e).ents →
        (if e ∈ B ∧ (s.ino e).type = some .dir then rank d + 1 else rank e) <
          if j ∈ B ∧ (s.ino j).type = some .dir then rank d + 1 else rank j := fun hmem => by
      rw [if_neg fun he => ?_, if_neg fun hj' => ?_]
      · exact hrank e j hmem ht
      · exact absurd (hB j hj'.1 ht).2.2.1 (h.mem_entries hmem).ne'
      · rw [(hB e he.1 he.2).2.2.2] at hmem
        cases hmem
    obtain rfl | hne := eq_or_ne e d
    · rw [hself] at hj
      rcases List.mem_append.1 (hperm.subset (List.mem_append_right A hj)) with hmem | hmem
      · simp only
        rw [if_neg hdnot, if_pos ⟨hmem, ht⟩]
        exact Nat.lt_succ_self _
      · exact hold hmem
    · rw [hents e hne] at hj
      exact hold hj

/-- An inode is taken, with a link that has no entry yet. -/
theorem alloc (h : Books n s (holds s p H)) (hfree : (s.ino i).type = none) (hi : i ≠ 0) (hin : i < n)
    (hx : x.type ≠ none) (hnlink : x.nlink = 1) (hshaped : x.type = some .dir → ∃ up, Shaped x.ents i up)
    (hplain : x.type ≠ some .dir → x.ents = []) (hempty : targets x.ents = []) :
    Books n (s.set i x) (holds s p { H with unlinks := i :: H.unlinks }) := by
  have hzero : (s.ino i).nlink = 0 := (h.free i hfree).1
  obtain ⟨hentry, hsub, howed, hlost, hroot⟩ := h.zero hi hzero
  have hself : (s.set i x).ino i = x := by rw [ino_set, if_pos rfl]
  have hold : ∀ j ≠ i, (s.set i x).ino j = s.ino j := fun j hj => by rw [ino_set, if_neg hj]
  have htargets : ∀ j, targets ((s.set i x).ino j).ents = targets (s.ino j).ents := fun j => by
    obtain rfl | hne := eq_or_ne j i
    · rw [hself, hempty, (h.free j hfree).2]
      rfl
    · rw [hold j hne]
  have hisdir : ∀ d, ∀ j ∈ targets (s.ino d).ents, (s.set i x).isdir j = s.isdir j := fun d j hj => by
    have hne : j ≠ i := by
      rintro rfl
      exact h.not_mem_of_zero hzero hj
    rw [State.isdir, State.isdir, hold j hne]
  have hentries := entries_congr (n := n) htargets
  have hsubs : ∀ j, subdirs (s.set i x) j = subdirs s j := fun j => subdirs_congr (htargets j) (hisdir j)
  have howes := owed_holds s p H { H with unlinks := i :: H.unlinks }
  simp only [Hold.owed, List.count_append, List.count_cons] at howes
  refine ⟨fun j hj => ?_, fun j hj => ?_, fun j hj => ?_, fun j hj => ?_, fun j hj => ?_, fun e j hj ht => ?_,
    fun j hj => ?_, ?_, fun hs => ?_, ?_⟩
  · rw [hentries, hsubs]
    change _ = (_ + _ + _ + s.lost j + _ : ℤ)
    have hj' := howes j
    obtain rfl | hne := eq_or_ne j i
    · rw [hself, hnlink, if_neg hroot]
      simp only [beq_self_eq_true, if_true] at hj'
      omega
    · rw [hold j hne, h.nlink j hj]
      rw [if_neg (by simpa using hne.symm)] at hj'
      omega
  · obtain rfl | hne := eq_or_ne j i
    · rw [hself] at hj
      exact absurd hj hx
    · rw [hold j hne] at hj ⊢
      exact h.free j hj
  · obtain rfl | hne := eq_or_ne j i
    · exact ⟨hi, hin⟩
    · rw [hold j hne] at hj
      exact h.inum j hj
  · obtain rfl | hne := eq_or_ne j i
    · rw [hself] at hj ⊢
      exact hshaped hj
    · rw [hold j hne] at hj ⊢
      exact h.shaped j hj
  · obtain rfl | hne := eq_or_ne j i
    · rw [hself] at hj ⊢
      exact hplain hj
    · rw [hold j hne] at hj ⊢
      exact h.plain j hj
  · rw [htargets] at hj
    have hne : j ≠ i := by
      rintro rfl
      exact h.not_mem_of_zero hzero hj
    rw [hold j hne] at ht ⊢
    exact h.up e j hj ht
  · have hj' := howes j
    rw [hentries]
    obtain rfl | hne := eq_or_ne j i
    · simp only [beq_self_eq_true, if_true] at hj'
      rw [if_neg hroot]
      omega
    · rw [hold j hne] at hj
      have honce := h.once j hj
      rw [if_neg (by simpa using hne.symm)] at hj'
      omega
  · have hkeep : ∀ K, s.Rely K → (s.set i x).Rely K := fun K hK => by
      refine ⟨fun j hj => ?_, fun j hj => ?_, fun e j off hy => ?_⟩
      · have hne : j ≠ i := by
          rintro rfl
          exact (hK.links j hj).2 hfree
        rw [hold j hne]
        exact hK.links j hj
      · have hne : j ≠ i := by
          rintro rfl
          have := hK.dirs j hj
          rw [hfree] at this
          cases this
        rw [hold j hne]
        exact hK.dirs j hj
      · obtain ⟨hoff, hj, name, hget⟩ := hK.entry e j off hy
        have hne : e ≠ i := by
          rintro rfl
          rw [(h.free e hfree).2] at hget
          cases hget
        rw [hold e hne]
        exact ⟨hoff, hj, name, hget⟩
    have hself := hkeep _ (h.rely p)
    rw [holds_self] at hself
    exact forall_holds ⟨hself.links, hself.dirs, hself.entry⟩ fun q _ => hkeep _ (h.rely q)
  · obtain ⟨hlost₀, horphan⟩ := h.orphan hs
    refine ⟨hlost₀, fun d hd he => ?_⟩
    rw [htargets]
    exact horphan d hd (hentries d ▸ he)
  · obtain ⟨rank, hrank⟩ := h.tree
    refine ⟨rank, fun e j hj ht => ?_⟩
    rw [htargets] at hj
    have hne : j ≠ i := by
      rintro rfl
      exact h.not_mem_of_zero hzero hj
    rw [hold j hne] at ht
    exact hrank e j hj ht

/-- An inode without links is given back, with its entries. -/
theorem ifree (h : Books n s (holds s p H)) (htype : (s.ino i).type ≠ none) (hzero : (s.ino i).nlink = 0)
    (howed : H'.owed = H.owed) (hrely : s.Rely H')
    (hnot : ∀ q, i ∉ (holds s p H' q).dirs ∧ ∀ y, (holds s p H' q).entry = some y → y.1 ≠ i) :
    Books n (s.ifree i) (holds s p H') := by
  obtain ⟨hi, hin⟩ := h.inum i htype
  obtain ⟨hentry, hsub, howes, hlost, hroot⟩ := h.zero hi hzero
  have hsame := fun j => owed_holds s p H H' j
  simp only [howed, Nat.add_right_cancel_iff] at hsame
  have hself : (s.ifree i).ino i = { type := none, nlink := (s.ino i).nlink, ents := [], ref := 0, valid := false } :=
    Function.update_self ..
  have hold : ∀ j ≠ i, (s.ifree i).ino j = s.ino j := fun j hj => Function.update_of_ne hj ..
  have hmem : ∀ d, ∀ j ∈ targets (s.ino d).ents, j ≠ i := by
    rintro d j hj rfl
    exact h.not_mem_of_zero hzero hj
  have hentries : ∀ j, entries n (s.ifree i) j + (targets (s.ino i).ents).count j = entries n s j := fun j => by
    have hset := entries_set (s := s) (d := i) (x := (s.ifree i).ino i) (A := targets (s.ino i).ents) (B := []) hin
      (by rw [hself, List.nil_append]; exact (List.append_nil _).symm ▸ List.Perm.refl _) j
    have heq : entries n (s.ifree i) j = entries n (s.set i ((s.ifree i).ino i)) j :=
      entries_congr (fun k => by
        rw [ino_set]
        split_ifs with hk
        · rw [hk]
        · rw [hold k hk]) j
    rw [heq]
    simpa using hset
  have hsubs : ∀ j ≠ i, subdirs (s.ifree i) j = subdirs s j := fun j hj =>
    subdirs_congr (by rw [hold j hj]) fun k hk => by rw [State.isdir, State.isdir, hold k (hmem j k hk)]
  refine ⟨fun j hj => ?_, fun j hj => ?_, fun j hj => ?_, fun j hj => ?_, fun j hj => ?_, fun e j hj ht => ?_,
    fun j hj => ?_, ?_, fun hs => ?_, ?_⟩
  · have hej := hentries j
    change _ = (_ + _ + _ + (s.lost j + (targets (s.ino i).ents).count j : ℕ) + _ : ℤ)
    rw [hsame]
    obtain rfl | hne := eq_or_ne j i
    · have hsubself : subdirs (s.ifree j) j = 0 := by
        rw [subdirs, hself]
        rfl
      rw [hself, if_neg hroot, hsubself]
      change (s.ino j).nlink = _
      omega
    · rw [hold j hne, hsubs j hne, h.nlink j hj]
      omega
  · obtain rfl | hne := eq_or_ne j i
    · rw [hself]
      exact ⟨hzero, rfl⟩
    · rw [hold j hne] at hj ⊢
      exact h.free j hj
  · obtain rfl | hne := eq_or_ne j i
    · exact ⟨hi, hin⟩
    · rw [hold j hne] at hj
      exact h.inum j hj
  · obtain rfl | hne := eq_or_ne j i
    · rw [hself] at hj
      cases hj
    · rw [hold j hne] at hj ⊢
      exact h.shaped j hj
  · obtain rfl | hne := eq_or_ne j i
    · rw [hself]
    · rw [hold j hne] at hj ⊢
      exact h.plain j hj
  · obtain rfl | hne := eq_or_ne e i
    · rw [hself] at hj
      cases hj
    · rw [hold e hne] at hj
      rw [hold j (hmem e j hj)] at ht ⊢
      exact h.up e j hj ht
  · have hej := hentries j
    rw [hsame]
    obtain rfl | hne := eq_or_ne j i
    · rw [hself] at hj
      cases hj
    · rw [hold j hne] at hj
      have honce := h.once j hj
      omega
  · have hkeep : ∀ q, s.Rely (holds s p H' q) → (s.ifree i).Rely (holds s p H' q) := fun q hK => by
      refine ⟨fun j hj => ?_, fun j hj => ?_, fun e j off hy => ?_⟩
      · have hne : j ≠ i := by
          rintro rfl
          have hpos := mem_holds (q := q) (f := fun q => (holds s p H' q).owed) (List.mem_append_left _ hj)
          change 0 < owed (holds s p H') j at hpos
          rw [hsame, howes] at hpos
          exact Nat.lt_irrefl 0 hpos
        rw [hold j hne]
        exact hK.links j hj
      · have hne : j ≠ i := by
          rintro rfl
          exact (hnot q).1 hj
        rw [hold j hne]
        exact hK.dirs j hj
      · rw [hold e ((hnot q).2 _ hy)]
        exact hK.entry e j off hy
    intro q
    exact hkeep q (forall_holds hrely (fun q _ => h.rely q) q)
  · obtain ⟨hlost₀, horphan⟩ := h.orphan hs
    have hempty := horphan i hroot hentry
    refine ⟨fun j => ?_, fun d hd he => ?_⟩
    · change s.lost j + (targets (s.ino i).ents).count j = 0
      rw [hlost₀, hempty, List.count_nil]
    · have hed := hentries d
      rw [he, hempty, List.count_nil] at hed
      obtain rfl | hne := eq_or_ne d i
      · rw [hself]
        rfl
      · rw [hold d hne]
        exact horphan d hd hed.symm
  · obtain ⟨rank, hrank⟩ := h.tree
    refine ⟨rank, fun e j hj ht => ?_⟩
    obtain rfl | hne := eq_or_ne e i
    · rw [hself] at hj
      cases hj
    · rw [hold e hne] at hj
      rw [hold j (hmem e j hj)] at ht
      exact hrank e j hj ht

end Books

end Dirs

end OperatingSystems

import Mathlib.Data.List.Nodup
import Mathlib.Data.Nat.Basic

/-!
# Namespaces that are trees

Files have the numbers below a count, and some of them are directories: lists of names with the
numbers of files.  Each directory begins with an entry for itself and one for its parent, under two
fixed names.

* `Namespace N` : the directories among the files, with names from `N`.
* `Namespace.create` : a new file is entered at the end of a directory.
* `Namespace.IsTree` : every file but the root is entered in exactly one place.
* `Namespace.Distinct` : the names in each directory are distinct.
* `Namespace.IsTree.create`, `Namespace.Distinct.create` : what creating a file keeps.
-/

namespace OperatingSystems

/-- Files with the numbers below `count`, and the entries of those that are directories. -/
structure Namespace (N : Type*) where
  count : ℕ
  dirs : ℕ → Option (List (N × ℕ))

namespace Namespace

variable {N : Type*} {T : Namespace N} {k q i : ℕ} {name : N} {e : N × ℕ} {es : List (N × ℕ)}

/-- The entry `q` of the directory `k` is `e`. -/
def At (T : Namespace N) (k q : ℕ) (e : N × ℕ) : Prop := ∃ es, T.dirs k = some es ∧ es[q]? = some e

theorem at_of_dirs (h : T.dirs k = some es) : T.At k q e ↔ es[q]? = some e := by
  refine ⟨?_, fun he => ⟨es, h, he⟩⟩
  rintro ⟨es', h', he⟩
  obtain rfl := Option.some.inj (h.symm.trans h')
  exact he

section

variable (dot dotdot : N)

/-- The root alone, which is its own parent. -/
def root : Namespace N where
  count := 1
  dirs k := if k = 0 then some [(dot, 0), (dotdot, 0)] else none

/-- A new file, which is a directory if `dir` holds, is entered at the end of the directory `k`. -/
def create (T : Namespace N) (k : ℕ) (name : N) (dir : Bool) : Namespace N where
  count := T.count + 1
  dirs j :=
    if j = T.count then if dir then some [(dot, T.count), (dotdot, k)] else none
    else if j = k then (T.dirs k).map (· ++ [(name, T.count)])
    else T.dirs j

/-- Every directory begins with itself and its parent, and every file but the root is entered in
exactly one further place. -/
structure IsTree (T : Namespace N) : Prop where
  zero : (T.dirs 0).isSome
  bounded : ∀ k es, T.dirs k = some es → k < T.count
  itself : ∀ k es, T.dirs k = some es → es[0]? = some (dot, k)
  above : ∀ k es, T.dirs k = some es → ∃ up, es[1]? = some (dotdot, up) ∧
    (k = 0 ∧ up = 0 ∨ k ≠ 0 ∧ ∃ q name, 2 ≤ q ∧ T.At up q (name, k))
  entries : ∀ k q e, T.At k q e → 2 ≤ q → e.2 ≠ 0 ∧ e.2 < T.count
  once : ∀ i, i ≠ 0 → i < T.count → ∃! x : ℕ × ℕ, 2 ≤ x.2 ∧ ∃ name, T.At x.1 x.2 (name, i)

/-- The names in each directory are distinct. -/
def Distinct (T : Namespace N) : Prop := ∀ k es, T.dirs k = some es → (es.map Prod.fst).Nodup

theorem create_dirs_new (T : Namespace N) (k : ℕ) (name : N) (dir : Bool) :
    (create dot dotdot T k name dir).dirs T.count =
      if dir then some [(dot, T.count), (dotdot, k)] else none :=
  if_pos rfl

theorem create_dirs_self (h : T.dirs k = some es) (hk : k < T.count) (name : N) (dir : Bool) :
    (create dot dotdot T k name dir).dirs k = some (es ++ [(name, T.count)]) := by
  simp only [create, if_neg (Nat.ne_of_lt hk), if_pos, h, Option.map_some]

theorem create_dirs_of_ne {j : ℕ} (hj : j ≠ k) (hcount : j ≠ T.count) (name : N) (dir : Bool) :
    (create dot dotdot T k name dir).dirs j = T.dirs j := by
  simp only [create, if_neg hcount, if_neg hj]

/-- What is where after a file was created. -/
theorem at_create (h : T.dirs k = some es) (hb : ∀ j es, T.dirs j = some es → j < T.count)
    (name : N) (dir : Bool) (j q : ℕ) (e : N × ℕ) :
    (create dot dotdot T k name dir).At j q e ↔
      (j = T.count ∧ dir = true ∧ [(dot, T.count), (dotdot, k)][q]? = some e) ∨
      (j = k ∧ q = es.length ∧ e = (name, T.count)) ∨ T.At j q e := by
  have hk := hb k es h
  by_cases hj : j = T.count
  · subst hj
    have hold : ¬ T.At T.count q e := fun ⟨es', hes', _⟩ => Nat.lt_irrefl _ (hb _ es' hes')
    have hnew := create_dirs_new dot dotdot T k name dir
    cases dir with
    | false =>
      have hnone : ¬ (create dot dotdot T k name false).At T.count q e := by
        rintro ⟨es', hes', -⟩
        exact absurd (hnew.symm.trans hes') (by simp)
      simp [hnone, hold, Nat.ne_of_gt hk]
    | true => simp [at_of_dirs hnew, hold, Nat.ne_of_gt hk]
  by_cases hjk : j = k
  · subst hjk
    rw [at_of_dirs (create_dirs_self dot dotdot h hk name dir), at_of_dirs h, List.getElem?_append]
    split_ifs with hq
    · simp [hj, Nat.ne_of_lt hq]
    · rw [List.getElem?_singleton, List.getElem?_eq_none (not_lt.1 hq)]
      split_ifs with hzero
      · have : q = es.length := by omega
        simp [this, hj, eq_comm]
      · have : q ≠ es.length := by omega
        simp [this, hj]
  · have := create_dirs_of_ne dot dotdot hjk hj name dir
    simp [At, this, hj, hjk]

variable {dot dotdot}

theorem create_dirs_eq_some (h : T.dirs k = some es) (hk : k < T.count) {name : N} {dir : Bool}
    {j : ℕ} {es' : List (N × ℕ)} (hj : (create dot dotdot T k name dir).dirs j = some es') :
    (j = T.count ∧ es' = [(dot, T.count), (dotdot, k)]) ∨
      (j = k ∧ es' = es ++ [(name, T.count)]) ∨ T.dirs j = some es' := by
  by_cases hjc : j = T.count
  · subst hjc
    rw [create_dirs_new] at hj
    split_ifs at hj
    exact Or.inl ⟨rfl, (Option.some.inj hj).symm⟩
  by_cases hjk : j = k
  · subst hjk
    rw [create_dirs_self _ _ h hk] at hj
    exact Or.inr (Or.inl ⟨rfl, (Option.some.inj hj).symm⟩)
  · rw [create_dirs_of_ne _ _ hjk hjc] at hj
    exact Or.inr (Or.inr hj)

/-- **Creating a file** keeps a namespace a tree. -/
theorem IsTree.create (hT : IsTree dot dotdot T) (h : T.dirs k = some es) (name : N) (dir : Bool) :
    IsTree dot dotdot (create dot dotdot T k name dir) := by
  have hk := hT.bounded k es h
  obtain ⟨up, hup, -⟩ := hT.above k es h
  have hlen : 2 ≤ es.length := (List.getElem?_eq_some_iff.1 hup).1
  have hat := at_create dot dotdot h hT.bounded name dir
  have hdirs : ∀ j es', (Namespace.create dot dotdot T k name dir).dirs j = some es' → _ :=
    fun j es' hj => create_dirs_eq_some h hk hj
  -- no entry goes away
  have hmono : ∀ j q e, T.At j q e → (Namespace.create dot dotdot T k name dir).At j q e :=
    fun j q e he => (hat j q e).2 (Or.inr (Or.inr he))
  refine ⟨?_, fun j es' hj => ?_, fun j es' hj => ?_, fun j es' hj => ?_,
    fun j q e he hq => ?_, fun i hi0 hi => ?_⟩
  · by_cases hk0 : 0 = k
    · rw [hk0, create_dirs_self _ _ h hk]
      rfl
    · rw [create_dirs_of_ne _ _ hk0 (by omega)]
      exact hT.zero
  · obtain ⟨rfl, -⟩ | ⟨rfl, -⟩ | hj := hdirs j es' hj
    · exact Nat.lt_succ_self _
    · exact Nat.lt_succ_of_lt hk
    · exact Nat.lt_succ_of_lt (hT.bounded j es' hj)
  · obtain ⟨rfl, rfl⟩ | ⟨rfl, rfl⟩ | hj := hdirs j es' hj
    · rfl
    · rw [List.getElem?_append_left (by omega)]
      exact hT.itself j es h
    · exact hT.itself j es' hj
  · obtain ⟨rfl, rfl⟩ | ⟨rfl, rfl⟩ | hj := hdirs j es' hj
    · exact ⟨k, rfl, Or.inr ⟨by omega, es.length, name, hlen,
        (hat k es.length _).2 (Or.inr (Or.inl ⟨rfl, rfl, rfl⟩))⟩⟩
    · rw [List.getElem?_append_left (by omega)]
      obtain ⟨up', hup', hroot⟩ := hT.above j es h
      exact ⟨up', hup', hroot.imp_right fun ⟨hj0, q, x, hq, hx⟩ => ⟨hj0, q, x, hq, hmono _ _ _ hx⟩⟩
    · obtain ⟨up', hup', hroot⟩ := hT.above j es' hj
      exact ⟨up', hup', hroot.imp_right fun ⟨hj0, q, x, hq, hx⟩ => ⟨hj0, q, x, hq, hmono _ _ _ hx⟩⟩
  · obtain ⟨rfl, hdir, he⟩ | ⟨rfl, rfl, rfl⟩ | he := (hat j q e).1 he
    · rw [List.getElem?_eq_none (by simpa using hq)] at he
      cases he
    · exact ⟨by omega, Nat.lt_succ_self _⟩
    · exact (hT.entries j q e he hq).imp_right Nat.lt_succ_of_lt
  · have hnew : ∀ j q x, 2 ≤ q → T.At j q (x, i) → i < T.count :=
      fun j q x hq hx => (hT.entries j q _ hx hq).2
    have hdots : ∀ q x, 2 ≤ q → ¬ [(dot, T.count), (dotdot, k)][q]? = some (x, i) := by
      intro q x hq he
      rw [List.getElem?_eq_none (by simpa using hq)] at he
      cases he
    -- the new file has the new entry only, the others have theirs
    obtain rfl | hi : i = T.count ∨ i < T.count := by
      have : i < T.count + 1 := hi
      omega
    · refine ⟨(k, es.length), ⟨hlen, name, (hat _ _ _).2 (Or.inr (Or.inl ⟨rfl, rfl, rfl⟩))⟩, ?_⟩
      rintro ⟨j, q⟩ ⟨hq, x, hx⟩
      obtain ⟨-, -, he⟩ | ⟨rfl, rfl, -⟩ | he := (hat j q _).1 hx
      · exact absurd he (hdots q x hq)
      · rfl
      · exact absurd (hnew j q x hq he) (Nat.lt_irrefl _)
    · obtain ⟨x, ⟨hx2, y, hy⟩, hunique⟩ := hT.once i hi0 hi
      refine ⟨x, ⟨hx2, y, hmono _ _ _ hy⟩, ?_⟩
      rintro ⟨j, q⟩ ⟨hq, z, hz⟩
      obtain ⟨-, -, he⟩ | ⟨-, -, he⟩ | he := (hat j q _).1 hz
      · exact absurd he (hdots q z hq)
      · exact absurd (Prod.mk.inj he).2 (Nat.ne_of_lt hi)
      · exact hunique (j, q) ⟨hq, z, he⟩

/-- Creating a file under a new name keeps the names distinct. -/
theorem Distinct.create (hT : Distinct T) (hne : dot ≠ dotdot) (h : T.dirs k = some es)
    (hk : k < T.count) (hname : name ∉ es.map Prod.fst) (dir : Bool) :
    Distinct (create dot dotdot T k name dir) := by
  intro j es' hj
  obtain ⟨rfl, rfl⟩ | ⟨rfl, rfl⟩ | hj := create_dirs_eq_some h hk hj
  · simpa using hne
  · rw [List.map_append]
    exact (hT j es h).append (List.nodup_singleton _) (List.disjoint_singleton.2 hname)
  · exact hT j es' hj

theorem root_dirs_eq_some (h : (root dot dotdot).dirs k = some es) :
    k = 0 ∧ es = [(dot, 0), (dotdot, 0)] := by
  simp only [root] at h
  split_ifs at h with hk
  exact ⟨hk, (Option.some.inj h).symm⟩

theorem distinct_root (hne : dot ≠ dotdot) : Distinct (root dot dotdot) := by
  intro k es h
  obtain ⟨-, rfl⟩ := root_dirs_eq_some h
  simpa using hne

theorem isTree_root : IsTree dot dotdot (root dot dotdot) := by
  refine ⟨rfl, fun k es h => ?_, fun k es h => ?_, fun k es h => ?_,
    fun k q e ⟨es, h, he⟩ hq => ?_, fun i hi0 hi => absurd (Nat.lt_one_iff.1 hi) hi0⟩
  all_goals obtain ⟨rfl, rfl⟩ := root_dirs_eq_some h
  · exact Nat.one_pos
  · rfl
  · exact ⟨0, rfl, Or.inl ⟨rfl, rfl⟩⟩
  · rw [List.getElem?_eq_none (by simpa using hq)] at he
    cases he

end

end Namespace

end OperatingSystems

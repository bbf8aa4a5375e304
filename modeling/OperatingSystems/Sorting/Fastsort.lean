import OperatingSystems.Bytes.Basic
import OperatingSystems.Sorting.Comparator

/-!
# fastsort

`fastsort.c` reads the records of a file, sorts them by their keys with `qsort`, and writes them to
another file.  `qsort` itself is a parameter.  Allocating memory, reading and writing succeed.

* `Rec` : `rec_t`, a record; its first four bytes are its key.
* `cmpfunc` : the comparison, a subtraction of unsigned keys that is returned as an `int`.
* `fastsort` : the loops of `main`.
* `fastsort_eq` : the loops agree on the number of records.
* `sorts_iff` : **exactly which files are sorted** whatever `qsort` does with an inconsistent
  comparison.
* `sorts_two_records` : the output for two keys that are far apart is in the wrong order.
-/

namespace OperatingSystems

namespace Fastsort

open Bytes

/-- `sizeof(rec_t)` -/
def sizeofRec : ℕ := 100

/-- `rec_t`, a key and 24 words, as the bytes of a file. -/
structure Rec where
  bytes : List UInt8
  length_bytes : bytes.length = sizeofRec
  deriving DecidableEq

theorem Rec.ext_bytes {r r' : Rec} (h : r.bytes = r'.bytes) : r = r' := by
  cases r
  cases r'
  cases h
  rfl

namespace Rec

/-- The key. -/
def key (r : Rec) : ℕ := toNat 4 fun i => r.bytes.getD i 0

/-- A record after its first bytes were overwritten. -/
def overwrite (r : Rec) (data : List UInt8) : Rec where
  bytes := data.take sizeofRec ++ r.bytes.drop data.length
  length_bytes := by
    rw [List.length_append, List.length_take, List.length_drop, r.length_bytes]
    omega

end Rec

/-- Conversion to a 32-bit `int`. -/
def int (x : ℤ) : ℤ := Int.bmod x (2 ^ 32)

/-- Conversion to `unsigned long`. -/
def ulong (x : ℤ) : ℕ := (x % 2 ^ 64).toNat

/-- `cmpfunc`. -/
def cmpfunc (a b : Rec) : ℤ := int (((a.key : ℤ) - b.key) % 2 ^ 32)

/-- The loop that reads the records; `input` is the rest of the file. -/
def readLoop (fileSize counter : ℕ) (input : List UInt8) (records : ℕ → Rec) :
    ℕ × (ℕ → Rec) :=
  if (counter + 1) * sizeofRec ≤ fileSize then
    let data := input.take sizeofRec
    let records := Function.update records counter ((records counter).overwrite data)
    if data.length = 0 then (counter + 1, records)
    else readLoop fileSize (counter + 1) (input.drop sizeofRec) records
  else (counter, records)
termination_by fileSize - counter * sizeofRec
decreasing_by
  simp only [sizeofRec] at *
  omega

/-- `qsort(records, counter, sizeof(rec_t), cmpfunc)` -/
def sortRecords (qsort : (Rec → Rec → ℤ) → List Rec → List Rec) (counter : ℕ)
    (records : ℕ → Rec) : ℕ → Rec :=
  fun i => (qsort cmpfunc ((List.range counter).map records)).getD i (records i)

/-- The loop that writes the records. -/
def writeLoop (fileSize counter : ℕ) (records : ℕ → Rec) (output : List UInt8) : List UInt8 :=
  if (counter + 1) * sizeofRec ≤ fileSize then
    writeLoop fileSize (counter + 1) records (output ++ (records counter).bytes)
  else output
termination_by fileSize - counter * sizeofRec
decreasing_by
  simp only [sizeofRec] at *
  omega

/-- `main`, from `fileSize` on; `mem` is what `malloc` returns. -/
def fastsort (qsort : (Rec → Rec → ℤ) → List Rec → List Rec) (mem : ℕ → Rec)
    (file : List UInt8) : List UInt8 :=
  let fileSize := int file.length
  let r := readLoop (ulong fileSize) 0 file mem
  writeLoop (ulong fileSize) 0 (sortRecords qsort r.1 r.2) []

theorem ulong_int {n : ℕ} (h : n < 2 ^ 31) : ulong (int n) = n := by
  have hint : int n = n := Int.bmod_eq_of_le (by omega) (by omega)
  rw [hint, ulong]
  omega

/-! ### The loops -/

variable {qsort : (Rec → Rec → ℤ) → List Rec → List Rec} {mem : ℕ → Rec}

/-- The contents of a file of records. -/
def contents (rs : List Rec) : List UInt8 := rs.flatMap Rec.bytes

theorem length_contents (rs : List Rec) : (contents rs).length = rs.length * sizeofRec := by
  induction rs with
  | nil => rfl
  | cons r rs ih =>
    rw [contents, List.flatMap_cons, List.length_append, r.length_bytes, ← contents, ih,
      List.length_cons, Nat.succ_mul, Nat.add_comm]

@[simp] theorem contents_cons (r : Rec) (rs : List Rec) :
    contents (r :: rs) = r.bytes ++ contents rs := rfl

theorem contents_injective : Function.Injective contents := by
  intro rs rs' h
  have hlength : rs.length = rs'.length := by
    have h' := congrArg List.length h
    rw [length_contents, length_contents] at h'
    exact Nat.eq_of_mul_eq_mul_right (by decide) h'
  induction rs generalizing rs' with
  | nil => exact (List.length_eq_zero_iff.1 hlength.symm).symm
  | cons r rs ih =>
    cases rs' with
    | nil => cases hlength
    | cons r' rs' =>
      obtain ⟨hr, hrs⟩ := List.append_inj h (r.length_bytes.trans r'.length_bytes.symm)
      obtain rfl := Rec.ext_bytes hr
      rw [ih hrs (Nat.succ.inj hlength)]

theorem overwrite_bytes (r r' : Rec) : r.overwrite r'.bytes = r' := by
  refine Rec.ext_bytes ?_
  show r'.bytes.take sizeofRec ++ r.bytes.drop r'.bytes.length = r'.bytes
  rw [List.take_of_length_le r'.length_bytes.le,
    List.drop_of_length_le (r.length_bytes.trans r'.length_bytes.symm).le, List.append_nil]

/-- The records that the loop reads. -/
theorem readLoop_contents (rs : List Rec) (n : ℕ) (records : ℕ → Rec) :
    ∃ records', readLoop ((n + rs.length) * sizeofRec) n (contents rs) records =
        (n + rs.length, records') ∧ (∀ i < n, records' i = records i) ∧
      ∀ i (h : i < rs.length), records' (n + i) = rs[i] := by
  induction rs generalizing n records with
  | nil =>
    refine ⟨records, ?_, fun _ _ => rfl, fun i h => absurd h (Nat.not_lt_zero i)⟩
    rw [readLoop, if_neg (by simp only [sizeofRec, List.length_nil]; omega)]
    rfl
  | cons r rs ih =>
    obtain ⟨records', hread, hold, hnew⟩ := ih (n + 1) (Function.update records n r)
    have hcount : n + (r :: rs).length = n + 1 + rs.length := by
      rw [List.length_cons]
      omega
    refine ⟨records', ?_, fun i hi => ?_, fun i hi => ?_⟩
    · have htake : (contents (r :: rs)).take sizeofRec = r.bytes := by
        rw [contents_cons, List.take_left' r.length_bytes]
      have hdrop : (contents (r :: rs)).drop sizeofRec = contents rs := by
        rw [contents_cons, List.drop_left' r.length_bytes]
      rw [hcount, readLoop, if_pos (Nat.mul_le_mul_right _ (by omega))]
      dsimp only
      rw [htake, hdrop, if_neg (by rw [r.length_bytes]; decide), overwrite_bytes, hread]
    · rw [hold i (by omega), Function.update_of_ne (by omega)]
    · cases i with
      | zero => rw [Nat.add_zero, hold n (by omega), Function.update_self, List.getElem_cons_zero]
      | succ i =>
        rw [show n + (i + 1) = n + 1 + i by omega, hnew i (Nat.lt_of_succ_lt_succ hi),
          List.getElem_cons_succ]

/-- What the loop writes. -/
theorem writeLoop_eq (records : ℕ → Rec) (m n : ℕ) (output : List UInt8) :
    writeLoop ((n + m) * sizeofRec) n records output =
      output ++ contents ((List.range' n m).map records) := by
  induction m generalizing n output with
  | zero =>
    rw [writeLoop, if_neg (by simp only [sizeofRec]; omega)]
    exact (List.append_nil output).symm
  | succ m ih =>
    rw [writeLoop, if_pos (Nat.mul_le_mul_right _ (by omega)), show n + (m + 1) = n + 1 + m by omega,
      ih, List.range'_succ, List.map_cons, contents_cons, List.append_assoc]

/-- **The program** writes what `qsort` returns. -/
theorem fastsort_eq {rs : List Rec} (hsize : (contents rs).length < 2 ^ 31)
    (hlength : (qsort cmpfunc rs).length = rs.length) :
    fastsort qsort mem (contents rs) = contents (qsort cmpfunc rs) := by
  have hlong : ulong (int (contents rs).length) = rs.length * sizeofRec :=
    (ulong_int hsize).trans (length_contents rs)
  obtain ⟨records, hread, -, hrecords⟩ := readLoop_contents rs 0 mem
  rw [Nat.zero_add] at hread
  have hmap : (List.range rs.length).map records = rs := by
    refine List.ext_getElem (by simp) fun i _ hi => ?_
    rw [List.getElem_map, List.getElem_range, ← hrecords i hi, Nat.zero_add]
  have hsorted : (List.range' 0 rs.length).map (sortRecords qsort rs.length records) =
      qsort cmpfunc rs := by
    refine List.ext_getElem (by simp [hlength]) fun i _ hi => ?_
    rw [List.getElem_map, List.getElem_range', sortRecords, hmap, List.getD_eq_getElem?_getD]
    simp [hi]
  have hwrite := writeLoop_eq (sortRecords qsort rs.length records) rs.length 0 []
  rw [Nat.zero_add, hsorted, List.nil_append] at hwrite
  simp only [fastsort, hlong, hread, hwrite]

/-! ### The order -/

/-- The output for the records `rs` consists of the same records, by increasing keys. -/
def SortsFile (qsort : (Rec → Rec → ℤ) → List Rec → List Rec) (mem : ℕ → Rec) (rs : List Rec) : Prop :=
  ∃ rs', fastsort qsort mem (contents rs) = contents rs' ∧ rs'.Perm rs ∧
    rs'.Pairwise fun a b => a.key ≤ b.key

theorem Rec.key_lt (r : Rec) : r.key < 2 ^ 32 := toNat_lt 4 _

/-- What the comparison returns: the difference, if it is an `int`. -/
theorem cmpfunc_eq (a b : Rec) : cmpfunc a b =
    if 2 ^ 31 ≤ (a.key : ℤ) - b.key then (a.key : ℤ) - b.key - 2 ^ 32
    else if (a.key : ℤ) - b.key < -2 ^ 31 then (a.key : ℤ) - b.key + 2 ^ 32
    else (a.key : ℤ) - b.key := by
  have ha := a.key_lt
  have hb := b.key_lt
  generalize hd : (a.key : ℤ) - b.key = d
  have hlt : -2 ^ 32 < d ∧ d < 2 ^ 32 := by omega
  rw [cmpfunc, hd, int, Int.bmod_def]
  norm_num
  split_ifs <;> omega

theorem cmpfunc_le_iff {a b : Rec} (hab : (a.key : ℤ) - b.key < 2 ^ 31)
    (hba : (b.key : ℤ) - a.key < 2 ^ 31) : cmpfunc a b ≤ 0 ↔ a.key ≤ b.key := by
  rw [cmpfunc_eq, if_neg (by omega), if_neg (by omega)]
  omega

theorem consistent_cmpfunc {rs : List Rec}
    (h : ∀ a ∈ rs, ∀ b ∈ rs, (b.key : ℤ) - a.key < 2 ^ 31) :
    Comparator.Consistent cmpfunc rs where
  swap a ha b hb := by
    have hab := h a ha b hb
    have hba := h b hb a ha
    rw [cmpfunc_eq, cmpfunc_eq, if_neg (by omega), if_neg (by omega), if_neg (by omega),
      if_neg (by omega)]
    omega
  trans a ha b hb c hc hab hbc := by
    rw [cmpfunc_le_iff (h b hb a ha) (h a ha b hb)] at hab
    rw [cmpfunc_le_iff (h c hc b hb) (h b hb c hc)] at hbc
    rw [cmpfunc_le_iff (h c hc a ha) (h a ha c hc)]
    exact hab.trans hbc

/-- A list that is ordered by its keys is not ordered by the comparison if two keys are far apart, and
the comparison is consistent. -/
theorem not_pairwise_of_far {rs : List Rec} {a b : Rec} (ha : a ∈ rs) (hb : b ∈ rs)
    (hfar : 2 ^ 31 ≤ (b.key : ℤ) - a.key) (hswap : 0 < cmpfunc a b ↔ cmpfunc b a < 0)
    (hkey : rs.Pairwise fun a b => a.key ≤ b.key) :
    ¬ rs.Pairwise fun a b => cmpfunc a b ≤ 0 := by
  intro hcmp
  have hne : a ≠ b := by
    rintro rfl
    omega
  rw [cmpfunc_eq b a, if_pos hfar] at hswap
  obtain ⟨-, hle⟩ | ⟨hle, -⟩ := Comparator.rel_or_rel (hkey.and hcmp) ha hb hne
  · have hlt := b.key_lt
    omega
  · omega

/-- The opposite order. -/
def downward (a b : Rec) : ℤ := b.key - a.key

theorem sort_downward (rs : List Rec) : (Comparator.sort downward rs).Perm rs ∧
    (Comparator.sort downward rs).Pairwise fun a b => downward a b ≤ 0 := by
  refine Comparator.sorts_sort downward rs ⟨fun a _ b _ => ?_, fun a _ b _ c _ hab hbc => ?_⟩
  · unfold downward
    omega
  · unfold downward at *
    omega

theorem not_pairwise_downward {rs : List Rec} {a b : Rec} (ha : a ∈ rs) (hb : b ∈ rs)
    (hlt : a.key < b.key) (hkey : rs.Pairwise fun a b => a.key ≤ b.key) :
    ¬ rs.Pairwise fun a b => downward a b ≤ 0 := by
  intro hdown
  have hne : a ≠ b := by
    rintro rfl
    omega
  unfold downward at hdown
  obtain ⟨-, hle⟩ | ⟨hle, -⟩ := Comparator.rel_or_rel (hkey.and hdown) ha hb hne
  · omega
  · omega

/-- **Which files are sorted.**  A file of records, of a size that is an `int`, is sorted with every
`qsort` that sorts by consistent comparisons if and only if no two keys differ by `2 ^ 31` or
more. -/
theorem sorts_iff {rs : List Rec} (hsize : (contents rs).length < 2 ^ 31) :
    (∀ qsort mem, Comparator.Sorts qsort → SortsFile qsort mem rs) ↔
      ∀ a ∈ rs, ∀ b ∈ rs, (b.key : ℤ) - a.key < 2 ^ 31 := by
  constructor
  · intro h a ha b hb
    by_contra hfar
    rw [not_lt] at hfar
    -- a `qsort` that puts the records into the opposite order if the comparison is inconsistent
    set qsort : (Rec → Rec → ℤ) → List Rec → List Rec :=
      Comparator.sortOr (Comparator.sort downward) with hqsort
    obtain ⟨rs', hfile, hperm, hkey⟩ := h qsort (fun _ => a) (Comparator.sorts_sortOr _)
    rw [← hperm.mem_iff] at ha hb
    have hout : (qsort cmpfunc rs).Perm rs → rs' = qsort cmpfunc rs := fun hq =>
      contents_injective (hfile.symm.trans (fastsort_eq hsize hq.length_eq))
    by_cases hcons : Comparator.Consistent cmpfunc rs
    · obtain ⟨hq, hsorted⟩ := Comparator.sorts_sortOr (Comparator.sort downward) cmpfunc rs hcons
      rw [← hqsort, ← hout hq] at hsorted
      refine not_pairwise_of_far ha hb hfar ?_ hkey hsorted
      exact hcons.swap a (hperm.mem_iff.1 ha) b (hperm.mem_iff.1 hb)
    · have hdown : qsort cmpfunc rs = Comparator.sort downward rs := if_neg hcons
      obtain ⟨hq, hsorted⟩ := sort_downward rs
      rw [← hdown] at hq hsorted
      rw [← hout hq] at hsorted
      exact not_pairwise_downward ha hb (by omega) hkey hsorted
  · intro h qsort mem hqsort
    obtain ⟨hperm, hsorted⟩ := hqsort cmpfunc rs (consistent_cmpfunc h)
    refine ⟨_, fastsort_eq hsize hperm.length_eq, hperm, hsorted.imp_of_mem fun {a b} ha hb hab => ?_⟩
    rw [hperm.mem_iff] at ha hb
    exact (cmpfunc_le_iff (h b hb a ha) (h a ha b hb)).1 hab

/-- A record with the key 0. -/
def lowRec : Rec := ⟨List.replicate 100 0, rfl⟩

/-- A record with the key `2 ^ 31 + 1`. -/
def highRec : Rec := ⟨[1, 0, 0, 128] ++ List.replicate 96 0, rfl⟩

/-- A file with two equal records. -/
theorem sorts_equal_records : SortsFile Comparator.sort (fun _ => lowRec) [highRec, highRec] := by
  refine (sorts_iff (by rw [length_contents]; decide)).2 (fun a ha b hb => ?_) _ _
    Comparator.sorts_sort
  obtain rfl : a = highRec := by simpa using ha
  obtain rfl : b = highRec := by simpa using hb
  decide

/-- **Two keys that are far apart** are in the wrong order in the output, with every `qsort`. -/
theorem sorts_two_records : (contents [highRec, lowRec]).length < 2 ^ 31 ∧
    Comparator.Sorts (Comparator.sort (α := Rec)) ∧
    ∀ qsort mem, Comparator.Sorts qsort → ¬ SortsFile qsort mem [highRec, lowRec] := by
  have hsize : (contents [highRec, lowRec]).length < 2 ^ 31 := by
    rw [length_contents]
    decide
  refine ⟨hsize, Comparator.sorts_sort, fun qsort mem hqsort hsorts => ?_⟩
  have hlow : cmpfunc lowRec lowRec = 0 := by decide
  have hhigh : cmpfunc highRec highRec = 0 := by decide
  have hup : cmpfunc lowRec highRec = 2 ^ 31 - 1 := by decide
  have hdown : cmpfunc highRec lowRec = -(2 ^ 31 - 1) := by decide
  have hcons : Comparator.Consistent cmpfunc [highRec, lowRec] := by
    constructor
    · simp [hlow, hhigh, hup, hdown]
    · simp [hlow, hhigh, hup, hdown]
  obtain ⟨hq, hsorted⟩ := hqsort cmpfunc _ hcons
  obtain ⟨rs', hfile, hperm, hkey⟩ := hsorts
  rw [fastsort_eq hsize hq.length_eq] at hfile
  rw [contents_injective hfile] at hq hsorted
  refine not_pairwise_of_far (a := lowRec) (b := highRec) ?_ ?_ (by decide) ?_ hkey hsorted
  · simp [hq.mem_iff]
  · simp [hq.mem_iff]
  · simp [hup, hdown]

end Fastsort

end OperatingSystems

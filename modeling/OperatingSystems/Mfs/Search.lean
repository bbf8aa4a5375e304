import OperatingSystems.Mfs.Directory

/-!
# Searching a directory

`sLookup` walks over all fourteen block numbers of the directory.  Those that exist come first; for
the others `lseek` fails, and the bytes of the image behind the last block are searched, and behind
its end what was in memory.  `sUnlink` searches only the blocks that exist.

* `Server.lookupLoop_eq`, `Server.unlinkLoop_eq` : the loops find the first entry with the name, in
  the blocks they see one after the other.
* `Server.own`, `Server.strays` : the entries in the blocks of a directory, and those that the rounds
  without a block see.
* `Server.sLookup_eq`, `Server.unlinkFinds_iff` : what the two searches find.
-/

namespace OperatingSystems

namespace Mfs

open Bytes

/-- The 64 entries of a block. -/
def entries (d : Bytes) : List (List UInt8 × ℤ) := (List.range 64).map (entry d)

theorem mem_entries {d : Bytes} {e : List UInt8 × ℤ} : e ∈ entries d ↔ ∃ j < 64, entry d j = e := by
  simp only [entries, List.mem_map, List.mem_range]

theorem entries_eq {d d' : Bytes} (h : EqTo blockSize d d') : entries d = entries d' :=
  List.map_congr_left fun _ hj => entry_eq h (List.mem_range.1 hj)

/-- The first entry with a name. -/
def find (name : List UInt8) (es : List (List UInt8 × ℤ)) : Option (List UInt8 × ℤ) :=
  es.find? fun e => e.1 = name

theorem find_entries (name : List UInt8) (d : Bytes) :
    find name (entries d) = ((List.range 64).find? fun j => entryName d j = name).map (entry d) := by
  rw [find, entries, List.find?_map]
  rfl

theorem find_eq_none {name : List UInt8} {es : List (List UInt8 × ℤ)} :
    find name es = none ↔ ∀ e ∈ es, e.1 ≠ name := by
  simp only [find, List.find?_eq_none, decide_eq_true_eq]

theorem mem_of_find {name : List UInt8} {es : List (List UInt8 × ℤ)} {e : List UInt8 × ℤ}
    (h : find name es = some e) : e ∈ es ∧ e.1 = name :=
  ⟨List.mem_of_find?_eq_some h, by simpa using List.find?_some h⟩

theorem find_append {name : List UInt8} {es es' : List (List UInt8 × ℤ)} :
    find name (es ++ es') = (find name es).or (find name es') :=
  List.find?_append

/-- What is found in slots that contain the entries `es`, and behind them none. -/
theorem find_slots {name : List UInt8} (hname : name ≠ []) {es : List (List UInt8 × ℕ)} {N : ℕ}
    (hN : es.length ≤ N) : find name ((List.range N).map fun q => slot es[q]?) =
      (es.find? fun e => e.1 = name).map fun e => (e.1, (e.2 : ℤ)) := by
  obtain ⟨r, rfl⟩ := Nat.exists_eq_add_of_le hN
  have hentries : ((List.range es.length).map fun q => slot es[q]?) =
      es.map fun e => (e.1, (e.2 : ℤ)) := by
    refine List.ext_getElem (by simp) fun q hq _ => ?_
    have hlt : q < es.length := by simpa using hq
    simp only [List.getElem_map, List.getElem_range, List.getElem?_eq_getElem hlt, slot]
  have hunused : find name (((List.range r).map (es.length + ·)).map fun q => slot es[q]?) =
      none := by
    refine find_eq_none.2 fun e he => ?_
    obtain ⟨q, hq, rfl⟩ := List.mem_map.1 he
    obtain ⟨d, -, rfl⟩ := List.mem_map.1 hq
    rw [List.getElem?_eq_none (by omega)]
    exact hname.symm
  rw [List.range_add, List.map_append, find_append, hentries, hunused, Option.or_none, find,
    List.find?_map]
  rfl

theorem find?_congr {α : Type} {p q : α → Bool} {l : List α} (h : ∀ x ∈ l, p x = q x) :
    l.find? p = l.find? q := by
  rw [← List.head?_filter, ← List.head?_filter, List.filter_congr h]

theorem findSome?_congr {α β : Type} {f g : α → Option β} {l : List α} (h : ∀ x ∈ l, f x = g x) :
    l.findSome? f = l.findSome? g := by
  induction l with
  | nil => rfl
  | cons x l ih =>
    rw [List.findSome?_cons, List.findSome?_cons, h x List.mem_cons_self,
      ih fun y hy => h y (List.mem_cons_of_mem _ hy)]

namespace Server

variable {s s' : Server} {L : Layout} {T : Names} {k a : ℕ} {junk : Junk} {name : List UInt8}
  {pInode : Bytes} {es : List (List UInt8 × ℕ)}

/-! ### The loops -/

/-- One round of `sLookup`. -/
theorem lookupLoop_cons (junk : Junk) (name : List UInt8) (pInode : Bytes) (i : ℕ) (is : List ℕ)
    (s : Server) : (lookupLoop junk name pInode (i :: is) s).2 =
      (find (name.take 60) (entries ((s.lseek (blockArr pInode i)).read blockSize
        (junk (.dirBlkTmp i))).2)).elim
        (lookupLoop junk name pInode is ((s.lseek (blockArr pInode i)).read blockSize
          (junk (.dirBlkTmp i))).1).2 Prod.snd := by
  rw [find_entries]
  conv_lhs => unfold lookupLoop
  dsimp only
  split
  · rename_i j hj
    rw [hj]
    rfl
  · rename_i hnone
    rw [hnone]
    rfl

/-- The rounds of `sLookup` from `i` on, of which round `i` sees the block `seen i`. -/
theorem lookupLoop_eq {I : ℕ → Server → Prop} {seen : ℕ → Bytes}
    (hstep : ∀ i s, i < 14 → I i s →
      I (i + 1) ((s.lseek (blockArr pInode i)).read blockSize (junk (.dirBlkTmp i))).1 ∧
      EqTo blockSize ((s.lseek (blockArr pInode i)).read blockSize (junk (.dirBlkTmp i))).2 (seen i))
    (n i : ℕ) (hi : i + n ≤ 14) (hI : I i s) :
    (lookupLoop junk name pInode (List.range' i n) s).2 =
      (find (name.take 60) ((List.range' i n).flatMap fun i => entries (seen i))).elim (-1)
        Prod.snd := by
  induction n generalizing i s with
  | zero => rfl
  | succ n ih =>
    obtain ⟨hnext, hseen⟩ := hstep i s (by omega) hI
    rw [List.range'_succ, lookupLoop_cons, List.flatMap_cons, find_append, entries_eq hseen,
      ih (i + 1) (by omega) hnext]
    cases find (name.take 60) (entries (seen i)) <;> rfl

/-- One round of `sUnlink`. -/
theorem unlinkLoop_cons (name : List UInt8) (pInode : Bytes) (i : ℕ) (is : List ℕ) (s : Server)
    (dirBlk : Bytes) {r : Option ℕ} (hr : ((List.range 64).find? fun j => cstr (blockSize - 64 * j)
      (slice ((s.lseek (blockArr pInode i)).read blockSize dirBlk).2 (64 * j)) = name) = r) :
    unlinkLoop name pInode (i :: is) s dirBlk =
      if blockArr pInode i ≥ 0 then
        r.elim (unlinkLoop name pInode is ((s.lseek (blockArr pInode i)).read blockSize dirBlk).1
          ((s.lseek (blockArr pInode i)).read blockSize dirBlk).2) fun j =>
          (((s.lseek (blockArr pInode i)).read blockSize dirBlk).1,
            some (((s.lseek (blockArr pInode i)).read blockSize dirBlk).2, blockArr pInode i, j))
      else unlinkLoop name pInode is s dirBlk := by
  -- the equations that `unfold` would need take too long to derive
  delta unlinkLoop
  dsimp only [List.brecOn, List.brecOn.go]
  delta unlinkLoop._f
  dsimp only
  rw [hr]
  cases r <;> rfl

/-- The block and the index of the first entry with the name in the blocks that exist. -/
def locate (m : Bytes) (name : List UInt8) (pInode : Bytes) (is : List ℕ) : Option (ℕ × ℕ) :=
  is.findSome? fun i =>
    if blockArr pInode i ≥ 0 then
      ((List.range 64).find? fun j =>
        entryName (slice m (blockArr pInode i).toNat) j = name).map fun j => (i, j)
    else none

theorem locate_eq_some {m : Bytes} {is : List ℕ} {i j : ℕ}
    (h : locate m name pInode is = some (i, j)) : i ∈ is ∧ 0 ≤ blockArr pInode i ∧ j < 64 ∧
      entryName (slice m (blockArr pInode i).toNat) j = name := by
  obtain ⟨i', hi', h⟩ := List.exists_of_findSome?_eq_some h
  split_ifs at h with hpos
  obtain ⟨j', hj', he⟩ := Option.map_eq_some_iff.1 h
  obtain ⟨rfl, rfl⟩ := Prod.mk.inj he
  exact ⟨hi', hpos, List.mem_range.1 (List.mem_of_find?_eq_some hj'),
    by simpa using List.find?_some hj'⟩

theorem locate_eq_none {m : Bytes} {is : List ℕ} : locate m name pInode is = none ↔
    ∀ i ∈ is, 0 ≤ blockArr pInode i → ∀ e ∈ entries (slice m (blockArr pInode i).toNat),
      e.1 ≠ name := by
  rw [locate, List.findSome?_eq_none_iff]
  refine forall₂_congr fun i _ => ?_
  split_ifs with hpos
  · simp [hpos, entries, entry, List.find?_eq_none]
  · simp [hpos]

/-- The rounds of `sUnlink`, in blocks that are in the image and whose names are terminated. -/
theorem unlinkLoop_eq {is : List ℕ} (hs' : Alike s s') (hblocks : ∀ i ∈ is, 0 ≤ blockArr pInode i →
      (blockArr pInode i).toNat + blockSize ≤ s.disk.size ∧ ∀ j < 64,
        (entryName (slice s.disk.bytes (blockArr pInode i).toNat) j).length < 60)
    (dirBlk : Bytes) (name : List UInt8) : Alike s (unlinkLoop name pInode is s' dirBlk).1 ∧
      ((locate s.disk.bytes name pInode is = none ∧
        (unlinkLoop name pInode is s' dirBlk).2 = none) ∨
      ∃ i j d, locate s.disk.bytes name pInode is = some (i, j) ∧
        (unlinkLoop name pInode is s' dirBlk).2 = some (d, blockArr pInode i, j) ∧
        EqTo blockSize d (slice s.disk.bytes (blockArr pInode i).toNat)) := by
  induction is generalizing s' dirBlk with
  | nil => exact ⟨hs', Or.inl ⟨rfl, rfl⟩⟩
  | cons i is ih =>
    have ih' := fun {t : Server} (ht : Alike s t) (d : Bytes) =>
      ih ht (fun i hi => hblocks i (List.mem_cons_of_mem _ hi)) d
    by_cases hpos : 0 ≤ blockArr pInode i
    swap
    · have hloc : locate s.disk.bytes name pInode (i :: is) = locate s.disk.bytes name pInode is := by
        rw [locate, List.findSome?_cons, if_neg hpos]
        rfl
      rw [hloc, unlinkLoop_cons name pInode i is s' dirBlk rfl, if_neg hpos]
      obtain ⟨halike, hres⟩ := ih' hs' dirBlk
      exact ⟨halike, hres⟩
    obtain ⟨hend, hnames⟩ := hblocks i List.mem_cons_self hpos
    set x := (blockArr pInode i).toNat with hx
    have hxi : blockArr pInode i = (x : ℤ) := (Int.toNat_of_nonneg hpos).symm
    have hread : EqTo blockSize ((s'.lseek (blockArr pInode i)).read blockSize dirBlk).2
        (slice s.disk.bytes x) := by
      rw [hxi, ← hs'.bytes]
      exact read_eqTo (by rw [hs'.size]; exact hend) dirBlk
    have hfind : ((List.range 64).find? fun j => cstr (blockSize - 64 * j)
        (slice ((s'.lseek (blockArr pInode i)).read blockSize dirBlk).2 (64 * j)) = name) =
        (List.range 64).find? fun j => entryName (slice s.disk.bytes x) j = name := by
      refine find?_congr fun j hj => ?_
      have hj' := List.mem_range.1 hj
      have hname := congrArg Prod.fst (entry_eq hread hj')
      simp only [entry] at hname
      rw [cstr_entry (by rw [hname]; exact hnames j hj') hj', hname]
    rw [unlinkLoop_cons name pInode i is s' dirBlk hfind, if_pos hpos, locate, List.findSome?_cons,
      if_pos hpos, ← hx]
    have halike := hs'.read (blockArr pInode i) blockSize dirBlk
    cases hj : (List.range 64).find? fun j => entryName (slice s.disk.bytes x) j = name with
    | none => exact ih' halike _
    | some j => exact ⟨halike, Or.inr ⟨i, j, _, rfl, rfl, hread⟩⟩

/-! ### What the rounds see -/

/-- The number of blocks of a file. -/
def blockCount (inode : Bytes) : ℕ := ((List.range 14).filter fun b => blockArr inode b ≠ -1).length

/-- The entries in the blocks of a directory. -/
def own (m inode : Bytes) : List (List UInt8 × ℤ) :=
  (List.range' 0 (blockCount inode)).flatMap fun b => entries (slice m (blockArr inode b).toNat)

/-- The bytes of a file of the size `size` from `p` on, and behind its end those of `buf`. -/
def beyond (m : Bytes) (size p : ℕ) (buf : Bytes) : Bytes :=
  fun x => if p + x < size then m (p + x) else buf x

/-- The entries that the rounds without a block see: in the bytes that follow the last block. -/
def strays (m : Bytes) (size : ℕ) (junk : Junk) (inode : Bytes) : List (List UInt8 × ℤ) :=
  (List.range' (blockCount inode) (14 - blockCount inode)).flatMap fun i =>
    entries (beyond m size ((blockArr inode (blockCount inode - 1)).toNat +
      4096 * (i + 1 - blockCount inode)) (junk (.dirBlkTmp i)))

theorem range_split {B : ℕ} (hB : B ≤ 14) :
    List.range 14 = List.range' 0 B ++ List.range' B (14 - B) := by
  have happend : List.range' 0 B ++ List.range' (0 + B) (14 - B) = List.range' 0 (B + (14 - B)) :=
    List.range'_append_1
  rw [Nat.zero_add, Nat.add_sub_cancel' hB] at happend
  rw [List.range_eq_range', happend]

theorem filter_blocks {inode : Bytes} {B : ℕ} (hB : B ≤ 14)
    (h : ∀ b < 14, blockArr inode b ≠ -1 ↔ b < B) :
    (List.range 14).filter (fun b => blockArr inode b ≠ -1) = List.range' 0 B := by
  have hin : (List.range' 0 B).filter (fun b => blockArr inode b ≠ -1) = List.range' 0 B := by
    refine List.filter_eq_self.2 fun b hb => ?_
    rw [List.mem_range'_1] at hb
    exact decide_eq_true ((h b (by omega)).2 (by omega))
  have hout : (List.range' B (14 - B)).filter (fun b => blockArr inode b ≠ -1) = [] := by
    refine List.filter_eq_nil_iff.2 fun b hb => ?_
    rw [List.mem_range'_1] at hb
    exact fun hne => absurd ((h b (by omega)).1 (of_decide_eq_true hne)) (by omega)
  rw [range_split hB, List.filter_append, hin, hout, List.append_nil]

theorem blockCount_eq {inode : Bytes} {B : ℕ} (hB : B ≤ 14)
    (h : ∀ b < 14, blockArr inode b ≠ -1 ↔ b < B) : blockCount inode = B := by
  rw [blockCount, filter_blocks hB h, List.length_range']

/-- The name in a slot begins with the byte there. -/
theorem entryName_eq_cons {d : Bytes} {j : ℕ} {c : UInt8} {l : List UInt8}
    (h : entryName d j = c :: l) : d (64 * j) = c ∧ c ≠ 0 := by
  unfold entryName at h
  rw [cstr_succ] at h
  split_ifs at h with hzero
  obtain ⟨hc, -⟩ := List.cons.inj h
  exact ⟨hc, hc ▸ hzero⟩

/-- A name that begins behind the last block, where memory contains zeros. -/
theorem byte_of_mem_strays {m inode : Bytes} {size : ℕ} {e : List UInt8 × ℤ} {c : UInt8}
    {l : List UInt8} (he : e ∈ strays m size (fun _ _ => 0) inode) (hname : e.1 = c :: l) :
    c ≠ 0 ∧ ∃ t, m ((blockArr inode (blockCount inode - 1)).toNat + 4096 + 64 * t) = c := by
  obtain ⟨i, hi, he⟩ := List.mem_flatMap.1 he
  obtain ⟨j, -, rfl⟩ := mem_entries.1 he
  obtain ⟨hbyte, hc⟩ := entryName_eq_cons hname
  rw [List.mem_range'_1] at hi
  unfold beyond at hbyte
  split_ifs at hbyte
  · refine ⟨hc, 64 * (i - blockCount inode) + j, ?_⟩
    rw [← hbyte]
    exact congrArg m (by omega)
  · exact absurd hbyte.symm hc

/-! ### What the searches find -/

section

variable {B : ℕ}

/-- **`sLookup`** finds the first entry with the name in the blocks of the directory, and if there
is none, in the bytes that follow. -/
theorem lookupLoop_spec (hs : Alike s s') (hB : 1 ≤ B ∧ B ≤ 14)
    (halloc : ∀ b < 14, blockArr pInode b ≠ -1 ↔ b < B)
    (hblocks : ∀ b < B, ∃ x : ℕ, blockArr pInode b = x ∧ x + blockSize ≤ s.disk.size)
    (junk : Junk) (name : List UInt8) :
    (lookupLoop junk name pInode (List.range 14) s').2 =
      (find (name.take 60) (own s.disk.bytes pInode ++
        strays s.disk.bytes s.disk.size junk pInode)).elim (-1) Prod.snd := by
  set P := (blockArr pInode (B - 1)).toNat with hP
  set seen : ℕ → Bytes := fun i =>
    if i < B then slice s.disk.bytes (blockArr pInode i).toNat
    else beyond s.disk.bytes s.disk.size (P + 4096 * (i + 1 - B)) (junk (.dirBlkTmp i)) with hseen
  have hown : own s.disk.bytes pInode ++ strays s.disk.bytes s.disk.size junk pInode =
      (List.range' 0 14).flatMap fun i => entries (seen i) := by
    rw [← List.range_eq_range', range_split hB.2, List.flatMap_append, own, strays,
      blockCount_eq hB.2 halloc]
    congr 1
    · refine List.flatMap_congr fun b hb => ?_
      rw [List.mem_range'_1] at hb
      have hlt : b < B := by omega
      rw [hseen]
      simp only [if_pos hlt]
    · refine List.flatMap_congr fun b hb => ?_
      rw [List.mem_range'_1] at hb
      rw [hseen]
      simp only [if_neg (not_lt.2 hb.1), hP]
  rw [hown, List.range_eq_range']
  -- behind the last block, each round continues where the one before it stopped
  refine lookupLoop_eq (I := fun i t => Alike s t ∧
    (B ≤ i → t.disk.pos = min (P + 4096 * (i + 1 - B)) s.disk.size)) (fun i t hi ht => ?_) 14 0 le_rfl
    ⟨hs, by omega⟩
  obtain ⟨halike, hpos⟩ := ht
  have hread := halike.read (blockArr pInode i) blockSize (junk (.dirBlkTmp i))
  rcases Nat.lt_or_ge i B with hlt | hge
  · obtain ⟨x, hx, hend⟩ := hblocks i hlt
    refine ⟨⟨hread, fun hle => ?_⟩, ?_⟩
    · obtain rfl : B = i + 1 := by omega
      have hPx : P = x := by rw [hP, Nat.add_sub_cancel, hx]; rfl
      have hsize : (t.lseek (x : ℤ)).disk.size = s.disk.size := by rw [lseek_size, halike.size]
      rw [hx, hPx]
      change (t.lseek (x : ℤ)).disk.pos + min blockSize ((t.lseek (x : ℤ)).disk.size -
        (t.lseek (x : ℤ)).disk.pos) = _
      rw [lseek_pos, hsize]
      simp only [blockSize] at hend ⊢
      omega
    · rw [hseen]
      simp only [if_pos hlt, hx]
      rw [← halike.bytes]
      exact read_eqTo (by rw [halike.size]; exact hend) _
  · have hnone : blockArr pInode i = -1 := by
      by_contra hne
      exact absurd ((halloc i hi).1 hne) (not_lt.2 hge)
    have hseek : t.lseek (-1) = t := rfl
    have hp := hpos hge
    rw [hnone, hseek] at hread ⊢
    refine ⟨⟨hread, fun _ => ?_⟩, fun x hx => ?_⟩
    · change t.disk.pos + min blockSize (t.disk.size - t.disk.pos) = _
      rw [hp, halike.size]
      simp only [blockSize]
      omega
    · rw [hseen]
      simp only [if_neg (not_lt.2 hge)]
      change (if x < blockSize ∧ t.disk.pos + x < t.disk.size then t.disk.bytes (t.disk.pos + x)
        else _) = if _ then _ else _
      rw [halike.bytes, halike.size, hp]
      by_cases hin : P + 4096 * (i + 1 - B) + x < s.disk.size
      · rw [if_pos hin, if_pos (by omega), min_eq_left (by omega)]
      · rw [if_neg hin, if_neg (by omega)]

end

end Server

/-! ### The entries of a directory -/

/-- A block of the directory `k` contains the entry `(name, i)`, which is in use. -/
def InUse (m : Bytes) (k : ℕ) (name : List UInt8) (i : ℤ) : Prop :=
  ∃ b j x, j < 64 ∧ blockAddr m k b = some x ∧ entry (slice m x.toNat) j = (name, i) ∧ i ≠ -1

theorem slot_eq_iff {x : Option (List UInt8 × ℕ)} {name : List UInt8} {i : ℤ} (hi : i ≠ -1) :
    slot x = (name, i) ↔ ∃ n : ℕ, x = some (name, n) ∧ i = n := by
  cases x with
  | none => simp [slot, unused, hi.symm]
  | some e =>
    obtain ⟨name', n⟩ := e
    simp only [slot, Prod.mk.injEq, Option.some.injEq]
    constructor
    · rintro ⟨rfl, rfl⟩
      exact ⟨n, ⟨rfl, rfl⟩, rfl⟩
    · rintro ⟨n', ⟨rfl, rfl⟩, rfl⟩
      exact ⟨rfl, rfl⟩

section

variable {m : Bytes} {L : Layout} {n p k a : ℕ} {es : List (List UInt8 × ℕ)} {name : List UInt8}

namespace Holds

/-- The blocks of a directory are the first ones. -/
theorem alloc_iff (h : Holds m a es) :
    ∀ b < 14, blockArr (slice m a) b ≠ -1 ↔ b < (es.length + 63) / 64 := by
  intro b hb
  rw [h.alloc b hb]
  omega

theorem blockCount_eq (h : Holds m a es) :
    Server.blockCount (slice m a) = (es.length + 63) / 64 := by
  have hlen := h.length_le
  exact Server.blockCount_eq (by omega) h.alloc_iff

/-- The blocks of a directory are in the log. -/
theorem exists_block (h : Holds m a es) (himage : Image m L n p) (ha : L.addr (.inode k) = some a)
    {b : ℕ} (hb : 64 * b < es.length) :
    ∃ x : ℕ, blockArr (slice m a) b = x ∧ L.addr (.block k b) = some x := by
  have hlen := h.length_le
  have halloc := (h.alloc b (by omega)).2 hb
  rw [himage.block k a ha b (by omega), ne_eq, ref_eq_neg_one] at halloc
  obtain ⟨x, hx⟩ := Option.ne_none_iff_exists'.1 halloc
  exact ⟨x, by rw [himage.block k a ha b (by omega), hx, ref_some], hx⟩

/-- **The entries in use** are those of the directory. -/
theorem inUse_iff (h : Holds m a es) (himage : Image m L n p) (ha : L.addr (.inode k) = some a)
    {i : ℤ} : InUse m k name i ↔ ∃ num : ℕ, (name, num) ∈ es ∧ i = num := by
  constructor
  · rintro ⟨b, j, x, hj, hx, he, hi⟩
    have hb : b < 14 := by
      by_contra hb
      rw [blockAddr, if_neg hb] at hx
      cases hx
    rw [himage.blockAddr_eq hb] at hx
    obtain ⟨y, hy, rfl⟩ := Option.map_eq_some_iff.1 hx
    have hblock : blockArr (slice m a) b = y := by rw [himage.block k a ha b hb, hy, ref_some]
    have hslot := h.slots b hb y hblock j hj
    change entry (slice m y) j = _ at he
    rw [he, eq_comm, slot_eq_iff hi] at hslot
    obtain ⟨num, hnum, rfl⟩ := hslot
    exact ⟨num, List.mem_of_getElem? hnum, rfl⟩
  · rintro ⟨num, hnum, rfl⟩
    obtain ⟨q, hq⟩ := List.mem_iff_getElem?.1 hnum
    have hlen := h.length_le
    obtain ⟨hlt, -⟩ := List.getElem?_eq_some_iff.1 hq
    obtain ⟨x, hx, haddr⟩ := h.exists_block himage ha (b := q / 64) (by omega)
    refine ⟨q / 64, q % 64, x, Nat.mod_lt _ (by omega), ?_, ?_, by omega⟩
    · rw [himage.blockAddr_eq (by omega), haddr]
      rfl
    · rw [Int.toNat_natCast, h.slots _ (by omega) x hx _ (Nat.mod_lt _ (by omega)), Nat.div_add_mod,
        hq]
      rfl

/-- The entries in the blocks of a directory. -/
theorem mem_own (h : Holds m a es) (himage : Image m L n p) (ha : L.addr (.inode k) = some a)
    {e : List UInt8 × ℤ} (hname : e.1 ≠ []) :
    e ∈ Server.own m (slice m a) ↔ ∃ num : ℕ, (e.1, num) ∈ es ∧ e.2 = num := by
  have hlen := h.length_le
  rw [← h.inUse_iff himage ha, Server.own, List.mem_flatMap]
  constructor
  · rintro ⟨b, hb, he⟩
    rw [h.blockCount_eq, List.mem_range'_1] at hb
    obtain ⟨j, hj, rfl⟩ := mem_entries.1 he
    obtain ⟨x, hx, haddr⟩ := h.exists_block himage ha (b := b) (by omega)
    rw [hx, Int.toNat_natCast] at hname ⊢
    refine ⟨b, j, x, hj, ?_, rfl, fun hi => hname ?_⟩
    · rw [himage.blockAddr_eq (by omega), haddr]
      rfl
    · rw [h.slots b (by omega) x hx j hj] at hi ⊢
      cases hslot : es[64 * b + j]? with
      | none => rfl
      | some e => rw [hslot] at hi; simp [slot] at hi
  · rintro ⟨b, j, x, hj, hx, he, hi⟩
    have hb : b < 14 := by
      by_contra hb
      rw [blockAddr, if_neg hb] at hx
      cases hx
    rw [himage.blockAddr_eq hb] at hx
    obtain ⟨y, hy, rfl⟩ := Option.map_eq_some_iff.1 hx
    have hblock : blockArr (slice m a) b = y := by rw [himage.block k a ha b hb, hy, ref_some]
    refine ⟨b, ?_, mem_entries.2 ⟨j, hj, ?_⟩⟩
    · rw [h.blockCount_eq, List.mem_range'_1]
      have := (h.alloc_iff b hb).1 (by omega)
      omega
    · rw [hblock]
      exact he

/-- The slots of a directory, one block after the other. -/
theorem own_eq (h : Holds m a es) (himage : Image m L n p) (ha : L.addr (.inode k) = some a) :
    Server.own m (slice m a) =
      (List.range (64 * ((es.length + 63) / 64))).map fun q => slot es[q]? := by
  have hlen := h.length_le
  rw [← Server.flatMap_range, Server.own, h.blockCount_eq]
  rw [← List.range_eq_range']
  refine List.flatMap_congr fun b hb => List.map_congr_left fun j hj => ?_
  rw [List.mem_range] at hb
  obtain ⟨x, hx, -⟩ := h.exists_block himage ha (b := b) (by omega)
  rw [hx, Int.toNat_natCast, h.slots b (by omega) x hx j (List.mem_range.1 hj)]

/-- What `sLookup` finds in the blocks of a directory. -/
theorem find_own (h : Holds m a es) (himage : Image m L n p) (ha : L.addr (.inode k) = some a)
    (hname : name ≠ []) {e : List UInt8 × ℤ}
    (he : find name (Server.own m (slice m a)) = some e) : InUse m k name e.2 ∧ 0 ≤ e.2 := by
  obtain ⟨hmem, rfl⟩ := mem_of_find he
  obtain ⟨num, hnum, hi⟩ := (h.mem_own himage ha hname).1 hmem
  exact ⟨(h.inUse_iff himage ha).2 ⟨num, hnum, hi⟩, by omega⟩

theorem find_own_eq_none (h : Holds m a es) (himage : Image m L n p)
    (ha : L.addr (.inode k) = some a) (hname : name ≠ []) :
    find name (Server.own m (slice m a)) = none ↔ ¬ ∃ i, InUse m k name i := by
  rw [find_eq_none]
  constructor
  · rintro hnone ⟨i, hi⟩
    obtain ⟨num, hnum, rfl⟩ := (h.inUse_iff himage ha).1 hi
    exact hnone (name, (num : ℤ)) ((h.mem_own himage ha hname).2 ⟨num, hnum, rfl⟩) rfl
  · rintro hnone e he rfl
    obtain ⟨num, hnum, hi⟩ := (h.mem_own himage ha hname).1 he
    exact hnone ⟨e.2, (h.inUse_iff himage ha).2 ⟨num, hnum, hi⟩⟩

end Holds

end

namespace Server

variable {s : Server} {L : Layout} {n p k a : ℕ} {junk : Junk} {name : List UInt8}
  {es : List (List UInt8 × ℕ)}

/-- What `loadMem` and reading the inode of a directory lead to. -/
theorem read_directory (h : Loaded s L n p) (ha : L.addr (.inode k) = some a) (junk : Junk) :
    (s.loadMem junk).inodeArr k = a ∧
      Alike (s.loadMem junk) (((s.loadMem junk).lseek a).read inodeSize (junk .inode)).1 ∧
      EqTo inodeSize (((s.loadMem junk).lseek a).read inodeSize (junk .inode)).2
        (slice s.disk.bytes a) := by
  obtain ⟨hl, hbytes⟩ := h.readOnly.loadMem junk
  refine ⟨?_, (Alike.refl _).read _ _ _, hbytes ▸ hl.read_inode ha _⟩
  rw [hl.inodeArr_eq, ha, ref_some]

theorem blockCount_congr {i i' : Bytes} (h : EqTo inodeSize i i') :
    blockCount i = blockCount i' ∧ blockCount i' ≤ 14 := by
  refine ⟨?_, (List.length_filter_le _ _).trans_eq List.length_range⟩
  unfold blockCount
  congr 1
  refine List.filter_congr fun b hb => ?_
  rw [blockArr_eq h (List.mem_range.1 hb)]

theorem own_congr {m i i' : Bytes} (h : EqTo inodeSize i i') : own m i = own m i' := by
  obtain ⟨hcount, hle⟩ := blockCount_congr h
  rw [own, own, hcount]
  refine List.flatMap_congr fun b hb => ?_
  rw [List.mem_range'_1] at hb
  rw [blockArr_eq h (by omega)]

theorem strays_congr {m i i' : Bytes} {size : ℕ} (h : EqTo inodeSize i i') :
    strays m size junk i = strays m size junk i' := by
  obtain ⟨hcount, hle⟩ := blockCount_congr h
  rw [strays, strays, hcount, blockArr_eq h (by omega)]

/-- What `sLookup` finds in a directory whose blocks are the first `B`. -/
theorem sLookup_of_tables {B : ℕ} (h : Tables (s.loadMem junk) L p)
    (ha : L.addr (.inode k) = some a) (hloc : (s.loadMem junk).inodeArr k = a) (hk : k < 4096)
    (hd : statType (slice s.disk.bytes a) = DIRECTORY) (hB : 1 ≤ B ∧ B ≤ 14)
    (halloc : ∀ b < 14, blockArr (slice s.disk.bytes a) b ≠ -1 ↔ b < B)
    (hblocks : ∀ b < B, ∃ x : ℕ, blockArr (slice s.disk.bytes a) b = x ∧
      x + blockSize ≤ s.disk.size) (hname : 1 ≤ name.length ∧ name.length ≤ 60) :
    (s.sLookup junk k name).2 = (find name (own s.disk.bytes (slice s.disk.bytes a) ++
      strays s.disk.bytes s.disk.size junk (slice s.disk.bytes a))).elim (-1) Prod.snd := by
  have halike : Alike (s.loadMem junk)
      (((s.loadMem junk).lseek a).read inodeSize (junk .inode)).1 := (Alike.refl _).read _ _ _
  have hinode : EqTo inodeSize (((s.loadMem junk).lseek a).read inodeSize (junk .inode)).2
      (slice (s.loadMem junk).disk.bytes a) :=
    read_eqTo ((L.within _ _ ha).trans h.size) (junk .inode)
  rw [loadMem_bytes] at hinode
  have hblockArr : ∀ b < 14, blockArr (((s.loadMem junk).lseek a).read inodeSize (junk .inode)).2 b =
      blockArr (slice s.disk.bytes a) b := fun b hb => blockArr_eq hinode hb
  have hspec := lookupLoop_spec halike hB (fun b hb => by rw [hblockArr b hb]; exact halloc b hb)
    (fun b hb => by rw [hblockArr b (by omega), loadMem_size]; exact hblocks b hb)
    junk name
  rw [loadMem_bytes, loadMem_size, own_congr hinode, strays_congr hinode,
    List.take_of_length_le hname.2] at hspec
  unfold sLookup
  dsimp only
  rw [if_neg (by omega), Int.toNat_natCast, hloc, if_neg (by omega), if_neg (by omega),
    if_neg (by rw [not_not]; exact (statType_eq hinode).trans hd)]
  exact hspec

/-- **What `sLookup` finds** in a directory. -/
theorem sLookup_eq (h : Loaded s L n p) (ha : L.addr (.inode k) = some a)
    (hd : statType (slice s.disk.bytes a) = DIRECTORY) (hholds : Holds s.disk.bytes a es)
    (hes : es ≠ []) (hname : 1 ≤ name.length ∧ name.length ≤ 60) :
    (s.sLookup junk k name).2 = (find name (own s.disk.bytes (slice s.disk.bytes a) ++
      strays s.disk.bytes s.disk.size junk (slice s.disk.bytes a))).elim (-1) Prod.snd := by
  have hk := h.inode_lt ha
  have hlen := hholds.length_le
  have hpos := List.length_pos_iff.2 hes
  refine sLookup_of_tables (B := (es.length + 63) / 64) (h.readOnly.loadMem junk).1.tables ha
    (read_directory h ha junk).1 (by omega) hd (by omega) hholds.alloc_iff (fun b hb => ?_) hname
  obtain ⟨x, hx, haddr⟩ := hholds.exists_block h.image ha (b := b) (by omega)
  exact ⟨x, hx, (L.within _ _ haddr).trans h.size⟩

/-- The search of `sUnlink` in the directory `k` finds the name. -/
def UnlinkFinds (s : Server) (junk : Junk) (k : ℕ) (name : List UInt8) : Prop :=
  let s := s.loadMem junk
  let (s, pInode) := (s.lseek (s.inodeArr k)).read inodeSize (junk .inode)
  (unlinkLoop name pInode (List.range 14) s (junk .dirBlk)).2.isSome

/-- The blocks that `sUnlink` searches. -/
theorem unlink_block (h : Loaded s L n p) (ha : L.addr (.inode k) = some a)
    (hholds : Holds s.disk.bytes a es) {b : ℕ} (hb : b < 14)
    (hpos : 0 ≤ blockArr (slice s.disk.bytes a) b) :
    (blockArr (slice s.disk.bytes a) b).toNat + blockSize ≤ s.disk.size ∧ ∀ j < 64,
      entry (slice s.disk.bytes (blockArr (slice s.disk.bytes a) b).toNat) j =
        slot es[64 * b + j]? := by
  obtain ⟨x, hx, haddr⟩ := hholds.exists_block h.image ha ((hholds.alloc b hb).1 (by omega))
  rw [hx]
  exact ⟨(L.within _ _ haddr).trans h.size, hholds.slots b hb x hx⟩

theorem locate_congr {m i i' : Bytes} (name : List UInt8) {is : List ℕ}
    (h : ∀ b ∈ is, blockArr i b = blockArr i' b) : locate m name i is = locate m name i' is :=
  findSome?_congr fun b hb => by rw [h b hb]

/-- The slot that the search of a name finds. -/
theorem slot_of_locate (h : Loaded s L n p) (ha : L.addr (.inode k) = some a)
    (hholds : Holds s.disk.bytes a es) {b j : ℕ}
    (hloc : locate s.disk.bytes name (slice s.disk.bytes a) (List.range 14) = some (b, j)) :
    b < 14 ∧ j < 64 ∧ 0 ≤ blockArr (slice s.disk.bytes a) b ∧
      entry (slice s.disk.bytes (blockArr (slice s.disk.bytes a) b).toNat) j =
        slot es[64 * b + j]? ∧
      entryName (slice s.disk.bytes (blockArr (slice s.disk.bytes a) b).toNat) j = name := by
  obtain ⟨hb, hpos, hj, hname⟩ := locate_eq_some hloc
  exact ⟨List.mem_range.1 hb, hj, hpos,
    (unlink_block h ha hholds (List.mem_range.1 hb) hpos).2 j hj, hname⟩

/-- A name that the search does not find is the name of no entry. -/
theorem ne_of_locate_eq_none (h : Loaded s L n p) (ha : L.addr (.inode k) = some a)
    (hholds : Holds s.disk.bytes a es)
    (hloc : locate s.disk.bytes name (slice s.disk.bytes a) (List.range 14) = none) :
    ∀ e ∈ es, e.1 ≠ name := by
  intro e he
  obtain ⟨q, hq⟩ := List.mem_iff_getElem?.1 he
  have hlen := hholds.length_le
  obtain ⟨hlt, -⟩ := List.getElem?_eq_some_iff.1 hq
  have hpos : 0 ≤ blockArr (slice s.disk.bytes a) (q / 64) := by
    obtain ⟨y, hy, -⟩ := hholds.exists_block h.image ha (b := q / 64) (by omega)
    omega
  have hentry := (unlink_block h ha hholds (by omega) hpos).2 (q % 64) (Nat.mod_lt _ (by omega))
  rw [Nat.div_add_mod, hq] at hentry
  have hne := locate_eq_none.1 hloc _ (List.mem_range.2 (by omega)) hpos _
    (mem_entries.2 ⟨q % 64, Nat.mod_lt _ (by omega), rfl⟩)
  rw [hentry] at hne
  exact hne

variable (junk) in
/-- The loop of `sUnlink` in a directory finds the first slot with the name. -/
theorem unlinkLoop_locate (h : Loaded s L n p) (ha : L.addr (.inode k) = some a)
    (hholds : Holds s.disk.bytes a es) (name : List UInt8) {x : Server × Bytes}
    (hx : ((s.loadMem junk).lseek a).read inodeSize (junk .inode) = x) :
    Alike (s.loadMem junk) (unlinkLoop name x.2 (List.range 14) x.1 (junk .dirBlk)).1 ∧
      ((locate s.disk.bytes name (slice s.disk.bytes a) (List.range 14) = none ∧
        (unlinkLoop name x.2 (List.range 14) x.1 (junk .dirBlk)).2 = none) ∨
      ∃ b j d, locate s.disk.bytes name (slice s.disk.bytes a) (List.range 14) = some (b, j) ∧
        (unlinkLoop name x.2 (List.range 14) x.1 (junk .dirBlk)).2 =
          some (d, blockArr (slice s.disk.bytes a) b, j) ∧
        EqTo blockSize d (slice s.disk.bytes (blockArr (slice s.disk.bytes a) b).toNat)) := by
  obtain ⟨-, halike, hinode⟩ := read_directory h ha junk
  rw [hx] at halike hinode
  obtain ⟨hafter, hres⟩ := unlinkLoop_eq halike (fun b hb hpos => by
    rw [loadMem_size, loadMem_bytes]
    rw [blockArr_eq hinode (List.mem_range.1 hb)] at hpos ⊢
    obtain ⟨hsize, hentries⟩ := unlink_block h ha hholds (List.mem_range.1 hb) hpos
    refine ⟨hsize, fun j hj => ?_⟩
    have hentry := congrArg Prod.fst (hentries j hj)
    change entryName _ j = _ at hentry
    rw [hentry]
    cases he : es[64 * b + j]? with
    | none => exact Nat.zero_lt_of_lt (by decide : 0 < 60)
    | some e => exact (hholds.names e (List.mem_of_getElem? he)).2) (junk .dirBlk) name
  rw [loadMem_bytes, locate_congr name fun b hb => blockArr_eq hinode (List.mem_range.1 hb)] at hres
  refine ⟨hafter, hres.imp_right ?_⟩
  rintro ⟨b, j, d, hsome, hres, hd⟩
  have hb := List.mem_range.1 (locate_eq_some hsome).1
  rw [blockArr_eq hinode hb] at hres hd
  exact ⟨b, j, d, hsome, hres, hd⟩

variable (junk) in
/-- The loop of `sUnlink` in a directory finds an entry with the name, or an unused slot if the name
is empty. -/
theorem unlinkLoop_directory (h : Loaded s L n p) (ha : L.addr (.inode k) = some a)
    (hholds : Holds s.disk.bytes a es) (name : List UInt8) {x : Server × Bytes}
    (hx : ((s.loadMem junk).lseek a).read inodeSize (junk .inode) = x) :
    Alike (s.loadMem junk) (unlinkLoop name x.2 (List.range 14) x.1 (junk .dirBlk)).1 ∧
      (((unlinkLoop name x.2 (List.range 14) x.1 (junk .dirBlk)).2 = none ∧
        ∀ e ∈ es, e.1 ≠ name) ∨
      ∃ d b j, b < 14 ∧ j < 64 ∧ 0 ≤ blockArr x.2 b ∧
        (unlinkLoop name x.2 (List.range 14) x.1 (junk .dirBlk)).2 =
          some (d, blockArr x.2 b, j) ∧
        EqTo blockSize d (slice s.disk.bytes (blockArr x.2 b).toNat) ∧
        entry d j = slot es[64 * b + j]? ∧ entryName d j = name) := by
  obtain ⟨-, -, hinode⟩ := read_directory h ha junk
  rw [hx] at hinode
  obtain ⟨hafter, hres⟩ := unlinkLoop_locate junk h ha hholds name hx
  refine ⟨hafter, hres.imp (fun ⟨hloc, hnone⟩ => ⟨hnone, ne_of_locate_eq_none h ha hholds hloc⟩) ?_⟩
  rintro ⟨b, j, d, hloc, hsome, hd⟩
  obtain ⟨hb, hj, hpos, hslot, hname⟩ := slot_of_locate h ha hholds hloc
  have hname' : entryName d j = _ := congrArg Prod.fst (entry_eq hd hj)
  rw [← blockArr_eq hinode hb] at hpos hsome hd
  refine ⟨d, b, j, hb, hj, hpos, hsome, hd, (entry_eq hd hj).trans ?_, hname'.trans ?_⟩
  · rw [blockArr_eq hinode hb]
    exact hslot
  · exact hname

/-- **What `sUnlink` finds** in a directory. -/
theorem unlinkFinds_iff (h : Loaded s L n p) (ha : L.addr (.inode k) = some a)
    (hholds : Holds s.disk.bytes a es) (hname : name ≠ []) :
    UnlinkFinds s junk k name ↔ ∃ num, (name, num) ∈ es := by
  obtain ⟨-, hres⟩ := unlinkLoop_directory junk h ha hholds name rfl
  unfold UnlinkFinds
  dsimp only
  rw [(read_directory h ha junk).1]
  obtain ⟨hres, hnone⟩ | ⟨d, b, j, -, -, -, hres, -, hslot, hentry⟩ := hres
  · rw [hres]
    exact iff_of_false (by simp) fun ⟨num, hnum⟩ => hnone _ hnum rfl
  · rw [hres]
    refine iff_of_true rfl ?_
    have hslot := congrArg Prod.fst hslot
    change entryName d j = _ at hslot
    rw [hentry] at hslot
    cases he : es[64 * b + j]? with
    | none => rw [he] at hslot; exact absurd hslot hname
    | some e =>
      rw [he] at hslot
      exact ⟨e.2, hslot ▸ List.mem_of_getElem? he⟩

end Server

end Mfs

end OperatingSystems

import OperatingSystems.Mfs.Resending

/-!
# Creating is all or nothing

`CREAT` goes through the checkpoint, the inode map, a new inode and its first block, and the inode and
a block of the directory.

* `Server.AddsFile` : the file is there, and the others are as they were.
* `Server.Unchanged` : nothing is changed, on the disk or in memory.
* `Server.AllOrNothing` : a `CREAT` adds the file, finds it or is refused; in the last two cases
  nothing is changed.
* `Server.Creatable` : no stray entry is taken for the file, and there is an inode number for it.
* `allOrNothing_iff` : **in every reachable image, `CREAT` is all or nothing exactly where this is
  so**.
* `creates_nothing` : `CREAT` returns 0 for a file that does not exist afterwards.
-/

namespace OperatingSystems

namespace Mfs

open Bytes

namespace Server

/-- The inode `j` is found at `x`, or not at all if that is `-1`. -/
def Resolves (s : Server) (j : ℕ) (x : ℤ) : Prop := ∀ junk, (s.loadMem junk).inodeArr j = x

/-- From `s` to `s'`, an entry with the name was added to the directory `k`, for the inode number `n`,
which was unused, and nothing else happened to the directory and to the other inodes. -/
structure AddsFile (s s' : Server) (k : ℕ) (name : List UInt8) (type : ℤ) (n : ℕ) : Prop where
  unused : Resolves s n (-1)
  inode : ∃ b : ℕ, Resolves s' n b ∧ statType (slice s'.disk.bytes b) = type
  entry : ∃ a q : ℕ, Resolves s k a ∧ (∀ e, ¬ Taken s.disk.bytes a q e) ∧
    Taken s'.disk.bytes a q (name, n) ∧
      ∀ q' ≠ q, ∀ e, Taken s'.disk.bytes a q' e ↔ Taken s.disk.bytes a q' e
  others : ∀ j ≠ n, ∃ x : ℤ, Resolves s j x ∧ Resolves s' j x ∧
    (j ≠ k → x ≠ -1 → EqTo inodeSize (slice s'.disk.bytes x.toNat) (slice s.disk.bytes x.toNat))

/-- The image and the table of inodes are as they were. -/
structure Unchanged (s s' : Server) : Prop where
  image : SameImage s s'
  iArr : s'.iArr = s.iArr

/-- A `CREAT` adds the file, finds it or is refused. -/
def AllOrNothing (s : Server) (junk : Junk) (k : ℕ) (type : ℤ) (name : List UInt8) : Prop :=
  s.sCreate junk k type name ≠ .error .undefined ∧ ∀ y, s.sCreate junk k type name = .ok y →
    (y.2 = 0 ∧ ∃ n, AddsFile s y.1 k name type n) ∨
    (y.2 = 0 ∧ (∃ i, InUse s.disk.bytes k name i) ∧ Unchanged s y.1) ∨
    (y.2 = -1 ∧ Unchanged s y.1)

/-- The directory `k` has no room for another entry. -/
def Full (m : Bytes) (k : ℕ) : Prop :=
  ∃ a : ℕ, inodeAddr m k = some (a : ℤ) ∧ 4096 * 14 * 64 ≤ statSize (slice m a)

/-- The request is refused for its type or directory, the file exists, or no entry behind the last
block of the directory is taken for it and there is an unused inode number for it, unless the
directory is full. -/
def Creatable (s : Server) (junk : Junk) (k : ℕ) (type : ℤ) (name : List UInt8) : Prop :=
  (type ≠ 0 ∧ type ≠ 1) ∨ ¬ IsDirectory s.disk.bytes k ∨ (∃ i, InUse s.disk.bytes k name i) ∨
    (∀ e, strayMatch s junk k name = some e → e.2 < 0) ∧
      (Full s.disk.bytes k ∨ ∃ i < 4096, s.inodeArr i = -1)

variable {s s' : Server} {L L' : Layout} {T : Names} {k a n : ℕ} {junk : Junk} {type : ℤ}
  {name : List UInt8}

theorem Hosts.resolves (h : Hosts s L T) (j : ℕ) : Resolves s j (ref (L.addr (.inode j))) :=
  fun junk => (h.serves.1.readOnly.loadMem junk).1.inodeArr_eq j

theorem ReadOnly.unchanged (h : Hosts s L T) {p : ℕ} (hro : ReadOnly s s' L T.count p)
    (hi : SameImage s s') : Unchanged s s' :=
  ⟨hi, by rw [hro.1.iArr, h.serves.1.iArr]⟩

/-- The slots of the directory after an entry was added in a free one. -/
theorem Added.taken_iff {m m' : Bytes} (hadd : Added m m' L k a (nextSlot m a) name junk type n)
    (hblock : ∀ b < 14, blockArr (slice m a) b = ref (L.addr (.block k b)))
    (hc : nextSlot m a < 14 * 64) (hfree : SlotFree m a) {q : ℕ} (hq : q ≠ nextSlot m a)
    (e : List UInt8 × ℤ) : Taken m' a q e ↔ Taken m a q e := by
  unfold Taken
  refine and_congr_right fun hq14 => ?_
  by_cases hblk : q / 64 = nextSlot m a / 64
  swap
  · rw [hadd.slotAt_of_ne hblock hq14 hblk]
  rw [hadd.slotAt_self hblock hc hblk, if_neg hq]
  split_ifs with hzero
  · -- the block is new
    have hnot := hfree.2 hzero (q - nextSlot m a) (by omega) e
    rw [Nat.add_sub_cancel' (by omega)] at hnot
    constructor
    · rintro ⟨he, hused⟩
      rw [← Option.some.inj he] at hused
      exact absurd rfl hused
    · exact fun ⟨he, hused⟩ => absurd ⟨hq14, he, hused⟩ hnot
  · exact Iff.rfl

/-- **A file that was created** in a reachable image. -/
theorem Hosts.addsFile (h : Hosts s L T) {es : List (List UInt8 × ℕ)} (hes : T.dirs k = some es)
    (ha : L.addr (.inode k) = some a) (h' : Hosts s' L' (T.create k name type))
    (htype : type = 0 ∨ type = 1) (hcount : T.count < 4096) (hlen : es.length < 14 * 64)
    (hinodes : ∀ j b, L.addr (.inode j) = some b → L'.addr (.inode j) = some b)
    (hadd : Added s.disk.bytes s'.disk.bytes L k a es.length name junk type T.count) :
    AddsFile s s' k name type T.count := by
  have himage := h.serves.1.image
  obtain ⟨hd, hholds⟩ := h.serves.2.directory k a es ha hes
  have hnext : nextSlot s.disk.bytes a = es.length := by
    rw [nextSlot, hholds.size]
    omega
  have hfree := h.slotFree hes ha
  have hslot := hadd.slotAt_self (fun b hb => himage.block k a ha b hb) hlen (q := es.length) rfl
  rw [if_pos rfl] at hslot
  have hold : ∀ j, L.addr (.inode j) = none ↔ T.count ≤ j := fun j => by
    rw [← Option.not_isSome_iff_eq_none, himage.inode_iff, not_lt]
  obtain ⟨e, -, -, he, -, hinode, -⟩ := hadd.addr_inode h'.serves.1.image hcount
  refine ⟨?_, ⟨e, ?_, ?_⟩, ⟨a, es.length, ?_, ?_, ⟨hlen, hslot, ?_⟩, fun q hq x => ?_⟩,
    fun j hj => ⟨ref (L.addr (.inode j)), h.resolves j, ?_, fun hjk hx => ?_⟩⟩
  · have hres := h.resolves T.count
    rwa [(hold _).2 le_rfl, ref_none] at hres
  · have hres := h'.resolves T.count
    rwa [he, ref_some] at hres
  · rw [statType_eq hinode, statType, newInode,
      word_ofWords (by show -2 ^ 31 ≤ type ∧ type < 2 ^ 31; omega)]
    rfl
  · have hres := h.resolves k
    rwa [ha, ref_some] at hres
  · exact hnext ▸ hfree.1
  · show (T.count : ℤ) ≠ -1
    omega
  · rw [← hnext] at hadd hq hlen
    exact hadd.taken_iff (fun b hb => himage.block k a ha b hb) hlen hfree hq x
  · have hres := h'.resolves j
    cases hj' : L.addr (.inode j) with
    | some b =>
      rwa [hinodes j b hj'] at hres
    | none =>
      have hnone : L'.addr (.inode j) = none := by
        have hle := (hold j).1 hj'
        have hiff : (L'.addr (.inode j)).isSome ↔ j < T.count + 1 :=
          h'.serves.1.image.inode_iff j
        rw [← Option.not_isSome_iff_eq_none, hiff]
        omega
      rwa [hnone] at hres
  · obtain ⟨b, hb⟩ := Option.ne_none_iff_exists'.1 (ref_eq_neg_one.not.1 hx)
    rw [hb, ref_some, Int.toNat_natCast]
    exact hadd.frame _ _ (by simp [hjk]) hb

/-- Where `sCreate` goes on, it is undefined only if there is no unused inode number. -/
theorem Hosts.sCreate_full (h : Hosts s L T) (he : Enters s junk k type name)
    (hcount : ¬ T.count < 4096) : s.sCreate junk k type name = .error .undefined := by
  have hparent : Loaded ((s.parent junk k name).1.loadMem junk) L T.count
      ((T.count + 15) / 16) := h.serves.1.parent he.range
  have hfind : ((List.range 4096).find? fun i =>
      ((s.parent junk k name).1.loadMem junk).inodeArr i = -1) = none := by
    by_contra hsome
    obtain ⟨n, hn⟩ := Option.ne_none_iff_exists'.1 hsome
    exact hcount (hparent.eq_of_find hn).2
  have hcInode : (s.parent junk k name).1.cInode junk k type = .error .undefined := by
    unfold cInode
    dsimp only
    rw [hfind]
  rw [sCreate_of_enters he, hcInode]
  rfl

/-- There is an unused inode number. -/
theorem Hosts.exists_unused (h : Hosts s L T) :
    (∃ i < 4096, s.inodeArr i = -1) ↔ T.count < 4096 := by
  have hunused : ∀ i, s.inodeArr i = -1 ↔ T.count ≤ i := fun i => by
    rw [h.serves.1.inodeArr_eq, ref_eq_neg_one, ← Option.not_isSome_iff_eq_none,
      h.serves.1.image.inode_iff, not_lt]
  constructor
  · rintro ⟨i, hi, hnone⟩
    exact ((hunused i).1 hnone).trans_lt hi
  · exact fun hlt => ⟨_, hlt, (hunused _).2 le_rfl⟩

theorem Hosts.full_iff (h : Hosts s L T) {es : List (List UInt8 × ℕ)} (hes : T.dirs k = some es) :
    Full s.disk.bytes k ↔ ¬ es.length < 14 * 64 := by
  obtain ⟨a, ha, -, hholds, -⟩ := h.directory hes
  have hsize := hholds.size
  constructor
  · rintro ⟨a', ha', hfull⟩
    obtain rfl := Option.some.inj (ha.symm.trans (h.serves.1.image.inodeAddr_eq_some.1 ha'))
    omega
  · exact fun hle => ⟨a, h.serves.1.image.inodeAddr_eq_some.2 ha, by omega⟩

/-- Where `sCreate` does not go on. -/
theorem Hosts.sCreate_not_enters (h : Hosts s L T) (hk : k < 4096) (h0 : 0 ∉ name)
    (he : ¬ Enters s junk k type name) : ∃ y, s.sCreate junk k type name = .ok y ∧
      Unchanged s y.1 ∧ y.2 = if (type = 0 ∨ type = 1) ∧ name.length < 60 ∧
        0 ≤ (s.sLookup junk k name).2 then 0 else -1 := by
  obtain ⟨t, r, hok, -⟩ := sCreate_of_not_enters he (by omega)
  obtain ⟨hi, hr⟩ := h.sCreate_refused he hok
  obtain ⟨-, hro⟩ | ⟨he', -⟩ := sCreate_represents h.serves h0 hok
  · exact ⟨_, hok, ReadOnly.unchanged h hro hi, hr⟩
  · exact absurd he' he

/-- When `sLookup` takes a file for existing. -/
theorem Hosts.sLookup_nonneg_iff (h : Hosts s L T) (junk : Junk) (k : ℕ) (hlen : 1 ≤ name.length)
    (hlt : name.length < 60) : 0 ≤ (s.sLookup junk k name).2 ↔ IsDirectory s.disk.bytes k ∧
      ((∃ i, InUse s.disk.bytes k name i) ∨ ∃ e, strayMatch s junk k name = some e ∧ 0 ≤ e.2) := by
  by_cases hdir : IsDirectory s.disk.bytes k
  swap
  · refine iff_of_false (fun hpos => ?_) fun hboth => hdir hboth.1
    rw [sLookup_of_not h.serves.1] at hpos
    · omega
    · rintro ⟨k', a, hk, ha, hd, -⟩
      obtain rfl := Nat.cast_inj.1 hk
      exact hdir ⟨a, h.serves.1.image.inodeAddr_eq_some.2 ha, hd⟩
  rw [and_iff_right hdir]
  obtain ⟨es, hes⟩ := h.isDirectory_iff.1 hdir
  obtain ⟨hin, i, hi, -, hr⟩ | ⟨hnot, hr⟩ := h.sLookup_eq junk hes ⟨hlen, hlt.le⟩
  · exact iff_of_true (hr ▸ hi) (Or.inl hin)
  · rw [hr, or_iff_right hnot]
    cases strayMatch s junk k name with
    | none => simp
    | some e => simp

/-- A file was added, or the image is as it was, but not both. -/
theorem AddsFile.not_unchanged (hadd : AddsFile s s' k name type n) : ¬ Unchanged s s' := by
  rintro ⟨⟨hbytes, -⟩, -⟩
  obtain ⟨a, q, -, hfree, htaken, -⟩ := hadd.entry
  rw [hbytes] at htaken
  exact hfree _ htaken

/-- The image and the directory after a file was created. -/
theorem Hosts.created_of_enters (h : Hosts s L T) (he : Enters s junk k type name) (h0 : 0 ∉ name)
    (h37 : 37 ∉ name) (hcount : T.count < 4096) :
    Unless (2 ^ 31 ≤ L.stop + imapSize + inodeSize + 2 * blockSize) (s.sCreate junk k type name)
      fun y => y.2 = 0 ∧ ∃ es L', T.dirs k = some es ∧ Hosts y.1 L' (T.create k name type) ∧
        AddsFile s y.1 k name type T.count := by
  obtain ⟨a, es, ha, hes, hadded⟩ :=
    sCreate_added h.serves h0 he hcount (sprintf_eq h37 _) he.length.2
  refine hadded.mono id fun y ⟨hzero, L', hL', _, hinodes, hadd, _⟩ => ⟨hzero, es, L', hes, ?_⟩
  have h' := h.created hes hL' fun j b hj =>
    hadd.inode_of_addr h.serves.1.image hL'.1.image hcount hinodes hj
  obtain ⟨-, -, -, k', es', hk, hes', hroom⟩ := h.enters_iff.1 he
  obtain rfl := Nat.cast_inj.1 hk
  obtain rfl := Option.some.inj (hes.symm.trans hes')
  exact ⟨h', h.addsFile hes ha h' he.valid hcount hroom hinodes hadd⟩

/-- Where a file is created. -/
theorem Hosts.allOrNothing_of_enters (h : Hosts s L T) (he : Enters s junk k type name)
    (h0 : 0 ∉ name) (h37 : 37 ∉ name) (hcount : T.count < 4096) :
    AllOrNothing s junk k type name := by
  obtain ⟨-, hover⟩ | ⟨x, hx, hzero, -, -, -, -, hadd⟩ := h.created_of_enters he h0 h37 hcount
  · -- the log does not fit in the image
    rw [AllOrNothing, hover]
    exact ⟨by simp, fun y hy => by cases hy⟩
  rw [AllOrNothing, hx]
  refine ⟨by simp, fun y hy => ?_⟩
  obtain rfl := Except.ok.inj hy
  exact Or.inl ⟨hzero, _, hadd⟩

/-- **One request** to a reachable image. -/
theorem Hosts.allOrNothing (h : Hosts s L T) (hk : k < 4096) (hlen : 1 ≤ name.length)
    (hlt : name.length < 60) (h0 : 0 ∉ name) (h37 : 37 ∉ name) :
    AllOrNothing s junk k type name ↔ Creatable s junk k type name := by
  have hfound := h.sLookup_nonneg_iff junk k hlen hlt
  constructor
  · rintro ⟨hdefined, hall⟩
    by_contra hnot
    obtain ⟨hvalid, hdir, hin, hrest⟩ : (type = 0 ∨ type = 1) ∧ IsDirectory s.disk.bytes k ∧
        (¬ ∃ i, InUse s.disk.bytes k name i) ∧ ¬ ((∀ e, strayMatch s junk k name = some e →
          e.2 < 0) ∧ (Full s.disk.bytes k ∨ ∃ i < 4096, s.inodeArr i = -1)) := by
      obtain ⟨htype, hdir, hin, hrest⟩ : _ ∧ _ ∧ _ ∧ _ := by
        simpa only [Creatable, not_or] using hnot
      exact ⟨by omega, not_not.1 hdir, hin, hrest⟩
    obtain ⟨es, hes⟩ := h.isDirectory_iff.1 hdir
    by_cases hneg : (s.sLookup junk k name).2 < 0
    · -- there is no unused inode number
      have hstray : ∀ e, strayMatch s junk k name = some e → e.2 < 0 := fun e he => by
        by_contra hpos
        have := hfound.2 ⟨hdir, Or.inr ⟨e, he, not_lt.1 hpos⟩⟩
        omega
      obtain ⟨hroom, hcount⟩ := not_or.1 fun hor => hrest ⟨hstray, hor⟩
      rw [h.full_iff hes, not_not] at hroom
      rw [h.exists_unused] at hcount
      exact hdefined (h.sCreate_full
        (h.enters_iff.2 ⟨hvalid, ⟨hlen, hlt⟩, hneg, k, es, rfl, hes, hroom⟩) hcount)
    · -- an entry behind the directory is taken for the file
      have he : ¬ Enters s junk k type name := fun he => hneg he.absent
      obtain ⟨y, hok, hsame, hy⟩ := h.sCreate_not_enters hk h0 he
      rw [if_pos ⟨hvalid, hlt, not_lt.1 hneg⟩] at hy
      obtain ⟨-, n, hadd⟩ | ⟨-, hin', -⟩ | ⟨hy', -⟩ := hall y hok
      · exact hadd.not_unchanged hsame
      · exact hin hin'
      · omega
  · intro hc
    by_cases he : Enters s junk k type name
    · refine h.allOrNothing_of_enters he h0 h37 ?_
      obtain ⟨hvalid, -, hneg, k', es, hk', hes, hroom⟩ := h.enters_iff.1 he
      obtain rfl := Nat.cast_inj.1 hk'
      obtain htype | hdir | hin | ⟨-, hfull | hunused⟩ := hc
      · omega
      · exact absurd (h.isDirectory_iff.2 ⟨es, hes⟩) hdir
      · have := hfound.2 ⟨h.isDirectory_iff.2 ⟨es, hes⟩, Or.inl hin⟩
        omega
      · exact absurd hroom ((h.full_iff hes).1 hfull)
      · exact h.exists_unused.1 hunused
    · obtain ⟨x, hok, hsame, hx⟩ := h.sCreate_not_enters hk h0 he
      rw [AllOrNothing, hok]
      refine ⟨by simp, fun y hy => ?_⟩
      obtain rfl := Except.ok.inj hy
      by_cases hzero : (type = 0 ∨ type = 1) ∧ name.length < 60 ∧ 0 ≤ (s.sLookup junk k name).2
      · rw [if_pos hzero] at hx
        obtain ⟨hdir, hin⟩ := hfound.1 hzero.2.2
        refine Or.inr (Or.inl ⟨hx, ?_, hsame⟩)
        obtain htype | hdir' | hin' | ⟨hstray, -⟩ := hc
        · omega
        · exact absurd hdir hdir'
        · exact hin'
        · refine hin.resolve_right ?_
          rintro ⟨e, he', hpos⟩
          have := hstray e he'
          omega
      · rw [if_neg hzero] at hx
        exact Or.inr (Or.inr ⟨hx, hsame⟩)

end Server

/-- **All or nothing**, in every reachable image and for every name that is printed as it is. -/
theorem allOrNothing_iff {s : Server} {junk₀ : Junk} {ls : List (Msg × Junk)} {k : ℕ}
    {name : List UInt8} (h : server.run (fresh junk₀) ls = some s) (junk : Junk) (type : ℤ)
    (hk : k < 4096) (hlen : 1 ≤ name.length ∧ name.length ≤ 59) (h0 : 0 ∉ name) (h37 : 37 ∉ name) :
    s.AllOrNothing junk k type name ↔ s.Creatable junk k type name := by
  obtain ⟨L, T, hs⟩ := Server.hosts_of_run h
  exact hs.allOrNothing hk hlen.1 (by omega) h0 h37

/-- A file is created in a new image. -/
theorem allOrNothing_fresh :
    (fresh fun _ _ => 0).AllOrNothing (fun _ _ => 0) 0 1 [102] := by
  have hrun : server.run (fresh fun _ _ => 0) [] = some (fresh fun _ _ => 0) := rfl
  refine (allOrNothing_iff hrun _ 1 (by decide) (by decide) (by decide) (by decide)).2 ?_
  have hunused := (Server.fresh_hosts fun _ _ => 0).exists_unused.2 (by decide)
  refine Or.inr (Or.inr (Or.inr ⟨fun e he => ?_, Or.inr hunused⟩))
  rw [strayMatch_fresh (by simp)] at he
  cases he

/-- **A request that returns 0 and does nothing**: the root directory has no entry `b`, but one in the
contents of a file behind its block is taken for it. -/
theorem creates_nothing : ∃ s y, server.run (fresh fun _ _ => 0) intrusion = some s ∧
    s.sCreate (fun _ _ => 0) (0 : ℕ) 1 [98] = .ok y ∧ y.2 = 0 ∧ s.SameImage y.1 ∧
    (¬ ∃ i, InUse s.disk.bytes 0 [98] i) ∧ ¬ s.AllOrNothing (fun _ _ => 0) 0 1 [98] := by
  obtain ⟨s, L, hrun, h, hno, hmatch⟩ := intruded
  have hdir : IsDirectory s.disk.bytes 0 := h.isDirectory_iff.2 ⟨_, rfl⟩
  have hfound : 0 ≤ (s.sLookup (fun _ _ => 0) (0 : ℕ) [98]).2 :=
    (h.sLookup_nonneg_iff _ 0 (by decide) (by decide)).2 ⟨hdir, Or.inr ⟨_, hmatch, by decide⟩⟩
  obtain ⟨y, hok, hzero, hsame⟩ := h.sCreate_exists (Or.inr rfl) (by decide) hfound
  refine ⟨s, y, hrun, hok, hzero, hsame, hno, fun hall => ?_⟩
  have hcreatable := (h.allOrNothing (by decide) (by decide) (by decide) (by decide) (by decide)).1
    hall
  obtain htype | hdir' | hin | ⟨hstray, -⟩ := hcreatable
  · exact htype.2 rfl
  · exact hdir' hdir
  · exact hno hin
  · exact absurd (hstray _ hmatch) (by decide)

end Mfs

end OperatingSystems

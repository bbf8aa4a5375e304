import OperatingSystems.Mfs.Accesses

/-!
# Which requests stay in bounds

Reading, writing and searching always do.  `CREAT` and `UNLINK` take 4096 for the number of an inode,
`CREAT` goes on without a free inode and uses the name as a format, and `UNLINK` goes wrong with
every entry that it removes.

* `Server.Hosts.sUnlink_sound`, `Server.Hosts.sCreate_sound` : where these two stay in bounds.
* `Server.SafeRequest` : the requests that stay in bounds, told by the state before them.
* `allowed_staysInBounds_iff` : **the sequences of requests that stay in bounds**.
* `creat_out_of_bounds` : a request that reads behind the end of the table of inodes.
-/

namespace OperatingSystems

namespace Mfs

open Bytes Access

namespace Server

variable {s s' : Server} {L : Layout} {T : Names} {k a n p : ℕ} {junk : Junk} {name : List UInt8}
  {pInode : Bytes} {es : List (List UInt8 × ℕ)} {pinum type : ℤ}

/-! ### `UNLINK` -/

/-- One round of the loop of `sUnlink`. -/
theorem unlinkLoopAccesses_cons (name : List UInt8) (pInode : Bytes) (i : ℕ) (is : List ℕ)
    (s : Server) (dirBlk : Bytes) {r : Option ℕ}
    (hr : ((List.range 64).find? fun j => cstr (blockSize - 64 * j)
      (slice ((s.lseek (blockArr pInode i)).read blockSize dirBlk).2 (64 * j)) = name) = r) :
    unlinkLoopAccesses name pInode (i :: is) s dirBlk = elem .blockArr i ::
      if blockArr pInode i ≥ 0 then
        r.elim (upTo .dirArr 64 ++ unlinkLoopAccesses name pInode is
          ((s.lseek (blockArr pInode i)).read blockSize dirBlk).1
          ((s.lseek (blockArr pInode i)).read blockSize dirBlk).2) fun j =>
          upTo .dirArr (j + 1) ++ [elem .inodeArr
            (entryInum ((s.lseek (blockArr pInode i)).read blockSize dirBlk).2 j)]
      else unlinkLoopAccesses name pInode is s dirBlk := by
  delta unlinkLoopAccesses
  dsimp only [List.brecOn, List.brecOn.go]
  delta unlinkLoopAccesses._f
  dsimp only
  rw [hr]
  cases r <;> rfl

/-- The loop stays in bounds if the entry that it finds has the number of an inode. -/
theorem unlinkLoopAccesses_sound {is : List ℕ} (his : ∀ i ∈ is, i < 14) (dirBlk : Bytes) :
    Sound (unlinkLoopAccesses name pInode is s dirBlk) ↔
      ∀ d x j, (unlinkLoop name pInode is s dirBlk).2 = some (d, x, j) →
        0 ≤ entryInum d j ∧ entryInum d j < 4096 := by
  induction is generalizing s dirBlk with
  | nil => exact iff_of_true sound_nil nofun
  | cons i is ih =>
    have hi := his i List.mem_cons_self
    have ih' := fun (t : Server) (d : Bytes) =>
      ih (s := t) (fun i hi => his i (List.mem_cons_of_mem _ hi)) d
    have hblock : (elem .blockArr i).InBounds :=
      inBounds_elem.2 ⟨by omega, by simp only [Arr.length]; omega⟩
    generalize hr : ((List.range 64).find? fun j => cstr (blockSize - 64 * j)
      (slice ((s.lseek (blockArr pInode i)).read blockSize dirBlk).2 (64 * j)) = name) = r
    rw [unlinkLoopAccesses_cons name pInode i is s dirBlk hr,
      unlinkLoop_cons name pInode i is s dirBlk hr, sound_cons, and_iff_right hblock]
    split_ifs
    · cases r with
      | none =>
        simp only [Option.elim]
        have hupTo : Sound (upTo .dirArr 64) := sound_upTo le_rfl
        rw [sound_append, and_iff_right hupTo]
        exact ih' _ _
      | some j =>
        have hj := List.mem_range.1 (List.mem_of_find?_eq_some hr)
        have hupTo : Sound (upTo .dirArr (j + 1)) := sound_upTo (by simp only [Arr.length]; omega)
        simp only [Option.elim]
        rw [sound_append, and_iff_right hupTo, sound_cons, and_iff_left sound_nil, inBounds_elem]
        constructor
        · rintro hnum d x j' he
          obtain ⟨rfl, -, rfl⟩ : _ = d ∧ _ = x ∧ j = j' := by simpa using he
          exact hnum
        · exact fun hnum => hnum _ _ _ rfl
    · exact ih' _ _

/-- `delInode` with the address of an inode behind the first 4096 bytes. -/
theorem not_delInodeAccesses_sound {x : ℕ} (hx : 4096 ≤ x) :
    ¬ Sound (s.delInodeAccesses junk x) := by
  have hdiv : (x : ℤ).tdiv 16 = ((x / 16 : ℕ) : ℤ) := rfl
  have hmod : (x : ℤ).tmod 16 = ((x % 16 : ℕ) : ℤ) := rfl
  unfold delInodeAccesses
  simp only [hdiv, hmod]
  rw [if_neg (by omega), sound_cons, inBounds_elem]
  rintro ⟨⟨-, hlt⟩, -⟩
  simp only [Arr.length] at hlt
  omega

/-- The entries that `sUnlink` finds are those of directories which it does not take for empty. -/
def SafeUnlink (s : Server) (pinum : ℤ) (name : List UInt8) : Prop :=
  pinum ≠ 4096 ∧ ∀ (k : ℕ) i, pinum = k → name ≠ [46] → name ≠ [46, 46] →
    EntryOf s.disk.bytes k name i → ∃ n : ℕ, i = n ∧ HasEntries s.disk.bytes n

/-- **Where the removal of an entry stays in bounds.** -/
theorem Hosts.removeEntry_sound (h : Hosts s L T) (ha : L.addr (.inode k) = some a)
    (hes : T.dirs k = some es) {b j : ℕ} {d : Bytes} {t : Server}
    (hloc : locate s.disk.bytes name (slice s.disk.bytes a) (List.range 14) = some (b, j))
    (hd : EqTo blockSize d (slice s.disk.bytes (blockArr (slice s.disk.bytes a) b).toNat))
    (hdots : name ≠ [46] ∧ name ≠ [46, 46]) (ht : Alike (s.loadMem junk) t) :
    ((0 ≤ entryInum d j ∧ entryInum d j < 4096) ∧ Sound (t.removeEntryAccesses junk d j)) ↔
      ∃ n : ℕ, entryInum d j = n ∧ HasEntries s.disk.bytes n := by
  obtain ⟨hl, hr⟩ := h.serves
  obtain ⟨-, hj, -, hslot, hname⟩ := slot_of_locate hl ha (hr.directory k a es ha hes).2 hloc
  rw [← entry_eq hd hj] at hslot
  have hname' : entryName d j = name := (congrArg Prod.fst (entry_eq hd hj)).trans hname
  constructor
  · rintro ⟨⟨hnonneg, hlt⟩, hsound⟩
    obtain ⟨n, hn⟩ := Int.eq_ofNat_of_zero_le hnonneg
    refine ⟨n, hn, ?_⟩
    -- the entry is one of the directory, and its inode is not that of the root directory
    have hpos : (n : ℤ) ≠ -1 := by omega
    obtain ⟨n', he, hnn⟩ := (slot_eq_iff hpos).1 (hslot.symm.trans (Prod.ext hname' hn))
    obtain rfl := Nat.cast_inj.1 hnn
    obtain ⟨hn0, hcount⟩ := h.entry_ne_zero hes he hdots.1 hdots.2
    obtain ⟨a', ha'⟩ := Option.isSome_iff_exists.1 ((hl.image.inode_iff _).2 hcount)
    have hload := (hl.readOnly.loadMem junk).1
    have hafter := hload.congr ht.bytes ht.size ht.chkpt ht.iArr
    have hinode := hafter.read_inode ha' (junk .inode)
    rw [ht.bytes, loadMem_bytes] at hinode
    unfold removeEntryAccesses at hsound
    dsimp only at hsound
    rw [hn, if_neg (by omega), Int.toNat_natCast, hafter.inodeArr_eq, ha', ref_some,
      statType_eq hinode, statSize_eq hinode] at hsound
    by_cases hdir : statType (slice s.disk.bytes a') = DIRECTORY ∧
        statSize (slice s.disk.bytes a') > 2 * 4096
    · exact hl.image.hasEntries_iff.2 ⟨a', ha', hdir⟩
    · rw [if_neg hdir, sound_append] at hsound
      exact absurd hsound.1 (not_delInodeAccesses_sound (h.behind _ a' ha' hn0))
  · rintro ⟨n, hn, hentries⟩
    obtain ⟨a', ha', hdir, hsize⟩ := hl.image.hasEntries_iff.1 hentries
    have hlt := hl.inode_lt ha'
    have hload := (hl.readOnly.loadMem junk).1
    have hafter := hload.congr ht.bytes ht.size ht.chkpt ht.iArr
    have hinode := hafter.read_inode ha' (junk .inode)
    rw [ht.bytes, loadMem_bytes] at hinode
    refine ⟨⟨by omega, by omega⟩, ?_⟩
    unfold removeEntryAccesses
    dsimp only
    rw [hn, if_neg (by omega), Int.toNat_natCast, hafter.inodeArr_eq, ha', ref_some,
      statType_eq hinode, statSize_eq hinode, if_pos ⟨hdir, hsize⟩]
    exact sound_nil

/-- **Where `UNLINK` stays in bounds.** -/
theorem Hosts.sUnlink_sound (h : Hosts s L T) :
    Sound (s.sUnlinkAccesses junk pinum name) ↔ s.SafeUnlink pinum name := by
  obtain ⟨hl, hr'⟩ := h.serves
  have hload := (hl.readOnly.loadMem junk).1
  unfold SafeUnlink sUnlinkAccesses
  dsimp only
  by_cases hrange : pinum < 0 ∨ pinum > 4096
  · rw [if_pos hrange]
    refine iff_of_true sound_nil ⟨by omega, fun k i hk _ _ he => ?_⟩
    obtain ⟨a, ha, -⟩ := hl.image.entryOf_iff.1 he
    have hlt := hl.inode_lt ha
    omega
  rw [if_neg hrange, sound_cons]
  by_cases hend : pinum = 4096
  · refine iff_of_false ?_ fun hsafe => hsafe.1 hend
    rintro ⟨hin, -⟩
    have hlt := (inBounds_elem.1 hin).2
    simp only [Arr.length] at hlt
    omega
  obtain ⟨k, rfl⟩ := Int.eq_ofNat_of_zero_le (not_lt.1 (not_or.1 hrange).1)
  have hin : (elem .inodeArr k).InBounds :=
    inBounds_elem.2 ⟨by omega, by simp only [Arr.length]; omega⟩
  rw [if_neg hend, and_iff_right hin, and_iff_right hend, Int.toNat_natCast, hload.inodeArr_eq]
  -- where the request is refused, the directory has no such entry
  have hrefused : (∀ i, name ≠ [46] → name ≠ [46, 46] → ¬ EntryOf s.disk.bytes k name i) →
      (Sound [] ↔ ∀ (k' : ℕ) i, (k : ℤ) = k' → name ≠ [46] → name ≠ [46, 46] →
        EntryOf s.disk.bytes k' name i → ∃ n : ℕ, i = n ∧ HasEntries s.disk.bytes n) := fun hnone =>
    iff_of_true sound_nil fun k' i hk hdot hdotdot he =>
      absurd (Nat.cast_inj.1 hk ▸ he) (hnone i hdot hdotdot)
  cases ha : L.addr (.inode k) with
  | none =>
    rw [ref_none, if_pos rfl]
    refine hrefused fun i _ _ he => ?_
    obtain ⟨a, ha', -⟩ := hl.image.entryOf_iff.1 he
    rw [ha] at ha'
    cases ha'
  | some a =>
  rw [ref_some, if_neg (by omega)]
  by_cases hdots : name = [46, 46] ∨ name = [46]
  · rw [if_pos hdots]
    exact hrefused fun i hdot hdotdot => (hdots.elim hdotdot hdot).elim
  rw [if_neg hdots]
  obtain ⟨hdotdot, hdot⟩ := not_or.1 hdots
  -- an entry of the directory
  have hentry : ∀ {i}, EntryOf s.disk.bytes k name i ↔
      statType (slice s.disk.bytes a) = DIRECTORY ∧ ∃ b j,
        locate s.disk.bytes name (slice s.disk.bytes a) (List.range 14) = some (b, j) ∧
        entryInum (slice s.disk.bytes (blockArr (slice s.disk.bytes a) b).toNat) j = i := by
    intro i
    rw [hl.image.entryOf_iff]
    simp only [ha, Option.some.injEq, exists_eq_left']
  by_cases hlen : name.length > 60
  · rw [if_pos hlen]
    refine hrefused fun i _ _ he => ?_
    obtain ⟨-, b, j, hloc, -⟩ := hentry.1 he
    have hle : name.length ≤ 60 := by
      rw [← (locate_eq_some hloc).2.2.2]
      exact length_cstr_le _ _
    omega
  rw [if_neg hlen]
  obtain ⟨-, halike, hinode⟩ := read_directory hl ha junk
  generalize hr : ((s.loadMem junk).lseek a).read inodeSize (junk .inode) = r at halike hinode ⊢
  rw [statType_eq hinode]
  by_cases hd : statType (slice s.disk.bytes a) = DIRECTORY
  swap
  · rw [if_pos hd]
    exact hrefused fun i _ _ he => hd (hentry.1 he).1
  obtain ⟨es, hes⟩ := hr'.not_none ha hd
  obtain ⟨hafter, hres⟩ := unlinkLoop_locate junk hl ha (hr'.directory k a es ha hes).2 name hr
  rw [if_neg (not_not.2 hd), sound_append,
    unlinkLoopAccesses_sound fun i hi => List.mem_range.1 hi]
  generalize unlinkLoop name r.2 (List.range 14) r.1 (junk .dirBlk) = u at hafter hres ⊢
  obtain ⟨t, found⟩ := u
  obtain ⟨hnone, rfl⟩ | ⟨b, j, d, hloc, rfl, hblk⟩ := hres
  · refine iff_of_true ⟨by simp, sound_nil⟩ fun k' i hk _ _ he => ?_
    obtain ⟨-, b, j, hloc, -⟩ := hentry.1 (Nat.cast_inj.1 hk ▸ he)
    rw [hnone] at hloc
    cases hloc
  · have hj := (slot_of_locate hl ha (hr'.directory k a es ha hes).2 hloc).2.1
    have hinum : entryInum d j = _ := congrArg Prod.snd (entry_eq hblk hj)
    have hremove := h.removeEntry_sound ha hes hloc hblk ⟨hdot, hdotdot⟩ hafter
    constructor
    · rintro ⟨hin, hsound⟩ k' i hk _ _ he
      obtain ⟨-, b', j', hloc', hi⟩ := hentry.1 (Nat.cast_inj.1 hk ▸ he)
      obtain ⟨rfl, rfl⟩ := Prod.mk.inj (Option.some.inj (hloc.symm.trans hloc'))
      obtain ⟨n, hn, hentries⟩ := hremove.1 ⟨hin _ _ _ rfl, hsound⟩
      exact ⟨n, hi.symm.trans (hinum.symm.trans hn), hentries⟩
    · intro hsafe
      have hsafe' := hremove.2 (hsafe k _ rfl hdot hdotdot
        (hentry.2 ⟨hd, b, j, hloc, hinum.symm⟩))
      refine ⟨fun d' x j' he => ?_, hsafe'.2⟩
      obtain ⟨rfl, -, rfl⟩ : d = d' ∧ _ = x ∧ j = j' := by simpa using he
      exact hsafe'.1

/-! ### `CREAT` -/

theorem cImapPiece_sound (h : Loaded (s.loadMem junk) L n p) (hp : p < 256) :
    Sound (s.cImapPieceAccesses junk) := by
  have hpieces : Sound (upTo .imap (p + 1)) := sound_upTo (by simp only [Arr.length]; omega)
  have hentries : Sound (upTo .piece 16) := sound_upTo le_rfl
  unfold cImapPieceAccesses
  rw [h.tables.find_piece hp]
  exact sound_append.2 ⟨hpieces, hentries⟩

/-- **Where `cInode` stays in bounds**: while there is room in the table. -/
theorem cInode_sound (h : Loaded (s.loadMem junk) L n ((n + 15) / 16)) :
    Sound (s.cInodeAccesses junk type) ↔ n < 4096 := by
  unfold cInodeAccesses
  dsimp only
  by_cases hn : n < 4096
  swap
  · refine iff_of_false ?_ hn
    cases hfind : (List.range 4096).find? fun i => (s.loadMem junk).inodeArr i = -1 with
    | some k => exact absurd (h.eq_of_find hfind).2 hn
    | none =>
      rw [sound_append, sound_cons]
      exact fun hsound => not_inBounds_none hsound.2.1
  refine iff_of_true ?_ hn
  rw [h.find_inode hn]
  have hinodes : Sound (upTo .inodeArr (n + 1)) := sound_upTo (by simp only [Arr.length]; omega)
  have hpiece : Sound (if n % 16 = 0 then (s.loadMem junk).cImapPieceAccesses junk else []) := by
    split_ifs
    · exact cImapPiece_sound (h.readOnly.loadMem junk).1 (by omega)
    · exact sound_nil
  have hentry : Sound [elem .imap (n / 16 : ℕ), elem .piece (n % 16 : ℕ)] := by
    simp only [sound_cons, inBounds_elem, sound_nil, Arr.length, and_true]
    exact ⟨⟨by omega, by omega⟩, by omega, by omega⟩
  have hblocks : Sound (upTo .blockArr 14) := sound_upTo le_rfl
  have hdir : Sound (if type = 0 then upTo .dirArr 64 else []) := by
    split_ifs
    · exact sound_upTo le_rfl
    · exact sound_nil
  simp only [sound_append]
  exact ⟨⟨⟨⟨hinodes, hpiece⟩, hentry⟩, hblocks⟩, hdir⟩

/-- **Where a new entry stays in bounds**: if the text of its name fits. -/
theorem putEntry_sound {c : ℕ} (hsize : statSize pInode = 4096 * c) (hc : c < 14 * 64) :
    Sound (putEntryAccesses pInode name) ↔
      ∃ text, sprintf name [60] = some text ∧ text.length < 60 := by
  have hind : (statSize pInode).tdiv (4096 * 64) = ((c / 64 : ℕ) : ℤ) := by
    rw [Int.tdiv_eq_ediv_of_nonneg (by omega)]
    omega
  have hind' : ((statSize pInode).tdiv 4096).tmod 64 = ((c % 64 : ℕ) : ℤ) := by
    rw [Int.tdiv_eq_ediv_of_nonneg (by omega), Int.tmod_eq_emod_of_nonneg (by omega)]
    omega
  have hblock : (elem .blockArr (c / 64 : ℕ)).InBounds :=
    inBounds_elem.2 ⟨by omega, by simp only [Arr.length]; omega⟩
  have hentry : (elem .dirArr (c % 64 : ℕ)).InBounds :=
    inBounds_elem.2 ⟨by omega, by simp only [Arr.length]; omega⟩
  have hnew : Sound (if ((c % 64 : ℕ) : ℤ) = 0 then
      elem .blockArr (c / 64 : ℕ) :: upTo .dirArr 64 else []) := by
    split_ifs
    · exact sound_cons.2 ⟨hblock, sound_upTo le_rfl⟩
    · exact sound_nil
  unfold putEntryAccesses
  simp only [hind, hind']
  rw [if_neg (by omega), sound_append, and_iff_right hnew, sound_cons, and_iff_right hblock,
    sound_cons, and_iff_right hentry, sound_cons, and_iff_left sound_nil]
  cases sprintf name [60] with
  | none => simp
  | some text => simp [InBounds, Arr.length]

/-- The requests that go on to create a file find room in the table of inodes, and the texts of their
names fit into an entry. -/
def SafeCreate (s : Server) (junk : Junk) (pinum type : ℤ) (name : List UInt8) : Prop :=
  (type = 0 ∨ type = 1 → 1 ≤ name.length ∧ name.length < 60 → pinum ≠ 4096) ∧
  (Enters s junk pinum type name → s.iArr.length < 4096 ∧
    ∃ text, sprintf name [60] = some text ∧ text.length < 60)

/-- The directory in which a file is created has room for the entry. -/
theorem Hosts.size_of_enters (h : Hosts s L T) (he : Enters s junk k type name) :
    ∃ c < 14 * 64, statSize (s.parent junk k name).2 = 4096 * (c : ℕ) := by
  obtain ⟨hl, hr⟩ := h.serves
  have hload := (hl.readOnly.loadMem junk).1
  have hk := he.range.2
  have hloc := he.used
  rw [hl.inodeArr_eq, Int.toNat_natCast, ne_eq, ref_eq_neg_one] at hloc
  obtain ⟨a, ha⟩ := Option.ne_none_iff_exists'.1 hloc
  have hinode := parent_eqTo hload.tables ha (by rw [hload.inodeArr_eq, ha, ref_some]) (by omega)
    name
  have hdir := he.directory
  rw [statType_eq hinode] at hdir
  obtain ⟨es, hes⟩ := hr.not_none ha hdir
  have hsize := (hr.directory k a es ha hes).2.size
  have hroom := he.room
  rw [statSize_eq hinode] at hroom ⊢
  exact ⟨es.length, by omega, hsize⟩

/-- **Where `CREAT` stays in bounds.** -/
theorem Hosts.sCreate_sound (h : Hosts s L T) :
    Sound (s.sCreateAccesses junk pinum type name) ↔ s.SafeCreate junk pinum type name := by
  obtain ⟨hl, -⟩ := h.serves
  unfold SafeCreate
  by_cases he : Enters s junk pinum type name
  · obtain ⟨htype, hpinum, hlen, hexists, habsent, hdir, hroom⟩ := id he
    obtain ⟨k, rfl⟩ := Int.eq_ofNat_of_zero_le hpinum.1
    have hin : (elem .inodeArr k).InBounds :=
      inBounds_elem.2 ⟨by omega, by simp only [Arr.length]; omega⟩
    obtain ⟨c, hc, hsize⟩ := h.size_of_enters he
    have hcount : s.iArr.length = T.count := by rw [hl.iArr, List.length_map, List.length_range]
    unfold sCreateAccesses
    rw [if_neg (by omega), if_neg (by omega), sound_cons, and_iff_right hin, if_neg (by omega),
      if_neg hexists, sound_append, and_iff_right sLookup_sound, if_neg (by omega)]
    dsimp only
    rw [if_neg (not_not.2 hdir), if_neg (by omega), sound_append,
      cInode_sound (hl.parent he.range), putEntry_sound hsize hc, hcount]
    exact ⟨fun hsafe => ⟨fun _ _ => by omega, fun _ => hsafe⟩, fun hsafe => hsafe.2 he⟩
  · rw [and_iff_left fun he' => absurd he' he]
    unfold sCreateAccesses
    dsimp only
    split_ifs with harg hlen hend hused habsent hdir hroom
    · exact iff_of_true sound_nil fun htype _ => by omega
    · exact iff_of_true sound_nil fun _ hlen' => by omega
    · refine iff_of_false ?_ fun hsafe => hsafe (by omega) (by omega) hend
      rw [sound_cons, inBounds_elem]
      rintro ⟨⟨-, hlt⟩, -⟩
      simp only [Arr.length] at hlt
      omega
    all_goals
      rw [sound_cons, inBounds_elem]
      refine iff_of_true ⟨⟨by omega, by simp only [Arr.length]; omega⟩, ?_⟩ fun _ _ => hend
    · exact sound_nil
    · exact sound_append.2 ⟨sLookup_sound, sound_nil⟩
    · exact sound_append.2 ⟨sLookup_sound, sound_nil⟩
    · exact sound_append.2 ⟨sLookup_sound, sound_nil⟩
    · exact absurd ⟨by omega, by omega, by omega, hused, by omega, not_not.1 hdir, by omega⟩ he

/-! ### All requests -/

/-- The requests that stay in bounds. -/
def SafeRequest (s : Server) (l : Msg × Junk) : Prop :=
  match l.1.lib with
  | .INIT => False
  | .CREAT => s.SafeCreate l.2 l.1.pinum l.1.type l.1.cname
  | .UNLINK => s.SafeUnlink l.1.pinum l.1.cname
  | _ => True

/-- **Which requests to a reachable image stay in bounds.** -/
theorem Hosts.accesses_sound (h : Hosts s L T) (l : Msg × Junk) :
    Sound (s.accesses l.2 l.1) ↔ s.SafeRequest l := by
  unfold accesses SafeRequest
  cases l.1.lib with
  | INIT =>
    refine iff_of_false (fun hsound => ?_) id
    have hlast := (inBounds_elem.1 (sound_cons.1 (sound_append.1 hsound).2).1).2
    simp only [Arr.length] at hlast
    omega
  | LOOKUP => exact iff_of_true sLookup_sound trivial
  | STAT => exact iff_of_true sStat_sound trivial
  | WRITE => exact iff_of_true sWrite_sound trivial
  | READ => exact iff_of_true sRead_sound trivial
  | CREAT => exact h.sCreate_sound
  | UNLINK => exact h.sUnlink_sound
  | SHUTDOWN => exact iff_of_true sound_nil trivial

/-- A request stays in bounds, and `loadMem` does in whatever states its handler calls it. -/
def StaysInBounds (s : Server) (l : Msg × Junk) : Prop :=
  Sound (s.accesses l.2 l.1) ∧ ∀ t : Server, Sound (t.loadAccesses l.2)

end Server

/-- **Which sequences of requests stay in bounds**: those of safe requests. -/
theorem allowed_staysInBounds_iff (junk : Junk) (ls : List (Msg × Junk)) :
    server.Allowed Server.StaysInBounds (fresh junk) ls ↔
      server.Allowed Server.SafeRequest (fresh junk) ls := by
  have hhosts : server.Allowed (fun s _ => ∃ L T, Server.Hosts s L T) (fresh junk) ls :=
    Machine.allowed_of_invariant (I := fun s => ∃ L T, Server.Hosts s L T)
      ⟨_, _, Server.fresh_hosts junk⟩ (fun _ _ _ => Server.next_hosts) (fun _ _ => id) ls
  refine hhosts.congr ?_
  rintro s l ⟨L, T, hs⟩
  unfold Server.StaysInBounds
  rw [and_iff_left fun t => Server.loadAccesses_sound t l.2]
  exact hs.accesses_sound l

/-- `CREAT` in the directory 4096. -/
def creatBehind : Msg × Junk := ({ message .CREAT with pinum := 4096 }, fun _ _ => 0)

/-- `sCreate` takes 4096 for the number of an inode. -/
theorem creat_out_of_bounds : ¬ server.Allowed Server.StaysInBounds (fresh fun _ _ => 0)
    [creatBehind] := by
  have hname : creatBehind.1.cname = [102] := by decide +kernel
  rintro ⟨⟨hsound, -⟩, -⟩
  obtain ⟨hbehind, -⟩ := (Server.fresh_hosts fun _ _ => 0).sCreate_sound.1 hsound
  exact hbehind (Or.inr rfl) (by rw [hname]; exact ⟨le_rfl, by decide⟩) rfl

end Mfs

end OperatingSystems

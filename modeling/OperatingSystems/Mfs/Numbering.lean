import OperatingSystems.Mfs.Resending

/-!
# The numbers of the inodes

`loadMem` fills the table of inodes with a running index, whereas `cInode` and `delInode` compute the
number of an inode from its place in the inode map.

* `Server.Agrees` : the two agree.
* `Server.RemovesNothing` : the request is no `UNLINK` that removes an entry.
* `Server.forget` : an effect that the access out of bounds in `delInode` may have.
* `agrees_iff` : **they agree all along a run, whatever that access does, if and only if no request
  removes an entry**.
* `number_shifts` : a file gets another number when the one before it is unlinked.
-/

namespace OperatingSystems

namespace Mfs

open Bytes

/-- If there is a nonnegative value behind the first `q`, which are nonnegative, then there are more
than `q` of them. -/
theorem exists_getElem_of_gap {f : ℕ → ℤ} {N q j : ℕ} (hbelow : ∀ i < q, 0 ≤ f i) (hqj : q ≤ j)
    (hjN : j < N) (hj : 0 ≤ f j) :
    ∃ y, (((List.range N).map f).filter (0 ≤ ·))[q]? = some y ∧ 0 ≤ y := by
  have hsub : (List.range q ++ [j]).Sublist (List.range N) := by
    obtain ⟨d, rfl⟩ := Nat.exists_eq_add_of_le (hqj.trans hjN.le)
    rw [List.range_add]
    refine (List.Sublist.refl _).append (List.singleton_sublist.2 (List.mem_map.2 ⟨j - q, ?_⟩))
    exact ⟨List.mem_range.2 (by omega), by omega⟩
  have hfilter : ((List.range q ++ [j]).map f).filter (0 ≤ ·) = (List.range q ++ [j]).map f := by
    refine List.filter_eq_self.2 fun y hy => ?_
    obtain ⟨i, hi, rfl⟩ := List.mem_map.1 hy
    obtain hi | hi := List.mem_append.1 hi
    · exact decide_eq_true (hbelow i (List.mem_range.1 hi))
    · rw [List.mem_singleton.1 hi]
      exact decide_eq_true hj
  have hlen := ((hsub.map f).filter (0 ≤ ·)).length_le
  rw [hfilter, List.length_map, List.length_append, List.length_range, List.length_singleton] at hlen
  exact ⟨_, List.getElem?_eq_getElem hlen,
    of_decide_eq_true (List.mem_filter.1 (List.getElem_mem hlen)).2⟩

namespace Server

/-- Entry `j` of piece `i` of the inode map, and `-1` if there is no such piece or the entry is not
in use. -/
def mapEntry (s : Server) (i j : ℕ) : ℤ :=
  if 0 ≤ s.imap i ∧ 0 ≤ word s.disk.bytes (s.imap i).toNat j then
    word s.disk.bytes (s.imap i).toNat j
  else -1

/-- The table that `loadMem` fills has the entries of the inode map at the numbers that `cInode` and
`delInode` give them. -/
def Agrees (s : Server) : Prop :=
  ∀ junk, ∀ i < 256, ∀ j < 16,
    (s.loadMem junk).inodeArr (16 * i + j) = (s.loadMem junk).mapEntry i j

/-- The request is no `UNLINK` that removes an entry: `sUnlink` refuses `.`, `..` and the directories
that have entries. -/
def RemovesNothing (s : Server) (l : Msg × Junk) : Prop :=
  l.1.lib = .UNLINK → ∀ k i : ℕ, l.1.pinum = k → EntryOf s.disk.bytes k l.1.cname i →
    l.1.cname = [46] ∨ l.1.cname = [46, 46] ∨ HasEntries s.disk.bytes i

/-- `delInode` where it is defined; elsewhere the entry `q` of the first piece of the inode map is
cleared, as `delInode` does for the inode with the number `q`. -/
def forget (q : ℕ) (s : Server) (junk : Junk) (x : ℤ) : Except Stop Server :=
  match s.delInode junk x with
  | .ok t => .ok t
  | .error _ =>
    let (s, imapTmp) := (s.lseek (s.imap 0)).read imapSize (junk .imapTemp)
    .ok (((s.lseek (s.imap 0)).write imapSize (setWord imapTmp q (-1))).loadMem junk)

variable {s s' : Server} {L : Layout} {T : Names} {n p k i q : ℕ} {junk : Junk} {name : List UInt8}
  {del del' : Server → Junk → ℤ → Except Stop Server}

/-- The two agree in every reachable image. -/
theorem Loaded.agrees (h : Loaded s L n p) : Agrees s := by
  intro junk i hi j hj
  have hload := (h.readOnly.loadMem junk).1
  rw [hload.inodeArr_eq, mapEntry, hload.imap_eq hi]
  cases hpiece : L.addr (.piece i) with
  | none =>
    have hi' : ¬ i < p := fun hlt => by
      have := (hload.image.piece_iff i).2 hlt
      rw [hpiece] at this
      cases this
    have hn := hload.image.n_le
    have hnone : L.addr (.inode (16 * i + j)) = none := by
      rw [← Option.not_isSome_iff_eq_none, hload.image.inode_iff]
      omega
    rw [hnone, ref_none, if_neg (by omega)]
  | some a =>
    rw [ref_some, Int.toNat_natCast, hload.image.entry i a hpiece j hj]
    cases L.addr (.inode (16 * i + j)) with
    | none => rw [ref_none, if_neg (by omega)]
    | some b => rw [ref_some, if_pos (by omega)]

/-- **A gap in the first piece**: the table of inodes does not have the entries behind it at their
numbers. -/
theorem Tables.not_agrees (h : Tables s L p) {a j : ℕ} (ha : L.addr (.piece 0) = some a)
    (hbelow : ∀ i < q, 0 ≤ word s.disk.bytes a i) (hgap : word s.disk.bytes a q = -1)
    (hqj : q ≤ j) (hj16 : j < 16) (hj : 0 ≤ word s.disk.bytes a j) : ¬ Agrees s := by
  intro hagrees
  have hload := h.loadMem fun _ _ => 0
  obtain ⟨y, hy, hpos⟩ := exists_getElem_of_gap hbelow hqj hj16 hj
  have hiArr : (s.loadMem fun _ _ => 0).iArr =
      ((List.range 16).map (word s.disk.bytes a)).filter (0 ≤ ·) ++
        (List.range' 1 255).flatMap fun i => pieceInodes s.disk.bytes (L.addr (.piece i)) := by
    rw [hload.iArr_loadMem, List.range_eq_range', List.range'_succ, List.flatMap_cons, ha]
    rfl
  have hnum : (s.loadMem fun _ _ => 0).inodeArr (16 * 0 + q) = y := by
    rw [inodeArr, hiArr, Nat.mul_zero, Nat.zero_add, List.getD_eq_getElem?_getD,
      List.getElem?_append_left (List.getElem?_eq_some_iff.1 hy).1, hy, Option.getD_some]
  have hentry : (s.loadMem fun _ _ => 0).mapEntry 0 q = -1 := by
    rw [mapEntry, hload.imap 0 (by omega), ha, ref_some, Int.toNat_natCast, loadMem_bytes, hgap,
      if_neg (by omega)]
  have hq := hagrees (fun _ _ => 0) 0 (by omega) q (by omega)
  omega

/-! ### Requests that remove an entry -/

theorem Hosts.inum_of_entryOf (h : Hosts s L T) (he : EntryOf s.disk.bytes k name i)
    (hdot : name ≠ [46]) (hdotdot : name ≠ [46, 46]) : i ≠ 0 ∧ i < T.count := by
  obtain ⟨a, es, b, j, -, hes, -, -, -, hslot⟩ := h.entryOf he
  exact h.entry_ne_zero hes hslot hdot hdotdot

/-- How an entry is removed if `delInode` leads to a state with the property `P`. -/
theorem Hosts.unlinkWith_entry (h : Hosts s L T) (he : EntryOf s.disk.bytes k name i)
    (hdots : name ≠ [46] ∧ name ≠ [46, 46]) (hempty : ¬ HasEntries s.disk.bytes i)
    {P : Server → Prop} (hdel : ∀ t, Alike (s.loadMem junk) t → ∀ x : ℕ, 4096 ≤ x →
      ∃ t', del t junk x = .ok t' ∧ Tables t' L ((T.count + 15) / 16) ∧ P t') :
    ∃ s' t', s.unlinkWith del junk k name = .ok (s', 0) ∧ P t' ∧
      Tables s' L ((T.count + 15) / 16) ∧
      L.Frame (fun o => o = .inode k ∨ ∃ b, o = .block k b) t'.disk.bytes s'.disk.bytes := by
  obtain ⟨hl, hr⟩ := h.serves
  obtain ⟨a, es, b, j, ha, hes, hj, hd, hloc, hslot⟩ := h.entryOf he
  have hholds := (hr.directory k a es ha hes).2
  have hlen := (hholds.names _ (List.mem_of_getElem? hslot)).2
  have hlength := hholds.length_le
  obtain ⟨hlt, -⟩ := List.getElem?_eq_some_iff.1 hslot
  obtain ⟨hi0, hi⟩ := h.inum_of_entryOf he hdots.1 hdots.2
  obtain ⟨a', ha'⟩ := Option.isSome_iff_exists.1 ((hl.image.inode_iff i).2 hi)
  obtain ⟨x, hx, hxaddr⟩ := hholds.exists_block hl.image ha (b := b) (by omega)
  obtain ⟨hnone, -⟩ | ⟨b', j', d, pInode, t, hsome, hblk, -, hafter, hunlink⟩ :=
    unlinkWith_directory junk hl ha hd hholds hdots (by dsimp only at hlen; omega) del
  · rw [hloc] at hnone
    cases hnone
  rw [hloc] at hsome
  obtain ⟨rfl, rfl⟩ := Prod.mk.inj (Option.some.inj hsome)
  have hinum : entryInum d j = i := by
    have hentry := (slot_of_locate hl ha hholds hloc).2.2.2.1
    rw [hslot] at hentry
    exact congrArg Prod.snd ((entry_eq hblk hj).trans hentry)
  have hload := (hl.readOnly.loadMem junk).1
  have hafter' : Loaded t L T.count ((T.count + 15) / 16) :=
    hload.congr hafter.bytes hafter.size hafter.chkpt hafter.iArr
  have hinode := hafter'.read_inode ha' (junk .inode)
  rw [hafter.bytes, loadMem_bytes] at hinode
  have hcount := hl.inode_lt ha'
  obtain ⟨w, hok, htables, hw⟩ := hdel _ (hafter.read a' inodeSize (junk .inode)) a'
    (h.behind i a' ha' hi0)
  have hx1028 := htables.checkpointSize_le (by simp) hxaddr
  have ha1028 := htables.checkpointSize_le (by simp) ha
  -- the block and the inode of the directory are written
  set last := ((List.range 14).filter fun i => blockArr pInode i ≠ -1).getLastD 0 with hlast
  set v := (((w.lseek x).write blockSize (setEntry d j [] (-1))).lseek a).write inodeSize
    (setSize pInode ((last + 1) * 4096)) with hv
  have hvtables : Tables v L ((T.count + 15) / 16) :=
    (htables.write hx1028 blockSize _).write ha1028 inodeSize _
  refine ⟨v.loadMem junk, w, ?_, hw, hvtables.loadMem junk, ?_⟩
  · rw [hunlink, hx]
    unfold removeEntryWith
    dsimp only
    rw [hinum, if_neg (by omega), Int.toNat_natCast, hafter'.inodeArr_eq, ha', ref_some, if_neg (by
      rw [statType_eq hinode, statSize_eq hinode]
      exact fun hdir => hempty (hl.image.hasEntries_iff.2 ⟨a', ha', hdir⟩)), hok]
    rfl
  · rw [loadMem_bytes, hv, write_bytes, write_bytes]
    exact Log.Frame.trans (Log.frame_write (Or.inr ⟨b, rfl⟩) hxaddr le_rfl le_rfl)
      (Log.frame_write (Or.inl rfl) ha le_rfl le_rfl)

/-- What `forget` does where `delInode` accesses the checkpoint out of bounds. -/
theorem Hosts.forget_ok (h : Hosts s L T) {a : ℕ} (ha : L.addr (.piece 0) = some a) {t : Server}
    (ht : Alike (s.loadMem junk) t) {x : ℕ} (hx : 4096 ≤ x) :
    ∃ t', forget q t junk x = .ok t' ∧ Tables t' L ((T.count + 15) / 16) ∧
      ∃ imapTmp, EqTo imapSize imapTmp (slice s.disk.bytes a) ∧
        t'.disk.bytes = patch s.disk.bytes a imapSize (setWord imapTmp q (-1)) := by
  have hload := (h.serves.1.readOnly.loadMem junk).1
  have htables := hload.tables.alike ht
  have ha1028 := htables.checkpointSize_le (by simp) ha
  have himap : t.imap 0 = a := by rw [htables.imap 0 (by omega), ha, ref_some]
  have hread := htables.alike ((Alike.refl t).read a imapSize (junk .imapTemp))
  have hpiece : EqTo imapSize ((t.lseek a).read imapSize (junk .imapTemp)).2
      (slice s.disk.bytes a) := by
    have heq := read_eqTo ((L.within _ _ ha).trans htables.size) (junk .imapTemp)
    rwa [ht.bytes, loadMem_bytes] at heq
  have hbytes : ((t.lseek a).read imapSize (junk .imapTemp)).1.disk.bytes = s.disk.bytes := by
    rw [read_bytes, lseek_bytes, ht.bytes, loadMem_bytes]
  unfold forget
  rw [delInode_behind hx]
  dsimp only
  rw [himap]
  generalize (t.lseek a).read imapSize (junk .imapTemp) = r at hread hpiece hbytes ⊢
  obtain ⟨u, imapTmp⟩ := r
  have hwritten := (hread.write ha1028 imapSize (setWord imapTmp q (-1))).loadMem junk
  have hu : u.imap 0 = a := by rw [hread.imap 0 (by omega), ha, ref_some]
  refine ⟨_, rfl, ?_, imapTmp, hpiece, ?_⟩
  · simp only [hu]
    exact hwritten
  · simp only [hu]
    rw [loadMem_bytes, write_bytes, hbytes]

theorem extends_forget : Extends (forget q) := fun s junk x t ht => by
  unfold forget
  rw [ht]

/-- **An effect that makes the numbers differ**: the entry `q` in the first piece is cleared, while an
entry behind it is in use. -/
theorem Hosts.not_agrees_forget (h : Hosts s L T) (he : EntryOf s.disk.bytes k name i)
    (hdots : name ≠ [46] ∧ name ≠ [46, 46]) (hempty : ¬ HasEntries s.disk.bytes i) {j : ℕ}
    (hqj : q < j) (hj16 : j < 16) (hj : j < T.count) (junk : Junk) :
    ∃ s', s.unlinkWith (forget q) junk k name = .ok (s', 0) ∧ ¬ Agrees s' := by
  have hl := h.serves.1
  have hp : 0 < (T.count + 15) / 16 := by omega
  obtain ⟨a, ha⟩ := Option.isSome_iff_exists.1 ((hl.image.piece_iff 0).2 hp)
  obtain ⟨s', t', hok, ⟨imapTmp, hpiece, hbytes⟩, htables, hframe⟩ :=
    h.unlinkWith_entry he hdots hempty fun t ht x hx => h.forget_ok (q := q) ha ht hx
  have hcleared : EqTo imapSize (slice t'.disk.bytes a) (setWord imapTmp q (-1)) := by
    rw [hbytes]
    exact slice_patch _ _ _ _
  have hword : ∀ m < 16, word s'.disk.bytes a m = word (setWord imapTmp q (-1)) 0 m := by
    intro m hm
    rw [Image.word_piece (hframe _ _ (by simp) ha) hm, ← word_slice]
    exact word_congr (n := imapSize) (by simpa only [slice_zero] using hcleared)
      (by simp only [imapSize]; omega)
  have hold : ∀ m < 16, m ≠ q → m < T.count → 0 ≤ word s'.disk.bytes a m := by
    intro m hm hmq hmcount
    have heq : word imapTmp 0 m = word s.disk.bytes a m :=
      word_congr (n := imapSize) (by rwa [slice_zero]) (by simp only [imapSize]; omega)
    have hentry := hl.image.entry 0 a ha m hm
    rw [hword m hm, word_setWord_of_ne hmq, heq, hentry, ref_nonneg, hl.image.inode_iff]
    omega
  refine ⟨s', hok, htables.not_agrees ha (fun m hm => hold m (by omega) (by omega) (by omega)) ?_
    hqj.le hj16 (hold j hj16 (by omega) hj)⟩
  rw [hword q (by omega)]
  exact word_setWord_self (by decide)

/-! ### Whole runs -/

theorem exists_of_serverWith_next {l : Msg × Junk} (hlib : l.1.lib = .UNLINK)
    (hnext : (serverWith del).next s l = some s') :
    ∃ y, s.unlinkWith del l.2 l.1.pinum l.1.cname = .ok y ∧ y.1 = s' := by
  simp only [serverWith, handleWith, if_pos hlib] at hnext
  cases hok : s.unlinkWith del l.2 l.1.pinum l.1.cname with
  | error e =>
    rw [hok] at hnext
    cases hnext
  | ok y =>
    rw [hok] at hnext
    exact ⟨y, rfl, Option.some.inj hnext⟩

/-- `sUnlink` depends on `delInode` only where it removes an entry. -/
theorem unlinkWith_of_removeEntryWith {pinum : ℤ} {y : Server × ℤ}
    (hremove : ∀ (t : Server) pinumLoc pInode dirBlk loc ind,
      t.removeEntryWith del junk pinumLoc pInode dirBlk loc ind = .ok y →
        t.removeEntryWith del' junk pinumLoc pInode dirBlk loc ind = .ok y)
    (hok : s.unlinkWith del junk pinum name = .ok y) : s.unlinkWith del' junk pinum name = .ok y := by
  unfold unlinkWith at hok ⊢
  dsimp only at hok ⊢
  generalize s.loadMem junk = t at hok ⊢
  split_ifs at hok ⊢
  · exact hok
  · exact hok
  · exact hok
  · exact hok
  · exact hok
  generalize unlinkLoop name _ _ _ _ = r at hok ⊢
  obtain ⟨u, _ | ⟨dirBlk, loc, ind⟩⟩ := r
  · exact hok
  · exact hremove _ _ _ _ _ _ hok

theorem unlinkWith_of_extends (hdel : Extends del) {pinum : ℤ} {y : Server × ℤ}
    (hok : s.sUnlink junk pinum name = .ok y) : s.unlinkWith del junk pinum name = .ok y := by
  rw [sUnlink_eq] at hok
  refine unlinkWith_of_removeEntryWith (fun t pinumLoc pInode dirBlk loc ind ht => ?_) hok
  unfold removeEntryWith at ht ⊢
  dsimp only at ht ⊢
  split_ifs at ht ⊢
  · exact ht
  · obtain ⟨u, hu, hrest⟩ := bind_eq_ok.1 ht
    exact bind_eq_ok.2 ⟨u, hdel _ _ _ _ hu, hrest⟩

/-- A refused `UNLINK` does not come to `delInode`. -/
theorem sUnlink_of_refused {pinum : ℤ} {t : Server}
    (hok : s.unlinkWith del junk pinum name = .ok (t, -1)) :
    s.sUnlink junk pinum name = .ok (t, -1) := by
  rw [sUnlink_eq]
  refine unlinkWith_of_removeEntryWith (fun t pinumLoc pInode dirBlk loc ind ht => ?_) hok
  unfold removeEntryWith at ht ⊢
  dsimp only at ht ⊢
  split_ifs at ht ⊢
  · exact ht
  · obtain ⟨u, -, hrest⟩ := bind_eq_ok.1 ht
    cases (Prod.mk.inj (Except.ok.inj hrest)).2

/-- `del` matters only where `delInode` is undefined. -/
theorem next_of_extends (hdel : Extends del) {l : Msg × Junk} (hnext : server.next s l = some s') :
    (serverWith del).next s l = some s' := by
  by_cases hlib : l.1.lib = .UNLINK
  swap
  · rw [serverWith_next hlib]
    exact hnext
  obtain ⟨y, hok, rfl⟩ := next_eq_some.1 hnext
  simp only [handle, hlib] at hok
  obtain ⟨x, hx, rfl⟩ := map_eq_ok.1 hok
  exact serverWith_next_unlink hlib (unlinkWith_of_extends hdel hx)

/-- **A request that removes nothing** does what it does without `del`. -/
theorem Hosts.next_of_removesNothing (h : Hosts s L T) {l : Msg × Junk} (hl : s.RemovesNothing l)
    (hnext : (serverWith del).next s l = some s') : server.next s l = some s' := by
  by_cases hlib : l.1.lib = .UNLINK
  swap
  · rwa [serverWith_next hlib] at hnext
  obtain ⟨y, hok, rfl⟩ := exists_of_serverWith_next hlib hnext
  by_cases hsafe : s.SafeUnlink l.1.pinum l.1.cname
  · obtain ⟨t, ht⟩ := h.unlinkWith_refused hsafe del l.2
    obtain rfl := Except.ok.inj (ht.symm.trans hok)
    refine next_eq_some.2 ⟨(t, { l.1 with returnNum := -1 }), ?_, rfl⟩
    simp only [handle, hlib, sUnlink_of_refused hok, Except.map]
  · obtain ⟨k, n, hk, hdot, hdotdot, he, hempty⟩ := h.entry_of_unlinkWith hsafe hok
    obtain hname | hname | hentries := hl hlib k n hk he
    · exact absurd hname hdot
    · exact absurd hname hdotdot
    · exact absurd hentries hempty

/-- Otherwise there is an effect of the access out of bounds that makes the numbers differ. -/
theorem Hosts.exists_not_agrees (h : Hosts s L T) {l : Msg × Junk} (hl : ¬ s.RemovesNothing l) :
    ∃ del s', Extends del ∧ (serverWith del).next s l = some s' ∧ ¬ Agrees s' := by
  obtain ⟨hlib, k, i, hk, he, hdot, hdotdot, hempty⟩ : l.1.lib = .UNLINK ∧ ∃ k i : ℕ, l.1.pinum = k ∧
      EntryOf s.disk.bytes k l.1.cname i ∧ l.1.cname ≠ [46] ∧ l.1.cname ≠ [46, 46] ∧
        ¬ HasEntries s.disk.bytes i := by
    simpa only [RemovesNothing, Classical.not_imp, not_forall, exists_prop, not_or] using hl
  obtain ⟨hi0, hi⟩ := h.inum_of_entryOf he hdot hdotdot
  obtain ⟨s', hok, hnot⟩ := h.not_agrees_forget he ⟨hdot, hdotdot⟩ hempty (q := 0) (j := 1)
    (by omega) (by omega) (by omega) l.2
  rw [← hk] at hok
  exact ⟨_, s', extends_forget, serverWith_next_unlink hlib hok, hnot⟩

/-- **A whole run** from a reachable image. -/
theorem Hosts.always_agrees (h : Hosts s L T) (ls : List (Msg × Junk)) :
    (∀ del, Extends del → (serverWith del).Always Agrees s ls) ↔
      server.Allowed RemovesNothing s ls := by
  induction ls generalizing s L T with
  | nil => exact iff_of_true (fun _ _ => h.serves.1.agrees) trivial
  | cons l ls ih =>
    constructor
    · intro hall
      refine ⟨?_, fun s' hnext => ?_⟩
      · by_contra hnot
        obtain ⟨del, s', hdel, hnext, hno⟩ := h.exists_not_agrees hnot
        exact hno ((hall del hdel).2 s' hnext).head
      · obtain ⟨L', T', h'⟩ := next_hosts ⟨L, T, h⟩ hnext
        exact (ih h').1 fun del hdel => (hall del hdel).2 s' (next_of_extends hdel hnext)
    · -- the requests that remove nothing are the same for all `del`
      rintro ⟨hl, hrest⟩ del hdel
      refine ⟨h.serves.1.agrees, fun s' hnext => ?_⟩
      have hnext' := h.next_of_removesNothing hl hnext
      obtain ⟨L', T', h'⟩ := next_hosts ⟨L, T, h⟩ hnext'
      exact (ih h').2 (hrest s' hnext') del hdel

end Server

/-- The files `f` and `g` are created, and `f` is unlinked. -/
def shifting : List (Msg × Junk) :=
  creation ++ [nextCreation] ++ [(message .UNLINK, fun _ _ => 0)]

/-- The image with the files `f` and `g`. -/
theorem created_files : ∃ s L T, server.run (fresh fun _ _ => 0) (creation ++ [nextCreation]) = some s ∧
    Server.Hosts s L T ∧ T.count = 3 ∧ EntryOf s.disk.bytes 0 [102] (1 : ℕ) ∧
      ¬ HasEntries s.disk.bytes 1 := by
  obtain ⟨s₁, L₁, hcreate, h₁, hroot, hblock, -, hinode, hzero, hstop⟩ :=
    fresh_create [102] 1 (by decide) (by decide) (Or.inr rfl)
  have hes : (Names.create (Namespace.root [46] [46, 46]) 0 [102] 1).dirs 0 =
      some [([46], 0), ([46, 46], 0), ([102], 1)] := rfl
  have habsent := sLookup_created h₁ hroot hblock hinode (hzero rfl) (c := 103) (l := [])
    (by decide) (by decide) (by decide)
  have henters : Server.Enters s₁ (fun _ _ => 0) (0 : ℕ) 1 [103] :=
    h₁.enters hes (by decide) (Or.inr rfl) (by decide) (by rw [habsent]; decide)
  have hroom : L₁.stop + imapSize + inodeSize + 2 * blockSize < 2 ^ 31 := by
    have hfresh : Server.freshLayout.stop + 2 * (imapSize + inodeSize + 2 * blockSize) < 2 ^ 31 := by
      decide
    omega
  obtain ⟨y, L, a, es', hok, hy, hL, -, ha, hes', hinodes, -⟩ := h₁.sCreate_ok (by decide)
    (sprintf_eq (by decide) _) (by decide) henters (by decide) hroom
  obtain rfl := Option.some.inj (hroot.symm.trans ha)
  obtain rfl := Option.some.inj (hes.symm.trans hes')
  obtain ⟨hl, hr⟩ := hL.serves
  have hroot' := hinodes _ _ hroot
  have hes₂ : (Names.create (Names.create (Namespace.root [46] [46, 46]) 0 [102] 1) 0 [103] 1).dirs
      0 = some [([46], 0), ([46, 46], 0), ([102], 1), ([103], 2)] := rfl
  obtain ⟨hd, hholds⟩ := hr.directory 0 _ _ hroot' hes₂
  refine ⟨y.1, L, _, ?_, hL, rfl, ?_, fun hentries => ?_⟩
  · have hcname : (message .CREAT).cname = [102] := by decide +kernel
    have hcname' : nextCreation.1.cname = [103] := by decide +kernel
    have hok' : s₁.sCreate nextCreation.2 nextCreation.1.pinum nextCreation.1.type
        nextCreation.1.cname = .ok y := by
      rw [hcname']
      exact hok
    refine Machine.run_cons_eq_some.2 ⟨s₁, Server.next_of_sCreate rfl (y := (s₁, 0)) ?_,
      Machine.run_cons_eq_some.2 ⟨y.1, Server.next_of_sCreate rfl hok', rfl⟩⟩
    rw [hcname]
    exact hcreate
  · have hloc := Server.locate_of_once hL hes₂ hroot' (q := 2) (e := ([102], 1)) rfl
      fun _ _ => eq_of_name (by decide) rfl
    have hslot := (Server.slot_of_locate hl hroot' hholds hloc).2.2.2.1
    exact hl.image.entryOf_iff.2 ⟨_, hroot', hd, 0, 2, hloc, congrArg Prod.snd hslot⟩
  · obtain ⟨a, ha, hdir, -⟩ := hl.image.hasEntries_iff.1 hentries
    rw [hr.file 1 a ha rfl] at hdir
    cases hdir

end Mfs

end OperatingSystems

import OperatingSystems.Mfs.Creation

/-!
# Storage without unlink

Sequences of requests that create, write, read and look up, from a new image on.  What was written
last to each block is followed by a ghost (`record`).

* `Request` : the requests in question.
* `fresh_loaded` : the new image is one.
* `handle_spec` : what one request keeps.
* `storage` : **the objects on the disk never overlap, and every block that was written is read back
  as it was written last**.
-/

namespace OperatingSystems

namespace Mfs

open Bytes

/-- Requests other than `UNLINK`, `INIT` and `SHUTDOWN`; a `CREAT` has a valid type, the number of
a parent and a name without `%`, and not all inodes exist. -/
def Request (s : Server) (l : Msg × Junk) : Prop :=
  match l.1.lib with
  | .CREAT => (l.1.type = DIRECTORY ∨ l.1.type = REGULAR_FILE) ∧ 0 ≤ l.1.pinum ∧ l.1.pinum < 4096 ∧
      1 ≤ l.1.cname.length ∧ l.1.cname.length ≤ 59 ∧ 37 ∉ l.1.cname ∧ s.iArr.length < 4096
  | .WRITE | .READ | .STAT | .LOOKUP => True
  | _ => False

/-- What was written last to each block: a successful `WRITE` is recorded. -/
def record (s : Server) (l : Msg × Junk) (written : ℕ → ℕ → Option Bytes) :
    ℕ → ℕ → Option Bytes :=
  match s.handle l.2 l.1 with
  | .ok (_, reply) =>
    if l.1.lib = .WRITE ∧ reply.returnNum = 0 then fun inum blk =>
      if inum = l.1.inum.toNat ∧ blk = l.1.block.toNat then some l.1.buffer else written inum blk
    else written
  | .error _ => written

/-- The blocks contain what was recorded. -/
def Recorded (m : Bytes) (L : Layout) (written : ℕ → ℕ → Option Bytes) : Prop :=
  ∀ inum blk data, written inum blk = some data → Contains m L inum blk data

/-- The invariant of the server. -/
def Good (s : Server) (written : ℕ → ℕ → Option Bytes) : Prop :=
  ∃ L n, Server.Loaded s L n ((n + 15) / 16) ∧ Recorded s.disk.bytes L written

namespace Server

variable {s s' : Server} {L L' : Layout} {n : ℕ} {junk : Junk} {msg : Msg}
  {written : ℕ → ℕ → Option Bytes}

theorem ReadOnly.good (h : ReadOnly s s' L n ((n + 15) / 16))
    (hrec : Recorded s.disk.bytes L written) : Good s' written := by
  refine ⟨L, n, h.1, ?_⟩
  rw [h.2]
  exact hrec

theorem Grows.good (h : Grows s s' L n ((n + 15) / 16)) (hrec : Recorded s.disk.bytes L written) :
    Good s' written := by
  obtain ⟨L', hl, hevolves⟩ := h
  exact ⟨L', n, hl, fun inum blk data hdata =>
    hevolves.contains (hrec inum blk data hdata) not_false⟩

theorem record_of_ne {l : Msg × Junk} (h : l.1.lib ≠ .WRITE) : record s l written = written := by
  unfold record
  split
  · exact if_neg fun hw => h hw.1
  · rfl

theorem handle_write (hg : Good s written) (hlib : msg.lib = .WRITE) :
    UnlessOverflow (s.handle junk msg) fun y => Good y.1 (record s (msg, junk) written) := by
  obtain ⟨L, n, hl, hrec⟩ := hg
  rcases sWrite_spec hl junk msg.inum msg.buffer msg.block with
    herr | ⟨x, hx, L', hl', hevolves, hcontains⟩
  · exact Or.inl (by simp only [handle, hlib, herr, Except.map])
  · have hhandle : s.handle junk msg = .ok (x.1, { msg with returnNum := x.2 }) := by
      simp only [handle, hlib, hx, Except.map]
    refine Or.inr ⟨_, hhandle, L', n, hl', fun inum blk data hdata => ?_⟩
    simp only [record, hhandle, hlib, true_and] at hdata
    by_cases hzero : x.2 = 0
    · rw [if_pos hzero] at hdata
      by_cases hblk : inum = msg.inum.toNat ∧ blk = msg.block.toNat
      · obtain rfl := Option.some.inj ((if_pos hblk).symm.trans hdata)
        rw [hblk.1, hblk.2]
        exact hcontains hzero
      · exact hevolves.contains (hrec inum blk data ((if_neg hblk).symm.trans hdata))
          fun hP => hblk hP.2
    · rw [if_neg hzero] at hdata
      exact hevolves.contains (hrec inum blk data hdata) fun hP => hzero hP.1

theorem handle_create (hg : Good s written) (hlib : msg.lib = .CREAT)
    (hreq : Request s (msg, junk)) :
    UnlessOverflow (s.handle junk msg) fun y => Good y.1 (record s (msg, junk) written) := by
  obtain ⟨L, n, hl, hrec⟩ := hg
  simp only [Request, hlib] at hreq
  obtain ⟨-, -, hpinum, -, -, hname, hlen⟩ := hreq
  have hn : n < 4096 := by simpa [hl.iArr] using hlen
  rw [record_of_ne (by simp [hlib])]
  rcases sCreate_spec hl hn junk hpinum.ne msg.type hname with herr | ⟨x, hx, n', hgrows⟩
  · exact Or.inl (by simp only [handle, hlib, herr, Except.map])
  · have hhandle : s.handle junk msg = .ok (x.1, { msg with returnNum := x.2 }) := by
      simp only [handle, hlib, hx, Except.map]
    exact Or.inr ⟨_, hhandle, hgrows.good hrec⟩

/-- **One request** keeps the invariant, unless `endLog` overflows. -/
theorem handle_spec (hg : Good s written) (hreq : Request s (msg, junk)) :
    UnlessOverflow (s.handle junk msg) fun y => Good y.1 (record s (msg, junk) written) := by
  cases hlib : msg.lib with
  | WRITE => exact handle_write hg hlib
  | CREAT => exact handle_create hg hlib hreq
  | READ =>
    obtain ⟨L, n, hl, hrec⟩ := hg
    rw [record_of_ne (by simp [hlib])]
    simp only [handle, hlib]
    exact .ok ((sRead_readOnly hl _ _ _).good hrec)
  | STAT =>
    obtain ⟨L, n, hl, hrec⟩ := hg
    rw [record_of_ne (by simp [hlib])]
    simp only [handle, hlib]
    exact .ok ((sStat_readOnly hl _ _).good hrec)
  | LOOKUP =>
    obtain ⟨L, n, hl, hrec⟩ := hg
    rw [record_of_ne (by simp [hlib])]
    simp only [handle, hlib]
    exact .ok ((sLookup_readOnly hl _ _).good hrec)
  | INIT | UNLINK | SHUTDOWN =>
    simp only [Request, hlib] at hreq

/-! ### The new image -/

/-- The checkpoint alone. -/
def checkpointOnly : Layout where
  addr o := if o = .checkpoint then some 0 else none
  stop := checkpointSize
  within o a h := by
    split_ifs at h with ho
    rw [ho, ← Option.some.inj h]
    rfl
  disjoint o o' a a' hne h h' := by
    split_ifs at h h' with ho ho'
    exact absurd (ho.trans ho'.symm) hne

/-- The objects of a new image. -/
def freshLayout : Layout :=
  ((checkpointOnly.append (.piece 0)).append (.inode 0)).append (.block 0 0)

theorem freshLayout_addr (o : Obj) : freshLayout.addr o = match o with
    | .checkpoint => some 0
    | .piece i => if i = 0 then some checkpointSize else none
    | .inode k => if k = 0 then some (checkpointSize + imapSize) else none
    | .block k b => if k = 0 ∧ b = 0 then some (checkpointSize + imapSize + inodeSize) else none := by
  unfold freshLayout
  cases o with
  | checkpoint => rfl
  | piece i => simp [Log.append, Function.update_apply, checkpointOnly]
  | inode k => simp [Log.append, Function.update_apply, checkpointOnly, Obj.size]
  | block k b => simp [Log.append, Function.update_apply, checkpointOnly, Obj.size]

theorem word_initChkpt {i : ℕ} (hi : i < 257) : word initChkpt 0 i =
    if i = 256 then ((checkpointSize + imapSize + inodeSize + blockSize : ℕ) : ℤ)
    else ref (freshLayout.addr (.piece i)) := by
  rw [freshLayout_addr]
  by_cases h0 : i = 0
  · subst h0
    exact word_ofWords (by decide)
  by_cases h256 : i = 256
  · subst h256
    exact word_ofWords (by decide)
  · rw [if_neg h256]
    simp only [h0, if_false, ref_none]
    rw [initChkpt, word_ofWords] <;> split <;> omega

theorem word_initImap (j : ℕ) : word initImap 0 j = ref (freshLayout.addr (.inode j)) := by
  rw [freshLayout_addr]
  cases j with
  | zero => exact word_ofWords (by decide)
  | succ j => exact word_ofWords (i := j + 1) (by simp only []; omega)

theorem blockArr_initRoot (b : ℕ) :
    blockArr initRoot b = ref (freshLayout.addr (.block 0 b)) := by
  rw [freshLayout_addr, blockArr]
  cases b with
  | zero => exact word_ofWords (by decide)
  | succ b =>
    rw [show 2 + (b + 1) = b + 3 by omega]
    exact word_ofWords (i := b + 3) (by simp only []; omega)

/-- The image that `initImage` writes. -/
theorem fresh_image (m dir : Bytes) :
    Image (patch (patch (patch (patch m 0 checkpointSize initChkpt) checkpointSize imapSize initImap)
      (checkpointSize + imapSize) inodeSize initRoot) (checkpointSize + imapSize + inodeSize)
      blockSize dir) freshLayout 1 1 := by
  set m₁ := patch m 0 checkpointSize initChkpt with hm₁
  set m₂ := patch m₁ checkpointSize imapSize initImap with hm₂
  set m₃ := patch m₂ (checkpointSize + imapSize) inodeSize initRoot with hm₃
  set m₄ := patch m₃ (checkpointSize + imapSize + inodeSize) blockSize dir with hm₄
  have hchk : ∀ i < 257, word m₄ 0 i = word initChkpt 0 i := by
    have h₂ : EqTo checkpointSize (slice m₂ 0) (slice m₁ 0) :=
      slice_patch_of_disjoint (Or.inr (Nat.zero_add _).le)
    have h₃ : EqTo checkpointSize (slice m₃ 0) (slice m₂ 0) :=
      slice_patch_of_disjoint (Or.inr (by omega))
    have h₄ : EqTo checkpointSize (slice m₄ 0) (slice m₃ 0) :=
      slice_patch_of_disjoint (Or.inr (by omega))
    intro i hi
    have hle : 4 * i + 4 ≤ checkpointSize := by simp only [checkpointSize]; omega
    rw [word_congr (h₄.trans (h₃.trans h₂)) hle, hm₁, word_patch_self hle]
  have himap : ∀ j < 16, word m₄ checkpointSize j = word initImap 0 j := by
    have h₃ : EqTo imapSize (slice m₃ checkpointSize) (slice m₂ checkpointSize) :=
      slice_patch_of_disjoint (Or.inr le_rfl)
    have h₄ : EqTo imapSize (slice m₄ checkpointSize) (slice m₃ checkpointSize) :=
      slice_patch_of_disjoint (Or.inr (by omega))
    intro j hj
    have hle : 4 * j + 4 ≤ imapSize := by simp only [imapSize]; omega
    rw [word_congr (h₄.trans h₃) hle, hm₂, word_patch_self hle]
  have hroot : EqTo inodeSize (slice m₄ (checkpointSize + imapSize)) initRoot :=
    EqTo.trans (slice_patch_of_disjoint (Or.inr le_rfl)) (slice_patch _ _ _ _)
  refine ⟨by rw [freshLayout_addr], by decide, by omega, by omega, fun i => ?_, fun k => ?_,
    fun k b hk => ?_, ?_, fun i hi => ?_, fun i a ha j hj => ?_, fun k a ha b hb => ?_,
    fun k a ha => ?_⟩
  · rw [freshLayout_addr]; by_cases hi : i = 0 <;> simp [hi]
  · rw [freshLayout_addr]; by_cases hk : k = 0 <;> simp [hk]
  · rw [freshLayout_addr] at hk
    by_cases hkb : k = 0 ∧ b = 0
    · omega
    · simp [hkb] at hk
  · rw [hchk 256 (by omega), word_initChkpt (by omega), if_pos rfl]; rfl
  · rw [hchk i (by omega), word_initChkpt (by omega), if_neg (by omega)]
  · rw [freshLayout_addr] at ha
    obtain ⟨rfl, rfl⟩ : i = 0 ∧ checkpointSize = a := by simpa using ha
    rw [himap j hj, word_initImap, Nat.mul_zero, Nat.zero_add]
  · rw [freshLayout_addr] at ha
    obtain ⟨rfl, rfl⟩ : k = 0 ∧ checkpointSize + imapSize = a := by simpa using ha
    rw [blockArr_eq hroot hb, blockArr_initRoot]
  · rw [freshLayout_addr] at ha
    obtain ⟨rfl, rfl⟩ : k = 0 ∧ checkpointSize + imapSize = a := by simpa using ha
    right
    rw [statType_eq hroot, statSize_eq hroot]
    refine ⟨word_ofWords (by decide), 2, le_rfl, by omega, word_ofWords (by decide), fun b hb => ?_⟩
    obtain rfl : b = 0 := by omega
    rw [freshLayout_addr]
    rfl

/-- The bytes of the new image. -/
def freshBytes (junk : Junk) : Bytes :=
  patch (patch (patch (patch (fun _ => 0) 0 checkpointSize initChkpt) checkpointSize imapSize initImap)
    (checkpointSize + imapSize) inodeSize initRoot) (checkpointSize + imapSize + inodeSize) blockSize
    (initDir junk)

theorem fresh_loaded (junk : Junk) :
    Loaded (fresh junk) freshLayout 1 1 ∧ (fresh junk).disk.bytes = freshBytes junk := by
  set s : Server := ⟨⟨fun _ => 0, 0, 0, fun _ _ => rfl⟩, initChkpt, []⟩ with hs
  have hbytes : ((((s.write checkpointSize initChkpt).write imapSize initImap).write
      inodeSize initRoot).write blockSize (initDir junk)).disk.bytes = freshBytes junk := by
    simp only [write, File.write, hs, Nat.zero_add, freshBytes]
  have hstored : Stored ((((s.write checkpointSize initChkpt).write imapSize initImap).write
      inodeSize initRoot).write blockSize (initDir junk)) freshLayout 1 1 := by
    refine ⟨hbytes ▸ fresh_image _ _, ?_⟩
    simp only [write, File.write, hs, Nat.zero_add]
    exact le_max_right _ _
  obtain ⟨hl, hkept, -⟩ := loadMem_spec hstored junk
  rw [hbytes] at hkept
  have hfresh : fresh junk = ((((s.write checkpointSize initChkpt).write imapSize initImap).write
      inodeSize initRoot).write blockSize (initDir junk)).loadMem junk := rfl
  rw [hfresh]
  exact ⟨hl, hkept⟩

theorem fresh_good (junk : Junk) : Good (fresh junk) fun _ _ => none :=
  ⟨freshLayout, 1, (fresh_loaded junk).1, nofun⟩

/-- The invariant holds all along a sequence of requests. -/
theorem good_of_run {ls : List (Msg × Junk)} (hls : server.Allowed Request (fresh junk) ls)
    (h : (server.track record).run (fresh junk, fun _ _ => none) ls = some (s, written)) :
    Good s written := by
  refine Machine.run_invariant_of_allowed (I := fun x => Good x.1 x.2) h
    (Machine.allowed_track.2 hls) (by simpa only using fresh_good junk) ?_
  rintro ⟨s, written⟩ ⟨msg, junk⟩ ⟨s', written'⟩ hgood hreq hnext
  obtain ⟨hnext, rfl⟩ := Machine.track_next_eq_some.1 hnext
  rcases handle_spec hgood hreq with herr | ⟨y, hy, hgood'⟩
  · simp [server, herr, Except.toOption] at hnext
  · simp only [server, hy, Except.toOption, Option.map_some, Option.some.injEq] at hnext
    rw [← hnext]
    exact hgood'

end Server

/-- The objects that the image refers to do not overlap and end below the end of the log. -/
def Apart (s : Server) : Prop :=
  (∀ o o' x x', o ≠ o' → onDisk s.disk.bytes o = some x → onDisk s.disk.bytes o' = some x' →
    x + o.size ≤ x' ∨ x' + o'.size ≤ x) ∧
  ∀ o x, onDisk s.disk.bytes o = some x → 0 ≤ x ∧ x + o.size ≤ s.endLog

/-- `sRead` succeeds on every block that was written, with the bytes that were written last. -/
def ReadsBack (s : Server) (written : ℕ → ℕ → Option Bytes) : Prop :=
  ∀ (inum blk : ℕ) data, written inum blk = some data → ∀ junk buff, ∃ s' buff',
    s.sRead junk inum buff blk = (s', 0, buff') ∧ EqTo blockSize buff' data

/-- The file `f` is to be created in the root directory, or block 14 of inode 1 is to be written. -/
def message (lib : Lib) : Msg :=
  ⟨ofCstr [102], fun _ => 7, 1, 14, REGULAR_FILE, 0, 0, 0, 0, lib⟩

end Mfs

end OperatingSystems

import OperatingSystems.Mfs.Outcomes

/-!
# The sizes of files

`sWrite` sets the size of a file from the block that it writes, also when the file has blocks behind
it.

* `recordBlocks` : the blocks that were written to each file.
* `covering` : the size of a file with these blocks.
* `SizesCover` : `STAT` reports this size for each regular file.
* `sizesCover_iff` : **the sizes cover the data all along a run if and only if no file is written
  below a block that it has**.
* `size_shrinks` : a file gets smaller when its first block is written again.
-/

namespace OperatingSystems

namespace Mfs

open Bytes

/-- The size of a file to which the blocks `bs` were written. -/
def covering (bs : List ℕ) : ℤ :=
  match bs.max? with
  | none => 0
  | some b => 4096 * (1 + b)

/-- The blocks that were written to each file: a successful `WRITE` is recorded. -/
def recordBlocks (s : Server) (l : Msg × Junk) (written : ℕ → List ℕ) : ℕ → List ℕ :=
  match s.handle l.2 l.1 with
  | .ok (_, reply) =>
    if l.1.lib = .WRITE ∧ reply.returnNum = 0 then
      Function.update written l.1.inum.toNat (l.1.block.toNat :: written l.1.inum.toNat)
    else written
  | .error _ => written

/-- `STAT` reports for each regular file the size that covers its blocks. -/
def SizesCover (x : Server × (ℕ → List ℕ)) : Prop :=
  ∀ (k : ℕ) junk stat size, (x.1.sStat junk k stat).2 = (0, REGULAR_FILE, size) →
    size = covering (x.2 k)

/-- A `WRITE` is not below a block that the file has. -/
def Upwards (x : Server × (ℕ → List ℕ)) (l : Msg × Junk) : Prop :=
  l.1.lib = .WRITE → ∀ k b : ℕ, l.1.inum = k → l.1.block = b → ∀ b' ∈ x.2 k, b' ≤ b

/-- The size that comes from the last block covers all of them if that block is the highest. -/
theorem covering_cons (b : ℕ) (bs : List ℕ) :
    (b + 1) * 4096 = covering (b :: bs) ↔ ∀ b' ∈ bs, b' ≤ b := by
  have hmax : (b :: bs).max? = some (bs.max?.elim b (max b)) := List.max?_cons
  obtain ⟨hmem, hle⟩ := List.max?_eq_some_iff.1 hmax
  have hcover : covering (b :: bs) = 4096 * (1 + (bs.max?.elim b (max b) : ℕ)) := by
    unfold covering
    rw [hmax]
  generalize bs.max?.elim b (max b) = m at hmem hle hcover
  have hb := hle b List.mem_cons_self
  rw [hcover]
  constructor
  · intro heq b' hb'
    have hb'm := hle b' (List.mem_cons_of_mem b hb')
    omega
  · intro hall
    have hm : m ≤ b := (List.mem_cons.1 hmem).elim (fun h => h.le) fun h => hall m h
    omega

namespace Server

variable {s s' : Server} {L : Layout} {T : Names} {written : ℕ → List ℕ} {junk : Junk} {msg : Msg}
  {y : Server × Msg}

/-- The sizes in the inodes of the regular files. -/
def Sizes (m : Bytes) (L : Layout) (T : Names) (written : ℕ → List ℕ) : Prop :=
  ∀ k a, L.addr (.inode k) = some a → T.dirs k = none →
    statSize (slice m a) = covering (written k)

theorem Hosts.sizesCover (h : Hosts s L T) :
    SizesCover (s, written) ↔ Sizes s.disk.bytes L T written := by
  obtain ⟨hl, hr⟩ := h.serves
  constructor
  · intro hc k a ha hk
    have hstat := hl.sStat_eq ha (fun _ _ => 0) (0, 0)
    rw [hr.file k a ha hk] at hstat
    exact hc k _ _ _ hstat
  · intro hsize k junk stat size hstat
    cases ha : L.addr (.inode k) with
    | none =>
      have hnone := hl.sStat_none ha junk stat
      simp only at hstat
      rw [hstat] at hnone
      cases hnone
    | some a =>
      simp only [hl.sStat_eq ha] at hstat
      obtain ⟨-, htype, rfl⟩ : _ ∧ _ ∧ _ := by simpa only [Prod.mk.injEq] using hstat
      refine hsize k a ha ?_
      cases hdir : T.dirs k with
      | none => rfl
      | some es =>
        rw [(hr.directory k a es ha hdir).1] at htype
        cases htype

/-- The blocks that are recorded are those of regular files. -/
structure Records (s : Server) (L : Layout) (T : Names) (written : ℕ → List ℕ) : Prop where
  hosts : Hosts s L T
  files : ∀ k, ∀ b ∈ written k, b < 14 ∧ k < T.count ∧ T.dirs k = none

theorem recordBlocks_of_ok (hok : s.handle junk msg = .ok y) :
    recordBlocks s (msg, junk) written =
      if msg.lib = .WRITE ∧ y.2.returnNum = 0 then
        Function.update written msg.inum.toNat (msg.block.toNat :: written msg.inum.toNat)
      else written := by
  simp only [recordBlocks, hok]

theorem track_of_sCreate (msg : Msg) (written : ℕ → List ℕ) (hlib : msg.lib = .CREAT) {x : Server × ℤ}
    (hok : s.sCreate junk msg.pinum msg.type msg.cname = .ok x) :
    (server.track recordBlocks).next (s, written) (msg, junk) = some (x.1, written) := by
  refine Machine.track_next_eq_some.2 ⟨next_of_sCreate hlib hok, ?_⟩
  rw [recordBlocks_of_ok (handle_of_sCreate hlib hok), if_neg]
  rw [hlib]
  exact fun hw => by cases hw.1

theorem track_of_sWrite (msg : Msg) (written : ℕ → List ℕ) (hlib : msg.lib = .WRITE)
    (hok : s.sWrite junk msg.inum msg.buffer msg.block = .ok (s', 0)) :
    (server.track recordBlocks).next (s, written) (msg, junk) =
      some (s', Function.update written msg.inum.toNat
        (msg.block.toNat :: written msg.inum.toNat)) := by
  refine Machine.track_next_eq_some.2 ⟨next_of_sWrite hlib hok, ?_⟩
  rw [recordBlocks_of_ok (handle_of_sWrite hlib hok), if_pos ⟨hlib, rfl⟩]

/-- The sizes after block `b` of the file `k` was written. -/
theorem Hosts.sizes_write {k a b x : ℕ} {buff : Bytes} {L' : Layout} (h : Hosts s L T)
    (h' : Hosts s' L' T) (ha : L.addr (.inode k) = some a) (hfile : T.dirs k = none)
    (hinodes : ∀ j c, L.addr (.inode j) = some c → L'.addr (.inode j) = some c)
    (hw : Written s.disk.bytes s'.disk.bytes L k a b x buff) (hb : b < 14)
    (hsizes : Sizes s.disk.bytes L T written) :
    Sizes s'.disk.bytes L' T (Function.update written k (b :: written k)) ↔
      ∀ b' ∈ written k, b' ≤ b := by
  have hsize : statSize (slice s'.disk.bytes a) = (b + 1) * 4096 := by
    obtain ⟨i, hi⟩ := hw.size
    rw [statSize_eq hi]
    exact statSize_setSize (by omega)
  constructor
  · intro hafter
    have hcover := hafter k a (hinodes k a ha) hfile
    rw [hsize, Function.update_self] at hcover
    exact (covering_cons b _).1 hcover
  · intro hup j c hc hjfile
    have hjcount := (h'.serves.1.image.inode_iff j).1 (by rw [hc]; rfl)
    have hold := h.addr_inode_of_lt hinodes hjcount hc
    rcases eq_or_ne j k with rfl | hj
    · obtain rfl := Option.some.inj (ha.symm.trans hold)
      rw [hsize, Function.update_self]
      exact (covering_cons b _).2 hup
    · rw [Function.update_of_ne hj, Image.statSize_congr (hw.frame _ _ (by simp [hj]) hold)]
      exact hsizes j c hold hjfile

/-- The sizes after a file was created in the directory `k`: a new regular file is empty. -/
theorem Hosts.sizes_create {k a len : ℕ} {es : List (List UInt8 × ℕ)} {name : List UInt8}
    {type : ℤ} {L' : Layout} (h : Hosts s L T) (h' : Hosts s' L' (T.create k name type))
    (htype : type = 0 ∨ type = 1) (hcount : T.count < 4096) (hes : T.dirs k = some es)
    (hk : k < T.count)
    (hinodes : ∀ j c, L.addr (.inode j) = some c → L'.addr (.inode j) = some c)
    (hadd : Added s.disk.bytes s'.disk.bytes L k a len name junk type T.count)
    (hnew : written T.count = []) (hsizes : Sizes s.disk.bytes L T written) :
    Sizes s'.disk.bytes L' (T.create k name type) written := by
  intro j c hc hfile
  rcases eq_or_ne j T.count with rfl | hj
  · obtain ⟨e, -, -, he, -, hinode, -⟩ := hadd.addr_inode h'.serves.1.image hcount
    obtain rfl := Option.some.inj (he.symm.trans hc)
    have hregular : type = 1 := by
      refine htype.resolve_left fun h0 => ?_
      rw [Names.create, Namespace.create_dirs_new, if_pos (decide_eq_true h0)] at hfile
      cases hfile
    rw [hnew, statSize_eq hinode, hregular, statSize, newInode, word_ofWords (by simp)]
    rfl
  · have hjcount : j < T.count + 1 := (h'.serves.1.image.inode_iff j).1 (by rw [hc]; rfl)
    have hold := h.addr_inode_of_lt hinodes (by omega) hc
    have hjk : j ≠ k := by
      rintro rfl
      rw [Names.create, Namespace.create_dirs_self _ _ hes hk] at hfile
      cases hfile
    rw [Names.create, Namespace.create_dirs_of_ne _ _ hjk hj] at hfile
    rw [Image.statSize_congr (hadd.frame _ _ (by simp [hjk]) hold)]
    exact hsizes j c hold hfile

/-- **One request** keeps the record that of regular files, and leads to sizes that cover the data
again if it does not write below a block that the file has. -/
theorem Records.step (h : Records s L T written) (hok : s.handle junk msg = .ok y) :
    ∃ L' T', Records y.1 L' T' (recordBlocks s (msg, junk) written) ∧
      (Sizes s.disk.bytes L T written →
        (Sizes y.1.disk.bytes L' T' (recordBlocks s (msg, junk) written) ↔
          Upwards (s, written) (msg, junk))) := by
  obtain ⟨hhosts, hfiles⟩ := h
  have hl := hhosts.serves.1
  rw [recordBlocks_of_ok hok]
  cases hhosts.outcome hok with
  | kept hosts bytes refused =>
    have hsame : ¬ (msg.lib = .WRITE ∧ y.2.returnNum = 0) := fun hw => by
      have := (refused hw.1).1
      omega
    rw [if_neg hsame, bytes]
    refine ⟨L, T, ⟨hosts, hfiles⟩, fun hsizes => iff_of_true hsizes ?_⟩
    -- the block is no block of a file, or behind all of them
    intro hw k b hk hb b' hb'
    by_contra hlt
    obtain ⟨hb14, hcount, hfile⟩ := hfiles k b' hb'
    obtain ⟨a, ha⟩ := Option.isSome_iff_exists.1 ((hl.image.inode_iff k).2 hcount)
    exact (refused hw).2 ⟨k, b, a, hk, hb, by omega, ha, hhosts.serves.2.file k a ha hfile⟩
  | wrote k b a x L' lib reply inum block lt inode regular hosts inodes written' =>
    have hcount := (hl.image.inode_iff k).1 (by rw [inode]; rfl)
    rw [if_pos ⟨lib, reply⟩, inum, block, Int.toNat_natCast, Int.toNat_natCast]
    refine ⟨L', T, ⟨hosts, fun j c hc => ?_⟩, fun hsizes => ?_⟩
    · rcases eq_or_ne j k with rfl | hj
      · rw [Function.update_self] at hc
        rcases List.mem_cons.1 hc with rfl | hc
        · exact ⟨lt, hcount, regular⟩
        · exact hfiles j c hc
      · rw [Function.update_of_ne hj] at hc
        exact hfiles j c hc
    · rw [hhosts.sizes_write hosts inode regular inodes written' lt hsizes]
      constructor
      · intro hup _ k' b' hk' hb'
        obtain ⟨rfl, rfl⟩ : k = k' ∧ b = b' := by
          simp only at hk' hb'
          omega
        exact hup
      · exact fun hup => hup lib k b inum block
  | created k a es name L' lib reply pinum enters count inode dirs text length hosts inodes added =>
    have hsame : ¬ (msg.lib = .WRITE ∧ y.2.returnNum = 0) := fun hw => by
      rw [lib] at hw
      cases hw.1
    have hk : k < T.count := (hl.image.inode_iff k).1 (by rw [inode]; rfl)
    have hnew : written T.count = [] :=
      List.eq_nil_iff_forall_not_mem.2 fun b hb => lt_irrefl _ (hfiles _ b hb).2.1
    rw [if_neg hsame]
    refine ⟨L', _, ⟨hosts, fun j c hc => ?_⟩, fun hsizes => ?_⟩
    · obtain ⟨hb, hlt, hfile⟩ := hfiles j c hc
      refine ⟨hb, Nat.lt_succ_of_lt hlt, ?_⟩
      rw [Names.create, Namespace.create_dirs_of_ne _ _ _ hlt.ne, hfile]
      rintro rfl
      rw [dirs] at hfile
      cases hfile
    · exact iff_of_true (hhosts.sizes_create hosts enters.valid count dirs hk inodes added hnew
        hsizes) fun hw => by rw [lib] at hw; cases hw

end Server

/-- The states of a run with a record. -/
def Recording (x : Server × (ℕ → List ℕ)) : Prop := ∃ L T, Server.Records x.1 L T x.2

theorem Server.Records.recording {s : Server} {L : Layout} {T : Names} {written : ℕ → List ℕ}
    (h : Server.Records s L T written) : Recording (s, written) := ⟨L, T, h⟩

/-- One step of the server with the record. -/
theorem next_recording {x x' : Server × (ℕ → List ℕ)} {l : Msg × Junk} (hx : Recording x)
    (hnext : (server.track recordBlocks).next x l = some x') :
    Recording x' ∧ (SizesCover x → (SizesCover x' ↔ Upwards x l)) := by
  obtain ⟨L, T, h⟩ := hx
  obtain ⟨hserver, hrecord⟩ := Machine.track_next_eq_some.1 hnext
  obtain ⟨y, hok, hy⟩ := Server.next_eq_some.1 hserver
  obtain ⟨L', T', h', hstep⟩ := h.step hok
  obtain ⟨s', written'⟩ := x'
  obtain rfl : recordBlocks x.1 l x.2 = written' := hrecord
  obtain rfl : y.1 = s' := hy
  refine ⟨⟨L', T', h'⟩, fun hc => ?_⟩
  rw [h'.hosts.sizesCover]
  exact hstep (h.hosts.sizesCover.1 hc)

theorem fresh_recording (junk : Junk) : Recording (fresh junk, fun _ => []) := by
  refine Server.Records.recording ⟨Server.fresh_hosts junk, fun k b hb => ?_⟩
  cases hb

/-- A new image has no regular files. -/
theorem fresh_sizesCover (junk : Junk) : SizesCover (fresh junk, fun _ => []) := by
  refine (Server.fresh_hosts junk).sizesCover.2 fun k a ha hk => ?_
  have hk0 := ((Server.fresh_hosts junk).serves.1.image.inode_iff k).1 (by rw [ha]; rfl)
  obtain rfl : k = 0 := Nat.lt_one_iff.1 hk0
  cases hk

/-- **The sizes cover the data** in every state of a run if and only if no request of the run writes
below a block that the file has. -/
theorem sizesCover_iff {junk : Junk} {ls : List (Msg × Junk)} {x : Server × (ℕ → List ℕ)}
    (h : (server.track recordBlocks).run (fresh junk, fun _ => []) ls = some x) :
    (server.track recordBlocks).Always SizesCover (fresh junk, fun _ => []) ls ↔
      (server.track recordBlocks).Allowed Upwards (fresh junk, fun _ => []) ls :=
  Machine.always_iff_allowed (I := Recording) (fun _ _ _ hx hnext => (next_recording hx hnext).1)
    (fun _ _ _ hx hc hnext => (next_recording hx hnext).2 hc) h (fresh_recording junk)
    (fresh_sizesCover junk)

/-- A file is created in a new image. -/
theorem sizesCover_creation : ∃ x,
    (server.track recordBlocks).run (fresh fun _ _ => 0, fun _ => []) creation = some x ∧
      (server.track recordBlocks).Always SizesCover (fresh fun _ _ => 0, fun _ => []) creation := by
  obtain ⟨s, -, hrun, -⟩ := created_file
  obtain ⟨x, hx, -⟩ := Machine.run_track (f := recordBlocks) hrun fun _ => []
  exact ⟨x, hx, (sizesCover_iff hx).2 ⟨fun hw => (by cases hw), fun _ _ => trivial⟩⟩

/-- A file is created, its second block is written, and then its first one. -/
def rewriting : List (Msg × Junk) :=
  [(message .CREAT, fun _ _ => 0), ({ message .WRITE with block := 1 }, fun _ _ => 0),
    ({ message .WRITE with block := 0 }, fun _ _ => 0)]

/-- The record of this run. -/
theorem rewriting_run {s s₁ s₂ s₃ : Server}
    (hcreate : s.sCreate (fun _ _ => 0) 0 1 (message .CREAT).cname = .ok (s₁, 0))
    (hwrite₁ : s₁.sWrite (fun _ _ => 0) 1 (message .WRITE).buffer 1 = .ok (s₂, 0))
    (hwrite₀ : s₂.sWrite (fun _ _ => 0) 1 (message .WRITE).buffer 0 = .ok (s₃, 0)) :
    ∃ written, (server.track recordBlocks).run (s, fun _ => []) rewriting = some (s₃, written) ∧
      written 1 = [0, 1] := by
  have h₁ := Server.track_of_sCreate (message .CREAT) (fun _ => []) rfl hcreate
  have h₂ := Server.track_of_sWrite { message .WRITE with block := 1 } (fun _ => []) rfl hwrite₁
  have h₃ := fun written => Server.track_of_sWrite { message .WRITE with block := 0 } written rfl
    hwrite₀
  exact ⟨_, Machine.run_cons_eq_some.2 ⟨_, h₁, Machine.run_cons_eq_some.2 ⟨_, h₂,
    Machine.run_cons_eq_some.2 ⟨_, h₃ _, rfl⟩⟩⟩, rfl⟩

/-- **A file gets smaller**: its blocks 0 and 1 were written, and its size is 4096. -/
theorem size_shrinks : ∃ x,
    (server.track recordBlocks).run (fresh fun _ _ => 0, fun _ => []) rewriting = some x ∧
      x.2 1 = [0, 1] ∧ (∀ junk stat, (x.1.sStat junk 1 stat).2 = (0, REGULAR_FILE, 4096)) ∧
      ¬ SizesCover x := by
  have hcname : (message .CREAT).cname = [102] := by decide +kernel
  obtain ⟨s₁, L₁, hcreate, h₁, -, -, ha, hinode, -, hstop⟩ := fresh_create [102] 1 (by decide)
    (by decide) (Or.inr rfl)
  have hl₁ := h₁.serves.1
  have hblock : L₁.addr (.block 1 0) = some (Server.freshLayout.stop + inodeSize) := by
    have hb := hl₁.image.block 1 _ ha 0 (by omega)
    rw [blockArr_eq hinode (by omega), blockArr, Server.newInode, word_ofWords (by decide)] at hb
    exact ref_eq_natCast.1 hb.symm
  have hreg : statType (slice s₁.disk.bytes Server.freshLayout.stop) = REGULAR_FILE := by
    rw [statType_eq hinode]
    exact word_ofWords (by decide)
  -- the second block is appended, and the first one is where it was
  obtain ⟨s₂, hwrite₁⟩ := hl₁.sWrite_ok ha hreg (b := 1) (by omega) (by
    have hfresh : Server.freshLayout.stop + imapSize + inodeSize + 3 * blockSize < 2 ^ 31 := by
      decide
    omega) (fun _ _ => 0) (message .WRITE).buffer
  obtain ⟨L₂, hl₂, hevolves, -⟩ :=
    (Server.sWrite_spec hl₁ (fun _ _ => 0) _ (message .WRITE).buffer _).of_ok hwrite₁
  obtain ⟨hblock₂, -⟩ := hevolves.block 1 0 _ ⟨_, ha, hreg⟩ (by simp) hblock
  have hreg₂ := (hevolves.type 1 _ ha).trans hreg
  have ha₂ := hevolves.inode 1 _ ha
  obtain ⟨y, i, hwrite₀, hy, hi, -, hbytes⟩ := Server.sWrite_of_block hl₂ ha₂ hreg₂ (by omega)
    hblock₂ (fun _ _ => 0) (message .WRITE).buffer
  have hw := Server.overwritten hl₂ ha₂ hi (by omega) hblock₂ (message .WRITE).buffer
  rw [← hbytes] at hw
  obtain ⟨L₃, hl₃, hevolves', -⟩ :=
    (Server.sWrite_spec hl₂ (fun _ _ => 0) _ (message .WRITE).buffer _).of_ok hwrite₀
  obtain ⟨i', hi'⟩ := hw.size
  have hstat : ∀ junk stat, (y.1.sStat junk 1 stat).2 = (0, REGULAR_FILE, 4096) := by
    intro junk stat
    have hsize : statSize (slice y.1.disk.bytes Server.freshLayout.stop) = 4096 := by
      rw [statSize_eq hi', statSize_setSize (by decide)]
      rfl
    have heq := hl₃.sStat_eq (hevolves'.inode 1 _ ha₂) junk stat
    rwa [hw.type_eq, hreg₂, hsize] at heq
  rw [← hcname] at hcreate
  obtain ⟨written, hrun, hwritten⟩ := rewriting_run hcreate hwrite₁
    (hwrite₀.trans (by rw [← hy]))
  refine ⟨_, hrun, hwritten, hstat, fun hc => ?_⟩
  have hcover : 4096 = covering (written 1) := hc 1 (fun _ _ => 0) (0, 0) _ (hstat _ _)
  rw [hwritten] at hcover
  revert hcover
  decide

end Mfs

end OperatingSystems

import OperatingSystems.Mfs.Lookups

/-!
# The directories of a reachable image form a tree

Stated in terms of what is on the disk: the inodes and blocks are found by following the addresses
in the image, and slot `q` of a directory is the entry `q % 64` of its block `q / 64`.

* `Hierarchy m` : the directories of the image `m` form a tree.
* `hierarchy_of_run` : **they do after every sequence of requests** without `%` in the names of new
  files.
-/

namespace OperatingSystems

namespace Mfs

open Bytes

/-- The slot `q` of the directory `k`, if its block exists. -/
def slotOf (m : Bytes) (k q : ℕ) : Option (List UInt8 × ℤ) :=
  (blockAddr m k (q / 64)).map fun x => entry (slice m x.toNat) (q % 64)

/-- The first `c` slots of the directory `k` are in use, with distinct names, and the others in its
blocks are not. -/
structure Filled (m : Bytes) (k c : ℕ) : Prop where
  used : ∀ q < c, ∃ name i, slotOf m k q = some (name, i) ∧ i ≠ -1
  distinct : ∀ q q', ∀ e e', q < q' → q' < c → slotOf m k q = some e → slotOf m k q' = some e' →
    e.1 ≠ e'.1
  unused : ∀ q e, c ≤ q → slotOf m k q = some e → e.2 = -1

/-- The directories of the image form a tree. -/
structure Hierarchy (m : Bytes) : Prop where
  itself : ∀ k, IsDirectory m k → slotOf m k 0 = some ([46], (k : ℤ))
  parent : ∀ k, IsDirectory m k → ∃ up : ℕ, slotOf m k 1 = some ([46, 46], (up : ℤ)) ∧
    (k = 0 ∧ up = 0 ∨ k ≠ 0 ∧ IsDirectory m up ∧
      ∃ q name, 2 ≤ q ∧ slotOf m up q = some (name, (k : ℤ)))
  filled : ∀ k x, inodeAddr m k = some x → statType (slice m x.toNat) = DIRECTORY →
    ∃ c : ℕ, statSize (slice m x.toNat) = 4096 * c ∧ 2 ≤ c ∧ c ≤ 14 * 64 ∧ Filled m k c
  once : ∀ i, i ≠ 0 → (inodeAddr m i).isSome → ∃! x : ℕ × ℕ, IsDirectory m x.1 ∧ 2 ≤ x.2 ∧
    ∃ name, slotOf m x.1 x.2 = some (name, (i : ℤ))

namespace Server

variable {s : Server} {L : Layout} {T : Names} {k q : ℕ} {es : List (List UInt8 × ℕ)}

/-- The slots of a directory contain its entries. -/
theorem Hosts.slotOf_eq (h : Hosts s L T) (hes : T.dirs k = some es) :
    slotOf s.disk.bytes k q = if 64 * (q / 64) < es.length then some (slot es[q]?) else none := by
  have himage := h.serves.1.image
  obtain ⟨a, ha, -, hholds, -⟩ := h.directory hes
  have hlen := hholds.length_le
  unfold slotOf
  split_ifs with hq
  · obtain ⟨x, hx, haddr⟩ := hholds.exists_block himage ha hq
    rw [himage.blockAddr_eq (by omega), haddr, Option.map_some, Option.map_some]
    refine congrArg some ?_
    show entry (slice s.disk.bytes x) (q % 64) = _
    rw [hholds.slots _ (by omega) x hx _ (Nat.mod_lt _ (by omega)), Nat.div_add_mod]
  · by_cases hb : q / 64 < 14
    · have halloc := (hholds.alloc _ hb).not.2 hq
      rw [not_not, himage.block k a ha _ hb, ref_eq_neg_one] at halloc
      rw [himage.blockAddr_eq hb, halloc]
      rfl
    · rw [blockAddr, if_neg hb]
      rfl

/-- A slot that is in use. -/
theorem Hosts.slotOf_eq_some (h : Hosts s L T) {name : List UInt8} {i : ℤ} (hi : i ≠ -1)
    (hk : IsDirectory s.disk.bytes k) : slotOf s.disk.bytes k q = some (name, i) ↔
      ∃ num : ℕ, T.At k q (name, num) ∧ i = num := by
  obtain ⟨es, hes⟩ := h.isDirectory_iff.1 hk
  simp only [h.slotOf_eq hes, Namespace.at_of_dirs hes]
  split_ifs with hq
  · rw [Option.some.injEq, slot_eq_iff hi]
  · refine iff_of_false (by simp) ?_
    rintro ⟨num, hnum, -⟩
    obtain ⟨hlt, -⟩ := List.getElem?_eq_some_iff.1 hnum
    omega

/-- An image that represents a tree with distinct names is one. -/
theorem Hosts.hierarchy (h : Hosts s L T) (hT : T.Distinct) : Hierarchy s.disk.bytes := by
  have hsome : ∀ {k q name} {num : ℕ}, IsDirectory s.disk.bytes k → T.At k q (name, num) →
      slotOf s.disk.bytes k q = some (name, (num : ℤ)) :=
    fun hk hat => (h.slotOf_eq_some (by omega) hk).2 ⟨_, hat, rfl⟩
  have hat : ∀ {k q name} {num : ℕ}, IsDirectory s.disk.bytes k →
      slotOf s.disk.bytes k q = some (name, (num : ℤ)) → T.At k q (name, num) := by
    intro k q name num hk hs
    obtain ⟨num', hnum, heq⟩ := (h.slotOf_eq_some (by omega) hk).1 hs
    rwa [Int.ofNat.inj heq]
  refine ⟨fun k hk => ?_, fun k hk => ?_, fun k x hx hd => ?_, fun i hi0 hi => ?_⟩
  · obtain ⟨es, hes⟩ := h.isDirectory_iff.1 hk
    exact hsome hk ⟨es, hes, h.tree.itself k es hes⟩
  · obtain ⟨es, hes⟩ := h.isDirectory_iff.1 hk
    obtain ⟨up, hup, hroot⟩ := h.tree.above k es hes
    refine ⟨up, hsome hk ⟨es, hes, hup⟩, hroot.imp_right ?_⟩
    rintro ⟨hk0, q, name, hq, hname⟩
    have hdir : IsDirectory s.disk.bytes up := h.isDirectory_iff.2 (hname.imp fun _ => And.left)
    exact ⟨hk0, hdir, q, name, hq, hsome hdir hname⟩
  · obtain ⟨es, hes⟩ := h.isDirectory_iff.1 ⟨x, hx, hd⟩
    obtain ⟨a, ha, -, hholds, -⟩ := h.directory hes
    rw [h.serves.1.image.inodeAddr_eq, ha] at hx
    obtain rfl := Option.some.inj hx
    obtain ⟨up, hup, -⟩ := h.tree.above k es hes
    obtain ⟨hlen, -⟩ := List.getElem?_eq_some_iff.1 hup
    refine ⟨es.length, hholds.size, hlen, hholds.length_le, fun q hq => ?_,
      fun q q' e e' hlt hq' he he' => ?_, fun q e hq he => ?_⟩
    · refine ⟨es[q].1, es[q].2, ?_, by omega⟩
      rw [h.slotOf_eq hes, if_pos (by omega), List.getElem?_eq_getElem hq]
      rfl
    · have hq : q < es.length := by omega
      rw [h.slotOf_eq hes, if_pos (by omega), List.getElem?_eq_getElem hq] at he
      rw [h.slotOf_eq hes, if_pos (by omega), List.getElem?_eq_getElem hq'] at he'
      rw [← Option.some.inj he, ← Option.some.inj he']
      intro hname
      have hq₁ : q < (es.map Prod.fst).length := by simpa using hq
      have hq₂ : q' < (es.map Prod.fst).length := by simpa using hq'
      have hsame : (es.map Prod.fst)[q] = (es.map Prod.fst)[q'] := by
        rw [List.getElem_map, List.getElem_map]
        exact hname
      exact absurd ((hT k es hes).getElem_inj_iff.1 hsame) (by omega)
    · rw [h.slotOf_eq hes] at he
      split_ifs at he
      rw [← Option.some.inj he, List.getElem?_eq_none hq]
      rfl
  · rw [h.serves.1.image.inodeAddr_eq, Option.isSome_map, h.serves.1.image.inode_iff] at hi
    obtain ⟨x, ⟨hx2, name, hname⟩, hunique⟩ := h.tree.once i hi0 hi
    have hdir : IsDirectory s.disk.bytes x.1 := h.isDirectory_iff.2 (hname.imp fun _ => And.left)
    refine ⟨x, ⟨hdir, hx2, name, hsome hdir hname⟩, ?_⟩
    rintro y ⟨hy, hy2, name', hname'⟩
    exact hunique y ⟨hy2, name', hat hy hname'⟩

/-- A request without `%` in the name of a new file keeps the names distinct. -/
theorem handle_distinct (h : Hosts s L T) (hT : T.Distinct) {msg : Msg} {junk : Junk}
    (hmsg : msg.lib = .CREAT → 37 ∉ msg.cname) {y : Server × Msg}
    (hok : s.handle junk msg = .ok y) : ∃ L' T', Hosts y.1 L' T' ∧ T'.Distinct := by
  obtain ⟨L', hL' | ⟨k, es, name, hlib, he, hes, hname, hL'⟩⟩ := handle_hosts h hok
  · exact ⟨L', T, hL', hT⟩
  have hprint := sprintf_eq (hmsg hlib) [60]
  obtain rfl := Option.some.inj (hprint.symm.trans hname)
  refine ⟨L', _, hL', hT.create (by decide) hes (h.tree.bounded k es hes) ?_ _⟩
  -- a name that is there would have been found
  intro hmem
  obtain ⟨e, he', hfst⟩ := List.mem_map.1 hmem
  have hnum : (msg.cname, e.2) ∈ es := hfst ▸ he'
  obtain ⟨a, ha, -, hholds, -⟩ := h.directory hes
  have hin := (hholds.inUse_iff h.serves.1.image ha).2 ⟨e.2, hnum, rfl⟩
  have habsent := he.absent
  obtain ⟨-, i, hi, -, hr⟩ | ⟨hno, -⟩ := h.sLookup_eq junk hes
    ⟨he.length.1, he.length.2.le⟩
  · omega
  · exact hno ⟨_, hin⟩

end Server

/-- **The namespace is a tree.**  After every sequence of requests with results, of which those that
create files have names without `%`, the directories of the image form a tree. -/
theorem hierarchy_of_run {junk : Junk} {ls : List (Msg × Junk)} {s : Server}
    (hls : server.Allowed (fun _ l => l.1.lib = .CREAT → 37 ∉ l.1.cname) (fresh junk) ls)
    (h : server.run (fresh junk) ls = some s) : Hierarchy s.disk.bytes := by
  have hinv : ∃ L T, Server.Hosts s L T ∧ T.Distinct := by
    refine Machine.run_invariant_of_allowed (I := fun s => ∃ L T, Server.Hosts s L T ∧ T.Distinct) h
      hls ⟨_, _, Server.fresh_hosts junk, Namespace.distinct_root (by decide)⟩ ?_
    rintro s ⟨msg, junk⟩ s' ⟨L, T, hs, hT⟩ hmsg hnext
    obtain ⟨y, hok, rfl⟩ := Server.next_eq_some.1 hnext
    exact Server.handle_distinct hs hT hmsg hok
  obtain ⟨L, T, hs, hT⟩ := hinv
  exact hs.hierarchy hT

/-- A file is created in a new image. -/
theorem hierarchy_file : ∃ s, server.run (fresh fun _ _ => 0) [(message .CREAT, fun _ _ => 0)] =
    some s ∧ Hierarchy s.disk.bytes := by
  have hcname : (message .CREAT).cname = [102] := by decide +kernel
  obtain ⟨s, L, hcreate, -⟩ := fresh_create [102] 1 (by decide) (by decide)
    (Or.inr rfl)
  have hrun : server.run (fresh fun _ _ => 0) [(message .CREAT, fun _ _ => 0)] = some s := by
    refine Machine.run_cons_eq_some.2 ⟨s, Server.next_of_sCreate rfl (y := (s, 0)) ?_, rfl⟩
    rw [hcname]
    exact hcreate
  have hname : server.Allowed (fun _ l => l.1.lib = .CREAT → 37 ∉ l.1.cname) (fresh fun _ _ => 0)
      [(message .CREAT, fun _ _ => 0)] := by
    refine ⟨fun _ => ?_, fun _ _ => trivial⟩
    rw [hcname]
    decide
  exact ⟨s, hrun, hierarchy_of_run hname hrun⟩

end Mfs

end OperatingSystems

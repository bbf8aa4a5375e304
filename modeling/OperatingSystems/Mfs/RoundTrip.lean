import OperatingSystems.Mfs.Atomic
import OperatingSystems.Mfs.Outcomes

/-!
# Creating a file and looking it up

`MFS_Creat` prints the name into its message, with the name as the format, and the server prints what
it gets into the entry of the directory in the same way; `MFS_Lookup` copies the bytes of the name.

* `Server.answer` : what the server answers to a call of the client.
* `Server.RoundTrips` : `MFS_Lookup` finds the file, and the other names of the directory as before.
* `Server.Plain` : the name has no `%`, and no stray entry is taken for the file.
* `roundTrips_of_plain` : **in every reachable image, a file with such a name is found after it was
  created**.
* `name_lost` : a name with `%` is not found.
-/

namespace OperatingSystems

namespace Mfs

open Bytes

namespace Server

/-- What the server answers to a call, whose message contained `m` before. -/
def answer (s : Server) (junk : Junk) (m : Msg) (c : Call) : Option (Server × Msg) :=
  (c.msg m).bind fun msg => (s.handle junk msg).toOption

/-- Whatever memory contains, the call is answered, and the answer has the property. -/
def Answers (s : Server) (c : Call) (P : Server × Msg → Prop) : Prop :=
  ∀ junk m, ∃ y, s.answer junk m c = some y ∧ P y

/-- In `s'`, `MFS_Lookup` returns a number for which `MFS_Stat` then reports the type.  For the other
names, it returns what it returned in `s` if the directory had them, or the search behind its last
block comes to the same; and no other names came into the directory or left it. -/
structure RoundTrips (s s' : Server) (k : ℕ) (type : ℤ) (name : Bytes) : Prop where
  found : ∃ i : ℕ, s'.Answers (.MFS_Lookup k name) fun y => y.2.returnNum = i ∧
    y.1.Answers (.MFS_Stat i) fun z => z.2.returnNum = 0 ∧ z.2.statType = type
  others : ∀ other : Bytes, (stringAt other).length < 60 → stringAt other ≠ stringAt name →
    ∀ junk junk', (∃ i, InUse s.disk.bytes k (stringAt other) i) ∨
      strayMatch s junk k (stringAt other) = strayMatch s' junk' k (stringAt other) →
    ∀ m m', ∃ y y', s.answer junk m (.MFS_Lookup k other) = some y ∧
      s'.answer junk' m' (.MFS_Lookup k other) = some y' ∧ y'.2.returnNum = y.2.returnNum
  entries : ∀ text ≠ stringAt name, ∀ i,
    InUse s'.disk.bytes k text i ↔ InUse s.disk.bytes k text i

/-- The name has no `%`, and no entry behind the last block of the directory is taken for the file. -/
def Plain (s : Server) (junk : Junk) (k : ℕ) (name : List UInt8) : Prop :=
  37 ∉ name ∧ ∀ e, strayMatch s junk k name = some e → e.2 < 0

variable {s s' : Server} {L : Layout} {T : Names} {k : ℕ} {junk : Junk} {m : Msg} {pinum type : ℤ}
  {name : Bytes}

/-! ### Calls -/

theorem answer_lookup (hlen : (stringAt name).length < 60) (s : Server) (junk : Junk) (m : Msg)
    (pinum : ℤ) : ∃ y, s.answer junk m (.MFS_Lookup pinum name) = some y ∧
      y.1 = (s.sLookup junk pinum (stringAt name)).1 ∧
      y.2.returnNum = (s.sLookup junk pinum (stringAt name)).2 := by
  obtain ⟨msg, hmsg, hlib, hpinum, hcname⟩ := msg_lookup hlen pinum m
  rw [answer, hmsg, Option.bind_some, ← hpinum, ← hcname]
  simp only [handle, hlib]
  exact ⟨_, rfl, rfl, rfl⟩

theorem answer_creat {text : List UInt8} (hprint : sprintf (stringAt name) [] = some text)
    (h0 : 0 ∉ text) (hlen : text.length < 60) (s : Server) (junk : Junk) (m : Msg)
    (pinum type : ℤ) {x : Server × ℤ} :
    (∃ y, s.answer junk m (.MFS_Creat pinum type name) = some y ∧ (y.1, y.2.returnNum) = x) ↔
      s.sCreate junk pinum type text = .ok x := by
  obtain ⟨msg, hmsg, hlib, hpinum, htype, hcname⟩ := msg_creat hprint h0 hlen pinum type m
  rw [answer, hmsg, Option.bind_some, ← hpinum, ← htype, ← hcname]
  simp only [handle, hlib]
  cases s.sCreate junk msg.pinum msg.type msg.cname with
  | error e => simp [Except.map, Except.toOption]
  | ok z => simp [Except.map, Except.toOption]

/-- What `MFS_Stat` answers for a file. -/
theorem Hosts.answers_stat (h : Hosts s L T) {i b : ℕ} (hi : L.addr (.inode i) = some b) :
    s.Answers (.MFS_Stat i) fun y =>
      y.2.returnNum = 0 ∧ y.2.statType = statType (slice s.disk.bytes b) := by
  intro junk m
  have hstat := h.serves.1.sStat_eq hi junk (m.statType, m.statSize)
  rw [answer]
  simp only [Call.msg, Option.bind_some, handle]
  generalize s.sStat junk i (m.statType, m.statSize) = r at hstat ⊢
  exact ⟨_, rfl, congrArg Prod.fst hstat, congrArg (fun r => r.2.1) hstat⟩

/-! ### The directory after the creation -/

section

variable {L' : Layout} {es : List (List UInt8 × ℕ)} {text other : List UInt8}

/-- The entries of a directory that are in use. -/
theorem Hosts.inUse_iff (h : Hosts s L T) (hes : T.dirs k = some es) {i : ℤ} :
    InUse s.disk.bytes k text i ↔ ∃ num : ℕ, (text, num) ∈ es ∧ i = num := by
  obtain ⟨a, ha, -, hholds, -⟩ := h.directory hes
  exact hholds.inUse_iff h.serves.1.image ha

/-- The entries of the directory and the new one. -/
theorem Hosts.create_dirs (h : Hosts s L T) (hes : T.dirs k = some es) :
    (T.create k text type).dirs k = some (es ++ [(text, T.count)]) :=
  Namespace.create_dirs_self _ _ hes (h.tree.bounded k es hes) text _

/-- The other entries in use are as before. -/
theorem Hosts.inUse_create (h : Hosts s L T) (h' : Hosts s' L' (T.create k text type))
    (hes : T.dirs k = some es) (hother : other ≠ text) (i : ℤ) :
    InUse s'.disk.bytes k other i ↔ InUse s.disk.bytes k other i := by
  rw [h.inUse_iff hes, h'.inUse_iff (h.create_dirs hes)]
  refine exists_congr fun num => and_congr_left' ?_
  rw [List.mem_append, List.mem_singleton, Prod.mk.injEq, or_iff_left fun hnew => hother hnew.1]

/-- The new file is found. -/
theorem Hosts.sLookup_new (h : Hosts s L T) (h' : Hosts s' L' (T.create k text type))
    (hes : T.dirs k = some es) (habsent : ¬ ∃ i, InUse s.disk.bytes k text i) (junk : Junk) :
    (s'.sLookup junk k text).2 = T.count := by
  have hnone : (es.find? fun e => e.1 = text) = none := List.find?_eq_none.2 fun e he hname =>
    habsent ⟨_, (h.inUse_iff hes).2 ⟨e.2, of_decide_eq_true hname ▸ he, rfl⟩⟩
  refine h'.sLookup_of_find (h.create_dirs hes) (e := (text, T.count)) ?_ junk
  rw [List.find?_append, hnone, Option.none_or, List.find?_cons_of_pos (by simp)]

/-- The other names are found as before. -/
theorem Hosts.sLookup_other (h : Hosts s L T) (h' : Hosts s' L' (T.create k text type))
    (hes : T.dirs k = some es) (hother : other ≠ text) (hlen : other.length < 60)
    {junk junk' : Junk} (hagree : (∃ i, InUse s.disk.bytes k other i) ∨
      strayMatch s junk k other = strayMatch s' junk' k other) :
    (s'.sLookup junk' k other).2 = (s.sLookup junk k other).2 := by
  have hes' : (T.create k text type).dirs k = some (es ++ [(text, T.count)]) := h.create_dirs hes
  by_cases hin : ∃ i, InUse s.disk.bytes k other i
  · obtain ⟨i, hi⟩ := hin
    obtain ⟨num, hnum, -⟩ := (h.inUse_iff hes).1 hi
    obtain ⟨e, he⟩ := Option.isSome_iff_exists.1 (List.find?_isSome (p := fun e => e.1 = other).2
      ⟨_, hnum, decide_eq_true rfl⟩)
    rw [h.sLookup_of_find hes he, h'.sLookup_of_find hes' (e := e) ?_]
    rw [List.find?_append, he, Option.some_or]
  have hin' : ¬ ∃ i, InUse s'.disk.bytes k other i := fun ⟨i, hi⟩ =>
    hin ⟨i, (h.inUse_create h' hes hother i).1 hi⟩
  obtain rfl | hne := eq_or_ne other []
  · rw [sLookup_of_not h.serves.1, sLookup_of_not h'.serves.1] <;>
      exact fun ⟨_, _, _, _, _, hpos, _⟩ => absurd hpos (by decide)
  have hname : 1 ≤ other.length ∧ other.length ≤ 60 := ⟨List.length_pos_of_ne_nil hne, hlen.le⟩
  obtain ⟨hin₁, -⟩ | ⟨-, hr⟩ := h.sLookup_eq junk hes hname
  · exact absurd hin₁ hin
  obtain ⟨hin₁, -⟩ | ⟨-, hr'⟩ := h'.sLookup_eq junk' hes' hname
  · exact absurd hin₁ hin'
  rw [hr, hr', hagree.resolve_left hin]

/-- **After a file was created**, it is found, and the others as before. -/
theorem Hosts.roundTrips (h : Hosts s L T) (h' : Hosts s' L' (T.create k (stringAt name) type))
    (hes : T.dirs k = some es) (hadd : AddsFile s s' k (stringAt name) type T.count)
    (hlen : (stringAt name).length < 60) (habsent : ¬ ∃ i, InUse s.disk.bytes k (stringAt name) i) :
    RoundTrips s s' k type name where
  found := by
    refine ⟨T.count, fun junk m => ?_⟩
    obtain ⟨y, hy, hstate, hnum⟩ := answer_lookup hlen s' junk m k
    obtain ⟨b, hb, htype⟩ := hadd.inode
    have haddr := ref_eq_natCast.1 ((h'.resolves T.count junk).symm.trans (hb junk))
    have hro : ReadOnly s' y.1 L' _ _ := hstate ▸ sLookup_readOnly h'.serves.1 _ _
    have hstat := (h'.readOnly hro).answers_stat haddr
    rw [hro.2, htype] at hstat
    exact ⟨y, hy, hnum.trans (h.sLookup_new h' hes habsent junk), hstat⟩
  others other hlt hother junk junk' hagree m m' := by
    obtain ⟨y, hy, -, hnum⟩ := answer_lookup hlt s junk m k
    obtain ⟨y', hy', -, hnum'⟩ := answer_lookup hlt s' junk' m' k
    refine ⟨y, y', hy, hy', ?_⟩
    rw [hnum, hnum', h.sLookup_other h' hes hother hlt hagree]
  entries text htext i := h.inUse_create h' hes htext i

end

/-- **One call** to a reachable image. -/
theorem Hosts.roundTrips_answer (h : Hosts s L T) (hlen : 1 ≤ (stringAt name).length)
    (hlt : (stringAt name).length < 60) (habsent : ¬ ∃ i, InUse s.disk.bytes k (stringAt name) i)
    (hplain : s.Plain junk k (stringAt name)) {y : Server × Msg}
    (hok : s.answer junk m (.MFS_Creat k type name) = some y) (hzero : y.2.returnNum = 0) :
    s.RoundTrips y.1 k type name := by
  obtain ⟨h37, hstray⟩ := hplain
  have h0 : 0 ∉ stringAt name := zero_notMem_cstr _ _
  have hx := (answer_creat (sprintf_eq h37 _) h0 hlt s junk m k type).1 ⟨y, hok, rfl⟩
  by_cases he : Enters s junk k type (stringAt name)
  · have hcount : T.count < 4096 := by
      by_contra hcount
      rw [h.sCreate_full he hcount] at hx
      cases hx
    obtain ⟨-, es, L', hes, h', hadd⟩ := (h.created_of_enters he h0 h37 hcount).of_ok hx
    exact h.roundTrips h' hes hadd hlt habsent
  · -- without a new file, `sCreate` returns 0 only if a name is found
    obtain ⟨-, hr⟩ := h.sCreate_refused he hx
    have hfound : 0 ≤ (s.sLookup junk k (stringAt name)).2 := by
      by_contra hneg
      rw [if_neg fun hall => hneg hall.2.2] at hr
      exact absurd (hr.symm.trans hzero) (by decide)
    obtain ⟨-, hin | ⟨e, he', hpos⟩⟩ := (h.sLookup_nonneg_iff junk k hlen hlt).1 hfound
    · exact absurd hin habsent
    · exact absurd (hstray e he') (not_lt.2 hpos)

end Server

/-- **The round trip** of every name without `%`, in every reachable image: where no stray entry is
taken for the file, `MFS_Lookup` returns its number after `MFS_Creat` returned 0. -/
theorem roundTrips_of_plain {s : Server} {junk₀ : Junk} {ls : List (Msg × Junk)} {k : ℕ} {type : ℤ}
    {name : Bytes} (h : server.run (fresh junk₀) ls = some s)
    (hlen : 1 ≤ (stringAt name).length ∧ (stringAt name).length ≤ 59)
    (habsent : ¬ ∃ i, InUse s.disk.bytes k (stringAt name) i) {junk : Junk}
    (hplain : s.Plain junk k (stringAt name)) {m : Msg} {y : Server × Msg}
    (hok : s.answer junk m (.MFS_Creat k type name) = some y) (hzero : y.2.returnNum = 0) :
    s.RoundTrips y.1 k type name := by
  obtain ⟨L, T, hs⟩ := Server.hosts_of_run h
  exact hs.roundTrips_answer hlen.1 (by omega) habsent hplain hok hzero

/-- A new image has a root directory with room for files, and only the entries `.` and `..`. -/
theorem root_fresh (name : List UInt8) (hdots : name ≠ [46] ∧ name ≠ [46, 46]) :
    IsDirectory (fresh fun _ _ => 0).disk.bytes 0 ∧ ¬ Server.Full (fresh fun _ _ => 0).disk.bytes 0 ∧
      ¬ ∃ i, InUse (fresh fun _ _ => 0).disk.bytes 0 name i := by
  have h := Server.fresh_hosts fun _ _ => 0
  have hes : (Namespace.root [(46 : UInt8)] [46, 46]).dirs 0 =
      some [([46], 0), ([46, 46], 0)] := rfl
  refine ⟨h.isDirectory_iff.2 ⟨_, hes⟩, (h.full_iff hes).not.2 (by decide), fun ⟨i, hi⟩ => ?_⟩
  obtain ⟨num, hnum, -⟩ := (h.inUse_iff hes).1 hi
  simp [hdots] at hnum

/-- The file `f` in a new image. -/
theorem roundTrips_fresh : ∃ y, (fresh fun _ _ => 0).answer (fun _ _ => 0) (message .INIT)
    (.MFS_Creat (0 : ℕ) 1 (ofCstr [102])) = some y ∧
      (fresh fun _ _ => 0).RoundTrips y.1 0 1 (ofCstr [102]) := by
  have hname : stringAt (ofCstr [102]) = [102] := stringAt_ofCstr (by decide) (by decide)
  have hrun : server.run (fresh fun _ _ => 0) [] = some (fresh fun _ _ => 0) := rfl
  obtain ⟨s, L, hok, -⟩ := fresh_create [102] 1 (by decide) (by decide) (Or.inr rfl)
  have hprint : sprintf (stringAt (ofCstr [102])) [] = some [102] := by rw [hname]; decide
  obtain ⟨y, hy, hx⟩ := (Server.answer_creat hprint (by decide) (by decide) _ _ (message .INIT)
    (0 : ℕ) 1).2 hok
  refine ⟨y, hy, roundTrips_of_plain hrun ?_ ?_ ?_ hy (congrArg Prod.snd hx)⟩
  · rw [hname]
    decide
  · rw [hname]
    exact (root_fresh [102] (by decide)).2.2
  · rw [hname]
    refine ⟨by decide, fun e he => ?_⟩
    rw [strayMatch_fresh (by decide)] at he
    cases he

/-- **A name that is lost**: `MFS_Creat` is called with `%%%%` in a new image, the client sends `%%`
and the server enters `%`; there is no file `%%%%`. -/
theorem name_lost : IsDirectory (fresh fun _ _ => 0).disk.bytes 0 ∧
    ¬ Server.Full (fresh fun _ _ => 0).disk.bytes 0 ∧
    (¬ ∃ i, InUse (fresh fun _ _ => 0).disk.bytes 0 [37, 37, 37, 37] i) ∧
    ∃ y z, (fresh fun _ _ => 0).answer (fun _ _ => 0) (message .INIT)
        (.MFS_Creat (0 : ℕ) 1 (ofCstr [37, 37, 37, 37])) = some y ∧ y.2.returnNum = 0 ∧
      y.1.answer (fun _ _ => 0) (message .INIT) (.MFS_Lookup (0 : ℕ) (ofCstr [37, 37, 37, 37])) =
        some z ∧ z.2.returnNum = -1 ∧
      ¬ (fresh fun _ _ => 0).RoundTrips y.1 0 1 (ofCstr [37, 37, 37, 37]) := by
  have hname : stringAt (ofCstr [37, 37, 37, 37]) = [37, 37, 37, 37] :=
    stringAt_ofCstr (by decide) (by decide)
  obtain ⟨hdir, hroom, habsent⟩ := root_fresh [37, 37, 37, 37] (by decide)
  have hserver : sprintf [37, 37] [60] = some [37] := by decide
  obtain ⟨s, L, hok, h, hroot, hblock, -, hinode, hzero, -⟩ := fresh_create_printed [37, 37] 1
    (by decide) (by decide) hserver (by decide) (Or.inr rfl)
  have hprint : sprintf (stringAt (ofCstr [37, 37, 37, 37])) [] = some [37, 37] := by
    rw [hname]
    decide
  obtain ⟨y, hy, hx⟩ := (Server.answer_creat hprint (by decide) (by decide) _ _ (message .INIT)
    (0 : ℕ) 1).2 hok
  have hs : y.1 = s := congrArg Prod.fst hx
  have hlost := sLookup_created h hroot hblock hinode (hzero rfl) (c := 37) (l := [37, 37, 37])
    (by decide) (by decide) (by decide)
  obtain ⟨z, hz, -, hnum⟩ := Server.answer_lookup (by rw [hname]; decide) y.1 (fun _ _ => 0)
    (message .INIT) (0 : ℕ)
  rw [hname, hs, hlost] at hnum
  refine ⟨hdir, hroom, habsent, y, z, hy, congrArg Prod.snd hx, hz, hnum, fun hround => ?_⟩
  obtain ⟨i, hi⟩ := hround.found
  obtain ⟨z', hz', hnum', -⟩ := hi (fun _ _ => 0) (message .INIT)
  obtain rfl := Option.some.inj (hz.symm.trans hz')
  omega

end Mfs

end OperatingSystems

import OperatingSystems.Mfs.Server
import OperatingSystems.Rpc.Datagram

/-!
# The client library of MFS

`mfs.c` of `P5`: each function fills in a message, sends it to the server and takes the first
datagram that arrives for the reply; after a timeout of five seconds it sends the message again.
Nothing in a message says which call it belongs to.

* `Call` : the calls of the functions of the library.
* `Call.msg` : the message that a function sends; the fields that it does not set are those of `m`.
* `msg_creat`, `msg_unlink`, `msg_lookup` : the name in the message.
* `network` : the client, the server and the network.
* `not_matching` : a late reply to one call is returned by the next one.
* `reply_of_this_or_earlier` : **which replies a call can return**.
-/

namespace OperatingSystems

namespace Mfs

open Bytes

/-- Calls of the functions of `mfs.c`; strings and buffers are given by the memory at their
address. -/
inductive Call where
  | MFS_Lookup (pinum : ℤ) (name : Bytes)
  | MFS_Stat (inum : ℤ)
  | MFS_Write (inum : ℤ) (buffer : Bytes) (block : ℤ)
  | MFS_Read (inum : ℤ) (buffer : Bytes) (block : ℤ)
  | MFS_Creat (pinum type : ℤ) (name : Bytes)
  | MFS_Unlink (pinum : ℤ) (name : Bytes)

/-- `sprintf(msg.name, name)`: a long name runs on into `buffer`; what does not fit there either is
left undefined. -/
def Msg.printName (m : Msg) (name : Bytes) : Option Msg :=
  match sprintf (cstr (60 + 4096) name) [] with
  | none => none
  | some s =>
    if s.length < 60 + 4096 then some { m with
      name := patch m.name 0 (s.length + 1) (ofCstr s)
      buffer := patch m.buffer 0 (s.length + 1 - 60) (slice (ofCstr s) 60) }
    else none

/-- `sprintf(msg.buffer, buffer)`. -/
def Msg.printBuffer (m : Msg) (buffer : Bytes) : Option Msg :=
  match sprintf (cstr 4096 buffer) [] with
  | none => none
  | some s =>
    if s.length < 4096 then some { m with buffer := patch m.buffer 0 (s.length + 1) (ofCstr s) }
    else none

/-- The message that a call sends. -/
def Call.msg (m : Msg) : Call → Option Msg
  | MFS_Lookup pinum name => some { m with
      block := -1, inum := -1, pinum := pinum, type := -1, lib := .LOOKUP
      name := patch m.name 0 60 name
      buffer := patch m.buffer 0 6 (ofCstr [72, 101, 108, 108, 111])
      returnNum := -1 }
  | MFS_Stat inum => some { m with inum := inum, block := -1, lib := .STAT, pinum := -1, type := -1 }
  | MFS_Write inum buffer block => some { m with
      lib := .WRITE, inum := inum, block := block, buffer := patch m.buffer 0 4096 buffer }
  | MFS_Read inum buffer block => (m.printBuffer buffer).map fun m => { m with
      inum := inum, block := block, lib := .READ, type := -1, pinum := -1, returnNum := -1 }
  | MFS_Creat pinum type name => (m.printName name).map fun m => { m with
      type := type, pinum := pinum, lib := .CREAT, inum := -1, block := -1, returnNum := -1 }
  | MFS_Unlink pinum name => (m.printName name).map fun m => { m with
      pinum := pinum, lib := .UNLINK, inum := -1, type := -1, block := -1, returnNum := -1 }

/-- The string at an address. -/
def stringAt (name : Bytes) : List UInt8 := cstr (60 + 4096) name

theorem stringAt_ofCstr {name : List UInt8} (h0 : 0 ∉ name) (hlen : name.length < 60 + 4096) :
    stringAt (ofCstr name) = name := cstr_ofCstr hlen h0 (EqTo.refl _ _)

/-- What `sprintf` prints is the name in the message, if it fits in there. -/
theorem printName_eq {name : Bytes} {text : List UInt8}
    (hprint : sprintf (stringAt name) [] = some text) (h0 : 0 ∉ text) (hlen : text.length < 60)
    (m : Msg) : ∃ m', m.printName name = some m' ∧ m'.cname = text := by
  have hlong : text.length < 60 + 4096 := by omega
  unfold Msg.printName
  rw [← stringAt, hprint]
  refine ⟨_, if_pos hlong, cstr_ofCstr hlong h0 fun i hi => ?_⟩
  rw [if_pos (by omega)]
  exact (congrArg (patch m.name 0 _ (ofCstr text)) (Nat.zero_add i)).symm.trans (patch_add hi)

/-- The message of `MFS_Creat`. -/
theorem msg_creat {name : Bytes} {text : List UInt8}
    (hprint : sprintf (stringAt name) [] = some text) (h0 : 0 ∉ text) (hlen : text.length < 60)
    (pinum type : ℤ) (m : Msg) :
    ∃ msg, (Call.MFS_Creat pinum type name).msg m = some msg ∧ msg.lib = .CREAT ∧
      msg.pinum = pinum ∧ msg.type = type ∧ msg.cname = text := by
  obtain ⟨m', hm, hname⟩ := printName_eq hprint h0 hlen m
  refine ⟨{ m' with
    type := type, pinum := pinum, lib := .CREAT, inum := -1, block := -1, returnNum := -1 },
    ?_, rfl, rfl, rfl, hname⟩
  rw [Call.msg, hm, Option.map_some]

/-- The message of `MFS_Unlink`. -/
theorem msg_unlink {name : Bytes} {text : List UInt8}
    (hprint : sprintf (stringAt name) [] = some text) (h0 : 0 ∉ text) (hlen : text.length < 60)
    (pinum : ℤ) (m : Msg) :
    ∃ msg, (Call.MFS_Unlink pinum name).msg m = some msg ∧ msg.lib = .UNLINK ∧
      msg.pinum = pinum ∧ msg.cname = text := by
  obtain ⟨m', hm, hname⟩ := printName_eq hprint h0 hlen m
  refine ⟨{ m' with
    pinum := pinum, lib := .UNLINK, inum := -1, type := -1, block := -1, returnNum := -1 },
    ?_, rfl, rfl, hname⟩
  rw [Call.msg, hm, Option.map_some]

/-- The message of `MFS_Lookup`, which copies the name as it is. -/
theorem msg_lookup {name : Bytes} (hlen : (stringAt name).length < 60) (pinum : ℤ) (m : Msg) :
    ∃ msg, (Call.MFS_Lookup pinum name).msg m = some msg ∧ msg.lib = .LOOKUP ∧
      msg.pinum = pinum ∧ msg.cname = stringAt name := by
  have hlong : (stringAt name).length < 60 + 4096 := by omega
  refine ⟨_, rfl, rfl, rfl, cstr_ofCstr hlong (zero_notMem_cstr _ _) fun i hi => ?_⟩
  rw [if_pos (by omega)]
  refine Eq.trans ?_ (eqTo_ofCstr hlong i hi)
  exact (congrArg (patch m.name 0 60 name) (Nat.zero_add i)).symm.trans (patch_add (by omega))

/-- A client that makes one call after another, the loop of the server, and the network; with each
call comes what its message contained before. -/
def network : Machine (Rpc.State Server Msg Msg) (Rpc.Label (Call × Msg) Junk) :=
  Rpc.machine (fun c => c.1.msg c.2) fun s junk msg => (s.handle junk msg).toOption

/-- **Which replies a call can return**: the server computed the reply for the request of this call
or of an earlier one; for the request of this call if no datagram was under way when it began; and
so in all runs without timeouts. -/
theorem reply_of_this_or_earlier {server : Server} {ls : List (Rpc.Label (Call × Msg) Junk)}
    {t : Rpc.State Server Msg Msg} (h : network.run (Rpc.State.start server) ls = some t) :
    (∀ r ∈ t.returned, r.origin ≤ r.call ∧
      (∃ req, t.sent[r.origin]? = some req ∧ (r.origin, req, r.reply) ∈ t.computed) ∧
      (r.quiet → ∃ req, t.sent[r.call]? = some req ∧ (r.call, req, r.reply) ∈ t.computed)) ∧
    (network.Allowed (fun _ l => l ≠ .timeout) (Rpc.State.start server) ls → t.Matching) := by
  have hinv := Rpc.run_inv h
  refine ⟨fun r hr => ?_, fun hls r hr => ?_⟩
  · obtain ⟨-, horigin, ⟨req, hcomp⟩, -⟩ := hinv.returned r hr
    exact ⟨horigin, ⟨req, hinv.computed _ _ _ hcomp, hcomp⟩, hinv.own_reply hr⟩
  · exact hinv.own_reply hr (Rpc.quiet_of_no_timeout h hls r hr)

/-- `MFS_Stat` sends its message twice since a timeout fires before the reply arrives; the reply to
the second one is still on its way when `MFS_Stat` returns, and `MFS_Lookup` takes it for its own. -/
def lateReply : List (Rpc.Label (Call × Msg) Junk) :=
  let m : Msg := ⟨fun _ => 0, fun _ => 0, 0, 0, 0, 0, 0, 0, 0, .INIT⟩
  let junk : Junk := fun _ _ => 0
  [.call (.MFS_Stat (-1), m), .timeout, .deliverRequest 0, .deliverRequest 0, .serve junk,
    .serve junk, .deliverReply 0, .receive, .call (.MFS_Lookup (-1) fun _ => 0, m),
    .deliverReply 0, .receive]

/-- The calls that returned and the calls that the server computed a reply for. -/
theorem lateReply_run (junk : Junk) : ∃ t,
    network.run (Rpc.State.start (fresh junk)) lateReply = some t ∧
      t.returned.map (fun r => (r.call, r.origin)) = [(0, 0), (1, 0)] ∧
      t.computed.map Prod.fst = [0, 0] := by
  obtain ⟨t, ht, hmap⟩ := Option.map_eq_some_iff.1 (show (network.run
    (Rpc.State.start (fresh junk)) lateReply).map (fun t =>
      (t.returned.map fun r => (r.call, r.origin), t.computed.map Prod.fst)) =
      some ([(0, 0), (1, 0)], [0, 0]) from rfl)
  exact ⟨t, ht, Prod.ext_iff.1 hmap⟩

theorem reply_of_this_or_earlier_lateReply : ∃ t,
    network.run (Rpc.State.start (fresh fun _ _ => 0)) lateReply = some t ∧
      ∀ r ∈ t.returned, r.origin ≤ r.call := by
  obtain ⟨t, ht, -⟩ := lateReply_run fun _ _ => 0
  exact ⟨t, ht, fun r hr => ((reply_of_this_or_earlier ht).1 r hr).1⟩

/-- Not every call returns a reply that the server computed for its request. -/
theorem not_matching : ¬ ∀ junk ls t,
    network.run (Rpc.State.start (fresh junk)) ls = some t → t.Matching := by
  intro h
  obtain ⟨t, ht, hret, hcomp⟩ := lateReply_run fun _ _ => 0
  obtain ⟨r, hr, hcall⟩ : ∃ r ∈ t.returned, (r.call, r.origin) = (1, 0) :=
    List.mem_map.1 (by rw [hret]; decide)
  obtain ⟨req, -, hmem⟩ := h _ _ t ht r hr
  have hone : r.call ∈ t.computed.map Prod.fst := List.mem_map_of_mem hmem
  have hr1 : r.call = 1 := (Prod.ext_iff.1 hcall).1
  rw [hcomp, hr1] at hone
  revert hone
  decide

end Mfs

end OperatingSystems

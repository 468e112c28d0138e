import MachVM.Lib.Tally
import Mathlib.Logic.Function.Basic

namespace MachVM.Ipc.Netport

abbrev EntryId := Nat

abbrev KernPort := Nat

abbrev MsgId := Nat

abbrev NetAddr := Nat

/-- What `transport_sendreply` answers: a transport module and its transaction. -/
abbrev Trid := Nat

/-- `network_port_t`, of which only `np_receiver` is looked at apart from the rest. -/
structure NetworkPort where
  receiver : NetAddr
  id : Nat
  deriving DecidableEq, Repr

/-- A message that is queued to a port with a network port. `remote` is its `msg_local_port`, `reply` its
`msg_remote_port`, and `netAble` is `KERNEL_NET_ABLE`. -/
structure Kmsg where
  id : MsgId
  remote : Option KernPort
  reply : Option KernPort
  rpc : Bool
  netAble : Bool
  deriving DecidableEq, Repr

/-- The codes of a reply; `none` is 0. -/
inductive Code
  | none
  | success
  | abortReply
  | abortRequest
  | abortRequestFlush
  | trFailure
  | trSendFailure
  | other
  deriving DecidableEq, Repr

/-- A message that has come to `netport_handle_rq`. -/
structure Request where
  ownFormat : Bool
  abort : Bool
  localPort : NetworkPort
  remotePort : NetworkPort
  rpc : Bool
  seqNo : Nat
  deriving DecidableEq, Repr

/-- A message that has come to `netport_handle_rp`. -/
structure Response where
  ownFormat : Bool
  localPort : NetworkPort
  remotePort : NetworkPort
  deriving DecidableEq, Repr

/-- `struct netport_hash_entry`; `req` and `res` are the bits of `state`. -/
structure Entry where
  netport : NetworkPort
  port : KernPort
  refCount : Int
  isLocal : Bool
  req : Bool
  res : Bool
  dest : NetAddr
  serverPort : Option EntryId
  reqKmsg : Option MsgId
  currentSeqNo : Nat
  trid : Trid
  pendingSeqNo : Nat
  deriving DecidableEq, Repr

/-- What becomes of a request message when its answer is there. -/
inductive Outcome
  | destroyed
  | requeued
  deriving DecidableEq, Repr

/-- `table` is the entries of all buckets of `NP_table`. The transport owes an answer for each client id in `early`
and `stored`: for those of `early` the `netport_queue` has not come to its two references yet. The rest is history:
`sent` are the messages of the requests that the transport has accepted. -/
structure Net where
  entry : EntryId → Entry
  next : EntryId
  table : List EntryId
  external : KernPort → Option EntryId
  early : List EntryId
  stored : List EntryId
  freed : List EntryId
  sent : List MsgId
  resolved : List (MsgId × Outcome)
  arrived : List Trid
  replied : List (Trid × Code)
  aborts : List (NetAddr × NetworkPort × Nat)

/-- A section that a call has still to do, with the entries and messages it has in hand. -/
inductive Section
  | queue (m : Kmsg)
  | look (m : Kmsg) (rp : EntryId)
  | localPort (m : Kmsg) (rp : EntryId)
  | mark (m : Kmsg) (rp lp : EntryId)
  | send (m : MsgId) (rp lp : EntryId)
  | unmark (rp lp : EntryId)
  | referLocal (rp lp : EntryId)
  | referRemote (rp lp : EntryId)
  | takeResponse (m : Kmsg) (rp : EntryId)
  | answer (m : Kmsg) (rp : EntryId) (trid : Trid)
  | reply (trid : Trid) (code : Code)
  | changed (p : KernPort) (done : Bool)
  | changedEntry (e : EntryId) (done : Bool)
  | sendAbort (dest : NetAddr) (n : NetworkPort) (seqNo : Nat)
  | remove (n : NetworkPort)
  | detach (e : EntryId)
  | removed (e : EntryId)
  | request (trid : Trid) (rq : Request)
  | abort (e : EntryId) (seqNo : Nat)
  | requestRemote (trid : Trid) (rq : Request) (rp : EntryId)
  | requestLocal (trid : Trid) (rq : Request) (rp : EntryId)
  | accept (trid : Trid) (rq : Request) (rp lp : EntryId)
  | flush (m : MsgId) (rp lp : EntryId) (server : Bool)
  | checkDest (m : MsgId) (rp lp : EntryId) (r : Response)
  | checkSource (m : MsgId) (rp lp : EntryId) (r : Response)
  | findSource (m : MsgId) (rp : EntryId) (r : Response)
  | destroy (m : MsgId)
  | requeue (m : MsgId)
  | enter (n : NetworkPort) (p : KernPort) (isLocal : Bool)
  | enterOld (e : EntryId) (n : NetworkPort) (p : KernPort) (isLocal : Bool)
  | create (n : NetworkPort) (p : KernPort) (isLocal : Bool) (seqNo : Nat)
  | release (e : EntryId)
  deriving DecidableEq, Repr

namespace Net

variable (s : Net)

def setEntry (e : EntryId) (x : Entry) : Net := { s with entry := Function.update s.entry e x }

/-- `netport_reference`. -/
def reference (e : EntryId) : Net := s.setEntry e { s.entry e with refCount := (s.entry e).refCount + 1 }

/-- `netport_release`. -/
def release (e : EntryId) : Net :=
  let r := s.setEntry e { s.entry e with refCount := (s.entry e).refCount - 1 }
  if (s.entry e).refCount - 1 ≤ 0 then { r with freed := e :: r.freed } else r

/-- `EXTERNAL_ENTRY`, less its reference. -/
def externalEntry : Option KernPort → Option EntryId
  | none => none
  | some p => s.external p

/-- `netport_lookup`, less its reference. -/
def lookup (n : NetworkPort) : Option EntryId := s.table.find? fun e => (s.entry e).netport = n

/-- `transport_sendreply`. -/
def sendReply (trid : Trid) (code : Code) : Net := { s with replied := (trid, code) :: s.replied }

/-- A call goes on with an entry, which it has a reference to then, or without. -/
def withEntry (e : Option EntryId) (found : EntryId → List Section) (missing : List Section) : Net × List Section :=
  match e with
  | some e => (s.reference e, found e)
  | none => (s, missing)

/-- What `netport_done`, `netport_changed` and `netport_remove` do with the lock of an entry, up to the release. -/
def quiesce (e : EntryId) : Net × List Section :=
  let x := s.entry e
  if x.req then (s, [.release e, .sendAbort x.dest x.netport x.currentSeqNo])
  else if x.res then ((s.sendReply x.trid .abortReply).setEntry e { x with res := false }, [.release e])
  else (s, [.release e])

/-- `netport_queue`, from its lock of the entry of the reply port on. -/
def mark (m : Kmsg) (rp lp : EntryId) : Net × List Section :=
  let x := s.entry lp
  if x.isLocal = false then (s, [.release rp, .release lp])
  else if x.req then (s, [.release lp, .sendAbort x.dest x.netport x.currentSeqNo, .release rp])
  else
    (s.setEntry lp
      { x with
        req := true
        dest := (s.entry rp).netport.receiver
        serverPort := some rp
        reqKmsg := some m.id
        currentSeqNo := x.currentSeqNo + 1 },
      [.send m.id rp lp])

/-- `netport_queue` with a response. -/
def takeResponse (m : Kmsg) (rp : EntryId) : Net × List Section :=
  let x := s.entry rp
  if x.res then (s.setEntry rp { x with res := false }, [.answer m rp x.trid]) else (s, [.release rp])

/-- `netport_handle_rq` with an abort request. -/
def abortRequest (e : EntryId) (seqNo : Nat) : Net × List Section :=
  let x := s.entry e
  if x.res ∧ x.pendingSeqNo = seqNo then
    ((s.sendReply x.trid .abortReply).setEntry e { x with res := false }, [.release e])
  else (s, [.release e])

/-- `netport_handle_rq`, from its lock of the entry of the client's port on. -/
def acceptRequest (trid : Trid) (rq : Request) (rp lp : EntryId) : Net × List Section :=
  if rq.rpc then
    (s.setEntry lp { s.entry lp with req := false, res := true, trid, pendingSeqNo := rq.seqNo },
      [.release lp, .release rp])
  else (s, [.release rp, .release lp, .reply trid .abortRequest])

/-- `netport_handle_rp` with the lock of the entry that the client id is about. -/
def handleRp (rp : EntryId) (code : Code) (r : Response) : Option (Net × List Section) :=
  let x := s.entry rp
  if x.req = false then some (s, [.release rp])
  else
    match x.serverPort, x.reqKmsg with
    | some lp, some m =>
      some (s.setEntry rp { x with req := false, serverPort := none, reqKmsg := none },
        match code with
        | .success => if r.ownFormat then [.checkDest m rp lp r] else [.destroy m, .release rp, .release lp]
        | .trFailure | .trSendFailure => [.flush m rp lp true]
        | .abortRequestFlush => [.flush m rp lp false]
        | .abortReply => [.destroy m, .release rp, .release lp]
        | .abortRequest | .none | .other => [.requeue m, .release rp, .release lp])
    | _, _ => none

/-- The rest of `netport_enter`, with the lock of the bucket. -/
def create (n : NetworkPort) (p : KernPort) (isLocal : Bool) (seqNo : Nat) : Net :=
  if (s.lookup n).isSome then s
  else
    { s.setEntry s.next
        { netport := n
          port := p
          refCount := 1
          isLocal
          req := false
          res := false
          dest := 0
          serverPort := none
          reqKmsg := none
          currentSeqNo := seqNo
          trid := 0
          pendingSeqNo := 0 } with
      next := s.next + 1
      table := s.next :: s.table
      external := Function.update s.external p (some s.next) }

/-- One section, and what the call goes on with. `taken` is what `transport_sendrequest` returns, if it is called. -/
def exec (taken : Bool) : Section → Net × List Section
  | .queue m => s.withEntry (s.externalEntry m.remote) (fun rp => [.look m rp]) []
  | .look m rp =>
    -- an RPC to a port that waits for a response is folded into a simple IPC
    if m.rpc && !(s.entry rp).res then (s, if m.netAble then [.localPort m rp] else [.release rp])
    else (s, [.takeResponse m rp])
  | .localPort m rp => s.withEntry (s.externalEntry m.reply) (fun lp => [.mark m rp lp]) [.release rp]
  | .mark m rp lp => s.mark m rp lp
  | .send m rp lp =>
    if taken then ({ s with early := lp :: s.early, sent := m :: s.sent }, [.referLocal rp lp])
    else (s, [.unmark rp lp])
  | .unmark rp lp => (s.setEntry lp { s.entry lp with req := false }, [.release rp, .release lp])
  | .referLocal rp lp => (s.reference lp, [.referRemote rp lp])
  | .referRemote rp lp =>
    let r := s.reference rp
    (if lp ∈ s.early then { r with early := s.early.erase lp, stored := lp :: s.stored } else r,
      [.release rp, .release lp])
  | .takeResponse m rp => s.takeResponse m rp
  | .answer m rp trid =>
    s.withEntry (s.externalEntry m.reply)
      (fun lp => [.reply trid (if m.netAble then .success else .abortReply), .release rp, .release lp])
      [.reply trid .abortReply, .release rp]
  | .reply trid code => (s.sendReply trid code, [])
  | .changed p done => s.withEntry (s.externalEntry (some p)) (fun e => [.changedEntry e done]) []
  | .changedEntry e done =>
    let r := s.quiesce e
    (r.1, if done then r.2 ++ [.remove (s.entry e).netport] else r.2)
  | .sendAbort dest n seqNo => ({ s with aborts := (dest, n, seqNo) :: s.aborts }, [])
  | .remove n =>
    match s.lookup n with
    | none => (s, [])
    | some e => ({ s with table := s.table.erase e }, [.detach e])
  | .detach e => ({ s with external := Function.update s.external (s.entry e).port none }, [.removed e])
  | .removed e => s.quiesce e
  | .request trid rq =>
    if rq.ownFormat = false then (s, [.reply trid .abortRequestFlush])
    else if rq.abort then
      s.withEntry (s.lookup rq.localPort) (fun e => [.abort e rq.seqNo, .reply trid .none]) [.reply trid .none]
    else s.withEntry (s.lookup rq.remotePort) (fun rp => [.requestRemote trid rq rp]) [.reply trid .abortRequest]
  | .abort e seqNo => s.abortRequest e seqNo
  | .requestRemote trid rq rp =>
    (s, if (s.entry rp).isLocal then [.requestLocal trid rq rp] else [.release rp, .reply trid .abortRequest])
  | .requestLocal trid rq rp =>
    s.withEntry (s.lookup rq.localPort) (fun lp => [.accept trid rq rp lp]) [.release rp, .reply trid .abortRequest]
  | .accept trid rq rp lp => s.acceptRequest trid rq rp lp
  | .flush m rp lp server =>
    (s, [.remove (s.entry (if server then lp else rp)).netport, .requeue m, .release rp, .release lp])
  | .checkDest m rp lp r =>
    (s, if (s.entry rp).netport = r.remotePort then [.checkSource m rp lp r]
      else [.destroy m, .release rp, .release lp])
  | .checkSource m rp lp r =>
    (s, if (s.entry lp).netport = r.localPort then [.destroy m, .release rp, .release lp]
      else [.release lp, .findSource m rp r])
  | .findSource m rp r =>
    s.withEntry (s.lookup r.localPort) (fun lp => [.destroy m, .release rp, .release lp]) [.destroy m, .release rp]
  | .destroy m => ({ s with resolved := (m, .destroyed) :: s.resolved }, [])
  | .requeue m => ({ s with resolved := (m, .requeued) :: s.resolved }, [])
  | .enter n p isLocal =>
    s.withEntry (s.externalEntry (some p)) (fun e => [.enterOld e n p isLocal]) [.create n p isLocal 0]
  | .enterOld e n p isLocal =>
    let x := s.entry e
    (s, [.remove x.netport, .release e, .create n p isLocal (if x.netport = n then x.currentSeqNo else 0)])
  | .create n p isLocal seqNo => (s.create n p isLocal seqNo, [])
  | .release e => (s.release e, [])

end Net

/-- Each call is what it has still to do. -/
structure State where
  net : Net
  calls : List (List Section)

inductive Action
  | queue (m : Kmsg)
  | changed (p : KernPort) (done : Bool)
  | remove (n : NetworkPort)
  | enter (n : NetworkPort) (p : KernPort) (isLocal : Bool)
  | handleRq (trid : Trid) (rq : Request)
  | handleRp (rp : EntryId) (code : Code) (r : Response)
  | proceed (i : Nat) (taken : Bool)

def State.begin (s : State) (x : Section) : State := { s with calls := [x] :: s.calls }

/-- The transport answers a request. -/
def answered (s : Net) (rp : EntryId) : Net :=
  if rp ∈ s.stored then { s with stored := s.stored.erase rp } else { s with early := s.early.erase rp }

def step (s : State) : Action → Option State
  | .queue m => some (s.begin (.queue m))
  | .changed p done => some (s.begin (.changed p done))
  | .remove n => some (s.begin (.remove n))
  | .enter n p isLocal => some (s.begin (.enter n p isLocal))
  | .handleRq trid rq =>
    some ({ s with net := { s.net with arrived := trid :: s.net.arrived } }.begin (.request trid rq))
  | .handleRp rp code r =>
    if rp ∈ s.net.early ∨ rp ∈ s.net.stored then
      ((answered s.net rp).handleRp rp code r).map fun x => { net := x.1, calls := x.2 :: s.calls }
    else none
  | .proceed i taken =>
    match s.calls[i]? with
    | some (x :: rest) =>
      let r := s.net.exec taken x
      some { net := r.1, calls := (r.2 ++ rest) :: s.calls.eraseIdx i }
    | _ => none

end MachVM.Ipc.Netport

namespace MachVM.Ipc.Netport

open Tally

variable {s : Net} {l k : List Section} {x : Section} {e f rp lp : EntryId} {y : Entry} {m : MsgId} {t : Trid}
  {c : Code}

namespace Section

/-- The references that a call has. A `netport_queue` between its two references at the end has a second one to the
entry of its reply port. -/
def holds : Section → List EntryId
  | look _ e | localPort _ e | takeResponse _ e | answer _ e _ | changedEntry e _ | detach e | removed e | abort e _
  | requestRemote _ _ e | requestLocal _ _ e | findSource _ e _ | enterOld e _ _ _ | release e => [e]
  | mark _ rp lp | send _ rp lp | unmark rp lp | referLocal rp lp | accept _ _ rp lp | flush _ rp lp _
  | checkDest _ rp lp _ | checkSource _ rp lp _ => [rp, lp]
  | referRemote rp lp => [rp, lp, lp]
  | _ => []

/-- The reply ports whose request a call has marked, and the transport has not taken. -/
def marks : Section → List EntryId
  | send _ _ lp | unmark _ lp => [lp]
  | _ => []

/-- The reply ports whose request the transport has taken, and the references are still to come. -/
def sends : Section → List EntryId
  | referLocal _ lp | referRemote _ lp => [lp]
  | _ => []

/-- The requests that a call has to answer. -/
def trids : Section → List Trid
  | answer _ _ trid | reply trid _ | request trid _ | requestRemote trid _ _ | requestLocal trid _ _
  | accept trid _ _ _ => [trid]
  | _ => []

/-- The request messages that a call has to destroy or to queue again. -/
def msgs : Section → List MsgId
  | flush m _ _ _ | checkDest m _ _ _ | checkSource m _ _ _ | findSource m _ _ | destroy m | requeue m => [m]
  | _ => []

/-- The entries that a `netport_remove` has taken out of their bucket, and not looked at yet. -/
def links : Section → List EntryId
  | detach e | removed e => [e]
  | _ => []

def detaches : Section → List EntryId
  | detach e => [e]
  | _ => []

/-- What the entry of the reply port has in store for the answer. -/
def Stored (s : Net) : Section → Prop
  | send m rp lp => (s.entry lp).serverPort = some rp ∧ (s.entry lp).reqKmsg = some m
  | referLocal rp lp | referRemote rp lp => (s.entry lp).serverPort = some rp ∧ (s.entry lp).reqKmsg.isSome
  | _ => True

end Section

namespace Net

def serverPort (s : Net) (e : EntryId) : Option EntryId := (s.entry e).serverPort

def reqKmsg (s : Net) (e : EntryId) : Option MsgId := (s.entry e).reqKmsg

/-- How often an entry is referred to: by its bucket, by the calls, and by the requests with an answer to come. -/
def uses (s : Net) (l : List Section) (e : EntryId) : Nat :=
  s.table.count e + (l.flatMap Section.holds).count e + s.stored.count e + (s.stored.map s.serverPort).count (some e)

/-- The entries that wait for the response to a request. -/
def pending (s : Net) (t : Trid) : Nat := tally s.next fun e => (s.entry e).res && decide ((s.entry e).trid = t)

/-- An entry in the table, or one that a `netport_remove` has still to look at. -/
def Linked (s : Net) (l : List Section) (e : EntryId) : Prop := e ∈ s.table ∨ e ∈ l.flatMap Section.links

end Net

structure Inv (s : Net) (l : List Section) : Prop where
  refs : ∀ e, (s.entry e).refCount = s.uses l e
  live : ∀ e, 0 < s.uses l e ↔ e < s.next ∧ e ∉ s.freed
  table : s.table.Nodup
  freed : s.freed.Nodup ∧ ∀ e ∈ s.freed, e < s.next
  marks : ∀ e, (l.flatMap Section.marks).count e + s.early.count e + s.stored.count e = (s.entry e).req.toNat
  early : ∀ e, s.early.count e = (l.flatMap Section.sends).count e
  sections : ∀ x ∈ l, x.Stored s
  stored : ∀ e ∈ s.stored, (s.serverPort e).isSome ∧ (s.reqKmsg e).isSome
  trids : ∀ t, s.arrived.count t = (s.replied.map Prod.fst).count t + (l.flatMap Section.trids).count t + s.pending t
  linked : ∀ e, (s.entry e).res = true → s.Linked l e
  external : ∀ p e, s.external p = some e →
    (s.entry e).port = p ∧ (e ∈ s.table ∨ e ∈ l.flatMap Section.detaches)
  msgs : ∀ m, s.sent.count m = (s.resolved.map Prod.fst).count m + (l.flatMap Section.msgs).count m +
    ((s.early ++ s.stored).map s.reqKmsg).count (some m)
  sides : ∀ e, ((s.entry e).req = true → (s.entry e).isLocal = true) ∧
    ((s.entry e).res = true → (s.entry e).isLocal = false)

/-- Sections that amount to the same for the entries and the messages. -/
structure Agree (s : Net) (k l : List Section) : Prop where
  holds : (l.flatMap Section.holds).Perm (k.flatMap Section.holds)
  marks : (l.flatMap Section.marks).Perm (k.flatMap Section.marks)
  sends : (l.flatMap Section.sends).Perm (k.flatMap Section.sends)
  trids : (l.flatMap Section.trids).Perm (k.flatMap Section.trids)
  msgs : (l.flatMap Section.msgs).Perm (k.flatMap Section.msgs)
  links : ∀ e ∈ k.flatMap Section.links, (s.entry e).res = true → e ∈ l.flatMap Section.links
  detaches : ∀ e ∈ k.flatMap Section.detaches, e ∈ l.flatMap Section.detaches
  stored : ∀ x ∈ l, x.Stored s

theorem Inv.replace {n : List Section} (h : Inv s (k ++ l)) (ha : Agree s k n) : Inv s (n ++ l) := by
  have huses : s.uses (n ++ l) = s.uses (k ++ l) := by
    funext e
    simp only [Net.uses, List.flatMap_append, List.count_append, ha.holds.count_eq]
  refine ⟨fun e => huses ▸ h.refs e, fun e => huses ▸ h.live e, h.table, h.freed, fun e => ?_, fun e => ?_, fun x hx => ?_,
    h.stored, fun t => ?_, fun e he => ?_, fun p e he => ?_, fun m => ?_,
    h.sides⟩
  · rw [← h.marks e, List.flatMap_append, List.flatMap_append, List.count_append, List.count_append,
      ha.marks.count_eq]
  · rw [h.early e, List.flatMap_append, List.flatMap_append, List.count_append, List.count_append,
      ha.sends.count_eq]
  · rcases List.mem_append.mp hx with hx | hx
    · exact ha.stored x hx
    · exact h.sections x (List.mem_append_right k hx)
  · rw [h.trids t, List.flatMap_append, List.flatMap_append, List.count_append, List.count_append,
      ha.trids.count_eq]
  · rcases h.linked e he with hl | hl
    · exact .inl hl
    · rw [List.flatMap_append] at hl
      refine .inr ?_
      rw [List.flatMap_append]
      rcases List.mem_append.mp hl with hl | hl
      · exact List.mem_append_left _ (ha.links e hl he)
      · exact List.mem_append_right _ hl
  · obtain ⟨hp, hd⟩ := h.external p e he
    refine ⟨hp, hd.imp_right fun hd => ?_⟩
    rw [List.flatMap_append] at hd ⊢
    rcases List.mem_append.mp hd with hd | hd
    · exact List.mem_append_left _ (ha.detaches e hd)
    · exact List.mem_append_right _ hd
  · rw [h.msgs m, List.flatMap_append, List.flatMap_append, List.count_append, List.count_append,
      ha.msgs.count_eq]

theorem Inv.perm (h : Inv s k) (hp : l.Perm k) : Inv s l := by
  have hf : ∀ {α : Type} (g : Section → List α), (l.flatMap g).Perm (k.flatMap g) := fun g => hp.flatMap_right g
  have ha : Agree s k l := by
    refine ⟨hf _, hf _, hf _, hf _, hf _, fun e he _ => (hf _).symm.subset he, fun e he => (hf _).symm.subset he,
      fun x hx => h.sections x (hp.subset hx)⟩
  have := Inv.replace (l := []) (k := k) (by rwa [List.append_nil]) ha
  rwa [List.append_nil] at this

@[simp] theorem setEntry_self : (s.setEntry e y).entry e = y := Function.update_self ..

theorem setEntry_of_ne (h : f ≠ e) : (s.setEntry e y).entry f = s.entry f := Function.update_of_ne h ..

theorem setEntry_field {α : Type} (g : Entry → α) (h : g y = g (s.entry e)) :
    g ((s.setEntry e y).entry f) = g (s.entry f) := by
  by_cases hf : f = e
  · subst f
    rw [setEntry_self, h]
  · rw [setEntry_of_ne hf]

theorem setEntry_serverPort (h : y.serverPort = (s.entry e).serverPort) : (s.setEntry e y).serverPort = s.serverPort :=
  funext fun _ => setEntry_field Entry.serverPort h

theorem setEntry_reqKmsg (h : y.reqKmsg = (s.entry e).reqKmsg) : (s.setEntry e y).reqKmsg = s.reqKmsg :=
  funext fun _ => setEntry_field Entry.reqKmsg h

theorem setEntry_stored (hs : y.serverPort = (s.entry e).serverPort) (hm : y.reqKmsg = (s.entry e).reqKmsg)
    (hx : x.Stored s) : x.Stored (s.setEntry e y) := by
  have hserver : ∀ f, ((s.setEntry e y).entry f).serverPort = (s.entry f).serverPort :=
    fun _ => setEntry_field Entry.serverPort hs
  have hkmsg : ∀ f, ((s.setEntry e y).entry f).reqKmsg = (s.entry f).reqKmsg := fun _ => setEntry_field Entry.reqKmsg hm
  cases x <;> simp only [Section.Stored, hserver, hkmsg] at hx ⊢ <;> exact hx

theorem setEntry_pending (hr : y.res = (s.entry e).res) (ht : y.trid = (s.entry e).trid) :
    (s.setEntry e y).pending = s.pending := by
  funext t
  refine tally_congr fun f _ => ?_
  rw [setEntry_field Entry.res hr, setEntry_field Entry.trid ht]

end MachVM.Ipc.Netport

import MachVM.NetportMessage

namespace MachVM.Ipc.NetportMessage

/-! What the peer's bytes would have to be checked for, and what the kernel's own messages are checked for. -/

/-- The message is simple and ends within the `len` bytes received from its network header on. -/
def Validated (len : Nat) (m : KMsg) : Prop :=
  m.kmsgHeader.simple ≠ 0 ∧ sizeofNetworkHdr + m.kmsgHeader.size.toNat ≤ len

/-- The request is one for two ports known here, the first of them local, in the machine's own format. -/
structure RqAccepted (o : ByteOrder) (view : Nat → Heap) (n : NetworkHdr) (len : Nat) : Prop where
  length : len ≠ 0
  format : n.srcFormat = o.htons o.confOwnFormat
  message : n.dispType ≠ dispIpcAbort
  remote : ∃ rp, (view 0).lookup n.remotePort = some rp ∧ ((view 1).entry rp).isLocal = true
  sender : ∃ lp, (view 2).lookup n.localPort = some lp
  rpc : n.info &&& ipcInfoRpc ≠ 0

/-- The reply answers a request that is waited for, in the machine's own format, and names its port. -/
structure RpAccepted (o : ByteOrder) (view : Nat → Heap) (clid : Option EntryId) (code : Code) (n : NetworkHdr) :
    Prop where
  success : code = .success
  format : n.srcFormat = o.htons o.confOwnFormat
  client : ∃ rp, clid = some rp ∧ ((view 0).entry rp).req = true ∧ ((view 0).entry rp).serverPort ≠ none ∧
    ((view 1).entry rp).netport = n.remotePort

/-- The message passes `KERNEL_NET_ABLE`, and is a request from a local port with none under way or the response that
its destination is owed. -/
def Transmits (view : Nat → Heap) (h : MsgHeader) : Prop :=
  ∃ rp, (view 0).externalEntry h.localPort = some rp ∧ KernelNetAble (foldRpc view h rp) ∧
    if RpcRequest (foldRpc view h rp) then
      ∃ lp, (view 2).externalEntry h.remotePort = some lp ∧
        ((view 3).entry lp).isLocal = true ∧ ((view 3).entry lp).req = false
    else ((view 2).entry rp).res = true ∧ ∃ lp, (view 3).externalEntry h.remotePort = some lp

variable {o : ByteOrder} {view : Nat → Heap} {t : Transaction} {m m' : KMsg} {h : MsgHeader} {len : Nat}
  {rp lp : EntryId} {clid : Option EntryId} {code : Code} {id : MsgId} {accepted : Bool} {r : Result}
  {x : Transmission} {dest : Word} {e : Entry} {l : List (EntryId × Entry)}

theorem Validated.congr (hv : Validated len m) (hs : m'.kmsgHeader.simple = m.kmsgHeader.simple)
    (hz : m'.kmsgHeader.size = m.kmsgHeader.size) : Validated len m' := by
  rw [Validated, hs, hz]
  exact hv

/-! Requests -/

theorem RqAccepted.queued (ha : RqAccepted o view m.netmsgHdr len) :
    ∃ r m', netportHandleRq o view t m len = some r ∧ r.queued = some m' := by
  obtain ⟨hlen, hformat, habort, ⟨rp, hrp, hlocal⟩, ⟨lp, hlp⟩, hrpc⟩ := ha
  refine ⟨forwardRequest view t m rp lp, _, ?_, rfl⟩
  simp only [netportHandleRq, hlen, hformat, habort, hrp, hlocal, hlp, hrpc, ne_eq, not_true, not_false_iff,
    if_true, if_false, Bool.not_true, Bool.false_eq_true]

theorem RpAccepted.queued (ha : RpAccepted o view clid code m.netmsgHdr) :
    ∃ r m', netportHandleRp o view clid code (some m) = some r ∧ r.queued = some m' := by
  obtain ⟨rfl, hformat, rp, rfl, hreq, hserver, hport⟩ := ha
  obtain ⟨lp, hlp⟩ := Option.ne_none_iff_exists'.mp hserver
  simp only [netportHandleRp, handleResponse, Option.bind_some, hreq, hformat, hport, hlp, ne_eq, not_true, if_false,
    Bool.not_true, Bool.false_eq_true, Option.map_some]
  exact ⟨_, _, rfl, rfl⟩

theorem foldRpc_remotePort : (foldRpc view h rp).remotePort = h.remotePort := by
  rw [foldRpc]
  split <;> rfl

theorem Transmits.sent (ht : Transmits view m.kmsgHeader) :
    ∃ x ∈ (netportQueue o view id m accepted).2.sent, ∃ m' rp, x.kmsg = some m' ∧
      m'.kmsgHeader = foldRpc view m.kmsgHeader rp ∧ KernelNetAble (foldRpc view m.kmsgHeader rp) := by
  obtain ⟨rp, hrp, hable, h⟩ := ht
  simp only [netportQueue, hrp]
  split at h
  next hrpc =>
    obtain ⟨lp, hlp, hlocal, hreq⟩ := h
    simp only [if_pos hrpc, queueRequest, hable, not_true, if_false, foldRpc_remotePort, hlp, hlocal, hreq, Bool.not_true,
      Bool.false_eq_true, sendRequest, List.mem_singleton]
    exact ⟨_, rfl, _, rp, rfl, rfl, hable⟩
  next hrpc =>
    obtain ⟨hres, lp, hlp⟩ := h
    simp only [if_neg hrpc, queueResponse, hable, not_true, if_false, foldRpc_remotePort, hlp, hres, Bool.not_true,
      Bool.false_eq_true, List.mem_singleton]
    exact ⟨_, rfl, _, rp, rfl, rfl, hable⟩

/-- Both ports of a message are port 1 here, whose network port is all zeros and which has a request under way and
a response owed. -/
def knownPort : Heap where
  table _ := [0]
  entry _ := {
    netport := ⟨0, 0, 0, 0, 0, 0⟩, port := 1, isLocal := true, req := true, res := true, dest := 0, serverPort := some 0,
    reqKmsg := some 0, currentSeqNo := 0, server := ⟨0, 0, 0⟩, pendingSeqNo := 0 }
  external _ := some 0

end MachVM.Ipc.NetportMessage

import Mathlib.Logic.Function.Basic

namespace MachVM.Ipc.NetportMessage

abbrev Byte := BitVec 8

/-- A `long`, an `int` or a pointer. -/
abbrev Word := BitVec 32

abbrev EntryId := Nat

abbrev MsgId := Nat

/-- `msf` is `BYTE_MSF`. -/
inductive ByteOrder
  | msf
  | lsf
  deriving DecidableEq, Repr

namespace ByteOrder

def short : ByteOrder → Byte → Byte → BitVec 16
  | msf, a, b => a ++ b
  | lsf, a, b => b ++ a

def long : ByteOrder → Byte → Byte → Byte → Byte → Word
  | msf, a, b, c, d => a ++ b ++ c ++ d
  | lsf, a, b, c, d => d ++ c ++ b ++ a

def htons : ByteOrder → BitVec 16 → BitVec 16
  | msf, x => x
  | lsf, x => x.extractLsb' 0 8 ++ x.extractLsb' 8 8

/-- The bytes of a word from the lowest address on. -/
def shortBytes (o : ByteOrder) (x : BitVec 16) : List Byte :=
  match o with
  | msf => [x.extractLsb' 8 8, x.extractLsb' 0 8]
  | lsf => [x.extractLsb' 0 8, x.extractLsb' 8 8]

def longBytes (o : ByteOrder) (x : Word) : List Byte :=
  match o with
  | msf => [x.extractLsb' 24 8, x.extractLsb' 16 8, x.extractLsb' 8 8, x.extractLsb' 0 8]
  | lsf => [x.extractLsb' 0 8, x.extractLsb' 8 8, x.extractLsb' 16 8, x.extractLsb' 24 8]

/-- `CONF_OWN_FORMAT`: `DISP_FMT_NL_1` or `DISP_FMT_VL_1`. -/
def confOwnFormat : ByteOrder → BitVec 16
  | msf => 2
  | lsf => 1

end ByteOrder

def dispIpcMsg : BitVec 16 := 1

def dispIpcAbort : BitVec 16 := 12

def ipcInfoSimple : Word := 0x1

def ipcInfoRpc : Word := 0x2

def msgTypeCamelot : Word := 1 <<< 6

def msgTypeEncrypted : Word := 1 <<< 7

def msgTypeRpc : Word := 1 <<< 8

/-- `network_port_t`. -/
structure NetworkPort where
  receiver : Word
  owner : Word
  puidHigh : Word
  puidLow : Word
  sidHigh : Word
  sidLow : Word
  deriving DecidableEq, Repr

/-- `ipc_network_hdr_t`. -/
structure NetworkHdr where
  dispType : BitVec 16
  srcFormat : BitVec 16
  localPort : NetworkPort
  remotePort : NetworkPort
  info : Word
  npdSize : Word
  inlineSize : Word
  oolSize : Word
  oolNum : Word
  ipcSeqNo : Word
  deriving DecidableEq, Repr

/-- `msg_header_t`. -/
structure MsgHeader where
  simple : Byte
  size : Word
  type : Word
  localPort : Word
  remotePort : Word
  id : Word
  deriving DecidableEq, Repr

/-- The headers of a `struct kern_msg` that the network server's side looks at. -/
structure KMsg where
  netmsgHdr : NetworkHdr
  kmsgHeader : MsgHeader
  deriving DecidableEq, Repr

def sizeofNetworkPort : Nat := 6 * 4

def sizeofNetworkHdr : Nat := 2 + 2 + sizeofNetworkPort + sizeofNetworkPort + 6 * 4

/-- The memory of a message from its `netmsg_hdr` on. -/
abbrev Buffer := Nat → Byte

/-- The transport writes what it receives over what the element of the zone held before. -/
def receive (old : Buffer) (bytes : List Byte) : Buffer := fun k => bytes.getD k (old k)

section Layout

variable (o : ByteOrder) (b : Buffer)

def readShort (k : Nat) : BitVec 16 := o.short (b k) (b (k + 1))

def readLong (k : Nat) : Word := o.long (b k) (b (k + 1)) (b (k + 2)) (b (k + 3))

def readPort (k : Nat) : NetworkPort where
  receiver := readLong o b k
  owner := readLong o b (k + 4)
  puidHigh := readLong o b (k + 8)
  puidLow := readLong o b (k + 12)
  sidHigh := readLong o b (k + 16)
  sidLow := readLong o b (k + 20)

def readNetworkHdr : NetworkHdr where
  dispType := readShort o b 0
  srcFormat := readShort o b 2
  localPort := readPort o b 4
  remotePort := readPort o b (4 + sizeofNetworkPort)
  info := readLong o b (4 + 2 * sizeofNetworkPort)
  npdSize := readLong o b (8 + 2 * sizeofNetworkPort)
  inlineSize := readLong o b (12 + 2 * sizeofNetworkPort)
  oolSize := readLong o b (16 + 2 * sizeofNetworkPort)
  oolNum := readLong o b (20 + 2 * sizeofNetworkPort)
  ipcSeqNo := readLong o b (24 + 2 * sizeofNetworkPort)

/-- The 24 bits of `msg_unused` come first in either byte order. -/
def readMsgHeader (k : Nat) : MsgHeader where
  simple := b (k + 3)
  size := readLong o b (k + 4)
  type := readLong o b (k + 8)
  localPort := readLong o b (k + 12)
  remotePort := readLong o b (k + 16)
  id := readLong o b (k + 20)

def readKMsg : KMsg := ⟨readNetworkHdr o b, readMsgHeader o b sizeofNetworkHdr⟩

end Layout

/-- A transaction of a transport module. -/
structure Transaction where
  trmod : Word
  v1 : Word
  v2 : Word
  deriving DecidableEq, Repr

/-- The codes of `transport_sendreply`, `none` being 0, and of an incoming reply. -/
inductive Code
  | none
  | success
  | abortReply
  | abortRequest
  | abortRequestFlush
  | trFailure
  | trSendFailure
  | other
  deriving DecidableEq, Repr

/-- `struct netport_hash_entry`; `req` and `res` are the bits of `state`. -/
structure Entry where
  netport : NetworkPort
  port : Word
  isLocal : Bool
  req : Bool
  res : Bool
  dest : Word
  serverPort : Option EntryId
  reqKmsg : Option MsgId
  currentSeqNo : Word
  server : Transaction
  pendingSeqNo : Word
  deriving DecidableEq, Repr

/-- What a call finds in one of its locked sections. -/
structure Heap where
  table : BitVec 6 → List EntryId
  entry : EntryId → Entry
  external : Word → Option EntryId

def netportHash (n : NetworkPort) : BitVec 6 := n.puidLow.setWidth 6

def Heap.lookup (h : Heap) (n : NetworkPort) : Option EntryId :=
  (h.table (netportHash n)).find? fun e => (h.entry e).netport = n

/-- `EXTERNAL_ENTRY`. -/
def Heap.externalEntry (h : Heap) (p : Word) : Option EntryId := if p = 0 then none else h.external p

/-- What a call hands to the transport. -/
inductive Transmission
  | request (clid : EntryId) (m : KMsg) (len dest : Word)
  | reply (t : Transaction) (code : Code) (m : Option KMsg) (len : Word)
  | abortClient (localPort : NetworkPort) (seqNo dest : Word)
  deriving DecidableEq, Repr

def Transmission.kmsg : Transmission → Option KMsg
  | request _ m _ _ => some m
  | reply _ _ m _ => m
  | abortClient .. => none

/-- What a call leaves. `queued` is the network's message that goes to a port here; `requeued` and `destroyed` are
messages that `netport_queue` was given. -/
structure Result where
  sent : List Transmission := []
  changed : List (EntryId × Entry) := []
  queued : Option KMsg := none
  requeued : Option MsgId := none
  destroyed : Option MsgId := none
  removed : Option NetworkPort := none
  deriving DecidableEq, Repr

/-- `a || b` of C. -/
def logicalOr (a b : Word) : Word := if a ≠ 0 ∨ b ≠ 0 then 1 else 0

/-- `KERNEL_NET_ABLE`. -/
def KernelNetAble (h : MsgHeader) : Prop :=
  h.simple ≠ 0 ∧ h.type &&& logicalOr msgTypeEncrypted msgTypeCamelot = 0

instance (h : MsgHeader) : Decidable (KernelNetAble h) := inferInstanceAs (Decidable (_ ∧ _))

/-- `RPC_REQUEST`. -/
def RpcRequest (h : MsgHeader) : Prop := h.type &&& msgTypeRpc ≠ 0

instance (h : MsgHeader) : Decidable (RpcRequest h) := inferInstanceAs (Decidable (_ ≠ _))

def MsgHeader.clearRpc (h : MsgHeader) : MsgHeader := { h with type := h.type &&& ~~~msgTypeRpc }

section Calls

/-! `view k` is what the call finds in the `k`-th section it locks; the others run in between. -/

variable (o : ByteOrder) (view : Nat → Heap)

def abortRequest (t : Transaction) (flush : Bool) : Result where
  sent := [.reply t (if flush then .abortRequestFlush else .abortRequest) none 0]

/-- The client wants its transaction given up. -/
def abortTransaction (t : Transaction) (m : KMsg) : Result :=
  match (view 0).lookup m.netmsgHdr.localPort with
  | none => { sent := [.reply t .none none 0] }
  | some lp =>
    let e := (view 1).entry lp
    if e.res ∧ e.pendingSeqNo = m.netmsgHdr.ipcSeqNo then
      { sent := [.reply e.server .abortReply none 0, .reply t .none none 0], changed := [(lp, { e with res := false })] }
    else { sent := [.reply t .none none 0] }

def forwardRequest (t : Transaction) (m : KMsg) (rp lp : EntryId) : Result :=
  let e := (view 3).entry lp
  { changed := [(lp, { e with req := false, res := true, server := t, pendingSeqNo := m.netmsgHdr.ipcSeqNo })],
    queued := some { m with
      kmsgHeader := { m.kmsgHeader with remotePort := e.port, localPort := ((view 1).entry rp).port }.clearRpc } }

/-- `none` is a panic. -/
def netportHandleRq (t : Transaction) (m : KMsg) (len : Nat) : Option Result :=
  if len = 0 then none
  else if m.netmsgHdr.srcFormat ≠ o.htons o.confOwnFormat then some (abortRequest t true)
  else if m.netmsgHdr.dispType = dispIpcAbort then some (abortTransaction view t m)
  else
    match (view 0).lookup m.netmsgHdr.remotePort with
    | none => some (abortRequest t false)
    | some rp =>
      if !((view 1).entry rp).isLocal then some (abortRequest t false)
      else
        match (view 2).lookup m.netmsgHdr.localPort with
        | none => some (abortRequest t false)
        | some lp =>
          if m.netmsgHdr.info &&& ipcInfoRpc ≠ 0 then some (forwardRequest view t m rp lp)
          else some (abortRequest t false)

/-- The port of the answer's sender: the server's that was asked, or the one the answer names. -/
def senderPort (lp : EntryId) (n : NetworkPort) : Word :=
  if ((view 2).entry lp).netport = n then ((view 2).entry lp).port
  else
    match (view 3).lookup n with
    | none => 0
    | some e => ((view 4).entry e).port

/-- The answer to the request that `rp` waits for; `e` is its entry as it was. `none` is an access through a null
pointer. -/
def handleResponse (rp : EntryId) (e : Entry) (m : KMsg) (changed : List (EntryId × Entry)) : Option Result :=
  if m.netmsgHdr.srcFormat ≠ o.htons o.confOwnFormat then some { changed := changed, destroyed := e.reqKmsg }
  else if ((view 1).entry rp).netport ≠ m.netmsgHdr.remotePort then
    some { changed := changed, destroyed := e.reqKmsg }
  else
    e.serverPort.map fun lp =>
      { changed := changed, destroyed := e.reqKmsg,
        queued := some { m with
          kmsgHeader := { m.kmsgHeader with
            remotePort := senderPort view lp m.netmsgHdr.localPort, localPort := e.port } } }

/-- The message is null where the transport has none. -/
def netportHandleRp (clid : Option EntryId) (code : Code) (m : Option KMsg) : Option Result :=
  match clid with
  | none => some {}
  | some rp =>
    let e := (view 0).entry rp
    let changed := [(rp, { e with req := false, serverPort := none, reqKmsg := none })]
    if !e.req then some {}
    else
      match code with
      | .success => m.bind fun m => handleResponse o view rp e m changed
      | .trFailure | .trSendFailure =>
        e.serverPort.map fun lp =>
          { changed := changed, requeued := e.reqKmsg, removed := some ((view 1).entry lp).netport }
      | .abortRequestFlush =>
        some { changed := changed, requeued := e.reqKmsg, removed := some ((view 1).entry rp).netport }
      | .abortReply => some { changed := changed, destroyed := e.reqKmsg }
      | _ => some { changed := changed, requeued := e.reqKmsg }

/-- The header of the transmission, but for what a request and an answer have apart. -/
def ownHdr (h : MsgHeader) (localPort remotePort : NetworkPort) (info ipcSeqNo : Word) : NetworkHdr where
  dispType := o.htons dispIpcMsg
  srcFormat := o.htons o.confOwnFormat
  localPort := localPort
  remotePort := remotePort
  info := info
  npdSize := 0
  inlineSize := h.size
  oolSize := 0
  oolNum := 0
  ipcSeqNo := ipcSeqNo

def transmitLen (h : MsgHeader) : Word := BitVec.ofNat 32 sizeofNetworkHdr + h.size

def sendRequest (id : MsgId) (h : MsgHeader) (rp lp : EntryId) (dest : Word) (accepted : Bool) : Bool × Result :=
  let e := (view 3).entry lp
  let marked : Entry := { e with
    req := true, dest := dest, serverPort := some rp, reqKmsg := some id, currentSeqNo := e.currentSeqNo + 1 }
  let hdr := ownHdr o h e.netport ((view 4).entry rp).netport (ipcInfoSimple ||| ipcInfoRpc) (e.currentSeqNo + 1)
  (accepted,
    { sent := [.request lp ⟨hdr, h⟩ (transmitLen h) dest],
      changed := (lp, marked) :: if accepted then [] else [(lp, { (view 5).entry lp with req := false })] })

def queueRequest (id : MsgId) (h : MsgHeader) (rp : EntryId) (dest : Word) (accepted : Bool) : Bool × Result :=
  if ¬ KernelNetAble h then (false, {})
  else
    match (view 2).externalEntry h.remotePort with
    | none => (false, {})
    | some lp =>
      let e := (view 3).entry lp
      if !e.isLocal then (false, {})
      else if e.req then (false, { sent := [.abortClient e.netport e.currentSeqNo e.dest] })
      else sendRequest o view id h rp lp dest accepted

def queueResponse (id : MsgId) (h : MsgHeader) (rp : EntryId) : Bool × Result :=
  let e := (view 2).entry rp
  let changed := [(rp, { e with res := false })]
  if !e.res then (false, {})
  else
    match (view 3).externalEntry h.remotePort with
    | none => (false, { sent := [.reply e.server .abortReply none 0], changed := changed })
    | some lp =>
      if ¬ KernelNetAble h then (false, { sent := [.reply e.server .abortReply none 0], changed := changed })
      else
        let hdr := ownHdr o h ((view 4).entry lp).netport e.netport ipcInfoSimple 0
        (true, { sent := [.reply e.server .success (some ⟨hdr, h⟩) (transmitLen h)], changed := changed,
                 destroyed := some id })

/-- The header as the call goes on with it: no request goes to a port that a response is owed to. -/
def foldRpc (h : MsgHeader) (rp : EntryId) : MsgHeader := if ((view 1).entry rp).res then h.clearRpc else h

/-- `netport_queue` with the message `id`. `accepted` is the transport's answer to a request, and the result begins
with whether the call returns `KERN_SUCCESS`. -/
def netportQueue (id : MsgId) (m : KMsg) (accepted : Bool) : Bool × Result :=
  match (view 0).externalEntry m.kmsgHeader.localPort with
  | none => (false, {})
  | some rp =>
    let h := foldRpc view m.kmsgHeader rp
    if RpcRequest h then queueRequest o view id h rp ((view 1).entry rp).netport.receiver accepted
    else queueResponse o view id h rp

end Calls

end MachVM.Ipc.NetportMessage

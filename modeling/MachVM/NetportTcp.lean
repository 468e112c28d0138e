import MachVM.NetportMessage
import MachVM.NetportTrid

namespace MachVM.Ipc.NetportTcp

open NetportMessage

abbrev KmsgId := Nat

/-- `tcp_ctl_t`. -/
structure TcpCtl where
  ctl : Word
  trid : Word
  code : Word
  size : Word
  cryptLevel : Word
  deriving DecidableEq, Repr

def tcpCtlRequest : Word := 1

def tcpCtlReply : Word := 2

def tcpCtlClosereq : Word := 3

def tcpCtlCloserep : Word := 4

def sizeofMsgHeader : Nat := 6 * 4

/-- What comes in front of `tcp_ctl` in a `struct kern_msg`. -/
def offsetTcpCtl : Nat := 5 * 4

def sizeofKMsg : Nat := offsetTcpCtl + sizeofTcpCtl + sizeofNetworkHdr + sizeofMsgHeader

/-- `NETPORT_MSG_SIZE_MAX`, the size of an element of the zone. -/
def netportMsgSizeMax : Nat := 8 * 1024

def dataSizeMax : Nat :=
  netportMsgSizeMax - sizeofKMsg + sizeofTcpCtl + sizeofNetworkHdr + sizeofMsgHeader

/-- The bytes of a kmsg from `tcp_ctl` on. -/
def room : Nat := netportMsgSizeMax - offsetTcpCtl

theorem dataSizeMax_eq : dataSizeMax = room := rfl

/-- The control header after `ntohl`. -/
def readCtl (b : Buffer) : TcpCtl where
  ctl := readLong .msf b 0
  trid := readLong .msf b 4
  code := readLong .msf b 8
  size := readLong .msf b 12
  cryptLevel := readLong .msf b 16

/-- The control header in the byte order of the machine, in the place of the one received. -/
def swapCtl (o : ByteOrder) (b : Buffer) : Buffer :=
  let h := readCtl b
  receive b (o.longBytes h.ctl ++ o.longBytes h.trid ++ o.longBytes h.code ++ o.longBytes h.size ++
    o.longBytes h.cryptLevel)

def putBytes (b : Buffer) (k : Nat) (bytes : List Byte) : Buffer :=
  fun i => if i < k then b i else bytes.getD (i - k) (b i)

def getBytes (b : Buffer) (k n : Nat) : List Byte := (List.range n).map fun i => b (k + i)

/-- A kmsg that bytes are received in, with its counters. `mem` and `bufp` count from `tcp_ctl` on. -/
structure Recv where
  kmsg : KmsgId
  mem : Buffer
  bufp : Int
  bufCount : Int
  bufFree : Int

/-- What `mach_tcp_recv` has next; each list is what a call finds. No answer stands for an error or no byte. -/
def machTcpRecv (len : Int) : List (List Byte) → Option (List Byte × List (List Byte))
  | [] => none
  | c :: cs =>
    let got := c.take len.toNat
    if got = [] then none
    else some (got, if c.drop len.toNat = [] then cs else c.drop len.toNat :: cs)

/-- The bytes received are written at `bufp`. `none` is a write outside the kmsg. -/
def Recv.put (r : Recv) (got : List Byte) : Option Recv :=
  if 0 ≤ r.bufp ∧ r.bufp + got.length ≤ room then
    some { r with
      mem := putBytes r.mem r.bufp.toNat got
      bufp := r.bufp + got.length
      bufCount := r.bufCount + got.length
      bufFree := r.bufFree - got.length }
  else none

inductive Filled
  | ended
  | outside
  | got (r : Recv) (cs : List (List Byte))

theorem machTcpRecv_shorter {len : Int} {cs cs' : List (List Byte)} {got : List Byte}
    (h : machTcpRecv len cs = some (got, cs')) :
    got ++ cs'.flatten = cs.flatten ∧ got ≠ [] ∧ got.length ≤ len.toNat := by
  cases cs with
  | nil => cases h
  | cons c cs =>
    simp only [machTcpRecv] at h
    split at h
    next => cases h
    next hne =>
      cases Option.some.inj h
      refine ⟨?_, hne, List.length_take_le _ _⟩
      split
      next hd =>
        rw [List.flatten_cons, ← List.take_append_drop len.toNat c, hd, List.append_nil, List.take_take, Nat.min_self]
      next => rw [List.flatten_cons, List.flatten_cons, ← List.append_assoc, List.take_append_drop]

/-- Both receive loops: `while (buf_count < need)`. -/
def fill (need : Int) (r : Recv) (cs : List (List Byte)) : Filled :=
  if need ≤ r.bufCount then .got r cs
  else
    match _h : machTcpRecv r.bufFree cs with
    | none => .ended
    | some (got, cs') =>
      match r.put got with
      | none => .outside
      | some r' => fill need r' cs'
termination_by cs.flatten.length
decreasing_by
  obtain ⟨hflat, hne, -⟩ := machTcpRecv_shorter _h
  rw [← hflat, List.length_append]
  have := List.length_pos_iff.mpr hne
  omega

inductive Event
  | alloc (k : KmsgId)
  | free (k : KmsgId)
  | handOn (k : KmsgId)
  | dispatch (h : TcpCtl) (data : List Byte)
  deriving DecidableEq, Repr

/-- What a frame finds in the connection record: whether no transaction is under way, and which are. -/
structure ConnView where
  idle : Bool
  pending : Word → Bool

/-- The cases of the switch that leave the handler. -/
def closes (v : ConnView) (h : TcpCtl) : Bool :=
  h.ctl = tcpCtlClosereq && v.idle || h.ctl = tcpCtlCloserep

/-- What the switch does with the kmsg. -/
def serve (v : ConnView) (h : TcpCtl) (k : KmsgId) : Event :=
  if h.ctl = tcpCtlRequest then .handOn k
  else if h.ctl = tcpCtlReply then if v.pending (h.trid &&& 0xffff) then .handOn k else .free k
  else .free k

/-- The bytes behind the frame move to a new kmsg. The outer `none` is an access outside one of the two. -/
def splitExcess (zone : KmsgId → Buffer) (r : Recv) (dataSize : Int) (new : KmsgId) : Option (Option Recv) :=
  if dataSize < r.bufCount then
    let src := sizeofTcpCtl + dataSize
    let n := r.bufCount - dataSize
    if 0 ≤ src ∧ src + n ≤ room ∧ n ≤ room then
      some (some {
        kmsg := new
        mem := putBytes (zone new) 0 (getBytes r.mem src.toNat n.toNat)
        bufp := n
        bufCount := n
        bufFree := dataSizeMax - n })
    else none
  else some none

inductive Stop
  | ended
  | oversize
  | closed
  | outside
  deriving DecidableEq, Repr

inductive PassEnd
  | stop (ev : List Event) (s : Stop)
  | more (ev : List Event) (pending : Option Recv) (new : KmsgId) (cs : List (List Byte))

/-- The kmsg that a pass begins with, and the next one that the zone has. -/
def firstKmsg (zone : KmsgId → Buffer) (new : KmsgId) : Option Recv → List Event × Recv × KmsgId
  | none =>
    ([.alloc new], { kmsg := new, mem := zone new, bufp := 0, bufCount := 0, bufFree := dataSizeMax }, new + 1)
  | some r => ([], r, new)

/-- A frame whose bytes have all been received. -/
def dispatchFrame (zone : KmsgId → Buffer) (v : ConnView) (ev : List Event) (h : TcpCtl) (r : Recv) (new : KmsgId)
    (cs : List (List Byte)) : PassEnd :=
  let dataSize := h.size.toInt
  match splitExcess zone r dataSize new with
  | none => .stop (ev ++ [.alloc new]) .outside
  | some pending =>
    let ev := ev ++ (pending.map fun r => .alloc r.kmsg).toList ++
      [.dispatch h (getBytes r.mem sizeofTcpCtl dataSize.toNat), serve v h r.kmsg]
    if closes v h then .stop ev .closed
    else .more ev pending (if pending.isSome then new + 1 else new) cs

/-- The rest of a pass once the header is there. -/
def receiveData (zone : KmsgId → Buffer) (v : ConnView) (ev : List Event) (h : TcpCtl) (r : Recv) (new : KmsgId)
    (cs : List (List Byte)) : PassEnd :=
  if r.bufCount + r.bufFree < h.size.toInt then .stop (ev ++ [.free r.kmsg]) .oversize
  else
    match fill h.size.toInt r cs with
    | .outside => .stop ev .outside
    | .ended => .stop (ev ++ [.free r.kmsg]) .ended
    | .got r cs => dispatchFrame zone v ev h r new cs

/-- One pass of the loop for ever. -/
def pass (o : ByteOrder) (zone : KmsgId → Buffer) (v : ConnView) (pending : Option Recv) (new : KmsgId)
    (cs : List (List Byte)) : PassEnd :=
  let (ev, r, new) := firstKmsg zone new pending
  match fill sizeofTcpCtl r cs with
  | .outside => .stop ev .outside
  | .ended => .stop (ev ++ [.free r.kmsg]) .ended
  | .got r cs =>
    let r' := { r with mem := swapCtl o r.mem, bufCount := r.bufCount - sizeofTcpCtl }
    receiveData zone v ev (readCtl r.mem) r' new cs

/-- The control header at the front of a stream. -/
def header (s : List Byte) : TcpCtl := readCtl fun i => s.getD i 0

def Event.frame : Event → Option (TcpCtl × List Byte)
  | dispatch h data => some (h, data)
  | _ => none

/-- Each kmsg is handed on or freed as often as it is allocated. -/
def Balanced (ev : List Event) : Prop :=
  ∀ k, ev.count (.handOn k) + ev.count (.free k) = ev.count (.alloc k)

end MachVM.Ipc.NetportTcp

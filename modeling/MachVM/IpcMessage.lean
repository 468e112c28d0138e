import MachVM.Types

namespace MachVM.Ipc

abbrev Word := BitVec 32

/-- A word of kernel memory, marked when `msg_copyin` stored it there itself. -/
structure Cell where
  value : Word
  stored : Bool
  deriving DecidableEq, Repr

/-- The kernel options MACH_IPC_XXXHACK and MACH_XP_FPD. -/
structure MsgConfig where
  xxxHack : Bool
  fastPager : Bool
  deriving DecidableEq, Repr

inductive MsgReturn
  | success
  | msgTooSmall
  | msgTooLarge
  | invalidMemory
  | invalidPort
  deriving DecidableEq, Repr

def msgSizeMax : Nat := 8192
def msgHeaderWords : Nat := 6
def msgTypePortAll : Word := 5
def msgTypePort : Word := 6
def msgTypeInteger8 : Word := 9
def msgTypeInternalMemory : Word := 14
def kernObjNull : Word := 0
def kernObjInvalid : Word := BitVec.allOnes 32

def msgTypePortAny (c : MsgConfig) (tn : Word) : Bool :=
  if c.xxxHack then decide (3 ≤ tn ∧ tn ≤ msgTypePort)
  else decide (tn = msgTypePort ∨ tn = msgTypePortAll)

/-- A type descriptor as the walkers decode it; positions are counted in words from the start of
the message header. -/
structure MsgItem where
  pos : Nat
  data : Nat
  name : Word
  size : Word
  number : Word
  isInline : Bool
  deallocate : Bool
  deriving DecidableEq, Repr

def msgItem (word : Nat → Cell) (pos : Nat) : MsgItem :=
  let header := (word pos).value
  let isInline := header.getLsbD 28
  let deallocate := header.getLsbD 30
  if header.getLsbD 29 then
    { pos := pos, data := pos + 3
      name := (word (pos + 1)).value &&& 0xffff
      size := (word (pos + 1)).value >>> 16
      number := (word (pos + 2)).value
      isInline := isInline, deallocate := deallocate }
  else
    { pos := pos, data := pos + 1
      name := header &&& 0xff
      size := (header >>> 8) &&& 0xff
      number := (header >>> 16) &&& 0xfff
      isInline := isInline, deallocate := deallocate }

namespace MsgItem

/-- `((elts * ts) + 7) >> 3` in 32-bit arithmetic. -/
def numbytes (i : MsgItem) : Word := (i.number * i.size + 7) >>> 3

/-- How often `while (--elts >= 0)` runs its body: the count is a signed word. -/
def trips (i : MsgItem) : Nat := if i.number.toNat ≤ 2 ^ 31 then i.number.toNat else 0

/-- The size check of `msg_copyin`: the signed distance to the end is compared as an unsigned word. -/
def tooSmall (size : Nat) (i : MsgItem) : Bool :=
  decide (BitVec.ofInt 32 ((size : Int) - 4 * i.data) < if i.isInline then i.numbytes else 4)

/-- The port elements a walker looks at. -/
def ports (c : MsgConfig) (i : MsgItem) : Nat := if msgTypePortAny c i.name then i.trips else 0

/-- Inline data is padded to whole words; an out-of-line item has one pointer. -/
def next (i : MsgItem) : Nat :=
  if i.isInline then i.data + (i.numbytes.toNat + 3) / 4 else i.data + 1

end MsgItem

/-- Where a walker finds the elements of an item. -/
inductive Place
  | body (pos : Nat)
  | array (base : Word)
  deriving DecidableEq, Repr

/-- A kernel message on its walk, with the memory of the out-of-line arrays. -/
structure MsgWalk (σ : Type) where
  machine : σ
  kernelMessage : Bool
  word : Nat → Cell
  array : Word → Nat → Cell

/-- One turn of a walker's loop: the item, the list of port elements it looked at if there are any,
the kernel address it used for that list, and the rights, the region and the memory object it brought
in or took out. -/
structure Visit where
  item : MsgItem
  place : Option Place
  visited : Nat
  pointer : Option Cell
  objects : List Cell
  region : Option (Cell × Word)
  vmObject : Option Cell
  deriving DecidableEq, Repr

/-- The rest of the kernel as the walkers call it. `portList` is what an uninitialised local of
that name holds, `memory` the contents of kernel memory before the call. -/
structure MsgServices (σ : Type) where
  objCacheCopyin : σ → Word → σ × Option Word
  receiverIsKernel : σ → Word → Bool
  objRelease : σ → Word → σ
  objectCopyin : σ → Word → Word → Bool → σ × Option Word
  vmMoveIn : σ → Bool → Word → Word → Bool → σ × Option (Word × (Nat → Word))
  portList : σ → Word
  memory : Word → Nat → Word
  destName : σ → Word → σ × Word
  replyName : σ → Word → σ × Word
  objectCopyout : σ → Word → Word → σ × Word
  vmMapFind : σ → Word → Word → σ × Word
  vmMoveOut : σ → Bool → Word → Word → σ × Option Word
  objectDestroy : σ → Word → Word → σ
  vmDeallocate : σ → Bool → Word → Word → σ
  vmObjectDeallocate : σ → Word → σ

namespace MsgWalk

variable {σ : Type}

def cell (w : MsgWalk σ) : Place → Nat → Cell
  | .body pos, k => w.word (pos + k)
  | .array base, k => w.array base k

def setWord (w : MsgWalk σ) (pos : Nat) (x : Cell) : MsgWalk σ :=
  { w with word := Function.update w.word pos x }

def setCell (w : MsgWalk σ) : Place → Nat → Cell → MsgWalk σ
  | .body pos, k, x => w.setWord (pos + k) x
  | .array base, k, x =>
    { w with array := Function.update w.array base (Function.update (w.array base) k x) }

def setMachine (w : MsgWalk σ) (m : σ) : MsgWalk σ := { w with machine := m }

def msgSimple (w : MsgWalk σ) : Bool := decide ((w.word 0).value >>> 24 ≠ 0)
def msgSize (w : MsgWalk σ) : Nat := (w.word 1).value.toNat

def setMsgSimple (w : MsgWalk σ) (simple : Bool) : MsgWalk σ :=
  w.setWord 0 ⟨((w.word 0).value &&& 0xffffff) ||| (if simple then 0x1000000 else 0), true⟩

def setMsgSize (w : MsgWalk σ) (bytes : Nat) : MsgWalk σ := w.setWord 1 ⟨BitVec.ofNat 32 bytes, true⟩

def fastPagerData (c : MsgConfig) (w : MsgWalk σ) : Bool :=
  c.fastPager && decide ((w.word 5).value = 2038) && w.kernelMessage

end MsgWalk

variable {σ : Type}

def moveMsgData (c : MsgConfig) (w : MsgWalk σ) (tn : Word) : Bool :=
  !w.fastPagerData c && decide (tn ≠ msgTypeInternalMemory)

structure ElementRun (σ : Type) where
  walk : MsgWalk σ
  ok : Bool
  visited : Nat
  objects : List Cell

def copyinElements (sv : MsgServices σ) (i : MsgItem) (place : Place) :
    Nat → Nat → MsgWalk σ → ElementRun σ
  | 0, k, w => ⟨w, true, k, []⟩
  | n + 1, k, w =>
    let name := (w.cell place k).value
    if name = kernObjNull then copyinElements sv i place n (k + 1) w
    else
      match sv.objectCopyin w.machine name i.name i.deallocate with
      | (m, some obj) =>
        let r := copyinElements sv i place n (k + 1) ((w.setMachine m).setCell place k ⟨obj, true⟩)
        { r with objects := ⟨obj, true⟩ :: r.objects }
      | (m, none) => ⟨(w.setMachine m).setCell place k ⟨kernObjInvalid, true⟩, false, k + 1, []⟩

/-- `vm_move` into an ipc map: nothing is copied for a region of no bytes. -/
def vmMoveIn (sv : MsgServices σ) (w : MsgWalk σ) (isPort : Bool) (source : Word) (bytes : Word)
    (deallocate : Bool) : MsgWalk σ × Option Word :=
  if bytes = 0 then (w, some 0)
  else
    match sv.vmMoveIn w.machine isPort source bytes deallocate with
    | (m, none) => (w.setMachine m, none)
    | (m, some (base, data)) =>
      ({ w with
          machine := m
          array := Function.update w.array base (fun k => ⟨data k, false⟩) }, some base)

structure CopyinData (σ : Type) where
  walk : MsgWalk σ
  moved : Bool
  place : Place
  pointer : Option Cell
  region : Option (Cell × Word)

/-- Finds the data of an accepted item, after moving an out-of-line region into the kernel. -/
def copyinData (c : MsgConfig) (sv : MsgServices σ) (i : MsgItem) (w : MsgWalk σ) : CopyinData σ :=
  if i.isInline then ⟨w, true, .body i.data, none, none⟩
  else if moveMsgData c w i.name then
    match vmMoveIn sv w (msgTypePortAny c i.name) (w.word i.data).value i.numbytes i.deallocate with
    | (w, none) => ⟨w, false, .body i.data, none, none⟩
    | (w, some base) =>
      ⟨w.setWord i.data ⟨base, true⟩, true, .array base,
        if i.ports c ≠ 0 then some ⟨base, true⟩ else none, some (⟨base, true⟩, i.numbytes)⟩
  else
    let list := sv.portList w.machine
    ⟨w, true, .array list, if i.ports c ≠ 0 then some ⟨list, false⟩ else none, none⟩

inductive CopyinTurn (σ : Type)
  | next (pos : Nat) (simple : Bool) (w : MsgWalk σ) (v : Visit)
  | fail (code : MsgReturn) (w : MsgWalk σ) (v : Visit)

def refusedVisit (i : MsgItem) : Visit := ⟨i, none, 0, none, [], none, none⟩

/-- One turn of the loop of `msg_copyin` over the items of the body. -/
def copyinTurn (c : MsgConfig) (sv : MsgServices σ) (size pos : Nat) (w : MsgWalk σ) : CopyinTurn σ :=
  let i := msgItem w.word pos
  let isPort := msgTypePortAny c i.name
  if i.tooSmall size then .fail .msgTooSmall (w.setMsgSize (4 * pos)) (refusedVisit i)
  else if isPort && decide (i.size ≠ 32) then
    .fail .invalidPort (w.setMsgSize (4 * pos)) (refusedVisit i)
  else
    let d := copyinData c sv i w
    if !d.moved then .fail .invalidMemory (d.walk.setMsgSize (4 * pos)) (refusedVisit i)
    else
      let r := copyinElements sv i d.place (i.ports c) 0 d.walk
      let v : Visit := ⟨i, if i.ports c ≠ 0 then some d.place else none, r.visited, d.pointer,
        r.objects, d.region, none⟩
      if r.ok then .next i.next (i.isInline && !isPort) r.walk v else .fail .invalidPort r.walk v

structure CopyinEnd (σ : Type) where
  code : MsgReturn
  simple : Bool
  walk : MsgWalk σ
  log : List Visit

def copyinLoop (c : MsgConfig) (sv : MsgServices σ) (size : Nat) :
    Nat → Nat → Bool → MsgWalk σ → Option (CopyinEnd σ)
  | 0, _, _, _ => none
  | fuel + 1, pos, simple, w =>
    if 4 * pos < size then
      match copyinTurn c sv size pos w with
      | .next pos' simple' w' v =>
        (copyinLoop c sv size fuel pos' (simple && simple') w').map
          fun r => { r with log := v :: r.log }
      | .fail code w' v => some ⟨code, simple, w', [v]⟩
    else some ⟨.success, simple, w, []⟩

/-- The list a walker of the kernel copy takes the elements of an item from. -/
def objList (w : MsgWalk σ) (i : MsgItem) : Place :=
  if i.isInline then .body i.data else .array (w.word i.data).value

def listPointer (c : MsgConfig) (w : MsgWalk σ) (i : MsgItem) : Option Cell :=
  if i.ports c ≠ 0 ∧ i.isInline = false then some (w.word i.data) else none

def copyoutElements (sv : MsgServices σ) (i : MsgItem) (place : Place) :
    Nat → Nat → MsgWalk σ → MsgWalk σ × List Cell
  | 0, _, w => (w, [])
  | n + 1, k, w =>
    let obj := w.cell place k
    if obj.value = kernObjNull then copyoutElements sv i place n (k + 1) w
    else
      let (m, name) := sv.objectCopyout w.machine obj.value i.name
      let r := copyoutElements sv i place n (k + 1) ((w.setMachine m).setCell place k ⟨name, true⟩)
      (r.1, obj :: r.2)

/-- `vm_move` out of an ipc map into the receiver's; the result is ignored. -/
def vmMoveOut (sv : MsgServices σ) (w : MsgWalk σ) (isPort : Bool) (pos : Nat) (bytes : Word) :
    MsgWalk σ :=
  if bytes = 0 then w.setWord pos ⟨0, true⟩
  else
    match sv.vmMoveOut w.machine isPort (w.word pos).value bytes with
    | (m, none) => w.setMachine m
    | (m, some address) => (w.setMachine m).setWord pos ⟨address, true⟩

/-- One turn of the loop of `msg_copyout`; the name of an item of internal memory is rewritten in
the long descriptor whether it has one or not. -/
def copyoutTurn (c : MsgConfig) (sv : MsgServices σ) (pos : Nat) (w : MsgWalk σ) :
    Nat × MsgWalk σ × Visit :=
  let i := msgItem w.word pos
  let isPort := msgTypePortAny c i.name
  let place := objList w i
  let shown := if i.ports c ≠ 0 then some place else none
  let pointer := listPointer c w i
  let r := copyoutElements sv i place (i.ports c) 0 w
  let visited := i.ports c
  let w := r.1
  if i.name = msgTypeInternalMemory then
    let object := w.word i.data
    let (m, address) := sv.vmMapFind w.machine object.value i.numbytes
    let w := (w.setMachine m).setWord i.data ⟨address, true⟩
    let low := (w.word (pos + 1)).value
    let w := w.setWord (pos + 1) ⟨(low &&& 0xffff0000) ||| msgTypeInteger8, true⟩
    (i.data + 1, w, ⟨i, shown, visited, pointer, r.2, none, some object⟩)
  else if i.isInline then (i.next, w, ⟨i, shown, visited, pointer, r.2, none, none⟩)
  else if !w.fastPagerData c then
    (i.next, vmMoveOut sv w isPort i.data i.numbytes,
      ⟨i, shown, visited, pointer, r.2, some (w.word i.data, i.numbytes), none⟩)
  else (i.next, w, ⟨i, shown, visited, pointer, r.2, none, none⟩)

def copyoutLoop (c : MsgConfig) (sv : MsgServices σ) (size : Nat) :
    Nat → Nat → MsgWalk σ → Option (MsgWalk σ × List Visit)
  | 0, _, _ => none
  | fuel + 1, pos, w =>
    if 4 * pos < size then
      let (pos', w', v) := copyoutTurn c sv pos w
      (copyoutLoop c sv size fuel pos' w').map fun r => (r.1, v :: r.2)
    else some (w, [])

structure DestroyRun (σ : Type) where
  machine : σ
  ok : Bool
  visited : Nat
  objects : List Cell

def destroyElements (sv : MsgServices σ) (i : MsgItem) (list : Nat → Cell) :
    Nat → Nat → σ → DestroyRun σ
  | 0, k, m => ⟨m, true, k, []⟩
  | n + 1, k, m =>
    let obj := list k
    if obj.value = kernObjInvalid then ⟨m, false, k + 1, []⟩
    else if obj.value = kernObjNull then destroyElements sv i list n (k + 1) m
    else
      let r := destroyElements sv i list n (k + 1) (sv.objectDestroy m obj.value i.name)
      { r with objects := obj :: r.objects }

structure DestroyTurn (σ : Type) where
  pos : Nat
  ok : Bool
  machine : σ
  visit : Visit

/-- One turn of the loop of `msg_destroy`; `ok` is false where it jumps to `done`. -/
def destroyTurn (c : MsgConfig) (sv : MsgServices σ) (pos : Nat) (w : MsgWalk σ) : DestroyTurn σ :=
  let i := msgItem w.word pos
  let isPort := msgTypePortAny c i.name
  let place := objList w i
  let shown := if i.ports c ≠ 0 then some place else none
  let pointer := listPointer c w i
  let r := destroyElements sv i (w.cell place) (i.ports c) 0 w.machine
  if !r.ok then ⟨pos, false, r.machine, ⟨i, shown, r.visited, pointer, r.objects, none, none⟩⟩
  else if i.name = msgTypeInternalMemory then
    ⟨i.data + 1, true, sv.vmObjectDeallocate r.machine (w.word i.data).value,
      ⟨i, shown, r.visited, pointer, r.objects, none, some (w.word i.data)⟩⟩
  else if i.isInline then
    ⟨i.next, true, r.machine, ⟨i, shown, r.visited, pointer, r.objects, none, none⟩⟩
  else if !w.fastPagerData c then
    ⟨i.next, true, sv.vmDeallocate r.machine isPort (w.word i.data).value i.numbytes,
      ⟨i, shown, r.visited, pointer, r.objects, some (w.word i.data, i.numbytes), none⟩⟩
  else ⟨i.next, true, r.machine, ⟨i, shown, r.visited, pointer, r.objects, none, none⟩⟩

def destroyLoop (c : MsgConfig) (sv : MsgServices σ) (size : Nat) :
    Nat → Nat → MsgWalk σ → Option (σ × List Visit)
  | 0, _, _ => none
  | fuel + 1, pos, w =>
    if 4 * pos < size then
      let t := destroyTurn c sv pos w
      if t.ok then
        (destroyLoop c sv size fuel t.pos (w.setMachine t.machine)).map
          fun r => (r.1, t.visit :: r.2)
      else some (t.machine, [t.visit])
    else some (w.machine, [])

/-- What a walk of the kernel copy took out of the message; `header` are the two ports. -/
structure WalkOut (τ : Type) where
  result : τ
  header : List Cell
  log : List Visit

def releasePort (sv : MsgServices σ) (m : σ) (x : Cell) : σ :=
  if x.value = kernObjNull then m else sv.objRelease m x.value

def heldPorts (w : MsgWalk σ) : List Cell := [w.word 3, w.word 4].filter (fun x => x.value != kernObjNull)

def msgDestroy (c : MsgConfig) (sv : MsgServices σ) (w : MsgWalk σ) : Option (WalkOut σ) :=
  let m := releasePort sv (releasePort sv w.machine (w.word 4)) (w.word 3)
  if w.msgSimple then some ⟨m, heldPorts w, []⟩
  else
    (destroyLoop c sv w.msgSize (msgSizeMax + 1) msgHeaderWords (w.setMachine m)).map
      fun r => ⟨r.1, heldPorts w, r.2⟩

/-- The header as `msg_copyout` translates it for the receiver. -/
def copyoutHeader (sv : MsgServices σ) (w : MsgWalk σ) : MsgWalk σ :=
  let d := sv.destName w.machine (w.word 3).value
  let r := if (w.word 4).value = kernObjNull then (d.1, 0) else sv.replyName d.1 (w.word 4).value
  ((w.setMachine r.1).setWord 3 ⟨d.2, true⟩).setWord 4 ⟨r.2, true⟩

def msgCopyout (c : MsgConfig) (sv : MsgServices σ) (w : MsgWalk σ) : Option (WalkOut (MsgWalk σ)) :=
  let w' := copyoutHeader sv w
  if w'.msgSimple then some ⟨w', heldPorts w, []⟩
  else
    (copyoutLoop c sv w'.msgSize (msgSizeMax + 1) msgHeaderWords w').map
      fun r => ⟨r.1, heldPorts w, r.2⟩

/-- What the sender hands over: the words of its buffer, followed by whatever the kernel buffer
holds past `size`, and whether the buffer can be read. -/
structure UserMessage where
  word : Nat → Word
  size : Nat
  readable : Bool

structure CopyinReturn (σ : Type) where
  code : MsgReturn
  machine : σ
  kmsg : Option (MsgWalk σ)
  log : List Visit

def refuse (code : MsgReturn) (m : σ) : Option (CopyinReturn σ) := some ⟨code, m, none, []⟩

/-- The kernel buffer right after the copy, with the size field set. -/
def kernelCopy (sv : MsgServices σ) (m : σ) (msg : UserMessage) (kernelMessage : Bool) : MsgWalk σ :=
  MsgWalk.setMsgSize
    { machine := m, kernelMessage := kernelMessage
      word := fun p => ⟨msg.word p, false⟩
      array := fun base k => ⟨sv.memory base k, false⟩ } msg.size

/-- The kernel message once the ports of its header are global names. -/
def translatedHeader (sv : MsgServices σ) (m : σ) (msg : UserMessage) (kernelMessage : Bool)
    (dest reply : Word) : MsgWalk σ :=
  ((kernelCopy sv m msg kernelMessage).setWord 3 ⟨dest, true⟩).setWord 4 ⟨reply, true⟩

def copyinBody (c : MsgConfig) (sv : MsgServices σ) (w : MsgWalk σ) : Option (CopyinReturn σ) :=
  if w.msgSimple then some ⟨.success, w.machine, some w, []⟩
  else
    (copyinLoop c sv w.msgSize (msgSizeMax + 1) msgHeaderWords true w).bind fun r =>
      if r.code = .success then
        let w := r.walk.setMsgSimple r.simple
        some ⟨.success, w.machine, some w, r.log⟩
      else (msgDestroy c sv r.walk).map fun d => ⟨r.code, d.result, none, r.log⟩

def msgCopyin (c : MsgConfig) (sv : MsgServices σ) (m : σ) (msg : UserMessage) :
    Option (CopyinReturn σ) :=
  if msg.size < 4 * msgHeaderWords then refuse .msgTooSmall m
  else if msgSizeMax < msg.size then refuse .msgTooLarge m
  else if !msg.readable then refuse .invalidMemory m
  else if msg.word 4 = 0 then refuse .invalidPort m
  else
    match sv.objCacheCopyin m (msg.word 4) with
    | (m, none) => refuse .invalidPort m
    | (m, some dest) =>
      let kernelMessage := sv.receiverIsKernel m dest
      match if msg.word 3 = 0 then (m, some kernObjNull) else sv.objCacheCopyin m (msg.word 3) with
      | (m, none) => refuse .invalidPort (sv.objRelease m dest)
      | (m, some reply) =>
        copyinBody c sv (translatedHeader sv m msg kernelMessage dest reply)

end MachVM.Ipc

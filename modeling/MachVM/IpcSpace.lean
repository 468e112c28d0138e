import MachVM.IpcQueue
import MachVM.Lib.Index

namespace MachVM.Ipc.Space

abbrev KernObjId := Nat
abbrev PortName := UInt32

inductive PortType
  | none
  | send
  | receiveOwn
  | set
  deriving DecidableEq, Repr

/-- What a message carries: `MSG_TYPE_PORT` or `MSG_TYPE_PORT_ALL`. -/
inductive MsgType
  | port
  | portAll
  deriving DecidableEq, Repr

/-- A translation record, its `kmsg` apart. Its `task` is null once `obj_entry_destroy` took it from its
task and the dead object still has it. -/
structure Entry where
  task : Option TaskId
  obj : KernObjId
  name : PortName
  type : PortType
  deriving DecidableEq, Repr

structure CacheLine where
  name : PortName
  object : KernObjId
  deriving DecidableEq, Repr

structure Task where
  active : Bool
  kernelSpace : Bool
  nextName : PortName
  deriving DecidableEq, Repr

/-- A port or a port set. `name` is `port_receiver_name` or `set_local_name`. Of its references,
`held` belong neither to translations nor to messages nor to a set the port is in. -/
structure KernObj where
  isSet : Bool
  inUse : Bool
  refs : Int
  receiver : Receiver
  name : PortName
  backup : Option KernObjId
  inSet : Bool
  held : Nat
  deriving DecidableEq, Repr

/-- A reference that a message holds. `inside` says whether the rights are still in the message. -/
structure Item where
  obj : KernObjId
  rights : MsgType
  inside : Bool
  deriving DecidableEq, Repr

/-- The tasks with their caches and their `ipc_translations`, the objects with their
`obj_translations`, the entries that are allocated, the two hash tables and the messages. -/
structure SState where
  task : TaskId → Task
  cache : TaskId → UInt32 → CacheLine
  obj : KernObjId → KernObj
  entry : EntryId → Option Entry
  taskList : TaskId → List EntryId
  objList : KernObjId → List EntryId
  tp : Nat → List EntryId
  tl : Nat → List EntryId
  items : List Item

def noLine : CacheLine := ⟨0, 0⟩

namespace SState

def setTask (s : SState) (t : TaskId) (x : Task) : SState := { s with task := Function.update s.task t x }

def setObj (s : SState) (o : KernObjId) (x : KernObj) : SState := { s with obj := Function.update s.obj o x }

def setEntry (s : SState) (e : EntryId) (x : Option Entry) : SState :=
  { s with entry := Function.update s.entry e x }

def setLine (s : SState) (t : TaskId) (i : UInt32) (x : CacheLine) : SState :=
  { s with cache := Function.update s.cache t (Function.update (s.cache t) i x) }

end SState

/-- `port_hash_TP`. -/
def portHashTP (t : TaskId) (o : KernObjId) : Nat := (t + o / 32) % 2048

/-- `port_hash_TL`. -/
def portHashTL (t : TaskId) (n : PortName) : Nat := (t / 4 + n.toNat) % 2048

def objEntryFind (s : SState) (t : TaskId) (o : KernObjId) : Option EntryId :=
  (s.tp (portHashTP t o)).find? fun e => (s.entry e).any fun x => x.task = some t ∧ x.obj = o

def objEntryLookup (s : SState) (t : TaskId) (n : PortName) : Option EntryId :=
  (s.tl (portHashTL t n)).find? fun e => (s.entry e).any fun x => x.task = some t ∧ x.name = n

def objCacheIndex (n : PortName) : UInt32 := n &&& 7

def objCacheSet (s : SState) (t : TaskId) (n : PortName) (o : KernObjId) : SState :=
  s.setLine t (objCacheIndex n) ⟨n, o⟩

def objCacheFlush (s : SState) (t : TaskId) (n : PortName) : SState :=
  if (s.cache t (objCacheIndex n)).name = n then s.setLine t (objCacheIndex n) noLine else s

def objEntryChange (s : SState) (t : TaskId) (e : EntryId) (x : Entry) (n : PortName) : SState :=
  let tl := Function.update s.tl (portHashTL t x.name) ((s.tl (portHashTL t x.name)).erase e)
  objCacheFlush
    { s.setEntry e (some { x with name := n }) with
      tl := Function.update tl (portHashTL t n) (tl (portHashTL t n) ++ [e]) }
    t x.name

/-- `obj_entry_remove`. The entry's task is cleared here already: every caller clears it or frees the
entry before it unlocks the object. -/
def objEntryRemove (s : SState) (t : TaskId) (e : EntryId) (x : Entry) : SState :=
  objCacheFlush
    { (s.setEntry e (some { x with task := none })).setObj x.obj
        { s.obj x.obj with refs := (s.obj x.obj).refs - 1 } with
      tp := Function.update s.tp (portHashTP t x.obj) ((s.tp (portHashTP t x.obj)).erase e)
      tl := Function.update s.tl (portHashTL t x.name) ((s.tl (portHashTL t x.name)).erase e)
      taskList := Function.update s.taskList t ((s.taskList t).erase e) }
    t x.name

def objEntryDealloc (s : SState) (e : EntryId) (o : KernObjId) : SState :=
  { s.setEntry e none with objList := Function.update s.objList o ((s.objList o).erase e) }

def objEntryDestroy (s : SState) (t : TaskId) (e : EntryId) (x : Entry) : SState :=
  if (s.obj x.obj).inUse = true then objEntryDealloc (objEntryRemove s t e x) e x.obj
  else objEntryRemove s t e x

def objEntryInsert (s : SState) (e : EntryId) (t : TaskId) (o : KernObjId) (n : PortName)
    (type : PortType) : SState :=
  { (s.setEntry e (some ⟨some t, o, n, type⟩)).setObj o { s.obj o with refs := (s.obj o).refs + 1 } with
    objList := Function.update s.objList o (s.objList o ++ [e])
    taskList := Function.update s.taskList t (s.taskList t ++ [e])
    tp := Function.update s.tp (portHashTP t o) (s.tp (portHashTP t o) ++ [e])
    tl := Function.update s.tl (portHashTL t n) (s.tl (portHashTL t n) ++ [e]) }

/-- The loop of `obj_entry_create` that looks for a name. A task that has all names in use stays in
it, which is `none` here. -/
def freeName (s : SState) (t : TaskId) : Nat → PortName → Option PortName
  | 0, _ => none
  | k + 1, next =>
    let name := if next = 0 then 1 else next
    if (objEntryLookup s t name).isSome then freeName s t k (name + 1) else some name

def objEntryCreate (s : SState) (e : EntryId) (t : TaskId) (o : KernObjId) (type : PortType) :
    Option SState :=
  (freeName s t (2 ^ 32) (s.task t).nextName).map fun n =>
    (objEntryInsert s e t o n type).setTask t { s.task t with nextName := n + 1 }

/-- `obj_entry_make` of an active task and an object in use; `e` is the entry the zone has. A round that
unlocks everything to wait for the zone changes nothing, so only the last round is here. -/
def objEntryMake (s : SState) (t : TaskId) (o : KernObjId) (e : EntryId) : Option (EntryId × SState) :=
  match objEntryFind s t o with
  | some f => some (f, s)
  | none => if s.entry e = none then (objEntryCreate s e t o .none).map fun r => (e, r) else none

/-- No reference to the object is left: the zone may hand it out. -/
def Unused (s : SState) (o : KernObjId) : Prop :=
  (s.obj o).refs = 0 ∧ (s.obj o).inUse = false ∧ s.objList o = []

instance (s : SState) (o : KernObjId) : Decidable (Unused s o) := inferInstanceAs (Decidable (_ ∧ _))

/-- `obj_alloc` and what `port_alloc` and `set_alloc` do after it. -/
def objAlloc (s : SState) (t : TaskId) (o : KernObjId) (e : EntryId) (isSet : Bool) : Option SState :=
  if (s.task t).active = true ∧ Unused s o ∧ s.entry e = none then
    (objEntryCreate (s.setObj o ⟨isSet, true, 0, .none, 0, none, false, 0⟩) e t o
      (if isSet then .set else .receiveOwn)).map fun r =>
        r.setObj o { r.obj o with
          receiver := if isSet then .none else .task t
          name := ((r.entry e).map Entry.name).getD 0 }
  else none

def portAlloc (s : SState) (t : TaskId) (o : KernObjId) (e : EntryId) : Option SState :=
  objAlloc s t o e false

def setAlloc (s : SState) (t : TaskId) (o : KernObjId) (e : EntryId) : Option SState :=
  objAlloc s t o e true

/-- `port_clear_receiver`; a port in a set leaves it. -/
def portClearReceiver (s : SState) (o : KernObjId) (r : Receiver) : SState :=
  let x := s.obj o
  s.setObj o { x with receiver := r, name := 0, refs := x.refs - x.inSet.toNat, inSet := false }

/-- `port_destroy` with a spare reference for it: the notification to the backup port takes the
reference, or the shut down keeps it until its end. -/
def portDestroy (s : SState) (o : KernObjId) : SState :=
  match (s.obj o).backup with
  | some _ =>
    { s.setObj o { s.obj o with backup := none, receiver := .soft } with
      items := s.items ++ [⟨o, .portAll, true⟩] }
  | none => s.setObj o { s.obj o with inUse := false, held := (s.obj o).held + 1 }

structure CopyinEntry where
  illegal : Bool
  nodealloc : Bool
  dodealloc : Bool
  result : PortType
  clears : Bool
  deriving DecidableEq, Repr

/-- `object_copyin_table`. The one function in it is `port_copyin_receive_own`. -/
def objectCopyinTable : MsgType → PortType → CopyinEntry
  | .port, .send => ⟨false, false, false, .send, false⟩
  | .port, .receiveOwn => ⟨false, true, false, .receiveOwn, false⟩
  | .portAll, .receiveOwn => ⟨false, false, false, .send, true⟩
  | _, _ => ⟨true, false, false, .none, false⟩

/-- The results of `object_copyout_table`. -/
def objectCopyoutTable : MsgType → PortType → PortType
  | .port, .none => .send
  | .port, .send => .send
  | .port, .receiveOwn => .receiveOwn
  | .portAll, .none => .receiveOwn
  | .portAll, .send => .receiveOwn
  | _, _ => .none

/-- A message takes a reference. -/
def intoMessage (s : SState) (o : KernObjId) (rights : MsgType) : SState :=
  { s.setObj o { s.obj o with refs := (s.obj o).refs + 1 } with items := s.items ++ [⟨o, rights, true⟩] }

/-- What `object_copyin` and `object_copyin_from_kernel` do with the entry they found. -/
def copyinEntry (s : SState) (t : TaskId) (e : EntryId) (x : Entry) (rights : MsgType)
    (deallocate : Bool) : Option SState :=
  let row := objectCopyinTable rights x.type
  if row.illegal = true ∨ (deallocate = true ∧ row.nodealloc = true) then none
  else if (s.obj x.obj).inUse = false then none
  else
    let s := if row.clears then portClearReceiver s x.obj .soft else s
    let x := { x with type := row.result }
    let s := s.setEntry e (some x)
    let s := if deallocate = true ∨ row.dodealloc = true then objEntryDestroy s t e x else s
    some (intoMessage s x.obj rights)

def objectCopyin (s : SState) (t : TaskId) (n : PortName) (rights : MsgType) (deallocate : Bool) :
    Option SState :=
  if (s.task t).active = true ∧ (s.task t).kernelSpace = false then do
    let e ← objEntryLookup s t n
    let x ← s.entry e
    copyinEntry s t e x rights deallocate
  else none

/-- A pointer that a kernel task may use as a name. -/
def PortPointer (s : SState) (o : KernObjId) : Prop := 0 < (s.obj o).refs ∧ (s.obj o).isSet = false

instance (s : SState) (o : KernObjId) : Decidable (PortPointer s o) :=
  inferInstanceAs (Decidable (_ ∧ _))

def objectCopyinFromKernel (s : SState) (t : TaskId) (o : KernObjId) (rights : MsgType)
    (deallocate : Bool) : Option SState :=
  if (s.task t).kernelSpace = true ∧ PortPointer s o then
    if rights = .port ∧ deallocate = false then some (intoMessage s o .port)
    else do
      let e ← objEntryFind s t o
      let x ← s.entry e
      copyinEntry s t e x rights deallocate
  else none

/-- `object_copyin_cache`. -/
def objectCopyinCache (s : SState) (t : TaskId) (n : PortName) : Option (KernObjId × SState) :=
  if (s.task t).active = false then none
  else if (s.task t).kernelSpace = true then
    if PortPointer s n.toNat then some (n.toNat, intoMessage s n.toNat .port) else none
  else do
    let e ← objEntryLookup s t n
    let x ← s.entry e
    if x.type = .set then none
    else some (x.obj, objCacheSet (intoMessage s x.obj .port) t n x.obj)

/-- `obj_cache_copyin`: the translation of a name in a message header. -/
def objCacheCopyin (s : SState) (t : TaskId) (n : PortName) : Option (KernObjId × SState) :=
  let line := s.cache t (objCacheIndex n)
  if n = 0 then none
  else if line.name = n then some (line.object, intoMessage s line.object .port)
  else objectCopyinCache s t n

def dropItem (s : SState) (i : Item) : SState := { s with items := s.items.erase i }

def loseRef (s : SState) (o : KernObjId) : SState :=
  s.setObj o { s.obj o with refs := (s.obj o).refs - 1 }

/-- `port_destroy_receive_own`. -/
def portDestroyReceiveOwn (s : SState) (o : KernObjId) : SState :=
  let s := if (s.obj o).receiver = .soft then s.setObj o { s.obj o with receiver := .none } else s
  if (s.obj o).receiver = .none then portDestroy s o else loseRef s o

/-- `object_destroy`. -/
def objectDestroy (s : SState) (i : Item) : Option SState :=
  if i ∈ s.items then
    if i.rights = .portAll ∧ (s.obj i.obj).inUse = true then
      some (portDestroyReceiveOwn (dropItem s i) i.obj)
    else some (loseRef (dropItem s i) i.obj)
  else none

/-- `port_copyout_receive_own`. -/
def portCopyoutReceiveOwn (s : SState) (t : TaskId) (o : KernObjId) (n : PortName) : SState :=
  s.setObj o { s.obj o with receiver := .task t, name := n }

/-- `object_copyout`. A message out of which the kernel took the rights is never received again. -/
def objectCopyout (s : SState) (i : Item) (t : TaskId) (e : EntryId) : Option SState :=
  if i ∈ s.items ∧ i.inside = true then
    if (s.task t).active = false ∨ (s.obj i.obj).inUse = false then objectDestroy s i
    else do
      let (f, s) ← objEntryMake s t i.obj e
      let x ← s.entry f
      let s := s.setEntry f (some { x with type := objectCopyoutTable i.rights x.type })
      let s := if i.rights = .portAll then portCopyoutReceiveOwn s t i.obj x.name else s
      some (loseRef (dropItem s i) i.obj)
  else none

/-- How `msg_copyout` translates the reply port. -/
def replyCopyout (s : SState) (i : Item) (t : TaskId) (e : EntryId) : Option SState :=
  if i ∈ s.items ∧ i.rights = .port then
    if (s.task t).active = false ∨ (s.obj i.obj).inUse = false then
      some (loseRef (dropItem s i) i.obj)
    else do
      let (f, s) ← objEntryMake s t i.obj e
      let x ← s.entry f
      let s := if x.type = .none then s.setEntry f (some { x with type := .send }) else s
      let s := objCacheSet s t x.name i.obj
      some (loseRef (dropItem s i) i.obj)
  else none

def portRename (s : SState) (t : TaskId) (old new : PortName) : Option SState :=
  if new ≠ 0 ∧ (s.task t).active = true ∧ objEntryLookup s t new = none then do
    let e ← objEntryLookup s t old
    let x ← s.entry e
    if (s.obj x.obj).inUse = true then
      let s := objEntryChange s t e x new
      some (if x.type = .receiveOwn ∨ x.type = .set then
        s.setObj x.obj { s.obj x.obj with name := new } else s)
    else none
  else none

/-- What `port_insert_send` and `port_insert_receive` check. -/
def InsertFree (s : SState) (t : TaskId) (o : KernObjId) (n : PortName) (e : EntryId) : Prop :=
  n ≠ 0 ∧ (s.task t).active = true ∧ s.entry e = none ∧ objEntryLookup s t n = none ∧
    objEntryFind s t o = none

instance (s : SState) (t : TaskId) (o : KernObjId) (n : PortName) (e : EntryId) :
    Decidable (InsertFree s t o n e) :=
  inferInstanceAs (Decidable (_ ∧ _))

def portInsertSend (s : SState) (t : TaskId) (o : KernObjId) (n : PortName) (e : EntryId) :
    Option SState :=
  if PortPointer s o ∧ InsertFree s t o n e ∧ (s.obj o).inUse = true then
    some (objEntryInsert s e t o n .send)
  else none

/-- `port_insert_receive`: the kernel takes the rights out of the message `i` that it is serving. -/
def portInsertReceive (s : SState) (i : Item) (t : TaskId) (n : PortName) (e : EntryId) :
    Option SState :=
  if i ∈ s.items ∧ i.rights = .portAll ∧ i.inside = true ∧ InsertFree s t i.obj n e then
    let s := portCopyoutReceiveOwn (objEntryInsert s e t i.obj n .receiveOwn) t i.obj n
    some { s with items := s.items.erase i ++ [{ i with inside := false }] }
  else none

def portDealloc (s : SState) (t : TaskId) (o : KernObjId) : Option SState := do
  let e ← objEntryFind s t o
  let x ← s.entry e
  let s := objEntryDestroy s t e x
  match x.type with
  | .send => some s
  | .receiveOwn =>
    let s := portClearReceiver s o .none
    some (portDestroy (s.setObj o { s.obj o with refs := (s.obj o).refs + 1 }) o)
  | _ => none

/-- The translation part of `set_destroy`. -/
def setDestroy (s : SState) (t : TaskId) (e : EntryId) : Option SState := do
  let x ← s.entry e
  if x.task = some t ∧ x.type = .set then
    let s := s.setObj x.obj { s.obj x.obj with inUse := false }
    some (objEntryDealloc (objEntryRemove s t e x) e x.obj)
  else none

/-- One turn of the loop of `obj_destroy_rights`. -/
def objDestroyRights (s : SState) (o : KernObjId) : Option SState :=
  if (s.obj o).inUse = false then do
    let e ← (s.objList o).head?
    let x ← s.entry e
    match x.task with
    | none => some (objEntryDealloc s e o)
    | some t => some (objEntryDealloc (objEntryRemove s t e x) e o)
  else none

/-- The start of `ipc_task_terminate`. What follows is `port_dealloc` and `set_destroy` of what the
task has left. -/
def ipcTaskTerminate (s : SState) (t : TaskId) : Option SState :=
  if (s.task t).active = true then
    some { s.setTask t { s.task t with active := false } with
      cache := Function.update s.cache t fun _ => noLine }
  else none

/-- `ipc_task_init`, the first ports apart; a kernel task is marked before it uses a port. -/
def ipcTaskInit (s : SState) (t : TaskId) (kernelSpace : Bool) : Option SState :=
  if (s.task t).active = false ∧ s.taskList t = [] then
    some { s.setTask t ⟨true, kernelSpace, 1⟩ with cache := Function.update s.cache t fun _ => noLine }
  else none

/-- The caller of a kernel function takes a reference. -/
def reference (s : SState) (o : KernObjId) : SState :=
  s.setObj o { s.obj o with refs := (s.obj o).refs + 1, held := (s.obj o).held + 1 }

/-- `msg_receive_trap` up to `msg_dequeue`: the port or set whose queue it reads. -/
def msgReceiveTrap (s : SState) (t : TaskId) (n : PortName) : Option (KernObjId × SState) :=
  let line := s.cache t (objCacheIndex n)
  if n = 0 then none
  else if line.name = n then
    if (s.obj line.object).receiver ≠ .task t ∨ (s.obj line.object).inSet = true then none
    else some (line.object, reference s line.object)
  else if (s.task t).active = false then none
  else if (s.task t).kernelSpace = true then
    if (s.obj n.toNat).receiver ≠ .task t ∨ (s.obj n.toNat).inSet = true then none
    else some (n.toNat, reference s n.toNat)
  else do
    let e ← objEntryLookup s t n
    let x ← s.entry e
    match x.type with
    | .receiveOwn =>
      if (s.obj x.obj).inSet = true then none
      else some (x.obj, objCacheSet (reference s x.obj) t n x.obj)
    | .set => some (x.obj, reference s x.obj)
    | _ => none

def portSetBackup (s : SState) (t : TaskId) (n : PortName) (b : KernObjId) : Option SState :=
  if (s.task t).active = true ∧ PortPointer s b then do
    let e ← objEntryLookup s t n
    let x ← s.entry e
    if x.type ≠ .set ∧ (s.obj x.obj).inUse = true ∧ (s.obj x.obj).receiver = .task t then
      let s := reference s b
      some (s.setObj x.obj { s.obj x.obj with backup := some b })
    else none
  else none

/-- `port_reference` by a caller that has the object. -/
def portReference (s : SState) (o : KernObjId) : Option SState :=
  if 0 < (s.obj o).refs then some (reference s o) else none

/-- `port_release`, also where the shut down of a port ends. -/
def portRelease (s : SState) (o : KernObjId) : Option SState :=
  if 0 < (s.obj o).held then
    some (s.setObj o { s.obj o with refs := (s.obj o).refs - 1, held := (s.obj o).held - 1 })
  else none

/-- `set_add_member` on the side of the port. -/
def setAddMember (s : SState) (o : KernObjId) : Option SState :=
  if 0 < (s.obj o).refs ∧ (s.obj o).inSet = false then
    some (s.setObj o { s.obj o with refs := (s.obj o).refs + 1, inSet := true })
  else none

/-- `set_remove_member` on the side of the port. -/
def setRemoveMember (s : SState) (o : KernObjId) : Option SState :=
  if (s.obj o).inSet = true then
    some (s.setObj o { s.obj o with refs := (s.obj o).refs - 1, inSet := false })
  else none

inductive Action
  | taskInit (t : TaskId) (kernelSpace : Bool)
  | taskTerminate (t : TaskId)
  | portAlloc (t : TaskId) (o : KernObjId) (e : EntryId)
  | setAlloc (t : TaskId) (o : KernObjId) (e : EntryId)
  | copyin (t : TaskId) (n : PortName) (rights : MsgType) (deallocate : Bool)
  | copyinFromKernel (t : TaskId) (o : KernObjId) (rights : MsgType) (deallocate : Bool)
  | headerCopyin (t : TaskId) (n : PortName)
  | copyout (i : Item) (t : TaskId) (e : EntryId)
  | replyCopyout (i : Item) (t : TaskId) (e : EntryId)
  | destroy (i : Item)
  | rename (t : TaskId) (old new : PortName)
  | insertSend (t : TaskId) (o : KernObjId) (n : PortName) (e : EntryId)
  | insertReceive (i : Item) (t : TaskId) (n : PortName) (e : EntryId)
  | dealloc (t : TaskId) (o : KernObjId)
  | setDestroy (t : TaskId) (e : EntryId)
  | destroyRights (o : KernObjId)
  | receive (t : TaskId) (n : PortName)
  | setBackup (t : TaskId) (n : PortName) (b : KernObjId)
  | reference (o : KernObjId)
  | release (o : KernObjId)
  | joinSet (o : KernObjId)
  | leaveSet (o : KernObjId)
  deriving DecidableEq, Repr

def step (s : SState) : Action → Option SState
  | .taskInit t k => ipcTaskInit s t k
  | .taskTerminate t => ipcTaskTerminate s t
  | .portAlloc t o e => portAlloc s t o e
  | .setAlloc t o e => setAlloc s t o e
  | .copyin t n rights d => objectCopyin s t n rights d
  | .copyinFromKernel t o rights d => objectCopyinFromKernel s t o rights d
  | .headerCopyin t n => (objCacheCopyin s t n).map Prod.snd
  | .copyout i t e => objectCopyout s i t e
  | .replyCopyout i t e => replyCopyout s i t e
  | .destroy i => objectDestroy s i
  | .rename t old new => portRename s t old new
  | .insertSend t o n e => portInsertSend s t o n e
  | .insertReceive i t n e => portInsertReceive s i t n e
  | .dealloc t o => portDealloc s t o
  | .setDestroy t e => setDestroy s t e
  | .destroyRights o => objDestroyRights s o
  | .receive t n => (msgReceiveTrap s t n).map Prod.snd
  | .setBackup t n b => portSetBackup s t n b
  | .reference o => portReference s o
  | .release o => portRelease s o
  | .joinSet o => setAddMember s o
  | .leaveSet o => setRemoveMember s o

def SState.empty : SState :=
  ⟨fun _ => ⟨false, false, 0⟩, fun _ _ => noLine,
    fun _ => ⟨false, false, 0, .none, 0, none, false, 0⟩, fun _ => none, fun _ => [], fun _ => [],
    fun _ => [], fun _ => [], []⟩

def run : List Action → SState → Option SState
  | [], s => some s
  | a :: as, s => (step s a).bind (run as)

end MachVM.Ipc.Space

namespace MachVM.Ipc.Space

open Mirror

/-- The task whose `ipc_translations` an entry belongs on. -/
def onTask (x : Option Entry) : Option TaskId := x.bind Entry.task

/-- The object whose `obj_translations` an entry belongs on. -/
def onObj (x : Option Entry) : Option KernObjId := x.map Entry.obj

def rightKey (x : Option Entry) : Option (TaskId × KernObjId) :=
  x.bind fun x => x.task.map fun t => (t, x.obj)

def nameKey (x : Option Entry) : Option (TaskId × PortName) :=
  x.bind fun x => x.task.map fun t => (t, x.name)

def tpKey (x : Option Entry) : Option Nat := (rightKey x).map fun k => portHashTP k.1 k.2

def tlKey (x : Option Entry) : Option Nat := (nameKey x).map fun k => portHashTL k.1 k.2

/-- The four queues an entry can be on say the same as the entry. -/
structure Tables (s : SState) : Prop where
  task : Indexed s.taskList s.entry onTask
  obj : Indexed s.objList s.entry onObj
  tp : Indexed s.tp s.entry tpKey
  tl : Indexed s.tl s.entry tlKey
  rights : KeyInj s.entry rightKey
  names : KeyInj s.entry nameKey
  named : ∀ e x, s.entry e = some x → x.name ≠ 0

variable {s : SState} {t : TaskId} {o : KernObjId} {e : EntryId} {n : PortName} {x : Entry}

theorem rightKey_eq_some : rightKey (s.entry e) = some (t, o) ↔
    ∃ x, s.entry e = some x ∧ x.task = some t ∧ x.obj = o := by
  cases h : s.entry e with
  | none => simp [rightKey]
  | some x =>
    cases ht : x.task with
    | none => simp [rightKey, ht]
    | some t' => simp [rightKey, ht]

theorem nameKey_eq_some : nameKey (s.entry e) = some (t, n) ↔
    ∃ x, s.entry e = some x ∧ x.task = some t ∧ x.name = n := by
  cases h : s.entry e with
  | none => simp [nameKey]
  | some x =>
    cases ht : x.task with
    | none => simp [nameKey, ht]
    | some t' => simp [nameKey, ht]

theorem Tables.congr {r : SState} (h : Tables s) (he : r.entry = s.entry)
    (ht : r.taskList = s.taskList) (ho : r.objList = s.objList) (hp : r.tp = s.tp) (hl : r.tl = s.tl) :
    Tables r := by
  constructor
  · rw [he, ht]; exact h.task
  · rw [he, ho]; exact h.obj
  · rw [he, hp]; exact h.tp
  · rw [he, hl]; exact h.tl
  · rw [he]; exact h.rights
  · rw [he]; exact h.names
  · rw [he]; exact h.named

theorem Tables.setObj (h : Tables s) (o : KernObjId) (y : KernObj) : Tables (s.setObj o y) :=
  h.congr rfl rfl rfl rfl rfl

theorem Tables.setTask (h : Tables s) (t : TaskId) (y : Task) : Tables (s.setTask t y) :=
  h.congr rfl rfl rfl rfl rfl

theorem Tables.setLine (h : Tables s) (t : TaskId) (i : UInt32) (y : CacheLine) :
    Tables (s.setLine t i y) :=
  h.congr rfl rfl rfl rfl rfl

theorem Tables.withItems (h : Tables s) (l : List Item) : Tables { s with items := l } :=
  h.congr rfl rfl rfl rfl rfl

theorem Tables.flush (h : Tables s) (t : TaskId) (n : PortName) : Tables (objCacheFlush s t n) := by
  unfold objCacheFlush
  split
  · exact h.setLine t _ _
  · exact h

theorem objEntryFind_eq_some (h : Tables s) :
    objEntryFind s t o = some e ↔ ∃ x, s.entry e = some x ∧ x.task = some t ∧ x.obj = o := by
  rw [← rightKey_eq_some]
  have hk : Indexed s.tp s.entry fun c => (rightKey c).map fun k => portHashTP k.1 k.2 := h.tp
  have hp : ∀ f, ((s.entry f).any fun x => x.task = some t ∧ x.obj = o) = true ↔
      rightKey (s.entry f) = some (t, o) := by
    intro f
    rw [rightKey_eq_some]
    cases s.entry f <;> simp
  exact hk.find_eq_some h.rights hp

theorem objEntryLookup_eq_some (h : Tables s) :
    objEntryLookup s t n = some e ↔ ∃ x, s.entry e = some x ∧ x.task = some t ∧ x.name = n := by
  rw [← nameKey_eq_some]
  have hk : Indexed s.tl s.entry fun c => (nameKey c).map fun k => portHashTL k.1 k.2 := h.tl
  have hp : ∀ f, ((s.entry f).any fun x => x.task = some t ∧ x.name = n) = true ↔
      nameKey (s.entry f) = some (t, n) := by
    intro f
    rw [nameKey_eq_some]
    cases s.entry f <;> simp
  exact hk.find_eq_some h.names hp

theorem rightKey_ne_of_find (h : Tables s) (hf : objEntryFind s t o = none) (f : EntryId) :
    rightKey (s.entry f) ≠ some (t, o) := by
  intro hk
  rw [(objEntryFind_eq_some h).mpr (rightKey_eq_some.mp hk)] at hf
  cases hf

theorem nameKey_ne_of_lookup (h : Tables s) (hf : objEntryLookup s t n = none) (f : EntryId) :
    nameKey (s.entry f) ≠ some (t, n) := by
  intro hk
  rw [(objEntryLookup_eq_some h).mpr (nameKey_eq_some.mp hk)] at hf
  cases hf

theorem entry_of_find (h : Tables s) (hf : objEntryFind s t o = some e) (hx : s.entry e = some x) :
    x.task = some t ∧ x.obj = o := by
  obtain ⟨y, hy, ht, ho⟩ := (objEntryFind_eq_some h).mp hf
  cases Option.some.inj (hx.symm.trans hy)
  exact ⟨ht, ho⟩

theorem entry_of_lookup (h : Tables s) (hf : objEntryLookup s t n = some e) (hx : s.entry e = some x) :
    x.task = some t ∧ x.name = n := by
  obtain ⟨y, hy, ht, hn⟩ := (objEntryLookup_eq_some h).mp hf
  cases Option.some.inj (hx.symm.trans hy)
  exact ⟨ht, hn⟩

section Primitives

theorem named_update (h : Tables s) (hn : x.name ≠ 0) (f : EntryId) (y : Entry)
    (hf : Function.update s.entry e (some x) f = some y) : y.name ≠ 0 := by
  by_cases hfe : f = e
  · subst hfe
    rw [Function.update_self] at hf
    cases Option.some.inj hf
    exact hn
  · rw [Function.update_of_ne hfe] at hf
    exact h.named f y hf

theorem Tables.retype (h : Tables s) (hx : s.entry e = some x) (type : PortType) :
    Tables (s.setEntry e (some { x with type := type })) where
  task := h.task.keep (by rw [hx]; rfl)
  obj := h.obj.keep (by rw [hx]; rfl)
  tp := h.tp.keep (by rw [hx]; rfl)
  tl := h.tl.keep (by rw [hx]; rfl)
  rights := h.rights.keep (by rw [hx]; rfl)
  names := h.names.keep (by rw [hx]; rfl)
  named := named_update h (h.named e x hx)

theorem Tables.insert {type : PortType} (h : Tables s) (he : s.entry e = none) (hn : n ≠ 0)
    (hname : objEntryLookup s t n = none) (hobj : objEntryFind s t o = none) :
    Tables (objEntryInsert s e t o n type) where
  task := h.task.enter (by rw [he]; rfl) rfl
  obj := h.obj.enter (by rw [he]; rfl) rfl
  tp := h.tp.enter (by rw [he]; rfl) rfl
  tl := h.tl.enter (by rw [he]; rfl) rfl
  rights := h.rights.enter rfl (rightKey_ne_of_find h hobj)
  names := h.names.enter rfl (nameKey_ne_of_lookup h hname)
  named := named_update h hn

theorem Tables.remove (h : Tables s) (hx : s.entry e = some x) (ht : x.task = some t) :
    Tables (objEntryRemove s t e x) := by
  apply Tables.flush
  exact
    { task := h.task.leave (by rw [hx]; exact ht) rfl
      obj := h.obj.keep (by rw [hx]; rfl)
      tp := h.tp.leave (by simp [hx, tpKey, rightKey, ht]) rfl
      tl := h.tl.leave (by simp [hx, tlKey, nameKey, ht]) rfl
      rights := h.rights.leave rfl
      names := h.names.leave rfl
      named := named_update h (h.named e x hx) }

theorem Tables.dealloc (h : Tables s) (hx : s.entry e = some x) (ht : x.task = none) :
    Tables (objEntryDealloc s e x.obj) where
  task := h.task.keep (by rw [hx]; exact ht.symm)
  obj := h.obj.leave (by rw [hx]; rfl) rfl
  tp := h.tp.keep (by simp [hx, tpKey, rightKey, ht])
  tl := h.tl.keep (by simp [hx, tlKey, nameKey, ht])
  rights := h.rights.leave rfl
  names := h.names.leave rfl
  named := by
    intro f y hf
    by_cases hfe : f = e
    · subst hfe
      simp [objEntryDealloc, SState.setEntry] at hf
    · exact h.named f y (by simpa [objEntryDealloc, SState.setEntry, hfe] using hf)

theorem Tables.change (h : Tables s) (hx : s.entry e = some x) (ht : x.task = some t) (hn : n ≠ 0)
    (hname : objEntryLookup s t n = none) : Tables (objEntryChange s t e x n) := by
  have hout : tlKey (s.entry e) = some (portHashTL t x.name) := by simp [hx, tlKey, nameKey, ht]
  have hin : tlKey (some { x with name := n }) = some (portHashTL t n) := by simp [tlKey, nameKey, ht]
  have hoff := h.tl.leave (b := none) hout rfl
  have hon := hoff.enter (by rw [Function.update_self]; rfl) hin
  rw [Function.update_idem] at hon
  apply Tables.flush
  exact
    { task := h.task.keep (by rw [hx]; rfl)
      obj := h.obj.keep (by rw [hx]; rfl)
      tp := h.tp.keep (by rw [hx]; rfl)
      tl := hon
      rights := h.rights.keep (by rw [hx]; rfl)
      names := h.names.enter (by simp [nameKey, ht]) (nameKey_ne_of_lookup h hname)
      named := named_update h hn }

end Primitives

end MachVM.Ipc.Space

import MachVM.Object

namespace MachVM

/-- What a port stands for in the kernel. -/
inductive PortObject
  | none
  | pager (o : ObjId)
  | pagingRequest (o : ObjId)
  | other
  deriving DecidableEq, Repr

/-- A port that is no longer in use has died and taken its memory object with it. -/
structure KernPort where
  inUse : Bool := true
  object : PortObject := .none
  deriving DecidableEq, Repr

/-- A call between two of its locked sections. -/
inductive CacheCall
  | deallocate (o : ObjId)
  | trim
  | enter (pager : PortId) (size : VmSize) (newObject : Option ObjId)
  | associate (o : ObjId) (pager : PortId) (internal : Bool)
  | attach (o : ObjId) (pager : PortId) (internal : Bool)
  | ready (o : ObjId) (internal : Bool)
  deriving DecidableEq, Repr

/-- The object cache and the port associations, with the calls in progress and the references
that maps and threads hold outside of them. -/
structure CacheState where
  object : ObjId → VmObject := fun _ => { alive := false, refCount := 0 }
  nextObject : ObjId := 0
  port : PortId → KernPort := fun _ => {}
  nextPort : PortId := 0
  cachedList : List ObjId := []
  cached : Int := 0
  cacheMax : Nat := 100
  calls : List CacheCall := []
  held : ObjId → Nat := fun _ => 0

namespace CacheState

def setObject (s : CacheState) (o : ObjId) (x : VmObject) : CacheState :=
  { s with object := Function.update s.object o x }

def modObject (s : CacheState) (o : ObjId) (f : VmObject → VmObject) : CacheState :=
  s.setObject o (f (s.object o))

def setPort (s : CacheState) (p : PortId) (x : KernPort) : CacheState :=
  { s with port := Function.update s.port p x }

/-- `port_object_set`. -/
def portObjectSet (s : CacheState) (p : PortId) (x : PortObject) : CacheState :=
  s.setPort p { s.port p with object := x }

/-- A new port, with what it stands for. -/
def portAlloc (s : CacheState) (x : PortObject) : CacheState :=
  { s.setPort s.nextPort { object := x } with nextPort := s.nextPort + 1 }

/-- A call goes on to its next section, if it has one. -/
def goOn (s : CacheState) (c : Option CacheCall) : CacheState :=
  { s with calls := c.toList ++ s.calls }

/-- A reference is handed to the caller. -/
def hand (s : CacheState) (o : ObjId) : CacheState :=
  { s with held := Function.update s.held o (s.held o + 1) }

/-- The caller donates a reference. -/
def donate (s : CacheState) (o : ObjId) : CacheState :=
  { s with held := Function.update s.held o (s.held o - 1) }

def allocate (s : CacheState) (size : VmSize) (shadow : Option ObjId) : CacheState :=
  { s.setObject s.nextObject { size := size, shadow := shadow } with nextObject := s.nextObject + 1 }

end CacheState

def PortObject.isPager : PortObject → Bool
  | .pager _ => true
  | _ => false

def PortObject.isRequest : PortObject → Bool
  | .pagingRequest _ => true
  | _ => false

/-- Clear the association of a port of the right kind; one of another kind is a panic. -/
def removePort (kind : PortObject → Bool) (s : CacheState) : Option PortId → Option CacheState
  | none => some s
  | some p =>
    if kind (s.port p).object then some (s.portObjectSet p .none)
    else if (s.port p).object = .none then some s
    else none

/-- Eliminate the port associations the object's own fields name. -/
def vmObjectRemove (s : CacheState) (o : ObjId) : Option CacheState :=
  (removePort PortObject.isPager s (s.object o).pager).bind fun t =>
    removePort PortObject.isRequest t (s.object o).pagerRequest

/-- The part of `vm_object_terminate` under the cache lock. Its caller goes on to give up the
reference to the shadow. -/
def terminateSection (s : CacheState) (o : ObjId) : Option CacheState :=
  (vmObjectRemove (s.modObject o fun x => { x with alive := false }) o).map fun t =>
    t.goOn ((s.object o).shadow.map .deallocate)

/-- An unreferenced object goes to the tail of the cache. An overflow is remembered as a hint. -/
def enterCache (s : CacheState) (o : ObjId) : CacheState :=
  let overflow : Bool := s.cached + 1 > s.cacheMax
  let s := { s with cachedList := queueEnter s.cachedList o, cached := s.cached + 1 }
  s.goOn (if overflow then some .trim else none)

def loseReference (x : VmObject) : VmObject := { x with refCount := x.refCount - 1 }

/-- One turn of `vm_object_deallocate`, up to the point where an overflow drops the cache lock. -/
def deallocateSection (s : CacheState) (o : ObjId) : Option CacheState :=
  let s := s.modObject o loseReference
  if 0 < (s.object o).refCount then some s
  else if (s.object o).canPersist then some (enterCache s o)
  else terminateSection s o

/-- After an overflow, unless the queue has been reduced meanwhile, its first object is terminated
instead of the original one. -/
def trimSection (s : CacheState) : Option CacheState :=
  if s.cached ≤ s.cacheMax then some s
  else
    match s.cachedList with
    | [] => none
    | o :: rest => terminateSection { s with cachedList := rest, cached := s.cached - 1 } o

/-- A reference gained through a port association: an unreferenced object leaves the cache. -/
def takeReference (s : CacheState) (o : ObjId) : CacheState :=
  let s :=
    if (s.object o).refCount = 0 then
      { s with cachedList := queueRemove s.cachedList o, cached := s.cached - 1 }
    else s
  s.modObject o fun x => { x with refCount := x.refCount + 1 }

/-- `vm_object_lookup` accepts the memory object port as well as the control port. -/
def lookupSection (s : CacheState) : Option PortId → CacheState
  | none => s
  | some pager =>
    match (s.port pager).object with
    | .pager o => (takeReference s o).hand o
    | .pagingRequest o => (takeReference s o).hand o
    | _ => s

/-- One turn of the loop of `vm_object_enter`, and what follows it under the cache lock. A new
object that lost the race is thrown away. -/
def enterSection (s : CacheState) (pager : PortId) (size : VmSize) (newObject : Option ObjId)
    (internal : Bool) : CacheState :=
  match (s.port pager).object, newObject with
  | .none, none => (s.allocate size none).goOn (some (.enter pager size (some s.nextObject)))
  | .none, some n => (s.portObjectSet pager (.pager n)).goOn (some (.associate n pager internal))
  | .pager o, _ =>
    let s := if internal then s.goOn (some (.associate o pager internal)) else (takeReference s o).hand o
    s.goOn (newObject.map .deallocate)
  | _, _ => s.goOn (newObject.map .deallocate)

/-- `vm_object_enter` goes on without a lock: a request port is allocated and associated. -/
def associateSection (s : CacheState) (o : ObjId) (pager : PortId) (internal : Bool) : CacheState :=
  let request := s.nextPort
  let s := s.modObject o fun x => { x with pagerCreated := true, pagerRequest := some request }
  (s.portAlloc (.pagingRequest o)).goOn (some (.attach o pager internal))

def attachSection (s : CacheState) (o : ObjId) (pager : PortId) (internal : Bool) : CacheState :=
  (s.modObject o fun x => { x with
    internal := internal, temporary := internal, pagerReady := internal, pager := some pager }).goOn
      (some (.ready o internal))

/-- The object is initialized. An internal one was named by no reference. -/
def readySection (s : CacheState) (o : ObjId) (internal : Bool) : CacheState :=
  let s := s.modObject o fun x => { x with pagerInitialized := true }
  if internal then s else s.hand o

def setCreated (x : VmObject) : VmObject := { x with pagerCreated := true }

/-- `vm_object_pager_create` for an object that has no pager. The new port is the kernel's own
until `vm_object_enter` has looked it up. -/
def pagerCreateSection (s : CacheState) (o : ObjId) : CacheState :=
  enterSection ((s.modObject o setCreated).portAlloc (.pager o)) s.nextPort (s.object o).size none true

/-- `vm_object_destroy` for a memory object port that has died: the object's own pager field is
gone before the associations are eliminated. -/
def vmObjectDestroy (s : CacheState) (pager : PortId) : Option CacheState :=
  match (s.port pager).object with
  | .pager o =>
    let s := (takeReference s o).modObject o fun x => { x with canPersist := false, pager := none }
    (vmObjectRemove s o).map fun t =>
      (t.modObject o fun x => { x with pagerRequest := none, pagerName := none }).goOn
        (some (.deallocate o))
  | _ => some s

/-- `memory_object_destroy`, with the reference that was donated for it. -/
def memoryObjectDestroy (s : CacheState) (o : ObjId) : Option CacheState :=
  (vmObjectRemove s o).map fun t =>
    (t.modObject o fun x => { x with
      canPersist := false, pager := none, pagerRequest := none, pagerName := none }).goOn
        (some (.deallocate o))

/-- `memory_object_set_attributes`; an invalid copy strategy only loses the reference. -/
def setAttributesSection (s : CacheState) (o : ObjId) (objectReady mayCache : Bool)
    (copyStrategy : Option CopyStrategy) : CacheState :=
  match copyStrategy with
  | none => s.goOn (some (.deallocate o))
  | some strategy =>
    (s.modObject o fun x => { x with
      canPersist := mayCache, pagerReady := objectReady, copyStrategy := strategy }).goOn
        (some (.deallocate o))

/-- The calls of the cache, and the next section of a call in progress. -/
inductive CacheOp
  | allocate (size : VmSize)
  | allocatePort (x : PortObject)
  | reference (o : ObjId)
  | shadow (o : ObjId) (size : VmSize)
  | deallocate (o : ObjId)
  | lookup (pager : Option PortId)
  | enter (pager : Option PortId) (size : VmSize)
  | pagerCreate (o : ObjId)
  | setAttributes (o : ObjId) (objectReady mayCache : Bool) (copyStrategy : Option CopyStrategy)
  | destroyObject (o : ObjId)
  | destroyPort (pager : PortId)
  | run (c : CacheCall)
  deriving DecidableEq, Repr

def runSection (s : CacheState) : CacheCall → Option CacheState
  | .deallocate o => deallocateSection s o
  | .trim => trimSection s
  | .enter pager size newObject => some (enterSection s pager size newObject false)
  | .associate o pager internal => some (associateSection s o pager internal)
  | .attach o pager internal => some (attachSection s o pager internal)
  | .ready o internal => some (readySection s o internal)

/-- Whether a call is about to give the object its ports. -/
def CacheCall.enters (o : ObjId) : CacheCall → Bool
  | .enter _ _ n => n = some o
  | .associate x _ _ => x = o
  | .attach x _ _ => x = o
  | _ => false

/-- One atomic step: none when the caller does not hold what the step needs, or panics. The
pageout daemon creates a pager for an object with resident pages, so for none that is still
being entered. -/
def cacheStep (s : CacheState) : CacheOp → Option CacheState
  | .allocate size => some ((s.allocate size none).hand s.nextObject)
  | .allocatePort x =>
    if x = .none ∨ x = .other then some (s.portAlloc x) else none
  | .reference o =>
    if 0 < s.held o then some ((s.modObject o fun x => { x with refCount := x.refCount + 1 }).hand o)
    else none
  | .shadow o size =>
    if 0 < s.held o then some (((s.donate o).allocate size (some o)).hand s.nextObject) else none
  | .deallocate o =>
    if 0 < s.held o then some ((s.donate o).goOn (some (.deallocate o))) else none
  | .lookup pager => some (lookupSection s pager)
  | .enter pager size =>
    match pager with
    | none => some ((s.allocate size none).hand s.nextObject)
    | some p => if p < s.nextPort then some (s.goOn (some (.enter p size none))) else none
  | .pagerCreate o =>
    if (s.object o).alive ∧ (s.object o).pagerCreated = false ∧ s.calls.countP (·.enters o) = 0 then
      some (pagerCreateSection s o)
    else none
  | .setAttributes o objectReady mayCache copyStrategy =>
    if 0 < s.held o then some (setAttributesSection (s.donate o) o objectReady mayCache copyStrategy)
    else none
  | .destroyObject o => if 0 < s.held o then memoryObjectDestroy (s.donate o) o else none
  | .destroyPort pager =>
    if (s.port pager).inUse then
      vmObjectDestroy (s.setPort pager { s.port pager with inUse := false }) pager
    else none
  | .run c => if c ∈ s.calls then runSection { s with calls := s.calls.erase c } c else none

end MachVM

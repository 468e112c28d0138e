import MachVM.VmState

namespace MachVM

abbrev EntryId := Nat
abbrev MapId := Nat
abbrev PmapId := Nat

/-- The inheritance codes; a caller may also pass a code that names none of them. -/
inductive VmInherit
  | share
  | copy
  | none
  | other (code : BitVec 32)
  deriving DecidableEq, Repr

/-- `VM_INHERIT_DEFAULT`. -/
def inheritDefault : VmInherit := .copy

/-- The union in a map entry: a memory object, or the sharing or subordinate map. -/
inductive MapObject
  | null
  | object (o : ObjId)
  | map (m : MapId)
  deriving DecidableEq, Repr

namespace MapObject

def ofObject : Option ObjId → MapObject
  | none => null
  | some o => object o

/-- The union read as a memory object. -/
def vmObject : MapObject → Option ObjId
  | object o => some o
  | _ => none

/-- The union read as a map. -/
def shareMap : MapObject → Option MapId
  | map m => some m
  | _ => none

end MapObject

structure VmMapEntry where
  start : VmOffset := 0
  endAddr : VmOffset := 0
  object : MapObject := .null
  offset : VmOffset := 0
  isAMap : Bool := false
  isSubMap : Bool := false
  copyOnWrite : Bool := false
  needsCopy : Bool := false
  protection : VmProt := protNone
  maxProtection : VmProt := protNone
  inheritance : VmInherit := .share
  wiredCount : BitVec 32 := 0
  deriving DecidableEq, Repr

/-- An address map. The header is an entry of its own, whose two addresses are the bounds
of the map; entries from `freshEntry` on have not been handed out by the zone, and what
they hold is arbitrary. The version number counts all its advances: the machine keeps the low
32 bits of it. -/
structure VmMap where
  next : EntryId → EntryId
  prev : EntryId → EntryId
  entry : EntryId → VmMapEntry
  freshEntry : EntryId
  nentries : Int
  pmap : Option PmapId
  size : VmSize
  isMainMap : Bool
  refCount : Int
  hint : EntryId
  firstFree : EntryId
  entriesPageable : Bool
  timestamp : Nat

/-- The address of `map->header`. -/
def header : EntryId := 0

namespace VmMap

def minOffset (m : VmMap) : VmOffset := (m.entry header).start
def maxOffset (m : VmMap) : VmOffset := (m.entry header).endAddr

def setEntry (m : VmMap) (e : EntryId) (x : VmMapEntry) : VmMap :=
  { m with entry := Function.update m.entry e x }

/-- The version number as the machine keeps it. -/
def stamp (m : VmMap) : BitVec 32 := BitVec.ofNat 32 m.timestamp

/-- `SAVE_HINT`. -/
def saveHint (m : VmMap) (e : EntryId) : VmMap := { m with hint := e }

end VmMap

/-- The maps, over a machine of which the map code sees only the services below. -/
structure Kernel (σ : Type) where
  machine : σ
  map : MapId → VmMap
  freshMap : MapId

namespace Kernel

variable {σ : Type}

def setMap (k : Kernel σ) (i : MapId) (m : VmMap) : Kernel σ :=
  { k with map := Function.update k.map i m }

def setMachine (k : Kernel σ) (s : σ) : Kernel σ := { k with machine := s }

def setEntry (k : Kernel σ) (i : MapId) (e : EntryId) (x : VmMapEntry) : Kernel σ :=
  k.setMap i ((k.map i).setEntry e x)

end Kernel

/-- How `vm_fault_page` ends; a page that was found comes with the protection left for it. -/
inductive FaultReturn
  | success (page : PageId) (prot : VmProt)
  | retry
  | interrupted
  | memoryShortage
  | memoryError

/-- What `vm_object_copy` writes through its four result pointers. -/
structure CopyResult where
  object : Option ObjId
  offset : VmOffset
  srcNeedsCopy : Bool
  dstNeedsCopy : Bool

/-- What the map code asks of the object, fault and physical map layers and of the lock
package. No answer is a panic. -/
structure Services (σ : Type) where
  kernelObject : ObjId
  objectAllocate : σ → VmSize → Option (σ × ObjId)
  objectReference : σ → Option ObjId → Option σ
  objectDeallocate : σ → Option ObjId → Option σ
  objectCoalesce : σ → Option ObjId → Option ObjId → VmOffset → VmOffset → VmSize → VmSize →
    Option (σ × Bool)
  objectShadow : σ → Option ObjId → VmOffset → VmSize → Option (σ × ObjId × VmOffset)
  objectCopy : σ → Option ObjId → VmOffset → VmSize → Option (σ × CopyResult)
  objectCopySlowly : σ → Option ObjId → VmOffset → VmSize → Bool → Option (σ × Option ObjId)
  objectPageRemove : σ → Option ObjId → VmOffset → VmOffset → Option σ
  objectPmapRemove : σ → Option ObjId → VmOffset → VmOffset → Option σ
  objectPmapCopy : σ → Option ObjId → VmOffset → VmOffset → Option σ
  pmapCreate : σ → Option (σ × PmapId)
  pmapDestroy : σ → Option PmapId → Option σ
  pmapRemove : σ → Option PmapId → VmOffset → VmOffset → Option σ
  pmapProtect : σ → Option PmapId → VmOffset → VmOffset → VmProt → Option σ
  pmapCopy : σ → Option PmapId → Option PmapId → VmOffset → VmSize → VmOffset → Option σ
  pmapPageable : σ → Option PmapId → VmOffset → VmOffset → Bool → Option σ
  pmapChangeWiring : σ → Option PmapId → VmOffset → Bool → Option σ
  /-- `lock_read_to_write`: true when the upgrade failed and the read lock was lost. -/
  lockReadToWrite : σ → MapId → Option (σ × Bool)
  /-- The reference and paging count of `vm_fault`, then `vm_fault_page`; the reference is
  given up again unless a page was found. -/
  faultPage : σ → Option ObjId → VmOffset → VmProt → Bool → Bool → VmProt →
    Option (σ × FaultReturn)
  /-- The page goes back to the queues and the fault gives up its references. -/
  faultRelease : σ → PageId → Option ObjId → Option σ
  /-- Whether the copy object of the page's object is no longer the one seen before. -/
  copyObjectChanged : σ → PageId → Bool
  /-- Map, wire or unwire the page and give up the references of the fault. -/
  faultEnter : σ → Option PmapId → VmOffset → PageId → VmProt → Bool → Bool → Option ObjId →
    Option σ
  faultWireFast : σ → Option PmapId → VmOffset → VmMapEntry → Option (σ × KernReturn)
  /-- One page of `vm_fault_unwire` under an object: `vm_fault_page` until it stops asking
  for a retry, then `vm_page_unwire`. -/
  faultUnwirePage : σ → Option ObjId → VmOffset → Option σ

end MachVM

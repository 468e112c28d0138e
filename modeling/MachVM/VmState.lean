import MachVM.Types

namespace MachVM

/-- The page structure. The last two fields stand for the frame the page owns:
its contents and the hardware modify bit. -/
structure VmPage where
  object : Option ObjId := none
  offset : VmOffset := 0
  wireCount : UInt16 := 0
  inactive : Bool := false
  active : Bool := false
  laundry : Bool := false
  dirty : Bool := false
  free : Bool := false
  busy : Bool := true
  wanted : Bool := false
  tabled : Bool := false
  fictitious : Bool := false
  absent : Bool := false
  error : Bool := false
  physAddr : VmOffset := 0
  pageLock : VmProt := protNone
  unlockRequest : VmProt := protNone
  maxMapping : VmProt := protNone
  data : PageData := zeroPage
  modified : Bool := false
  deriving DecidableEq, Repr

/-- The memory object structure, with its resident pages in queue order. -/
structure VmObject where
  memq : List PageId := []
  refCount : Int := 1
  size : VmSize := 0
  residentPageCount : Int := 0
  copy : Option ObjId := none
  shadow : Option ObjId := none
  shadowOffset : VmOffset := 0
  pager : Option PortId := none
  pagingOffset : VmOffset := 0
  pagerRequest : Option PortId := none
  pagerName : Option PortId := none
  pagerCreated : Bool := false
  pagerInitialized : Bool := false
  pagerReady : Bool := false
  copyStrategy : CopyStrategy := .none
  absentCount : Int := 0
  pagingInProgress : Nat := 0
  canPersist : Bool := false
  internal : Bool := true
  temporary : Bool := true
  alive : Bool := true
  deriving DecidableEq, Repr

/-- The machine-independent page and object state. Object identifiers at or
above `nextObject` have never been allocated. -/
structure VmState where
  page : PageId → VmPage := fun _ => {}
  queueFree : List PageId := []
  queueActive : List PageId := []
  queueInactive : List PageId := []
  freeCount : Int := 0
  activeCount : Int := 0
  inactiveCount : Int := 0
  wireCount : Int := 0
  laundryCount : Int := 0
  freeReserved : Int := 0
  bucket : VmOffset → List PageId := fun _ => []
  hashMask : VmOffset := 0
  object : ObjId → VmObject := fun _ => { alive := false, refCount := 0 }
  nextObject : ObjId := 0
  cachedList : List ObjId := []
  cached : Int := 0
  cacheMax : Int := 100
  pagerData : PortId → VmOffset → Option PageData := fun _ _ => none

namespace VmState

def setPage (s : VmState) (mem : PageId) (p : VmPage) : VmState :=
  { s with page := Function.update s.page mem p }

def setObject (s : VmState) (o : ObjId) (x : VmObject) : VmState :=
  { s with object := Function.update s.object o x }

def setBucket (s : VmState) (b : VmOffset) (q : List PageId) : VmState :=
  { s with bucket := Function.update s.bucket b q }

end VmState

/-- `queue_enter` links an element at the tail. -/
def queueEnter {α : Type} (q : List α) (x : α) : List α := q ++ [x]

/-- `queue_remove` unlinks an element of the queue. -/
def queueRemove {α : Type} [DecidableEq α] (q : List α) (x : α) : List α := q.erase x

end MachVM

import MachVM.Object

namespace MachVM

inductive ObjectEvent
  | initialized
  | pagerReady
  | pagingInProgress
  deriving DecidableEq, Repr

/-- A thread at work on an object, between two sections under the object lock. The last five
are wait loops. -/
inductive EventCall
  | fault
  | wireFast
  | pageout
  | lockRequest
  | copyCall
  | attach (internal : Bool)
  | finish (internal : Bool)
  | created
  | enterWait
  | createWait
  | copyWait
  | faultWait
  | pagingWait
  deriving DecidableEq, Repr

/-- One object as its waiters see it. -/
structure EventState where
  pagingInProgress : Nat := 0
  pagerCreated : Bool := false
  pagerInitialized : Bool := false
  pagerReady : Bool := false
  copyStrategy : CopyStrategy := .none
  allWanted : ObjectEvent → Bool := fun _ => false
  asleep : List EventCall := []
  calls : List EventCall := []
  acceptOldInitProtocol : Bool := false

/-- The event a wait loop sleeps on. `vm_object_pager_create` waits for the initialization
under the event of readiness. -/
def EventCall.event : EventCall → Option ObjectEvent
  | .enterWait => some .initialized
  | .createWait => some .pagerReady
  | .copyWait => some .pagerReady
  | .faultWait => some .pagerReady
  | .pagingWait => some .pagingInProgress
  | _ => none

attribute [local simp] EventCall.event

/-- Whether the condition a wait loop tests holds. -/
def EventCall.satisfied (s : EventState) : EventCall → Bool
  | .enterWait => s.pagerInitialized
  | .createWait => s.pagerInitialized
  | .copyWait => s.pagerReady
  | .faultWait => s.pagerReady
  | .pagingWait => s.pagingInProgress = 0
  | _ => false

attribute [local simp] EventCall.satisfied

/-- What a thread does when it is awakened: a fault is retried from the start, every other wait
loop tests its condition again. -/
def EventCall.resume : EventCall → Option EventCall
  | .faultWait => none
  | c => some c

def startCall (s : EventState) (c : EventCall) : EventState := { s with calls := c :: s.calls }

/-- `vm_object_wait` and `vm_object_assert_wait`. -/
def objectWait (s : EventState) (c : EventCall) : EventState :=
  match c.event with
  | none => s
  | some e => { s with allWanted := Function.update s.allWanted e true, asleep := c :: s.asleep }

/-- `vm_object_wakeup` wakes every thread that sleeps on the event, if one is wanted. -/
def objectWakeup (s : EventState) (e : ObjectEvent) : EventState :=
  let s :=
    if s.allWanted e then
      { s with
        asleep := s.asleep.filter fun c => c.event ≠ some e
        calls := (s.asleep.filter fun c => c.event = some e).filterMap EventCall.resume ++ s.calls }
    else s
  { s with allWanted := Function.update s.allWanted e false }

def pagingBegin (s : EventState) : EventState := { s with pagingInProgress := s.pagingInProgress + 1 }

def pagingEnd (s : EventState) : EventState :=
  let s := { s with pagingInProgress := s.pagingInProgress - 1 }
  if s.pagingInProgress = 0 then objectWakeup s .pagingInProgress else s

/-- `vm_fault_wire_fast` gives up its paging reference by hand. -/
def wireFastEnd (s : EventState) : EventState := { s with pagingInProgress := s.pagingInProgress - 1 }

/-- One turn of a wait loop. -/
def waitTurn (s : EventState) (c : EventCall) : EventState :=
  if c.satisfied s then s else objectWait s c

/-- `vm_object_enter` assigns the attributes of a new pager without a lock. -/
def attachPager (s : EventState) (internal : Bool) : EventState :=
  startCall { s with pagerReady := internal } (.finish internal)

def finishPager (s : EventState) (internal : Bool) : EventState :=
  let s := { s with
    pagerInitialized := true
    pagerReady := if s.acceptOldInitProtocol then true else s.pagerReady }
  let s := objectWakeup s .initialized
  if internal then startCall s .created else s

def eventPagerCreate (s : EventState) : EventState :=
  if s.pagerCreated then startCall s .createWait
  else startCall (pagingBegin { s with pagerCreated := true }) (.attach true)

/-- `vm_object_copy` once the memory manager is ready. A slow copy faults on one page after the
other. -/
def copyReady (s : EventState) : EventState :=
  match s.copyStrategy with
  | .call => startCall (pagingBegin s) .copyCall
  | _ => s

/-- `memory_object_set_attributes` wakes before it assigns. -/
def eventSetAttributes (s : EventState) (objectReady : Bool) (copyStrategy : CopyStrategy) : EventState :=
  let s := if objectReady && !s.pagerReady then objectWakeup s .pagerReady else s
  { s with pagerReady := objectReady, copyStrategy := copyStrategy }

/-- `vm_object_abort_activity`, the last part of `vm_object_destroy`. -/
def eventAbortActivity (s : EventState) : EventState :=
  objectWakeup { s with pagerReady := true } .pagerReady

/-- A fault finds the memory manager not ready. -/
def faultNotReady (s : EventState) : EventState := pagingEnd (objectWait s .faultWait)

/-- The next section of a thread. -/
def eventSection (s : EventState) : EventCall → EventState
  | .wireFast => wireFastEnd s
  | .attach internal => attachPager s internal
  | .finish internal => finishPager s internal
  | .enterWait => waitTurn s .enterWait
  | .createWait => waitTurn s .createWait
  | .copyWait => if s.pagerReady then copyReady s else objectWait s .copyWait
  | .pagingWait => waitTurn s .pagingWait
  | .faultWait => s
  | _ => pagingEnd s

inductive EventOp
  | fault
  | faultNotReady
  | wireFast
  | pageout
  | lockRequest
  | copy
  | enterNew
  | enterOld
  | pagerCreate
  | terminate
  | destroyObject
  | destroyPort
  | setAttributes (objectReady : Bool) (copyStrategy : CopyStrategy)
  | interrupt (c : EventCall)
  | run (c : EventCall)
  deriving DecidableEq, Repr

/-- One step under the object lock: none when no thread can take it. -/
def eventStep (s : EventState) : EventOp → Option EventState
  | .fault => some (startCall (pagingBegin s) .fault)
  | .faultNotReady =>
    if .fault ∈ s.calls ∧ s.pagerReady = false then
      some (faultNotReady { s with calls := s.calls.erase .fault })
    else none
  | .wireFast => some (startCall (pagingBegin s) .wireFast)
  | .pageout => some (startCall (pagingBegin s) .pageout)
  | .lockRequest => some (startCall (pagingBegin s) .lockRequest)
  | .copy => some (startCall s .copyWait)
  | .enterNew =>
    if s.pagerCreated = false then some (startCall { s with pagerCreated := true } (.attach false))
    else none
  | .enterOld => some (startCall s .enterWait)
  | .pagerCreate => some (eventPagerCreate s)
  | .terminate => some (startCall s .pagingWait)
  | .destroyObject => some (startCall s .pagingWait)
  | .destroyPort => some (eventAbortActivity s)
  | .setAttributes objectReady copyStrategy => some (eventSetAttributes s objectReady copyStrategy)
  | .interrupt c =>
    if c ∈ s.asleep ∧ (c = .copyWait ∨ c = .faultWait) then some { s with asleep := s.asleep.erase c }
    else none
  | .run c =>
    if c ∈ s.calls then some (eventSection { s with calls := s.calls.erase c } c) else none

end MachVM

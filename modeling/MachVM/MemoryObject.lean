import MachVM.Object
import MachVM.ResidentReach

namespace MachVM

def absentMax : Int := 4

/-- The test of `vm_fault_page` for too many outstanding requests. -/
def throttled (s : VmState) (o : ObjId) : Bool :=
  !(s.object o).internal && decide (absentMax < (s.object o).absentCount)

def roundPage (x : BitVec 32) : BitVec 32 := (x + 4095#32) &&& ~~~4095#32

/-- The offsets a loop over whole pages visits. -/
def pageOffsets (offset : VmOffset) (size : VmSize) : List VmOffset :=
  (List.range (size.toNat / pageSize.toNat)).map fun i => offset + BitVec.ofNat 32 i * pageSize

/-- The page waits for data from the memory manager. -/
def markAbsent (s : VmState) (o : ObjId) (mem : PageId) : VmState :=
  (s.modPage mem fun p => { p with busy := true, absent := true }).modObject o
    fun x => { x with absentCount := x.absentCount + 1 }

/-- `vm_fault_page` finds no page and asks for one. The new page is freed again if no request can
be made now. -/
def faultRequest (s : VmState) (o : ObjId) (offset : VmOffset) (vmPrivilege : Bool) : Option VmState :=
  if (s.object o).pagerCreated = false ∨ vmPageLookup s o offset ≠ none then none
  else
    (vmPageAlloc s (some o) offset vmPrivilege).bind fun
      | (s, none) => some s
      | (s, some mem) =>
        if (s.object o).pagerReady = false ∨ throttled s o = true then vmPageFree s mem
        else some (markAbsent s o mem)

/-- `vm_fault_page` takes an unavailable page of the first object for itself. -/
def faultClaim (s : VmState) (mem : PageId) : Option VmState :=
  let p := s.page mem
  if p.tabled = true ∧ p.error = false ∧ p.busy = false ∧ p.absent = true then
    let s := s.modPage mem fun p => { p with absent := false, busy := true }
    some (vmPageQueuesRemove (vmObjectAbsentRelease s p.object) mem)
  else none

/-- `vm_fault_page` has found the page. -/
def faultFound (s : VmState) (mem : PageId) : VmState :=
  (vmPageQueuesRemove s mem).modPage mem fun p => { p with busy := true }

/-- Only absent pages are overwritten. -/
def acceptData (s : VmState) (o : ObjId) (mem : PageId) : Option VmState :=
  let p := s.page mem
  if p.busy && p.absent then
    if p.fictitious then vmPageFree s mem
    else some (vmObjectAbsentRelease (s.modPage mem fun p => { p with absent := false }) (some o))
  else some s

/-- One page of `memory_object_data_provided`, up to the copy of the data. -/
def dataProvided (s : VmState) (o : ObjId) (offset : VmOffset) (vmPrivilege : Bool) : Option VmState :=
  match vmPageLookup s o offset with
  | some mem => acceptData s o mem
  | none =>
    (vmPageAlloc s (some o) offset vmPrivilege).bind fun
      | (s, none) => some s
      | (s, some mem) => acceptData (markAbsent s o mem) o mem

/-- The data has been copied into the page. -/
def dataSupplied (s : VmState) (mem : PageId) (lockValue : VmProt) : Option VmState :=
  let s := s.modPage mem fun p => { p with
    modified := false, pageLock := lockValue, unlockRequest := protNone }
  let s := pageWakeup s mem
  if (s.page mem).active then some s else vmPageActivate s mem

def dataErrorPage (o : ObjId) (s : VmState) (offset : VmOffset) : Option VmState :=
  match vmPageLookup s o offset with
  | none => some s
  | some mem =>
    if (s.page mem).absent then
      if (s.page mem).fictitious then vmPageFree s mem
      else
        let s := s.modPage mem fun p => { p with busy := false, absent := false, error := true }
        some (pageWakeup (vmObjectAbsentRelease s (some o)) mem)
    else some s

def memoryObjectDataError (s : VmState) (o : ObjId) (offset : VmOffset) (size : VmSize) : Option VmState :=
  if size ≠ roundPage size then some s
  else (pageOffsets (offset - (s.object o).pagingOffset) size).foldlM (dataErrorPage o) s

/-- A page that is busy and absent becomes just absent. -/
def dataUnavailablePage (o : ObjId) (s : VmState) (offset : VmOffset) : Option VmState :=
  match vmPageLookup s o offset with
  | none => some s
  | some mem =>
    if (s.page mem).busy && (s.page mem).absent then
      if (s.page mem).fictitious then vmPageFree s mem else some (pageWakeup s mem)
    else some s

def memoryObjectDataUnavailable (s : VmState) (o : ObjId) (offset : VmOffset) (size : VmSize) :
    Option VmState :=
  if size ≠ roundPage size then some s
  else (pageOffsets (offset - (s.object o).pagingOffset) size).foldlM (dataUnavailablePage o) s

def abortPage (s : VmState) (mem : PageId) : Option VmState :=
  if (s.page mem).busy && (s.page mem).absent then vmPageFree s mem
  else some (pageWakeup (s.modPage mem fun p => { p with unlockRequest := protNone }) mem)

def vmObjectAbortActivity (s : VmState) (o : ObjId) : Option VmState :=
  ((s.object o).memq.foldlM abortPage s).map fun s =>
    s.modObject o fun x => { x with pagerReady := true }

/-- One turn of `vm_object_collapse`. -/
def collapseTurn (s : VmState) (o : ObjId) : Option VmState :=
  match collapseStep s o with
  | .ok (some t) => some t
  | .ok none => some s
  | .error _ => none

/-- The sections under the object lock of the routines that work on absent pages. The steps on
resident pages are those of `PageOp`. -/
inductive AbsentOp
  | page (op : PageOp)
  | faultRequest (o : ObjId) (offset : VmOffset) (vmPrivilege : Bool)
  | faultClaim (mem : PageId)
  | faultFound (mem : PageId)
  | dataProvided (o : ObjId) (offset : VmOffset) (vmPrivilege : Bool)
  | dataSupplied (mem : PageId) (lockValue : VmProt)
  | dataError (o : ObjId) (offset : VmOffset) (size : VmSize)
  | dataUnavailable (o : ObjId) (offset : VmOffset) (size : VmSize)
  | abortActivity (o : ObjId)
  | collapse (o : ObjId)

def absentStep (s : VmState) : AbsentOp → Option VmState
  | .page op => pageStep s op
  | .faultRequest o offset priv => faultRequest s o offset priv
  | .faultClaim mem => faultClaim s mem
  | .faultFound mem => some (faultFound s mem)
  | .dataProvided o offset priv => dataProvided s o offset priv
  | .dataSupplied mem lock => dataSupplied s mem lock
  | .dataError o offset size => memoryObjectDataError s o offset size
  | .dataUnavailable o offset size => memoryObjectDataUnavailable s o offset size
  | .abortActivity o => vmObjectAbortActivity s o
  | .collapse o => collapseTurn s o

/-- What callers owe. Pages are not moved between objects but by `vm_object_collapse`, an absent
page that is freed is resident, and the page that data is put in is not free. -/
def AbsentPre (s : VmState) : AbsentOp → Prop
  | .page (.fictitious _ _ _) | .page (.insert _ _ _) | .page (.remove _) | .page (.rename _ _ _) => False
  | .page (.free mem) => (s.page mem).absent = true → (s.page mem).tabled = true
  | .page op => PagePre s op
  | .dataSupplied mem _ => (s.page mem).free = false
  | _ => True

/-- A page of the backing object that a collapse moves into the parent. -/
def movesUp (s : VmState) (o : ObjId) (mem : PageId) : Prop :=
  let p := s.page mem
  let x := s.object o
  ¬(p.offset < x.shadowOffset ∨ x.size ≤ p.offset - x.shadowOffset) ∧
    vmPageLookup s o (p.offset - x.shadowOffset) = none

/-- The turn merges the backing object into the parent. -/
def merges (s : VmState) (o b : ObjId) : Prop :=
  (s.object o).pagingInProgress = 0 ∧ (s.object o).pager = none ∧ (s.object o).shadow = some b ∧
    (s.object b).internal = true ∧ (s.object b).pagingInProgress = 0 ∧
    ((s.object b).shadow.any fun z => (s.object z).copy.isSome) = false ∧ (s.object b).refCount = 1

/-- No absent page is moved. -/
def AbsentStay (s : VmState) : AbsentOp → Prop
  | .collapse o => ∀ b, merges s o b → ∀ mem ∈ (s.object b).memq, (s.page mem).absent = true →
      ¬ movesUp s o mem
  | _ => True

/-- Runs from a machine on which no page is absent and nothing is outstanding. -/
inductive AbsentRun (allowed : VmState → AbsentOp → Prop) : VmState → Prop
  | start (s : VmState) : ResidentInv s → (∀ p, (s.page p).absent = false) →
      (∀ o, (s.object o).absentCount = 0) → AbsentRun allowed s
  | step {s t : VmState} (op : AbsentOp) : AbsentRun allowed s → AbsentPre s op → allowed s op →
      absentStep s op = some t → AbsentRun allowed t

end MachVM

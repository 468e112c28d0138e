import MachVM.MapTypes
import MachVM.Resident

namespace MachVM

/-- The panics of the object layer, and those of the page layer under it. -/
inductive Panic
  | terminateInconsistency
  | copyInconsistency
  | collapseBadCase
  | collapsedCopyObject
  | page
  deriving DecidableEq, Repr

/-- Why a call does not return: it panics, or it waits for an event that does not come
(or for more fuel). -/
inductive Stop
  | panic (p : Panic)
  | wait
  deriving DecidableEq, Repr

/-- A panic of the page layer. -/
def pageResult {α : Type} : Option α → Except Stop α
  | none => .error (.panic .page)
  | some a => .ok a

theorem pageResult_ok {α : Type} {a : α} {r : Option α} (h : pageResult r = .ok a) : r = some a := by
  cases r with
  | none => cases h
  | some b =>
    cases h
    rfl

theorem bind_eq_ok {α β : Type} {x : Except Stop α} {f : α → Except Stop β} {r : β} (h : x.bind f = .ok r) :
    ∃ y, x = .ok y ∧ f y = .ok r := by
  cases x with
  | error e => cases h
  | ok y => exact ⟨y, rfl, h⟩

namespace VmState

def modObject (s : VmState) (o : ObjId) (f : VmObject → VmObject) : VmState :=
  s.setObject o (f (s.object o))

/-- The page of the given address, changed in place. -/
def modPage (s : VmState) (mem : PageId) (f : VmPage → VmPage) : VmState :=
  s.setPage mem (f (s.page mem))

end VmState

/-- A new object is a copy of the object template. -/
def vmObjectAllocate (s : VmState) (size : VmSize) : VmState × ObjId :=
  ({ s.setObject s.nextObject { size := size } with nextObject := s.nextObject + 1 }, s.nextObject)

def vmObjectReference (s : VmState) : Option ObjId → VmState
  | none => s
  | some o => s.modObject o fun x => { x with refCount := x.refCount + 1 }

/-- The external object of a port that names none yet. -/
def vmObjectEnter (s : VmState) (pager : PortId) (size : VmSize) : VmState × ObjId :=
  let (s, o) := vmObjectAllocate s size
  (s.modObject o fun x => { x with
    pagerCreated := true, internal := false, temporary := false, pagerReady := false
    pager := some pager, pagerInitialized := true }, o)

/-- The object a port names already, taken out of the cache if nothing refers to it. -/
def vmObjectLookup (s : VmState) (o : ObjId) : VmState :=
  let s :=
    if (s.object o).refCount = 0 then
      { s with cachedList := queueRemove s.cachedList o, cached := s.cached - 1 }
    else s
  vmObjectReference s (some o)

def memoryObjectSetAttributes (s : VmState) (o : ObjId) (objectReady mayCache : Bool)
    (copyStrategy : CopyStrategy) : VmState :=
  s.modObject o fun x => { x with
    canPersist := mayCache, pagerReady := objectReady, copyStrategy := copyStrategy }

def vmObjectDeactivatePages (s : VmState) (o : ObjId) : VmState :=
  (s.object o).memq.foldl vmPageDeactivate s

/-- Write a page to the pager of its object. The page itself moves to a new object, whose
reference is donated to the receiver of the data. A place-holder from the fictitious page zone
stands in for it meanwhile: it is on no queue, so its `vm_page_free` shows in the laundry
count only. -/
def vmPageoutPage (s : VmState) (mem : PageId) : Except Stop VmState := do
  let p := s.page mem
  let old ← pageResult p.object
  let x := s.object old
  let pager ← pageResult x.pager
  let s := vmPageRemove s mem
  let (s, new) := vmObjectAllocate s pageSize
  let s ← pageResult (vmPageInsert s mem new 0)
  let s := s.modPage mem fun p => { p with dirty := true, busy := false, wanted := false }
  let s ←
    (if x.internal then .ok (s.modPage mem fun p => { p with wireCount := p.wireCount + 1 })
    else pageResult (vmPageActivate s mem))
  let s :=
    if (s.page mem).laundry then s
    else { s.modPage mem fun p => { p with laundry := true } with laundryCount := s.laundryCount + 1 }
  .ok { s with
    laundryCount := if 0 < s.laundryCount then s.laundryCount - 1 else s.laundryCount
    pagerData := Function.update s.pagerData pager
      (Function.update (s.pagerData pager) (p.offset + x.pagingOffset) (some p.data)) }

/-- `vm_object_terminate` takes a page off the paging queues with one branch for each. -/
def dequeuePage (s : VmState) (mem : PageId) : VmState :=
  if (s.page mem).active then leaveActive s mem
  else if (s.page mem).inactive then leaveInactive s mem
  else s

/-- Clean or free one page of a terminated object. -/
def terminatePage (discard : Bool) (s : VmState) (mem : PageId) : Except Stop VmState :=
  let p := s.page mem
  if !discard && !p.absent && (p.dirty || p.modified) then vmPageoutPage s mem
  else pageResult (vmPageFree s mem)

/-- Detach an object from its shadow if it is the shadow's copy. -/
def detachCopy (s : VmState) (o : ObjId) : Except Stop VmState :=
  match (s.object o).shadow with
  | none => .ok s
  | some b =>
    if (s.object b).copy = some o then .ok (s.modObject b fun x => { x with copy := none })
    else if (s.object b).copy ≠ none then .error (.panic .terminateInconsistency)
    else .ok s

/-- Free everything an unreferenced object holds, except its reference to the shadow. -/
def vmObjectTerminate (s : VmState) (o : ObjId) : Except Stop VmState := do
  let s := s.modObject o fun x => { x with alive := false }
  let s ← detachCopy s o
  let x := s.object o
  if x.pagingInProgress ≠ 0 then .error .wait
  else
    let s := x.memq.foldl dequeuePage s
    let s ← x.memq.foldlM (terminatePage (x.temporary || x.pager.isNone)) s
    .ok (s.modObject o fun x => { x with pager := none })

/-- Enter an unreferenced object in the cache. The answer is the object to terminate
instead when the cache has overflowed. -/
def cacheObject (s : VmState) (o : ObjId) : VmState × Option ObjId :=
  let s := vmObjectDeactivatePages
    { s with cachedList := queueEnter s.cachedList o, cached := s.cached + 1 } o
  match s.cachedList with
  | [] => (s, none)
  | first :: rest =>
    if s.cached > s.cacheMax then ({ s with cachedList := rest, cached := s.cached - 1 }, some first)
    else (s, none)

/-- Give up a reference. An object that loses its last one goes to the cache or is
terminated, and its reference to the shadow is given up in turn. -/
def vmObjectDeallocate : Nat → VmState → Option ObjId → Except Stop VmState
  | _, s, none => .ok s
  | 0, _, some _ => .error .wait
  | fuel + 1, s, some o =>
    let s := s.modObject o fun x => { x with refCount := x.refCount - 1 }
    if 0 < (s.object o).refCount then .ok s
    else
      let (s, victim) := if (s.object o).canPersist then cacheObject s o else (s, some o)
      match victim with
      | none => .ok s
      | some v =>
        (vmObjectTerminate s v).bind fun t => vmObjectDeallocate fuel t (s.object v).shadow

/-- A shadow takes over the caller's reference to the source. -/
def vmObjectShadow (s : VmState) (source : Option ObjId) (offset : VmOffset) (length : VmSize) :
    VmState × ObjId × VmOffset :=
  let (s, result) := vmObjectAllocate s length
  (s.modObject result fun x => { x with shadow := source, shadowOffset := offset }, result, 0)

/-- Move the pages of the backing object up, or free those the parent does not need. -/
def collapsePage (object : ObjId) (backingOffset : VmOffset) (size : VmSize) (s : VmState)
    (mem : PageId) : Except Stop VmState :=
  let p := s.page mem
  let newOffset := p.offset - backingOffset
  if p.offset < backingOffset ∨ size ≤ newOffset then pageResult (vmPageFree s mem)
  else
    match vmPageLookup s object newOffset with
    | some pp =>
      if (s.page pp).absent then .error (.panic .collapseBadCase) else pageResult (vmPageFree s mem)
    | none => pageResult (vmPageRename s mem object newOffset)

/-- Merge the backing object into an object that holds its only reference. -/
def collapseInto (s : VmState) (object backing : ObjId) : Except Stop VmState := do
  let backingOffset := (s.object object).shadowOffset
  let size := (s.object object).size
  let s ← (s.object backing).memq.foldlM (collapsePage object backingOffset size) s
  let b := s.object backing
  let s := s.modObject object fun x => { x with
    pager := b.pager, pagerInitialized := b.pagerInitialized, pagerReady := b.pagerReady
    pagerCreated := b.pagerCreated, pagerRequest := b.pagerRequest, pagerName := b.pagerName
    pagingOffset := b.pagingOffset + backingOffset
    shadow := b.shadow, shadowOffset := x.shadowOffset + b.shadowOffset }
  let s := s.modObject backing fun x => { x with pager := none, pagerRequest := none, pagerName := none }
  let copied := b.shadow.any fun z => (s.object z).copy.isSome
  if copied then .error (.panic .collapsedCopyObject)
  else .ok (s.modObject backing fun x => { x with alive := false })

/-- Whether a page of the backing object is still needed by the parent. An absent page of
the parent counts as a page. -/
def pageNeeded (s : VmState) (object : ObjId) (backingOffset : VmOffset) (size : VmSize)
    (mem : PageId) : Bool :=
  let p := s.page mem
  let newOffset := p.offset - backingOffset
  backingOffset ≤ p.offset && newOffset ≤ size && (vmPageLookup s object newOffset).isNone

/-- Make the parent shadow the next object of the chain. -/
def bypassBacking (s : VmState) (object backing : ObjId) : VmState :=
  let b := s.object backing
  let s := s.modObject object fun x => { x with
    shadow := b.shadow, shadowOffset := x.shadowOffset + b.shadowOffset }
  let s := vmObjectReference s b.shadow
  s.modObject backing fun x => { x with refCount := x.refCount - 1 }

/-- One turn of `vm_object_collapse`: none when the conditions are not right. -/
def collapseStep (s : VmState) (object : ObjId) : Except Stop (Option VmState) :=
  let x := s.object object
  if x.pagingInProgress ≠ 0 ∨ x.pager ≠ none then .ok none
  else
    match x.shadow with
    | none => .ok none
    | some backing =>
      let b := s.object backing
      if b.internal = false ∨ b.pagingInProgress ≠ 0 then .ok none
      else if b.shadow.any fun z => (s.object z).copy.isSome then .ok none
      else if b.refCount = 1 then (collapseInto s object backing).map some
      else if b.pagerCreated then .ok none
      else if b.memq.any (pageNeeded s object x.shadowOffset x.size) then .ok none
      else .ok (some (bypassBacking s object backing))

def vmObjectCollapse : Nat → VmState → ObjId → Except Stop VmState
  | 0, _, _ => .error .wait
  | fuel + 1, s, object =>
    (collapseStep s object).bind fun
      | none => .ok s
      | some t => vmObjectCollapse fuel t object

def vmObjectPageRemove (s : VmState) (o : Option ObjId) (start endAddr : VmOffset) :
    Except Stop VmState :=
  match o with
  | none => .ok s
  | some o => (s.object o).memq.foldlM (fun s mem =>
      if start ≤ (s.page mem).offset ∧ (s.page mem).offset < endAddr then pageResult (vmPageFree s mem)
      else .ok s) s

/-- Coalesce the object behind a region with the null object behind the region after it. -/
def vmObjectCoalesce (fuel : Nat) (s : VmState) (prev next : Option ObjId)
    (prevOffset : VmOffset) (prevSize nextSize : VmSize) : Except Stop (VmState × Bool) :=
  match next, prev with
  | some _, _ => .ok (s, false)
  | none, none => .ok (s, true)
  | none, some o => do
    let s ← vmObjectCollapse fuel s o
    let x := s.object o
    if x.refCount > 1 ∨ x.pagerCreated = true ∨ x.shadow ≠ none ∨ x.copy ≠ none then .ok (s, false)
    else
      let s ← vmObjectPageRemove s (some o) (prevOffset + prevSize) (prevOffset + prevSize + nextSize)
      let newSize := prevOffset + prevSize + nextSize
      .ok (s.modObject o fun x => { x with size := if x.size < newSize then newSize else x.size }, true)

end MachVM

namespace MachVM

/-- How `vm_object_copy_slowly` starts: a reference keeps the source while its pages are
copied to a new object. Nothing is copied when the size is zero. -/
def copySlowlyStart (s : VmState) (src : ObjId) (size : VmSize) : VmState × Option ObjId :=
  if size = 0 then (s, none)
  else
    let (s, new) := vmObjectAllocate (vmObjectReference s (some src)) size
    (s, some new)

/-- The copy of a temporary object is another reference to it; both sides must then shadow. -/
def copySymmetric (s : VmState) (src : ObjId) (srcOffset : VmOffset) : VmState × CopyResult :=
  (vmObjectReference s (some src),
    { object := some src, offset := srcOffset, srcNeedsCopy := true, dstNeedsCopy := true })

/-- Take write permission away from the pages of a range. -/
def lockPages (s : VmState) (src : ObjId) (start endAddr : VmOffset) : VmState :=
  (s.object src).memq.foldl (fun s mem =>
    let p := s.page mem
    if start ≤ p.offset ∧ p.offset < endAddr then
      s.setPage mem { p with pageLock := p.pageLock ||| protWrite }
    else s) s

/-- The memory manager makes the copy: a new object is backed by the source, and entering
its port finds the source again, with one more reference. -/
def copyCall (s : VmState) (src : ObjId) (srcOffset : VmOffset) (size : VmSize) :
    VmState × CopyResult :=
  let (s, new) := vmObjectAllocate s size
  let s := vmObjectReference s (some src)
  let s := s.modObject new fun x => { x with shadow := some src, shadowOffset := srcOffset }
  let s := lockPages s src srcOffset (srcOffset + size)
  (vmObjectReference s (some src),
    { object := some new, offset := 0, srcNeedsCopy := false, dstNeedsCopy := false })

/-- Make the old copy object of the source, if it has one, shadow the new one. -/
def spliceOldCopy (s : VmState) (src new : ObjId) : Except Stop VmState :=
  match (s.object src).copy with
  | none => .ok s
  | some old =>
    if (s.object old).shadow ≠ some src ∨ (s.object old).shadowOffset ≠ 0 then
      .error (.panic .copyInconsistency)
    else
      let s := s.modObject src fun x => { x with refCount := x.refCount - 1 }
      let s := s.modObject old fun x => { x with shadow := some new }
      .ok (s.modObject new fun x => { x with refCount := x.refCount + 1 })

/-- Point the new copy at the existing object. -/
def attachCopy (s : VmState) (src new : ObjId) : VmState :=
  let s := s.modObject new fun x => { x with shadow := some src, shadowOffset := 0 }
  s.modObject src fun x => { x with refCount := x.refCount + 1, copy := some new }

def insertCopy (s : VmState) (src new : ObjId) : Except Stop VmState :=
  (spliceOldCopy s src new).map fun s => attachCopy s src new

def delayedResult (o : ObjId) (srcOffset : VmOffset) : CopyResult :=
  { object := some o, offset := srcOffset, srcNeedsCopy := false, dstNeedsCopy := true }

/-- The delayed copy: an empty copy object is used again, and otherwise a new one is made. -/
def copyDelayed (fuel : Nat) (s : VmState) (src : ObjId) (srcOffset : VmOffset) :
    Except Stop (VmState × CopyResult) :=
  let (s, new) := vmObjectAllocate s (s.object src).size
  let reuse := (s.object src).copy.filter fun old =>
    (s.object old).residentPageCount = 0 && !(s.object old).pagerCreated
  match reuse with
  | some old =>
    (vmObjectDeallocate fuel (vmObjectReference s (some old)) (some new)).map fun s =>
      (s, delayedResult old srcOffset)
  | none => (insertCopy s src new).map fun s => (s, delayedResult new srcOffset)

def copyNothing : CopyResult :=
  { object := none, offset := 0, srcNeedsCopy := false, dstNeedsCopy := false }

/-- Copy an object, by the means its memory manager allows. An interruptible caller does
not wait for a memory manager that is not ready. -/
def vmObjectCopy (slowly : VmState → ObjId → VmOffset → VmSize → Except Stop (VmState × Option ObjId))
    (fuel : Nat) (s : VmState) (src : Option ObjId) (srcOffset : VmOffset) (size : VmSize)
    (interruptible : Bool) : Except Stop (VmState × CopyResult) :=
  match src with
  | none => .ok (s, copyNothing)
  | some o =>
    let x := s.object o
    if x.temporary then .ok (copySymmetric s o srcOffset)
    else if x.pagerReady = false then
      if interruptible then .ok (s, copyNothing) else .error .wait
    else
      match x.copyStrategy with
      | .none => (slowly s o srcOffset size).map fun r => (r.1, { copyNothing with object := r.2 })
      | .call => .ok (copyCall s o srcOffset size)
      | .delay => copyDelayed fuel s o srcOffset

end MachVM

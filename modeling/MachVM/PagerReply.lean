import MachVM.Lib.Stores
import MachVM.MemoryObject

namespace MachVM
namespace Pager

/-- What a reply works on: pages and objects, the bytes of physical memory, and the objects whose
reference the replies have given up, in order. What `vm_object_deallocate` does with the last
reference is no part of a reply. -/
structure ReplyState where
  vm : VmState
  phys : Nat → UInt8
  released : List ObjId

namespace ReplyState

/-- `vm_object_deallocate`. -/
def deallocate (s : ReplyState) (o : ObjId) : ReplyState := { s with released := s.released ++ [o] }

end ReplyState

/-- Where the replies come from and what the rest of the kernel does meanwhile. A user's data is
copied through a window of one page in the kernel's address space; `behind` gives the frames that
happen to be mapped behind the window at each copy, up to the first page with no frame. -/
structure Caller where
  vmPrivilege : Bool := false
  user : Bool := false
  behind : Nat → List Nat := fun _ => []
  /-- What other threads do while this one is blocked. -/
  others : VmState → VmState := id
  /-- `vm_pageout_page`, which takes the page. -/
  pageout : VmState → PageId → Option VmState := fun s _ => some s

/-- What became of one page of the data. -/
inductive Supply
  | kept
  | dropped
  | shortage
  | filled (mem : PageId)
  deriving DecidableEq, Repr

/-- Only a page that is busy and absent takes the data. -/
def supplyTo (s : VmState) (o : ObjId) (mem : PageId) (lockValue : VmProt) : Option (VmState × Supply) :=
  if (s.page mem).busy && (s.page mem).absent then
    if (s.page mem).fictitious then (vmPageFree s mem).map fun s => (s, .dropped)
    else
      ((acceptData s o mem).bind fun s => dataSupplied s mem lockValue).map fun s => (s, .filled mem)
  else some (s, .kept)

/-- One page of `memory_object_data_provided`, but for the copy. -/
def supplyPage (s : VmState) (o : ObjId) (offset : VmOffset) (vmPrivilege : Bool) (lockValue : VmProt) :
    Option (VmState × Supply) :=
  match vmPageLookup s o offset with
  | some mem => supplyTo s o mem lockValue
  | none =>
    (vmPageAlloc s (some o) offset vmPrivilege).bind fun
      | (s, none) => some (s, .shortage)
      | (s, some mem) => supplyTo (markAbsent s o mem) o mem lockValue

def pageBytes : Nat := 4096

def pageOffset (offset : VmOffset) (i : Nat) : VmOffset := offset + BitVec.ofNat 32 i * pageSize

/-- The physical address byte `b` of the `i`-th copy goes to. `copy_to_phys` goes on in physical
memory; `copy_user_to_physical_page` goes on behind its window, until nothing is mapped there. -/
def copyAddr (c : Caller) (i frame b : Nat) : Option Nat :=
  if b < pageBytes ∨ c.user = false then some (frame + b)
  else ((c.behind i)[b / pageBytes - 1]?).map fun g => g + b % pageBytes

/-- Copy so many bytes, one after the other. -/
def copyBytes (addr : Nat → Option Nat) (src : Nat → UInt8) (count : Nat) (phys : Nat → UInt8) : Nat → UInt8 :=
  (List.range count).foldl (Stores.store addr src) phys

/-- One turn of the loop of `memory_object_data_provided`. All of the data that is left is
copied. -/
def provideTurn (c : Caller) (o : ObjId) (offset : VmOffset) (data : Nat → UInt8) (dataCnt : Nat)
    (lockValue : VmProt) (st : ReplyState × KernReturn) (i : Nat) : Option (ReplyState × KernReturn) :=
  (supplyPage st.1.vm o (pageOffset offset i) c.vmPrivilege lockValue).map fun
    | (vm, .filled mem) =>
      ({ st.1 with
          vm := vm
          phys := copyBytes (copyAddr c i (vm.page mem).physAddr.toNat) (fun b => data (i * pageBytes + b))
            (dataCnt - i * pageBytes) st.1.phys }, .success)
    | (vm, .shortage) => ({ st.1 with vm := vm }, .resourceShortage)
    | (vm, _) => ({ st.1 with vm := vm }, st.2)

def memoryObjectDataProvided (c : Caller) (s : ReplyState) (object : Option ObjId) (offset : VmOffset)
    (data : Nat → UInt8) (dataCnt : BitVec 32) (lockValue : VmProt) : Option (ReplyState × KernReturn) :=
  match object with
  | none => some (s, .invalidArgument)
  | some o =>
    if lockValue &&& ~~~protAll ≠ 0 then some (s.deallocate o, .invalidArgument)
    else
      ((List.range (dataCnt.toNat / pageBytes)).foldlM
        (provideTurn c o (offset - (s.vm.object o).pagingOffset) data dataCnt.toNat lockValue)
        (s, .failure)).map fun r => (r.1.deallocate o, r.2)

/-- The two replies that take whole pages only: a size that is none is refused, and the
reference kept. -/
def wholePageReply (work : VmState → ObjId → VmOffset → VmSize → Option VmState) (s : ReplyState)
    (object : Option ObjId) (offset : VmOffset) (size : VmSize) : Option (ReplyState × KernReturn) :=
  match object with
  | none => some (s, .invalidArgument)
  | some o =>
    if size ≠ roundPage size then some (s, .invalidArgument)
    else (work s.vm o offset size).map fun vm => ({ s with vm := vm }.deallocate o, .success)

def memoryObjectDataError (s : ReplyState) (object : Option ObjId) (offset : VmOffset) (size : VmSize) :
    Option (ReplyState × KernReturn) :=
  wholePageReply MachVM.memoryObjectDataError s object offset size

def memoryObjectDataUnavailable (s : ReplyState) (object : Option ObjId) (offset : VmOffset)
    (size : VmSize) : Option (ReplyState × KernReturn) :=
  wholePageReply MachVM.memoryObjectDataUnavailable s object offset size

/-- Which pages a lock request is to write back or throw away, and the lock it sets. -/
structure LockRequest where
  shouldClean : Bool
  shouldFlush : Bool
  prot : VmProt

/-- The page is clean: flush it, or set its lock. -/
def lockCleanPage (r : LockRequest) (s : VmState) (mem : PageId) : Option VmState :=
  if r.shouldFlush then vmPageFree s mem
  else
    let s := if ((s.page mem).pageLock ^^^ r.prot) &&& r.prot ≠ 0 then s else pageWakeup s mem
    some (s.modPage mem fun p => { p with pageLock := r.prot, unlockRequest := protNone })

/-- A page that is there and neither busy nor wired. -/
def lockIdlePage (c : Caller) (r : LockRequest) (s : VmState) (mem : PageId) : Option VmState :=
  let s := if (r.shouldClean || r.shouldFlush) && (s.page mem).active then vmPageDeactivate s mem else s
  let s :=
    if r.shouldClean && !(s.page mem).dirty then
      s.modPage mem fun p => { p with dirty := p.modified }
    else s
  if r.shouldClean && (s.page mem).dirty then c.pageout (vmPageQueuesRemove s mem) mem
  else lockCleanPage r s mem

/-- One page of `memory_object_lock_request`: wait until it is neither busy nor wired. -/
def lockPage (c : Caller) (r : LockRequest) (o : ObjId) : Nat → VmState → VmOffset → Option VmState
  | 0, _, _ => none
  | fuel + 1, s, offset =>
    match vmPageLookup s o offset with
    | none => some s
    | some mem =>
      if (s.page mem).absent then some s
      else if (s.page mem).busy || (s.page mem).wireCount ≠ 0 then
        lockPage c r o fuel (c.others (s.modPage mem fun p => { p with wanted := true })) offset
      else lockIdlePage c r s mem

/-- The reply keeps the control port alive with a paging reference while it is sent. -/
def lockCompleted (s : VmState) (o : ObjId) (replyTo : Option PortId) : VmState :=
  match replyTo with
  | none => s
  | some _ =>
    (s.modObject o fun x => { x with pagingInProgress := x.pagingInProgress + 1 }).modObject o
      fun x => { x with pagingInProgress := x.pagingInProgress - 1 }

def memoryObjectLockRequest (c : Caller) (fuel : Nat) (s : ReplyState) (object : Option ObjId)
    (offset : VmOffset) (size : VmSize) (r : LockRequest) (replyTo : Option PortId) :
    Option (ReplyState × KernReturn) :=
  match object with
  | none => some (s, .failure)
  | some o =>
    ((pageOffsets (offset - (s.vm.object o).pagingOffset) (roundPage size)).foldlM
      (lockPage c r o fuel) s.vm).map fun vm =>
        ({ s with vm := lockCompleted vm o replyTo }.deallocate o, .success)

/-- No strategy stands for a code that names none. -/
def memoryObjectSetAttributes (s : ReplyState) (object : Option ObjId) (objectReady mayCache : Bool)
    (copyStrategy : Option CopyStrategy) : ReplyState × KernReturn :=
  match object, copyStrategy with
  | none, _ => (s, .invalidArgument)
  | some o, none => (s.deallocate o, .invalidArgument)
  | some o, some strategy =>
    ({ s with vm := MachVM.memoryObjectSetAttributes s.vm o objectReady mayCache strategy }.deallocate o,
      .success)

/-- The attributes come with the answer. -/
def memoryObjectGetAttributes (s : ReplyState) (object : Option ObjId) :
    ReplyState × KernReturn × Option (Bool × Bool × CopyStrategy) :=
  match object with
  | none => (s, .invalidArgument, none)
  | some o =>
    let x := s.vm.object o
    (s.deallocate o, .success, some (x.pagerReady, x.canPersist, x.copyStrategy))

/-- A reply of a memory manager, with the object its control port was converted to. -/
inductive Reply
  | dataProvided (offset : VmOffset) (data : Nat → UInt8) (dataCnt : BitVec 32) (lockValue : VmProt)
  | dataError (offset : VmOffset) (size : VmSize)
  | dataUnavailable (offset : VmOffset) (size : VmSize)
  | lockRequest (offset : VmOffset) (size : VmSize) (r : LockRequest) (replyTo : Option PortId)
  | setAttributes (objectReady mayCache : Bool) (copyStrategy : Option CopyStrategy)
  | getAttributes

/-- What a reply ends with, if it returns. -/
def Reply.run (c : Caller) (fuel : Nat) (s : ReplyState) (object : Option ObjId) :
    Reply → Option (ReplyState × KernReturn)
  | .dataProvided offset data dataCnt lockValue =>
    memoryObjectDataProvided c s object offset data dataCnt lockValue
  | .dataError offset size => memoryObjectDataError s object offset size
  | .dataUnavailable offset size => memoryObjectDataUnavailable s object offset size
  | .lockRequest offset size r replyTo => memoryObjectLockRequest c fuel s object offset size r replyTo
  | .setAttributes objectReady mayCache copyStrategy =>
    some (memoryObjectSetAttributes s object objectReady mayCache copyStrategy)
  | .getAttributes =>
    let r := memoryObjectGetAttributes s object
    some (r.1, r.2.1)

/-- An error or unavailable reply for a whole number of pages; the other replies take any size. -/
def Reply.wholePages : Reply → Prop
  | .dataError _ size | .dataUnavailable _ size => size = roundPage size
  | _ => True

variable {c : Caller} {s t : ReplyState} {object : Option ObjId} {o : ObjId} {kr : KernReturn}
  {offset : VmOffset} {size : VmSize} {fuel : Nat}

theorem provideTurn_released {data : Nat → UInt8} {dataCnt : Nat} {lockValue : VmProt}
    {st st' : ReplyState × KernReturn} {i : Nat}
    (hs : provideTurn c o offset data dataCnt lockValue st i = some st') :
    st'.1.released = st.1.released := by
  obtain ⟨⟨vm, r⟩, -, rfl⟩ := Option.map_eq_some_iff.mp hs
  cases r <;> rfl

theorem foldlM_keeps {α β γ : Type} {f : β → α → Option β} {g : β → γ}
    (hf : ∀ st st' i, f st i = some st' → g st' = g st) {l : List α} {st st' : β}
    (hs : l.foldlM f st = some st') : g st' = g st := by
  induction l generalizing st with
  | nil =>
    cases Option.some.inj hs
    rfl
  | cons i l ih =>
    rw [List.foldlM_cons] at hs
    obtain ⟨st₁, h₁, hs⟩ := Option.bind_eq_some_iff.mp hs
    rw [ih hs, hf st st₁ i h₁]

theorem wholePageReply_released {work : VmState → ObjId → VmOffset → VmSize → Option VmState}
    (hs : wholePageReply work s object offset size = some (t, kr)) :
    t.released = s.released ++ object.toList ↔ object = none ∨ size = roundPage size := by
  cases object with
  | none =>
    cases Option.some.inj hs
    simp
  | some o =>
    simp only [wholePageReply] at hs
    split at hs
    next hne =>
      cases Option.some.inj hs
      refine iff_of_false ?_ ?_
      · simp
      · rintro (hno | heq)
        · cases hno
        · exact hne heq
    next heq =>
      obtain ⟨vm, -, hr⟩ := Option.map_eq_some_iff.mp hs
      cases hr
      exact iff_of_true rfl (.inr (Decidable.not_not.mp heq))

theorem memoryObjectDataProvided_released {data : Nat → UInt8} {dataCnt : BitVec 32} {lockValue : VmProt}
    (hs : memoryObjectDataProvided c s object offset data dataCnt lockValue = some (t, kr)) :
    t.released = s.released ++ object.toList := by
  cases object with
  | none =>
    cases Option.some.inj hs
    exact (List.append_nil _).symm
  | some o =>
    simp only [memoryObjectDataProvided] at hs
    split at hs
    next =>
      cases Option.some.inj hs
      rfl
    next =>
      obtain ⟨r, hr, hr'⟩ := Option.map_eq_some_iff.mp hs
      cases hr'
      have hkeep := foldlM_keeps (g := fun st : ReplyState × KernReturn => st.1.released)
        (fun _ _ _ h => provideTurn_released h) hr
      exact congrArg (· ++ [o]) hkeep

theorem memoryObjectLockRequest_released {r : LockRequest} {replyTo : Option PortId}
    (hs : memoryObjectLockRequest c fuel s object offset size r replyTo = some (t, kr)) :
    t.released = s.released ++ object.toList := by
  cases object with
  | none =>
    cases Option.some.inj hs
    exact (List.append_nil _).symm
  | some o =>
    obtain ⟨vm, -, hr⟩ := Option.map_eq_some_iff.mp hs
    cases hr
    rfl

/-- A reply gives up exactly the reference it came with, unless it is an error or unavailable reply
for a broken page. -/
theorem reply_releases_iff (reply : Reply) (hs : reply.run c fuel s object = some (t, kr)) :
    t.released = s.released ++ object.toList ↔ object = none ∨ reply.wholePages := by
  cases reply with
  | dataProvided offset data dataCnt lockValue =>
    exact iff_of_true (memoryObjectDataProvided_released hs) (.inr trivial)
  | dataError offset size => exact wholePageReply_released hs
  | dataUnavailable offset size => exact wholePageReply_released hs
  | lockRequest offset size r replyTo =>
    exact iff_of_true (memoryObjectLockRequest_released hs) (.inr trivial)
  | setAttributes objectReady mayCache copyStrategy =>
    refine iff_of_true ?_ (.inr trivial)
    have ht : t = (memoryObjectSetAttributes s object objectReady mayCache copyStrategy).1 :=
      (congrArg Prod.fst (Option.some.inj hs)).symm
    rw [ht]
    cases object with
    | none => exact (List.append_nil _).symm
    | some o => cases copyStrategy <;> rfl
  | getAttributes =>
    refine iff_of_true ?_ (.inr trivial)
    have ht : t = (memoryObjectGetAttributes s object).1 := (congrArg Prod.fst (Option.some.inj hs)).symm
    rw [ht]
    cases object with
    | none => exact (List.append_nil _).symm
    | some o => rfl

/-- The first page of object 1 waits for its data. -/
def waitingReply : ReplyState where
  vm := markAbsent (((pageStep {} (.create 0 0)).bind fun s => pageStep s (.alloc (some 1) 0 true)).getD {}) 1 0
  phys _ := 0
  released := []

theorem wholeError_releases : ∃ t kr, (Reply.dataError 0 0x2000).run {} 0 waitingReply (some 1) = some (t, kr) ∧
    (t.vm.page 0).error = true ∧ t.released = waitingReply.released ++ (some 1).toList := by
  have hsome : ((Reply.dataError 0 0x2000).run {} 0 waitingReply (some 1)).map
      (fun r => (r.1.vm.page 0).error) = some true := by decide +kernel
  obtain ⟨⟨t, kr⟩, hr, he⟩ := Option.map_eq_some_iff.mp hsome
  exact ⟨t, kr, hr, he, (reply_releases_iff _ hr).mpr (.inr (show (0x2000 : VmSize) = roundPage 0x2000 by decide))⟩

/-- An error reply for one byte is refused with the reference kept. -/
theorem brokenError_leaks : ∃ t, (Reply.dataError 0 1).run {} 0 waitingReply (some 1) =
    some (t, .invalidArgument) ∧ t.released ≠ waitingReply.released ++ (some 1).toList :=
  ⟨waitingReply, rfl, by decide⟩

end Pager
end MachVM

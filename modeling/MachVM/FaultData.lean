import MachVM.FaultPage
import MachVM.MemoryObject
import MachVM.MemoryObjectReach
import MachVM.ObjectContent

namespace MachVM
namespace FaultData

/-- The arguments of a call of `vm_fault_page`. -/
structure FaultCall where
  firstObject : ObjId
  firstOffset : VmOffset
  faultType : VmProt
  mustBeResident : Bool := false
  protection : VmProt := protAll

/-- Everything else: what happens while the thread sleeps on a page or has the object unlocked for a
message to its pager, which of the pages the map of a pager's pages knows to be absent, and the rest of what the call
depends on. The first argument tells one wait from another. -/
structure World where
  block : Nat → VmState → PageId → VmState × WaitResult
  request : Nat → VmState → PageId → VmState × SendReply
  unlockRequest : Nat → VmState → PageId → VmState × SendReply := fun _ s _ => (s, .success)
  readyWait : Nat → WaitResult := fun _ => .awakened
  lockFree : Nat → Bool := fun _ => true
  knownAbsent : ObjId → VmOffset → Bool := fun _ _ => false
  vmPrivilege : Bool := false
  dirtyHandling : Bool := false

/-- Where the search is, and the page left busy in the first object. -/
structure Place where
  object : ObjId
  offset : VmOffset
  firstM : Option PageId := none

inductive Searched
  | again (s : VmState) (p : Place)
  | found (s : VmState) (p : Place) (m : PageId)
  | failed (s : VmState) (r : FaultCode)

def pagingBegin (s : VmState) (o : ObjId) : VmState :=
  s.modObject o fun x => { x with pagingInProgress := x.pagingInProgress + 1 }

def pagingEnd (s : VmState) (o : ObjId) : VmState :=
  s.modObject o fun x => { x with pagingInProgress := x.pagingInProgress - 1 }

/-- `UNLOCK_THINGS`. A page that is null is used when the search below the first object has left
none there. -/
def unlockThings (a : FaultCall) (s : VmState) (p : Place) : Except Stop VmState :=
  let s := pagingEnd s p.object
  if p.object = a.firstObject then .ok s
  else do
    let m ← pageResult p.firstM
    let s ← pageResult (vmPageFree s m)
    .ok (pagingEnd s a.firstObject)

def giveUp (a : FaultCall) (s : VmState) (p : Place) (r : FaultCode) : Except Stop Searched :=
  (unlockThings a s p).map fun s => .failed s r

/-- `RELEASE_PAGE`. -/
def releasePage (s : VmState) (m : PageId) : Except Stop VmState :=
  pageResult (vmPageActivate (pageWakeup s m) m)

def vmPageZeroFill (s : VmState) (m : PageId) : VmState := s.modPage m fun p => { p with data := zeroPage }

def vmPageCopy (s : VmState) (src dest : PageId) : VmState :=
  s.modPage dest fun p => { p with data := (s.page src).data }

/-- The page is to be used by this thread alone, and the pageout daemon does not see it. -/
def takePage (s : VmState) (m : PageId) : VmState :=
  (vmPageQueuesRemove s m).modPage m fun p => { p with busy := true }

/-- The page is being brought in: wait for it and then look again. -/
def waitBusy (w : World) (a : FaultCall) (fuel : Nat) (s : VmState) (p : Place) (m : PageId) :
    Except Stop Searched :=
  let r := w.block fuel (s.modPage m fun x => { x with wanted := true }) m
  match r.2 with
  | .restart => giveUp a r.1 p .retry
  | .awakened => .ok (.again r.1 p)
  | _ => giveUp a r.1 p .interrupted

/-- The access has been locked out: ask for it, or wait until it is granted. -/
def lockedOut (w : World) (a : FaultCall) (fuel : Nat) (s : VmState) (p : Place) (m : PageId) :
    Except Stop Searched :=
  if a.faultType &&& (s.page m).unlockRequest ≠ a.faultType then
    if (s.object p.object).pagerReady = false then giveUp a s p (w.readyWait fuel).faultCode
    else
      let s := s.modPage m fun x => { x with unlockRequest := a.faultType ||| x.unlockRequest }
      let r := w.unlockRequest fuel s m
      match r.2.faultCode with
      | some c => giveUp a r.1 p c
      | none => .ok (.again r.1 p)
  else giveUp a (s.modPage m fun x => { x with wanted := true }) p (w.readyWait fuel).faultCode

/-- The page can be used if its lock allows the access. -/
def usePage (w : World) (a : FaultCall) (fuel : Nat) (s : VmState) (p : Place) (m : PageId) :
    Except Stop Searched :=
  if a.faultType &&& (s.page m).pageLock ≠ 0 then lockedOut w a fuel s p m
  else .ok (.found (takePage s m) p m)

/-- The thread makes an unavailable page of the first object its own. -/
def claimPage (s : VmState) (o : ObjId) (m : PageId) : VmState :=
  vmPageQueuesRemove
    (vmObjectAbsentRelease (s.modPage m fun x => { x with absent := false, busy := true }) (some o)) m

/-- An unavailable page at the bottom of the chain: the first object gets a page of zeros. -/
def unavailableBottom (w : World) (a : FaultCall) (fuel : Nat) (s : VmState) (p : Place) (m : PageId) :
    Except Stop Searched :=
  if p.object = a.firstObject then usePage w a fuel (vmPageZeroFill (claimPage s p.object m) m) p m
  else do
    let s ← pageResult (vmPageFree s m)
    let first ← pageResult p.firstM
    usePage w a fuel (vmPageZeroFill (pagingEnd s p.object) first)
      { object := a.firstObject, offset := a.firstOffset } first

/-- An unavailable page is passed over. -/
def unavailableShadowed (a : FaultCall) (s : VmState) (p : Place) (m : PageId) (next : ObjId) :
    Except Stop Searched := do
  let offset := p.offset + (s.object p.object).shadowOffset
  if a.mustBeResident then
    .ok (.again (pagingBegin (pagingEnd s p.object) next) { p with object := next, offset := offset })
  else if p.object ≠ a.firstObject then
    let s ← pageResult (vmPageFree (pagingEnd s p.object) m)
    .ok (.again (pagingBegin s next) { p with object := next, offset := offset })
  else
    .ok (.again (pagingBegin (claimPage s p.object m) next)
      { object := next, offset := offset, firstM := some m })

/-- The page is resident. -/
def residentPage (w : World) (a : FaultCall) (fuel : Nat) (s : VmState) (p : Place) (m : PageId) :
    Except Stop Searched :=
  if (s.page m).error then (pageResult (vmPageFree s m)).bind fun s => giveUp a s p .memoryError
  else if (s.page m).busy then waitBusy w a fuel s p m
  else if (s.page m).absent then
    match (s.object p.object).shadow with
    | none => unavailableBottom w a fuel s p m
    | some next => unavailableShadowed a s p m next
  else usePage w a fuel s p m

/-- A new page is there for the data that the memory manager is asked for. -/
def requestPage (w : World) (a : FaultCall) (fuel : Nat) (s : VmState) (p : Place) (m : PageId) :
    Except Stop Searched :=
  if (s.object p.object).pagerReady = false ∨ throttled s p.object = true then
    (pageResult (vmPageFree s m)).bind fun s => giveUp a s p (w.readyWait fuel).faultCode
  else
    let s := (s.modPage m fun x => { x with absent := true }).modObject p.object
      fun x => { x with absentCount := x.absentCount + 1 }
    let r := w.request fuel s m
    match r.2.faultCode with
    | some code => (pageResult (vmPageFree r.1 m)).bind fun s => giveUp a s p code
    | none => .ok (.again r.1 p)

/-- The object does not have the page: go on with the next one, or fill the page of the first object
with zeros. -/
def moveOn (a : FaultCall) (s : VmState) (p : Place) : Except Stop Searched :=
  match (s.object p.object).shadow with
  | none => do
    let first ← pageResult p.firstM
    let s := if p.object = a.firstObject then s else pagingEnd s p.object
    .ok (.found (vmPageZeroFill s first) { object := a.firstObject, offset := a.firstOffset } first)
  | some next =>
    let s' := if p.object ≠ a.firstObject ∧ a.mustBeResident = false then pagingEnd s p.object else s
    .ok (.again (pagingBegin s' next)
      { p with object := next, offset := p.offset + (s.object p.object).shadowOffset })

/-- The page is not resident. A page is allocated where one is to be brought in, and in the first
object. -/
def missingPage (w : World) (a : FaultCall) (fuel : Nat) (s : VmState) (p : Place) : Except Stop Searched :=
  let lookForPage := (s.object p.object).pagerCreated && !w.knownAbsent p.object p.offset
  if (lookForPage || p.object = a.firstObject) && !a.mustBeResident then do
    let (s, m) ← pageResult (vmPageAlloc s (some p.object) p.offset w.vmPrivilege)
    match m with
    | none => giveUp a s p .memoryShortage
    | some m =>
      if lookForPage then requestPage w a fuel s p m
      else moveOn a s { p with firstM := some m }
  else moveOn a s (if p.object = a.firstObject then { p with firstM := none } else p)

def searchTurn (w : World) (a : FaultCall) (fuel : Nat) (s : VmState) (p : Place) : Except Stop Searched :=
  match vmPageLookup s p.object p.offset with
  | some m => residentPage w a fuel s p m
  | none => missingPage w a fuel s p

def searchLoop (w : World) (a : FaultCall) : Nat → VmState → Place → Except Stop Searched
  | 0, _, _ => .error .wait
  | fuel + 1, s, p =>
    (searchTurn w a fuel s p).bind fun
      | .again s p => searchLoop w a fuel s p
      | r => .ok r

/-- How a call returns. -/
inductive Fault
  | success (s : VmState) (resultPage : PageId) (topPage : Option PageId) (protection : VmProt)
  | failed (s : VmState) (r : FaultCode)

/-- A page that may be written is assumed to be. -/
def faultSuccess (w : World) (s : VmState) (m : PageId) (top : Option PageId) (protection : VmProt) : Fault :=
  .success
    (if w.dirtyHandling = true ∧ protection &&& protWrite ≠ 0 then s.modPage m fun x => { x with dirty := true }
    else s) m top protection

/-- The page belongs to an object below the first one: a write copies it up. -/
def foundBelow (w : World) (a : FaultCall) (fuel : Nat) (s : VmState) (p : Place) (m : PageId)
    (protection : VmProt) : Except Stop Fault :=
  if a.faultType &&& protWrite ≠ 0 then do
    let first ← pageResult p.firstM
    let s ← pageResult (vmPageActivate (vmPageCopy s m first) m)
    let s := pagingEnd (pageWakeup s m) p.object
    let s ← vmObjectCollapse fuel (pagingEnd s a.firstObject) a.firstObject
    .ok (faultSuccess w (pagingBegin s a.firstObject) first none protection)
  else .ok (faultSuccess w s m p.firstM (protection &&& ~~~protWrite))

def addRef (s : VmState) (o : ObjId) (n : Int) : VmState :=
  s.modObject o fun x => { x with refCount := x.refCount + n }

/-- `vm_pageout_page` for a page the memory manager is to use only if it has none yet. -/
def vmPageoutInitial (s : VmState) (m : PageId) : Except Stop VmState :=
  (vmPageoutPage s m).map fun t => { t with
    pagerData := fun port off => (s.pagerData port off).or (t.pagerData port off) }

/-- The page is pushed into the copy object; the result says whether the copy object is still
one. -/
def pushPage (first : ObjId) (s : VmState) (m : PageId) (copy : ObjId) (q : PageId) : Except Stop (VmState × Bool) :=
  let s := (vmPageCopy s m q).modPage q fun x => { x with dirty := true }
  if (s.object copy).pagerCreated = false then
    (pageResult (vmPageActivate s q)).map fun s => (pageWakeup s q, true)
  else
    (vmPageoutInitial (s.modPage q fun x => { x with busy := false }) q).map fun s =>
      (s, decide ((s.object copy).shadow = some first) && decide ((s.object copy).refCount ≠ 1))

/-- The loop over the copy object of the first object, in which the page was found. -/
def pushLoop (w : World) (a : FaultCall) (m : PageId) : Nat → VmState → VmProt → Except Stop Fault
  | 0, _, _ => .error .wait
  | fuel + 1, s, protection =>
    match (s.object a.firstObject).copy with
    | none => .ok (faultSuccess w s m none protection)
    | some copy =>
      if a.faultType &&& protWrite = 0 then .ok (faultSuccess w s m none (protection &&& ~~~protWrite))
      else if a.mustBeResident then .ok (faultSuccess w s m none protection)
      else if w.lockFree fuel = false then pushLoop w a m fuel s protection
      else
        let s := addRef s copy 1
        let copyOffset := a.firstOffset - (s.object copy).shadowOffset
        match vmPageLookup s copy copyOffset with
        | some q =>
          if (s.page q).busy then do
            let s ← releasePage (s.modPage q fun x => { x with wanted := true }) m
            .ok (.failed (pagingEnd (addRef s copy (-1)) a.firstObject) (w.readyWait fuel).faultCode)
          else .ok (faultSuccess w (addRef s copy (-1)) m none protection)
        | none => do
          let (s, q) ← pageResult (vmPageAlloc s (some copy) copyOffset w.vmPrivilege)
          match q with
          | none =>
            let s ← releasePage s m
            .ok (.failed (pagingEnd (addRef s copy (-1)) a.firstObject) .memoryShortage)
          | some q =>
            let (s, still) ← pushPage a.firstObject s m copy q
            if still then
              let s := s.modPage m fun x => { x with wanted := false }
              .ok (faultSuccess w (addRef s copy (-1)) m none protection)
            else
              let s ← vmObjectDeallocate fuel s (some copy)
              pushLoop w a m fuel s protection

/-- `vm_fault_page`. -/
def vmFaultPage (w : World) (a : FaultCall) (fuel : Nat) (s : VmState) : Except Stop Fault :=
  let protection :=
    if w.dirtyHandling = true ∧ a.faultType &&& protWrite = 0 then a.protection &&& ~~~protWrite
    else a.protection
  (searchLoop w a fuel s { object := a.firstObject, offset := a.firstOffset }).bind fun
    | .again _ _ => .error .wait
    | .failed s r => .ok (.failed s r)
    | .found s p m =>
      if p.object ≠ a.firstObject then foundBelow w a fuel s p m protection
      else pushLoop w a m fuel s protection

end FaultData
end MachVM

namespace MachVM
namespace FaultData

variable {s t u : VmState} {m p : PageId} {o x : ObjId} {off : VmOffset} {d : PageData}

/-- What the search follows of an object. -/
structure SameLinks (x y : VmObject) : Prop where
  shadow : y.shadow = x.shadow
  shadowOffset : y.shadowOffset = x.shadowOffset
  copy : y.copy = x.copy
  pager : y.pager = x.pager
  pagingOffset : y.pagingOffset = x.pagingOffset
  pagerCreated : y.pagerCreated = x.pagerCreated
  alive : y.alive = x.alive
  held : 0 < x.refCount → 0 < y.refCount

theorem SameLinks.refl (x : VmObject) : SameLinks x x := ⟨rfl, rfl, rfl, rfl, rfl, rfl, rfl, id⟩

theorem SameLinks.trans {x y z : VmObject} (h : SameLinks x y) (h' : SameLinks y z) : SameLinks x z where
  shadow := h'.shadow.trans h.shadow
  shadowOffset := h'.shadowOffset.trans h.shadowOffset
  copy := h'.copy.trans h.copy
  pager := h'.pager.trans h.pager
  pagingOffset := h'.pagingOffset.trans h.pagingOffset
  pagerCreated := h'.pagerCreated.trans h.pagerCreated
  alive := h'.alive.trans h.alive
  held := fun hx => h'.held (h.held hx)

theorem SameLinks.of_core {x y : VmObject} (h : y.core = x.core) : SameLinks x y where
  shadow := core_field VmObject.shadow (fun _ => rfl) h
  shadowOffset := core_field VmObject.shadowOffset (fun _ => rfl) h
  copy := core_field VmObject.copy (fun _ => rfl) h
  pager := core_field VmObject.pager (fun _ => rfl) h
  pagingOffset := core_field VmObject.pagingOffset (fun _ => rfl) h
  pagerCreated := core_field VmObject.pagerCreated (fun _ => rfl) h
  alive := core_field VmObject.alive (fun _ => rfl) h
  held := fun hx => by rw [core_field VmObject.refCount (fun _ => rfl) h]; exact hx

/-- What the pager of an object has at an offset. -/
def pagerHas (s : VmState) (o : ObjId) (off : VmOffset) : Option PageData :=
  (s.object o).pager.bind fun pager => s.pagerData pager (off + (s.object o).pagingOffset)

theorem pagerHas_congr (hl : (t.object o).pager = (s.object o).pager)
    (hoff : (t.object o).pagingOffset = (s.object o).pagingOffset) (hp : t.pagerData = s.pagerData)
    (off : VmOffset) : pagerHas t o off = pagerHas s o off := by
  simp only [pagerHas, hl, hoff, hp]

theorem ownData_eq (s : VmState) (o : ObjId) (off : VmOffset) :
    ownData s o off = (residentData s o off).or (pagerHas s o off) := rfl

theorem ownData_cell (h : TableInv s) (hc : cell s m = some (o, off, false, d)) :
    ownData s o off = some d := by
  rw [ownData_eq, (residentData_iff h).mpr ⟨m, hc⟩]
  rfl

theorem ownData_pager (h : TableInv s) (hn : ∀ m d, cell s m ≠ some (o, off, false, d)) :
    ownData s o off = pagerHas s o off := by
  have hr : residentData s o off = none := by
    rw [Option.eq_none_iff_forall_ne_some]
    intro d hd
    obtain ⟨m, hc⟩ := (residentData_iff h).mp hd
    exact hn m d hc
  rw [ownData_eq, hr]
  rfl

theorem ownData_congr (hs : TableInv s) (ht : TableInv t) (hl : (t.object o).pager = (s.object o).pager)
    (hoff : (t.object o).pagingOffset = (s.object o).pagingOffset) (hp : t.pagerData = s.pagerData)
    (hc : ∀ m d, cell t m = some (o, off, false, d) ↔ cell s m = some (o, off, false, d)) :
    ownData t o off = ownData s o off := by
  have hr : residentData t o off = residentData s o off := by
    refine Option.ext ?_
    intro d
    rw [residentData_iff hs, residentData_iff ht]
    exact exists_congr fun m => hc m d
  rw [ownData_eq, ownData_eq, hr, pagerHas_congr hl hoff hp]

/-- One page of an object is worked on. It stays there or leaves it; the other pages, and what the
search follows of the objects, stay as they are. -/
structure Touched (s t : VmState) (m : PageId) (o : ObjId) : Prop where
  resident : ResidentInv t
  links : ∀ x, SameLinks (s.object x) (t.object x)
  pagerData : t.pagerData = s.pagerData
  next : t.nextObject = s.nextObject
  others : ∀ p, p ≠ m → t.page p = s.page p
  before : (s.page m).tabled = true → (s.page m).object = some o
  after : (t.page m).tabled = true → (t.page m).object = some o

theorem Touched.trans (h : Touched s t m o) (h' : Touched t u m o) : Touched s u m o where
  resident := h'.resident
  links := fun x => (h.links x).trans (h'.links x)
  pagerData := h'.pagerData.trans h.pagerData
  next := h'.next.trans h.next
  others := fun p hp => (h'.others p hp).trans (h.others p hp)
  before := h.before
  after := h'.after

theorem cell_object {absent : Bool} (hc : cell s m = some (x, off, absent, d))
    (hb : (s.page m).tabled = true → (s.page m).object = some o) : x = o := by
  obtain ⟨ht, ho, -⟩ := cell_eq_some.mp hc
  exact Option.some.inj (ho.symm.trans (hb ht))

theorem cell_untabled (h : (s.page m).tabled = false) : cell s m = none := by simp [cell, h]

theorem Touched.cell_ne (h : Touched s t m o) (hp : p ≠ m) : cell t p = cell s p := by
  simp only [cell, h.others p hp]

theorem Touched.ownData_ne (h : Touched s t m o) (hs : ResidentInv s) (hx : x ≠ o) (off : VmOffset) :
    ownData t x off = ownData s x off := by
  refine ownData_congr hs.table h.resident.table (h.links x).pager (h.links x).pagingOffset h.pagerData ?_
  intro p d
  by_cases hp : p = m
  · subst hp
    constructor
    · exact fun hc => absurd (cell_object hc h.after) hx
    · exact fun hc => absurd (cell_object hc h.before) hx
  · rw [h.cell_ne hp]

theorem Touched.ownData (h : Touched s t m o) (hs : ResidentInv s)
    (hc : ∀ d, cell t m = some (o, off, false, d) ↔ cell s m = some (o, off, false, d)) :
    ownData t o off = MachVM.ownData s o off := by
  refine ownData_congr hs.table h.resident.table (h.links o).pager (h.links o).pagingOffset h.pagerData ?_
  intro p d
  by_cases hp : p = m
  · subst hp
    exact hc d
  · rw [h.cell_ne hp]

theorem Touched.lookup_ne (h : Touched s t m o) (hs : ResidentInv s) (hx : x ≠ o) (off : VmOffset) :
    vmPageLookup t x off = vmPageLookup s x off := by
  apply Option.ext
  intro p
  rw [vmPageLookup_eq_some h.resident.table, vmPageLookup_eq_some hs.table]
  by_cases hp : p = m
  · subst hp
    constructor
    · rintro ⟨ht, ho, -⟩
      exact absurd (Option.some.inj (ho.symm.trans (h.after ht))) hx
    · rintro ⟨ht, ho, -⟩
      exact absurd (Option.some.inj (ho.symm.trans (h.before ht))) hx
  · rw [h.others p hp]

/-- The fields of a page that its place depends on. -/
structure SamePlace (a b : VmPage) : Prop where
  tabled : b.tabled = a.tabled
  object : b.object = a.object
  offset : b.offset = a.offset

theorem modPage_touched {f : VmPage → VmPage} (hs : ResidentInv s)
    (hb : (s.page m).tabled = true → (s.page m).object = some o)
    (hq : (f (s.page m)).free = (s.page m).free ∧ (f (s.page m)).active = (s.page m).active ∧
      (f (s.page m)).inactive = (s.page m).inactive ∧ (f (s.page m)).wireCount = (s.page m).wireCount)
    (ht : SamePlace (s.page m) (f (s.page m))) : Touched s (s.modPage m f) m o where
  resident := hs.setPage hq ⟨ht.tabled, ht.object, ht.offset⟩
  links := fun _ => SameLinks.refl _
  pagerData := rfl
  next := rfl
  others := fun p hp => by simp [VmState.modPage, hp]
  before := hb
  after := by
    simp only [VmState.modPage, setPage_page, Function.update_self, ht.tabled, ht.object]
    exact hb

theorem modObject_touched {f : VmObject → VmObject} (hs : ResidentInv s)
    (hb : (s.page m).tabled = true → (s.page m).object = some o)
    (hf : ∀ y, (f y).memq = y.memq ∧ (f y).residentPageCount = y.residentPageCount)
    (hl : ∀ y, SameLinks y (f y)) : Touched s (s.modObject x f) m o where
  resident := hs.modObject hf
  links := fun y => by
    rw [modObject_object]
    split
    next hy =>
      subst hy
      exact hl _
    next => exact SameLinks.refl _
  pagerData := rfl
  next := rfl
  others := fun _ _ => rfl
  before := hb
  after := hb

theorem pagingBegin_touched (hs : ResidentInv s) (hb : (s.page m).tabled = true → (s.page m).object = some o)
    (x : ObjId) : Touched s (pagingBegin s x) m o :=
  modObject_touched hs hb (fun _ => ⟨rfl, rfl⟩) fun _ => ⟨rfl, rfl, rfl, rfl, rfl, rfl, rfl, id⟩

theorem pagingEnd_touched (hs : ResidentInv s) (hb : (s.page m).tabled = true → (s.page m).object = some o)
    (x : ObjId) : Touched s (pagingEnd s x) m o :=
  modObject_touched hs hb (fun _ => ⟨rfl, rfl⟩) fun _ => ⟨rfl, rfl, rfl, rfl, rfl, rfl, rfl, id⟩

theorem absentRelease_touched (hs : ResidentInv s)
    (hb : (s.page m).tabled = true → (s.page m).object = some o) (x : ObjId) :
    Touched s (vmObjectAbsentRelease s (some x)) m o :=
  modObject_touched (f := fun y => { y with absentCount := y.absentCount - 1 }) hs hb (fun _ => ⟨rfl, rfl⟩)
    fun _ => ⟨rfl, rfl, rfl, rfl, rfl, rfl, rfl, id⟩

theorem queuesRemove_touched (hs : ResidentInv s) (hb : (s.page m).tabled = true → (s.page m).object = some o) :
    Touched s (vmPageQueuesRemove s m) m o := by
  have hobj := vmPageQueuesRemove_objects s m
  have hpage := vmPageQueuesRemove_page s m
  refine ⟨vmPageQueuesRemove_resident hs m, fun x => SameLinks.of_core (hobj.core x), hobj.pagerData, hobj.next,
    ?_, hb, ?_⟩
  · intro p hp
    rw [hpage, Function.update_of_ne hp]
  · rw [hpage, Function.update_self]
    exact hb

theorem vmPageFree_touched (hs : ResidentInv s) (hb : (s.page m).tabled = true → (s.page m).object = some o)
    (hf : vmPageFree s m = some t) : Touched s t m o ∧ (t.page m).tabled = false := by
  obtain ⟨hobj, -⟩ := vmPageFree_cell hs hf
  obtain ⟨⟨b, hpage, hu⟩, -⟩ := vmPageFree_absent hs hf
  refine ⟨⟨vmPageFree_resident hs hf, fun x => SameLinks.of_core (hobj.core x), hobj.pagerData, hobj.next,
    ?_, hb, ?_⟩, ?_⟩
  · intro p hp
    rw [hpage, Function.update_of_ne hp]
  · rw [hpage, Function.update_self, hu]
    exact fun h => absurd h Bool.false_ne_true
  · rw [hpage, Function.update_self, hu]

theorem vmPageAlloc_touched {priv : Bool} (hs : ResidentInv s) (hno : vmPageLookup s o off = none)
    (ha : vmPageAlloc s (some o) off priv = some (t, some m)) :
    Touched s t m o ∧ (s.page m).tabled = false ∧ t.page m = { vmPageTemplate (s.page m) (s.page m).physAddr with
      object := some o, offset := off, tabled := true } := by
  have hres : ResidentInv t := vmPageAlloc_resident hs (by rintro y ⟨rfl⟩; exact hno) ha
  unfold vmPageAlloc at ha
  split at ha
  next => simp at ha
  next mem hl =>
    split at ha
    next => simp at ha
    next =>
      obtain ⟨v, hv, hr⟩ := Option.map_eq_some_iff.mp ha
      cases hr
      have hfree : (s.page m).free = true := (hs.queues.free.mem_iff m).mp (List.mem_of_getLast? hl)
      have hunt := hs.free_untabled m hfree
      have hobj := vmPageInsert_objects hv
      have hpage := (vmPageInsert_page hv).2
      refine ⟨⟨hres, fun x => SameLinks.of_core (hobj.core x), hobj.pagerData, hobj.next, ?_, ?_, ?_⟩, hunt, ?_⟩
      · intro p hp
        rw [hpage]
        simp [hp]
      · rw [hunt]
        exact fun h => absurd h Bool.false_ne_true
      · rw [hpage]
        simp
      · rw [hpage]
        simp

end FaultData
end MachVM

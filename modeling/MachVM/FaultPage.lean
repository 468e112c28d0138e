import MachVM.Types

namespace MachVM

/-- What a thread does to objects and pages, in order. `sleep` gives the lock up and does not
take it again; `clearBusy` is `PAGE_WAKEUP` or the bit alone; `request` is a message that the
memory manager has been sent for a page. -/
inductive FaultEvent
  | lock (o : ObjId)
  | unlock (o : ObjId)
  | sleep (o : ObjId)
  | pagingBegin (o : ObjId)
  | pagingEnd (o : ObjId)
  | alloc (o : ObjId) (m : PageId)
  | free (o : ObjId) (m : PageId)
  | setBusy (o : ObjId) (m : PageId)
  | clearBusy (o : ObjId) (m : PageId)
  | setAbsent (o : ObjId) (m : PageId)
  | clearAbsent (o : ObjId) (m : PageId)
  | request (o : ObjId) (m : PageId)
  | writePage (o : ObjId) (m : PageId)
  | writeObject (o : ObjId)
  | queues (o : ObjId) (m : PageId)
  | collapse (o : ObjId)
  | pageout (o : ObjId) (m : PageId)
  | deallocate (o : ObjId)
  | enter (o : ObjId)
  deriving DecidableEq, Repr

inductive WaitResult
  | awakened
  | timedOut
  | interrupted
  | shouldTerminate
  | restart
  deriving DecidableEq, Repr

inductive SendReply
  | success
  | interrupted
  | failed
  deriving DecidableEq, Repr

inductive FaultCode
  | retry
  | interrupted
  | memoryShortage
  | memoryError
  deriving DecidableEq, Repr

/-- How a call ends: with a page, with an error, by using a null page, or not yet. -/
inductive FaultEnd
  | success (object : ObjId) (resultPage : PageId) (topPage : Option PageId) (protection : VmProt)
  | failed (r : FaultCode)
  | crashed
  | running
  deriving DecidableEq, Repr

structure FaultArgs where
  firstObject : ObjId
  faultType : VmProt
  mustBeResident : Bool := false
  protection : VmProt := protAll
  dirtyHandling : Bool := false

structure PageSeen where
  page : PageId
  error : Bool := false
  busy : Bool := false
  absent : Bool := false

/-- What one turn of the search loop finds under the object lock, and how its waits and messages
end. The lock bits are those of the page that the lock check looks at. Shadow links lead deeper. -/
structure Turn (depth : ObjId → Nat) where
  page : Option PageSeen := none
  pagerCreated : Bool := false
  knownAbsent : Bool := false
  alloc : Option PageId := none
  pagerReady : Bool := true
  internal : Bool := true
  absentCount : Int := 0
  pageLock : VmProt := protNone
  unlockRequest : VmProt := protNone
  wait : WaitResult := .awakened
  reply : SendReply := .success
  shadow : ObjId → Option ObjId := fun _ => none
  deeper : ∀ o next, shadow o = some next → depth o < depth next := by simp

/-- What one turn of the copy loop finds. `gone` is that the copy object is no longer a shadow of
this one or has no other reference. -/
structure CopyTurn where
  copy : Option ObjId := none
  lockFree : Bool := true
  page : Option PageSeen := none
  alloc : Option PageId := none
  pagerCreated : Bool := false
  gone : Bool := false
  wanted : Bool := false
  wait : WaitResult := .awakened

structure Search where
  object : ObjId
  firstM : Option PageId := none

inductive SearchNext
  | again (st : Search)
  | found (st : Search) (m : PageId)
  | stop (e : FaultEnd)

def vmObjectAbsentMax : Int := 4

def WaitResult.faultCode (w : WaitResult) : FaultCode :=
  if w = .awakened then .retry else .interrupted

/-- The return code of a message that was not sent. -/
def SendReply.faultCode : SendReply → Option FaultCode
  | .success => none
  | .interrupted => some .interrupted
  | .failed => some .memoryError

variable {depth : ObjId → Nat}

/-- `UNLOCK_THINGS`, and the return after it. -/
def unlockThings (a : FaultArgs) (st : Search) (r : FaultCode) : List FaultEvent × FaultEnd :=
  if st.object = a.firstObject then ([.pagingEnd st.object, .unlock st.object], .failed r)
  else
    match st.firstM with
    | none => ([.pagingEnd st.object, .unlock st.object, .lock a.firstObject], .crashed)
    | some m =>
      ([.pagingEnd st.object, .unlock st.object, .lock a.firstObject, .free a.firstObject m,
        .pagingEnd a.firstObject, .unlock a.firstObject], .failed r)

def giveUp (a : FaultArgs) (st : Search) (ev : List FaultEvent) (r : FaultCode) :
    List FaultEvent × SearchNext :=
  let p := unlockThings a st r
  (ev ++ p.1, .stop p.2)

def andThen (ev : List FaultEvent) (p : List FaultEvent × SearchNext) : List FaultEvent × SearchNext :=
  (ev ++ p.1, p.2)

/-- The page is claimed unless the memory manager has locked it. -/
def lockCheck (a : FaultArgs) (t : Turn depth) (st : Search) (m : PageId) :
    List FaultEvent × SearchNext :=
  if a.faultType &&& t.pageLock = 0 then
    ([.queues st.object m, .setBusy st.object m], .found st m)
  else if a.faultType &&& t.unlockRequest = a.faultType then
    giveUp a st [.writePage st.object m] t.wait.faultCode
  else if t.pagerReady = false then
    giveUp a st [.writeObject st.object] t.wait.faultCode
  else
    let ev := [.writePage st.object m, .unlock st.object, .lock st.object]
    match t.reply.faultCode with
    | some r => giveUp a st ev r
    | none => (ev, .again st)

/-- An unavailable page at the end of the chain: the page in the first object is filled. -/
def unavailableBottom (a : FaultArgs) (t : Turn depth) (st : Search) (m : PageId) :
    List FaultEvent × SearchNext :=
  if st.object = a.firstObject then
    andThen [.clearAbsent st.object m, .setBusy st.object m, .queues st.object m,
      .unlock st.object, .lock st.object] (lockCheck a t st m)
  else
    let ev := [.free st.object m, .pagingEnd st.object, .unlock st.object, .lock a.firstObject,
      .unlock a.firstObject]
    match st.firstM with
    | none => (ev, .stop .crashed)
    | some firstM =>
      andThen (ev ++ [.lock a.firstObject])
        (lockCheck a t { object := a.firstObject, firstM := none } firstM)

/-- An unavailable page above another object. -/
def unavailableShadowed (a : FaultArgs) (st : Search) (m : PageId) (next : ObjId) :
    List FaultEvent × SearchNext :=
  let step := [.lock next, .unlock st.object, .pagingBegin next]
  if a.mustBeResident then
    (.pagingEnd st.object :: step, .again { st with object := next })
  else if st.object = a.firstObject then
    ([.clearAbsent st.object m, .setBusy st.object m, .queues st.object m] ++ step,
      .again { object := next, firstM := some m })
  else
    ([.pagingEnd st.object, .free st.object m] ++ step, .again { st with object := next })

def residentPage (a : FaultArgs) (t : Turn depth) (st : Search) (p : PageSeen) :
    List FaultEvent × SearchNext :=
  if p.error then giveUp a st [.free st.object p.page] .memoryError
  else if p.busy then
    let ev := [.writePage st.object p.page, .unlock st.object, .lock st.object]
    match t.wait with
    | .awakened => (ev, .again st)
    | .restart => giveUp a st ev .retry
    | _ => giveUp a st ev .interrupted
  else if p.absent then
    match t.shadow st.object with
    | none => unavailableBottom a t st p.page
    | some next => unavailableShadowed a st p.page next
  else lockCheck a t st p.page

/-- Ask the memory manager for the new page `m`. Too many outstanding requests make the thread
sleep, which gives up the lock. -/
def requestPage (a : FaultArgs) (t : Turn depth) (st : Search) (m : PageId) :
    List FaultEvent × SearchNext :=
  if t.pagerReady = false then
    giveUp a st [.writeObject st.object, .free st.object m] t.wait.faultCode
  else if t.internal = false ∧ vmObjectAbsentMax < t.absentCount then
    giveUp a st [.writeObject st.object, .sleep st.object, .free st.object m] t.wait.faultCode
  else
    match t.reply.faultCode with
    | some r =>
      giveUp a st [.setAbsent st.object m, .unlock st.object, .lock st.object, .free st.object m] r
    | none =>
      ([.setAbsent st.object m, .unlock st.object, .request st.object m, .lock st.object], .again st)

/-- Zero fill in the first object, which is locked. -/
def zeroFill (a : FaultArgs) (m : Option PageId) : List FaultEvent × SearchNext :=
  match m with
  | none => ([.unlock a.firstObject], .stop .crashed)
  | some m =>
    ([.unlock a.firstObject, .lock a.firstObject], .found { object := a.firstObject, firstM := none } m)

/-- The object has no page and nobody to ask for it. -/
def moveOn (a : FaultArgs) (t : Turn depth) (st : Search) (m : Option PageId) :
    List FaultEvent × SearchNext :=
  let firstM := if st.object = a.firstObject then m else st.firstM
  match t.shadow st.object with
  | none =>
    if st.object = a.firstObject then zeroFill a firstM
    else
      andThen [.pagingEnd st.object, .unlock st.object, .lock a.firstObject] (zeroFill a firstM)
  | some next =>
    let drop := if st.object ≠ a.firstObject ∧ a.mustBeResident = false then
      [.pagingEnd st.object] else []
    (.lock next :: (drop ++ [.unlock st.object, .pagingBegin next]),
      .again { object := next, firstM := firstM })

def missingPage (a : FaultArgs) (t : Turn depth) (st : Search) : List FaultEvent × SearchNext :=
  let lookForPage := t.pagerCreated && !t.knownAbsent
  if (lookForPage = true ∨ st.object = a.firstObject) ∧ a.mustBeResident = false then
    match t.alloc with
    | none => giveUp a st [] .memoryShortage
    | some m =>
      andThen [.alloc st.object m]
        (if lookForPage then requestPage a t st m else moveOn a t st (some m))
  else moveOn a t st none

def searchTurn (a : FaultArgs) (t : Turn depth) (st : Search) : List FaultEvent × SearchNext :=
  match t.page with
  | some p => residentPage a t st p
  | none => missingPage a t st

def searchLoop (a : FaultArgs) (st : Search) : List (Turn depth) → List FaultEvent × SearchNext
  | [] => ([], .again st)
  | t :: turns =>
    match searchTurn a t st with
    | (ev, .again st) => andThen ev (searchLoop a st turns)
    | r => r

/-- The result page is marked dirty if it may be written. -/
def faultSuccess (a : FaultArgs) (o : ObjId) (m : PageId) (top : Option PageId) (protection : VmProt) :
    List FaultEvent × FaultEnd :=
  (if a.dirtyHandling ∧ protection &&& protWrite ≠ 0 then [.writePage o m] else [],
    .success o m top protection)

/-- The page was found below the first object: a write copies it up. -/
def foundBelow (a : FaultArgs) (st : Search) (m : PageId) (protection : VmProt) :
    List FaultEvent × FaultEnd :=
  if a.faultType &&& protWrite = 0 then
    faultSuccess a st.object m st.firstM (protection &&& ~~~protWrite)
  else
    match st.firstM with
    | none => ([.unlock st.object], .crashed)
    | some firstM =>
      let p := faultSuccess a a.firstObject firstM none protection
      ([.unlock st.object, .lock st.object, .queues st.object m, .clearBusy st.object m,
        .pagingEnd st.object, .unlock st.object, .lock a.firstObject, .pagingEnd a.firstObject,
        .collapse a.firstObject, .pagingBegin a.firstObject] ++ p.1, p.2)

/-- `RELEASE_PAGE`, the reference to the copy object and `UNLOCK_THINGS`. -/
def leaveCopy (a : FaultArgs) (m : PageId) (copy : ObjId) (r : FaultCode) :
    List FaultEvent × FaultEnd :=
  let p := unlockThings a { object := a.firstObject, firstM := none } r
  ([.clearBusy a.firstObject m, .queues a.firstObject m, .writeObject copy, .unlock copy] ++ p.1, p.2)

/-- The end of a turn that leaves the copy loop. -/
def finishCopy (a : FaultArgs) (m : PageId) (copy : ObjId) (protection : VmProt) :
    List FaultEvent × FaultEnd :=
  let p := faultSuccess a a.firstObject m none protection
  ([.writeObject copy, .unlock copy] ++ p.1, p.2)

def wakeWanted (a : FaultArgs) (m : PageId) (wanted : Bool) : List FaultEvent :=
  if wanted then [.writePage a.firstObject m] else []

/-- Push the original of a page that is to be written into the copy object. -/
def pushLoop (a : FaultArgs) (m : PageId) (protection : VmProt) : List CopyTurn → List FaultEvent × FaultEnd
  | [] => ([], .running)
  | t :: turns =>
    match t.copy with
    | none => faultSuccess a a.firstObject m none protection
    | some copy =>
      if a.faultType &&& protWrite = 0 then
        faultSuccess a a.firstObject m none (protection &&& ~~~protWrite)
      else if a.mustBeResident then faultSuccess a a.firstObject m none protection
      else if t.lockFree = false ∨ copy = a.firstObject then
        let p := pushLoop a m protection turns
        ([.unlock a.firstObject, .lock a.firstObject] ++ p.1, p.2)
      else
        let enter := [.lock copy, .writeObject copy]
        match t.page with
        | some q =>
          if q.busy then
            let p := leaveCopy a m copy t.wait.faultCode
            (enter ++ .writePage copy q.page :: p.1, p.2)
          else
            let p := finishCopy a m copy protection
            (enter ++ p.1, p.2)
        | none =>
          match t.alloc with
          | none =>
            let p := leaveCopy a m copy .memoryShortage
            (enter ++ p.1, p.2)
          | some q =>
            let fill := enter ++ [.alloc copy q, .writePage copy q]
            let p := finishCopy a m copy protection
            if t.pagerCreated = false then
              (fill ++ [.queues copy q, .clearBusy copy q] ++ wakeWanted a m t.wanted ++ p.1, p.2)
            else
              let clean := fill ++ [.clearBusy copy q, .unlock a.firstObject, .pageout copy q]
              if t.gone then
                let p := pushLoop a m protection turns
                (clean ++ [.unlock copy, .deallocate copy, .lock a.firstObject] ++ p.1, p.2)
              else (clean ++ [.lock a.firstObject] ++ wakeWanted a m t.wanted ++ p.1, p.2)

def pageFound (a : FaultArgs) (st : Search) (m : PageId) (copies : List CopyTurn) :
    List FaultEvent × FaultEnd :=
  let protection := if a.dirtyHandling ∧ a.faultType &&& protWrite = 0 then
    a.protection &&& ~~~protWrite else a.protection
  if st.object = a.firstObject then pushLoop a m protection copies
  else foundBelow a st m protection

/-- Everything that one call does, given what it finds. -/
def vmFaultPage (a : FaultArgs) (turns : List (Turn depth)) (copies : List CopyTurn) :
    List FaultEvent × FaultEnd :=
  match searchLoop a { object := a.firstObject, firstM := none } turns with
  | (ev, .again _) => (ev, .running)
  | (ev, .stop e) => (ev, e)
  | (ev, .found st m) =>
    let p := pageFound a st m copies
    (ev ++ p.1, p.2)

end MachVM

namespace MachVM

variable {depth : ObjId → Nat}

/-- What one call of `vm_fault_page` finds. -/
structure FaultSeen (depth : ObjId → Nat) where
  turns : List (Turn depth) := []
  copies : List CopyTurn := []

/-- One page of a slow copy: the page allocated for it, and the calls made until one succeeds. -/
structure PageCopy (depth : ObjId → Nat) where
  newPage : PageId
  tries : List (FaultSeen depth) := []

inductive SlowEnd
  | copied
  | null
  | crashed
  | running
  deriving DecidableEq, Repr

structure SlowArgs where
  srcObject : ObjId
  newObject : ObjId
  dirtyHandling : Bool := false

def SlowArgs.faultArgs (a : SlowArgs) : FaultArgs :=
  { firstObject := a.srcObject, faultType := protRead, mustBeResident := false,
    protection := protRead, dirtyHandling := a.dirtyHandling }

/-- Release of the top page. The source object is locked once more at the end. -/
def releaseTop (a : SlowArgs) : Option PageId → List FaultEvent
  | none => []
  | some top => [.lock a.srcObject, .free a.srcObject top, .pagingEnd a.srcObject, .lock a.srcObject]

/-- The page is copied while it is busy, then both pages are let go. -/
def copyResult (a : SlowArgs) (newPage : PageId) (o : ObjId) (m : PageId) (top : Option PageId) :
    List FaultEvent :=
  [.unlock o, .clearBusy a.newObject newPage, .lock o, .clearBusy o m, .unlock o, .queues o m,
    .queues a.newObject newPage, .lock o, .pagingEnd o, .unlock o] ++ releaseTop a top

def slowTries (a : SlowArgs) (newPage : PageId) : List (FaultSeen depth) → List FaultEvent × SlowEnd
  | [] => ([], .running)
  | f :: tries =>
    let r := vmFaultPage a.faultArgs f.turns f.copies
    let ev := [.lock a.srcObject, .pagingBegin a.srcObject] ++ r.1
    match r.2 with
    | .success o m top _ => (ev ++ copyResult a newPage o m top, .copied)
    | .failed .retry | .failed .memoryShortage =>
      let p := slowTries a newPage tries
      (ev ++ p.1, p.2)
    | .failed .interrupted | .failed .memoryError =>
      (ev ++ [.deallocate a.newObject, .deallocate a.srcObject], .null)
    | .crashed => (ev, .crashed)
    | .running => (ev, .running)

def slowPages (a : SlowArgs) (size : VmSize) : List (PageCopy depth) → List FaultEvent × SlowEnd
  | [] => if size = 0 then ([.deallocate a.srcObject], .copied) else ([], .running)
  | c :: pages =>
    if size = 0 then ([.deallocate a.srcObject], .copied)
    else
      let r := slowTries a c.newPage c.tries
      match r.2 with
      | .copied =>
        let p := slowPages a (size - pageSize) pages
        (.alloc a.newObject c.newPage :: r.1 ++ p.1, p.2)
      | e => (.alloc a.newObject c.newPage :: r.1, e)

def vmObjectCopySlowlyTrace (a : SlowArgs) (size : VmSize) (pages : List (PageCopy depth)) :
    List FaultEvent × SlowEnd :=
  if size = 0 then ([.unlock a.srcObject], .null)
  else
    let p := slowPages a size pages
    ([.writeObject a.srcObject, .unlock a.srcObject] ++ p.1, p.2)

/-- What one look at the copy object finds. -/
structure OldCopySeen where
  copy : Option ObjId := none
  lockFree : Bool := true
  empty : Bool := false
  linked : Bool := true

/-- What `vm_object_copy` finds. Each wait is a turn with the memory manager not ready;
`unlocked` are the resident pages of the range that are not locked against writing. -/
structure ObjectCopySeen (depth : ObjId → Nat) where
  interruptible : Bool := false
  temporary : Bool := false
  waits : List WaitResult := []
  strategy : CopyStrategy := .none
  slow : List (PageCopy depth) := []
  unlocked : List PageId := []
  oldCopies : List OldCopySeen := []

/-- The wait for the memory manager: true if it ended with the object locked. -/
def readyWait (src : ObjId) (interruptible : Bool) : List WaitResult → List FaultEvent × Bool
  | [] => ([], true)
  | w :: waits =>
    let ev := [.writeObject src, .sleep src]
    if interruptible ∧ w ≠ .awakened then (ev, false)
    else
      let p := readyWait src interruptible waits
      (ev ++ .lock src :: p.1, p.2)

/-- `MEMORY_OBJECT_COPY_CALL`. -/
def copyCallTrace (a : SlowArgs) (unlocked : List PageId) : List FaultEvent :=
  [.lock a.srcObject, .writeObject a.srcObject, .pagingBegin a.srcObject, .unlock a.srcObject,
    .writeObject a.newObject, .lock a.srcObject, .pagingEnd a.srcObject] ++
    unlocked.map (.writePage a.srcObject) ++ [.unlock a.srcObject, .enter a.srcObject]

/-- The new copy object takes the place of the old one. -/
def installCopy (a : SlowArgs) : List FaultEvent :=
  [.writeObject a.newObject, .writeObject a.srcObject, .unlock a.srcObject]

/-- `MEMORY_OBJECT_COPY_DELAY`, from `Retry` on. -/
def copyDelayTrace (a : SlowArgs) : List OldCopySeen → List FaultEvent
  | [] => []
  | t :: turns =>
    match t.copy with
    | none => installCopy a
    | some old =>
      if t.lockFree = false ∨ old = a.srcObject then
        [.unlock a.srcObject, .lock a.srcObject] ++ copyDelayTrace a turns
      else if t.empty then
        [.lock old, .writeObject old, .unlock old, .unlock a.srcObject, .deallocate a.newObject]
      else if t.linked = false then [.lock old]
      else
        [.lock old, .writeObject a.srcObject, .writeObject old, .writeObject a.newObject, .unlock old] ++
          installCopy a

def vmObjectCopyTrace (a : SlowArgs) (size : VmSize) (c : ObjectCopySeen depth) : List FaultEvent :=
  if c.temporary then [.lock a.srcObject, .writeObject a.srcObject, .unlock a.srcObject]
  else
    let w := readyWait a.srcObject c.interruptible c.waits
    .lock a.srcObject :: w.1 ++
      if w.2 then
        match c.strategy with
        | .none => (vmObjectCopySlowlyTrace a size c.slow).1
        | .call => .unlock a.srcObject :: copyCallTrace a c.unlocked
        | .delay => .unlock a.srcObject :: .lock a.srcObject :: copyDelayTrace a c.oldCopies
      else []

/-- What `vm_fault_wire_fast` finds. -/
structure WireSeen where
  isMap : Bool := false
  page : Option PageSeen := none
  pageLock : VmProt := protNone
  copy : Option ObjId := none

def vmFaultWireFastTrace (object : ObjId) (prot : VmProt) (w : WireSeen) : List FaultEvent :=
  let giveUp := [.pagingEnd object, .unlock object, .deallocate object]
  let enter := [.lock object, .writeObject object, .pagingBegin object]
  if w.isMap then []
  else
    match w.page with
    | none => enter ++ giveUp
    | some p =>
      let wire := [.queues object p.page, .writePage object p.page]
      if p.busy ∨ p.absent ∨ prot &&& w.pageLock ≠ 0 then enter ++ giveUp
      else if w.copy ≠ none ∧ prot &&& protWrite ≠ 0 then
        enter ++ wire ++ [.setBusy object p.page, .clearBusy object p.page] ++ wire ++ giveUp
      else
        enter ++ wire ++ [.setBusy object p.page, .unlock object, .writePage object p.page,
          .lock object, .clearBusy object p.page] ++ giveUp

/-- The source object is not locked before it is copied, and only one page is wired. -/
def vmFaultCopyEntryTrace (a : SlowArgs) (size : VmSize) (prot : VmProt) (pages : List (PageCopy depth))
    (w : WireSeen) : List FaultEvent :=
  let r := vmObjectCopySlowlyTrace a size pages
  match r.2 with
  | .copied => r.1 ++ vmFaultWireFastTrace a.newObject prot w
  | _ => r.1

end MachVM

import MachVM.MapRange

namespace MachVM

variable {σ : Type}

/-- The loop of `vm_map_check_protection`: no holes, and every entry grants the access. -/
def checkEntries (m : VmMap) (endAddr : VmOffset) (protection : VmProt) :
    Nat → VmOffset → EntryId → Option Bool
  | 0, _, _ => none
  | fuel + 1, start, entry =>
    let x := m.entry entry
    if start < endAddr then
      if entry = header then some false
      else if start < x.start then some false
      else if x.protection &&& protection ≠ protection then some false
      else checkEntries m endAddr protection fuel x.endAddr (m.next entry)
    else some true

def vmMapCheckProtection (fuel : Nat) (m : VmMap) (start endAddr : VmOffset)
    (protection : VmProt) : Option (VmMap × Bool) := do
  let (m, found, entry) ← vmMapLookupEntry fuel m start
  if found then
    let ok ← checkEntries m endAddr protection fuel start entry
    some (m, ok)
  else some (m, false)

/-- The pages of a destination entry leave the physical maps: the task's own, or all of them
when the map is a sharing map. -/
def copyUnmap (S : Services σ) (k : Kernel σ) (dst : MapId) (dstEntry : EntryId) :
    Option (Kernel σ) :=
  let y := (k.map dst).entry dstEntry
  let machine :=
    if (k.map dst).isMainMap then S.pmapRemove k.machine (k.map dst).pmap y.start y.endAddr
    else S.objectPmapRemove k.machine y.object.vmObject y.offset
      (y.offset + (y.endAddr - y.start))
  machine.map k.setMachine

/-- The source is write-protected and marked, unless it is already. -/
def copyProtect (S : Services σ) (k : Kernel σ) (src : MapId) (srcEntry : EntryId)
    (srcNeedsCopy : Bool) : Option (Kernel σ) :=
  let m := k.map src
  let x := m.entry srcEntry
  if srcNeedsCopy && !x.needsCopy then
    let machine :=
      if m.isMainMap || m.refCount = 1 then
        S.pmapProtect k.machine m.pmap x.start x.endAddr (x.protection &&& ~~~protWrite)
      else S.objectPmapCopy k.machine x.object.vmObject x.offset
        (x.offset + (x.endAddr - x.start))
    machine.map fun s => (k.setMachine s).setEntry src srcEntry { x with needsCopy := true }
  else some k

def markCopyOnWrite (k : Kernel σ) (i : MapId) (entry : EntryId) : Kernel σ :=
  k.setEntry i entry { (k.map i).entry entry with copyOnWrite := true }

/-- The source is not wired: the destination gets a copy of its object. -/
def copyObject (S : Services σ) (k : Kernel σ) (src dst : MapId) (srcEntry dstEntry : EntryId) :
    Option (Kernel σ) := do
  let x := (k.map src).entry srcEntry
  let y := (k.map dst).entry dstEntry
  let (s, r) ← S.objectCopy k.machine x.object.vmObject x.offset (x.endAddr - x.start)
  let k := (k.setMachine s).setEntry dst dstEntry
    { y with object := .ofObject r.object, offset := r.offset, needsCopy := r.dstNeedsCopy }
  let k ← copyProtect S k src srcEntry r.srcNeedsCopy
  let k := markCopyOnWrite (markCopyOnWrite k src srcEntry) dst dstEntry
  (S.objectDeallocate k.machine y.object.vmObject).map k.setMachine

/-- The source is wired: its pages are copied at once into a new object. What the destination
pointed to before is not looked at. -/
def vmFaultCopyEntry (S : Services σ) (k : Kernel σ) (dst src : MapId)
    (dstEntry srcEntry : EntryId) : Option (Kernel σ) := do
  let x := (k.map src).entry srcEntry
  let y := (k.map dst).entry dstEntry
  let (s, object) ← S.objectCopySlowly k.machine x.object.vmObject x.offset (y.endAddr - y.start) false
  let k := (k.setMachine s).setEntry dst dstEntry { y with object := .ofObject object, offset := 0 }
  (vmFaultWireFast S k dst y.start dstEntry).map (·.1)

def vmMapCopyEntry (S : Services σ) (fuel : Nat) (k : Kernel σ) (src dst : MapId)
    (srcEntry dstEntry : EntryId) : Option (Kernel σ) :=
  if ((k.map src).entry srcEntry).isSubMap || ((k.map dst).entry dstEntry).isSubMap then some k
  else do
    let k ← unwireIfWired S fuel k dst dstEntry
    let k ← copyUnmap S k dst dstEntry
    if ((k.map src).entry srcEntry).wiredCount = 0 then copyObject S k src dst srcEntry dstEntry
    else vmFaultCopyEntry S k dst src dstEntry srcEntry

/-- Two maps are locked in the order of their addresses, one map once. -/
def lockMaps (k : Kernel σ) (src dst : MapId) : Kernel σ :=
  if src = dst then lockMap k src
  else if src < dst then lockMap (lockMap k src) dst
  else lockMap (lockMap k dst) src

/-- The checks of `vm_map_copy` between two task maps; the destination may be allocated here. -/
def copyCheck (S : Services σ) (fuel : Nat) (k : Kernel σ) (dst src : MapId)
    (dstStart dstEnd srcStart srcEnd : VmOffset) (dstAlloc : Bool) :
    Option (Kernel σ × KernReturn) :=
  if (k.map src).isMainMap && (k.map dst).isMainMap then do
    let (m, readable) ← vmMapCheckProtection fuel (k.map src) srcStart srcEnd protRead
    let k := k.setMap src m
    if !readable then some (k, .protectionFailure)
    else if dstAlloc then vmMapInsert S fuel k dst none 0 dstStart dstEnd
    else
      let (m, writable) ← vmMapCheckProtection fuel (k.map dst) dstStart dstEnd protWrite
      some (k.setMap dst m, if writable then .success else .protectionFailure)
  else some (k, .success)

/-- Look an address up and clip the entry found, or the one before it, at the address. -/
def lookupClip (S : Services σ) (fuel : Nat) (k : Kernel σ) (i : MapId) (addr : VmOffset) :
    Option (Kernel σ × EntryId) := do
  let (m, _, entry) ← vmMapLookupEntry fuel (k.map i) addr
  let k ← vmMapClipStart S (k.setMap i m) i entry addr
  some (k, entry)

/-- The entries a copy starts with. The first lookup is done again when the clip of the
destination may have changed it. -/
def copyFirst (S : Services σ) (fuel : Nat) (k : Kernel σ) (dst src : MapId)
    (dstAddr srcAddr : VmOffset) : Option (Kernel σ × EntryId × EntryId) := do
  let (k, srcEntry) ← lookupClip S fuel k src srcAddr
  let (k, dstEntry) ← lookupClip S fuel k dst dstAddr
  if src = dst ∧ srcEntry = dstEntry then
    let (m, _, srcEntry) ← vmMapLookupEntry fuel (k.map src) srcAddr
    some (k.setMap src m, srcEntry, dstEntry)
  else some (k, srcEntry, dstEntry)

/-- Clip both entries at the ends of the regions and then at the end of each other. -/
def copyClip (S : Services σ) (k : Kernel σ) (dst src : MapId) (srcEnd dstEnd : VmOffset)
    (srcEntry dstEntry : EntryId) : Option (Kernel σ) := do
  let k ← vmMapClipEnd S k src srcEntry srcEnd
  let k ← vmMapClipEnd S k dst dstEntry dstEnd
  let y := (k.map dst).entry dstEntry
  let srcClip := ((k.map src).entry srcEntry).start + (y.endAddr - y.start)
  let k ← vmMapClipEnd S k src srcEntry srcClip
  let x := (k.map src).entry srcEntry
  let dstClip := ((k.map dst).entry dstEntry).start + (x.endAddr - x.start)
  vmMapClipEnd S k dst dstEntry dstClip

/-- A region of a destination sharing map is replaced by a null one. -/
def replaceRegion (S : Services σ) (fuel : Nat) (k : Kernel σ) (i : MapId)
    (start endAddr : VmOffset) : Option (Kernel σ) := do
  let k ← vmMapDelete S fuel (lockMap k i) i start endAddr
  (vmMapInsert S fuel k i none 0 start endAddr).map (·.1)

/-- At least one of two matching entries leads to a sharing map: `copy`, which is
`vm_map_copy`, goes on there. -/
def copyShared (S : Services σ)
    (copy : Kernel σ → MapId → MapId → VmOffset → VmSize → VmOffset → Option (Kernel σ))
    (fuel : Nat) (k : Kernel σ) (dst src : MapId) (dstEntry srcEntry : EntryId) :
    Option (Kernel σ) := do
  let x := (k.map src).entry srcEntry
  let y := (k.map dst).entry dstEntry
  let newSize := y.endAddr - y.start
  let newSrc ← (if x.isAMap then x.object.shareMap else some src)
  let newSrcStart := if x.isAMap then x.offset else x.start
  if y.isAMap then
    let newDst ← y.object.shareMap
    let k ← (if newDst ≠ newSrc then
      replaceRegion S fuel k newDst y.offset (y.offset + newSize) else some k)
    copy k newDst newSrc y.offset newSize newSrcStart
  else copy k dst newSrc y.start newSize newSrcStart

/-- The loop of `vm_map_copy`. It goes on with the entries behind the two it has dealt with. -/
def copyLoop (S : Services σ)
    (copy : Kernel σ → MapId → MapId → VmOffset → VmSize → VmOffset → Option (Kernel σ))
    (dst src : MapId) (srcEnd dstEnd : VmOffset) :
    Nat → Kernel σ → VmOffset → EntryId → EntryId → Option (Kernel σ)
  | 0, _, _, _, _ => none
  | fuel + 1, k, srcStart, srcEntry, dstEntry =>
    if srcStart < srcEnd then do
      let k ← copyClip S k dst src srcEnd dstEnd srcEntry dstEntry
      let k ← (if !((k.map src).entry srcEntry).isAMap && !((k.map dst).entry dstEntry).isAMap then
          vmMapCopyEntry S fuel k src dst srcEntry dstEntry
        else copyShared S copy fuel k dst src dstEntry srcEntry)
      copyLoop S copy dst src srcEnd dstEnd fuel k ((k.map src).entry srcEntry).endAddr
        ((k.map src).next srcEntry) ((k.map dst).next dstEntry)
    else some k

/-- What `vm_map_copy` does once the maps are locked, up to its return label. -/
def copyRegion (S : Services σ)
    (copy : Kernel σ → MapId → MapId → VmOffset → VmSize → VmOffset → Option (Kernel σ))
    (fuel : Nat) (k : Kernel σ) (dst src : MapId) (dstAddr : VmOffset) (len : VmSize)
    (srcAddr : VmOffset) (dstAlloc : Bool) : Option (Kernel σ × KernReturn) := do
  let (k, result) ← copyCheck S fuel k dst src dstAddr (dstAddr + len) srcAddr (srcAddr + len) dstAlloc
  if result ≠ .success then some (k, result)
  else
    let (k, srcEntry, dstEntry) ← copyFirst S fuel k dst src dstAddr srcAddr
    if src = dst ∧ srcEntry = dstEntry then some (k, .success)
    else
      let k ← copyLoop S copy dst src (srcAddr + len) (dstAddr + len) fuel k srcAddr srcEntry dstEntry
      some (k, .success)

/-- `vm_map_copy`; a source to be destroyed is deleted at the end, whatever the result. -/
def vmMapCopy (S : Services σ) :
    Nat → Kernel σ → MapId → MapId → VmOffset → VmSize → VmOffset → Bool → Bool →
      Option (Kernel σ × KernReturn)
  | 0, _, _, _, _, _, _, _, _ => none
  | fuel + 1, k, dst, src, dstAddr, len, srcAddr, dstAlloc, srcDestroy =>
    if dstAddr + len < dstAddr ∨ srcAddr + len < srcAddr then some (k, .noSpace)
    else do
      let (k, result) ← copyRegion S
        (fun k dst src dstAddr len srcAddr =>
          (vmMapCopy S fuel k dst src dstAddr len srcAddr false false).map (·.1))
        fuel (lockMaps k src dst) dst src dstAddr len srcAddr dstAlloc
      let k ← (if srcDestroy then vmMapDelete S fuel k src srcAddr (srcAddr + len) else some k)
      some (k, result)

/-- A new map on the next piece of zone memory. -/
def createMap (k : Kernel σ) (pmap : Option PmapId) (min max : VmOffset) (pageable : Bool)
    (isMainMap : Bool) : Kernel σ × MapId :=
  let m := vmMapCreate (k.map k.freshMap) pmap min max pageable
  ({ k.setMap k.freshMap { m with isMainMap := isMainMap } with freshMap := k.freshMap + 1 },
    k.freshMap)

/-- A new entry with the given contents at the end of a map. -/
def appendEntry (k : Kernel σ) (i : MapId) (x : VmMapEntry) : Kernel σ × EntryId :=
  let (m, new) := vmMapEntryCreate (k.map i)
  (k.setMap i (vmMapEntryLink (m.setEntry new x) (m.prev header) new), new)

/-- The object of an entry moves behind a sharing map of its own, unless it is behind one. -/
def shareEntry (k : Kernel σ) (i : MapId) (entry : EntryId) : Kernel σ :=
  let x := (k.map i).entry entry
  if x.isAMap then k
  else
    let (k, share) := createMap k none x.start x.endAddr true false
    let (k, _) := appendEntry k share x
    k.setEntry i entry { x with isAMap := true, object := .map share, offset := x.start }

/-- `VM_INHERIT_SHARE`: the new map gets the same entry, and a reference to the sharing map. -/
def forkShare (S : Services σ) (k : Kernel σ) (old new : MapId) (entry : EntryId) :
    Option (Kernel σ) :=
  let k := shareEntry k old entry
  let x := (k.map old).entry entry
  let (k, _) := appendEntry k new x
  let k := vmMapReference k x.object.shareMap
  (S.pmapCopy k.machine (k.map new).pmap (k.map old).pmap x.start (x.endAddr - x.start) x.start).map
    k.setMachine

/-- `VM_INHERIT_COPY`: the new map gets a null entry that is then copied into. -/
def forkCopy (S : Services σ) (fuel : Nat) (k : Kernel σ) (old new : MapId) (entry : EntryId) :
    Option (Kernel σ) := do
  let x := (k.map old).entry entry
  let (k, newEntry) := appendEntry k new { x with wiredCount := 0, object := .null, isAMap := false }
  if x.isAMap then
    let share ← x.object.shareMap
    (vmMapCopy S fuel k new share x.start (x.endAddr - x.start) x.offset false false).map (·.1)
  else vmMapCopyEntry S fuel k old new entry newEntry

/-- One entry of `vm_map_fork`; a subordinate map is a panic. -/
def forkEntry (S : Services σ) (fuel : Nat) (k : Kernel σ) (old new : MapId) (entry : EntryId) :
    Option (Kernel σ) :=
  let x := (k.map old).entry entry
  if x.isSubMap then none
  else
    match x.inheritance with
    | .share => forkShare S k old new entry
    | .copy => forkCopy S fuel k old new entry
    | _ => some k

def forkLoop (S : Services σ) (old new : MapId) : Nat → Kernel σ → EntryId → Option (Kernel σ)
  | 0, _, _ => none
  | fuel + 1, k, entry =>
    if entry = header then some k
    else do
      let k ← forkEntry S fuel k old new entry
      forkLoop S old new fuel k ((k.map old).next entry)

def vmMapFork (S : Services σ) (fuel : Nat) (k : Kernel σ) (old : MapId) :
    Option (Kernel σ × MapId) := do
  let k := lockMap k old
  let (s, pmap) ← S.pmapCreate k.machine
  let m := k.map old
  let (k, new) := createMap (k.setMachine s) (some pmap) m.minOffset m.maxOffset m.entriesPageable true
  let k ← forkLoop S old new fuel k (m.next header)
  some (k.setMap new { k.map new with size := (k.map old).size }, new)

end MachVM

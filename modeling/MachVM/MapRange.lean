import MachVM.MapLookup

namespace MachVM

variable {σ : Type}

/-- The writer's side of `vm_map_lock` on a map of the kernel. -/
def lockMap (k : Kernel σ) (i : MapId) : Kernel σ := k.setMap i (vmMapLock (k.map i))

def vmMapEntryUnwire (S : Services σ) (fuel : Nat) (k : Kernel σ) (i : MapId) (entry : EntryId) :
    Option (Kernel σ) :=
  (vmFaultUnwire S fuel k i entry).map fun k =>
    k.setEntry i entry { (k.map i).entry entry with wiredCount := 0 }

/-- Unwire an entry if it is wired. -/
def unwireIfWired (S : Services σ) (fuel : Nat) (k : Kernel σ) (i : MapId) (entry : EntryId) :
    Option (Kernel σ) :=
  if ((k.map i).entry entry).wiredCount ≠ 0 then vmMapEntryUnwire S fuel k i entry else some k

/-- Take an entry out of a map and give up its reference; `release` is `vm_map_deallocate`. -/
def vmMapEntryDelete (S : Services σ) (release : Kernel σ → Option MapId → Option (Kernel σ))
    (fuel : Nat) (k : Kernel σ) (i : MapId) (entry : EntryId) : Option (Kernel σ) := do
  let k ← unwireIfWired S fuel k i entry
  let x := (k.map i).entry entry
  let m := vmMapEntryUnlink (k.map i) entry
  let k := k.setMap i { m with size := m.size - (x.endAddr - x.start) }
  if x.isAMap || x.isSubMap then release k x.object.shareMap
  else (S.objectDeallocate k.machine x.object.vmObject).map k.setMachine

/-- Remove the mappings of an entry about to be deleted, from every physical map when the
map is a sharing map. -/
def removeMappings (S : Services σ) (k : Kernel σ) (i : MapId) (object : MapObject)
    (offset s e : VmOffset) : Option (Kernel σ) :=
  let machine :=
    if object = .object S.kernelObject then
      S.objectPageRemove k.machine object.vmObject offset (offset + (e - s))
    else if !(k.map i).isMainMap then
      S.objectPmapRemove k.machine object.vmObject offset (offset + (e - s))
    else S.pmapRemove k.machine (k.map i).pmap s e
  machine.map k.setMachine

/-- The loop of `vm_map_delete`. -/
def deleteRange (S : Services σ) (release : Kernel σ → Option MapId → Option (Kernel σ)) :
    Nat → Kernel σ → MapId → VmOffset → EntryId → Option (Kernel σ)
  | 0, _, _, _, _ => none
  | fuel + 1, k, i, endAddr, entry =>
    if entry ≠ header ∧ ((k.map i).entry entry).start < endAddr then do
      let k ← vmMapClipEnd S k i entry endAddr
      let next := (k.map i).next entry
      let x := (k.map i).entry entry
      let k ← unwireIfWired S fuel k i entry
      let k ← removeMappings S k i x.object ((k.map i).entry entry).offset x.start x.endAddr
      let k ← vmMapEntryDelete S release fuel k i entry
      deleteRange S release fuel k i endAddr next
    else some k

/-- Find and clip the start of a region to delete, and keep the lookup hint off it. -/
def deleteFirst (S : Services σ) (fuel : Nat) (k : Kernel σ) (i : MapId) (start : VmOffset) :
    Option (Kernel σ × EntryId) := do
  let (m, found, firstEntry) ← vmMapLookupEntry fuel (k.map i) start
  let k := k.setMap i m
  if found then
    let k ← vmMapClipStart S k i firstEntry start
    some (k.setMap i ((k.map i).saveHint ((k.map i).prev firstEntry)), firstEntry)
  else some (k, m.next firstEntry)

/-- Move the free space hint off a region to delete. -/
def deleteFree (m : VmMap) (start : VmOffset) (entry : EntryId) : VmMap :=
  if start ≤ (m.entry m.firstFree).start then { m with firstFree := m.prev entry } else m

/-- `vm_map_delete`, with both cached entries moved off the range before the loop. -/
def deleteWith (S : Services σ) (release : Kernel σ → Option MapId → Option (Kernel σ))
    (fuel : Nat) (k : Kernel σ) (i : MapId) (start endAddr : VmOffset) : Option (Kernel σ) := do
  let (k, entry) ← deleteFirst S fuel k i start
  deleteRange S release fuel (k.setMap i (deleteFree (k.map i) start entry)) i endAddr entry

/-- The last reference to a map deletes everything in it. -/
def vmMapDeallocate (S : Services σ) : Nat → Kernel σ → Option MapId → Option (Kernel σ)
  | 0, _, _ => none
  | _ + 1, k, none => some k
  | fuel + 1, k, some i =>
    let k := k.setMap i { k.map i with refCount := (k.map i).refCount - 1 }
    if 0 < (k.map i).refCount then some k
    else do
      let k := lockMap k i
      let k ← deleteWith S (vmMapDeallocate S fuel) fuel k i (k.map i).minOffset (k.map i).maxOffset
      (S.pmapDestroy k.machine (k.map i).pmap).map k.setMachine

def vmMapDelete (S : Services σ) (fuel : Nat) (k : Kernel σ) (i : MapId)
    (start endAddr : VmOffset) : Option (Kernel σ) :=
  deleteWith S (vmMapDeallocate S fuel) fuel k i start endAddr

def vmMapRemove (S : Services σ) (fuel : Nat) (k : Kernel σ) (i : MapId)
    (start endAddr : VmOffset) : Option (Kernel σ × KernReturn) :=
  let k := lockMap k i
  let r := vmMapRangeCheck (k.map i) start endAddr
  (vmMapDelete S fuel k i r.1 r.2).map fun k => (k, .success)

/-- The first pass of `vm_map_protect`: the reason to refuse, if there is one. -/
def protectCheck (m : VmMap) (endAddr : VmOffset) (newProt : VmProt) :
    Nat → EntryId → Option (Option KernReturn)
  | 0, _ => none
  | fuel + 1, current =>
    let x := m.entry current
    if current ≠ header ∧ x.start < endAddr then
      if x.isSubMap then some (some .invalidArgument)
      else if newProt &&& x.maxProtection ≠ newProt then some (some .protectionFailure)
      else protectCheck m endAddr newProt fuel (m.next current)
    else some none

/-- `MASK`: a copy-on-write entry is never write-enabled in the physical map. -/
def protectMask (x : VmMapEntry) : VmProt := if x.copyOnWrite then ~~~protWrite else protAll

/-- The part of a sharing map behind an entry of a task map, protected entry by entry. -/
def protectShare (S : Services σ) (pmap : Option PmapId) (n : VmMap) (x : VmMapEntry)
    (shareEnd : VmOffset) : Nat → σ → EntryId → Option σ
  | 0, _, _ => none
  | fuel + 1, s, shareEntry =>
    let y := n.entry shareEntry
    if shareEntry ≠ header ∧ y.start < shareEnd then do
      let lo := if x.offset < y.start then y.start else x.offset
      let hi := if y.endAddr < shareEnd then y.endAddr else shareEnd
      let s ← S.pmapProtect s pmap (lo - x.offset + x.start) (hi - x.offset + x.start)
        (x.protection &&& protectMask y)
      protectShare S pmap n x shareEnd fuel s (n.next shareEntry)
    else some s

/-- Bring the physical map in line with the new protection of an entry, if it has changed.
The mask of a direct entry is taken from the first entry of the range. -/
def protectPhysical (S : Services σ) (fuel : Nat) (k : Kernel σ) (i : MapId) (oldProt : VmProt)
    (first current : EntryId) : Option (Kernel σ) :=
  let x := (k.map i).entry current
  if x.protection = oldProt then some k
  else if x.isAMap then do
    let j ← x.object.shareMap
    let k := lockMap k j
    let (n, _, shareEntry) ← vmMapLookupEntry fuel (k.map j) x.offset
    let k := k.setMap j n
    (protectShare S (k.map i).pmap n x (x.offset + (x.endAddr - x.start)) fuel k.machine
      shareEntry).map k.setMachine
  else
    (S.pmapProtect k.machine (k.map i).pmap x.start x.endAddr
      (x.protection &&& protectMask ((k.map i).entry first))).map k.setMachine

def protectEntry (x : VmMapEntry) (newProt : VmProt) (setMax : Bool) : VmMapEntry :=
  if setMax then { x with maxProtection := newProt, protection := newProt &&& x.protection }
  else { x with protection := newProt }

/-- The second pass of `vm_map_protect`. -/
def protectRange (S : Services σ) (newProt : VmProt) (setMax : Bool) (first : EntryId) :
    Nat → Kernel σ → MapId → VmOffset → EntryId → Option (Kernel σ)
  | 0, _, _, _, _ => none
  | fuel + 1, k, i, endAddr, current =>
    if current ≠ header ∧ ((k.map i).entry current).start < endAddr then do
      let k ← vmMapClipEnd S k i current endAddr
      let x := (k.map i).entry current
      let k := k.setEntry i current (protectEntry x newProt setMax)
      let k ← protectPhysical S fuel k i x.protection first current
      protectRange S newProt setMax first fuel k i endAddr ((k.map i).next current)
    else some k

def vmMapProtect (S : Services σ) (fuel : Nat) (k : Kernel σ) (i : MapId)
    (start endAddr : VmOffset) (newProt : VmProt) (setMax : Bool) :
    Option (Kernel σ × KernReturn) := do
  let k := lockMap k i
  let r := vmMapRangeCheck (k.map i) start endAddr
  let (k, entry) ← firstInRange S fuel k i r.1
  match ← protectCheck (k.map i) r.2 newProt fuel entry with
  | some why => some (k, why)
  | none =>
    let k ← protectRange S newProt setMax entry fuel k i r.2 entry
    some (k, .success)

def inheritRange (S : Services σ) (newInheritance : VmInherit) :
    Nat → Kernel σ → MapId → VmOffset → EntryId → Option (Kernel σ)
  | 0, _, _, _, _ => none
  | fuel + 1, k, i, endAddr, entry =>
    if entry ≠ header ∧ ((k.map i).entry entry).start < endAddr then do
      let k ← vmMapClipEnd S k i entry endAddr
      let k := k.setEntry i entry { (k.map i).entry entry with inheritance := newInheritance }
      inheritRange S newInheritance fuel k i endAddr ((k.map i).next entry)
    else some k

def vmMapInherit (S : Services σ) (fuel : Nat) (k : Kernel σ) (i : MapId)
    (start endAddr : VmOffset) (newInheritance : VmInherit) : Option (Kernel σ × KernReturn) :=
  match newInheritance with
  | .other _ => some (k, .invalidArgument)
  | _ => do
    let k := lockMap k i
    let r := vmMapRangeCheck (k.map i) start endAddr
    let (k, entry) ← firstInRange S fuel k i r.1
    let k ← inheritRange S newInheritance fuel k i r.2 entry
    some (k, .success)

/-- Whether every entry of the range is wired. -/
def wiredCheck (m : VmMap) (endAddr : VmOffset) : Nat → EntryId → Option Bool
  | 0, _ => none
  | fuel + 1, entry =>
    let x := m.entry entry
    if entry ≠ header ∧ x.start < endAddr then
      if x.wiredCount = 0 then some false else wiredCheck m endAddr fuel (m.next entry)
    else some true

/-- The unwiring loop of `vm_map_pageable`. -/
def unwireEntries (S : Services σ) : Nat → Kernel σ → MapId → VmOffset → EntryId → Option (Kernel σ)
  | 0, _, _, _, _ => none
  | fuel + 1, k, i, endAddr, entry =>
    if entry ≠ header ∧ ((k.map i).entry entry).start < endAddr then do
      let k ← vmMapClipEnd S k i entry endAddr
      let x := (k.map i).entry entry
      let k := k.setEntry i entry { x with wiredCount := x.wiredCount - 1 }
      let k ← (if x.wiredCount - 1 = 0 then vmFaultUnwire S fuel k i entry else some k)
      unwireEntries S fuel k i endAddr ((k.map i).next entry)
    else some k

/-- What wiring an entry for the first time needs the write lock for. -/
def wirePrepare (S : Services σ) (k : Kernel σ) (i : MapId) (entry : EntryId) : Option (Kernel σ) :=
  let x := (k.map i).entry entry
  if x.isAMap then some k
  else if x.needsCopy = true ∧ x.protection &&& protWrite ≠ 0 then shadowEntry S k i entry
  else if x.object = .null then allocateEntry S k i entry
  else some k

/-- The first wiring pass of `vm_map_pageable`, under the write lock. -/
def wireCount (S : Services σ) : Nat → Kernel σ → MapId → VmOffset → EntryId → Option (Kernel σ)
  | 0, _, _, _, _ => none
  | fuel + 1, k, i, endAddr, entry =>
    if entry ≠ header ∧ ((k.map i).entry entry).start < endAddr then do
      let k ← vmMapClipEnd S k i entry endAddr
      let x := (k.map i).entry entry
      let k := k.setEntry i entry { x with wiredCount := x.wiredCount + 1 }
      let k ← (if x.wiredCount + 1 = 1 then wirePrepare S k i entry else some k)
      wireCount S fuel k i endAddr ((k.map i).next entry)
    else some k

/-- The second wiring pass, under a read lock: fault in what is newly wired. -/
def wireFaults (S : Services σ) : Nat → Kernel σ → MapId → VmOffset → EntryId → Option (Kernel σ)
  | 0, _, _, _, _ => none
  | fuel + 1, k, i, endAddr, entry =>
    if entry ≠ header ∧ ((k.map i).entry entry).start < endAddr then do
      let k ← (if ((k.map i).entry entry).wiredCount = 1 then vmFaultWire S fuel k i entry else some k)
      wireFaults S fuel k i endAddr ((k.map i).next entry)
    else some k

def vmMapPageable (S : Services σ) (fuel : Nat) (k : Kernel σ) (i : MapId)
    (start endAddr : VmOffset) (newPageable : Bool) : Option (Kernel σ × KernReturn) := do
  let k := lockMap k i
  let r := vmMapRangeCheck (k.map i) start endAddr
  let (k, entry) ← firstInRange S fuel k i r.1
  if newPageable then
    if ← wiredCheck (k.map i) r.2 fuel entry then
      let k ← unwireEntries S fuel k i r.2 entry
      some (k, .success)
    else some (k, .invalidArgument)
  else
    let k ← wireCount S fuel k i r.2 entry
    let k ← wireFaults S fuel k i r.2 entry
    some (k, .success)

/-- Whether an entry continues the one before it in every respect. -/
def mergeable (m : VmMap) (prevEntry thisEntry : EntryId) (start : VmOffset) : Bool :=
  let p := m.entry prevEntry
  let x := m.entry thisEntry
  prevEntry ≠ header && p.endAddr = start && m.isMainMap &&
    !p.isAMap && !p.isSubMap && !x.isAMap && !x.isSubMap &&
    p.inheritance = x.inheritance && p.protection = x.protection &&
    p.maxProtection = x.maxProtection && p.wiredCount = x.wiredCount &&
    p.copyOnWrite = x.copyOnWrite && p.needsCopy = x.needsCopy && p.object = x.object &&
    p.offset + (p.endAddr - p.start) = x.offset

/-- Merge an entry into the one before it. -/
def mergeEntry (m : VmMap) (prevEntry thisEntry : EntryId) : VmMap :=
  let m := if m.firstFree = thisEntry then { m with firstFree := prevEntry } else m
  let m := vmMapEntryUnlink (m.saveHint prevEntry) thisEntry
  m.setEntry prevEntry { m.entry prevEntry with endAddr := (m.entry thisEntry).endAddr }

def vmMapSimplify (S : Services σ) (fuel : Nat) (k : Kernel σ) (i : MapId) (start : VmOffset) :
    Option (Kernel σ) := do
  let (m, found, thisEntry) ← vmMapLookupEntry fuel (vmMapLock (k.map i)) start
  let prevEntry := m.prev thisEntry
  if found && mergeable m prevEntry thisEntry start then
    let k := k.setMap i (mergeEntry m prevEntry thisEntry)
    (S.objectDeallocate k.machine (m.entry thisEntry).object.vmObject).map k.setMachine
  else some (k.setMap i m)

end MachVM

namespace MachVM

variable {σ : Type}

/-- The entry of a range entered on behalf of `vm_map`. -/
def enteredEntry (old : VmMapEntry) (object : Option ObjId) (offset start endAddr : VmOffset)
    (needsCopy : Bool) (curProtection maxProtection : VmProt) (inheritance : VmInherit) :
    VmMapEntry :=
  { old with
    start := start, endAddr := endAddr, isAMap := false, isSubMap := false
    object := .ofObject object, offset := offset, needsCopy := needsCopy, copyOnWrite := needsCopy
    inheritance := inheritance, protection := curProtection, maxProtection := maxProtection
    wiredCount := 0 }

/-- Where a range goes in a locked map: the entry before it and its start. A wanted address
that is taken or outside the map is an error. -/
def enterPlace (fuel : Nat) (m : VmMap) (start : VmOffset) (size : VmSize) (mask : VmOffset)
    (anywhere : Bool) : Option (VmMap × Except KernReturn (EntryId × VmOffset)) :=
  if anywhere then do
    let (m, first) ← firstPossible fuel m start
    match first with
    | none => some (m, .error .noSpace)
    | some (entry, start) =>
      match ← findSpace m size mask fuel entry start with
      | none => some (m, .error .noSpace)
      | some place => some (m, .ok place)
  else
    let endAddr := start + size
    if start < m.minOffset ∨ m.maxOffset < endAddr ∨ endAddr ≤ start then
      some (m, .error .invalidAddress)
    else do
      let (m, found, entry) ← vmMapLookupEntry fuel m start
      if found then some (m, .error .noSpace)
      else if m.next entry ≠ header ∧ (m.entry (m.next entry)).start < endAddr then
        some (m, .error .noSpace)
      else some (m, .ok (entry, start))

def vmMapEnter (S : Services σ) (fuel : Nat) (k : Kernel σ) (i : MapId) (address : VmOffset)
    (size : VmSize) (mask : VmOffset) (anywhere : Bool) (object : Option ObjId)
    (offset : VmOffset) (needsCopy : Bool) (curProtection maxProtection : VmProt)
    (inheritance : VmInherit) : Option (Kernel σ × VmOffset × KernReturn) :=
  if !anywhere && (address &&& mask ≠ 0) then some (k, address, .noSpace)
  else do
    let k := lockMap k i
    let (m, place) ← enterPlace fuel (k.map i) address size mask anywhere
    let k := k.setMap i m
    match place with
    | .error why => some (k, address, why)
    | .ok (entry, start) =>
      let may := object = none && extendable m entry start inheritance curProtection maxProtection
      let (k, extended) ← coalesceEntry S k may (m.entry entry) (start + size)
      if extended then some (k.setMap i (extendEntry m entry (start + size)), start, .success)
      else
        let linked := linkNewEntry m entry fun old =>
          enteredEntry old object offset start (start + size) needsCopy curProtection maxProtection
            inheritance
        some (k.setMap i (linked.saveHint m.freshEntry), start, .success)

end MachVM

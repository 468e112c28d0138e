import MachVM.MapTypes

namespace MachVM

variable {σ : Type}

/-- An empty map on a piece of zone memory whose other contents are arbitrary. -/
def vmMapCreate (zone : VmMap) (pmap : Option PmapId) (min max : VmOffset) (pageable : Bool) :
    VmMap :=
  { zone with
    next := Function.update zone.next header header
    prev := Function.update zone.prev header header
    entry := Function.update zone.entry header
      { zone.entry header with start := min, endAddr := max }
    freshEntry := header + 1
    nentries := 0
    size := 0
    refCount := 1
    pmap := pmap
    isMainMap := true
    entriesPageable := pageable
    firstFree := header
    hint := header
    timestamp := 0 }

/-- `vm_map_lock`: a writer advances the version number. -/
def vmMapLock (m : VmMap) : VmMap := { m with timestamp := m.timestamp + 1 }

/-- A new entry, with whatever its memory holds. -/
def vmMapEntryCreate (m : VmMap) : VmMap × EntryId :=
  ({ m with freshEntry := m.freshEntry + 1 }, m.freshEntry)

def vmMapEntryLink (m : VmMap) (afterWhere entry : EntryId) : VmMap :=
  { m with
    nentries := m.nentries + 1
    next := Function.update (Function.update m.next entry (m.next afterWhere)) afterWhere entry
    prev := Function.update (Function.update m.prev entry afterWhere) (m.next afterWhere) entry }

def vmMapEntryUnlink (m : VmMap) (entry : EntryId) : VmMap :=
  { m with
    nentries := m.nentries - 1
    prev := Function.update m.prev (m.next entry) (m.prev entry)
    next := Function.update m.next (m.prev entry) (m.next entry) }

/-- The linear search of `vm_map_lookup_entry`, up to but not including `last`. -/
def searchEntry (m : VmMap) (address : VmOffset) (last : EntryId) :
    Nat → EntryId → Option (VmMap × Bool × EntryId)
  | 0, _ => none
  | fuel + 1, cur =>
    if cur = last then some (m.saveHint (m.prev cur), false, m.prev cur)
    else if address < (m.entry cur).endAddr then
      if (m.entry cur).start ≤ address then some (m.saveHint cur, true, cur)
      else some (m.saveHint (m.prev cur), false, m.prev cur)
    else searchEntry m address last fuel (m.next cur)

/-- The entry that contains an address or immediately precedes it, starting from the hint. -/
def vmMapLookupEntry (fuel : Nat) (m : VmMap) (address : VmOffset) :
    Option (VmMap × Bool × EntryId) :=
  let cur := if m.hint = header then m.next m.hint else m.hint
  if (m.entry cur).start ≤ address then
    if cur ≠ header ∧ address < (m.entry cur).endAddr then some (m, true, cur)
    else searchEntry m address header fuel cur
  else searchEntry m address (m.next cur) fuel (m.next header)

def vmMapReference (k : Kernel σ) : Option MapId → Kernel σ
  | none => k
  | some i => k.setMap i { k.map i with refCount := (k.map i).refCount + 1 }

/-- One more reference to what an entry points to. -/
def entryReference (S : Services σ) (k : Kernel σ) (x : VmMapEntry) : Option (Kernel σ) :=
  if x.isAMap || x.isSubMap then some (vmMapReference k x.object.shareMap)
  else (S.objectReference k.machine x.object.vmObject).map k.setMachine

/-- `_vm_map_clip_start`: the front portion becomes a new entry before this one. -/
def clipFront (m : VmMap) (entry : EntryId) (start : VmOffset) : VmMap :=
  let x := m.entry entry
  let (m, new) := vmMapEntryCreate m
  let m := m.setEntry new { x with endAddr := start }
  let m := m.setEntry entry { x with offset := x.offset + (start - x.start), start := start }
  vmMapEntryLink m (m.prev entry) new

/-- `_vm_map_clip_end`: the back portion becomes a new entry after this one. -/
def clipBack (m : VmMap) (entry : EntryId) (endAddr : VmOffset) : VmMap :=
  let x := m.entry entry
  let (m, new) := vmMapEntryCreate m
  let m := m.setEntry new { x with start := endAddr, offset := x.offset + (endAddr - x.start) }
  let m := m.setEntry entry { x with endAddr := endAddr }
  vmMapEntryLink m entry new

def vmMapClipStart (S : Services σ) (k : Kernel σ) (i : MapId) (entry : EntryId)
    (startAddr : VmOffset) : Option (Kernel σ) :=
  let x := (k.map i).entry entry
  if x.start < startAddr then
    entryReference S (k.setMap i (clipFront (k.map i) entry startAddr)) x
  else some k

def vmMapClipEnd (S : Services σ) (k : Kernel σ) (i : MapId) (entry : EntryId)
    (endAddr : VmOffset) : Option (Kernel σ) :=
  let x := (k.map i).entry entry
  if endAddr < x.endAddr then
    entryReference S (k.setMap i (clipBack (k.map i) entry endAddr)) x
  else some k

/-- `VM_MAP_RANGE_CHECK`. A range that lies wholly outside the map collapses to the end
address, which may then lie below the lower bound. -/
def vmMapRangeCheck (m : VmMap) (start endAddr : VmOffset) : VmOffset × VmOffset :=
  let start := if start < m.minOffset then m.minOffset else start
  let endAddr := if m.maxOffset < endAddr then m.maxOffset else endAddr
  (if endAddr < start then endAddr else start, endAddr)

/-- The opening of every range operation: look the start address up and clip there, or go
on from the entry after it. -/
def firstInRange (S : Services σ) (fuel : Nat) (k : Kernel σ) (i : MapId) (start : VmOffset) :
    Option (Kernel σ × EntryId) := do
  let (m, found, entry) ← vmMapLookupEntry fuel (k.map i) start
  let k := k.setMap i m
  if found then
    let k ← vmMapClipStart S k i entry start
    some (k, entry)
  else some (k, m.next entry)

end MachVM

namespace MachVM

variable {σ : Type}

/-- The entry a new range is linked in as. On a sharing map the fields of a task map entry
keep what the zone memory held. -/
def newMapEntry (m : VmMap) (old : VmMapEntry) (object : Option ObjId) (offset start endAddr : VmOffset) :
    VmMapEntry :=
  let x := { old with
    start := start, endAddr := endAddr, isAMap := false, isSubMap := false
    object := .ofObject object, offset := offset, copyOnWrite := false, needsCopy := false }
  if m.isMainMap then
    { x with inheritance := inheritDefault, protection := protDefault, maxProtection := protDefault, wiredCount := 0 }
  else x

/-- Link a filled-in new entry after another one and keep the free space hint. -/
def linkNewEntry (m : VmMap) (prevEntry : EntryId) (fill : VmMapEntry → VmMapEntry) : VmMap :=
  let (m, new) := vmMapEntryCreate m
  let x := fill (m.entry new)
  let m := vmMapEntryLink (m.setEntry new x) prevEntry new
  let m := { m with size := m.size + (x.endAddr - x.start) }
  if m.firstFree = prevEntry ∧ x.start ≤ (m.entry prevEntry).endAddr then
    { m with firstFree := new }
  else m

/-- Whether the entry before a new null range may be extended over it. -/
def extendable (m : VmMap) (prevEntry : EntryId) (start : VmOffset) (inheritance : VmInherit)
    (prot maxProt : VmProt) : Bool :=
  let p := m.entry prevEntry
  prevEntry ≠ header && p.endAddr = start && !p.isAMap && !p.isSubMap &&
    p.inheritance = inheritance && p.protection = prot && p.maxProtection = maxProt && p.wiredCount = 0

def extendEntry (m : VmMap) (prevEntry : EntryId) (endAddr : VmOffset) : VmMap :=
  let p := m.entry prevEntry
  { m.setEntry prevEntry { p with endAddr := endAddr } with
    size := m.size + (endAddr - p.endAddr) }

/-- Try `vm_object_coalesce` on the entry before a new range, when it may be extended. -/
def coalesceEntry (S : Services σ) (k : Kernel σ) (may : Bool) (x : VmMapEntry)
    (endAddr : VmOffset) : Option (Kernel σ × Bool) :=
  if may then
    (S.objectCoalesce k.machine x.object.vmObject none x.offset 0 (x.endAddr - x.start)
      (endAddr - x.endAddr)).map fun r => (k.setMachine r.1, r.2)
  else some (k, false)

def vmMapInsert (S : Services σ) (fuel : Nat) (k : Kernel σ) (i : MapId) (object : Option ObjId)
    (offset start endAddr : VmOffset) : Option (Kernel σ × KernReturn) :=
  if start < (k.map i).minOffset ∨ (k.map i).maxOffset < endAddr ∨ endAddr ≤ start then
    some (k, .invalidAddress)
  else do
    let (m, found, prevEntry) ← vmMapLookupEntry fuel (k.map i) start
    let k := k.setMap i m
    if found then some (k, .noSpace)
    else if m.next prevEntry ≠ header ∧ (m.entry (m.next prevEntry)).start < endAddr then
      some (k, .noSpace)
    else
      let may := object = none && m.isMainMap &&
        extendable m prevEntry start inheritDefault protDefault protDefault
      let (k, extended) ← coalesceEntry S k may (m.entry prevEntry) endAddr
      if extended then some (k.setMap i (extendEntry m prevEntry endAddr), .success)
      else
        some (k.setMap i (linkNewEntry m prevEntry fun old =>
          newMapEntry m old object offset start endAddr), .success)

/-- First fit from an address: the entry always precedes the proposed region. -/
def findSpace (m : VmMap) (length mask : VmOffset) :
    Nat → EntryId → VmOffset → Option (Option (EntryId × VmOffset))
  | 0, _, _ => none
  | fuel + 1, entry, start =>
    let start := (start + mask) &&& ~~~mask
    let endAddr := start + length
    if m.maxOffset < endAddr ∨ endAddr < start then some none
    else
      let next := m.next entry
      if next = header then some (some (entry, start))
      else if endAddr ≤ (m.entry next).start then some (some (entry, start))
      else findSpace m length mask fuel next (m.entry next).endAddr

/-- The first possible address at or after a wanted one, with the entry before it; none
when it lies beyond the map. -/
def firstPossible (fuel : Nat) (m : VmMap) (start : VmOffset) :
    Option (VmMap × Option (EntryId × VmOffset)) :=
  let start := if start < m.minOffset then m.minOffset else start
  if m.maxOffset < start then some (m, none)
  else if start = m.minOffset then
    some (m, some (m.firstFree,
      if m.firstFree ≠ header then (m.entry m.firstFree).endAddr else start))
  else
    (vmMapLookupEntry fuel m start).map fun r =>
      (r.1, some (r.2.2, if r.2.1 then (r.1.entry r.2.2).endAddr else start))

/-- Enter an object in a map, anywhere at or after the address when `space` asks for it. -/
def vmMapFind (S : Services σ) (fuel : Nat) (k : Kernel σ) (i : MapId) (object : Option ObjId)
    (offset addr : VmOffset) (length : VmSize) (space : Bool) :
    Option (Kernel σ × VmOffset × KernReturn) := do
  let m := vmMapLock (k.map i)
  if space then
    let (m, first) ← firstPossible fuel m addr
    match first with
    | none => some (k.setMap i m, addr, .noSpace)
    | some (entry, start) =>
      match ← findSpace m length 0 fuel entry start with
      | none => some (k.setMap i m, addr, .noSpace)
      | some (entry, start) =>
        let (k, result) ← vmMapInsert S fuel (k.setMap i (m.saveHint entry)) i object offset start
          (start + length)
        some (k, start, result)
  else
    let (k, result) ← vmMapInsert S fuel (k.setMap i m) i object offset addr (addr + length)
    some (k, addr, result)

end MachVM

namespace MachVM

variable {σ : Type}

/-- The version numbers a lookup was made under. The second one is only written for a
sharing map. -/
structure MapVersion where
  mainTimestamp : BitVec 32
  shareMap : MapId
  shareTimestamp : Option (BitVec 32)

structure LookupResult where
  object : Option ObjId
  offset : VmOffset
  prot : VmProt
  wired : Bool
  singleUse : Bool
  version : MapVersion

/-- One pass through `vm_map_lookup` either ends it or starts it again, perhaps on a
subordinate map and with the fault type of a wired entry. -/
inductive LookupOutcome
  | again (i : MapId) (faultType : VmProt)
  | failed (why : KernReturn)
  | found (r : LookupResult)

/-- The entry of an address: the hint, when the address lies in it, or a full lookup. -/
def lookupHint (fuel : Nat) (m : VmMap) (vaddr : VmOffset) : Option (VmMap × Option EntryId) :=
  let x := m.entry m.hint
  if m.hint = header ∨ vaddr < x.start ∨ x.endAddr ≤ vaddr then
    (vmMapLookupEntry fuel m vaddr).map fun r => (r.1, if r.2.1 then some r.2.2 else none)
  else some (m, some m.hint)

/-- `vm_map_lock_read_to_write`: the version number advances when the upgrade is granted. -/
def lockUpgrade (S : Services σ) (k : Kernel σ) (i : MapId) : Option (Kernel σ × Bool) :=
  (S.lockReadToWrite k.machine i).map fun r =>
    let k := k.setMachine r.1
    if r.2 then (k, false) else (k.setMap i (vmMapLock (k.map i)), true)

/-- The object of an entry is replaced by a shadow of it. -/
def shadowEntry (S : Services σ) (k : Kernel σ) (i : MapId) (entry : EntryId) : Option (Kernel σ) :=
  let x := (k.map i).entry entry
  (S.objectShadow k.machine x.object.vmObject x.offset (x.endAddr - x.start)).map fun r =>
    (k.setMachine r.1).setEntry i entry
      { x with object := .object r.2.1, offset := r.2.2, needsCopy := false }

/-- An entry without an object gets one of its own size. -/
def allocateEntry (S : Services σ) (k : Kernel σ) (i : MapId) (entry : EntryId) :
    Option (Kernel σ) :=
  let x := (k.map i).entry entry
  (S.objectAllocate k.machine (x.endAddr - x.start)).map fun r =>
    (k.setMachine r.1).setEntry i entry { x with object := .object r.2, offset := 0 }

/-- A write to an entry marked `needs_copy` shadows its object, with a second advance of the
version number; any other access loses write permission. No protection means the upgrade
failed. -/
def needsCopyPass (S : Services σ) (k : Kernel σ) (j : MapId) (entry : EntryId)
    (faultType prot : VmProt) : Option (Kernel σ × Option VmProt) :=
  if ((k.map j).entry entry).needsCopy then
    if faultType &&& protWrite ≠ 0 then do
      let (k, granted) ← lockUpgrade S k j
      if granted then
        let k := k.setMap j (vmMapLock (k.map j))
        let k ← shadowEntry S k j entry
        some (k, some prot)
      else some (k, none)
    else some (k, some (prot &&& ~~~protWrite))
  else some (k, some prot)

/-- An object is created for an entry that has none. -/
def nullObjectPass (S : Services σ) (k : Kernel σ) (j : MapId) (entry : EntryId) :
    Option (Kernel σ × Bool) :=
  if ((k.map j).entry entry).object = .null then do
    let (k, granted) ← lockUpgrade S k j
    if granted then
      let k ← allocateEntry S k j entry
      some (k, true)
    else some (k, false)
  else some (k, true)

/-- The rest of a pass, once the entry that holds the object is known: map `j` is the map
`i` itself or the sharing map behind its entry. -/
def lookupObject (S : Services σ) (k : Kernel σ) (i j : MapId) (entry : EntryId)
    (shareOffset : VmOffset) (faultType prot : VmProt) (wired shared : Bool) :
    Option (Kernel σ × LookupOutcome) := do
  let (k, prot) ← needsCopyPass S k j entry faultType prot
  match prot with
  | none => some (k, .again i faultType)
  | some prot =>
    let (k, granted) ← nullObjectPass S k j entry
    if granted then
      let x := (k.map j).entry entry
      some (k, .found
        { object := x.object.vmObject
          offset := (shareOffset - x.start) + x.offset
          prot := prot
          wired := wired
          singleUse := !shared || (k.map j).refCount = 1
          version :=
            { mainTimestamp := (k.map i).stamp
              shareMap := j
              shareTimestamp := if j ≠ i then some (k.map j).stamp else none } })
    else some (k, .again i faultType)

/-- One pass through `vm_map_lookup`. -/
def lookupPass (S : Services σ) (fuel : Nat) (k : Kernel σ) (i : MapId) (vaddr : VmOffset)
    (faultType : VmProt) : Option (Kernel σ × LookupOutcome) := do
  let (m, hit) ← lookupHint fuel (k.map i) vaddr
  let k := k.setMap i m
  match hit with
  | none => some (k, .failed .invalidAddress)
  | some entry =>
    let x := m.entry entry
    if x.isSubMap then
      let j ← x.object.shareMap
      some (k, .again j faultType)
    else if faultType &&& x.protection ≠ faultType then some (k, .failed .protectionFailure)
    else
      let wired : Bool := x.wiredCount ≠ 0
      let faultType := if wired then x.protection else faultType
      if x.isAMap then
        let j ← x.object.shareMap
        let shareOffset := (vaddr - x.start) + x.offset
        let (n, found, shareEntry) ← vmMapLookupEntry fuel (k.map j) shareOffset
        let k := k.setMap j n
        if found then lookupObject S k i j shareEntry shareOffset faultType x.protection wired true
        else some (k, .failed .invalidAddress)
      else lookupObject S k i i entry vaddr faultType x.protection wired false

/-- The map the address was found in is part of the answer: it may be a subordinate one. -/
def vmMapLookup (S : Services σ) :
    Nat → Kernel σ → MapId → VmOffset → VmProt →
      Option (Kernel σ × MapId × Except KernReturn LookupResult)
  | 0, _, _, _, _ => none
  | fuel + 1, k, i, vaddr, faultType => do
    let (k, out) ← lookupPass S fuel k i vaddr faultType
    match out with
    | .again j faultType => vmMapLookup S fuel k j vaddr faultType
    | .failed why => some (k, i, .error why)
    | .found r => some (k, i, .ok r)

def vmMapVerify (k : Kernel σ) (i : MapId) (version : MapVersion) : Bool :=
  (k.map i).stamp = version.mainTimestamp &&
    (version.shareMap = i || some (k.map version.shareMap).stamp = version.shareTimestamp)

/-- What a fault ends with: an answer for the caller, or another turn on the given map. -/
inductive FaultOutcome
  | again (i : MapId) (faultType : VmProt)
  | done (kr : KernReturn)

/-- `vm_fault` after a page was found: verify the version, looking the address up again for
as long as the maps have changed, and enter the page. -/
def vmFaultEnter (S : Services σ) :
    Nat → Kernel σ → MapId → VmOffset → VmProt → Bool → LookupResult → PageId → VmProt →
      Option (Kernel σ × FaultOutcome)
  | 0, _, _, _, _, _, _, _, _ => none
  | fuel + 1, k, i, vaddr, faultType, changeWiring, r, page, prot =>
    if vmMapVerify k i r.version then
      let prot := if S.copyObjectChanged k.machine page then prot &&& ~~~protWrite else prot
      if r.wired && prot ≠ faultType then do
        let s ← S.faultRelease k.machine page r.object
        some (k.setMachine s, .again i faultType)
      else do
        let s ← S.faultEnter k.machine (k.map i).pmap vaddr page prot r.wired changeWiring r.object
        some (k.setMachine s, .done .success)
    else do
      let (k, i, retry) ← vmMapLookup S fuel k i vaddr (faultType &&& ~~~protWrite)
      match retry with
      | .error why =>
        let s ← S.faultRelease k.machine page r.object
        some (k.setMachine s, .done why)
      | .ok t =>
        if t.object ≠ r.object ∨ t.offset ≠ r.offset then
          let s ← S.faultRelease k.machine page r.object
          some (k.setMachine s, .again i faultType)
        else
          vmFaultEnter S fuel k i vaddr faultType changeWiring
            { r with wired := t.wired, version := t.version } page (prot &&& t.prot)

def vmFault (S : Services σ) :
    Nat → Kernel σ → MapId → VmOffset → VmProt → Bool → Option (Kernel σ × KernReturn)
  | 0, _, _, _, _, _ => none
  | fuel + 1, k, i, vaddr, faultType, changeWiring => do
    let (k, i, found) ← vmMapLookup S fuel k i vaddr faultType
    match found with
    | .error why => some (k, why)
    | .ok r =>
      let faultType := if r.wired then r.prot else faultType
      let (s, result) ← S.faultPage k.machine r.object r.offset faultType
        (changeWiring && !r.wired) (!changeWiring) r.prot
      let k := k.setMachine s
      match result with
      | .retry | .memoryShortage => vmFault S fuel k i vaddr faultType changeWiring
      | .interrupted => some (k, .success)
      | .memoryError => some (k, .memoryError)
      | .success page prot =>
        let (k, out) ← vmFaultEnter S fuel k i vaddr faultType changeWiring r page prot
        match out with
        | .again i faultType => vmFault S fuel k i vaddr faultType changeWiring
        | .done kr => some (k, kr)

/-- Only an entry that points directly to an object is wired the fast way. -/
def vmFaultWireFast (S : Services σ) (k : Kernel σ) (i : MapId) (va : VmOffset) (entry : EntryId) :
    Option (Kernel σ × KernReturn) :=
  let x := (k.map i).entry entry
  if x.isAMap || x.isSubMap then some (k, .failure)
  else (S.faultWireFast k.machine (k.map i).pmap va x).map fun r => (k.setMachine r.1, r.2)

/-- One page of `vm_fault_wire`. -/
def wirePage (S : Services σ) (fuel : Nat) (k : Kernel σ) (i : MapId) (entry : EntryId)
    (va : VmOffset) : Option (Kernel σ) := do
  let (k, kr) ← vmFaultWireFast S k i va entry
  if kr = .success then some k else (vmFault S fuel k i va protNone true).map (·.1)

/-- The loop of `vm_fault_wire`; the address wraps when the entry ends in the last page. -/
def wireRange (S : Services σ) :
    Nat → Kernel σ → MapId → EntryId → VmOffset → VmOffset → Option (Kernel σ)
  | 0, _, _, _, _, _ => none
  | fuel + 1, k, i, entry, endAddr, va =>
    if va < endAddr then do
      let k ← wirePage S fuel k i entry va
      wireRange S fuel k i entry endAddr (va + pageSize)
    else some k

def vmFaultWire (S : Services σ) (fuel : Nat) (k : Kernel σ) (i : MapId) (entry : EntryId) :
    Option (Kernel σ) := do
  let x := (k.map i).entry entry
  let s ← S.pmapPageable k.machine (k.map i).pmap x.start x.endAddr false
  wireRange S fuel (k.setMachine s) i entry x.endAddr x.start

/-- One page of `vm_fault_unwire`: without an object the fault handler looks it up. -/
def unwirePage (S : Services σ) (fuel : Nat) (k : Kernel σ) (i : MapId) (entry : EntryId)
    (object : Option ObjId) (va : VmOffset) : Option (Kernel σ) := do
  let s ← S.pmapChangeWiring k.machine (k.map i).pmap va false
  let k := k.setMachine s
  match object with
  | none => (vmFault S fuel k i va protNone true).map (·.1)
  | some o =>
    let x := (k.map i).entry entry
    (S.faultUnwirePage k.machine (some o) (x.offset + (va - x.start))).map k.setMachine

/-- The loop of `vm_fault_unwire`. -/
def unwireRange (S : Services σ) :
    Nat → Kernel σ → MapId → EntryId → Option ObjId → VmOffset → VmOffset → Option (Kernel σ)
  | 0, _, _, _, _, _, _ => none
  | fuel + 1, k, i, entry, object, endAddr, va =>
    if va < endAddr then do
      let k ← unwirePage S fuel k i entry object va
      unwireRange S fuel k i entry object endAddr (va + pageSize)
    else some k

def vmFaultUnwire (S : Services σ) (fuel : Nat) (k : Kernel σ) (i : MapId) (entry : EntryId) :
    Option (Kernel σ) := do
  let x := (k.map i).entry entry
  let object := if x.isAMap || x.isSubMap then none else x.object.vmObject
  let k ← unwireRange S fuel k i entry object x.endAddr x.start
  let s ← S.pmapPageable k.machine (k.map i).pmap ((k.map i).entry entry).start x.endAddr true
  some (k.setMachine s)

end MachVM

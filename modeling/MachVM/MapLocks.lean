import MachVM.MapTypes
import Mathlib.Algebra.Ring.Int.Defs

namespace MachVM
namespace MapLocks

/-- What a thread does to the locks of maps, in order. A refused upgrade takes the read lock away;
`destroyed` gives the lock up with the map. -/
inductive LockEvent
  | lock (m : MapId)
  | lockRead (m : MapId)
  | unlock (m : MapId)
  | upgraded (m : MapId)
  | upgradeLost (m : MapId)
  | downgrade (m : MapId)
  | setRecursive (m : MapId)
  | clearRecursive (m : MapId)
  | destroyed (m : MapId)
  deriving DecidableEq, Repr

/-- The locks of a map that an event takes, less those it gives up. -/
def LockEvent.change (m : MapId) : LockEvent → Int
  | .lock n | .lockRead n => if n = m then 1 else 0
  | .unlock n | .upgradeLost n | .destroyed n => if n = m then -1 else 0
  | _ => 0

attribute [local simp] LockEvent.change

def held (m : MapId) (tr : List LockEvent) : Int := (tr.map (LockEvent.change m)).sum

/-- One run after the other, if both come to their end. -/
def andThen (r r' : Option (List LockEvent)) : Option (List LockEvent) :=
  r.bind fun tr => r'.map fun tr' => tr ++ tr'

/-- `vm_map_lock_read_to_write`. -/
def readToWrite (m : MapId) (granted : Bool) : List LockEvent :=
  if granted then [.upgraded m] else [.upgradeLost m]

/-- What one pass of `vm_map_lookup` finds. The share map is that of an entry with `is_a_map`; the
last two are the answers to the upgrades that a write to a `needs_copy` entry and a null object
ask for. -/
structure LookupSeen where
  found : Bool := true
  subMap : Option MapId := none
  permitted : Bool := true
  shareMap : Option MapId := none
  shareFound : Bool := true
  needsCopy : Option Bool := none
  nullObject : Option Bool := none

/-- The map that was found is the one the version is about, with the sharing map if the entry leads
to one: `share_map != map` holds exactly then. -/
inductive LookupEnd
  | failed
  | again (map : MapId)
  | found (map : MapId) (share : Option MapId)

def unlockShare (share : Option MapId) : List LockEvent := (share.map LockEvent.unlock).toList

/-- An upgrade of the map with the object. When it is refused the other map is let go too. -/
def upgradePass (map : MapId) (share : Option MapId) : Option Bool → List LockEvent × Bool
  | none => ([], true)
  | some true => ([.upgraded (share.getD map), .downgrade (share.getD map)], true)
  | some false => (.upgradeLost (share.getD map) :: if share.isSome then [.unlock map] else [], false)

/-- The rest of a pass, once the entry with the object is known. -/
def lookupObject (map : MapId) (x : LookupSeen) : List LockEvent × LookupEnd :=
  let copy := upgradePass map x.shareMap x.needsCopy
  if copy.2 then
    let null := upgradePass map x.shareMap x.nullObject
    if null.2 then
      (copy.1 ++ null.1 ++ unlockShare x.shareMap ++ [.unlock map], .found map x.shareMap)
    else (copy.1 ++ null.1, .again map)
  else (copy.1, .again map)

def lookupPass (map : MapId) (x : LookupSeen) : List LockEvent × LookupEnd :=
  if !x.found then ([.lockRead map, .unlock map], .failed)
  else
    match x.subMap with
    | some sub => ([.lockRead map, .unlock map], .again sub)
    | none =>
      if !x.permitted then ([.lockRead map, .unlock map], .failed)
      else
        match x.shareMap with
        | none =>
          let r := lookupObject map x
          (.lockRead map :: r.1, r.2)
        | some share =>
          if !x.shareFound then ([.lockRead map, .lockRead share, .unlock share, .unlock map], .failed)
          else
            let r := lookupObject map x
            (.lockRead map :: .lockRead share :: r.1, r.2)

/-- A lookup that has not ended with the passes given is none. -/
def vmMapLookup (map : MapId) : List LookupSeen → Option (List LockEvent × LookupEnd)
  | [] => none
  | x :: xs =>
    match lookupPass map x with
    | (tr, .again map) => (vmMapLookup map xs).map fun r => (tr ++ r.1, r.2)
    | r => some r

/-- How `vm_map_verify` finds the two version numbers, and what the lookup after it does when they
are not the same. `moved` is that the lookup gives another object or offset. -/
structure VerifySeen where
  mainSame : Bool := true
  shareSame : Bool := true
  lookup : List LookupSeen := []
  moved : Bool := false

def vmMapVerify (map : MapId) (share : Option MapId) (v : VerifySeen) : List LockEvent × Bool :=
  if v.mainSame then
    match share with
    | none => ([.lockRead map], true)
    | some s =>
      if v.shareSame then ([.lockRead map, .lockRead s], true)
      else ([.lockRead map, .lockRead s, .unlock s, .unlock map], false)
  else ([.lockRead map, .unlock map], false)

def vmMapVerifyDone (map : MapId) (share : Option MapId) : List LockEvent :=
  unlockShare share ++ [.unlock map]

inductive VerifyEnd
  | verified (map : MapId) (share : Option MapId)
  | failed
  | moved (map : MapId)

/-- The loop of `vm_fault` around `vm_map_verify`. -/
def verifyLoop (map : MapId) (share : Option MapId) : List VerifySeen → Option (List LockEvent × VerifyEnd)
  | [] => none
  | v :: vs =>
    let r := vmMapVerify map share v
    if r.2 then some (r.1, .verified map share)
    else
      (vmMapLookup map v.lookup).bind fun
        | (tr, .found map share) =>
          if v.moved then some (r.1 ++ tr, .moved map)
          else (verifyLoop map share vs).map fun q => (r.1 ++ tr ++ q.1, q.2)
        | (tr, _) => some (r.1 ++ tr, .failed)

inductive PageEnd
  | success
  | retry
  | interrupted
  | memoryShortage
  | memoryError
  deriving DecidableEq

/-- One round of `vm_fault`, from `RetryFault` on. `lacking` is that the page is to be wired and the
permissions for it are gone: `vm_fault` goes back without `vm_map_verify_done`. -/
structure FaultSeen where
  lookup : List LookupSeen
  page : PageEnd := .success
  verify : List VerifySeen := []
  lacking : Bool := false

def vmFault (map : MapId) : List FaultSeen → Option (List LockEvent)
  | [] => none
  | x :: xs =>
    (vmMapLookup map x.lookup).bind fun
      | (tr, .found map share) =>
        match x.page with
        | .interrupted | .memoryError => some tr
        | .retry | .memoryShortage => (vmFault map xs).map fun tr' => tr ++ tr'
        | .success =>
          (verifyLoop map share x.verify).bind fun
            | (tr', .failed) => some (tr ++ tr')
            | (tr', .moved map) => (vmFault map xs).map fun tr'' => tr ++ tr' ++ tr''
            | (tr', .verified map share) =>
              if x.lacking then (vmFault map xs).map fun tr'' => tr ++ tr' ++ tr''
              else some (tr ++ tr' ++ vmMapVerifyDone map share)
      | (tr, _) => some tr

/-- `vm_fault_wire`: the pages of an entry, those that `vm_fault_wire_fast` does not handle with
their rounds. -/
def vmFaultWire (map : MapId) : List (Option (List FaultSeen)) → Option (List LockEvent)
  | [] => some []
  | none :: ps => vmFaultWire map ps
  | some rounds :: ps => andThen (vmFault map rounds) (vmFaultWire map ps)

/-- `vm_fault_unwire` of an entry without an object: the rounds of each page. -/
def vmFaultUnwire (map : MapId) : List (List FaultSeen) → Option (List LockEvent)
  | [] => some []
  | rounds :: ps =>
    andThen (andThen (some [.setRecursive map])
      (andThen (vmFault map rounds) (some [.clearRecursive map]))) (vmFaultUnwire map ps)

/-- An entry that goes away: the pages to be unwired through the map, and what it leads to. A
sharing map or subordinate map that loses its last reference goes away with its entries. -/
inductive DeadEntry
  | object (pages : List (List FaultSeen))
  | map (pages : List (List FaultSeen)) (child : MapId)
  | lastMap (pages : List (List FaultSeen)) (child : MapId) (inside : List DeadEntry)

mutual

/-- One turn of `vm_map_delete`. The last reference to a map is given up in `vm_map_deallocate`,
which locks the map and frees it locked. -/
def deleteEntry (map : MapId) : DeadEntry → Option (List LockEvent)
  | .object pages => vmFaultUnwire map pages
  | .map pages _ => vmFaultUnwire map pages
  | .lastMap pages child inside =>
    andThen (vmFaultUnwire map pages)
      (andThen (some [.lock child]) (andThen (vmMapDelete child inside) (some [.destroyed child])))

def vmMapDelete (map : MapId) : List DeadEntry → Option (List LockEvent)
  | [] => some []
  | e :: es => andThen (deleteEntry map e) (vmMapDelete map es)

end

/-- `vm_map_find`, with the ways its search can fail. -/
def vmMapFind (map : MapId) (findSpace beyondMax noRoom : Bool) : List LockEvent :=
  if findSpace && beyondMax then [.lock map, .unlock map]
  else if findSpace && noRoom then [.lock map, .unlock map]
  else [.lock map, .unlock map]

/-- `vm_map_enter`: an address that violates the mask is refused before the map is locked. -/
def vmMapEnter (map : MapId) (anywhere violatesMask : Bool) : List LockEvent :=
  if anywhere then [.lock map, .unlock map]
  else if violatesMask then []
  else [.lock map, .unlock map]

def vmMapSubmap (map : MapId) : List LockEvent := [.lock map, .unlock map]

/-- How the first pass of `vm_map_protect` ends. -/
inductive CheckEnd
  | subMap
  | refused
  | allowed
  deriving DecidableEq

/-- The first pass of `vm_map_protect` over the entries in the range. -/
def checkProtect (newProt : VmProt) : List VmMapEntry → CheckEnd
  | [] => .allowed
  | x :: xs =>
    if x.isSubMap then .subMap
    else if newProt &&& x.maxProtection ≠ newProt then .refused
    else checkProtect newProt xs

/-- The second pass. A sharing map is locked while the physical map is changed. -/
def protectEntry (newProt : VmProt) (setMax : Bool) (x : VmMapEntry) : List LockEvent :=
  let protection := if setMax then newProt &&& x.protection else newProt
  if protection ≠ x.protection ∧ x.isAMap then
    match x.object.shareMap with
    | some share => [.lock share, .unlock share]
    | none => []
  else []

/-- `vm_map_protect`, with the entries in the range. It returns on a subordinate map at once. -/
def vmMapProtect (map : MapId) (entries : List VmMapEntry) (newProt : VmProt) (setMax : Bool) :
    List LockEvent :=
  match checkProtect newProt entries with
  | .subMap => [.lock map]
  | .refused => [.lock map, .unlock map]
  | .allowed => .lock map :: entries.flatMap (protectEntry newProt setMax) ++ [.unlock map]

def vmMapInherit (map : MapId) (known : Bool) : List LockEvent :=
  if known then [.lock map, .unlock map] else []

/-- `vm_map_pageable` makes pageable, with the pages that `vm_fault_unwire` looks up for each entry;
none if some entry is not wired. -/
def vmMapUnwire (map : MapId) : Option (List (List (List FaultSeen))) → Option (List LockEvent)
  | none => some [.lock map, .unlock map]
  | some entries =>
    andThen (some [.lock map])
      (andThen (entries.foldr (fun pages r => andThen (vmFaultUnwire map pages) r) (some []))
        (some [.unlock map]))

/-- `vm_map_pageable` wires, with the pages of the entries that are wired for the first time. -/
def vmMapWire (map : MapId) (entries : List (List (Option (List FaultSeen)))) : Option (List LockEvent) :=
  andThen (some [.lock map, .setRecursive map, .downgrade map])
    (andThen (entries.foldr (fun pages r => andThen (vmFaultWire map pages) r) (some []))
      (some [.clearRecursive map, .unlock map]))

def vmMapRemove (map : MapId) (entries : List DeadEntry) : Option (List LockEvent) :=
  andThen (some [.lock map]) (andThen (vmMapDelete map entries) (some [.unlock map]))

/-- Two maps are locked in the order of their addresses, one map once. -/
def lockMaps (src dst : MapId) : List LockEvent :=
  if src = dst then [.lock src]
  else if src < dst then [.lock src, .lock dst]
  else [.lock dst, .lock src]

def unlockMaps (src dst : MapId) : List LockEvent :=
  .unlock src :: if src ≠ dst then [.unlock dst] else []

mutual

/-- What `vm_map_copy` meets: a range that wraps, a failed check or a null copy, or pairs of
matching entries; and the entries of a source to be destroyed. -/
inductive CopySeen
  | wraps
  | stopped (destroy : Option (List DeadEntry))
  | copied (pairs : List PairSeen) (destroy : Option (List DeadEntry))

/-- Two matching entries: both lead to objects, with the pages of the destination to be unwired, or
at least one leads to a sharing map. The region of a destination sharing map is replaced. -/
inductive PairSeen
  | objects (pages : List (List FaultSeen))
  | shared (srcShare dstShare : Option MapId) (replaced : List DeadEntry) (inner : CopySeen)

end

/-- The region of a destination sharing map that is not the source is replaced by a null one. -/
def replaceRegion (newSrc : MapId) (dstShare : Option MapId) (replaced : List DeadEntry) :
    Option (List LockEvent) :=
  match dstShare with
  | none => some []
  | some d =>
    if d ≠ newSrc then andThen (some [.lock d]) (andThen (vmMapDelete d replaced) (some [.unlock d]))
    else some []

def setRecursiveIf (map : MapId) (share : Option MapId) : List LockEvent :=
  if share.isNone then [.setRecursive map] else []

def clearRecursiveIf (map newMap : MapId) : List LockEvent :=
  if map = newMap then [.clearRecursive map] else []

def destroySource (src : MapId) : Option (List DeadEntry) → Option (List LockEvent)
  | none => some []
  | some es => vmMapDelete src es

mutual

def vmMapCopy (dst src : MapId) : CopySeen → Option (List LockEvent)
  | .wraps => some []
  | .stopped destroy =>
    andThen (some (lockMaps src dst)) (andThen (destroySource src destroy) (some (unlockMaps src dst)))
  | .copied pairs destroy =>
    andThen (some (lockMaps src dst))
      (andThen (andThen (copyPairs dst src pairs) (destroySource src destroy)) (some (unlockMaps src dst)))

/-- One turn of the loop of `vm_map_copy`. -/
def copyPair (dst src : MapId) : PairSeen → Option (List LockEvent)
  | .objects pages => vmFaultUnwire dst pages
  | .shared srcShare dstShare replaced inner =>
    let newSrc := srcShare.getD src
    let newDst := dstShare.getD dst
    andThen (some (setRecursiveIf src srcShare))
      (andThen (replaceRegion newSrc dstShare replaced)
        (andThen (some (setRecursiveIf dst dstShare))
          (andThen (vmMapCopy newDst newSrc inner)
            (some (clearRecursiveIf dst newDst ++ clearRecursiveIf src newSrc)))))

def copyPairs (dst src : MapId) : List PairSeen → Option (List LockEvent)
  | [] => some []
  | p :: ps => andThen (copyPair dst src p) (copyPairs dst src ps)

end

/-- An entry of a map that is forked: nothing is copied, or its sharing map or its object is. A
subordinate map is a panic. -/
inductive ForkSeen
  | none
  | share
  | copyShared (share : MapId) (copy : CopySeen)
  | copyObject (pages : List (List FaultSeen))

def forkEntry (new : MapId) : ForkSeen → Option (List LockEvent)
  | .none => some []
  | .share => some []
  | .copyShared share copy => vmMapCopy new share copy
  | .copyObject pages => vmFaultUnwire new pages

def vmMapFork (old new : MapId) (entries : List ForkSeen) : Option (List LockEvent) :=
  andThen (some [.lock old])
    (andThen (entries.foldr (fun e r => andThen (forkEntry new e) r) (some [])) (some [.unlock old]))

/-- What `vm_region` meets: no map, no entry at or behind the address, or an entry with or without
a sharing map. -/
inductive RegionSeen
  | noMap
  | noEntry
  | entry (share : Option MapId)

def vmRegion (map : MapId) : RegionSeen → List LockEvent
  | .noMap => []
  | .noEntry => [.lockRead map, .unlock map]
  | .entry none => [.lockRead map, .unlock map]
  | .entry (some share) => [.lockRead map, .lockRead share, .unlock share, .unlock map]

def vmMapSimplify (map : MapId) : List LockEvent := [.lock map, .unlock map]

/-- A call of one of the routines of the map module, with what it meets. -/
inductive MapCall
  | find (map : MapId) (findSpace beyondMax noRoom : Bool)
  | enter (map : MapId) (anywhere violatesMask : Bool)
  | submap (map : MapId)
  | protect (map : MapId) (entries : List VmMapEntry) (newProt : VmProt) (setMax : Bool)
  | inherit (map : MapId) (known : Bool)
  | unwire (map : MapId) (entries : Option (List (List (List FaultSeen))))
  | wire (map : MapId) (entries : List (List (Option (List FaultSeen))))
  | remove (map : MapId) (entries : List DeadEntry)
  | copy (dst src : MapId) (seen : CopySeen)
  | fork (old new : MapId) (entries : List ForkSeen)
  | lookup (map : MapId) (passes : List LookupSeen)
  | region (map : MapId) (seen : RegionSeen)
  | simplify (map : MapId)

/-- What a call does to the locks, if it returns. -/
def MapCall.run : MapCall → Option (List LockEvent)
  | .find map findSpace beyondMax noRoom => some (vmMapFind map findSpace beyondMax noRoom)
  | .enter map anywhere violatesMask => some (vmMapEnter map anywhere violatesMask)
  | .submap map => some (vmMapSubmap map)
  | .protect map entries newProt setMax => some (vmMapProtect map entries newProt setMax)
  | .inherit map known => some (vmMapInherit map known)
  | .unwire map entries => vmMapUnwire map entries
  | .wire map entries => vmMapWire map entries
  | .remove map entries => vmMapRemove map entries
  | .copy dst src seen => vmMapCopy dst src seen
  | .fork old new entries => vmMapFork old new entries
  | .lookup map passes => (vmMapLookup map passes).map (·.1)
  | .region map seen => some (vmRegion map seen)
  | .simplify map => some (vmMapSimplify map)

/-- A call of `vm_map_protect` that comes to a subordinate map before an entry whose maximum
protection it exceeds. -/
def MapCall.meetsSubMap : MapCall → Prop
  | .protect _ entries newProt _ => ∃ l₁ x l₂, entries = l₁ ++ x :: l₂ ∧ x.isSubMap = true ∧
      ∀ y ∈ l₁, newProt &&& y.maxProtection = newProt
  | _ => False

/-- A round that is reached goes back from a lookup that was verified. -/
def faultGoesBack (map : MapId) : List FaultSeen → Bool
  | [] => false
  | x :: xs =>
    match vmMapLookup map x.lookup with
    | some (_, .found map share) =>
      match x.page with
      | .interrupted | .memoryError => false
      | .retry | .memoryShortage => faultGoesBack map xs
      | .success =>
        match verifyLoop map share x.verify with
        | some (_, .moved map) => faultGoesBack map xs
        | some (_, .verified _ _) => x.lacking
        | _ => false
    | _ => false

mutual

def entryGoesBack (map : MapId) : DeadEntry → Bool
  | .object pages => pages.any (faultGoesBack map)
  | .map pages _ => pages.any (faultGoesBack map)
  | .lastMap pages child inside => pages.any (faultGoesBack map) || deleteGoesBack child inside

def deleteGoesBack (map : MapId) : List DeadEntry → Bool
  | [] => false
  | e :: es => entryGoesBack map e || deleteGoesBack map es

end

def replaceGoesBack (newSrc : MapId) (dstShare : Option MapId) (replaced : List DeadEntry) : Bool :=
  dstShare.any fun d => d ≠ newSrc && deleteGoesBack d replaced

mutual

def copyGoesBack (dst src : MapId) : CopySeen → Bool
  | .wraps => false
  | .stopped destroy => destroy.any (deleteGoesBack src)
  | .copied pairs destroy => pairsGoBack dst src pairs || destroy.any (deleteGoesBack src)

def pairGoesBack (dst src : MapId) : PairSeen → Bool
  | .objects pages => pages.any (faultGoesBack dst)
  | .shared srcShare dstShare replaced inner =>
    replaceGoesBack (srcShare.getD src) dstShare replaced ||
      copyGoesBack (dstShare.getD dst) (srcShare.getD src) inner

def pairsGoBack (dst src : MapId) : List PairSeen → Bool
  | [] => false
  | p :: ps => pairGoesBack dst src p || pairsGoBack dst src ps

end

def forkGoesBack (new : MapId) : ForkSeen → Bool
  | .copyShared share copy => copyGoesBack new share copy
  | .copyObject pages => pages.any (faultGoesBack new)
  | _ => false

/-- A `vm_fault` made for the call goes back from a verified lookup. -/
def MapCall.goesBack : MapCall → Bool
  | .unwire map entries => entries.any fun es => es.any fun pages => pages.any (faultGoesBack map)
  | .wire map entries => entries.any fun pages => pages.any fun p => p.any (faultGoesBack map)
  | .remove map entries => deleteGoesBack map entries
  | .copy dst src seen => copyGoesBack dst src seen
  | .fork _ new entries => entries.any (forkGoesBack new)
  | _ => false

end MapLocks
end MachVM

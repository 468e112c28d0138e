import MachVM.Lib.Outcome
import Mathlib.Logic.Function.Basic
import Mathlib.Algebra.GroupWithZero.Nat

namespace MachVM.Builtin.PagingFile

open Machine

abbrev PfId := Nat

abbrev IstructId := Nat

/-- `struct pager_file`. `pfBmap` is the map bit by bit. -/
structure PagerFile where
  pfNpgs : Nat
  pfPfree : Int
  pfCount : Int
  pfBmap : Nat → Bool

/-- The entry of a page map: a page of the paging file, or -1. -/
abbrev Slot := Option Nat

/-- `pmap`, with the entries themselves or with leaves of them, of which those that are NULL are `none`. -/
inductive PageMap
  | direct (slots : List Slot)
  | indirect (leaves : List (Option (List Slot)))
  deriving DecidableEq

/-- `struct istruct`, as far as paging files go. -/
structure Istruct where
  size : Nat
  pfInfo : PfId
  pmap : PageMap

/-- `live` are the structures there are, and `kmem` the sizes of the arrays that have been allocated for page maps and
not been freed. -/
structure State where
  pagerFile : PfId → PagerFile
  istruct : IstructId → Istruct
  live : List IstructId
  kmem : List Nat

/-- A step that is not possible, a panic, the use of a variable without a value, an index outside an array, and memory
freed with another size. -/
inductive Fault
  | disabled
  | panic
  | unset
  | outOfRange
  | badFree
  deriving DecidableEq

/-- `B_READ` and `B_WRITE`. -/
inductive Flag
  | read
  | write
  deriving DecidableEq

def bytemask (bmap : Nat → Bool) (bp : Nat) : Bool := (List.range 8).all fun i => bmap (bp * 8 + i)

def howmany (x y : Nat) : Nat := (x + (y - 1)) / y

def pagemapThreshold : Nat := 512

def pagemapEntries : Nat := pagemapThreshold / 4

def pagemapSize (npgs : Nat) : Nat := npgs * 4

def indirectPagemapEntries (npgs : Nat) : Nat := (npgs - 1) / pagemapEntries + 1

def indirectPagemapSize (npgs : Nat) : Nat := indirectPagemapEntries npgs * 4

/-- `INDIRECT_PAGEMAP`. -/
def indirectPagemap (size : Nat) : Bool := pagemapThreshold < pagemapSize size

/-- `pf_allocate_page`, with `none` for -1. -/
def pfAllocatePage (pf : PagerFile) : Except Fault (Option Nat × PagerFile) :=
  if pf.pfPfree = 0 then .ok (none, pf)
  else
    match (List.range (howmany pf.pfNpgs 8)).find? fun bp => !bytemask pf.pfBmap bp with
    | none => .error .unset
    | some bp =>
      let i := ((List.range 8).find? fun i => !pf.pfBmap (bp * 8 + i)).getD 8
      if pf.pfNpgs < bp * 8 + i then .error .panic
      else .ok (some (bp * 8 + i), { pf with
        pfBmap := Function.update pf.pfBmap (bp * 8 + i) true
        pfPfree := pf.pfPfree - 1 })

def pfDeallocatePage (pf : PagerFile) (page : Nat) : Except Fault PagerFile :=
  if pf.pfNpgs < page then .error .panic
  else .ok { pf with pfBmap := Function.update pf.pfBmap page false, pfPfree := pf.pfPfree + 1 }

/-- `kfree` of an array of so many entries. -/
def kfree (kmem : List Nat) (entries size : Nat) : Except Fault (List Nat) :=
  if entries * 4 = size ∧ size ∈ kmem then .ok (kmem.erase size) else .error .badFree

/-- `pf_pager_create`. Without memory for the page map there is no structure. -/
def pfPagerCreate (pageSize : Nat) (s : State) (is : IstructId) (pf : PfId) (size : Nat) (kalloc : Bool) : State :=
  let npgs := size / pageSize
  if !kalloc then s
  else
    let pmap : PageMap :=
      if indirectPagemap npgs then .indirect (List.replicate (indirectPagemapEntries npgs) none)
      else .direct (List.replicate npgs none)
    let bytes := if indirectPagemap npgs then indirectPagemapSize npgs else pagemapSize npgs
    { pagerFile := Function.update s.pagerFile pf
        { s.pagerFile pf with pfCount := (s.pagerFile pf).pfCount + 1 }
      istruct := Function.update s.istruct is { size := npgs, pfInfo := pf, pmap }
      live := is :: s.live
      kmem := bytes :: s.kmem }

/-- The end of both branches of `pf_bmap`: what is in the entry afterwards. -/
def pageSlot (pf : PagerFile) (slot : Slot) (flag : Flag) : Except Fault (Slot × PagerFile) :=
  match slot with
  | some page => .ok (some page, pf)
  | none => if flag = .read then .ok (none, pf) else pfAllocatePage pf

/-- The start of the indirect branch of `pf_bmap`: the leaf, which may have to be made. -/
def pageLeaf (s : State) (leaf : Option (List Slot)) (flag : Flag) (kalloc : Bool) : Option (List Slot × State) :=
  match leaf with
  | some slots => some (slots, s)
  | none =>
    if flag = .read then none
    else if !kalloc then none
    else some (List.replicate pagemapEntries none, { s with kmem := pagemapThreshold :: s.kmem })

def State.setPmap (s : State) (is : IstructId) (pmap : PageMap) : State :=
  { s with istruct := Function.update s.istruct is { s.istruct is with pmap } }

def State.setPagerFile (s : State) (pf : PfId) (x : PagerFile) : State :=
  { s with pagerFile := Function.update s.pagerFile pf x }

/-- `pf_bmap`, with `none` for -1. -/
def pfBmap (pageSize : Nat) (s : State) (is : IstructId) (fOffset : Nat) (flag : Flag) (kalloc : Bool) :
    Except Fault (Option Nat × State) :=
  let x := s.istruct is
  let fPage := fOffset / pageSize
  let newoffset := fun page => fOffset % pageSize + page * pageSize
  if x.size < fPage then .ok (none, s)
  else
    match x.pmap with
    | .indirect leaves =>
      match leaves[fPage / pagemapEntries]? with
      | none => .error .outOfRange
      | some leaf =>
        match pageLeaf s leaf flag kalloc with
        | none => .ok (none, s)
        | some (slots, s) =>
          match slots[fPage % pagemapEntries]? with
          | none => .error .outOfRange
          | some slot => (pageSlot (s.pagerFile x.pfInfo) slot flag).map fun r =>
            let slots := slots.set (fPage % pagemapEntries) r.1
            (r.1.map newoffset,
              (s.setPagerFile x.pfInfo r.2).setPmap is (.indirect (leaves.set (fPage / pagemapEntries) (some slots))))
    | .direct slots =>
      match slots[fPage]? with
      | none => .error .outOfRange
      | some slot => (pageSlot (s.pagerFile x.pfInfo) slot flag).map fun r =>
        (r.1.map newoffset, (s.setPagerFile x.pfInfo r.2).setPmap is (.direct (slots.set fPage r.1)))

def deallocateSlot (pf : PagerFile) : Slot → Except Fault PagerFile
  | some page => pfDeallocatePage pf page
  | none => .ok pf

/-- The entries of an array that a loop up to a bound sees. -/
def entries {α : Type} (l : List α) (n : Nat) : Except Fault (List α) :=
  if n ≤ l.length then .ok (l.take n) else .error .outOfRange

/-- The turn of the loop of `pf_dealloc` for one leaf. -/
def deallocateLeaf (r : PagerFile × List Nat) : Option (List Slot) → Except Fault (PagerFile × List Nat)
  | some leaf => do
    let slots ← entries leaf pagemapEntries
    let pf ← visit deallocateSlot r.1 slots
    let kmem ← kfree r.2 leaf.length pagemapThreshold
    .ok (pf, kmem)
  | none => .ok r

/-- The two branches of `pf_dealloc`. -/
def deallocatePmap (size : Nat) (r : PagerFile × List Nat) : PageMap → Except Fault (PagerFile × List Nat)
  | .indirect pmap => do
    let leaves ← entries pmap (indirectPagemapEntries size)
    let r ← visit deallocateLeaf r leaves
    let kmem ← kfree r.2 pmap.length (indirectPagemapSize size)
    .ok (r.1, kmem)
  | .direct pmap => do
    let slots ← entries pmap size
    let pf ← visit deallocateSlot r.1 slots
    let kmem ← kfree r.2 pmap.length (pagemapSize size)
    .ok (pf, kmem)

def pfDealloc (s : State) (is : IstructId) : Except Fault State := do
  let x := s.istruct is
  let r ← deallocatePmap x.size (s.pagerFile x.pfInfo, s.kmem) x.pmap
  .ok {
    pagerFile := Function.update s.pagerFile x.pfInfo { r.1 with pfCount := r.1.pfCount - 1 }
    istruct := s.istruct
    live := s.live.erase is
    kmem := r.2 }

inductive Action
  | pfPagerCreate (is : IstructId) (pf : PfId) (size : Nat) (kalloc : Bool)
  | pfBmap (is : IstructId) (fOffset : Nat) (flag : Flag) (kalloc : Bool)
  | pfDealloc (is : IstructId)

/-- The value `kalloc` says whether there is memory if it is asked for. -/
def step (pageSize : Nat) (s : State) : Action → Except Fault State
  | .pfPagerCreate is pf size kalloc =>
    if is ∈ s.live then .error .disabled else .ok (pfPagerCreate pageSize s is pf size kalloc)
  | .pfBmap is fOffset flag kalloc =>
    if is ∈ s.live then (pfBmap pageSize s is fOffset flag kalloc).map Prod.snd else .error .disabled
  | .pfDealloc is => if is ∈ s.live then pfDealloc s is else .error .disabled

end MachVM.Builtin.PagingFile

namespace MachVM.Builtin.PagingFile

/-- The bytes of a page. -/
abbrev PageData (pageSize : Nat) := Fin pageSize → UInt8

/-- What a data request is answered with. -/
inductive Reply (pageSize : Nat)
  | dataProvided (data : PageData pageSize)
  | dataUnavailable
  | dataError

/-- An answer, with the bytes of the last `memory_object_data_write` for the page at that time. -/
structure Answer (pageSize : Nat) where
  pager : IstructId
  page : Nat
  last : Option (PageData pageSize)
  reply : Reply pageSize

/-- The default pager. `disk` is what is in the paging files, byte by byte. The fields from `made` on are history: the
objects that have been made, the last writes that have come in and the answers that have gone out. -/
structure Pager (pageSize : Nat) where
  space : State
  disk : PfId → Nat → UInt8
  errors : IstructId → Int
  dataRequestQueue : List (IstructId × Nat)
  made : List IstructId
  written : IstructId → Nat → Option (PageData pageSize)
  answers : List (Answer pageSize)

variable {pageSize : Nat}

/-- `inode_read` of a page. -/
def inodeRead (disk : Nat → UInt8) (offset : Nat) : PageData pageSize := fun i => disk (offset + i)

/-- `inode_write` of a page. -/
def inodeWrite (disk : Nat → UInt8) (offset : Nat) (data : PageData pageSize) : Nat → UInt8 := fun o =>
  if h : offset ≤ o ∧ o - offset < pageSize then data ⟨o - offset, h.2⟩ else disk o

/-- `is_page_read`, with `none` for EINVAL. -/
def isPageRead (s : Pager pageSize) (is : IstructId) (offset : Nat) :
    Except Fault (Option (PageData pageSize) × Pager pageSize) :=
  (pfBmap pageSize s.space is offset .read false).map fun r =>
    (r.1.map fun actual => inodeRead (s.disk (s.space.istruct is).pfInfo) actual, { s with space := r.2 })

/-- `is_page_write`. -/
def isPageWrite (s : Pager pageSize) (is : IstructId) (offset : Nat) (data : PageData pageSize) (kalloc : Bool) :
    Except Fault (Pager pageSize) :=
  (pfBmap pageSize s.space is offset .write kalloc).map fun r =>
    let s := { s with space := r.2 }
    match r.1 with
    | none => s
    | some actual =>
      let f := (s.space.istruct is).pfInfo
      { s with disk := Function.update s.disk f (inodeWrite (s.disk f) actual data) }

/-- `inode_pager_timeout`. -/
def inodePagerTimeout (s : Pager pageSize) : Except Fault (Pager pageSize) :=
  match s.dataRequestQueue with
  | [] => .ok s
  | (is, page) :: rest =>
    let s := { s with dataRequestQueue := rest }
    let answer := fun (s : Pager pageSize) reply =>
      { s with answers := s.answers ++ [⟨is, page, s.written is page, reply⟩] }
    if is ∉ s.space.live then .ok s
    else if s.errors is ≠ 0 then .ok (answer s .dataError)
    else (isPageRead s is (page * pageSize)).map fun r =>
      match r.1 with
      | some data => answer r.2 (.dataProvided data)
      | none => answer r.2 .dataUnavailable

inductive DataAction (pageSize : Nat)
  | pfAlloc (is : IstructId) (f : PfId) (size : Nat) (kalloc : Bool)
  | dataWrite (is : IstructId) (page : Nat) (data : PageData pageSize) (kalloc : Bool)
  | dataRequest (is : IstructId) (page : Nat)
  | timeout
  | terminate (is : IstructId)

/-- One turn of the loop of `memory_object_data_write`, or another entry. The name of an object is not used again. -/
def dataStep (s : Pager pageSize) : DataAction pageSize → Except Fault (Pager pageSize)
  | .pfAlloc is f size kalloc =>
    if is ∈ s.made then .error .disabled
    else .ok { s with
      space := pfPagerCreate pageSize s.space is f size kalloc
      errors := Function.update s.errors is 0
      made := is :: s.made }
  | .dataWrite is page data kalloc =>
    if is ∈ s.space.live then
      isPageWrite { s with written := Function.update s.written is (Function.update (s.written is) page (some data)) }
        is (page * pageSize) data kalloc
    else .error .disabled
  | .dataRequest is page => .ok { s with dataRequestQueue := s.dataRequestQueue ++ [(is, page)] }
  | .timeout => inodePagerTimeout s
  | .terminate is =>
    if is ∈ s.space.live then (pfDealloc s.space is).map fun space => { s with space } else .error .disabled

end MachVM.Builtin.PagingFile

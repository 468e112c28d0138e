import MachVM.Lib.Index
import MachVM.Lib.Outcome
import MachVM.Types

namespace MachVM.I386

open Machine

/-- Addresses are counted in pages, virtual and physical. -/
abbrev Va := Nat

abbrev Frame := Nat

abbrev PmapId := Nat

abbrev ThreadId := Nat

def kernelPmap : PmapId := 0

inductive PteProt
  | noAccess
  | krw
  | ur
  | uw
  deriving DecidableEq, Repr

/-- `pt_entry_t`, of a page table. -/
structure Pte where
  valid : Bool := false
  prot : PteProt := .noAccess
  ref : Bool := false
  modify : Bool := false
  wired : Bool := false
  swValid : Bool := false
  pfn : Frame := 0
  deriving DecidableEq, Repr

/-- A valid entry of a page directory, with the page table in its frame. -/
structure Pde where
  pfn : Frame
  table : Nat → Pte

/-- `NPTES`. -/
def nptes : Nat := 1024

def pdenum (va : Va) : Nat := va / nptes

def ptenum (va : Va) : Nat := va % nptes

structure Pmap where
  refCount : Nat
  cr3 : Nat → Option Pde

/-- The head of a `pv_list` with the elements behind it. A head without a pmap ends the list. -/
structure PvHead where
  pmap : Option PmapId
  va : Va
  next : List (PmapId × Va)
  null_next : pmap = none → next = []

def PvHead.elems (h : PvHead) : List (PmapId × Va) :=
  match h.pmap with
  | none => []
  | some p => (p, h.va) :: h.next

/-- The next element is copied to the head, as the head cannot be freed. -/
def PvHead.copyNext (h : PvHead) : PvHead :=
  match h.next with
  | [] => ⟨none, h.va, [], fun _ => rfl⟩
  | cur :: rest => ⟨some cur.1, cur.2, rest, by simp⟩

/-- The bits `PHYS_MODIFIED` and `PHYS_REFERENCED`, of an attribute byte or of a mask. -/
structure PhysAttributes where
  modified : Bool := false
  referenced : Bool := false
  deriving DecidableEq, Repr

namespace PhysAttributes

def or (a b : PhysAttributes) : PhysAttributes := ⟨a.modified || b.modified, a.referenced || b.referenced⟩

def clear (a clr : PhysAttributes) : PhysAttributes :=
  ⟨a.modified && !clr.modified, a.referenced && !clr.referenced⟩

/-- `(a & check) == check`. -/
def has (a check : PhysAttributes) : Bool :=
  (!check.modified || a.modified) && (!check.referenced || a.referenced)

end PhysAttributes

/-- `*pte & PHYS_ATTRIBUTES`. -/
def Pte.attributes (pte : Pte) : PhysAttributes := ⟨pte.modify, pte.ref⟩

/-- `*pte &= ~clr`. -/
def Pte.clear (pte : Pte) (clr : PhysAttributes) : Pte :=
  { pte with modify := pte.modify && !clr.modified, ref := pte.ref && !clr.referenced }

/-- Where a `pmap_enter` is between two sections: before `Retry`, in `pmap_expand`, or in `zalloc`. -/
inductive Phase
  | retry
  | expand
  | allocate
  deriving DecidableEq, Repr

/-- A `pmap_enter` that has not returned. `pvE` is set once it has an element of its own. -/
structure Enter where
  pmap : PmapId
  v : Va
  pa : Frame
  prot : VmProt
  wired : Bool
  pvE : Bool
  phase : Phase
  deriving DecidableEq, Repr

/-- The operations that let their locks go: `next` is the directory entry a loop is at. -/
inductive Op
  | enter (e : Enter)
  | collect (pmap : PmapId) (next : Nat)
  | destroy (pmap : PmapId) (next : Nat)
  deriving DecidableEq, Repr

def Op.pmap : Op → PmapId
  | .enter e => e.pmap
  | .collect p _ => p
  | .destroy p _ => p

/-- What the history keeps: the writes to a page and each `pmap_clear_modify` of it, with whether the page
had no mapping then. -/
inductive Event
  | wrote (f : Frame)
  | cleared (f : Frame) (unmapped : Bool)
  deriving DecidableEq, Repr

/-- The bounds of the managed pages, of the kernel's part of an address space and of the mappings that the
kernel pmap has from the start. -/
structure Layout where
  vmFirstPhys : Frame
  vmLastPhys : Frame
  minKernel : Va
  virtualAvail : Va
  first_pos : 0 < vmFirstPhys

structure State where
  layout : Layout
  pmaps : PmapId → Option Pmap
  pvHeadTable : Frame → PvHead
  physAttributes : Frame → PhysAttributes
  ops : ThreadId → Option Op
  history : List Event

inductive Panic
  | pteMissingFromKernel
  | nullPvList
  | mappingNotInPvList
  | pteInvalid
  | pteWrongPage
  | removingWired
  | copyOnWriteInvalidPte
  | wiringPteMissing
  | systemPageTableTooSmall
  | collectKernel
  | ptePageNotMapped
  | noPtTable
  | nullPte
  deriving DecidableEq, Repr

namespace State

variable (s : State)

def managedPhys (pa : Frame) : Bool := decide (s.layout.vmFirstPhys ≤ pa) && decide (pa < s.layout.vmLastPhys)

def pmapPte (p : PmapId) (va : Va) : Option Pte := do
  let m ← s.pmaps p
  let d ← m.cr3 (pdenum va)
  return d.table (ptenum va)

/-- `kvtophys`. -/
def kvtophys (va : Va) : Frame :=
  match s.pmapPte kernelPmap va with
  | none => 0
  | some pte => pte.pfn

def setPmap (p : PmapId) (m : Option Pmap) : State := { s with pmaps := Function.update s.pmaps p m }

/-- `map->cr3[i] = ...`. -/
def setPde (p : PmapId) (i : Nat) (d : Option Pde) : State :=
  s.setPmap p <| (s.pmaps p).map fun m => { m with cr3 := Function.update m.cr3 i d }

/-- `*pte = ...`, of the entry that `pmap_pte` gives. -/
def writePte (p : PmapId) (va : Va) (pte : Pte) : State :=
  s.setPmap p <| (s.pmaps p).map fun m =>
    { m with cr3 := Function.update m.cr3 (pdenum va) <|
        (m.cr3 (pdenum va)).map fun d => { d with table := Function.update d.table (ptenum va) pte } }

def setPvHead (f : Frame) (h : PvHead) : State := { s with pvHeadTable := Function.update s.pvHeadTable f h }

def setAttributes (f : Frame) (a : PhysAttributes) : State :=
  { s with physAttributes := Function.update s.physAttributes f a }

def setOp (t : ThreadId) (op : Option Op) : State := { s with ops := Function.update s.ops t op }

def note (e : Event) : State := { s with history := e :: s.history }

def pvList (f : Frame) : List (PmapId × Va) := (s.pvHeadTable f).elems

def refCount (p : PmapId) : Option Nat := (s.pmaps p).map Pmap.refCount

end State

/-- `user_protection_codes`, and `kernel_protection_codes` without `CHIPBUG`. -/
def protectionCode (prot : VmProt) : PteProt :=
  if prot &&& protWrite != 0 then .uw
  else if prot &&& (protRead ||| protExecute) != 0 then .ur
  else .noAccess

def i386Protection (p : PmapId) (prot : VmProt) (valid : Bool) (pte : Pte) : Pte :=
  { pte with
    prot := protectionCode prot
    swValid := valid
    valid := if p = kernelPmap then valid && prot &&& protWrite == protWrite else valid }

/-- The part of `pmap_remove_range` that takes an element off its list. -/
def pvRemove (h : PvHead) (p : PmapId) (va : Va) : Except Panic PvHead :=
  if h.pmap = none then .error .nullPvList
  else if h.pmap = some p ∧ h.va = va then .ok h.copyNext
  else if (p, va) ∈ h.next then
    .ok ⟨h.pmap, h.va, h.next.erase (p, va), fun hn => by simp [h.null_next hn]⟩
  else .error .mappingNotInPvList

/-- `if (pte->modify) phys_attributes[pai] = PHYS_MODIFIED`. -/
def reflectModify (s : State) (pte : Pte) : State :=
  if pte.modify then s.setAttributes pte.pfn { modified := true } else s

section Sections

variable (s : State)

/-- One page of `pmap_remove_range`. An unmanaged frame stays in its entry. -/
def removePte (p : PmapId) (va : Va) : Except Panic State :=
  match s.pmapPte p va with
  | none => if p = kernelPmap then .error .pteMissingFromKernel else .ok s
  | some pte =>
    if pte.pfn = 0 then .ok s
    else if !s.managedPhys pte.pfn then .ok s
    else
      pvRemove (s.pvHeadTable pte.pfn) p va >>= fun h =>
        .ok (((reflectModify s pte).writePte p va {}).setPvHead pte.pfn h)

/-- `pmap_remove_range`, of `n` pages. -/
def pmapRemoveRange (p : PmapId) (va : Va) (n : Nat) : Except Panic State :=
  sweep (fun r va => removePte r p va) s va n

/-- One turn of the loop of `pmap_remove_all`, for a list that is not empty. -/
def removeHead (f : Frame) (p : PmapId) : Except Panic State :=
  let h := s.pvHeadTable f
  match s.pmapPte p h.va with
  | none => .error .nullPte
  | some pte =>
    if !pte.swValid then .error .pteInvalid
    else if pte.pfn ≠ f then .error .pteWrongPage
    else if pte.wired then .error .removingWired
    else .ok (((reflectModify s pte).writePte p h.va {}).setPvHead f h.copyNext)

/-- The loop has as many turns as the list has elements. -/
def removeAllLoop (f : Frame) (s : State) : Nat → Except Panic State
  | 0 => .ok s
  | n + 1 =>
    match (s.pvHeadTable f).pmap with
    | none => .ok s
    | some p => removeHead s f p >>= fun r => removeAllLoop f r n

def pmapRemoveAll (f : Frame) : Except Panic State :=
  if s.managedPhys f then removeAllLoop f s (s.pvList f).length else .ok s

/-- One element of the list of `pmap_copy_on_write`. -/
def copyOnWriteElem (x : PmapId × Va) : Except Panic State :=
  match s.pmapPte x.1 x.2 with
  | none => .error .copyOnWriteInvalidPte
  | some pte =>
    if !pte.swValid then .error .copyOnWriteInvalidPte
    else if pte.prot = .uw then .ok (s.writePte x.1 x.2 (i386Protection x.1 protRead pte.swValid pte))
    else .ok s

def pmapCopyOnWrite (f : Frame) : Except Panic State := visit copyOnWriteElem s (s.pvList f)

def pmapPageProtect (f : Frame) (prot : VmProt) : Except Panic State :=
  if prot = protRead ∨ prot = protRead ||| protExecute then pmapCopyOnWrite s f
  else if prot = protAll then .ok s
  else pmapRemoveAll s f

/-- One page of `pmap_protect`. -/
def protectPte (p : PmapId) (prot : VmProt) (va : Va) : Except Panic State :=
  match s.pmapPte p va with
  | none => if p = kernelPmap then .error .pteMissingFromKernel else .ok s
  | some pte => if pte.swValid then .ok (s.writePte p va (i386Protection p prot pte.swValid pte)) else .ok s

def pmapProtect (p : PmapId) (va : Va) (n : Nat) (prot : VmProt) : Except Panic State :=
  sweep (fun r va => protectPte r p prot va) s va n

def pmapChangeWiring (p : PmapId) (va : Va) (wired : Bool) : Except Panic State :=
  match s.pmapPte p va with
  | none => .error .wiringPteMissing
  | some pte => .ok (s.writePte p va { pte with wired := wired })

/-- The entry that `pmap_enter` builds for its page. -/
def Enter.template (e : Enter) : Pte := { i386Protection e.pmap e.prot true {} with pfn := e.pa, wired := e.wired }

/-- The page gets the mapping in its list: in the head, or behind it in an element of the caller's. `none`
means that there is no element yet. -/
def pvEnter (e : Enter) : Option State :=
  if !s.managedPhys e.pa then some s
  else
    let h := s.pvHeadTable e.pa
    match hp : h.pmap with
    | none => some (s.setPvHead e.pa ⟨some e.pmap, e.v, [], by simp⟩)
    | some _ =>
      if e.pvE then some (s.setPvHead e.pa ⟨h.pmap, h.va, (e.pmap, e.v) :: h.next, by simp [hp]⟩) else none

/-- `pmap_enter` from `Retry` to where it lets its lock go. It comes with what is left to do. -/
def pmapEnter (e : Enter) : Except Panic (State × Option Enter) :=
  match s.pmapPte e.pmap e.v with
  | none => .ok (s, some { e with phase := .expand })
  | some pte =>
    if pte.pfn = e.pa then .ok (s.writePte e.pmap e.v { e.template with modify := pte.modify }, none)
    else
      (if pte.pfn ≠ 0 then pmapRemoveRange s e.pmap e.v 1 else .ok s) >>= fun r =>
        match pvEnter r e with
        | none => .ok (r, some { e with phase := .allocate })
        | some q => .ok (q.writePte e.pmap e.v e.template, none)

/-- `pmap_expand`, from the page that `kmem_alloc` gave it on. -/
def pmapExpand (p : PmapId) (va : Va) (page : Option Va) : Except Panic State :=
  if p = kernelPmap then .error .systemPageTableTooSmall
  else
    match page with
    | none => .ok s
    | some kv =>
      if s.pmapPte p va ≠ none then .ok s
      else .ok (s.setPde p (pdenum va) (some ⟨s.kvtophys kv, fun _ => {}⟩))

/-- The loops of `pmap_collect` and `pmap_destroy` look for the kernel's mapping of a page table. -/
def ptePageMapped (d : Pde) : Bool := (s.pvList d.pfn).any fun x => x.1 == kernelPmap

/-- `pmap_collect` at one directory entry, with the lock held. -/
def collectPde (p : PmapId) (i : Nat) : Except Panic State :=
  match (s.pmaps p).bind fun m => m.cr3 i with
  | none => .ok s
  | some d =>
    if !ptePageMapped s d then .error .ptePageNotMapped
    else if (List.range nptes).any fun k => (d.table k).wired then .ok s
    else pmapRemoveRange s p (i * nptes) nptes >>= fun r => .ok (r.setPde p i none)

/-- The loop of `pmap_destroy` at one directory entry. -/
def destroyPde (p : PmapId) (i : Nat) : Except Panic State :=
  match (s.pmaps p).bind fun m => m.cr3 i with
  | none => .ok s
  | some d => if ptePageMapped s d then .ok s else .error .noPtTable

def pmapVerifyFree (f : Frame) : Bool := s.managedPhys f && (s.pvHeadTable f).pmap.isNone

/-- The walk of `update_phys_attributes` down a list. -/
def updateWalk (f : Frame) (check clr : PhysAttributes) (s : State) :
    List (PmapId × Va) → Except Panic (State × Bool)
  | [] =>
    let a := (s.physAttributes f).clear clr
    .ok (s.setAttributes f a, a.has check)
  | x :: xs =>
    match s.pmapPte x.1 x.2 with
    | none => .error .nullPte
    | some pte =>
      let a := (s.physAttributes f).or pte.attributes
      let r := s.setAttributes f a
      if clr = {} then
        if a.has check then .ok (r, true) else updateWalk f check clr r xs
      else updateWalk f check clr (r.writePte x.1 x.2 (pte.clear clr)) xs

def updatePhysAttributes (f : Frame) (check clr : PhysAttributes) : Except Panic (State × Bool) :=
  if clr = {} ∧ (s.physAttributes f).has check then .ok (s, true)
  else updateWalk f check clr s (s.pvList f)

def pmapClearModify (f : Frame) : Except Panic State :=
  if s.managedPhys f then
    updatePhysAttributes s f {} { modified := true } >>= fun r =>
      .ok (r.1.note (.cleared f (s.pvList f).isEmpty))
  else .ok s

def pmapIsModified (f : Frame) : Except Panic (State × Bool) :=
  if s.managedPhys f then updatePhysAttributes s f { modified := true } {} else .ok (s, false)

def pmapClearReference (f : Frame) : Except Panic State :=
  if s.managedPhys f then updatePhysAttributes s f {} { referenced := true } >>= fun r => .ok r.1 else .ok s

def pmapIsReferenced (f : Frame) : Except Panic (State × Bool) :=
  if s.managedPhys f then updatePhysAttributes s f { referenced := true } {} else .ok (s, false)

/-- The processor reads through an entry. -/
def processorRead (p : PmapId) (va : Va) (pte : Pte) : State := s.writePte p va { pte with ref := true }

/-- The processor writes through an entry, to its frame. -/
def processorWrite (p : PmapId) (va : Va) (pte : Pte) : State :=
  (s.writePte p va { pte with ref := true, modify := true }).note (.wrote pte.pfn)

def pmapCreate (p : PmapId) : State := s.setPmap p (some ⟨1, fun _ => none⟩)

/-- `pmap_destroy` and `pmap_reference` up to the test of the count. -/
def setRefCount (p : PmapId) (c : Nat) : State := s.setPmap p <| (s.pmaps p).map fun m => { m with refCount := c }

end Sections

/-- What starts an operation, or lets one in progress go on to its next section: `page` is what `kmem_alloc`
gives to a `pmap_expand`. A processor access is a supervisor's or a user's. -/
inductive Action
  | create (p : PmapId)
  | reference (p : PmapId)
  | destroy (t : ThreadId) (p : PmapId)
  | enter (t : ThreadId) (p : PmapId) (v : Va) (pa : Frame) (prot : VmProt) (wired : Bool)
  | remove (p : PmapId) (va : Va) (n : Nat)
  | removeAll (f : Frame)
  | copyOnWrite (f : Frame)
  | pageProtect (f : Frame) (prot : VmProt)
  | protect (p : PmapId) (va : Va) (n : Nat) (prot : VmProt)
  | changeWiring (p : PmapId) (va : Va) (wired : Bool)
  | collect (t : ThreadId) (p : PmapId)
  | clearModify (f : Frame)
  | isModified (f : Frame)
  | clearReference (f : Frame)
  | isReferenced (f : Frame)
  | read (p : PmapId) (va : Va)
  | write (p : PmapId) (va : Va) (supervisor : Bool)
  | proceed (t : ThreadId) (page : Option Va)
  deriving DecidableEq, Repr

/-- The next section of an operation in progress. -/
def proceed (s : State) (t : ThreadId) (page : Option Va) : Op → Except Panic State
  | .enter e =>
    match e.phase with
    | .retry => pmapEnter s e >>= fun r => .ok (r.1.setOp t (r.2.map .enter))
    | .expand => pmapExpand s e.pmap e.v page >>= fun r => .ok (r.setOp t (some (.enter { e with phase := .retry })))
    | .allocate => .ok (s.setOp t (some (.enter { e with pvE := true, phase := .retry })))
  | .collect p i =>
    if i < pdenum s.layout.minKernel then
      collectPde s p i >>= fun r => .ok (r.setOp t (some (.collect p (i + 1))))
    else .ok (s.setOp t none)
  | .destroy p i =>
    if i < pdenum s.layout.minKernel then
      destroyPde s p i >>= fun r => .ok (r.setOp t (some (.destroy p (i + 1))))
    else .ok ((s.setPmap p none).setOp t none)

/-- A step of the system. An action without an operation or an entry to work on changes nothing. -/
def step (s : State) : Action → Except Panic State
  | .create p => .ok (pmapCreate s p)
  | .reference p => .ok (setRefCount s p ((s.refCount p).getD 0 + 1))
  | .destroy t p =>
    let c := (s.refCount p).getD 0 - 1
    let r := setRefCount s p c
    .ok (if c = 0 then r.setOp t (some (.destroy p 0)) else r)
  | .enter t p v pa prot wired =>
    .ok (s.setOp t (some (.enter { pmap := p, v, pa, prot, wired, pvE := false, phase := .retry })))
  | .remove p va n => pmapRemoveRange s p va n
  | .removeAll f => pmapRemoveAll s f
  | .copyOnWrite f => pmapCopyOnWrite s f
  | .pageProtect f prot => pmapPageProtect s f prot
  | .protect p va n prot => pmapProtect s p va n prot
  | .changeWiring p va wired => pmapChangeWiring s p va wired
  | .collect t p => if p = kernelPmap then .error .collectKernel else .ok (s.setOp t (some (.collect p 0)))
  | .clearModify f => pmapClearModify s f
  | .isModified f => pmapIsModified s f >>= fun r => .ok r.1
  | .clearReference f => pmapClearReference s f
  | .isReferenced f => pmapIsReferenced s f >>= fun r => .ok r.1
  | .read p va =>
    match s.pmapPte p va with
    | none => .ok s
    | some pte => .ok (processorRead s p va pte)
  | .write p va _ =>
    match s.pmapPte p va with
    | none => .ok s
    | some pte => .ok (processorWrite s p va pte)
  | .proceed t page =>
    match s.ops t with
    | none => .ok s
    | some op => proceed s t page op

end MachVM.I386

namespace MachVM.I386

open Machine

/-- Whether a page has been written to since the last `pmap_clear_modify` of a kind. The last event of a
history stands first. -/
def writtenSince (counts : Bool → Bool) (f : Frame) : List Event → Bool
  | [] => false
  | .wrote g :: es => g == f || writtenSince counts f es
  | .cleared g unmapped :: es => !(g == f && counts unmapped) && writtenSince counts f es

namespace State

variable (s : State)

/-- The entries that the lists are about: all of the user pmaps, and those of the kernel's above the mappings
it has from the start. -/
def inDomain (x : PmapId × Va) : Bool := x.1 != kernelPmap || decide (s.layout.virtualAvail ≤ x.2)

/-- The entry for an address, if it maps a managed page. -/
def mapping (x : PmapId × Va) : Option Pte :=
  if s.inDomain x then (s.pmapPte x.1 x.2).filter fun pte => s.managedPhys pte.pfn else none

variable {s}

theorem mapping_eq_some {x : PmapId × Va} {pte : Pte} :
    s.mapping x = some pte ↔
      s.inDomain x = true ∧ s.pmapPte x.1 x.2 = some pte ∧ s.managedPhys pte.pfn = true := by
  unfold mapping
  split
  next hd => simp [hd, Option.filter_eq_some_iff]
  next hd => simp [hd]

theorem managedPhys_congr {r : State} (hl : r.layout = s.layout) : r.managedPhys = s.managedPhys := by
  funext f
  unfold managedPhys
  rw [hl]

theorem inDomain_congr {r : State} (hl : r.layout = s.layout) : r.inDomain = s.inDomain := by
  funext x
  unfold inDomain
  rw [hl]

theorem mapping_congr {r : State} {x : PmapId × Va} (hl : r.layout = s.layout)
    (hp : r.pmapPte x.1 x.2 = s.pmapPte x.1 x.2) : r.mapping x = s.mapping x := by
  unfold mapping
  rw [hp, managedPhys_congr hl, inDomain_congr hl]

@[simp] theorem managedPhys_zero : s.managedPhys 0 = false := by
  rw [managedPhys, decide_eq_false (Nat.not_le_of_lt s.layout.first_pos), Bool.false_and]

theorem mapping_eq_none {x : PmapId × Va} (h : ∀ pte, s.pmapPte x.1 x.2 = some pte → pte.pfn = 0) :
    s.mapping x = none := by
  cases hm : s.mapping x with
  | none => rfl
  | some pte =>
    obtain ⟨_, hp, hf⟩ := mapping_eq_some.mp hm
    rw [h pte hp, managedPhys_zero] at hf
    exact absurd hf Bool.false_ne_true

section Frames

variable {f : Frame} {h : PvHead} {a : PhysAttributes} {t : ThreadId} {op : Option Op} {e : Event}

@[simp] theorem setPvHead_mapping : (s.setPvHead f h).mapping = s.mapping := rfl
@[simp] theorem setAttributes_mapping : (s.setAttributes f a).mapping = s.mapping := rfl
@[simp] theorem setOp_mapping : (s.setOp t op).mapping = s.mapping := rfl
@[simp] theorem note_mapping : (s.note e).mapping = s.mapping := rfl

@[simp] theorem setPvHead_pmapPte : (s.setPvHead f h).pmapPte = s.pmapPte := rfl
@[simp] theorem setAttributes_pmapPte : (s.setAttributes f a).pmapPte = s.pmapPte := rfl

@[simp] theorem setAttributes_pvList : (s.setAttributes f a).pvList = s.pvList := rfl
@[simp] theorem setOp_pvList : (s.setOp t op).pvList = s.pvList := rfl
@[simp] theorem note_pvList : (s.note e).pvList = s.pvList := rfl

@[simp] theorem setAttributes_self : (s.setAttributes f a).physAttributes f = a := Function.update_self ..

theorem setAttributes_of_ne {g : Frame} (hg : g ≠ f) : (s.setAttributes f a).physAttributes g = s.physAttributes g :=
  Function.update_of_ne hg ..

theorem setPvHead_pvList : (s.setPvHead f h).pvList = Function.update s.pvList f h.elems := by
  funext g
  by_cases hg : g = f
  · subst g
    simp [pvList, setPvHead]
  · simp [pvList, setPvHead, hg]

end Frames

section WritePte

variable {p : PmapId} {va : Va} {pte old : Pte}

@[simp] theorem writePte_pvList : (s.writePte p va pte).pvList = s.pvList := rfl

@[simp] theorem writePte_layout : (s.writePte p va pte).layout = s.layout := rfl

theorem writePte_refCount (q : PmapId) : (s.writePte p va pte).refCount q = s.refCount q := by
  by_cases hq : q = p
  · subst q
    cases h : s.pmaps p <;> simp [refCount, writePte, setPmap, h]
  · simp [refCount, writePte, setPmap, hq]

theorem writePte_pmapPte (q : PmapId) (w : Va) :
    (s.writePte p va pte).pmapPte q w =
      if q = p ∧ w = va then (s.pmapPte p va).map fun _ => pte else s.pmapPte q w := by
  by_cases hq : q = p
  · subst q
    cases hm : s.pmaps p with
    | none => simp [pmapPte, writePte, setPmap, hm]
    | some m =>
      by_cases hi : pdenum w = pdenum va
      · cases hd : m.cr3 (pdenum va) with
        | none => simp [pmapPte, writePte, setPmap, hm, hi, hd]
        | some d =>
          by_cases hj : ptenum w = ptenum va
          · obtain rfl : w = va := by
              rw [← Nat.div_add_mod w nptes, ← Nat.div_add_mod va nptes]
              exact congr (congrArg _ (congrArg _ hi)) hj
            simp [pmapPte, writePte, setPmap, hm, hd]
          · have hw : w ≠ va := fun he => hj (he ▸ rfl)
            simp [pmapPte, writePte, setPmap, hm, hi, hd, hj, hw]
      · have hw : w ≠ va := fun he => hi (he ▸ rfl)
        simp [pmapPte, writePte, setPmap, hm, hi, hw]
  · simp [pmapPte, writePte, setPmap, hq]

theorem writePte_mapping (pte : Pte) (hd : s.inDomain (p, va) = true) (hp : s.pmapPte p va = some old) :
    (s.writePte p va pte).mapping =
      Function.update s.mapping (p, va) (if s.managedPhys pte.pfn then some pte else none) := by
  funext x
  by_cases hx : x = (p, va)
  · subst x
    rw [Function.update_self]
    have hd' : (s.writePte p va pte).inDomain (p, va) = true := hd
    simp only [mapping, hd', if_true, writePte_pmapPte, and_self, hp, Option.map_some]
    change (some pte).filter (fun pte => s.managedPhys pte.pfn) = _
    rw [Option.filter_some]
  · rw [Function.update_of_ne hx]
    apply mapping_congr writePte_layout
    rw [writePte_pmapPte, if_neg]
    rintro ⟨h1, h2⟩
    exact hx (Prod.ext h1 h2)

end WritePte

end State

end MachVM.I386

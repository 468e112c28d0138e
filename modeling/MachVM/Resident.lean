import MachVM.Lib.Mirror
import MachVM.VmState

namespace MachVM

/-- The bucket an object/offset pair hashes to; the object is its address. -/
def vmPageHash (mask : VmOffset) (object : ObjId) (offset : VmOffset) : VmOffset :=
  (BitVec.ofNat 32 object + (offset >>> pageShift)) &&& mask

/-- Enter a page in the object/offset table and the object's page list.
A page that is already tabled panics. -/
def vmPageInsert (s : VmState) (mem : PageId) (object : ObjId) (offset : VmOffset) :
    Option VmState :=
  if (s.page mem).tabled then none
  else
    let b := vmPageHash s.hashMask object offset
    let x := s.object object
    some (((s.setPage mem { s.page mem with object := some object, offset := offset, tabled := true }).setBucket b
      (queueEnter (s.bucket b) mem)).setObject object
      { x with memq := queueEnter x.memq mem, residentPageCount := x.residentPageCount + 1 })

/-- Take a page out of the table and its object's page list; an untabled page is left alone. -/
def vmPageRemove (s : VmState) (mem : PageId) : VmState :=
  let p := s.page mem
  match p.tabled, p.object with
  | true, some object =>
    let b := vmPageHash s.hashMask object p.offset
    let x := s.object object
    ((s.setBucket b (queueRemove (s.bucket b) mem)).setObject object
      { x with memq := queueRemove x.memq mem, residentPageCount := x.residentPageCount - 1 }).setPage mem
      { p with tabled := false }
  | _, _ => s

/-- The first page of the hash chain that carries the object/offset pair. -/
def vmPageLookup (s : VmState) (object : ObjId) (offset : VmOffset) : Option PageId :=
  (s.bucket (vmPageHash s.hashMask object offset)).find?
    fun mem => (s.page mem).object = some object && (s.page mem).offset = offset

/-- Move a page to another object. The page queue lock is taken only around the move. -/
def vmPageRename (s : VmState) (mem : PageId) (newObject : ObjId) (newOffset : VmOffset) :
    Option VmState :=
  if (s.page mem).object = some newObject then some s
  else vmPageInsert (vmPageRemove s mem) mem newObject newOffset

/-- The page template with a physical address; the contents of the frame are not touched. -/
def vmPageTemplate (p : VmPage) (physAddr : VmOffset) : VmPage :=
  { physAddr := physAddr, data := p.data, modified := p.modified }

/-- Reset the page from the template and enter it in the object if there is one. -/
def vmPageInit (s : VmState) (mem : PageId) (object : Option ObjId) (offset : VmOffset)
    (physAddr : VmOffset) : Option VmState :=
  let s := s.setPage mem (vmPageTemplate (s.page mem) physAddr)
  match object with
  | none => some s
  | some o => vmPageInsert s mem o offset

/-- Allocate the last page of the free queue. The null result leaves the state unchanged. -/
def vmPageAlloc (s : VmState) (object : Option ObjId) (offset : VmOffset) (vmPrivilege : Bool) :
    Option (VmState × Option PageId) :=
  match s.queueFree.getLast? with
  | none => some (s, none)
  | some mem =>
    if s.freeCount < s.freeReserved ∧ vmPrivilege = false then some (s, none)
    else
      let s := { s with queueFree := queueRemove s.queueFree mem, freeCount := s.freeCount - 1 }
      (vmPageInit s mem object offset (s.page mem).physAddr).map fun s => (s, some mem)

/-- Take a page off the active queue, with its flag and count. -/
def leaveActive (s : VmState) (mem : PageId) : VmState :=
  { s.setPage mem { s.page mem with active := false } with
    queueActive := queueRemove s.queueActive mem, activeCount := s.activeCount - 1 }

def leaveInactive (s : VmState) (mem : PageId) : VmState :=
  { s.setPage mem { s.page mem with inactive := false } with
    queueInactive := queueRemove s.queueInactive mem, inactiveCount := s.inactiveCount - 1 }

def enterActive (s : VmState) (mem : PageId) : VmState :=
  { s.setPage mem { s.page mem with active := true } with
    queueActive := queueEnter s.queueActive mem, activeCount := s.activeCount + 1 }

def enterInactive (s : VmState) (mem : PageId) : VmState :=
  { s.setPage mem { s.page mem with inactive := true } with
    queueInactive := queueEnter s.queueInactive mem, inactiveCount := s.inactiveCount + 1 }

def enterFree (s : VmState) (mem : PageId) : VmState :=
  { s.setPage mem { s.page mem with free := true } with
    queueFree := queueEnter s.queueFree mem, freeCount := s.freeCount + 1 }

/-- Drop a page from whichever paging queue its flags name. -/
def vmPageQueuesRemove (s : VmState) (mem : PageId) : VmState :=
  let s := if (s.page mem).active then leaveActive s mem else s
  if (s.page mem).inactive then leaveInactive s mem else s

/-- `PAGE_WAKEUP` without the scheduler: the page is neither busy nor wanted afterwards. -/
def pageWakeup (s : VmState) (mem : PageId) : VmState :=
  s.setPage mem { s.page mem with busy := false, wanted := false }

def vmObjectAbsentRelease (s : VmState) (object : Option ObjId) : VmState :=
  match object with
  | none => s
  | some o => s.setObject o { s.object o with absentCount := (s.object o).absentCount - 1 }

/-- The laundry bookkeeping of `vm_page_free`: the count is lowered whenever it is positive,
whether or not this page was in the laundry. -/
def laundryRelease (s : VmState) (mem : PageId) : VmState :=
  { s.setPage mem { s.page mem with laundry := false } with
    laundryCount := if 0 < s.laundryCount then s.laundryCount - 1 else s.laundryCount }

/-- Return a page to the free list; one that is free already panics. The wire count is not looked at. -/
def vmPageFree (s : VmState) (mem : PageId) : Option VmState :=
  if (s.page mem).free then none
  else
    let s := vmPageQueuesRemove (vmPageRemove s mem) mem
    let s := pageWakeup (laundryRelease s mem) mem
    let s := if (s.page mem).absent then vmObjectAbsentRelease s (s.page mem).object else s
    some (if (s.page mem).fictitious then s else enterFree s mem)

def vmPageWire (s : VmState) (mem : PageId) : VmState :=
  let s :=
    if (s.page mem).wireCount = 0 then
      { vmPageQueuesRemove s mem with wireCount := s.wireCount + 1 }
    else s
  s.setPage mem { s.page mem with wireCount := (s.page mem).wireCount + 1 }

/-- The last unwiring puts the page on the active queue unconditionally. -/
def vmPageUnwire (s : VmState) (mem : PageId) : VmState :=
  let s := s.setPage mem { s.page mem with wireCount := (s.page mem).wireCount - 1 }
  if (s.page mem).wireCount = 0 then
    let s := enterActive s mem
    pageWakeup { s with wireCount := s.wireCount - 1 } mem
  else s

/-- Only an active page moves: locked and inactive ones are ignored. -/
def vmPageDeactivate (s : VmState) (mem : PageId) : VmState :=
  if (s.page mem).active then enterInactive (leaveActive s mem) mem else s

/-- Put an unwired page on the active queue; one that is there already panics. -/
def vmPageActivate (s : VmState) (mem : PageId) : Option VmState :=
  let s := if (s.page mem).inactive then leaveInactive s mem else s
  if (s.page mem).wireCount = 0 then
    if (s.page mem).active then none else some (enterActive s mem)
  else some s

/-- One turn of the `vm_page_create` loop: a new page cell is initialised and freed. -/
def vmPageCreate (s : VmState) (mem : PageId) (physAddr : VmOffset) : Option VmState :=
  (vmPageInit s mem none 0 physAddr).bind fun s => vmPageFree s mem

/-- A place-holder cell from the fictitious page zone: it has no frame of its own. -/
def vmPageFictitious (s : VmState) (mem : PageId) (object : ObjId) (offset : VmOffset) :
    Option VmState :=
  (vmPageInit s mem (some object) offset 0).map fun s =>
    s.setPage mem { s.page mem with fictitious := true }

end MachVM

namespace MachVM

open Mirror

@[simp] theorem setPage_page (s : VmState) (mem : PageId) (p : VmPage) :
    (s.setPage mem p).page = Function.update s.page mem p := rfl

@[simp] theorem setBucket_bucket (s : VmState) (b : VmOffset) (q : List PageId) :
    (s.setBucket b q).bucket = Function.update s.bucket b q := rfl

@[simp] theorem setObject_object (s : VmState) (o : ObjId) (x : VmObject) :
    (s.setObject o x).object = Function.update s.object o x := rfl

/-- The paging queues, their flags and their counters agree. The wire clause is about the
two paging queues only: a freed page may carry a stale wire count until it is allocated again. -/
structure QueueInv (s : VmState) : Prop where
  free : Mirrors s.queueFree fun p => (s.page p).free = true
  active : Mirrors s.queueActive fun p => (s.page p).active = true
  inactive : Mirrors s.queueInactive fun p => (s.page p).inactive = true
  freeCount : s.freeCount = s.queueFree.length
  activeCount : s.activeCount = s.queueActive.length
  inactiveCount : s.inactiveCount = s.queueInactive.length
  free_idle : ∀ p, (s.page p).free = true → (s.page p).active = false ∧ (s.page p).inactive = false
  active_alone : ∀ p, (s.page p).active = true → (s.page p).inactive = false
  wired : ∀ p, (s.page p).wireCount ≠ 0 → (s.page p).active = false ∧ (s.page p).inactive = false

/-- The hash chains and the objects' page lists hold exactly the tabled pages,
under the pair each page records. -/
structure TableInv (s : VmState) : Prop where
  bucket : ∀ b, Mirrors (s.bucket b) fun p =>
    (s.page p).tabled = true ∧ ∃ o, (s.page p).object = some o ∧
      b = vmPageHash s.hashMask o (s.page p).offset
  memq : ∀ o, Mirrors (s.object o).memq fun p => (s.page p).tabled = true ∧ (s.page p).object = some o
  count : ∀ o, (s.object o).residentPageCount = (s.object o).memq.length
  owned : ∀ p, (s.page p).tabled = true → (s.page p).object ≠ none
  unique : ∀ p q, (s.page p).tabled = true → (s.page q).tabled = true →
    (s.page p).object = (s.page q).object → (s.page p).offset = (s.page q).offset → p = q

structure ResidentInv (s : VmState) : Prop where
  queues : QueueInv s
  table : TableInv s
  free_untabled : ∀ p, (s.page p).free = true → (s.page p).tabled = false

theorem QueueInv.congr {s t : VmState} (h : QueueInv s)
    (hp : ∀ p, (t.page p).free = (s.page p).free ∧ (t.page p).active = (s.page p).active ∧
      (t.page p).inactive = (s.page p).inactive ∧ (t.page p).wireCount = (s.page p).wireCount)
    (hf : t.queueFree = s.queueFree) (ha : t.queueActive = s.queueActive)
    (hi : t.queueInactive = s.queueInactive) (hfc : t.freeCount = s.freeCount)
    (hac : t.activeCount = s.activeCount) (hic : t.inactiveCount = s.inactiveCount) : QueueInv t where
  free := hf ▸ h.free.congr fun p => by rw [(hp p).1]
  active := ha ▸ h.active.congr fun p => by rw [(hp p).2.1]
  inactive := hi ▸ h.inactive.congr fun p => by rw [(hp p).2.2.1]
  freeCount := by rw [hfc, hf, h.freeCount]
  activeCount := by rw [hac, ha, h.activeCount]
  inactiveCount := by rw [hic, hi, h.inactiveCount]
  free_idle p := by rw [(hp p).1, (hp p).2.1, (hp p).2.2.1]; exact h.free_idle p
  active_alone p := by rw [(hp p).2.1, (hp p).2.2.1]; exact h.active_alone p
  wired p := by rw [(hp p).2.1, (hp p).2.2.1, (hp p).2.2.2]; exact h.wired p

theorem TableInv.congr {s t : VmState} (h : TableInv s)
    (hp : ∀ p, (t.page p).tabled = (s.page p).tabled ∧ (t.page p).object = (s.page p).object ∧
      (t.page p).offset = (s.page p).offset)
    (hb : t.bucket = s.bucket) (hm : t.hashMask = s.hashMask)
    (ho : ∀ o, (t.object o).memq = (s.object o).memq ∧
      (t.object o).residentPageCount = (s.object o).residentPageCount) : TableInv t where
  bucket b := by
    rw [hb]
    exact (h.bucket b).congr fun p => by rw [(hp p).1, (hp p).2.1, (hp p).2.2, hm]
  memq o := by
    rw [(ho o).1]
    exact (h.memq o).congr fun p => by rw [(hp p).1, (hp p).2.1]
  count o := by rw [(ho o).1, (ho o).2, h.count o]
  owned p := by rw [(hp p).1, (hp p).2.1]; exact h.owned p
  unique p q := by
    rw [(hp p).1, (hp p).2.1, (hp p).2.2, (hp q).1, (hp q).2.1, (hp q).2.2]
    exact h.unique p q

theorem vmPageLookup_eq_some {s : VmState} (h : TableInv s) {o : ObjId} {off : VmOffset} {p : PageId} :
    vmPageLookup s o off = some p ↔
      (s.page p).tabled = true ∧ (s.page p).object = some o ∧ (s.page p).offset = off := by
  constructor
  · intro hl
    have hmem := List.mem_of_find?_eq_some hl
    have hkey := List.find?_some hl
    simp only [Bool.and_eq_true, decide_eq_true_eq] at hkey
    exact ⟨(((h.bucket _).mem_iff p).mp hmem).1, hkey.1, hkey.2⟩
  · rintro ⟨ht, hob, hof⟩
    have hmem : p ∈ s.bucket (vmPageHash s.hashMask o off) :=
      ((h.bucket _).mem_iff p).mpr ⟨ht, o, hob, by rw [hof]⟩
    have hsome : (vmPageLookup s o off).isSome := by
      rw [vmPageLookup, List.find?_isSome]
      exact ⟨p, hmem, by simp [hob, hof]⟩
    obtain ⟨q, hq⟩ := Option.isSome_iff_exists.mp hsome
    have hqmem := List.mem_of_find?_eq_some hq
    have hqkey := List.find?_some hq
    simp only [Bool.and_eq_true, decide_eq_true_eq] at hqkey
    have hqt := (((h.bucket _).mem_iff q).mp hqmem).1
    rw [hq, h.unique q p hqt ht (hqkey.1.trans hob.symm) (hqkey.2.trans hof.symm)]

theorem vmPageLookup_eq_none {s : VmState} (h : TableInv s) {o : ObjId} {off : VmOffset} :
    vmPageLookup s o off = none ↔
      ∀ p, ¬((s.page p).tabled = true ∧ (s.page p).object = some o ∧ (s.page p).offset = off) := by
  constructor
  · intro hl p hp
    rw [(vmPageLookup_eq_some h).mpr hp] at hl
    cases hl
  · intro hn
    cases hl : vmPageLookup s o off with
    | none => rfl
    | some p => exact absurd ((vmPageLookup_eq_some h).mp hl) (hn p)

end MachVM

import MachVM.Lib.Run
import MachVM.ResidentReach

namespace MachVM

/-- `vm_first_phys` and `vm_last_phys`, as `pmap_init` has them: the bounds of whole pages. -/
structure PhysRange where
  first : VmOffset
  last : VmOffset
  first_le : first.toNat ≤ last.toNat
  pages : (last.toNat - first.toNat) % 4096 = 0

namespace PhysRange

variable (r : PhysRange)

def managedPhys (pa : VmOffset) : Bool := decide (r.first ≤ pa) && decide (pa < r.last)

/-- `pa_index`. -/
def paIndex (pa : VmOffset) : Nat := ((pa - r.first) >>> pageShift).toNat

/-- The length of `pv_head_table` and of `phys_attributes`. -/
def npages : Nat := ((r.last - r.first) >>> pageShift).toNat

end PhysRange

/-- The routines of the pmap module that take a physical address to an entry of its tables. -/
inductive PmapRoutine
  | verifyFree
  | removeAll
  | copyOnWrite
  | clearModify
  | isModified
  | pageProtect (prot : VmProt)
  deriving DecidableEq, Repr

namespace PmapRoutine

/-- `pmap_copy_on_write` is called, perhaps by `pmap_page_protect`. -/
def copiesOnWrite : PmapRoutine → Bool
  | copyOnWrite => true
  | pageProtect prot => prot == protRead || prot == protRead ||| protExecute
  | _ => false

def index? (r : PhysRange) (pa : VmOffset) : PmapRoutine → Option Nat
  | verifyFree => if r.managedPhys pa then some (r.paIndex pa) else none
  | removeAll => if r.managedPhys pa then some (r.paIndex pa) else none
  | copyOnWrite => some (r.paIndex pa)
  | clearModify => if r.managedPhys pa then some (r.paIndex pa) else none
  | isModified => if r.managedPhys pa then some (r.paIndex pa) else none
  | pageProtect prot =>
    if prot = protRead ∨ prot = protRead ||| protExecute then some (r.paIndex pa)
    else if prot = protAll then none
    else if r.managedPhys pa then some (r.paIndex pa)
    else none

end PmapRoutine

/-- The routines of the VM system that call the pmap module on pages of an object. `alloc` is `vm_page_alloc` with
`vm_page_alloc_verify`; `faultCopy` and `pagedIn` are the fault handler and the pagers at a page that they have looked
up; `copyCall` and `copyDelay` are the two strategies of `vm_object_copy` that sweep the source. -/
inductive VmCall
  | alloc
  | terminate (o : ObjId)
  | pmapCopy (o : ObjId) (start endAddr : VmOffset)
  | pmapRemove (o : ObjId) (start endAddr : VmOffset)
  | copyCall (o : ObjId) (start endAddr : VmOffset)
  | copyDelay (o : ObjId)
  | pageRemove (o : ObjId) (start endAddr : VmOffset)
  | lockRequest (o : ObjId) (offset : VmOffset) (shouldClean shouldFlush : Bool) (prot : VmProt)
  | pagedIn (o : ObjId) (offset : VmOffset)
  | faultCopy (o : ObjId) (offset : VmOffset)
  | flush (o : ObjId) (offset : VmOffset)
  deriving DecidableEq, Repr

/-- The pages of an object between two offsets, in the order of `memq`. -/
def pagesIn (s : VmState) (o : ObjId) (start endAddr : VmOffset) : List PageId :=
  (s.object o).memq.filter fun mem => decide (start ≤ (s.page mem).offset) && decide ((s.page mem).offset < endAddr)

/-- One page of `memory_object_lock_request`. -/
def lockRequestPage (p : VmPage) (shouldClean shouldFlush : Bool) (prot : VmProt) : List PmapRoutine :=
  if p.absent || (p.busy || p.wireCount != 0) then []
  else
    let flush := if shouldFlush then [.pageProtect protNone] else []
    let clean := if shouldClean && !p.dirty then [.isModified] else []
    if shouldClean && (p.dirty || p.modified) then
      flush ++ clean ++ if shouldFlush then [] else [.pageProtect protNone]
    else if shouldFlush then flush ++ clean
    else flush ++ clean ++ if (p.pageLock ^^^ prot) &&& prot != 0 then [.pageProtect (protAll &&& ~~~prot)] else []

/-- What is called on which page. -/
def VmCall.pmapCalls (s : VmState) : VmCall → List (PmapRoutine × PageId)
  | alloc => s.queueFree.getLast?.toList.map fun mem => (.verifyFree, mem)
  | terminate o =>
    if (s.object o).temporary || (s.object o).pager.isNone then []
    else
      ((s.object o).memq.filter fun mem => !(s.page mem).absent && !(s.page mem).dirty).map fun mem =>
        (.isModified, mem)
  | pmapCopy o start endAddr =>
    (pagesIn s o start endAddr).map fun mem =>
      (.pageProtect (protAll &&& ~~~protWrite &&& ~~~(s.page mem).pageLock), mem)
  | pmapRemove o start endAddr => (pagesIn s o start endAddr).map fun mem => (.pageProtect protNone, mem)
  | copyCall o start endAddr =>
    ((pagesIn s o start endAddr).filter fun mem => (s.page mem).pageLock &&& protWrite == 0).map fun mem =>
      (.pageProtect (protAll &&& ~~~((s.page mem).pageLock ||| protWrite)), mem)
  | copyDelay o =>
    (s.object o).memq.map fun mem => (.pageProtect (protAll &&& ~~~protWrite &&& ~~~(s.page mem).pageLock), mem)
  | pageRemove o start endAddr => (pagesIn s o start endAddr).map fun mem => (.pageProtect protNone, mem)
  | lockRequest o offset shouldClean shouldFlush prot =>
    (vmPageLookup s o offset).toList.flatMap fun mem =>
      (lockRequestPage (s.page mem) shouldClean shouldFlush prot).map fun f => (f, mem)
  | pagedIn o offset => (vmPageLookup s o offset).toList.map fun mem => (.clearModify, mem)
  | faultCopy o offset => (vmPageLookup s o offset).toList.map fun mem => (.pageProtect protNone, mem)
  | flush o offset => (vmPageLookup s o offset).toList.map fun mem => (.removeAll, mem)

/-- The cells that have been made into pages go with the state. -/
structure PhysState where
  vm : VmState
  made : PageId → Bool

/-- `fictitious` is the place-holder of `vm_pageout_page`, and `device` a page of a device pager. What else is
written into a page is `set`. -/
inductive PhysOp
  | page (op : PageOp)
  | device (mem : PageId) (o : ObjId) (offset addr : VmOffset)
  | set (mem : PageId) (p : VmPage)

/-- One page of `device_pager_data_request`. The page that waits in its place is thrown away. -/
def devicePage (s : VmState) (mem : PageId) (o : ObjId) (offset addr : VmOffset) : Option VmState :=
  (match vmPageLookup s o offset with
    | some oldPage => vmPageFree s oldPage
    | none => some s).bind fun s =>
  (vmPageInit s mem (some o) offset addr).map fun (s : VmState) =>
    pageWakeup (s.setPage mem { s.page mem with wireCount := 1, fictitious := true }) mem

def PhysState.make (s : PhysState) (mem : PageId) (vm : VmState) : PhysState := ⟨vm, Function.update s.made mem true⟩

def physStep (s : PhysState) : PhysOp → Option PhysState
  | .page (.create mem pa) => (pageStep s.vm (.create mem pa)).map (s.make mem)
  | .page (.fictitious mem o offset) => (pageStep s.vm (.fictitious mem o offset)).map (s.make mem)
  | .page op => (pageStep s.vm op).map fun vm => { s with vm }
  | .device mem o offset addr => (devicePage s.vm mem o offset addr).map (s.make mem)
  | .set mem p => some { s with vm := s.vm.setPage mem p }

/-- `vm_page_startup` makes the cells of the managed frames; the cells of place-holders and of device pages are
others. -/
def PhysPre (r : PhysRange) (s : PhysState) : PhysOp → Prop
  | .page (.create mem pa) => PagePre s.vm (.create mem pa) ∧ r.managedPhys pa = true
  | .page (.fictitious mem o offset) =>
    PagePre s.vm (.fictitious mem o offset) ∧ (s.made mem = true → (s.vm.page mem).fictitious = true)
  | .page (.insert mem o offset) => PagePre s.vm (.insert mem o offset) ∧ s.made mem = true
  | .page (.rename mem o offset) => PagePre s.vm (.rename mem o offset) ∧ s.made mem = true
  | .page (.free mem) => s.made mem = true
  | .page op => PagePre s.vm op
  | .device mem _ _ _ => UnusedCell s.vm mem ∧ (s.made mem = true → (s.vm.page mem).fictitious = true)
  | .set mem p => p.physAddr = (s.vm.page mem).physAddr ∧ p.fictitious = (s.vm.page mem).fictitious

instance (r : PhysRange) (s : PhysState) (op : PhysOp) : Decidable (PhysPre r s op) :=
  match op with
  | .page (.create mem pa) => inferInstanceAs (Decidable (PagePre s.vm (.create mem pa) ∧ _))
  | .page (.fictitious mem o offset) =>
    inferInstanceAs (Decidable (PagePre s.vm (.fictitious mem o offset) ∧ (s.made mem = true → _ = true)))
  | .page (.insert mem o offset) => inferInstanceAs (Decidable (PagePre s.vm (.insert mem o offset) ∧ _))
  | .page (.rename mem o offset) => inferInstanceAs (Decidable (PagePre s.vm (.rename mem o offset) ∧ _))
  | .page (.free mem) => inferInstanceAs (Decidable (s.made mem = true))
  | .page (.alloc o offset priv) => inferInstanceAs (Decidable (PagePre s.vm (.alloc o offset priv)))
  | .page (.remove mem) => inferInstanceAs (Decidable (PagePre s.vm (.remove mem)))
  | .page (.activate mem) => inferInstanceAs (Decidable (PagePre s.vm (.activate mem)))
  | .page (.deactivate mem) => inferInstanceAs (Decidable (PagePre s.vm (.deactivate mem)))
  | .page (.wire mem) => inferInstanceAs (Decidable (PagePre s.vm (.wire mem)))
  | .page (.unwire mem) => inferInstanceAs (Decidable (PagePre s.vm (.unwire mem)))
  | .page (.queuesRemove mem) => inferInstanceAs (Decidable (PagePre s.vm (.queuesRemove mem)))
  | .device mem _ _ _ => inferInstanceAs (Decidable (UnusedCell s.vm mem ∧ (s.made mem = true → _ = true)))
  | .set _ _ => inferInstanceAs (Decidable (_ ∧ _))

/-- There are no pages yet. -/
structure PhysStart (s : PhysState) : Prop where
  vm : ∃ mask reserved, s.vm = { hashMask := mask, freeReserved := reserved }
  made : ∀ mem, s.made mem = false

end MachVM

namespace MachVM

open Machine

variable {r : PhysRange} {s t u : VmState} {mem y : PageId} {o : ObjId} {off : VmOffset} {pa : VmOffset}

theorem paIndex_lt : r.paIndex pa < r.npages ↔ r.managedPhys pa = true := by
  obtain ⟨first, last, hle, hpages⟩ := r
  have hf := first.isLt
  have hl := last.isLt
  have hp := pa.isLt
  have hlen : (last - first).toNat = last.toNat - first.toNat := by
    rw [BitVec.toNat_sub]
    omega
  have hoff : (pa - first).toNat =
      if first.toNat ≤ pa.toNat then pa.toNat - first.toNat else pa.toNat + 2 ^ 32 - first.toNat := by
    rw [BitVec.toNat_sub]
    split
    next h => omega
    next h => omega
  simp only [PhysRange.paIndex, PhysRange.npages, PhysRange.managedPhys, pageShift, BitVec.toNat_ushiftRight,
    Nat.shiftRight_eq_div_pow, hlen, hoff, Bool.and_eq_true, decide_eq_true_eq, BitVec.le_def, BitVec.lt_def]
  split
  next h => omega
  next h => omega

/-- Which pages may have come into objects and onto the free queue between two states. -/
structure Frames (new freed : PageId → Prop) (s t : VmState) : Prop where
  page : ∀ mem, (t.page mem).physAddr = (s.page mem).physAddr ∧ (t.page mem).fictitious = (s.page mem).fictitious
  memq : ∀ o, ∀ y ∈ (t.object o).memq, new y ∨ ∃ q, y ∈ (s.object q).memq
  bucket : ∀ b, ∀ y ∈ t.bucket b, new y ∨ ∃ c, y ∈ s.bucket c
  free : ∀ y ∈ t.queueFree, freed y ∨ y ∈ s.queueFree

def Nowhere : PageId → Prop := fun _ => False

theorem Frames.refl (s : VmState) : Frames Nowhere Nowhere s s :=
  ⟨fun _ => ⟨rfl, rfl⟩, fun o _ hy => .inr ⟨o, hy⟩, fun b _ hy => .inr ⟨b, hy⟩, fun _ hy => .inr hy⟩

theorem Frames.mono {new freed new' freed' : PageId → Prop} (h : Frames new freed s t) (hn : ∀ y, new y → new' y)
    (hf : ∀ y, freed y → freed' y) : Frames new' freed' s t :=
  ⟨h.page, fun o y hy => (h.memq o y hy).imp_left (hn y), fun b y hy => (h.bucket b y hy).imp_left (hn y),
    fun y hy => (h.free y hy).imp_left (hf y)⟩

theorem Frames.after {new freed : PageId → Prop} (h : Frames Nowhere Nowhere s t) (h' : Frames new freed t u) :
    Frames new freed s u := by
  refine ⟨fun mem => ?_, fun o y hy => ?_, fun b y hy => ?_, fun y hy => ?_⟩
  · exact ⟨(h'.page mem).1.trans (h.page mem).1, (h'.page mem).2.trans (h.page mem).2⟩
  · exact (h'.memq o y hy).imp_right fun ⟨q, hy⟩ => (h.memq q y hy).resolve_left id
  · exact (h'.bucket b y hy).imp_right fun ⟨c, hy⟩ => (h.bucket c y hy).resolve_left id
  · exact (h'.free y hy).imp_right fun hy => (h.free y hy).resolve_left id

theorem Frames.setPage {p : VmPage} (ha : p.physAddr = (s.page mem).physAddr)
    (hf : p.fictitious = (s.page mem).fictitious) : Frames Nowhere Nowhere s (s.setPage mem p) := by
  refine ⟨fun q => ?_, fun o _ hy => .inr ⟨o, hy⟩, fun b _ hy => .inr ⟨b, hy⟩, fun _ hy => .inr hy⟩
  by_cases hq : q = mem
  · subst hq
    simp [VmState.setPage, ha, hf]
  · simp [VmState.setPage, hq]

theorem frames_insert (h : vmPageInsert s mem o off = some t) : Frames (· = mem) Nowhere s t := by
  have hp := (vmPageInsert_page h).2
  rw [vmPageInsert] at h
  split at h
  next => simp at h
  next =>
    cases Option.some.inj h
    refine ⟨fun q => ?_, fun x y hy => ?_, fun b y hy => ?_, fun _ hy => .inr hy⟩
    · rw [hp]
      by_cases hq : q = mem
      · subst hq
        simp
      · simp [hq]
    · by_cases hx : x = o
      · subst hx
        simp only [VmState.setObject, Function.update_self, queueEnter, List.mem_append, List.mem_singleton] at hy
        exact hy.symm.imp_right fun hy => ⟨x, hy⟩
      · simp only [VmState.setObject, Function.update_of_ne hx] at hy
        exact .inr ⟨x, hy⟩
    · by_cases hb : b = vmPageHash s.hashMask o off
      · subst hb
        simp only [VmState.setObject, VmState.setBucket, Function.update_self, queueEnter, List.mem_append,
          List.mem_singleton] at hy
        exact hy.symm.imp_right fun hy => ⟨_, hy⟩
      · simp only [VmState.setObject, VmState.setBucket, Function.update_of_ne hb] at hy
        exact .inr ⟨b, hy⟩

theorem frames_remove (s : VmState) (mem : PageId) : Frames Nowhere Nowhere s (vmPageRemove s mem) := by
  unfold vmPageRemove
  dsimp only
  split
  next o _ ho =>
    refine ⟨fun q => ?_, fun x y hy => ?_, fun b y hy => ?_, fun _ hy => .inr hy⟩
    · by_cases hq : q = mem
      · subst hq
        simp [VmState.setPage]
      · simp [VmState.setPage, VmState.setObject, VmState.setBucket, hq]
    · by_cases hx : x = o
      · subst hx
        simp only [VmState.setPage, VmState.setObject, Function.update_self, queueRemove] at hy
        exact .inr ⟨x, List.mem_of_mem_erase hy⟩
      · simp only [VmState.setPage, VmState.setObject, Function.update_of_ne hx] at hy
        exact .inr ⟨x, hy⟩
    · by_cases hb : b = vmPageHash s.hashMask o (s.page mem).offset
      · subst hb
        simp only [VmState.setPage, VmState.setObject, VmState.setBucket, Function.update_self, queueRemove] at hy
        exact .inr ⟨_, List.mem_of_mem_erase hy⟩
      · simp only [VmState.setPage, VmState.setObject, VmState.setBucket, Function.update_of_ne hb] at hy
        exact .inr ⟨b, hy⟩
  next => exact .refl s

theorem Frames.of_eq {new freed : PageId → Prop} (h : Frames new freed s t) (hp : u.page = t.page)
    (ho : ∀ o, (u.object o).memq = (t.object o).memq) (hb : u.bucket = t.bucket) (hf : u.queueFree = t.queueFree) :
    Frames new freed s u :=
  ⟨fun mem => by rw [hp]; exact h.page mem, fun o => by rw [ho]; exact h.memq o, fun b => by rw [hb]; exact h.bucket b,
    fun y => by rw [hf]; exact h.free y⟩

theorem frames_leaveActive (s : VmState) (mem : PageId) : Frames Nowhere Nowhere s (leaveActive s mem) :=
  (Frames.setPage (p := { s.page mem with active := false }) rfl rfl).of_eq rfl (fun _ => rfl) rfl rfl

theorem frames_leaveInactive (s : VmState) (mem : PageId) : Frames Nowhere Nowhere s (leaveInactive s mem) :=
  (Frames.setPage (p := { s.page mem with inactive := false }) rfl rfl).of_eq rfl (fun _ => rfl) rfl rfl

theorem frames_enterActive (s : VmState) (mem : PageId) : Frames Nowhere Nowhere s (enterActive s mem) :=
  (Frames.setPage (p := { s.page mem with active := true }) rfl rfl).of_eq rfl (fun _ => rfl) rfl rfl

theorem frames_enterInactive (s : VmState) (mem : PageId) : Frames Nowhere Nowhere s (enterInactive s mem) :=
  (Frames.setPage (p := { s.page mem with inactive := true }) rfl rfl).of_eq rfl (fun _ => rfl) rfl rfl

theorem frames_queuesRemove (s : VmState) (mem : PageId) : Frames Nowhere Nowhere s (vmPageQueuesRemove s mem) := by
  let a := if (s.page mem).active then leaveActive s mem else s
  have hactive : Frames Nowhere Nowhere s a := by
    simp only [a]
    split
    next => exact frames_leaveActive s mem
    next => exact .refl s
  change Frames Nowhere Nowhere s (if (a.page mem).inactive then leaveInactive a mem else a)
  split
  next => exact hactive.after (frames_leaveInactive _ mem)
  next => exact hactive

theorem frames_enterFree (h : (s.page mem).fictitious = false) :
    Frames Nowhere (fun y => y = mem ∧ (s.page y).fictitious = false) s (enterFree s mem) := by
  have hset : Frames Nowhere Nowhere s (s.setPage mem { s.page mem with free := true }) := .setPage rfl rfl
  refine ⟨hset.page, hset.memq, hset.bucket, fun y hy => ?_⟩
  rcases List.mem_append.mp hy with hy | hy
  · exact .inr hy
  · obtain rfl := List.mem_singleton.mp hy
    exact .inl ⟨rfl, h⟩

theorem frames_absentRelease (s : VmState) (o : Option ObjId) :
    Frames Nowhere Nowhere s (vmObjectAbsentRelease s o) := by
  cases o with
  | none => exact .refl s
  | some o =>
    refine (Frames.refl s).of_eq rfl (fun x => ?_) rfl rfl
    by_cases hx : x = o
    · subst hx
      simp [vmObjectAbsentRelease, VmState.setObject]
    · simp [vmObjectAbsentRelease, VmState.setObject, hx]

theorem frames_free (h : vmPageFree s mem = some t) :
    Frames Nowhere (fun y => y = mem ∧ (s.page y).fictitious = false) s t := by
  rw [vmPageFree] at h
  split at h
  next => simp at h
  next =>
    have hfr := Option.some.inj h
    have h1 : Frames Nowhere Nowhere s (vmPageQueuesRemove (vmPageRemove s mem) mem) :=
      (frames_remove s mem).after (frames_queuesRemove _ mem)
    let a := vmPageQueuesRemove (vmPageRemove s mem) mem
    have h2 : Frames Nowhere Nowhere s (laundryRelease a mem) :=
      h1.after ((Frames.setPage (p := { a.page mem with laundry := false }) rfl rfl).of_eq rfl (fun _ => rfl) rfl rfl)
    have h3 : Frames Nowhere Nowhere s (pageWakeup (laundryRelease a mem) mem) := h2.after (.setPage rfl rfl)
    let b := pageWakeup (laundryRelease a mem) mem
    let c := if (b.page mem).absent then vmObjectAbsentRelease b (b.page mem).object else b
    have h4 : Frames Nowhere Nowhere s c := by
      simp only [c]
      split
      next => exact h3.after (frames_absentRelease b _)
      next => exact h3
    change (if (c.page mem).fictitious = true then c else enterFree c mem) = t at hfr
    split at hfr
    next =>
      rw [← hfr]
      exact h4.mono (fun _ hy => hy) fun _ hy => hy.elim
    next hn =>
      rw [← hfr]
      refine (h4.after (frames_enterFree (by simpa using hn))).mono (fun _ hy => hy) fun y hy => ?_
      rw [(h4.page y).2] at hy
      exact hy

theorem frames_wire (s : VmState) (mem : PageId) : Frames Nowhere Nowhere s (vmPageWire s mem) := by
  let a := if (s.page mem).wireCount = 0 then
    { vmPageQueuesRemove s mem with wireCount := s.wireCount + 1 } else s
  have ha : Frames Nowhere Nowhere s a := by
    simp only [a]
    split
    next => exact (frames_queuesRemove s mem).of_eq rfl (fun _ => rfl) rfl rfl
    next => exact .refl s
  exact ha.after (Frames.setPage (p := { a.page mem with wireCount := (a.page mem).wireCount + 1 }) rfl rfl)

theorem frames_unwire (s : VmState) (mem : PageId) : Frames Nowhere Nowhere s (vmPageUnwire s mem) := by
  let a := s.setPage mem { s.page mem with wireCount := (s.page mem).wireCount - 1 }
  have ha : Frames Nowhere Nowhere s a := .setPage rfl rfl
  let b := enterActive a mem
  have hb : Frames Nowhere Nowhere s { b with wireCount := b.wireCount - 1 } :=
    (ha.after (frames_enterActive a mem)).of_eq rfl (fun _ => rfl) rfl rfl
  change Frames Nowhere Nowhere s
    (if (a.page mem).wireCount = 0 then pageWakeup { b with wireCount := b.wireCount - 1 } mem else a)
  split
  next => exact hb.after (.setPage rfl rfl)
  next => exact ha

theorem frames_deactivate (s : VmState) (mem : PageId) : Frames Nowhere Nowhere s (vmPageDeactivate s mem) := by
  rw [vmPageDeactivate]
  split
  next => exact (frames_leaveActive s mem).after (frames_enterInactive _ mem)
  next => exact .refl s

theorem frames_activate (h : vmPageActivate s mem = some t) : Frames Nowhere Nowhere s t := by
  let a := if (s.page mem).inactive then leaveInactive s mem else s
  have ha : Frames Nowhere Nowhere s a := by
    simp only [a]
    split
    next => exact frames_leaveInactive s mem
    next => exact .refl s
  change (if (a.page mem).wireCount = 0 then if (a.page mem).active then none else some (enterActive a mem)
    else some a) = some t at h
  split at h
  next =>
    split at h
    next => simp at h
    next =>
      cases Option.some.inj h
      exact ha.after (frames_enterActive a mem)
  next =>
    rw [← Option.some.inj h]
    exact ha

theorem frames_rename (h : vmPageRename s mem o off = some t) : Frames (· = mem) Nowhere s t := by
  rw [vmPageRename] at h
  split at h
  next =>
    cases Option.some.inj h
    exact (Frames.refl s).mono (fun _ hy => hy.elim) fun _ hy => hy
  next => exact (frames_remove s mem).after (frames_insert h)

/-- What the pages of the system are. -/
structure FrameInv (r : PhysRange) (s : PhysState) : Prop where
  known : ∀ mem, s.made mem = true → (s.vm.page mem).fictitious = true ∨ r.managedPhys (s.vm.page mem).physAddr = true
  free : ∀ mem ∈ s.vm.queueFree, s.made mem = true ∧ (s.vm.page mem).fictitious = false
  memq : ∀ o, ∀ mem ∈ (s.vm.object o).memq, s.made mem = true
  bucket : ∀ b, ∀ mem ∈ s.vm.bucket b, s.made mem = true

theorem FrameInv.frames {s : PhysState} {new freed : PageId → Prop} (h : FrameInv r s) (hf : Frames new freed s.vm t)
    (hn : ∀ y, new y → s.made y = true)
    (hfr : ∀ y, freed y → s.made y = true ∧ (s.vm.page y).fictitious = false) : FrameInv r { s with vm := t } := by
  refine ⟨fun mem hm => ?_, fun mem hm => ?_, fun o mem hm => ?_, fun b mem hm => ?_⟩
  · rw [(hf.page mem).1, (hf.page mem).2]
    exact h.known mem hm
  · rw [(hf.page mem).2]
    rcases hf.free mem hm with hm | hm
    · exact hfr mem hm
    · exact h.free mem hm
  · rcases hf.memq o mem hm with hm | ⟨q, hm⟩
    · exact hn mem hm
    · exact h.memq q mem hm
  · rcases hf.bucket b mem hm with hm | ⟨c, hm⟩
    · exact hn mem hm
    · exact h.bucket c mem hm

theorem FrameInv.still {s : PhysState} (h : FrameInv r s) (hf : Frames Nowhere Nowhere s.vm t) :
    FrameInv r { s with vm := t } :=
  h.frames hf (fun _ hy => hy.elim) fun _ hy => hy.elim

theorem FrameInv.make {s : PhysState} {p : VmPage} (h : FrameInv r s) (mem : PageId)
    (hp : p.fictitious = true ∨ r.managedPhys p.physAddr = true)
    (hfree : mem ∈ s.vm.queueFree → p.fictitious = false) : FrameInv r (s.make mem (s.vm.setPage mem p)) := by
  have hmade : ∀ y, s.made y = true → (s.make mem (s.vm.setPage mem p)).made y = true := fun y hy => by
    by_cases hym : y = mem
    · subst hym
      simp [PhysState.make]
    · simp [PhysState.make, hym, hy]
  refine ⟨fun y hy => ?_, fun y hy => ⟨hmade y (h.free y hy).1, ?_⟩, fun o y hy => hmade y (h.memq o y hy),
    fun b y hy => hmade y (h.bucket b y hy)⟩
  · by_cases hym : y = mem
    · subst hym
      simpa [PhysState.make, VmState.setPage] using hp
    · have hy' : s.made y = true := by simpa [PhysState.make, hym] using hy
      simpa [PhysState.make, VmState.setPage, hym] using h.known y hy'
  · by_cases hym : y = mem
    · subst hym
      simpa [PhysState.make, VmState.setPage] using hfree hy
    · simpa [PhysState.make, VmState.setPage, hym] using (h.free y hy).2

theorem frames_fictitious {p : VmPage} (h : vmPageInit s mem (some o) off pa = some u)
    (ha : p.physAddr = (u.page mem).physAddr) (hf : p.fictitious = true) :
    Frames (· = mem) Nowhere (s.setPage mem { vmPageTemplate (s.page mem) pa with fictitious := true })
      (u.setPage mem p) := by
  have hi : Frames (· = mem) Nowhere (s.setPage mem (vmPageTemplate (s.page mem) pa)) u := frames_insert h
  refine ⟨fun y => ?_, hi.memq, hi.bucket, hi.free⟩
  by_cases hy : y = mem
  · subst hy
    have hpa := (hi.page y).1
    simp only [VmState.setPage, Function.update_self] at hpa ⊢
    exact ⟨ha.trans hpa, hf⟩
  · have hpage := hi.page y
    simp only [VmState.setPage, Function.update_of_ne hy] at hpage ⊢
    exact hpage

theorem PhysState.make_of_made {s : PhysState} (h : s.made mem = true) : s.make mem t = { s with vm := t } := by
  have hm : Function.update s.made mem true = s.made := by
    rw [← h]
    exact Function.update_eq_self mem s.made
  rw [PhysState.make, hm]

theorem alloc_inv {s : PhysState} {priv : Bool} {obj : Option ObjId} {x : VmState × Option PageId} (h : FrameInv r s)
    (he : vmPageAlloc s.vm obj off priv = some x) : FrameInv r { s with vm := x.1 } := by
  rw [vmPageAlloc] at he
  split at he
  next =>
    cases Option.some.inj he
    exact h
  next mem hlast =>
    split at he
    next =>
      cases Option.some.inj he
      exact h
    next =>
      obtain ⟨u, hu, rfl⟩ := Option.map_eq_some_iff.mp he
      have hin : mem ∈ s.vm.queueFree := List.mem_of_getLast? hlast
      obtain ⟨hmade, hfict⟩ := h.free mem hin
      let a : VmState :=
        { s.vm with queueFree := queueRemove s.vm.queueFree mem, freeCount := s.vm.freeCount - 1 }
      have ha : FrameInv r { s with vm := a } :=
        h.still ⟨fun _ => ⟨rfl, rfl⟩, fun o _ hy => .inr ⟨o, hy⟩, fun b _ hy => .inr ⟨b, hy⟩,
          fun _ hy => .inr (List.mem_of_mem_erase hy)⟩
      have hpa : r.managedPhys (s.vm.page mem).physAddr = true := (h.known mem hmade).resolve_left (by simp [hfict])
      have hreset := ha.make mem (p := vmPageTemplate (a.page mem) (a.page mem).physAddr) (.inr hpa)
        fun _ => rfl
      rw [PhysState.make_of_made (s := { s with vm := a }) hmade] at hreset
      cases obj with
      | none =>
        cases Option.some.inj hu
        exact hreset
      | some o => exact hreset.frames (frames_insert hu) (fun y hy => hy ▸ hmade) fun _ hy => hy.elim

theorem create_inv {s : PhysState} (h : FrameInv r s) (hpa : r.managedPhys pa = true)
    (he : vmPageCreate s.vm mem pa = some t) : FrameInv r (s.make mem t) := by
  obtain ⟨u, hu, he⟩ := Option.bind_eq_some_iff.mp he
  cases Option.some.inj hu
  have hp := h.make mem (p := vmPageTemplate (s.vm.page mem) pa) (.inr hpa) fun _ => rfl
  refine hp.frames (frames_free he) (fun _ hy => hy.elim) fun y hy => ?_
  rw [hy.1]
  exact ⟨Function.update_self .., by simp [PhysState.make, VmState.setPage, vmPageTemplate]⟩

theorem FrameInv.not_free {s : PhysState} (h : FrameInv r s)
    (hm : s.made mem = true → (s.vm.page mem).fictitious = true) : mem ∉ s.vm.queueFree := fun hin => by
  obtain ⟨hmade, hfict⟩ := h.free mem hin
  simp [hm hmade] at hfict

theorem fictitious_inv {s : PhysState} (h : FrameInv r s)
    (hm : s.made mem = true → (s.vm.page mem).fictitious = true) (he : vmPageFictitious s.vm mem o off = some t) :
    FrameInv r (s.make mem t) := by
  obtain ⟨u, hu, rfl⟩ := Option.map_eq_some_iff.mp he
  have hp := h.make mem (p := { vmPageTemplate (s.vm.page mem) 0 with fictitious := true }) (.inl rfl)
    fun hin => absurd hin (h.not_free hm)
  refine hp.frames (frames_fictitious hu rfl rfl) (fun y hy => ?_) fun _ hy => hy.elim
  rw [hy]
  exact Function.update_self ..

theorem device_inv {s : PhysState} (h : FrameInv r s)
    (hm : s.made mem = true → (s.vm.page mem).fictitious = true) (he : devicePage s.vm mem o off pa = some t) :
    FrameInv r (s.make mem t) := by
  obtain ⟨a, ha, he⟩ := Option.bind_eq_some_iff.mp he
  obtain ⟨u, hu, rfl⟩ := Option.map_eq_some_iff.mp he
  have hfreed : FrameInv r { s with vm := a } ∧ (s.made mem = true → (a.page mem).fictitious = true) := by
    split at ha
    next old hl =>
      have hin : s.made old = true := h.bucket _ old (List.mem_of_find?_eq_some hl)
      have hf := frames_free ha
      refine ⟨h.frames hf (fun _ hy => hy.elim) fun y hy => ⟨hy.1 ▸ hin, hy.2⟩, fun hmade => ?_⟩
      rw [(hf.page mem).2]
      exact hm hmade
    next =>
      cases Option.some.inj ha
      exact ⟨h, hm⟩
  have hp := hfreed.1.make mem (p := { vmPageTemplate (a.page mem) pa with fictitious := true }) (.inl rfl)
    fun hin => absurd hin (hfreed.1.not_free hfreed.2)
  have hentered := hp.frames (frames_fictitious (p := { u.page mem with wireCount := 1, fictitious := true }) hu rfl rfl)
    (fun y hy => by rw [hy]; exact Function.update_self ..) fun _ hy => hy.elim
  exact hentered.still (.setPage rfl rfl)

theorem physStep_inv {s q : PhysState} {op : PhysOp} (h : FrameInv r s) (ha : PhysPre r s op)
    (hs : physStep s op = some q) : FrameInv r q := by
  cases op with
  | page op =>
    cases op with
    | create mem pa =>
      obtain ⟨t, ht, rfl⟩ := Option.map_eq_some_iff.mp hs
      exact create_inv h ha.2 ht
    | fictitious mem o off =>
      obtain ⟨t, ht, rfl⟩ := Option.map_eq_some_iff.mp hs
      exact fictitious_inv h ha.2 ht
    | alloc o off priv =>
      obtain ⟨t, ht, rfl⟩ := Option.map_eq_some_iff.mp hs
      obtain ⟨x, hx, rfl⟩ := Option.map_eq_some_iff.mp ht
      exact alloc_inv h hx
    | insert mem o off =>
      obtain ⟨t, ht, rfl⟩ := Option.map_eq_some_iff.mp hs
      exact h.frames (frames_insert ht) (fun y hy => hy ▸ ha.2) fun _ hy => hy.elim
    | remove mem =>
      cases Option.some.inj hs
      exact h.still (frames_remove s.vm mem)
    | rename mem o off =>
      obtain ⟨t, ht, rfl⟩ := Option.map_eq_some_iff.mp hs
      exact h.frames (frames_rename ht) (fun y hy => hy ▸ ha.2) fun _ hy => hy.elim
    | free mem =>
      obtain ⟨t, ht, rfl⟩ := Option.map_eq_some_iff.mp hs
      exact h.frames (frames_free ht) (fun _ hy => hy.elim) fun y hy => ⟨hy.1 ▸ ha, hy.2⟩
    | activate mem =>
      obtain ⟨t, ht, rfl⟩ := Option.map_eq_some_iff.mp hs
      exact h.still (frames_activate ht)
    | deactivate mem =>
      cases Option.some.inj hs
      exact h.still (frames_deactivate s.vm mem)
    | wire mem =>
      cases Option.some.inj hs
      exact h.still (frames_wire s.vm mem)
    | unwire mem =>
      cases Option.some.inj hs
      exact h.still (frames_unwire s.vm mem)
    | queuesRemove mem =>
      cases Option.some.inj hs
      exact h.still (frames_queuesRemove s.vm mem)
  | device mem o off addr =>
    obtain ⟨t, ht, rfl⟩ := Option.map_eq_some_iff.mp hs
    exact device_inv h ha.2 ht
  | set mem p =>
    cases Option.some.inj hs
    exact h.still (.setPage ha.1 ha.2)

theorem PhysStart.inv {s : PhysState} (h : PhysStart s) : FrameInv r s := by
  obtain ⟨⟨mask, reserved, hvm⟩, hmade⟩ := h
  exact ⟨fun mem hm => by simp [hmade] at hm, by simp [hvm], by simp [hvm], by simp [hvm]⟩

theorem pagesIn_memq {start endAddr : VmOffset} (h : mem ∈ pagesIn s o start endAddr) : mem ∈ (s.object o).memq :=
  List.mem_of_mem_filter h

theorem FrameInv.found {s : PhysState} (h : FrameInv r s) {c : VmCall} {x : PmapRoutine × PageId}
    (hx : x ∈ c.pmapCalls s.vm) : s.made x.2 = true := by
  have lookup : ∀ {o off mem}, mem ∈ (vmPageLookup s.vm o off).toList → s.made mem = true := fun hm =>
    h.bucket _ _ (List.mem_of_find?_eq_some (Option.mem_toList.mp hm))
  cases c with
  | alloc =>
    obtain ⟨mem, hm, rfl⟩ := List.mem_map.mp hx
    exact (h.free mem (List.mem_of_getLast? (Option.mem_toList.mp hm))).1
  | terminate o =>
    simp only [VmCall.pmapCalls] at hx
    split at hx
    next => simp at hx
    next =>
      obtain ⟨mem, hm, rfl⟩ := List.mem_map.mp hx
      exact h.memq o mem (List.mem_of_mem_filter hm)
  | pmapCopy o start endAddr =>
    obtain ⟨mem, hm, rfl⟩ := List.mem_map.mp hx
    exact h.memq o mem (pagesIn_memq hm)
  | pmapRemove o start endAddr =>
    obtain ⟨mem, hm, rfl⟩ := List.mem_map.mp hx
    exact h.memq o mem (pagesIn_memq hm)
  | copyCall o start endAddr =>
    obtain ⟨mem, hm, rfl⟩ := List.mem_map.mp hx
    exact h.memq o mem (pagesIn_memq (List.mem_of_mem_filter hm))
  | copyDelay o =>
    obtain ⟨mem, hm, rfl⟩ := List.mem_map.mp hx
    exact h.memq o mem hm
  | pageRemove o start endAddr =>
    obtain ⟨mem, hm, rfl⟩ := List.mem_map.mp hx
    exact h.memq o mem (pagesIn_memq hm)
  | lockRequest o offset shouldClean shouldFlush prot =>
    obtain ⟨mem, hm, hx⟩ := List.mem_flatMap.mp hx
    obtain ⟨f, -, rfl⟩ := List.mem_map.mp hx
    exact lookup hm
  | pagedIn o offset =>
    obtain ⟨mem, hm, rfl⟩ := List.mem_map.mp hx
    exact lookup hm
  | faultCopy o offset =>
    obtain ⟨mem, hm, rfl⟩ := List.mem_map.mp hx
    exact lookup hm
  | flush o offset =>
    obtain ⟨mem, hm, rfl⟩ := List.mem_map.mp hx
    exact lookup hm

theorem index_lt_iff (f : PmapRoutine) :
    (∀ i ∈ f.index? r pa, i < r.npages) ↔ (f.copiesOnWrite = true → r.managedPhys pa = true) := by
  have guarded : ∀ i ∈ (if r.managedPhys pa then some (r.paIndex pa) else none), i < r.npages := fun i hi => by
    split at hi
    next hm =>
      cases Option.some.inj hi
      exact paIndex_lt.mpr hm
    next => simp at hi
  have free : (∀ i ∈ some (r.paIndex pa), i < r.npages) ↔ r.managedPhys pa = true := by
    rw [← paIndex_lt]
    exact ⟨fun h => h _ rfl, fun h i hi => Option.some.inj hi ▸ h⟩
  cases f with
  | copyOnWrite => exact free.trans ⟨fun h _ => h, fun h => h rfl⟩
  | pageProtect prot =>
    simp only [PmapRoutine.index?, PmapRoutine.copiesOnWrite, Bool.or_eq_true, beq_iff_eq]
    split
    next hp => exact free.trans ⟨fun h _ => h, fun h => h hp⟩
    next hp =>
      refine iff_of_true ?_ fun h => absurd h hp
      split
      next => simp
      next => exact guarded
  | _ => exact iff_of_true guarded fun h => by simp [PmapRoutine.copiesOnWrite] at h

/-- An index is used that the tables do not have exactly when write access is taken from a page that is not of a
managed frame, and those pages are place-holders and pages of devices. -/
theorem tables_indexed_iff {s : PhysState} (h : Reach PhysStart physStep (PhysPre r) s) (c : VmCall) :
    (∀ x ∈ c.pmapCalls s.vm, ∀ i ∈ x.1.index? r (s.vm.page x.2).physAddr, i < r.npages) ↔
      ∀ x ∈ c.pmapCalls s.vm, x.1.copiesOnWrite = true → (s.vm.page x.2).fictitious = true →
        r.managedPhys (s.vm.page x.2).physAddr = true := by
  have hinv : FrameInv r s := Reach.invariant (fun _ hs => hs.inv) (fun _ _ _ hp ha hs => physStep_inv hp ha hs) h
  constructor
  · intro hlt x hx hc _
    exact (index_lt_iff x.1).mp (hlt x hx) hc
  · intro hf x hx
    refine (index_lt_iff x.1).mpr fun hc => ?_
    rcases hinv.known x.2 (hinv.found hx) with hfict | hm
    · exact hf x hx hc hfict
    · exact hm

/-- A machine with two managed frames. -/
def twoFrames : PhysRange where
  first := 4096
  last := 12288
  first_le := by decide
  pages := by decide

def noPages : PhysState := ⟨{ hashMask := 0, freeReserved := 0 }, fun _ => false⟩

theorem noPages_start : PhysStart noPages := ⟨⟨0, 0, rfl⟩, fun _ => rfl⟩

def onePage : PhysState :=
  (runIf physStep (PhysPre twoFrames) noPages
    [.page (.create 0 4096), .page (.alloc (some 1) 0 true)]).getD noPages

/-- The page of object 1 is being paged out. -/
def pagingOut : PhysState :=
  (runIf physStep (PhysPre twoFrames) noPages
    [.page (.create 0 4096), .page (.alloc (some 1) 0 true), .page (.remove 0), .page (.fictitious 7 1 0),
      .page (.insert 0 2 0)]).getD noPages

/-- A copy of object 1 refers to the frame of its page, which is managed. -/
theorem onePage_indexed : (VmCall.copyDelay 1).pmapCalls onePage.vm ≠ [] ∧
    ∀ x ∈ (VmCall.copyDelay 1).pmapCalls onePage.vm,
      ∀ i ∈ x.1.index? twoFrames (onePage.vm.page x.2).physAddr, i < twoFrames.npages := by
  have hreach : Reach PhysStart physStep (PhysPre twoFrames) onePage := Reach.runD (.start noPages_start) (by decide)
  exact ⟨by decide, (tables_indexed_iff hreach (.copyDelay 1)).mpr (by decide)⟩

/-- A copy of object 1 takes the place-holder to entry 1048575 of two. -/
theorem pagingOut_beyond :
    Reach PhysStart physStep (PhysPre twoFrames) pagingOut ∧
      ¬ ∀ x ∈ (VmCall.copyDelay 1).pmapCalls pagingOut.vm,
        ∀ i ∈ x.1.index? twoFrames (pagingOut.vm.page x.2).physAddr, i < twoFrames.npages :=
  ⟨Reach.runD (.start noPages_start) (by decide), by decide⟩

end MachVM

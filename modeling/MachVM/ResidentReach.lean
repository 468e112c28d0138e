import MachVM.ResidentSteps

namespace MachVM

/-- The operations on resident pages, with the cells the machine and the place-holder
zone bring in. -/
inductive PageOp
  | create (mem : PageId) (physAddr : VmOffset)
  | fictitious (mem : PageId) (object : ObjId) (offset : VmOffset)
  | alloc (object : Option ObjId) (offset : VmOffset) (vmPrivilege : Bool)
  | insert (mem : PageId) (object : ObjId) (offset : VmOffset)
  | remove (mem : PageId)
  | rename (mem : PageId) (newObject : ObjId) (newOffset : VmOffset)
  | free (mem : PageId)
  | activate (mem : PageId)
  | deactivate (mem : PageId)
  | wire (mem : PageId)
  | unwire (mem : PageId)
  | queuesRemove (mem : PageId)

def pageStep (s : VmState) : PageOp → Option VmState
  | .create mem pa => vmPageCreate s mem pa
  | .fictitious mem o off => vmPageFictitious s mem o off
  | .alloc o off priv => (vmPageAlloc s o off priv).map Prod.fst
  | .insert mem o off => vmPageInsert s mem o off
  | .remove mem => some (vmPageRemove s mem)
  | .rename mem o off => vmPageRename s mem o off
  | .free mem => vmPageFree s mem
  | .activate mem => vmPageActivate s mem
  | .deactivate mem => some (vmPageDeactivate s mem)
  | .wire mem => some (vmPageWire s mem)
  | .unwire mem => some (vmPageUnwire s mem)
  | .queuesRemove mem => some (vmPageQueuesRemove s mem)

/-- A cell that is on no queue and in no object. -/
def UnusedCell (s : VmState) (mem : PageId) : Prop :=
  (s.page mem).free = false ∧ (s.page mem).active = false ∧ (s.page mem).inactive = false ∧
    (s.page mem).tabled = false

/-- What callers owe: they hold the page rather than find it on the free list, an
insertion is for a pair whose lookup was null, and only a wired page is unwired. -/
def PagePre (s : VmState) : PageOp → Prop
  | .create mem _ => UnusedCell s mem
  | .fictitious mem o off => UnusedCell s mem ∧ vmPageLookup s o off = none
  | .alloc o off _ => ∀ x ∈ o, vmPageLookup s x off = none
  | .insert mem o off => (s.page mem).free = false ∧ vmPageLookup s o off = none
  | .rename mem o off => (s.page mem).free = false ∧
      ((s.page mem).object ≠ some o → vmPageLookup s o off = none)
  | .activate mem => (s.page mem).free = false
  | .wire mem => (s.page mem).free = false
  | .unwire mem => (s.page mem).free = false ∧ (s.page mem).wireCount ≠ 0
  | .remove _ | .free _ | .deactivate _ | .queuesRemove _ => True

/-- States reached from empty queues by operations that keep to their preconditions
and do not panic. -/
inductive PageReach : VmState → Prop
  | start (mask : VmOffset) (reserved : Int) :
      PageReach { hashMask := mask, freeReserved := reserved }
  | step {s t : VmState} (op : PageOp) : PageReach s → PagePre s op → pageStep s op = some t →
      PageReach t

theorem pageStep_resident {s t : VmState} {op : PageOp} (h : ResidentInv s) (hp : PagePre s op)
    (he : pageStep s op = some t) : ResidentInv t := by
  cases op with
  | create mem pa =>
    obtain ⟨hf, ha, hi, ht⟩ := hp
    simp only [pageStep, vmPageCreate] at he
    obtain ⟨u, hu, he⟩ := Option.bind_eq_some_iff.mp he
    exact vmPageFree_resident (vmPageInit_resident h hf ha hi ht (by simp) hu) he
  | fictitious mem o off =>
    obtain ⟨⟨hf, ha, hi, ht⟩, hl⟩ := hp
    obtain ⟨u, hu, he⟩ := Option.map_eq_some_iff.mp he
    subst he
    refine (vmPageInit_resident h hf ha hi ht ?_ hu).setPage ⟨rfl, rfl, rfl, rfl⟩ ⟨rfl, rfl, rfl⟩
    intro x hx
    cases Option.some.inj hx
    exact hl
  | alloc o off priv =>
    obtain ⟨⟨u, m⟩, hu, he⟩ := Option.map_eq_some_iff.mp he
    subst he
    exact vmPageAlloc_resident h (fun x hx => hp x hx) hu
  | insert mem o off => exact vmPageInsert_resident h hp.1 hp.2 he
  | remove mem => cases Option.some.inj he; exact vmPageRemove_resident h mem
  | rename mem o off => exact vmPageRename_resident h hp.1 hp.2 he
  | free mem => exact vmPageFree_resident h he
  | activate mem => exact vmPageActivate_resident h hp he
  | deactivate mem => cases Option.some.inj he; exact vmPageDeactivate_resident h mem
  | wire mem => cases Option.some.inj he; exact vmPageWire_resident h mem
  | unwire mem => cases Option.some.inj he; exact vmPageUnwire_resident h hp.1 hp.2
  | queuesRemove mem => cases Option.some.inj he; exact vmPageQueuesRemove_resident h mem

theorem residentInv_start (mask : VmOffset) (reserved : Int) :
    ResidentInv { hashMask := mask, freeReserved := reserved } := by
  constructor
  · constructor
    all_goals simp [Mirror.mirrors_nil]
  · constructor
    all_goals simp [Mirror.mirrors_nil]
  · simp

theorem pageReach_resident {s : VmState} (h : PageReach s) : ResidentInv s := by
  induction h with
  | start mask reserved => exact residentInv_start mask reserved
  | step op _ hp he ih => exact pageStep_resident ih hp he

/-- Resident-page bookkeeping, as the users of the module rely on it. -/
structure PageBookkeeping (s : VmState) : Prop where
  at_most_one_queue : ∀ p, ¬(p ∈ s.queueFree ∧ p ∈ s.queueActive) ∧
    ¬(p ∈ s.queueFree ∧ p ∈ s.queueInactive) ∧ ¬(p ∈ s.queueActive ∧ p ∈ s.queueInactive)
  queued_once : s.queueFree.Nodup ∧ s.queueActive.Nodup ∧ s.queueInactive.Nodup
  flags_exact : ∀ p, ((s.page p).free = true ↔ p ∈ s.queueFree) ∧
    ((s.page p).active = true ↔ p ∈ s.queueActive) ∧
    ((s.page p).inactive = true ↔ p ∈ s.queueInactive)
  counts_exact : s.freeCount = s.queueFree.length ∧ s.activeCount = s.queueActive.length ∧
    s.inactiveCount = s.queueInactive.length
  wired_unqueued : ∀ p, (s.page p).wireCount ≠ 0 → p ∉ s.queueActive ∧ p ∉ s.queueInactive
  tabled_hashed : ∀ p b, p ∈ s.bucket b ↔ (s.page p).tabled = true ∧
    ∃ o, (s.page p).object = some o ∧ b = vmPageHash s.hashMask o (s.page p).offset
  tabled_listed : ∀ p o, p ∈ (s.object o).memq ↔
    (s.page p).tabled = true ∧ (s.page p).object = some o
  tabled_owned : ∀ p, (s.page p).tabled = true → ∃ o, (s.page p).object = some o
  resident_exact : ∀ o, (s.object o).memq.Nodup ∧
    (s.object o).residentPageCount = (s.object o).memq.length
  pair_unique : ∀ p q, (s.page p).tabled = true → (s.page q).tabled = true →
    (s.page p).object = (s.page q).object → (s.page p).offset = (s.page q).offset → p = q
  lookup_exact : ∀ o off p, vmPageLookup s o off = some p ↔
    (s.page p).tabled = true ∧ (s.page p).object = some o ∧ (s.page p).offset = off

theorem pageReach_bookkeeping {s : VmState} (h : PageReach s) : PageBookkeeping s := by
  have hi := pageReach_resident h
  have hq := hi.queues
  constructor
  · intro p
    rw [hq.free.mem_iff, hq.active.mem_iff, hq.inactive.mem_iff]
    have hidle := hq.free_idle p
    have halone := hq.active_alone p
    refine ⟨?_, ?_, ?_⟩
    · rintro ⟨hf, ha⟩
      simp [(hidle hf).1] at ha
    · rintro ⟨hf, hin⟩
      simp [(hidle hf).2] at hin
    · rintro ⟨ha, hin⟩
      simp [halone ha] at hin
  · exact ⟨hq.free.nodup, hq.active.nodup, hq.inactive.nodup⟩
  · intro p
    exact ⟨(hq.free.mem_iff p).symm, (hq.active.mem_iff p).symm, (hq.inactive.mem_iff p).symm⟩
  · exact ⟨hq.freeCount, hq.activeCount, hq.inactiveCount⟩
  · intro p hw
    rw [hq.active.mem_iff, hq.inactive.mem_iff]
    have := hq.wired p hw
    simp [this.1, this.2]
  · intro p b
    exact (hi.table.bucket b).mem_iff p
  · intro p o
    exact (hi.table.memq o).mem_iff p
  · intro p ht
    exact Option.ne_none_iff_exists'.mp (hi.table.owned p ht)
  · intro o
    exact ⟨(hi.table.memq o).nodup, hi.table.count o⟩
  · exact hi.table.unique
  · intro o off p
    exact vmPageLookup_eq_some hi.table

instance (s : VmState) (mem : PageId) : Decidable (UnusedCell s mem) :=
  inferInstanceAs (Decidable (_ ∧ _ ∧ _ ∧ _))

instance : (s : VmState) → (op : PageOp) → Decidable (PagePre s op)
  | s, .create mem _ => inferInstanceAs (Decidable (UnusedCell s mem))
  | _, .fictitious .. => inferInstanceAs (Decidable (_ ∧ _))
  | s, .alloc o off _ => inferInstanceAs (Decidable (∀ x ∈ o, vmPageLookup s x off = none))
  | _, .insert .. => inferInstanceAs (Decidable (_ ∧ _))
  | s, .rename mem o off => inferInstanceAs (Decidable ((s.page mem).free = false ∧
      ((s.page mem).object ≠ some o → vmPageLookup s o off = none)))
  | s, .activate mem => inferInstanceAs (Decidable ((s.page mem).free = false))
  | s, .wire mem => inferInstanceAs (Decidable ((s.page mem).free = false))
  | _, .unwire _ => inferInstanceAs (Decidable (_ ∧ _))
  | _, .remove _ | _, .free _ | _, .deactivate _ | _, .queuesRemove _ => inferInstanceAs (Decidable True)

/-- Run a list of operations, each checked against its precondition. -/
def pageRun (s : VmState) : List PageOp → Option VmState
  | [] => some s
  | op :: ops => if PagePre s op then (pageStep s op).bind fun t => pageRun t ops else none

theorem pageRun_reach {s t : VmState} {ops : List PageOp} (h : PageReach s)
    (he : pageRun s ops = some t) : PageReach t := by
  induction ops generalizing s with
  | nil => cases Option.some.inj he; exact h
  | cons op ops ih =>
    simp only [pageRun] at he
    split at he
    next hp =>
      obtain ⟨u, hu, he⟩ := Option.bind_eq_some_iff.mp he
      exact ih (PageReach.step op h hp hu) he
    next => simp at he

/-- One page cell is made, allocated to an object, wired, and freed while still wired. -/
def freedWired : Option VmState :=
  pageRun { hashMask := 0, freeReserved := 0 }
    [.create 0 4096, .alloc (some 1) 0 false, .wire 0, .free 0]

/-- A wired page can be on the free queue: `vm_page_free` leaves the wire count alone. -/
theorem freed_page_keeps_wire_count :
    ¬∀ s, PageReach s → ∀ p, (s.page p).wireCount ≠ 0 →
      p ∉ s.queueFree ∧ p ∉ s.queueActive ∧ p ∉ s.queueInactive := by
  intro hall
  have hrun : freedWired.map (fun s => ((s.page 0).wireCount, s.queueFree)) = some (1, [0]) := by
    decide
  obtain ⟨s, hs, hv⟩ := Option.map_eq_some_iff.mp hrun
  have hw : (s.page 0).wireCount = 1 := congrArg Prod.fst hv
  have hq : s.queueFree = [0] := congrArg Prod.snd hv
  have hreach : PageReach s := pageRun_reach (PageReach.start 0 0) hs
  have := (hall s hreach 0 (by simp [hw])).1
  simp [hq] at this

/-- The state after the same run keeps the bookkeeping, stale wire count included. -/
theorem freedWired_bookkeeping : ∃ s, freedWired = some s ∧ PageBookkeeping s := by
  have hrun : freedWired.isSome = true := by decide
  obtain ⟨s, hs⟩ := Option.isSome_iff_exists.mp hrun
  exact ⟨s, hs, pageReach_bookkeeping (pageRun_reach (PageReach.start 0 0) hs)⟩

end MachVM

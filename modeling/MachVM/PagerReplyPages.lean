import MachVM.MemoryObjectSteps
import MachVM.ObjectContent
import MachVM.PagerReply

namespace MachVM
namespace Pager

variable {s t u : VmState} {mem : PageId} {o : ObjId} {off : VmOffset} {lock : VmProt} {priv : Bool}

/-- A page that the data of a reply goes into. -/
def waits (p : VmPage) : Bool := p.busy && p.absent && !p.fictitious

/-- The free queue is left alone. -/
structure SamePool (s t : VmState) : Prop where
  queue : t.queueFree = s.queueFree
  count : t.freeCount = s.freeCount
  reserved : t.freeReserved = s.freeReserved

theorem SamePool.refl (s : VmState) : SamePool s s := ⟨rfl, rfl, rfl⟩

theorem SamePool.trans (h : SamePool s t) (h' : SamePool t u) : SamePool s u :=
  ⟨h'.queue.trans h.queue, h'.count.trans h.count, h'.reserved.trans h.reserved⟩

/-- One page is worked on. It keeps its frame and is resident at no offset but the given one;
the other pages stay as they are. -/
structure Turn (s t : VmState) (mem : PageId) (off : VmOffset) : Prop where
  resident : ResidentInv t
  before : (s.page mem).tabled = true → (s.page mem).offset = off
  after : (t.page mem).tabled = true → (t.page mem).offset = off
  others : ∀ p, p ≠ mem → t.page p = s.page p
  frame : (t.page mem).physAddr = (s.page mem).physAddr

/-- The page is where the reply says, and its data is there. -/
structure Served (t : VmState) (mem : PageId) (o : ObjId) (off : VmOffset) (lock : VmProt) : Prop where
  tabled : (t.page mem).tabled = true
  object : (t.page mem).object = some o
  offset : (t.page mem).offset = off
  present : (t.page mem).absent = false
  idle : (t.page mem).busy = false
  locked : (t.page mem).pageLock = lock

theorem Turn.physAddr (h : Turn s t mem off) (p : PageId) : (t.page p).physAddr = (s.page p).physAddr := by
  by_cases hp : p = mem
  · rw [hp]
    exact h.frame
  · rw [h.others p hp]

theorem Turn.lookup_ne {off' : VmOffset} (h : Turn s t mem off) (hs : ResidentInv s) (hoff : off' ≠ off) :
    vmPageLookup t o off' = vmPageLookup s o off' := by
  apply Option.ext
  intro q
  rw [vmPageLookup_eq_some h.resident.table, vmPageLookup_eq_some hs.table]
  by_cases hq : q = mem
  · subst hq
    constructor
    · rintro ⟨ht, -, ho⟩
      exact absurd (ho.symm.trans (h.after ht)) hoff
    · rintro ⟨ht, -, ho⟩
      exact absurd (ho.symm.trans (h.before ht)) hoff
  · rw [h.others q hq]

theorem vmPageActivate_turn (hu : ResidentInv u) (hf : (u.page mem).free = false)
    (ha : (u.page mem).active = false) : ∃ t, vmPageActivate u mem = some t ∧ ResidentInv t ∧ SamePool u t ∧
      t.page = Function.update u.page mem { u.page mem with
        inactive := false, active := decide ((u.page mem).wireCount = 0) } := by
  have hstep : ∀ v : VmState, (v.page mem).active = false → ∃ t,
      (if (v.page mem).wireCount = 0 then if (v.page mem).active then none else some (enterActive v mem)
        else some v) = some t ∧ SamePool v t ∧
        t.page = Function.update v.page mem { v.page mem with active := decide ((v.page mem).wireCount = 0) } := by
    intro v hv
    by_cases hw : (v.page mem).wireCount = 0
    · exact ⟨enterActive v mem, by simp [hw, hv], ⟨rfl, rfl, rfl⟩, by simp [enterActive, hw]⟩
    · refine ⟨v, by simp [hw], SamePool.refl v, ?_⟩
      simp [hw, ← hv]
  have hnow : ∃ t, vmPageActivate u mem = some t ∧ SamePool u t ∧ t.page = Function.update u.page mem
      { u.page mem with inactive := false, active := decide ((u.page mem).wireCount = 0) } := by
    unfold vmPageActivate
    cases hi : (u.page mem).inactive with
    | true =>
      obtain ⟨t, ht, hpool, hpage⟩ := hstep (leaveInactive u mem) (by simp [leaveInactive, ha])
      refine ⟨t, ht, ⟨hpool.queue, hpool.count, hpool.reserved⟩, ?_⟩
      rw [hpage]
      simp [leaveInactive]
    | false =>
      obtain ⟨t, ht, hpool, hpage⟩ := hstep u ha
      refine ⟨t, ht, hpool, ?_⟩
      rw [hpage, ← hi]
  obtain ⟨t, ht, hpool, hpage⟩ := hnow
  exact ⟨t, ht, vmPageActivate_resident hu hf ht, hpool, hpage⟩

theorem dataSupplied_turn (off : VmOffset) (lock : VmProt) (hu : ResidentInv u) (ht : (u.page mem).tabled = true)
    (ho : (u.page mem).object = some o) (hoff : (u.page mem).offset = off) (ha : (u.page mem).absent = false) :
    ∃ t, dataSupplied u mem lock = some t ∧ Turn u t mem off ∧ SamePool u t ∧ Served t mem o off lock := by
  have hf : (u.page mem).free = false := by
    cases hfree : (u.page mem).free with
    | false => rfl
    | true => rw [hu.free_untabled mem hfree] at ht; cases ht
  generalize hv : pageWakeup (u.modPage mem fun p => { p with
    modified := false, pageLock := lock, unlockRequest := protNone }) mem = v
  have hpage : v.page = Function.update u.page mem { u.page mem with
      modified := false, pageLock := lock, unlockRequest := protNone, busy := false, wanted := false } := by
    rw [← hv]
    simp [pageWakeup, VmState.modPage]
  have hres : ResidentInv v := by
    rw [← hv]
    apply pageWakeup_resident
    exact hu.setPage ⟨rfl, rfl, rfl, rfl⟩ ⟨rfl, rfl, rfl⟩
  have hpool : SamePool u v := by
    rw [← hv]
    exact ⟨rfl, rfl, rfl⟩
  have hgo : dataSupplied u mem lock = if (v.page mem).active then some v else vmPageActivate v mem := by
    rw [← hv]
    rfl
  rw [hgo]
  cases hact : (v.page mem).active with
  | true =>
    have hserved : Served v mem o off lock := by
      constructor <;> rw [hpage, Function.update_self] <;> assumption
    refine ⟨v, rfl, ⟨hres, fun _ => hoff, fun _ => hserved.offset, ?_, ?_⟩, hpool, hserved⟩
    · intro p hp
      rw [hpage, Function.update_of_ne hp]
    · rw [hpage, Function.update_self]
  | false =>
    obtain ⟨t, htv, hrt, hpt, hpaget⟩ :=
      vmPageActivate_turn hres (by rw [hpage, Function.update_self]; exact hf) hact
    have hserved : Served t mem o off lock := by
      constructor <;> rw [hpaget, Function.update_self, hpage, Function.update_self] <;> assumption
    refine ⟨t, htv, ⟨hrt, fun _ => hoff, fun _ => hserved.offset, ?_, ?_⟩, hpool.trans hpt, hserved⟩
    · intro p hp
      rw [hpaget, Function.update_of_ne hp, hpage, Function.update_of_ne hp]
    · rw [hpaget, Function.update_self, hpage, Function.update_self]

theorem supplyTo_waits (off : VmOffset) (lock : VmProt) (hs : ResidentInv s) (ht : (s.page mem).tabled = true)
    (ho : (s.page mem).object = some o) (hoff : (s.page mem).offset = off) (hw : waits (s.page mem) = true) :
    ∃ t, supplyTo s o mem lock = some (t, .filled mem) ∧ Turn s t mem off ∧ SamePool s t ∧
      Served t mem o off lock := by
  have hb : (s.page mem).busy = true ∧ (s.page mem).absent = true ∧ (s.page mem).fictitious = false := by
    simpa [waits, and_assoc] using hw
  generalize hv : vmObjectAbsentRelease (s.modPage mem fun p => { p with absent := false }) (some o) = v
  have hpage : v.page = Function.update s.page mem { s.page mem with absent := false } := by
    rw [← hv, vmObjectAbsentRelease_page]
    rfl
  have hres : ResidentInv v := by
    rw [← hv]
    apply vmObjectAbsentRelease_resident
    exact hs.setPage ⟨rfl, rfl, rfl, rfl⟩ ⟨rfl, rfl, rfl⟩
  have hpool : SamePool s v := by
    rw [← hv]
    exact ⟨rfl, rfl, rfl⟩
  have hgo : supplyTo s o mem lock = (dataSupplied v mem lock).map fun s => (s, .filled mem) := by
    rw [← hv]
    simp [supplyTo, acceptData, hb]
  obtain ⟨t, htv, hturn, hpt, hserved⟩ := dataSupplied_turn off lock hres
    (by rw [hpage, Function.update_self]; exact ht) (by rw [hpage, Function.update_self]; exact ho)
    (by rw [hpage, Function.update_self]; exact hoff) (by rw [hpage, Function.update_self])
  refine ⟨t, by rw [hgo, htv]; rfl, ⟨hturn.resident, fun _ => hoff, hturn.after, ?_, ?_⟩, hpool.trans hpt, hserved⟩
  · intro p hp
    rw [hturn.others p hp, hpage, Function.update_of_ne hp]
  · rw [hturn.frame, hpage, Function.update_self]

theorem vmPageRemove_pool (s : VmState) (mem : PageId) : SamePool s (vmPageRemove s mem) := by
  simp only [vmPageRemove]
  split
  next => exact ⟨rfl, rfl, rfl⟩
  next => exact SamePool.refl s

theorem vmPageQueuesRemove_pool (s : VmState) (mem : PageId) : SamePool s (vmPageQueuesRemove s mem) := by
  simp only [vmPageQueuesRemove]
  split <;> split <;> exact ⟨rfl, rfl, rfl⟩

theorem supplyTo_fictitious (o : ObjId) (lock : VmProt) (hs : ResidentInv s) (ht : (s.page mem).tabled = true)
    (hoff : (s.page mem).offset = off) (hb : (s.page mem).busy = true) (ha : (s.page mem).absent = true)
    (hf : (s.page mem).fictitious = true) :
    ∃ t, supplyTo s o mem lock = some (t, .dropped) ∧ Turn s t mem off ∧ SamePool s t := by
  obtain ⟨t, hfree⟩ := vmPageFree_tabled hs ht
  refine ⟨t, by simp [supplyTo, hb, ha, hf, hfree], ?_⟩
  have hres := vmPageFree_resident hs hfree
  unfold vmPageFree at hfree
  split at hfree
  next => cases hfree
  next =>
    simp only at hfree
    generalize hu : vmPageQueuesRemove (vmPageRemove s mem) mem = v at hfree
    have hv : v.page = Function.update s.page mem
        { s.page mem with tabled := false, active := false, inactive := false } := by
      rw [← hu, vmPageQueuesRemove_page, vmPageRemove_page hs.table]
      simp
    have hvp : SamePool s v := by
      rw [← hu]
      exact (vmPageRemove_pool s mem).trans (vmPageQueuesRemove_pool _ mem)
    generalize hw : pageWakeup (laundryRelease v mem) mem = w at hfree
    have hwpage : w.page = Function.update s.page mem { s.page mem with
        tabled := false, active := false, inactive := false, laundry := false, busy := false, wanted := false } := by
      rw [← hw]
      simp [pageWakeup, laundryRelease, hv]
    have hwp : SamePool s w := by
      rw [← hw]
      exact hvp.trans ⟨rfl, rfl, rfl⟩
    have hstay : (w.page mem).absent = true ∧ (w.page mem).fictitious = true := by
      rw [hwpage, Function.update_self]
      exact ⟨ha, hf⟩
    simp only [hstay.1, vmObjectAbsentRelease_page, hstay.2, if_true] at hfree
    cases Option.some.inj hfree
    have hpool : SamePool s (vmObjectAbsentRelease w (w.page mem).object) := by
      refine hwp.trans ?_
      cases (w.page mem).object <;> exact ⟨rfl, rfl, rfl⟩
    refine ⟨⟨hres, fun _ => hoff, ?_, ?_, ?_⟩, hpool⟩
    · rw [vmObjectAbsentRelease_page, hwpage, Function.update_self]
      exact fun _ => hoff
    · intro p hp
      rw [vmObjectAbsentRelease_page, hwpage, Function.update_of_ne hp]
    · rw [vmObjectAbsentRelease_page, hwpage, Function.update_self]

theorem erase_last {q : List PageId} (hn : q.Nodup) (hl : q.getLast? = some mem) :
    (queueRemove q mem).reverse = q.reverse.tail := by
  obtain ⟨ys, rfl⟩ := List.getLast?_eq_some_iff.mp hl
  have hno : mem ∉ ys := fun h => (List.nodup_append.mp hn).2.2 mem h mem (List.mem_singleton.mpr rfl) rfl
  rw [queueRemove, List.erase_append_right _ hno]
  simp

theorem supplyPage_allocates (lock : VmProt) (hs : ResidentInv s) (hno : vmPageLookup s o off = none)
    (hl : s.queueFree.getLast? = some mem) (hr : ¬(s.freeCount < s.freeReserved ∧ priv = false)) :
    ∃ t, supplyPage s o off priv lock = some (t, .filled mem) ∧ Turn s t mem off ∧
      t.queueFree.reverse = s.queueFree.reverse.tail ∧ t.freeCount = s.freeCount - 1 ∧
      t.freeReserved = s.freeReserved ∧ Served t mem o off lock := by
  have hfree : (s.page mem).free = true := (hs.queues.free.mem_iff mem).mp (List.mem_of_getLast? hl)
  have hsome : ∃ u, vmPageAlloc s (some o) off priv = some (u, some mem) := by
    simp [vmPageAlloc, hl, hr, vmPageInit, vmPageInsert, vmPageTemplate]
  obtain ⟨u, hu⟩ := hsome
  have hres : ResidentInv u := vmPageAlloc_resident hs (by rintro x ⟨rfl⟩; exact hno) hu
  have hinit := hu
  simp only [vmPageAlloc, hl, if_neg hr] at hinit
  obtain ⟨v, hv, hv'⟩ := Option.map_eq_some_iff.mp hinit
  cases hv'
  have hpage : u.page = Function.update s.page mem
      { vmPageTemplate (s.page mem) (s.page mem).physAddr with
        object := some o, offset := off, tabled := true } := by
    have := (vmPageInsert_page hv).2
    simpa using this
  have hpool : u.queueFree = queueRemove s.queueFree mem ∧ u.freeCount = s.freeCount - 1 ∧
      u.freeReserved = s.freeReserved := by
    change vmPageInsert _ mem o off = some u at hv
    unfold vmPageInsert at hv
    split at hv
    next => cases hv
    next =>
      cases Option.some.inj hv
      exact ⟨rfl, rfl, rfl⟩
  have hmark : (markAbsent u o mem).page = Function.update s.page mem
      { vmPageTemplate (s.page mem) (s.page mem).physAddr with
        object := some o, offset := off, tabled := true, busy := true, absent := true } := by
    have hu : (markAbsent u o mem).page =
        Function.update u.page mem { u.page mem with busy := true, absent := true } := rfl
    rw [hu, hpage]
    simp
  have hresm : ResidentInv (markAbsent u o mem) := by
    apply ResidentInv.modObject
    · exact hres.setPage ⟨rfl, rfl, rfl, rfl⟩ ⟨rfl, rfl, rfl⟩
    · exact fun _ => ⟨rfl, rfl⟩
  obtain ⟨t, ht, hturn, hpt, hserved⟩ := supplyTo_waits off lock hresm
    (by rw [hmark, Function.update_self]) (by rw [hmark, Function.update_self])
    (by rw [hmark, Function.update_self]) (by rw [hmark, Function.update_self]; rfl)
  refine ⟨t, ?_, ⟨hturn.resident, ?_, hturn.after, ?_, ?_⟩, ?_, ?_, ?_, hserved⟩
  · simp [supplyPage, hno, hu, ht]
  · rw [hs.free_untabled mem hfree]
    rintro ⟨⟩
  · intro p hp
    rw [hturn.others p hp, hmark, Function.update_of_ne hp]
  · rw [hturn.frame, hmark, Function.update_self]
    rfl
  · rw [hpt.queue]
    exact (congrArg List.reverse hpool.1).trans (erase_last hs.queues.free.nodup hl)
  · rw [hpt.count]
    exact hpool.2.1
  · rw [hpt.reserved]
    exact hpool.2.2

theorem supplyPage_short (hno : vmPageLookup s o off = none)
    (hl : s.queueFree = [] ∨ s.freeCount < s.freeReserved ∧ priv = false) :
    supplyPage s o off priv lock = some (s, .shortage) := by
  have ha : vmPageAlloc s (some o) off priv = some (s, none) := by
    unfold vmPageAlloc
    obtain hq | hr := hl
    · rw [hq]
      rfl
    · split
      next => rfl
      next => rw [if_pos hr]
  simp [supplyPage, hno, ha]

end Pager
end MachVM

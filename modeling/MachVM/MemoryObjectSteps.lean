import MachVM.CollapsePages
import MachVM.MemoryObjectPages

namespace MachVM

variable {s t : VmState} {mem : PageId} {o : ObjId}

theorem vmPageAlloc_page {off : VmOffset} {priv : Bool} (ha : vmPageAlloc s (some o) off priv = some (t, some mem)) :
    (t.page mem).tabled = true ∧ (t.page mem).object = some o ∧ (t.page mem).absent = false := by
  unfold vmPageAlloc at ha
  split at ha
  next => simp at ha
  next m _ =>
    split at ha
    next => simp at ha
    next =>
      obtain ⟨v, hv, hr⟩ := Option.map_eq_some_iff.mp ha
      cases hr
      have hp := (vmPageInsert_page hv).2
      simp [hp, vmPageTemplate]

theorem AbsentInv.mark (h : AbsentInv s) (ht : (s.page mem).tabled = true)
    (ho : (s.page mem).object = some o) (ha : (s.page mem).absent = false) :
    AbsentInv (markAbsent s o mem) := by
  constructor
  · apply ResidentInv.modObject
    · exact h.resident.setPage ⟨rfl, rfl, rfl, rfl⟩ ⟨rfl, rfl, rfl⟩
    · exact fun _ => ⟨rfl, rfl⟩
  · have hp : (markAbsent s o mem).page =
        Function.update s.page mem { s.page mem with busy := true, absent := true } := rfl
    refine h.counted.update hp ?_
    intro x
    have hb : absentIn x (s.page mem) = false := by simp [absentIn, ha]
    rw [hb]
    by_cases hx : x = o
    · subst hx
      simp [markAbsent, modObject_object, absentIn, ht, ho, VmState.modPage, VmState.setPage]
    · simp [markAbsent, modObject_object, absentIn, ho, hx, Ne.symm hx, VmState.modPage, VmState.setPage]

theorem AbsentInv.release (h : AbsentInv s) {b : VmPage} (ht : (s.page mem).tabled = true)
    (ho : (s.page mem).object = some o) (ha : (s.page mem).absent = true) (hb : b.absent = false)
    (hq : b.free = (s.page mem).free ∧ b.active = (s.page mem).active ∧
      b.inactive = (s.page mem).inactive ∧ b.wireCount = (s.page mem).wireCount)
    (hk : b.tabled = (s.page mem).tabled ∧ b.object = (s.page mem).object ∧ b.offset = (s.page mem).offset) :
    AbsentInv (vmObjectAbsentRelease (s.setPage mem b) (some o)) := by
  constructor
  · exact vmObjectAbsentRelease_resident (h.resident.setPage hq hk) _
  · have hp : (vmObjectAbsentRelease (s.setPage mem b) (some o)).page = Function.update s.page mem b := by
      rw [vmObjectAbsentRelease_page]
      rfl
    refine h.counted.update hp ?_
    intro x
    rw [vmObjectAbsentRelease_count]
    simp [absentIn, ht, ho, ha, hb, VmState.setPage]

theorem AbsentInv.same (h : AbsentInv s) (hr : ResidentInv t) (hs : SameAbsent s t) : AbsentInv t :=
  ⟨hr, h.counted.congr hs⟩

theorem AbsentInv.wakeup (h : AbsentInv s) (mem : PageId) : AbsentInv (pageWakeup s mem) :=
  h.same (pageWakeup_resident h.resident mem) (pageWakeup_absent s mem)

theorem AbsentInv.setPage (h : AbsentInv s) {b : VmPage}
    (hq : b.free = (s.page mem).free ∧ b.active = (s.page mem).active ∧
      b.inactive = (s.page mem).inactive ∧ b.wireCount = (s.page mem).wireCount)
    (hk : b.tabled = (s.page mem).tabled ∧ b.object = (s.page mem).object ∧ b.offset = (s.page mem).offset)
    (ha : b.absent = (s.page mem).absent) : AbsentInv (s.setPage mem b) := by
  refine h.same (h.resident.setPage hq hk) (.of_update rfl ?_ rfl)
  intro o
  simp [absentIn, hk.1, hk.2.1, ha]

theorem pageStep_absent {op : PageOp} (h : AbsentInv s) (hp : AbsentPre s (.page op))
    (he : pageStep s op = some t) : AbsentInv t := by
  cases op with
  | create mem pa =>
    simp only [pageStep, vmPageCreate] at he
    obtain ⟨v, hv, hf⟩ := Option.bind_eq_some_iff.mp he
    have hi : AbsentInv v := ⟨vmPageInit_resident h.resident hp.1 hp.2.1 hp.2.2.1 hp.2.2.2 (by simp) hv,
      AbsentInv.init h.counted hp.2.2.2 hv⟩
    apply hi.free _ hf
    cases Option.some.inj hv
    simp [vmPageTemplate]
  | alloc y off priv =>
    obtain ⟨⟨v, m⟩, hv, he⟩ := Option.map_eq_some_iff.mp he
    subst he
    exact vmPageAlloc_absent h (fun x hx => hp x hx) hv
  | free mem => exact h.free hp he
  | activate mem => exact h.same (vmPageActivate_resident h.resident hp he) (vmPageActivate_absent he)
  | deactivate mem =>
    cases Option.some.inj he
    exact h.same (vmPageDeactivate_resident h.resident mem) (vmPageDeactivate_absent s mem)
  | wire mem =>
    cases Option.some.inj he
    exact h.same (vmPageWire_resident h.resident mem) (vmPageWire_absent s mem)
  | unwire mem =>
    cases Option.some.inj he
    exact h.same (vmPageUnwire_resident h.resident hp.1 hp.2) (vmPageUnwire_absent s mem)
  | queuesRemove mem =>
    cases Option.some.inj he
    exact h.same (vmPageQueuesRemove_resident h.resident mem) (vmPageQueuesRemove_absent s mem)
  | fictitious | insert | remove | rename => exact hp.elim

theorem faultRequest_absent {off : VmOffset} {priv : Bool} (h : AbsentInv s)
    (he : faultRequest s o off priv = some t) : AbsentInv t := by
  unfold faultRequest at he
  split at he
  next => simp at he
  next hn =>
    have hl : vmPageLookup s o off = none := by
      by_contra hc
      exact hn (Or.inr hc)
    obtain ⟨⟨v, m⟩, hv, he⟩ := Option.bind_eq_some_iff.mp he
    have hi : AbsentInv v := by
      refine vmPageAlloc_absent h ?_ hv
      intro x hx
      cases Option.some.inj hx
      exact hl
    cases m with
    | none =>
      cases Option.some.inj he
      exact hi
    | some mem =>
      obtain ⟨ht, ho, ha⟩ := vmPageAlloc_page hv
      simp only at he
      split at he
      next => exact hi.free (fun _ => ht) he
      next =>
        cases Option.some.inj he
        exact hi.mark ht ho ha

theorem faultClaim_absent (h : AbsentInv s) (he : faultClaim s mem = some t) : AbsentInv t := by
  unfold faultClaim at he
  simp only at he
  split at he
  next hc =>
    obtain ⟨ht, -, -, ha⟩ := hc
    obtain ⟨o, ho⟩ := Option.ne_none_iff_exists'.mp (h.resident.table.owned mem ht)
    cases Option.some.inj he
    rw [ho]
    have hr : AbsentInv (vmObjectAbsentRelease
        (s.setPage mem { s.page mem with absent := false, busy := true }) (some o)) :=
      h.release ht ho ha rfl ⟨rfl, rfl, rfl, rfl⟩ ⟨rfl, rfl, rfl⟩
    exact hr.same (vmPageQueuesRemove_resident hr.resident mem) (vmPageQueuesRemove_absent _ mem)
  next => simp at he

theorem faultFound_absent (h : AbsentInv s) (mem : PageId) : AbsentInv (faultFound s mem) := by
  have hq : AbsentInv (vmPageQueuesRemove s mem) :=
    h.same (vmPageQueuesRemove_resident h.resident mem) (vmPageQueuesRemove_absent s mem)
  exact hq.setPage ⟨rfl, rfl, rfl, rfl⟩ ⟨rfl, rfl, rfl⟩ rfl

theorem acceptData_absent (h : AbsentInv s) (ht : (s.page mem).tabled = true)
    (ho : (s.page mem).object = some o) (he : acceptData s o mem = some t) : AbsentInv t := by
  unfold acceptData at he
  simp only at he
  split at he
  next hc =>
    split at he
    next => exact h.free (fun _ => ht) he
    next =>
      cases Option.some.inj he
      exact h.release ht ho (Bool.and_eq_true_iff.mp hc).2 rfl ⟨rfl, rfl, rfl, rfl⟩ ⟨rfl, rfl, rfl⟩
  next =>
    cases Option.some.inj he
    exact h

theorem dataProvided_absent {off : VmOffset} {priv : Bool} (h : AbsentInv s)
    (he : dataProvided s o off priv = some t) : AbsentInv t := by
  unfold dataProvided at he
  split at he
  next mem hl =>
    obtain ⟨ht, ho, -⟩ := (vmPageLookup_eq_some h.resident.table).mp hl
    exact acceptData_absent h ht ho he
  next hl =>
    obtain ⟨⟨v, m⟩, hv, he⟩ := Option.bind_eq_some_iff.mp he
    have hi : AbsentInv v := by
      refine vmPageAlloc_absent h ?_ hv
      intro x hx
      cases Option.some.inj hx
      exact hl
    cases m with
    | none =>
      cases Option.some.inj he
      exact hi
    | some mem =>
      obtain ⟨ht, ho, ha⟩ := vmPageAlloc_page hv
      refine acceptData_absent (hi.mark ht ho ha) ?_ ?_ he
      · simpa [markAbsent, VmState.modObject, VmState.modPage, VmState.setObject] using ht
      · simpa [markAbsent, VmState.modObject, VmState.modPage, VmState.setObject] using ho

theorem dataSupplied_absent {lock : VmProt} (h : AbsentInv s) (hf : (s.page mem).free = false)
    (he : dataSupplied s mem lock = some t) : AbsentInv t := by
  have hv : AbsentInv (pageWakeup (s.modPage mem fun p => { p with
      modified := false, pageLock := lock, unlockRequest := protNone }) mem) := by
    apply AbsentInv.wakeup
    exact h.setPage ⟨rfl, rfl, rfl, rfl⟩ ⟨rfl, rfl, rfl⟩ rfl
  unfold dataSupplied at he
  simp only at he
  split at he
  next =>
    cases Option.some.inj he
    exact hv
  next =>
    refine hv.same (vmPageActivate_resident hv.resident ?_ he) (vmPageActivate_absent he)
    simpa [pageWakeup, VmState.modPage] using hf

theorem dataErrorPage_absent {off : VmOffset} (h : AbsentInv s) (he : dataErrorPage o s off = some t) :
    AbsentInv t := by
  unfold dataErrorPage at he
  split at he
  next =>
    cases Option.some.inj he
    exact h
  next mem hl =>
    obtain ⟨ht, ho, -⟩ := (vmPageLookup_eq_some h.resident.table).mp hl
    split at he
    next ha =>
      split at he
      next => exact h.free (fun _ => ht) he
      next =>
        cases Option.some.inj he
        apply AbsentInv.wakeup
        exact h.release ht ho ha rfl ⟨rfl, rfl, rfl, rfl⟩ ⟨rfl, rfl, rfl⟩
    next =>
      cases Option.some.inj he
      exact h

theorem dataUnavailablePage_absent {off : VmOffset} (h : AbsentInv s)
    (he : dataUnavailablePage o s off = some t) : AbsentInv t := by
  unfold dataUnavailablePage at he
  split at he
  next =>
    cases Option.some.inj he
    exact h
  next mem hl =>
    obtain ⟨ht, -, -⟩ := (vmPageLookup_eq_some h.resident.table).mp hl
    split at he
    next =>
      split at he
      next => exact h.free (fun _ => ht) he
      next =>
        cases Option.some.inj he
        exact h.wakeup mem
    next =>
      cases Option.some.inj he
      exact h

theorem foldlM_absent {α : Type} {f : VmState → α → Option VmState} {l : List α}
    (hf : ∀ s t x, AbsentInv s → f s x = some t → AbsentInv t) (h : AbsentInv s)
    (he : l.foldlM f s = some t) : AbsentInv t := by
  induction l generalizing s with
  | nil =>
    cases Option.some.inj he
    exact h
  | cons x l ih =>
    rw [List.foldlM_cons] at he
    obtain ⟨v, hv, he⟩ := Option.bind_eq_some_iff.mp he
    exact ih (hf s v x h hv) he

theorem abortPage_absent (h : AbsentInv s) (ht : (s.page mem).tabled = true)
    (he : abortPage s mem = some t) : AbsentInv t ∧ ∀ p, p ≠ mem → t.page p = s.page p := by
  unfold abortPage at he
  split at he
  next =>
    obtain ⟨⟨b, hp, -⟩, -⟩ := vmPageFree_absent h.resident he
    refine ⟨h.free (fun _ => ht) he, ?_⟩
    intro p hpm
    rw [hp, Function.update_of_ne hpm]
  next =>
    cases Option.some.inj he
    constructor
    · apply AbsentInv.wakeup
      exact h.setPage ⟨rfl, rfl, rfl, rfl⟩ ⟨rfl, rfl, rfl⟩ rfl
    · intro p hpm
      simp [pageWakeup, VmState.modPage, hpm]

theorem abortPages_absent {q : List PageId} (h : AbsentInv s) (hq : q.Nodup)
    (ht : ∀ p ∈ q, (s.page p).tabled = true) (he : q.foldlM abortPage s = some t) : AbsentInv t := by
  induction q generalizing s with
  | nil =>
    cases Option.some.inj he
    exact h
  | cons mem q ih =>
    rw [List.foldlM_cons] at he
    obtain ⟨v, hv, he⟩ := Option.bind_eq_some_iff.mp he
    obtain ⟨hi, hp⟩ := abortPage_absent h (ht mem List.mem_cons_self) hv
    obtain ⟨hm, hq⟩ := List.nodup_cons.mp hq
    refine ih hi hq ?_ he
    intro p hpq
    rw [hp p fun hpm => hm (hpm ▸ hpq)]
    exact ht p (List.mem_cons_of_mem _ hpq)

theorem AbsentInv.modObject {f : VmObject → VmObject} (h : AbsentInv s)
    (hf : ∀ x, (f x).memq = x.memq ∧ (f x).residentPageCount = x.residentPageCount ∧
      (f x).absentCount = x.absentCount) : AbsentInv (s.modObject o f) := by
  refine h.same (h.resident.modObject fun x => ⟨(hf x).1, (hf x).2.1⟩) ⟨fun _ _ => rfl, ?_⟩
  intro y
  rw [modObject_object]
  split
  next hy => rw [(hf _).2.2, hy]
  next => rfl

theorem vmObjectAbortActivity_absent (h : AbsentInv s) (he : vmObjectAbortActivity s o = some t) :
    AbsentInv t := by
  obtain ⟨v, hv, he⟩ := Option.map_eq_some_iff.mp he
  subst he
  have hi : AbsentInv v := by
    refine abortPages_absent h (h.resident.table.memq o).nodup ?_ hv
    intro p hp
    exact (((h.resident.table.memq o).mem_iff p).mp hp).1
  exact hi.modObject fun _ => ⟨rfl, rfl, rfl⟩

end MachVM

import MachVM.ResidentQueues

namespace MachVM

theorem ResidentInv.setPage {s : VmState} (h : ResidentInv s) {mem : PageId} {p : VmPage}
    (hq : p.free = (s.page mem).free ∧ p.active = (s.page mem).active ∧
      p.inactive = (s.page mem).inactive ∧ p.wireCount = (s.page mem).wireCount)
    (ht : p.tabled = (s.page mem).tabled ∧ p.object = (s.page mem).object ∧
      p.offset = (s.page mem).offset) : ResidentInv (s.setPage mem p) := by
  have hqueues : QueueInv (s.setPage mem p) := by
    refine QueueInv.congr h.queues ?_ rfl rfl rfl rfl rfl rfl
    intro q
    by_cases hm : q = mem
    · subst q; simpa using hq
    · simp [hm]
  refine h.retable hqueues rfl rfl rfl (fun _ => ⟨rfl, rfl⟩) ht ?_
  rw [hq.1, ht.1]
  exact h.free_untabled mem

theorem pageWakeup_resident {s : VmState} (h : ResidentInv s) (mem : PageId) :
    ResidentInv (pageWakeup s mem) :=
  h.setPage ⟨rfl, rfl, rfl, rfl⟩ ⟨rfl, rfl, rfl⟩

theorem vmPageInsert_resident {s t : VmState} {mem : PageId} {o : ObjId} {off : VmOffset}
    (h : ResidentInv s) (hf : (s.page mem).free = false) (hl : vmPageLookup s o off = none)
    (hi : vmPageInsert s mem o off = some t) : ResidentInv t := by
  refine ⟨vmPageInsert_queues h.queues hi, vmPageInsert_table h.table hl hi, ?_⟩
  rw [(vmPageInsert_page hi).2]
  intro p
  by_cases hp : p = mem
  · subst p; simp [hf]
  · simpa [hp] using h.free_untabled p

theorem vmPageRemove_resident {s : VmState} (h : ResidentInv s) (mem : PageId) :
    ResidentInv (vmPageRemove s mem) := by
  refine ⟨vmPageRemove_queues h.table h.queues mem, vmPageRemove_table h.table mem, ?_⟩
  rw [vmPageRemove_page h.table mem]
  intro p
  by_cases hp : p = mem
  · subst p; simp
  · simpa [hp] using h.free_untabled p

theorem lookup_none_of_untabled {s t : VmState} (hs : TableInv s) (ht : TableInv t) {mem : PageId}
    {p : VmPage} (hp : t.page = Function.update s.page mem p) (hu : p.tabled = false) {o : ObjId}
    {off : VmOffset} (hl : vmPageLookup s o off = none) : vmPageLookup t o off = none := by
  apply (vmPageLookup_eq_none ht).mpr
  rw [hp]
  intro q
  by_cases hq : q = mem
  · subst q; simp [hu]
  · simpa [hq] using (vmPageLookup_eq_none hs).mp hl q

theorem vmPageRename_resident {s t : VmState} {mem : PageId} {o : ObjId} {off : VmOffset}
    (h : ResidentInv s) (hf : (s.page mem).free = false)
    (hl : (s.page mem).object ≠ some o → vmPageLookup s o off = none)
    (hr : vmPageRename s mem o off = some t) : ResidentInv t := by
  unfold vmPageRename at hr
  split at hr
  next => cases Option.some.inj hr; exact h
  next ho =>
    have hfree : ((vmPageRemove s mem).page mem).free = false := by
      rw [vmPageRemove_page h.table]
      simpa using hf
    have htable := vmPageRemove_table h.table mem
    exact vmPageInsert_resident (vmPageRemove_resident h mem) hfree
      (lookup_none_of_untabled h.table htable (vmPageRemove_page h.table mem) rfl (hl ho)) hr

theorem vmPageTemplate_table {s : VmState} {mem : PageId} {pa : VmOffset} (h : TableInv s)
    (ht : (s.page mem).tabled = false) :
    TableInv (s.setPage mem (vmPageTemplate (s.page mem) pa)) := by
  have hother : ∀ p, ((s.setPage mem (vmPageTemplate (s.page mem) pa)).page p).tabled = true →
      p ≠ mem := by
    rintro p hp rfl
    simp [vmPageTemplate] at hp
  refine ⟨?_, ?_, h.count, ?_, ?_⟩
  · intro b
    apply (h.bucket b).congr
    intro p
    by_cases hp : p = mem
    · subst p; simp [ht, VmState.setPage, vmPageTemplate]
    · simp [hp, VmState.setPage]
  · intro x
    apply (h.memq x).congr
    intro p
    by_cases hp : p = mem
    · subst p; simp [ht, vmPageTemplate]
    · simp [hp]
  · intro p hp
    have hne := hother p hp
    simp only [setPage_page, Function.update_of_ne hne] at hp ⊢
    exact h.owned p hp
  · intro p q hp hq
    have hnp := hother p hp
    have hnq := hother q hq
    simp only [setPage_page, Function.update_of_ne hnp, Function.update_of_ne hnq] at hp hq ⊢
    exact h.unique p q hp hq

theorem vmPageTemplate_resident {s : VmState} {mem : PageId} {pa : VmOffset}
    (h : ResidentInv s) (hf : (s.page mem).free = false) (ha : (s.page mem).active = false)
    (hi : (s.page mem).inactive = false) (ht : (s.page mem).tabled = false) :
    ResidentInv (s.setPage mem (vmPageTemplate (s.page mem) pa)) := by
  refine ⟨?_, vmPageTemplate_table h.table ht, ?_⟩
  · exact QueueInv.replace h.queues rfl (h.queues.free.keep hf.symm) (h.queues.active.keep ha.symm)
      (h.queues.inactive.keep hi.symm) h.queues.freeCount h.queues.activeCount h.queues.inactiveCount
      (fun _ => ⟨rfl, rfl⟩) (fun _ => rfl) (fun _ => ⟨rfl, rfl⟩)
  · intro p
    by_cases hp : p = mem
    · subst p; simp [vmPageTemplate]
    · simpa [hp] using h.free_untabled p

theorem vmPageInit_of_reset {s t : VmState} {mem : PageId} {o : Option ObjId} {off pa : VmOffset}
    (h : ResidentInv (s.setPage mem (vmPageTemplate (s.page mem) pa)))
    (hl : ∀ x, o = some x →
      vmPageLookup (s.setPage mem (vmPageTemplate (s.page mem) pa)) x off = none)
    (he : vmPageInit s mem o off pa = some t) : ResidentInv t := by
  unfold vmPageInit at he
  cases o with
  | none => cases Option.some.inj he; exact h
  | some x => exact vmPageInsert_resident h (by simp [vmPageTemplate]) (hl x rfl) he

theorem vmPageInit_resident {s t : VmState} {mem : PageId} {o : Option ObjId} {off pa : VmOffset}
    (h : ResidentInv s) (hf : (s.page mem).free = false) (ha : (s.page mem).active = false)
    (hi : (s.page mem).inactive = false) (ht : (s.page mem).tabled = false)
    (hl : ∀ x, o = some x → vmPageLookup s x off = none)
    (he : vmPageInit s mem o off pa = some t) : ResidentInv t := by
  have hreset : ResidentInv (s.setPage mem (vmPageTemplate (s.page mem) pa)) :=
    vmPageTemplate_resident h hf ha hi ht
  exact vmPageInit_of_reset hreset
    (fun x hx => lookup_none_of_untabled h.table hreset.table rfl rfl (hl x hx)) he

theorem vmPageAlloc_resident {s t : VmState} {o : Option ObjId} {off : VmOffset} {priv : Bool}
    {m : Option PageId} (h : ResidentInv s) (hl : ∀ x, o = some x → vmPageLookup s x off = none)
    (he : vmPageAlloc s o off priv = some (t, m)) : ResidentInv t := by
  unfold vmPageAlloc at he
  split at he
  next => cases Option.some.inj he; exact h
  next mem hmem =>
    split at he
    next => cases Option.some.inj he; exact h
    next =>
      obtain ⟨u, hu, he⟩ := Option.map_eq_some_iff.mp he
      cases he
      have hfree : (s.page mem).free = true :=
        (h.queues.free.mem_iff mem).mp (List.mem_of_getLast? hmem)
      have hunt := h.free_untabled mem hfree
      have htable : TableInv (s.setPage mem (vmPageTemplate (s.page mem) (s.page mem).physAddr)) :=
        vmPageTemplate_table h.table hunt
      have hreset : ResidentInv { s.setPage mem (vmPageTemplate (s.page mem) (s.page mem).physAddr) with
          queueFree := queueRemove s.queueFree mem, freeCount := s.freeCount - 1 } := by
        refine ⟨h.queues.takeFree hfree rfl rfl rfl, ?_, ?_⟩
        · exact TableInv.congr htable (fun _ => ⟨rfl, rfl, rfl⟩) rfl rfl (fun _ => ⟨rfl, rfl⟩)
        · intro p
          by_cases hp : p = mem
          · subst p; simp [vmPageTemplate]
          · simpa [hp] using h.free_untabled p
      refine vmPageInit_of_reset ?_ ?_ hu
      · exact hreset
      · intro x hx
        exact lookup_none_of_untabled h.table hreset.table rfl rfl (hl x hx)

theorem vmPageActivate_resident {s t : VmState} {mem : PageId} (h : ResidentInv s)
    (hf : (s.page mem).free = false) (he : vmPageActivate s mem = some t) : ResidentInv t := by
  have hdrop : ∀ u : VmState, ResidentInv u → (u.page mem).free = false → (u.page mem).inactive = false →
      (if (u.page mem).wireCount = 0 then
        if (u.page mem).active then none else some (enterActive u mem)
      else some u) = some t → ResidentInv t := by
    intro u hu huf hui he
    split at he
    next hw =>
      split at he
      next => simp at he
      next ha =>
        cases Option.some.inj he
        exact enterActive_resident hu huf (by simpa using ha) hui hw
    next => cases Option.some.inj he; exact hu
  unfold vmPageActivate at he
  cases hi : (s.page mem).inactive with
  | true =>
    simp only [hi, if_true] at he
    exact hdrop _ (leaveInactive_resident h hi) (by simpa [leaveInactive] using hf)
      (by simp [leaveInactive]) he
  | false =>
    simp only [hi, Bool.false_eq_true, if_false] at he
    exact hdrop s h hf hi he

theorem vmPageDeactivate_resident {s : VmState} (h : ResidentInv s) (mem : PageId) :
    ResidentInv (vmPageDeactivate s mem) := by
  unfold vmPageDeactivate
  split
  next ha =>
    have hunwired : (s.page mem).wireCount = 0 := by
      by_contra hw
      simp [(h.queues.wired mem hw).1] at ha
    have hheld : (s.page mem).free = false := by
      by_contra hf
      simp [(h.queues.free_idle mem (by simpa using hf)).1] at ha
    apply enterInactive_resident (leaveActive_resident h ha)
    · simpa [leaveActive] using hheld
    · simp [leaveActive]
    · simpa [leaveActive] using h.queues.active_alone mem ha
    · simpa [leaveActive] using hunwired
  next => exact h

theorem ResidentInv.setWireCount {s : VmState} (h : ResidentInv s) {mem : PageId} {w : UInt16}
    (ha : (s.page mem).active = false) (hi : (s.page mem).inactive = false) :
    ResidentInv (s.setPage mem { s.page mem with wireCount := w }) := by
  refine h.retable (QueueInv.replace h.queues rfl (h.queues.free.keep rfl) (h.queues.active.keep rfl)
    (h.queues.inactive.keep rfl) h.queues.freeCount h.queues.activeCount h.queues.inactiveCount
    (fun _ => ⟨ha, hi⟩) (fun _ => hi) (fun _ => ⟨ha, hi⟩)) rfl rfl rfl (fun _ => ⟨rfl, rfl⟩)
    ⟨rfl, rfl, rfl⟩ (h.free_untabled mem)

theorem ResidentInv.setTotals {s : VmState} (h : ResidentInv s) (w l : Int) :
    ResidentInv { s with wireCount := w, laundryCount := l } :=
  ⟨QueueInv.congr h.queues (fun _ => ⟨rfl, rfl, rfl, rfl⟩) rfl rfl rfl rfl rfl rfl,
    TableInv.congr h.table (fun _ => ⟨rfl, rfl, rfl⟩) rfl rfl (fun _ => ⟨rfl, rfl⟩), h.free_untabled⟩

theorem vmPageWire_resident {s : VmState} (h : ResidentInv s) (mem : PageId) :
    ResidentInv (vmPageWire s mem) := by
  unfold vmPageWire
  split
  next hw =>
    have hr := (vmPageQueuesRemove_resident h mem).setTotals (s.wireCount + 1)
      (vmPageQueuesRemove s mem).laundryCount
    apply hr.setWireCount
    · simp [vmPageQueuesRemove_page]
    · simp [vmPageQueuesRemove_page]
  next hw => exact h.setWireCount (h.queues.wired mem hw).1 (h.queues.wired mem hw).2

theorem vmPageUnwire_resident {s : VmState} (h : ResidentInv s) {mem : PageId}
    (hf : (s.page mem).free = false) (hw : (s.page mem).wireCount ≠ 0) :
    ResidentInv (vmPageUnwire s mem) := by
  have hidle := h.queues.wired mem hw
  have hlow := h.setWireCount (w := (s.page mem).wireCount - 1) hidle.1 hidle.2
  unfold vmPageUnwire
  simp only []
  split
  next hz =>
    apply pageWakeup_resident
    exact (enterActive_resident hlow (by simpa using hf) (by simpa using hidle.1)
      (by simpa using hidle.2) hz).setTotals _ _
  next => exact hlow

theorem vmObjectAbsentRelease_resident {s : VmState} (h : ResidentInv s) (o : Option ObjId) :
    ResidentInv (vmObjectAbsentRelease s o) := by
  unfold vmObjectAbsentRelease
  cases o with
  | none => exact h
  | some o =>
    refine ⟨QueueInv.congr h.queues (fun _ => ⟨rfl, rfl, rfl, rfl⟩) rfl rfl rfl rfl rfl rfl,
      TableInv.congr h.table (fun _ => ⟨rfl, rfl, rfl⟩) rfl rfl ?_, h.free_untabled⟩
    intro x
    by_cases hx : x = o
    · subst x; simp
    · simp [hx]

theorem vmObjectAbsentRelease_page (s : VmState) (o : Option ObjId) :
    (vmObjectAbsentRelease s o).page = s.page := by
  cases o <;> rfl

theorem vmPageFree_resident {s t : VmState} {mem : PageId} (h : ResidentInv s)
    (he : vmPageFree s mem = some t) : ResidentInv t := by
  unfold vmPageFree at he
  split at he
  next => simp at he
  next hf =>
    cases Option.some.inj he
    let u := vmPageQueuesRemove (vmPageRemove s mem) mem
    have hu : ResidentInv u := vmPageQueuesRemove_resident (vmPageRemove_resident h mem) mem
    have hupage : u.page mem = { s.page mem with tabled := false, active := false, inactive := false } := by
      simp [u, vmPageQueuesRemove_page, vmPageRemove_page h.table]
    let v := pageWakeup (laundryRelease u mem) mem
    have hv : ResidentInv v := by
      apply pageWakeup_resident
      have hclear : ResidentInv (u.setPage mem { u.page mem with laundry := false }) :=
        hu.setPage ⟨rfl, rfl, rfl, rfl⟩ ⟨rfl, rfl, rfl⟩
      exact hclear.setTotals u.wireCount _
    let w := if (v.page mem).absent then vmObjectAbsentRelease v (v.page mem).object else v
    have hwpage : w.page = v.page := by
      simp only [w]
      split
      next => exact vmObjectAbsentRelease_page v _
      next => rfl
    have hw : ResidentInv w := by
      simp only [w]
      split
      next => exact vmObjectAbsentRelease_resident hv _
      next => exact hv
    change ResidentInv (if (w.page mem).fictitious then w else enterFree w mem)
    split
    next => exact hw
    next =>
      have hwmem : (w.page mem).free = (s.page mem).free ∧ (w.page mem).active = false ∧
          (w.page mem).inactive = false ∧ (w.page mem).tabled = false := by
        rw [hwpage]
        simp [v, pageWakeup, laundryRelease, hupage]
      exact enterFree_resident hw (hwmem.1.trans (by simpa using hf)) hwmem.2.1 hwmem.2.2.1 hwmem.2.2.2

end MachVM

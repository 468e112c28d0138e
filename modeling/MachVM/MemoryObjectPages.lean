import MachVM.MemoryObject

namespace MachVM

open Mirror

variable {s t u : VmState} {mem : PageId} {o : ObjId}

/-- The page is resident in the object and absent. -/
def absentIn (o : ObjId) (p : VmPage) : Bool := p.tabled && decide (p.object = some o) && p.absent

/-- The count of an object is the number of its absent pages. -/
def AbsentExact (s : VmState) : Prop :=
  ∀ o, ∃ q, Mirrors q (fun p => absentIn o (s.page p) = true) ∧ (s.object o).absentCount = q.length

/-- A state with the same absent pages and counts. -/
structure SameAbsent (s t : VmState) : Prop where
  page : ∀ o p, absentIn o (t.page p) = absentIn o (s.page p)
  count : ∀ o, (t.object o).absentCount = (s.object o).absentCount

theorem SameAbsent.refl (s : VmState) : SameAbsent s s := ⟨fun _ _ => rfl, fun _ => rfl⟩

theorem SameAbsent.trans (h : SameAbsent s t) (h' : SameAbsent t u) : SameAbsent s u :=
  ⟨fun o p => (h'.page o p).trans (h.page o p), fun o => (h'.count o).trans (h.count o)⟩

theorem AbsentExact.congr (h : AbsentExact s) (hs : SameAbsent s t) : AbsentExact t := by
  intro o
  obtain ⟨q, hq, hc⟩ := h o
  refine ⟨q, ?_, (hs.count o).trans hc⟩
  apply hq.congr
  intro p
  rw [hs.page o p]

theorem AbsentExact.update (h : AbsentExact s) {b : VmPage} (hp : t.page = Function.update s.page mem b)
    (hc : ∀ o, (t.object o).absentCount =
      (s.object o).absentCount + (absentIn o b).toNat - (absentIn o (s.page mem)).toNat) :
    AbsentExact t := by
  intro o
  obtain ⟨q, hq, hl⟩ := h o
  have hco := hc o
  rw [hp]
  cases hb : absentIn o b with
  | false =>
    cases hm : absentIn o (s.page mem) with
    | false => exact ⟨q, hq.keep (hb.trans hm.symm), by simp [hb, hm] at hco; omega⟩
    | true =>
      have hlen := hq.length_erase hm
      exact ⟨q.erase mem, hq.lower hb, by simp [hb, hm] at hco; omega⟩
  | true =>
    cases hm : absentIn o (s.page mem) with
    | false => exact ⟨q ++ [mem], hq.raise hb hm, by simp [hb, hm] at hco ⊢; omega⟩
    | true => exact ⟨q, hq.keep (hb.trans hm.symm), by simp [hb, hm] at hco; omega⟩

theorem SameAbsent.of_update {b : VmPage} (hp : t.page = Function.update s.page mem b)
    (hb : ∀ o, absentIn o b = absentIn o (s.page mem)) (ho : t.object = s.object) : SameAbsent s t := by
  refine ⟨?_, fun o => by rw [ho]⟩
  intro o p
  rw [hp]
  by_cases hpm : p = mem
  · subst hpm
    simp [hb]
  · simp [hpm]

/-- Both parts of what the steps keep. -/
structure AbsentInv (s : VmState) : Prop where
  resident : ResidentInv s
  counted : AbsentExact s

theorem vmPageQueuesRemove_absent (s : VmState) (mem : PageId) : SameAbsent s (vmPageQueuesRemove s mem) := by
  refine .of_update (vmPageQueuesRemove_page s mem) (fun _ => rfl) ?_
  simp only [vmPageQueuesRemove]
  split <;> split <;> rfl

theorem vmPageActivate_absent (ha : vmPageActivate s mem = some t) : SameAbsent s t := by
  have h₁ : SameAbsent s (if (s.page mem).inactive then leaveInactive s mem else s) := by
    split
    next => exact .of_update rfl (fun _ => rfl) rfl
    next => exact .refl s
  simp only [vmPageActivate] at ha
  generalize (if (s.page mem).inactive then leaveInactive s mem else s) = v at ha h₁
  split at ha
  next =>
    split at ha
    next => simp at ha
    next =>
      cases Option.some.inj ha
      have h₂ : SameAbsent v (enterActive v mem) := .of_update rfl (fun _ => rfl) rfl
      exact h₁.trans h₂
  next =>
    cases Option.some.inj ha
    exact h₁

theorem vmPageDeactivate_absent (s : VmState) (mem : PageId) : SameAbsent s (vmPageDeactivate s mem) := by
  unfold vmPageDeactivate
  split
  next =>
    have h₁ : SameAbsent s (leaveActive s mem) := .of_update rfl (fun _ => rfl) rfl
    have h₂ : SameAbsent (leaveActive s mem) (enterInactive (leaveActive s mem) mem) :=
      .of_update rfl (fun _ => rfl) rfl
    exact h₁.trans h₂
  next => exact .refl s

theorem vmPageWire_absent (s : VmState) (mem : PageId) : SameAbsent s (vmPageWire s mem) := by
  have h₁ : SameAbsent s (if (s.page mem).wireCount = 0 then
      { vmPageQueuesRemove s mem with wireCount := s.wireCount + 1 } else s) := by
    split
    next => exact ⟨(vmPageQueuesRemove_absent s mem).page, (vmPageQueuesRemove_absent s mem).count⟩
    next => exact .refl s
  simp only [vmPageWire]
  generalize (if (s.page mem).wireCount = 0 then
      { vmPageQueuesRemove s mem with wireCount := s.wireCount + 1 } else s) = v at h₁ ⊢
  have h₂ : SameAbsent v (v.setPage mem { v.page mem with wireCount := (v.page mem).wireCount + 1 }) :=
    .of_update rfl (fun _ => rfl) rfl
  exact h₁.trans h₂

theorem pageWakeup_absent (s : VmState) (mem : PageId) : SameAbsent s (pageWakeup s mem) :=
  .of_update rfl (fun _ => rfl) rfl

theorem vmPageUnwire_absent (s : VmState) (mem : PageId) : SameAbsent s (vmPageUnwire s mem) := by
  have h₁ : SameAbsent s (s.setPage mem { s.page mem with wireCount := (s.page mem).wireCount - 1 }) :=
    .of_update rfl (fun _ => rfl) rfl
  simp only [vmPageUnwire]
  generalize s.setPage mem { s.page mem with wireCount := (s.page mem).wireCount - 1 } = v at h₁ ⊢
  split
  next =>
    have h₂ : SameAbsent v { enterActive v mem with wireCount := (enterActive v mem).wireCount - 1 } :=
      .of_update rfl (fun _ => rfl) rfl
    exact (h₁.trans h₂).trans (pageWakeup_absent _ mem)
  next => exact h₁

theorem vmPageInsert_count {off : VmOffset} (h : vmPageInsert s mem o off = some t) (x : ObjId) :
    (t.object x).absentCount = (s.object x).absentCount := by
  unfold vmPageInsert at h
  split at h
  next => simp at h
  next =>
    cases Option.some.inj h
    by_cases hx : x = o
    · subst hx
      simp
    · simp [VmState.setBucket, VmState.setPage, hx]

theorem vmPageRemove_count (s : VmState) (mem : PageId) (x : ObjId) :
    ((vmPageRemove s mem).object x).absentCount = (s.object x).absentCount := by
  simp only [vmPageRemove]
  split
  next y _ _ =>
    by_cases hx : x = y
    · subst hx
      simp [VmState.setPage]
    · simp [VmState.setBucket, VmState.setPage, hx]
  next => rfl

theorem vmObjectAbsentRelease_count (s : VmState) (y : Option ObjId) (x : ObjId) :
    ((vmObjectAbsentRelease s y).object x).absentCount =
      (s.object x).absentCount - (decide (y = some x)).toNat := by
  cases y with
  | none => simp [vmObjectAbsentRelease]
  | some y =>
    by_cases hx : x = y
    · subst hx
      simp [vmObjectAbsentRelease]
    · simp [vmObjectAbsentRelease, hx, Ne.symm hx]

theorem vmPageFree_absent (h : ResidentInv s) (hf : vmPageFree s mem = some t) :
    (∃ b, t.page = Function.update s.page mem b ∧ b.tabled = false) ∧
      ∀ x, (t.object x).absentCount = (s.object x).absentCount -
        ((s.page mem).absent && decide ((s.page mem).object = some x)).toNat := by
  unfold vmPageFree at hf
  split at hf
  next => simp at hf
  next =>
    simp only at hf
    have hv : (pageWakeup (laundryRelease (vmPageQueuesRemove (vmPageRemove s mem) mem) mem) mem).page =
        Function.update s.page mem { s.page mem with
          tabled := false, active := false, inactive := false, laundry := false, busy := false, wanted := false } := by
      simp [pageWakeup, laundryRelease, vmPageQueuesRemove_page, vmPageRemove_page h.table]
    have hc : ∀ x, ((pageWakeup (laundryRelease (vmPageQueuesRemove (vmPageRemove s mem) mem) mem) mem).object x).absentCount =
        (s.object x).absentCount := by
      intro x
      rw [← vmPageRemove_count s mem x]
      exact (vmPageQueuesRemove_absent (vmPageRemove s mem) mem).count x
    generalize pageWakeup (laundryRelease (vmPageQueuesRemove (vmPageRemove s mem) mem) mem) mem = v at hf hv hc
    have hm : v.page mem = { s.page mem with
        tabled := false, active := false, inactive := false, laundry := false, busy := false, wanted := false } := by
      rw [hv, Function.update_self]
    generalize hw : (if (v.page mem).absent then vmObjectAbsentRelease v (v.page mem).object else v) = w at hf
    have hwp : w.page = v.page := by
      rw [← hw]
      split
      next => exact vmObjectAbsentRelease_page v _
      next => rfl
    have hwc : ∀ x, (w.object x).absentCount = (s.object x).absentCount -
        ((s.page mem).absent && decide ((s.page mem).object = some x)).toNat := by
      intro x
      rw [← hw, hm]
      simp only
      split
      next ha => rw [vmObjectAbsentRelease_count, hc, ha, Bool.true_and]
      next ha => simp [hc, ha]
    split at hf
    next =>
      cases Option.some.inj hf
      exact ⟨⟨_, hwp.trans hv, rfl⟩, hwc⟩
    next =>
      cases Option.some.inj hf
      refine ⟨⟨{ w.page mem with free := true }, ?_, ?_⟩, hwc⟩
      · simp [enterFree, hwp, hv]
      · simp [hwp, hm]

theorem absentIn_untabled {b : VmPage} (h : b.tabled = false) (o : ObjId) : absentIn o b = false := by
  simp [absentIn, h]

theorem AbsentInv.free (h : AbsentInv s) (ht : (s.page mem).absent = true → (s.page mem).tabled = true)
    (hf : vmPageFree s mem = some t) : AbsentInv t := by
  obtain ⟨⟨b, hp, hb⟩, hc⟩ := vmPageFree_absent h.resident hf
  refine ⟨vmPageFree_resident h.resident hf, h.counted.update hp ?_⟩
  intro x
  rw [hc x, absentIn_untabled hb]
  have : absentIn x (s.page mem) = ((s.page mem).absent && decide ((s.page mem).object = some x)) := by
    cases ha : (s.page mem).absent with
    | false => simp [absentIn, ha]
    | true => simp [absentIn, ha, ht ha]
  rw [this]
  simp

theorem AbsentInv.init {y : Option ObjId} {off pa : VmOffset} (h : AbsentExact s) (hu : (s.page mem).tabled = false)
    (hi : vmPageInit s mem y off pa = some t) : AbsentExact t := by
  have h₁ : AbsentExact (s.setPage mem (vmPageTemplate (s.page mem) pa)) := by
    refine h.congr (.of_update rfl ?_ rfl)
    intro o
    rw [absentIn_untabled hu]
    rfl
  cases y with
  | none =>
    cases Option.some.inj hi
    exact h₁
  | some y =>
    refine h₁.congr ⟨?_, vmPageInsert_count hi⟩
    intro o p
    rw [(vmPageInsert_page hi).2]
    by_cases hp : p = mem
    · subst hp
      simp [absentIn, vmPageTemplate]
    · simp [hp]

theorem vmPageAlloc_absent {y : Option ObjId} {off : VmOffset} {priv : Bool} {m : Option PageId}
    (h : AbsentInv s) (hl : ∀ x, y = some x → vmPageLookup s x off = none)
    (ha : vmPageAlloc s y off priv = some (t, m)) : AbsentInv t := by
  refine ⟨vmPageAlloc_resident h.resident hl ha, ?_⟩
  unfold vmPageAlloc at ha
  split at ha
  next =>
    cases Option.some.inj ha
    exact h.counted
  next mem hmem =>
    split at ha
    next =>
      cases Option.some.inj ha
      exact h.counted
    next =>
      obtain ⟨v, hv, hr⟩ := Option.map_eq_some_iff.mp ha
      cases hr
      have hfree : (s.page mem).free = true := (h.resident.queues.free.mem_iff mem).mp (List.mem_of_getLast? hmem)
      have h₁ : AbsentExact { s with
          queueFree := queueRemove s.queueFree mem, freeCount := s.freeCount - 1 } :=
        h.counted.congr ⟨fun _ _ => rfl, fun _ => rfl⟩
      exact AbsentInv.init h₁ (h.resident.free_untabled mem hfree) hv

end MachVM

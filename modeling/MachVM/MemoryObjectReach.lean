import MachVM.MemoryObjectSteps

namespace MachVM

open Mirror

variable {s t : VmState} {mem : PageId} {o : ObjId}

theorem AbsentInv.rename {off : VmOffset} (h : AbsentInv s) (ht : (s.page mem).tabled = true)
    (ha : (s.page mem).absent = false) (hl : vmPageLookup s o off = none)
    (he : vmPageRename s mem o off = some t) : AbsentInv t := by
  have hf : (s.page mem).free = false := by
    by_contra hc
    have := h.resident.free_untabled mem (by simpa using hc)
    simp [ht] at this
  refine ⟨vmPageRename_resident h.resident hf (fun _ => hl) he, ?_⟩
  unfold vmPageRename at he
  split at he
  next =>
    cases Option.some.inj he
    exact h.counted
  next =>
    have hp := (vmPageInsert_page he).2
    rw [vmPageRemove_page h.resident.table] at hp
    refine h.counted.congr ⟨?_, ?_⟩
    · intro x p
      rw [hp]
      by_cases hpm : p = mem
      · subst hpm
        simp [absentIn, ha]
      · simp [hpm]
    · intro x
      rw [vmPageInsert_count he, vmPageRemove_count]

/-- The pages that a merge does not move while they are absent. -/
def Unmoved (s : VmState) (o : ObjId) (backingOffset : VmOffset) (size : VmSize) (mem : PageId) : Prop :=
  (s.page mem).tabled = true ∧ ((s.page mem).object = some o ∨ ((s.page mem).absent = true →
    (s.page mem).offset < backingOffset ∨ size ≤ (s.page mem).offset - backingOffset ∨
      ∃ pp, vmPageLookup s o ((s.page mem).offset - backingOffset) = some pp))

theorem vmPageRename_others {off : VmOffset} (h : TableInv s) (he : vmPageRename s mem o off = some t)
    {p : PageId} (hp : p ≠ mem) : t.page p = s.page p := by
  unfold vmPageRename at he
  split at he
  next =>
    cases Option.some.inj he
    rfl
  next =>
    rw [(vmPageInsert_page he).2, vmPageRemove_page h]
    simp [hp]

theorem collapsePage_absent {backingOffset : VmOffset} {size : VmSize} (h : AbsentInv s)
    (hu : Unmoved s o backingOffset size mem)
    (he : collapsePage o backingOffset size s mem = .ok t) :
    AbsentInv t ∧ ∀ p, p ≠ mem → t.page p = s.page p := by
  obtain ⟨ht, hu⟩ := hu
  have hfree : pageResult (vmPageFree s mem) = .ok t → AbsentInv t ∧ ∀ p, p ≠ mem → t.page p = s.page p := by
    intro hf
    have hf := pageResult_ok hf
    obtain ⟨⟨b, hp, -⟩, -⟩ := vmPageFree_absent h.resident hf
    refine ⟨h.free (fun _ => ht) hf, ?_⟩
    intro p hpm
    rw [hp, Function.update_of_ne hpm]
  unfold collapsePage at he
  simp only at he
  split at he
  next => exact hfree he
  next hin =>
    split at he
    next =>
      split at he
      next => cases he
      next => exact hfree he
    next hl =>
      have hr := pageResult_ok he
      refine ⟨?_, fun p hp => vmPageRename_others h.resident.table hr hp⟩
      by_cases ho : (s.page mem).object = some o
      · rw [vmPageRename, if_pos ho] at hr
        cases Option.some.inj hr
        exact h
      · have ha : (s.page mem).absent = false := by
          by_contra hc
          rcases hu.resolve_left ho (by simpa using hc) with h₁ | h₁ | ⟨pp, h₁⟩
          · exact hin (Or.inl h₁)
          · exact hin (Or.inr h₁)
          · rw [hl] at h₁
            cases h₁
        exact h.rename ht ha hl hr

theorem Unmoved.frame {backingOffset : VmOffset} {size : VmSize} {backing : ObjId} {p : PageId}
    (h : Unmoved s o backingOffset size p) (hs : TableInv s) (ht : TableInv t)
    (hb : (s.page mem).object = some backing) (hbp : (s.page p).object = some backing)
    (hpm : p ≠ mem) (hp : ∀ p, p ≠ mem → t.page p = s.page p) :
    Unmoved t o backingOffset size p := by
  obtain ⟨htab, h⟩ := h
  unfold Unmoved
  rw [hp p hpm]
  refine ⟨htab, ?_⟩
  by_cases ho : backing = o
  · exact Or.inl (ho ▸ hbp)
  · refine Or.inr fun ha => ?_
    have hn : (s.page p).object ≠ some o := by
      rw [hbp]
      exact fun hc => ho (Option.some.inj hc)
    refine (h.resolve_left hn ha).imp_right (Or.imp_right ?_)
    rintro ⟨pp, hl⟩
    have hk := (vmPageLookup_eq_some hs).mp hl
    have hpp : pp ≠ mem := by
      rintro rfl
      exact ho (Option.some.inj (hb.symm.trans hk.2.1))
    refine ⟨pp, (vmPageLookup_eq_some ht).mpr ?_⟩
    rw [hp pp hpp]
    exact hk

theorem collapsePages_absent {backingOffset : VmOffset} {size : VmSize} {backing : ObjId} {q : List PageId}
    (h : AbsentInv s) (hq : q.Nodup) (hb : ∀ p ∈ q, (s.page p).object = some backing)
    (hu : ∀ p ∈ q, Unmoved s o backingOffset size p)
    (he : q.foldlM (collapsePage o backingOffset size) s = .ok t) : AbsentInv t := by
  induction q generalizing s with
  | nil =>
    cases he
    exact h
  | cons mem q ih =>
    rw [List.foldlM_cons] at he
    cases hv : collapsePage o backingOffset size s mem with
    | error e =>
      rw [hv] at he
      cases he
    | ok v =>
      rw [hv] at he
      obtain ⟨hi, hp⟩ := collapsePage_absent h (hu mem List.mem_cons_self) hv
      obtain ⟨hm, hq⟩ := List.nodup_cons.mp hq
      have hne : ∀ p ∈ q, p ≠ mem := fun p hpq hpm => hm (hpm ▸ hpq)
      have hbm := hb mem List.mem_cons_self
      refine ih hi hq ?_ ?_ he
      · intro p hpq
        rw [hp p (hne p hpq)]
        exact hb p (List.mem_cons_of_mem _ hpq)
      · intro p hpq
        exact (hu p (List.mem_cons_of_mem _ hpq)).frame h.resident.table hi.resident.table hbm
          (hb p (List.mem_cons_of_mem _ hpq)) (hne p hpq) hp

theorem collapseInto_absent {backing : ObjId} (h : AbsentInv s)
    (hu : ∀ mem ∈ (s.object backing).memq, (s.page mem).absent = true → ¬ movesUp s o mem)
    (he : collapseInto s o backing = .ok t) : AbsentInv t := by
  have hm : ∀ mem ∈ (s.object backing).memq,
      (s.page mem).tabled = true ∧ (s.page mem).object = some backing :=
    fun mem hmem => ((h.resident.table.memq backing).mem_iff mem).mp hmem
  unfold collapseInto at he
  cases hv : (s.object backing).memq.foldlM
      (collapsePage o (s.object o).shadowOffset (s.object o).size) s with
  | error e => simp [hv, bind, Except.bind] at he
  | ok v =>
    simp only [hv, bind, Except.bind] at he
    split at he
    next => cases he
    next =>
      cases he
      have hi : AbsentInv v := by
        refine collapsePages_absent h (h.resident.table.memq backing).nodup (fun p hp => (hm p hp).2) ?_ hv
        intro p hp
        refine ⟨(hm p hp).1, Or.inr fun ha => ?_⟩
        by_contra hc
        push Not at hc
        refine hu p hp ha ⟨?_, ?_⟩
        · rintro (h₁ | h₁)
          · exact absurd h₁ (by simpa using hc.1)
          · exact absurd h₁ (by simpa using hc.2.1)
        · exact Option.eq_none_iff_forall_ne_some.mpr hc.2.2
      refine AbsentInv.modObject (AbsentInv.modObject (AbsentInv.modObject hi ?_) ?_) ?_
      all_goals exact fun _ => ⟨rfl, rfl, rfl⟩

theorem bypassBacking_absent {backing : ObjId} (h : AbsentInv s) : AbsentInv (bypassBacking s o backing) := by
  unfold bypassBacking
  apply AbsentInv.modObject
  · unfold vmObjectReference
    split
    next => exact AbsentInv.modObject h fun _ => ⟨rfl, rfl, rfl⟩
    next =>
      refine AbsentInv.modObject (AbsentInv.modObject h ?_) ?_
      all_goals exact fun _ => ⟨rfl, rfl, rfl⟩
  · exact fun _ => ⟨rfl, rfl, rfl⟩

theorem collapseTurn_cases (he : collapseTurn s o = some t) : t = s ∨
    (∃ b, merges s o b ∧ collapseInto s o b = .ok t) ∨ ∃ b, t = bypassBacking s o b := by
  unfold collapseTurn at he
  split at he
  next v hv =>
    cases Option.some.inj he
    unfold collapseStep at hv
    simp only at hv
    split at hv
    next => cases hv
    next hx =>
      split at hv
      next => cases hv
      next b hb =>
        split at hv
        next => cases hv
        next hi =>
          split at hv
          next => cases hv
          next hz =>
            split at hv
            next hr =>
              right
              left
              refine ⟨b, ?_, ?_⟩
              · refine ⟨?_, ?_, hb, ?_, ?_, by simpa using hz, hr⟩
                · by_contra hc
                  exact hx (Or.inl hc)
                · by_contra hc
                  exact hx (Or.inr hc)
                · by_contra hc
                  exact hi (Or.inl (by simpa using hc))
                · by_contra hc
                  exact hi (Or.inr hc)
              · cases hm : collapseInto s o b with
                | error e =>
                  rw [hm] at hv
                  cases hv
                | ok u =>
                  rw [hm] at hv
                  cases hv
                  rfl
            next =>
              split at hv
              next => cases hv
              next =>
                split at hv
                next => cases hv
                next =>
                  cases hv
                  exact Or.inr (Or.inr ⟨b, rfl⟩)
  next =>
    cases Option.some.inj he
    exact Or.inl rfl
  next => cases he

theorem collapseTurn_absent (h : AbsentInv s) (hu : AbsentStay s (.collapse o))
    (he : collapseTurn s o = some t) : AbsentInv t := by
  rcases collapseTurn_cases he with rfl | ⟨b, hm, hc⟩ | ⟨b, rfl⟩
  · exact h
  · exact collapseInto_absent h (hu b hm) hc
  · exact bypassBacking_absent h

theorem vmObjectCollapse_turns {fuel : Nat} (he : vmObjectCollapse fuel s o = .ok t) :
    Relation.ReflTransGen (fun s t => collapseTurn s o = some t) s t := by
  induction fuel generalizing s with
  | zero => cases he
  | succ fuel ih =>
    unfold vmObjectCollapse at he
    cases hc : collapseStep s o with
    | error e =>
      rw [hc] at he
      cases he
    | ok r =>
      rw [hc] at he
      cases r with
      | none =>
        cases he
        exact .refl
      | some v =>
        have hv : collapseTurn s o = some v := by simp [collapseTurn, hc]
        exact .head hv (ih he)

theorem absentStep_absent {op : AbsentOp} (h : AbsentInv s) (hp : AbsentPre s op) (ha : AbsentStay s op)
    (he : absentStep s op = some t) : AbsentInv t := by
  cases op with
  | page op => exact pageStep_absent h hp he
  | faultRequest o off priv => exact faultRequest_absent h he
  | faultClaim mem => exact faultClaim_absent h he
  | faultFound mem =>
    cases Option.some.inj he
    exact faultFound_absent h mem
  | dataProvided o off priv => exact dataProvided_absent h he
  | dataSupplied mem lock => exact dataSupplied_absent h hp he
  | dataError o off size =>
    simp only [absentStep, memoryObjectDataError] at he
    split at he
    next =>
      cases Option.some.inj he
      exact h
    next => exact foldlM_absent (fun s t x hs => dataErrorPage_absent hs) h he
  | dataUnavailable o off size =>
    simp only [absentStep, memoryObjectDataUnavailable] at he
    split at he
    next =>
      cases Option.some.inj he
      exact h
    next => exact foldlM_absent (fun s t x hs => dataUnavailablePage_absent hs) h he
  | abortActivity o => exact vmObjectAbortActivity_absent h he
  | collapse o => exact collapseTurn_absent h ha he

theorem absentRun_absent (h : AbsentRun AbsentStay s) : AbsentInv s := by
  induction h with
  | start s hr hp hc =>
    refine ⟨hr, fun o => ⟨[], ?_, hc o⟩⟩
    apply mirrors_nil.congr
    intro p
    simp [absentIn, hp p]
  | step op _ hp ha he ih => exact absentStep_absent ih hp ha he

/-- The absent pages of an object, counted in its page list. -/
def absentPages (s : VmState) (o : ObjId) : Nat := (s.object o).memq.countP fun mem => (s.page mem).absent

theorem AbsentInv.absentPages (h : AbsentInv s) (o : ObjId) :
    (s.object o).absentCount = absentPages s o := by
  obtain ⟨q, hq, hc⟩ := h.counted o
  have hm := h.resident.table.memq o
  have hp : q.Perm ((s.object o).memq.filter fun mem => (s.page mem).absent) := by
    refine (List.perm_ext_iff_of_nodup hq.nodup (hm.nodup.filter _)).mpr ?_
    intro p
    rw [hq.mem_iff, List.mem_filter, hm.mem_iff]
    simp [absentIn]
  rw [hc, hp.length_eq, MachVM.absentPages, List.countP_eq_length_filter]

/-- While no absent page is moved between objects, the count of every object is exact, and the
limit stops a fault exactly when that many requests are outstanding. -/
theorem absentRun_exact (h : AbsentRun AbsentStay s) (o : ObjId) :
    (s.object o).absentCount = absentPages s o ∧
      (throttled s o = true ↔ (s.object o).internal = false ∧ absentMax < absentPages s o) := by
  have hc := (absentRun_absent h).absentPages o
  refine ⟨hc, ?_⟩
  rw [← hc]
  simp [throttled]

/-- An object over one that is paged by the default pager. -/
def overPaged : VmState :=
  { object := fun o =>
      if o = 0 then { size := 4096, shadow := some 1 }
      else { size := 4096, pagerCreated := true, pagerReady := true, pager := some 5 } }

theorem residentInv_noPages {object : ObjId → VmObject} (hm : ∀ o, (object o).memq = [])
    (hc : ∀ o, (object o).residentPageCount = 0) : ResidentInv { object := object } := by
  constructor
  · constructor
    all_goals simp [Mirror.mirrors_nil]
  · constructor
    all_goals simp [Mirror.mirrors_nil, hm, hc]
  · simp

theorem overPaged_resident : ResidentInv overPaged := by
  apply residentInv_noPages
  · intro o
    by_cases ho : o = 0 <;> simp [ho]
  · intro o
    by_cases ho : o = 0 <;> simp [ho]

theorem overPaged_run (allowed : VmState → AbsentOp → Prop) : AbsentRun allowed overPaged := by
  refine .start _ overPaged_resident (fun _ => rfl) ?_
  intro o
  by_cases ho : o = 0 <;> simp [overPaged, ho]

/-- A page of the backing object is requested. -/
def requested : Option VmState :=
  (absentStep overPaged (.page (.create 0 0))).bind fun s => absentStep s (.faultRequest 1 0 false)

theorem requested_run (h : requested = some s) : AbsentRun (fun _ _ => True) s := by
  obtain ⟨v, hv, hs⟩ := Option.bind_eq_some_iff.mp h
  have hc : AbsentRun (fun _ _ => True) v :=
    .step (.page (.create 0 0)) (overPaged_run _) ⟨rfl, rfl, rfl, rfl⟩ trivial hv
  exact .step (.faultRequest 1 0 false) hc trivial trivial hs

/-- The state after a section that returns. -/
def afterAbsent (s : VmState) (op : AbsentOp) : VmState := (absentStep s op).getD s

theorem AbsentRun.after {allowed : VmState → AbsentOp → Prop} (h : AbsentRun allowed s) (op : AbsentOp)
    (hp : AbsentPre s op) (ha : allowed s op) (hs : (absentStep s op).isSome) :
    AbsentRun allowed (afterAbsent s op) := by
  obtain ⟨t, ht⟩ := Option.isSome_iff_exists.mp hs
  rw [afterAbsent, ht]
  exact .step op h hp ha ht

/-- A page of the backing object is requested, and the reply brings its data. -/
def answered : VmState :=
  [.page (.create 0 0), .page (.create 1 0x1000), .faultRequest 1 0 false, .dataProvided 1 0 false,
    .dataSupplied 1 0].foldl afterAbsent overPaged

theorem answered_run : AbsentRun AbsentStay answered := by
  have h := overPaged_run AbsentStay
  have h := h.after (.page (.create 0 0)) ⟨rfl, rfl, rfl, rfl⟩ trivial (by decide)
  have h := h.after (.page (.create 1 0x1000)) ⟨rfl, rfl, rfl, rfl⟩ trivial (by decide)
  have h := h.after (.faultRequest 1 0 false) trivial trivial (by decide)
  have h := h.after (.dataProvided 1 0 false) trivial trivial (by decide)
  exact h.after (.dataSupplied 1 0) rfl trivial (by decide)

theorem answered_stay : AbsentStay answered (.collapse 0) := by
  intro b hm mem hmem ha
  cases Option.some.inj (show some 1 = some b from hm.2.2.1)
  have hno : ∀ mem ∈ (answered.object 1).memq, (answered.page mem).absent = false := by decide
  rw [hno mem hmem] at ha
  cases ha

/-- The objects are merged, and another page is requested. -/
def mergedRequest : VmState := afterAbsent (afterAbsent answered (.collapse 0)) (.faultRequest 0 0x1000 false)

theorem mergedRequest_run : AbsentRun AbsentStay mergedRequest := by
  have h := answered_run.after (.collapse 0) trivial answered_stay (by decide +kernel)
  exact h.after (.faultRequest 0 0x1000 false) trivial trivial (by decide +kernel)

theorem mergedRequest_exact : (mergedRequest.object 0).shadow = none ∧ (mergedRequest.object 0).absentCount = 1 ∧
    absentPages mergedRequest 0 = 1 := by
  have hcount : (mergedRequest.object 0).absentCount = 1 := by decide +kernel
  have hexact := (absentRun_exact mergedRequest_run 0).1
  exact ⟨by decide +kernel, hcount, Int.ofNat.inj (hexact.symm.trans hcount)⟩

/-- The fault is interrupted, the objects are merged, and the page arrives: the count of the
parent falls below zero. -/
theorem mergedRequest_underflows :
    ¬ ∀ s, AbsentRun (fun _ _ => True) s → ∀ o, (s.object o).absentCount = absentPages s o := by
  intro hall
  have hrun : ((requested.bind fun s => absentStep s (.collapse 0)).bind fun s =>
      absentStep s (.dataProvided 0 0 false)).map (fun s => ((s.object 0).absentCount, absentPages s 0)) =
      some (-1, 0) := by decide
  obtain ⟨s, hs, hv⟩ := Option.map_eq_some_iff.mp hrun
  obtain ⟨v, hv', hd⟩ := Option.bind_eq_some_iff.mp hs
  obtain ⟨w, hw, hc⟩ := Option.bind_eq_some_iff.mp hv'
  have h₁ : AbsentRun (fun _ _ => True) w := requested_run hw
  have h₂ : AbsentRun (fun _ _ => True) v := .step (.collapse 0) h₁ trivial trivial hc
  have hx := hall s (.step (.dataProvided 0 0 false) h₂ trivial trivial hd) 0
  obtain ⟨hneg, hzero⟩ := Prod.mk.inj hv
  rw [hneg, hzero] at hx
  cases hx

end MachVM

import MachVM.ObjectEvents

namespace MachVM

/-- Whether a thread holds a paging reference between its sections. -/
def EventCall.holds : EventCall → Bool
  | .fault => true
  | .wireFast => true
  | .pageout => true
  | .lockRequest => true
  | .copyCall => true
  | .attach internal => internal
  | .finish internal => internal
  | .created => true
  | _ => false

/-- No thread is asleep while the condition its wait loop tests is satisfied. -/
def NoStranded (s : EventState) : Prop := ∀ c ∈ s.asleep, c.satisfied s = false

/-- A sleeper that a wakeup will reach. -/
def Wanted (s : EventState) (c : EventCall) : Prop := ∃ e, c.event = some e ∧ s.allWanted e = true

/-- Every paging reference has a thread behind it (`inHand` of them the one that is taking a
step), and every sleeper is wanted and has a reason to sleep. -/
structure EventInv (s : EventState) (inHand : Nat) : Prop where
  paging : s.pagingInProgress = s.calls.countP EventCall.holds + inHand
  asleep : ∀ c ∈ s.asleep, c.satisfied s = false
  wanted : ∀ c ∈ s.asleep, Wanted s c

variable {s t : EventState} {c : EventCall} {e : ObjectEvent} {k : Nat}

theorem resume_holds {d : EventCall} (h : c.event = some e) (hr : c.resume = some d) : d.holds = false := by
  cases c <;> simp_all [EventCall.event, EventCall.resume] <;> subst hr <;> rfl

theorem objectWakeup_asleep (hw : ∀ c ∈ s.asleep, Wanted s c) (e : ObjectEvent) :
    ∀ c ∈ (objectWakeup s e).asleep, c ∈ s.asleep ∧ c.event ≠ some e := by
  intro c hc
  unfold objectWakeup at hc
  split at hc
  next =>
    have := List.mem_filter.mp hc
    exact ⟨this.1, by simpa using this.2⟩
  next hno =>
    refine ⟨hc, ?_⟩
    intro he
    obtain ⟨e', he', ha⟩ := hw c hc
    rw [he] at he'
    cases Option.some.inj he'
    exact hno ha

theorem objectWakeup_wanted (hw : ∀ c ∈ s.asleep, Wanted s c) (e : ObjectEvent) :
    ∀ c ∈ (objectWakeup s e).asleep, Wanted (objectWakeup s e) c := by
  intro c hc
  obtain ⟨hm, hne⟩ := objectWakeup_asleep hw e c hc
  obtain ⟨e', he', ha⟩ := hw c hm
  have hee : e' ≠ e := by
    rintro rfl
    exact hne he'
  refine ⟨e', he', ?_⟩
  unfold objectWakeup
  split <;> simpa [hee] using ha

theorem objectWakeup_satisfied (s : EventState) (e : ObjectEvent) (c : EventCall) :
    c.satisfied (objectWakeup s e) = c.satisfied s := by
  unfold objectWakeup
  split <;> cases c <;> rfl

theorem objectWakeup_paging (s : EventState) (e : ObjectEvent) :
    (objectWakeup s e).pagingInProgress = s.pagingInProgress := by
  unfold objectWakeup
  split <;> rfl

theorem objectWakeup_holds (s : EventState) (e : ObjectEvent) :
    (objectWakeup s e).calls.countP EventCall.holds = s.calls.countP EventCall.holds := by
  unfold objectWakeup
  split
  next =>
    show List.countP _ (_ ++ s.calls) = _
    rw [List.countP_append]
    have hz : ((s.asleep.filter fun c => c.event = some e).filterMap EventCall.resume).countP
        EventCall.holds = 0 := by
      apply List.countP_eq_zero.mpr
      intro d hd
      obtain ⟨c, hc, hr⟩ := List.mem_filterMap.mp hd
      have he : c.event = some e := by simpa using (List.mem_filter.mp hc).2
      rw [resume_holds he hr]
      simp
    omega
  next => rfl

theorem EventInv.wakeup (hp : s.pagingInProgress = s.calls.countP EventCall.holds + k)
    (hw : ∀ c ∈ s.asleep, Wanted s c)
    (ha : ∀ c ∈ s.asleep, c.event ≠ some e → c.satisfied s = false) : EventInv (objectWakeup s e) k := by
  refine ⟨?_, ?_, objectWakeup_wanted hw e⟩
  · rw [objectWakeup_paging, objectWakeup_holds, hp]
  · intro c hc
    obtain ⟨hm, hne⟩ := objectWakeup_asleep hw e c hc
    rw [objectWakeup_satisfied]
    exact ha c hm hne

theorem EventInv.start (h : EventInv s c.holds.toNat) : EventInv (startCall s c) 0 := by
  refine ⟨?_, h.asleep, h.wanted⟩
  show s.pagingInProgress = (c :: s.calls).countP _ + 0
  rw [List.countP_cons, h.paging]
  cases c.holds <;> rfl

theorem EventInv.pagingBegin (h : EventInv s k) : EventInv (pagingBegin s) (k + 1) := by
  refine ⟨congrArg (· + 1) h.paging, ?_, h.wanted⟩
  intro d hd
  have hold := h.asleep d hd
  cases d <;> first | exact hold | rfl

theorem EventInv.sleep (h : EventInv s k) (hc : c.satisfied s = false) : EventInv (objectWait s c) k := by
  unfold objectWait
  split
  next => exact h
  next e he =>
    refine ⟨h.paging, ?_, ?_⟩
    · intro d hd
      have hsat : ∀ x : EventCall, x.satisfied { s with
          allWanted := Function.update s.allWanted e true, asleep := c :: s.asleep } = x.satisfied s := by
        intro x
        cases x <;> rfl
      rw [hsat]
      rcases List.mem_cons.mp hd with rfl | hm
      · exact hc
      · exact h.asleep d hm
    · intro d hd
      rcases List.mem_cons.mp hd with rfl | hm
      · exact ⟨e, he, by simp⟩
      · obtain ⟨e', he', ha⟩ := h.wanted d hm
        refine ⟨e', he', ?_⟩
        by_cases hee : e' = e
        · simp [hee]
        · simpa [hee] using ha

theorem EventInv.waitTurn (h : EventInv s k) (c : EventCall) : EventInv (waitTurn s c) k := by
  unfold MachVM.waitTurn
  split
  next => exact h
  next hc => exact h.sleep (by simpa using hc)

theorem EventInv.takeCall (h : EventInv s 0) (hc : c ∈ s.calls) :
    EventInv { s with calls := s.calls.erase c } c.holds.toNat := by
  refine ⟨?_, ?_, h.wanted⟩
  · show s.pagingInProgress = (s.calls.erase c).countP _ + _
    rw [h.paging, (List.perm_cons_erase hc).countP_eq, List.countP_cons]
    cases c.holds <;> rfl
  · intro d hd
    have hold := h.asleep d hd
    cases d <;> exact hold

theorem pagingCeased_event (hn : c.satisfied s = false) (hs : c.satisfied t = true)
    (hi : t.pagerInitialized = s.pagerInitialized) (hr : t.pagerReady = s.pagerReady) :
    c.event = some .pagingInProgress := by
  cases c <;> simp_all [EventCall.satisfied, EventCall.event]

theorem EventInv.pagingEnd (h : EventInv s (k + 1)) : EventInv (pagingEnd s) k := by
  have hcount : s.pagingInProgress - 1 = s.calls.countP EventCall.holds + k := by
    have := h.paging
    omega
  simp only [MachVM.pagingEnd]
  split
  next =>
    refine EventInv.wakeup hcount h.wanted ?_
    intro d hd hne
    by_contra hsat
    exact hne (pagingCeased_event (h.asleep d hd) (eq_true_of_ne_false hsat) rfl rfl)
  next hz =>
    refine ⟨hcount, ?_, h.wanted⟩
    intro d hd
    have hold := h.asleep d hd
    cases d with
    | pagingWait => simpa [EventCall.satisfied] using hz
    | _ => exact hold

def EventCall.waitsReady (c : EventCall) : Bool := c = .copyWait || c = .faultWait

/-- No condition is established by hand while a thread sleeps for it: `vm_fault_wire_fast` does
not give up the last paging reference under a thread that waits for paging to cease,
`vm_object_enter` does not make the pager ready under one that waits for readiness, nor
initialized under one that waits in `vm_object_pager_create`. -/
def wakesWaiters (s : EventState) : EventOp → Bool
  | .run .wireFast => !(s.pagingInProgress = 1 && s.asleep.any (· = .pagingWait))
  | .run (.attach internal) => !(internal && s.asleep.any EventCall.waitsReady)
  | .run (.finish _) => !(s.asleep.any (· = .createWait)) &&
      !(s.acceptOldInitProtocol && s.asleep.any EventCall.waitsReady)
  | _ => true

theorem not_mem_of_any {l : List EventCall} {p : EventCall → Bool} (h : l.any p = false)
    (hp : p c = true) : c ∉ l := by
  intro hm
  have := List.any_eq_false.mp h c hm
  exact this hp

theorem wireFastEnd_inv (h : EventInv s 1)
    (ha : (s.pagingInProgress = 1 && s.asleep.any (· = .pagingWait)) = false) :
    EventInv (wireFastEnd s) 0 := by
  have hp := h.paging
  refine ⟨?_, ?_, h.wanted⟩
  · show s.pagingInProgress - 1 = s.calls.countP _ + 0
    omega
  · intro d hd
    have hold := h.asleep d hd
    cases d with
    | pagingWait =>
      have hone : s.pagingInProgress ≠ 1 := by
        intro hone
        simp only [hone, decide_true, Bool.true_and] at ha
        exact not_mem_of_any ha (by simp) hd
      have hzero : s.pagingInProgress ≠ 0 := by simpa [EventCall.satisfied] using hold
      show decide (s.pagingInProgress - 1 = 0) = false
      simp only [decide_eq_false_iff_not]
      omega
    | _ => exact hold

theorem attachPager_inv {internal : Bool} (h : EventInv s internal.toNat)
    (ha : (internal && s.asleep.any EventCall.waitsReady) = false) : EventInv (attachPager s internal) 0 := by
  refine EventInv.start (c := .finish internal) ⟨h.paging, ?_, h.wanted⟩
  · intro d hd
    have hold := h.asleep d hd
    cases internal with
    | false => cases d <;> first | exact hold | rfl
    | true =>
      simp only [Bool.true_and] at ha
      cases d with
      | copyWait => exact absurd hd (not_mem_of_any ha rfl)
      | faultWait => exact absurd hd (not_mem_of_any ha rfl)
      | _ => exact hold

theorem finishPager_inv {internal : Bool} (h : EventInv s internal.toNat)
    (hc : s.asleep.any (· = .createWait) = false)
    (hr : (s.acceptOldInitProtocol && s.asleep.any EventCall.waitsReady) = false) :
    EventInv (finishPager s internal) 0 := by
  have hready : ∀ d ∈ s.asleep, d.waitsReady = true →
      (if s.acceptOldInitProtocol then true else s.pagerReady) = s.pagerReady := by
    intro d hd hdr
    cases ho : s.acceptOldInitProtocol with
    | false => rfl
    | true =>
      simp only [ho, Bool.true_and] at hr
      exact absurd hd (not_mem_of_any hr hdr)
  have hw : EventInv (objectWakeup { s with
      pagerInitialized := true
      pagerReady := if s.acceptOldInitProtocol then true else s.pagerReady } .initialized) internal.toNat := by
    refine EventInv.wakeup h.paging h.wanted ?_
    intro d hd hne
    have hold := h.asleep d hd
    cases d with
    | enterWait => exact absurd rfl hne
    | createWait => exact absurd hd (not_mem_of_any hc (by simp))
    | copyWait => exact (hready _ hd rfl).trans hold
    | faultWait => exact (hready _ hd rfl).trans hold
    | _ => exact hold
  simp only [finishPager]
  cases internal with
  | false => exact hw
  | true => exact EventInv.start (c := .created) hw

theorem eventSetAttributes_inv (h : EventInv s 0) (ready : Bool) (strategy : CopyStrategy) :
    EventInv (eventSetAttributes s ready strategy) 0 := by
  have hset : ∀ r : EventState, EventInv r 0 → (ready = true → ∀ d ∈ r.asleep, d.waitsReady = false) →
      EventInv { r with pagerReady := ready, copyStrategy := strategy } 0 := by
    intro r hr hno
    refine ⟨hr.paging, ?_, hr.wanted⟩
    intro d hd
    have hold := hr.asleep d hd
    cases ready with
    | false => cases d <;> first | exact hold | rfl
    | true =>
      have hd' := hno rfl d hd
      cases d <;> first | exact hold | cases hd'
  unfold eventSetAttributes
  split
  next hwake =>
    apply hset
    · exact EventInv.wakeup h.paging h.wanted fun d hd _ => h.asleep d hd
    · intro _ d hd
      obtain ⟨-, hne⟩ := objectWakeup_asleep h.wanted _ d hd
      cases d <;> first | rfl | exact absurd rfl hne
  next hno =>
    apply hset s h
    intro hr d hd
    have hold := h.asleep d hd
    have hpr : s.pagerReady = true := by simpa [hr] using hno
    cases d <;> first | rfl | (rw [EventCall.satisfied, hpr] at hold; cases hold)

theorem eventAbortActivity_inv (h : EventInv s 0) : EventInv (eventAbortActivity s) 0 := by
  refine EventInv.wakeup h.paging h.wanted ?_
  intro d hd hne
  have hold := h.asleep d hd
  cases d <;> first | exact hold | exact absurd rfl hne

theorem eventSection_inv (h : EventInv s c.holds.toNat) (ha : wakesWaiters s (.run c) = true) :
    EventInv (eventSection s c) 0 := by
  cases c with
  | wireFast =>
    simp only [wakesWaiters, Bool.not_eq_true'] at ha
    exact wireFastEnd_inv h ha
  | attach internal =>
    simp only [wakesWaiters, Bool.not_eq_true'] at ha
    exact attachPager_inv h ha
  | finish internal =>
    simp only [wakesWaiters, Bool.and_eq_true, Bool.not_eq_true'] at ha
    exact finishPager_inv h ha.1 ha.2
  | enterWait => exact h.waitTurn .enterWait
  | createWait => exact h.waitTurn .createWait
  | pagingWait => exact h.waitTurn .pagingWait
  | faultWait => exact h
  | copyWait =>
    simp only [eventSection]
    split
    next =>
      unfold copyReady
      split
      next => exact EventInv.start (c := .copyCall) h.pagingBegin
      next => exact h
    next hr => exact h.sleep (by simpa [EventCall.satisfied] using hr)
  | fault => exact h.pagingEnd
  | pageout => exact h.pagingEnd
  | lockRequest => exact h.pagingEnd
  | copyCall => exact h.pagingEnd
  | created => exact h.pagingEnd

theorem wakesWaiters_calls (cs : List EventCall) (op : EventOp) :
    wakesWaiters { s with calls := cs } op = wakesWaiters s op := by
  cases op with
  | run c => cases c <;> rfl
  | _ => rfl

theorem eventStep_inv {op : EventOp} (h : EventInv s 0) (ha : wakesWaiters s op = true)
    (ht : eventStep s op = some t) : EventInv t 0 := by
  cases op with
  | fault =>
    cases Option.some.inj ht
    exact EventInv.start (c := .fault) h.pagingBegin
  | faultNotReady =>
    simp only [eventStep] at ht
    split at ht
    next hc =>
      cases Option.some.inj ht
      exact ((h.takeCall hc.1).sleep (c := .faultWait) hc.2).pagingEnd
    next => cases ht
  | wireFast =>
    cases Option.some.inj ht
    exact EventInv.start (c := .wireFast) h.pagingBegin
  | pageout =>
    cases Option.some.inj ht
    exact EventInv.start (c := .pageout) h.pagingBegin
  | lockRequest =>
    cases Option.some.inj ht
    exact EventInv.start (c := .lockRequest) h.pagingBegin
  | copy =>
    cases Option.some.inj ht
    exact EventInv.start (c := .copyWait) h
  | enterNew =>
    simp only [eventStep] at ht
    split at ht
    next =>
      cases Option.some.inj ht
      exact EventInv.start (c := .attach false) ⟨h.paging, h.asleep, h.wanted⟩
    next => cases ht
  | enterOld =>
    cases Option.some.inj ht
    exact EventInv.start (c := .enterWait) h
  | pagerCreate =>
    cases Option.some.inj ht
    unfold eventPagerCreate
    split
    next => exact EventInv.start (c := .createWait) h
    next =>
      apply EventInv.start (c := .attach true)
      apply EventInv.pagingBegin
      exact ⟨h.paging, h.asleep, h.wanted⟩
  | terminate =>
    cases Option.some.inj ht
    exact EventInv.start (c := .pagingWait) h
  | destroyObject =>
    cases Option.some.inj ht
    exact EventInv.start (c := .pagingWait) h
  | destroyPort =>
    cases Option.some.inj ht
    exact eventAbortActivity_inv h
  | setAttributes ready strategy =>
    cases Option.some.inj ht
    exact eventSetAttributes_inv h ready strategy
  | interrupt c =>
    simp only [eventStep] at ht
    split at ht
    next =>
      cases Option.some.inj ht
      refine ⟨h.paging, ?_, ?_⟩
      · intro d hd
        have hold := h.asleep d (List.mem_of_mem_erase hd)
        cases d <;> exact hold
      · exact fun d hd => h.wanted d (List.mem_of_mem_erase hd)
    next => cases ht
  | run c =>
    simp only [eventStep] at ht
    split at ht
    next hm =>
      cases Option.some.inj ht
      exact eventSection_inv (h.takeCall hm) ((wakesWaiters_calls _ _).trans ha)
    next => cases ht

/-- Runs of the threads at work on an object, all of whose steps are allowed. -/
inductive EventRun (allowed : EventState → EventOp → Bool) (start : EventState) : EventState → Prop
  | start : EventRun allowed start start
  | step {s t : EventState} {op : EventOp} : EventRun allowed start s → allowed s op = true →
      eventStep s op = some t → EventRun allowed start t

/-- A new object. -/
def newObjectEvents (acceptOld : Bool) : EventState := { acceptOldInitProtocol := acceptOld }

theorem newObjectEvents_inv (acceptOld : Bool) : EventInv (newObjectEvents acceptOld) 0 :=
  ⟨rfl, by rintro c ⟨⟩, by rintro c ⟨⟩⟩

theorem eventRun_inv {acceptOld : Bool} (h : EventRun wakesWaiters (newObjectEvents acceptOld) s) :
    EventInv s 0 := by
  induction h with
  | start => exact newObjectEvents_inv acceptOld
  | step _ ha ht ih => exact eventStep_inv ih ha ht

/-- The operations of a list, one after the other. -/
def eventSteps (allowed : EventState → EventOp → Bool) : EventState → List EventOp → Option EventState
  | s, [] => some s
  | s, op :: ops => if allowed s op then (eventStep s op).bind fun t => eventSteps allowed t ops else none

theorem eventSteps_run {allowed : EventState → EventOp → Bool} {start : EventState} {ops : List EventOp}
    (h : EventRun allowed start s) (ht : eventSteps allowed s ops = some t) : EventRun allowed start t := by
  induction ops generalizing s with
  | nil =>
    cases Option.some.inj ht
    exact h
  | cons op ops ih =>
    simp only [eventSteps] at ht
    split at ht
    next ha =>
      obtain ⟨m, hm, ht⟩ := Option.bind_eq_some_iff.mp ht
      exact ih (h.step ha hm) ht
    next => cases ht

/-- In every run that establishes no condition by hand under a thread that sleeps for it, no
thread is stranded. -/
theorem eventRun_noStranded {acceptOld : Bool}
    (h : EventRun wakesWaiters (newObjectEvents acceptOld) s) : NoStranded s :=
  (eventRun_inv h).asleep

/-- A manager destroys its object during a fault; the fault wakes it at the end. -/
def destroyDuringFault : List EventOp :=
  [.enterNew, .run (.attach false), .run (.finish false), .setAttributes true .delay, .fault, .wireFast,
    .destroyObject, .run .pagingWait, .run .wireFast]

theorem destroyDuringFault_noStranded : ∃ s,
    eventSteps wakesWaiters (newObjectEvents false) destroyDuringFault = some s ∧
      s.asleep = [.pagingWait] ∧ NoStranded s := by
  have hrun : ((eventSteps wakesWaiters (newObjectEvents false) destroyDuringFault).any fun s =>
      s.asleep = [.pagingWait]) = true := by
    decide +kernel
  obtain ⟨s, hs, hd⟩ := (Option.any_eq_true _ _).mp hrun
  exact ⟨s, hs, by simpa using hd, eventRun_noStranded (eventSteps_run .start hs)⟩

/-- The same without the fault: the fast wire takes the last paging reference away and wakes
nobody. -/
def destroyDuringWire : List EventOp :=
  [.enterNew, .run (.attach false), .run (.finish false), .setAttributes true .delay, .wireFast,
    .destroyObject, .run .pagingWait, .run .wireFast]

theorem wireFast_strands : ∃ s, EventRun (fun _ _ => true) (newObjectEvents false) s ∧ ¬ NoStranded s := by
  have hrun : ((eventSteps (fun _ _ => true) (newObjectEvents false) destroyDuringWire).any fun s =>
      s.asleep = [.pagingWait] && s.pagingInProgress = 0) = true := by
    decide +kernel
  obtain ⟨s, hs, hd⟩ := (Option.any_eq_true _ _).mp hrun
  simp only [Bool.and_eq_true, decide_eq_true_eq] at hd
  refine ⟨s, eventSteps_run .start hs, ?_⟩
  intro h
  have := h .pagingWait (by rw [hd.1]; exact List.mem_singleton_self _)
  simp [EventCall.satisfied, hd.2] at this

end MachVM

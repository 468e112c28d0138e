import MachVM.FaultPage

namespace MachVM

variable {depth : ObjId → Nat} {a : FaultArgs} {st : Search} {t : Turn depth}
  {guarded : FaultEvent → Bool} {held held' : List ObjId} {ev ev' : List FaultEvent}

/-- The object whose field, or whose page's field, an event writes. -/
def FaultEvent.writes : FaultEvent → Option ObjId
  | .pagingBegin o | .pagingEnd o | .writeObject o | .collapse o => some o
  | .alloc o _ | .free o _ | .setBusy o _ | .clearBusy o _ | .setAbsent o _ | .clearAbsent o _ => some o
  | .writePage o _ | .queues o _ | .pageout o _ => some o
  | _ => none

/-- One event of a thread that holds the object locks `held`: none if it breaks the discipline.
The routines that lock objects themselves are called with no object locked. -/
def lockStep (guarded : FaultEvent → Bool) (held : List ObjId) (e : FaultEvent) : Option (List ObjId) :=
  match e with
  | .lock o => if o ∈ held then none else some (o :: held)
  | .unlock o | .sleep o => if o ∈ held then some (held.erase o) else none
  | .deallocate _ | .enter _ => if held = [] then some held else none
  | e =>
    match e.writes with
    | none => some held
    | some o => if guarded e = true ∧ o ∉ held then none else some held

def lockRun (guarded : FaultEvent → Bool) (held : List ObjId) (ev : List FaultEvent) :
    Option (List ObjId) :=
  ev.foldlM (lockStep guarded) held

/-- Every field is written under the object lock. -/
def everyField (_ : FaultEvent) : Bool := true

/-- Fields under the page queue lock, and those of an object that nobody else knows, are not
written under the object lock. -/
def sharedField (own : ObjId) (e : FaultEvent) : Bool :=
  match e with
  | .queues _ _ => false
  | e => e.writes ≠ some own

/-- The thread has reached the limit on outstanding requests. -/
def Turn.overLimit (t : Turn depth) : Bool := !t.internal && decide (vmObjectAbsentMax < t.absentCount)

theorem lockRun_append :
    lockRun guarded held (ev ++ ev') = (lockRun guarded held ev).bind fun held => lockRun guarded held ev' := by
  simp [lockRun, List.foldlM_append]

@[simp]
theorem lockRun_nil : lockRun guarded held [] = some held := rfl

@[simp]
theorem lockRun_cons (e : FaultEvent) :
    lockRun guarded held (e :: ev) = (lockStep guarded held e).bind fun held => lockRun guarded held ev := by
  simp [lockRun, List.foldlM_cons]

theorem lockRun_of_append (h : lockRun guarded held ev = some held') :
    lockRun guarded held (ev ++ ev') = lockRun guarded held' ev' := by
  rw [lockRun_append, h]
  rfl

/-- The locks held when a call ends: that of the result page's object, or none. -/
def FaultEnd.Holds (held : List ObjId) : FaultEnd → Prop
  | .success o _ _ _ => held = [o]
  | .failed _ => held = []
  | _ => True

def SearchNext.Holds (held : List ObjId) : SearchNext → Prop
  | .again st => held = [st.object]
  | .found st _ => held = [st.object]
  | .stop e => e.Holds held

/-- A piece of the search keeps the discipline and ends with the right locks. -/
def Locks (o : ObjId) (r : List FaultEvent × SearchNext) : Prop :=
  ∃ held, lockRun everyField [o] r.1 = some held ∧ r.2.Holds held

/-- The same for a stretch that ends the call. -/
def EndLocks (o : ObjId) (r : List FaultEvent × FaultEnd) : Prop :=
  ∃ held, lockRun everyField [o] r.1 = some held ∧ r.2.Holds held

attribute [local simp] lockStep FaultEvent.writes everyField

theorem unlockThings_locks (r : FaultCode) : EndLocks st.object (unlockThings a st r) := by
  unfold unlockThings
  split
  · exact ⟨[], by simp, rfl⟩
  next ho =>
    split
    · exact ⟨[a.firstObject], by simp, trivial⟩
    · exact ⟨[], by simp, rfl⟩

theorem giveUp_locks (h : lockRun everyField [st.object] ev = some [st.object]) (r : FaultCode) :
    Locks st.object (giveUp a st ev r) := by
  obtain ⟨held, hl, he⟩ := unlockThings_locks r
  exact ⟨held, (lockRun_of_append h).trans hl, he⟩

theorem EndLocks.prepend {o o' : ObjId} {p : List FaultEvent × FaultEnd} (h : EndLocks o' p)
    (hl : lockRun everyField [o] ev = some [o']) : EndLocks o (ev ++ p.1, p.2) := by
  obtain ⟨held, hr, he⟩ := h
  exact ⟨held, (lockRun_of_append hl).trans hr, he⟩

theorem andThen_locks {o o' : ObjId} {p : List FaultEvent × SearchNext} (h : Locks o' p)
    (hl : lockRun everyField [o] ev = some [o']) : Locks o (andThen ev p) := by
  obtain ⟨held, hr, he⟩ := h
  exact ⟨held, (lockRun_of_append hl).trans hr, he⟩

theorem lockCheck_locks (m : PageId) : Locks st.object (lockCheck a t st m) := by
  unfold lockCheck
  split
  · exact ⟨_, by simp, rfl⟩
  · split
    · exact giveUp_locks (by simp) _
    · split
      · exact giveUp_locks (by simp) _
      · simp only
        split
        · exact giveUp_locks (by simp) _
        · exact ⟨_, by simp, rfl⟩

theorem unavailableBottom_locks (m : PageId) : Locks st.object (unavailableBottom a t st m) := by
  unfold unavailableBottom
  split
  · apply andThen_locks (lockCheck_locks m)
    simp
  · simp only
    split
    · exact ⟨[], by simp, trivial⟩
    next firstM _ =>
      apply andThen_locks (lockCheck_locks firstM)
      simp

theorem unavailableShadowed_locks (m : PageId) {next : ObjId} (hn : next ≠ st.object) :
    Locks st.object (unavailableShadowed a st m next) := by
  unfold unavailableShadowed
  simp only
  split
  · exact ⟨_, by simp [hn], rfl⟩
  · split
    · exact ⟨_, by simp [hn], rfl⟩
    · exact ⟨_, by simp [hn], rfl⟩

theorem Turn.shadow_ne {o next : ObjId} (h : t.shadow o = some next) : next ≠ o := by
  rintro rfl
  exact Nat.lt_irrefl _ (t.deeper _ _ h)

theorem residentPage_locks (p : PageSeen) : Locks st.object (residentPage a t st p) := by
  unfold residentPage
  split
  · exact giveUp_locks (by simp) _
  · split
    · simp only
      split
      · exact ⟨_, by simp, rfl⟩
      · exact giveUp_locks (by simp) _
      · exact giveUp_locks (by simp) _
    · split
      · split
        · exact unavailableBottom_locks p.page
        next next hs => exact unavailableShadowed_locks p.page (t.shadow_ne hs)
      · exact lockCheck_locks p.page

theorem requestPage_locks (m : PageId) (ht : t.overLimit = false) :
    Locks st.object (requestPage a t st m) := by
  unfold requestPage
  split
  · exact giveUp_locks (by simp) _
  · split
    next hc => simp [Turn.overLimit, hc.1, hc.2] at ht
    next =>
      split
      · exact giveUp_locks (by simp) _
      · exact ⟨_, by simp, rfl⟩

theorem zeroFill_locks (m : Option PageId) : Locks a.firstObject (zeroFill a m) := by
  unfold zeroFill
  split
  · exact ⟨[], by simp, trivial⟩
  · exact ⟨_, by simp, rfl⟩

theorem moveOn_locks (m : Option PageId) : Locks st.object (moveOn a t st m) := by
  unfold moveOn
  simp only
  split
  · split
    next ho =>
      rw [ho]
      exact zeroFill_locks _
    next =>
      apply andThen_locks (zeroFill_locks _)
      simp
  next next hs =>
    have hn := t.shadow_ne hs
    split
    · exact ⟨_, by simp [hn], rfl⟩
    · exact ⟨_, by simp [hn], rfl⟩

theorem searchTurn_locks (ht : t.overLimit = false) : Locks st.object (searchTurn a t st) := by
  unfold searchTurn
  split
  next p _ => exact residentPage_locks p
  next =>
    unfold missingPage
    simp only
    split
    · split
      · exact giveUp_locks (by simp) _
      next m _ =>
        have hr : Locks st.object
            (if (t.pagerCreated && !t.knownAbsent) = true then requestPage a t st m
              else moveOn a t st (some m)) := by
          split
          · exact requestPage_locks m ht
          · exact moveOn_locks _
        apply andThen_locks hr
        simp
    · exact moveOn_locks _

theorem searchLoop_locks {turns : List (Turn depth)} (ht : ∀ t ∈ turns, t.overLimit = false) :
    Locks st.object (searchLoop a st turns) := by
  induction turns generalizing st with
  | nil => exact ⟨_, rfl, rfl⟩
  | cons t turns ih =>
    have hs : Locks st.object (searchTurn a t st) := searchTurn_locks (ht t (by simp))
    unfold searchLoop
    split
    next ev st' he =>
      rw [he] at hs
      obtain ⟨held, hl, rfl⟩ := hs
      exact andThen_locks (ih fun t h => ht t (by simp [h])) hl
    next => exact hs

theorem faultSuccess_locks (o : ObjId) (m : PageId) (top : Option PageId) (protection : VmProt) :
    EndLocks o (faultSuccess a o m top protection) := by
  unfold faultSuccess
  split
  · exact ⟨[o], by simp, rfl⟩
  · exact ⟨[o], rfl, rfl⟩

theorem foundBelow_locks (m : PageId) (protection : VmProt) :
    EndLocks st.object (foundBelow a st m protection) := by
  unfold foundBelow
  split
  · exact faultSuccess_locks _ _ _ _
  · split
    · exact ⟨[], by simp, trivial⟩
    · apply (faultSuccess_locks _ _ _ _).prepend
      simp

/-- Both the first object and its copy object are locked, in either order. -/
def HoldsBoth (a : FaultArgs) (copy : ObjId) (held : List ObjId) : Prop :=
  a.firstObject ∈ held ∧ copy ∈ held ∧ held.erase copy = [a.firstObject]

/-- A stretch that begins with both objects locked and ends the call. -/
def CopyLocks (a : FaultArgs) (copy : ObjId) (r : List FaultEvent × FaultEnd) : Prop :=
  ∀ held, HoldsBoth a copy held → ∃ held', lockRun everyField held r.1 = some held' ∧ r.2.Holds held'

theorem leaveCopy_locks (m : PageId) (copy : ObjId) (r : FaultCode) :
    CopyLocks a copy (leaveCopy a m copy r) := by
  rintro held ⟨hf, hc, he⟩
  refine ⟨[], ?_, ?_⟩
  · simp [leaveCopy, unlockThings, hf, hc, he]
  · simp [leaveCopy, unlockThings, FaultEnd.Holds]

theorem finishCopy_locks (m : PageId) (copy : ObjId) (protection : VmProt) :
    CopyLocks a copy (finishCopy a m copy protection) := by
  rintro held ⟨hf, hc, he⟩
  obtain ⟨held', hl, hh⟩ : EndLocks a.firstObject (faultSuccess a a.firstObject m none protection) :=
    faultSuccess_locks _ _ _ _
  refine ⟨held', ?_, hh⟩
  simpa [finishCopy, hf, hc, he] using hl

theorem CopyLocks.enter {copy : ObjId} {p : List FaultEvent × FaultEnd} (h : CopyLocks a copy p)
    (hl : lockRun everyField [a.firstObject] ev = some held) (hb : HoldsBoth a copy held) :
    EndLocks a.firstObject (ev ++ p.1, p.2) := by
  obtain ⟨held', hr, he⟩ := h held hb
  exact ⟨held', (lockRun_of_append hl).trans hr, he⟩

theorem wakeWanted_locks (m : PageId) (w : Bool) (h : a.firstObject ∈ held) :
    lockRun everyField held (wakeWanted a m w) = some held := by
  cases w <;> simp [wakeWanted, h]

theorem pushLoop_locks (m : PageId) (protection : VmProt) (turns : List CopyTurn) :
    EndLocks a.firstObject (pushLoop a m protection turns) := by
  induction turns with
  | nil => exact ⟨_, rfl, trivial⟩
  | cons t turns ih =>
    unfold pushLoop
    split
    · exact faultSuccess_locks _ _ _ _
    next copy _ =>
      split
      · exact faultSuccess_locks _ _ _ _
      · split
        · exact faultSuccess_locks _ _ _ _
        · split
          · apply ih.prepend
            simp
          next hn =>
            have hc : copy ≠ a.firstObject := fun h => hn (Or.inr h)
            have hb : HoldsBoth a copy [copy, a.firstObject] := by simp [HoldsBoth]
            have hb' : HoldsBoth a copy [a.firstObject, copy] := by simp [HoldsBoth, Ne.symm hc]
            simp only
            split
            next q _ =>
              split
              · show EndLocks _ ([.lock copy, .writeObject copy, .writePage copy q.page] ++
                  (leaveCopy a m copy t.wait.faultCode).1, _)
                apply (leaveCopy_locks m copy _).enter _ hb
                simp [hc]
              · apply (finishCopy_locks m copy _).enter _ hb
                simp [hc]
            · split
              · apply (leaveCopy_locks m copy _).enter _ hb
                simp [hc]
              · split
                · apply (finishCopy_locks m copy _).enter _ hb
                  simp [hc, wakeWanted_locks]
                · split
                  · apply ih.prepend
                    simp [hc]
                  · apply (finishCopy_locks m copy _).enter _ hb'
                    simp [hc, Ne.symm hc, wakeWanted_locks]

theorem vmFaultPage_locks {turns : List (Turn depth)} (copies : List CopyTurn)
    (ht : ∀ t ∈ turns, t.overLimit = false) :
    EndLocks a.firstObject (vmFaultPage a turns copies) := by
  have hs : Locks _ (searchLoop a { object := a.firstObject, firstM := none } turns) := searchLoop_locks ht
  unfold vmFaultPage
  split
  next ev st he =>
    rw [he] at hs
    obtain ⟨held, hl, -⟩ := hs
    exact ⟨held, hl, trivial⟩
  next ev e he =>
    rw [he] at hs
    exact hs
  next ev st m he =>
    rw [he] at hs
    obtain ⟨held, hl, rfl⟩ := hs
    have hp : EndLocks st.object (pageFound a st m copies) := by
      unfold pageFound
      simp only
      split
      next ho =>
        rw [ho]
        exact pushLoop_locks m _ copies
      next => exact foundBelow_locks m _
    exact hp.prepend hl

end MachVM

namespace MachVM

variable {depth : ObjId → Nat} {a : SlowArgs} {guarded : FaultEvent → Bool}
  {held held' : List ObjId} {ev : List FaultEvent}

def FaultEnd.topPage : FaultEnd → Option PageId
  | .success _ _ top _ => top
  | _ => none

/-- The call stays below the limit on outstanding requests and finds its page in the source
object or fills it there. -/
def FaultSeen.Direct (a : SlowArgs) (f : FaultSeen depth) : Prop :=
  (∀ t ∈ f.turns, t.overLimit = false) ∧ (vmFaultPage a.faultArgs f.turns f.copies).2.topPage = none

def PageCopy.Direct (a : SlowArgs) (c : PageCopy depth) : Prop := ∀ f ∈ c.tries, f.Direct a

theorem lockStep_relax {e : FaultEvent} (h : lockStep everyField held e = some held') :
    lockStep guarded held e = some held' := by
  cases e <;> simp_all [lockStep, FaultEvent.writes, everyField]
  all_goals exact fun _ => h.2 ▸ h.1

theorem lockRun_relax (h : lockRun everyField held ev = some held') :
    lockRun guarded held ev = some held' := by
  induction ev generalizing held with
  | nil => exact h
  | cons e ev ih =>
    rw [lockRun_cons] at h ⊢
    obtain ⟨mid, he, hr⟩ := Option.bind_eq_some_iff.mp h
    rw [lockStep_relax he]
    exact ih hr

/-- A stretch of a slow copy that begins with nothing locked: nothing is locked when it returns. -/
def SlowLocks (a : SlowArgs) (r : List FaultEvent × SlowEnd) : Prop :=
  ∃ held, lockRun (sharedField a.newObject) [] r.1 = some held ∧ (r.2 = .copied ∨ r.2 = .null → held = [])

theorem SlowLocks.prepend {p : List FaultEvent × SlowEnd} (h : SlowLocks a p)
    (hl : lockRun (sharedField a.newObject) held ev = some []) :
    ∃ held', lockRun (sharedField a.newObject) held (ev ++ p.1) = some held' ∧
      (p.2 = .copied ∨ p.2 = .null → held' = []) := by
  obtain ⟨held', hr, he⟩ := h
  exact ⟨held', (lockRun_of_append hl).trans hr, he⟩

theorem copyResult_locks (newPage : PageId) (o : ObjId) (m : PageId) :
    lockRun (sharedField a.newObject) [o] (copyResult a newPage o m none) = some [] := by
  simp [copyResult, releaseTop, lockStep, FaultEvent.writes, sharedField]

theorem slowTries_locks (newPage : PageId) {tries : List (FaultSeen depth)}
    (ht : ∀ f ∈ tries, f.Direct a) : SlowLocks a (slowTries a newPage tries) := by
  induction tries with
  | nil => exact ⟨[], rfl, fun _ => rfl⟩
  | cons f tries ih =>
    have hf := ht f (by simp)
    obtain ⟨held, hl, he⟩ : EndLocks _ (vmFaultPage a.faultArgs f.turns f.copies) :=
      vmFaultPage_locks f.copies hf.1
    have hr : lockRun (sharedField a.newObject) []
        ([.lock a.srcObject, .pagingBegin a.srcObject] ++ (vmFaultPage a.faultArgs f.turns f.copies).1) =
        some held := by
      rw [lockRun_of_append]
      · exact lockRun_relax hl
      · simp [lockStep, FaultEvent.writes, SlowArgs.faultArgs]
    have hn := hf.2
    unfold slowTries
    simp only
    split
    next o m top prot hs =>
      rw [hs] at he hn
      subst he
      cases hn
      exact ⟨[], (lockRun_of_append hr).trans (copyResult_locks newPage o m), fun _ => rfl⟩
    next hs =>
      rw [hs] at he
      subst he
      exact (ih fun f h => ht f (by simp [h])).prepend hr
    next hs =>
      rw [hs] at he
      subst he
      exact (ih fun f h => ht f (by simp [h])).prepend hr
    next hs =>
      rw [hs] at he
      subst he
      exact ⟨[], (lockRun_of_append hr).trans (by simp [lockStep]), fun _ => rfl⟩
    next hs =>
      rw [hs] at he
      subst he
      exact ⟨[], (lockRun_of_append hr).trans (by simp [lockStep]), fun _ => rfl⟩
    · exact ⟨held, hr, by simp⟩
    · exact ⟨held, hr, by simp⟩

theorem slowPages_locks {size : VmSize} {pages : List (PageCopy depth)}
    (hp : ∀ c ∈ pages, c.Direct a) : SlowLocks a (slowPages a size pages) := by
  induction pages generalizing size with
  | nil =>
    unfold slowPages
    split
    · exact ⟨[], by simp [lockStep], fun _ => rfl⟩
    · exact ⟨[], rfl, fun _ => rfl⟩
  | cons c pages ih =>
    obtain ⟨held, hl, he⟩ := slowTries_locks c.newPage (hp c (by simp))
    have ha : lockRun (sharedField a.newObject) []
        (.alloc a.newObject c.newPage :: (slowTries a c.newPage c.tries).1) = some held := by
      simpa [lockStep, FaultEvent.writes, sharedField] using hl
    unfold slowPages
    split
    · exact ⟨[], by simp [lockStep], fun _ => rfl⟩
    · simp only
      split
      next hc =>
        rw [he (Or.inl hc)] at ha
        exact (ih fun c h => hp c (by simp [h])).prepend ha
      next e hc => exact ⟨held, ha, he⟩

theorem vmObjectCopySlowlyTrace_locks (size : VmSize) {pages : List (PageCopy depth)}
    (hp : ∀ c ∈ pages, c.Direct a) :
    ∃ held, lockRun (sharedField a.newObject) [a.srcObject] (vmObjectCopySlowlyTrace a size pages).1 = some held ∧
      ((vmObjectCopySlowlyTrace a size pages).2 = .copied ∨ (vmObjectCopySlowlyTrace a size pages).2 = .null → held = []) := by
  unfold vmObjectCopySlowlyTrace
  split
  · exact ⟨[], by simp [lockStep], fun _ => rfl⟩
  · apply (slowPages_locks hp).prepend
    simp [lockStep, FaultEvent.writes]

theorem readyWait_locks (src : ObjId) (interruptible : Bool) (waits : List WaitResult) :
    lockRun guarded [src] (readyWait src interruptible waits).1 =
      some (if (readyWait src interruptible waits).2 then [src] else []) := by
  induction waits with
  | nil => rfl
  | cons w waits ih =>
    unfold readyWait
    simp only
    split
    · simp [lockStep, FaultEvent.writes]
    · simp [lockStep, FaultEvent.writes, ih]

theorem writePages_locks {src : ObjId} (pages : List PageId) :
    lockRun guarded [src] (pages.map (.writePage src)) = some [src] := by
  induction pages with
  | nil => rfl
  | cons m pages ih => simp [lockStep, FaultEvent.writes, ih]

theorem copyCallTrace_locks (a : SlowArgs) (unlocked : List PageId) :
    lockRun (sharedField a.newObject) [] (copyCallTrace a unlocked) = some [] := by
  unfold copyCallTrace
  have hp : lockRun (sharedField a.newObject) []
      [.lock a.srcObject, .writeObject a.srcObject, .pagingBegin a.srcObject, .unlock a.srcObject,
        .writeObject a.newObject, .lock a.srcObject, .pagingEnd a.srcObject] = some [a.srcObject] := by
    simp [lockStep, FaultEvent.writes, sharedField]
  rw [lockRun_of_append ((lockRun_of_append hp).trans (writePages_locks unlocked))]
  simp [lockStep]

theorem installCopy_locks (a : SlowArgs) :
    lockRun (sharedField a.newObject) [a.srcObject] (installCopy a) = some [] := by
  simp [installCopy, lockStep, FaultEvent.writes, sharedField]

theorem copyDelayTrace_locks (a : SlowArgs) (turns : List OldCopySeen) :
    (lockRun (sharedField a.newObject) [a.srcObject] (copyDelayTrace a turns)).isSome := by
  induction turns with
  | nil => rfl
  | cons t turns ih =>
    unfold copyDelayTrace
    split
    · rw [installCopy_locks]
      rfl
    next old _ =>
      split
      · simpa [lockStep] using ih
      next hn =>
        have ho : old ≠ a.srcObject := fun h => hn (Or.inr h)
        split
        · simp [lockStep, FaultEvent.writes, ho]
        · split
          · simp [lockStep, ho]
          · simp [lockStep, FaultEvent.writes, sharedField, ho, installCopy_locks]

theorem vmObjectCopyTrace_locks {size : VmSize} {c : ObjectCopySeen depth}
    (hp : ∀ p ∈ c.slow, p.Direct a) :
    (lockRun (sharedField a.newObject) [] (vmObjectCopyTrace a size c)).isSome := by
  unfold vmObjectCopyTrace
  split
  · simp [lockStep, FaultEvent.writes]
  · have hw : lockRun (sharedField a.newObject) []
        (.lock a.srcObject :: (readyWait a.srcObject c.interruptible c.waits).1) =
        some (if (readyWait a.srcObject c.interruptible c.waits).2 then [a.srcObject] else []) := by
      simp [lockStep, readyWait_locks]
    simp only
    rw [lockRun_of_append hw]
    split
    · split
      · obtain ⟨held, hl, -⟩ := vmObjectCopySlowlyTrace_locks size hp
        rw [hl]
        rfl
      · simp [lockStep, copyCallTrace_locks]
      · simpa [lockStep] using copyDelayTrace_locks a c.oldCopies
    · rfl

theorem vmFaultCopyEntryTrace_breaks (a : SlowArgs) (size : VmSize) (prot : VmProt)
    (pages : List (PageCopy depth)) (w : WireSeen) :
    lockRun guarded [] (vmFaultCopyEntryTrace a size prot pages w) = none := by
  have hs : lockRun guarded [] (vmObjectCopySlowlyTrace a size pages).1 = none := by
    unfold vmObjectCopySlowlyTrace
    split
    · simp [lockStep]
    · cases hg : guarded (.writeObject a.srcObject) <;> simp [lockStep, FaultEvent.writes, hg]
  unfold vmFaultCopyEntryTrace
  simp only
  split
  · rw [lockRun_append, hs]
    rfl
  · exact hs

/-- A thread unlocks an object only while it holds the lock, locks it only while it does not, and
writes fields of shared objects and pages only under the lock. In `vm_fault_page` this needs no
exception for new objects or paging queues. -/
theorem objectLocks_disciplined (depth : ObjId → Nat) :
    (∀ (a : FaultArgs) (turns : List (Turn depth)) (copies : List CopyTurn),
      (∀ t ∈ turns, t.overLimit = false) → EndLocks a.firstObject (vmFaultPage a turns copies)) ∧
    (∀ (a : SlowArgs) (size : VmSize) (pages : List (PageCopy depth)), (∀ c ∈ pages, c.Direct a) →
      (lockRun (sharedField a.newObject) [a.srcObject] (vmObjectCopySlowlyTrace a size pages).1).isSome) ∧
    ∀ (a : SlowArgs) (size : VmSize) (c : ObjectCopySeen depth), (∀ p ∈ c.slow, p.Direct a) →
      (lockRun (sharedField a.newObject) [] (vmObjectCopyTrace a size c)).isSome := by
  refine ⟨?_, ?_, ?_⟩
  · intro a turns copies ht
    exact vmFaultPage_locks copies ht
  · intro a size pages hp
    obtain ⟨held, hl, -⟩ := vmObjectCopySlowlyTrace_locks size hp
    rw [hl]
    rfl
  · intro a size c hp
    exact vmObjectCopyTrace_locks hp

theorem shadowless_deeper {depth : ObjId → Nat} :
    ∀ o next, (fun _ => none : ObjId → Option ObjId) o = some next → depth o < depth next := by
  simp

/-- A turn that finds a page of the source object. -/
def pageTurn (p : PageSeen) (wait : WaitResult) : Turn id :=
  { page := some p, wait := wait, deeper := shadowless_deeper }

/-- Two pages. The first one is busy, which once ends the call and once makes it wait; the second one is asked for. -/
def waitedCopy : List (PageCopy id) :=
  [{ newPage := 9
     tries := [{ turns := [pageTurn { page := 7, busy := true } .restart] },
       { turns := [pageTurn { page := 7, busy := true } .awakened, pageTurn { page := 7 } .awakened]
         copies := [{}] }] },
    { newPage := 10
      tries := [{ turns := [{ pagerCreated := true, alloc := some 8, deeper := shadowless_deeper },
        pageTurn { page := 8 } .awakened], copies := [{}] }] }]

theorem waitedCopy_locks :
    (lockRun (sharedField 1) [0] (vmObjectCopySlowlyTrace ⟨0, 1, false⟩ 0x2000 waitedCopy).1).isSome ∧
      (vmObjectCopySlowlyTrace ⟨0, 1, false⟩ 0x2000 waitedCopy).2 = .copied := by
  have hdirect : ∀ c ∈ waitedCopy, ∀ f ∈ c.tries, (∀ t ∈ f.turns, t.overLimit = false) ∧
      (vmFaultPage (SlowArgs.faultArgs ⟨0, 1, false⟩) f.turns f.copies).2.topPage = none := by decide
  exact ⟨(objectLocks_disciplined id).2.1 ⟨0, 1, false⟩ 0x2000 waitedCopy hdirect, by decide⟩

/-- One page, resident in the source object. -/
def residentCopy : List (PageCopy id) :=
  [{ newPage := 9, tries := [{ turns := [pageTurn { page := 7 } .awakened], copies := [{}] }] }]

/-- The new object and its pages are written without a lock, and so are the paging queues. -/
theorem residentCopy_unlockedFields :
    lockRun everyField [0] (vmObjectCopySlowlyTrace ⟨0, 1, false⟩ pageSize residentCopy).1 = none := by
  decide

end MachVM

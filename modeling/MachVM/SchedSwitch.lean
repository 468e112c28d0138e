import MachVM.SchedActions

namespace MachVM.Kern.Sched

open Machine Levels

variable {s r : State} {t u n : ThreadId} {c : CpuId} {q : RunqId} {th : Thread}

theorem setThread_comm {th' : Thread} (hn : n ≠ t) :
    (s.setThread n th).setThread t th' = (s.setThread t th').setThread n th := by
  simp only [State.setThread, Function.update_comm hn]

theorem updatePriority_setThread (hn : n ≠ t) :
    updatePriority (s.setThread n th) t = (updatePriority s t).setThread n th := by
  unfold updatePriority
  rw [setThread_of_ne hn.symm]
  split
  next => rfl
  next => rw [State.modThread, State.modThread, setThread_of_ne hn.symm, setThread_comm hn]

theorem threadSetrun_setThread (hn : n ≠ t) :
    threadSetrun (s.setThread n th) t = (threadSetrun s t).map fun r => r.setThread n th := by
  have hq : ∀ (s : State) q, enqueueRunq (s.setThread n th) t q = (enqueueRunq s t q).setThread n th := by
    intro s q
    unfold enqueueRunq
    rw [setThread_of_ne hn.symm]
    dsimp only [State.setThread, State.modThread, State.setQueue]
    rw [Function.update_comm hn, Function.update_of_ne hn.symm]
  unfold threadSetrun
  rw [updatePriority_setThread hn]
  dsimp only
  rw [setThread_of_ne hn.symm]
  split
  next => rfl
  next =>
    split
    next =>
      simp only [hq]
      change (if 0 < (updatePriority s t).idleCount then _ else _) = _
      split
      next =>
        have hidle : ((updatePriority s t).setThread n th).idleQueue = (updatePriority s t).idleQueue := rfl
        rw [hidle]
        cases (updatePriority s t).idleQueue <;> rfl
      next => rfl
    next c _ =>
      simp only [hq]
      change (if 0 < (updatePriority s t).idleCount ∧ (updatePriority s t).cpuState c = .idle then _ else _) = _
      split <;> rfl

/-- What leaves the processors and all threads but one alone. -/
structure Spares (t : ThreadId) (s r : State) : Prop where
  phase : r.phase = s.phase
  threads : ∀ u, u ≠ t → r.thread u = s.thread u

theorem threadSetrun_spares : Gives (threadSetrun s t) (fun _ => True) (Spares t s) := by
  have hu : Spares t s (updatePriority s t) := by
    unfold updatePriority
    split
    next => exact ⟨rfl, fun _ _ => rfl⟩
    next => exact ⟨rfl, fun u hu => Function.update_of_ne hu ..⟩
  have hd : ∀ c l, Spares t s (dispatchTo (updatePriority s t) t c l) := fun c l => ⟨hu.phase, hu.threads⟩
  have hq : ∀ q, Spares t s (enqueueRunq (updatePriority s t) t q) :=
    fun q => ⟨hu.phase, fun u hut => (Function.update_of_ne hut ..).trans (hu.threads u hut)⟩
  unfold threadSetrun
  dsimp only
  split
  next => trivial
  next =>
    split
    next =>
      split
      next =>
        split
        next => trivial
        next => exact hd _ _
      next => exact hq _
    next =>
      split
      next => exact hd _ _
      next => exact hq _

/-- The first half of `thread_switch`: the current thread is let go of. -/
def leaveThread (s : State) (c : CpuId) (t : ThreadId) : Except Panic State :=
  let th := s.thread t
  let r := s.setPhase c .switching
  if th.state = { run := true, susp := true } ∧ th.interruptible = true then .ok (r.setState t { susp := true })
  else if th.state = { run := true, susp := true } ∨ th.state = { run := true } then threadSetrun r t
  else .error .threadSwitch

theorem threadSwitch_eq (s : State) (c : CpuId) (t new : ThreadId) :
    threadSwitch s c t new = leaveThread s c t >>= fun r => .ok (loadContext r c new) := rfl

theorem leaveThread_gives (h : Inv none s) (hp : s.phase c = .running t) :
    Gives (leaveThread s c t) (fun e => e = .threadSwitch) fun r =>
      Inv none r ∧ r.phase c = .switching ∧ ∀ u, u ≠ t → r.thread u = s.thread u := by
  have hok := h.ok t (by simp)
  have hph : (s.setPhase c .switching).phase c = .switching := Function.update_self ..
  unfold leaveThread
  dsimp only
  split
  next hst =>
    refine ⟨switching_stop_inv h hp rfl rfl (by rw [hst.1]) (by rw [hst.1]) (.inr rfl), hph, fun u hu => ?_⟩
    exact Function.update_of_ne hu ..
  next =>
    split
    next hst =>
      have hw : (s.thread t).state.wait = false := by rcases hst with hst | hst <;> rw [hst]
      have hs := threadSetrun_spares (s := s.setPhase c .switching) (t := t)
      obtain ⟨r, hr, hi⟩ := (threadSetrun_gives (switching_inv h hp) (h.active hp) (hok.letGo hw)).exists_ok (by simp)
      rw [hr] at hs ⊢
      exact ⟨hi.1, by rw [hs.phase]; exact hph, hs.threads⟩
    next => rfl

theorem leaveThread_setThread (hn : n ≠ t) :
    leaveThread (s.setThread n th) c t = (leaveThread s c t).map fun r => r.setThread n th := by
  unfold leaveThread
  rw [setThread_of_ne hn.symm]
  dsimp only
  split
  next =>
    refine congrArg Except.ok ?_
    rw [State.setState, State.setState, State.modThread, State.modThread]
    change ((s.setPhase c .switching).setThread n th).setThread t { (s.setThread n th).thread t with state := _ } = _
    rw [setThread_of_ne hn.symm, setThread_comm hn]
    rfl
  next =>
    split
    next => exact threadSetrun_setThread (s := s.setPhase c .switching) hn
    next => rfl

theorem threadGoAndSwitch_gives (h : Inv none s) (hp : s.phase c = .running t) (he : (s.thread n).waitEvent = 0) :
    Gives (threadGoAndSwitch s c t n) (fun e => e = .threadSwitch) (Inv none) := by
  have hv := clearTimer_sameView s n
  have hc := clearTimer_inv (t := n) h
  have he' := (hv.waitEvent n).trans he
  have hpc : (clearTimer s n).phase c = .running t := hp
  unfold threadGoAndSwitch
  dsimp only
  split
  next hst =>
    obtain ⟨hst, -⟩ := hst
    have hrun : ((clearTimer s n).thread n).state.run = false := by
      rcases hst with hst | hst
      · rw [hst.1]
      · rw [hst]
    have hsw : ((clearTimer s n).thread n).state.swapped = false := by
      rcases hst with hst | hst
      · rw [hst.1]
      · rw [hst]
    have hnt : n ≠ t := by
      rintro rfl
      have := (hc.active hpc).1
      simp [hrun] at this
    have hnr : ¬((clearTimer s n).thread n).Runs := by simp [Thread.Runs, hrun]
    have ho := hc.ok_of_not_runs hnr
    rw [threadSwitch_eq, State.setState, State.modThread, leaveThread_setThread hnt]
    have hl := leaveThread_gives hc hpc
    cases hr : leaveThread (clearTimer s n) c t with
    | error e =>
      rw [hr] at hl
      exact hl
    | ok r =>
      rw [hr] at hl
      obtain ⟨hi, hph, hth⟩ := hl
      have hth := hth n hnt
      have ht : Inv (some n) r := hi.take (by rw [hth]; exact hnr)
      have hin : Inv (some n) (r.setThread n { (clearTimer s n).thread n with
          state := { ((clearTimer s n).thread n).state with wait := false, run := true } }) :=
        ht.setHand (by rw [← ht.hand_runq, hth]) (by rw [hth])
      refine loadContext_inv hin ?_ ?_ ?_ ?_
      · rw [setThread_self]
        exact ⟨rfl, hsw⟩
      · rw [setThread_self]
        exact ⟨.inl rfl, fun hh => absurd he' hh, fun _ hh => by simp at hh, ho.away, fun _ hh => by simp [hsw] at hh,
          fun _ => rfl, False.elim, ho.suspended⟩
      · simp [State.setThread, hph]
      · intro hidle
        have := hi.cpus.loop c hidle
        simp [hph] at this
  next =>
    split
    next hw => exact (Gives.weaken (endWait_gives hc hw he') (by simp)).mono fun r hr => hr.does.inv
    next => exact hc

end MachVM.Kern.Sched

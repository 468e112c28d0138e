import MachVM.SchedSuspend
import MachVM.SchedSwitch

namespace MachVM.Kern.Sched

open Machine

variable {s r : State} {t u n : ThreadId} {c : CpuId} {q : RunqId} {th th' : Thread} {st : ThState} {k : OpId}
  {p : Thread → Prop}

/-- The changes of state of a thread that nobody holds, releases or halts. -/
inductive Thread.Turns (th : Thread) (st : ThState) : Prop
  | wake (hst : st = { th.state with wait := false })
  | start (h : th.state = { wait := true, susp := true } ∧ th.interruptible = false ∨ th.state = { wait := true })
      (hst : st = { th.state with wait := false, run := true })
  | startOut (h : th.state = { wait := true, swapped := true }) (hst : st = { run := true, swapped := true })
  | stop (h : th.state.run = true) (hst : st = { th.state with run := false })
  | swapOut (h : th.interruptible = true) (hst : st = { th.state with swapped := true })
  | swapIn (hst : st = { th.state with swapped := false })

/-- What the operations do to such a thread. Those that assert a wait satisfy `p`. -/
inductive Thread.Moves (p : Thread → Prop) : Thread → Thread → Prop
  | same {th th' : Thread} (hs : th'.state = th.state)
      (hi : th'.interruptible = true ∨ th'.interruptible = th.interruptible)
      (hc : th'.suspendCount = th.suspendCount) : Moves p th th'
  | turn {th th' : Thread} (h : th.Turns th'.state) (hi : th'.interruptible = th.interruptible)
      (hc : th'.suspendCount = th.suspendCount) : Moves p th th'
  | assertWait {th th' : Thread} (h : p th) (hs : th'.state = { th.state with wait := true })
      (hc : th'.suspendCount = th.suspendCount) : Moves p th th'
  | trans {th th' th'' : Thread} (h : Moves p th th') (h' : Moves p th' th'') : Moves p th th''

def AllMove (p : Thread → Prop) (s r : State) : Prop := ∀ t, Thread.Moves p (s.thread t) (r.thread t)

theorem AllMove.refl (s : State) : AllMove p s s := fun _ => .same rfl (.inr rfl) rfl

theorem AllMove.trans {q : State} (h : AllMove p s r) (h' : AllMove p r q) : AllMove p s q :=
  fun t => (h t).trans (h' t)

theorem moves_of_eq (h : r.thread = s.thread) : AllMove p s r := fun t => by
  rw [h]
  exact .same rfl (.inr rfl) rfl

theorem moves_of_thread (h : r.thread = Function.update s.thread t th) (hm : Thread.Moves p (s.thread t) th) :
    AllMove p s r := by
  intro u
  rw [h]
  by_cases hu : u = t
  · subst u
    rw [Function.update_self]
    exact hm
  · rw [Function.update_of_ne hu]
    exact .same rfl (.inr rfl) rfl

theorem moves_of_same (h : r.thread = Function.update s.thread t th) (hs : th.state = (s.thread t).state)
    (hi : th.interruptible = (s.thread t).interruptible) (hc : th.suspendCount = (s.thread t).suspendCount) :
    AllMove p s r := moves_of_thread h (.same hs (.inr hi) hc)

theorem other_moves (hu : u ≠ t) (h : AllMove p (s.setThread t th) r) : Thread.Moves p (s.thread u) (r.thread u) := by
  have hm := h u
  rwa [setThread_of_ne hu] at hm

theorem AllMove.after {x : Except Panic State} (hs : AllMove p s r) (h : Gives x (fun _ => True) (AllMove p r)) :
    Gives x (fun _ => True) (AllMove p s) := h.mono fun _ hq => hs.trans hq

theorem setState_moves (h : (s.thread t).Turns st) : AllMove p s (s.setState t st) :=
  moves_of_thread rfl (.turn h rfl rfl)

theorem Thread.turns_of_stop (h : th.state = st) (hr : st.run = true) : th.Turns { st with run := false } := by
  subst st
  exact .stop hr rfl

theorem updatePriority_moves : AllMove p s (updatePriority s t) := by
  unfold updatePriority
  split
  next => exact .refl s
  next => exact moves_of_same rfl rfl rfl rfl

theorem threadSetrun_moves : Gives (threadSetrun s t) (fun _ => True) (AllMove p s) := by
  have hu : AllMove p s (updatePriority s t) := updatePriority_moves
  have hd : ∀ c l, AllMove p s (dispatchTo (updatePriority s t) t c l) := fun c l => hu.trans (moves_of_eq rfl)
  have hq : ∀ q, AllMove p s (enqueueRunq (updatePriority s t) t q) := fun q => hu.trans (moves_of_same rfl rfl rfl rfl)
  unfold threadSetrun
  dsimp only
  split
  next => trivial
  next =>
    split
    next =>
      split
      next =>
        split
        next => trivial
        next => exact hd _ _
      next => exact hq _
    next =>
      split
      next => exact hd _ _
      next => exact hq _

theorem threadSwapin_moves : Gives (threadSwapin s t) (fun _ => True) (AllMove p s) := by
  unfold threadSwapin
  split
  next => exact moves_of_same rfl rfl rfl rfl
  next => exact moves_of_same rfl rfl rfl rfl
  next => exact .refl s
  next => exact .refl s
  next => trivial
  next => trivial

theorem endWait_moves : Gives (endWait s t) (fun _ => True) (AllMove p s) := by
  unfold endWait
  dsimp only
  split
  next h => exact setState_moves (.wake (by rw [h.1]))
  next hn =>
    split
    next h =>
      have hs : AllMove p s (s.setState t { (s.thread t).state with wait := false, run := true }) :=
        setState_moves (.start (h.imp_left fun he => ⟨he, by simpa [he] using hn⟩) rfl)
      exact hs.after threadSetrun_moves
    next =>
      split
      next h =>
        have hs : AllMove p s (s.setState t { run := true, swapped := true }) := setState_moves (.startOut h rfl)
        exact hs.after threadSwapin_moves
      next => exact setState_moves (.wake rfl)

theorem clearTimer_moves : AllMove p s (clearTimer s t) := moves_of_same rfl rfl rfl rfl

theorem remWaitQueue_moves : AllMove p s (remWaitQueue s t) := moves_of_same rfl rfl rfl rfl

theorem clearWaitSwitch_moves : Gives (clearWaitSwitch s t) (fun _ => True) (AllMove p s) := by
  unfold clearWaitSwitch
  split
  next => exact clearTimer_moves.after endWait_moves
  next => exact clearTimer_moves

theorem wakeThread_moves : Gives (wakeThread s t) (fun _ => True) (AllMove p s) := by
  unfold wakeThread
  dsimp only
  split
  next => exact (remWaitQueue_moves.trans clearTimer_moves).after endWait_moves
  next => trivial

theorem clearWait_moves {interruptOnly : Bool} :
    Gives (clearWait s t interruptOnly) (fun _ => True) fun r => AllMove p s r.1 := by
  unfold clearWait
  split
  next => exact .refl s
  next =>
    split
    next => exact .refl s
    next => exact clearWaitSwitch_moves.bind fun r hr => hr

theorem clearWaitEvent_moves {event : Int} : Gives (clearWaitEvent s t event) (fun _ => True) (AllMove p s) := by
  unfold clearWaitEvent
  split
  next => exact remWaitQueue_moves.after clearWaitSwitch_moves
  next => exact .refl s

theorem wakeupScan_moves {event : Int} {ts : List ThreadId} :
    Gives (wakeupScan event s ts) (fun _ => True) fun r => AllMove p s r.1 := by
  induction ts generalizing s with
  | nil => exact .refl s
  | cons t ts ih =>
    rw [wakeupScan]
    split
    next =>
      refine (wakeThread_moves (p := p)).bind fun r hr => ?_
      split
      next => exact hr
      next => exact ih.mono fun q hq => hr.trans hq
    next => exact ih

theorem wakeupOne_moves {event : Int} : Gives (wakeupOne s event) (fun _ => True) (AllMove p s) := by
  unfold wakeupOne
  split
  next => exact .refl s
  next => exact wakeThread_moves

theorem assertWait_moves {event : Int} {i : Bool} (h : p (s.thread t)) :
    Gives (assertWait s t event i) (fun _ => True) (AllMove p s) := by
  unfold assertWait
  split
  next => trivial
  next =>
    dsimp only
    split
    next => exact moves_of_thread rfl (.assertWait h rfl rfl)
    next => exact moves_of_thread rfl (.assertWait h rfl rfl)

theorem threadSetTimeout_moves : AllMove p s (threadSetTimeout s t) := by
  unfold threadSetTimeout
  split
  next => exact moves_of_same rfl rfl rfl rfl
  next => exact .refl s

theorem AllMove.loadContext (h : AllMove p s r) : AllMove p s (loadContext r c t) :=
  h.trans (moves_of_thread rfl (.same rfl (.inl rfl) rfl))

theorem leaveThread_moves : Gives (leaveThread s c t) (fun _ => True) (AllMove p s) := by
  unfold leaveThread
  dsimp only
  split
  next h =>
    have hs : AllMove p (s.setPhase c .switching) ((s.setPhase c .switching).setState t { susp := true }) :=
      setState_moves (Thread.turns_of_stop h.1 rfl)
    exact AllMove.trans (moves_of_eq rfl) hs
  next =>
    split
    next => exact AllMove.after (moves_of_eq rfl) threadSetrun_moves
    next => trivial

theorem threadBlock_moves : Gives (threadBlock s c t) (fun _ => True) (AllMove p s) := by
  have hp : ∀ x : ThState, (s.thread t).state = x → x.run = true →
      AllMove p s ((s.setPhase c .switching).setState t { x with run := false }) := fun x hx hr =>
    AllMove.trans (moves_of_eq rfl) (setState_moves (s := s.setPhase c .switching) (Thread.turns_of_stop hx hr))
  unfold threadBlock
  dsimp only
  split
  next h => exact hp _ h.1 rfl
  next =>
    split
    next => exact AllMove.after (moves_of_eq rfl) threadSetrun_moves
    next =>
      split
      next h => exact hp _ h rfl
      next =>
        split
        next h => exact hp _ h rfl
        next => trivial

theorem takeHead_moves {i low : Nat} : AllMove p s (takeHead s c q i low) := by
  unfold takeHead
  dsimp only
  split
  next => exact .refl s
  next => exact AllMove.loadContext (moves_of_same rfl rfl rfl rfl)

theorem dequeueThread_moves : Gives (dequeueThread s c q) (fun _ => True) (AllMove p s) := by
  unfold dequeueThread
  dsimp only
  split
  next => trivial
  next => exact takeHead_moves

theorem dispatch_moves : Gives (dispatch s c) (fun _ => True) (AllMove p s) := by
  unfold dispatch
  split
  next =>
    split
    next =>
      dsimp only
      split
      next => exact moves_of_eq rfl
      next => exact moves_of_eq rfl
    next =>
      split
      next => exact AllMove.loadContext (moves_of_eq rfl)
      next => exact moves_of_eq rfl
  next =>
    dsimp only
    split
    next => exact moves_of_eq rfl
    next => exact takeHead_moves
  next =>
    split
    next => exact dequeueThread_moves
    next => exact moves_of_eq rfl
  next =>
    split
    next => exact dequeueThread_moves
    next => exact moves_of_eq rfl
  next => exact moves_of_eq rfl
  next =>
    split
    next => exact moves_of_eq rfl
    next =>
      have hk : AllMove p s ((s.setNext c none).setPhase c .down) := moves_of_eq rfl
      exact hk.after threadSetrun_moves
  next => exact moves_of_eq rfl
  next => exact .refl s
  next => exact .refl s
  next => exact .refl s

theorem idleTurn_moves : AllMove p s (idleTurn s c) := by
  unfold idleTurn
  dsimp only
  split
  next => exact moves_of_eq rfl
  next => exact moves_of_eq rfl

theorem threadGoAndSwitch_moves : Gives (threadGoAndSwitch s c t n) (fun _ => True) (AllMove p s) := by
  unfold threadGoAndSwitch
  dsimp only
  split
  next h =>
    rw [threadSwitch_eq]
    have hs : AllMove p (clearTimer s n)
        ((clearTimer s n).setState n { ((clearTimer s n).thread n).state with wait := false, run := true }) :=
      setState_moves (.start h.1 rfl)
    exact leaveThread_moves.bind fun r hr => (clearTimer_moves.trans (hs.trans hr)).loadContext
  next =>
    split
    next => exact clearTimer_moves.after endWait_moves
    next => exact clearTimer_moves

theorem remRunq_moves : AllMove p s (remRunq s t).1 := moves_of_same remRunq_thread rfl rfl rfl

theorem setPri_moves {pri : Int} : Gives (setPri s t pri) (fun _ => True) (AllMove p s) := by
  have hk : AllMove p s ((remRunq s t).1.modThread t fun th => { th with schedPri := pri }) :=
    remRunq_moves.trans (moves_of_same rfl rfl rfl rfl)
  unfold setPri
  dsimp only
  split
  next => exact hk
  next => exact hk.after threadSetrun_moves

theorem threadDowait_moves : AllMove p s (threadDowait s t) := by
  unfold threadDowait
  dsimp only
  split
  next h => exact setState_moves (Thread.turns_of_stop h rfl)
  next =>
    split
    next h =>
      have hst : ((remRunq s t).1.thread t).state = { run := true, susp := true } := by
        rw [remRunq_thread, Function.update_self]
        exact h.1
      exact remRunq_moves.trans (setState_moves (Thread.turns_of_stop hst rfl))
    next => exact .refl s

theorem swapoutScan_moves : AllMove p s (swapoutScan s k t) := by
  unfold swapoutScan
  dsimp only
  split
  next h => exact moves_of_thread rfl (.turn (.swapOut h.2.2.2 rfl) rfl rfl)
  next => exact .refl s

theorem takeSwapin_moves : AllMove p s (takeSwapin s k) := by
  unfold takeSwapin
  split
  next => exact .refl s
  next => exact moves_of_eq rfl

theorem threadSwapout_moves : Gives (threadSwapout s t) (fun _ => True) (AllMove p s) := by
  unfold threadSwapout
  split
  next => exact moves_of_same rfl rfl rfl rfl
  next =>
    have hs : AllMove p s (s.modThread t fun th => { th with swapState := .out }) := moves_of_same rfl rfl rfl rfl
    exact hs.after threadSwapin_moves
  next => trivial

theorem threadDoswapin_moves : Gives (threadDoswapin s t) (fun _ => True) (AllMove p s) := by
  have hk : AllMove p s (s.modThread t fun th =>
      { th with state := { th.state with swapped := false }, swapState := .inCore }) :=
    moves_of_thread rfl (.turn (.swapIn rfl) rfl rfl)
  unfold threadDoswapin
  dsimp only
  split
  next => exact hk.after threadSetrun_moves
  next => exact hk

theorem proceed_moves {op : Op} : Gives (proceed s k op) (fun _ => True) (AllMove p s) := by
  cases op with
  | timedOut t => exact clearWait_moves.bind fun r hr => hr.trans (moves_of_eq rfl)
  | clearWait t event => exact clearWaitEvent_moves.bind fun r hr => hr.trans (moves_of_eq rfl)
  | wakeup event => exact wakeupScan_moves.bind fun r hr => hr.trans (moves_of_eq rfl)
  | swapout t => exact threadSwapout_moves.bind fun r hr => hr.trans (moves_of_eq rfl)
  | doswapin t => exact threadDoswapin_moves.bind fun r hr => hr.trans (moves_of_eq rfl)

/-- The thread that an action suspends or resumes, or that `thread_halt` is about. -/
def Action.stops : Action → Option ThreadId
  | .hold t | .release t | .haltSuspend t | .haltRun t => some t
  | _ => none

/-- A thread that is swapped out waits interruptibly. -/
def Thread.Away (th : Thread) : Prop := th.state.swapped = true → th.state.wait = true → th.interruptible = true

/-- What `thread_release` makes of its thread first. -/
structure Thread.Released (th th' : Thread) : Prop where
  count : th'.suspendCount = th.suspendCount - 1
  susp : th'.state.susp = if th.suspendCount - 1 = 0 then false else th.state.susp
  away : th.Away → th'.Away
  held : th.suspendCount ≠ 1 → th'.state = th.state ∧ th'.interruptible = th.interruptible

theorem threadRelease_moves : Gives (threadRelease s t) (fun _ => True) fun r =>
    (∀ u, u ≠ t → Thread.Moves p (s.thread u) (r.thread u)) ∧
      ∃ x, (s.thread t).Released x ∧ Thread.Moves p x (r.thread t) := by
  have hgo : ∀ x q, (s.thread t).Released x → AllMove p (s.setThread t x) q →
      (∀ u, u ≠ t → Thread.Moves p (s.thread u) (q.thread u)) ∧
        ∃ x, (s.thread t).Released x ∧ Thread.Moves p x (q.thread t) := by
    intro x q hx hq
    refine ⟨fun u hu => other_moves hu hq, x, hx, ?_⟩
    have hm := hq t
    rwa [setThread_self] at hm
  unfold threadRelease
  dsimp only
  split
  next hn =>
    have hfree : ∀ st : ThState, st.susp = false → (st.wait = true → st.swapped = true → (s.thread t).Away →
        (s.thread t).interruptible = true) →
        (s.thread t).Released { s.thread t with suspendCount := (s.thread t).suspendCount - 1, state := st } :=
      fun st hs ha => ⟨rfl, by rw [if_pos hn]; exact hs, fun hw h1 h2 => ha h2 h1 hw, fun h1 => by omega⟩
    simp only [setState_modThread]
    split
    next => exact threadSwapin_moves.mono fun r hr => hgo _ r (hfree _ rfl (by simp)) hr
    next =>
      split
      next => exact threadSetrun_moves.mono fun r hr => hgo _ r (hfree _ rfl (by simp)) hr
      next =>
        refine hgo _ _ (hfree { (s.thread t).state with susp := false } rfl fun hw hs ha => ha hs hw) (.refl _)
  next hn =>
    exact hgo { s.thread t with suspendCount := (s.thread t).suspendCount - 1 } _
      ⟨rfl, by rw [if_neg hn], id, fun _ => ⟨rfl, rfl⟩⟩ (.refl _)

theorem step_moves {a : Action} (h : ∀ c t, s.phase c = .running t → p (s.thread t)) :
    Gives (step s a) (fun _ => True) fun r => ∀ t, a.stops ≠ some t → Thread.Moves p (s.thread t) (r.thread t) := by
  have keep : ∀ {r}, AllMove p s r → ∀ t, a.stops ≠ some t → Thread.Moves p (s.thread t) (r.thread t) :=
    fun h t _ => h t
  have same : ∀ t, a.stops ≠ some t → Thread.Moves p (s.thread t) (s.thread t) := fun t _ => AllMove.refl s t
  cases a with
  | tick update => exact fun _ _ => .same rfl (.inr rfl) rfl
  | bind t q => exact keep (moves_of_same rfl rfl rfl rfl)
  | assertWait c event i =>
    unfold step
    dsimp only
    split
    next hp => exact (assertWait_moves (h c _ hp)).mono fun _ => keep
    next => exact same
  | setTimeout c =>
    unfold step
    dsimp only
    split
    next => exact keep threadSetTimeout_moves
    next => exact same
  | block c =>
    unfold step
    dsimp only
    split
    next => exact threadBlock_moves.mono fun _ => keep
    next => exact same
  | dispatch c => exact dispatch_moves.mono fun _ => keep
  | idleTurn c =>
    unfold step
    dsimp only
    split
    next => exact keep idleTurn_moves
    next => exact same
  | exitRequest c => exact same
  | goAndSwitch c n =>
    unfold step
    dsimp only
    split
    next => exact threadGoAndSwitch_moves.mono fun _ => keep
    next => exact same
  | setPri t pri => exact setPri_moves.mono fun _ => keep
  | timeout k t => exact keep (clearTimer_moves.trans (moves_of_eq rfl))
  | clearWait k t i => exact clearWait_moves.bind fun r hr => keep (hr.trans (moves_of_eq rfl))
  | wakeup k event => exact keep (moves_of_eq rfl)
  | wakeupOne event => exact wakeupOne_moves.mono fun _ => keep
  | proceed k =>
    unfold step
    dsimp only
    split
    next => exact same
    next => exact proceed_moves.mono fun _ => keep
  | hold t => exact fun u hu => other_moves (by rintro rfl; exact hu rfl) (.refl _)
  | dowait t => exact keep threadDowait_moves
  | release t => exact threadRelease_moves.mono fun r hr u hu => hr.1 u (by rintro rfl; exact hu rfl)
  | haltSuspend t => exact fun u hu => other_moves (by rintro rfl; exact hu rfl) (.refl _)
  | haltRun t =>
    have hne : ∀ u, Action.stops (.haltRun t) ≠ some u → u ≠ t := by
      rintro u hu rfl
      exact hu rfl
    unfold step threadHaltRun
    dsimp only
    split
    next => exact threadSwapin_moves.mono fun r hr u hu => other_moves (hne u hu) hr
    next =>
      split
      next => exact threadSetrun_moves.mono fun r hr u hu => other_moves (hne u hu) hr
      next => trivial
  | swapoutScan k t => exact keep swapoutScan_moves
  | takeSwapin k => exact keep takeSwapin_moves

/-- What `thread_hold` and `thread_release` are about. -/
def Thread.stop (th : Thread) : Int × Bool := (th.suspendCount, th.state.susp)

def SameStops (s r : State) : Prop := ∀ t, (r.thread t).stop = (s.thread t).stop

theorem SameStops.refl (s : State) : SameStops s s := fun _ => rfl

theorem Thread.Turns.susp (h : th.Turns st) : st.susp = th.state.susp := by
  cases h with
  | wake hst => rw [hst]
  | start _ hst => rw [hst]
  | startOut h hst => rw [hst, h]
  | stop _ hst => rw [hst]
  | swapOut _ hst => rw [hst]
  | swapIn hst => rw [hst]

theorem Thread.Moves.stop_eq (h : Thread.Moves p th th') : th'.stop = th.stop := by
  induction h with
  | same hs _ hc => rw [Thread.stop, hs, hc, Thread.stop]
  | turn h _ hc => rw [Thread.stop, h.susp, hc, Thread.stop]
  | assertWait _ hs hc => rw [Thread.stop, hs, hc, Thread.stop]
  | trans _ _ ih ih' => exact ih'.trans ih

theorem AllMove.stops (h : AllMove p s r) : SameStops s r := fun t => (h t).stop_eq

theorem threadRelease_stops : Gives (threadRelease s t) (fun _ => True) fun r =>
    (∀ u, u ≠ t → (r.thread u).stop = (s.thread u).stop) ∧
      (r.thread t).stop = ((s.thread t).suspendCount - 1,
        if (s.thread t).suspendCount - 1 = 0 then false else (s.thread t).state.susp) := by
  refine (threadRelease_moves (p := fun _ => True)).mono fun r hr => ⟨fun u hu => (hr.1 u hu).stop_eq, ?_⟩
  obtain ⟨x, hx, hm⟩ := hr.2
  rw [hm.stop_eq, Thread.stop, hx.count, hx.susp]

theorem step_stops {a : Action} : Gives (step s a) (fun _ => True) fun r =>
    ∀ t, a.stops ≠ some t → (r.thread t).stop = (s.thread t).stop :=
  (step_moves (p := fun _ => True) fun _ _ _ => trivial).mono fun _ hr t ht => (hr t ht).stop_eq

/-- Stopped until it is resumed: a wakeup that finds it waiting does not set it running. -/
structure Thread.Halted (th : Thread) : Prop where
  susp : th.state.susp = true
  run : th.state.run = false
  wait : th.state.wait = true → th.interruptible = true

/-- A thread that may assert a wait. -/
def Thread.OnCpu (th : Thread) : Prop := th.state.run = true ∧ th.state.swapped = false

theorem Thread.Moves.away (h : Thread.Moves Thread.OnCpu th th') (ha : th.Away) : th'.Away := by
  induction h with
  | same hs hi _ =>
    rw [Thread.Away, hs]
    exact fun hw hx => hi.elim id fun he => he.trans (ha hw hx)
  | turn h hi _ =>
    rw [Thread.Away, hi]
    cases h with
    | wake hst => simp [hst]
    | start _ hst => simp [hst]
    | startOut _ hst => simp [hst]
    | stop _ hst =>
      rw [hst]
      exact ha
    | swapOut h _ => exact fun _ _ => h
    | swapIn hst => simp [hst]
  | assertWait h hs _ => simp [Thread.Away, hs, h.2]
  | trans _ _ ih ih' => exact ih' (ih ha)

theorem Thread.Turns.halted (h : th.Turns th'.state) (hi : th'.interruptible = th.interruptible) (ha : th.Halted) :
    th'.Halted := by
  have hs := h.susp.trans ha.susp
  cases h with
  | wake hst => exact ⟨hs, by rw [hst, ha.run], by simp [hst]⟩
  | start h _ =>
    rcases h with ⟨hw, hn⟩ | hw
    · have := ha.wait (by rw [hw])
      simp [hn] at this
    · have := ha.susp
      simp [hw] at this
  | startOut hw _ =>
    have := ha.susp
    simp [hw] at this
  | stop hr _ =>
    have := ha.run
    simp [hr] at this
  | swapOut hint hst => exact ⟨hs, by rw [hst, ha.run], fun _ => hi.trans hint⟩
  | swapIn hst =>
    refine ⟨hs, by rw [hst, ha.run], fun hw => hi.trans (ha.wait ?_)⟩
    rwa [hst] at hw

theorem Thread.Moves.halted (h : Thread.Moves Thread.OnCpu th th') (ha : th.Halted) : th'.Halted := by
  induction h with
  | same hs hi _ =>
    exact ⟨by rw [hs, ha.susp], by rw [hs, ha.run], fun hw => hi.elim id fun he => he.trans (ha.wait (hs ▸ hw))⟩
  | turn h hi _ => exact h.halted hi ha
  | assertWait h =>
    have := ha.run
    simp [h.1] at this
  | trans _ _ ih ih' => exact ih' (ih ha)

/-- The thread that an action resumes. -/
def Action.frees (s : State) : Action → Option ThreadId
  | .release t => if (s.thread t).suspendCount = 1 then some t else none
  | _ => none

/-- The thread that `thread_halt` sets running. -/
def Action.halts : Action → Option ThreadId
  | .haltRun t => some t
  | _ => none

/-- A thread that stays suspended or stopped, as long as it is not resumed or set running. -/
structure Thread.Stays (freed halted : Prop) (th th' : Thread) : Prop where
  away : th.Away → th'.Away
  susp : ¬freed → th.state.susp = true → th'.state.susp = true
  halted : ¬freed → ¬halted → th.Halted → th'.Halted

theorem Thread.Moves.stays {freed halted : Prop} (h : Thread.Moves Thread.OnCpu th th') :
    Thread.Stays freed halted th th' :=
  ⟨h.away, fun _ hs => (congrArg Prod.snd h.stop_eq).trans hs, fun _ _ => h.halted⟩

theorem Inv.onCpu (h : Inv none s) (c : CpuId) (t : ThreadId) (hp : s.phase c = .running t) : (s.thread t).OnCpu :=
  (h.placed t (by simp)).mp ⟨.active c, hp⟩

theorem step_stays_self {a : Action} (ha : a.stops = some t) : Gives (step s a) (fun _ => True) fun r =>
    Thread.Stays (a.frees s = some t) (a.halts = some t) (s.thread t) (r.thread t) := by
  cases a with
  | hold u =>
    cases Option.some.inj ha
    rw [step, gives_ok, threadHold, modThread_self]
    exact ⟨id, fun _ _ => rfl, fun _ _ hh => ⟨rfl, hh.run, hh.wait⟩⟩
  | haltSuspend u =>
    cases Option.some.inj ha
    rw [step, gives_ok, threadHaltSuspend, modThread_self]
    exact ⟨id, fun _ _ => rfl, fun _ _ hh => ⟨rfl, hh.run, hh.wait⟩⟩
  | release u =>
    cases Option.some.inj ha
    refine (threadRelease_moves (p := Thread.OnCpu)).mono fun r hr => ?_
    obtain ⟨x, hx, hm⟩ := hr.2
    have hkept : Action.frees s (.release t) ≠ some t → x.state = (s.thread t).state ∧
        x.interruptible = (s.thread t).interruptible := fun hn => hx.held fun hc => hn (by simp [Action.frees, hc])
    refine ⟨fun hw => hm.away (hx.away hw), fun hn hs => ?_, fun hn _ hh => hm.halted ?_⟩
    · have hsusp : (r.thread t).state.susp = x.state.susp := congrArg Prod.snd hm.stop_eq
      rw [hsusp, (hkept hn).1, hs]
    · obtain ⟨hs, hi⟩ := hkept hn
      exact ⟨by rw [hs, hh.susp], by rw [hs, hh.run], fun hw => hi.trans (hh.wait (hs ▸ hw))⟩
  | haltRun u =>
    cases Option.some.inj ha
    have hgo : ∀ x r, x.state = { (s.thread t).state with run := true } → (s.thread t).state.wait = false →
        AllMove Thread.OnCpu (s.setThread t x) r →
        Thread.Stays (Action.frees s (.haltRun t) = some t) (Action.halts (.haltRun t) = some t) (s.thread t)
          (r.thread t) := by
      intro x r hx hw hr
      have hm := hr t
      rw [setThread_self] at hm
      have hsusp : (r.thread t).state.susp = x.state.susp := congrArg Prod.snd hm.stop_eq
      refine ⟨fun _ => hm.away fun _ hxw => ?_, fun _ hs => ?_, fun _ hn => absurd rfl hn⟩
      · rw [hx] at hxw
        exact absurd (hw.symm.trans hxw) (by simp)
      · rw [hsusp, hx, hs]
    unfold step threadHaltRun
    dsimp only
    split
    next h => exact threadSwapin_moves.mono fun r hr => hgo _ r rfl (by rw [h]) hr
    next =>
      split
      next h => exact threadSetrun_moves.mono fun r hr => hgo _ r rfl (by rw [h]) hr
      next => trivial
  | _ => exact absurd ha (by simp [Action.stops])

theorem step_stays {a : Action} (h : Inv none s) : Gives (step s a) (fun _ => True) fun r =>
    ∀ t, Thread.Stays (a.frees s = some t) (a.halts = some t) (s.thread t) (r.thread t) := by
  have hm := step_moves (s := s) (a := a) h.onCpu
  have hself := fun t (ha : a.stops = some t) => step_stays_self (s := s) ha
  cases hx : step s a with
  | error e => trivial
  | ok r =>
    intro t
    by_cases ha : a.stops = some t
    · exact (hself t ha).of_ok hx
    · exact (hm.of_ok hx t ha).stays

end MachVM.Kern.Sched

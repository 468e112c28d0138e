import MachVM.Lib.Run
import MachVM.SchedSuspend
import MachVM.SchedSwap

namespace MachVM.Kern.Sched

open Machine Levels

variable {s r : State} {t u : ThreadId} {c : CpuId} {q : RunqId} {k : OpId} {a : Action} {th : Thread}

/-- The threads of the start run, each on a processor of its own, or have not been resumed yet. -/
structure Start (s : State) : Prop where
  waitQueue : ∀ b, s.waitQueue b = []
  queue : ∀ q, s.queue q = { runq := fun _ => [], low := 0, count := 0 }
  nextThread : ∀ c, s.nextThread c = none
  idle : s.idleQueue = [] ∧ s.idleCount = 0 ∧ ∀ c, s.cpuState c ≠ .idle
  own : ∀ c d t, s.phase c = .running t → s.phase d = .running t → c = d
  active : ∀ c t, s.phase c = .running t → (s.thread t).state = { run := true } ∧ (s.thread t).suspendCount = 0 ∧
    (s.thread t).asserted = false
  suspended : ∀ t, (∀ c, s.phase c ≠ .running t) → (s.thread t).state = { susp := true }
  thread : ∀ t, (s.thread t).waitEvent = 0 ∧ (s.thread t).runq = none ∧ (s.thread t).interruptible = true ∧
    (s.thread t).swapState.away = false
  swapinQueue : s.swapinQueue = []
  ops : ∀ k, s.ops k = none

/-- The names of operations that begin are new, and a thread that is switched to waits for no event. -/
def ok (s : State) : Action → Prop
  | .goAndSwitch _ new => (s.thread new).waitEvent = 0
  | .timeout k _ | .clearWait k _ _ | .wakeup k _ | .swapoutScan k _ | .takeSwapin k => s.ops k = none
  | _ => True

abbrev Reachable : State → Prop := Reach Start (fun s a => (step s a).toOption) ok

theorem Start.inv (h : Start s) : Inv none s := by
  have hat : ∀ t p, At s t p → ∃ c, p = .active c ∧ s.phase c = .running t := by
    intro t p hp
    cases p with
    | active c => exact ⟨c, rfl, hp⟩
    | slot c => simp [At, h.nextThread c] at hp
    | queued q => simp [At, (h.thread t).2.1] at hp
  have hst : ∀ t, (∃ c, s.phase c = .running t) ∧ (s.thread t).state = { run := true } ∨
      (∀ c, s.phase c ≠ .running t) ∧ (s.thread t).state = { susp := true } := by
    intro t
    by_cases hr : ∃ c, s.phase c = .running t
    · obtain ⟨c, hc⟩ := hr
      exact .inl ⟨⟨c, hc⟩, (h.active c t hc).1⟩
    · have hr : ∀ c, s.phase c ≠ .running t := fun c hc => hr ⟨c, hc⟩
      exact .inr ⟨hr, h.suspended t hr⟩
  refine ⟨fun b => ?_, fun x => ?_, fun q => ?_, ⟨?_, ?_, ?_, ?_, ?_⟩, ?_, ?_, ?_, ?_⟩
  · rw [h.waitQueue b]
    exact ⟨List.nodup_nil, fun t => by simp [Thread.bucket, (h.thread t).1]⟩
  · rw [State.runqList, h.queue]
    exact ⟨List.nodup_nil, fun t => by simp [Thread.list, (h.thread t).2.1]⟩
  · rw [h.queue q]
    exact leveled_nil
  · rw [h.idle.1]
    exact ⟨List.nodup_nil, fun c => by simp [h.idle.2.2 c]⟩
  · rw [h.idle.1, h.idle.2.1]
    rfl
  · exact fun c hc => absurd hc (h.idle.2.2 c)
  · exact fun c hc => absurd (h.nextThread c) hc
  · exact fun c _ => h.nextThread c
  · intro t p p' hp hp'
    obtain ⟨c, rfl, hc⟩ := hat t p hp
    obtain ⟨d, rfl, hd⟩ := hat t p' hp'
    rw [h.own c d t hc hd]
  · intro t _
    rcases hst t with ⟨⟨c, hc⟩, hs⟩ | ⟨hn, hs⟩
    · exact iff_of_true ⟨.active c, hc⟩ (by simp [hs])
    · refine iff_of_false (fun hp => ?_) (by simp [hs])
      obtain ⟨p, hp⟩ := hp
      obtain ⟨c, -, hc⟩ := hat t p hp
      exact hn c hc
  · intro t _
    obtain ⟨he, -, hi, hsw⟩ := h.thread t
    rcases hst t with ⟨⟨c, hc⟩, hs⟩ | ⟨hn, hs⟩
    · have hcount := (h.active c t hc).2.1
      constructor <;> simp_all
    · constructor <;> simp_all
  · simp

theorem Start.swap (h : Start s) : SwapInv s.swapinQueue s.swap s.ops := by
  have hat : ∀ t p, ¬SwapAt s.swapinQueue s.ops t p := by
    intro t p hp
    cases p <;> simp [SwapAt, h.swapinQueue, h.ops] at hp
  refine ⟨by simp [h.swapinQueue], fun t p _ hp => absurd hp (hat t p), fun t p hp => absurd hp (hat t p), fun t ht => ?_⟩
  have := (h.thread t).2.2.2
  rcases ht with ht | ht | ht <;> simp [State.swap] at ht <;> simp [ht, SwapState.away] at this

/-- The panics that an action may end in. -/
def Action.Panics (s : State) : Action → Panic → Prop
  | .assertWait c _ _, e => e = .assertWait ∧ ∃ t, s.phase c = .running t ∧ (s.thread t).asserted = true
  | .goAndSwitch _ _, e => e = .threadSwitch
  | .haltRun _, e => e = .threadHalt
  | _, _ => False

/-- The column of the table that an action goes by, if it may change the state of a thread. -/
def Action.column (s : State) : Action → Option Column
  | .assertWait _ _ _ => some .assertWait
  | .block _ | .dispatch _ => some .threadBlock
  | .clearWait _ _ _ | .wakeupOne _ => some .clearWait
  | .proceed k =>
    match s.ops k with
    | some (.swapout _) => some .swapout
    | some (.doswapin _) => some .swapin
    | some _ => some .clearWait
    | none => none
  | .hold _ | .dowait _ => some .suspend
  | .release _ => some .resume
  | .swapoutScan _ _ => some .swapout
  | _ => none

/-- The states of all threads stay or go on by a row of the table or a missing one. -/
def GoesBy (col : Option Column) (s r : State) : Prop :=
  ∀ u, (r.thread u).code = (s.thread u).code ∨
    ∃ c, col = some c ∧ ((s.thread u).code, c, (r.thread u).code) ∈ stateTable ++ missingRows

/-- The operations that the table is about, by callers that assert at most one wait before they block. -/
def Documented (s : State) : Action → Prop
  | .assertWait c _ _ => ∀ t, s.phase c = .running t → (s.thread t).asserted = false
  | .goAndSwitch _ _ | .haltSuspend _ | .haltRun _ => False
  | _ => True

theorem GoesBy.valid {col : Option Column} (h : GoesBy col s r) (hs : Valid s) : Valid r := by
  intro u
  rcases h u with he | ⟨c, -, hc⟩
  · rw [he]
    exact hs u
  · exact Goes.valid (.inr hc) (hs u)

theorem AllGo.goesBy {col : Column} (h : AllGo col s r) : GoesBy (some col) s r :=
  fun u => (h u).imp Eq.symm fun hc => ⟨col, rfl, hc⟩

theorem SameView.goesBy {col : Option Column} (h : SameView s r) : GoesBy col s r := fun u => .inl (h.code u)

/-- What one action does. -/
structure Stepped (s : State) (a : Action) (r : State) : Prop where
  inv : Inv none r
  goes : Documented s a → Valid s → GoesBy (a.column s) s r

theorem Does.stepped {col : Column} (h : Does col s r) (hc : a.column s = some col) : Stepped s a r :=
  ⟨h.inv, fun _ hv => hc ▸ (h.goes hv).goesBy⟩

theorem SameView.stepped (h : SameView s r) (hr : Inv none r) : Stepped s a r := ⟨hr, fun _ _ => h.goesBy⟩

theorem stepped_self (h : Inv none s) : Stepped s a s := (SameView.refl s).stepped h

theorem Does.aside {col : Column} {ops : OpId → Option Op} (h : Does col s r) : Does col s { r with ops } :=
  ⟨h.inv.aside, h.goes⟩

theorem tick_inv {update : ThreadId → Option Int} (h : Inv none s) :
    Inv none { s with thread := fun t => { s.thread t with update := update t } } :=
  ⟨h.waits, h.lists, h.leveled, ⟨h.cpus.idle, h.cpus.count, h.cpus.loop, h.cpus.slot, h.cpus.looked⟩, h.unique,
    h.placed, fun t ht => (h.ok t ht).congr rfl rfl rfl rfl rfl rfl .rfl, h.nowhere⟩

theorem threadSetTimeout_inv (h : Inv none s) : Inv none (threadSetTimeout s t) := by
  unfold threadSetTimeout
  split
  next =>
    exact h.setThread rfl rfl rfl (fun _ => .rfl) fun ht => (h.ok t ht).congr rfl rfl rfl rfl rfl rfl .rfl
  next => exact h

theorem threadSetTimeout_sameView : SameView s (threadSetTimeout s t) := by
  unfold threadSetTimeout
  split
  next => exact sameView_update rfl rfl rfl rfl
  next => exact .refl s

theorem proceed_stepped {op : Op} (h : Inv none s) (hs : SwapInv s.swapinQueue s.swap s.ops) (hk : s.ops k = some op) :
    Gives (proceed s k op) (fun _ => False) (Stepped s (.proceed k)) := by
  cases op with
  | timedOut t =>
    exact (clearWait_gives h).bind fun r hr => (Does.aside hr).stepped (by simp [Action.column, hk])
  | clearWait t event =>
    exact (clearWaitEvent_gives h).bind fun r hr => hr.aside.stepped (by simp [Action.column, hk])
  | wakeup event =>
    have hne : ∀ u ∈ s.waitQueue (waitHash event), (s.thread u).waitEvent ≠ 0 := by
      intro u hu he
      have := (h.waits.mem_iff _ u).mp hu
      simp [Thread.bucket, he] at this
    exact (wakeupScan_gives _ h (h.waits.nodup _) hne).bind fun r hr => hr.1.aside.stepped (by simp [Action.column, hk])
  | swapout t =>
    have hg : Gives (threadSwapout s t) (fun _ => False) (Does .swapout s) :=
      threadSwapout_gives h (hs.fits t (.going k) hk)
    exact hg.bind fun r hr => hr.aside.stepped (by simp [Action.column, hk])
  | doswapin t =>
    exact (threadDoswapin_does h (hs.fits t (.coming k) hk)).bind
      fun r hr => hr.aside.stepped (by simp [Action.column, hk])

theorem step_gives (h : Inv none s) (hs : SwapInv s.swapinQueue s.swap s.ops) (ha : ok s a) :
    Gives (step s a) (a.Panics s) (Stepped s a) := by
  have none_panics : ∀ {x : Except Panic State} {p : State → Prop}, Gives x (fun _ => False) p →
      Gives x (a.Panics s) p := fun hx => hx.weaken fun _ hf => hf.elim
  cases a with
  | tick update => exact SameView.stepped ⟨fun _ => rfl, fun _ => rfl, fun _ => rfl⟩ (tick_inv h)
  | bind t q =>
    have hok := h.ok t (by simp)
    exact SameView.stepped (sameView_update rfl rfl rfl rfl)
      (h.setThread rfl rfl rfl (fun _ => .rfl) fun _ => hok.congr rfl rfl rfl rfl rfl rfl .rfl)
  | assertWait c event i =>
    unfold step
    dsimp only
    split
    next t hp =>
      refine ((assertWait_gives h hp).weaken fun e he => ⟨he.1, t, hp, he.2⟩).mono fun r hr => ⟨hr.1, fun hd _ => ?_⟩
      exact (hr.2 (hd t hp)).goesBy
    next => exact stepped_self h
  | setTimeout c =>
    unfold step
    dsimp only
    split
    next => exact threadSetTimeout_sameView.stepped (threadSetTimeout_inv h)
    next => exact stepped_self h
  | block c =>
    unfold step
    dsimp only
    split
    next t hp => exact (none_panics (threadBlock_gives h hp)).mono fun r hr => hr.stepped rfl
    next => exact stepped_self h
  | dispatch c => exact (none_panics (dispatch_gives h)).mono fun r hr => hr.stepped rfl
  | idleTurn c =>
    unfold step
    dsimp only
    split
    next hp =>
      refine SameView.stepped (sameView_of_thread ?_) (idleTurn_inv h hp)
      unfold idleTurn
      dsimp only
      split <;> rfl
    next => exact stepped_self h
  | exitRequest c =>
    exact SameView.stepped (sameView_of_thread rfl) ⟨h.waits, h.lists, h.leveled,
      ⟨h.cpus.idle, h.cpus.count, h.cpus.loop, h.cpus.slot, h.cpus.looked⟩, h.unique, h.placed, h.ok, h.nowhere⟩
  | goAndSwitch c n =>
    unfold step
    dsimp only
    split
    next t hp => exact (threadGoAndSwitch_gives h hp ha).mono fun r hr => ⟨hr, fun hd => hd.elim⟩
    next => exact stepped_self h
  | setPri t pri => exact (none_panics (setPri_gives h)).mono fun r hr => hr.2.stepped hr.1
  | timeout k t => exact SameView.stepped (sameView_update rfl rfl rfl rfl) (clearTimer_inv (t := t) h).aside
  | clearWait k t i =>
    unfold step
    exact none_panics ((clearWait_gives h).bind fun r hr => (Does.aside hr).stepped rfl)
  | wakeup k event => exact SameView.stepped (sameView_of_thread rfl) h.aside
  | wakeupOne event => exact (none_panics (wakeupOne_gives h)).mono fun r hr => hr.stepped rfl
  | proceed k =>
    unfold step
    dsimp only
    split
    next => exact stepped_self h
    next op hk => exact none_panics (proceed_stepped h hs hk)
  | hold t => exact (threadHold_does h).stepped rfl
  | dowait t => exact (threadDowait_does h).stepped rfl
  | release t => exact (none_panics (threadRelease_gives h)).mono fun r hr => hr.stepped rfl
  | haltSuspend t => exact ⟨threadHaltSuspend_inv h, fun hd => hd.elim⟩
  | haltRun t => exact (threadHaltRun_gives h).mono fun r hr => ⟨hr, fun hd => hd.elim⟩
  | swapoutScan k t => exact (swapoutScan_does h).stepped rfl
  | takeSwapin k =>
    unfold step takeSwapin
    dsimp only
    split
    next => exact stepped_self h
    next => exact SameView.stepped (sameView_of_thread rfl) h.aside

/-- The swapper has the threads that are on their way in the next state too, and without a thread swapped out no
thread is. -/
structure SwapStepped (s : State) (calm : Prop) (r : State) : Prop where
  inv : SwapInv r.swapinQueue r.swap r.ops
  home : calm → s.Home → r.Home

theorem Keeps.swapStepped {calm : Prop} (h : Keeps s r) (hs : SwapInv s.swapinQueue s.swap s.ops) :
    SwapStepped s calm r := ⟨h.ops ▸ h.inv _ hs, fun _ => h.home⟩

theorem Keeps.setOp {op : Option Op} {c : Prop} (h : Keeps s r)
    (hs : SwapInv s.swapinQueue s.swap (Function.update s.ops k op)) : SwapStepped s c (r.setOp k op) := by
  have ho : (r.setOp k op).ops = Function.update s.ops k op := by simp only [State.setOp, h.ops]
  refine ⟨?_, fun _ => h.home⟩
  rw [ho]
  exact h.inv _ hs

theorem setThread_setOp_swap {op : Option Op}
    (h : SwapInv s.swapinQueue (Function.update s.swap t th.swapState) (Function.update s.ops k op)) :
    SwapInv (s.setThread t th).swapinQueue (s.setThread t th).swap (Function.update (s.setThread t th).ops k op) := by
  rw [setThread_swap]
  exact h

theorem SwapInv.not_home (hs : SwapInv s.swapinQueue s.swap s.ops)
    (hk : s.ops k = some (.swapout t) ∨ s.ops k = some (.doswapin t)) : ¬s.Home := by
  intro hh
  have hx : s.swap t = .comingIn ∨ s.swap t = .goingOut ∨ s.swap t = .wantIn := by
    rcases hk with hk | hk
    · exact .inr (hs.fits t (.going k) hk)
    · exact .inl (hs.fits t (.coming k) hk)
  have := hh t
  rcases hx with hx | hx | hx <;> simp [hx, SwapState.away] at this

theorem proceed_swap {op : Op} {calm : Prop} (hs : SwapInv s.swapinQueue s.swap s.ops) (hk : s.ops k = some op) :
    Gives (proceed s k op) (fun _ => True) (SwapStepped s calm) := by
  cases op with
  | timedOut t =>
    refine clearWait_keeps.bind fun r hr => hr.setOp (hs.other (by simp [hk]) fun u => ?_)
    cases r.2 <;> simp
  | clearWait t event => exact clearWaitEvent_keeps.bind fun r hr => hr.setOp (hs.other (by simp [hk]) (by simp))
  | wakeup event =>
    refine wakeupScan_keeps.bind fun r hr => hr.setOp (hs.other (by simp [hk]) fun u => ?_)
    split <;> simp
  | swapout t =>
    have hd := hs.done (.inl hk) (.inl rfl)
    have hn : ∀ q, s.Home → q := fun q hh => absurd hh (hs.not_home (.inl hk))
    refine Gives.bind (p := fun r : State => SwapInv r.swapinQueue r.swap (Function.update r.ops k none)) ?_
      fun r hr => ⟨hr, fun _ => hn _⟩
    unfold threadSwapout
    split
    next => exact setThread_setOp_swap hd
    next => exact threadSwapin_keeps.mono fun r hr => (Keeps.setOp (c := True) hr (setThread_setOp_swap hd)).inv
    next => trivial
  | doswapin t =>
    have hd := hs.done (.inr hk) (.inr rfl)
    have hn : ∀ q, s.Home → q := fun q hh => absurd hh (hs.not_home (.inr hk))
    refine Gives.bind (p := fun r : State => SwapInv r.swapinQueue r.swap (Function.update r.ops k none)) ?_
      fun r hr => ⟨hr, fun _ => hn _⟩
    unfold threadDoswapin
    dsimp only
    split
    next => exact threadSetrun_keeps.mono fun r hr => (Keeps.setOp (c := True) hr (setThread_setOp_swap hd)).inv
    next => exact setThread_setOp_swap hd

def Action.swapsOut : Action → Bool
  | .swapoutScan _ _ => true
  | _ => false

theorem step_swap (hs : SwapInv s.swapinQueue s.swap s.ops) (ha : ok s a) :
    Gives (step s a) (fun _ => True) (SwapStepped s (a.swapsOut = false)) := by
  have keep : ∀ {r}, Keeps s r → SwapStepped s (a.swapsOut = false) r := fun hk => hk.swapStepped hs
  have same : SwapStepped s (a.swapsOut = false) s := keep (.refl s)
  cases a with
  | tick update => exact ⟨hs, fun _ => id⟩
  | bind t q => exact keep (keeps_of_thread rfl rfl rfl rfl)
  | assertWait c event i =>
    unfold step
    dsimp only
    split
    next => exact assertWait_keeps.mono fun _ => keep
    next => exact same
  | setTimeout c =>
    unfold step
    dsimp only
    split
    next => exact keep threadSetTimeout_keeps
    next => exact same
  | block c =>
    unfold step
    dsimp only
    split
    next => exact threadBlock_keeps.mono fun _ => keep
    next => exact same
  | dispatch c => exact dispatch_keeps.mono fun _ => keep
  | idleTurn c =>
    unfold step
    dsimp only
    split
    next => exact keep idleTurn_keeps
    next => exact same
  | exitRequest c => exact ⟨hs, fun _ => id⟩
  | goAndSwitch c n =>
    unfold step
    dsimp only
    split
    next => exact threadGoAndSwitch_keeps.mono fun _ => keep
    next => exact same
  | setPri t pri => exact setPri_keeps.mono fun _ => keep
  | timeout k t =>
    have ha : s.ops k = none := ha
    exact Keeps.setOp clearTimer_keeps (hs.other (by simp [ha]) (by simp))
  | clearWait k t i =>
    have ha : s.ops k = none := ha
    unfold step
    refine clearWait_keeps.bind fun r hr => hr.setOp (hs.other (by simp [ha]) fun u => ?_)
    cases r.2 <;> simp
  | wakeup k event =>
    have ha : s.ops k = none := ha
    exact Keeps.setOp (.refl s) (hs.other (by simp [ha]) (by simp))
  | wakeupOne event => exact wakeupOne_keeps.mono fun _ => keep
  | proceed k =>
    unfold step
    dsimp only
    split
    next => exact same
    next op hk => exact proceed_swap hs hk
  | hold t => exact keep (keeps_of_thread rfl rfl rfl rfl)
  | dowait t => exact keep threadDowait_keeps
  | release t => exact threadRelease_keeps.mono fun _ => keep
  | haltSuspend t => exact keep (keeps_of_thread rfl rfl rfl rfl)
  | haltRun t => exact threadHaltRun_keeps.mono fun _ => keep
  | swapoutScan k t =>
    have ha : s.ops k = none := ha
    unfold step swapoutScan
    dsimp only
    split
    next hc => exact ⟨setThread_setOp_swap (s := s) (t := t) (hs.goOut hc.2.2.1 ha), fun hh => by simp [Action.swapsOut] at hh⟩
    next => exact same
  | takeSwapin k =>
    have ha : s.ops k = none := ha
    unfold step takeSwapin
    dsimp only
    split
    next => exact same
    next t ts hq => exact ⟨(hq ▸ hs).take ha, fun _ => id⟩

theorem reachable_inv (h : Reachable s) : Inv none s ∧ SwapInv s.swapinQueue s.swap s.ops := by
  refine Reach.invariant (p := fun s => Inv none s ∧ SwapInv s.swapinQueue s.swap s.ops)
    (fun s hs => ⟨hs.inv, hs.swap⟩) (fun s a r hp ha hs => ?_) h
  have hr := toOption_eq_some hs
  exact ⟨((step_gives hp.1 hp.2 ha).of_ok hr).inv, ((step_swap hp.2 ha).of_ok hr).inv⟩

def bootThread (st : ThState) : Thread where
  state := st
  interruptible := true
  waitEvent := 0
  timerSet := false
  suspendCount := if st.susp then 1 else 0
  swapState := .inCore
  whichq := .global
  runq := none
  schedPri := 8
  update := none
  asserted := false

/-- Thread 0 runs on processor 0, the only one that is on line. -/
def bootState : State where
  thread t := bootThread (if t = 0 then { run := true } else { susp := true })
  waitQueue _ := []
  queue _ := { runq := fun _ => [], low := 0, count := 0 }
  phase c := if c = 0 then .running 0 else .halted
  nextThread _ := none
  cpuState c := if c = 0 then .running else .offLine
  shouldExit _ := false
  idleQueue := []
  idleCount := 0
  masterCpu := 0
  swapinQueue := []
  ops _ := none

theorem bootState_start : Start bootState where
  waitQueue _ := rfl
  queue _ := rfl
  nextThread _ := rfl
  idle := ⟨rfl, rfl, fun c => by simp only [bootState]; split <;> simp⟩
  own c d t hc hd := by
    simp only [bootState] at hc hd
    split at hc <;> split at hd <;> simp_all
  active c t hc := by
    simp only [bootState] at hc
    split at hc
    next =>
      cases Phase.running.inj hc
      exact ⟨rfl, rfl, rfl⟩
    next => simp at hc
  suspended t ht := by
    have h0 : t ≠ 0 := by
      rintro rfl
      exact ht 0 rfl
    simp [bootState, bootThread, h0]
  thread t := ⟨rfl, rfl, rfl, rfl⟩
  swapinQueue := rfl
  ops _ := rfl

end MachVM.Kern.Sched

namespace MachVM.Kern.Sched

open Machine Levels

variable {s r : State} {t u : ThreadId} {c : CpuId} {q : RunqId} {a : Action} {k : OpId}

/-- The operations of the state table, by callers that assert at most one wait before they block. -/
def okTable (s : State) (a : Action) : Prop := ok s a ∧ Documented s a

abbrev ReachableTable : State → Prop := Reach Start (fun s a => (step s a).toOption) okTable

theorem Start.valid (h : Start s) : Valid s := by
  intro u
  have hi := (h.thread u).2.2.1
  by_cases hr : ∃ c, s.phase c = .running u
  · obtain ⟨c, hc⟩ := hr
    simp only [Thread.code, (h.active c u hc).1, hi]
    rfl
  · have hs := h.suspended u fun c hc => hr ⟨c, hc⟩
    simp only [Thread.code, hs, hi]
    rfl

theorem ReachableTable.valid (h : ReachableTable s) : Valid s := by
  refine (Reach.invariant (p := fun s => (Inv none s ∧ SwapInv s.swapinQueue s.swap s.ops) ∧ Valid s)
    (fun s hs => ⟨⟨hs.inv, hs.swap⟩, hs.valid⟩) (fun s a r hp ha hs => ?_) h).2
  have hr := toOption_eq_some hs
  have hst := (step_gives hp.1.1 hp.1.2 ha.1).of_ok hr
  exact ⟨⟨hst.inv, ((step_swap hp.1.2 ha.1).of_ok hr).inv⟩, (hst.goes ha.2 hp.2).valid hp.2⟩

theorem Inv.waiting_runq (h : Inv none s) (he : (s.thread t).waitEvent ≠ 0) : (s.thread t).runq = none := by
  cases hq : (s.thread t).runq with
  | none => rfl
  | some q =>
    have ho := h.ok_of_at (p := .queued q) hq (by simp)
    have hw := ho.not_wait (h.runs_of_at (p := .queued q) hq).1
    rw [ho.event he] at hw
    simp at hw

theorem wakeup_done {event : Int} (h : Inv none s) (hk : s.ops k = some (.wakeup event)) (he : event ≠ 0)
    (hr : step s (.proceed k) = .ok r) (hd : r.ops k = none) (t : ThreadId) : (r.thread t).waitEvent ≠ event := by
  have hne : ∀ u ∈ s.waitQueue (waitHash event), (s.thread u).waitEvent ≠ 0 :=
    fun u hu => (h.mem_waitQueue.mp hu).1
  have hg := wakeupScan_gives event h (h.waits.nodup (waitHash event)) hne
  simp only [step, hk, proceed] at hr
  cases hx : wakeupScan event s (s.waitQueue (waitHash event)) with
  | error e =>
    rw [hx] at hr
    simp [bind, Except.bind] at hr
  | ok x =>
    rw [hx] at hr hg
    obtain ⟨-, hout, hend⟩ := hg
    cases Except.ok.inj hr
    have hx2 : x.2 = true := by
      by_contra hx2
      simp [State.setOp, hx2] at hd
    by_cases ht : t ∈ s.waitQueue (waitHash event)
    · exact hend hx2 t ht
    · intro hte
      have hs := (hout t ht).2.symm.trans hte
      exact ht (h.mem_waitQueue.mpr ⟨by rw [hs]; exact he, by rw [hs]⟩)

/-- The state machine of waits and suspensions: the wait queues hold exactly the threads with an event, each step
goes by a row of the table or a missing one, nothing panics, and a wakeup leaves no thread waiting. -/
theorem wait_state_machine (h : ReachableTable s) :
    (∀ t b, t ∈ s.waitQueue b ↔ (s.thread t).waitEvent ≠ 0 ∧ b = waitHash (s.thread t).waitEvent) ∧
    (∀ b, (s.waitQueue b).Nodup) ∧
    (∀ t b, t ∈ s.waitQueue b →
      (s.thread t).state.wait = true ∧ (s.thread t).runq = none ∧ ∀ q k, t ∉ (s.queue q).runq k) ∧
    (∀ a r, okTable s a → step s a = .ok r → GoesBy (a.column s) s r) ∧
    (∀ a e, okTable s a → step s a ≠ .error e) ∧
    ∀ k event r, s.ops k = some (.wakeup event) → event ≠ 0 → step s (.proceed k) = .ok r → r.ops k = none →
      ∀ t, (r.thread t).waitEvent ≠ event := by
  obtain ⟨hi, hs⟩ := reachable_inv (h.mono fun _ _ ha => ha.1)
  refine ⟨fun t b => hi.mem_waitQueue, hi.waits.nodup, fun t b ht => ?_, fun a r ha hr => ?_, fun a e ha he => ?_, ?_⟩
  · have hev := (hi.mem_waitQueue.mp ht).1
    have hq := hi.waiting_runq hev
    refine ⟨(hi.ok t (by simp)).event hev, hq, fun q k hk => ?_⟩
    have := (hi.mem_runq.mp hk).1
    simp [hq] at this
  · exact ((step_gives hi hs ha.1).of_ok hr).goes ha.2 h.valid
  · have hp := (step_gives hi hs ha.1).of_error he
    have hd := ha.2
    cases a <;> simp [Action.Panics, Documented] at hp hd
    obtain ⟨-, t, ht, has⟩ := hp
    simp [hd t ht] at has
  · exact fun k event r hk he hr hd => wakeup_done hi hk he hr hd

/-- Thread 0 asserts a wait that is not interruptible, is woken before it blocks, and goes back on the run queue. -/
def wokenCalls : List Action :=
  [.assertWait 0 5 false, .wakeupOne 5, .block 0, .dispatch 0, .dispatch 0, .dispatch 0]

def wokenState : State := ((wokenCalls.foldlM step bootState).toOption).getD bootState

theorem wokenState_reachable : ReachableTable wokenState := by
  have h : ReachableTable bootState := .start bootState_start
  have h := h.next (a := Action.assertWait 0 5 false) ⟨trivial, fun t ht => by cases Phase.running.inj ht; rfl⟩ rfl
  have h := h.next (a := Action.wakeupOne 5) ⟨trivial, trivial⟩ rfl
  have h := h.next (a := Action.block 0) ⟨trivial, trivial⟩ rfl
  have h := h.next (a := Action.dispatch 0) ⟨trivial, trivial⟩ rfl
  have h := h.next (a := Action.dispatch 0) ⟨trivial, trivial⟩ rfl
  exact h.next (a := Action.dispatch 0) ⟨trivial, trivial⟩ rfl

/-- The thread is on no wait queue, and does not wait for the event. -/
theorem wokenState_waits : (wokenState.thread 0).waitEvent = 0 ∧ 0 ∉ wokenState.waitQueue (waitHash 5) ∧
    (wokenState.waitQueue (waitHash 5)).Nodup := by
  obtain ⟨hwaits, hnodup, -⟩ := wait_state_machine wokenState_reachable
  have hevent : (wokenState.thread 0).waitEvent = 0 := rfl
  exact ⟨hevent, fun h => ((hwaits 0 (waitHash 5)).mp h).1 hevent, hnodup _⟩

/-- The thread is dispatched and becomes interruptible, which is in no column of the table. -/
theorem dispatch_not_in_stateTable :
    ReachableTable wokenState ∧ okTable wokenState (.dispatch 0) ∧
      ∃ r, step wokenState (.dispatch 0) = .ok r ∧ (wokenState.thread 0).code = .rn ∧ (r.thread 0).code = .r ∧
        ∀ col, (Code.rn, col, Code.r) ∉ stateTable :=
  ⟨wokenState_reachable, ⟨trivial, trivial⟩, _, rfl, rfl, rfl, by intro col; cases col <;> decide⟩

end MachVM.Kern.Sched
